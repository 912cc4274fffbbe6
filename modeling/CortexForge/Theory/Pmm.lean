import CortexForge.Core.Pmm

/-!
# Page Ownership

The allocator never hands out a page that someone still has.

`Pmm.Ok` is the shape of the allocator between calls: the counter counts the
bitmap, and the reserved pages and the padding of the last word are set. Each
call is described once, by what it does to the set of used pages
(`allocatePages_lowest`, `freePage_eq`): an allocation takes
pages that were free, all of them beyond the reserved ones, and the lowest such;
a free of anything but a page in use is refused.

Who has which page is not in the allocator's state. `Ledger` adds it: for each
allocation the pages it was given and that have not been freed since, whoever
freed them. That the ledger never lists a page twice (`accounted_reachable`) is
what makes the allocator safe to use.

## Main definitions

* `Pmm.Ok`: The invariant of the allocator.
* `Ledger`: The allocator with the pages each allocation still has.
* `Accounted`: Every page of the ledger is in use and listed once.

## Theorems

* `pmmInit_ok`: The allocator starts in order.
* `allocatePages_lowest`: What an allocation takes.
* `freePage_eq`: What a free gives back, and what it refuses.
* `accounted_reachable`: The ledger is right in every reachable state.
* `page_ownership`: The invariant, the calls and the ledger together.
* `allocation_lowest`: Which pages an allocation takes.
-/

namespace CortexForge.Pmm

open Relation List

/-- The shape of the allocator between calls. -/
structure Ok (p : Pmm) : Prop where
  size_eq : p.bitmapSize = (p.totalPages + 63) / 64
  total_lt : p.totalPages < 2 ^ 52
  reserved_le : p.reservedPages ≤ p.totalPages
  start_lt : p.memRegionStart < 2 ^ 64
  start_aligned : p.memRegionStart % pageSize = 0
  end_eq : p.memRegionEnd = wrap64 (p.memRegionStart + p.totalPages * pageSize)
  used_eq : p.usedPages = countSet p.bitmap p.totalPages
  reserved_set : ∀ pfn, pfn < p.reservedPages → bitmapTest p pfn = true
  padding_set : ∀ pfn, p.totalPages ≤ pfn → pfn < p.bitmapSize * 64 → bitmapTest p pfn = true

/-- Bit `b` of the mask below position `r`. -/
theorem getLsbD_low_mask (r b : Nat) (hr : r < 64) :
    ((1#64 <<< r) - 1#64).getLsbD b = decide (b < r) := by
  have hmask : (1#64 <<< r) - 1#64 = BitVec.ofNat 64 (2 ^ r - 1) := by
    apply BitVec.eq_of_toNat_eq
    have hone : 1 ≤ 2 ^ r := Nat.one_le_two_pow
    rw [BitVec.toNat_sub, BitVec.toNat_shiftLeft]
    simp only [BitVec.toNat_ofNat]
    omega
  rw [hmask, BitVec.getLsbD_ofNat]
  by_cases hb : b < r
  · simp [show b < 64 by omega]
  · simp [hb]

/-- In the first bitmap exactly the padding is set. -/
theorem bitTest_initBitmap (ram : Nat → BitVec 64) (total i : Nat)
    (hi : i < (total + 63) / 64 * 64) :
    bitTest (initBitmap ram total) i = decide (total ≤ i) := by
  have hword : i / 64 < (total + 63) / 64 := by omega
  rw [bitTest_eq, initBitmap]
  split_ifs with hpad
  · by_cases hlast : i / 64 = (total + 63) / 64 - 1
    · -- The last word: its low bits are pages and the others are padding.
      rw [hlast, Function.update_self, BitVec.getLsbD_not, getLsbD_low_mask _ _ (by omega)]
      have hbit : i % 64 < 64 := by omega
      simp only [hbit, decide_true, Bool.true_and, ← decide_not]
      rw [decide_eq_decide]
      omega
    · rw [Function.update_of_ne hlast, if_pos hword]
      simp only [BitVec.getLsbD_zero]
      rw [eq_comm, decide_eq_false_iff_not]
      omega
  · simp only [hword, if_true, BitVec.getLsbD_zero]
    rw [eq_comm, decide_eq_false_iff_not]
    omega

/-- The allocator starts in order, provided the reserved pages fit the region. -/
theorem pmmInit_ok {kernelEnd : Nat} {ram : Nat → BitVec 64} {memStart memSize : Nat}
    (hstart : memStart < 2 ^ 64) (halign : memStart % pageSize = 0) (hsize : memSize < 2 ^ 64)
    (hpages : memSize % pageSize = 0) (hfit : (pmmInit kernelEnd ram memStart memSize).reservedPages
      ≤ (pmmInit kernelEnd ram memStart memSize).totalPages) :
    Ok (pmmInit kernelEnd ram memStart memSize) := by
  set p := pmmInit kernelEnd ram memStart memSize with hp
  have htotal : p.totalPages = memSize / pageSize := rfl
  have hbm : p.bitmap = bitSetRange (initBitmap ram p.totalPages) 0 p.reservedPages := rfl
  have hsz : p.bitmapSize = (p.totalPages + 63) / 64 := rfl
  -- Below the last page the first bitmap has nothing set.
  have hclear : ∀ i, i < p.totalPages → bitTest (initBitmap ram p.totalPages) i = false := by
    intro i hi
    rw [bitTest_initBitmap ram _ i (by omega), decide_eq_false_iff_not]
    omega
  refine
    { size_eq := hsz
      total_lt := ?_
      reserved_le := hfit
      start_lt := hstart
      start_aligned := halign
      end_eq := ?_
      used_eq := ?_
      reserved_set := ?_
      padding_set := ?_ }
  · rw [htotal, pageSize]
    omega
  · have hback : p.totalPages * pageSize = memSize := by
      exact Nat.div_mul_cancel (Nat.dvd_of_mod_eq_zero hpages)
    rw [hback]
    rfl
  · have hzero : countSet (initBitmap ram p.totalPages) p.totalPages = 0 := by
      rw [countSet, Finset.card_eq_zero, Finset.filter_eq_empty_iff]
      intro i hi
      rw [hclear i (Finset.mem_range.mp hi)]
      exact Bool.false_ne_true
    rw [hbm, countSet_bitSetRange (Nat.succ_pos 63) _ _ 0 _ (by omega)
      (fun i _ hi => hclear i (by omega)), hzero, Nat.zero_add]
    rfl
  · intro pfn hpfn
    rw [bitmapTest, hbm, bitTest_bitSetRange (Nat.succ_pos 63)]
    simp [hpfn]
  · intro pfn hge hlt
    rw [bitmapTest, hbm, bitTest_bitSetRange (Nat.succ_pos 63),
      bitTest_initBitmap ram _ pfn (by omega)]
    simp [hge]

section

variable {p : Pmm}

/-- The lowest free page. -/
structure FirstFree (p : Pmm) (pfn : Nat) : Prop where
  lt : pfn < p.totalPages
  free : bitmapTest p pfn = false
  before : ∀ j, j < pfn → bitmapTest p j = true

/-- The scan of a word that still has a free bit finds the lowest one. The free
    bit stands for a page, since the padding is set. -/
theorem wordScan_spec (h : Ok p) (i : Nat) (hi : i < p.bitmapSize) : ∀ n bit, bit + n = 64 →
    (∀ j, j < i * 64 + bit → bitmapTest p j = true) →
    (∃ b, b < 64 ∧ bitmapTest p (i * 64 + b) = false) →
    ∃ pfn, FirstFree p pfn ∧ wordScan p i n bit = some (takePage p pfn, physAddr p pfn) := by
  intro n
  induction n with
  | zero =>
    intro bit hbit hset ⟨b, hb, hfree⟩
    exact absurd (hset (i * 64 + b) (by omega)) (by rw [hfree]; exact Bool.false_ne_true)
  | succ n ih =>
    intro bit hbit hset hex
    have hin : i * 64 + bit < p.totalPages := by
      -- Otherwise every bit from here on is padding, and the word is full.
      by_contra hout
      rcases hex with ⟨b, hb, hfree⟩
      have hbset : bitmapTest p (i * 64 + b) = true := by
        by_cases hlow : b < bit
        · exact hset _ (by omega)
        · exact h.padding_set _ (by omega) (by omega)
      rw [hfree] at hbset
      exact absurd hbset Bool.false_ne_true
    unfold wordScan
    rw [if_neg (by omega)]
    split_ifs with hfree
    · exact ⟨_, ⟨hin, hfree, hset⟩, rfl⟩
    · refine ih (bit + 1) (by omega) (fun j hj => ?_) hex
      rcases Nat.lt_succ_iff_lt_or_eq.mp hj with hlt | rfl
      · exact hset j hlt
      · exact Bool.of_not_eq_false hfree

theorem pageScan_spec (h : Ok p) : ∀ n i, i + n = p.bitmapSize →
    (∀ pfn, pfn < i * 64 → bitmapTest p pfn = true) →
    ((∀ pfn, pfn < p.totalPages → bitmapTest p pfn = true) ∧ pageScan p n i = (p, 0)) ∨
    ∃ pfn, FirstFree p pfn ∧ pageScan p n i = (takePage p pfn, physAddr p pfn) := by
  intro n
  induction n with
  | zero =>
    intro i hi hset
    left
    refine ⟨fun pfn hpfn => hset pfn ?_, rfl⟩
    have := h.size_eq
    omega
  | succ n ih =>
    intro i hi hset
    unfold pageScan
    split_ifs with hfull
    · refine ih (i + 1) (by omega) (fun pfn hpfn => ?_)
      by_cases hlow : pfn < i * 64
      · exact hset pfn hlow
      · refine bitTest_of_allOnes (Nat.succ_pos 63) _ _ ?_
        rw [show pfn / 64 = i by omega]
        exact hfull
    · rcases wordScan_spec h i (by omega) 64 0 rfl hset
        (exists_not_bitTest (Nat.succ_pos 63) _ i hfull) with ⟨pfn, hfirst, hscan⟩
      exact .inr ⟨pfn, hfirst, by rw [hscan, Option.getD_some]⟩

/-- The pages from `s` on are `count` free pages in a row. -/
structure FreeRun (p : Pmm) (s count : Nat) : Prop where
  unreserved : p.reservedPages ≤ s
  inside : s + count ≤ p.totalPages
  free : ∀ i, s ≤ i → i < s + count → bitmapTest p i = false

/-- The lowest free run has been taken, or there is none. -/
def TakesLowest (p : Pmm) (count : Nat) (res : Pmm × Nat) : Prop :=
  ((∀ s, ¬ FreeRun p s count) ∧ res = (p, 0)) ∨
  ∃ s, FreeRun p s count ∧ (∀ s', FreeRun p s' count → s ≤ s') ∧
    res = (takeRun p s count, physAddr p s)

/-- The scan for a run, standing `runLength` free pages beyond `lo`. What lies
    behind is settled: no free run starts below `lo`. -/
theorem runScan_spec (count : Nat) : ∀ n lo runLength runStart,
    lo + runLength + n = p.totalPages → p.reservedPages ≤ lo → runLength < count →
    (runLength = 0 ∨ runStart = lo) →
    (∀ i, lo ≤ i → i < lo + runLength → bitmapTest p i = false) →
    (∀ s, FreeRun p s count → lo ≤ s) →
    TakesLowest p count (runScan p count n (lo + runLength) runStart runLength) := by
  intro n
  induction n with
  | zero =>
    intro lo runLength runStart hend _ hlen _ _ hbehind
    refine .inl ⟨fun s hs => ?_, rfl⟩
    have := hbehind s hs
    have := hs.inside
    omega
  | succ n ih =>
    intro lo runLength runStart hend hlo hlen hstart hfree hbehind
    unfold runScan
    by_cases htest : bitmapTest p (lo + runLength) = false
    · have hstart' : (if runLength = 0 then lo + runLength else runStart) = lo := by
        split <;> omega
      have hfree' : ∀ i, lo ≤ i → i < lo + (runLength + 1) → bitmapTest p i = false := by
        intro i h1 h2
        rcases Nat.lt_succ_iff_lt_or_eq.mp h2 with hlt | rfl
        · exact hfree i h1 hlt
        · exact htest
      simp only [if_pos htest, hstart']
      by_cases hfound : runLength + 1 = count
      · rw [if_pos hfound]
        exact .inr ⟨lo, ⟨hlo, by omega, fun i h1 h2 => hfree' i h1 (by omega)⟩, hbehind, rfl⟩
      · rw [if_neg hfound]
        exact ih lo (runLength + 1) lo (by omega) hlo (by omega) (.inr rfl) hfree' hbehind
    · -- A page in use ends the run, and the next one starts behind it.
      rw [if_neg htest]
      refine ih (lo + runLength + 1) 0 runStart (by omega) (by omega) (by omega) (.inl rfl)
        (fun i h1 h2 => by omega) (fun s hs => ?_)
      by_contra hc
      have := hbehind s hs
      exact htest (hs.free _ (by omega) (by omega))

end

section

variable {p : Pmm}

/-- An allocation takes the lowest run there is, or there is none. -/
theorem allocatePages_lowest (h : Ok p) {count : Nat} (hcount : 1 ≤ count) :
    TakesLowest p count (pmmAllocatePages p count) := by
  have hle := h.reserved_le
  rw [pmmAllocatePages, if_neg (by omega)]
  split_ifs with hone
  · subst hone
    rcases pageScan_spec h p.bitmapSize 0 (Nat.zero_add _) (fun pfn hpfn => by omega) with
      ⟨hall, hrun⟩ | ⟨pfn, hfirst, hrun⟩
    · refine .inl ⟨fun s hs => ?_, hrun⟩
      have := hs.inside
      exact absurd (hs.free s (Nat.le_refl s) (by omega)) (by rw [hall s (by omega)]; nofun)
    · -- The reserved pages are in use, so a free page lies beyond them.
      have hres : p.reservedPages ≤ pfn := by
        by_contra hc
        exact absurd hfirst.free (by rw [h.reserved_set pfn (by omega)]; nofun)
      have hlt := hfirst.lt
      refine .inr ⟨pfn, ⟨hres, by omega, fun i h1 h2 => ?_⟩, fun s hs => ?_, hrun⟩
      · rw [show i = pfn by omega]
        exact hfirst.free
      · by_contra hc
        have hused := hfirst.before s (by omega)
        exact absurd (hs.free s (Nat.le_refl s) (by omega)) (by rw [hused]; nofun)
  · exact runScan_spec count (p.totalPages - p.reservedPages) p.reservedPages 0 0 (by omega)
      (Nat.le_refl _) (by omega) (.inl rfl) (fun i h1 h2 => by omega) fun s hs => hs.unreserved

/-- An allocation returns nothing, or a run of pages that were free. -/
theorem allocatePages_result (h : Ok p) (count : Nat) :
    pmmAllocatePages p count = (p, 0) ∨
    ∃ s, FreeRun p s count ∧ pmmAllocatePages p count = (takeRun p s count, physAddr p s) := by
  by_cases hzero : count = 0
  · exact .inl (if_pos hzero)
  · rcases allocatePages_lowest h (by omega : 1 ≤ count) with ⟨_, hrun⟩ | ⟨s, hs, _, hrun⟩
    · exact .inl hrun
    · exact .inr ⟨s, hs, hrun⟩

theorem bitmapTest_takeRun (p : Pmm) (s count i : Nat) :
    bitmapTest (takeRun p s count) i
      = (decide (s ≤ i ∧ i < s + count) || bitmapTest p i) :=
  bitTest_bitSetRange (Nat.succ_pos 63) p.bitmap s count i

theorem takeRun_ok (h : Ok p) {s count : Nat} (hrun : FreeRun p s count) :
    Ok (takeRun p s count) := by
  have hcount := countSet_bitSetRange (Nat.succ_pos 63) p.bitmap p.totalPages s count hrun.inside
    hrun.free
  have hmax := countSet_le (bitSetRange p.bitmap s count) p.totalPages
  have hlt := h.total_lt
  refine { h with used_eq := ?_, reserved_set := ?_, padding_set := ?_ }
  · -- The count stays below the number of pages, so it does not wrap.
    simp only [takeRun]
    rw [hcount, h.used_eq, wrap64, Nat.mod_eq_of_lt (by omega)]
  · intro pfn hpfn
    simp [bitmapTest_takeRun, h.reserved_set pfn hpfn]
  · intro pfn hge hlt
    simp [bitmapTest_takeRun, h.padding_set pfn hge hlt]

/-- The address is that of a page in use beyond the reserved ones. -/
structure Freeable (p : Pmm) (addr : Nat) : Prop where
  start_le : p.memRegionStart ≤ addr
  lt_end : addr < p.memRegionEnd
  aligned : addr % pageSize = 0
  unreserved : p.reservedPages ≤ pfnOf p addr
  inUse : bitmapTest p (pfnOf p addr) = true

instance (p : Pmm) (addr : Nat) : Decidable (Freeable p addr) :=
  decidable_of_iff (p.memRegionStart ≤ addr ∧ addr < p.memRegionEnd ∧ addr % pageSize = 0 ∧
      p.reservedPages ≤ pfnOf p addr ∧ bitmapTest p (pfnOf p addr) = true)
    ⟨fun h => ⟨h.1, h.2.1, h.2.2.1, h.2.2.2.1, h.2.2.2.2⟩,
      fun h => ⟨h.start_le, h.lt_end, h.aligned, h.unreserved, h.inUse⟩⟩

/-- One page less in use. -/
def givePage (p : Pmm) (pfn : Nat) : Pmm :=
  { p with bitmap := bitClear p.bitmap pfn, usedPages := sub64 p.usedPages 1 }

/-- A free takes effect on a page in use and changes nothing otherwise. -/
theorem freePage_eq (p : Pmm) (addr : Nat) :
    pmmFreePage p addr = if Freeable p addr then givePage p (pfnOf p addr) else p := by
  unfold pmmFreePage
  by_cases hfree : Freeable p addr
  · have hres := hfree.unreserved
    rw [if_pos hfree, if_neg (by have := hfree.start_le; have := hfree.lt_end; omega),
      if_neg (not_not.mpr hfree.aligned), if_neg (by omega), hfree.inUse]
    rfl
  · split_ifs with hreg halign hres htest
    · rfl
    · rfl
    · rfl
    · rfl
    · exact absurd ⟨by omega, by omega, by omega, by omega, Bool.not_eq_false _ ▸ htest⟩ hfree

/-- A region that wraps around has no address between its ends, so the number
    of an address that passes the region check is that of a page. -/
theorem pfnOf_lt (h : Ok p) {addr : Nat} (hfree : Freeable p addr) :
    pfnOf p addr < p.totalPages ∧ physAddr p (pfnOf p addr) = addr := by
  rcases hfree with ⟨hlo, hhi, halign, _, _⟩
  have halign' := h.start_aligned
  have htotal := h.total_lt
  rw [h.end_eq] at hhi
  unfold pageSize at halign halign'
  unfold wrap64 pageSize at hhi
  have hnowrap : p.memRegionStart + p.totalPages * 4096 < 2 ^ 64 := by omega
  rw [Nat.mod_eq_of_lt hnowrap] at hhi
  have hdiff := sub64_of_le hlo (Nat.lt_trans hhi hnowrap)
  unfold physAddr pfnOf pfnToPhys wrap64 pageSize
  constructor
  · omega
  · omega

/-- Different pages have different addresses, and the number of a page's address
    is the page's. -/
theorem pfnOf_physAddr (h : Ok p) (pfn : Nat) (hpfn : pfn < p.totalPages) :
    pfnOf p (physAddr p pfn) = pfn := by
  have htotal := h.total_lt
  unfold pfnOf physAddr pfnToPhys sub64 wrap64 pageSize
  omega

theorem bitmapTest_givePage (p : Pmm) (pfn i : Nat) :
    bitmapTest (givePage p pfn) i = (!decide (i = pfn) && bitmapTest p i) :=
  bitTest_bitClear (Nat.succ_pos 63) p.bitmap pfn i

theorem givePage_ok (h : Ok p) (pfn : Nat) (hlt : pfn < p.totalPages)
    (hres : p.reservedPages ≤ pfn) (hused : bitmapTest p pfn = true) : Ok (givePage p pfn) := by
  have hcount := countSet_bitClear (Nat.succ_pos 63) p.bitmap p.totalPages pfn hlt hused
  have hmax := countSet_le p.bitmap p.totalPages
  have htotal := h.total_lt
  refine { h with used_eq := ?_, reserved_set := ?_, padding_set := ?_ }
  · simp only [givePage]
    rw [h.used_eq]
    unfold sub64 wrap64
    omega
  · intro i (hi : i < p.reservedPages)
    rw [bitmapTest_givePage, h.reserved_set i hi, Bool.and_true, Bool.not_eq_true',
      decide_eq_false_iff_not]
    omega
  · intro i (hge : p.totalPages ≤ i) hi
    rw [bitmapTest_givePage, h.padding_set i hge hi, Bool.and_true, Bool.not_eq_true',
      decide_eq_false_iff_not]
    omega

theorem freePage_ok (h : Ok p) (addr : Nat) : Ok (pmmFreePage p addr) := by
  rw [freePage_eq]
  split_ifs with hfree
  · exact givePage_ok h _ (pfnOf_lt h hfree).1 hfree.unreserved hfree.inUse
  · exact h

end

/-- The allocator with, for each allocation made, the addresses of the pages it
    was given that have not been freed since. -/
structure Ledger where
  pmm : Pmm
  held : List (List Nat)

inductive Call where
  | allocatePage
  | allocatePages (count : Nat)
  | freePage (addr : Nat)
  | freePages (addr count : Nat)

/-- The addresses of `count` pages from `addr` up. -/
def pagesFrom (addr count : Nat) : List Nat :=
  (range count).map (fun i => wrap64 (addr + i * pageSize))

/-- The holdings after an allocation of `count` pages that returned `addr`. -/
def afterAlloc (held : List (List Nat)) (addr count : Nat) : List (List Nat) :=
  if addr = 0 then held else held ++ [pagesFrom addr count]

/-- The holdings after a free of `addr`: a page that is given back is no longer
    anyone's. -/
def afterFree (p : Pmm) (held : List (List Nat)) (addr : Nat) : List (List Nat) :=
  if Freeable p addr then held.map (filter (fun a => a ≠ addr)) else held

def afterFrees (p : Pmm) (held : List (List Nat)) (addr : Nat) : Nat → List (List Nat)
  | 0 => held
  | count + 1 =>
      afterFree (pmmFreePages p addr count) (afterFrees p held addr count)
        (wrap64 (addr + count * pageSize))

def Ledger.next (l : Ledger) : Call → Ledger
  | .allocatePage =>
      { pmm := (pmmAllocatePage l.pmm).1
        held := afterAlloc l.held (pmmAllocatePage l.pmm).2 1 }
  | .allocatePages count =>
      { pmm := (pmmAllocatePages l.pmm count).1
        held := afterAlloc l.held (pmmAllocatePages l.pmm count).2 count }
  | .freePage addr => { pmm := pmmFreePage l.pmm addr, held := afterFree l.pmm l.held addr }
  | .freePages addr count =>
      { pmm := pmmFreePages l.pmm addr count, held := afterFrees l.pmm l.held addr count }

def CallStep (l l' : Ledger) : Prop := ∃ c, l' = l.next c

/-- The address of a page in use beyond the reserved ones. -/
def UsedPage (p : Pmm) (addr : Nat) : Prop :=
  ∃ pfn, p.reservedPages ≤ pfn ∧ pfn < p.totalPages ∧ bitmapTest p pfn = true ∧
    addr = physAddr p pfn

/-- The allocator is in order, and the ledger lists pages in use, each once. -/
structure Accounted (p : Pmm) (held : List (List Nat)) : Prop where
  ok : Ok p
  used : ∀ ps ∈ held, ∀ addr ∈ ps, UsedPage p addr
  nodup : held.flatten.Nodup

section

variable {p : Pmm} {held : List (List Nat)}

/-- The pages of a run have the addresses of their frame numbers. -/
theorem pagesFrom_physAddr (p : Pmm) (s count : Nat) :
    pagesFrom (physAddr p s) count
      = (range count).map (fun i => physAddr p (s + i)) := by
  refine map_congr_left fun i _ => ?_
  unfold physAddr pfnToPhys wrap64 pageSize
  omega

theorem physAddr_inj (h : Ok p) {i j : Nat} (hi : i < p.totalPages) (hj : j < p.totalPages)
    (heq : physAddr p i = physAddr p j) : i = j := by
  rw [← pfnOf_physAddr h i hi, ← pfnOf_physAddr h j hj, heq]

variable (h : Accounted p held)
include h

/-- Taking a free run adds its pages to the ledger: they were free and the pages
    of the ledger are in use, so none is listed already. -/
theorem accounted_takeRun {s count : Nat} (hrun : FreeRun p s count) :
    Accounted (takeRun p s count) (held ++ [pagesFrom (physAddr p s) count]) := by
  have hpages := pagesFrom_physAddr p s count
  have hle := hrun.inside
  refine ⟨takeRun_ok h.ok hrun, ?_, ?_⟩
  · intro ps hps addr haddr
    rcases mem_append.mp hps with hold | hnew
    · rcases h.used ps hold addr haddr with ⟨pfn, h1, h2, h3, h4⟩
      exact ⟨pfn, h1, h2, by rw [bitmapTest_takeRun, h3, Bool.or_true], h4⟩
    · rw [mem_singleton.mp hnew, hpages, mem_map] at haddr
      rcases haddr with ⟨i, hi, rfl⟩
      have hlt := mem_range.mp hi
      refine ⟨s + i, Nat.le_trans hrun.unreserved (Nat.le_add_right s i),
        show s + i < p.totalPages by omega, ?_, rfl⟩
      rw [bitmapTest_takeRun, decide_eq_true ⟨by omega, by omega⟩, Bool.true_or]
  · rw [flatten_append, flatten_singleton, nodup_append]
    refine ⟨h.nodup, ?_, ?_⟩
    · rw [hpages]
      refine List.Nodup.map_on (fun i hi j hj heq => ?_) nodup_range
      have hi' := mem_range.mp hi
      have hj' := mem_range.mp hj
      have := physAddr_inj h.ok (by omega) (by omega) heq
      omega
    · intro addr hold addr' hnew heq
      subst heq
      rcases mem_flatten.mp hold with ⟨ps, hps, hin⟩
      rcases h.used ps hps addr hin with ⟨pfn, _, hlt, hused, rfl⟩
      rw [hpages, mem_map] at hnew
      rcases hnew with ⟨i, hi, heq⟩
      have hi' := mem_range.mp hi
      have hpfn := physAddr_inj h.ok (by omega) hlt heq
      rw [← hpfn, hrun.free (s + i) (by omega) (by omega)] at hused
      exact absurd hused Bool.false_ne_true

theorem accounted_allocate (count : Nat) :
    Accounted (pmmAllocatePages p count).1
      (afterAlloc held (pmmAllocatePages p count).2 count) := by
  rcases allocatePages_result h.ok count with hnone | ⟨s, hfree, hrun⟩
  · rw [hnone, afterAlloc]
    exact h
  · have htaken := accounted_takeRun h hfree
    rw [hrun, afterAlloc]
    by_cases hzero : physAddr p s = 0
    · -- A page at address zero is taken but nobody is told.
      rw [if_pos hzero]
      refine ⟨htaken.ok, fun ps hps => htaken.used ps (mem_append_left _ hps), h.nodup⟩
    · rw [if_neg hzero]
      exact htaken

/-- A page given back leaves the ledger, and every other page stays in use. -/
theorem accounted_free (addr : Nat) :
    Accounted (pmmFreePage p addr) (afterFree p held addr) := by
  rw [freePage_eq, afterFree]
  split_ifs with hfree
  · rcases pfnOf_lt h.ok hfree with ⟨hlt, hback⟩
    refine ⟨givePage_ok h.ok _ hlt hfree.unreserved hfree.inUse, ?_, ?_⟩
    · intro ps hps a ha
      rcases mem_map.mp hps with ⟨ps0, hps0, rfl⟩
      rcases mem_filter.mp ha with ⟨hin, hne⟩
      rcases h.used ps0 hps0 a hin with ⟨pfn, h1, h2, h3, h4⟩
      refine ⟨pfn, h1, h2, ?_, h4⟩
      -- Another address is another page, whose bit is not touched.
      have hpfn : pfn ≠ pfnOf p addr := by
        intro hc
        rw [hc, hback] at h4
        exact absurd h4 (by simpa using hne)
      rw [bitmapTest_givePage, h3, Bool.and_true, Bool.not_eq_true', decide_eq_false_iff_not]
      exact hpfn
    · rw [← filter_flatten]
      exact h.nodup.filter _
  · exact h

theorem accounted_frees (addr count : Nat) :
    Accounted (pmmFreePages p addr count) (afterFrees p held addr count) := by
  induction count with
  | zero => exact h
  | succ count ih => exact accounted_free ih _

end

theorem accounted_step (l l' : Ledger) (h : Accounted l.pmm l.held) (hstep : CallStep l l') :
    Accounted l'.pmm l'.held := by
  rcases hstep with ⟨c, rfl⟩
  cases c with
  | allocatePage => exact accounted_allocate h 1
  | allocatePages count => exact accounted_allocate h count
  | freePage addr => exact accounted_free h addr
  | freePages addr count => exact accounted_frees h addr count

/-- Two states of one allocator: the region and its reserved part are the same. -/
structure SameRegion (p p' : Pmm) : Prop where
  bitmapSize : p'.bitmapSize = p.bitmapSize
  totalPages : p'.totalPages = p.totalPages
  reservedPages : p'.reservedPages = p.reservedPages
  memRegionStart : p'.memRegionStart = p.memRegionStart
  memRegionEnd : p'.memRegionEnd = p.memRegionEnd

theorem sameRegion_refl (p : Pmm) : SameRegion p p := ⟨rfl, rfl, rfl, rfl, rfl⟩

theorem sameRegion_trans {p p' p'' : Pmm} (h : SameRegion p p') (h' : SameRegion p' p'') :
    SameRegion p p'' :=
  ⟨h'.1.trans h.1, h'.2.trans h.2, h'.3.trans h.3, h'.4.trans h.4, h'.5.trans h.5⟩

theorem sameRegion_allocate {p : Pmm} (h : Ok p) (count : Nat) :
    SameRegion p (pmmAllocatePages p count).1 := by
  rcases allocatePages_result h count with hrun | ⟨s, _, hrun⟩
  · rw [hrun]
    exact sameRegion_refl p
  · rw [hrun]
    exact ⟨rfl, rfl, rfl, rfl, rfl⟩

theorem sameRegion_free (p : Pmm) (addr : Nat) : SameRegion p (pmmFreePage p addr) := by
  rw [freePage_eq]
  split
  · exact ⟨rfl, rfl, rfl, rfl, rfl⟩
  · exact sameRegion_refl p

theorem sameRegion_frees (p : Pmm) (addr count : Nat) :
    SameRegion p (pmmFreePages p addr count) := by
  induction count with
  | zero => exact sameRegion_refl p
  | succ count ih => exact sameRegion_trans ih (sameRegion_free _ _)

theorem sameRegion_step (l l' : Ledger) (h : Ok l.pmm) (hstep : CallStep l l') :
    SameRegion l.pmm l'.pmm := by
  rcases hstep with ⟨c, rfl⟩
  cases c with
  | allocatePage => exact sameRegion_allocate h 1
  | allocatePages count => exact sameRegion_allocate h count
  | freePage addr => exact sameRegion_free l.pmm addr
  | freePages addr count => exact sameRegion_frees l.pmm addr count

/-- Whatever is called with whatever arguments, the accounts stay right. -/
theorem accounted_reachable (p : Pmm) (h : Ok p) (l : Ledger)
    (hreach : ReflTransGen CallStep { pmm := p, held := [] } l) :
    Accounted l.pmm l.held ∧ SameRegion p l.pmm := by
  induction hreach with
  | refl => exact ⟨⟨h, nofun, nodup_nil⟩, sameRegion_refl p⟩
  | tail _ hstep ih =>
    exact ⟨accounted_step _ _ ih.1 hstep,
      sameRegion_trans ih.2 (sameRegion_step _ _ ih.1.ok hstep)⟩

/-- An allocation that returned something: the pages were free before it and are
    in use after it, and lie beyond the reserved pages and inside the region. -/
theorem allocated_range {p : Pmm} (h : Ok p) (count : Nat)
    (hsome : (pmmAllocatePages p count).2 ≠ 0) :
    ∃ s, (pmmAllocatePages p count).2 = physAddr p s ∧ p.reservedPages ≤ s ∧
      s + count ≤ p.totalPages ∧
      ∀ i, s ≤ i → i < s + count →
        bitmapTest p i = false ∧ bitmapTest (pmmAllocatePages p count).1 i = true := by
  rcases allocatePages_result h count with hrun | ⟨s, hfree, hrun⟩
  · rw [hrun] at hsome
    exact absurd rfl hsome
  · rw [hrun]
    refine ⟨s, rfl, hfree.unreserved, hfree.inside, fun i h1 h2 => ⟨hfree.free i h1 h2, ?_⟩⟩
    rw [bitmapTest_takeRun, decide_eq_true ⟨h1, h2⟩, Bool.true_or]

/-- Page ownership. From a boot whose reserved pages fit the region, after any
    calls with any arguments: the counter counts the pages in use; the reserved
    pages and the padding are in use; an allocation takes pages that were free,
    beyond the reserved ones and inside the region; a free of anything but a
    page in use changes nothing; and no page is on the account of two
    allocations, or twice on one. -/
theorem page_ownership (kernelEnd : Nat) (ram : Nat → BitVec 64) (memStart memSize : Nat)
    (hstart : memStart < 2 ^ 64) (halign : memStart % pageSize = 0) (hsize : memSize < 2 ^ 64)
    (hpages : memSize % pageSize = 0) (hfit : (pmmInit kernelEnd ram memStart memSize).reservedPages
      ≤ (pmmInit kernelEnd ram memStart memSize).totalPages) (l : Ledger)
    (hreach : ReflTransGen CallStep
      { pmm := pmmInit kernelEnd ram memStart memSize, held := [] } l) :
    SameRegion (pmmInit kernelEnd ram memStart memSize) l.pmm ∧
    l.pmm.usedPages = countSet l.pmm.bitmap l.pmm.totalPages ∧
    (∀ pfn, pfn < l.pmm.reservedPages → bitmapTest l.pmm pfn = true) ∧
    (∀ pfn, l.pmm.totalPages ≤ pfn → pfn < l.pmm.bitmapSize * 64 → bitmapTest l.pmm pfn = true) ∧
    ((pmmAllocatePage l.pmm).2 ≠ 0 → ∃ pfn, (pmmAllocatePage l.pmm).2 = physAddr l.pmm pfn ∧
      l.pmm.reservedPages ≤ pfn ∧ pfn < l.pmm.totalPages ∧ bitmapTest l.pmm pfn = false ∧
      bitmapTest (pmmAllocatePage l.pmm).1 pfn = true) ∧
    (∀ count, (pmmAllocatePages l.pmm count).2 ≠ 0 →
      ∃ s, (pmmAllocatePages l.pmm count).2 = physAddr l.pmm s ∧ l.pmm.reservedPages ≤ s ∧
        s + count ≤ l.pmm.totalPages ∧
        ∀ i, s ≤ i → i < s + count →
          bitmapTest l.pmm i = false ∧ bitmapTest (pmmAllocatePages l.pmm count).1 i = true) ∧
    (∀ addr, addr < l.pmm.memRegionStart ∨ l.pmm.memRegionEnd ≤ addr ∨ addr % pageSize ≠ 0 ∨
      pfnOf l.pmm addr < l.pmm.reservedPages ∨ bitmapTest l.pmm (pfnOf l.pmm addr) = false →
      pmmFreePage l.pmm addr = l.pmm) ∧
    l.held.flatten.Nodup := by
  have hinit := pmmInit_ok hstart halign hsize hpages hfit
  rcases accounted_reachable _ hinit l hreach with ⟨h, hsame⟩
  refine ⟨hsame, h.ok.used_eq, h.ok.reserved_set, h.ok.padding_set, ?_,
    fun count hsome => allocated_range h.ok count hsome, ?_, h.nodup⟩
  · intro hsome
    rcases allocated_range h.ok 1 hsome with ⟨pfn, haddr, hres, hlt, htest⟩
    exact ⟨pfn, haddr, hres, by omega, htest pfn (Nat.le_refl _) (by omega)⟩
  · intro addr hbad
    rw [freePage_eq, if_neg]
    rintro ⟨h1, h2, h3, h4, h5⟩
    rw [h5] at hbad
    simp only [Bool.true_eq_false, or_false] at hbad
    omega

/-- Sixteen pages behind a small kernel, after one allocation of three pages and
    a free of the second. -/
theorem page_ownership_sixteen : ∃ l : Ledger,
    l.held = [[0x40002000, 0x40004000]] ∧ l.held.flatten.Nodup ∧
      l.pmm.usedPages = countSet l.pmm.bitmap l.pmm.totalPages ∧ l.pmm.usedPages = 4 := by
  have h := page_ownership 0x40000800 (fun _ => 0) 0x40000000 0x10000 (by decide) (by decide)
    (by decide) (by decide) (by decide)
    ((Ledger.next { pmm := _, held := [] } (.allocatePages 3)).next (.freePage 0x40003000))
    (ReflTransGen.tail (ReflTransGen.single ⟨.allocatePages 3, rfl⟩)
      ⟨.freePage 0x40003000, rfl⟩)
  exact ⟨_, by decide, h.2.2.2.2.2.2.2, h.2.1, by decide⟩

section

variable {p : Pmm}

/-- An allocator in order whose pages have addresses, none of them 0. -/
structure Addressed (p : Pmm) : Prop where
  ok : Ok p
  below : p.memRegionStart + p.totalPages * pageSize < 2 ^ 64
  pos : 0 < p.memRegionStart + p.reservedPages * pageSize

/-- A run that was taken is given back page by page. -/
theorem bitmapTest_freePages (h : Addressed p) {s n : Nat} (hrun : FreeRun p s n) (k : Nat)
    (hk : k ≤ n) (i : Nat) :
    bitmapTest (pmmFreePages (takeRun p s n) (physAddr p s) k) i
      = (bitmapTest p i || decide (s + k ≤ i ∧ i < s + n)) := by
  induction k generalizing i with
  | zero => rw [Nat.add_zero, pmmFreePages, bitmapTest_takeRun, Bool.or_comm]
  | succ k ih =>
    have hsame := sameRegion_frees (takeRun p s n) (physAddr p s) k
    have hinside := hrun.inside
    have hbelow := h.below
    have haddr : wrap64 (physAddr p s + k * pageSize) = p.memRegionStart + (s + k) * pageSize := by
      unfold physAddr pfnToPhys wrap64 pageSize at *
      omega
    rw [pmmFreePages, haddr]
    generalize pmmFreePages (takeRun p s n) (physAddr p s) k = q at ih hsame ⊢
    have hpfn : pfnOf q (p.memRegionStart + (s + k) * pageSize) = s + k := by
      rw [pfnOf, hsame.memRegionStart]
      simp only [takeRun, sub64, wrap64, pageSize] at hbelow ⊢
      omega
    have hfreeable : Freeable q (p.memRegionStart + (s + k) * pageSize) := by
      have halign := h.ok.start_aligned
      have hres := hrun.unreserved
      refine ⟨?_, ?_, ?_, ?_, ?_⟩
      · rw [hsame.memRegionStart]
        show p.memRegionStart ≤ _
        omega
      · rw [hsame.memRegionEnd, show (takeRun p s n).memRegionEnd = _ from h.ok.end_eq, wrap64,
          Nat.mod_eq_of_lt hbelow]
        unfold pageSize
        omega
      · unfold pageSize at halign ⊢
        omega
      · rw [hpfn, hsame.reservedPages]
        show p.reservedPages ≤ s + k
        omega
      · rw [hpfn, ih (by omega), decide_eq_true ⟨Nat.le_refl _, by omega⟩, Bool.or_true]
    rw [freePage_eq, if_pos hfreeable, hpfn, bitmapTest_givePage, ih (by omega)]
    by_cases hi : i = s + k
    · simp [hi, hrun.free (s + k) (by omega) (by omega)]
    · have hiff : (s + k ≤ i ∧ i < s + n) ↔ (s + (k + 1) ≤ i ∧ i < s + n) := by omega
      simp [hi, hiff]

/-- Giving back what was just allocated restores the allocator. -/
theorem freePages_takeRun (h : Addressed p) {s n : Nat} (hrun : FreeRun p s n) :
    pmmFreePages (takeRun p s n) (physAddr p s) n = p := by
  have hbits := bitmapTest_freePages h hrun n (Nat.le_refl n)
  have hsame := sameRegion_frees (takeRun p s n) (physAddr p s) n
  have hok : ∀ k, Ok (pmmFreePages (takeRun p s n) (physAddr p s) k) := by
    intro k
    induction k with
    | zero => exact takeRun_ok h.ok hrun
    | succ k ih => exact freePage_ok ih _
  have hused := (hok n).used_eq
  generalize pmmFreePages (takeRun p s n) (physAddr p s) n = q at hbits hsame hused ⊢
  have hmap : q.bitmap = p.bitmap := by
    refine bitmap_ext (by decide) fun i => ?_
    have hbit := hbits i
    rwa [decide_eq_false fun hc => by omega, Bool.or_false] at hbit
  rw [hsame.totalPages, hmap] at hused
  exact Pmm.mk.injEq .. ▸ ⟨hmap, hsame.bitmapSize, hsame.totalPages,
    hused.trans h.ok.used_eq.symm, hsame.reservedPages, hsame.memRegionStart, hsame.memRegionEnd⟩

/-- Allocation is complete and takes the lowest run: it succeeds exactly when there is a
    free run of the length asked for, returns the first one, changes nothing when it
    fails, and a free right afterwards restores bitmap and counter. -/
theorem allocation_lowest (h : Addressed p) (n : Nat) (hn : 1 ≤ n) :
    ((pmmAllocatePages p n).2 ≠ 0 ↔ ∃ s, FreeRun p s n) ∧
    ((pmmAllocatePages p n).2 ≠ 0 → ∃ s, FreeRun p s n ∧ (∀ s', FreeRun p s' n → s ≤ s') ∧
      (pmmAllocatePages p n).2 = p.memRegionStart + s * pageSize ∧
      pmmFreePages (pmmAllocatePages p n).1 (pmmAllocatePages p n).2 n = p) ∧
    ((pmmAllocatePages p n).2 = 0 → (pmmAllocatePages p n).1 = p) := by
  rcases allocatePages_lowest h.ok hn with ⟨hnone, hres⟩ | ⟨s, hs, hlow, hres⟩
  · rw [hres]
    exact ⟨iff_of_false (fun hc => hc rfl) fun ⟨s, hs⟩ => hnone s hs, fun hc => absurd rfl hc,
      fun _ => rfl⟩
  · have haddr : physAddr p s = p.memRegionStart + s * pageSize := by
      have hbelow := h.below
      have hinside := hs.inside
      unfold physAddr pfnToPhys wrap64 pageSize at *
      omega
    have hne : physAddr p s ≠ 0 := by
      have hpos := h.pos
      have hle := Nat.mul_le_mul_right pageSize hs.unreserved
      omega
    rw [hres]
    exact ⟨iff_of_true hne ⟨s, hs⟩, fun _ => ⟨s, hs, hlow, haddr, freePages_takeRun h hs⟩,
      fun hc => absurd hc hne⟩

/-- Three pages in sixteen, of which the first one is the kernel's. -/
theorem allocation_lowest_sixteen :
    pmmFreePages (pmmAllocatePages (pmmInit 0x40000800 (fun _ => 0) 0x40000000 0x10000) 3).1
      0x40002000 3 = pmmInit 0x40000800 (fun _ => 0) 0x40000000 0x10000 := by
  have h : Addressed (pmmInit 0x40000800 (fun _ => 0) 0x40000000 0x10000) :=
    ⟨pmmInit_ok (by decide) (by decide) (by decide) (by decide) (by decide), by decide,
      by decide⟩
  rcases (allocation_lowest h 3 (by decide)).2.1 (by decide) with ⟨s, _, _, _, hrestored⟩
  exact hrestored

end

end CortexForge.Pmm
