import CortexForge.Core.SchedTrace
import CortexForge.Theory.PmmSource

/-!
# Spare Pages

How many pages the calls of the scheduler take at most. An allocator whose last
`n` pages are free grants every request of up to `n` pages, and since it looks
for pages from below, it still has the rest of them afterwards. So a long run of
calls can be shown to succeed by counting alone, without following where pages
come from.

## Main definitions

* `Pmm.Spare`: The last pages of an allocator are free.
* `createCost`: The pages that a new user task takes at most.

## Theorems

* `spare_allocate`: Requests are granted while there are spare pages.
* `createTask_spare`: A user task is created while there are spare pages.
-/

namespace CortexForge

namespace Pmm

/-- The last `n` pages of the allocator are free. -/
structure Spare (p : Pmm) (n : Nat) : Prop where
  le_total : n ≤ p.totalPages
  free : ∀ pfn, p.totalPages - n ≤ pfn → pfn < p.totalPages → bitmapTest p pfn = false

section

variable {p : Pmm} {n : Nat}

theorem spare_mono (h : Spare p n) {k : Nat} (hk : k ≤ n) : Spare p k :=
  ⟨Nat.le_trans hk h.le_total, fun pfn hlo hhi => h.free pfn (by omega) hhi⟩

theorem spare_reserved (hok : Ok p) (h : Spare p n) (hn : 0 < n) :
    p.reservedPages ≤ p.totalPages - n := by
  have hle := h.le_total
  by_contra hc
  have hset := hok.reserved_set (p.totalPages - n) (by omega)
  rw [h.free (p.totalPages - n) (Nat.le_refl _) (by omega)] at hset
  exact absurd hset Bool.false_ne_true

theorem spare_takeRun (h : Spare p n) {s count : Nat} (hcount : count ≤ n)
    (hs : s ≤ p.totalPages - n) : Spare (takeRun p s count) (n - count) := by
  have hle := h.le_total
  refine ⟨Nat.le_trans (by omega) hle, fun pfn hlo hhi => ?_⟩
  have hlo' : p.totalPages - (n - count) ≤ pfn := hlo
  rw [bitmapTest_takeRun, h.free pfn (by omega) hhi, Bool.or_false, decide_eq_false_iff_not]
  omega

/-- A request for spare pages is granted. The pages come from below, so the rest
    of the spare pages are still free. -/
theorem spare_allocate (hok : Mapped p) (h : Spare p n) {count : Nat} (hpos : 0 < count)
    (hcount : count ≤ n) (hstart : p.memRegionStart ≠ 0) :
    (pmmAllocatePages p count).2 ≠ 0 ∧
      Spare (pmmAllocatePages p count).1 (n - count) := by
  have hle := h.le_total
  have hres := spare_reserved hok.ok h (by omega)
  have hrun : FreeRun p (p.totalPages - n) count :=
    ⟨hres, by omega, fun i h1 h2 => h.free i h1 (by omega)⟩
  rcases allocatePages_lowest hok.ok hpos with ⟨hnone, _⟩ | ⟨s, hs, hmin, heq⟩
  · exact absurd hrun (hnone _)
  · rw [heq]
    refine ⟨?_, spare_takeRun h hcount (hmin _ hrun)⟩
    have hinside := hs.inside
    rw [physAddr_eq hok s (by omega)]
    omega

/-- Beyond the reserved pages, every page is free at boot. -/
theorem spare_init (kernelEnd : Nat) (ram : Nat → BitVec 64) (memStart memSize : Nat) :
    Spare (pmmInit kernelEnd ram memStart memSize)
      ((pmmInit kernelEnd ram memStart memSize).totalPages
        - (pmmInit kernelEnd ram memStart memSize).reservedPages) := by
  refine ⟨Nat.sub_le _ _, fun pfn hlo hhi => ?_⟩
  have hlt : pfn < memSize / pageSize := hhi
  have hinit := bitTest_initBitmap ram (memSize / pageSize) pfn (by omega)
  have hset : bitmapTest (pmmInit kernelEnd ram memStart memSize) pfn
      = (decide (0 ≤ pfn ∧ pfn < 0 + (pmmInit kernelEnd ram memStart memSize).reservedPages)
        || bitTest (initBitmap ram (memSize / pageSize)) pfn) :=
    bitTest_bitSetRange (by decide) _ _ _ _
  rw [hset, hinit, decide_eq_false (by omega), decide_eq_false (by omega)]
  rfl

theorem spare_freePage (h : Spare p n) (addr : Nat) : Spare (pmmFreePage p addr) n := by
  rw [freePage_eq]
  split_ifs with hfree
  · refine ⟨h.le_total, fun pfn hlo hhi => ?_⟩
    simp [bitmapTest_givePage, h.free pfn hlo hhi]
  · exact h

theorem spare_freePages (h : Spare p n) (addr count : Nat) :
    Spare (pmmFreePages p addr count) n := by
  induction count with
  | zero => exact h
  | succ count ih => exact spare_freePage ih _

end

end Pmm

namespace Sched

open Mmu Elf
open Pmm (pmmSource Allocator)

/-- A machine with the page allocator itself. -/
abbrev PmmMachine := Machine Allocator

/-- The machine's memory does not start at address zero, and its last `n` pages
    are free. -/
structure Spare (m : PmmMachine) (n : Nat) : Prop where
  start : m.pmm.1.memRegionStart ≠ 0
  pages : Pmm.Spare m.pmm.1 n

section

variable {m : PmmMachine} {n count : Nat}

theorem spare_le (h : Spare m n) {k : Nat} (hk : k ≤ n) : Spare m k :=
  ⟨h.start, Pmm.spare_mono h.pages hk⟩

/-- Only the allocator matters. -/
theorem spare_mem (h : Spare m n) (mem : Memory) (tramp refused : Nat) :
    Spare ⟨mem, m.pmm, tramp, refused⟩ n :=
  ⟨h.start, h.pages⟩

theorem spare_allocatePages (h : Spare m n) (hpos : 0 < count) (hcount : count ≤ n) :
    (allocatePages pmmSource m count).2 ≠ 0 ∧
      Spare (allocatePages pmmSource m count).1 (n - count) := by
  rcases Pmm.spare_allocate m.pmm.2 h.pages hpos hcount h.start with ⟨hgot, hspare⟩
  refine ⟨hgot, ?_, hspare⟩
  exact (Pmm.sameRegion_allocate m.pmm.2.ok count).memRegionStart ▸ h.start

theorem spare_freePages (h : Spare m n) (addr count : Nat) :
    Spare (freePages pmmSource m addr count) n :=
  ⟨(Pmm.sameRegion_frees m.pmm.1 addr count).memRegionStart ▸ h.start,
    Pmm.spare_freePages h.pages addr count⟩

theorem spare_zeroedPages (h : Spare m n) (hpos : 0 < count) (hcount : count ≤ n) :
    (zeroedPages pmmSource m count).2 ≠ 0 ∧
      Spare (zeroedPages pmmSource m count).1 (n - count) := by
  rcases spare_allocatePages h hpos hcount with ⟨hgot, hspare⟩
  unfold zeroedPages
  rw [if_neg hgot]
  exact ⟨hgot, spare_mem hspare _ _ _⟩

theorem spare_allocTable (h : Spare m n) (hn : 1 ≤ n) :
    (allocTable pmmSource m).2 ≠ 0 ∧ Spare (allocTable pmmSource m).1 (n - 1) := by
  rcases spare_allocatePages h Nat.one_pos hn with ⟨hgot, hspare⟩
  unfold allocTable
  rw [if_neg hgot]
  exact ⟨hgot, spare_mem hspare _ _ _⟩

/-- One level of a walk takes a page at most. -/
theorem spare_nextTable (h : Spare m n) (hn : 1 ≤ n) {table i : Nat} {m' : PmmMachine}
    {next : Option Nat} (hnext : nextTable pmmSource m table i true = (m', next)) :
    Spare m' (n - 1) := by
  rcases spare_allocTable h hn with ⟨hgot, hspare⟩
  simp only [nextTable, Bool.true_eq_false, if_false] at hnext
  split_ifs at hnext with hvalid
  · cases hnext
    exact spare_mem hspare _ _ _
  · cases hnext
    exact spare_le h (Nat.sub_le n 1)

theorem spare_walkLevels (h : Spare m n) (hn : 3 ≤ n) (l0 va : Nat) :
    Spare (walkLevels pmmSource m l0 va 3 true).1 (n - 3) := by
  fun_cases walkLevels pmmSource m l0 va 3 true with
  | case1 m1 h1 => exact spare_le (spare_nextTable h (by omega) h1) (by omega)
  | case2 m1 l1 h1 m2 h2 =>
    exact spare_le (spare_nextTable (spare_nextTable h (by omega) h1) (by omega) h2) (by omega)
  | case3 => omega
  | case4 m1 l1 h1 m2 l2 h2 _ m3 h3 | case5 m1 l1 h1 m2 l2 h2 _ m3 l3 h3 =>
    have hs := spare_nextTable (spare_nextTable h (by omega) h1) (by omega) h2
    exact spare_nextTable hs (by omega) h3

/-- Mapping takes three pages for every page it maps at most. -/
theorem spare_mapLoop (l0 va pa : Nat) (flags : BitVec 64) (pages n i : Nat) (m : PmmMachine)
    (h : Spare m n) (hn : 3 * pages ≤ n) :
    Spare (mapLoop pmmSource l0 va pa flags pages i m) (n - 3 * pages) := by
  fun_induction mapLoop pmmSource l0 va pa flags pages i m generalizing n with
  | case1 => exact h
  | case2 pages i m m1 hwalk =>
    have hs := spare_walkLevels h (by omega) l0 (wrap64 (va + i * pageSize))
    rw [hwalk] at hs
    exact spare_le hs (by omega)
  | case3 pages i m m1 table index hwalk ih =>
    have hs := spare_walkLevels h (by omega) l0 (wrap64 (va + i * pageSize))
    rw [hwalk] at hs
    rw [show n - 3 * (pages + 1) = n - 3 - 3 * pages by omega]
    exact ih (n - 3) (spare_mem hs _ _ _) (by omega)

theorem spare_mapRange (h : Spare m n) (pages : Nat) (hn : 3 * pages ≤ n) (l0 va pa : Nat)
    (flags : BitVec 64) :
    Spare (mmuMapUserRange pmmSource m l0 va pa pages flags) (n - 3 * pages) :=
  spare_mapLoop l0 va pa flags pages n 0 m h hn

theorem spare_sigtrampPage (h : Spare m n) (hn : 1 ≤ n) :
    Spare (mmuSigtrampPage pmmSource m).1 (n - 1) := by
  unfold mmuSigtrampPage
  by_cases htramp : m.sigtrampPhys ≠ 0
  · rw [if_pos htramp]
    exact spare_le h (Nat.sub_le n 1)
  · rcases spare_allocatePages h Nat.one_pos hn with ⟨hgot, hspare⟩
    rw [if_neg htramp]
    rw [if_neg hgot]
    exact spare_mem hspare _ _ _

/-- New tables take a page, one for the trampoline and three to map it. -/
theorem spare_createTables (h : Spare m n) (hn : 5 ≤ n) :
    (mmuCreateUserTables pmmSource m).2 ≠ 0 ∧
      Spare (mmuCreateUserTables pmmSource m).1 (n - 5) := by
  rcases spare_allocTable h (by omega) with ⟨hgot, hspare⟩
  have htramp := spare_sigtrampPage hspare (by omega)
  unfold mmuCreateUserTables
  simp only
  rw [if_neg hgot]
  split
  next => exact ⟨hgot, spare_le htramp (by omega)⟩
  next =>
    exact ⟨hgot, spare_le (spare_mapRange htramp 1 (by omega) _ _ _ _) (by omega)⟩

theorem spare_foldl {α : Type} (f : PmmMachine → α → PmmMachine)
    (hf : ∀ m a, Spare m n → Spare (f m a) n) (as : List α) :
    ∀ m, Spare m n → Spare (as.foldl f m) n := by
  induction as with
  | nil => intro m h; exact h
  | cons a as ih => intro m h; exact ih _ (hf m a h)

theorem spare_freeIf (P : Prop) [Decidable P] (h : Spare m n) (addr count : Nat) :
    Spare (if P then freePages pmmSource m addr count else m) n := by
  split
  · exact spare_freePages h addr count
  · exact h

theorem spare_reapTask (h : Spare m n) (dead : Task) :
    Spare (reapTask pmmSource m dead) n := by
  unfold reapTask
  simp only
  have h1 := spare_freeIf (dead.stackPhys ≠ 0) h dead.stackPhys taskStackPages
  have h2 := spare_freeIf (dead.ustackPhys ≠ 0) h1 dead.ustackPhys userStackPages
  have h3 := spare_foldl
    (fun m (r : ElfRegion) =>
      if r.phys ≠ 0 ∧ r.pages ≠ 0 then freePages pmmSource m r.phys r.pages else m)
    (fun _ r h => spare_freeIf _ h r.phys r.pages) dead.execImage.regions _ h2
  have h4 := spare_foldl (fun m (a : Nat) => if a ≠ 0 then freePages pmmSource m a 1 else m)
    (fun _ a h => spare_freeIf _ h a 1) dead.stackGrownPhys _ h3
  split
  · exact spare_foldl _ (fun _ a h => spare_freePages h a 1) _ _ h4
  · exact h4

/-- The pages that a new user task takes at most: its stacks, new tables, and
    three for every page that is mapped. -/
def createCost (img : KernelImage) : Nat :=
  taskStackPages + 5 + 3 * textPages img + userStackPages + 3 * userStackPages

/-- A user task whose entry point is in the window is created while there are
    spare pages. -/
theorem createTask_spare (img : KernelImage) (s : Sched Allocator)
    (fdsOk : Bool) (entry : Nat) (h : Spare s.machine n) (hn : createCost img ≤ n)
    (hwindow : textStartPa img ≤ virtToPhys entry ∧ virtToPhys entry < userTextEndPa img) :
    ∃ m t l0, t.isIdle = false ∧ t.state = .ready ∧ t.pid = s.nextPid ∧
      t.ttbr0 = ttbrPack l0 s.nextAsid ∧ Spare m (n - createCost img) ∧
      (schedCreateTask pmmSource img s true fdsOk entry).1
        = { s with
            machine := m
            queue := s.queue ++ [t]
            nextPid := wrap64 (s.nextPid + 1)
            nextAsid := (schedAsidAlloc s.nextAsid).2 } := by
  unfold createCost at hn ⊢
  have hpages : taskStackPages = 4 ∧ userStackPages = 4 := ⟨rfl, rfl⟩
  rcases spare_zeroedPages h (show 0 < taskStackPages by omega) (by omega) with ⟨hkstack, h1⟩
  rcases spare_createTables h1 (by omega) with ⟨hl0, h2⟩
  have h3 := spare_mapRange h2 (textPages img) (by omega)
    (mmuCreateUserTables pmmSource (zeroedPages pmmSource s.machine taskStackPages).1).2
    userTextBase (textStartPa img) textFlags
  rcases spare_zeroedPages h3 (show 0 < userStackPages by omega) (by omega) with ⟨hustack, h4⟩
  unfold schedCreateTask
  rw [if_neg (by decide)]
  simp only
  rw [if_neg hkstack, if_neg hl0, if_neg (by omega), if_neg hustack]
  refine ⟨_, _, _, rfl, rfl, rfl, rfl, ?_, rfl⟩
  exact spare_mem (spare_le (spare_mapRange h4 userStackPages (by omega) _ _ _ _) (by omega)) _ _ _

end

end Sched

end CortexForge
