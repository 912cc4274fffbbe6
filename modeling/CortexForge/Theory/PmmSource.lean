import CortexForge.Lib.ExactSource
import CortexForge.Theory.Pmm

/-!
# The Page Allocator as a Page Source

The bitmap allocator meets the contract its users rely on, as long as its region
lies in the physical memory the kernel maps. The pages it has handed out are the
pages in use, the reserved ones included: those belong to the kernel from the
start.

## Main definitions

* `InUse`: The address of a page whose bit is set.
* `pmmSource`: The allocator as a source.
* `SameMemory`, `ReservedPage`: When it keeps exact accounts, and with which pages
  fixed.

## Theorems

* `allocatePages_cases`: An allocation in terms of addresses.
* `allocatePages_pages`: The pages of an allocation were nobody's.
* `freePages_keep`: A free leaves other pages in use.
* `pmmSource_exact`: The allocator keeps exact accounts.
-/

namespace CortexForge.Pmm

/-- An allocator in order whose region is mapped. -/
structure Mapped (p : Pmm) : Prop where
  ok : Ok p
  below : p.memRegionStart + p.totalPages * pageSize ≤ physLimit

/-- The address of a page whose bit is set. -/
def InUse (p : Pmm) (addr : Nat) : Prop :=
  ∃ pfn, pfn < p.totalPages ∧ bitmapTest p pfn = true ∧ addr = physAddr p pfn

section

variable {p : Pmm}

variable (h : Mapped p)
include h

/-- In a region that is mapped, the address of a page does not wrap. -/
theorem physAddr_eq (pfn : Nat) (hpfn : pfn < p.totalPages) :
    physAddr p pfn = p.memRegionStart + pfn * pageSize := by
  have hbelow := h.below
  unfold physLimit at hbelow
  unfold physAddr pfnToPhys wrap64 pageSize at *
  omega

theorem inUse_aligned (a : Nat) (ha : InUse p a) : a % pageSize = 0 := by
  rcases ha with ⟨pfn, hlt, _, rfl⟩
  have halign := h.ok.start_aligned
  rw [physAddr_eq h pfn hlt]
  unfold pageSize at halign ⊢
  omega

theorem inUse_below (a : Nat) (ha : InUse p a) : a + pageSize ≤ physLimit := by
  rcases ha with ⟨pfn, hlt, _, rfl⟩
  have hbelow := h.below
  have hmul := Nat.mul_le_mul_right pageSize hlt
  rw [Nat.succ_mul] at hmul
  rw [physAddr_eq h pfn hlt]
  omega

/-- An allocation returns nothing, or the address of a run of pages that were
    free and are now in use. -/
theorem allocatePages_cases (n : Nat) :
    pmmAllocatePages p n = (p, 0) ∨
    ∃ s, FreeRun p s n ∧
      pmmAllocatePages p n = (takeRun p s n, p.memRegionStart + s * pageSize) := by
  by_cases hn : n = 0
  · exact .inl (if_pos hn)
  · refine (allocatePages_result h.ok n).imp_right fun ⟨s, hfree, hrun⟩ => ⟨s, hfree, ?_⟩
    have hinside := hfree.inside
    rw [hrun, physAddr_eq h s (by omega)]

omit h in
theorem takeRun_inUse (s n a : Nat) (ha : InUse p a) : InUse (takeRun p s n) a := by
  rcases ha with ⟨pfn, hlt, hset, haddr⟩
  exact ⟨pfn, hlt, by rw [bitmapTest_takeRun, hset, Bool.or_true], haddr⟩

theorem allocatePages_mapped (n : Nat) : Mapped (pmmAllocatePages p n).1 := by
  rcases allocatePages_cases h n with hnone | ⟨s, hfree, hrun⟩
  · rw [hnone]
    exact h
  · rw [hrun]
    exact ⟨takeRun_ok h.ok hfree, h.below⟩

theorem allocatePages_aligned (n : Nat) :
    (pmmAllocatePages p n).2 % pageSize = 0 := by
  rcases allocatePages_cases h n with hnone | ⟨s, _, hrun⟩
  · rw [hnone]
    exact Nat.zero_mod _
  · rw [hrun]
    have halign := h.ok.start_aligned
    unfold pageSize at halign ⊢
    omega

theorem allocatePages_keep (n a : Nat) (ha : InUse p a) :
    InUse (pmmAllocatePages p n).1 a := by
  rcases allocatePages_cases h n with hnone | ⟨s, _, hrun⟩
  · rw [hnone]
    exact ha
  · rw [hrun]
    exact takeRun_inUse s n a ha

/-- The pages of an allocation are mapped, were nobody's, and are in use now. -/
theorem allocatePages_pages (n : Nat) (hgot : (pmmAllocatePages p n).2 ≠ 0) :
    (pmmAllocatePages p n).2 + n * pageSize ≤ physLimit ∧
    ∀ i, i < n → ¬ InUse p ((pmmAllocatePages p n).2 + i * pageSize) ∧
      InUse (pmmAllocatePages p n).1 ((pmmAllocatePages p n).2 + i * pageSize) := by
  rcases allocatePages_cases h n with hnone | ⟨s, hfree, hrun⟩
  · rw [hnone] at hgot
    exact absurd rfl hgot
  have hle := hfree.inside
  rw [hrun]
  refine ⟨?_, fun i hi => ⟨?_, ?_⟩⟩
  · have hbelow := h.below
    have hmul := Nat.mul_le_mul_right pageSize hle
    rw [Nat.add_mul] at hmul
    omega
  · rintro ⟨pfn, hlt, hused, haddr⟩
    rw [physAddr_eq h pfn hlt] at haddr
    -- The address determines the page, and that page was free.
    have hpfn : pfn = s + i := by
      unfold pageSize at haddr
      omega
    rw [hpfn, hfree.free (s + i) (by omega) (by omega)] at hused
    exact absurd hused Bool.false_ne_true
  · have haddr := physAddr_eq h (s + i) (by omega)
    rw [Nat.add_mul, ← Nat.add_assoc] at haddr
    refine ⟨s + i, show s + i < p.totalPages by omega, ?_, haddr.symm⟩
    rw [bitmapTest_takeRun, decide_eq_true ⟨by omega, by omega⟩, Bool.true_or]

/-- A free of another page leaves a page in use. -/
theorem freePage_keep (addr a : Nat) (ha : InUse p a) (hne : a ≠ addr) :
    InUse (pmmFreePage p addr) a := by
  rw [freePage_eq]
  split_ifs with hfree
  · rcases ha with ⟨pfn, hlt, hset, haddr⟩
    refine ⟨pfn, hlt, ?_, haddr⟩
    have hpfn : pfn ≠ pfnOf p addr := by
      intro hc
      rw [hc, (pfnOf_lt h.ok hfree).2] at haddr
      exact hne haddr
    rw [bitmapTest_givePage, hset, Bool.and_true, Bool.not_eq_true', decide_eq_false_iff_not]
    exact hpfn
  · exact ha

theorem freePage_mapped (addr : Nat) : Mapped (pmmFreePage p addr) := by
  refine ⟨freePage_ok h.ok addr, ?_⟩
  rw [freePage_eq]
  split_ifs with hfree
  · exact h.below
  · exact h.below

theorem freePages_mapped (addr n : Nat) : Mapped (pmmFreePages p addr n) := by
  induction n with
  | zero => exact h
  | succ n ih => exact freePage_mapped ih _

theorem freePages_keep (addr n a : Nat) (hbelow : addr + n * pageSize ≤ physLimit)
    (ha : InUse p a) (hne : ∀ i, i < n → a ≠ addr + i * pageSize) :
    InUse (pmmFreePages p addr n) a := by
  induction n with
  | zero => exact ha
  | succ n ih =>
    rw [Nat.succ_mul] at hbelow
    unfold physLimit at hbelow ih
    have hwrap : wrap64 (addr + n * pageSize) = addr + n * pageSize :=
      Nat.mod_eq_of_lt (by omega)
    rw [pmmFreePages, hwrap]
    exact freePage_keep (freePages_mapped h addr n) _ a
      (ih (by omega) fun i hi => hne i (by omega)) (hne n (Nat.lt_succ_self n))

end

/-- The states of the allocator that its users see. -/
abbrev Allocator := { p : Pmm // Mapped p }

/-- The allocator as its users see it. -/
def pmmSource : Pages Allocator where
  allocatePages p n :=
    (⟨(pmmAllocatePages p.1 n).1, allocatePages_mapped p.2 n⟩, (pmmAllocatePages p.1 n).2)
  freePages p addr n := ⟨pmmFreePages p.1 addr n, freePages_mapped p.2 addr n⟩
  Held p a := InUse p.1 a
  held_aligned p a ha := inUse_aligned p.2 a ha
  held_below p a ha := inUse_below p.2 a ha
  alloc_aligned p n := allocatePages_aligned p.2 n
  alloc_below p n hgot := (allocatePages_pages p.2 n hgot).1
  alloc_new p n i hgot hi := ((allocatePages_pages p.2 n hgot).2 i hi).1
  alloc_held p n i hgot hi := ((allocatePages_pages p.2 n hgot).2 i hi).2
  alloc_keep p n a ha := allocatePages_keep p.2 n a ha
  free_keep p addr n a hbelow ha hne := freePages_keep p.2 addr n a hbelow ha hne

section

/-- The allocator is in charge of the region it had in the state `p0`. -/
def SameMemory (p0 p : Allocator) : Prop := SameRegion p0.1 p.1

/-- A page below the first one that is ever handed out. -/
def ReservedPage (p0 : Allocator) (a : Nat) : Prop :=
  ∃ pfn, pfn < p0.1.reservedPages ∧ a = physAddr p0.1 pfn

variable {p : Pmm}

/-- What is in use after an allocation was in use before, or has been handed out.
    Address 0 is no page of the region, so it is a refusal. -/
theorem allocatePages_only (h : Mapped p) (hstart : p.memRegionStart ≠ 0) (n a : Nat)
    (ha : InUse (pmmAllocatePages p n).1 a) :
    InUse p a ∨ (pmmAllocatePages p n).2 ≠ 0 ∧
      ∃ i, i < n ∧ a = (pmmAllocatePages p n).2 + i * pageSize := by
  rcases allocatePages_cases h n with hnone | ⟨s, _, hrun⟩
  · rw [hnone] at ha
    exact .inl ha
  rw [hrun] at ha ⊢
  rcases ha with ⟨pfn, hlt, hset, haddr⟩
  rw [bitmapTest_takeRun, Bool.or_eq_true, decide_eq_true_eq] at hset
  rcases hset with ⟨hlo, hhi⟩ | hset
  · have hpage : a = p.memRegionStart + pfn * pageSize := haddr.trans (physAddr_eq h pfn hlt)
    refine .inr ⟨fun hc => hstart (Nat.eq_zero_of_add_eq_zero_right hc), pfn - s, by omega, ?_⟩
    rw [hpage, Nat.add_assoc, ← Nat.add_mul, Nat.add_sub_cancel' hlo]
  · exact .inl ⟨pfn, hlt, hset, haddr⟩

/-- A page that is still in use after it was given back is a reserved one. -/
theorem freePage_gone (h : Mapped p) {addr a : Nat} (ha : InUse (pmmFreePage p addr) a) :
    InUse p a ∧ (a = addr → ∃ pfn, pfn < p.reservedPages ∧ a = physAddr p pfn) := by
  rw [freePage_eq] at ha
  split_ifs at ha with hfree
  · rcases ha with ⟨pfn, hlt, hset, haddr⟩
    rw [bitmapTest_givePage, Bool.and_eq_true, Bool.not_eq_true', decide_eq_false_iff_not] at hset
    refine ⟨⟨pfn, hlt, hset.2, haddr⟩, fun heq => absurd ?_ hset.1⟩
    have hpfn := pfnOf_physAddr h.ok pfn hlt
    have haddr' : a = physAddr p pfn := haddr
    rw [← haddr', heq] at hpfn
    exact hpfn.symm
  · refine ⟨ha, fun heq => ?_⟩
    rcases ha with ⟨pfn, hlt, hset, haddr⟩
    refine ⟨pfn, ?_, haddr⟩
    -- The only thing that can be wrong with a page in use is that it is reserved.
    by_contra hres
    have hpfn := pfnOf_physAddr h.ok pfn hlt
    have halign := inUse_aligned h a ⟨pfn, hlt, hset, haddr⟩
    have hpage := haddr.trans (physAddr_eq h pfn hlt)
    rw [← haddr, heq] at hpfn
    rw [heq] at halign hpage
    refine hfree ⟨by omega, ?_, halign, by omega, by rw [hpfn]; exact hset⟩
    have hbelow := h.below
    rw [hpage, h.ok.end_eq]
    unfold physLimit at hbelow
    unfold wrap64
    unfold pageSize at hbelow ⊢
    omega

/-- A run is given back page by page. -/
theorem freePages_each (p : Allocator) (addr n : Nat) (hbelow : addr + n * pageSize ≤ physLimit) :
    pmmSource.freePages p addr n = pmmSource.freeEach p (runPages pageSize addr n) := by
  induction n with
  | zero => rfl
  | succ n ih =>
    rw [Nat.succ_mul] at hbelow
    have hlast : runPages pageSize addr (n + 1)
        = runPages pageSize addr n ++ [addr + n * pageSize] := by
      simp [runPages, List.range_succ]
    rw [hlast, PageSource.freeEach_append, ← ih (by omega)]
    refine Subtype.ext ?_
    show pmmFreePage (pmmFreePages p.1 addr n) _ = pmmFreePage (pmmFreePages p.1 addr n) _
    simp

/-- The allocator keeps exact accounts, as long as its region does not start at
    address 0. -/
theorem pmmSource_exact (p0 : Allocator) (hstart : p0.1.memRegionStart ≠ 0) :
    pmmSource.Exact (SameMemory p0) (ReservedPage p0) := by
  have haddr : ∀ p, SameMemory p0 p → ∀ pfn, physAddr p.1 pfn = physAddr p0.1 pfn := by
    intro p hp pfn
    unfold physAddr
    rw [hp.memRegionStart]
  refine
    { sound_alloc := fun p n hp => sameRegion_trans hp (sameRegion_allocate p.2.ok n)
      sound_free := fun p addr n hp => sameRegion_trans hp (sameRegion_frees p.1 addr n)
      fixed_held := fun p a hp ha => ?_
      alloc_only := fun p n a hp ha => ?_
      free_only := fun p addr a ha => ?_
      free_gone := fun p addr hp hbelow ha => ?_
      free_run := freePages_each }
  · rcases ha with ⟨pfn, hlt, heq⟩
    rw [← hp.reservedPages] at hlt
    refine ⟨pfn, Nat.lt_of_lt_of_le hlt p.2.ok.reserved_le, p.2.ok.reserved_set pfn hlt, ?_⟩
    rw [heq, haddr p hp]
  · exact allocatePages_only p.2 (hp.memRegionStart ▸ hstart) n a ha
  · exact (freePage_gone p.2 ha).1
  · have hwrap : wrap64 (addr + 0 * pageSize) = addr := by
      unfold physLimit at hbelow
      exact Nat.mod_eq_of_lt (by omega)
    have hfree : pmmSource.freePages p addr 1 =
      ⟨pmmFreePage p.1 addr, freePage_mapped p.2 addr⟩ := by
      refine Subtype.ext ?_
      show pmmFreePage p.1 (wrap64 (addr + 0 * pageSize)) = _
      rw [hwrap]
    rw [hfree] at ha
    rcases (freePage_gone p.2 ha).2 rfl with ⟨pfn, hlt, heq⟩
    rw [hp.reservedPages] at hlt
    exact ⟨pfn, hlt, heq.trans (haddr p hp pfn)⟩

end

end CortexForge.Pmm
