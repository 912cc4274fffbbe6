import CortexForge.Theory.Isolation

/-!
# Page Tables as a Map

What the tables of an address space are for: a map from pages to leaf entries, which
a call of `mmu_map_user_range` overrides on its range. Tables come and go on the way
of a walk, but nothing of them shows at the leaves, so after any sequence of calls
the walk of an address finds what the last call put there that covers it.

The walk is the one of the source, with allocation turned off. It agrees with
`translate`, which proofs about address spaces use.

## Main definitions

* `MapCall`: The arguments of a call, with what makes them meaningful.
* `walk`: The physical address and the attributes of a user address.

## Theorems

* `walk_eq`: The walk of the source and `translate`.
* `mapCalls_spec`: What a sequence of calls leaves at an address.
* `tables_refine_map`: The same for a new address space.
-/

namespace CortexForge.Mmu

open BitVec

/-- A call that maps `pages` pages at `pa` to the addresses from `va` on. Both
    ranges are ranges of pages of the 48-bit space, and the flags leave the address
    alone. -/
structure MapCall where
  va : Nat
  pa : Nat
  pages : Nat
  flags : BitVec 64
  va_aligned : va % pageSize = 0
  pa_aligned : pa % pageSize = 0
  va_end : va + pages * pageSize ≤ 2 ^ 48
  pa_end : pa + pages * pageSize ≤ 2 ^ 48
  flags_address : flags &&& pteAddrMask = 0#64

/-- The call maps the page of the address `v`. -/
def MapCall.covers (c : MapCall) (v : Nat) : Bool :=
  decide (c.va ≤ v) && decide (v < c.va + c.pages * pageSize)

variable {σ : Type} (src : Pages σ)

/-- The calls of a list, one after the other. -/
def mapCalls (l0 : Nat) (m : Machine σ) (calls : List MapCall) : Machine σ :=
  calls.foldl (fun m c => mmuMapUserRange src m l0 c.va c.pa c.pages c.flags) m

/-- The physical address of `v` and the attributes of its page, if it is mapped. -/
def walk (m : Machine σ) (l0 v : Nat) : Option (Nat × BitVec 64) :=
  match walkLevels src m l0 v 3 false with
  | (_, none) => none
  | (m, some (table, index)) =>
      let entry := getEntry m.mem table index
      if pteValid entry = true then
        some (pteNextTable entry + v % pageSize, entry &&& ~~~pteAddrMask)
      else none

section

/-- Without allocation a level is a look at the entry. -/
theorem nextTable_look (m : Machine σ) (table i : Nat) : nextTable src m table i false
    = (m, if pteValid (getEntry m.mem table i) = true then
        some (pteNextTable (getEntry m.mem table i)) else none) := by
  unfold nextTable
  by_cases hvalid : pteValid (getEntry m.mem table i) = true <;> simp [hvalid]

theorem walkLevels_look (m : Machine σ) (l0 v : Nat) : walkLevels src m l0 v 3 false
    = (m, (follow m.mem l0 (pathOf v)).map fun l3 => (l3, l3Index v)) := by
  rcases index_lt v with ⟨h0, h1, h2, _⟩
  -- The three levels are looked at as a path is followed.
  have hstep : ∀ table i path, i < 512 → follow m.mem table (i :: path) =
      if pteValid (getEntry m.mem table i) = true then
        follow m.mem (pteNextTable (getEntry m.mem table i)) path else none := by
    intro table i path hi
    show (if i < 512 ∧ pteValid (getEntry m.mem table i) = true then _ else none) = _
    simp only [hi, true_and]
    rfl
  unfold walkLevels pathOf
  rw [hstep _ _ _ h0, nextTable_look]
  by_cases hv0 : pteValid (getEntry m.mem l0 (l0Index v)) = true
  · rw [if_pos hv0, if_pos hv0, hstep _ _ _ h1]
    simp only
    rw [nextTable_look]
    generalize pteNextTable (getEntry m.mem l0 (l0Index v)) = l1
    by_cases hv1 : pteValid (getEntry m.mem l1 (l1Index v)) = true
    · rw [if_pos hv1, hstep _ _ _ h2]
      simp only
      rw [if_neg (by decide), nextTable_look]
      split_ifs with hv2
      · rfl
      · rfl
    · rw [if_neg hv1, if_neg hv1]
      rfl
  · rw [if_neg hv0, if_neg hv0]
    rfl

/-- The walk finds the entry that `translate` finds. -/
theorem walk_eq (m : Machine σ) (l0 v : Nat) : walk src m l0 v
    = (translate m.mem l0 v).map fun e =>
        (pteNextTable e + v % pageSize, e &&& ~~~pteAddrMask) := by
  have h3 := (index_lt v).2.2.2
  have hleaf : translate m.mem l0 v = (follow m.mem l0 (pathOf v)).bind fun p =>
      if l3Index v < 512 ∧ pteValid (getEntry m.mem p (l3Index v)) = true then
        some (getEntry m.mem p (l3Index v)) else none := rfl
  unfold walk
  rw [walkLevels_look, hleaf]
  rcases follow m.mem l0 (pathOf v) with _ | l3
  · rfl
  · simp only [Option.map_some, Option.bind_some, h3, true_and]
    split_ifs <;> rfl

/-- The attributes of a page are those that every page has and the flags of the
    call. -/
theorem leafEntry_attributes (pa : Nat) (flags : BitVec 64)
    (hflags : flags &&& pteAddrMask = 0#64) :
    leafEntry pa flags &&& ~~~pteAddrMask = leafBits ||| flags := by
  have hbits : leafBits &&& pteAddrMask = 0#64 := by decide
  refine eq_of_getLsbD_eq fun i hi => ?_
  have hflag := congrArg (getLsbD · i) hflags
  have hbit := congrArg (getLsbD · i) hbits
  simp only [getLsbD_and] at hflag hbit
  rw [leafEntry_eq]
  simp only [getLsbD_and, getLsbD_or, getLsbD_not, hi]
  cases hmask : pteAddrMask.getLsbD i
  · simp
  · rw [hmask, Bool.and_true] at hflag hbit
    rw [hflag, hbit]
    simp

end

section

variable {src} {m : Machine σ} {role : Roles} {r : Nat}

/-- The number of the page says whether a call covers it. -/
theorem covers_iff (c : MapCall) (v : Nat) : c.covers v = true ↔
    c.va / pageSize ≤ v / pageSize ∧ v / pageSize < c.va / pageSize + c.pages := by
  have haligned := c.va_aligned
  unfold MapCall.covers
  rw [Bool.and_eq_true, decide_eq_true_eq, decide_eq_true_eq]
  unfold pageSize at *
  omega

/-- One call: the refusals there were, and what is at each address. -/
theorem mapCall_spec (h : SpaceOk src m role r) (c : MapCall) :
    (∃ role', SpaceOk src (mmuMapUserRange src m r c.va c.pa c.pages c.flags) role' r) ∧
      m.refused ≤ (mmuMapUserRange src m r c.va c.pa c.pages c.flags).refused ∧
      ((mmuMapUserRange src m r c.va c.pa c.pages c.flags).refused = m.refused → ∀ v, v < 2 ^ 48 →
        translate (mmuMapUserRange src m r c.va c.pa c.pages c.flags).mem r v
          = if c.covers v then some (leafEntry (c.pa + (v / pageSize * pageSize - c.va)) c.flags)
            else translate m.mem r v) := by
  rcases mapLoop_leaf c.va c.pa c.flags c.pages 0 m role h with ⟨role', hgrows, _⟩
  refine ⟨⟨role', hgrows.space⟩, hgrows.evolves.refused_le, fun hrefused v hv => ?_⟩
  have haligned := c.va_aligned
  have hsub : (v / pageSize - c.va / pageSize) * pageSize = v / pageSize * pageSize - c.va := by
    unfold pageSize at *
    omega
  rw [mapRange_translate h c.va_end hrefused v hv, hsub]
  simp only [covers_iff]

/-- A sequence of calls: the last one that covers an address has its way. -/
theorem mapCalls_spec (calls : List MapCall) : ∀ (m : Machine σ) role, SpaceOk src m role r →
    m.refused ≤ (mapCalls src r m calls).refused ∧
    ((mapCalls src r m calls).refused = m.refused → ∀ v, v < 2 ^ 48 →
      translate (mapCalls src r m calls).mem r v
        = match calls.reverse.find? (·.covers v) with
          | some c => some (leafEntry (c.pa + (v / pageSize * pageSize - c.va)) c.flags)
          | none => translate m.mem r v) := by
  induction calls with
  | nil => exact fun m role _ => ⟨Nat.le_refl _, fun _ v _ => rfl⟩
  | cons c calls ih =>
    intro m role h
    rcases mapCall_spec h c with ⟨⟨role', hspace⟩, hle, hfirst⟩
    rcases ih _ role' hspace with ⟨hle', hrest⟩
    refine ⟨Nat.le_trans hle hle', fun hrefused v hv => ?_⟩
    -- No refusal over all means no refusal in the first call nor in the rest.
    have hnone : (mmuMapUserRange src m r c.va c.pa c.pages c.flags).refused = m.refused :=
      Nat.le_antisymm (hrefused ▸ hle') hle
    have hlater := hrest (hrefused.trans hnone.symm) v hv
    rw [hfirst hnone v hv] at hlater
    rw [List.reverse_cons, List.find?_append, List.find?_singleton]
    refine hlater.trans ?_
    generalize calls.reverse.find? (·.covers v) = found
    rcases found with _ | d
    · split_ifs <;> rfl
    · rfl

end

/-- After any sequence of calls on new tables, with no request for a table refused,
    the walk of an address yields the page and the flags of the last call that covers
    it, and nothing if there is none and it is not on the trampoline page. -/
theorem tables_refine_map (m m0 : Machine σ) (r : Nat) (calls : List MapCall)
    (hcreate : mmuCreateUserTables src m = (m0, r)) (hr : r ≠ 0)
    (hgranted : (mapCalls src r m0 calls).refused = m.refused) (v : Nat) (hv : v < 2 ^ 48) :
    (∀ c, calls.reverse.find? (·.covers v) = some c →
      walk src (mapCalls src r m0 calls) r v = some (c.pa + (v - c.va), leafBits ||| c.flags)) ∧
    (calls.reverse.find? (·.covers v) = none → v / pageSize ≠ userSigtrampVa / pageSize →
      walk src (mapCalls src r m0 calls) r v = none) := by
  rcases createTables_got (fun _ => .other) hcreate hr with ⟨_, role, hev, hspace, _, hfresh⟩
  · rcases mapCalls_spec calls m0 role hspace with ⟨hle, hcalls⟩
    have hfirst : m0.refused = m.refused := Nat.le_antisymm (hgranted ▸ hle) hev.refused_le
    have hat := hcalls (hgranted.trans hfirst.symm) v hv
    rw [walk_eq, hat]
    refine ⟨fun c hc => ?_, fun hnone hpage => ?_⟩
    · have hcovers := List.find?_some hc
      simp only [MapCall.covers, Bool.and_eq_true, decide_eq_true_eq] at hcovers
      have hva := c.va_aligned
      have hpa := c.pa_aligned
      have hend := c.pa_end
      have hpage : (c.pa + (v / pageSize * pageSize - c.va)) % pageSize = 0 ∧
          c.pa + (v / pageSize * pageSize - c.va) < 2 ^ 48 ∧
          c.pa + (v / pageSize * pageSize - c.va) + v % pageSize = c.pa + (v - c.va) := by
        unfold pageSize at *
        omega
      rw [hc]
      simp only [Option.map_some]
      rw [pteNextTable_leafEntry _ _ hpage.1 hpage.2.1 c.flags_address,
        leafEntry_attributes _ _ c.flags_address, hpage.2.2]
    · rw [hnone, (hfresh hfirst).2 v hv]
      rw [if_neg hpage]
      rfl

/-- Two overlapping calls on new tables: an address of both has the page of the
    second. -/
def overlappingCalls : List MapCall :=
  [⟨0x1FE000, 0x40080000, 4, stackFlags, by decide, by decide, by decide, by decide, by decide⟩,
    ⟨0x200000, 0x40090000, 1, textFlags, by decide, by decide, by decide, by decide, by decide⟩]

theorem tables_refine_map_overlap :
    walk Pmm.pmmSource (mapCalls Pmm.pmmSource
        (mmuCreateUserTables Pmm.pmmSource Sched.bootMachine).2
        (mmuCreateUserTables Pmm.pmmSource Sched.bootMachine).1 overlappingCalls)
      (mmuCreateUserTables Pmm.pmmSource Sched.bootMachine).2 0x200010
        = some (0x40090010, leafBits ||| textFlags) := by
  exact (tables_refine_map Pmm.pmmSource Sched.bootMachine _ _ overlappingCalls rfl
    (by decide +kernel) (by decide +kernel) 0x200010 (by decide)).1 _ rfl

end CortexForge.Mmu
