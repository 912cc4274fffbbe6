import CortexForge.Theory.Mapping

/-!
# What User Mappings May Say

The conditions on the leaves of a user address space, and how building it keeps
them. A leaf is never executable by the kernel, never global and never writable
and executable at once. The page it maps is one of the address space's own, or a
shared one that it cannot write to.

Own and shared pages are predicates here, so the same lemmas serve an image
under construction and a finished one.

## Main definitions

* `FlagsOk`: Flags for a user mapping.
* `LeafOk`, `LeavesOk`: The conditions on one leaf, and on all of them.

## Theorems

* `mapRange_leaves`: Mapping pages that may be mapped.
* `evolves_fill`: Pages that are handed out and filled.
* `evolves_frees`: Giving back what was handed out on the way.
-/

namespace CortexForge.Mmu

/-- Flags for a user mapping: no address bits, not executable by the kernel, and
    not both writable and executable. -/
structure FlagsOk (flags : BitVec 64) : Prop where
  no_address : flags &&& pteAddrMask = 0#64
  priv_no_exec : ptePrivNoExec flags = true
  not_both : ¬ (el0Write flags = true ∧ el0Exec flags = true)

/-- A mapping of a page in `own`, or a read-only one of a page in `shared`. -/
structure LeafOk (own shared : Nat → Prop) (e : BitVec 64) : Prop where
  priv_no_exec : ptePrivNoExec e = true
  not_global : pteNotGlobal e = true
  not_both : ¬ (el0Write e = true ∧ el0Exec e = true)
  target : own (pteNextTable e) ∨ shared (pteNextTable e) ∧ el0Write e = false

/-- Every leaf of the address space with root `r` is such a mapping. -/
def LeavesOk (own shared : Nat → Prop) (mem : Memory) (r : Nat) : Prop :=
  ∀ path i e, path.length = 3 → leafAt mem r path i = some e → LeafOk own shared e

section

variable {own own' shared shared' : Nat → Prop}

theorem textFlags_ok : FlagsOk textFlags :=
  ⟨by decide, by decide, by decide⟩

theorem stackFlags_ok : FlagsOk stackFlags :=
  ⟨by decide, by decide, by decide⟩

theorem leafEntry_ok {flags : BitVec 64} (hflags : FlagsOk flags) {pa : Nat}
    (halign : pa % pageSize = 0) (hlt : pa < 2 ^ 48)
    (htarget : own pa ∨ shared pa ∧ el0Write flags = false) :
    LeafOk own shared (leafEntry pa flags) := by
  rcases leafEntry_perms pa flags with ⟨_, hng, hw, hx, hpriv⟩
  refine ⟨hpriv.trans hflags.priv_no_exec, hng, ?_, ?_⟩
  · rw [hw, hx]
    exact hflags.not_both
  · rw [pteNextTable_leafEntry pa flags halign hlt hflags.no_address, hw]
    exact htarget

theorem leafOk_mono {e : BitVec 64} (h : LeafOk own shared e) (hown : ∀ a, own a → own' a)
    (hshared : ∀ a, shared a → shared' a) : LeafOk own' shared' e := by
  refine ⟨h.priv_no_exec, h.not_global, h.not_both, ?_⟩
  rcases h.target with hin | ⟨hin, hread⟩
  · exact .inl (hown _ hin)
  · exact .inr ⟨hshared _ hin, hread⟩

theorem leavesOk_mono {mem : Memory} {r : Nat} (h : LeavesOk own shared mem r)
    (hown : ∀ a, own a → own' a) (hshared : ∀ a, shared a → shared' a) :
    LeavesOk own' shared' mem r :=
  fun path i e hlen he => leafOk_mono (h path i e hlen he) hown hshared

theorem leavesOk_congr {mem mem' : Memory} {r : Nat} (h : LeavesOk own shared mem r)
    (hsame : ∀ path i, path.length ≤ 3 → leafAt mem' r path i = leafAt mem r path i) :
    LeavesOk own shared mem' r := by
  intro path i e hlen he
  rw [hsame path i (Nat.le_of_eq hlen)] at he
  exact h path i e hlen he

end

variable {σ : Type} {src : Pages σ}

section

variable {own shared P : Nat → Prop} {m m1 : Machine σ} {role : Roles} {r : Nat}

/-- Mapping pages that may be mapped. -/
theorem mapRange_leaves (h : SpaceOk src m role r) (hleaves : LeavesOk own shared m.mem r)
    (va : Nat) {pa n : Nat} {flags : BitVec 64} (hflags : FlagsOk flags)
    (hpages : ∀ a, InRun pa n a →
      a % pageSize = 0 ∧ a < 2 ^ 48 ∧ (own a ∨ shared a ∧ el0Write flags = false)) :
    ∃ role', Grows src r m role (mmuMapUserRange src m r va pa n flags) role' ∧
      LeavesOk own shared (mmuMapUserRange src m r va pa n flags).mem r := by
  rcases mapLoop_leaf va pa flags n 0 m role h with ⟨role', hgrows, hnew⟩
  refine ⟨role', hgrows, fun path i e hlen he => ?_⟩
  rcases hnew path i e hlen he with hold | ⟨k, _, hk, heq⟩
  · exact hleaves path i e hlen hold
  · rcases hpages _ ⟨k, by omega, rfl⟩ with ⟨halign, hlt, htarget⟩
    rw [heq]
    exact leafEntry_ok hflags halign hlt htarget

/-- Pages that are handed out and filled. -/
theorem evolves_fill (W : Role → Prop) (role : Roles) (ρ : Role) {n u : Nat}
    (hcall : allocatePages src m n = (m1, u)) (hgot : u ≠ 0) (mem : Memory)
    (hmem : ∀ x, x < u ∨ u + n * pageSize ≤ x → mem x = m.mem x) :
    Evolves src W m role { m1 with mem := mem } (assign role u n ρ) ∧
    (∀ a, InRun u n a → ¬ src.Held m.pmm a ∧ src.Held m1.pmm a) ∧ m1.refused = m.refused := by
  have hfst : (allocatePages src m n).1 = m1 := by rw [hcall]
  have hsnd : (allocatePages src m n).2 = u := by rw [hcall]
  rw [← hsnd] at hgot hmem ⊢
  rw [← hfst]
  have hcount : (allocatePages src m n).1.refused = m.refused := by
    exact if_neg hgot
  refine ⟨?_, fun a ha => inRun_held hgot ha, hcount⟩
  exact evolves_fresh W role hgot rfl (Nat.le_of_eq hcount.symm) hmem (.inl rfl)

/-- Giving back pages that were handed out on the way. The trampoline is not one
    of them. -/
theorem evolves_frees {W : Role → Prop} {m2 : Machine σ} {role1 : Roles}
    (hev : Evolves src W m role m1 role1) (hfrees : Frees src P m1 m2)
    (hnew : ∀ a, P a → ¬ src.Held m.pmm a ∧ role1 a ≠ .shared) :
    Evolves src W m role m2 role1 := by
  refine ⟨hev.role_eq, fun a ha => ?_, fun a x ha hW hx => ?_, ?_, ?_⟩
  · exact hfrees.kept a (hev.held a ha) fun hp => (hnew a hp).1 ha
  · rw [hfrees.mem_eq]
    exact hev.mem_eq a x ha hW hx
  · rw [hfrees.refused_eq]
    exact hev.refused_le
  · rw [hfrees.tramp_eq]
    rcases hev.tramp with hsame | ⟨hzero, hshared, hheld⟩
    · exact .inl hsame
    · exact .inr ⟨hzero, hshared, hfrees.kept _ hheld fun hp => (hnew _ hp).2 hshared⟩

/-- An address space keeps its tables when other pages are given back. -/
theorem space_frees (h : SpaceOk src m role r) (hfrees : Frees src P m m1)
    (hother : ∀ a, P a → ∀ path, role a ≠ .table r path) :
    SpaceOk src m1 role r := by
  refine (space_keep h (fun path p x _ _ _ => by rw [hfrees.mem_eq]) fun path p hlen hp => ?_).1
  rcases h.place path p hlen hp with ⟨hrole, hheld⟩
  exact ⟨rfl, hfrees.kept p hheld fun hin => hother p hin path hrole⟩

end

end CortexForge.Mmu
