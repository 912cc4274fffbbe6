import CortexForge.Theory.Accounts
import CortexForge.Theory.Isolation

/-!
# The End of an Address Space

What `mmu_free_user_tables` gives back. Nothing records the tables of an address
space but their descriptors, which are written as ranges are mapped, in any order
and as far as the pages last. A history of one address space notes the pages that
were taken for tables and the pages that were mapped, and lets other code run in
between. The walk over the descriptors finds the first and none of the second.

## Main definitions

* `Taken`: The pages that `alloc_table` handed out in a call.
* `TableHistory`: The calls for one address space.

## Theorems

* `tables_taken`: The tables after a call are those of before and the ones it took.
* `teardown_exact`: The pages given back are the tables, each once.
-/

namespace CortexForge.Mmu

variable {σ : Type} (src : Pages σ) (Sound : σ → Prop)

/-- The pages that are in use after a call and were not before, but for the
    trampoline. -/
def Taken (m m' : Machine σ) (a : Nat) : Prop :=
  src.Held m'.pmm a ∧ ¬ src.Held m.pmm a ∧ ¬ TrampPage m' a

/-- The calls for the address space at `r`. The pages `T` were handed out for its
    tables and the pages `L` were mapped. -/
inductive TableHistory (r : Nat) : Machine σ → (Nat → Prop) → (Nat → Prop) → Prop
  | create {m m' : Machine σ} (hs : Sound m.pmm) (htramp : ∀ a, TrampPage m a → src.Held m.pmm a)
      (hcall : mmuCreateUserTables src m = (m', r)) (hr : r ≠ 0) :
      TableHistory r m' (Taken src m m') fun _ => False
  -- What is mapped is in use, and for something else than a table.
  | map {m : Machine σ} {T L : Nat → Prop} (h : TableHistory r m T L) (va pa n : Nat)
      (flags : BitVec 64)
      (hpages : ∀ k < n, src.Held m.pmm (pa + k * pageSize) ∧ ¬ T (pa + k * pageSize)) :
      TableHistory r (mmuMapUserRange src m r va pa n flags)
        (fun a => T a ∨ Taken src m (mmuMapUserRange src m r va pa n flags) a)
        fun a => L a ∨ ∃ k < n, a = pa + k * pageSize
  -- Other code keeps the tables as they are, and what is mapped in use.
  | other {m m' : Machine σ} {T L : Nat → Prop} (h : TableHistory r m T L) (hs : Sound m'.pmm)
      (hheld : ∀ a, T a ∨ L a → src.Held m'.pmm a)
      (hmem : ∀ a x, T a → InPage a x → m'.mem x = m.mem x)
      (htramp : ∀ a, TrampPage m' a → src.Held m'.pmm a ∧ ¬ T a) : TableHistory r m' T L

variable {src Sound} {Fixed : Nat → Prop} {r : Nat} {m m' : Machine σ} {T L : Nat → Prop}
  {role role' : Roles}

/-- The tables are the pages that were taken for them. -/
structure TablesAre (src : Pages σ) (Sound : σ → Prop) (r : Nat)
    (m : Machine σ) (T L : Nat → Prop) : Prop where
  sound : Sound m.pmm
  space : ∃ role, SpaceOk src m role r
  tables : ∀ a, TablePage m.mem r a ↔ T a
  leaves : ∀ a, L a → src.Held m.pmm a ∧ ¬ T a
  tramp : ∀ a, TrampPage m a → src.Held m.pmm a ∧ ¬ T a

/-- A call keeps the tables there are, and hangs in every page it takes. -/
theorem tables_taken (hev : Evolves src (TableOf r) m role m' role')
    (hspace : SpaceOk src m' role' r) (hadds : Adds src Sound (TablePage m'.mem r) m m')
    (hrole : ∀ a path, src.Held m.pmm a → role a = .table r path → T a)
    (hkept : ∀ a, T a → TablePage m'.mem r a) (hleaves : ∀ a, L a → src.Held m.pmm a ∧ ¬ T a)
    (htramp : ∀ a, TrampPage m a → src.Held m.pmm a ∧ ¬ T a) :
    TablesAre src Sound r m' (fun a => T a ∨ Taken src m m' a) L := by
  -- The trampoline is the one of before, or a page that is no table.
  have htramp' : ∀ a, TrampPage m' a → src.Held m'.pmm a ∧ ¬ T a := by
    intro a ha
    rcases hev.tramp with hsame | ⟨_, hshared, hheld⟩
    · have hold := htramp a (by rwa [TrampPage, hsame] at ha)
      exact ⟨hev.held a hold.1, hold.2⟩
    · rw [← ha.2] at hshared hheld
      refine ⟨hheld, fun hT => ?_⟩
      rcases hkept a hT with ⟨path, hlen, hpath⟩
      exact Role.noConfusion (hshared.symm.trans (hspace.place path a hlen hpath).1)
  refine ⟨hadds.sound, ⟨role', hspace⟩, fun a => ⟨?_, ?_⟩, fun a ha => ?_, fun a ha => ?_⟩
  · rintro ⟨path, hlen, hpath⟩
    rcases hspace.place path a hlen hpath with ⟨htable, hheld⟩
    by_cases hold : src.Held m.pmm a
    · exact .inl (hrole a path hold ((hev.role_eq a hold).symm.trans htable))
    · refine .inr ⟨hheld, hold, fun hc => ?_⟩
      rcases hev.tramp with hsame | ⟨_, hshared, _⟩
      · exact hold (htramp a (by rwa [TrampPage, hsame] at hc)).1
      · rw [← hc.2, htable] at hshared
        cases hshared
  · rintro (hT | ⟨hheld, hnew, hno⟩)
    · exact hkept a hT
    · exact ((hadds.only a hheld).resolve_left hnew).resolve_left hno
  · have hleaf := hleaves a ha
    exact ⟨hev.held a hleaf.1, fun hc => hc.elim hleaf.2 fun hc => hc.2.1 hleaf.1⟩
  · exact ⟨(htramp' a ha).1, fun hc => hc.elim (htramp' a ha).2 fun hc => hc.2.2 ha⟩

open Classical in
theorem history_tables (hex : src.Exact Sound Fixed) (h : TableHistory src Sound r m T L) :
    TablesAre src Sound r m T L := by
  induction h with
  | @create m m' hs htramp hcall hr =>
    rcases createTables_got (fun _ => .shared) hcall hr with ⟨_, role', hev, hspace, _⟩
    have hadds := adds_mono (createTables_adds hex hs hcall) fun a ha => ha.2
    have hare := tables_taken (T := fun _ => False) (L := fun _ => False) hev hspace hadds nofun
      nofun nofun fun a ha => ⟨htramp a ha, not_false⟩
    simpa only [false_or] using hare
  | @map m T L _ va pa n flags hpages ih =>
    rcases ih.space with ⟨role, hspace⟩
    -- Roles that tell the tables from all other pages.
    have hown : SpaceOk src m (fun a => if TablePage m.mem r a then role a else .other) r :=
      (space_keep hspace (fun _ _ _ _ _ _ => rfl) fun path p hlen hp =>
        ⟨if_pos ⟨path, hlen, hp⟩, (hspace.place path p hlen hp).2⟩).1
    rcases mapLoop_leaf va pa flags n 0 m _ hown with ⟨role', hgrows, _⟩
    have hbuilds := @mapRange_builds σ src Sound Fixed (fun _ => False) m _ _ r hex ih.sound hown
      va pa n flags rfl
    refine tables_taken hgrows.evolves hgrows.space
      (adds_mono hbuilds.adds fun a ha => ha.resolve_right not_false) (fun a path _ hrole => ?_)
      (fun a ha => hbuilds.tables a ((ih.tables a).mpr ha)) (fun a ha => ?_) ih.tramp
    · by_contra hc
      rw [if_neg fun ht => hc ((ih.tables a).mp ht)] at hrole
      cases hrole
    · rcases ha with ha | ⟨k, hk, rfl⟩
      · exact ih.leaves a ha
      · exact hpages k hk
  | @other m m' T L _ hs hheld hmem htramp ih =>
    rcases ih.space with ⟨role, hspace⟩
    have htable : ∀ path p, path.length ≤ 3 → follow m.mem r path = some p → T p :=
      fun path p hlen hp => (ih.tables p).mp ⟨path, hlen, hp⟩
    have hplace : ∀ path p, path.length ≤ 3 → follow m.mem r path = some p →
        role p = role p ∧ src.Held m'.pmm p := fun path p hlen hp =>
      ⟨rfl, hheld p (.inl (htable path p hlen hp))⟩
    rcases space_keep hspace (fun path p x hlen hp => hmem p x (htable path p hlen hp)) hplace with
      ⟨hspace', hfollow, _⟩
    refine ⟨hs, ⟨role, hspace'⟩, fun a => (exists_congr fun path => ?_).trans (ih.tables a),
      fun a ha => ⟨hheld a (.inr ha), (ih.leaves a ha).2⟩, htramp⟩
    exact and_congr_right fun hlen => hfollow path a hlen

/-- Whatever has been mapped in an address space, in whatever order and with
    whatever allocations refused, its teardown gives back the pages that were handed
    out for its tables, each once, and no page that was mapped nor the trampoline. -/
theorem teardown_exact (p0 : Pmm.Allocator) (hstart : p0.1.memRegionStart ≠ 0)
    (r : Nat) (m : Machine Pmm.Allocator) (T L : Nat → Prop)
    (h : TableHistory Pmm.pmmSource (Pmm.SameMemory p0) r m T L) :
    mmuFreeUserTables Pmm.pmmSource m r = giveBack Pmm.pmmSource m (userTablePages m.mem r) ∧
      (userTablePages m.mem r).Nodup ∧ (∀ a, a ∈ userTablePages m.mem r ↔ T a) ∧
      ∀ a ∈ userTablePages m.mem r, ¬ L a ∧ ¬ TrampPage m a := by
  have hare := history_tables (Pmm.pmmSource_exact p0 hstart) h
  rcases hare.space with ⟨role, hspace⟩
  have hmem : ∀ a, a ∈ userTablePages m.mem r ↔ T a := fun a =>
    (mem_userTablePages_iff hspace a).trans (hare.tables a)
  exact ⟨freeTables_eq m r, userTablePages_nodup hspace, hmem, fun a ha =>
    ⟨fun hc => (hare.leaves a hc).2 ((hmem a).mp ha),
      fun hc => (hare.tramp a hc).2 ((hmem a).mp ha)⟩⟩

/-- A new address space. -/
def bootSpace : Machine Pmm.Allocator × Nat :=
  mmuCreateUserTables Pmm.pmmSource Sched.bootMachine

/-- The code of the image, mapped in a new address space, survives its teardown. -/
theorem teardown_exact_boot :
    0x40000000 ∉ userTablePages
      (mmuMapUserRange Pmm.pmmSource bootSpace.1 bootSpace.2 userTextBase 0x40000000 1
        textFlags).mem bootSpace.2 := by
  have hcreate : TableHistory Pmm.pmmSource (Pmm.SameMemory Sched.bootMachine.pmm) bootSpace.2
      bootSpace.1 _ _ :=
    .create (Pmm.sameRegion_refl _) (fun _ ha => absurd rfl ha.1) rfl (by decide +kernel)
  have hheld := Sched.bootMachine_boot.1 0x40000000 ⟨0, by decide +kernel, rfl⟩
  have hmap := hcreate.map userTextBase 0x40000000 1 textFlags fun k hk => by
    rw [Nat.lt_one_iff.mp hk]
    exact ⟨⟨0, by decide +kernel, by decide +kernel, by decide +kernel⟩, fun ht => ht.2.1 hheld⟩
  intro hc
  refine ((teardown_exact _ (by decide +kernel) _ _ _ _ hmap).2.2.2 _ hc).1 ?_
  exact .inr ⟨0, Nat.one_pos, rfl⟩

end CortexForge.Mmu
