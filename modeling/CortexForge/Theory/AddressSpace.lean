import CortexForge.Theory.PageTables

/-!
# Address Spaces

What kernel code does to the address spaces it is not concerned with: nothing.

Pages play roles. A table has its place in the tree of one address space, a data
page belongs to one address space, and the pages every address space maps are
shared. That each page plays one role is what keeps address spaces apart; a role
is given to a page when the allocator hands it out, and the pages handed out
were nobody's. `Evolves` collects what follows for a stretch of kernel code: the
pages held before are still held and play the same roles, and only those of
certain roles have been written.

`SpaceOk` says that the tables of an address space are where their roles put
them. Code that does not write to them and does not give them back leaves the
address space as it is.

## Main definitions

* `Role`: What a page is for.
* `Evolves`: What a stretch of kernel code leaves alone.
* `SpaceOk`: The tables of an address space.
* `translate`: The mapping of a user address.

## Theorems

* `evolves_fresh`, `evolves_write`: The two ways memory changes.
* `allocTable_spec`: A new table.
* `space_keep`, `space_frame`: An address space others do not write to.
-/

namespace CortexForge.Mmu

/-- What a page is for. Tables and the pages of an image belong to an address
    space, named by its first table; stacks that outlive an address space belong
    to a task, named by its kernel stack. -/
inductive Role where
  | other
  | table (root : Nat) (path : List Nat)
  | data (root : Nat)
  | kstack (base : Nat)
  | grown (base : Nat)
  | shared

/-- What each page is for. -/
abbrev Roles := Nat → Role

/-- The page `a` is one of the `n` pages from `addr` up. -/
def InRun (addr n a : Nat) : Prop := ∃ i, i < n ∧ a = addr + i * pageSize

open Classical in
/-- The roles with that of a run of pages replaced. -/
noncomputable def assign (role : Roles) (addr n : Nat) (ρ : Role) : Roles :=
  fun a => if InRun addr n a then ρ else role a

theorem assign_of_inRun {role : Roles} {addr n a : Nat} {ρ : Role} (ha : InRun addr n a) :
    assign role addr n ρ a = ρ := if_pos ha

/-- The table at the end of a path. -/
abbrev follow (mem : Memory) (r : Nat) (path : List Nat) : Option Nat :=
  pteFormat.follow (getEntry mem) r path

/-- The valid entry at the end of a path. -/
abbrev leafAt (mem : Memory) (r : Nat) (path : List Nat) (i : Nat) : Option (BitVec 64) :=
  pteFormat.leaf (getEntry mem) r path i

/-- The tables on the way to a user address. -/
def pathOf (va : Nat) : List Nat := [l0Index va, l1Index va, l2Index va]

/-- The mapping of a user address. -/
def translate (mem : Memory) (r va : Nat) : Option (BitVec 64) :=
  leafAt mem r (pathOf va) (l3Index va)

variable {σ : Type} (src : Pages σ)

/-- What a stretch of kernel code leaves alone: pages that are held stay held and
    keep their roles, and only those with a role in `W` are written. The
    trampoline page may be set up on the way. -/
structure Evolves (W : Role → Prop) (m : Machine σ) (role : Roles) (m' : Machine σ)
    (role' : Roles) : Prop where
  role_eq : ∀ a, src.Held m.pmm a → role' a = role a
  held : ∀ a, src.Held m.pmm a → src.Held m'.pmm a
  mem_eq : ∀ a x, src.Held m.pmm a → ¬ W (role a) → InPage a x → m'.mem x = m.mem x
  refused_le : m.refused ≤ m'.refused
  tramp : m'.sigtrampPhys = m.sigtrampPhys ∨
    m.sigtrampPhys = 0 ∧ role' m'.sigtrampPhys = .shared ∧ src.Held m'.pmm m'.sigtrampPhys

/-- The tables of the address space with root `r` are held and at their places,
    and above the last level a valid entry is that of a table. -/
structure SpaceOk (m : Machine σ) (role : Roles) (r : Nat) : Prop where
  place : ∀ path p, path.length ≤ 3 → follow m.mem r path = some p →
    role p = .table r path ∧ src.Held m.pmm p
  tables : ∀ path p i, path.length < 3 → follow m.mem r path = some p → i < 512 →
    pteValid (getEntry m.mem p i) = true → pteIsTable (getEntry m.mem p i) = true

/-- The role of a table of one address space. -/
def TableOf (r : Nat) (ρ : Role) : Prop := ∃ path, ρ = .table r path

section

variable {src} {W W' : Role → Prop} {m m1 m2 : Machine σ} {role role1 role2 : Roles}

theorem evolves_refl (W : Role → Prop) (m : Machine σ) (role : Roles) :
    Evolves src W m role m role :=
  ⟨fun _ _ => rfl, fun _ h => h, fun _ _ _ _ _ => rfl, Nat.le_refl _, .inl rfl⟩

theorem evolves_trans (h1 : Evolves src W m role m1 role1)
    (h2 : Evolves src W m1 role1 m2 role2) : Evolves src W m role m2 role2 := by
  refine ⟨fun a ha => ?_, fun a ha => h2.held a (h1.held a ha), fun a x ha hW hx => ?_,
    Nat.le_trans h1.refused_le h2.refused_le, ?_⟩
  · rw [h2.role_eq a (h1.held a ha), h1.role_eq a ha]
  · have hrole := h1.role_eq a ha
    rw [h2.mem_eq a x (h1.held a ha) (hrole ▸ hW) hx, h1.mem_eq a x ha hW hx]
  · -- The page is set up in one of the two stretches, and stays.
    rcases h2.tramp with hsame | ⟨hzero, hshared, hheld⟩
    · rcases h1.tramp with hsame' | ⟨hzero, hshared, hheld⟩
      · exact .inl (hsame.trans hsame')
      · right
        rw [hsame]
        exact ⟨hzero, (h2.role_eq _ hheld).trans hshared, h2.held _ hheld⟩
    · rcases h1.tramp with hsame' | ⟨hzero', _, _⟩
      · exact .inr ⟨hsame' ▸ hzero, hshared, hheld⟩
      · exact .inr ⟨hzero', hshared, hheld⟩

theorem evolves_mono (h : Evolves src W m role m1 role1) (hW : ∀ ρ, W ρ → W' ρ) :
    Evolves src W' m role m1 role1 :=
  ⟨h.role_eq, h.held, fun a x ha hout => h.mem_eq a x ha fun hc => hout (hW _ hc), h.refused_le,
    h.tramp⟩

/-- A write to pages of the permitted roles. -/
theorem evolves_write {m : Machine σ} {role : Roles} {mem : Memory} (hmem : ∀ x, mem x ≠ m.mem x →
      ∃ a, src.Held m.pmm a ∧ InPage a x ∧ W (role a)) :
    Evolves src W m role { m with mem := mem } role := by
  refine ⟨fun _ _ => rfl, fun _ h => h, fun a x ha hW hx => ?_, Nat.le_refl _, .inl rfl⟩
  by_contra hne
  rcases hmem x hne with ⟨b, hb, hbx, hWb⟩
  -- Two whole pages that share a byte are the same.
  have heq : a = b := by
    have haa := src.held_aligned _ a ha
    have hab := src.held_aligned _ b hb
    unfold InPage pageSize at *
    omega
  exact hW (heq ▸ hWb)

end

section

variable {src} {m : Machine σ} {n : Nat}

/-- Handing pages out does not write to memory. -/
theorem allocatePages_mem {m1 : Machine σ} {u : Nat} (hcall : allocatePages src m n = (m1, u)) :
    m1.mem = m.mem := by
  have hfst : (allocatePages src m n).1 = m1 := by rw [hcall]
  rw [← hfst]
  rfl

theorem inRun_held (hgot : (allocatePages src m n).2 ≠ 0) {a : Nat}
    (ha : InRun (allocatePages src m n).2 n a) :
    ¬ src.Held m.pmm a ∧ src.Held (allocatePages src m n).1.pmm a := by
  rcases ha with ⟨i, hi, rfl⟩
  exact ⟨src.alloc_new m.pmm n i hgot hi, src.alloc_held m.pmm n i hgot hi⟩

theorem inRun_self (addr : Nat) {n : Nat} (hn : 0 < n) : InRun addr n addr :=
  ⟨0, hn, by rw [Nat.zero_mul, Nat.add_zero]⟩

theorem inRun_one {addr a : Nat} (h : InRun addr 1 a) : a = addr := by
  rcases h with ⟨i, hi, heq⟩
  have hzero : i = 0 := by omega
  rw [heq, hzero, Nat.zero_mul, Nat.add_zero]

/-- A byte of a run of pages lies in one of them. -/
theorem inPage_of_run (addr n x : Nat) (hlo : addr ≤ x) (hhi : x < addr + n * pageSize) :
    ∃ a, InRun addr n a ∧ InPage a x := by
  have hpage : 0 < pageSize := Nat.succ_pos 4095
  have hdiv := Nat.div_add_mod (x - addr) pageSize
  have hmod := Nat.mod_lt (x - addr) hpage
  rw [Nat.mul_comm] at hdiv
  refine ⟨addr + (x - addr) / pageSize * pageSize, ⟨(x - addr) / pageSize, ?_, rfl⟩, ?_, ?_⟩
  · refine (Nat.div_lt_iff_lt_mul hpage).mpr ?_
    omega
  · omega
  · omega

/-- Pages that were handed out and filled: they were nobody's, so nothing that is
    held has changed. -/
theorem evolves_fresh (W : Role → Prop) (role : Roles) {ρ : Role} {m' : Machine σ}
    (hgot : (allocatePages src m n).2 ≠ 0) (hpmm : m'.pmm = (allocatePages src m n).1.pmm)
    (hrefused : m.refused ≤ m'.refused)
    (hmem : ∀ x, x < (allocatePages src m n).2 ∨ (allocatePages src m n).2 + n * pageSize ≤ x →
      m'.mem x = m.mem x)
    (htramp : m'.sigtrampPhys = m.sigtrampPhys ∨ m.sigtrampPhys = 0 ∧ ρ = .shared ∧
      InRun (allocatePages src m n).2 n m'.sigtrampPhys) :
    Evolves src W m role m' (assign role (allocatePages src m n).2 n ρ) := by
  have hnew : ∀ a, src.Held m.pmm a → ¬ InRun (allocatePages src m n).2 n a :=
    fun a ha hrun => (inRun_held hgot hrun).1 ha
  refine ⟨fun a ha => if_neg (hnew a ha), fun a ha => ?_, fun a x ha _ hx => ?_,
    hrefused, ?_⟩
  · rw [hpmm]
    exact src.alloc_keep m.pmm n a ha
  · refine hmem x ?_
    have hapart := src.alloc_apart hgot ha
    simp only [InPage, allocatePages] at hx ⊢
    omega
  · rcases htramp with hsame | ⟨hzero, hρ, hrun⟩
    · exact .inl hsame
    · refine .inr ⟨hzero, ?_, ?_⟩
      · rw [assign_of_inRun hrun, hρ]
      · rw [hpmm]
        exact (inRun_held hgot hrun).2

/-- A refusal changes nothing but the count. -/
theorem evolves_refused (W : Role → Prop) (role : Roles) (hgot : (allocatePages src m n).2 = 0) :
    Evolves src W m role (allocatePages src m n).1 role ∧
      m.refused < (allocatePages src m n).1.refused := by
  have hcount : (allocatePages src m n).1.refused = m.refused + 1 := by
    exact if_pos hgot
  refine ⟨⟨fun _ _ => rfl, fun a ha => src.alloc_keep m.pmm n a ha, fun _ _ _ _ _ => rfl, ?_,
    .inl rfl⟩, ?_⟩
  · rw [hcount]
    exact Nat.le_succ _
  · rw [hcount]
    exact Nat.lt_succ_self _

/-- A new table is a page of zeros that was nobody's. -/
theorem allocTable_spec (W : Role → Prop) (role : Roles) (ρ : Role) (m : Machine σ) :
    ((allocTable src m).2 = 0 ∧ Evolves src W m role (allocTable src m).1 role ∧
      (allocTable src m).1.mem = m.mem ∧ m.refused < (allocTable src m).1.refused) ∨
    ((allocTable src m).2 ≠ 0 ∧
      Evolves src W m role (allocTable src m).1 (assign role (allocTable src m).2 1 ρ) ∧
      ¬ src.Held m.pmm (allocTable src m).2 ∧
      src.Held (allocTable src m).1.pmm (allocTable src m).2 ∧
      (∀ x, InPage (allocTable src m).2 x → (allocTable src m).1.mem x = 0#8) ∧
      (allocTable src m).1.sigtrampPhys = m.sigtrampPhys ∧
      (allocTable src m).1.refused = m.refused) := by
  unfold allocTable
  by_cases hgot : (allocatePages src m 1).2 = 0
  · left
    simp only [if_pos hgot]
    rcases @evolves_refused σ src m 1 W role hgot with ⟨hev, hlt⟩
    exact ⟨trivial, hev, rfl, hlt⟩
  · right
    simp only [if_neg hgot]
    have hself := inRun_self (allocatePages src m 1).2 (Nat.lt_succ_self 0)
    have hcount : (allocatePages src m 1).1.refused = m.refused := by
      exact if_neg hgot
    refine ⟨hgot, ?_, (inRun_held hgot hself).1, (inRun_held hgot hself).2, fun x hx => ?_, rfl,
      hcount⟩
    · refine evolves_fresh W role hgot rfl (Nat.le_of_eq hcount.symm) (fun x hx => ?_)
        (.inl rfl)
      exact memset_other _ _ _ _ x hx
    · exact if_pos hx

/-- Nothing but the new table is written. -/
theorem allocTable_other (m : Machine σ) (x : Nat) (hx : ¬ InPage (allocTable src m).2 x) :
    (allocTable src m).1.mem x = m.mem x := by
  unfold allocTable at hx ⊢
  by_cases hgot : (allocatePages src m 1).2 = 0
  · simp only [if_pos hgot]
    rfl
  · simp only [if_neg hgot] at hx ⊢
    exact if_neg hx

end

section

variable {src} {W : Role → Prop} {m m' : Machine σ} {role role' : Roles} {r : Nat}

theorem held_lt {s : σ} {a : Nat} (ha : src.Held s a) : a % pageSize = 0 ∧ a < 2 ^ 48 := by
  have hbelow := src.held_below s a ha
  unfold physLimit at hbelow
  exact ⟨src.held_aligned s a ha, by omega⟩

variable (h : SpaceOk src m role r)
include h

/-- A table has one place. -/
theorem space_treeLike :
    pteFormat.TreeLike (getEntry m.mem) 3 r := by
  intro path path' p hlen hlen' hp hp'
  have hrole := (h.place path p hlen hp).1
  rw [(h.place path' p hlen' hp').1, Role.table.injEq] at hrole
  exact hrole.2.symm

/-- An address space stays as it is when its tables stay: their contents, their
    roles and that they are held. -/
theorem space_keep (hmem : ∀ path p x, path.length ≤ 3 → follow m.mem r path = some p → InPage p x →
      m'.mem x = m.mem x) (hkeep : ∀ path p, path.length ≤ 3 → follow m.mem r path = some p →
      role' p = role p ∧ src.Held m'.pmm p) :
    SpaceOk src m' role' r ∧
    (∀ path p, path.length ≤ 3 →
      (follow m'.mem r path = some p ↔ follow m.mem r path = some p)) ∧
    ∀ path i, path.length ≤ 3 → leafAt m'.mem r path i = leafAt m.mem r path i := by
  have hentries : ∀ path p i, path.length ≤ 3 → follow m.mem r path = some p → i < 512 →
      getEntry m'.mem p i = getEntry m.mem p i := fun path p i hlen hp hi =>
    getEntry_congr p i hi fun x hx => hmem path p x hlen hp hx
  have hfollow : ∀ path p, path.length ≤ 3 →
      (follow m'.mem r path = some p ↔ follow m.mem r path = some p) := fun path p hlen =>
    TableFormat.follow_congr path p fun pre q i hq hlt hi => hentries pre q i (by omega) hq hi
  refine ⟨⟨fun path p hlen hp => ?_, fun path p i hlen hp hi => ?_⟩, hfollow, fun path i hlen => ?_⟩
  · have hold := (hfollow path p hlen).mp hp
    rcases hkeep path p hlen hold with ⟨hrole, hheld⟩
    exact ⟨hrole.trans (h.place path p hlen hold).1, hheld⟩
  · have hold := (hfollow path p (Nat.le_of_lt hlen)).mp hp
    rw [hentries path p i (by omega) hold hi]
    exact h.tables path p i hlen hold hi
  · exact TableFormat.leaf_congr path i fun pre q j hq hle hj => hentries pre q j (by omega) hq hj

/-- An address space others do not write to stays as it is. -/
theorem space_frame (hev : Evolves src W m role m' role') (hW : ∀ path, ¬ W (.table r path)) :
    SpaceOk src m' role' r ∧
    (∀ path p, path.length ≤ 3 →
      (follow m'.mem r path = some p ↔ follow m.mem r path = some p)) ∧
    ∀ path i, path.length ≤ 3 → leafAt m'.mem r path i = leafAt m.mem r path i := by
  refine space_keep h (fun path p x hlen hp hx => ?_) fun path p hlen hp => ?_
  · rcases h.place path p hlen hp with ⟨hrole, hheld⟩
    refine hev.mem_eq p x hheld ?_ hx
    rw [hrole]
    exact hW path
  · have hheld := (h.place path p hlen hp).2
    exact ⟨hev.role_eq p hheld, hev.held p hheld⟩

end

end CortexForge.Mmu
