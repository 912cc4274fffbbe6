import CortexForge.Theory.AddressSpace

/-!
# Building Address Spaces

The functions of the MMU one by one, each by what it adds to the tree of tables:
`nextTable_spec`, `walkLevels_spec`, `setLeaf_spec`. Mapping changes the leaves it
says it changes (`mapLoop_translate`), as long as no allocation is refused;
whatever happens, each leaf is an old one or a new one (`mapLoop_leaf`).

A new address space maps at most the trampoline, which all of them share. Giving
the tables of one back gives back those and nothing else.

## Main definitions

* `Grows`: An address space that keeps its tables.
* `Frees`: Pages are given back.
* `SharedOk`: The pages every address space maps.

## Theorems

* `walkLevels_spec`, `mapLoop_leaf`, `mapLoop_translate`: Mapping.
* `createTables_refused`, `createTables_got`: A new address space.
* `freeTables_frees`: Giving tables back.
-/

namespace CortexForge.Mmu

open List

variable {σ : Type} (src : Pages σ)

section

variable {src} {m m' : Machine σ} {role role' : Roles} {r : Nat}

/-- The page at `a` is a table of the address space with root `r`. -/
def TablePage (mem : Memory) (r a : Nat) : Prop :=
  ∃ path, path.length ≤ 3 ∧ follow mem r path = some a

/-- The address space grows: its tables stay where they are, and there may be
    more of them. Only tables are written. -/
structure Grows (src : Pages σ) (r : Nat) (m : Machine σ)
    (role : Roles) (m' : Machine σ) (role' : Roles) : Prop where
  evolves : Evolves src (TableOf r) m role m' role'
  space : SpaceOk src m' role' r
  kept : ∀ path p, path.length ≤ 3 → follow m.mem r path = some p → follow m'.mem r path = some p
  written : ∀ x, m'.mem x ≠ m.mem x → ∃ p, TablePage m'.mem r p ∧ InPage p x

theorem grows_tables (h : Grows src r m role m' role') (a : Nat) (ha : TablePage m.mem r a) :
    TablePage m'.mem r a := by
  rcases ha with ⟨path, hlen, hpath⟩
  exact ⟨path, hlen, h.kept path a hlen hpath⟩

theorem grows_refl (h : SpaceOk src m role r) : Grows src r m role m role :=
  ⟨evolves_refl _ m role, h, fun _ _ _ hp => hp, fun _ hc => absurd rfl hc⟩

theorem grows_trans {m'' : Machine σ} {role'' : Roles} (h1 : Grows src r m role m' role')
    (h2 : Grows src r m' role' m'' role'') : Grows src r m role m'' role'' := by
  refine ⟨evolves_trans h1.evolves h2.evolves, h2.space,
    fun path p hlen hp => h2.kept path p hlen (h1.kept path p hlen hp), fun x hx => ?_⟩
  by_cases hmid : m''.mem x = m'.mem x
  · rcases h1.written x fun hc => hx (hmid.trans hc) with ⟨p, hp, hin⟩
    exact ⟨p, grows_tables h2 p hp, hin⟩
  · exact h2.written x hmid

end

section

variable {src} {m : Machine σ} {role : Roles} {r table i : Nat}

/-- A table just allocated and hung into an entry that was not valid. -/
theorem installed_spec (h : SpaceOk src m role r) {path : List Nat}
    (hpath : follow m.mem r path = some table) (hlen : path.length < 3) (hi : i < 512)
    (hinvalid : pteValid (getEntry m.mem table i) = false) (m1 : Machine σ) (n : Nat)
    (hev : Evolves src (TableOf r) m role m1 (assign role n 1 (.table r (path ++ [i]))))
    (hframe : ∀ a x, src.Held m.pmm a → InPage a x → m1.mem x = m.mem x)
    (hother : ∀ x, ¬ InPage n x → m1.mem x = m.mem x) (hnew : ¬ src.Held m.pmm n)
    (hheld : src.Held m1.pmm n) (hzero : ∀ x, InPage n x → m1.mem x = 0#8) :
    Grows src r m role { m1 with mem := setEntry m1.mem table i (tableEntry n) }
      (assign role n 1 (.table r (path ++ [i]))) ∧
    TableFormat.Installed pteFormat (getEntry m.mem)
      (getEntry (setEntry m1.mem table i (tableEntry n))) 3 r path table i n := by
  have htable := h.place path table (Nat.le_of_lt hlen) hpath
  have hheldTable := hev.held table htable.2
  have hn := held_lt hheld
  have hne : ∀ a, src.Held m.pmm a → a ≠ n := fun a ha heq => hnew (heq ▸ ha)
  have hinst : TableFormat.Installed pteFormat (getEntry m.mem)
      (getEntry (setEntry m1.mem table i (tableEntry n))) 3 r path table i n := by
    refine
      { at_path := hpath
        above := hlen
        index_lt := hi
        was_invalid := hinvalid
        now_valid := ?_
        now_next := ?_
        empty := fun j hj => ?_
        same := fun path' p j hlen' hp hj hslot => ?_ }
    · rw [getEntry_setEntry_self]
      exact pteValid_tableEntry n
    · rw [getEntry_setEntry_self]
      exact pteNextTable_tableEntry n hn.1 hn.2
    · rw [getEntry_setEntry_of_ne _ _ hn.1 (held_lt hheldTable).1 hj hi
        fun hc => hne table htable.2 hc.1.symm]
      exact pteValid_zero n j hj hzero
    · have hp' := h.place path' p hlen' hp
      rw [getEntry_setEntry_of_ne _ _ (held_lt hp'.2).1 (held_lt htable.2).1 hj hi hslot]
      exact getEntry_congr p j hj fun x hx => hframe p x hp'.2 hx
  have hfollow := TableFormat.follow_install_iff (space_treeLike h) hinst
  have hkept : ∀ path' p, path'.length ≤ 3 → follow m.mem r path' = some p →
      follow (setEntry m1.mem table i (tableEntry n)) r path' = some p :=
    fun path' p hlen' hp => (hfollow path' hlen' p).mpr (.inl hp)
  refine ⟨⟨evolves_trans hev (evolves_write fun x hx => ?_), ⟨?_, ?_⟩, hkept, fun x hx => ?_⟩,
    hinst⟩
  · -- The entry that is written lies in a table of this address space.
    refine ⟨table, hheldTable, ?_, path, ?_⟩
    · by_contra hout
      exact hx (setEntry_other _ _ _ _ _ hi hout)
    · rw [hev.role_eq table htable.2]
      exact htable.1
  · intro path' p hlen' hp
    rcases (hfollow path' hlen' p).mp hp with hold | ⟨hpath', hpn⟩
    · rcases h.place path' p hlen' hold with ⟨hrole, hheld'⟩
      exact ⟨(hev.role_eq p hheld').trans hrole, hev.held p hheld'⟩
    · rw [hpath', hpn]
      exact ⟨assign_of_inRun (inRun_self n (Nat.lt_succ_self 0)), hheld⟩
  · intro path' p j hlen' hp hj
    rcases (hfollow path' (by omega) p).mp hp with hold | ⟨_, hpn⟩
    · by_cases hslot : p = table ∧ j = i
      · rw [hslot.1, hslot.2, getEntry_setEntry_self]
        exact fun _ => pteIsTable_tableEntry n
      · have hsame : getEntry (setEntry m1.mem table i (tableEntry n)) p j = getEntry m.mem p j :=
          hinst.same path' p j (by omega) hold hj hslot
        simp only [hsame]
        exact h.tables path' p j hlen' hold hj
    · -- The new table has no valid entries.
      have hempty : pteValid (getEntry (setEntry m1.mem table i (tableEntry n)) n j) = false :=
        hinst.empty j hj
      simp only [hpn, hempty]
      exact fun hc => absurd hc Bool.false_ne_true
  · -- What is written is the new table, or the entry it is hung into.
    by_cases hin : InPage n x
    · refine ⟨n, ⟨path ++ [i], ?_, (hfollow _ ?_ n).mpr (.inr ⟨rfl, rfl⟩)⟩, hin⟩
      all_goals
        rw [length_append]
        exact hlen
    · refine ⟨table, ⟨path, Nat.le_of_lt hlen, hkept path table (Nat.le_of_lt hlen) hpath⟩, ?_⟩
      by_contra hout
      exact hx ((setEntry_other _ _ _ _ _ hi hout).trans (hother x hin))

/-- One level down. The leaves stay as they are, and a failure is a refusal. -/
theorem nextTable_spec (h : SpaceOk src m role r) {path : List Nat}
    (hpath : follow m.mem r path = some table) (hlen : path.length < 3) (hi : i < 512) :
    ∃ m' role', Grows src r m role m' role' ∧
      (∀ path' j, path'.length = 3 → leafAt m'.mem r path' j = leafAt m.mem r path' j) ∧
      (nextTable src m table i true = (m', none) ∧ m.refused < m'.refused ∨
        ∃ next, nextTable src m table i true = (m', some next) ∧
          follow m'.mem r (path ++ [i]) = some next) := by
  unfold nextTable
  by_cases hvalid : pteValid (getEntry m.mem table i) = false
  · rw [if_pos hvalid]
    rcases allocTable_spec (fun _ => False) role (.table r (path ++ [i])) m with
      ⟨hzero, hev, hmem, hlt⟩ | ⟨hgot, hev, hnew, hheld, hpage, _, _⟩
    · rw [if_pos hzero]
      have hframe := space_frame h hev fun _ hc => hc
      exact ⟨_, role, ⟨evolves_mono hev nofun, hframe.1,
        fun path' p hle => (hframe.2.1 path' p hle).mpr, fun x hx => absurd (congrFun hmem x) hx⟩,
        fun path' j hle => hframe.2.2 path' j (Nat.le_of_eq hle), .inl ⟨rfl, hlt⟩⟩
    · rw [if_neg hgot]
      have hframe := fun a x ha hx => hev.mem_eq a x ha not_false hx
      rcases installed_spec h hpath hlen hi hvalid _ _ (evolves_mono hev nofun) hframe
        (allocTable_other m) hnew hheld hpage with ⟨hgrows, hinst⟩
      refine ⟨_, _, hgrows, fun path' j hle => ?_, .inr ⟨_, rfl, ?_⟩⟩
      · exact TableFormat.leaf_install (space_treeLike h) hinst path' hle j
      · refine (TableFormat.follow_install_iff (space_treeLike h) hinst _ ?_ _).mpr
          (.inr ⟨rfl, rfl⟩)
        rw [length_append]
        exact hlen
  · rw [if_neg hvalid]
    refine ⟨m, role, grows_refl h, fun _ _ _ => rfl, .inr ⟨_, rfl, ?_⟩⟩
    rw [TableFormat.follow_snoc_iff]
    exact ⟨table, hpath, hi, Bool.not_eq_false _ ▸ hvalid, rfl⟩

end

section

variable {src} {m : Machine σ} {role : Roles} {r va table n pa : Nat}

theorem index_lt (va : Nat) : l0Index va < 512 ∧ l1Index va < 512 ∧ l2Index va < 512 ∧
    l3Index va < 512 := by
  unfold l0Index l1Index l2Index l3Index
  omega

/-- The walk to the entry of an address, with its tables allocated. The leaves
    stay as they are, and a failure is a refusal. -/
theorem walkLevels_spec (h : SpaceOk src m role r) (va : Nat) :
    ∃ m' role', Grows src r m role m' role' ∧
      (∀ path j, path.length = 3 → leafAt m'.mem r path j = leafAt m.mem r path j) ∧
      (walkLevels src m r va 3 true = (m', none) ∧ m.refused < m'.refused ∨
        ∃ table, walkLevels src m r va 3 true = (m', some (table, l3Index va)) ∧
          follow m'.mem r (pathOf va) = some table) := by
  rcases index_lt va with ⟨hi0, hi1, hi2, _⟩
  -- Three levels, each from where the one before it arrived.
  rcases nextTable_spec h (show follow m.mem r [] = some r from rfl) (Nat.succ_pos 2) hi0 with
    ⟨m1, role1, hg1, hl1, ⟨hn1, hr1⟩ | ⟨l1, hn1, hf1⟩⟩
  · exact ⟨m1, role1, hg1, hl1, .inl ⟨by rw [walkLevels, hn1], hr1⟩⟩
  rcases nextTable_spec hg1.space hf1 (Nat.succ_lt_succ (Nat.succ_pos 1)) hi1 with
    ⟨m2, role2, hg2, hl2, ⟨hn2, hr2⟩ | ⟨l2, hn2, hf2⟩⟩
  · exact ⟨m2, role2, grows_trans hg1 hg2,
      fun path j hlen => (hl2 path j hlen).trans (hl1 path j hlen),
      .inl ⟨by simp only [walkLevels, hn1, hn2], Nat.lt_of_le_of_lt hg1.evolves.refused_le hr2⟩⟩
  rcases nextTable_spec hg2.space hf2 (Nat.lt_succ_self 2) hi2 with ⟨m3, role3, hg3, hl3, hn3⟩
  have hg := grows_trans hg1 hg2
  refine ⟨m3, role3, grows_trans hg hg3,
    fun path j hlen => (hl3 path j hlen).trans ((hl2 path j hlen).trans (hl1 path j hlen)), ?_⟩
  simp only [walkLevels, hn1, hn2, if_neg (show ¬ 3 = 2 by decide)]
  rcases hn3 with ⟨hn3, hr3⟩ | ⟨l3, hn3, hf3⟩
  · exact .inl ⟨by rw [hn3], Nat.lt_of_le_of_lt hg.evolves.refused_le hr3⟩
  · exact .inr ⟨l3, by rw [hn3], hf3⟩

/-- The entry of an address is an entry of the last level. -/
theorem setLeaf_written (h : SpaceOk src m role r) (hpath : follow m.mem r (pathOf va) = some table)
    (e : BitVec 64) :
    TableFormat.LeafWritten pteFormat (getEntry m.mem)
      (getEntry (setEntry m.mem table (l3Index va) e)) 3 r (pathOf va) table (l3Index va) := by
  have htable := h.place (pathOf va) table (Nat.le_refl 3) hpath
  refine ⟨hpath, rfl, (index_lt va).2.2.2, fun path p j hlen hp hj hslot => ?_⟩
  exact getEntry_setEntry_of_ne _ _ (held_lt (h.place path p hlen hp).2).1
    (held_lt htable.2).1 hj (index_lt va).2.2.2 hslot

/-- Writing a leaf into the entry of an address. -/
theorem setLeaf_spec (h : SpaceOk src m role r) (hpath : follow m.mem r (pathOf va) = some table)
    (e : BitVec 64) (he : pteValid e = true) :
    Grows src r m role { m with mem := setEntry m.mem table (l3Index va) e } role ∧
    ∀ path j, path.length = 3 →
      leafAt (setEntry m.mem table (l3Index va) e) r path j =
        if path = pathOf va ∧ j = l3Index va then some e else leafAt m.mem r path j := by
  have hi := (index_lt va).2.2.2
  have htable := h.place (pathOf va) table (Nat.le_refl 3) hpath
  have hwritten := setLeaf_written h hpath e
  have hfollow := TableFormat.follow_set (space_treeLike h) hwritten
  refine ⟨⟨evolves_write fun x hx => ?_, ⟨fun path p hlen hp => ?_, ?_⟩, ?_, fun x hx => ?_⟩, ?_⟩
  · refine ⟨table, htable.2, ?_, _, htable.1⟩
    by_contra hout
    exact hx (setEntry_other _ _ _ _ _ hi hout)
  · exact h.place path p hlen ((hfollow path hlen p).mp hp)
  · intro path p j hlen hp hj
    have hold := (hfollow path (by omega) p).mp hp
    have hsame : getEntry (setEntry m.mem table (l3Index va) e) p j = getEntry m.mem p j := by
      refine hwritten.same path p j (by omega) hold hj fun hslot => ?_
      -- A table above the last level is not the one that is written to.
      have hrole := (h.place path p (Nat.le_of_lt hlen) hold).1
      rw [hslot.1, htable.1, Role.table.injEq] at hrole
      rw [← hrole.2] at hlen
      exact Nat.lt_irrefl 3 hlen
    simp only [hsame]
    exact h.tables path p j hlen hold hj
  · exact fun path p hlen hp => (hfollow path hlen p).mpr hp
  · refine ⟨table, ⟨pathOf va, Nat.le_refl 3, ?_⟩, ?_⟩
    · exact (hfollow (pathOf va) (Nat.le_refl 3) table).mpr hpath
    by_contra hout
    exact hx (setEntry_other _ _ _ _ _ hi hout)
  · intro path j hlen
    rw [leafAt, TableFormat.leaf_set (space_treeLike h) hwritten path hlen j,
      getEntry_setEntry_self, if_pos (show pteFormat.valid e = true from he)]

/-- One page of the mapping loop: its leaf is written and the loop goes on, or the
    walk to it was refused a page and the loop ends. -/
theorem mapLoop_step (h : SpaceOk src m role r) (va pa : Nat) (flags : BitVec 64) (n i : Nat) :
    ∃ m1 role1, Grows src r m role m1 role1 ∧
      ((mapLoop src r va pa flags (n + 1) i m = m1 ∧ m.refused < m1.refused ∧
        ∀ path j, path.length = 3 → leafAt m1.mem r path j = leafAt m.mem r path j) ∨
      (mapLoop src r va pa flags (n + 1) i m = mapLoop src r va pa flags n (i + 1) m1 ∧
        ∀ path j, path.length = 3 → leafAt m1.mem r path j =
          if path = pathOf (wrap64 (va + i * pageSize)) ∧
              j = l3Index (wrap64 (va + i * pageSize)) then
            some (leafEntry (pa + i * pageSize) flags)
          else leafAt m.mem r path j)) := by
  rcases walkLevels_spec h (wrap64 (va + i * pageSize)) with
    ⟨m1, role1, hg1, hl1, ⟨hwalk, hr1⟩ | ⟨table, hwalk, hpath⟩⟩
  · exact ⟨m1, role1, hg1, .inl ⟨by rw [mapLoop, hwalk], hr1, hl1⟩⟩
  · rcases setLeaf_spec hg1.space hpath (leafEntry (pa + i * pageSize) flags)
      (leafEntry_perms _ _).1 with ⟨hg2, hl2⟩
    refine ⟨_, role1, grows_trans hg1 hg2, .inr ⟨?_, fun path j hlen => ?_⟩⟩
    · rw [mapLoop, hwalk]
      simp only [leafEntry_wrap64]
    · rw [hl2 path j hlen, hl1 path j hlen]

/-- The mapping loop grows the address space, and each leaf afterwards is one it
    had before or one of the pages mapped. -/
theorem mapLoop_leaf (va pa : Nat) (flags : BitVec 64) (n : Nat) : ∀ i (m : Machine σ) role,
    SpaceOk src m role r →
    ∃ role', Grows src r m role (mapLoop src r va pa flags n i m) role' ∧
      ∀ path j e, path.length = 3 →
        leafAt (mapLoop src r va pa flags n i m).mem r path j = some e →
        leafAt m.mem r path j = some e ∨
          ∃ k, i ≤ k ∧ k < i + n ∧ e = leafEntry (pa + k * pageSize) flags := by
  induction n with
  | zero => exact fun i m role h => ⟨role, grows_refl h, fun path j e _ he => .inl he⟩
  | succ n ih =>
    intro i m role h
    rcases mapLoop_step h va pa flags n i with ⟨m1, role1, hg1, ⟨hrun, _, hl1⟩ | ⟨hrun, hl1⟩⟩
    · rw [hrun]
      exact ⟨role1, hg1, fun path j e hlen he => .inl ((hl1 path j hlen) ▸ he)⟩
    · rw [hrun]
      rcases ih (i + 1) m1 role1 hg1.space with ⟨role2, hg2, hl2⟩
      refine ⟨role2, grows_trans hg1 hg2, fun path j e hlen he => ?_⟩
      rcases hl2 path j e hlen he with hold | ⟨k, hlo, hhi, hk⟩
      · rw [hl1 path j hlen] at hold
        split_ifs at hold
        · exact .inr ⟨i, Nat.le_refl _, by omega, (Option.some.inj hold).symm⟩
        · exact .inl hold
      · exact .inr ⟨k, by omega, by omega, hk⟩

/-- Addresses below 2^48 have the same place in the tables when they are in the
    same page. -/
theorem place_eq_iff (va va' : Nat) (hva : va < 2 ^ 48) (hva' : va' < 2 ^ 48) :
    pathOf va = pathOf va' ∧ l3Index va = l3Index va' ↔ va / pageSize = va' / pageSize := by
  unfold pathOf l0Index l1Index l2Index l3Index pageSize
  simp only [cons.injEq, and_true]
  omega

/-- A leaf that is written is the mapping of its page. -/
theorem translate_set {mem mem' : Memory} {e : BitVec 64}
    (hleaf : ∀ path j, path.length = 3 → leafAt mem' r path j =
      if path = pathOf va ∧ j = l3Index va then some e else leafAt mem r path j) (hva : va < 2 ^ 48)
    (v : Nat) (hv : v < 2 ^ 48) :
    translate mem' r v = if v / pageSize = va / pageSize then some e else translate mem r v := by
  unfold translate
  simp only [hleaf (pathOf v) (l3Index v) rfl, place_eq_iff v va hv hva]

/-- The address of page `i` of a range that ends below 2^48, and the range behind
    it. -/
theorem rangePage_spec {i : Nat} (hend : va + (i + (n + 1)) * pageSize ≤ 2 ^ 48) :
    wrap64 (va + i * pageSize) = va + i * pageSize ∧ va + i * pageSize < 2 ^ 48 ∧
      (va + i * pageSize) / pageSize = va / pageSize + i ∧
      va + (i + 1 + n) * pageSize ≤ 2 ^ 48 := by
  unfold wrap64
  unfold pageSize at hend ⊢
  omega

/-- Whether or not there is a refusal, the loop leaves other pages alone. Without
    refusals it maps the pages it is given. -/
theorem mapLoop_spec (va pa : Nat) (flags : BitVec 64) (n : Nat) :
    ∀ i (m : Machine σ) role, SpaceOk src m role r → va + (i + n) * pageSize ≤ 2 ^ 48 →
    ∀ v, v < 2 ^ 48 →
    (¬ (va / pageSize + i ≤ v / pageSize ∧ v / pageSize < va / pageSize + i + n) →
      translate (mapLoop src r va pa flags n i m).mem r v = translate m.mem r v) ∧
    ((mapLoop src r va pa flags n i m).refused = m.refused →
      va / pageSize + i ≤ v / pageSize ∧ v / pageSize < va / pageSize + i + n →
      translate (mapLoop src r va pa flags n i m).mem r v =
        some (leafEntry (pa + (v / pageSize - va / pageSize) * pageSize) flags)) := by
  induction n with
  | zero => exact fun i m role h _ v _ => ⟨fun _ => rfl, fun _ hc => by omega⟩
  | succ n ih =>
    intro i m role h hend v hv
    rcases rangePage_spec hend with ⟨hwrap, hlt, hpage, hnext⟩
    rcases mapLoop_step h va pa flags n i with ⟨m1, role1, hg1, ⟨hrun, hr1, hl1⟩ | ⟨hrun, hl1⟩⟩
    · rw [hrun]
      exact ⟨fun _ => hl1 (pathOf v) (l3Index v) rfl, fun _ => by omega⟩
    rw [hwrap] at hl1
    rcases ih (i + 1) m1 role1 hg1.space hnext v hv with ⟨hother, hmapped⟩
    rw [hrun]
    refine ⟨fun hout => ?_, fun hrefused hin => ?_⟩
    · rw [hother (by omega), translate_set hl1 hlt v hv, if_neg (by omega)]
    rcases mapLoop_leaf va pa flags n (i + 1) m1 role1 hg1.space with ⟨_, hg2, _⟩
    have hle1 := hg1.evolves.refused_le
    have hle2 := hg2.evolves.refused_le
    by_cases hfirst : v / pageSize = va / pageSize + i
    · rw [hother (by omega), translate_set hl1 hlt v hv, if_pos (hfirst.trans hpage.symm), hfirst,
        Nat.add_sub_cancel_left]
    · exact hmapped (by omega) (by omega)

theorem mapLoop_translate (va pa : Nat) (flags : BitVec 64) (n : Nat) (i : Nat) (m : Machine σ)
    (role : Roles) (h : SpaceOk src m role r) (hend : va + (i + n) * pageSize ≤ 2 ^ 48)
    (hrefused : (mapLoop src r va pa flags n i m).refused = m.refused) (v : Nat)
    (hv : v < 2 ^ 48) : translate (mapLoop src r va pa flags n i m).mem r v =
      if va / pageSize + i ≤ v / pageSize ∧ v / pageSize < va / pageSize + i + n then
        some (leafEntry (pa + (v / pageSize - va / pageSize) * pageSize) flags)
      else translate m.mem r v := by
  rcases mapLoop_spec va pa flags n i m role h hend v hv with ⟨hother, hmapped⟩
  split_ifs with hin
  · exact hmapped hrefused hin
  · exact hother hin

/-- Mapping a range leaves the pages outside it alone. -/
theorem mapRange_outside (h : SpaceOk src m role r) {flags : BitVec 64}
    (hend : va + n * pageSize ≤ 2 ^ 48) (v : Nat) (hv : v < 2 ^ 48)
    (hout : ¬ (va / pageSize ≤ v / pageSize ∧ v / pageSize < va / pageSize + n)) :
    translate (mmuMapUserRange src m r va pa n flags).mem r v = translate m.mem r v :=
  (mapLoop_spec va pa flags n 0 m role h (by rw [Nat.zero_add]; exact hend) v hv).1 hout

/-- Mapping a range, without refusals. -/
theorem mapRange_translate (h : SpaceOk src m role r) {flags : BitVec 64}
    (hend : va + n * pageSize ≤ 2 ^ 48)
    (hrefused : (mmuMapUserRange src m r va pa n flags).refused = m.refused) (v : Nat)
    (hv : v < 2 ^ 48) :
    translate (mmuMapUserRange src m r va pa n flags).mem r v =
      if va / pageSize ≤ v / pageSize ∧ v / pageSize < va / pageSize + n then
        some (leafEntry (pa + (v / pageSize - va / pageSize) * pageSize) flags)
      else translate m.mem r v :=
  mapLoop_translate va pa flags n 0 m role h (by rw [Nat.zero_add]; exact hend) hrefused v hv

end

section

variable {src} {W : Role → Prop} {m m' : Machine σ} {role role' : Roles}

/-- The pages every address space maps: those of the kernel's text and, once it
    is set up, the trampoline. -/
structure SharedOk (src : Pages σ) (text : Nat → Prop) (m : Machine σ)
    (role : Roles) : Prop where
  text_shared : ∀ a, text a → role a = .shared ∧ src.Held m.pmm a
  tramp_shared : m.sigtrampPhys ≠ 0 →
    role m.sigtrampPhys = .shared ∧ src.Held m.pmm m.sigtrampPhys

theorem sharedOk_evolves {text : Nat → Prop} (h : SharedOk src text m role)
    (hev : Evolves src W m role m' role') : SharedOk src text m' role' := by
  refine ⟨fun a ha => ?_, fun hne => ?_⟩
  · rcases h.text_shared a ha with ⟨hrole, hheld⟩
    exact ⟨(hev.role_eq a hheld).trans hrole, hev.held a hheld⟩
  · rcases hev.tramp with hsame | ⟨_, hshared, hheld⟩
    · rw [hsame] at hne ⊢
      rcases h.tramp_shared hne with ⟨hrole, hheld⟩
      exact ⟨(hev.role_eq _ hheld).trans hrole, hev.held _ hheld⟩
    · exact ⟨hshared, hheld⟩

/-- The trampoline page is the one that is remembered; without one there was a
    refusal. -/
theorem mmuSigtrampPage_spec (m : Machine σ) (role : Roles) :
    ∃ role', (∀ W, Evolves src W m role (mmuSigtrampPage src m).1 role') ∧
      (mmuSigtrampPage src m).2 = (mmuSigtrampPage src m).1.sigtrampPhys ∧
      ((mmuSigtrampPage src m).2 = 0 → m.refused < (mmuSigtrampPage src m).1.refused) := by
  unfold mmuSigtrampPage
  split_ifs with htramp
  · exact ⟨role, fun W => evolves_refl W m role, rfl, fun hc => absurd hc htramp⟩
  rw [not_not] at htramp
  by_cases hgot : (allocatePages src m 1).2 = 0
  · simp only [if_pos hgot]
    exact ⟨role, fun W => (evolves_refused W role hgot).1, htramp.symm,
      fun _ => (evolves_refused (fun _ => False) role hgot).2⟩
  · simp only [if_neg hgot]
    refine ⟨_, fun W => evolves_fresh W role hgot rfl ?_ (fun x hx => ?_)
      (.inr ⟨htramp, rfl, inRun_self _ (Nat.lt_succ_self 0)⟩), trivial,
      fun hc => absurd hc hgot⟩
    · exact Nat.le_of_eq (if_neg hgot).symm
    · have hpage : pageSize = 4096 := rfl
      simp only
      rw [storeN_other (by omega),
        storeN_other (by omega)]
      exact memset_other _ _ _ _ x hx

end

section

variable {src} {m m' : Machine σ} {role : Roles}

/-- A page of zeros is an address space that maps nothing. -/
theorem space_empty {r : Nat} (hrole : role r = .table r []) (hheld : src.Held m.pmm r)
    (hzero : ∀ x, InPage r x → m.mem x = 0#8) :
    SpaceOk src m role r ∧ ∀ path j, leafAt m.mem r path j = none := by
  have hinvalid : ∀ i, ¬ (i < 512 ∧ pteValid (getEntry m.mem r i) = true) := by
    intro i hc
    rw [pteValid_zero r i hc.1 hzero] at hc
    exact absurd hc.2 Bool.false_ne_true
  have hfollow : ∀ i is, follow m.mem r (i :: is) = none := fun i is => if_neg (hinvalid i)
  have hroot : ∀ path p, follow m.mem r path = some p → path = [] ∧ p = r := by
    intro path p hp
    cases path with
    | nil => exact ⟨rfl, (Option.some.inj hp).symm⟩
    | cons i is =>
      rw [hfollow i is] at hp
      exact absurd hp (by simp)
  refine ⟨⟨fun path p _ hp => ?_, fun path p i _ hp hi hvalid => ?_⟩, fun path j => ?_⟩
  · rcases hroot path p hp with ⟨rfl, rfl⟩
    exact ⟨hrole, hheld⟩
  · rw [(hroot path p hp).2] at hvalid
    exact absurd ⟨hi, hvalid⟩ (hinvalid i)
  · cases path with
    | nil => exact if_neg (hinvalid j)
    | cons i is =>
      have hnone : pteFormat.follow (getEntry m.mem) r (i :: is) = none := hfollow i is
      simp [TableFormat.leaf, hnone]

/-- Without a page for its root there is no address space. -/
theorem createTables_refused (role : Roles) (hcall : mmuCreateUserTables src m = (m', 0)) :
    Evolves src (fun _ => False) m role m' role := by
  unfold mmuCreateUserTables at hcall
  rcases allocTable_spec (fun _ => False) role .other m with ⟨hzero, hev, _⟩ | ⟨hne, _⟩
  · rw [if_pos hzero, Prod.mk.injEq] at hcall
    exact hcall.1 ▸ hev
  · rw [if_neg hne] at hcall
    dsimp only at hcall
    split_ifs at hcall <;> exact absurd (congrArg Prod.snd hcall) hne

/-- A new address space. Its root was nobody's page, and it maps at most the
    trampoline; without refusals it does. -/
theorem createTables_got (role : Roles) {r : Nat} (hcall : mmuCreateUserTables src m = (m', r))
    (hr : r ≠ 0) :
    ¬ src.Held m.pmm r ∧ ∃ role', Evolves src (TableOf r) m role m' role' ∧
      SpaceOk src m' role' r ∧
      (∀ path j e, path.length = 3 → leafAt m'.mem r path j = some e →
        m'.sigtrampPhys ≠ 0 ∧ e = leafEntry m'.sigtrampPhys textFlags) ∧
      (m'.refused = m.refused → m'.sigtrampPhys ≠ 0 ∧ ∀ v, v < 2 ^ 48 →
        translate m'.mem r v =
          if v / pageSize = userSigtrampVa / pageSize then
            some (leafEntry m'.sigtrampPhys textFlags)
          else none) := by
  unfold mmuCreateUserTables at hcall
  rcases hl0 : allocTable src m with ⟨m0, l0⟩
  have halloc := fun ρ => @allocTable_spec σ src (fun _ => False) role ρ m
  rw [hl0] at hcall halloc
  simp only at hcall halloc
  rcases halloc (.table l0 []) with ⟨hzero, _⟩ | ⟨hne, hev, hnew, hheld, hpage, htr, hrf⟩
  · rw [if_pos hzero, Prod.mk.injEq] at hcall
    exact absurd hcall.2.symm hr
  · rw [if_neg hne] at hcall
    -- The root is a page of zeros, so there is nothing to map but the trampoline.
    have hrole0 : assign role l0 1 (.table l0 []) l0 = .table l0 [] :=
      assign_of_inRun (inRun_self l0 (Nat.lt_succ_self 0))
    rcases space_empty hrole0 hheld hpage with ⟨hspace, hnone⟩
    rcases mmuSigtrampPage_spec m0 (assign role l0 1 (.table l0 [])) with ⟨role1, hev1, htramp, hr1⟩
    rcases htr1 : mmuSigtrampPage src m0 with ⟨m1, tramp⟩
    rw [htr1] at hcall hev1 htramp hr1
    have hunder : Evolves src (TableOf l0) m role m1 role1 :=
      evolves_trans (evolves_mono hev nofun) (hev1 (TableOf l0))
    rcases space_frame hspace (hev1 fun _ => False) (fun _ hc => hc) with ⟨hspace1, _, hleaf1⟩
    have hnone1 : ∀ path j, path.length = 3 → leafAt m1.mem l0 path j = none :=
      fun path j hlen => (hleaf1 path j (Nat.le_of_eq hlen)).trans (hnone path j)
    split_ifs at hcall with hzero
    · rw [Prod.mk.injEq] at hcall
      rw [← hcall.1, ← hcall.2]
      refine ⟨hnew, role1, hunder, hspace1, fun path j e hlen he => ?_, fun hsame => ?_⟩
      · rw [hnone1 path j hlen] at he
        exact absurd he (by simp)
      · omega
    · rw [Prod.mk.injEq] at hcall
      rw [← hcall.1, ← hcall.2]
      have hle1 := (hev1 fun _ => False).refused_le
      rcases mapLoop_leaf userSigtrampVa tramp textFlags 1 0 m1 role1 hspace1 with
        ⟨role2, hg2, hl2⟩
      have hle2 := hg2.evolves.refused_le
      have hsig : (mmuMapUserRange src m1 l0 userSigtrampVa tramp 1 textFlags).sigtrampPhys
          = tramp := by
        rcases hg2.evolves.tramp with hsame | ⟨hc, _⟩
        · exact hsame.trans htramp.symm
        · exact absurd (htramp.trans hc) hzero
      rw [hsig]
      refine ⟨hnew, role2, evolves_trans hunder hg2.evolves, hg2.space,
        fun path j e hlen he => ⟨hzero, ?_⟩, fun hsame => ⟨hzero, fun v hv => ?_⟩⟩
      · rcases hl2 path j e hlen he with hold | ⟨k, _, hk, heq⟩
        · rw [hnone1 path j hlen] at hold
          exact absurd hold (by simp)
        · have hk0 : k = 0 := by omega
          simp [heq, hk0]
      · have hva : userSigtrampVa + (0 + 1) * pageSize ≤ 2 ^ 48 := by
          unfold userSigtrampVa pageSize
          omega
        unfold mmuMapUserRange at hsame hle2 ⊢
        have hmap := mapLoop_translate userSigtrampVa tramp textFlags 1 0 m1 role1 hspace1 hva
          (by simp only at hsame hle2 hle1; omega) v hv
        rw [hmap, translate, hnone1 _ _ rfl]
        by_cases hpage : v / pageSize = userSigtrampVa / pageSize
        · simp [hpage]
        · rw [if_neg hpage, if_neg (by omega)]

end

section

variable {src} {m m1 : Machine σ} {role : Roles} {r q p : Nat} {mem : Memory}
  {path : List Nat}

/-- Pages are given back: none but those in `P`, and memory stays as it is. -/
structure Frees (src : Pages σ) (P : Nat → Prop) (m m' : Machine σ) : Prop where
  mem_eq : m'.mem = m.mem
  tramp_eq : m'.sigtrampPhys = m.sigtrampPhys
  refused_eq : m'.refused = m.refused
  kept : ∀ a, src.Held m.pmm a → ¬ P a → src.Held m'.pmm a

theorem frees_refl (P : Nat → Prop) (m : Machine σ) : Frees src P m m :=
  ⟨rfl, rfl, rfl, fun _ ha _ => ha⟩

theorem frees_trans {P : Nat → Prop} {m2 : Machine σ} (h1 : Frees src P m m1)
    (h2 : Frees src P m1 m2) : Frees src P m m2 :=
  ⟨h2.mem_eq.trans h1.mem_eq, h2.tramp_eq.trans h1.tramp_eq, h2.refused_eq.trans h1.refused_eq,
    fun a ha hout => h2.kept a (h1.kept a ha hout) hout⟩

theorem frees_mono {P Q : Nat → Prop} (h : Frees src P m m1) (hsub : ∀ a, P a → Q a) :
    Frees src Q m m1 :=
  ⟨h.mem_eq, h.tramp_eq, h.refused_eq, fun a ha hout => h.kept a ha fun hp => hout (hsub a hp)⟩

theorem freePages_frees (m : Machine σ) {addr n : Nat} (hbelow : addr + n * pageSize ≤ physLimit) :
    Frees src (InRun addr n) m (freePages src m addr n) :=
  ⟨rfl, rfl, rfl, fun a ha hout =>
    src.free_keep m.pmm addr n a hbelow ha fun i hi heq => hout ⟨i, hi, heq⟩⟩

/-- A run of pages that are held ends below the limit. -/
theorem run_below {s : σ} {addr n : Nat} (hn : 0 < n)
    (hheld : ∀ a, InRun addr n a → src.Held s a) : addr + n * pageSize ≤ physLimit := by
  have hlast := src.held_below s _ (hheld _ ⟨n - 1, by omega, rfl⟩)
  have hsum : (n - 1) * pageSize + pageSize = n * pageSize := by
    simp [← Nat.succ_mul, Nat.sub_add_cancel hn]
  omega

theorem freeAll_frees (ps : List Nat) : ∀ m : Machine σ,
    (∀ p ∈ ps, p + pageSize ≤ physLimit) →
    Frees src (· ∈ ps) m (ps.foldl (fun m a => freePages src m a 1) m) := by
  induction ps with
  | nil => exact fun m _ => frees_refl _ m
  | cons p ps ih =>
    intro m hbelow
    rw [forall_mem_cons] at hbelow
    refine frees_trans (frees_mono (freePages_frees m ?_) fun a ha => ?_)
      (frees_mono (ih _ hbelow.2) fun a ha => mem_cons_of_mem p ha)
    · exact hbelow.1
    · rw [inRun_one ha]
      exact mem_cons_self

/-- The table below an entry. -/
theorem follow_entry {i : Nat} (hq : follow mem r path = some q) (hi : i < 512)
    (hvalid : pteValid (getEntry mem q i) = true) :
    follow mem r (path ++ [i]) = some (pteNextTable (getEntry mem q i)) :=
  (TableFormat.follow_snoc_iff path i r _).mpr ⟨q, hq, hi, hvalid, rfl⟩

/-- What is given back for a level-2 table lies below it. -/
theorem mem_l2TablePages (hq : follow mem r path = some q) (hp : p ∈ l2TablePages mem q) :
    ∃ rest, rest.length ≤ 1 ∧ follow mem r (path ++ rest) = some p := by
  rcases mem_append.mp hp with hp | hp
  · rcases mem_map.mp hp with ⟨k, hk, rfl⟩
    rw [mem_filter, mem_range, Bool.and_eq_true] at hk
    exact ⟨[k], Nat.le_refl 1, follow_entry hq hk.1 hk.2.1⟩
  · rw [mem_singleton.mp hp]
    exact ⟨[], Nat.zero_le 1, by rw [append_nil]; exact hq⟩

theorem mem_l1TablePages (hq : follow mem r path = some q) (hp : p ∈ l1TablePages mem q) :
    ∃ rest, rest.length ≤ 2 ∧ follow mem r (path ++ rest) = some p := by
  rcases mem_append.mp hp with hp | hp
  · rcases mem_flatMap.mp hp with ⟨j, hj, hp⟩
    rw [mem_filter, mem_range, Bool.and_eq_true] at hj
    rcases mem_l2TablePages (follow_entry hq hj.1 hj.2.1) hp with ⟨rest, hlen, hrest⟩
    rw [append_assoc] at hrest
    exact ⟨j :: rest, Nat.succ_le_succ hlen, hrest⟩
  · rw [mem_singleton.mp hp]
    exact ⟨[], Nat.zero_le 2, by rw [append_nil]; exact hq⟩

/-- Every page that is given back is a table of the address space. -/
theorem mem_userTablePages (hp : p ∈ userTablePages mem r) :
    TablePage mem r p := by
  have hroot : follow mem r [] = some r := rfl
  rcases mem_append.mp hp with hp | hp
  · rcases mem_flatMap.mp hp with ⟨i, hi, hp⟩
    rw [mem_filter, mem_range] at hi
    rcases mem_l1TablePages (follow_entry hroot hi.1 hi.2) hp with ⟨rest, hlen, hrest⟩
    exact ⟨i :: rest, Nat.succ_le_succ hlen, hrest⟩
  · rw [mem_singleton.mp hp]
    exact ⟨[], Nat.zero_le 3, rfl⟩

/-- Giving the tables of an address space back. -/
theorem freeTables_frees (m : Machine σ) (r : Nat)
    (hbelow : ∀ a, TablePage m.mem r a → a + pageSize ≤ physLimit) :
    Frees src (TablePage m.mem r) m (mmuFreeUserTables src m r) :=
  frees_mono (freeAll_frees (userTablePages m.mem r) m fun p hp => hbelow p (mem_userTablePages hp))
    fun _ hp => mem_userTablePages hp

end

end CortexForge.Mmu
