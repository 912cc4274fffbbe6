import CortexForge.Lib.ExactSource
import CortexForge.Theory.Leaves

/-!
# Exact Accounts of Pages

What the functions of the MMU take from an exact page source, and what they give
back, page by page.

`Evolves` and `Frees` say what kernel code leaves alone; they allow it to take a
page and forget about it. Here is the other half. `Adds` bounds the pages that are
held afterwards: those of before, the trampoline, and the ones named. While an
address space is built, what is taken beyond the pages asked for are its tables
(`Builds`), because every table that is allocated is hung in at once.

Giving pages back is the same as giving a list of pages back one by one
(`giveBack`). For the tables of an address space that list holds each of them
once.

## Main definitions

* `Adds`, `Builds`: Pages that are taken.
* `giveBack`: Pages that are given back.

## Theorems

* `mapRange_builds`, `createTables_adds`: Mapping takes tables and nothing else.
* `mem_userTablePages_iff`, `userTablePages_nodup`: The tables given back are all
  there are, each once.
-/

namespace CortexForge.Mmu

open PageSource List Option

variable {σ : Type} {src : Pages σ} {Sound : σ → Prop} {Fixed : Nat → Prop}

/-- The page with the trampoline, once there is one. -/
def TrampPage (m : Machine σ) (a : Nat) : Prop := m.sigtrampPhys ≠ 0 ∧ a = m.sigtrampPhys

/-- Nothing is given back, and what is taken is in `N` or the trampoline page, which
    was nobody's. -/
structure Adds (src : Pages σ) (Sound : σ → Prop) (N : Nat → Prop) (m m' : Machine σ) : Prop where
  sound : Sound m'.pmm
  held : ∀ a, src.Held m.pmm a → src.Held m'.pmm a
  only : ∀ a, src.Held m'.pmm a → src.Held m.pmm a ∨ TrampPage m' a ∨ N a
  tramp : m'.sigtrampPhys = m.sigtrampPhys ∨
    m.sigtrampPhys = 0 ∧ ¬ src.Held m.pmm m'.sigtrampPhys

section

variable {N N' : Nat → Prop} {m m1 m2 : Machine σ}

/-- A machine with the same allocator and the same trampoline. -/
theorem adds_same (hs : Sound m.pmm) (hpmm : m1.pmm = m.pmm)
    (htramp : m1.sigtrampPhys = m.sigtrampPhys) : Adds src Sound N m m1 := by
  refine ⟨hpmm ▸ hs, fun a ha => ?_, fun a ha => .inl ?_, .inl htramp⟩
  · rw [hpmm]
    exact ha
  · rw [hpmm] at ha
    exact ha

theorem adds_mono (h : Adds src Sound N m m1) (hsub : ∀ a, N a → N' a) :
    Adds src Sound N' m m1 :=
  ⟨h.sound, h.held, fun a ha => (h.only a ha).imp_right (Or.imp_right (hsub a)), h.tramp⟩

/-- The trampoline stays where it is. -/
theorem trampPage_adds (h : Adds src Sound N m m1) {a : Nat} (ha : TrampPage m a) :
    TrampPage m1 a := by
  rcases h.tramp with hsame | ⟨hzero, _⟩
  · unfold TrampPage
    rw [hsame]
    exact ha
  · exact absurd hzero ha.1

theorem adds_trans (h1 : Adds src Sound N m m1) (h2 : Adds src Sound N m1 m2) :
    Adds src Sound N m m2 := by
  refine ⟨h2.sound, fun a ha => h2.held a (h1.held a ha), fun a ha => ?_, ?_⟩
  · rcases h2.only a ha with hmid | hnew
    · rcases h1.only a hmid with hold | htramp | hnew
      · exact .inl hold
      · exact .inr (.inl (trampPage_adds h2 htramp))
      · exact .inr (.inr hnew)
    · exact .inr hnew
  · rcases h2.tramp with hsame | ⟨hzero, hnew⟩
    · rw [hsame]
      exact h1.tramp
    · rcases h1.tramp with hsame' | ⟨hzero', _⟩
      · exact .inr ⟨hsame' ▸ hzero, fun hc => hnew (h1.held _ hc)⟩
      · exact .inr ⟨hzero', fun hc => hnew (h1.held _ hc)⟩

theorem allocatePages_adds (hex : src.Exact Sound Fixed) (hs : Sound m.pmm) {n u : Nat}
    (hcall : allocatePages src m n = (m1, u)) :
    Adds src Sound (fun a => u ≠ 0 ∧ InRun u n a) m m1 := by
  have hfst : (allocatePages src m n).1 = m1 := by rw [hcall]
  have hsnd : (allocatePages src m n).2 = u := by rw [hcall]
  rw [← hfst, ← hsnd]
  refine ⟨hex.sound_alloc m.pmm n hs, src.alloc_keep m.pmm n, fun a ha => ?_, .inl rfl⟩
  exact (hex.alloc_only m.pmm n a hs ha).imp_right .inr

/-- Memory is written to, after pages have been handed out. -/
theorem adds_write (h : Adds src Sound N m m1) (mem : Memory) :
    Adds src Sound N m { m1 with mem := mem } :=
  ⟨h.sound, h.held, h.only, h.tramp⟩

theorem allocTable_adds (hex : src.Exact Sound Fixed) (hs : Sound m.pmm) :
    Adds src Sound (fun a => (allocTable src m).2 ≠ 0 ∧ a = (allocTable src m).2) m
      (allocTable src m).1 := by
  have halloc := allocatePages_adds hex hs (Prod.eta (allocatePages src m 1)).symm
  unfold allocTable
  by_cases hgot : (allocatePages src m 1).2 = 0
  · simp only [if_pos hgot]
    exact adds_mono halloc fun a ha => absurd hgot ha.1
  · simp only [if_neg hgot]
    exact adds_write (adds_mono halloc fun a ha => ⟨hgot, inRun_one ha.2⟩) _

/-- Setting the trampoline up takes one page, and remembers it. -/
theorem sigtrampPage_adds (hex : src.Exact Sound Fixed) (hs : Sound m.pmm) :
    Adds src Sound N m (mmuSigtrampPage src m).1 := by
  have halloc := allocatePages_adds hex hs (Prod.eta (allocatePages src m 1)).symm
  unfold mmuSigtrampPage
  split_ifs with htramp
  · exact adds_same hs rfl rfl
  rw [not_not] at htramp
  by_cases hgot : (allocatePages src m 1).2 = 0
  · simp only [if_pos hgot]
    exact adds_mono halloc fun a ha => absurd hgot ha.1
  · simp only [if_neg hgot]
    refine ⟨halloc.sound, halloc.held, fun a ha => ?_, .inr ⟨htramp, ?_⟩⟩
    · rcases halloc.only a ha with hold | htr | hnew
      · exact .inl hold
      · exact absurd htramp htr.1
      · exact .inr (.inl ⟨hgot, inRun_one hnew.2⟩)
    · exact (inRun_held hgot (inRun_self _ Nat.one_pos)).1

end

section

variable {S S' : Nat → Prop} {m m1 m2 : Machine σ} {role role1 : Roles} {r : Nat}

/-- The address space at `r` is built: its tables stay, and what is taken are more
    tables and pages in `S`. -/
structure Builds (src : Pages σ) (Sound : σ → Prop) (r : Nat)
    (S : Nat → Prop) (m m' : Machine σ) : Prop where
  adds : Adds src Sound (fun a => TablePage m'.mem r a ∨ S a) m m'
  tables : ∀ a, TablePage m.mem r a → TablePage m'.mem r a

theorem builds_refl (hs : Sound m.pmm) : Builds src Sound r S m m :=
  ⟨adds_same hs rfl rfl, fun _ ha => ha⟩

theorem builds_mono (h : Builds src Sound r S m m1) (hsub : ∀ a, S a → S' a) :
    Builds src Sound r S' m m1 :=
  ⟨adds_mono h.adds fun a => Or.imp_right (hsub a), h.tables⟩

theorem builds_trans (h1 : Builds src Sound r S m m1) (h2 : Builds src Sound r S m1 m2) :
    Builds src Sound r S m m2 :=
  ⟨adds_trans (adds_mono h1.adds fun a => Or.imp_left (h2.tables a)) h2.adds,
    fun a ha => h2.tables a (h1.tables a ha)⟩

/-- Code that leaves the tables alone. -/
theorem tables_frame {W : Role → Prop} (h : SpaceOk src m role r)
    (hev : Evolves src W m role m1 role1) (hW : ∀ path, ¬ W (.table r path)) (a : Nat) :
    TablePage m1.mem r a ↔ TablePage m.mem r a := by
  have hfollow := (space_frame h hev hW).2.1
  constructor
  · rintro ⟨path, hlen, hpath⟩
    exact ⟨path, hlen, (hfollow path a hlen).mp hpath⟩
  · rintro ⟨path, hlen, hpath⟩
    exact ⟨path, hlen, (hfollow path a hlen).mpr hpath⟩

variable (hex : src.Exact Sound Fixed)
include hex

variable (hs : Sound m.pmm)
include hs

/-- A table that is allocated is hung in at once. -/
theorem nextTable_builds (h : SpaceOk src m role r) {path : List Nat} {table i : Nat}
    (hpath : follow m.mem r path = some table) (hlen : path.length < 3) (hi : i < 512) :
    ∃ m' role', SpaceOk src m' role' r ∧ Builds src Sound r S m m' ∧
      (nextTable src m table i true = (m', none) ∨
        ∃ next, nextTable src m table i true = (m', some next) ∧
          follow m'.mem r (path ++ [i]) = some next) := by
  rcases nextTable_spec h hpath hlen hi with ⟨m', role', hgrows, _, hres⟩
  refine ⟨m', role', hgrows.space, ⟨?_, grows_tables hgrows⟩, hres.imp_left And.left⟩
  have halloc := allocTable_adds hex hs
  simp only [nextTable, Bool.true_eq_false, if_false] at hres
  split_ifs at hres with hvalid hgot
  · rcases hres with ⟨hres, _⟩ | ⟨_, hres, _⟩
    · cases hres
      exact adds_mono halloc fun a ha => absurd hgot ha.1
    · cases hres
  · rcases hres with ⟨hres, _⟩ | ⟨next, hres, hnext⟩
    · cases hres
    · cases hres
      refine adds_write (adds_mono halloc fun a ha => .inl ⟨path ++ [i], ?_, ?_⟩) _
      · rw [length_append]
        exact hlen
      · rw [ha.2]
        exact hnext
  · rcases hres with ⟨hres, _⟩ | ⟨_, hres, _⟩ <;> cases hres
    exact adds_same hs rfl rfl

theorem walkLevels_builds (h : SpaceOk src m role r) (va : Nat) :
    Builds src Sound r S m (walkLevels src m r va 3 true).1 := by
  rcases index_lt va with ⟨hi0, hi1, hi2, _⟩
  rcases @nextTable_builds σ src Sound Fixed S m role r hex hs h [] r _ rfl (Nat.succ_pos 2) hi0
    with ⟨m1, role1, hs1, hb1, hn1 | ⟨l1, hn1, hf1⟩⟩
  · rwa [walkLevels, hn1]
  rcases nextTable_builds hex hb1.adds.sound hs1 hf1
    (Nat.succ_lt_succ (Nat.succ_pos 1)) hi1 with ⟨m2, role2, hs2, hb2, hn2 | ⟨l2, hn2, hf2⟩⟩
  · simp only [walkLevels, hn1, hn2]
    exact builds_trans hb1 hb2
  rcases nextTable_builds hex hb2.adds.sound hs2 hf2
    (Nat.lt_succ_self 2) hi2 with ⟨m3, role3, _, hb3, hn3 | ⟨l3, hn3, _⟩⟩ <;>
  · simp only [walkLevels, hn1, hn2, hn3]
    exact builds_trans (builds_trans hb1 hb2) hb3

omit hs in
/-- The mapping loop takes tables and nothing else. -/
theorem mapLoop_builds (va pa : Nat) (flags : BitVec 64) (n : Nat) :
    ∀ i (m : Machine σ) role, Sound m.pmm → SpaceOk src m role r →
      Builds src Sound r S m (mapLoop src r va pa flags n i m) := by
  induction n with
  | zero => exact fun i m role hs _ => builds_refl hs
  | succ n ih =>
    intro i m role hs h
    have hwalked := @walkLevels_builds σ src Sound Fixed S m role r hex hs h
      (wrap64 (va + i * pageSize))
    rw [mapLoop]
    rcases walkLevels_spec h (wrap64 (va + i * pageSize)) with
      ⟨m1, role1, hg1, _, ⟨hwalk, _⟩ | ⟨table, hwalk, hpath⟩⟩
    · rw [hwalk] at hwalked ⊢
      exact hwalked
    · rw [hwalk] at hwalked ⊢
      -- Writing the leaf takes no page and keeps the tables.
      have hg2 := (setLeaf_spec hg1.space hpath (leafEntry (wrap64 (pa + i * pageSize)) flags)
        (leafEntry_perms _ _).1).1
      have hset : Builds src Sound r S m1 { m1 with
          mem := setEntry m1.mem table (l3Index (wrap64 (va + i * pageSize)))
            (leafEntry (wrap64 (pa + i * pageSize)) flags) } :=
        ⟨adds_same hwalked.adds.sound rfl rfl, grows_tables hg2⟩
      exact builds_trans (builds_trans hwalked hset) (ih (i + 1) _ _ hset.adds.sound hg2.space)

theorem mapRange_builds (h : SpaceOk src m role r) {va pa n : Nat} {flags : BitVec 64}
    (hmap : mmuMapUserRange src m r va pa n flags = m1) : Builds src Sound r S m m1 :=
  hmap ▸ mapLoop_builds hex va pa flags n 0 m role hs h

/-- Pages that are handed out and filled are none of the tables. -/
theorem fill_builds (h : SpaceOk src m role r)
    {n u : Nat} (hcall : allocatePages src m n = (m1, u)) (hu : u ≠ 0) (mem : Memory)
    (hmem : ∀ x, x < u ∨ u + n * pageSize ≤ x → mem x = m.mem x) :
    Builds src Sound r (InRun u n) m { m1 with mem := mem } := by
  rcases evolves_fill (fun _ => False) role .other hcall hu mem hmem with ⟨hev, _⟩
  refine ⟨adds_write (adds_mono (allocatePages_adds hex hs hcall) fun a ha => .inr ha.2) mem,
    fun a ha => ?_⟩
  exact (tables_frame h hev (fun _ hc => hc) a).mpr ha

/-- A new address space takes its tables, and the trampoline page if there was
    none. -/
theorem createTables_adds (hcall : mmuCreateUserTables src m = (m1, r)) :
    Adds src Sound (fun a => r ≠ 0 ∧ TablePage m1.mem r a) m m1 := by
  have halloc := allocTable_adds hex hs
  unfold mmuCreateUserTables at hcall
  rcases hl0 : allocTable src m with ⟨m0, l0⟩
  have hspec := @allocTable_spec σ src (fun _ => False) (fun _ => .other) (.table l0 []) m
  rw [hl0] at hcall halloc hspec
  rcases hspec with ⟨hzero, _⟩ | ⟨hne, _, _, hheld, hpage, _, _⟩
  · rw [if_pos hzero, Prod.mk.injEq] at hcall
    rw [← hcall.1]
    exact adds_mono halloc fun a ha => absurd hzero ha.1
  rw [if_neg hne] at hcall
  have hself : ∀ mem, TablePage mem l0 l0 := fun mem => ⟨[], Nat.zero_le 3, rfl⟩
  have hrole0 : assign (fun _ => .other) l0 1 (.table l0 []) l0 = .table l0 [] :=
    assign_of_inRun (inRun_self l0 Nat.one_pos)
  have hspace := (space_empty hrole0 hheld hpage).1
  have htramp := @sigtrampPage_adds σ src Sound Fixed (fun _ => False) m0 hex halloc.sound
  rcases mmuSigtrampPage_spec m0 (assign (fun _ => .other) l0 1 (.table l0 [])) with
    ⟨role1, hev1, _⟩
  rcases htr : mmuSigtrampPage src m0 with ⟨mt, tramp⟩
  rw [htr] at hcall htramp hev1
  simp only at hcall htramp
  have hspace1 := (space_frame hspace (hev1 fun _ => False) fun _ hc => hc).1
  have hboth : ∀ mem, Adds src Sound (fun a => l0 ≠ 0 ∧ TablePage mem l0 a) m mt := by
    refine fun mem => adds_trans (adds_mono halloc fun a ha => ⟨hne, ?_⟩)
      (adds_mono htramp nofun)
    rw [ha.2]
    exact hself mem
  split_ifs at hcall with hzero
  · rw [Prod.mk.injEq] at hcall
    rw [← hcall.1, ← hcall.2]
    exact hboth mt.mem
  · rw [Prod.mk.injEq] at hcall
    rw [← hcall.2]
    have hbuilds := @mapRange_builds σ src Sound Fixed (fun _ => False) mt m1 role1 l0 hex
      htramp.sound hspace1 _ _ _ _ hcall.1
    refine adds_trans (hboth m1.mem) (adds_mono hbuilds.adds fun a ha => ⟨hne, ?_⟩)
    exact ha.resolve_right not_false

end

section

variable {m : Machine σ} {role : Roles} {r : Nat}

/-- The machine after pages have been given back, one by one. -/
def giveBack (src : Pages σ) (m : Machine σ) (ps : List Nat) : Machine σ :=
  { m with pmm := src.freeEach m.pmm ps }

theorem giveBack_append (m : Machine σ) (ps qs : List Nat) :
    giveBack src m (ps ++ qs) = giveBack src (giveBack src m ps) qs := by
  unfold giveBack
  rw [freeEach_append]

theorem foldl_freePages (ps : List Nat) : ∀ m : Machine σ,
    ps.foldl (fun m a => freePages src m a 1) m = giveBack src m ps := by
  induction ps with
  | nil => exact fun m => rfl
  | cons p ps ih => exact fun m => ih (freePages src m p 1)

theorem freeTables_eq (m : Machine σ) (r : Nat) :
    mmuFreeUserTables src m r = giveBack src m (userTablePages m.mem r) :=
  foldl_freePages (userTablePages m.mem r) m

theorem freePages_eq (hex : src.Exact Sound Fixed) (m : Machine σ) {addr n : Nat}
    (hbelow : addr + n * pageSize ≤ physLimit) :
    freePages src m addr n = giveBack src m (runPages pageSize addr n) := by
  unfold freePages giveBack
  rw [hex.free_run m.pmm addr n hbelow]

/-- Pages that are given back are gone. -/
theorem giveBack_only (hex : src.Exact Sound Fixed) (hs : Sound m.pmm) {ps : List Nat}
    (hbelow : ∀ p ∈ ps, p + pageSize ≤ physLimit) :
    Sound (giveBack src m ps).pmm ∧ ∀ a, src.Held (giveBack src m ps).pmm a →
      src.Held m.pmm a ∧ (a ∈ ps → Fixed a) :=
  freeEach_only hex ps m.pmm hs hbelow

/-- No other pages are. -/
theorem giveBack_frees {ps : List Nat} (hbelow : ∀ p ∈ ps, p + pageSize ≤ physLimit) :
    Frees src (· ∈ ps) m (giveBack src m ps) :=
  foldl_freePages ps m ▸ freeAll_frees ps m hbelow

end

section

variable {m : Machine σ} {role : Roles} {r : Nat} {mem : Memory} {path rest : List Nat}

/-- A level of the tree: the table `q` at the end of `path`, and before it what is
    found below each of some of its entries. -/
def levelPages (c : Nat → Bool) (f : Nat → List Nat) (q : Nat) : List Nat :=
  ((range 512).filter c).flatMap f ++ [q]

/-- The tables of a level lie at different places of the tree. -/
theorem levelPages_nodup (htree : pteFormat.TreeLike (getEntry mem) 3 r) {q : Nat}
    (hlen : path.length ≤ 3) (hq : follow mem r path = some q) (c : Nat → Bool) (f : Nat → List Nat)
    (hnodup : ∀ i, i < 512 → c i = true → (f i).Nodup)
    (hbelow : ∀ i, i < 512 → c i = true → ∀ p ∈ f i, ∃ rest,
      (path ++ i :: rest).length ≤ 3 ∧ follow mem r (path ++ i :: rest) = some p) :
    (levelPages c f q).Nodup := by
  have hin : ∀ i ∈ (range 512).filter c, i < 512 ∧ c i = true := fun i hi => by
    rw [mem_filter, mem_range] at hi
    exact hi
  refine List.Nodup.append ?_ (nodup_singleton q) ?_
  · refine nodup_flatMap.mpr ⟨fun i hi => hnodup i (hin i hi).1 (hin i hi).2, ?_⟩
    refine (nodup_range.filter c).imp_of_mem fun {i j} hi hj hne p hpi hpj => ?_
    -- A table below two entries would be at the end of two paths.
    rcases hbelow i (hin i hi).1 (hin i hi).2 p hpi with ⟨rest, hlen1, hp1⟩
    rcases hbelow j (hin j hj).1 (hin j hj).2 p hpj with ⟨rest', hlen2, hp2⟩
    have heq := append_cancel_left (htree _ _ p hlen1 hlen2 hp1 hp2)
    rw [cons.injEq] at heq
    exact hne heq.1
  · intro p hp hpq
    rcases mem_flatMap.mp hp with ⟨i, hi, hpi⟩
    rcases hbelow i (hin i hi).1 (hin i hi).2 p hpi with ⟨rest, hlen1, hp1⟩
    rw [mem_singleton.mp hpq] at hp1
    have heq := htree _ _ q hlen1 hlen hp1 hq
    rw [← append_nil path, append_assoc] at heq
    exact absurd (append_cancel_left heq) (cons_ne_nil i rest)

theorem l2TablePages_eq (mem : Memory) (l2 : Nat) : l2TablePages mem l2 = levelPages
      (fun k => pteValid (getEntry mem l2 k) && pteIsTable (getEntry mem l2 k))
      (fun k => [pteNextTable (getEntry mem l2 k)]) l2 := by
  rw [l2TablePages, map_eq_flatMap, levelPages]

/-- Each table is given back once. -/
theorem userTablePages_nodup (h : SpaceOk src m role r) : (userTablePages m.mem r).Nodup := by
  have htree := space_treeLike h
  have hl2 : ∀ path q, path.length = 2 → follow m.mem r path = some q →
      (l2TablePages m.mem q).Nodup := by
    intro path q hlen hq
    rw [l2TablePages_eq]
    refine levelPages_nodup htree (by omega) hq _ _ (fun k _ _ => nodup_singleton _)
      fun k hk hc p hp => ⟨[], ?_, ?_⟩
    · rw [length_append, length_singleton]
      omega
    · rw [Bool.and_eq_true] at hc
      rw [mem_singleton.mp hp]
      exact follow_entry hq hk hc.1
  have hl1 : ∀ path q, path.length = 1 → follow m.mem r path = some q →
      (l1TablePages m.mem q).Nodup := by
    intro path q hlen hq
    refine levelPages_nodup htree (by omega) hq _ _ (fun j hj hc => ?_) fun j hj hc p hp => ?_
    · rw [Bool.and_eq_true] at hc
      refine hl2 (path ++ [j]) _ ?_ (follow_entry hq hj hc.1)
      simp [hlen]
    · rw [Bool.and_eq_true] at hc
      rcases mem_l2TablePages (follow_entry hq hj hc.1) hp with ⟨rest, hle, hrest⟩
      rw [append_assoc] at hrest
      refine ⟨rest, ?_, hrest⟩
      rw [length_append, length_cons]
      omega
  have hroot : follow m.mem r [] = some r := rfl
  have hlen : ([] : List Nat).length ≤ 3 := Nat.zero_le 3
  refine levelPages_nodup htree hlen hroot _ _ (fun i hi hc => ?_) fun i hi hc p hp => ?_
  · exact hl1 [i] _ rfl (follow_entry hroot hi hc)
  · rcases mem_l1TablePages (follow_entry hroot hi hc) hp with ⟨rest, hle, hrest⟩
    exact ⟨rest, Nat.succ_le_succ hle, hrest⟩

/-- The entry that a path goes through. -/
theorem follow_through {i p : Nat} (hp : follow mem r (path ++ i :: rest) = some p) :
    ∃ q, follow mem r path = some q ∧ i < 512 ∧
      pteValid (getEntry mem q i) = true ∧
      follow mem r (path ++ [i]) = some (pteNextTable (getEntry mem q i)) := by
  rw [← singleton_append, ← append_assoc, follow, TableFormat.follow_append] at hp
  rcases bind_eq_some_iff.mp hp with ⟨t, ht, _⟩
  rcases (TableFormat.follow_snoc_iff path i r t).mp ht with ⟨q, hq, hi, hvalid, rfl⟩
  exact ⟨q, hq, hi, hvalid, ht⟩

/-- What lies below a table is found among the pages of its level: it is the table
    itself, or it lies below one of the entries. -/
theorem mem_levelPages {q a : Nat} {c : Nat → Bool} {f : Nat → List Nat}
    (hq : follow mem r path = some q) (ha : follow mem r (path ++ rest) = some a)
    (hc : ∀ i, i < 512 → pteValid (getEntry mem q i) = true → c i = true)
    (hbelow : ∀ i rest', rest = i :: rest' →
      follow mem r (path ++ [i]) = some (pteNextTable (getEntry mem q i)) → a ∈ f i) :
    a ∈ levelPages c f q := by
  rcases rest with _ | ⟨i, rest⟩
  · rw [append_nil, hq] at ha
    exact mem_append_right _ (some.inj ha ▸ mem_singleton_self q)
  · rcases follow_through ha with ⟨q', hq', hi, hvalid, hnext⟩
    obtain rfl : q' = q := some.inj (hq'.symm.trans hq)
    refine mem_append_left _ (mem_flatMap.mpr ⟨i, mem_filter.mpr ?_, hbelow i rest rfl hnext⟩)
    exact ⟨mem_range.mpr hi, hc i hi hvalid⟩

/-- Every table is given back, and nothing else. -/
theorem mem_userTablePages_iff (h : SpaceOk src m role r) (a : Nat) :
    a ∈ userTablePages m.mem r ↔ TablePage m.mem r a := by
  refine ⟨mem_userTablePages, ?_⟩
  have hbits : ∀ path q, path.length < 3 → follow m.mem r path = some q → ∀ i, i < 512 →
      pteValid (getEntry m.mem q i) = true →
      (pteValid (getEntry m.mem q i) && pteIsTable (getEntry m.mem q i)) = true := by
    intro path q hlen hq i hi hvalid
    rw [hvalid, h.tables path q i hlen hq hi hvalid]
    rfl
  rintro ⟨path, hlen, hpath⟩
  -- Three levels down, each below an entry of the one before it.
  refine mem_levelPages (show follow m.mem r [] = some r from rfl) hpath (fun _ _ hv => hv) ?_
  rintro i rest rfl hi
  refine mem_levelPages hi hpath (hbits [i] _ (Nat.succ_lt_succ (Nat.succ_pos 1)) hi) ?_
  rintro j rest rfl hj
  rw [l2TablePages_eq]
  refine mem_levelPages hj hpath (hbits [i, j] _ (Nat.lt_succ_self 2) hj) ?_
  rintro k rest rfl hk
  -- Below a table of the last level there is nothing more to follow.
  obtain rfl : rest = [] := by
    simp only [length_cons] at hlen
    exact length_eq_zero_iff.mp (by omega)
  exact mem_singleton.mpr (some.inj (hpath.symm.trans hk))

end

end CortexForge.Mmu
