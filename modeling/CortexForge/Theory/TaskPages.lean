import CortexForge.Theory.Accounts
import CortexForge.Theory.Exec

/-!
# The Pages of a Task as a List

The pages that the kernel gives back when it reaps a task, in the order it does so:
the kernel stack, the user stack, the loaded segments, the pages the stack grew by,
and the tables. Reaping a task gives back the pages of this list one by one
(`reapTask_eq`), and replacing its image gives back those of the image and the
tables (`freeOldImage_eq`).

No page stands on the list twice (`pages_nodup`). The roles of pages tell the five
kinds apart, and tables have one place each; that the pages of an image are
different from each other, and those that a stack grew by, is what allocation sees
to.

## Main definitions

* `Holdings.pages`: The pages of a task.
* `LoadedExactly`, `CleanedUp`: A load, and a failed one, with the pages accounted for.

## Theorems

* `reapTask_eq`, `freeOldImage_eq`: What is given back.
* `pages_nodup`: Every page once.
* `elfLoad_builds`: What a load takes.
-/

namespace CortexForge

namespace Sched

open Mmu Elf List

/-- The pages of a stack, if there is one. -/
def stackPages (addr n : Nat) : List Nat := if addr ≠ 0 then runPages pageSize addr n else []

/-- The pages of loaded segments. -/
def regionPages (regions : List ElfRegion) : List Nat :=
  regions.flatMap fun reg =>
    if reg.phys ≠ 0 ∧ reg.pages ≠ 0 then runPages pageSize reg.phys reg.pages else []

/-- The tables of an address space, if there is one. -/
def spacePages (mem : Memory) (ttbr0 : Nat) : List Nat :=
  if ttbr0 ≠ 0 then userTablePages mem (ttbrBaddr ttbr0) else []

namespace Holdings

/-- The pages of the image: its stack and its segments. -/
def imagePages (h : Holdings) : List Nat :=
  stackPages h.ustackPhys userStackPages ++ regionPages h.regions

/-- What is given back when the image is replaced. -/
def oldPages (mem : Memory) (h : Holdings) : List Nat :=
  h.imagePages ++ spacePages mem h.ttbr0

/-- What is given back when the task is reaped. -/
def pages (mem : Memory) (h : Holdings) : List Nat :=
  stackPages h.stackPhys taskStackPages ++
    (h.imagePages ++ (h.grown.filter (· ≠ 0) ++ spacePages mem h.ttbr0))

end Holdings

open Holdings

section

variable {n a : Nat} {regions : List ElfRegion} {mem : Memory} {h : Holdings}

theorem mem_stackPages {addr : Nat} :
    a ∈ stackPages addr n ↔ addr ≠ 0 ∧ InRun addr n a := by
  unfold stackPages
  split_ifs with hne
  · rw [mem_runPages]
    exact ⟨fun ha => ⟨hne, ha⟩, fun ha => ha.2⟩
  · exact ⟨nofun, fun ha => absurd ha.1 hne⟩

theorem stackPages_nodup (addr n : Nat) : (stackPages addr n).Nodup := by
  unfold stackPages
  split
  · exact runPages_nodup (Nat.succ_pos 4095) addr n
  · exact nodup_nil

theorem mem_regionPages :
    a ∈ regionPages regions ↔ ∃ reg ∈ regions, reg.phys ≠ 0 ∧ InRun reg.phys reg.pages a := by
  unfold regionPages
  rw [mem_flatMap]
  refine exists_congr fun reg => and_congr_right fun _ => ?_
  split_ifs with hfree
  · rw [mem_runPages]
    exact ⟨fun ha => ⟨hfree.1, ha⟩, fun ha => ha.2⟩
  · refine ⟨nofun, ?_⟩
    rintro ⟨hne, i, hi, _⟩
    exact absurd ⟨hne, Nat.ne_of_gt (Nat.zero_lt_of_lt hi)⟩ hfree

theorem regionPage_of_mem (ha : a ∈ regionPages regions) :
    RegionPage regions a := by
  rcases mem_regionPages.mp ha with ⟨reg, hreg, _, hrun⟩
  exact ⟨reg, hreg, hrun⟩

theorem regionPages_snoc (regions : List ElfRegion) {u : Nat} (hu : u ≠ 0) :
    regionPages (regions ++ [⟨u, n⟩]) = regionPages regions ++ runPages pageSize u n := by
  unfold regionPages
  rw [flatMap_append, flatMap_singleton]
  by_cases hn : n ≠ 0
  · rw [if_pos ⟨hu, hn⟩]
  · rw [if_neg fun hc => hn hc.2, not_not.mp hn]
    rfl

theorem mem_spacePages {ttbr0 : Nat} :
    a ∈ spacePages mem ttbr0 ↔ ttbr0 ≠ 0 ∧ a ∈ userTablePages mem (ttbrBaddr ttbr0) := by
  unfold spacePages
  split_ifs with hne
  · exact ⟨fun ha => ⟨hne, ha⟩, fun ha => ha.2⟩
  · exact ⟨nofun, fun ha => absurd ha.1 hne⟩

theorem imagePage_of_mem (ha : a ∈ h.imagePages) : h.ImagePage a :=
  (mem_append.mp ha).imp mem_stackPages.mp regionPage_of_mem

theorem mem_pages :
    a ∈ h.pages mem ↔ h.KstackPage a ∨ a ∈ h.imagePages ∨ (a ∈ h.grown ∧ a ≠ 0) ∨
      a ∈ spacePages mem h.ttbr0 := by
  unfold Holdings.pages
  rw [mem_append, mem_append, mem_append, mem_stackPages, mem_filter,
    decide_eq_true_eq]
  rfl

variable {σ : Type} {m : Machine σ}

theorem oldPage_of_mem (ha : a ∈ h.oldPages m.mem) : OldPage m h a := by
  rcases mem_append.mp ha with ha | ha
  · exact .inl (imagePage_of_mem ha)
  · rcases mem_spacePages.mp ha with ⟨hne, ha⟩
    exact .inr ⟨hne, mem_userTablePages ha⟩

/-- The pages on the list are pages of the task. -/
theorem taskPage_of_mem (ha : a ∈ h.pages m.mem) : TaskPage m h a := by
  rcases mem_pages.mp ha with ha | ha | ha | ha
  · exact .inl ha
  · exact .inr (.inl (.inl (imagePage_of_mem ha)))
  · exact .inr (.inl (.inr ha.1))
  · rcases mem_spacePages.mp ha with ⟨hne, ha⟩
    exact .inr (.inr ⟨hne, mem_userTablePages ha⟩)

end

variable {σ : Type} {src : Pages σ} {img : KernelImage}
  {Sound : σ → Prop} {Fixed : Nat → Prop}

section

variable {m : Machine σ} {role : Roles} {h : Holdings}

theorem freeStack_eq (hex : src.Exact Sound Fixed) (m : Machine σ) (addr n : Nat)
    (hbelow : addr ≠ 0 → addr + n * pageSize ≤ physLimit) :
    (if addr ≠ 0 then freePages src m addr n else m) = giveBack src m (stackPages addr n) := by
  unfold stackPages
  split_ifs with hne
  · exact freePages_eq hex m (hbelow hne)
  · rfl

theorem freeRegions_eq (hex : src.Exact Sound Fixed) (regions : List ElfRegion) :
    ∀ m : Machine σ,
    (∀ reg ∈ regions, reg.pages ≠ 0 → reg.phys + reg.pages * pageSize ≤ physLimit) →
    freeRegions src m regions = giveBack src m (regionPages regions) := by
  induction regions with
  | nil => exact fun m _ => rfl
  | cons reg regions ih =>
    intro m hbelow
    rw [forall_mem_cons] at hbelow
    unfold freeRegions regionPages
    rw [foldl_cons, flatMap_cons, giveBack_append]
    split_ifs with hfree
    · rw [freePages_eq hex m (hbelow.1 hfree.2)]
      exact ih _ hbelow.2
    · exact ih _ hbelow.2

theorem freeGrown_eq (ps : List Nat) (m : Machine σ) :
    ps.foldl (fun m a => if a ≠ 0 then freePages src m a 1 else m) m
      = giveBack src m (ps.filter (· ≠ 0)) := by
  rw [freeGrown_fold, foldl_freePages]

theorem freeSpace_eq (m : Machine σ) (ttbr0 : Nat) :
    (if ttbr0 ≠ 0 then mmuFreeUserTables src m (ttbrBaddr ttbr0) else m)
      = giveBack src m (spacePages m.mem ttbr0) := by
  unfold spacePages
  split_ifs with hne
  · exact freeTables_eq m _
  · rfl

/-- The stacks and the segments of a task lie below the end of memory. -/
theorem image_below (ht : TaskOk src img m role h) :
    (h.ustackPhys ≠ 0 → h.ustackPhys + userStackPages * pageSize ≤ physLimit) ∧
      ∀ reg ∈ h.regions, reg.pages ≠ 0 → reg.phys + reg.pages * pageSize ≤ physLimit := by
  refine ⟨fun hne => ?_, fun reg hreg hpages => ?_⟩
  · exact run_below (Nat.succ_pos 3) fun a ha => (ht.image a (.inl ⟨hne, ha⟩)).2
  · exact run_below (by omega) fun a ha =>
      (ht.image a (.inr ⟨reg, hreg, ha⟩)).2

/-- Reaping a task gives its pages back, one by one. -/
theorem reapTask_eq (hex : src.Exact Sound Fixed) (t : Task)
    (ht : TaskOk src img m role (holdings t)) :
    reapTask src m t = giveBack src m ((holdings t).pages m.mem) := by
  have hkstack : t.stackPhys ≠ 0 → t.stackPhys + taskStackPages * pageSize ≤ physLimit :=
    fun hne => run_below (Nat.succ_pos 3) fun a ha => (ht.kstack a ⟨hne, ha⟩).2
  rcases image_below ht with ⟨hustack, hregions⟩
  unfold reapTask
  simp only
  rw [freeStack_eq hex m _ _ hkstack, freeStack_eq hex _ t.ustackPhys _ hustack,
    freeRegions_eq hex t.execImage.regions _ hregions, freeGrown_eq, freeSpace_eq]
  simp only [Holdings.pages, imagePages, giveBack_append]
  rfl

/-- Replacing an image gives its pages and the tables back, one by one. -/
theorem freeOldImage_eq (hex : src.Exact Sound Fixed) (t : Task)
    (ht : TaskOk src img m role (holdings t)) :
    freeOldImage src m t = giveBack src m ((holdings t).oldPages m.mem) := by
  rcases image_below ht with ⟨hustack, hregions⟩
  unfold freeOldImage
  simp only
  rw [freeStack_eq hex m t.ustackPhys _ hustack, freeRegions_eq hex t.execImage.regions _ hregions,
    freeSpace_eq]
  simp only [Holdings.oldPages, imagePages, giveBack_append]
  rfl

variable (ht : TaskOk src img m role h)
include ht

/-- The pages of a task lie below the end of memory. -/
theorem pages_below (a : Nat) (ha : a ∈ h.pages m.mem) :
    a + pageSize ≤ physLimit :=
  src.held_below _ a (taskPage_role ht (taskPage_of_mem ha)).2

theorem spacePages_role {a : Nat}
    (ha : a ∈ spacePages m.mem h.ttbr0) : TableOf h.root (role a) := by
  rcases mem_spacePages.mp ha with ⟨hne, ha⟩
  rcases mem_userTablePages ha with ⟨path, hlen, hpath⟩
  exact ⟨path, ((ht.user hne).2.1.place path a hlen hpath).1⟩

/-- Roles tell the kinds of pages apart, so no page is given back twice. -/
theorem pages_nodup (himage : h.imagePages.Nodup)
    (hgrown : h.grown.Nodup) : (h.pages m.mem).Nodup := by
  have hspace : (spacePages m.mem h.ttbr0).Nodup := by
    unfold spacePages
    split_ifs with hne
    · exact userTablePages_nodup (ht.user hne).2.1
    · exact nodup_nil
  have hkrole : ∀ a ∈ stackPages h.stackPhys taskStackPages, role a = .kstack h.stackPhys :=
    fun a ha => (ht.kstack a (mem_stackPages.mp ha)).1
  have hirole : ∀ a ∈ h.imagePages, role a = .data h.root :=
    fun a ha => (ht.image a (imagePage_of_mem ha)).1
  have hgrole : ∀ a ∈ h.grown.filter (· ≠ 0), role a = .grown h.stackPhys :=
    fun a ha => (ht.grown a (mem_filter.mp ha).1).1
  refine List.Nodup.append (stackPages_nodup _ _) (List.Nodup.append himage (List.Nodup.append
    (hgrown.filter _) hspace fun a ha hb => ?_) fun a ha hb => ?_) fun a ha hb => ?_
  · rcases spacePages_role ht hb with ⟨path, hrole⟩
    exact Role.noConfusion ((hgrole a ha).symm.trans hrole)
  · rcases mem_append.mp hb with hb | hb
    · exact Role.noConfusion ((hirole a ha).symm.trans (hgrole a hb))
    · rcases spacePages_role ht hb with ⟨path, hrole⟩
      exact Role.noConfusion ((hirole a ha).symm.trans hrole)
  · rcases mem_append.mp hb with hb | hb
    · exact Role.noConfusion ((hkrole a ha).symm.trans (hirole a hb))
    rcases mem_append.mp hb with hb | hb
    · exact Role.noConfusion ((hkrole a ha).symm.trans (hgrole a hb))
    · rcases spacePages_role ht hb with ⟨path, hrole⟩
      exact Role.noConfusion ((hkrole a ha).symm.trans hrole)

end

section

variable {shared : Nat → Prop} {r : Nat} {m0 m m1 : Machine σ} {role0 role : Roles}
  {regions : List ElfRegion}

/-- The machine `m` after some segments, with every page accounted for. -/
structure LoadedExactly (src : Pages σ) (Sound : σ → Prop)
    (shared : Nat → Prop) (r : Nat) (m0 : Machine σ) (role0 : Roles) (m : Machine σ)
    (role : Roles) (regions : List ElfRegion) : Prop where
  loaded : Loaded src shared r m0 role0 m role regions
  builds : Builds src Sound r (· ∈ regionPages regions) m0 m
  nodup : (regionPages regions).Nodup

/-- The machine `m` after a load that failed. It had come to `m2` by then, and the pages
    of the regions that it had been handed on the way, which nobody had before, were
    given back from there, each once. -/
structure CleanedUp (src : Pages σ) (Sound : σ → Prop)
    (kbuf : Memory) (size r : Nat) (m0 m : Machine σ) : Prop where
  rest : Builds src Sound r (fun _ => False) m0 m
  freed : ∃ phs m1 m2 regions, phs <+: phdrs kbuf ∧ Takes src kbuf size r m0 phs m1 regions ∧
    (m2 = m1 ∨ ∃ n, allocatePages src m1 n = (m2, 0)) ∧ (regionPages regions).Nodup ∧
    m = giveBack src m2 (regionPages regions) ∧
    ∀ a ∈ regionPages regions, ¬ src.Held m0.pmm a ∧ src.Held m2.pmm a ∧ ¬ src.Held m.pmm a

variable (hex : src.Exact Sound Fixed)
include hex

/-- One more segment. Its pages were nobody's, so they are none of those loaded
    before. -/
theorem loadedExactly_places {m2 : Machine σ} {kbuf : Memory} {ph : Phdr}
    {flags : BitVec 64} {u size count : Nat}
    (h : LoadedExactly src Sound shared r m0 role0 m role regions)
    (hplace : Places src kbuf size r count m ph flags u m1 m2) :
    ∃ role', LoadedExactly src Sound shared r m0 role0 m2 role'
      (regions ++ [⟨u, segmentPages ph⟩]) := by
  have hspace := h.loaded.space
  have hs := h.builds.adds.sound
  have hu := hplace.ne_zero
  rcases loaded_places h.loaded hplace with ⟨role', hloaded⟩
  rcases places_spec hspace hplace with ⟨role1, role2, hev, hrun, _, _⟩
  have hfill := fill_builds hex hs hspace hplace.alloc hu (fillSegment m1.mem kbuf ph u)
    fun x hx => by
      rw [fillSegment_other hplace.ok hplace.memsz _ kbuf _ x hx, allocatePages_mem hplace.alloc]
  have hmapped := @mapRange_builds σ src Sound Fixed (fun _ => False) _ m2 role1 r hex
    hfill.adds.sound (space_frame hspace hev fun _ hc => hc).1 _ _ _ _ hplace.map
  refine ⟨role', hloaded, ?_, ?_⟩
  · rw [regionPages_snoc regions hu]
    refine builds_trans (builds_mono h.builds fun a ha => mem_append_left _ ha)
      (builds_trans (builds_mono hfill fun a ha => ?_) (builds_mono hmapped fun _ hc => ?_))
    · exact mem_append_right _ (mem_runPages.mpr ha)
    · exact absurd hc not_false
  · rw [regionPages_snoc regions hu]
    refine List.Nodup.append h.nodup (runPages_nodup (Nat.succ_pos 4095) _ _) fun a ha hb => ?_
    exact (hrun a (mem_runPages.mp hb)).1 (h.loaded.pages a (regionPage_of_mem ha)).2.1

/-- What a run of the loop takes, given tables that map nothing but shared pages. -/
theorem takes_exactly {kbuf : Memory} {size : Nat} {phs : List Phdr} (hs : Sound m0.pmm)
    (hspace : SpaceOk src m0 role0 r) (hleaves : LeavesOk (fun _ => False) shared m0.mem r)
    (h : Takes src kbuf size r m0 phs m regions) :
    ∃ role, LoadedExactly src Sound shared r m0 role0 m role regions := by
  induction h with
  | start =>
    rcases takes_loaded hspace hleaves (.start : Takes src kbuf size r m0 [] m0 []) with ⟨role, h⟩
    exact ⟨role, h, builds_refl hs, nodup_nil⟩
  | skipped _ _ ih => exact ih
  | placed _ _ hplace ih =>
    rcases ih with ⟨role, h⟩
    exact loadedExactly_places hex h hplace

theorem loadedExactly_refused (h : LoadedExactly src Sound shared r m0 role0 m role regions)
    (hstop : m1 = m ∨ ∃ n, allocatePages src m n = (m1, 0)) :
    LoadedExactly src Sound shared r m0 role0 m1 role regions := by
  refine ⟨loaded_refused h.loaded hstop, ?_, h.nodup⟩
  rcases hstop with rfl | ⟨n, halloc⟩
  · exact h.builds
  refine builds_trans h.builds ⟨?_, fun a ha => ?_⟩
  · exact adds_mono (allocatePages_adds hex h.builds.adds.sound halloc) fun a ha => absurd rfl ha.1
  · rw [allocatePages_mem halloc]
    exact ha

/-- Giving everything back after a failure leaves the tables that were taken. -/
theorem givesUp_cleanedUp {kbuf : Memory} {size : Nat} (hs : Sound m0.pmm)
    (hspace : SpaceOk src m0 role0 r) (hleaves : LeavesOk (fun _ => False) shared m0.mem r)
    (hup : GivesUp src kbuf size r m0 (phdrs kbuf) m) : CleanedUp src Sound kbuf size r m0 m := by
  rcases hup with ⟨phs, m1, m2, regions, hphs, htakes, hstop, rfl⟩
  rcases takes_exactly hex hs hspace hleaves htakes with ⟨role, h⟩
  replace h := loadedExactly_refused hex h hstop
  have hheld := fun a ha => (h.loaded.pages a ha).2.1
  have hbelow : ∀ a ∈ regionPages regions, a + pageSize ≤ physLimit := fun a ha =>
    src.held_below _ a (hheld a (regionPage_of_mem ha))
  have hend : ∀ reg ∈ regions, reg.pages ≠ 0 → reg.phys + reg.pages * pageSize ≤ physLimit :=
    fun reg hreg hpages =>
      run_below (by omega) fun a ha => hheld a ⟨reg, hreg, ha⟩
  rw [freeRegions_eq hex regions m2 hend]
  rcases giveBack_only hex h.builds.adds.sound hbelow with ⟨hsound, honly⟩
  have hnew : ∀ a ∈ regionPages regions, ¬ src.Held m0.pmm a := fun a ha =>
    (h.loaded.pages a (regionPage_of_mem ha)).2.2
  refine ⟨⟨⟨hsound, fun a ha => ?_, fun a ha => ?_, h.builds.adds.tramp⟩, h.builds.tables⟩,
    phs, m1, m2, regions, hphs, htakes, hstop, h.nodup, rfl,
    fun a ha => ⟨hnew a ha, hheld a (regionPage_of_mem ha), fun hc => ?_⟩⟩
  · exact (giveBack_frees hbelow).kept a (h.builds.adds.held a ha) fun hc => hnew a hc ha
  · rcases honly a ha with ⟨hmid, hgone⟩
    rcases h.builds.adds.only a hmid with hold | htramp | htable | hregion
    · exact .inl hold
    · exact .inr (.inl htramp)
    · exact .inr (.inr (.inl htable))
    · -- A page of a region that is still held is fixed, and was held all along.
      exact .inl (hex.fixed_held _ a hs (hgone hregion))
  · exact hnew a ha (hex.fixed_held _ a hs ((honly a hc).2 ha))

/-- What a load takes: tables, and the pages of the image if there is one. -/
theorem elfLoad_builds (hs : Sound m.pmm)
    (hspace : SpaceOk src m role r) (hleaves : LeavesOk (fun _ => False) shared m.mem r)
    (kbuf : Memory) (size : Nat) :
    ((elfLoad src m kbuf size r).2 = none ∧
      CleanedUp src Sound kbuf size r m (elfLoad src m kbuf size r).1) ∨
    ∃ role' image, (elfLoad src m kbuf size r).2 = some image ∧
      LoadedExactly src Sound shared r m role (elfLoad src m kbuf size r).1 role'
        image.regions := by
  rcases elfLoad_takes m kbuf size r with ⟨hnone, hup⟩ | ⟨image, himage, _, _, htakes⟩
  · exact .inl ⟨hnone, givesUp_cleanedUp hex hs hspace hleaves hup⟩
  · rcases takes_exactly hex hs hspace hleaves htakes with ⟨role', h⟩
    exact .inr ⟨role', image, himage, h⟩

end

end Sched

end CortexForge
