import CortexForge.Core.Elf
import CortexForge.Theory.Leaves

/-!
# The ELF Loader Keeps to Its Pages

What loading a file does to the machine, whatever the bytes of the file are. The
pages of a segment are handed out for it, its bytes stay inside them, and the
flags of its mapping come out of `parseFlags`, which lets no segment be writable
and executable. A load that fails gives back what it was handed.

The loop is described by `Takes`, a run of its passes with the regions they leave,
and every load is such a run or one that ends in `GivesUp` (`elfLoad_takes`). What the
runs keep is `Loaded`, which relates the machine before the load to the one after some
segments.

## Main definitions

* `RegionPage`: A page of a loaded segment.
* `SegmentFits`: What the checks of a segment are about, in unbounded sums.
* `Places`, `Takes`, `GivesUp`: The passes of the loop, and the way out of a load that fails.
* `Loaded`: The machine after some segments.

## Theorems

* `parseFlags_spec`: The flags of a segment are flags for a user mapping.
* `segment_fits`: The checks hold for the sums they are about.
* `fillSegment_other`: Filling a segment stays inside its pages.
* `freeRegions_frees`: Giving the segments back.
* `loadSegments_takes`, `elfLoad_takes`: Loads are runs of passes.
* `takes_loaded`, `elfLoad_spec`: What the runs and the loader keep.
-/

namespace CortexForge.Elf

open Mmu List Option

/-- A page of one of the regions. -/
def RegionPage (regions : List ElfRegion) (a : Nat) : Prop :=
  ∃ reg ∈ regions, InRun reg.phys reg.pages a

theorem regionPage_append {regions : List ElfRegion} {reg : ElfRegion} {a : Nat}
    (ha : RegionPage (regions ++ [reg]) a) : RegionPage regions a ∨ InRun reg.phys reg.pages a := by
  rcases ha with ⟨reg', hmem, hrun⟩
  rcases mem_append.mp hmem with hin | hin
  · exact .inl ⟨reg', hin, hrun⟩
  · rw [mem_singleton] at hin
    exact .inr (hin ▸ hrun)

section

variable {ph : Phdr} {size count : Nat}

/-- The flags of a segment are flags for a user mapping, and carry its permissions. -/
theorem parseFlags_spec {pf : Nat} {flags : BitVec 64} (h : parseFlags pf = some flags) :
    FlagsOk flags ∧ pfR pf = true ∧ el0Read flags = true ∧ el0Write flags = pfW pf ∧
      el0Exec flags = pfX pf := by
  unfold parseFlags at h
  by_cases hboth : pfW pf = true ∧ pfX pf = true
  · simp only [if_pos hboth] at h
    exact absurd h (by simp)
  by_cases hread : pfR pf = false
  · simp only [if_pos hread] at h
    exact absurd h (by simp)
  simp only [if_neg hboth, if_neg hread, some.injEq] at h
  rw [← h, eq_true_of_ne_false hread]
  -- What is left are the three combinations that are not refused.
  rcases hw : pfW pf <;> rcases hx : pfX pf
  · exact ⟨⟨by decide, by decide, by decide⟩, by decide⟩
  · exact ⟨⟨by decide, by decide, by decide⟩, by decide⟩
  · exact ⟨⟨by decide, by decide, by decide⟩, by decide⟩
  · exact absurd ⟨hw, hx⟩ hboth

/-- The pages of a segment reach from the one its first byte is in to the one its
    last byte is in. -/
theorem segment_pages (h : segmentOk ph size count) (hmemsz : ph.pMemsz < 2 ^ 64) :
    ph.pVaddr - vaLo ph + ph.pFilesz ≤ segmentPages ph * pageSize ∧
      vaLo ph + segmentPages ph * pageSize ≤ userStackTop := by
  rcases h with ⟨hsize, _, hrange, _⟩
  unfold segmentPages vaHi vaLo sub64 wrap64 userStackTop pageSize at *
  omega

theorem readPhdr_lt (kbuf : Memory) (phoff i : Nat) :
    (readPhdr kbuf phoff i).pOffset < 2 ^ 64 ∧ (readPhdr kbuf phoff i).pVaddr < 2 ^ 64 ∧
      (readPhdr kbuf phoff i).pFilesz < 2 ^ 64 ∧ (readPhdr kbuf phoff i).pMemsz < 2 ^ 64 :=
  ⟨loadN_lt kbuf 8 _, loadN_lt kbuf 8 _, loadN_lt kbuf 8 _, loadN_lt kbuf 8 _⟩

/-- What the checks of a segment say about its place in the file and in the user's
    address range, without wrapping around. -/
structure SegmentFits (ph : Phdr) (size : Nat) : Prop where
  file : ph.pOffset + ph.pFilesz ≤ size
  range : ph.pVaddr + ph.pMemsz ≤ userStackTop
  first : vaLo ph ≤ ph.pVaddr
  last : ph.pVaddr + ph.pMemsz ≤ vaLo ph + segmentPages ph * pageSize
  top : vaLo ph + segmentPages ph * pageSize ≤ userStackTop
  copy : ph.pVaddr - vaLo ph + ph.pFilesz ≤ segmentPages ph * pageSize

theorem segment_fits (hok : segmentOk ph size count) (hoff : ph.pOffset < 2 ^ 64)
    (hmemsz : ph.pMemsz < 2 ^ 64) : SegmentFits ph size := by
  rcases segment_pages hok hmemsz with ⟨hcopy, htop⟩
  rcases hok with ⟨hsize, hfile, hrange, _⟩
  have hlo : vaLo ph ≤ ph.pVaddr := Nat.div_mul_le_self _ _
  refine ⟨?_, ?_, hlo, ?_, htop, hcopy⟩
  · unfold wrap64 at hfile
    omega
  · unfold wrap64 userStackTop at *
    omega
  · unfold segmentPages vaHi vaLo sub64 wrap64 userStackTop pageSize at *
    omega

theorem segmentOk_count (hok : segmentOk ph size count) :
    count < elfMaxRegions :=
  Nat.lt_of_not_le hok.2.2.2

/-- Filling the pages of a segment stays inside them. -/
theorem fillSegment_other (h : segmentOk ph size count) (hmemsz : ph.pMemsz < 2 ^ 64)
    (mem kbuf : Memory) (phys x : Nat) (hx : x < phys ∨ phys + segmentPages ph * pageSize ≤ x) :
    fillSegment mem kbuf ph phys x = mem x := by
  have hfits := (segment_pages h hmemsz).1
  have hzero := memset_other mem phys 0#8 (segmentPages ph * pageSize) x hx
  unfold fillSegment
  split_ifs with hfile
  · rw [memcpy_other (by omega), hzero]
  · rw [hzero]

end

variable {σ : Type} {src : Pages σ}

/-- The program headers of a file. -/
abbrev phdrs (kbuf : Memory) : List Phdr :=
  (range (ePhnum kbuf)).map (readPhdr kbuf (ePhoff kbuf))

theorem phdrs_memsz (kbuf : Memory) (ph : Phdr) (hph : ph ∈ phdrs kbuf) : ph.pMemsz < 2 ^ 64 := by
  rcases mem_map.mp hph with ⟨i, _, rfl⟩
  exact (readPhdr_lt kbuf _ i).2.2.2

/-- A pass of the loop loads the segment of `ph` behind `count` others: the segment passes
    the checks, the run at `u` is handed out for it, and it is filled and mapped. -/
structure Places (src : Pages σ) (kbuf : Memory) (size r count : Nat)
    (m : Machine σ) (ph : Phdr) (flags : BitVec 64) (u : Nat) (m1 m2 : Machine σ) : Prop where
  memsz : ph.pMemsz < 2 ^ 64
  ok : segmentOk ph size count
  flags_eq : parseFlags ph.pFlags = some flags
  alloc : allocatePages src m (segmentPages ph) = (m1, u)
  ne_zero : u ≠ 0
  map : mmuMapUserRange src { m1 with mem := fillSegment m1.mem kbuf ph u } r (vaLo ph) u
    (segmentPages ph) flags = m2

/-- A run of the loop over the program headers: it has passed the headers in the list
    and come to the machine `m`, and the regions are the pages it was handed for their
    segments. -/
inductive Takes (src : Pages σ) (kbuf : Memory) (size r : Nat)
    (m0 : Machine σ) : List Phdr → Machine σ → List ElfRegion → Prop
  | start : Takes src kbuf size r m0 [] m0 []
  | skipped {phs : List Phdr} {m : Machine σ} {regions : List ElfRegion} {ph : Phdr}
      (h : Takes src kbuf size r m0 phs m regions) (htype : ph.pType ≠ ptLoad) :
      Takes src kbuf size r m0 (phs ++ [ph]) m regions
  | placed {phs : List Phdr} {m m1 m2 : Machine σ} {regions : List ElfRegion} {ph : Phdr}
      {flags : BitVec 64} {u : Nat} (h : Takes src kbuf size r m0 phs m regions)
      (htype : ph.pType = ptLoad)
      (hplace : Places src kbuf size r regions.length m ph flags u m1 m2) :
      Takes src kbuf size r m0 (phs ++ [ph]) m2 (regions ++ [⟨u, segmentPages ph⟩])

/-- The load is given up after some of the headers, with its last request for pages
    refused or not, and the regions it was handed are given back. -/
def GivesUp (src : Pages σ) (kbuf : Memory) (size r : Nat)
    (m0 : Machine σ) (phs : List Phdr) (m : Machine σ) : Prop :=
  ∃ phs' m1 m2 regions, phs' <+: phs ∧ Takes src kbuf size r m0 phs' m1 regions ∧
    (m2 = m1 ∨ ∃ n, allocatePages src m1 n = (m2, 0)) ∧ m = freeRegions src m2 regions

section

variable {kbuf : Memory} {size r : Nat} {m0 : Machine σ}

/-- The loop ends with a run over all headers, or gives up. -/
theorem loadSegments_takes (phs : List Phdr) : ∀ done m regions,
    (∀ ph ∈ phs, ph.pMemsz < 2 ^ 64) → Takes src kbuf size r m0 done m regions →
    ((loadSegments src kbuf size r phs m regions).2 = none ∧
      GivesUp src kbuf size r m0 (done ++ phs) (loadSegments src kbuf size r phs m regions).1) ∨
    ∃ regions', (loadSegments src kbuf size r phs m regions).2 = some regions' ∧
      Takes src kbuf size r m0 (done ++ phs) (loadSegments src kbuf size r phs m regions).1
        regions' := by
  induction phs with
  | nil => exact fun done m regions _ h => .inr ⟨regions, rfl, (append_nil done).symm ▸ h⟩
  | cons ph phs ih =>
    intro done m regions hmemsz h
    rw [forall_mem_cons] at hmemsz
    -- each error path frees the regions taken so far
    have hstop : ∀ m2, (m2 = m ∨ ∃ n, allocatePages src m n = (m2, 0)) →
        GivesUp src kbuf size r m0 (done ++ ph :: phs) (freeRegions src m2 regions) :=
      fun m2 h2 => ⟨done, m, m2, regions, prefix_append _ _, h, h2, rfl⟩
    rw [append_cons, loadSegments]
    rw [append_cons] at hstop
    by_cases htype : ph.pType ≠ ptLoad
    · rw [if_pos htype]
      exact ih _ m regions hmemsz.2 (.skipped h htype)
    rw [if_neg htype]
    by_cases hok : segmentOk ph size regions.length
    · rw [if_neg (not_not.mpr hok)]
      rcases hflags : parseFlags ph.pFlags with _ | flags
      · exact .inl ⟨rfl, hstop m (.inl rfl)⟩
      rcases halloc : allocatePages src m (segmentPages ph) with ⟨m1, u⟩
      simp only
      by_cases hu : u = 0
      · rw [if_pos hu]
        exact .inl ⟨rfl, hstop m1 (.inr ⟨_, hu ▸ halloc⟩)⟩
      · rw [if_neg hu]
        exact ih _ _ _ hmemsz.2
          (.placed h (not_not.mp htype) ⟨hmemsz.1, hok, hflags, halloc, hu, rfl⟩)
    · rw [if_pos hok]
      exact .inl ⟨rfl, hstop m (.inl rfl)⟩

/-- A load gives up, or runs over all headers and finds the entry point. -/
theorem elfLoad_takes (m : Machine σ) (kbuf : Memory) (size r : Nat) :
    ((elfLoad src m kbuf size r).2 = none ∧
      GivesUp src kbuf size r m (phdrs kbuf) (elfLoad src m kbuf size r).1) ∨
    ∃ image, (elfLoad src m kbuf size r).2 = some image ∧ image.regions ≠ [] ∧
      entryOk image.entry (phdrs kbuf) = true ∧
      Takes src kbuf size r m (phdrs kbuf) (elfLoad src m kbuf size r).1 image.regions := by
  have hres := loadSegments_takes (phdrs kbuf) [] m [] (phdrs_memsz kbuf)
    (.start : Takes src kbuf size r m [] m [])
  rw [nil_append] at hres
  unfold elfLoad
  split_ifs with hheader
  · exact .inl ⟨rfl, [], m, m, [], nil_prefix, .start, .inl rfl, rfl⟩
  simp only
  generalize loadSegments src kbuf size r (phdrs kbuf) m [] = loaded at hres ⊢
  rcases loaded with ⟨m', _ | regions⟩
  · rcases hres with ⟨_, hup⟩ | ⟨_, hc, _⟩
    · exact .inl ⟨rfl, hup⟩
    · cases hc
  rcases hres with ⟨hc, _⟩ | ⟨_, hregions, htakes⟩
  · cases hc
  cases hregions
  simp only
  split_ifs with hempty hentry
  -- Without a segment there is nothing to give back.
  · exact .inl ⟨rfl, _, m', m', regions, prefix_rfl, htakes, .inl rfl, by rw [hempty]; rfl⟩
  · exact .inl ⟨rfl, _, m', m', regions, prefix_rfl, htakes, .inl rfl, rfl⟩
  · exact .inr ⟨_, rfl, hempty, Bool.of_not_eq_false hentry, htakes⟩

/-- A region for each segment, and room for all of them. -/
theorem takes_regions {phs : List Phdr} {m : Machine σ} {regions : List ElfRegion}
    (h : Takes src kbuf size r m0 phs m regions) : regions.length ≤ elfMaxRegions ∧
      regions.map (·.pages) = (phs.filter (·.pType = ptLoad)).map segmentPages := by
  induction h with
  | start => exact ⟨Nat.zero_le _, rfl⟩
  | skipped _ htype ih =>
    rw [filter_append, filter_cons_of_neg (by simpa using htype), filter_nil, append_nil]
    exact ih
  | placed _ htype hplace ih =>
    rw [filter_append, filter_cons_of_pos (by simpa using htype), map_append, map_append, ih.2,
      length_append]
    exact ⟨segmentOk_count hplace.ok, rfl⟩

end

theorem freeRegions_frees (regions : List ElfRegion) : ∀ m : Machine σ,
    (∀ reg ∈ regions, reg.pages ≠ 0 → reg.phys + reg.pages * pageSize ≤ physLimit) →
    Frees src (RegionPage regions) m (freeRegions src m regions) := by
  induction regions with
  | nil => exact fun m _ => frees_refl _ m
  | cons reg regions ih =>
    intro m hbelow
    rw [forall_mem_cons] at hbelow
    have hrest : ∀ m', Frees src (RegionPage (reg :: regions)) m' (freeRegions src m' regions) :=
      fun m' => frees_mono (ih m' hbelow.2) fun a ⟨reg', hmem, hrun⟩ =>
        ⟨reg', mem_cons_of_mem _ hmem, hrun⟩
    unfold freeRegions
    rw [foldl_cons]
    split_ifs with hfree
    · exact frees_trans (frees_mono (freePages_frees m (hbelow.1 hfree.2))
        fun a ha => ⟨reg, mem_cons_self, ha⟩) (hrest _)
    · exact hrest m

/-- The machine `m` after some segments, loaded from `m0` on. -/
structure Loaded (src : Pages σ) (shared : Nat → Prop) (r : Nat)
    (m0 : Machine σ) (role0 : Roles) (m : Machine σ) (role : Roles)
    (regions : List ElfRegion) : Prop where
  evolves : Evolves src (TableOf r) m0 role0 m role
  space : SpaceOk src m role r
  pages : ∀ a, RegionPage regions a →
    role a = .data r ∧ src.Held m.pmm a ∧ ¬ src.Held m0.pmm a
  leaves : LeavesOk (RegionPage regions) shared m.mem r

section

variable {shared : Nat → Prop} {r u size count : Nat} {m0 m m1 m2 : Machine σ}
  {role0 role : Roles} {regions : List ElfRegion} {kbuf : Memory} {ph : Phdr}
  {flags : BitVec 64}

/-- Giving everything back after a failure. The tables stay with the caller. -/
theorem loaded_free (h : Loaded src shared r m0 role0 m role regions) :
    Evolves src (TableOf r) m0 role0 (freeRegions src m regions) role ∧
      SpaceOk src (freeRegions src m regions) role r := by
  have hfrees : Frees src (RegionPage regions) m (freeRegions src m regions) := by
    refine freeRegions_frees regions m fun reg hreg hpages => ?_
    exact run_below (by omega) fun a ha => (h.pages a ⟨reg, hreg, ha⟩).2.1
  refine ⟨evolves_frees h.evolves hfrees fun a ha => ?_,
    space_frees h.space hfrees fun a ha path => ?_⟩
  · rcases h.pages a ha with ⟨hrole, _, hnew⟩
    refine ⟨hnew, ?_⟩
    rw [hrole]
    exact Role.noConfusion
  · rw [(h.pages a ha).1]
    exact Role.noConfusion

/-- A page that is refused changes nothing the load has done. -/
theorem loaded_refused (h : Loaded src shared r m0 role0 m role regions)
    (hstop : m1 = m ∨ ∃ n, allocatePages src m n = (m1, 0)) :
    Loaded src shared r m0 role0 m1 role regions := by
  rcases hstop with rfl | ⟨n, halloc⟩
  · exact h
  have hev := (evolves_refused (fun _ => False) role (congrArg Prod.snd halloc)).1
  rw [halloc] at hev
  rcases space_frame h.space hev fun _ hc => hc with ⟨hspace, _, hleaf⟩
  refine ⟨evolves_trans h.evolves (evolves_mono hev nofun), hspace, fun a ha => ?_,
    leavesOk_congr h.leaves hleaf⟩
  rcases h.pages a ha with ⟨hrole, hheld, hnew⟩
  exact ⟨hrole, hev.held a hheld, hnew⟩

/-- The pages of a segment are handed out and filled, which is nobody's business
    yet, and then mapped. -/
theorem places_spec (hspace : SpaceOk src m role r)
    (hplace : Places src kbuf size r count m ph flags u m1 m2) :
    ∃ role1 role2,
      Evolves src (fun _ => False) m role { m1 with mem := fillSegment m1.mem kbuf ph u } role1 ∧
      (∀ a, InRun u (segmentPages ph) a →
        ¬ src.Held m.pmm a ∧ src.Held m1.pmm a ∧ role1 a = .data r) ∧
      m1.refused = m.refused ∧
      Grows src r { m1 with mem := fillSegment m1.mem kbuf ph u } role1 m2 role2 := by
  have hmem := allocatePages_mem hplace.alloc
  rcases evolves_fill (fun _ => False) role (.data r) hplace.alloc hplace.ne_zero
    (fillSegment m1.mem kbuf ph u)
    (fun x hx => by rw [fillSegment_other hplace.ok hplace.memsz _ kbuf _ x hx, hmem]) with
    ⟨hev, hrun, hrefused⟩
  rcases mapLoop_leaf (vaLo ph) u flags (segmentPages ph) 0 _ _
    (space_frame hspace hev fun _ hc => hc).1 with ⟨role2, hgrows, _⟩
  rw [← mmuMapUserRange, hplace.map] at hgrows
  exact ⟨_, role2, hev, fun a ha => ⟨(hrun a ha).1, (hrun a ha).2, assign_of_inRun ha⟩,
    hrefused, hgrows⟩

theorem loaded_places (h : Loaded src shared r m0 role0 m role regions)
    (hplace : Places src kbuf size r count m ph flags u m1 m2) :
    ∃ role', Loaded src shared r m0 role0 m2 role' (regions ++ [⟨u, segmentPages ph⟩]) := by
  rcases places_spec h.space hplace with ⟨role1, role2, hev, hrun, _, hgrows⟩
  rcases space_frame h.space hev fun _ hc => hc with ⟨hspace, _, hleaf⟩
  have hold : ∀ a, RegionPage regions a → RegionPage (regions ++ [⟨u, segmentPages ph⟩]) a :=
    fun a ⟨reg, hin, ha⟩ => ⟨reg, mem_append_left _ hin, ha⟩
  have hpages : ∀ a, InRun u (segmentPages ph) a → a % pageSize = 0 ∧ a < 2 ^ 48 ∧
      (RegionPage (regions ++ [⟨u, segmentPages ph⟩]) a ∨ shared a ∧ el0Write flags = false) := by
    intro a ha
    rcases held_lt (hrun a ha).2.1 with ⟨halign, hlt⟩
    exact ⟨halign, hlt, .inl ⟨_, mem_append_right _ (mem_singleton_self _), ha⟩⟩
  -- The segment owns what its leaves point to.
  rcases mapRange_leaves hspace
    (leavesOk_mono (leavesOk_congr h.leaves hleaf) hold fun _ hs => hs) (vaLo ph)
    (parseFlags_spec hplace.flags_eq).1 hpages with ⟨_, _, hleaves⟩
  rw [hplace.map] at hleaves
  refine ⟨role2, ?_, hgrows.space, fun a ha => ?_, hleaves⟩
  · exact evolves_trans (evolves_trans h.evolves (evolves_mono hev nofun)) hgrows.evolves
  · rcases regionPage_append ha with hin | hin
    · rcases h.pages a hin with ⟨hrole, hheld, hnew⟩
      have hheld' := hev.held a hheld
      refine ⟨?_, hgrows.evolves.held a hheld', hnew⟩
      rw [hgrows.evolves.role_eq a hheld', hev.role_eq a hheld, hrole]
    · rcases hrun a hin with ⟨hnew, hheld, hrole⟩
      refine ⟨?_, hgrows.evolves.held a hheld, fun hc => hnew (h.evolves.held a hc)⟩
      rw [hgrows.evolves.role_eq a hheld, hrole]

/-- What a run of the loop leaves, given tables that map nothing but shared pages. -/
theorem takes_loaded {phs : List Phdr} (hspace : SpaceOk src m0 role0 r)
    (hleaves : LeavesOk (fun _ => False) shared m0.mem r)
    (h : Takes src kbuf size r m0 phs m regions) :
    ∃ role, Loaded src shared r m0 role0 m role regions := by
  induction h with
  | start =>
    exact ⟨role0, evolves_refl _ m0 role0, hspace, fun a ⟨_, hc, _⟩ => absurd hc not_mem_nil,
      leavesOk_mono hleaves nofun fun _ hs => hs⟩
  | skipped _ _ ih => exact ih
  | placed _ _ hplace ih =>
    rcases ih with ⟨role, h⟩
    exact loaded_places h hplace

/-- The loader, given tables that map nothing but shared pages. -/
theorem elfLoad_spec (hspace : SpaceOk src m role r)
    (hleaves : LeavesOk (fun _ => False) shared m.mem r) (kbuf : Memory) (size : Nat) :
    ∃ role', Evolves src (TableOf r) m role (elfLoad src m kbuf size r).1 role' ∧
      SpaceOk src (elfLoad src m kbuf size r).1 role' r ∧
      ∀ image, (elfLoad src m kbuf size r).2 = some image →
        image.regions ≠ [] ∧
        (∀ a, RegionPage image.regions a →
          role' a = .data r ∧ src.Held (elfLoad src m kbuf size r).1.pmm a) ∧
        LeavesOk (RegionPage image.regions) shared (elfLoad src m kbuf size r).1.mem r := by
  rcases elfLoad_takes m kbuf size r with
    ⟨hnone, _, _, _, _, _, htakes, hstop, hfreed⟩ | ⟨image, himage, hne, _, htakes⟩
  · rcases takes_loaded hspace hleaves htakes with ⟨role', h⟩
    rcases loaded_free (loaded_refused h hstop) with ⟨hev, hspace'⟩
    rw [hfreed]
    refine ⟨role', hev, hspace', fun image hc => ?_⟩
    exact absurd (hnone.symm.trans hc).symm (some_ne_none image)
  · rcases takes_loaded hspace hleaves htakes with ⟨role', h⟩
    refine ⟨role', h.evolves, h.space, fun image' himage' => ?_⟩
    rw [← some.inj (himage.symm.trans himage')]
    exact ⟨hne, fun a ha => ⟨(h.pages a ha).1, (h.pages a ha).2.1⟩, h.leaves⟩

end

end CortexForge.Elf
