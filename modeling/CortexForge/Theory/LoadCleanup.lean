import CortexForge.Theory.ElfImage
import CortexForge.Theory.TaskPages
import CortexForge.Theory.Teardown

/-!
# A Load Cleans Up after Itself

What `elf_load` has taken when it returns, for any file and whenever the pages give
out. After a failure every page of a segment is free again, and only tables are
left; after a success the regions of the image list the pages that were taken, one
region for each `PT_LOAD` segment of the file.

## Main definitions

* `LoadKeeps`: What an image that was accepted has.

## Theorems

* `load_cleans_up`: The two outcomes.
-/

namespace CortexForge.Sched

open Mmu Elf List

variable {σ : Type} {src : Pages σ} {Sound : σ → Prop}
  {Fixed : Nat → Prop} {shared : Nat → Prop} {r : Nat} {m : Machine σ} {role : Roles}

/-- What the image `image` of a file has, loaded from `m0` on in `m`. -/
structure LoadKeeps (src : Pages σ) (Sound : σ → Prop) (r : Nat)
    (kbuf : Memory) (m0 m : Machine σ) (image : ElfImage) : Prop where
  exact : Builds src Sound r (· ∈ regionPages image.regions) m0 m
  nodup : (regionPages image.regions).Nodup
  taken : ∀ a ∈ regionPages image.regions, ¬ src.Held m0.pmm a ∧ src.Held m.pmm a
  segments : image.regions.map (·.pages) =
    ((phdrs kbuf).filter (·.pType = ptLoad)).map segmentPages
  count : 1 ≤ image.regions.length ∧ image.regions.length ≤ elfMaxRegions
  entry : ∃ ph ∈ phdrs kbuf, ph.pType = ptLoad ∧ pfX ph.pFlags = true ∧
    ph.pVaddr ≤ image.entry ∧ image.entry < ph.pVaddr + ph.pMemsz

theorem entry_executable {entry : Nat} {phs : List Phdr} (h : entryOk entry phs = true) :
    ∃ ph ∈ phs, ph.pType = ptLoad ∧ pfX ph.pFlags = true ∧
      ph.pVaddr ≤ entry ∧ entry < ph.pVaddr + ph.pMemsz := by
  rcases any_eq_true.mp h with ⟨ph, hph, hok⟩
  simp only [Bool.and_eq_true, beq_iff_eq, decide_eq_true_eq] at hok
  rcases hok with ⟨⟨⟨htype, hlo⟩, hhi⟩, hx⟩
  -- The end of the range may wrap around, which only makes the check stricter.
  exact ⟨ph, hph, htype, hx, hlo, hhi.trans_le (Nat.mod_le _ _)⟩

/-- A load into an address space that maps shared pages only. -/
theorem load_cleans_up (hex : src.Exact Sound Fixed) (hs : Sound m.pmm)
    (hspace : SpaceOk src m role r) (hleaves : LeavesOk (fun _ => False) shared m.mem r)
    (kbuf : Memory) (size : Nat) :
    ((elfLoad src m kbuf size r).2 = none →
      CleanedUp src Sound kbuf size r m (elfLoad src m kbuf size r).1) ∧
    ∀ image, (elfLoad src m kbuf size r).2 = some image →
      LoadKeeps src Sound r kbuf m (elfLoad src m kbuf size r).1 image := by
  rcases @elfLoad_takes σ src m kbuf size r with
    ⟨hnone, hup⟩ | ⟨image, himage, hne, hentry, htakes⟩
  · refine ⟨fun _ => givesUp_cleanedUp hex hs hspace hleaves hup, fun image hc => ?_⟩
    cases hnone.symm.trans hc
  · refine ⟨fun hc => absurd (hc.symm.trans himage) nofun, fun image' himage' => ?_⟩
    cases himage.symm.trans himage'
    rcases takes_exactly hex hs hspace hleaves htakes with ⟨_, h⟩
    rcases takes_regions htakes with ⟨hle, hmap⟩
    exact ⟨h.builds, h.nodup, fun a ha =>
        ⟨(h.loaded.pages a (regionPage_of_mem ha)).2.2,
          (h.loaded.pages a (regionPage_of_mem ha)).2.1⟩,
      hmap, ⟨length_pos_iff.mpr hne, hle⟩, entry_executable hentry⟩

/-- A file whose second segment is cut off, loaded into a new address space. -/
def cutLoaded : Machine Pmm.Allocator × Option ElfImage :=
  elfLoad Pmm.pmmSource bootSpace.1 (twoSegments 0x10) 183 bootSpace.2

/-- The text of the first segment is in its page when the second one is refused. -/
theorem load_cleans_up_cut :
    cutLoaded.2 = none ∧ bootSpace.1.mem 0x40007000 = 0 ∧ cutLoaded.1.mem 0x40007000 = 1 ∧
      CleanedUp Pmm.pmmSource (Pmm.SameMemory bootMachine.pmm) (twoSegments 0x10) 183 bootSpace.2
        bootSpace.1 cutLoaded.1 := by
  rcases boot_ok bootMachine_boot with ⟨role, hok⟩
  rcases createTables_leaves hok.shared (rfl : _ = bootSpace) (by decide +kernel) with
    ⟨_, role1, _, hspace, hleaves, _⟩
  have hexact := Pmm.pmmSource_exact bootMachine.pmm (by decide +kernel)
  have hsound := (createTables_adds hexact (Pmm.sameRegion_refl _) (rfl : _ = bootSpace)).sound
  exact ⟨rfl, by decide, by decide, (load_cleans_up hexact hsound hspace hleaves _ _).1 rfl⟩

end CortexForge.Sched
