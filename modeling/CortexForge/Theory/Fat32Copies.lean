import CortexForge.Theory.Fat32Bounds
import CortexForge.Theory.Fat32Space

/-!
# The Copies of the Table

A volume keeps its table in `num_fats` copies, one behind the other. `fat32_mount` counts
them in to find the data, and after that only the first is ever looked at: `fat_write`
updates one sector of it. A creation that takes a cluster therefore leaves the copies
different, and one that takes none leaves them alone (`create_table_kept`).

## Main definitions

* `CopiesAlike`: All copies of the table are the same.
* `Quiet`: A creation that takes no cluster.

## Theorems

* `create_table_kept`: Such a creation writes no sector of the table.
* `copies_kept`: Creations that take no cluster keep the copies alike.
-/

namespace CortexForge.Fat32

/-- The number of copies of the table, by the boot sector. -/
def numFats (boot : Memory) : Nat := loadN boot 16 1

def CopiesAlike (boot : Memory) (v : Volume) (d : Disk) : Prop :=
  ∀ k < numFats boot, ∀ i < fatSize32 boot, ∀ j < sectorSize,
    d (v.fatStartSector + k * fatSize32 boot + i) j = d (v.fatStartSector + i) j

/-- There is one copy, or the volume is in order with copies that have sector numbers of
    32 bits, and there is no data to store or no free cluster to store it in. -/
def Quiet (boot : Memory) (v : Volume) (d : Disk) (len : Nat) : Prop :=
  numFats boot ≤ 1 ∨
    (v.fatStartSector + numFats boot * fatSize32 boot < 2 ^ 32 ∧
      (∃ isDir, WellFormed v d isDir) ∧
      (clustersNeeded v len = 0 ∨ ∀ c, Indexable v c → nextCluster v d c ≠ 0))

/-- One quiet call of `fat32_create`, with any result and on any device. -/
def QuietStep (boot : Memory) (v : Volume) (s s' : Fat32) : Prop :=
  ∃ dev fuel path data len ok, fat32Create dev v fuel s path data len = some (s', ok) ∧
    Quiet boot v s.disk len

variable {v : Volume} {dev : Device} {data : Memory} {fuel len : Nat} {path : CString}
  {isDir : Nat → Prop} {s s' : Fat32} {ok : Bool}

/-- A creation that takes no cluster writes no sector of the table. -/
theorem create_table_kept (h : WellFormed v s.disk isDir)
    (hcreate : fat32Create dev v fuel s path data len = some (s', ok))
    (hquiet : clustersNeeded v len = 0 ∨ ∀ c, Indexable v c → nextCluster v s.disk c ≠ 0)
    {sector : Nat} (hlow : v.fatStartSector ≤ sector) (hhigh : sector < v.dataStartSector) :
    ∀ j < sectorSize, s'.disk sector j = s.disk sector j := by
  have hg := h.geometry
  rcases create_cases h hcreate with ⟨got, d, hgrown, hlen, hdisk⟩
  have hgot : got = [] := by
    refine List.eq_nil_iff_forall_not_mem.mpr fun c hc => ?_
    rcases hquiet with hzero | hfull
    · rw [hzero, Nat.le_zero, List.length_eq_zero_iff] at hlen
      exact absurd (hlen ▸ hc) List.not_mem_nil
    · exact hfull c (hgrown.closed c hc).1 (hgrown.free c hc)
  -- No entry has changed, and the slot that may have been filled is behind the table.
  have hentries : ∀ c < fatEntries v, fatEntry v s'.disk c = fatEntry v s.disk c := by
    intro c hc
    rw [← (grown_unchanged hgrown).mpr hgot c hc]
    rcases hdisk with hd | ⟨k, cs, q, entry, _, hcs, hq, _, hfill⟩
    · rw [hd]
    · rcases dirSlots_mem hg (fun c hc => (chain_closed cs hcs c hc).1) hq with ⟨_, _, hin, _⟩
      rw [hfill]
      exact fatEntry_update hg hc (inCluster_data hin) _
  intro j hj
  unfold sectorSize at hj
  have hc : (sector - v.fatStartSector) * 128 + j / 4 < fatEntries v := by
    unfold fatEntries
    omega
  rcases fatPlace hg hc with ⟨hsector, hoffset⟩
  have hentry := hentries _ hc
  rw [fatEntry, fatEntry, hsector, hoffset] at hentry
  have hbyte := loadN_inj _ _ 4 _ _ hentry (j % 4) (by omega)
  rwa [show v.fatStartSector + ((sector - v.fatStartSector) * 128 + j / 4) / 128 = sector by omega,
    show ((sector - v.fatStartSector) * 128 + j / 4) % 128 * 4 + j % 4 = j by omega] at hbyte

/-- Creations and the copies of the table. Where a mounted volume has identical copies
    and every creation of a run takes no cluster, or there is one copy only, the copies
    are identical in every state of the run. -/
theorem copies_kept (dev0 : Device) (s0 s s' : Fat32) (v : Volume)
    (hmount : fat32Mount dev0 s0 = (s, some v)) (halike : CopiesAlike (s0.disk 0) v s.disk)
    (hrun : Relation.ReflTransGen (QuietStep (s0.disk 0) v) s s') :
    CopiesAlike (s0.disk 0) v s'.disk := by
  have hdata : v.dataStartSector =
      wrap32 (v.fatStartSector + wrap32 (numFats (s0.disk 0) * fatSize32 (s0.disk 0))) := by
    have hbuf := @blkRead_buf dev0 s0 0
    unfold fat32Mount at hmount
    grind [numFats, fatSize32]
  induction hrun with
  | refl => exact halike
  | tail _ hstep ih =>
    rcases hstep with ⟨dev, fuel, path, data, len, ok, hcreate, hquiet⟩
    intro k hk i hi j hj
    rcases hquiet with hone | ⟨hstart, ⟨isDir, hwf⟩, hquiet⟩
    · simp [show k = 0 by omega]
    · have hlast : (k + 1) * fatSize32 (s0.disk 0)
          ≤ numFats (s0.disk 0) * fatSize32 (s0.disk 0) := Nat.mul_le_mul_right _ hk
      rw [Nat.add_mul] at hlast
      rw [wrap32, wrap32] at hdata
      rw [create_table_kept hwf hcreate hquiet (by omega) (by omega) j hj,
        create_table_kept hwf hcreate hquiet (by omega) (by omega) j hj]
      exact ih k hk i hi j hj

theorem copiedGeometry : Geometry copiedVolume := by
  refine ⟨by decide, by decide, rfl, by decide, by decide, by decide, fun c hc => ?_⟩
  have hlt : c < 256 := hc.2
  simp only [copiedVolume, smallVolume]
  omega

/-- Two copies of the table, with an empty root directory. -/
theorem copied_wellFormed : WellFormed copiedVolume (copiedTable 2 9).disk (· = 2) := by
  have hends : fat32Eoc ≤ nextCluster copiedVolume (copiedTable 2 9).disk 2 := by decide
  have hempty : ∀ p ∈ dirSlots copiedVolume [2], ¬ Live (copiedTable 2 9).disk p := by decide
  have hroot : Chain copiedVolume (copiedTable 2 9).disk 2 [2] :=
    ⟨rfl, ⟨by decide, by decide⟩, hends⟩
  exact oneDir_wellFormed copiedGeometry hroot (fun p hp hlive => absurd hlive (hempty p hp))
    (by decide)

theorem copied_alike : CopiesAlike (smallBoot 2 9) copiedVolume (copiedTable 2 9).disk := by
  have hsize : numFats (smallBoot 2 9) = 2 ∧ fatSize32 (smallBoot 2 9) = 1 := by decide
  intro k hk i hi j _
  rw [hsize.1] at hk
  rcases (show (k = 0 ∨ k = 1) ∧ i = 0 by omega) with ⟨rfl | rfl, rfl⟩
  · rfl
  · rfl

/-- With two copies an empty file can be created. -/
theorem copies_kept_empty :
    ∃ s s', fat32Mount (fun _ => .done) (copiedTable 2 9) = (s, some copiedVolume) ∧
      numFats (smallBoot 2 9) = 2 ∧
      fat32Create (fun _ => .done) copiedVolume 200 s secondPath (fun _ => 7#8) 0 =
        some (s', true) ∧
      CopiesAlike (smallBoot 2 9) copiedVolume s'.disk := by
  have hmount : fat32Mount (fun _ => .done) (copiedTable 2 9) =
      ((fat32Mount (fun _ => .done) (copiedTable 2 9)).1, some copiedVolume) :=
    Prod.ext rfl copied_mounts.2.2
  have hrun : (fat32Create (fun _ => .done) copiedVolume 200
      (fat32Mount (fun _ => .done) (copiedTable 2 9)).1 secondPath (fun _ => 7#8) 0).map Prod.snd =
        some true := by
    rfl
  rcases Option.map_eq_some_iff.mp hrun with ⟨⟨s', ok⟩, hcreate, rfl⟩
  refine ⟨_, s', hmount, by decide, hcreate, copies_kept _ _ _ _ _ hmount copied_alike
    (.single ⟨_, _, _, _, _, _, hcreate, .inr ⟨by decide, ⟨_, copied_wellFormed⟩, .inl rfl⟩⟩)⟩

/-- A file of one byte takes cluster 4. The first copy says so, the second does not. -/
theorem copies_differ :
    (fat32Mount (fun _ => .done) (copiedTable 2 9)).2 = some copiedVolume ∧
      CopiesAlike (smallBoot 2 9) copiedVolume (copiedTable 2 9).disk ∧
      ∃ s', fat32Create (fun _ => .done) copiedVolume 200
          (fat32Mount (fun _ => .done) (copiedTable 2 9)).1 secondPath (fun _ => 7#8) 1 =
            some (s', true) ∧
        ¬ CopiesAlike (smallBoot 2 9) copiedVolume s'.disk := by
  refine ⟨copied_mounts.2.2, copied_alike, ?_⟩
  have hrun : (fat32Create (fun _ => .done) copiedVolume 200
      (fat32Mount (fun _ => .done) (copiedTable 2 9)).1 secondPath (fun _ => 7#8) 1).map
        (fun r => (r.2, r.1.disk 1 16, r.1.disk 2 16)) = some (true, 0xFF#8, 0#8) := by
    decide
  rcases Option.map_eq_some_iff.mp hrun with ⟨⟨s', ok⟩, hcreate, heq⟩
  simp only [Prod.mk.injEq] at heq
  rcases heq with ⟨rfl, hfirst, hsecond⟩
  refine ⟨s', hcreate, fun halike => ?_⟩
  have hbyte := halike 1 (by decide) 0 (by decide) 16 (by decide)
  exact absurd (hsecond.symm.trans (hbyte.trans hfirst)) (by decide)

end CortexForge.Fat32
