import CortexForge.Core.Fat32

/-!
# The Allocation Table of a FAT32 Volume

The entries of the allocation table as numbers, and what an allocation and a change
of a chain do to them.

The table takes the sectors from `fatStartSector` to `dataStartSector`, with all its
copies counted as one, since that is how far the search for a free cluster goes. A
cluster is `Indexable` if its entry is in there. `Geometry` collects what is assumed
of the numbers of a volume: within it no sum wraps, entries do not overlap, and
clusters share no sector with each other or with the table.

A write of an entry reads its sector first, so that it changes this one entry and
nothing else; `setEntry` is that change. Because the device can fail at any request,
each function is described by what the disk may be afterwards, and by more only if it
succeeds.

## Main definitions

* `Indexable`, `Geometry`: The clusters that have an entry, and their sectors.
* `InCluster`: A sector of a cluster.
* `Done`: A device without failures.
* `fatEntry`, `nextCluster`, `setEntry`: Entries.

## Theorems

* `inCluster_unique`: A sector is of one cluster.
* `fatEntry_setEntry_other`, `setEntry_outside`: What a change of an entry leaves alone.
* `fatWrite_cases`, `fatAlloc_cases`: What the disk may be after a write of an entry
  and after an allocation.
-/

namespace CortexForge.Fat32

open Function

/-- The entries of the table, all copies together. -/
def fatEntries (v : Volume) : Nat := (v.dataStartSector - v.fatStartSector) * 128

/-- The cluster has an entry in the table. The first two entries are not of clusters. -/
def Indexable (v : Volume) (c : Nat) : Prop := 2 ≤ c ∧ c < fatEntries v

/-- The numbers of a volume: clusters are of some sectors, at most as many as a byte can
    say; the table comes before the data and is not so large that the number of a cluster
    could be taken for the end of a chain; and the sectors of every cluster are below
    `2 ^ 32`. -/
structure Geometry (v : Volume) : Prop where
  sectors_pos : 0 < v.sectorsPerCluster
  sectors_lt : v.sectorsPerCluster < 256
  bytes : v.bytesPerCluster = v.sectorsPerCluster * sectorSize
  start : v.dataStartSector < 2 ^ 32
  order : v.fatStartSector ≤ v.dataStartSector
  entries : fatEntries v ≤ 0x0FFFFFF0
  reach : ∀ c, Indexable v c →
    v.dataStartSector + (c - 2) * v.sectorsPerCluster + v.sectorsPerCluster ≤ 2 ^ 32

/-- The sector belongs to the cluster. -/
def InCluster (v : Volume) (c sector : Nat) : Prop :=
  v.dataStartSector + (c - 2) * v.sectorsPerCluster ≤ sector ∧
    sector < v.dataStartSector + (c - 2) * v.sectorsPerCluster + v.sectorsPerCluster

/-- The entry of a cluster. -/
def fatEntry (v : Volume) (d : Disk) (c : Nat) : Nat := loadN (d (fatSector v c)) (fatOffset c) 4

/-- The cluster after one in its chain. A free cluster has 0. -/
def nextCluster (v : Volume) (d : Disk) (c : Nat) : Nat := fatEntry v d c % 2 ^ 28

/-- The disk with a new value for an entry. -/
def setEntry (v : Volume) (d : Disk) (c value : Nat) : Disk :=
  update d (fatSector v c)
    (storeN (d (fatSector v c)) (fatOffset c) 4 (mergeEntry (fatEntry v d c) value))

/-- The device fails no request. -/
def Done (dev : Device) : Prop := ∀ n, dev n = .done

section

variable {v : Volume} {c c' sector : Nat}

theorem fatEntries_row (hc : c < fatEntries v) :
    v.fatStartSector + c / 128 < v.dataStartSector := by
  have hrow : c / 128 < v.dataStartSector - v.fatStartSector :=
    Nat.div_lt_of_lt_mul (by rw [Nat.mul_comm]; exact hc)
  omega

/-- Where an entry is. -/
theorem fatPlace (hg : Geometry v) (hc : c < fatEntries v) :
    fatSector v c = v.fatStartSector + c / 128 ∧ fatOffset c = c % 128 * 4 := by
  have hentries := hg.entries
  have hstart := hg.start
  have hrow := fatEntries_row hc
  have hwrap : wrap32 (c * 4) = c * 4 := Nat.mod_eq_of_lt (by omega)
  rw [fatSector, fatOffset, sectorSize, wrap32]
  omega

/-- A search that has not left the table is at an entry. -/
theorem indexable_of_sector (hg : Geometry v) (hc : 2 ≤ c)
    (hrow : c / 128 ≤ v.dataStartSector - v.fatStartSector) (hlt : c < 2 ^ 28)
    (hin : fatSector v c < v.dataStartSector) : Indexable v c := by
  refine ⟨hc, ?_⟩
  by_contra hend
  have hstart := hg.start
  have horder := hg.order
  have hlast : c / 128 = v.dataStartSector - v.fatStartSector := by
    rw [fatEntries] at hend
    omega
  have hwrap : wrap32 (c * 4) = c * 4 := Nat.mod_eq_of_lt (by omega)
  rw [fatSector, hwrap, sectorSize, show c * 4 / 512 = c / 128 by omega, wrap32] at hin
  omega

/-- It goes on with the next one, and the counter does not wrap around: the table is far
    shorter. -/
theorem indexable_next (hg : Geometry v) (h : Indexable v c) : wrap32 (c + 1) = c + 1 ∧
    (c + 1) / 128 ≤ v.dataStartSector - v.fatStartSector ∧ c + 1 < 2 ^ 28 := by
  have hentries := hg.entries
  have hbelow := h.2
  rw [fatEntries] at hentries hbelow
  exact ⟨Nat.mod_eq_of_lt (by omega), by omega, by omega⟩

theorem clusterToSector_eq (hg : Geometry v) (hc : Indexable v c) :
    clusterToSector v c = v.dataStartSector + (c - 2) * v.sectorsPerCluster := by
  have hreach := hg.reach c hc
  have hentries := hg.entries
  have hlt := hc.2
  have htwo : sub32 c 2 = c - 2 := by
    have := hc.1
    rw [sub32, wrap32]
    omega
  have hpos := hg.sectors_pos
  rw [clusterToSector, htwo, wrap32, wrap32, Nat.mod_eq_of_lt (by omega),
    Nat.mod_eq_of_lt (by omega)]

theorem inCluster_data (h : InCluster v c sector) : v.dataStartSector ≤ sector :=
  Nat.le_trans (Nat.le_add_right _ _) h.1

/-- A sector is of one cluster. -/
theorem inCluster_unique (hc : 2 ≤ c) (hc' : 2 ≤ c') (h : InCluster v c sector)
    (h' : InCluster v c' sector) : c = c' := by
  -- The earlier of two clusters ends before the later one starts.
  have hafter : ∀ {a b : Nat}, 2 ≤ a → InCluster v a sector → InCluster v b sector → ¬ a < b := by
    intro a b ha hina hinb hlt
    have hstep : (a - 2) * v.sectorsPerCluster + v.sectorsPerCluster ≤
        (b - 2) * v.sectorsPerCluster := by
      rw [← Nat.succ_mul]
      exact Nat.mul_le_mul_right _ (by omega)
    have hend := hina.2
    have hbegin := hinb.1
    omega
  rcases Nat.lt_trichotomy c c' with hlt | heq | hlt
  · exact absurd hlt (hafter hc h h')
  · exact heq
  · exact absurd hlt (hafter hc' h' h)

end

section

variable {v : Volume} {d : Disk} {c c' : Nat}

theorem mergeEntry_low (existing value : Nat) :
    mergeEntry existing value % 2 ^ 28 = value % 2 ^ 28 := by
  rw [mergeEntry]
  omega

/-- An entry depends on its sector only. -/
theorem fatEntry_congr {d' : Disk} (h : d' (fatSector v c) = d (fatSector v c)) :
    fatEntry v d' c = fatEntry v d c := by
  simp [fatEntry, h]

theorem nextCluster_setEntry (value : Nat) :
    nextCluster v (setEntry v d c value) c = value % 2 ^ 28 := by
  have hold : fatEntry v d c < 256 ^ 4 := loadN_lt _ 4 _
  have hlt : mergeEntry (fatEntry v d c) value < 256 ^ 4 := by
    rw [mergeEntry]
    omega
  rw [nextCluster, fatEntry, setEntry, update_self, loadN_storeN, Nat.mod_eq_of_lt hlt,
    mergeEntry_low]

theorem fatEntry_setEntry_other (hg : Geometry v) (hc : c < fatEntries v) (hc' : c' < fatEntries v)
    (hne : c' ≠ c) (value : Nat) : fatEntry v (setEntry v d c value) c' = fatEntry v d c' := by
  rcases fatPlace hg hc with ⟨hsec, hoff⟩
  rcases fatPlace hg hc' with ⟨hsec', hoff'⟩
  by_cases hsame : fatSector v c' = fatSector v c
  · -- Entries of one sector are apart.
    have hapart : c % 128 ≠ c' % 128 := by omega
    simp only [fatEntry, setEntry, hsame, update_self]
    refine loadN_storeN_disjoint _ _ ?_
    omega
  · refine fatEntry_congr ?_
    rw [setEntry, update_of_ne hsame]

theorem setEntry_outside (hg : Geometry v) (hc : c < fatEntries v) {sector : Nat}
    (hout : sector < v.fatStartSector ∨ v.dataStartSector ≤ sector) (value : Nat) :
    setEntry v d c value sector = d sector := by
  have hplace := (fatPlace hg hc).1
  have hrow := fatEntries_row hc
  have hne : sector ≠ fatSector v c := by omega
  rw [setEntry, update_of_ne hne]

end

section

variable {v : Volume} {dev : Device} {s s' : Fat32} {sector c : Nat}

theorem blkRead_disk (dev : Device) (s : Fat32) (sector : Nat) :
    (blkRead dev s sector).1.disk = s.disk := by
  rw [blkRead]
  split <;> rfl

theorem blkRead_buf (h : (blkRead dev s sector).2 ≠ false) :
    (blkRead dev s sector).1.secBuf = s.disk sector := by
  revert h
  rw [blkRead]
  split
  · exact fun _ => rfl
  · exact fun h => absurd rfl h

/-- A write is done, or it fails with the sector new or old. -/
theorem blkWrite_cases (dev : Device) (s : Fat32) (sector : Nat) :
    (blkWrite dev s sector).1.disk = update s.disk sector s.secBuf ∨
      (blkWrite dev s sector).2 = false ∧ (blkWrite dev s sector).1.disk = s.disk := by
  rw [blkWrite]
  split
  · exact .inl rfl
  · rename_i stored buf _
    cases stored
    · exact .inr ⟨rfl, rfl⟩
    · exact .inl rfl

theorem fatNext_disk (v : Volume) (dev : Device) (s : Fat32) (c : Nat) :
    (fatNext v dev s c).1.disk = s.disk := by
  rw [fatNext]
  split <;> exact blkRead_disk _ _ _

theorem fatNext_cases (v : Volume) (dev : Device) (s : Fat32) (c : Nat) :
    (fatNext v dev s c).2 = fat32Eoc ∨ (fatNext v dev s c).2 = nextCluster v s.disk c := by
  rw [fatNext]
  split
  · exact .inl rfl
  · rename_i hread
    refine .inr ?_
    rw [blkRead_buf hread]
    rfl

theorem blkRead_done (h : Done dev) (s : Fat32) (sector : Nat) :
    (blkRead dev s sector).2 = true := by
  rw [blkRead, h]

theorem blkWrite_done (h : Done dev) (s : Fat32) (sector : Nat) :
    (blkWrite dev s sector).2 = true := by
  rw [blkWrite, h]

theorem not_done_of_read {s : Fat32} {sector : Nat} (h : (blkRead dev s sector).2 = false) :
    ¬ Done dev :=
  fun hdone => Bool.noConfusion ((blkRead_done hdone s sector).symm.trans h)

theorem not_done_of_write {s : Fat32} {sector : Nat} (h : (blkWrite dev s sector).2 = false) :
    ¬ Done dev :=
  fun hdone => Bool.noConfusion ((blkWrite_done hdone s sector).symm.trans h)

theorem fatNext_done (v : Volume) (h : Done dev) (s : Fat32) (c : Nat) :
    (fatNext v dev s c).2 = nextCluster v s.disk c := by
  have hread := blkRead_done h s (fatSector v c)
  have hne : (blkRead dev s (fatSector v c)).2 ≠ false := by
    rw [hread]
    exact Bool.noConfusion
  rw [fatNext, if_neg hne, blkRead_buf hne]
  rfl

/-- A write of an entry is done, or it fails with the entry new or old. -/
theorem fatWrite_cases (v : Volume) (dev : Device) (s : Fat32) (c value : Nat) :
    (fatWrite v dev s c value).1.disk = setEntry v s.disk c value ∨
      (fatWrite v dev s c value).2 = false ∧ (fatWrite v dev s c value).1.disk = s.disk := by
  rw [fatWrite]
  split
  · exact .inr ⟨rfl, blkRead_disk _ _ _⟩
  · rename_i hread
    rcases blkWrite_cases dev { (blkRead dev s (fatSector v c)).1 with
      secBuf := storeN (blkRead dev s (fatSector v c)).1.secBuf (fatOffset c) 4
        (mergeEntry (loadN (blkRead dev s (fatSector v c)).1.secBuf (fatOffset c) 4) value) }
      (fatSector v c) with hnew | ⟨hfail, hold⟩
    · refine .inl (hnew.trans ?_)
      simp only [blkRead_disk, blkRead_buf hread]
      rfl
    · exact .inr ⟨hfail, hold.trans (blkRead_disk _ _ _)⟩

theorem not_done_of_fatWrite {value : Nat} (h : (fatWrite v dev s c value).2 = false) :
    ¬ Done dev := by
  rw [fatWrite] at h
  split at h
  · rename_i hread
    exact not_done_of_read hread
  · exact not_done_of_write h

/-- The disk after an allocation: a free cluster is marked, and it is what is returned,
    or the device failed or there is none. -/
theorem fatAllocFrom_cases (hg : Geometry v) (fuel : Nat) (s : Fat32) (c : Nat) (hc : 2 ≤ c)
    (hrow : c / 128 ≤ v.dataStartSector - v.fatStartSector) (hlt : c < 2 ^ 28) {r : Nat}
    (halloc : fatAllocFrom v dev fuel s c = some (s', r)) :
    (r = 0 ∧ s'.disk = s.disk ∧
        (Done dev → ∀ x, c ≤ x → Indexable v x → nextCluster v s.disk x ≠ 0)) ∨
      ∃ a, Indexable v a ∧ nextCluster v s.disk a = 0 ∧
        s'.disk = setEntry v s.disk a 0x0FFFFFFF ∧ (r = a ∨ r = 0 ∧ ¬ Done dev) := by
  fun_induction fatAllocFrom v dev fuel s c with
  | case1 => cases halloc
  | case2 fuel s c hout =>
    -- The search has left the table.
    cases halloc
    refine .inl ⟨rfl, rfl, fun _ x hx hindex => ?_⟩
    have hplace := (fatPlace hg (Nat.lt_of_le_of_lt hx hindex.2)).1
    have hbefore := fatEntries_row (Nat.lt_of_le_of_lt hx hindex.2)
    omega
  | case3 fuel s c _ _ hread =>
    cases halloc
    exact .inl ⟨rfl, blkRead_disk _ _ _, fun hdone => absurd hdone (not_done_of_read hread)⟩
  | case4 fuel s c hin t hread hfree w hfail =>
    cases halloc
    have hdisk := blkRead_disk dev s (fatSector v c)
    rw [blkRead_buf hread] at hfree
    rcases fatWrite_cases v dev t.1 c 0x0FFFFFFF with hnew | ⟨_, hold⟩
    · exact .inr ⟨c, indexable_of_sector hg hc hrow hlt (Nat.lt_of_not_le hin), hfree, hdisk ▸ hnew,
        .inr ⟨rfl, not_done_of_fatWrite hfail⟩⟩
    · exact .inl ⟨rfl, hold.trans hdisk, fun hdone => absurd hdone (not_done_of_fatWrite hfail)⟩
  | case5 fuel s c hin t hread hfree w hok =>
    rw [blkRead_buf hread] at hfree
    have hnew := (fatWrite_cases v dev t.1 c 0x0FFFFFFF).resolve_right fun hc => hok hc.1
    rw [blkRead_disk] at hnew
    cases halloc
    exact .inr ⟨_, indexable_of_sector hg hc hrow hlt (Nat.lt_of_not_le hin), hfree, hnew, .inl rfl⟩
  | case6 fuel s c hin t hread hused ih =>
    have hindex := indexable_of_sector hg hc hrow hlt (Nat.lt_of_not_le hin)
    rcases indexable_next hg hindex with ⟨hnext, hrow', hlt'⟩
    rw [hnext] at ih halloc
    rw [blkRead_disk] at ih
    rw [blkRead_buf hread] at hused
    refine (ih (by omega) hrow' hlt' halloc).imp_left fun hnone =>
      ⟨hnone.1, hnone.2.1, fun hdone x hx hindex' => ?_⟩
    rcases Nat.eq_or_lt_of_le hx with rfl | hlater
    · exact hused
    · exact hnone.2.2 hdone x hlater hindex'

theorem fatAlloc_cases (hg : Geometry v) {fuel : Nat} {r : Nat}
    (halloc : fatAllocCluster v dev fuel s = some (s', r)) :
    (r = 0 ∧ s'.disk = s.disk ∧ (Done dev → ∀ x, Indexable v x → nextCluster v s.disk x ≠ 0)) ∨
      ∃ a, Indexable v a ∧ nextCluster v s.disk a = 0 ∧
        s'.disk = setEntry v s.disk a 0x0FFFFFFF ∧ (r = a ∨ r = 0 ∧ ¬ Done dev) := by
  have hcases := fatAllocFrom_cases hg fuel s 2 (Nat.le_refl 2) (Nat.zero_le _) (by decide) halloc
  exact hcases.imp_left fun hnone =>
    ⟨hnone.1, hnone.2.1, fun hdone x hx => hnone.2.2 hdone x hx.1 hx⟩

end

end CortexForge.Fat32
