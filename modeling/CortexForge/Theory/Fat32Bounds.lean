import CortexForge.Theory.Fat32Dirs
import Mathlib.Tactic.IntervalCases

/-!
# Where the Allocator Searches

`fat_alloc_cluster` searches the table from cluster 2 on until the entry of a cluster
would lie behind `data_start_sector`. That bound is where the last copy of the table
ends. The clusters of the volume end earlier, at the number its sectors allow, and the
first copy of the table ends at `fat_size_32` sectors. Between the two lie the entries
that pad the last sector of the table and the other copies, which the search takes for
entries of further clusters.

`Reached` are the clusters the bound lets the search come to. The cluster counter wraps
at 32 bits and the entries repeat after `2 ^ 30` clusters, so a search that has come
around has seen every entry there is. `Scanning` keeps track of both cases.

## Main definitions

* `clusterLimit`: The end of the clusters a volume has.
* `InVolume`: A cluster of the volume, with its sectors in the data area.
* `InFirstFat`: A cluster with its entry in the first copy of the table.
* `EntryRead`: The entry of a cluster is read by the search.
* `Reached`: A cluster the bound of the search covers.

## Theorems

* `entryRead_scanning`: What the search reads comes after used entries only.
* `alloc_read`: What the search returns is read and free.
* `scan_passes`: On a device that works the search passes all used entries.
* `allocator_inside_iff`: The allocator stays in the volume and in the first copy of
  the table exactly when it does not come to the end of either.
-/

namespace CortexForge.Fat32

/-- The sectors of the volume, by its boot sector. -/
def totalSectors32 (boot : Memory) : Nat := loadN boot 32 4

/-- The sectors of one copy of the table, by the boot sector. -/
def fatSize32 (boot : Memory) : Nat := loadN boot 36 4

def clusterLimit (boot : Memory) (v : Volume) : Nat :=
  2 + (totalSectors32 boot - v.dataStartSector) / v.sectorsPerCluster

def InVolume (boot : Memory) (v : Volume) (c : Nat) : Prop :=
  2 ≤ c ∧ c < clusterLimit boot v ∧
    ∀ k < v.sectorsPerCluster, v.dataStartSector ≤ clusterToSector v c + k ∧
      clusterToSector v c + k < totalSectors32 boot

def InFirstFat (boot : Memory) (v : Volume) (c : Nat) : Prop :=
  fatSector v c < v.fatStartSector + fatSize32 boot

/-- The search comes to a cluster, past the entries before it, and does not stop at its
    bound: it reads the entry. -/
def EntryRead (v : Volume) (dev : Device) (s : Fat32) (c : Nat) : Prop :=
  ∃ n, fatAllocCluster v dev n s = none ∧ c = wrap32 (2 + n) ∧ fatSector v c < v.dataStartSector

/-- The bound of the search covers a cluster and all before it. -/
def Reached (v : Volume) (c : Nat) : Prop :=
  2 ≤ c ∧ c < 2 ^ 32 ∧ ∀ x, 2 ≤ x → x ≤ c → fatSector v x < v.dataStartSector

/-- A search has come to `c`: past used entries from 2 on, or around, when all entries
    are used. -/
def Scanning (v : Volume) (d : Disk) (c : Nat) : Prop :=
  (2 ≤ c ∧ c < 2 ^ 32 ∧
      ∀ x, 2 ≤ x → x < c → fatSector v x < v.dataStartSector ∧ nextCluster v d x ≠ 0) ∨
    ∀ x, fatSector v x < v.dataStartSector ∧ nextCluster v d x ≠ 0

section

variable {v : Volume} {d : Disk} {c : Nat}

/-- The place of an entry is a 32-bit number of bytes, so entries repeat. -/
theorem fatSector_repeats (v : Volume) (c : Nat) :
    fatSector v (c % 2 ^ 30 + 2 ^ 30) = fatSector v c ∧
      fatOffset (c % 2 ^ 30 + 2 ^ 30) = fatOffset c := by
  have hplace : wrap32 ((c % 2 ^ 30 + 2 ^ 30) * 4) = wrap32 (c * 4) := by
    unfold wrap32
    omega
  unfold fatSector fatOffset
  rw [hplace]
  exact ⟨rfl, rfl⟩

theorem scanning_next (h : Scanning v d c) (hin : fatSector v c < v.dataStartSector)
    (hused : nextCluster v d c ≠ 0) : Scanning v d (wrap32 (c + 1)) := by
  rcases h with ⟨hlow, _, hpast⟩ | hall
  · have hseen : ∀ x, 2 ≤ x → x ≤ c →
        fatSector v x < v.dataStartSector ∧ nextCluster v d x ≠ 0 := by
      intro x hx hle
      rcases Nat.eq_or_lt_of_le hle with rfl | hlt
      · exact ⟨hin, hused⟩
      · exact hpast x hx hlt
    by_cases hwrap : c + 1 < 2 ^ 32
    · rw [wrap32, Nat.mod_eq_of_lt hwrap]
      exact .inl ⟨by omega, hwrap, fun x hx hlt => hseen x hx (by omega)⟩
    · -- The counter is back at 0, and every entry has been seen under some number.
      refine .inr fun x => ?_
      have hrep := fatSector_repeats v x
      have hagain := hseen (x % 2 ^ 30 + 2 ^ 30) (by omega) (by omega)
      rwa [nextCluster, fatEntry, hrep.1, hrep.2] at hagain
  · exact .inr hall

/-- Where the search has come to, or else every entry is used. -/
theorem scanning_reached (h : Scanning v d c) (hin : fatSector v c < v.dataStartSector) :
    (Reached v c ∧ ∀ x, 2 ≤ x → x < c → nextCluster v d x ≠ 0) ∨
      ∀ x, fatSector v x < v.dataStartSector ∧ nextCluster v d x ≠ 0 := by
  refine h.imp_left fun ⟨hlow, hlt, hpast⟩ => ⟨⟨hlow, hlt, fun x hx hle => ?_⟩, fun x hx hlt =>
    (hpast x hx hlt).2⟩
  rcases Nat.eq_or_lt_of_le hle with rfl | hlt
  · exact hin
  · exact (hpast x hx hlt).1

theorem reached_below {x : Nat} (hc : Reached v c) (hx : 2 ≤ x) (hle : x ≤ c) : Reached v x :=
  ⟨hx, Nat.lt_of_le_of_lt hle hc.2.1, fun y hy hyx => hc.2.2 y hy (Nat.le_trans hyx hle)⟩

variable {dev : Device}

/-- A pass that does not end the search is over a used entry. -/
theorem pass_of_none {n : Nat} {s : Fat32} (hd : s.disk = d)
    (hnone : fatAllocFrom v dev (n + 1) s c = none) :
    fatSector v c < v.dataStartSector ∧ nextCluster v d c ≠ 0 ∧
      fatAllocFrom v dev n (blkRead dev s (fatSector v c)).1 (wrap32 (c + 1)) = none := by
  simp only [fatAllocFrom] at hnone
  split_ifs at hnone with hout hread hfree
  rw [blkRead_buf hread, hd] at hfree
  exact ⟨Nat.lt_of_not_le hout, hfree, hnone⟩

theorem scanning_passes (n : Nat) : ∀ s c, s.disk = d → c < 2 ^ 32 → Scanning v d c →
    fatAllocFrom v dev n s c = none → Scanning v d (wrap32 (c + n)) := by
  induction n with
  | zero =>
    intro s c _ hlt h _
    rwa [Nat.add_zero, wrap32, Nat.mod_eq_of_lt hlt]
  | succ n ih =>
    intro s c hd _ h hnone
    rcases pass_of_none hd hnone with ⟨hin, hused, hrest⟩
    have hgo := ih _ (wrap32 (c + 1)) ((blkRead_disk dev s _).trans hd) (Nat.mod_lt _ (by decide))
      (scanning_next h hin hused) hrest
    rwa [show wrap32 (wrap32 (c + 1) + n) = wrap32 (c + (n + 1)) by unfold wrap32; omega] at hgo

theorem entryRead_scanning {s : Fat32} (hd : s.disk = d) (h : EntryRead v dev s c) :
    fatSector v c < v.dataStartSector ∧ Scanning v d c := by
  rcases h with ⟨n, hnone, rfl, hin⟩
  refine ⟨hin, scanning_passes n s 2 hd (by decide) ?_ hnone⟩
  exact .inl ⟨Nat.le_refl 2, by decide, by omega⟩

theorem alloc_read {s' : Fat32} {a : Nat} (ha : a ≠ 0) (fuel : Nat) : ∀ s c, s.disk = d →
    c < 2 ^ 32 → fatAllocFrom v dev fuel s c = some (s', a) →
    ∃ n, fatAllocFrom v dev n s c = none ∧ a = wrap32 (c + n) ∧
      fatSector v a < v.dataStartSector ∧ nextCluster v d a = 0 := by
  induction fuel with
  | zero =>
    intro s c _ _ halloc
    cases halloc
  | succ fuel ih =>
    intro s c hd hlt halloc
    simp only [fatAllocFrom] at halloc
    split_ifs at halloc with hout hread hfree hwrite
    · cases halloc
      exact absurd rfl ha
    · cases halloc
      exact absurd rfl ha
    · cases halloc
      exact absurd rfl ha
    · -- This entry is free, and it is the one that is taken.
      rw [blkRead_buf hread, hd] at hfree
      cases halloc
      exact ⟨0, rfl, (Nat.mod_eq_of_lt hlt).symm, Nat.lt_of_not_le hout, hfree⟩
    · rcases ih _ _ ((blkRead_disk dev s _).trans hd) (Nat.mod_lt _ (by decide)) halloc with
        ⟨n, hnone, han, hin, hzero⟩
      refine ⟨n + 1, ?_, ?_, hin, hzero⟩
      · simp only [fatAllocFrom, if_neg hout, if_neg hread, if_neg hfree]
        exact hnone
      · rw [han]
        unfold wrap32
        omega

/-- A working device lets the search pass entries that are used. -/
theorem scan_passes (hdone : Done dev) (n m : Nat) : ∀ s c, s.disk = d → c + n < 2 ^ 32 →
    (∀ x, c ≤ x → x < c + n → fatSector v x < v.dataStartSector ∧ nextCluster v d x ≠ 0) →
    ∃ s1 : Fat32, s1.disk = d ∧
      fatAllocFrom v dev (n + m) s c = fatAllocFrom v dev m s1 (c + n) := by
  induction n with
  | zero => exact fun s c hd _ _ => ⟨s, hd, by rw [Nat.zero_add, Nat.add_zero]⟩
  | succ n ih =>
    intro s c hd hlt hpass
    rcases hpass c (Nat.le_refl c) (by omega) with ⟨hin, hused⟩
    have hread : (blkRead dev s (fatSector v c)).2 ≠ false := by simp [blkRead_done hdone]
    rcases ih (blkRead dev s (fatSector v c)).1 (c + 1) ((blkRead_disk dev s _).trans hd) (by omega)
      (fun x hx hxn => hpass x (by omega) (by omega)) with ⟨s1, hd1, hrest⟩
    rw [show n + 1 + m = n + m + 1 by omega, show c + (n + 1) = c + 1 + n by omega]
    refine ⟨s1, hd1, ?_⟩
    rw [← hd, nextCluster, fatEntry, ← blkRead_buf hread] at hused
    simp only [fatAllocFrom, if_neg (Nat.not_le_of_lt hin), if_neg hread, if_neg hused]
    rw [wrap32, Nat.mod_eq_of_lt (by omega)]
    exact hrest

/-- On a working device the search reads the first cluster it may that is free, and
    those before it. -/
theorem scan_reads (hdone : Done dev) {s : Fat32} (hd : s.disk = d) (hc : Reached v c)
    (hbefore : ∀ x, 2 ≤ x → x < c → nextCluster v d x ≠ 0) :
    (∀ x, 2 ≤ x → x ≤ c → EntryRead v dev s x) ∧
      (nextCluster v d c = 0 → ∃ fuel s', fatAllocCluster v dev fuel s = some (s', c)) := by
  rcases hc with ⟨hlow, hlt, hin⟩
  have hpass : ∀ x, 2 ≤ x → x ≤ c → ∀ m, ∃ s1 : Fat32, s1.disk = d ∧
      fatAllocFrom v dev (x - 2 + m) s 2 = fatAllocFrom v dev m s1 x := by
    intro x hx hxc m
    have hgo := @scan_passes v d dev hdone (x - 2) m s 2 hd (by omega) fun y hy hyx =>
      ⟨hin y hy (by omega), hbefore y hy (by omega)⟩
    rwa [show 2 + (x - 2) = x by omega] at hgo
  refine ⟨fun x hx hxc => ?_, fun hfree => ?_⟩
  · rcases hpass x hx hxc 0 with ⟨s1, _, hnone⟩
    exact ⟨x - 2, hnone, by unfold wrap32; omega, hin x hx hxc⟩
  · rcases hpass c hlow (Nat.le_refl c) 1 with ⟨s1, hd1, halloc⟩
    have hread : (blkRead dev s1 (fatSector v c)).2 ≠ false := by simp [blkRead_done hdone]
    rw [← hd1, nextCluster, fatEntry, ← blkRead_buf hread] at hfree
    refine ⟨c - 2 + 1, (fatWrite v dev (blkRead dev s1 (fatSector v c)).1 c 0x0FFFFFFF).1,
      halloc.trans ?_⟩
    simp only [fatAllocFrom, if_neg (Nat.not_le_of_lt (hin c hlow (Nat.le_refl c))), if_neg hread,
      if_pos hfree]
    exact if_neg fun hfail => not_done_of_fatWrite hfail hdone

end

/-- A cluster below the limit has its sectors in the data area. -/
theorem inVolume_of_lt {boot : Memory} {v : Volume} {c : Nat} (hstart : v.dataStartSector < 2 ^ 32)
    (hlow : 2 ≤ c) (hlt : c < clusterLimit boot v) : InVolume boot v c := by
  refine ⟨hlow, hlt, fun k hk => ?_⟩
  have htotal : totalSectors32 boot < 2 ^ 32 := loadN_lt boot 4 32
  have hlim : (c - 2 + 1) * v.sectorsPerCluster ≤ totalSectors32 boot - v.dataStartSector := by
    rw [← Nat.le_div_iff_mul_le (by omega)]
    unfold clusterLimit at hlt
    omega
  rw [Nat.add_mul] at hlim
  have hsector : clusterToSector v c = v.dataStartSector + (c - 2) * v.sectorsPerCluster := by
    have hmul : c - 2 ≤ (c - 2) * v.sectorsPerCluster := Nat.le_mul_of_pos_right _ (by omega)
    have hsub : sub32 c 2 = c - 2 := by
      unfold sub32 wrap32
      omega
    rw [clusterToSector, hsub, wrap32, wrap32, Nat.mod_eq_of_lt (b := 2 ^ 32) (by omega),
      Nat.mod_eq_of_lt (by omega)]
  omega

/-- Where the allocator searches. On a mounted volume with any table, every cluster
    `fat_alloc_cluster` returns is one of the volume, with its sectors in the data area,
    and every entry it reads is in the first copy of the table, whatever the device does,
    exactly when the search stops in time: some cluster of the volume is free and its
    entry, with all before it, is in the first copy, or the bound covers entries of the
    first copy only and none of them is free. -/
theorem allocator_inside_iff (dev0 : Device) (s0 s : Fat32) (v : Volume)
    (hmount : fat32Mount dev0 s0 = (s, some v)) :
    ((∀ dev fuel s' c, fatAllocCluster v dev fuel s = some (s', c) → c ≠ 0 →
          InVolume (s0.disk 0) v c) ∧
        ∀ dev c, EntryRead v dev s c → InFirstFat (s0.disk 0) v c) ↔
      (∃ c, Reached v c ∧ c < clusterLimit (s0.disk 0) v ∧ nextCluster v s0.disk c = 0 ∧
          ∀ x, 2 ≤ x → x ≤ c → InFirstFat (s0.disk 0) v x) ∨
        ∀ c, Reached v c → nextCluster v s0.disk c ≠ 0 ∧ InFirstFat (s0.disk 0) v c := by
  have hd : s.disk = s0.disk := by
    have := blkRead_disk dev0 s0 0
    unfold fat32Mount at hmount
    grind -linarith
  have hstart : v.dataStartSector < 2 ^ 32 := by
    unfold fat32Mount wrap32 at hmount
    grind -linarith
  constructor
  · rintro ⟨hinside, hfirst⟩
    have hdone : Done (fun _ => .done) := fun _ => rfl
    by_cases hfree : ∃ c, Reached v c ∧ nextCluster v s0.disk c = 0
    · -- The least free cluster under the bound is the one that is returned.
      classical
      have hmin := Nat.find_spec hfree
      have hbefore : ∀ x, 2 ≤ x → x < Nat.find hfree → nextCluster v s0.disk x ≠ 0 :=
        fun x hx hlt hzero =>
          Nat.find_min hfree hlt ⟨reached_below hmin.1 hx (Nat.le_of_lt hlt), hzero⟩
      rcases scan_reads hdone hd hmin.1 hbefore with ⟨hread, halloc⟩
      rcases halloc hmin.2 with ⟨fuel, s', hrun⟩
      have hlow := hmin.1.1
      have hvolume := hinside _ fuel s' _ hrun (by omega)
      exact .inl ⟨_, hmin.1, hvolume.2.1, hmin.2, fun x hx hxc => hfirst _ x (hread x hx hxc)⟩
    · -- Without one the search reads everything under the bound.
      have hused : ∀ c, Reached v c → nextCluster v s0.disk c ≠ 0 :=
        fun c hc hzero => hfree ⟨c, hc, hzero⟩
      refine .inr fun c hc => ⟨hused c hc, ?_⟩
      have hread := (scan_reads hdone hd hc fun x hx hlt =>
        hused x (reached_below hc hx (Nat.le_of_lt hlt))).1
      exact hfirst _ c (hread c hc.1 (Nat.le_refl c))
  · intro hcond
    refine ⟨fun dev fuel s' c halloc hne => ?_, fun dev x hx => ?_⟩
    · rcases alloc_read hne fuel s 2 hd (by decide) halloc with ⟨n, hnone, hcn, hin, hzero⟩
      have hscan := (entryRead_scanning hd ⟨n, hnone, hcn, hin⟩).2
      -- All entries before it are used, so it is not behind the free one of the condition.
      rcases scanning_reached hscan hin with ⟨hc, hbefore⟩ | hall
      · rcases hcond with ⟨c1, hc1, hlimit, hfree, _⟩ | hfull
        · refine inVolume_of_lt hstart hc.1 (Nat.lt_of_le_of_lt
            (Nat.le_of_not_lt fun hlt => ?_) hlimit)
          exact hbefore c1 hc1.1 hlt hfree
        · exact absurd hzero (hfull c hc).1
      · exact absurd hzero (hall c).2
    · rcases entryRead_scanning hd hx with ⟨hin, hscan⟩
      rcases scanning_reached hscan hin with ⟨hreached, hbefore⟩ | hall
      · rcases hcond with ⟨c1, hc1, _, hfree, hfirst⟩ | hfull
        · refine hfirst x hreached.1 (Nat.le_of_not_lt fun hlt => ?_)
          exact hbefore c1 hc1.1 hlt hfree
        · exact (hfull x hreached).2
      · rcases hcond with ⟨c1, _, _, hfree, _⟩ | hfull
        · exact absurd hfree (hall c1).2
        · -- Every entry is under the bound, and this one is there under a small number, too.
          have hrep := fatSector_repeats v x
          have hlast := (hfull (x % 2 ^ 30 + 2 ^ 30)
            ⟨by omega, by omega, fun y _ _ => (hall y).1⟩).2
          rwa [InFirstFat, hrep.1] at hlast

/-- The boot sector of a volume with sectors of 512 bytes as clusters and copies of the
    table of one sector each. -/
def smallBoot (fats total : Nat) : Memory :=
  storeN (storeN (storeN (storeN (storeN (storeN (storeN (fun _ => 0#8) 11 2 512) 13 1 1) 14 2 1)
    16 1 fats) 32 4 total) 36 4 1) 44 4 2

/-- The small table in several copies behind such a boot sector. -/
def copiedTable (fats total : Nat) : Fat32 :=
  ⟨fun sector =>
      if sector = 0 then smallBoot fats total
      else if sector ≤ fats then smallTable else fun _ => 0#8,
    fun _ => 0#8, 0⟩

/-- The volume that is mounted with two copies. -/
def copiedVolume : Volume := { smallVolume with dataStartSector := 3 }

/-- The volumes that the small disks are mounted as. -/
theorem copied_mounts :
    (fat32Mount (fun _ => .done) (copiedTable 1 9)).2 = some smallVolume ∧
      (fat32Mount (fun _ => .done) (copiedTable 2 7)).2 = some copiedVolume ∧
      (fat32Mount (fun _ => .done) (copiedTable 2 9)).2 = some copiedVolume := by
  decide

/-- A volume of four clusters, two of them taken: the third is handed out. -/
theorem allocator_inside_four :
    ∃ s, fat32Mount (fun _ => .done) (copiedTable 2 7) = (s, some copiedVolume) ∧
      ∀ dev fuel s' c, fatAllocCluster copiedVolume dev fuel s = some (s', c) → c ≠ 0 →
        InVolume ((copiedTable 2 7).disk 0) copiedVolume c := by
  have hmount : fat32Mount (fun _ => .done) (copiedTable 2 7) =
      ((fat32Mount (fun _ => .done) (copiedTable 2 7)).1, some copiedVolume) :=
    Prod.ext rfl copied_mounts.2.1
  refine ⟨_, hmount, ((allocator_inside_iff _ _ _ _ hmount).mpr (.inl ⟨4, ?_, ?_, ?_, ?_⟩)).1⟩
  · refine ⟨by decide, by decide, fun x hx hle => ?_⟩
    interval_cases x <;> decide
  · decide
  · decide
  · intro x hx hle
    unfold InFirstFat
    interval_cases x <;> decide +kernel

/-- A full volume of two clusters. The entry behind theirs pads the table and is 0, and
    the allocator hands out cluster 4, whose sector is behind the end of the volume. -/
theorem allocator_past_end :
    (fat32Mount (fun _ => .done) (copiedTable 2 5)).2 = some copiedVolume ∧
      (fatAllocCluster copiedVolume (fun _ => .done) 9
        (fat32Mount (fun _ => .done) (copiedTable 2 5)).1).map Prod.snd = some 4 ∧
      clusterLimit (smallBoot 2 5) copiedVolume = 4 ∧
      clusterToSector copiedVolume 4 = totalSectors32 (smallBoot 2 5) := by
  decide +kernel

end CortexForge.Fat32
