import CortexForge.Theory.Fat32Bounds
import CortexForge.Theory.Fat32RoundTrip

/-!
# Volumes as They Come

A mounted volume has the numbers of its boot sector, whatever they are: only the size of
a sector and the fields of older formats are looked at.

The clusters of a new file are counted in 32 bits. The count is right if a cluster has
some bytes and the sum with the length stays below `2 ^ 32`, and then the chain holds
all of the data. Otherwise it may be 0, and a file with a size has no data.

Searches and reads follow the table wherever it leads. A search is over at the first
cluster that has the name or the end of the directory, and goes round for ever in a ring
of clusters that have neither. A read stops at its length, if clusters have sectors.

## Main definitions

* `clusterAt`: The chain from a cluster on.
* `EndsAt`, `PathEnds`: Where a search is over.

## Theorems

* `clusters_reserved`: The number of clusters a new file is given.
* `dirLookup_ends`, `readChain_ends`, `findFrom_ends`: When the loops are over.
* `searches_end_iff`: The volumes on which searches and reads end.
-/

namespace CortexForge.Fat32

/-- A mounted volume has clusters of less than 256 sectors. -/
theorem mounted_bytes {dev : Device} {s s' : Fat32} {v : Volume}
    (hmount : fat32Mount dev s = (s', some v)) :
    v.sectorsPerCluster < 256 ∧ v.bytesPerCluster = v.sectorsPerCluster * sectorSize := by
  unfold fat32Mount at hmount
  have hlt : loadN (blkRead dev s 0).1.secBuf 13 1 < 256 ^ 1 := loadN_lt _ _ _
  generalize blkRead dev s 0 = r at hmount hlt
  dsimp only at hmount
  split_ifs at hmount <;> cases hmount
  exact ⟨hlt, rfl⟩

/-- The clusters of a new file are enough for it, for a volume with clusters of some
    sectors and data that is a cluster shorter than `2 ^ 32`. Then a file that was
    created has all of its data in its chain. -/
theorem clusters_reserved {dev0 : Device} {s0 s : Fat32} {v : Volume} {len : Nat}
    (hmount : fat32Mount dev0 s0 = (s, some v)) (hpos : 0 < len) (hlt : len < 2 ^ 32) :
    (v.bytesPerCluster ≠ 0 ∧
        clustersNeeded v len = (len + v.bytesPerCluster - 1) / v.bytesPerCluster ↔
      v.sectorsPerCluster ≠ 0 ∧ len + v.bytesPerCluster ≤ 2 ^ 32) ∧
    (len + v.bytesPerCluster ≤ 2 ^ 32 → ∀ dev isDir t path data fuel t',
      Done dev → WellFormed v t.disk isDir →
      fat32Create dev v fuel t path data len = some (t', true) →
      ∃ k cs p first got, isDir k ∧ Chain v t.disk k cs ∧ p ∈ dirSlots v cs ∧
        foundAt t'.disk p = ⟨first, len, attrArchive⟩ ∧ Chain v t'.disk first got ∧
        len ≤ got.length * v.bytesPerCluster ∧ ∀ n < len, contents v t'.disk got n = data n) := by
  rcases mounted_bytes hmount with ⟨hsectors, hbytes⟩
  constructor
  · rw [hbytes, clustersNeeded, if_neg (Nat.pos_iff_ne_zero.mp hpos), hbytes,
      sectorSize]
    generalize hb : v.sectorsPerCluster * 512 = b at *
    refine ⟨fun h => ⟨by omega, ?_⟩, fun h => ⟨by omega, ?_⟩⟩
    · by_contra hover
      have hwrapped : sub32 (wrap32 (len + b)) 1 = len + b - 1 - 2 ^ 32 := by
        unfold sub32 wrap32
        omega
      -- A whole turn of the numbers is missing, which is a cluster at least.
      have hless : (len + b - 1 - 2 ^ 32) / b < (len + b - 1) / b := by
        rw [Nat.div_lt_iff_lt_mul (by omega)]
        have := Nat.lt_div_mul_add (a := len + b - 1) (b := b) (by omega)
        omega
      rw [hwrapped] at h
      omega
    · have hexact : sub32 (wrap32 (len + b)) 1 = len + b - 1 := by
        unfold sub32 wrap32
        omega
      rw [hexact]
  · intro hsum dev isDir t path data fuel t' hdone h hcreate
    have hg := h.geometry
    rcases create_stored h hdone hsum hcreate with
      ⟨_, k, cs, got, d, p, first, hk, hcs, _, hgrown, hroom, hfirst, hdata, hp, hdisk⟩
    rcases hfirst with ⟨hzero, _⟩ | ⟨hchain, hmem⟩
    · omega
    have hcluster : first < 2 ^ 32 := by
      have hlow := indexable_lt hg (hgrown.closed first hmem).1
      rw [fat32Eoc] at hlow
      omega
    have hstored := stored_contents h hcs hgrown hp (.inr ⟨hchain, hmem⟩) hdata
      (dirEntry (target (splitPath path).2) first len)
    rw [← hdisk] at hstored
    refine ⟨k, cs, p, first, got, hk, hcs, (freeIn_some hp).1, ?_,
      hstored.1.resolve_left (by omega),
      hroom, fun n hn => ?_⟩
    · rw [hdisk]
      exact (fill_fields d p hcluster hlt).2
    · exact List.map_inj_left.mp hstored.2 n (List.mem_range.mpr hn)

/-- A file of 600 bytes is given two clusters of one sector, and its data is there. -/
theorem clusters_reserved_two : clustersNeeded smallVolume 600 = 2 ∧
    ∃ t' first got, fat32Create (fun _ => .done) smallVolume 200 oneFile secondPath
        (BitVec.ofNat 8) 600 = some (t', true) ∧
      Chain smallVolume t'.disk first got ∧ 600 ≤ got.length * smallVolume.bytesPerCluster ∧
      ∀ n < 600, contents smallVolume t'.disk got n = BitVec.ofNat 8 n := by
  have hmount : fat32Mount (fun _ => .done) (copiedTable 1 9) =
      ((fat32Mount (fun _ => .done) (copiedTable 1 9)).1, some smallVolume) :=
    Prod.ext rfl copied_mounts.1
  have hrun : (fat32Create (fun _ => .done) smallVolume 200 oneFile secondPath (BitVec.ofNat 8)
      600).map Prod.snd = some true := by rfl
  rcases Option.map_eq_some_iff.mp hrun with ⟨⟨t', ok⟩, hcreate, rfl⟩
  rcases clusters_reserved hmount (by decide : 0 < 600) (by decide) with ⟨hcount, hstored⟩
  rcases hstored (by decide) _ _ _ _ _ _ _ (fun _ => rfl) oneFile_wellFormed hcreate with
    ⟨_, _, _, first, got, _, _, _, _, hchain, hroom, hdata⟩
  exact ⟨(hcount.mpr (by decide)).2, t', first, got, hcreate, hchain, hroom, hdata⟩

/-- A file of `2 ^ 32 - 1` bytes is created, and has no cluster at all. -/
theorem long_file_empty :
    (fat32Mount (fun _ => .done) (copiedTable 1 9)).2 = some smallVolume ∧
      (fat32Create (fun _ => .done) smallVolume 9 (copiedTable 1 9) secondPath (fun _ => 7#8)
        (2 ^ 32 - 1)).map (fun r => (r.2, foundAt r.1.disk (2, 0))) =
          some (true, ⟨0, 2 ^ 32 - 1, attrArchive⟩) := by
  exact ⟨copied_mounts.1, by decide⟩

section

variable {v : Volume} {dev : Device} {d : Disk} {name : List Byte}

/-- The cluster after `n` steps along the table. -/
def clusterAt (v : Volume) (d : Disk) (c n : Nat) : Nat := (nextCluster v d)^[n] c

/-- What a search for a name makes of a cluster of a directory. -/
def clusterScan (v : Volume) (d : Disk) (name : List Byte) (c : Nat) : Scan Found :=
  if c < fat32Eoc then lookupIn d name (sectorSlots v.sectorsPerCluster (clusterToSector v c))
  else .stop

/-- The `n`-th cluster is the first one that has the name or the end of the directory. -/
def EndsAt (v : Volume) (d : Disk) (name : List Byte) (c n : Nat) : Prop :=
  (∀ k < n, clusterScan v d name (clusterAt v d c k) = .more) ∧
    clusterScan v d name (clusterAt v d c n) ≠ .more

/-- Every directory on a path is at its end, or at the next component, after less than
    `bound` clusters. -/
def PathEnds (v : Volume) (d : Disk) (bound : Nat) : Nat → Nat → List Byte → Prop
  | 0, _, _ => True
  | m + 1, c, path =>
      path = [] ∨ ∃ n < bound, EndsAt v d (target (firstComponent path)) c n ∧
        ∀ f, clusterScan v d (target (firstComponent path)) (clusterAt v d c n) = .hit f →
          otherComponents path ≠ [] → f.attr &&& attrDirectory ≠ 0#8 →
          PathEnds v d bound m f.cluster (otherComponents path)

theorem endsAt_zero {c : Nat} : EndsAt v d name c 0 ↔ clusterScan v d name c ≠ .more :=
  ⟨And.right, fun h => ⟨fun _ hk => absurd hk (Nat.not_lt_zero _), h⟩⟩

theorem endsAt_succ {c n : Nat} : EndsAt v d name c (n + 1) ↔
    clusterScan v d name c = .more ∧ EndsAt v d name (nextCluster v d c) n := by
  unfold EndsAt clusterAt
  simp only [Nat.forall_lt_succ_left', Function.iterate_succ_apply, Function.iterate_zero_apply,
    and_assoc]

/-- A search that is not over after `fuel` clusters is at none of their ends. -/
theorem dirLookup_ends (hdone : Done dev) (fuel : Nat) : ∀ (s : Fat32) (c : Nat), s.disk = d →
    (∀ n < fuel, ¬ EndsAt v d name c n) ∧ dirLookup v dev name fuel s c = none ∨
      ∃ n < fuel, EndsAt v d name c n ∧ ∃ s', s'.disk = d ∧ dirLookup v dev name fuel s c =
        some (s', (clusterScan v d name (clusterAt v d c n)).found) := by
  induction fuel with
  | zero => exact fun s c _ => .inl ⟨fun _ hn => absurd hn (Nat.not_lt_zero _), rfl⟩
  | succ fuel ih =>
    intro s c hd
    have hlook := @lookupSectors_cases dev name d v.sectorsPerCluster s (clusterToSector v c) hd
    have hturn : c < fat32Eoc → (lookupSectors dev name v.sectorsPerCluster s
        (clusterToSector v c)).2 = clusterScan v d name c := by grind -linarith [clusterScan]
    rw [dirLookup]
    by_cases hmore : clusterScan v d name c = .more
    · -- the scan goes on, so the cluster it ends at lies one further for `c`
      have hc : c < fat32Eoc := by grind -linarith [clusterScan]
      simp only [if_pos hc, hturn hc, hmore]
      rw [fatNext_done v hdone, hlook.1]
      rcases ih _ (nextCluster v d c) ((fatNext_disk v dev _ c).trans hlook.1) with
        ⟨hnone, hrun⟩ | ⟨n, hn, hend, hrun⟩
      · refine .inl ⟨fun n hn => ?_, hrun⟩
        cases n <;> grind -linarith [endsAt_zero, endsAt_succ]
      · exact .inr ⟨n + 1, by omega, endsAt_succ.mpr ⟨hmore, hend⟩, hrun⟩
    · refine .inr ⟨0, Nat.succ_pos _, endsAt_zero.mpr hmore, ?_⟩
      by_cases hc : c < fat32Eoc
      · rw [if_pos hc]
        simp only [clusterAt, Function.iterate_zero_apply]
        grind -linarith [Scan.found]
      · have hstop : clusterScan v d name c = .stop := if_neg hc
        refine ⟨s, hd, ?_⟩
        rw [if_neg hc, clusterAt, Function.iterate_zero_apply, hstop]
        rfl

/-- A loop over some sectors makes what is left to read smaller. -/
theorem readSectors_less (hdone : Done dev) (k : Nat) (s : Fat32) (sector : Nat) (out : List Byte)
    (remaining : Nat) : (readSectors dev k s sector out remaining).2.1 = true ∧
      (readSectors dev k s sector out remaining).2.2.2 ≤ remaining ∧
      (0 < remaining → ((readSectors dev k s sector out remaining).2.2.2 = remaining ↔ k = 0)) := by
  induction k generalizing s sector out remaining with
  | zero => exact ⟨rfl, Nat.le_refl _, fun _ => iff_of_true rfl rfl⟩
  | succ k ih =>
    rw [readSectors]
    by_cases hzero : remaining = 0
    · rw [if_pos hzero]
      exact ⟨rfl, Nat.le_refl _, fun hpos => absurd hzero (Nat.ne_of_gt hpos)⟩
    · rw [if_neg hzero]
      simp only [blkRead_done hdone, Bool.true_eq_false, if_false]
      have hchunk : 0 < chunkOf remaining := by
        unfold chunkOf sectorSize
        split <;> omega
      rcases ih _ _ _ _ with ⟨hok, hle, _⟩
      exact ⟨hok, by omega, fun _ => iff_of_false (by omega) (Nat.succ_ne_zero k)⟩

theorem readChain_ends (hdone : Done dev) (fuel : Nat) : ∀ (s : Fat32) (c : Nat) (out : List Byte)
    (remaining : Nat), s.disk = d →
    ((readChain v dev fuel s c out remaining).isSome →
      0 < v.sectorsPerCluster ∨ remaining = 0 ∨ ∃ n, fat32Eoc ≤ clusterAt v d c n) ∧
    (remaining < fuel ∧ 0 < v.sectorsPerCluster ∨ (∃ n < fuel, fat32Eoc ≤ clusterAt v d c n) →
      (readChain v dev fuel s c out remaining).isSome) := by
  induction fuel with
  | zero => grind -linarith [readChain]
  | succ fuel ih =>
    intro s c out remaining hd
    rw [readChain]
    by_cases hmore : remaining > 0 ∧ c < fat32Eoc
    · have hless := readSectors_less hdone v.sectorsPerCluster s (clusterToSector v c) out remaining
      have hdisk := (@readSectors_disk dev v.sectorsPerCluster s (clusterToSector v c) out
        remaining).trans hd
      rw [if_pos hmore]
      generalize readSectors dev v.sectorsPerCluster s (clusterToSector v c) out remaining = r at *
      -- a turn takes bytes off `remaining` only when a cluster has sectors
      have hrest := ih (fatNext v dev r.1 c).1 (nextCluster v d c) r.2.2.1 r.2.2.2
        ((fatNext_disk v dev _ c).trans hdisk)
      dsimp only
      rw [if_neg (ne_true_of_eq_false · hless.1), fatNext_done v hdone, hdisk]
      refine ⟨fun h => ?_, fun h => hrest.2 ?_⟩
      · rcases hrest.1 h with hpos | hzero | ⟨n, hn⟩
        · exact .inl hpos
        · exact .inl (Nat.pos_of_ne_zero fun hnone => by have := hless.2.2 hmore.1; omega)
        · exact .inr (.inr ⟨n + 1, hn⟩)
      · rcases h with ⟨hlt, hpos⟩ | ⟨_ | n, hn, hend⟩
        · exact .inl ⟨by omega, hpos⟩
        · exact absurd hend (Nat.not_le_of_lt hmore.2)
        · exact .inr ⟨n, by omega, hend⟩
    · rw [if_neg hmore]
      refine ⟨fun _ => ?_, fun _ => rfl⟩
      by_cases hzero : remaining = 0
      · exact .inr (.inl hzero)
      · exact .inr (.inr ⟨0, Nat.le_of_not_lt fun hc => hmore ⟨Nat.pos_of_ne_zero hzero, hc⟩⟩)

theorem findFrom_ends (hdone : Done dev) (fuel m : Nat) :
    ∀ (s : Fat32) (c : Nat) (path : List Byte), s.disk = d →
    ((findFrom dev v fuel m s c path).isSome ↔ PathEnds v d fuel m c path) := by
  induction m with
  | zero => exact fun s c path _ => ⟨fun _ => trivial, fun _ => rfl⟩
  | succ m ih =>
    intro s c path hd
    rw [findFrom, PathEnds]
    by_cases hpath : path = []
    · simp [hpath]
    rw [if_neg hpath]
    rcases @dirLookup_ends v dev _ (target (firstComponent path)) hdone fuel s c hd with
      ⟨hnone, hrun⟩ | ⟨n, hn, hend, s', hd', hrun⟩
    · grind -linarith
    · -- The first end is where the search stops, so no other is considered.
      have honly : ∀ k, EndsAt v d (target (firstComponent path)) c k → k = n := by
        intro k hk
        rcases Nat.lt_trichotomy k n with hlt | heq | hlt
        · exact absurd (hend.1 k hlt) hk.2
        · exact heq
        · exact absurd (hk.1 n hlt) hend.2
      rw [hrun, Option.bind_some]
      have hone : ∀ Q : Nat → Prop,
          (∃ k < fuel, EndsAt v d (target (firstComponent path)) c k ∧ Q k) ↔
          Q n := by
        refine fun Q => ⟨?_, fun hQ => ⟨n, hn, hend, hQ⟩⟩
        rintro ⟨k, _, hk, hQ⟩
        exact honly k hk ▸ hQ
      rw [hone]
      rcases clusterScan v d (target (firstComponent path)) (clusterAt v d c n) with f | _ | _
      · simp only [Scan.found]
        split_ifs <;> simp_all
      · simp [Scan.found]
      · simp [Scan.found]

end

/-- A search ends if it comes to the end of each directory or to the name it looks for,
    and a read ends if clusters have sectors or the chain has an end. -/
theorem searches_end_iff (v : Volume) (s : Fat32) :
    (∀ path : CString, (∃ fuel, (fat32Find (fun _ => .done) v fuel s path).isSome) ↔
      ∃ bound, PathEnds v s.disk bound path.bytes.length v.rootCluster (skipSlashes path.bytes)) ∧
    ∀ c size bufLen, (∃ fuel, (fat32Read v (fun _ => .done) fuel s c size bufLen).isSome) ↔
      0 < v.sectorsPerCluster ∨ min size bufLen = 0 ∨ ∃ n, fat32Eoc ≤ clusterAt v s.disk c n := by
  have hdone : Done fun _ => .done := fun _ => rfl
  refine ⟨fun path => exists_congr fun fuel => findFrom_ends hdone fuel _ s _ _ rfl, ?_⟩
  intro c size bufLen
  have hsize : (if size > bufLen then bufLen else size) = min size bufLen := by grind -linarith
  simp only [fat32Read, Option.isSome_map, hsize]
  have hends := fun fuel => readChain_ends (v := v) hdone fuel s c [] (min size bufLen) rfl
  refine ⟨fun h => h.elim fun fuel h => (hends fuel).1 h, ?_⟩
  rintro (hpos | hzero | ⟨n, hn⟩)
  · exact ⟨_, (hends (min size bufLen + 1)).2 (.inl ⟨Nat.lt_succ_self _, hpos⟩)⟩
  · refine ⟨1, ?_⟩
    rw [hzero, readChain]
    rfl
  · exact ⟨_, (hends (n + 1)).2 (.inr ⟨n, Nat.lt_succ_self n, hn⟩)⟩

/-- A root directory without a free slot whose cluster is chained to itself. -/
def ring : Fat32 :=
  ⟨fun sector => if sector = 0 then smallBoot 1 9 else if sector = 1 then
      storeN (fun _ => 0#8) 8 4 2 else fun _ => 0x41#8, fun _ => 0#8, 0⟩

/-- The search for a name that is not in the directory goes round for ever. -/
theorem search_endless :
    (fat32Mount (fun _ => .done) ring).2 = some smallVolume ∧
      ∀ fuel, fat32Find (fun _ => .done) smallVolume fuel ring secondPath = none := by
  refine ⟨by rfl, fun fuel => ?_⟩
  have hnext : nextCluster smallVolume ring.disk 2 = 2 := by rfl
  have hmore : clusterScan smallVolume ring.disk (target [0x42#8]) 2 = .more := by rfl
  have hstay : ∀ n, clusterAt smallVolume ring.disk 2 n = 2 :=
    fun n => Function.iterate_fixed hnext n
  by_contra hsome
  rcases (findFrom_ends (fun _ => rfl) fuel 1 ring 2 [0x42#8] rfl).mp
    (Option.isSome_iff_ne_none.mpr hsome)
    with hnil | ⟨n, _, hend, _⟩
  · cases hnil
  · rw [EndsAt, hstay] at hend
    exact hend.2 hmore

end CortexForge.Fat32
