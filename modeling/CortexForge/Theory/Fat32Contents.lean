import CortexForge.Theory.Fat32Create

/-!
# The Contents of a File

The bytes of a file are those of the clusters of its chain, one after another, and the
bytes of a cluster are those of its sectors. `contents` is that sequence. With a device
that fails no request, writing data to a chain makes it the beginning of the contents,
and reading gives the beginning of the contents.

Both loops go sector by sector and stop within the sector where the data ends, so they
are described by how many bytes the sectors of a cluster take: all that remain, or as
many as there is room for.

## Main definitions

* `sectorByte`: A byte of consecutive sectors.
* `contents`: The bytes of a chain of clusters.

## Theorems

* `clusterWriteData_done`: What is written becomes the contents.
* `readChain_done`: What is read is the contents.
* `fat32Read_done`: Reading a file.
* `storeData_done`: The contents of a new file.
-/

namespace CortexForge.Fat32

open Function List

/-- Byte `n` of the sectors from `sector` on. -/
def sectorByte (d : Disk) (sector n : Nat) : Byte := d (sector + n / sectorSize) (n % sectorSize)

/-- Byte `n` of a chain of clusters. -/
def contents (v : Volume) (d : Disk) : List Nat → Nat → Byte
  | [], _ => 0#8
  | c :: cs, n =>
      if n < v.bytesPerCluster then sectorByte d (clusterToSector v c) n
      else contents v d cs (n - v.bytesPerCluster)

section

variable {v : Volume} {d d' : Disk}

theorem sectorByte_first {sector n : Nat} (hn : n < sectorSize) :
    sectorByte d sector n = d sector n := by
  rw [sectorByte, Nat.div_eq_of_lt hn, Nat.mod_eq_of_lt hn, Nat.add_zero]

theorem sectorByte_next (d : Disk) (sector n : Nat) :
    sectorByte d sector (sectorSize + n) = sectorByte d (sector + 1) n := by
  rw [sectorByte, sectorByte, Nat.add_div_left n (by decide), Nat.add_mod_left, Nat.add_right_comm,
    Nat.add_assoc]

/-- The sectors of a cluster are all its bytes are in. -/
theorem inCluster_byte (hg : Geometry v) {c n : Nat} (hc : Indexable v c)
    (hn : n < v.bytesPerCluster) : InCluster v c (clusterToSector v c + n / sectorSize) := by
  rw [hg.bytes] at hn
  have hrow : n / sectorSize < v.sectorsPerCluster :=
    Nat.div_lt_of_lt_mul (by rw [Nat.mul_comm]; exact hn)
  exact (sectors_all hg hc _ hrow).2

/-- The contents depend on the sectors of the chain only. -/
theorem contents_congr (hg : Geometry v) (cs : List Nat) (hcs : ∀ c ∈ cs, Indexable v c)
    (h : ∀ c ∈ cs, ∀ sector, InCluster v c sector → d' sector = d sector) :
    ∀ n, contents v d' cs n = contents v d cs n := by
  induction cs with
  | nil => exact fun _ => rfl
  | cons c cs ih =>
    intro n
    rw [contents, contents]
    split
    · rename_i hn
      have hin := inCluster_byte hg (hcs c mem_cons_self) hn
      simp [sectorByte, h c mem_cons_self _ hin]
    · exact ih (fun x hx => hcs x (mem_cons_of_mem c hx))
        (fun x hx => h x (mem_cons_of_mem c hx)) _

end

section

variable {dev : Device} {data : Memory}

/-- Two pieces of one sequence, one after the other. -/
theorem map_range_append {α : Type} {f g whole : Nat → α} {n m : Nat}
    (hf : ∀ i < n, f i = whole i) (hg : ∀ i < m, g i = whole (n + i)) :
    (range n).map f ++ (range m).map g = (range (n + m)).map whole := by
  rw [range_add, map_append, map_map]
  refine congrArg₂ (· ++ ·) (map_congr_left fun i hi => ?_) (map_congr_left fun i hi => ?_)
  · exact hf i (mem_range.mp hi)
  · exact hg i (mem_range.mp hi)

theorem chunkOf_eq (remaining : Nat) : chunkOf remaining = min remaining sectorSize := by
  rw [chunkOf]
  split <;> omega

theorem dataBuf_at {buf : Memory} {pos remaining i : Nat} (hi : i < chunkOf remaining) :
    dataBuf data buf pos remaining i = data (pos + i) := by
  have hcopy : ∀ (mem : Memory) (n : Nat), i < n →
      memcpy mem 0 data pos n i = data (pos + i) := by
    intro mem n hn
    have hat := memcpy_at mem 0 data pos n i hn
    rwa [Nat.zero_add] at hat
  rw [chunkOf_eq] at hi
  rw [dataBuf]
  split
  · exact hcopy _ _ (by omega)
  · exact hcopy _ _ (by omega)

/-- Only the last of the sectors below `2 ^ 32` has no sector after it. -/
theorem wrap32_next {sector k : Nat} (h : sector + (k + 1) ≤ 2 ^ 32) :
    k = 0 ∨ wrap32 (sector + 1) = sector + 1 := by
  rw [wrap32]
  omega

/-- Sectors take the data that remains, or as much as there is room for. -/
theorem writeSectors_done (hdone : Done dev) (k : Nat) : ∀ (s : Fat32)
    (sector pos remaining n : Nat), sector + k ≤ 2 ^ 32 → n = min remaining (k * sectorSize) →
    (writeSectors dev data k s sector pos remaining).2 = some (pos + n, remaining - n) ∧
      (∀ i < n, sectorByte (writeSectors dev data k s sector pos remaining).1.disk sector i =
        data (pos + i)) ∧
      ∀ x, (x < sector ∨ sector + k ≤ x) →
        (writeSectors dev data k s sector pos remaining).1.disk x = s.disk x := by
  induction k with
  | zero =>
    intro s sector pos remaining n _ hn
    obtain rfl : n = 0 := by omega
    exact ⟨rfl, nofun, fun _ _ => rfl⟩
  | succ k ih =>
    intro s sector pos remaining n hsec hn
    rw [writeSectors]
    by_cases hnone : remaining = 0
    · obtain rfl : n = 0 := by omega
      rw [if_pos hnone]
      exact ⟨rfl, nofun, fun _ _ => rfl⟩
    rw [if_neg hnone]
    have hwrite : (blkWrite dev { s with secBuf := dataBuf data s.secBuf pos remaining }
        sector).1.disk = update s.disk sector (dataBuf data s.secBuf pos remaining) := by
      rw [blkWrite, hdone]
    have hok := blkWrite_done hdone { s with secBuf := dataBuf data s.secBuf pos remaining } sector
    revert hwrite hok
    generalize blkWrite dev { s with secBuf := dataBuf data s.secBuf pos remaining } sector = w
    intro hwrite hok
    rw [if_neg fun hfail => Bool.noConfusion (hok.symm.trans hfail)]
    -- The sectors after this one take what is left.
    have hstep : writeSectors dev data k w.1 (wrap32 (sector + 1)) (pos + chunkOf remaining)
        (remaining - chunkOf remaining) = writeSectors dev data k w.1 (sector + 1)
        (pos + chunkOf remaining) (remaining - chunkOf remaining) := by
      rcases wrap32_next hsec with rfl | hwrap
      · rfl
      · rw [hwrap]
    have hchunk := chunkOf_eq remaining
    rcases ih w.1 (sector + 1) (pos + chunkOf remaining) (remaining - chunkOf remaining)
      (n - chunkOf remaining) (by omega) (by rw [Nat.succ_mul] at hn; omega) with
      ⟨hrest, hbytes, hother⟩
    rw [hstep]
    refine ⟨?_, fun i hi => ?_, fun x hx => ?_⟩
    · rw [hrest, Nat.add_assoc, Nat.sub_sub,
        Nat.add_sub_cancel' (by rw [Nat.succ_mul] at hn; omega)]
    · by_cases hfirst : i < sectorSize
      · rw [sectorByte_first hfirst, hother sector (.inl (Nat.lt_succ_self sector)), hwrite,
          update_self]
        exact dataBuf_at (by omega)
      · have hlater := hbytes (i - sectorSize) (by omega)
        rw [← sectorByte_next, Nat.add_sub_cancel' (by omega)] at hlater
        rw [hlater]
        exact congrArg data (by omega)
    · rw [hother x (by omega), hwrite, update_of_ne (by omega)]

/-- Sectors give the bytes that remain, or as many as they have. -/
theorem readSectors_done (hdone : Done dev) (k : Nat) : ∀ (s : Fat32) (sector : Nat)
    (out : List Byte) (remaining n : Nat), sector + k ≤ 2 ^ 32 →
    n = min remaining (k * sectorSize) →
    (readSectors dev k s sector out remaining).2 =
      (true, out ++ (range n).map (sectorByte s.disk sector), remaining - n) := by
  induction k with
  | zero =>
    intro s sector out remaining n _ hn
    obtain rfl : n = 0 := by omega
    rw [range_zero, map_nil, append_nil]
    rfl
  | succ k ih =>
    intro s sector out remaining n hsec hn
    rw [readSectors]
    by_cases hnone : remaining = 0
    · obtain rfl : n = 0 := by omega
      rw [if_pos hnone, range_zero, map_nil, append_nil]
      rfl
    rw [if_neg hnone]
    have hok := blkRead_done hdone s sector
    have hne : (blkRead dev s sector).2 ≠ false := fun hfail =>
      Bool.noConfusion (hok.symm.trans hfail)
    have hbuf := blkRead_buf hne
    have hdisk := blkRead_disk dev s sector
    rw [if_neg hne, hbuf]
    revert hdisk
    generalize (blkRead dev s sector).1 = t
    intro hdisk
    have hchunk := chunkOf_eq remaining
    have hstep : readSectors dev k t (wrap32 (sector + 1))
        (out ++ (range (chunkOf remaining)).map (s.disk sector))
        (remaining - chunkOf remaining) = readSectors dev k t (sector + 1)
        (out ++ (range (chunkOf remaining)).map (s.disk sector))
        (remaining - chunkOf remaining) := by
      rcases wrap32_next hsec with rfl | hwrap
      · rfl
      · rw [hwrap]
    rw [Nat.succ_mul] at hn
    have hsum : n = chunkOf remaining + (n - chunkOf remaining) := by omega
    rw [hstep, ih t (sector + 1) _ _ (n - chunkOf remaining) (by omega) (by omega), hdisk,
      Nat.sub_sub, append_assoc]
    -- The bytes of this sector, and of those after it if it is full.
    have hwhole : (range (chunkOf remaining)).map (s.disk sector) ++
        (range (n - chunkOf remaining)).map (sectorByte s.disk (sector + 1)) =
        (range (chunkOf remaining + (n - chunkOf remaining))).map (sectorByte s.disk sector) := by
      refine map_range_append (fun i hi => (sectorByte_first (by omega)).symm) fun i hi => ?_
      have hfull : chunkOf remaining = sectorSize := by omega
      rw [hfull, sectorByte_next]
    rw [hwhole, ← hsum]

end

section

variable {v : Volume} {dev : Device} {data : Memory}

variable (hg : Geometry v)
include hg

theorem sectors_below {c : Nat} (hc : Indexable v c) :
    clusterToSector v c + v.sectorsPerCluster ≤ 2 ^ 32 := by
  rw [clusterToSector_eq hg hc]
  exact hg.reach c hc

/-- Data written to a chain is its contents, and no other sector changes. -/
theorem clusterWriteData_done (hdone : Done dev) (cs : List Nat) :
    ∀ (fuel c : Nat) (s : Fat32) (pos remaining : Nat) {s' : Fat32} {ok : Bool},
    Chain v s.disk c cs → remaining ≤ cs.length * v.bytesPerCluster →
    clusterWriteData v dev data fuel s c pos remaining = some (s', ok) →
    (∀ n < remaining, contents v s'.disk cs n = data (pos + n)) ∧
      ∀ sector, (∀ x ∈ cs, ¬ InCluster v x sector) → s'.disk sector = s.disk sector := by
  induction cs with
  | nil =>
    intro fuel c s pos remaining s' ok _ hroom hwrite
    obtain rfl : remaining = 0 := by
      rw [length_nil] at hroom
      omega
    rcases fuel with _ | fuel
    · cases hwrite
    cases hwrite
    exact ⟨nofun, fun _ _ => rfl⟩
  | cons c' cs ih =>
    intro fuel c s pos remaining s' ok hchain hroom hwrite
    have hnodup := chain_nodup hg _ hchain
    obtain ⟨rfl, hc, hrest⟩ := hchain
    rcases fuel with _ | fuel
    · cases hwrite
    rw [clusterWriteData] at hwrite
    by_cases hmore : remaining > 0
    swap
    · rw [if_neg fun hand => hmore hand.1] at hwrite
      cases hwrite
      exact ⟨fun n hn => absurd (by omega) hmore, fun _ _ => rfl⟩
    rw [if_pos ⟨hmore, indexable_lt hg hc⟩] at hwrite
    have hbase := sectors_below hg hc
    have hspan := clusterToSector_eq hg hc
    -- This cluster is written first.
    have hsectors := @writeSectors_done dev data hdone v.sectorsPerCluster s (clusterToSector v c)
      pos remaining (min remaining v.bytesPerCluster) hbase (by rw [hg.bytes])
    revert hwrite hsectors
    generalize writeSectors dev data v.sectorsPerCluster s (clusterToSector v c) pos
      remaining = w
    rintro hwrite ⟨hleft, hbytes, hother⟩
    have hframe : ∀ sector, ¬ InCluster v c sector → w.1.disk sector = s.disk sector := by
      intro sector hout
      refine hother sector ?_
      rw [InCluster] at hout
      omega
    -- The rest of the chain has no sector of it, and the table is outside of both.
    have hapart : ∀ x ∈ cs, ∀ sector, InCluster v x sector → ¬ InCluster v c sector := by
      intro x hx sector hin hin'
      have hx' := (chain_closed cs hrest x hx).1
      exact (nodup_cons.mp hnodup).1 (inCluster_unique hc.1 hx'.1 hin' hin ▸ hx)
    have htable : ∀ x, Indexable v x → nextCluster v w.1.disk x = nextCluster v s.disk x := by
      intro x hx
      refine congrArg (· % 2 ^ 28) (fatEntry_below hg hx.2 fun sector hsec => ?_)
      exact hframe sector fun hin => Nat.not_lt_of_le (inCluster_data hin) hsec
    simp only [hleft] at hwrite
    rw [fatNext_done v hdone, htable c hc] at hwrite
    have hdisk := fatNext_disk v dev w.1 c
    have hchain' : Chain v (fatNext v dev w.1 c).1.disk (nextCluster v s.disk c) cs := by
      rw [hdisk]
      exact chain_congr cs hrest fun x hx => htable x (chain_closed cs hrest x hx).1
    rw [length_cons, Nat.succ_mul] at hroom
    rcases ih fuel _ _ _ _ hchain' (by omega) hwrite with ⟨hlater, hkept⟩
    rw [hdisk] at hkept
    refine ⟨fun n hn => ?_, fun sector hout => ?_⟩
    · rw [contents]
      split
      · rename_i hin
        have hsec := inCluster_byte hg hc hin
        rw [sectorByte, hkept _ fun x hx hin' => hapart x hx _ hin' hsec]
        exact hbytes n (by omega)
      · rw [hlater (n - v.bytesPerCluster) (by omega)]
        exact congrArg data (by omega)
    · rw [hkept sector fun x hx => hout x (mem_cons_of_mem c hx)]
      exact hframe sector (hout c mem_cons_self)

/-- What is read from a chain is the beginning of its contents. -/
theorem readChain_done (hdone : Done dev) {d : Disk} (cs : List Nat) :
    ∀ (fuel c : Nat) (s : Fat32) (out : List Byte) (remaining : Nat)
    {r : Fat32 × Bool × List Byte × Nat}, s.disk = d → Chain v d c cs →
    remaining ≤ cs.length * v.bytesPerCluster →
    readChain v dev fuel s c out remaining = some r →
    r.2 = (true, out ++ (range remaining).map (contents v d cs), 0) := by
  induction cs with
  | nil =>
    intro fuel c s out remaining r _ _ hroom hread
    obtain rfl : remaining = 0 := by
      rw [length_nil] at hroom
      omega
    rw [readChain_zero] at hread
    split at hread
    · cases hread
    · cases hread
      simp
  | cons c' cs ih =>
    rintro fuel c s out remaining r hd ⟨rfl, hc, hrest⟩ hroom hread
    by_cases hmore : remaining > 0
    swap
    · obtain rfl : remaining = 0 := Nat.eq_zero_of_not_pos hmore
      rw [readChain_zero] at hread
      split at hread
      · cases hread
      · cases hread
        simp
    rcases fuel with _ | fuel
    · cases hread
    rw [readChain, if_pos ⟨hmore, indexable_lt hg hc⟩] at hread
    have hsectors := readSectors_done hdone v.sectorsPerCluster s (clusterToSector v c) out
      remaining (min remaining v.bytesPerCluster) (sectors_below hg hc) (by rw [hg.bytes])
    have hdisk := (@readSectors_disk dev v.sectorsPerCluster s (clusterToSector v c) out
      remaining).trans hd
    revert hread hsectors hdisk
    generalize readSectors dev v.sectorsPerCluster s (clusterToSector v c) out remaining = w
    intro hread hsectors hdisk
    simp only [hsectors] at hread
    rw [fatNext_done v hdone, hdisk] at hread
    rw [length_cons, Nat.succ_mul] at hroom
    have hlater := ih fuel _ _ _ _ ((fatNext_disk v dev w.1 c).trans hdisk) hrest (by omega) hread
    rw [hlater, append_assoc, hd]
    -- The bytes of this cluster, and of the rest of the chain if it is full.
    have hwhole : (range (min remaining v.bytesPerCluster)).map
          (sectorByte d (clusterToSector v c)) ++
        (range (remaining - min remaining v.bytesPerCluster)).map (contents v d cs) =
        (range (min remaining v.bytesPerCluster +
          (remaining - min remaining v.bytesPerCluster))).map (contents v d (c :: cs)) := by
      refine map_range_append (fun i hi => ?_) fun i hi => ?_
      · rw [contents, if_pos (by omega)]
      · have hfull : min remaining v.bytesPerCluster = v.bytesPerCluster := by omega
        rw [hfull, contents, if_neg (by omega), Nat.add_sub_cancel_left]
    rw [hwhole, Nat.add_sub_cancel' (Nat.min_le_left _ _)]

omit hg in
theorem intResult_eq {n : Nat} (h : n < 2 ^ 31) : intResult n = n := by
  rw [intResult, BitVec.toInt_eq_toNat_of_lt (by rw [BitVec.toNat_ofNat]; omega),
    BitVec.toNat_ofNat, Nat.mod_eq_of_lt (by omega)]

/-- A file that fits into the buffer is read as a whole. -/
theorem fat32Read_done (hdone : Done dev) {cs : List Nat}
    {fuel c size bufLen : Nat} {s : Fat32} (hchain : size = 0 ∨ Chain v s.disk c cs)
    (hroom : size ≤ cs.length * v.bytesPerCluster) (hbuf : size ≤ bufLen) (hsize : size < 2 ^ 31)
    (hfuel : cs.length < fuel) :
    ∃ t, fat32Read v dev fuel s c size bufLen =
      some (t, (range size).map (contents v s.disk cs), (size : Int)) := by
  rw [fat32Read, if_neg (Nat.not_lt_of_le hbuf)]
  rcases hchain with rfl | hchain
  · rw [readChain_zero, if_neg (by omega)]
    exact ⟨s, rfl⟩
  · rcases readChain_some [] size rfl hchain hfuel with ⟨r, hread⟩
    have hr := readChain_done hg hdone cs fuel c s [] size rfl hchain hroom hread
    rw [hread, Option.map_some, hr]
    refine ⟨r.1, ?_⟩
    rw [nil_append]
    simp [intResult_eq hsize]

/-- The clusters needed have room for the data. -/
theorem clustersNeeded_room {len : Nat} (hlen : len + v.bytesPerCluster ≤ 2 ^ 32) :
    len ≤ clustersNeeded v len * v.bytesPerCluster := by
  have hpos := hg.sectors_pos
  have hbytes := hg.bytes
  rw [sectorSize] at hbytes
  rw [clustersNeeded]
  split
  · omega
  · -- The sum does not wrap.
    have hsum : sub32 (wrap32 (len + v.bytesPerCluster)) 1 = len + v.bytesPerCluster - 1 := by
      rw [sub32, wrap32, wrap32]
      omega
    have hceil := @Nat.lt_div_mul_add (len + v.bytesPerCluster - 1) v.bytesPerCluster (by omega)
    rw [hsum]
    omega

/-- The data of a new file is the contents of its chain, which has none if there is no
    data. -/
theorem storeData_done (hdone : Done dev) {fuel len first : Nat}
    (hlen : len + v.bytesPerCluster ≤ 2 ^ 32) {s s' : Fat32}
    (hstore : storeData dev v fuel s data len = some (s', some first)) :
    ∃ got, Grown v s.disk got s'.disk ∧ len ≤ got.length * v.bytesPerCluster ∧
      (len = 0 ∧ first = 0 ∧ got = [] ∨ Chain v s'.disk first got ∧ first ∈ got) ∧
      ∀ n < len, contents v s'.disk got n = data n := by
  rcases Option.bind_eq_some_iff.mp hstore with ⟨⟨s1, r1⟩, halloc, hstore⟩
  rcases allocated hg halloc with ⟨got, hgrown, ⟨first1, rfl, hcount, hfirst⟩ | ⟨rfl, _⟩⟩
  swap
  · cases hstore
  have hroom := clustersNeeded_room hg hlen
  rw [← hcount] at hroom
  dsimp only at hstore
  rcases hfirst with ⟨rfl, rfl⟩ | ⟨hchain, hmem⟩
  · -- Nothing was needed.
    rw [if_neg fun hand => hand.2 rfl] at hstore
    cases hstore
    have hzero : len = 0 := by
      rw [length_nil] at hroom
      omega
    exact ⟨[], hgrown, hroom, .inl ⟨hzero, rfl, rfl⟩, fun n hn => absurd hn (by omega)⟩
  · have hindex := (hgrown.closed first1 hmem).1
    have hdata : len > 0 ∧ first1 ≠ 0 := by
      refine ⟨Nat.pos_of_ne_zero fun hzero => ?_, fun hzero => ?_⟩
      · rw [hzero, clustersNeeded] at hcount
        rw [eq_nil_of_length_eq_zero hcount] at hmem
        exact absurd hmem not_mem_nil
      · exact absurd (hzero ▸ hindex.1) (by decide)
    rw [if_pos hdata] at hstore
    rcases Option.map_eq_some_iff.mp hstore with ⟨⟨s2, ok⟩, hwrite, heq⟩
    cases ok
    · cases heq
    cases heq
    have hgrown' := (clusterWriteData_grown hg (.inr hmem) hgrown hwrite).1
    rcases clusterWriteData_done hg hdone got fuel first s1 0 len hchain hroom hwrite with
      ⟨hbytes, hkept⟩
    refine ⟨got, hgrown', hroom, .inr ⟨?_, hmem⟩, fun n hn => ?_⟩
    · -- The write went to the clusters, not to the table.
      refine chain_congr got hchain fun x hx => congrArg (· % 2 ^ 28) ?_
      refine fatEntry_below hg (hgrown.closed x hx).1.2 fun sector hsec => ?_
      exact hkept sector fun y _ hin => Nat.not_lt_of_le (inCluster_data hin) hsec
    · simp [hbytes n hn]

end

end CortexForge.Fat32
