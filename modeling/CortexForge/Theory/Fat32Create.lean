import CortexForge.Theory.Fat32Dirs

/-!
# Creating a File Disturbs No Other

Creating a file never changes an entry of a directory that was there, nor what reading
the file behind it gives, on whichever path and with whichever failures.

Both follow from what a creation writes. A reading goes along a chain that is not
among the clusters taken, and comes to no directory, so it meets the same entries and
sectors before and after. It is compared request by request, with a device that may
fail as well.

The loops return. Chains are lists without repetition of clusters that have entries,
so the size of the table bounds them, and so it does the search for a free cluster;
the data to be written gets less with each cluster.

## Main definitions

* `Alike`: Two disks that agree on some clusters.

## Theorems

* `readChain_alike`: Reading a chain depends on its clusters only.
* `create_cases`: What a creation writes.
* `create_some`: A creation returns.
* `create_frame`: What was there stays.
-/

namespace CortexForge.Fat32

open Function Option

section

variable {v : Volume} {dev : Device} {fs : List Nat}

/-- The disks agree on the clusters and their entries, and the devices are at the same
    request. -/
structure Alike (v : Volume) (fs : List Nat) (s t : Fat32) : Prop where
  -- The device answers by the number of the request, so both see the same failures.
  requests : t.requests = s.requests
  entries : ∀ c ∈ fs, fatEntry v t.disk c = fatEntry v s.disk c
  data : ∀ c ∈ fs, ∀ sector, InCluster v c sector → t.disk sector = s.disk sector

variable {s t : Fat32} {c : Nat}

/-- Two reads of any sectors both are done or both fail. -/
theorem blkRead_alike (h : Alike v fs s t) (sector sector' : Nat) :
    Alike v fs (blkRead dev s sector).1 (blkRead dev t sector').1 ∧
      (blkRead dev t sector').2 = (blkRead dev s sector).2 := by
  rw [blkRead, blkRead, h.requests]
  split
  · exact ⟨⟨rfl, h.entries, h.data⟩, rfl⟩
  · exact ⟨⟨rfl, h.entries, h.data⟩, rfl⟩

theorem fatNext_alike (h : Alike v fs s t) (hc : c ∈ fs) :
    Alike v fs (fatNext v dev s c).1 (fatNext v dev t c).1 ∧
      (fatNext v dev t c).2 = (fatNext v dev s c).2 := by
  have hread := @blkRead_alike v dev fs s t h (fatSector v c) (fatSector v c)
  rw [fatNext, fatNext, hread.2]
  by_cases hfail : (blkRead dev s (fatSector v c)).2 = false
  · rw [if_pos hfail, if_pos hfail]
    exact ⟨hread.1, rfl⟩
  · have hfail' : (blkRead dev t (fatSector v c)).2 ≠ false := by
      rw [hread.2]
      exact hfail
    rw [if_neg hfail, if_neg hfail, blkRead_buf hfail, blkRead_buf hfail']
    exact ⟨hread.1, congrArg (· % 2 ^ 28) (h.entries c hc)⟩

theorem readSectors_alike (hc : c ∈ fs) (k : Nat) (s t : Fat32) (sector : Nat) (out : List Byte)
    (remaining : Nat) (h : Alike v fs s t) (hsec : Sectors v c sector k) :
    Alike v fs (readSectors dev k s sector out remaining).1
        (readSectors dev k t sector out remaining).1 ∧
      (readSectors dev k t sector out remaining).2 =
        (readSectors dev k s sector out remaining).2 := by
  fun_induction readSectors dev k s sector out remaining generalizing t with
  | case1 => exact ⟨h, rfl⟩
  | case2 k s sector out =>
    exact ⟨h, rfl⟩
  | case3 k s sector out remaining hmore r hfail =>
    have hread := @blkRead_alike v dev fs s t h sector sector
    simp only [readSectors, if_neg hmore, if_pos (hread.2.trans hfail)]
    exact ⟨hread.1, trivial⟩
  | case4 k s sector out remaining hmore r hdone chunk ih =>
    have hread := @blkRead_alike v dev fs s t h sector sector
    have hdone' : (blkRead dev t sector).2 ≠ false := hread.2 ▸ hdone
    -- Both have the same sector in the buffer.
    have hbuf : (blkRead dev t sector).1.secBuf = r.1.secBuf := by
      rw [blkRead_buf hdone, blkRead_buf hdone']
      exact h.data c hc sector (sectors_first hsec)
    simp only [readSectors, if_neg hmore, if_neg hdone', hbuf]
    exact ih _ hread.1 (sectors_next hsec)

theorem readSectors_disk (k : Nat) (s : Fat32) (sector : Nat) (out : List Byte) (remaining : Nat) :
    (readSectors dev k s sector out remaining).1.disk = s.disk := by
  fun_induction readSectors dev k s sector out remaining with
  | case1 => rfl
  | case2 => rfl
  | case3 k s sector => exact blkRead_disk dev s sector
  | case4 k s sector _ _ _ _ _ _ ih => exact ih.trans (blkRead_disk dev s sector)

/-- Reading along a chain depends on its clusters only. -/
theorem readChain_alike (hg : Geometry v) {d : Disk} (hclosed : Closed v d fs) :
    ∀ (fuel : Nat) (s t : Fat32) (c : Nat) (out : List Byte) (remaining : Nat), s.disk = d →
    Alike v fs s t → (fat32Eoc ≤ c ∨ c ∈ fs) →
    (readChain v dev fuel t c out remaining).map Prod.snd =
      (readChain v dev fuel s c out remaining).map Prod.snd := by
  intro fuel
  induction fuel with
  | zero => exact fun _ _ _ _ _ _ _ _ => rfl
  | succ fuel ih =>
    intro s t c out remaining hd h hc
    rw [readChain, readChain]
    split_ifs with hmore
    · have hmem := hc.resolve_left (Nat.not_le_of_lt hmore.2)
      have hsec := sectors_all hg (hclosed c hmem).1
      have hread := @readSectors_alike v dev fs c hmem _ s t _ out remaining h hsec
      have hdisk := (@readSectors_disk dev v.sectorsPerCluster s (clusterToSector v c) out
        remaining).trans hd
      revert hread hdisk
      generalize readSectors dev v.sectorsPerCluster s (clusterToSector v c) out remaining = w
      generalize readSectors dev v.sectorsPerCluster t (clusterToSector v c) out remaining = w'
      rintro ⟨halike, heq⟩ hdisk
      dsimp only
      rw [heq]
      split_ifs with hfail
      · simp [heq]
      · have hnext := @fatNext_alike v dev fs w.1 w'.1 c halike hmem
        rw [hnext.2]
        refine ih _ _ _ _ _ ((fatNext_disk v dev w.1 c).trans hdisk) hnext.1 ?_
        -- The next cluster is one of the file again, or the end.
        rcases fatNext_cases v dev w.1 c with heoc | hval
        · exact .inl (Nat.le_of_eq heoc.symm)
        · rw [hval, hdisk]
          exact (hclosed c hmem).2
    · rfl

theorem readChain_some {d : Disk} {cs : List Nat} {fuel c : Nat} {s : Fat32} (out : List Byte)
    (remaining : Nat) (hd : s.disk = d) (h : Chain v d c cs) (hfuel : cs.length < fuel) :
    ∃ r, readChain v dev fuel s c out remaining = some r := by
  refine @chain_returns v d (List Byte × Nat) (Fat32 × Bool × List Byte × Nat) dev
    (fun fuel s c a => readChain v dev fuel s c a.1 a.2) ?_ ?_ cs fuel c s
    (out, remaining) hd h hfuel
  · intro fuel s c a hc
    exact ⟨_, by rw [readChain, if_neg fun hmore => Nat.not_lt_of_le hc hmore.2]⟩
  · intro fuel s c a hd _
    rw [readChain]
    split
    · have hdisk := (@readSectors_disk dev v.sectorsPerCluster s (clusterToSector v c) a.1
        a.2).trans hd
      revert hdisk
      generalize readSectors dev v.sectorsPerCluster s (clusterToSector v c) a.1 a.2 = w
      intro hdisk
      dsimp only
      split
      · exact .inl ⟨w, rfl⟩
      · exact .inr ⟨w.1, (w.2.2.1, w.2.2.2), hdisk, rfl⟩
    · exact .inl ⟨_, rfl⟩

end

section

variable {v : Volume} {dev : Device} {data : Memory} {fuel : Nat}

theorem walkFrom_some {d : Disk} {isDir : Nat → Prop} (h : WellFormed v d isDir)
    (hfuel : fatEntries v < fuel) : ∀ (n : Nat) (s : Fat32) (k : Nat) (walk : List Byte),
    s.disk = d → isDir k → ∃ s' r, walkFrom dev v fuel n s k walk = some (s', r) := by
  intro n
  induction n with
  | zero => exact fun s k _ _ _ => ⟨s, some k, rfl⟩
  | succ n ih =>
    intro s k walk hd hk
    rw [walkFrom]
    split
    · exact ⟨s, some k, rfl⟩
    rcases h.chain k hk with ⟨cs, hcs⟩
    have hlen := chain_length h.geometry hcs
    rcases @dirLookup_some v dev (target (firstComponent walk)) d h.geometry cs fuel k s hd hcs
      (by omega) with ⟨s1, r, hlook⟩
    rw [hlook, bind_some]
    rcases r with _ | f
    · exact ⟨s1, none, rfl⟩
    dsimp only
    split
    · exact ⟨s1, none, rfl⟩
    · rename_i hattr
      rcases lookup_dir h hk hd hlook hattr with ⟨hd1, hk1⟩
      exact ih s1 f.cluster _ hd1 hk1

/-- The search for a free cluster is over at the end of the table. -/
theorem fatAllocFrom_some (hg : Geometry v) (m : Nat) : ∀ (fuel : Nat) (s : Fat32) (c : Nat),
    2 ≤ c → c / 128 ≤ v.dataStartSector - v.fatStartSector → c < 2 ^ 28 → fatEntries v ≤ c + m →
    m < fuel → ∃ r, fatAllocFrom v dev fuel s c = some r := by
  induction m with
  | zero =>
    intro fuel s c hc hrow hlt hend hfuel
    rcases fuel with _ | fuel
    · omega
    rw [fatAllocFrom]
    by_cases hin : fatSector v c ≥ v.dataStartSector
    · exact ⟨_, by rw [if_pos hin]⟩
    -- No entry is left, so the sector is past the table.
    · have hindex := indexable_of_sector hg hc hrow hlt (Nat.lt_of_not_le hin)
      exact absurd hindex.2 (Nat.not_lt_of_le hend)
  | succ m ih =>
    intro fuel s c hc hrow hlt hend hfuel
    rcases fuel with _ | fuel
    · omega
    rw [fatAllocFrom]
    split
    · exact ⟨_, rfl⟩
    rename_i hin
    have hindex := indexable_of_sector hg hc hrow hlt (Nat.lt_of_not_le hin)
    dsimp only
    split
    · exact ⟨_, rfl⟩
    split
    · split
      · exact ⟨_, rfl⟩
      · exact ⟨_, rfl⟩
    rcases indexable_next hg hindex with ⟨hnext, hrow', hlt'⟩
    rw [hnext]
    exact ih fuel _ (c + 1) (by omega) hrow' hlt' (by omega) (by omega)

theorem allocChain_some (hg : Geometry v) (hfuel : fatEntries v < fuel) :
    ∀ (n i : Nat) (s : Fat32) (first prev : Nat),
    ∃ s' r, allocChain dev v fuel i n s first prev = some (s', r) := by
  intro n
  induction n with
  | zero => exact fun _ s first _ => ⟨s, some first, by rw [allocChain]⟩
  | succ n ih =>
    intro i s first prev
    rcases fatAllocFrom_some hg (fatEntries v) fuel s 2 (Nat.le_refl 2) (Nat.zero_le _)
      (by decide) (by omega) hfuel with ⟨⟨s1, c⟩, hone⟩
    rw [allocChain, fatAllocCluster, hone, bind_some]
    dsimp only
    split
    · exact ⟨s1, none, rfl⟩
    split
    · split
      · exact ⟨_, none, rfl⟩
      · exact ih _ _ _ _
    · exact ih _ _ _ _

theorem chunkOf_pos {remaining : Nat} (h : 0 < remaining) : 0 < chunkOf remaining := by
  rw [chunkOf, sectorSize]
  split <;> omega

/-- A written sector leaves less to write. -/
theorem writeSectors_less {k : Nat} {s : Fat32} {sector pos remaining : Nat} {rest : Nat × Nat}
    (hrest : (writeSectors dev data k s sector pos remaining).2 = some rest) :
    rest.2 ≤ remaining ∧ (0 < k → 0 < remaining → rest.2 < remaining) := by
  fun_induction writeSectors dev data k s sector pos remaining with
  | case1 => cases hrest; exact ⟨Nat.le_refl _, fun h => absurd h (Nat.lt_irrefl 0)⟩
  | case2 => cases hrest; exact ⟨Nat.le_refl _, fun _ h => absurd h (Nat.lt_irrefl 0)⟩
  | case3 => cases hrest
  | case4 k s sector pos remaining hmore _ _ chunk ih =>
    have hless := (ih hrest).1
    have hchunk := chunkOf_pos (Nat.pos_of_ne_zero hmore)
    omega

theorem clusterWriteData_some (hg : Geometry v) (fuel : Nat) (s : Fat32) (c pos remaining : Nat)
    (hfuel : remaining < fuel) :
    ∃ s' ok, clusterWriteData v dev data fuel s c pos remaining = some (s', ok) := by
  fun_induction clusterWriteData v dev data fuel s c pos remaining with
  | case1 => cases hfuel
  | case2 _ _ _ _ _ _ w => exact ⟨w.1, false, rfl⟩
  -- Each cluster takes at least a byte, even if the table leads in a circle.
  | case3 fuel s c pos remaining hmore w rest hrest n ih =>
    have hless := (writeSectors_less hrest).2 hg.sectors_pos hmore.1
    exact ih (by omega)
  | case4 _ s => exact ⟨s, true, rfl⟩

theorem storeData_some (hg : Geometry v) {len : Nat} (hfuel : fatEntries v < fuel)
    (hlen : len < fuel) (s : Fat32) : ∃ s' r, storeData dev v fuel s data len = some (s', r) := by
  rcases allocChain_some hg hfuel (clustersNeeded v len) 0 s 0 0 with ⟨s1, r, halloc⟩
  rw [storeData, halloc, bind_some]
  rcases r with _ | first
  · exact ⟨s1, none, rfl⟩
  dsimp only
  split
  · rcases clusterWriteData_some hg fuel s1 first 0 len hlen with ⟨s2, ok, hwrite⟩
    rw [hwrite]
    exact ⟨_, _, rfl⟩
  · exact ⟨s1, some first, rfl⟩

theorem create_some {s : Fat32} {isDir : Nat → Prop} (h : WellFormed v s.disk isDir) {len : Nat}
    (hfuel : fatEntries v < fuel) (hlen : len < fuel) (path : CString) :
    ∃ s' ok, fat32Create dev v fuel s path data len = some (s', ok) := by
  have hg := h.geometry
  rcases walkFrom_some h hfuel (splitPath path).1.length s v.rootCluster
    (splitPath path).1 rfl h.root with ⟨s1, r, hwalk⟩
  rcases walkFrom_dir h _ s _ _ rfl h.root hwalk with ⟨hd1, hdir⟩
  rw [fat32Create, hwalk, bind_some]
  rcases r with _ | k
  · exact ⟨s1, false, rfl⟩
  rcases @storeData_some v dev data fuel hg len hfuel hlen s1 with ⟨s2, r2, hstore⟩
  simp only [hstore]
  rcases r2 with _ | first
  · exact ⟨s2, false, rfl⟩
  -- The directory is as long as before.
  rcases storeData_cases hg hstore with ⟨got, hgrown, _⟩
  rw [hd1] at hgrown
  rcases h.chain k (hdir k rfl) with ⟨cs, hcs⟩
  have hlength := chain_length hg hcs
  exact dirAddEntry_some hg rfl (chain_grown hgrown hcs) (by omega)

end

section

variable {v : Volume} {dev : Device} {data : Memory} {fuel len : Nat} {path : CString}
  {s s' : Fat32} {isDir : Nat → Prop} {ok : Bool}

/-- A creation takes clusters, and then may fill a free slot of a directory. -/
theorem create_cases (h : WellFormed v s.disk isDir)
    (hcreate : fat32Create dev v fuel s path data len = some (s', ok)) :
    ∃ got d, Grown v s.disk got d ∧ got.length ≤ clustersNeeded v len ∧
      (s'.disk = d ∨ ∃ k cs p entry, isDir k ∧ Chain v s.disk k cs ∧ p ∈ dirSlots v cs ∧
        Free d p ∧ s'.disk = fill d p entry) := by
  have hg := h.geometry
  rcases bind_eq_some_iff.mp hcreate with ⟨⟨s1, r⟩, hwalk, hcreate⟩
  rcases walkFrom_dir h _ s _ _ rfl h.root hwalk with ⟨hd1, hdir⟩
  rcases r with _ | k
  · cases hcreate
    exact ⟨[], s.disk, grown_nil v s.disk, Nat.zero_le _, .inl hd1⟩
  rcases bind_eq_some_iff.mp hcreate with ⟨⟨s2, r2⟩, hstore, hcreate⟩
  rcases storeData_cases hg hstore with ⟨got, hgrown, hlen⟩
  have hle : got.length ≤ clustersNeeded v len := by grind
  rw [hd1] at hgrown
  rcases r2 with _ | first
  · cases hcreate
    exact ⟨got, _, hgrown, hle, .inl rfl⟩
  rcases h.chain k (hdir k rfl) with ⟨cs, hcs⟩
  refine ⟨got, _, hgrown, hle, ?_⟩
  rcases dirAddEntry_cases hg cs fuel k s2 rfl (chain_grown hgrown hcs) hcreate with
    ⟨hsame, _⟩ | ⟨p, hp, hfill, _⟩
  · exact .inl hsame
  · rcases freeIn_some hp with ⟨hmem, hfree⟩
    exact .inr ⟨k, cs, p, _, hdir k rfl, hcs, hmem, hfree, hfill⟩

/-- The bytes of a slot stay when another slot is filled. -/
theorem fill_slot {d : Disk} {p q : Nat × Nat} (entry : Memory) (hne : q ≠ p)
    (hp : p.2 % dirEntrySize = 0) (hq : q.2 % dirEntrySize = 0) :
    ∀ i < dirEntrySize, fill d p entry q.1 (q.2 + i) = d q.1 (q.2 + i) := by
  intro i hi
  by_cases hsec : q.1 = p.1
  · have hoff : q.2 ≠ p.2 := fun heq => hne (Prod.ext hsec heq)
    rw [fill, hsec, update_self]
    refine memcpy_other ?_
    rw [dirEntrySize] at hp hq hi ⊢
    omega
  · rw [fill, update_of_ne hsec]

/-- Sectors that no slot of the directory is in stay. -/
theorem fill_other {d : Disk} {p : Nat × Nat} (entry : Memory) {sector : Nat}
    (hne : sector ≠ p.1) : fill d p entry sector = d sector :=
  update_of_ne hne _ _

/-- A slot in use after a creation. -/
theorem create_slot (h : WellFormed v s.disk isDir)
    (hcreate : fat32Create dev v fuel s path data len = some (s', ok)) {k : Nat} {cs : List Nat}
    {p : Nat × Nat} (hcs : Chain v s.disk k cs) (hp : p ∈ dirSlots v cs) (hused : ¬ Free s.disk p) :
    ∀ i < dirEntrySize, s'.disk p.1 (p.2 + i) = s.disk p.1 (p.2 + i) := by
  have hg := h.geometry
  have hclosed := chain_closed cs hcs
  rcases create_cases h hcreate with ⟨got, d, hgrown, _, hdisk⟩
  rcases dirSlots_mem hg (fun c hc => (hclosed c hc).1) hp with ⟨c, hc, hin, _, hmod⟩
  -- The sector of the slot is not in a new cluster, so it is still in use when a slot is chosen.
  have hsame := (closed_kept hgrown hclosed hc).2 p.1 hin
  have hnotFree : ¬ Free d p := by
    rw [Free, hsame]
    exact hused
  intro i hi
  rcases hdisk with hd | ⟨k', cs', q, entry, _, hcs', hq, hfree, hfill⟩
  · rw [hd, hsame]
  · rcases dirSlots_mem hg (fun c hc => (chain_closed cs' hcs' c hc).1) hq with
      ⟨_, _, _, _, hmod'⟩
    have hne : p ≠ q := fun heq => hnotFree (heq ▸ hfree)
    rw [hfill, fill_slot entry hne hmod' hmod i hi, hsame]

/-- The clusters of a file after a creation. They meet no directory, so no slot that is
    filled is in them. -/
theorem create_alike (h : WellFormed v s.disk isDir)
    (hcreate : fat32Create dev v fuel s path data len = some (s', ok)) {f : Nat} {fs : List Nat}
    (hfs : Chain v s.disk f fs) (hapart : ∀ k cs, isDir k → Chain v s.disk k cs → ∀ c ∈ fs, c ∉ cs)
    (buf : Memory) (n : Nat) :
    Alike v fs ⟨s.disk, buf, n⟩ ⟨s'.disk, buf, n⟩ := by
  have hg := h.geometry
  rcases create_cases h hcreate with ⟨got, d, hgrown, _, hdisk⟩
  refine ⟨rfl, fun x hx => ?_, fun x hx sector hsec => ?_⟩
  · have hkept := (closed_kept hgrown (chain_closed fs hfs) hx).1
    rcases hdisk with hd | ⟨k, cs, q, entry, _, hcs, hq, _, hfill⟩
    · rw [← hkept, hd]
    · rcases dirSlots_mem hg (fun c hc => (chain_closed cs hcs c hc).1) hq with
        ⟨_, _, hinq, _, _⟩
      rw [← hkept, hfill]
      exact fatEntry_update hg (chain_closed fs hfs x hx).1.2 (inCluster_data hinq) _
  · have hkept := (closed_kept hgrown (chain_closed fs hfs) hx).2 sector hsec
    rcases hdisk with hd | ⟨k, cs, q, entry, hk, hcs, hq, _, hfill⟩
    · rw [← hkept, hd]
    · rcases dirSlots_mem hg (fun c hc => (chain_closed cs hcs c hc).1) hq with
        ⟨y, hy, hinq, _, _⟩
      -- The slot is in a cluster of a directory, which no file shares.
      have hne : sector ≠ q.1 := by
        rintro rfl
        have heq := inCluster_unique (chain_closed fs hfs x hx).1.1
          (chain_closed cs hcs y hy).1.1 hsec hinq
        exact hapart k cs hk hcs x hx (heq ▸ hy)
      rw [← hkept, hfill, fill_other entry hne]

/-- Reading an empty file touches no sector. -/
theorem readChain_zero (s : Fat32) (c : Nat) (out : List Byte) :
    readChain v dev fuel s c out 0 = if fuel = 0 then none else some (s, true, out, 0) := by
  rcases fuel with _ | fuel
  · rfl
  · simp [readChain]

/-- What is read, and how much, is what the loop over the chain gives. -/
theorem fat32Read_congr {c size bufLen : Nat} {t : Fat32}
    (h : (readChain v dev fuel t c [] (if size > bufLen then bufLen else size)).map Prod.snd =
      (readChain v dev fuel s c [] (if size > bufLen then bufLen else size)).map Prod.snd) :
    (fat32Read v dev fuel t c size bufLen).map Prod.snd =
      (fat32Read v dev fuel s c size bufLen).map Prod.snd := by
  generalize hn : (if size > bufLen then bufLen else size) = n at h
  have hread : ∀ u : Fat32, (fat32Read v dev fuel u c size bufLen).map Prod.snd =
      ((readChain v dev fuel u c [] n).map Prod.snd).map fun r =>
        (r.2.1, if r.1 = false then -1 else intResult (n - r.2.2)) := by
    intro u
    rw [fat32Read, hn, map_map, map_map]
    rfl
  rw [hread, hread, h]

end

/-- Creating a file returns, and whatever the outcome every directory slot in use is
    unchanged and reading the entries among them gives what it gave before. -/
theorem create_frame (v : Volume) (dev : Device) (s : Fat32) (path : CString)
    (data : Memory) (len : Nat) (isDir : Nat → Prop) (h : WellFormed v s.disk isDir) :
    (∃ bound, ∀ fuel > bound, ∃ s' ok,
        fat32Create dev v fuel s path data len = some (s', ok)) ∧
      ∀ fuel s' ok, fat32Create dev v fuel s path data len = some (s', ok) →
      ∀ k cs p, isDir k → Chain v s.disk k cs → p ∈ dirSlots v cs → ¬ Free s.disk p →
        (∀ i < dirEntrySize, s'.disk p.1 (p.2 + i) = s.disk p.1 (p.2 + i)) ∧
        (Live s.disk p → ∀ dev' buf n bufLen,
          (∃ bound, ∀ fuel' > bound, ∃ t out result,
            fat32Read v dev' fuel' ⟨s.disk, buf, n⟩ (slotCluster (s.disk p.1) p.2)
              (slotSize (s.disk p.1) p.2) bufLen = some (t, out, result)) ∧
          ∀ fuel',
            (fat32Read v dev' fuel' ⟨s'.disk, buf, n⟩ (slotCluster (s.disk p.1) p.2)
              (slotSize (s.disk p.1) p.2) bufLen).map Prod.snd =
            (fat32Read v dev' fuel' ⟨s.disk, buf, n⟩ (slotCluster (s.disk p.1) p.2)
              (slotSize (s.disk p.1) p.2) bufLen).map Prod.snd) := by
  have hg := h.geometry
  refine ⟨⟨max (fatEntries v) len, fun fuel hfuel => ?_⟩, ?_⟩
  · exact create_some h (by omega) (by omega) path
  intro fuel s' ok hcreate k cs p hk hcs hp hused
  refine ⟨create_slot h hcreate hcs hp hused, fun hlive dev' buf n bufLen => ?_⟩
  by_cases hsize : slotSize (s.disk p.1) p.2 = 0
  · -- An empty file is read without a request.
    have hzero : (if slotSize (s.disk p.1) p.2 > bufLen then bufLen
        else slotSize (s.disk p.1) p.2) = 0 := by
      split <;> omega
    refine ⟨⟨0, fun fuel' hfuel => ?_⟩, fun fuel' => fat32Read_congr ?_⟩
    · rw [fat32Read, hzero, readChain_zero, if_neg (Nat.ne_of_gt hfuel)]
      exact ⟨_, _, _, rfl⟩
    · rw [hzero, readChain_zero, readChain_zero]
      split <;> rfl
  · rcases h.file k cs p hk hcs hp hlive (by omega) with ⟨fs, hfs, hapart⟩
    have halike := create_alike h hcreate hfs hapart
    refine ⟨⟨fs.length, fun fuel' hfuel => ?_⟩, fun fuel' => fat32Read_congr ?_⟩
    · rcases @readChain_some v dev' s.disk fs fuel' _ ⟨s.disk, buf, n⟩ []
        (if slotSize (s.disk p.1) p.2 > bufLen then bufLen else slotSize (s.disk p.1) p.2) rfl hfs
        hfuel with ⟨r, hr⟩
      rw [fat32Read, hr]
      exact ⟨_, _, _, rfl⟩
    · exact readChain_alike hg (chain_closed fs hfs) fuel' _ _ _ _ _ rfl (halike buf n)
        (chain_head hfs)

/-- The small volume with a file of 600 bytes that has one cluster. -/
def oneFile : Fat32 := ⟨smallDisk (dirEntry (target [0x41#8]) 3 600), fun _ => 0#8, 0⟩

theorem oneFile_wellFormed : WellFormed smallVolume oneFile.disk (· = 2) := by
  refine small_wellFormed _ ?_ ?_
  · decide
  · decide

/-- A device that fails one request, which is a write that gets through. -/
def flaky (n : Nat) : Reply := if n = 15 then .failed true (fun _ => 0#8) else .done

/-- The path of a second file. -/
def secondPath : CString := ⟨[0x42#8], by decide⟩

/-- A second file is cut short by the device, and the first one is as it was. -/
theorem create_frame_oneFile :
    (fat32Create flaky smallVolume 200 oneFile secondPath (fun _ => 7#8) 600).map Prod.snd =
        some false ∧
      ∀ s' ok, fat32Create flaky smallVolume 200 oneFile secondPath (fun _ => 7#8) 600 =
          some (s', ok) →
        (∀ i < dirEntrySize, s'.disk 2 (0 + i) = oneFile.disk 2 (0 + i)) ∧
        (fat32Read smallVolume flaky 9 ⟨s'.disk, fun _ => 0#8, 0⟩ 3 600 600).map Prod.snd =
          (fat32Read smallVolume flaky 9 ⟨oneFile.disk, fun _ => 0#8, 0⟩ 3 600 600).map
            Prod.snd := by
  refine ⟨by rfl, fun s' ok hcreate => ?_⟩
  have hkept := (create_frame smallVolume flaky oneFile secondPath (fun _ => 7#8) 600 (· = 2)
    oneFile_wellFormed).2 200 s' ok hcreate 2 [2] (2, 0) rfl (small_chain _ (.inl rfl))
    (by decide) (by decide)
  have hplace : slotCluster (oneFile.disk 2) 0 = 3 ∧ slotSize (oneFile.disk 2) 0 = 600 := by decide
  refine ⟨hkept.1, ?_⟩
  have hread := (hkept.2 (by decide) flaky (fun _ => 0#8) 0 600).2 9
  exact hread

end CortexForge.Fat32
