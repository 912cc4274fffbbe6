import CortexForge.Theory.Fat32Frame

/-!
# Directories as Lists of Slots

A directory is a chain of clusters, and its slots in the order in which the loops
over clusters, sectors and slots come to them are one list. A lookup is the first
slot with the name, unless a slot marked as the end comes before; an insertion goes
to the first slot that is free.

A request that fails ends a lookup or an insertion with an error. What they do find,
or fill, is therefore the same as without failures, and `Done` is needed only to say
that they do.

Names from paths never start with a dot, so the entries that a directory has for
itself and its parent are not found, and a path only leads downwards.

## Main definitions

* `dirSlots`: The slots of a directory.
* `lookupIn`, `freeIn`, `fill`: Lookup and insertion on lists of slots.
* `WellFormed`: The directories and files of a volume.

## Theorems

* `dirLookup_cases`, `dirAddEntry_cases`: The loops compute the functions on lists.
* `lookupIn_hit`, `freeIn_some`: What is found, and what is free.
* `walkFrom_dir`: A path of directories leads to a directory.
-/

namespace CortexForge.Fat32

open List Option

section

variable {p : Nat × Nat}

/-- `k` slots of a sector, from an offset on. -/
def slotsFrom (sector : Nat) : Nat → Nat → List (Nat × Nat)
  | 0, _ => []
  | k + 1, off => (sector, off) :: slotsFrom sector k (off + dirEntrySize)

/-- The slots of `k` sectors. -/
def sectorSlots : Nat → Nat → List (Nat × Nat)
  | 0, _ => []
  | k + 1, sector => slotsFrom sector slotsPerSector 0 ++ sectorSlots k (wrap32 (sector + 1))

/-- The slots of a chain of clusters, by sector and offset. -/
def dirSlots (v : Volume) : List Nat → List (Nat × Nat)
  | [] => []
  | c :: cs => sectorSlots v.sectorsPerCluster (clusterToSector v c) ++ dirSlots v cs

/-- The slot holds an entry that a lookup can return. -/
def Live (d : Disk) (p : Nat × Nat) : Prop :=
  d p.1 p.2 ≠ 0#8 ∧ d p.1 p.2 ≠ deleted ∧ slotAttr (d p.1) p.2 ≠ attrLfn ∧
    slotAttr (d p.1) p.2 &&& attrVolumeId = 0#8

instance (d : Disk) (p : Nat × Nat) : Decidable (Live d p) :=
  inferInstanceAs (Decidable (_ ∧ _ ∧ _ ∧ _))

/-- What a lookup returns for a slot. -/
def foundAt (d : Disk) (p : Nat × Nat) : Found :=
  ⟨slotCluster (d p.1) p.2, slotSize (d p.1) p.2, slotAttr (d p.1) p.2⟩

/-- Look for a name among slots. -/
def lookupIn (d : Disk) (name : List Byte) : List (Nat × Nat) → Scan Found
  | [] => .more
  | p :: ps =>
      -- A first byte of 0 marks the end of the directory, whatever follows.
      if d p.1 p.2 = 0#8 then .stop
      else if Live d p ∧ slotName (d p.1) p.2 = name then .hit (foundAt d p)
      else lookupIn d name ps

/-- The slot can be filled. -/
def Free (d : Disk) (p : Nat × Nat) : Prop := d p.1 p.2 = 0#8 ∨ d p.1 p.2 = deleted

instance (d : Disk) (p : Nat × Nat) : Decidable (Free d p) := inferInstanceAs (Decidable (_ ∨ _))

/-- The first free slot. -/
def freeIn (d : Disk) (ps : List (Nat × Nat)) : Option (Nat × Nat) := ps.find? (Free d ·)

/-- The disk with an entry in a slot. -/
def fill (d : Disk) (p : Nat × Nat) (entry : Memory) : Disk :=
  Function.update d p.1 (memcpy (d p.1) p.2 entry 0 dirEntrySize)

/-- What is returned of the outcome of a search. -/
def Scan.found : Scan Found → Option Found
  | .hit f => some f
  | _ => none

variable {d : Disk} {name : List Byte}

theorem lookupIn_append (ps qs : List (Nat × Nat)) :
    lookupIn d name (ps ++ qs) =
      match lookupIn d name ps with
      | .more => lookupIn d name qs
      | found => found := by
  induction ps with
  | nil => rfl
  | cons p ps ih =>
    rw [cons_append, lookupIn, lookupIn, ih]
    split
    · rfl
    · split <;> rfl

theorem lookupIn_hit {f : Found} (ps : List (Nat × Nat)) (h : lookupIn d name ps = .hit f) :
    ∃ p ∈ ps, Live d p ∧ slotName (d p.1) p.2 = name ∧ f = foundAt d p := by
  induction ps with
  | nil => cases h
  | cons p ps ih =>
    rw [lookupIn] at h
    split at h
    · cases h
    split at h
    · rename_i hlive
      cases h
      exact ⟨p, mem_cons_self, hlive.1, hlive.2, rfl⟩
    · rcases ih h with ⟨q, hq, hrest⟩
      exact ⟨q, mem_cons_of_mem p hq, hrest⟩

theorem freeIn_some {ps : List (Nat × Nat)} (h : freeIn d ps = some p) :
    p ∈ ps ∧ Free d p := by
  have hfree : decide (Free d p) = true := @List.find?_some _ (fun q => decide (Free d q)) p ps h
  exact ⟨mem_of_find?_eq_some h, of_decide_eq_true hfree⟩

theorem scanSlots_eq (sector k : Nat) : ∀ off,
    scanSlots name (d sector) k off = lookupIn d name (slotsFrom sector k off) := by
  induction k with
  | zero => exact fun _ => rfl
  | succ k ih =>
    -- The tests come one by one in the source.
    simp only [scanSlots, slotsFrom, lookupIn, Live, foundAt]
    grind

theorem scanFree_eq (sector k : Nat) : ∀ off,
    (scanFree (d sector) k off).map (Prod.mk sector) = freeIn d (slotsFrom sector k off) := by
  induction k with
  | zero => exact fun _ => rfl
  | succ k ih =>
    intro off
    rw [scanFree, slotsFrom, freeIn, find?_cons]
    split_ifs with hfree
    · rw [show decide (Free d (sector, off)) = true from decide_eq_true hfree]
      rfl
    · rw [show decide (Free d (sector, off)) = false from decide_eq_false hfree]
      exact ih (off + dirEntrySize)

theorem slotsFrom_mem {sector : Nat} (k : Nat) : ∀ off,
    p ∈ slotsFrom sector k off →
    p.1 = sector ∧ off ≤ p.2 ∧ p.2 < off + k * dirEntrySize ∧
      p.2 % dirEntrySize = off % dirEntrySize := by
  rw [dirEntrySize]
  induction k with
  | zero => exact nofun
  | succ k ih =>
    intro off h
    rcases mem_cons.mp h with rfl | h
    · exact ⟨rfl, Nat.le_refl off, by omega, rfl⟩
    · rcases ih (off + dirEntrySize) h with ⟨hsec, hlow, hhigh, hmod⟩
      rw [dirEntrySize] at hlow hhigh hmod
      exact ⟨hsec, by omega, by omega, by omega⟩

theorem sectorSlots_mem {v : Volume} {c : Nat} (k : Nat) : ∀ sector,
    Sectors v c sector k → p ∈ sectorSlots k sector →
    InCluster v c p.1 ∧ p.2 < sectorSize ∧ p.2 % dirEntrySize = 0 := by
  induction k with
  | zero => exact nofun
  | succ k ih =>
    intro sector hsec h
    rcases mem_append.mp h with h | h
    · rcases slotsFrom_mem slotsPerSector 0 h with ⟨hp, _, hhigh, hmod⟩
      rw [hp]
      exact ⟨sectors_first hsec, by rw [Nat.zero_add] at hhigh; exact hhigh, hmod⟩
    · exact ih _ (sectors_next hsec) h

theorem dirSlots_mem {v : Volume} (hg : Geometry v) {cs : List Nat} (hcs : ∀ c ∈ cs, Indexable v c)
    (h : p ∈ dirSlots v cs) :
    ∃ c ∈ cs, InCluster v c p.1 ∧ p.2 < sectorSize ∧ p.2 % dirEntrySize = 0 := by
  induction cs with
  | nil => exact absurd h not_mem_nil
  | cons c cs ih =>
    rcases mem_append.mp h with h | h
    · have hall := sectors_all hg (hcs c mem_cons_self)
      exact ⟨c, mem_cons_self, sectorSlots_mem _ _ hall h⟩
    · rcases ih (fun x hx => hcs x (mem_cons_of_mem c hx)) h with ⟨x, hx, hrest⟩
      exact ⟨x, mem_cons_of_mem c hx, hrest⟩

end

section

variable {v : Volume} {dev : Device} {name : List Byte} {entry : Memory} {d : Disk}

/-- The loop over sectors finds what the list says, or a read fails. -/
theorem lookupSectors_cases (k : Nat) : ∀ (s : Fat32) (sector : Nat), s.disk = d →
    (lookupSectors dev name k s sector).1.disk = d ∧
      ((lookupSectors dev name k s sector).2 = lookupIn d name (sectorSlots k sector) ∨
        (lookupSectors dev name k s sector).2 = .stop ∧ ¬ Done dev) := by
  induction k with
  | zero => exact fun s _ hd => ⟨hd, .inl rfl⟩
  | succ k ih =>
    intro s sector hd
    have hdisk := (blkRead_disk dev s sector).trans hd
    rw [lookupSectors]
    by_cases hread : (blkRead dev s sector).2 = false
    · rw [if_pos hread]
      exact ⟨hdisk, .inr ⟨rfl, not_done_of_read hread⟩⟩
    -- The sector in the buffer is the one on the disk, so the list decides.
    rw [if_neg hread, blkRead_buf hread, hd, scanSlots_eq, sectorSlots, lookupIn_append]
    rcases hscan : lookupIn d name (slotsFrom sector slotsPerSector 0) with f | _ | _
    · exact ⟨hdisk, .inl rfl⟩
    · exact ⟨hdisk, .inl rfl⟩
    · exact ih _ _ hdisk

/-- A chain that is over, by its last entry or by a failed read of the table. -/
theorem dirLookup_over {fuel c : Nat} {s s' : Fat32} {r : Option Found} (hc : fat32Eoc ≤ c)
    (hlook : dirLookup v dev name fuel s c = some (s', r)) : s' = s ∧ r = none := by
  rcases fuel with _ | fuel
  · cases hlook
  · rw [dirLookup, if_neg (Nat.not_lt_of_le hc)] at hlook
    cases hlook
    exact ⟨rfl, rfl⟩

/-- A lookup finds what the list of slots says, or a request fails and it finds
    nothing. -/
theorem dirLookup_cases (hg : Geometry v) (cs : List Nat) : ∀ (fuel c : Nat) (s : Fat32)
    {s' : Fat32} {r : Option Found}, s.disk = d → Chain v d c cs →
    dirLookup v dev name fuel s c = some (s', r) →
    s'.disk = d ∧ (r = (lookupIn d name (dirSlots v cs)).found ∨ r = none ∧ ¬ Done dev) := by
  induction cs with
  | nil =>
    intro fuel c s s' r hd h hlook
    rcases dirLookup_over h hlook with ⟨rfl, rfl⟩
    exact ⟨hd, .inl rfl⟩
  | cons x xs ih =>
    rintro fuel c s s' r hd ⟨rfl, hc, hrest⟩ hlook
    rcases fuel with _ | fuel
    · cases hlook
    rw [dirLookup, if_pos (indexable_lt hg hc)] at hlook
    have hsec := @lookupSectors_cases dev name d v.sectorsPerCluster s (clusterToSector v c) hd
    revert hlook hsec
    generalize lookupSectors dev name v.sectorsPerCluster s (clusterToSector v c) = w
    rintro hlook ⟨hdisk, hscan⟩
    rw [dirSlots, lookupIn_append]
    rcases hout : w.2 with f | _ | _
    · -- Found in this cluster.
      rw [hout] at hscan
      simp only [hout, some.injEq, Prod.mk.injEq] at hlook
      rcases hscan with hhit | ⟨hstop, _⟩
      · rw [← hhit, ← hlook.1, ← hlook.2]
        exact ⟨hdisk, .inl rfl⟩
      · cases hstop
    · -- The end of the directory, or a failed read.
      rw [hout] at hscan
      simp only [hout, some.injEq, Prod.mk.injEq] at hlook
      rw [← hlook.1, ← hlook.2]
      rcases hscan with hstop | ⟨_, hfail⟩
      · rw [← hstop]
        exact ⟨hdisk, .inl rfl⟩
      · exact ⟨hdisk, .inr ⟨rfl, hfail⟩⟩
    · -- On to the next cluster.
      rw [hout] at hscan
      simp only [hout] at hlook
      rcases hscan with hmore | ⟨hstop, _⟩
      · rw [← hmore]
        have hnextDisk := (fatNext_disk v dev w.1 c).trans hdisk
        -- The next cluster is the one in the table, or a failed read ends the search.
        rcases fatNext_cases v dev w.1 c with heoc | hnext
        · by_cases hdone : Done dev
          · rw [fatNext_done v hdone, hdisk] at hlook
            exact ih fuel _ _ hnextDisk hrest hlook
          · rcases dirLookup_over (Nat.le_of_eq heoc.symm) hlook with ⟨rfl, rfl⟩
            exact ⟨hnextDisk, .inr ⟨rfl, hdone⟩⟩
        · rw [hnext, hdisk] at hlook
          exact ih fuel _ _ hnextDisk hrest hlook
      · cases hstop

theorem dirLookup_some (hg : Geometry v) {cs : List Nat} {fuel c : Nat} {s : Fat32}
    (hd : s.disk = d) (h : Chain v d c cs) (hfuel : cs.length < fuel) :
    ∃ s' r, dirLookup v dev name fuel s c = some (s', r) := by
  have hreturns := @chain_returns v d Unit (Fat32 × Option Found) dev
    (fun fuel s c _ => dirLookup v dev name fuel s c)
    (fun fuel s c _ hc => ⟨(s, none), by rw [dirLookup, if_neg (Nat.not_lt_of_le hc)]⟩) ?_ cs fuel c
    s () hd h hfuel
  · rcases hreturns with ⟨r, hr⟩
    exact ⟨r.1, r.2, hr⟩
  intro fuel s c _ hd hc
  have hdisk := (@lookupSectors_cases dev name d v.sectorsPerCluster s (clusterToSector v c) hd).1
  rw [dirLookup, if_pos (indexable_lt hg hc)]
  revert hdisk
  generalize lookupSectors dev name v.sectorsPerCluster s (clusterToSector v c) = w
  intro hdisk
  rcases hout : w.2 with f | _ | _
  · exact .inl ⟨(w.1, some f), by simp only [hout]⟩
  · exact .inl ⟨(w.1, none), by simp only [hout]⟩
  · exact .inr ⟨w.1, (), hdisk, by simp only [hout]⟩

theorem freeIn_append (d : Disk) (ps qs : List (Nat × Nat)) :
    freeIn d (ps ++ qs) = (freeIn d ps).or (freeIn d qs) :=
  find?_append

/-- The loop over sectors finds no free slot and goes on, fills the first one, or ends
    with a failed request. -/
theorem addSectors_cases (k : Nat) : ∀ (s : Fat32) (sector : Nat), s.disk = d →
    ((addSectors dev entry k s sector).1.disk = d ∧ (addSectors dev entry k s sector).2 = .more ∧
        freeIn d (sectorSlots k sector) = none) ∨
      (∃ p, freeIn d (sectorSlots k sector) = some p ∧
        (addSectors dev entry k s sector).1.disk = fill d p entry ∧
        ((addSectors dev entry k s sector).2 = .hit () ∨
          (addSectors dev entry k s sector).2 = .stop ∧ ¬ Done dev)) ∨
      ((addSectors dev entry k s sector).1.disk = d ∧ (addSectors dev entry k s sector).2 = .stop ∧
        ¬ Done dev) := by
  induction k with
  | zero => exact fun s _ hd => .inl ⟨hd, rfl, rfl⟩
  | succ k ih =>
    intro s sector hd
    have hdisk := (blkRead_disk dev s sector).trans hd
    rw [addSectors]
    by_cases hread : (blkRead dev s sector).2 = false
    · rw [if_pos hread]
      exact .inr (.inr ⟨hdisk, rfl, not_done_of_read hread⟩)
    have hfree := @scanFree_eq d sector slotsPerSector 0
    rw [if_neg hread, blkRead_buf hread, hd, sectorSlots, freeIn_append]
    rcases hscan : scanFree (d sector) slotsPerSector 0 with _ | off
    · rw [hscan] at hfree
      rw [← hfree]
      exact ih _ _ hdisk
    · rw [hscan] at hfree
      rw [← hfree]
      dsimp only
      -- The slot is filled, or the write fails.
      rcases blkWrite_cases dev { (blkRead dev s sector).1 with
        secBuf := memcpy (d sector) off entry 0 dirEntrySize } sector with hnew | ⟨hfail, hold⟩
      · refine .inr (.inl ⟨(sector, off), rfl, ?_, ?_⟩)
        · rw [hnew]
          simp only [hdisk]
          rfl
        · split
          · rename_i hfail
            exact .inr ⟨rfl, not_done_of_write hfail⟩
          · exact .inl rfl
      · rw [if_pos hfail]
        exact .inr (.inr ⟨hold.trans hdisk, rfl, not_done_of_write hfail⟩)

/-- An insertion fills the first free slot, unless there is none or a request fails. A
    failed request may come after the slot was filled. -/
theorem dirAddEntry_cases (hg : Geometry v) (cs : List Nat) : ∀ (fuel c : Nat) (s : Fat32)
    {s' : Fat32} {ok : Bool}, s.disk = d → Chain v d c cs →
    dirAddEntry v dev entry fuel s c = some (s', ok) →
    (s'.disk = d ∧ ok = false ∧ (freeIn d (dirSlots v cs) = none ∨ ¬ Done dev)) ∨
      ∃ p, freeIn d (dirSlots v cs) = some p ∧ s'.disk = fill d p entry ∧
        (ok = true ∨ ¬ Done dev) := by
  have hover : ∀ {fuel c : Nat} {s s' : Fat32} {ok : Bool}, fat32Eoc ≤ c →
      dirAddEntry v dev entry fuel s c = some (s', ok) → s' = s ∧ ok = false := by
    intro fuel c s s' ok hc hadd
    rcases fuel with _ | fuel
    · cases hadd
    · rw [dirAddEntry, if_neg (Nat.not_lt_of_le hc)] at hadd
      cases hadd
      exact ⟨rfl, rfl⟩
  induction cs with
  | nil =>
    intro fuel c s s' ok hd h hadd
    rcases hover h hadd with ⟨rfl, rfl⟩
    exact .inl ⟨hd, rfl, .inl rfl⟩
  | cons x xs ih =>
    rintro fuel c s s' ok hd ⟨rfl, hc, hrest⟩ hadd
    rcases fuel with _ | fuel
    · cases hadd
    rw [dirAddEntry, if_pos (indexable_lt hg hc)] at hadd
    have hsec := @addSectors_cases dev entry d v.sectorsPerCluster s (clusterToSector v c) hd
    revert hadd hsec
    generalize addSectors dev entry v.sectorsPerCluster s (clusterToSector v c) = w
    intro hadd hsec
    rw [dirSlots, freeIn_append]
    -- No slot in this cluster, a slot, or a failed request before one was filled.
    rcases hsec with ⟨hdisk, hout, hnone⟩ | ⟨p, hp, hdisk, hout⟩ | ⟨hdisk, hout, hfail⟩
    · rw [hnone]
      simp only [hout] at hadd
      have hnextDisk := (fatNext_disk v dev w.1 c).trans hdisk
      rcases fatNext_cases v dev w.1 c with heoc | hnext
      · by_cases hdone : Done dev
        · rw [fatNext_done v hdone, hdisk] at hadd
          exact ih fuel _ _ hnextDisk hrest hadd
        · rcases hover (Nat.le_of_eq heoc.symm) hadd with ⟨rfl, rfl⟩
          exact .inl ⟨hnextDisk, rfl, .inr hdone⟩
      · rw [hnext, hdisk] at hadd
        exact ih fuel _ _ hnextDisk hrest hadd
    · rw [hp]
      refine .inr ⟨p, rfl, ?_⟩
      rcases hout with hout | ⟨hout, hfail⟩
      · simp only [hout, some.injEq, Prod.mk.injEq] at hadd
        rw [← hadd.1, ← hadd.2]
        exact ⟨hdisk, .inl rfl⟩
      · simp only [hout, some.injEq, Prod.mk.injEq] at hadd
        rw [← hadd.1]
        exact ⟨hdisk, .inr hfail⟩
    · simp only [hout, some.injEq, Prod.mk.injEq] at hadd
      rw [← hadd.1, ← hadd.2]
      exact .inl ⟨hdisk, rfl, .inr hfail⟩

theorem dirAddEntry_some (hg : Geometry v) {cs : List Nat} {fuel c : Nat} {s : Fat32}
    (hd : s.disk = d) (h : Chain v d c cs) (hfuel : cs.length < fuel) :
    ∃ s' ok, dirAddEntry v dev entry fuel s c = some (s', ok) := by
  have hreturns := @chain_returns v d Unit (Fat32 × Bool) dev
    (fun fuel s c _ => dirAddEntry v dev entry fuel s c)
    (fun fuel s c _ hc => ⟨(s, false), by rw [dirAddEntry, if_neg (Nat.not_lt_of_le hc)]⟩) ?_ cs
    fuel c s () hd h hfuel
  · rcases hreturns with ⟨r, hr⟩
    exact ⟨r.1, r.2, hr⟩
  intro fuel s c _ hd hc
  have hsec := @addSectors_cases dev entry d v.sectorsPerCluster s (clusterToSector v c) hd
  rw [dirAddEntry, if_pos (indexable_lt hg hc)]
  revert hsec
  generalize addSectors dev entry v.sectorsPerCluster s (clusterToSector v c) = w
  rintro (⟨hdisk, hout, _⟩ | ⟨p, _, _, hout | ⟨hout, _⟩⟩ | ⟨_, hout, _⟩)
  · exact .inr ⟨w.1, (), hdisk, by simp only [hout]⟩
  · exact .inl ⟨(w.1, true), by simp only [hout]⟩
  · exact .inl ⟨(w.1, false), by simp only [hout]⟩
  · exact .inl ⟨(w.1, false), by simp only [hout]⟩

end

section

theorem upper_ne {b : Byte} (hb : b < 0x41#8 ∨ 0x7A#8 < b) {c : Byte} (hc : c ≠ b) :
    upper c ≠ b := by
  rw [upper]
  split
  · bv_omega
  · exact hc

/-- The first byte of a name in a directory is a space, or the first byte of the name
    in capitals. -/
theorem to83_head (name : List Byte) : ∃ b rest, to83 name = b :: rest ∧
    (b = space ∨ ∃ c cs, name = c :: cs ∧ c ≠ dot ∧ b = upper c) := by
  rcases name with _ | ⟨c, cs⟩
  · exact ⟨_, _, rfl, .inl rfl⟩
  -- A name that starts with a dot has an empty base, which is padded.
  by_cases hc : c = dot
  · have hbase : (c :: cs).takeWhile (· ≠ dot) = [] :=
      takeWhile_cons_of_neg (by simp [hc])
    have hto : to83 (c :: cs) = padTo 8 [] ++
        padTo 3 ((((c :: cs).dropWhile (· ≠ dot)).drop 1).take 3 |>.map upper) := by
      rw [to83, hbase]
      rfl
    exact ⟨space, _, hto, .inl rfl⟩
  · have hbase : (c :: cs).takeWhile (· ≠ dot) = c :: cs.takeWhile (· ≠ dot) :=
      takeWhile_cons_of_pos (by simp [hc])
    have hto : to83 (c :: cs) = padTo 8 (upper c :: ((cs.takeWhile (· ≠ dot)).take 7).map upper) ++
        padTo 3 ((((c :: cs).dropWhile (· ≠ dot)).drop 1).take 3 |>.map upper) := by
      rw [to83, hbase]
      rfl
    exact ⟨upper c, _, hto, .inr ⟨c, cs, rfl, hc, rfl⟩⟩

theorem slotName_head {buf : Memory} {off : Nat} {b : Byte} {rest : List Byte}
    (h : slotName buf off = b :: rest) : buf off = b := by
  exact (cons.inj h).1

/-- No name of a path starts with a dot in a directory. -/
theorem target_not_dot {component : List Byte} {buf : Memory} {off : Nat}
    (h : slotName buf off = target component) : buf off ≠ dot := by
  rcases to83_head (component.take 12) with ⟨b, rest, hname, hb⟩
  rw [slotName_head (h.trans hname)]
  rcases hb with rfl | ⟨c, _, _, hc, rfl⟩
  · decide
  · exact upper_ne (.inl (by decide)) hc

end

section

/-- The volume is in order: directories are chains apart from each other, with the root
    among them; what a directory calls a directory is one, except for its own entries
    that start with a dot; after a slot that marks the end all slots do; and a file that
    is not empty is a chain apart from the directories. -/
structure WellFormed (v : Volume) (d : Disk) (isDir : Nat → Prop) : Prop where
  geometry : Geometry v
  root : isDir v.rootCluster
  chain : ∀ k, isDir k → ∃ cs, Chain v d k cs
  apart : ∀ k k' cs cs', isDir k → isDir k' → k ≠ k' → Chain v d k cs → Chain v d k' cs' →
    ∀ c ∈ cs, c ∉ cs'
  nested : ∀ k cs p, isDir k → Chain v d k cs → p ∈ dirSlots v cs → Live d p →
    slotAttr (d p.1) p.2 &&& attrDirectory ≠ 0#8 → d p.1 p.2 ≠ dot →
    isDir (slotCluster (d p.1) p.2)
  ended : ∀ k cs, isDir k → Chain v d k cs →
    (dirSlots v cs).Pairwise fun p q => d p.1 p.2 = 0#8 → d q.1 q.2 = 0#8
  file : ∀ k cs p, isDir k → Chain v d k cs → p ∈ dirSlots v cs → Live d p →
    0 < slotSize (d p.1) p.2 → ∃ fs, Chain v d (slotCluster (d p.1) p.2) fs ∧
      ∀ k' cs', isDir k' → Chain v d k' cs' → ∀ c ∈ fs, c ∉ cs'

variable {v : Volume} {dev : Device} {d : Disk} {isDir : Nat → Prop} {fuel : Nat}

/-- What a lookup finds in a directory and calls a directory is one. -/
theorem lookup_dir (h : WellFormed v d isDir) {k : Nat} (hk : isDir k) {s s' : Fat32}
    (hd : s.disk = d) {component : List Byte} {f : Found}
    (hlook : dirLookup v dev (target component) fuel s k = some (s', some f))
    (hattr : f.attr &&& attrDirectory ≠ 0#8) : s'.disk = d ∧ isDir f.cluster := by
  rcases h.chain k hk with ⟨cs, hcs⟩
  rcases dirLookup_cases h.geometry cs fuel k s hd hcs hlook with ⟨hdisk, hfound | ⟨hnone, _⟩⟩
  · refine ⟨hdisk, ?_⟩
    rcases hscan : lookupIn d (target component) (dirSlots v cs) with g | _ | _
    · rw [hscan] at hfound
      obtain rfl : f = g := some.inj hfound
      rcases lookupIn_hit _ hscan with ⟨p, hp, hlive, hname, rfl⟩
      exact h.nested k cs p hk hcs hp hlive hattr (target_not_dot hname)
    · rw [hscan] at hfound
      cases hfound
    · rw [hscan] at hfound
      cases hfound
  · cases hnone

/-- A path of directories leads to a directory, and writes nothing. -/
theorem walkFrom_dir (h : WellFormed v d isDir) : ∀ (n : Nat) (s : Fat32) (k : Nat)
    (walk : List Byte) {s' : Fat32} {r : Option Nat}, s.disk = d → isDir k →
    walkFrom dev v fuel n s k walk = some (s', r) → s'.disk = d ∧ ∀ x ∈ r, isDir x := by
  intro n
  induction n with
  | zero =>
    intro s k walk s' r hd hk hwalk
    cases hwalk
    exact ⟨hd, fun x hx => some.inj hx ▸ hk⟩
  | succ n ih =>
    intro s k walk s' r hd hk hwalk
    rw [walkFrom] at hwalk
    split at hwalk
    · cases hwalk
      exact ⟨hd, fun x hx => some.inj hx ▸ hk⟩
    rcases bind_eq_some_iff.mp hwalk with ⟨⟨s1, r1⟩, hlook, hwalk⟩
    rcases h.chain k hk with ⟨cs, hcs⟩
    have hdisk := (dirLookup_cases h.geometry cs fuel k s hd hcs hlook).1
    rcases r1 with _ | f
    · cases hwalk
      exact ⟨hdisk, fun x hx => absurd hx (not_mem_none x)⟩
    dsimp only at hwalk
    -- A file on the way ends the walk, a directory continues it.
    split_ifs at hwalk with hattr
    · cases hwalk
      exact ⟨hdisk, fun x hx => absurd hx (not_mem_none x)⟩
    · exact ih s1 f.cluster _ hdisk (lookup_dir h hk hd hlook hattr).2 hwalk

end

section

/-- A volume of one sector of table and clusters of one sector, with its root at cluster
    2. -/
def smallVolume : Volume :=
  { fatStartSector := 1
    dataStartSector := 2
    sectorsPerCluster := 1
    rootCluster := 2
    bytesPerCluster := 512 }

/-- A table in which the root and the cluster after it are taken. -/
def smallTable : Memory := storeN (storeN (fun _ => 0#8) 8 4 0x0FFFFFFF) 12 4 0x0FFFFFFF

/-- The small volume with a root directory. -/
def smallDisk (root : Memory) : Disk := fun sector =>
  if sector = 1 then smallTable else if sector = 2 then root else fun _ => 0#8

theorem smallGeometry : Geometry smallVolume where
  sectors_pos := by decide
  sectors_lt := by decide
  bytes := rfl
  start := by decide
  order := by decide
  entries := by decide
  reach := by
    intro c hc
    have hlt : c < 128 := hc.2
    simp only [smallVolume]
    omega

theorem smallTable_entry {c : Nat} (hc : c < 128) (root : Memory) :
    nextCluster smallVolume (smallDisk root) c = loadN smallTable (c % 128 * 4) 4 % 2 ^ 28 := by
  have hplace := fatPlace smallGeometry (show c < fatEntries smallVolume from hc)
  have hrow : smallVolume.fatStartSector + c / 128 = 1 := by
    simp only [smallVolume]
    omega
  rw [nextCluster, fatEntry, hplace.1, hplace.2, hrow]
  rfl

theorem small_chain (root : Memory) {c : Nat} (hc : c = 2 ∨ c = 3) :
    Chain smallVolume (smallDisk root) c [c] := by
  have hends : ∀ x, x = 2 ∨ x = 3 → fat32Eoc ≤ loadN smallTable (x % 128 * 4) 4 % 2 ^ 28 := by
    rintro x (rfl | rfl) <;> decide
  have hlt : c < 128 := by omega
  refine ⟨rfl, ⟨by omega, hlt⟩, ?_⟩
  rw [smallTable_entry hlt]
  exact hends c hc

/-- A volume is in order if its root has files only, each empty or with clusters of its
    own. -/
theorem oneDir_wellFormed {cs0 : List Nat} (hg : Geometry v) (hroot : Chain v d v.rootCluster cs0)
    (hfiles : ∀ p ∈ dirSlots v cs0, Live d p → slotAttr (d p.1) p.2 &&& attrDirectory = 0#8 ∧
      (0 < slotSize (d p.1) p.2 →
        ∃ fs, Chain v d (slotCluster (d p.1) p.2) fs ∧ ∀ c ∈ fs, c ∉ cs0))
    (hended : (dirSlots v cs0).Pairwise fun p q => d p.1 p.2 = 0#8 → d q.1 q.2 = 0#8) :
    WellFormed v d (· = v.rootCluster) := by
  -- The only directory has one chain.
  have hcs : ∀ {k : Nat} {cs : List Nat}, k = v.rootCluster → Chain v d k cs → cs = cs0 := by
    rintro k cs rfl h
    exact chain_unique hg cs h hroot
  refine ⟨hg, rfl, fun k hk => ⟨cs0, hk ▸ hroot⟩, ?_, ?_, ?_, ?_⟩
  · intro k k' cs cs' hk hk' hne
    exact absurd (hk.trans hk'.symm) hne
  · intro k cs p hk h hp hlive hattr
    rw [hcs hk h] at hp
    exact absurd (hfiles p hp hlive).1 hattr
  · intro k cs hk h
    rw [hcs hk h]
    exact hended
  · intro k cs p hk h hp hlive hsize
    rw [hcs hk h] at hp
    rcases (hfiles p hp hlive).2 hsize with ⟨fs, hfs, hapart⟩
    refine ⟨fs, hfs, fun k' cs' hk' h' c hc => ?_⟩
    rw [hcs hk' h']
    exact hapart c hc

/-- The small volume is in order if its root has files only, each empty or at the
    cluster that is taken. -/
theorem small_wellFormed (root : Memory)
    (hfiles : ∀ p ∈ slotsFrom 2 slotsPerSector 0, Live (smallDisk root) p →
      slotAttr root p.2 &&& attrDirectory = 0#8 ∧
        (slotSize root p.2 = 0 ∨ slotCluster root p.2 = 3))
    (hended : (slotsFrom 2 slotsPerSector 0).Pairwise fun p q =>
      smallDisk root p.1 p.2 = 0#8 → smallDisk root q.1 q.2 = 0#8) :
    WellFormed smallVolume (smallDisk root) (· = 2) := by
  have hslots : dirSlots smallVolume [2] = slotsFrom 2 slotsPerSector 0 := by decide
  have hroot : Chain smallVolume (smallDisk root) 2 [2] := small_chain root (.inl rfl)
  refine oneDir_wellFormed smallGeometry hroot (fun p hp hlive => ?_) (hslots ▸ hended)
  rw [hslots] at hp
  rcases hfiles p hp hlive with ⟨hattr, hcluster⟩
  rw [(slotsFrom_mem slotsPerSector 0 hp).1]
  refine ⟨hattr, fun hsize => ⟨[3], ?_, by decide⟩⟩
  rw [show smallDisk root 2 = root from rfl, hcluster.resolve_left (Nat.ne_of_gt hsize)]
  exact small_chain root (.inr rfl)

end

end CortexForge.Fat32
