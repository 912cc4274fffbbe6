import CortexForge.Theory.Fat32Create

/-!
# Lookups After an Insertion

A new entry goes into the first free slot of a directory. Afterwards its name is found
there, if it was not found before: every slot in front is in use and has another name.
Whatever else was found is still found, since a lookup that came past the slot saw a
deleted entry in it, and now sees an entry with another name.

The bytes of the new entry are read back as they were stored. That its slot does not
look free depends on the first byte of the name: a path cannot have the byte 0, and
0xE5 is kept out.

## Theorems

* `slot_congr`: A slot is what its bytes are.
* `dirEntry_slot`, `fill_fields`, `fill_live`: The fields of a new entry.
* `lookupIn_new`: The new name is found.
* `lookupIn_kept`, `lookup_kept`: What was found is still found.
-/

namespace CortexForge.Fat32

open List

section

variable {off cluster size : Nat}

/-- The fields of a slot depend on its bytes only. -/
theorem slot_congr {buf buf' : Memory} {off' : Nat}
    (h : ∀ i < dirEntrySize, buf' (off' + i) = buf (off + i)) :
    slotName buf' off' = slotName buf off ∧ slotAttr buf' off' = slotAttr buf off ∧
      slotCluster buf' off' = slotCluster buf off ∧ slotSize buf' off' = slotSize buf off := by
  -- All words of an entry are inside its 32 bytes.
  have hword : ∀ at_ n, at_ + n ≤ 32 →
      loadN buf' (off' + at_) n = loadN buf (off + at_) n := by
    intro at_ n hn
    refine loadN_shift _ _ n _ _ fun i hi => ?_
    rw [Nat.add_assoc, Nat.add_assoc]
    exact h (at_ + i) (Nat.lt_of_lt_of_le (Nat.add_lt_add_left hi at_) hn)
  refine ⟨map_congr_left fun i hi => h i ?_, h 11 (by decide), ?_, hword 28 4 (by decide)⟩
  · exact Nat.lt_trans (mem_range.mp hi) (by decide)
  · rw [slotCluster, slotCluster, hword 20 2 (by decide), hword 26 2 (by decide)]

theorem padTo_length {width : Nat} {bytes : List Byte} (h : bytes.length ≤ width) :
    (padTo width bytes).length = width := by
  simp [padTo, Nat.add_sub_cancel' h]

/-- A name in a directory has eleven bytes. -/
theorem target_length (component : List Byte) : (target component).length = 11 := by
  rw [target, to83, length_append, padTo_length, padTo_length]
  · rw [length_map]
    exact length_take_le 3 _
  · rw [length_map]
    exact length_take_le 8 _

/-- The fields of a new entry are what it was made of. -/
theorem dirEntry_slot {name : List Byte} (hname : name.length = 11) (hcluster : cluster < 2 ^ 32)
    (hsize : size < 2 ^ 32) :
    slotName (dirEntry name cluster size) 0 = name ∧
      slotAttr (dirEntry name cluster size) 0 = attrArchive ∧
      slotCluster (dirEntry name cluster size) 0 = cluster ∧
      slotSize (dirEntry name cluster size) 0 = size := by
  rw [dirEntry]
  refine ⟨ext_get ?_ fun i hi hi' => ?_, ?_, ?_, ?_⟩
  · simp [slotName, hname]
  · -- The words come after the name.
    rw [hname] at hi'
    simp only [slotName, get_eq_getElem, getElem_map, getElem_range, Nat.zero_add]
    rw [storeN_other (by omega), storeN_other (by omega),
      storeN_other (by omega), if_pos hi', getD_eq_getElem?_getD,
      getElem?_eq_getElem (by omega), Option.getD_some]
  · rfl
  -- The number of the cluster is stored in two halves.
  · have hhigh : ∀ mem : Memory, loadN (storeN (storeN (storeN mem 20 2 (cluster / 2 ^ 16)) 26 2
        (cluster % 2 ^ 16)) 28 4 size) 20 2 = cluster / 2 ^ 16 % 256 ^ 2 := fun mem => by
      rw [loadN_storeN_disjoint _ _ (by omega),
        loadN_storeN_disjoint _ _ (by omega), loadN_storeN]
    have hlow : ∀ mem : Memory, loadN (storeN (storeN mem 26 2 (cluster % 2 ^ 16)) 28 4 size) 26
        2 = cluster % 2 ^ 16 % 256 ^ 2 := fun mem => by
      rw [loadN_storeN_disjoint _ _ (by omega), loadN_storeN]
    rw [slotCluster, hhigh, hlow]
    omega
  · rw [slotSize, loadN_storeN]
    exact Nat.mod_eq_of_lt hsize

/-- The first byte of a new entry is not that of a free slot. -/
theorem target_head {component : List Byte} (hnonzero : 0#8 ∉ component)
    (hdeleted : component.head? ≠ some deleted) {buf : Memory}
    (h : slotName buf off = target component) : buf off ≠ 0#8 ∧ buf off ≠ deleted := by
  rcases to83_head (component.take 12) with ⟨b, rest, hname, hb⟩
  rw [slotName_head (h.trans hname)]
  -- The first byte is a space or a capital made of the first byte of the name.
  rcases hb with rfl | ⟨c, cs, hcs, _, rfl⟩
  · exact ⟨by decide, by decide⟩
  · rcases component with _ | ⟨x, xs⟩
    · exact nomatch hcs
    obtain rfl : x = c := (cons.inj hcs).1
    refine ⟨upper_ne (.inl (by decide)) fun hzero => ?_, upper_ne (.inr (by decide)) fun hdel => ?_⟩
    · exact hnonzero (hzero ▸ mem_cons_self)
    · exact hdeleted (hdel ▸ rfl)

section

variable (d : Disk) (p : Nat × Nat) {component : List Byte} (hcluster : cluster < 2 ^ 32)
  (hsize : size < 2 ^ 32)
include hcluster hsize

/-- A slot with the entry of a new file. -/
theorem fill_fields :
    slotName (fill d p (dirEntry (target component) cluster size) p.1) p.2 = target component ∧
      foundAt (fill d p (dirEntry (target component) cluster size)) p =
        ⟨cluster, size, attrArchive⟩ := by
  have hat : ∀ i < dirEntrySize, fill d p (dirEntry (target component) cluster size) p.1 (p.2 + i) =
      dirEntry (target component) cluster size (0 + i) := by
    intro i hi
    rw [fill, Function.update_self]
    exact memcpy_at _ _ _ _ _ _ hi
  rcases slot_congr hat with ⟨hname, hattr, hclus, hsiz⟩
  rcases dirEntry_slot (target_length component) hcluster hsize with ⟨hname', hattr', hclus', hsiz'⟩
  refine ⟨hname.trans hname', ?_⟩
  rw [foundAt, hclus, hclus', hsiz, hsiz', hattr, hattr']

theorem fill_live (hnonzero : 0#8 ∉ component) (hdeleted : component.head? ≠ some deleted) :
    Live (fill d p (dirEntry (target component) cluster size)) p := by
  rcases fill_fields d p hcluster hsize with ⟨hname, hfound⟩
  rw [foundAt, Found.mk.injEq] at hfound
  have hhead := target_head hnonzero hdeleted hname
  refine ⟨hhead.1, hhead.2, ?_, ?_⟩ <;>
    rw [hfound.2.2] <;> decide

end

end

section

variable {d d' : Disk} {p q : Nat × Nat}

/-- The bytes of a slot are the same on both disks. -/
def Kept (d d' : Disk) (q : Nat × Nat) : Prop :=
  ∀ i < dirEntrySize, d' q.1 (q.2 + i) = d q.1 (q.2 + i)

/-- A lookup sees a slot that was kept as before. -/
theorem kept_slot (h : Kept d d' q) :
    d' q.1 q.2 = d q.1 q.2 ∧ (Live d' q ↔ Live d q) ∧
      slotName (d' q.1) q.2 = slotName (d q.1) q.2 ∧ foundAt d' q = foundAt d q := by
  rcases slot_congr h with ⟨hname, hattr, hcluster, hsize⟩
  have hfirst : d' q.1 q.2 = d q.1 q.2 := h 0 (by decide)
  refine ⟨hfirst, ?_, hname, ?_⟩
  · rw [Live, Live, hfirst, hattr]
  · rw [foundAt, foundAt, hcluster, hsize, hattr]

theorem lookupIn_cons (h : Kept d d' q) (name : List Byte) (qs : List (Nat × Nat)) :
    lookupIn d' name (q :: qs) =
      if d q.1 q.2 = 0#8 then .stop
      else if Live d q ∧ slotName (d q.1) q.2 = name then .hit (foundAt d q)
      else lookupIn d' name qs := by
  rcases kept_slot h with ⟨hfirst, hlives, hname, hfound⟩
  simp only [lookupIn, hfirst, hlives, hname, hfound]

theorem lookupIn_congr (name : List Byte) (ps : List (Nat × Nat)) (h : ∀ q ∈ ps, Kept d d' q) :
    lookupIn d' name ps = lookupIn d name ps := by
  induction ps with
  | nil => rfl
  | cons q qs ih =>
    rw [lookupIn_cons (h q mem_cons_self), lookupIn,
      ih fun x hx => h x (mem_cons_of_mem q hx)]

/-- What was found is still found, if it has another name than the new entry. -/
theorem lookupIn_kept {name : List Byte} {f : Found} (hfree : Free d p) (hlive : Live d' p)
    (hname : slotName (d' p.1) p.2 ≠ name) (ps : List (Nat × Nat))
    (hkept : ∀ q ∈ ps, q ≠ p → Kept d d' q) (h : lookupIn d name ps = .hit f) :
    lookupIn d' name ps = .hit f := by
  induction ps with
  | nil => cases h
  | cons q qs ih =>
    have hrest := ih fun x hx => hkept x (mem_cons_of_mem q hx)
    rw [lookupIn] at h
    by_cases hq : q = p
    · -- The slot was marked as deleted, for the lookup came past it.
      subst hq
      split at h
      · cases h
      rename_i hend
      have hdead : ¬ (Live d q ∧ slotName (d q.1) q.2 = name) := fun hand =>
        hand.1.2.1 (hfree.resolve_left hend)
      rw [if_neg hdead] at h
      rw [lookupIn, if_neg hlive.1, if_neg fun hand => hname hand.2]
      exact hrest h
    · rw [lookupIn_cons (hkept q mem_cons_self hq)]
      split at h
      · cases h
      split at h
      · rename_i hend hhit
        rw [if_neg hend, if_pos hhit]
        exact h
      · rename_i hend hmiss
        rw [if_neg hend, if_neg hmiss]
        exact hrest h

theorem freeIn_congr (ps : List (Nat × Nat)) (h : ∀ q ∈ ps, d' q.1 q.2 = d q.1 q.2) :
    freeIn d ps = freeIn d' ps := by
  induction ps with
  | nil => rfl
  | cons q qs ih =>
    have hrest := ih fun x hx => h x (mem_cons_of_mem q hx)
    have hq : decide (Free d q) = decide (Free d' q) := by
      refine decide_eq_decide.mpr ?_
      rw [Free, Free, h q mem_cons_self]
    rw [freeIn, freeIn] at hrest ⊢
    rw [find?_cons, find?_cons, hq, hrest]

/-- The new entry is found, if nothing was found before. -/
theorem lookupIn_new {name : List Byte} (hlive : Live d' p) (hname : slotName (d' p.1) p.2 = name)
    (ps : List (Nat × Nat)) (hkept : ∀ q ∈ ps, q ≠ p → Kept d d' q) (hp : freeIn d ps = some p)
    (h : (lookupIn d name ps).found = none) : lookupIn d' name ps = .hit (foundAt d' p) := by
  induction ps with
  | nil => cases hp
  | cons q qs ih =>
    rw [freeIn, find?_cons] at hp
    by_cases hq : Free d q
    -- This is the slot that was filled, and the lookup stops here.
    · rw [show decide (Free d q) = true from decide_eq_true hq] at hp
      obtain rfl : q = p := Option.some.inj hp
      rw [lookupIn, if_neg hlive.1, if_pos ⟨hlive, hname⟩]
    · -- A slot in use, with another name.
      rw [show decide (Free d q) = false from decide_eq_false hq] at hp
      have hne : q ≠ p := fun heq => hq (heq ▸ (freeIn_some hp).2)
      rw [lookupIn] at h
      rw [lookupIn_cons (hkept q mem_cons_self hne)]
      have hend : d q.1 q.2 ≠ 0#8 := fun hzero => hq (.inl hzero)
      rw [if_neg hend] at h ⊢
      by_cases hhit : Live d q ∧ slotName (d q.1) q.2 = name
      · rw [if_pos hhit] at h
        cases h
      · rw [if_neg hhit] at h ⊢
        exact ih (fun x hx => hkept x (mem_cons_of_mem q hx)) hp h

end

section

variable {v : Volume} {d0 d : Disk} {isDir : Nat → Prop} {got cs cs0 : List Nat} {k k0 : Nat}
  {p q : Nat × Nat}

/-- The sectors of directories are as before when the slot is filled. -/
theorem dir_sector (h : WellFormed v d0 isDir) (hgrown : Grown v d0 got d) (hcs : Chain v d0 k cs)
    (hq : q ∈ dirSlots v cs) : d q.1 = d0 q.1 := by
  have hclosed := chain_closed cs hcs
  rcases dirSlots_mem h.geometry (fun c hc => (hclosed c hc).1) hq with ⟨c, hc, hin, _⟩
  exact (closed_kept hgrown hclosed hc).2 q.1 hin

variable (h : WellFormed v d0 isDir) (hgrown : Grown v d0 got d) (hcs : Chain v d0 k cs)
  (hp : freeIn d (dirSlots v cs) = some p) (entry : Memory)

include h hcs hp

/-- The slot to be filled is in a cluster of the directory. -/
theorem free_cluster : ∃ c ∈ cs, InCluster v c p.1 ∧ p.2 % dirEntrySize = 0 := by
  have hclosed := chain_closed cs hcs
  rcases dirSlots_mem h.geometry (fun c hc => (hclosed c hc).1) (freeIn_some hp).1 with
    ⟨c, hc, hin, _, hmod⟩
  exact ⟨c, hc, hin, hmod⟩

theorem chain_fill {c : Nat} {xs : List Nat} (hxs : Chain v d c xs) :
    Chain v (fill d p entry) c xs := by
  rcases free_cluster h hcs hp with ⟨_, _, hin, _⟩
  refine chain_congr xs hxs fun x hx => congrArg (· % 2 ^ 28) ?_
  exact fatEntry_update h.geometry (chain_closed xs hxs x hx).1.2 (inCluster_data hin) _

/-- No other directory has the slot. -/
theorem slot_apart (hk : isDir k) (hk0 : isDir k0) (hne : k0 ≠ k) (hcs0 : Chain v d0 k0 cs0) :
    p ∉ dirSlots v cs0 := by
  intro hmem
  rcases free_cluster h hcs hp with ⟨c, hc, hin, _⟩
  rcases dirSlots_mem h.geometry (fun c hc => (chain_closed cs0 hcs0 c hc).1) hmem with
    ⟨x, hx, hin', _⟩
  -- A shared slot would be in a cluster that both directories have.
  have heq := inCluster_unique (chain_closed cs hcs c hc).1.1 (chain_closed cs0 hcs0 x hx).1.1 hin
    hin'
  exact h.apart k0 k cs0 cs hk0 hk hne hcs0 hcs x hx (heq ▸ hc)

include hgrown

theorem free_slot : freeIn d0 (dirSlots v cs) = some p := by
  rw [← hp]
  exact freeIn_congr _ fun q hq => by rw [dir_sector h hgrown hcs hq]

/-- Every other slot of a directory is as before. -/
theorem kept_other (hcs0 : Chain v d0 k0 cs0) (hq : q ∈ dirSlots v cs0) (hne : q ≠ p) :
    Kept d0 (fill d p entry) q := by
  rcases free_cluster h hcs hp with ⟨_, _, _, hmod⟩
  rcases dirSlots_mem h.geometry (fun c hc => (chain_closed cs0 hcs0 c hc).1) hq with
    ⟨_, _, _, _, hmod'⟩
  intro i hi
  rw [fill_slot entry hne hmod hmod' i hi, dir_sector h hgrown hcs0 hq]

/-- Whatever was found in a directory is still found, unless it has the name of the new
    entry and is in the same directory. -/
theorem lookup_kept (hk : isDir k) (hlive : Live (fill d p entry) p) {name : List Byte} {f : Found}
    (hk0 : isDir k0) (hcs0 : Chain v d0 k0 cs0)
    (hname : k0 = k → slotName (fill d p entry p.1) p.2 ≠ name)
    (hfound : lookupIn d0 name (dirSlots v cs0) = .hit f) :
    lookupIn (fill d p entry) name (dirSlots v cs0) = .hit f := by
  have hfree := (freeIn_some (free_slot h hgrown hcs hp)).2
  by_cases hsame : k0 = k
  · exact lookupIn_kept hfree hlive (hname hsame) _
      (fun q hq hne => kept_other h hgrown hcs hp entry hcs0 hq hne) hfound
  -- Another directory has not changed at all.
  · have hapart := slot_apart h hcs hp hk hk0 hsame hcs0
    rw [lookupIn_congr name _ fun q hq => kept_other h hgrown hcs hp entry hcs0 hq
      fun heq => hapart (heq ▸ hq)]
    exact hfound

end

end CortexForge.Fat32
