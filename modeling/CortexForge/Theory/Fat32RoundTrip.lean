import CortexForge.Theory.Fat32Contents
import CortexForge.Theory.Fat32Lookup
import Mathlib.Data.List.TakeWhile

/-!
# A File Is Read Back

A file that was created is found under its path, with its size, and reading it gives
the data.

Creation and lookup take a path apart in two ways. Creation cuts it at the last slash
and follows what is in front; lookup takes components off one by one and has to notice
the last. `joinPath` puts the two parts together again, and following the whole path is
following the first part and then one more lookup.

On the way nothing has changed, except that the directory of the new file may be passed
as well. There, other names are found as before, and the name of the new file was not
one of them.

## Main definitions

* `joinPath`: A path from its directories and its last component.
* `Yields`: What a lookup comes to.

## Theorems

* `splitPath_join`: The parts of a path make up the path.
* `findFrom_walk`: A lookup follows the directories and then looks for the last
  component.
* `create_stored`: The chain of a new file has the data.
* `create_round_trip`: A new file is found and read back.
-/

namespace CortexForge.Fat32

open List Option

section

/-- The path of a file, from that of its directory and its name. -/
def joinPath (parent name : List Byte) : List Byte :=
  if parent = [] then name else parent ++ slash :: name

/-- A path is cut at its last slash, or has none. -/
theorem splitLast_cases (path : List Byte) :
    (splitLast path = none ∧ slash ∉ path) ∨ ∃ parent name, splitLast path = some (parent, name) ∧
      path = parent ++ slash :: name ∧ slash ∉ name := by
  induction path with
  | nil => exact .inl ⟨rfl, not_mem_nil⟩
  | cons c cs ih =>
    rcases ih with ⟨hcs, hnone⟩ | ⟨parent, name, hcs, hpath, hname⟩
    · by_cases hc : c = slash
      · refine .inr ⟨[], cs, ?_, ?_, hnone⟩
        · rw [splitLast, hcs]
          exact if_pos hc
        · simp [hc]
      · refine .inl ⟨?_, fun hmem => ?_⟩
        · rw [splitLast, hcs]
          exact if_neg hc
        · rcases mem_cons.mp hmem with heq | hmem
          · exact hc heq.symm
          · exact hnone hmem
    · refine .inr ⟨c :: parent, name, ?_, ?_, hname⟩
      · rw [splitLast, hcs]
      · simp [hpath]

theorem skipSlashes_cons (c : Byte) (cs : List Byte) :
    skipSlashes (c :: cs) = if c = slash then skipSlashes cs else c :: cs := by
  rw [skipSlashes, dropWhile_cons]
  simp only [decide_eq_true_eq]
  rfl

theorem skipSlashes_ne (path rest : List Byte) : skipSlashes path ≠ slash :: rest := by
  induction path with
  | nil => exact fun h => nomatch h
  | cons c cs ih =>
    rw [skipSlashes_cons]
    split
    · exact ih
    · rename_i hc
      exact fun h => hc (cons.inj h).1

/-- The parts that a creation takes a path into make up the path. -/
theorem splitPath_join (path : CString) :
    skipSlashes path.bytes = joinPath (splitPath path).1 (splitPath path).2 ∧
      slash ∉ (splitPath path).2 := by
  rw [splitPath]
  rcases splitLast_cases (skipSlashes path.bytes) with
    ⟨hsplit, hnone⟩ | ⟨parent, name, hsplit, hpath, hname⟩
  · rw [hsplit]
    exact ⟨(if_pos rfl).symm, hnone⟩
  · rw [hsplit]
    -- There is something in front of the slash, since slashes at the start are skipped.
    have hparent : parent ≠ [] := by
      rintro rfl
      exact skipSlashes_ne _ _ hpath
    exact ⟨hpath.trans (if_neg hparent).symm, hname⟩

/-- The name of a file has no byte that its path has not. -/
theorem splitPath_name (path : CString) : 0#8 ∉ (splitPath path).2 := by
  intro hmem
  have hjoin := (splitPath_join path).1
  have hpath : 0#8 ∈ skipSlashes path.bytes := by
    rw [hjoin, joinPath]
    split
    · exact hmem
    · exact mem_append_right _ (mem_cons_of_mem _ hmem)
  exact path.terminated ((dropWhile_suffix _).subset hpath)

variable {walk name : List Byte}

theorem otherComponents_length (h : walk ≠ []) : (otherComponents walk).length < walk.length := by
  have hskip : ∀ l : List Byte, (skipSlashes l).length ≤ l.length := fun l =>
    (dropWhile_suffix _).length_le
  rcases walk with _ | ⟨c, cs⟩
  · exact absurd rfl h
  rw [otherComponents, length_cons, Nat.lt_succ_iff]
  by_cases hc : c = slash
  · rw [dropWhile_cons_of_neg (by simp [hc]), skipSlashes_cons, if_pos hc]
    exact hskip cs
  · rw [dropWhile_cons_of_pos (by simp [hc])]
    exact Nat.le_trans (hskip _) (dropWhile_suffix _).length_le

/-- As long as there are directories, the first component is one of them. -/
theorem firstComponent_join (h : walk ≠ []) :
    firstComponent (joinPath walk name) = firstComponent walk := by
  have hcut : ∀ l : List Byte, firstComponent (l ++ slash :: name) = firstComponent l := by
    intro l
    induction l with
    | nil => exact takeWhile_cons_of_neg (by simp)
    | cons c cs ih =>
      rw [firstComponent, firstComponent] at ih ⊢
      rw [cons_append, takeWhile_cons, takeWhile_cons, ih]
  rw [joinPath, if_neg h, hcut]

/-- What comes after it are the other directories and the name. -/
theorem otherComponents_join (h : walk ≠ []) (hname : name ≠ []) (hslash : slash ∉ name) :
    otherComponents (joinPath walk name) = joinPath (otherComponents walk) name := by
  have hskip : ∀ l : List Byte, skipSlashes (l ++ slash :: name) =
    joinPath (skipSlashes l) name := by
    intro l
    induction l with
    | nil =>
      rcases name with _ | ⟨n, ns⟩
      · exact absurd rfl hname
      · have hn : n ≠ slash := fun heq => hslash (heq ▸ mem_cons_self)
        rw [nil_append, skipSlashes_cons, skipSlashes_cons, if_neg hn]
        rfl
    | cons c cs ih =>
      rw [cons_append, skipSlashes_cons, skipSlashes_cons]
      split
      · exact ih
      · rfl
  have hcut : ∀ l : List Byte, (l ++ slash :: name).dropWhile (· ≠ slash) =
      l.dropWhile (· ≠ slash) ++ slash :: name := by
    intro l
    induction l with
    | nil => exact dropWhile_cons_of_neg (by simp)
    | cons c cs ih =>
      rw [cons_append, dropWhile_cons, dropWhile_cons, ih]
      split <;> rfl
  rw [otherComponents, joinPath, if_neg h, hcut, hskip, otherComponents]

/-- A name is a path of one component. -/
theorem components_name (hslash : slash ∉ name) :
    firstComponent name = name ∧ otherComponents name = [] := by
  have hall : ∀ c ∈ name, decide (c ≠ slash) = true := fun c hc =>
    decide_eq_true fun heq => hslash (heq ▸ hc)
  refine ⟨takeWhile_eq_self_iff.mpr hall, ?_⟩
  rw [otherComponents, dropWhile_eq_nil_iff.mpr hall]
  rfl

end

section

variable {v : Volume} {dev : Device} {d d' : Disk} {isDir : Nat → Prop} {fuel fuel' k m : Nat}
  {t : Fat32} {name : List Byte}

/-- A lookup comes to a result, if it has time for the longest chain, and the disk is as
    it was then. -/
def Yields (v : Volume) (d : Disk) (fuel : Nat) (lookup : Option (Fat32 × Option Found))
    (r : Option Found) : Prop :=
  (∀ t r', lookup = some (t, r') → t.disk = d ∧ r' = r) ∧
    (fatEntries v < fuel → ∃ t r', lookup = some (t, r'))

theorem yields_some (ht : t.disk = d) (r : Option Found) :
    Yields v d fuel (some (t, r)) r := by
  refine ⟨fun t' r' heq => ?_, fun _ => ⟨t, r, rfl⟩⟩
  cases heq
  exact ⟨ht, rfl⟩

/-- A lookup that goes on with the result of another. -/
theorem yields_bind {lookup : Option (Fat32 × Option Found)} {r r' : Option Found}
    {next : Fat32 × Option Found → Option (Fat32 × Option Found)} (h : Yields v d fuel lookup r)
    (hnext : ∀ t : Fat32, t.disk = d → Yields v d fuel (next (t, r)) r') :
    Yields v d fuel (lookup.bind next) r' := by
  constructor
  · intro t r2 hbind
    rcases bind_eq_some_iff.mp hbind with ⟨⟨t1, r1⟩, hlook, hrest⟩
    rcases h.1 t1 r1 hlook with ⟨ht1, rfl⟩
    exact (hnext t1 ht1).1 t r2 hrest
  · intro hfuel
    rcases h.2 hfuel with ⟨t1, r1, hlook⟩
    rcases h.1 t1 r1 hlook with ⟨ht1, rfl⟩
    rw [hlook]
    exact (hnext t1 ht1).2 hfuel

theorem dirLookup_yields (hg : Geometry v) (hdone : Done dev) (component : List Byte)
    {cs : List Nat} {c : Nat} {s : Fat32} (hd : s.disk = d) (h : Chain v d c cs) :
    Yields v d fuel (dirLookup v dev component fuel s c)
      (lookupIn d component (dirSlots v cs)).found := by
  constructor
  · intro s' r hlook
    rcases dirLookup_cases hg cs fuel c s hd h hlook with ⟨hdisk, hr | ⟨_, hfail⟩⟩
    · exact ⟨hdisk, hr⟩
    · exact absurd hdone hfail
  · intro hfuel
    exact dirLookup_some hg hd h (Nat.lt_of_le_of_lt (chain_length hg h) hfuel)

theorem found_some {r : Scan Found} {f : Found} (h : r.found = some f) : r = .hit f := by
  rcases r with g | _ | _
  · exact congrArg Scan.hit (some.inj h)
  · exact nomatch h
  · exact nomatch h

/-- At the last directory there is one lookup left. -/
theorem findFrom_last (hg : Geometry v) (hdone : Done dev) (hname : name ≠ [])
    (hslash : slash ∉ name) {cs : List Nat} (ht : t.disk = d) (hcs : Chain v d k cs) (hm : 0 < m) :
    Yields v d fuel (findFrom dev v fuel m t k name)
      (lookupIn d (target name) (dirSlots v cs)).found := by
  rcases m with _ | m
  · omega
  rw [findFrom, if_neg hname, (components_name hslash).1, (components_name hslash).2]
  refine yields_bind (dirLookup_yields hg hdone _ ht hcs) fun t1 ht1 => ?_
  rcases (lookupIn d (target name) (dirSlots v cs)).found with _ | f
  · exact yields_some ht1 none
  · exact yields_some ht1 (some f)

/-- In front of it, the first component leads on. -/
theorem findFrom_next (hg : Geometry v) (hdone : Done dev) {walk : List Byte} (hname : name ≠ [])
    (hslash : slash ∉ name) (hwalk : walk ≠ []) {cs : List Nat} (ht : t.disk = d)
    (hcs : Chain v d k cs) {f : Found} {r : Option Found}
    (hhit : lookupIn d (target (firstComponent walk)) (dirSlots v cs) = .hit f)
    (hattr : f.attr &&& attrDirectory ≠ 0#8) (hrest : ∀ t1 : Fat32, t1.disk = d →
      Yields v d fuel
        (findFrom dev v fuel m t1 f.cluster (joinPath (otherComponents walk) name)) r) :
    Yields v d fuel (findFrom dev v fuel (m + 1) t k (joinPath walk name)) r := by
  have hne : joinPath walk name ≠ [] := by
    rw [joinPath, if_neg hwalk]
    exact append_ne_nil_of_left_ne_nil hwalk _
  have hmore : joinPath (otherComponents walk) name ≠ [] := by
    rw [joinPath]
    split
    · exact hname
    · exact append_ne_nil_of_right_ne_nil _ (cons_ne_nil _ _)
  have hlook := @dirLookup_yields v dev d fuel hg hdone (target (firstComponent walk)) cs k t ht hcs
  rw [hhit] at hlook
  rw [findFrom, if_neg hne, firstComponent_join hwalk, otherComponents_join hwalk hname hslash]
  refine yields_bind hlook fun t1 ht1 => ?_
  dsimp only [Scan.found]
  rw [if_pos hmore, if_neg hattr]
  exact hrest t1 ht1

/-- The directories of one disk are directories of the other, with all that is found
    in them. -/
structure DirsKept (v : Volume) (d d' : Disk) (isDir : Nat → Prop) : Prop where
  chain : ∀ k cs, isDir k → Chain v d k cs → Chain v d' k cs
  hit : ∀ k cs component f, isDir k → Chain v d k cs →
    lookupIn d (target component) (dirSlots v cs) = .hit f →
    lookupIn d' (target component) (dirSlots v cs) = .hit f

/-- Where directories lead to on one disk and nothing on the way is different on the
    other, a lookup there follows them and then looks for the last component. -/
theorem findFrom_walk (h : WellFormed v d isDir) (hdone : Done dev) (hname : name ≠ [])
    (hslash : slash ∉ name) (hkept : DirsKept v d d' isDir) {k' : Nat} {cs' : List Nat}
    (hcs' : Chain v d k' cs') :
    ∀ (n m : Nat) (s t : Fat32) (k : Nat) (walk : List Byte) {s' : Fat32},
    s.disk = d → t.disk = d' → isDir k → walk.length ≤ n → walk.length < m →
    walkFrom dev v fuel n s k walk = some (s', some k') →
    Yields v d' fuel' (findFrom dev v fuel' m t k (joinPath walk name))
      (lookupIn d' (target name) (dirSlots v cs')).found := by
  have hg := h.geometry
  intro n
  induction n with
  | zero =>
    intro m s t k walk s' _ ht hk hlen hm hwalk
    obtain rfl := eq_nil_of_length_eq_zero (Nat.le_zero.mp hlen)
    cases hwalk
    exact findFrom_last hg hdone hname hslash ht (hkept.chain k' cs' hk hcs') hm
  | succ n ih =>
    intro m s t k walk s' hd ht hk hlen hm hwalk
    rw [walkFrom] at hwalk
    by_cases hnil : walk = []
    · subst hnil
      cases hwalk
      exact findFrom_last hg hdone hname hslash ht (hkept.chain k' cs' hk hcs') hm
    rw [if_neg hnil] at hwalk
    rcases bind_eq_some_iff.mp hwalk with ⟨⟨s1, r1⟩, hlook, hwalk⟩
    rcases r1 with _ | f
    · cases hwalk
    dsimp only at hwalk
    split_ifs at hwalk with hattr
    · cases hwalk
    rcases h.chain k hk with ⟨cs, hcs⟩
    rcases lookup_dir h hk hd hlook hattr with ⟨hd1, hk1⟩
    -- The same entry is found on the other disk.
    have hfound := ((dirLookup_yields hg hdone _ hd hcs).1 s1 (some f) hlook).2
    have hhit := hkept.hit k cs _ f hk hcs (found_some hfound.symm)
    have hshorter := otherComponents_length hnil
    rcases m with _ | m
    · omega
    refine findFrom_next hg hdone hname hslash hnil ht (hkept.chain k cs hk hcs) hhit hattr
      fun t1 ht1 => ?_
    exact ih m s1 t1 f.cluster _ hd1 ht1 hk1 (by omega) (by omega) hwalk

/-- A lookup of a path whose directories lead somewhere looks for its last component
    there. -/
theorem find_walk (h : WellFormed v d isDir) (hdone : Done dev) {path : CString}
    (hname : (splitPath path).2 ≠ []) (hkept : DirsKept v d d' isDir) {k : Nat} {cs : List Nat}
    (hcs : Chain v d k cs) {s s' t : Fat32} (hs : s.disk = d) (ht : t.disk = d')
    (hwalk : walkFrom dev v fuel (splitPath path).1.length s v.rootCluster (splitPath path).1 =
      some (s', some k)) :
    Yields v d' fuel' (fat32Find dev v fuel' t path)
      (lookupIn d' (target (splitPath path).2) (dirSlots v cs)).found := by
  rcases splitPath_join path with ⟨hjoin, hslash⟩
  -- The loop over the components is bounded by the length of the whole path.
  have hlen : (splitPath path).1.length < path.bytes.length := by
    have hskip : (skipSlashes path.bytes).length ≤ path.bytes.length :=
      (dropWhile_suffix _).length_le
    have hpos := length_pos_iff.mpr hname
    rw [hjoin, joinPath] at hskip
    split at hskip
    · rename_i hnil
      rw [hnil, length_nil]
      omega
    · rw [length_append, length_cons] at hskip
      omega
  rw [fat32Find, hjoin]
  exact findFrom_walk h hdone hname hslash hkept hcs _ _ s t _ _ hs ht h.root (Nat.le_refl _) hlen
    hwalk

end

section

variable {v : Volume} {dev : Device} {data : Memory} {isDir : Nat → Prop}
  {fuel len : Nat} {path : CString} {s s' : Fat32}

/-- What a creation that succeeds has done: the data is the contents of a chain of
    clusters that were free, and the entry is in the first free slot. -/
theorem create_stored (h : WellFormed v s.disk isDir) (hdone : Done dev)
    (hlen : len + v.bytesPerCluster ≤ 2 ^ 32)
    (hcreate : fat32Create dev v fuel s path data len = some (s', true)) :
    ∃ s1 k cs got d p first, isDir k ∧ Chain v s.disk k cs ∧
      walkFrom dev v fuel (splitPath path).1.length s v.rootCluster (splitPath path).1 =
        some (s1, some k) ∧
      Grown v s.disk got d ∧ len ≤ got.length * v.bytesPerCluster ∧
      (len = 0 ∧ first = 0 ∧ got = [] ∨ Chain v d first got ∧ first ∈ got) ∧
      (∀ n < len, contents v d got n = data n) ∧ freeIn d (dirSlots v cs) = some p ∧
      s'.disk = fill d p (dirEntry (target (splitPath path).2) first len) := by
  have hg := h.geometry
  rcases bind_eq_some_iff.mp hcreate with ⟨⟨s1, r⟩, hwalk, hcreate⟩
  rcases walkFrom_dir h _ s _ _ rfl h.root hwalk with ⟨hd1, hdir⟩
  rcases r with _ | k
  · cases hcreate
  rcases bind_eq_some_iff.mp hcreate with ⟨⟨s2, r2⟩, hstore, hcreate⟩
  rcases r2 with _ | first
  · cases hcreate
  rcases storeData_done hg hdone hlen hstore with ⟨got, hgrown, hroom, hfirst, hbytes⟩
  rw [hd1] at hgrown
  rcases h.chain k (hdir k rfl) with ⟨cs, hcs⟩
  rcases dirAddEntry_cases hg cs fuel k s2 rfl (chain_grown hgrown hcs) hcreate with
    ⟨_, hfail, _⟩ | ⟨p, hp, hfill, _⟩
  · cases hfail
  · exact ⟨s1, k, cs, got, s2.disk, p, first, hdir k rfl, hcs, hwalk, hgrown, hroom, hfirst, hbytes,
      hp, hfill⟩

/-- The data of a new file after its entry was written. -/
theorem stored_contents (h : WellFormed v s.disk isDir) {k first : Nat} {cs got : List Nat}
    {d : Disk} {p : Nat × Nat} (hcs : Chain v s.disk k cs) (hgrown : Grown v s.disk got d)
    (hp : freeIn d (dirSlots v cs) = some p)
    (hfirst : len = 0 ∧ first = 0 ∧ got = [] ∨ Chain v d first got ∧ first ∈ got)
    (hbytes : ∀ n < len, contents v d got n = data n) (entry : Memory) :
    (len = 0 ∨ Chain v (fill d p entry) first got) ∧
      (range len).map (contents v (fill d p entry) got) = (range len).map data := by
  have hg := h.geometry
  constructor
  · exact hfirst.imp And.left fun hchain => chain_fill h hcs hp entry hchain.1
  · refine map_congr_left fun n hn => ?_
    rw [← hbytes n (mem_range.mp hn)]
    -- The directory shares no sector with the clusters taken.
    refine contents_congr hg got (fun c hc => (hgrown.closed c hc).1) (fun c hc sector hin => ?_) n
    refine fill_other entry ?_
    rintro rfl
    rcases free_cluster h hcs hp with ⟨x, hx, hin', _⟩
    have heq := inCluster_unique (hgrown.closed c hc).1.1 (chain_closed cs hcs x hx).1.1 hin hin'
    exact closed_disjoint hgrown (chain_closed cs hcs) hx (heq ▸ hc)

end

/-- A file that was created under a path that led to nothing is found under it with its
    size, and reading it gives the data. -/
theorem create_round_trip (v : Volume) (dev : Device) (s : Fat32) (path : CString)
    (data : Memory) (len : Nat) (isDir : Nat → Prop) (h : WellFormed v s.disk isDir)
    (hdone : Done dev) (hlen : len < 2 ^ 31) (hname : (splitPath path).2 ≠ [])
    (hdeleted : (splitPath path).2.head? ≠ some deleted)
    (hmissing : ∃ fuel s0, fat32Find dev v fuel s path = some (s0, none)) {fuel : Nat} {s' : Fat32}
    (hcreate : fat32Create dev v fuel s path data len = some (s', true)) :
    ∃ bound, ∀ fuel' > bound, ∃ t f, fat32Find dev v fuel' s' path = some (t, some f) ∧
      f.size = len ∧ ∀ bufLen ≥ len, ∃ u,
        fat32Read v dev fuel' t f.cluster f.size bufLen =
          some (u, (range len).map data, (len : Int)) := by
  have hg := h.geometry
  have hsum : len + v.bytesPerCluster ≤ 2 ^ 32 := by
    have hsectors := hg.sectors_lt
    rw [hg.bytes, sectorSize]
    omega
  rcases create_stored h hdone hsum hcreate with
    ⟨s1, k, cs, got, d, p, first, hk, hcs, hwalk, hgrown, hroom, hfirst, hbytes, hp, hdisk⟩
  -- The new entry.
  have hcluster : first < 2 ^ 32 := by
    rcases hfirst with ⟨_, hzero, _⟩ | ⟨_, hmem⟩
    · omega
    · have hlt := indexable_lt hg (hgrown.closed first hmem).1
      rw [fat32Eoc] at hlt
      omega
  have hsize : len < 2 ^ 32 := Nat.lt_trans hlen (by decide)
  have hlive := fill_live d p hcluster hsize (splitPath_name path) hdeleted
  rcases fill_fields d p hcluster hsize with ⟨hslot, hfound⟩
  rw [← hdisk] at hlive hslot hfound
  -- The name was not in the directory before.
  rcases hmissing with ⟨fuel0, s0, hfind⟩
  have hnone := ((find_walk h hdone hname ⟨fun _ _ _ hc => hc, fun _ _ _ _ _ _ hit => hit⟩ hcs rfl
    rfl hwalk).1 s0 none hfind).2
  -- The way to it is as before.
  have hkept : DirsKept v s.disk s'.disk isDir := by
    refine ⟨fun k0 cs0 _ hcs0 => ?_, fun k0 cs0 component f hk0 hcs0 hit => ?_⟩
    · rw [hdisk]
      exact chain_fill h hcs hp _ (chain_grown hgrown hcs0)
    rw [hdisk] at hlive hslot ⊢
    refine lookup_kept h hgrown hcs hp _ hk hlive hk0 hcs0 ?_ hit
    rintro rfl heq
    rw [hslot] at heq
    rw [← heq, chain_unique hg cs0 hcs0 hcs] at hit
    rw [hit] at hnone
    cases hnone
  have hnew : lookupIn s'.disk (target (splitPath path).2) (dirSlots v cs) =
      .hit ⟨first, len, attrArchive⟩ := by
    rw [← hslot] at hnone ⊢
    rw [← hfound, hdisk]
    rw [hdisk] at hlive hnone
    exact lookupIn_new hlive rfl _ (fun _ hq hne => kept_other h hgrown hcs hp _ hcs hq hne)
      (free_slot h hgrown hcs hp) hnone.symm
  rcases stored_contents h hcs hgrown hp hfirst hbytes
    (dirEntry (target (splitPath path).2) first len)
    with ⟨hchain, hcontents⟩
  refine ⟨fatEntries v, fun fuel' hfuel => ?_⟩
  have hfind' := @find_walk v dev s.disk s'.disk isDir fuel fuel' h hdone path hname hkept k cs hcs
    s s1 s' rfl rfl hwalk
  rcases hfind'.2 hfuel with ⟨t, r, hr⟩
  rcases hfind'.1 t r hr with ⟨ht, rfl⟩
  rw [hnew] at hr
  refine ⟨t, ⟨first, len, attrArchive⟩, hr, rfl, fun bufLen hbuf => ?_⟩
  rw [← hdisk, ← ht] at hchain hcontents
  have hshort : got.length < fuel' := by
    rcases hfirst with ⟨_, _, rfl⟩ | ⟨hgot, _⟩
    · exact Nat.lt_of_le_of_lt (Nat.zero_le _) hfuel
    · exact Nat.lt_of_le_of_lt (chain_length hg hgot) hfuel
  rcases fat32Read_done hg hdone hchain hroom hbuf hlen hshort with ⟨u, hread⟩
  exact ⟨u, by rw [hread, hcontents]⟩

/-- A second file, of more than one cluster, is read back. -/
theorem create_round_trip_second :
    ∃ s' fuel t f u,
      fat32Create (fun _ => .done) smallVolume 200 oneFile secondPath (BitVec.ofNat 8) 600 =
        some (s', true) ∧
      fat32Find (fun _ => .done) smallVolume fuel s' secondPath = some (t, some f) ∧
      f.size = 600 ∧
      fat32Read smallVolume (fun _ => .done) fuel t f.cluster f.size 1024 =
        some (u, (range 600).map (BitVec.ofNat 8), 600) := by
  have hsucceeds : (fat32Create (fun _ => .done) smallVolume 200 oneFile secondPath
      (BitVec.ofNat 8) 600).map Prod.snd = some true := by rfl
  have hnothing : (fat32Find (fun _ => .done) smallVolume 9 oneFile secondPath).map Prod.snd =
      some none := by rfl
  rcases map_eq_some_iff.mp hsucceeds with ⟨⟨s', ok⟩, hcreate, rfl⟩
  rcases map_eq_some_iff.mp hnothing with ⟨⟨s0, r⟩, hmissing, rfl⟩
  rcases create_round_trip smallVolume (fun _ => .done) oneFile secondPath (BitVec.ofNat 8) 600
    (· = 2) oneFile_wellFormed (fun _ => rfl) (by decide) (by decide) (by decide)
    ⟨9, s0, hmissing⟩ hcreate with ⟨bound, htrip⟩
  rcases htrip (bound + 1) (Nat.lt_succ_self bound) with ⟨t, f, hfind, hsize, hread⟩
  rcases hread 1024 (by decide) with ⟨u, hu⟩
  exact ⟨s', bound + 1, t, f, u, hcreate, hfind, hsize, hu⟩

end CortexForge.Fat32
