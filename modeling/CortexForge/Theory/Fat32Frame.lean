import CortexForge.Theory.Fat32Table
import Mathlib.Data.List.Perm.Subperm

/-!
# What Creating a File Writes

The creation of a file changes the disk in three kinds of places: entries of the
table that were free, sectors of the clusters that these entries are of, and one free
slot of a directory. This holds however far it gets and whichever requests fail.

`Grown` is the invariant up to the directory entry. It keeps the list of clusters
taken so far and says that each was free before, that its chain stays among them, and
that the disk is as before everywhere else. A write of data follows the chain that was
just built, so it never leaves these clusters, even where a read of the table fails
and cuts it short.

Directories and files that exist are chains of clusters whose entries are not free, so
nothing of them changes before the directory entry is written.

## Main definitions

* `Chain`: The clusters of a file or directory.
* `Grown`: The disk with clusters taken.
* `Linked`, `Allocates`: The state of the loop that allocates, and what it leaves.

## Theorems

* `allocChain_cases`: The loop that allocates.
* `storeData_cases`: The allocation and the write of the data.
* `chain_length`: A chain is no longer than the table.
* `chain_returns`: A loop along a chain returns.
* `chain_grown`: A chain that exists is not changed.
-/

namespace CortexForge.Fat32

open Function List

/-- From `c` on, the table leads through the clusters `cs` to an end of chain. -/
def Chain (v : Volume) (d : Disk) : Nat → List Nat → Prop
  | c, [] => fat32Eoc ≤ c
  | c, x :: xs => c = x ∧ Indexable v x ∧ Chain v d (nextCluster v d x) xs

/-- The table never leads out of these clusters but to an end of chain. -/
def Closed (v : Volume) (d : Disk) (cs : List Nat) : Prop :=
  ∀ c ∈ cs, Indexable v c ∧ (fat32Eoc ≤ nextCluster v d c ∨ nextCluster v d c ∈ cs)

/-- The disk `d` is `d0` with the clusters `got` taken. -/
structure Grown (v : Volume) (d0 : Disk) (got : List Nat) (d : Disk) : Prop where
  free : ∀ c ∈ got, nextCluster v d0 c = 0
  closed : Closed v d got
  entries : ∀ c < fatEntries v, c ∉ got → fatEntry v d c = fatEntry v d0 c
  outside : ∀ sector, v.dataStartSector ≤ sector → (∀ c ∈ got, ¬ InCluster v c sector) →
    d sector = d0 sector

section

variable {v : Volume} {d : Disk} {c : Nat} {cs : List Nat}

theorem indexable_lt (hg : Geometry v) (hc : Indexable v c) : c < fat32Eoc := by
  have hentries := hg.entries
  have hlt := hc.2
  rw [fat32Eoc]
  omega

/-- The number of a cluster goes into the low bits of an entry. -/
theorem indexable_low (hg : Geometry v) (hc : Indexable v c) : c % 2 ^ 28 = c := by
  have hlt := indexable_lt hg hc
  rw [fat32Eoc] at hlt
  exact Nat.mod_eq_of_lt (by omega)

/-- A chain starts with its first cluster, or is over. -/
theorem chain_head (h : Chain v d c cs) : fat32Eoc ≤ c ∨ c ∈ cs := by
  cases cs with
  | nil => exact .inl h
  | cons x xs => exact .inr (h.1 ▸ mem_cons_self)

theorem chain_closed (cs : List Nat) : ∀ {c : Nat}, Chain v d c cs → Closed v d cs := by
  induction cs with
  | nil => exact nofun
  | cons y ys ih =>
    intro c h x hx
    rcases mem_cons.mp hx with rfl | hx
    · exact ⟨h.2.1, (chain_head h.2.2).imp_right (mem_cons_of_mem _)⟩
    · have hrest := ih h.2.2 x hx
      exact ⟨hrest.1, hrest.2.imp_right (mem_cons_of_mem _)⟩

theorem chain_unique (hg : Geometry v) (cs : List Nat) : ∀ {c : Nat} {cs' : List Nat},
    Chain v d c cs → Chain v d c cs' → cs = cs' := by
  induction cs with
  | nil =>
    intro c cs' h h'
    cases cs' with
    | nil => rfl
    | cons y ys => exact absurd h (Nat.not_le_of_lt (h'.1 ▸ indexable_lt hg h'.2.1))
  | cons x xs ih =>
    intro c cs' h h'
    cases cs' with
    | nil => exact absurd h' (Nat.not_le_of_lt (h.1 ▸ indexable_lt hg h.2.1))
    | cons y ys =>
      have hxy : x = y := h.1.symm.trans h'.1
      subst hxy
      rw [ih h.2.2 h'.2.2]

/-- A cluster of a chain is not free. -/
theorem closed_used (h : Closed v d cs) (hc : c ∈ cs) : nextCluster v d c ≠ 0 := by
  intro hzero
  have hnext := (h c hc).2
  rw [hzero] at hnext
  -- The entry 0 is no end of chain, and 0 is no cluster either.
  rcases hnext with hend | hmem
  · exact absurd hend (by decide)
  · exact absurd (h 0 hmem).1.1 (by decide)

/-- A chain depends on the entries of its clusters. -/
theorem chain_congr {d' : Disk} (cs : List Nat) : ∀ {c : Nat}, Chain v d c cs →
    (∀ x ∈ cs, nextCluster v d' x = nextCluster v d x) → Chain v d' c cs := by
  induction cs with
  | nil => exact fun h _ => h
  | cons x xs ih =>
    intro c h hag
    refine ⟨h.1, h.2.1, ?_⟩
    rw [hag x mem_cons_self]
    exact ih h.2.2 fun y hy => hag y (mem_cons_of_mem x hy)

/-- From any of its clusters on, a chain is a chain. -/
theorem chain_suffix (as : List Nat) : ∀ {c x : Nat} {bs : List Nat},
    Chain v d c (as ++ x :: bs) → Chain v d x (x :: bs) := by
  induction as with
  | nil =>
    intro c x bs h
    exact ⟨rfl, h.2⟩
  | cons a as ih => exact fun h => ih h.2.2

/-- A chain that came back to a cluster would not end. -/
theorem chain_nodup (hg : Geometry v) (cs : List Nat) : ∀ {c : Nat}, Chain v d c cs → cs.Nodup := by
  induction cs with
  | nil => exact fun _ => nodup_nil
  | cons x xs ih =>
    intro c h
    refine nodup_cons.mpr ⟨fun hmem => ?_, ih h.2.2⟩
    -- From `x` on there would be two chains of different lengths.
    rcases append_of_mem hmem with ⟨as, bs, hsplit⟩
    have hagain : Chain v d x (x :: bs) := by
      have hrest := h.2.2
      rw [hsplit] at hrest
      exact chain_suffix as hrest
    have hwhole : Chain v d x (x :: xs) := ⟨rfl, h.2⟩
    have heq := congrArg length (chain_unique hg _ hwhole hagain)
    rw [hsplit] at heq
    simp only [length_cons, length_append] at heq
    omega

theorem chain_length (hg : Geometry v) {c : Nat} {cs : List Nat} (h : Chain v d c cs) :
    cs.length ≤ fatEntries v := by
  have hsub : cs ⊆ range (fatEntries v) := fun x hx =>
    mem_range.mpr (chain_closed cs h x hx).1.2
  have hle := (subperm_of_subset (chain_nodup hg cs h) hsub).length_le
  rwa [length_range] at hle

/-- A chain is made longer: its last cluster leads to another one, which ends it. -/
theorem chain_extend {d' : Disk} {a : Nat} (xs : List Nat) : ∀ {c last : Nat}, Chain v d c xs →
    xs.Nodup → xs.getLast? = some last →
    (∀ x ∈ xs, x ≠ last → nextCluster v d' x = nextCluster v d x) → nextCluster v d' last = a →
    Chain v d' a [a] → Chain v d' c (xs ++ [a]) := by
  induction xs with
  | nil => exact fun _ _ hlast => nomatch hlast
  | cons x xs ih =>
    intro c last h hnodup hlast hother hnext ha
    refine ⟨h.1, h.2.1, ?_⟩
    rcases xs with _ | ⟨y, ys⟩
    -- The last cluster: here the chain used to end.
    · obtain rfl : x = last := Option.some.inj hlast
      rw [hnext]
      exact ha
    · have hne : x ≠ last := fun heq =>
        (nodup_cons.mp hnodup).1 (heq ▸ mem_of_getLast? hlast)
      rw [hother x mem_cons_self hne]
      exact ih h.2.2 (nodup_cons.mp hnodup).2 hlast
        (fun z hz => hother z (mem_cons_of_mem x hz)) hnext ha

/-- A loop along a chain returns, if it returns at the end of a chain and each round
    returns or goes on to the next cluster. A failed read of the table is an end as
    well. -/
theorem chain_returns {σ ρ : Type} {dev : Device} (loop : Nat → Fat32 → Nat → σ → Option ρ)
    (hend : ∀ fuel s c a, fat32Eoc ≤ c → ∃ r, loop (fuel + 1) s c a = some r)
    (hround : ∀ fuel s c a, s.disk = d → Indexable v c →
      (∃ r, loop (fuel + 1) s c a = some r) ∨ ∃ t a', t.disk = d ∧
        loop (fuel + 1) s c a = loop fuel (fatNext v dev t c).1 (fatNext v dev t c).2 a')
    (cs : List Nat) : ∀ (fuel c : Nat) (s : Fat32) (a : σ), s.disk = d → Chain v d c cs →
    cs.length < fuel → ∃ r, loop fuel s c a = some r := by
  induction cs with
  | nil =>
    intro fuel c s a _ h hfuel
    rcases fuel with _ | fuel
    · omega
    · exact hend fuel s c a h
  | cons x xs ih =>
    rintro fuel c s a hd ⟨rfl, hc, hrest⟩ hfuel
    rcases fuel with _ | fuel
    · omega
    have hfuel' : xs.length < fuel := Nat.lt_of_succ_lt_succ hfuel
    rcases hround fuel s c a hd hc with hreturns | ⟨t, a', ht, hnext⟩
    · exact hreturns
    rw [hnext]
    -- A read of the table that fails looks like an end of chain.
    rcases fatNext_cases v dev t c with heoc | hval
    · rcases fuel with _ | fuel
      · exact absurd hfuel' (Nat.not_lt_zero _)
      · exact hend fuel _ _ a' (Nat.le_of_eq heoc.symm)
    · rw [hval, ht]
      exact ih fuel _ _ a' ((fatNext_disk v dev t c).trans ht) hrest hfuel'

end

section

variable {v : Volume} {d0 d : Disk} {got : List Nat} {c sector : Nat}

theorem grown_nil (v : Volume) (d : Disk) : Grown v d [] d :=
  ⟨nofun, nofun,
    fun _ _ _ => rfl, fun _ _ _ => rfl⟩

/-- The entry of a cluster that was taken already is not free. -/
theorem grown_fresh (h : Grown v d0 got d) (hfree : nextCluster v d c = 0) : c ∉ got :=
  fun hmem => closed_used h.closed hmem hfree

variable (hg : Geometry v)
include hg

/-- Another free cluster is taken. -/
theorem grown_alloc (h : Grown v d0 got d) (hc : Indexable v c) (hfree : nextCluster v d c = 0) :
    Grown v d0 (got ++ [c]) (setEntry v d c 0x0FFFFFFF) := by
  have hnew := grown_fresh h hfree
  -- Clusters taken before keep their entries.
  have hother : ∀ x ∈ got, nextCluster v (setEntry v d c 0x0FFFFFFF) x = nextCluster v d x := by
    intro x hx
    have hne : x ≠ c := fun heq => hnew (heq ▸ hx)
    simp [nextCluster, fatEntry_setEntry_other hg hc.2 (h.closed x hx).1.2 hne]
  refine ⟨fun x hx => ?_, fun x hx => ?_, fun x hx hout => ?_, fun sector hsec hout => ?_⟩
  · rcases mem_append.mp hx with hx | hx
    · exact h.free x hx
    · -- The entry was the same before.
      have hsame := h.entries c hc.2 hnew
      rw [mem_singleton.mp hx, nextCluster, ← hsame]
      exact hfree
  · rcases mem_append.mp hx with hx | hx
    · rw [hother x hx]
      exact ⟨(h.closed x hx).1, (h.closed x hx).2.imp_right (mem_append_left _)⟩
    · rw [mem_singleton.mp hx, nextCluster_setEntry]
      exact ⟨hc, .inl (by decide)⟩
  · rw [mem_append, not_or] at hout
    have hne : x ≠ c := fun heq => hout.2 (mem_singleton.mpr heq)
    rw [fatEntry_setEntry_other hg hc.2 hx hne]
    exact h.entries x hx hout.1
  · rw [setEntry_outside hg hc.2 (.inr hsec)]
    exact h.outside sector hsec fun x hx => hout x (mem_append_left _ hx)

/-- A taken cluster is chained to another one. -/
theorem grown_link (h : Grown v d0 got d) {prev : Nat} (hprev : prev ∈ got)
    (hc : c ∈ got) : Grown v d0 got (setEntry v d prev c) := by
  have hindex := (h.closed prev hprev).1
  refine ⟨h.free, fun x hx => ⟨(h.closed x hx).1, ?_⟩, fun x hx hout => ?_,
    fun sector hsec hout => ?_⟩
  -- The entry of `prev` led to an end of chain or not, and leads to `c` now.
  · by_cases hxp : x = prev
    · rw [hxp, nextCluster_setEntry, indexable_low hg (h.closed c hc).1]
      exact .inr hc
    · rw [nextCluster, fatEntry_setEntry_other hg hindex.2 (h.closed x hx).1.2 hxp]
      exact (h.closed x hx).2
  · have hne : x ≠ prev := fun heq => hout (heq ▸ hprev)
    rw [fatEntry_setEntry_other hg hindex.2 hx hne]
    exact h.entries x hx hout
  · rw [setEntry_outside hg hindex.2 (.inr hsec)]
    exact h.outside sector hsec hout

/-- The table is before the data. -/
theorem fatEntry_below (hc : c < fatEntries v) {d' : Disk}
    (h : ∀ sector < v.dataStartSector, d' sector = d sector) :
    fatEntry v d' c = fatEntry v d c := by
  have hplace := (fatPlace hg hc).1
  have hrow := fatEntries_row hc
  exact fatEntry_congr (h _ (by omega))

/-- A write to a sector of data leaves the table alone. -/
theorem fatEntry_update (hc : c < fatEntries v) (hsec : v.dataStartSector ≤ sector) (buf : Memory) :
    fatEntry v (update d sector buf) c = fatEntry v d c :=
  fatEntry_below hg hc fun x hx => update_of_ne (by omega) _ _

/-- A sector of a taken cluster is written. -/
theorem grown_write (h : Grown v d0 got d) (hc : c ∈ got) (hin : InCluster v c sector)
    (buf : Memory) :
    Grown v d0 got (update d sector buf) := by
  have hsec := inCluster_data hin
  refine ⟨h.free, fun x hx => ⟨(h.closed x hx).1, ?_⟩, fun x hx hout => ?_, fun y hy hout => ?_⟩
  · rw [nextCluster, fatEntry_update hg (h.closed x hx).1.2 hsec]
    exact (h.closed x hx).2
  · rw [fatEntry_update hg hx hsec]
    exact h.entries x hx hout
  · have hne : y ≠ sector := fun heq => hout c hc (heq ▸ hin)
    rw [update_of_ne hne]
    exact h.outside y hy hout

end

section

variable {v : Volume} {dev : Device} {d0 d : Disk} {got : List Nat} {s' : Fat32}

/-- How far the loop that allocates is after `i` rounds: it has nothing yet, or a chain
    from `first` to `prev`. -/
def Linked (v : Volume) (d : Disk) (i first prev : Nat) (got : List Nat) : Prop :=
  (i = 0 ∧ first = 0 ∧ prev = 0 ∧ got = []) ∨
    (i ≠ 0 ∧ Chain v d first got ∧ got.getLast? = some prev)

/-- The first cluster taken is a chain by itself. -/
theorem linked_first {a : Nat} (ha : Indexable v a) :
    Linked v (setEntry v d a 0x0FFFFFFF) 1 a a [a] := by
  refine .inr ⟨Nat.one_ne_zero, ⟨rfl, ha, ?_⟩, rfl⟩
  rw [nextCluster_setEntry]
  exact Nat.le_of_ble_eq_true rfl

/-- Another cluster is chained to the last one. -/
theorem linked_next (hg : Geometry v) {i first prev a : Nat} (hgrown : Grown v d0 got d)
    (hchain : Chain v d first got) (hlast : got.getLast? = some prev) (ha : Indexable v a)
    (hfree : nextCluster v d a = 0) :
    Linked v (setEntry v (setEntry v d a 0x0FFFFFFF) prev a) (i + 1) first a (got ++ [a]) := by
  have hnew := grown_fresh hgrown hfree
  have hindex : ∀ x ∈ got, Indexable v x := fun x hx => (hgrown.closed x hx).1
  have hprev := mem_of_getLast? hlast
  have hap : a ≠ prev := fun heq => hnew (heq ▸ hprev)
  refine .inr ⟨Nat.succ_ne_zero i, ?_, getLast?_concat⟩
  refine chain_extend got hchain (chain_nodup hg got hchain) hlast (fun x hx hne => ?_) ?_
    ⟨rfl, ha, ?_⟩
  · have hxa : x ≠ a := fun heq => hnew (heq ▸ hx)
    simp only [nextCluster, fatEntry_setEntry_other hg (hindex prev hprev).2 (hindex x hx).2 hne,
      fatEntry_setEntry_other hg ha.2 (hindex x hx).2 hxa]
  · rw [nextCluster_setEntry, indexable_low hg ha]
  · rw [nextCluster, fatEntry_setEntry_other hg (hindex prev hprev).2 ha.2 hap]
    exact Nat.le_trans (Nat.le_of_ble_eq_true rfl) (Nat.le_of_eq (nextCluster_setEntry _).symm)

/-- What the loop that allocates leaves, with `got` taken after `i` rounds and `n` rounds to
    go. It stops early if the device fails or there is no free cluster left. -/
def Allocates (v : Volume) (dev : Device) (d0 : Disk) (got : List Nat) (i n : Nat) (s' : Fat32)
    (r : Option Nat) : Prop :=
  ∃ more, Grown v d0 (got ++ more) s'.disk ∧
    ((∃ first prev, r = some first ∧ more.length = n ∧
        Linked v s'.disk (i + n) first prev (got ++ more)) ∨
      r = none ∧ more.length ≤ n ∧
        (Done dev → ∀ x, Indexable v x → nextCluster v s'.disk x ≠ 0))

/-- The loop stops after a request that failed. -/
theorem allocates_failed {i n : Nat} {more : List Nat} (h : Grown v d0 (got ++ more) s'.disk)
    (hlen : more.length ≤ n) (hfail : ¬ Done dev) : Allocates v dev d0 got i n s' none :=
  ⟨more, h, .inr ⟨rfl, hlen, fun hdone => absurd hdone hfail⟩⟩

/-- What the rest of the loop takes comes behind. -/
theorem allocates_cons {i n c : Nat} {r : Option Nat}
    (h : Allocates v dev d0 (got ++ [c]) (i + 1) n s' r) :
    Allocates v dev d0 got i (n + 1) s' r := by
  rcases h with ⟨more, hmore, hr⟩
  rw [append_assoc] at hmore hr
  have hlonger : ([c] ++ more).length = more.length + 1 := rfl
  refine ⟨[c] ++ more, hmore, ?_⟩
  rcases hr with ⟨first, prev, hr, hlen, hlinked⟩ | ⟨hr, hlen, hfull⟩
  · rw [Nat.add_assoc, Nat.add_comm 1 n] at hlinked
    exact .inl ⟨first, prev, hr, congrArg (· + 1) hlen, hlinked⟩
  · exact .inr ⟨hr, Nat.succ_le_succ hlen, hfull⟩

/-- The loop that allocates: each round takes a cluster and chains the one before to it. -/
theorem allocChain_cases (hg : Geometry v) (fuel : Nat) : ∀ (n i : Nat) (s : Fat32)
    (first prev : Nat) (got : List Nat) {r : Option Nat}, Grown v d0 got s.disk →
    Linked v s.disk i first prev got → allocChain dev v fuel i n s first prev = some (s', r) →
    Allocates v dev d0 got i n s' r := by
  intro n
  induction n with
  | zero =>
    intro i s first prev got r h hlinked halloc
    cases halloc
    refine ⟨[], ?_, .inl ⟨first, prev, rfl, rfl, ?_⟩⟩
    · rwa [append_nil]
    · rwa [append_nil]
  | succ n ih =>
    intro i s first prev got r h hlinked halloc
    have hone : 1 ≤ n + 1 := Nat.succ_le_succ (Nat.zero_le n)
    rcases Option.bind_eq_some_iff.mp halloc with ⟨⟨s1, c⟩, hfirst, halloc⟩
    rcases fatAlloc_cases hg hfirst with ⟨hzero, hsame, hnone⟩ | ⟨a, ha, hfree, hdisk, hc⟩
    · -- There is none left, or the device failed.
      rw [if_pos hzero] at halloc
      cases halloc
      refine ⟨[], ?_, .inr ⟨rfl, Nat.zero_le _, ?_⟩⟩
      · rw [append_nil, hsame]
        exact h
      · rw [hsame]
        exact hnone
    -- The entry is written in any case, even if the call reports a failure.
    have hgrown := hdisk ▸ grown_alloc hg h ha hfree
    rcases hc with rfl | ⟨hzero, hfail⟩
    swap
    · rw [if_pos hzero] at halloc
      cases halloc
      exact allocates_failed hgrown hone hfail
    have hzero : c ≠ 0 := by
      have := ha.1
      omega
    rw [if_neg hzero] at halloc
    dsimp only at halloc
    rcases hlinked with ⟨rfl, rfl, rfl, rfl⟩ | ⟨hi, hchain, hlast⟩
    · -- The first round.
      rw [if_pos rfl] at halloc
      exact allocates_cons (ih _ _ _ _ _ hgrown (hdisk ▸ linked_first ha) halloc)
    · have hprev := mem_of_getLast? hlast
      have hne : prev ≠ 0 := by
        have := (h.closed prev hprev).1.1
        omega
      rw [if_pos hne] at halloc
      have hpmem : prev ∈ got ++ [c] := mem_append_left _ hprev
      have hcmem : c ∈ got ++ [c] := mem_append_right _ (mem_singleton_self c)
      -- A write that fails may have got through or not: both disks are in order.
      rcases fatWrite_cases v dev s1 prev c with hnew | ⟨hfail, hold⟩
      · have hgrown' : Grown v d0 (got ++ [c]) (fatWrite v dev s1 prev c).1.disk := by
          rw [hnew]
          exact grown_link hg hgrown hpmem hcmem
        split at halloc
        · rename_i hfail
          cases halloc
          exact allocates_failed hgrown' hone (not_done_of_fatWrite hfail)
        · refine allocates_cons (ih _ _ _ _ _ hgrown' ?_ halloc)
          rw [hnew, hdisk]
          exact linked_next hg h hchain hlast ha hfree
      · rw [if_pos hfail] at halloc
        cases halloc
        rw [← hold] at hgrown
        exact allocates_failed hgrown hone (not_done_of_fatWrite hfail)

end

section

variable {v : Volume} {c sector k : Nat}

/-- The `k` sectors from `sector` on are of the cluster. -/
def Sectors (v : Volume) (c sector k : Nat) : Prop :=
  ∀ j < k, sector + j < 2 ^ 32 ∧ InCluster v c (sector + j)

theorem sectors_all (hg : Geometry v) (hc : Indexable v c) :
    Sectors v c (clusterToSector v c) v.sectorsPerCluster := by
  intro j hj
  have hreach := hg.reach c hc
  rw [clusterToSector_eq hg hc]
  exact ⟨by omega, by omega, by omega⟩

theorem sectors_first (h : Sectors v c sector (k + 1)) : InCluster v c sector :=
  (h 0 (Nat.succ_pos k)).2

/-- The sectors after the first one. -/
theorem sectors_next (h : Sectors v c sector (k + 1)) : Sectors v c (wrap32 (sector + 1)) k := by
  intro j hj
  have hone := (h 1 (by omega)).1
  have hwrap : wrap32 (sector + 1) = sector + 1 := Nat.mod_eq_of_lt hone
  rw [hwrap, Nat.add_assoc, Nat.add_comm 1 j]
  exact h (j + 1) (by omega)

end

section

variable {v : Volume} {dev : Device} {data : Memory} {d0 : Disk} {got : List Nat}
  {s' s : Fat32}

/-- Sectors of a taken cluster are written. Only a failed request stops that. -/
theorem writeSectors_grown (hg : Geometry v) {c : Nat} (hc : c ∈ got) (k : Nat) (s : Fat32)
    (sector pos remaining : Nat) (hsec : Sectors v c sector k) (h : Grown v d0 got s.disk) :
    Grown v d0 got (writeSectors dev data k s sector pos remaining).1.disk ∧
      ((writeSectors dev data k s sector pos remaining).2 = none → ¬ Done dev) := by
  -- Whether a write fails or not, the sector is new or the disk is the same.
  have hwrite : ∀ (s : Fat32) sector, InCluster v c sector → Grown v d0 got s.disk →
      Grown v d0 got (blkWrite dev s sector).1.disk := by
    intro s sector hin h
    rcases blkWrite_cases dev s sector with hnew | ⟨_, hold⟩
    · rw [hnew]
      exact grown_write hg h hc hin s.secBuf
    · rwa [hold]
  fun_induction writeSectors dev data k s sector pos remaining with
  | case1 => exact ⟨h, nofun⟩
  | case2 => exact ⟨h, nofun⟩
  | case3 k s sector pos remaining _ w hfail =>
    exact ⟨hwrite _ _ (sectors_first hsec) h, fun _ => not_done_of_write hfail⟩
  | case4 k s sector pos remaining _ w _ _ ih =>
    exact ih (sectors_next hsec) (hwrite _ _ (sectors_first hsec) h)

theorem clusterWriteData_grown (hg : Geometry v) {fuel : Nat} {s : Fat32} {c pos remaining : Nat}
    {ok : Bool} (hc : fat32Eoc ≤ c ∨ c ∈ got) (h : Grown v d0 got s.disk)
    (hwrite : clusterWriteData v dev data fuel s c pos remaining = some (s', ok)) :
    Grown v d0 got s'.disk ∧ (ok = false → ¬ Done dev) := by
  -- The walk stays among the clusters taken, since they are closed.
  have hsectors := fun {s : Fat32} {c : Nat} (hmem : c ∈ got) (h : Grown v d0 got s.disk) pos
    remaining => @writeSectors_grown v dev data d0 got hg c hmem _ s _ pos remaining
      (sectors_all hg (h.closed c hmem).1) h
  fun_induction clusterWriteData v dev data fuel s c pos remaining with
  | case1 => cases hwrite
  | case2 fuel s c pos remaining hmore w hrest =>
    cases hwrite
    have hgrown := hsectors (hc.resolve_left (Nat.not_le_of_lt hmore.2)) h pos remaining
    exact ⟨hgrown.1, fun _ => hgrown.2 hrest⟩
  | case3 fuel s c pos remaining hmore w rest _ n ih =>
    have hmem := hc.resolve_left (Nat.not_le_of_lt hmore.2)
    have hgrown := (hsectors hmem h pos remaining).1
    refine ih ?_ ((fatNext_disk v dev w.1 c).symm ▸ hgrown) hwrite
    rcases fatNext_cases v dev w.1 c with heoc | hnext
    · exact .inl (Nat.le_of_eq heoc.symm)
    · rw [hnext]
      exact (hgrown.closed c hmem).2
  | case4 => cases hwrite; exact ⟨h, nofun⟩

/-- The clusters taken are as many as needed, from the first one on, if nothing failed and
    there were enough. -/
theorem allocated (hg : Geometry v) {fuel n : Nat} {r : Option Nat}
    (halloc : allocChain dev v fuel 0 n s 0 0 = some (s', r)) :
    ∃ got, Grown v s.disk got s'.disk ∧
      ((∃ first, r = some first ∧ got.length = n ∧
          (first = 0 ∧ got = [] ∨ Chain v s'.disk first got ∧ first ∈ got)) ∨
        r = none ∧ got.length ≤ n ∧
          (Done dev → ∀ x, Indexable v x → nextCluster v s'.disk x ≠ 0)) := by
  rcases allocChain_cases hg fuel n 0 s 0 0 [] (grown_nil v s.disk) (.inl ⟨rfl, rfl, rfl, rfl⟩)
    halloc with ⟨got, hgrown, hr⟩
  refine ⟨got, hgrown, hr.imp_left ?_⟩
  rintro ⟨first, prev, hr, hlen, hlinked⟩
  refine ⟨first, hr, hlen, ?_⟩
  rcases hlinked with ⟨_, hfirst, _, hgot⟩ | ⟨_, hchain, hlast⟩
  · exact .inl ⟨hfirst, hgot⟩
  · rcases got with _ | ⟨x, xs⟩
    · exact nomatch hlast
    · exact .inr ⟨hchain, hchain.1 ▸ mem_cons_self⟩

/-- The allocation and the write of the data. Without a failed request it stops early only
    if there is no free cluster left. -/
theorem storeData_cases (hg : Geometry v) {fuel len : Nat} {r : Option Nat}
    (hstore : storeData dev v fuel s data len = some (s', r)) :
    ∃ got, Grown v s.disk got s'.disk ∧
      ((∃ first, r = some first ∧ got.length = clustersNeeded v len) ∨
        r = none ∧ got.length ≤ clustersNeeded v len ∧
          (Done dev → ∀ x, Indexable v x → nextCluster v s'.disk x ≠ 0)) := by
  rcases Option.bind_eq_some_iff.mp hstore with ⟨⟨s1, r1⟩, halloc, hstore⟩
  rcases allocated hg halloc with ⟨got, hgrown, ⟨first, rfl, hlen, hfirst⟩ | ⟨rfl, hlen, hfull⟩⟩
  swap
  · cases hstore
    exact ⟨got, hgrown, .inr ⟨rfl, hlen, hfull⟩⟩
  dsimp only at hstore
  split_ifs at hstore with hdata
  · rcases Option.map_eq_some_iff.mp hstore with ⟨⟨s2, ok⟩, hwrite, heq⟩
    cases heq
    have hmem : first ∈ got := by
      rcases hfirst with ⟨hzero, _⟩ | ⟨_, hmem⟩
      · exact absurd hzero hdata.2
      · exact hmem
    rcases clusterWriteData_grown hg (.inr hmem) hgrown hwrite with
      ⟨hwritten, hfail⟩
    refine ⟨got, hwritten, ?_⟩
    cases ok
    · exact .inr ⟨rfl, Nat.le_of_eq hlen, fun hdone => absurd hdone (hfail rfl)⟩
    · exact .inl ⟨first, rfl, hlen⟩
  · cases hstore
    exact ⟨got, hgrown, .inl ⟨first, rfl, hlen⟩⟩

end

section

variable {v : Volume} {d0 d : Disk} {got cs : List Nat} {c : Nat}

/-- A cluster in use is none of those taken. -/
theorem closed_disjoint (h : Grown v d0 got d) (hcs : Closed v d0 cs) (hc : c ∈ cs) : c ∉ got :=
  fun hmem => closed_used hcs hc (h.free c hmem)

/-- Nothing changes in the clusters of a chain, nor in their entries. -/
theorem closed_kept (h : Grown v d0 got d) (hcs : Closed v d0 cs) (hc : c ∈ cs) :
    fatEntry v d c = fatEntry v d0 c ∧
      ∀ sector, InCluster v c sector → d sector = d0 sector := by
  have hout := closed_disjoint h hcs hc
  refine ⟨h.entries c (hcs c hc).1.2 hout, fun sector hin => ?_⟩
  refine h.outside sector (inCluster_data hin) fun x hx hin' => ?_
  -- A sector is in one cluster only.
  have heq := inCluster_unique (hcs c hc).1.1 (h.closed x hx).1.1 hin hin'
  exact hout (heq ▸ hx)

theorem chain_grown (h : Grown v d0 got d) (hchain : Chain v d0 c cs) : Chain v d c cs :=
  chain_congr cs hchain fun x hx => by
    rw [nextCluster, (closed_kept h (chain_closed cs hchain) hx).1, nextCluster]

end

end CortexForge.Fat32
