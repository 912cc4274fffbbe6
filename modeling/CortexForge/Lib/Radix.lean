import Mathlib.Data.List.Induction
import Mathlib.Data.Option.Basic

/-!
# Radix Trees of Tables

A tree of tables as a translation unit walks it: a table has a fixed number of
entries, a valid entry of an inner table names the table of the next level, and
a valid entry of a table at the last level is a leaf. Tables are named by
numbers and read through a function, so a tree in memory is read by
instantiating that function with a load; what an entry looks like is up to its
`TableFormat`.

`follow` descends along a list of indices. A tree is `TreeLike` down to a depth
when no table is reached along two paths; an entry then belongs to one place of
the tree only, and an edit of it is an edit at that place. There are two edits:
`follow_install_iff` hangs an empty table into an entry that was not valid, and
`leaf_set` writes an entry of the last level.

## Main definitions

* `TableFormat`: What an entry says.
* `TableFormat.follow`: The table at the end of a path.
* `TableFormat.leaf`: The leaf at the end of a path.
* `TableFormat.TreeLike`: No table is reached along two paths.

## Theorems

* `follow_append`: A path is followed piece by piece.
* `follow_congr`: Only the tables on the way are read.
* `follow_install_iff`: Hanging in an empty table adds one path.
* `leaf_install`: Hanging in an empty table changes no leaf.
* `follow_set`, `leaf_set`: Writing a leaf changes that leaf only.
-/

namespace CortexForge

open List Option

/-- What an entry of a table says, and how many entries a table has. -/
structure TableFormat (E : Type) where
  valid : E → Bool
  next : E → Nat
  fan : Nat

namespace TableFormat

variable {E : Type} (fmt : TableFormat E)

/-- The table at the end of a path of indices from the table `p`. -/
def follow (rd : Nat → Nat → E) : Nat → List Nat → Option Nat
  | p, [] => some p
  | p, i :: is =>
      if i < fmt.fan ∧ fmt.valid (rd p i) = true then follow rd (fmt.next (rd p i)) is else none

/-- The valid entry `i` of the table at the end of a path. -/
def leaf (rd : Nat → Nat → E) (r : Nat) (path : List Nat) (i : Nat) : Option E :=
  (fmt.follow rd r path).bind fun p =>
    if i < fmt.fan ∧ fmt.valid (rd p i) = true then some (rd p i) else none

/-- Down to the given depth, no table is reached along two paths. -/
def TreeLike (rd : Nat → Nat → E) (depth r : Nat) : Prop :=
  ∀ path path' p, path.length ≤ depth → path'.length ≤ depth → fmt.follow rd r path = some p →
    fmt.follow rd r path' = some p → path = path'

variable {fmt} {rd rd' : Nat → Nat → E} {depth r : Nat}

theorem follow_append (a b : List Nat) : ∀ p,
    fmt.follow rd p (a ++ b) = (fmt.follow rd p a).bind fun q => fmt.follow rd q b := by
  induction a with
  | nil => exact fun p => rfl
  | cons i is ih =>
    intro p
    rw [cons_append, follow, follow]
    split_ifs with hstep
    · exact ih _
    · rfl

variable (path : List Nat)

/-- One step more. -/
theorem follow_snoc_iff (i p q : Nat) :
    fmt.follow rd p (path ++ [i]) = some q ↔
      ∃ m, fmt.follow rd p path = some m ∧ i < fmt.fan ∧ fmt.valid (rd m i) = true ∧
        fmt.next (rd m i) = q := by
  rw [follow_append]
  cases fmt.follow rd p path with
  | none => simp
  | some m => simp [follow, and_assoc]

theorem leaf_eq_some_iff (i : Nat) (e : E) :
    fmt.leaf rd r path i = some e ↔
      ∃ p, fmt.follow rd r path = some p ∧ i < fmt.fan ∧ fmt.valid (rd p i) = true ∧
        rd p i = e := by
  rw [leaf]
  cases fmt.follow rd r path with
  | none => simp
  | some p => simp [and_assoc]

/-- A tree whose tables read the same is the same tree. -/
theorem follow_congr : ∀ p,
    (∀ pre q i, fmt.follow rd r pre = some q → pre.length < path.length → i < fmt.fan →
      rd' q i = rd q i) →
    (fmt.follow rd' r path = some p ↔ fmt.follow rd r path = some p) := by
  induction path using reverseRecOn with
  | nil => exact fun p _ => Iff.rfl
  | append_singleton path i ih =>
    intro p hag
    have hlen : path.length < (path ++ [i]).length := by
      rw [length_append]
      exact Nat.lt_succ_self _
    have hpath := fun m => ih m fun pre q j hq hlt => hag pre q j hq (Nat.lt_trans hlt hlen)
    rw [follow_snoc_iff, follow_snoc_iff]
    constructor
    · rintro ⟨m, hm, hi, hvalid, hnext⟩
      have hm' := (hpath m).mp hm
      rw [hag path m i hm' hlen hi] at hvalid hnext
      exact ⟨m, hm', hi, hvalid, hnext⟩
    · rintro ⟨m, hm, hi, hvalid, hnext⟩
      rw [← hag path m i hm hlen hi] at hvalid hnext
      exact ⟨m, (hpath m).mpr hm, hi, hvalid, hnext⟩

/-- No leaf changes if the path stays where it was, or gets to a table without the entry. -/
theorem leaf_eq_of (i : Nat)
    (hstay : ∀ p, fmt.follow rd r path = some p → fmt.follow rd' r path = some p)
    (hback : ∀ p, fmt.follow rd' r path = some p → i < fmt.fan → fmt.valid (rd' p i) = true →
      fmt.follow rd r path = some p)
    (hsame : ∀ p, fmt.follow rd r path = some p → i < fmt.fan → rd' p i = rd p i) :
    fmt.leaf rd' r path i = fmt.leaf rd r path i := by
  ext e
  rw [leaf_eq_some_iff, leaf_eq_some_iff]
  constructor
  · rintro ⟨p, hp, hi, hvalid, he⟩
    have hp' := hback p hp hi hvalid
    rw [hsame p hp' hi] at hvalid he
    exact ⟨p, hp', hi, hvalid, he⟩
  · rintro ⟨p, hp, hi, hvalid, he⟩
    rw [← hsame p hp hi] at hvalid he
    exact ⟨p, hstay p hp, hi, hvalid, he⟩

theorem leaf_congr (i : Nat)
    (hag : ∀ pre q j, fmt.follow rd r pre = some q → pre.length ≤ path.length → j < fmt.fan →
      rd' q j = rd q j) : fmt.leaf rd' r path i = fmt.leaf rd r path i := by
  have hpath := fun m => follow_congr path m fun pre q j hq hlt => hag pre q j hq (Nat.le_of_lt hlt)
  exact leaf_eq_of path i (fun p => (hpath p).mpr) (fun p hp _ _ => (hpath p).mp hp)
    fun p hp hi => hag path p i hp (Nat.le_refl _) hi

section

variable {path0 : List Nat} {q j n : Nat}

/-- An empty table `n` has been hung into entry `j` of the table `q`, which was
    not valid; nothing else of the tree has changed. -/
structure Installed (fmt : TableFormat E) (rd rd' : Nat → Nat → E) (depth r : Nat)
    (path0 : List Nat) (q j n : Nat) : Prop where
  at_path : fmt.follow rd r path0 = some q
  above : path0.length < depth
  index_lt : j < fmt.fan
  was_invalid : fmt.valid (rd q j) = false
  now_valid : fmt.valid (rd' q j) = true
  now_next : fmt.next (rd' q j) = n
  empty : ∀ i, i < fmt.fan → fmt.valid (rd' n i) = false
  same : ∀ path p i, path.length ≤ depth → fmt.follow rd r path = some p → i < fmt.fan →
    ¬ (p = q ∧ i = j) → rd' p i = rd p i

/-- Hanging in an empty table adds one path, the one to that table. -/
theorem follow_install_iff (htree : fmt.TreeLike rd depth r)
    (h : Installed fmt rd rd' depth r path0 q j n) (path : List Nat) :
    path.length ≤ depth → ∀ p, fmt.follow rd' r path = some p ↔
      fmt.follow rd r path = some p ∨ path = path0 ++ [j] ∧ p = n := by
  -- The induction takes the last index off; a path leads on from the new table nowhere.
  induction path using reverseRecOn with
  | nil =>
    intro _ p
    refine ⟨.inl, fun hp => hp.resolve_right fun hc => ?_⟩
    exact absurd hc.1 (by simp)
  | append_singleton path i ih =>
    intro hlen p
    rw [length_append] at hlen
    have hpath := ih (by omega)
    rw [follow_snoc_iff, follow_snoc_iff]
    constructor
    · rintro ⟨m, hm, hi, hvalid, hnext⟩
      rcases (hpath m).mp hm with hold | ⟨_, hnew⟩
      · by_cases hslot : m = q ∧ i = j
        · right
          rw [hslot.1] at hold hnext
          rw [hslot.2] at hnext ⊢
          have hsame := htree path path0 q (by omega) (Nat.le_of_lt h.above) hold h.at_path
          exact ⟨by rw [hsame], hnext.symm.trans h.now_next⟩
        · left
          rw [h.same path m i (by omega) hold hi hslot] at hvalid hnext
          exact ⟨m, hold, hi, hvalid, hnext⟩
      · rw [hnew, h.empty i hi] at hvalid
        exact absurd hvalid Bool.false_ne_true
    · rintro (⟨m, hm, hi, hvalid, hnext⟩ | ⟨hslot, hp⟩)
      · have hne : ¬ (m = q ∧ i = j) := by
          rintro ⟨rfl, rfl⟩
          rw [h.was_invalid] at hvalid
          exact absurd hvalid Bool.false_ne_true
        rw [← h.same path m i (by omega) hm hi hne] at hvalid hnext
        exact ⟨m, (hpath m).mpr (.inl hm), hi, hvalid, hnext⟩
      · rw [append_inj_left' hslot rfl, singleton_inj.mp (append_inj_right' hslot rfl)]
        refine ⟨q, ?_, h.index_lt, h.now_valid, h.now_next.trans hp.symm⟩
        rw [← append_inj_left' hslot rfl]
        refine (hpath q).mpr (.inl ?_)
        rw [append_inj_left' hslot rfl]
        exact h.at_path

/-- An empty table has no leaf, so no leaf changes. -/
theorem leaf_install (htree : fmt.TreeLike rd depth r)
    (h : Installed fmt rd rd' depth r path0 q j n) (path : List Nat) (hlen : path.length = depth)
    (i : Nat) : fmt.leaf rd' r path i = fmt.leaf rd r path i := by
  have hpath := follow_install_iff htree h path (Nat.le_of_eq hlen)
  -- The table that was changed lies above the last level.
  have hne : ∀ p, fmt.follow rd r path = some p → p ≠ q := by
    rintro p hp rfl
    have hsame := htree path path0 p (Nat.le_of_eq hlen) (Nat.le_of_lt h.above) hp h.at_path
    have habove := h.above
    rw [← hsame] at habove
    omega
  refine leaf_eq_of path i (fun p hp => (hpath p).mpr (.inl hp)) (fun p hp hi hvalid => ?_)
    fun p hp hi => h.same path p i (Nat.le_of_eq hlen) hp hi fun hc => hne p hp hc.1
  rcases (hpath p).mp hp with hold | ⟨_, hnew⟩
  · exact hold
  · rw [hnew, h.empty i hi] at hvalid
    exact absurd hvalid Bool.false_ne_true

end

section

variable {path0 : List Nat} {q j : Nat}

/-- Entry `j` of the table `q` at the last level has been written, and nothing
    else of the tree has changed. -/
structure LeafWritten (fmt : TableFormat E) (rd rd' : Nat → Nat → E) (depth r : Nat)
    (path0 : List Nat) (q j : Nat) : Prop where
  at_path : fmt.follow rd r path0 = some q
  last : path0.length = depth
  index_lt : j < fmt.fan
  same : ∀ path p i, path.length ≤ depth → fmt.follow rd r path = some p → i < fmt.fan →
    ¬ (p = q ∧ i = j) → rd' p i = rd p i

/-- The entries of the last level are not followed. -/
theorem follow_set (htree : fmt.TreeLike rd depth r)
    (h : LeafWritten fmt rd rd' depth r path0 q j) (path : List Nat) (hlen : path.length ≤ depth)
    (p : Nat) : fmt.follow rd' r path = some p ↔ fmt.follow rd r path = some p := by
  refine follow_congr path p fun pre m i hm hlt hi => h.same pre m i (by omega) hm hi ?_
  rintro ⟨rfl, _⟩
  have hsame := htree pre path0 m (by omega) (Nat.le_of_eq h.last) hm h.at_path
  have hlast := h.last
  rw [← hsame] at hlast
  omega

/-- Writing a leaf changes that leaf only. -/
theorem leaf_set (htree : fmt.TreeLike rd depth r)
    (h : LeafWritten fmt rd rd' depth r path0 q j) (path : List Nat) (hlen : path.length = depth)
    (i : Nat) : fmt.leaf rd' r path i =
      if path = path0 ∧ i = j then
        if fmt.valid (rd' q j) = true then some (rd' q j) else none
      else fmt.leaf rd r path i := by
  have hpath := follow_set htree h path (Nat.le_of_eq hlen)
  by_cases hslot : path = path0 ∧ i = j
  · rw [if_pos hslot, hslot.1, hslot.2, leaf]
    rw [hslot.1] at hpath
    rw [(hpath q).mpr h.at_path, bind_some]
    by_cases hvalid : fmt.valid (rd' q j) = true
    · rw [if_pos ⟨h.index_lt, hvalid⟩, if_pos hvalid]
    · simp [hvalid]
  · rw [if_neg hslot]
    -- Another place of the tree is another entry.
    have hne : ∀ p, fmt.follow rd r path = some p → ¬ (p = q ∧ i = j) := by
      rintro p hp ⟨rfl, hij⟩
      exact hslot ⟨htree path path0 p (Nat.le_of_eq hlen) (Nat.le_of_eq h.last) hp h.at_path, hij⟩
    exact leaf_eq_of path i (fun p => (hpath p).mpr) (fun p hp _ _ => (hpath p).mp hp)
      fun p hp hi => h.same path p i (Nat.le_of_eq hlen) hp hi (hne p hp)

end

end TableFormat

end CortexForge
