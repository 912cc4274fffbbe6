import Mathlib.Data.Nat.ModEq

/-!
# Rings with Free-Running Counters

A ring of `n` slots shared by a writer and a reader, addressed by two counters
that only ever grow: entry number `k` sits in slot `k % n`. The entries written
and not yet read are a window of the ring, and as long as that window has at
most `n` entries no slot carries two of them.

`RingHolds` is that window: the entries `xs`, starting at number `lo`, are in
their slots. Writing one more (`ringHolds_push`) needs room and disturbs no
entry of the window; reading one (`ringHolds_pop`) finds the oldest.

Real counters are machine words. When the slot count divides the word's range,
the slot of a wrapped counter is the slot of the counter itself
(`Nat.mod_mod_of_dvd`).

## Main definitions

* `RingHolds`: A window of entries is in its slots.

## Theorems

* `ringHolds_nil`: The empty window is always held.
* `ringHolds_push`: Writing the next entry extends the window.
* `ringHolds_pop`: The oldest entry is in its slot, and the rest remain held.
* `ringHolds_entry`: Every unread entry is in the slot of its number.
-/

namespace CortexForge

open Function List

variable {α : Type}

/-- The entries `xs`, numbered from `lo`, are in their slots of a ring with `n`
    slots, and no two of them share one. -/
def RingHolds (ring : Nat → α) (n lo : Nat) (xs : List α) : Prop :=
  xs.length ≤ n ∧ ∀ i (h : i < xs.length), ring ((lo + i) % n) = xs[i]

theorem ringHolds_nil (ring : Nat → α) (n lo : Nat) : RingHolds ring n lo [] :=
  ⟨Nat.zero_le n, nofun⟩

/-- Entries at most `n - 1` apart are in different slots. -/
theorem slot_ne {n : Nat} (lo : Nat) {i j : Nat} (hij : i < j) (hjn : j < n) :
    (lo + i) % n ≠ (lo + j) % n := by
  intro heq
  have hmod : lo + i ≡ lo + j [MOD n] := heq
  have hdvd : n ∣ lo + j - (lo + i) := (Nat.modEq_iff_dvd' (by omega)).mp hmod
  have := Nat.le_of_dvd (by omega) hdvd
  omega

/-- Writing the next entry extends the window, provided a slot is left. Every
    entry of the window is fewer than `n` behind the new one, so none of them is
    in the slot being written. -/
theorem ringHolds_push {ring : Nat → α} {n lo : Nat} {xs : List α} (x : α)
    (h : RingHolds ring n lo xs) (hroom : xs.length < n) :
    RingHolds (update ring ((lo + xs.length) % n) x) n lo (xs ++ [x]) := by
  refine ⟨by rw [length_append, length_singleton]; omega, fun i hi => ?_⟩
  rw [length_append, length_singleton] at hi
  by_cases hlast : i < xs.length
  · rw [update_of_ne (slot_ne lo hlast hroom),
      getElem_append_left hlast]
    exact h.2 i hlast
  · have heq : i = xs.length := by omega
    subst heq
    simp

theorem ringHolds_pop {ring : Nat → α} {n lo : Nat} {x : α} {xs : List α}
    (h : RingHolds ring n lo (x :: xs)) :
    ring (lo % n) = x ∧ RingHolds ring n (lo + 1) xs := by
  have hlen : xs.length + 1 ≤ n := h.1
  refine ⟨h.2 0 (Nat.succ_pos _), by omega, fun i hi => ?_⟩
  have := h.2 (i + 1) (Nat.succ_lt_succ hi)
  simp [show lo + 1 + i = lo + (i + 1) by omega, this]

/-- Every entry that is not consumed is in its slot, numbered from the first
    entry ever written. -/
theorem ringHolds_entry {ring : Nat → α} {n : Nat} {consumed xs : List α}
    (h : RingHolds ring n consumed.length xs) {i : Nat} (hlo : consumed.length ≤ i)
    (hi : i < (consumed ++ xs).length) : ring (i % n) = (consumed ++ xs)[i] := by
  rw [length_append] at hi
  have hslot := h.2 (i - consumed.length) (by omega)
  rw [Nat.add_sub_cancel' hlo] at hslot
  rw [hslot, getElem_append_right hlo]

end CortexForge
