import CortexForge.Lib.ByteMem
import Mathlib.Data.List.Induction

/-!
# Register Slots

Code that saves and restores registers is a sequence of stores to slots of a frame, or
of loads from them, with the register and the slot written out in each instruction.
What such a sequence leaves is read off its table.

A sequence of loads is a table of registers and slots, and a register ends with the
last entry it has there (`loads_lookup`). A sequence of stores to slots that do not
overlap can be read back slot by slot (`loadN_storeAll`).

## Main definitions

* `loads`: The registers after a list of loads.
* `storeAll`: A memory after a list of stores.

## Theorems

* `loads_lookup`: A register holds the slot it was loaded from last.
* `storeAll_other`: Stores leave the other bytes alone.
* `loadN_storeAll`: A slot holds what was stored there.
-/

namespace CortexForge

open Function List

section

variable {α β γ : Type} [DecidableEq α]

/-- The registers `f` after loads, the first of the list first. An entry is a register
    and its slot, and a slot holds the value `v`. -/
def loads (f : α → β) (v : γ → β) (ps : List (α × γ)) : α → β :=
  ps.foldl (fun f p => update f p.1 (v p.2)) f

theorem loads_append (f : α → β) (v : γ → β) (ps qs : List (α × γ)) :
    loads f v (ps ++ qs) = loads (loads f v ps) v qs :=
  foldl_append

/-- The last load of a register is the one that counts. -/
theorem loads_lookup (f : α → β) (v : γ → β) (ps : List (α × γ)) (a : α) :
    loads f v ps a = ((ps.reverse.lookup a).map v).getD (f a) := by
  induction ps using reverseRecOn with
  | nil => rfl
  | append_singleton ps p ih =>
    rw [loads_append, reverse_append, reverse_singleton, singleton_append]
    by_cases hp : a = p.1
    · rw [hp, lookup_cons_self]
      exact update_self _ _ _
    · rw [lookup_cons, beq_eq_false_iff_ne.mpr hp]
      exact (update_of_ne hp _ _).trans ih

end

section

/-- A memory after stores of `n` bytes, each an address, a width and a value. -/
def storeAll (mem : Nat → BitVec 8) (ws : List (Nat × Nat × Nat)) : Nat → BitVec 8 :=
  ws.foldl (fun m w => storeN m w.1 w.2.1 w.2.2) mem

theorem storeAll_other (ws : List (Nat × Nat × Nat)) : ∀ (mem : Nat → BitVec 8) (x : Nat),
    (∀ w ∈ ws, x < w.1 ∨ w.1 + w.2.1 ≤ x) → storeAll mem ws x = mem x := by
  induction ws with
  | nil => exact fun _ _ _ => rfl
  | cons w ws ih =>
    intro mem x hout
    have hrest := ih (storeN mem w.1 w.2.1 w.2.2) x fun v hv =>
      hout v (mem_cons_of_mem w hv)
    exact hrest.trans (storeN_other (hout w mem_cons_self))

/-- Stores that do not overlap can be read back. -/
theorem loadN_storeAll (ws : List (Nat × Nat × Nat))
    (hapart : ws.Pairwise fun w v => w.1 + w.2.1 ≤ v.1 ∨ v.1 + v.2.1 ≤ w.1) :
    ∀ (mem : Nat → BitVec 8) (w : Nat × Nat × Nat), w ∈ ws →
      loadN (storeAll mem ws) w.1 w.2.1 = w.2.2 % 256 ^ w.2.1 := by
  induction ws with
  | nil => exact nofun
  | cons v ws ih =>
    intro mem w hw
    rw [pairwise_cons] at hapart
    rcases mem_cons.mp hw with rfl | hw
    · -- The later stores are apart from the first one.
      rw [← loadN_storeN mem w.2.1 w.1 w.2.2]
      refine loadN_congr _ _ _ _ fun x hlo hhi => ?_
      refine storeAll_other ws _ x fun u hu => ?_
      have hu := hapart.1 u hu
      omega
    · exact ih hapart.2 _ w hw

end

end CortexForge
