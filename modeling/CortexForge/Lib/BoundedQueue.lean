import Mathlib.Data.List.Basic

/-!
# Bounded Queues

A queue of at most `cap` entries, which drops what it is offered when it is full,
together with its history: what it has accepted and what it has given out. Entries
leave in the order they came, so what was accepted is what was given out followed by
what is waiting, and a history carries that as a field.

## Main definitions

* `BoundedQueue`: A queue within its capacity.
* `QueueHistory`: A queue and what has passed through it.
* `QueueHistory.offer`, `QueueHistory.take`: One entry in, one entry out.

## Theorems

* `offer_room`, `offer_full`: An entry is dropped when the queue is full.
-/

namespace CortexForge

variable {α : Type} {cap : Nat}

/-- A queue of at most `cap` entries, the oldest first. -/
structure BoundedQueue (α : Type) (cap : Nat) where
  items : List α
  length_le : items.length ≤ cap

/-- A queue, the entries it has accepted and those it has given out. -/
structure QueueHistory (α : Type) (cap : Nat) where
  queue : BoundedQueue α cap
  accepted : List α
  returned : List α
  in_order : accepted = returned ++ queue.items

namespace QueueHistory

/-- Nothing has happened yet. -/
def start : QueueHistory α cap := ⟨⟨[], Nat.zero_le cap⟩, [], [], rfl⟩

/-- An entry is offered. It is dropped if the queue is full. -/
def offer (h : QueueHistory α cap) (x : α) : QueueHistory α cap :=
  if hroom : h.queue.items.length < cap then
    { queue := ⟨h.queue.items ++ [x], by rw [List.length_append]; exact hroom⟩
      accepted := h.accepted ++ [x]
      returned := h.returned
      in_order := by rw [h.in_order, List.append_assoc] }
  else h

/-- The oldest entry is taken out, if there is one. -/
def take (h : QueueHistory α cap) : QueueHistory α cap × Option α :=
  match hitems : h.queue.items with
  | [] => (h, none)
  | x :: xs =>
      ({ queue := ⟨xs, Nat.le_of_succ_le (hitems ▸ h.queue.length_le : (x :: xs).length ≤ cap)⟩
         accepted := h.accepted
         returned := h.returned ++ [x]
         in_order := h.in_order.trans
           ((congrArg (h.returned ++ ·) hitems).trans (List.append_cons _ x xs)) }, some x)

variable {h : QueueHistory α cap} {x : α} {xs : List α}

theorem offer_room (hroom : h.queue.items.length < cap) :
    (h.offer x).queue.items = h.queue.items ++ [x] := by
  rw [offer, dif_pos hroom]

theorem offer_full (hfull : h.queue.items.length = cap) : h.offer x = h := by
  rw [offer, dif_neg (by omega)]

theorem take_empty (hitems : h.queue.items = []) : h.take = (h, none) := by
  unfold take
  split
  · rfl
  · rename_i heq
    rw [hitems] at heq
    exact absurd heq.symm (List.cons_ne_nil _ _)

theorem take_cons (hitems : h.queue.items = x :: xs) :
    h.take.1.queue.items = xs ∧ h.take.1.returned = h.returned ++ [x] ∧ h.take.2 = some x := by
  unfold take
  split
  · rename_i heq
    rw [hitems] at heq
    exact absurd heq (List.cons_ne_nil _ _)
  · rename_i heq
    rw [hitems, List.cons.injEq] at heq
    rw [heq.1, heq.2]
    exact ⟨rfl, rfl, rfl⟩

end QueueHistory

end CortexForge
