import Mathlib.Data.List.Basic

/-!
# Processes on Lossy Lines

A program that talks to a peer, as the sequence of its sends and receives: `Proc` is
done with a result, sends a message and goes on, or receives and goes on with what it
got. Written this way a call can be run in two worlds. On a machine that answers at
once it is a function of the machine's state (`Proc.exec`). Between two parties it is
taken one move at a time, and the moves of other parties come in between (`Moves`).

A line between two parties is a queue. It keeps its order, and the environment takes
messages off it or spoils them where they are (`Fades`). There is no clock: a receive
may time out whenever it is taken, so a delay of any length is a run of its own.

## Main definitions

* `Proc`: A program of sends and receives.
* `Proc.exec`: Its run on a machine.
* `Moves`: One move of a process between its lines.
* `Fades`: What the environment does to a line.

## Theorems

* `fades_mem`: What is on a line afterwards was there before or is spoilt.
* `fades_sublist`: The messages that are still good have kept their order.
-/

namespace CortexForge

open List

variable {μ ρ α σ : Type}

/-- A program that sends messages `μ`, receives `ρ` and ends with a result `α`. -/
inductive Proc (μ ρ α : Type) where
  | done (a : α)
  | send (m : μ) (next : Proc μ ρ α)
  | recv (next : ρ → Proc μ ρ α)

/-- Run a program on a machine with operations for both. -/
def Proc.exec (send : σ → μ → σ) (recv : σ → σ × ρ) : Proc μ ρ α → σ → σ × α
  | .done a, s => (s, a)
  | .send m next, s => next.exec send recv (send s m)
  | .recv next, s => (next (recv s).2).exec send recv (recv s).1

/-- One move of a process. A message it sends joins the line `out` as it will be
    received, and a receive takes the first message of the line `inn` or gives up with
    one of the answers for that. -/
inductive Moves (post : μ → ρ) (late : ρ → Prop) :
    Proc μ ρ α → List ρ → List ρ → Proc μ ρ α → List ρ → List ρ → Prop
  | send (m : μ) (next : Proc μ ρ α) (inn out : List ρ) :
      Moves post late (.send m next) inn out next inn (out ++ [post m])
  | take (next : ρ → Proc μ ρ α) (a : ρ) (inn out : List ρ) :
      Moves post late (.recv next) (a :: inn) out (next a) inn out
  | timeout (next : ρ → Proc μ ρ α) (a : ρ) (inn out : List ρ) (h : late a) :
      Moves post late (.recv next) inn out (next a) inn out

/-- A message is lost, or one is spoilt. -/
inductive Fades (spoilt : ρ → Prop) : List ρ → List ρ → Prop
  | lose (xs ys : List ρ) (a : ρ) : Fades spoilt (xs ++ a :: ys) (xs ++ ys)
  | spoil (xs ys : List ρ) (a b : ρ) (h : spoilt b) : Fades spoilt (xs ++ a :: ys) (xs ++ b :: ys)

section

variable {spoilt : ρ → Prop} {xs ys : List ρ}

theorem fades_mem (h : Fades spoilt xs ys) {b : ρ} (hb : b ∈ ys) : b ∈ xs ∨ spoilt b := by
  cases h with
  | lose xs ys a =>
    rcases mem_append.mp hb with hb | hb
    · exact .inl (mem_append_left _ hb)
    · exact .inl (mem_append_right _ (mem_cons_of_mem a hb))
  | spoil xs ys a c hc =>
    rcases mem_append.mp hb with hb | hb
    · exact .inl (mem_append_left _ hb)
    · rcases mem_cons.mp hb with rfl | hb
      · exact .inr hc
      · exact .inl (mem_append_right _ (mem_cons_of_mem a hb))

/-- A selection that passes over spoilt messages only shrinks. -/
theorem fades_sublist (h : Fades spoilt xs ys) {f : ρ → Option α}
    (hf : ∀ a, spoilt a → f a = none) : (ys.filterMap f).Sublist (xs.filterMap f) := by
  cases h with
  | lose xs ys a =>
    rw [filterMap_append, filterMap_append]
    exact (List.Sublist.refl _).append ((sublist_cons_self a ys).filterMap f)
  | spoil xs ys a b hb =>
    rw [filterMap_append, filterMap_append, filterMap_cons_none (hf b hb)]
    exact (List.Sublist.refl _).append ((sublist_cons_self a ys).filterMap f)

end

end CortexForge
