import Mathlib.Control.Monad.Writer

/-!
# Computations with Their Accesses

What a computation reads and writes on the way, next to the value it returns. A
check that comes too late, or a bound that is taken from the wrong place, does not
show in the value; it shows in the accesses.

A computation is written in the writer monad. It logs an access by `access`, and
`log` is everything it has logged, in order. `Within P` says that every access is
one of those that `P` permits.

That is compositional, and exactly so: a sequence keeps to its bounds if and only
if its two parts do, the second one being what follows the value of the first.

## Main definitions

* `Traced`: A value and the accesses made for it.
* `Traced.Within`: Every access meets a condition.
* `Traced.loop`: A counted loop.

## Theorems

* `within_bind`, `within_loop`: The accesses of a sequence, and of a loop.
-/

namespace CortexForge

/-- A value, and the accesses made on the way to it. -/
abbrev Traced (ε α : Type) := Writer (List ε) α

namespace Traced

variable {ε α β : Type}

/-- What the computation returns. -/
def value (c : Traced ε α) : α := (WriterT.run c : α × List ε).1

/-- The accesses of the computation, in order. -/
def log (c : Traced ε α) : List ε := (WriterT.run c : α × List ε).2

/-- Some accesses, one after the other. -/
def accesses (es : List ε) : Traced ε Unit := WriterT.mk ((), es)

/-- One access. -/
def access (e : ε) : Traced ε Unit := accesses [e]

@[simp] theorem value_pure (a : α) : value (pure a : Traced ε α) = a := rfl

@[simp] theorem log_pure (a : α) : log (pure a : Traced ε α) = [] := rfl

@[simp] theorem value_bind (c : Traced ε α) (f : α → Traced ε β) :
    value (c >>= f) = value (f (value c)) := rfl

@[simp] theorem log_bind (c : Traced ε α) (f : α → Traced ε β) :
    log (c >>= f) = log c ++ log (f (value c)) := rfl

@[simp] theorem value_map (c : Traced ε α) (f : α → β) : value (f <$> c) = f (value c) := rfl

@[simp] theorem log_map (c : Traced ε α) (f : α → β) : log (f <$> c) = log c := rfl

@[simp] theorem value_ite (p : Prop) [Decidable p] (c d : Traced ε α) :
    value (if p then c else d) = if p then value c else value d :=
  apply_ite value p c d

/-- A computation that is left early has made no accesses. -/
@[simp] theorem mem_log_exit (p : Prop) [Decidable p] (a : α) (c : Traced ε α) (e : ε) :
    e ∈ log (if p then pure a else c) ↔ ¬ p ∧ e ∈ log c := by
  split <;> simp [*]

@[simp] theorem log_accesses (es : List ε) : log (accesses es) = es := rfl

@[simp] theorem log_access (e : ε) : log (access e) = [e] := rfl

/-- Every access meets the condition. -/
def Within (P : ε → Prop) (c : Traced ε α) : Prop := ∀ e ∈ log c, P e

variable {P : ε → Prop}

@[simp] theorem within_pure {a : α} : Within P (pure a) :=
  nofun

@[simp] theorem within_access {e : ε} : Within P (access e) ↔ P e :=
  List.forall_mem_singleton

/-- A sequence keeps to the condition if both of its parts do. -/
@[simp] theorem within_bind (c : Traced ε α) (f : α → Traced ε β) :
    Within P (c >>= f) ↔ Within P c ∧ Within P (f (value c)) := by
  unfold Within
  rw [log_bind, List.forall_mem_append]

theorem within_then {c : Traced ε α} {f : α → Traced ε β} (hc : Within P c)
    (hf : Within P (f (value c))) : Within P (c >>= f) :=
  (within_bind c f).mpr ⟨hc, hf⟩

/-- The last step of a computation, and what it returns. -/
theorem within_last {c : Traced ε α} {g : α → β} (hc : Within P c) :
    Within P (c >>= fun a => pure (g a)) :=
  within_then hc within_pure

/-- Both branches keep to the condition, each where it is taken. -/
theorem within_ite {b : Prop} [Decidable b] {c d : Traced ε α} (hc : b → Within P c)
    (hd : ¬ b → Within P d) : Within P (if b then c else d) := by
  split_ifs with h
  · exact hc h
  · exact hd h

/-- A computation that is left early keeps to every condition. -/
theorem within_exit {b : Prop} [Decidable b] {a : α} {c : Traced ε α} (hc : ¬ b → Within P c) :
    Within P (if b then pure a else c) :=
  within_ite (fun _ => within_pure) hc

@[simp] theorem within_map {c : Traced ε α} {f : α → β} : Within P (f <$> c) ↔ Within P c :=
  Iff.rfl

/-- A loop of `n` turns, numbered from `i` on. -/
def loop (body : Nat → α → Traced ε α) : Nat → Nat → α → Traced ε α
  | 0, _, a => pure a
  | n + 1, i, a => do
      let a ← body i a
      loop body n (i + 1) a

/-- A loop keeps to the condition if each of its turns does. -/
theorem within_loop {body : Nat → α → Traced ε α} (n : Nat) : ∀ (i : Nat) (a : α),
    (∀ j a, i ≤ j → j < i + n → Within P (body j a)) → Within P (loop body n i a) := by
  induction n with
  | zero => exact fun i a _ => within_pure
  | succ n ih =>
    intro i a hbody
    refine within_then (hbody i a (Nat.le_refl i) (by omega)) (ih (i + 1) _ ?_)
    exact fun j a hij hj => hbody j a (by omega) (by omega)

theorem within_mono {Q : ε → Prop} {c : Traced ε α} (h : Within P c) (hPQ : ∀ e, P e → Q e) :
    Within Q c :=
  fun e he => hPQ e (h e he)

end Traced

end CortexForge
