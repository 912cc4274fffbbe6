import CortexForge.Core.Sched

/-!
# The Tick and Release Timer

One one-shot timer serves the scheduler's tick and the releases of periodic tasks, from
`exception/timer/timer.c` and `sched/rtos.c`. The counter never wraps, so times are
numbers. Of a task record the fields that releases read and write are here, and the
run queue is the list of its records from the idle task on.

`start`, `last`, `log`, `born` and `processed` are not part of the kernel. They record
when the timer was started and last read, the ticks and releases processed, each with
the time it was due and the reading it was processed at, and for a task when it was
created and how many of its releases were processed.

## Main definitions

* `RtRecord`, `Timer`: A task record and the state of the timer.
* `timerStart`, `rtCreatePeriodic`, `rtTickRelease`, `timerHandleIrq`: The operations.
-/

namespace CortexForge

/-- The fields of a task record for periodic tasks. The period is 0 for other tasks. -/
structure RtRecord where
  state : TaskState
  rtPeriodCyc : Nat := 0
  rtDeadlineCyc : Nat := 0
  rtReleaseCyc : Nat := 0
  rtNextRelease : Nat := 0
  rtActivations : Nat := 0
  rtDeadlineMisses : Nat := 0
  born : Nat := 0
  processed : Nat := 0
deriving DecidableEq, Repr

structure Timer where
  timerInterval : Nat := 0
  tickCount : Nat := 0
  nextTick : Nat := 0
  cval : Nat := 0
  tasks : List RtRecord := [{ state := .running }]
  start : Nat := 0
  last : Nat := 0
  log : List (Nat × Nat) := []
deriving DecidableEq, Repr

namespace Timer

/-- The record of a new periodic task, with its times in cycles of the counter. -/
def rtCreatePeriodic (period deadline now : Nat) : RtRecord :=
  { state := .ready
    rtPeriodCyc := period
    rtDeadlineCyc := if deadline ≠ 0 then deadline else period
    rtReleaseCyc := now
    rtNextRelease := now + period
    rtActivations := 1
    born := now }

/-- The release of the task is due at `now`. -/
def due (t : RtRecord) (now : Nat) : Bool := decide (t.rtPeriodCyc > 0 ∧ now ≥ t.rtNextRelease)

/-- Process one release of a task if it is due. -/
def release (t : RtRecord) (now : Nat) : RtRecord :=
  if due t now then
    let t' :=
      if t.state = .sleeping then
        { t with
          rtReleaseCyc := t.rtNextRelease
          state := .ready
          rtActivations := t.rtActivations + 1 }
      -- The job before is not over: it overran its period.
      else { t with rtDeadlineMisses := t.rtDeadlineMisses + 1 }
    { t' with rtNextRelease := t.rtNextRelease + t.rtPeriodCyc, processed := t.processed + 1 }
  else t

/-- The walk along the run queue: the records, and the soonest release still to come,
    or `earliest` as before if there is none. -/
def rtTickRelease (now : Nat) : List RtRecord → Nat → List RtRecord × Nat
  | [], earliest => ([], earliest)
  | t :: ts, earliest =>
      let t := release t now
      let rest := rtTickRelease now ts
        (if t.rtPeriodCyc > 0 ∧ (earliest = 0 ∨ t.rtNextRelease < earliest) then t.rtNextRelease
          else earliest)
      (t :: rest.1, rest.2)

/-- The scheduler's tick, if it is due. Sleepers and alarms are not the timer's. -/
def tick (s : Timer) (now : Nat) : Timer :=
  if now ≥ s.nextTick then
    { s with
      tickCount := s.tickCount + 1
      nextTick := s.nextTick + s.timerInterval
      log := s.log ++ [(s.start + (s.tickCount + 1) * s.timerInterval, now)] }
  else s

/-- The least delay with which the timer is programmed. -/
def slack (s : Timer) : Nat := if s.timerInterval / 100 = 0 then 1 else s.timerInterval / 100

/-- Releases that are due, each with the time that a task's releases so far make it. -/
def released (ts : List RtRecord) (now : Nat) : List (Nat × Nat) :=
  (ts.filter (due · now)).map fun t => (t.born + (1 + t.processed) * t.rtPeriodCyc, now)

/-- The interrupt handler, which reads the counter at its start, in `rt_tick_release`
    and before it programs the timer. -/
def timerHandleIrq (s : Timer) (now rtNow now2 : Nat) : Timer :=
  let s := tick s now
  let rt := rtTickRelease rtNow s.tasks 0
  let nextEv := if rt.2 ≠ 0 ∧ rt.2 < s.nextTick then rt.2 else s.nextTick
  { s with
    tasks := rt.1
    log := s.log ++ released s.tasks rtNow
    last := now2
    -- A time that has passed would not be later than the reading.
    cval := if nextEv ≤ now2 then now2 + slack s else nextEv }

end Timer

end CortexForge
