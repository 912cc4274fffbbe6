import CortexForge.Core.Sched

/-!
# Real-Time Mutexes and Semaphores

Blocking mutexes with priority inheritance, and counting semaphores, from
`sched/rtos.c`.

Tasks and mutexes are records behind pointers, which are numbers with 0 for the
null pointer. A wait queue is threaded through the `wait_next` fields of the tasks
on it. The walk along a queue is bounded by a counter, and `none` is a walk that
is not over by then; the boost of priorities along a blocking chain is bounded in
the source.

The calls are cut where interrupts are enabled again and another task may run.
`rtMutexLock` is the part of a lock up to there, and says whether the caller has
to wait; `rtMutexLockResume` is what it does once it runs again. The scheduler
that is called in between is not part of this model, and the current task is an
argument.

## Main definitions

* `RtTask`, `RtMutex`, `Rtos`: Tasks, mutexes, and all of them.
* `wqInsert`, `piPropagate`: Queueing a task, and inheriting its priority.
* `rtMutexLock`, `rtMutexLockResume`, `rtMutexUnlock`: The calls.
* `RtSem`, `rtSemInit`, `rtSemWait`, `rtSemPost`: Semaphores and their calls.
-/

namespace CortexForge

open Function

/-- The fields of a task that the primitives use. -/
structure RtTask where
  priority : Nat
  basePriority : Nat
  state : TaskState
  waitNext : Nat := 0
  blockedOn : Nat := 0
deriving DecidableEq, Repr

structure RtMutex where
  owner : Nat := 0
  waiters : Nat := 0
  locked : Nat := 0
deriving DecidableEq, Repr

structure RtSem where
  count : Int
  waiters : Nat := 0
deriving DecidableEq, Repr

/-- The tasks and the mutexes by their addresses. -/
structure Rtos where
  task : Nat → RtTask
  mutex : Nat → RtMutex

namespace Rtos

def setWaitNext (task : Nat → RtTask) (t next : Nat) : Nat → RtTask :=
  update task t { task t with waitNext := next }

def setPriority (task : Nat → RtTask) (t prio : Nat) : Nat → RtTask :=
  update task t { task t with priority := prio }

def setState (task : Nat → RtTask) (t : Nat) (state : TaskState) : Nat → RtTask :=
  update task t { task t with state := state }

def setBlockedOn (task : Nat → RtTask) (t m : Nat) : Nat → RtTask :=
  update task t { task t with blockedOn := m }

/-- From `p` on, the last task before one of a priority below `prio`. -/
def wqWalk (task : Nat → RtTask) (prio : Nat) : Nat → Nat → Option Nat
  | 0, _ => none
  | fuel + 1, p =>
      -- A task of the same priority is passed: equals are served in their order.
      let n := (task p).waitNext
      if n ≠ 0 ∧ (task n).priority ≥ prio then wqWalk task prio fuel n else some p

/-- Queue the task `me` behind those of at least its priority. -/
def wqInsert (fuel : Nat) (task : Nat → RtTask) (head me : Nat) :
    Option ((Nat → RtTask) × Nat) :=
  let task := setWaitNext task me 0
  -- Only a higher priority goes before the head.
  if head = 0 ∨ (task me).priority > (task head).priority then
    some (setWaitNext task me head, me)
  else
    (wqWalk task (task me).priority fuel head).map fun p =>
      (setWaitNext (setWaitNext task me (task p).waitNext) p me, head)

/-- Raise `owner`, and along a blocking chain the owners of what it waits for, to
    `prio`. -/
def piPropagate : Nat → Rtos → Nat → Nat → Rtos
  | 0, s, _, _ => s
  | depth + 1, s, owner, prio =>
      if owner = 0 then s
      -- A chain is left where it needs no boost, even if a task further on does.
      else if prio ≤ (s.task owner).priority then s
      else
        let s := { s with task := setPriority s.task owner prio }
        let bm := (s.task owner).blockedOn
        if bm = 0 then s else piPropagate depth s (s.mutex bm).owner prio

/-- Lock a mutex, or queue up for it; whether the caller has to wait. -/
def rtMutexLock (fuel : Nat) (s : Rtos) (m me : Nat) : Option (Rtos × Bool) :=
  if (s.mutex m).locked = 0 then
    some ({ s with
      mutex := update s.mutex m { s.mutex m with locked := 1, owner := me } }, false)
  else
    (wqInsert fuel (setBlockedOn s.task me m) (s.mutex m).waiters me).map fun (task, head) =>
      let s : Rtos :=
        { task := task, mutex := update s.mutex m { s.mutex m with waiters := head } }
      -- The boost stops after eight owners, which bounds it on a deadlocked chain.
      let s := piPropagate 8 s (s.mutex m).owner (s.task me).priority
      ({ s with task := setState s.task me .blocked }, true)

/-- The end of a lock that had to wait. -/
def rtMutexLockResume (s : Rtos) (me : Nat) : Rtos :=
  { s with task := setBlockedOn s.task me 0 }

/-- Unlock a mutex, or hand it to the first task that waits for it. -/
def rtMutexUnlock (s : Rtos) (m me : Nat) : Rtos :=
  -- The nominal priority comes back whatever else the task still holds.
  let task := setPriority s.task me (s.task me).basePriority
  let w := (s.mutex m).waiters
  if w = 0 then
    { task := task, mutex := update s.mutex m { s.mutex m with locked := 0, owner := 0 } }
  else
    -- The mutex stays locked while it changes hands, so nobody gets in between.
    { mutex := update s.mutex m
        { s.mutex m with waiters := (task w).waitNext, owner := w }
      task := setState (setWaitNext task w 0) w .ready }

def rtSemInit (initial : Int) : RtSem := { count := initial }

/-- Take a unit of a semaphore, or queue up for one; whether the caller has to wait. -/
def rtSemWait (fuel : Nat) (task : Nat → RtTask) (sem : RtSem) (me : Nat) :
    Option ((Nat → RtTask) × RtSem × Bool) :=
  if sem.count > 0 then some (task, { sem with count := sem.count - 1 }, false)
  else
    (wqInsert fuel task sem.waiters me).map fun (task, head) =>
      (setState task me .blocked, { sem with waiters := head }, true)

/-- Hand a unit to the first task that waits for one, or keep it. -/
def rtSemPost (task : Nat → RtTask) (sem : RtSem) : (Nat → RtTask) × RtSem :=
  let w := sem.waiters
  -- A unit that is handed over is never counted.
  if w ≠ 0 then
    (setState (setWaitNext task w 0) w .ready, { sem with waiters := (task w).waitNext })
  else (task, { sem with count := sem.count + 1 })

end Rtos

end CortexForge
