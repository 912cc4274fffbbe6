import CortexForge.Core.RunQueue
import CortexForge.Core.Rtos

/-!
# Blocking Primitives on the Run Queue

The mutexes and semaphores of `sched/rtos.c` together with the scheduler of
`sched/sched.c`, over the same task records.

A record has the fields the scheduler uses, which are in the run queue, and the two
the primitives add, `wait_next` and `blocked_on`, which are kept beside it by the
address of the record. `view` shows the primitives the tasks as they see them, and
`writeTasks` stores what they change.

A primitive is cut where it enables interrupts again. What follows, the call of
`schedule` of a task that waits or has woken another, is an operation of its own,
as a timer interrupt may come first and call it as well.

## Main definitions

* `RtKernel`: The run queue, the fields of the primitives, mutexes and semaphores.
* `view`, `writeTasks`: The tasks as the primitives see them.
* `RtCall`, `rtCall`: The operations of the primitives and of the scheduler.
-/

namespace CortexForge

open Function

structure RtKernel (σ : Type) where
  rq : RunQueue σ
  waitNext : Nat → Nat
  blockedOn : Nat → Nat
  mutex : Nat → RtMutex
  sem : Nat → RtSem

namespace RtKernel

variable {σ : Type} (src : Pages σ) (img : KernelImage)

/-- The system at boot, with every mutex free and the semaphores at their initial
    counts. -/
def init (m : Machine σ) (count : Nat → Int) : RtKernel σ :=
  { rq := RunQueue.schedInit m
    waitNext := fun _ => 0
    blockedOn := fun _ => 0
    mutex := fun _ => {}
    sem := fun x => Rtos.rtSemInit (count x) }

/-- The tasks and mutexes as the primitives see them. -/
def view (s : RtKernel σ) : Rtos :=
  { task := fun t =>
      { priority := (s.rq.task t).priority
        basePriority := (s.rq.task t).basePriority
        state := (s.rq.task t).state
        waitNext := s.waitNext t
        blockedOn := s.blockedOn t }
    mutex := s.mutex }

/-- Store the fields of the tasks that the primitives change. -/
def writeTasks (s : RtKernel σ) (task : Nat → RtTask) : RtKernel σ :=
  { s with
    rq := { s.rq with
      task := fun t => { s.rq.task t with priority := (task t).priority, state := (task t).state } }
    waitNext := fun t => (task t).waitNext
    blockedOn := fun t => (task t).blockedOn }

def mutexLock (fuel : Nat) (s : RtKernel σ) (m : Nat) : Option (RtKernel σ) :=
  (Rtos.rtMutexLock fuel (view s) m s.rq.current).map fun (rt, _) =>
    { writeTasks s rt.task with mutex := rt.mutex }

def mutexLockResume (s : RtKernel σ) : RtKernel σ :=
  writeTasks s (Rtos.rtMutexLockResume (view s) s.rq.current).task

def mutexUnlock (s : RtKernel σ) (m : Nat) : RtKernel σ :=
  let rt := Rtos.rtMutexUnlock (view s) m s.rq.current
  { writeTasks s rt.task with mutex := rt.mutex }

def semWait (fuel : Nat) (s : RtKernel σ) (x : Nat) : Option (RtKernel σ) :=
  (Rtos.rtSemWait fuel (view s).task (s.sem x) s.rq.current).map fun (task, sem, _) =>
    { writeTasks s task with sem := update s.sem x sem }

def semPost (s : RtKernel σ) (x : Nat) : RtKernel σ :=
  let (task, sem) := Rtos.rtSemPost (view s).task (s.sem x)
  { writeTasks s task with sem := update s.sem x sem }

/-- The record that a call takes from the heap; 0 if there is none. -/
def newRecord : RunQueue.Call → Nat
  | .createKernelTask t _ => t
  | .createTask t _ _ => t
  -- A fork without a parent or a frame returns before it asks for one.
  | .fork t _ parent frame => if parent = 0 ∨ frame = 0 then 0 else t
  | _ => 0

/-- An operation of the scheduler. A record that the heap hands out is cleared,
    with the fields of the primitives. -/
def schedCall (fuel : Nat) (s : RtKernel σ) (c : RunQueue.Call) : Option (RtKernel σ) :=
  (RunQueue.call src img fuel s.rq c).map fun rq =>
    if newRecord c = 0 then { s with rq := rq }
    else
      { s with
        rq := rq
        waitNext := update s.waitNext (newRecord c) 0
        blockedOn := update s.blockedOn (newRecord c) 0 }

/-- The operations of the current task, of interrupts and of the scheduler. -/
inductive RtCall where
  | mutexLock (m : Nat)
  | mutexLockResume
  | mutexUnlock (m : Nat)
  | semWait (x : Nat)
  | semPost (x : Nat)
  | sched (c : RunQueue.Call)
deriving DecidableEq, Repr

def rtCall (fuel : Nat) (s : RtKernel σ) : RtCall → Option (RtKernel σ)
  | .mutexLock m => RtKernel.mutexLock fuel s m
  | .mutexLockResume => some (RtKernel.mutexLockResume s)
  | .mutexUnlock m => some (RtKernel.mutexUnlock s m)
  | .semWait x => RtKernel.semWait fuel s x
  | .semPost x => some (RtKernel.semPost s x)
  | .sched c => schedCall src img fuel s c

end RtKernel

end CortexForge
