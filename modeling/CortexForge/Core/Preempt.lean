import CortexForge.Core.RunQueue

/-!
# Preemption inside the Scheduler

`schedule` of `sched/sched.c` one statement at a time, on a processor that takes a
timer interrupt between any two of them while interrupts are not masked.

Of a stack pointer only the kernel stack that it points into matters, and stacks
are named by the task they belong to. A kernel stack holds the activations of
`schedule` that are not over, innermost first. The one in progress is the first on
the stack in use; those on other stacks wait for a context switch to return. A
stack without activations runs code outside the scheduler.

An interrupt masks interrupts, pushes an activation onto the stack that is in use
and unmasks them again on return, from `exception/exception.c` and
`exception/vector.S`. Calls from a task do not touch the mask; `syscall_dispatch`
clears it before, which here is a step of its own. Operations on the run queue
other than `schedule` are single steps.

## Main definitions

* `Stmt`, `step`: The statements of `schedule`, and what they do.
* `Cpu`, `Event`, `next`: The processor and what can happen to it.
-/

namespace CortexForge

/-- The statements of `schedule`, each with the local variables it needs. -/
inductive Stmt where
  | reapTest
  | reapHead
  | reapPop (dead : Nat)
  | reapFree (dead : Nat)
  | readCurrent
  | scanStart (prev : Nat)
  | scan (prev t best : Nat) (bestPri : Int)
  | choose (prev next : Nat)
  | demote (prev next : Nat)
  | testDead (prev next : Nat)
  | walk (prev next p : Nat)
  | unlink (prev next p : Nat)
  | push (prev next : Nat)
  | setDead (prev next : Nat)
  | markRunning (prev next : Nat)
  | setCurrent (prev next : Nat)
  | contextSwitch (prev next : Nat)
  | leave
deriving DecidableEq, Repr

/-- A call of `schedule` that is not over, by the interrupt handler or by a task. -/
structure Activation where
  stmt : Stmt
  irq : Bool
deriving DecidableEq, Repr

/-- The processor: the kernel stack in use, the mask, the stack that each task's
    saved pointer points into, and the activations on each stack. -/
structure Cpu (σ : Type) where
  queue : RunQueue σ
  stack : Nat
  masked : Bool
  saved : Nat → Nat
  frames : Nat → List Activation

namespace Cpu

open RunQueue Function

variable {σ : Type} (src : Pages σ) (img : KernelImage)

/-- One statement, and the one after it. The stack pointer is `sp` when it is
    stored. -/
def step (sp : Nat) (s : RunQueue σ) : Stmt → RunQueue σ × Stmt
  -- `sched_reap`, once for every dead task.
  | .reapTest => (s, if s.deadList ≠ 0 then .reapHead else .readCurrent)
  | .reapHead => (s, .reapPop s.deadList)
  | .reapPop dead => (popDead s dead, .reapFree dead)
  | .reapFree dead => (freeDead src s dead, .reapTest)
  -- The scan, whose variables live in the frame and not in the run queue.
  | .readCurrent => (s, .scanStart s.current)
  | .scanStart prev => (s, .scan prev (s.next prev) idleTask (-1))
  | .scan prev t best bestPri =>
      let pri := if better s prev t bestPri then ((s.task t).priority : Int) else bestPri
      let best := if better s prev t bestPri then t else best
      (s, if s.next t ≠ s.next prev then .scan prev (s.next t) best pri else .choose prev best)
  | .choose prev next =>
      if next = prev then (setState s prev .running, .leave) else (s, .demote prev next)
  | .demote prev next => (RunQueue.demote s prev, .testDead prev next)
  -- A dead task is unlinked with three stores, each of them a step.
  | .testDead prev next =>
      (s, if (s.task prev).state = .dead then .walk prev next prev else .markRunning prev next)
  | .walk prev next p =>
      (s, if s.next p ≠ prev then .walk prev next (s.next p) else .unlink prev next p)
  | .unlink prev next p => (setNext s p (s.next prev), .push prev next)
  | .push prev next => (setNext s prev s.deadList, .setDead prev next)
  | .setDead prev next => ({ s with deadList := prev }, .markRunning prev next)
  -- From here on the run queue names `next` while `prev` still has the processor.
  | .markRunning prev next => (setState s next .running, .setCurrent prev next)
  | .setCurrent prev next => ({ s with current := next }, .contextSwitch prev next)
  | .contextSwitch prev next => (RunQueue.contextSwitch s prev next sp, .leave)
  | .leave => (s, .leave)

/-- How a task gives up the processor. -/
inductive Giving where
  | yield
  | sleep (now ms : Nat)
  | block
  | exit
deriving DecidableEq, Repr

/-- What the caller of `schedule` does to the current task before. -/
def give (s : RunQueue σ) : Giving → RunQueue σ
  | .yield => s
  | .sleep now ms => setSleep s (sleepEnd now ms)
  | .block => setState s s.current .blocked
  | .exit => setState s s.current .dead

/-- What can happen: the statement in progress is executed; a timer interrupt
    arrives, which at a tick wakes sleepers first; code outside the scheduler changes
    the mask, calls `schedule`, kills a task or does something else to the run queue;
    or other code, at any time, changes a record but for its number and its state, as
    `sched_set_priority` does. -/
inductive Event where
  | run (sp : Nat)
  | irq (tick : Option Nat)
  | mask (masked : Bool)
  | give (giving : Giving)
  | kill (pid : Nat)
  | op (c : Call)
  | work (t : Nat) (record : Task)
deriving DecidableEq, Repr

/-- Call `schedule` on the stack in use. -/
def enter (c : Cpu σ) (irq : Bool) : Cpu σ :=
  { c with
    frames := update c.frames c.stack
      ({ stmt := .reapTest, irq := irq } :: c.frames c.stack) }

/-- Execute the statement in progress. -/
def run (c : Cpu σ) (sp : Nat) : Option (Cpu σ) :=
  match c.frames c.stack with
  | [] => none
  | a :: rest =>
      let done := step src sp c.queue a.stmt
      let frames := update c.frames c.stack ({ a with stmt := done.2 } :: rest)
      match a.stmt with
      -- The return from an interrupt enables interrupts again.
      | .leave =>
          some { c with
            masked := if a.irq then false else c.masked
            frames := update c.frames c.stack rest }
      | .contextSwitch prev next =>
          -- The rest of this activation waits on the stack of `prev` until it is switched to.
          let saved := update c.saved prev c.stack
          some { c with
            queue := done.1
            stack := saved next
            saved := saved
            frames := frames }
      | _ => some { c with queue := done.1, frames := frames }

def irq (fuel : Nat) (c : Cpu σ) (tick : Option Nat) : Option (Cpu σ) :=
  -- A masked interrupt does not arrive.
  if c.masked then none
  else
    let queue :=
      match tick with
      | none => some c.queue
      | some now => schedWakeSleepers fuel c.queue now
    queue.map fun q => enter { c with queue := q, masked := true } true

/-- Kill a task, from code outside the scheduler. -/
def kill (fuel : Nat) (c : Cpu σ) (pid : Nat) : Option (Cpu σ) :=
  if pid = 0 then some c
  else
    (findFrom c.queue pid fuel idleTask).bind fun t =>
      if t = 0 then some c
      else if (c.queue.task t).state = .dead then some c
      -- To kill the caller is to exit, which calls `schedule`.
      else if t = c.queue.current then some (enter { c with queue := give c.queue .exit } false)
      else (killOther fuel c.queue t).map fun q => { c with queue := q }

/-- A new task has a stack of its own, and its code is outside the scheduler. -/
def newStack (c : Cpu σ) (t : Nat) : Cpu σ :=
  { c with saved := update c.saved t t, frames := update c.frames t [] }

/-- The operations that do not call `schedule`. -/
def op (fuel : Nat) (c : Cpu σ) (operation : Call) : Option (Cpu σ) :=
  let done := call src img fuel c.queue operation
  match operation with
  | .createKernelTask t _ => done.map fun q => newStack { c with queue := q } t
  | .createTask t _ _ => done.map fun q => newStack { c with queue := q } t
  | .fork t _ _ _ => done.map fun q => newStack { c with queue := q } t
  | .wakeSleepers _ => done.map fun q => { c with queue := q }
  | .makeReady _ => done.map fun q => { c with queue := q }
  | _ => none

/-- Change the record of `t`. -/
def work (s : RunQueue σ) (t : Nat) (record : Task) : RunQueue σ :=
  { s with
    task := update s.task t
      { record with pid := (s.task t).pid, state := (s.task t).state } }

/-- Something happens to the processor. What code outside the scheduler does needs
    that such code runs. -/
def next (fuel : Nat) (c : Cpu σ) : Event → Option (Cpu σ)
  | .run sp => run src c sp
  | .irq tick => irq fuel c tick
  | .mask masked => if c.frames c.stack = [] then some { c with masked := masked } else none
  | .give giving =>
      if c.frames c.stack = [] then some (enter { c with queue := give c.queue giving } false)
      else none
  | .kill pid => if c.frames c.stack = [] then kill fuel c pid else none
  | .op operation => if c.frames c.stack = [] then op src img fuel c operation else none
  | .work t record => some { c with queue := work c.queue t record }

/-- The processor at boot, in the idle task. -/
def boot (m : Machine σ) : Cpu σ :=
  { queue := schedInit m
    stack := idleTask
    masked := true
    saved := fun t => t
    frames := fun _ => [] }

end Cpu

end CortexForge
