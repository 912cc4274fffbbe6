import CortexForge.Core.Sched
import CortexForge.Lib.Circular

/-!
# The Run Queue in Memory

The scheduler of `sched/sched.c` with its run queue as it is in memory: task
records behind pointers, linked into a ring through their `next` fields, and a
list of dead tasks threaded through the same fields.

Pointers are numbers with 0 for the null pointer, and `idleTask` is the address of
the static record of the idle task. Loops along the links are bounded by a counter;
`none` is a loop that is not over by then. A new record is filled in by the
constructors of the model in which the queue is a list, run on an empty queue, so
what is left out there is left out here.

`created` and `released` are not part of the kernel. They log the records that
became tasks and those given back to the heap, in order.

## Main definitions

* `RunQueue`: The records, their links, and the scheduler's variables.
* `schedCreateKernelTask`, `schedCreateTask`, `schedFork`: New tasks.
* `schedReap`, `schedule`, `taskExit`, `schedKillTask`: The life of tasks.
* `sleepMs`, `schedWakeSleepers`, `schedBlockCurrent`, `schedMakeReady`: Their states.
* `Call`, `call`: All of these operations.
-/

namespace CortexForge

open Function

/-- The records by their addresses, with the link of each apart. -/
structure RunQueue (σ : Type) where
  machine : Machine σ
  task : Nat → Task
  next : Nat → Nat
  current : Nat
  deadList : Nat
  nextPid : Nat
  nextAsid : Nat
  ttbr0El1 : Nat
  created : List Nat
  released : List Nat

namespace RunQueue

/-- The address of the idle task's record. Addresses are only compared, so any
    but the null pointer will do. -/
def idleTask : Nat := 1

variable {σ : Type} (src : Pages σ) (img : KernelImage)

def setState (s : RunQueue σ) (t : Nat) (state : TaskState) : RunQueue σ :=
  { s with task := update s.task t { s.task t with state := state } }

def setNext (s : RunQueue σ) (t next : Nat) : RunQueue σ :=
  { s with next := update s.next t next }

/-- The run queue at boot: the idle task, linked to itself. The other records do
    not exist yet. -/
def schedInit (m : Machine σ) : RunQueue σ :=
  { machine := m
    task := fun _ => { isIdle := true, pid := 0, state := .ready }
    next := fun _ => idleTask
    current := idleTask
    deadList := 0
    nextPid := 1
    nextAsid := 1
    ttbr0El1 := 0
    created := []
    released := [] }

/-- The scheduler's variables without a run queue, to build a record with. -/
def builder (s : RunQueue σ) : Sched σ :=
  { machine := s.machine
    queue := []
    deadList := []
    nextPid := s.nextPid
    nextAsid := s.nextAsid
    ttbr0El1 := s.ttbr0El1 }

/-- Link the record `t` in before the current task. -/
def insertTask (s : RunQueue σ) (tail t : Nat) (record : Task) : RunQueue σ :=
  { s with
    task := update s.task t record
    next := update (update s.next tail t) t s.current
    created := s.created ++ [t] }

/-- Create a task in the record `t` that the heap handed out; 0 if it had none.
    `built` is the record filled in, or an empty queue if that failed. -/
def createWith (fuel : Nat) (s : RunQueue σ) (t : Nat) (built : Sched σ × Int) :
    Option (RunQueue σ × Int) :=
  if t = 0 then some (s, -1)
  else
    let s := { s with
      machine := built.1.machine
      nextPid := built.1.nextPid
      nextAsid := built.1.nextAsid }
    match built.1.queue with
    -- Construction failed: the numbers it took stay taken, the ring is as before.
    | [] => some (s, built.2)
    | record :: _ =>
        -- The walk starts at the current task and ends at the one that points to it.
        (predecessor s.next s.current fuel s.current).map fun tail =>
          (insertTask s tail t record, built.2)

def schedCreateKernelTask (fuel : Nat) (s : RunQueue σ) (t entry : Nat) :
    Option (RunQueue σ × Int) :=
  createWith fuel s t (Sched.schedCreateKernelTask src img (builder s) true entry)

def schedCreateTask (fuel : Nat) (s : RunQueue σ) (t : Nat) (fdsOk : Bool) (entry : Nat) :
    Option (RunQueue σ × Int) :=
  createWith fuel s t (Sched.schedCreateTask src img (builder s) true fdsOk entry)

def schedFork (fuel : Nat) (s : RunQueue σ) (t : Nat) (fdsOk : Bool) (parent frame : Nat) :
    Option (RunQueue σ × Int) :=
  if parent = 0 ∨ frame = 0 then some (s, -1)
  else
    createWith fuel s t (Sched.schedFork src img (builder s) true fdsOk (s.task parent) frame)

/-- Take the first dead task off its list. -/
def popDead (s : RunQueue σ) (dead : Nat) : RunQueue σ :=
  { s with deadList := s.next dead }

/-- Give back what a dead task held, and its record. -/
def freeDead (s : RunQueue σ) (dead : Nat) : RunQueue σ :=
  { s with
    machine := Sched.reapTask src s.machine (s.task dead)
    released := s.released ++ [dead] }

def schedReap : Nat → RunQueue σ → Option (RunQueue σ)
  | 0, _ => none
  | fuel + 1, s =>
      -- The link of the head is read before its record goes back to the heap.
      if s.deadList ≠ 0 then schedReap fuel (freeDead src (popDead s s.deadList) s.deadList)
      else some s

/-- The task `t` may run next when `prev` runs now. -/
def runnable (s : RunQueue σ) (prev t : Nat) : Bool :=
  decide ((s.task t).state = .ready) || (decide (t = prev) && decide ((s.task t).state = .running))

/-- The task `t` goes before the best so far. -/
def better (s : RunQueue σ) (prev t : Nat) (bestPri : Int) : Bool :=
  runnable s prev t && decide (((s.task t).priority : Int) > bestPri)

/-- The scan for the task to run next, once around the ring from `t` on. -/
def pick (s : RunQueue σ) (prev : Nat) : Nat → Nat → Nat → Int → Option Nat
  | 0, _, _, _ => none
  | fuel + 1, t, best, bestPri =>
      -- The comparison is strict, so of equal priorities the first after `prev` wins.
      let pri := if better s prev t bestPri then ((s.task t).priority : Int) else bestPri
      let best := if better s prev t bestPri then t else best
      -- The loop tests at its end: `prev` itself is the last task it looks at.
      if s.next t ≠ s.next prev then pick s prev fuel (s.next t) best pri else some best

/-- A task that is switched away from while it could go on is ready again. -/
def demote (s : RunQueue σ) (prev : Nat) : RunQueue σ :=
  if (s.task prev).state = .running then setState s prev .ready else s

/-- Move a task from the ring to the list of dead tasks, with `p` before it. -/
def bury (s : RunQueue σ) (p t : Nat) : RunQueue σ :=
  -- The list of dead tasks is threaded through the link the ring has just given up.
  { setNext (setNext s p (s.next t)) t s.deadList with deadList := t }

def unlinkDead (fuel : Nat) (s : RunQueue σ) (t : Nat) : Option (RunQueue σ) :=
  (predecessor s.next t fuel t).map fun p => bury s p t

/-- Store the stack pointer `sp` of one task and go on with another. -/
def contextSwitch (s : RunQueue σ) (prev next sp : Nat) : RunQueue σ :=
  { s with
    task := update s.task prev { s.task prev with sp := sp }
    -- A kernel task has no tables of its own and runs on those of the task before.
    ttbr0El1 := if (s.task next).ttbr0 = 0 then s.ttbr0El1 else (s.task next).ttbr0 }

/-- Make a task the one that runs. -/
def setCurrent (s : RunQueue σ) (next : Nat) : RunQueue σ :=
  { setState s next .running with current := next }

/-- Switch from `prev`, whose stack pointer is `sp`, to `next`. -/
def switchTo (fuel : Nat) (s : RunQueue σ) (prev next sp : Nat) : Option (RunQueue σ) :=
  let s := demote s prev
  -- The record is still in use until the switch: it is only queued to be freed.
  let left := if (s.task prev).state = .dead then unlinkDead fuel s prev else some s
  left.map fun s => contextSwitch (setCurrent s next) prev next sp

def schedule (fuel : Nat) (s : RunQueue σ) (sp : Nat) : Option (RunQueue σ) :=
  (schedReap src fuel s).bind fun s =>
    let prev := s.current
    (pick s prev fuel (s.next prev) idleTask (-1)).bind fun next =>
      -- With no runnable task at all the idle task is chosen.
      if next = prev then some (setState s prev .running)
      else switchTo fuel s prev next sp

def schedMakeReady (s : RunQueue σ) (t : Nat) : RunQueue σ :=
  if t ≠ 0 ∧ (s.task t).state ≠ .dead then setState s t .ready else s

def schedBlockCurrent (fuel : Nat) (s : RunQueue σ) (sp : Nat) : Option (RunQueue σ) :=
  schedule src fuel (setState s s.current .blocked) sp

def taskExit (fuel : Nat) (s : RunQueue σ) (sp : Nat) : Option (RunQueue σ) :=
  schedule src fuel (setState s s.current .dead) sp

/-- The first task with the number `pid` from `t` on; 0 if there is none. -/
def findFrom (s : RunQueue σ) (pid : Nat) : Nat → Nat → Option Nat
  | 0, _ => none
  | fuel + 1, t =>
      -- The idle task is looked at as well, with its own number 0.
      if (s.task t).pid = pid then some t
      else if s.next t ≠ idleTask then findFrom s pid fuel (s.next t)
      else some 0

/-- Kill a task other than the current one. -/
def killOther (fuel : Nat) (s : RunQueue σ) (t : Nat) : Option (RunQueue σ) :=
  (unlinkDead fuel s t).map fun s => setState s t .dead

def schedKillTask (fuel : Nat) (s : RunQueue σ) (pid sp : Nat) : Option (RunQueue σ × Int) :=
  if pid = 0 then some (s, -1)
  else
    (findFrom s pid fuel idleTask).bind fun t =>
      if t = 0 then some (s, -1)
      else if (s.task t).state = .dead then some (s, -1)
      -- The caller killed itself, and the call does not come back to it.
      else if t = s.current then (taskExit src fuel s sp).map fun s => (s, 0)
      else (killOther fuel s t).map fun s => (s, 0)

/-- The current task sleeps until a tick. -/
def setSleep (s : RunQueue σ) (sleepUntil : Nat) : RunQueue σ :=
  { s with
    task := update s.task s.current
      { s.task s.current with sleepUntil := sleepUntil, state := .sleeping } }

/-- The tick at which a sleep of `ms` milliseconds that starts at `now` is over. -/
def sleepEnd (now ms : Nat) : Nat :=
  -- A sleep of less than a tick lasts one tick.
  let ticks := if ms / Sched.timerIntervalMs = 0 then 1 else ms / Sched.timerIntervalMs
  wrap64 (now + ticks)

def sleepMs (fuel : Nat) (s : RunQueue σ) (now ms sp : Nat) : Option (RunQueue σ) :=
  schedule src fuel (setSleep s (sleepEnd now ms)) sp

/-- Wake a task whose time has come. -/
def wake (now : Nat) (s : RunQueue σ) (t : Nat) : RunQueue σ :=
  -- A periodic task sleeps between its jobs and is released by its own deadline.
  if (s.task t).state = .sleeping ∧ (s.task t).rtPeriodCyc = 0 ∧ now ≥ (s.task t).sleepUntil then
    { s with task := update s.task t { s.task t with state := .ready, sleepUntil := 0 } }
  else s

def wakeFrom (now : Nat) : Nat → RunQueue σ → Nat → Option (RunQueue σ)
  | 0, _, _ => none
  | fuel + 1, s, t => if t ≠ idleTask then wakeFrom now fuel (wake now s t) (s.next t) else some s

def schedWakeSleepers (fuel : Nat) (s : RunQueue σ) (now : Nat) : Option (RunQueue σ) :=
  wakeFrom now fuel s (s.next idleTask)

/-- The operations on the run queue. A record `t` is what the heap hands out, and
    `sp` the stack pointer of the task that calls. -/
inductive Call where
  | createKernelTask (t entry : Nat)
  | createTask (t : Nat) (fdsOk : Bool) (entry : Nat)
  | fork (t : Nat) (fdsOk : Bool) (parent frame : Nat)
  | schedule (sp : Nat)
  | taskExit (sp : Nat)
  | killTask (pid sp : Nat)
  | sleepMs (now ms sp : Nat)
  | wakeSleepers (now : Nat)
  | blockCurrent (sp : Nat)
  | makeReady (t : Nat)
  | reap
deriving DecidableEq, Repr

/-- Run an operation, without what it returns. -/
def call (fuel : Nat) (s : RunQueue σ) : Call → Option (RunQueue σ)
  | .createKernelTask t entry => (schedCreateKernelTask src img fuel s t entry).map Prod.fst
  | .createTask t fdsOk entry => (schedCreateTask src img fuel s t fdsOk entry).map Prod.fst
  | .fork t fdsOk parent frame => (schedFork src img fuel s t fdsOk parent frame).map Prod.fst
  | .schedule sp => RunQueue.schedule src fuel s sp
  | .taskExit sp => RunQueue.taskExit src fuel s sp
  | .killTask pid sp => (schedKillTask src fuel s pid sp).map Prod.fst
  | .sleepMs now ms sp => RunQueue.sleepMs src fuel s now ms sp
  | .wakeSleepers now => schedWakeSleepers fuel s now
  | .blockCurrent sp => schedBlockCurrent src fuel s sp
  | .makeReady t => some (schedMakeReady s t)
  | .reap => schedReap src fuel s

end RunQueue

end CortexForge
