import CortexForge.Core.Exec
import CortexForge.Lib.Traced

/-!
# Calls into the Scheduler

The ways into the scheduler as one type of calls, each run with a record of when
`mmu_free_user_tables` is entered: the table it is given, and what the base
register of the user tables holds at that moment.

The functions are those of `sched/sched.c` and `syscall/syscall.c` up to the call
in question. What comes after the last such call, or on a way without one, is
left to the functions themselves.

## Main definitions

* `TableFree`: An entry of the record.
* `schedReapTraced`, `schedCreateTaskTraced`, `schedForkTraced`,
  `loadImageTraced`: The functions that give tables back.
* `SchedCall`, `SchedCall.run`: The calls.
-/

namespace CortexForge.Sched

open Mmu Elf Syscall Traced

/-- A call of `mmu_free_user_tables`: the table it is given, and the register at
    that moment. -/
structure TableFree where
  l0 : Nat
  ttbr0El1 : Nat
deriving DecidableEq, Repr

variable {σ : Type} (src : Pages σ) (img : KernelImage)

/-- Give the tables of an address space back, with the call recorded. -/
def freeTablesTraced (ttbr0El1 : Nat) (m : Machine σ) (l0 : Nat) :
    Traced TableFree (Machine σ) := do
  access ⟨l0, ttbr0El1⟩
  pure (mmuFreeUserTables src m l0)

/-- Give back what a dead task held. -/
def reapTaskTraced (ttbr0El1 : Nat) (m : Machine σ) (dead : Task) :
    Traced TableFree (Machine σ) :=
  let m := if dead.stackPhys ≠ 0 then freePages src m dead.stackPhys taskStackPages else m
  let m := if dead.ustackPhys ≠ 0 then freePages src m dead.ustackPhys userStackPages else m
  let m := freeRegions src m dead.execImage.regions
  let m := dead.stackGrownPhys.foldl
    (fun m a => if a ≠ 0 then freePages src m a 1 else m) m
  if dead.ttbr0 ≠ 0 then freeTablesTraced src ttbr0El1 m (ttbrBaddr dead.ttbr0) else pure m

/-- The loop over the dead tasks. -/
def reapTasksTraced (ttbr0El1 : Nat) : List Task → Machine σ → Traced TableFree (Machine σ)
  | [], m => pure m
  | dead :: rest, m => do
      let m ← reapTaskTraced src ttbr0El1 m dead
      reapTasksTraced ttbr0El1 rest m

/-- Reap every dead task. -/
def schedReapTraced (s : Sched σ) : Traced TableFree (Sched σ) := do
  let m ← reapTasksTraced src s.ttbr0El1 s.deadList s.machine
  pure { s with machine := m, deadList := [] }

/-- Switch tasks. Dead tasks are reaped first, and the switch itself frees
    nothing. -/
def scheduleTraced (s : Sched σ) (sp : Nat) : Traced TableFree (Sched σ) := do
  let _ ← schedReapTraced src s
  pure (schedule src s sp)

/-- Sleep for `ms` milliseconds from tick `now` on. -/
def sleepMsTraced (s : Sched σ) (now ms sp : Nat) : Traced TableFree (Sched σ) :=
  let ticks := if ms / timerIntervalMs = 0 then 1 else ms / timerIntervalMs
  match s.queue with
  | [] => pure s
  | t :: rest =>
      scheduleTraced src
        { s with
          queue := { t with sleepUntil := wrap64 (now + ticks), state := .sleeping } :: rest } sp

/-- End the current task. -/
def taskExitTraced (s : Sched σ) (sp : Nat) : Traced TableFree (Sched σ) :=
  scheduleTraced src (setCurrentState s .dead) sp

/-- Kill a task. -/
def schedKillTaskTraced (s : Sched σ) (pid sp : Nat) : Traced TableFree (Sched σ) :=
  if pid = 0 then pure s
  else
    match schedFindTask s pid with
    | none => pure s
    | some t =>
        if t.state = .dead then pure s
        else if s.queue.head? = some t then taskExitTraced src s sp
        else pure (schedKillTask src s pid sp).1

/-- Create a user task. The tables are given back when there are no pages for
    the stack. -/
def schedCreateTaskTraced (s : Sched σ) (kmallocOk fdsOk : Bool) (entry : Nat) :
    Traced TableFree (Sched σ) :=
  if kmallocOk = false then pure s
  else
    let kstack := zeroedPages src s.machine taskStackPages
    if kstack.2 = 0 then pure { s with machine := kstack.1 }
    else
      let l0 := mmuCreateUserTables src kstack.1
      if l0.2 = 0 then pure { s with machine := freePages src l0.1 kstack.2 taskStackPages }
      else
        let entryPa := virtToPhys entry
        if entryPa < textStartPa img ∨ entryPa ≥ userTextEndPa img then
          let m := freePages src l0.1 l0.2 1
          pure { s with machine := freePages src m kstack.2 taskStackPages }
        else
          let m := mmuMapUserRange src l0.1 l0.2 userTextBase (textStartPa img) (textPages img)
            textFlags
          let ustack := zeroedPages src m userStackPages
          if ustack.2 = 0 then do
            let m ← freeTablesTraced src s.ttbr0El1 ustack.1 l0.2
            pure { s with machine := freePages src m kstack.2 taskStackPages }
          else pure (schedCreateTask src img s kmallocOk fdsOk entry).1

/-- Copy the current task. -/
def schedForkTraced (s : Sched σ) (kmallocOk fdsOk : Bool) (parent : Task) (frame : Nat) :
    Traced TableFree (Sched σ) :=
  if kmallocOk = false then pure s
  else
    let kstack := zeroedPages src s.machine taskStackPages
    if kstack.2 = 0 then pure { s with machine := kstack.1 }
    else
      let l0 := mmuCreateUserTables src kstack.1
      if l0.2 = 0 then pure { s with machine := freePages src l0.1 kstack.2 taskStackPages }
      else
        let m := mmuMapUserRange src l0.1 l0.2 userTextBase (textStartPa img) (textPages img)
          textFlags
        let ustack := allocatePages src m userStackPages
        if ustack.2 = 0 then do
          let m ← freeTablesTraced src s.ttbr0El1 ustack.1 l0.2
          pure { s with machine := freePages src m kstack.2 taskStackPages }
        else pure (schedFork src img s kmallocOk fdsOk parent frame).1

/-- Give back the image a task had before. -/
def freeOldImageTraced (ttbr0El1 : Nat) (m : Machine σ) (old : Task) :
    Traced TableFree (Machine σ) :=
  let m := if old.ustackPhys ≠ 0 then freePages src m old.ustackPhys userStackPages else m
  let m := freeRegions src m old.execImage.regions
  if old.ttbr0 ≠ 0 then freeTablesTraced src ttbr0El1 m (ttbrBaddr old.ttbr0) else pure m

/-- Replace the image of the current task. New tables are given back when the
    file does not load, and the old ones when the register has the new ones. -/
def loadImageTraced (s : Sched σ) (file : Option FileBytes) (args : ExecArgs) :
    Traced TableFree (Sched σ) :=
  match s.queue, file with
  | [], _ => pure s
  | _ :: _, none => pure s
  | cur :: rest, some f =>
      if cur.hasFds = false then pure s
      else if f.size = 0 ∨ f.size > execMaxBytes then pure s
      else
        let stack := zeroedPages src s.machine userStackPages
        if stack.2 = 0 then pure { s with machine := stack.1 }
        else
          let l0 := mmuCreateUserTables src stack.1
          if l0.2 = 0 then pure { s with machine := freePages src l0.1 stack.2 userStackPages }
          else
            match elfLoad src l0.1 f.bytes f.size l0.2 with
            | (m, none) => do
                let m ← freeTablesTraced src s.ttbr0El1 m l0.2
                pure { s with machine := freePages src m stack.2 userStackPages }
            | (m, some image) => do
                let m := mmuMapUserRange src m l0.2 ustackUserBase stack.2 userStackPages stackFlags
                let asid := schedAsidAlloc s.nextAsid
                let ttbr0 := ttbrPack l0.2 asid.1
                let new : Task :=
                  { cur with
                    ttbr0 := ttbr0
                    ustackPhys := stack.2
                    userSp := userStackTop
                    execImage := image }
                let m := { m with mem := writeArgs m.mem stack.2 args.strings }
                let m ← freeOldImageTraced src ttbr0 m cur
                pure { s with
                  machine := m
                  queue := new :: rest
                  nextAsid := asid.2
                  ttbr0El1 := ttbr0 }

/-- A call into the scheduler, or what happens between two of them: the program
    that runs now stores to its memory, or the kernel does other work. -/
inductive SchedCall (σ : Type) where
  | createTask (kmallocOk fdsOk : Bool) (entry : Nat)
  | createKernelTask (kmallocOk : Bool) (entry : Nat)
  | fork (kmallocOk fdsOk : Bool) (frame : Nat)
  | exec (file : Option FileBytes) (args : ExecArgs)
  | growStack (far : Nat)
  | schedule (sp : Nat)
  | block (sp : Nat)
  | sleep (now ms sp : Nat)
  | wake (now : Nat)
  | makeReady (i : Nat)
  | setPriority (i prio : Nat)
  | exit (sp : Nat)
  | kill (pid sp : Nat)
  | reap
  | store (mem : Memory)
  | kernel (m : Machine σ)

/-- The state after a call, with the tables it frees. -/
def SchedCall.run (c : SchedCall σ) (s : Sched σ) : Traced TableFree (Sched σ) :=
  match c with
  | .createTask kmallocOk fdsOk entry => schedCreateTaskTraced src img s kmallocOk fdsOk entry
  | .createKernelTask kmallocOk entry => pure (schedCreateKernelTask src img s kmallocOk entry).1
  | .fork kmallocOk fdsOk frame =>
      match s.queue with
      | [] => pure s
      | parent :: _ => schedForkTraced src img s kmallocOk fdsOk parent frame
  | .exec file args => loadImageTraced src s file args
  | .growStack far => pure (schedTryGrowStack src s far).1
  | .schedule sp => scheduleTraced src s sp
  | .block sp => scheduleTraced src (setCurrentState s .blocked) sp
  | .sleep now ms sp => sleepMsTraced src s now ms sp
  | .wake now => pure (schedWakeSleepers s now)
  | .makeReady i => pure (schedMakeReady s i)
  | .setPriority i prio => pure (schedSetPriority s i prio)
  | .exit sp => taskExitTraced src s sp
  | .kill pid sp => schedKillTaskTraced src s pid sp
  | .reap => schedReapTraced src s
  | .store mem => pure { s with machine := { s.machine with mem := mem } }
  | .kernel m => pure { s with machine := m }

end CortexForge.Sched
