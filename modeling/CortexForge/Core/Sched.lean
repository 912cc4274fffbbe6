import CortexForge.Core.Elf

/-!
# Tasks and the Scheduler

Task construction, stack growth, scheduling and reaping, from `sched/sched.c` and
`sched/sched.h`.

The run queue is a ring of tasks linked through their `next` fields; here it is
the list of the ring's tasks that starts at the current one, so inserting before
the current task appends, and switching to another task rotates. A task's place
in the list stands for its address. The idle task is a static object; `isIdle`
marks it.

The heap hands out task records and file descriptor tables. Whether it could is
a parameter, and the heap's own pages are none of the pages here. Names, signal
state and file descriptors are left out, as is what a context switch saves in
registers: `sp` is the stack pointer it stores. The base register of the user
tables is `ttbr0El1`.

## Main definitions

* `Task`, `Sched`: A task and the scheduler's state.
* `schedCreateTask`, `schedCreateKernelTask`, `schedFork`: Task construction.
* `schedTryGrowStack`: A page of stack on demand.
* `schedule`, `taskExit`, `schedKillTask`, `schedReap`: The life of tasks.
-/

namespace CortexForge

inductive TaskState where
  | ready
  | running
  | sleeping
  | dead
  | blocked
deriving DecidableEq, Repr

/-- A task. The zeros of a fresh record are the defaults. -/
structure Task where
  isIdle : Bool := false
  sp : Nat := 0
  pid : Nat
  state : TaskState
  sleepUntil : Nat := 0
  stackPhys : Nat := 0
  ttbr0 : Nat := 0
  userSp : Nat := 0
  kstackTop : Nat := 0
  ustackPhys : Nat := 0
  execImage : ElfImage := ⟨0, []⟩
  hasFds : Bool := false
  stackGrownPhys : List Nat := []
  priority : Nat := 0
  basePriority : Nat := 0
  rtPeriodCyc : Nat := 0
deriving DecidableEq, Repr

/-- The scheduler's state, with the current task at the head of the queue. -/
structure Sched (σ : Type) where
  machine : Machine σ
  queue : List Task
  deadList : List Task
  nextPid : Nat
  nextAsid : Nat
  ttbr0El1 : Nat

/-- What the linker knows of the kernel image: the bounds of the text that user
    tasks may see, and the code that tasks start in. The bounds are page
    addresses of the linear map. -/
structure KernelImage where
  textStart : Nat
  userTextEnd : Nat
  taskTrampoline : Nat
  kernelTaskTrampoline : Nat
  forkReturn : Nat
  start_mapped : kernelVaOffset ≤ textStart
  start_le_end : textStart ≤ userTextEnd
  end_mapped : userTextEnd ≤ kernelVaOffset + physLimit
  start_aligned : textStart % pageSize = 0
  end_aligned : userTextEnd % pageSize = 0

namespace Sched

open Mmu Elf

def taskStackPages : Nat := 4

def userStackPagesMax : Nat := 64

def userStackGrownMax : Nat := userStackPagesMax - userStackPages

def prioDefault : Nat := 8

/-- The registers a context switch saves. -/
def switchFrameSize : Nat := 160

/-- The trap frame at the top of a kernel stack. -/
def trapFrameSize : Nat := 688

def timerIntervalMs : Nat := 10

/-- The first address of the stack a task starts with. -/
def ustackUserBase : Nat := userStackTop - userStackPages * pageSize

def textStartPa (img : KernelImage) : Nat := virtToPhys img.textStart

def userTextEndPa (img : KernelImage) : Nat := virtToPhys img.userTextEnd

def textPages (img : KernelImage) : Nat :=
  sub64 (userTextEndPa img) (textStartPa img) / pageSize

/-- The address space number to use, and the one after it. Numbers are 16 bits
    wide and 0 is skipped. -/
def schedAsidAlloc (nextAsid : Nat) : Nat × Nat :=
  let next := (nextAsid + 1) % 2 ^ 16
  (nextAsid, if next = 0 then 1 else next)

/-- A process number as the `int` that is returned. -/
def pidResult (pid : Nat) : Int := (BitVec.ofNat 32 pid).toInt

variable {σ : Type} (src : Pages σ) (img : KernelImage)

/-- `n` pages of zeros; 0 when there are none. -/
def zeroedPages (m : Machine σ) (n : Nat) : Machine σ × Nat :=
  let got := allocatePages src m n
  if got.2 = 0 then (got.1, 0)
  else ({ got.1 with mem := memset got.1.mem got.2 0#8 (n * pageSize) }, got.2)

/-- Create a task that runs kernel code. -/
def schedCreateKernelTask (s : Sched σ) (kmallocOk : Bool) (entry : Nat) : Sched σ × Int :=
  if kmallocOk = false then (s, -1)
  else
    let kstack := zeroedPages src s.machine taskStackPages
    if kstack.2 = 0 then ({ s with machine := kstack.1 }, -1)
    else
      let frame := kstack.2 + taskStackPages * pageSize - switchFrameSize
      let mem := storeN kstack.1.mem frame 8 entry
      let mem := storeN mem (frame + 8) 8 0
      let mem := storeN mem (frame + 88) 8 img.kernelTaskTrampoline
      let t : Task :=
        { sp := physToVirt frame
          pid := s.nextPid
          state := .ready
          stackPhys := kstack.2
          kstackTop := wrap64 (physToVirt kstack.2 + taskStackPages * pageSize)
          priority := prioDefault
          basePriority := prioDefault }
      ({ s with
          machine := { kstack.1 with mem := mem }
          queue := s.queue ++ [t]
          nextPid := wrap64 (s.nextPid + 1) }, pidResult s.nextPid)

/-- Create a task that runs the function at `entry`, seen through the window on
    the kernel's text, as a user. An entry outside that window is only noticed
    when the tables exist, and of those the first is given back. -/
def schedCreateTask (s : Sched σ) (kmallocOk fdsOk : Bool) (entry : Nat) : Sched σ × Int :=
  if kmallocOk = false then (s, -1)
  else
    let kstack := zeroedPages src s.machine taskStackPages
    if kstack.2 = 0 then ({ s with machine := kstack.1 }, -1)
    else
      let l0 := mmuCreateUserTables src kstack.1
      if l0.2 = 0 then ({ s with machine := freePages src l0.1 kstack.2 taskStackPages }, -1)
      else
        let entryPa := virtToPhys entry
        if entryPa < textStartPa img ∨ entryPa ≥ userTextEndPa img then
          let m := freePages src l0.1 l0.2 1
          ({ s with machine := freePages src m kstack.2 taskStackPages }, -1)
        else
          let m := mmuMapUserRange src l0.1 l0.2 userTextBase (textStartPa img) (textPages img)
            textFlags
          let ustack := zeroedPages src m userStackPages
          if ustack.2 = 0 then
            let m := mmuFreeUserTables src ustack.1 l0.2
            ({ s with machine := freePages src m kstack.2 taskStackPages }, -1)
          else
            let m := mmuMapUserRange src ustack.1 l0.2 ustackUserBase ustack.2 userStackPages
              stackFlags
            let frame := kstack.2 + taskStackPages * pageSize - switchFrameSize
            let mem := storeN m.mem frame 8 (userTextBase + (entryPa - textStartPa img))
            let mem := storeN mem (frame + 8) 8 userStackTop
            let mem := storeN mem (frame + 88) 8 img.taskTrampoline
            let asid := schedAsidAlloc s.nextAsid
            let t : Task :=
              { sp := physToVirt frame
                pid := s.nextPid
                state := .ready
                stackPhys := kstack.2
                ttbr0 := ttbrPack l0.2 asid.1
                userSp := userStackTop
                kstackTop := wrap64 (physToVirt kstack.2 + taskStackPages * pageSize)
                ustackPhys := ustack.2
                hasFds := fdsOk
                priority := prioDefault
                basePriority := prioDefault }
            ({ s with
                machine := { m with mem := mem }
                queue := s.queue ++ [t]
                nextPid := wrap64 (s.nextPid + 1)
                nextAsid := asid.2 }, pidResult s.nextPid)

/-- Copy a task, whose trap frame is at the physical address `frame`. -/
def schedFork (s : Sched σ) (kmallocOk fdsOk : Bool) (parent : Task) (frame : Nat) :
    Sched σ × Int :=
  if kmallocOk = false then (s, -1)
  else
    let kstack := zeroedPages src s.machine taskStackPages
    if kstack.2 = 0 then ({ s with machine := kstack.1 }, -1)
    else
      let l0 := mmuCreateUserTables src kstack.1
      if l0.2 = 0 then ({ s with machine := freePages src l0.1 kstack.2 taskStackPages }, -1)
      else
        let m := mmuMapUserRange src l0.1 l0.2 userTextBase (textStartPa img) (textPages img)
          textFlags
        let ustack := allocatePages src m userStackPages
        if ustack.2 = 0 then
          let m := mmuFreeUserTables src ustack.1 l0.2
          ({ s with machine := freePages src m kstack.2 taskStackPages }, -1)
        else
          let copied := memcpy ustack.1.mem ustack.2 ustack.1.mem parent.ustackPhys
            (userStackPages * pageSize)
          let m := mmuMapUserRange src { ustack.1 with mem := copied } l0.2 ustackUserBase ustack.2
            userStackPages stackFlags
          -- The trap frame at the top of the stack, with x0 cleared.
          let childFrame := kstack.2 + taskStackPages * pageSize - trapFrameSize
          let mem := memcpy m.mem childFrame m.mem frame trapFrameSize
          let mem := storeN mem childFrame 8 0
          -- The frame of a context switch below it.
          let switchFrame := childFrame - switchFrameSize
          let mem := storeN mem switchFrame 8 0
          let mem := storeN mem (switchFrame + 8) 8 0
          let mem := storeN mem (switchFrame + 88) 8 img.forkReturn
          let asid := schedAsidAlloc s.nextAsid
          let t : Task :=
            { sp := physToVirt switchFrame
              pid := s.nextPid
              state := .ready
              stackPhys := kstack.2
              ttbr0 := ttbrPack l0.2 asid.1
              userSp := parent.userSp
              kstackTop := wrap64 (physToVirt kstack.2 + taskStackPages * pageSize)
              ustackPhys := ustack.2
              hasFds := fdsOk
              priority := prioDefault
              basePriority := prioDefault }
          ({ s with
              machine := { m with mem := mem }
              queue := s.queue ++ [t]
              nextPid := wrap64 (s.nextPid + 1)
              nextAsid := asid.2 }, pidResult s.nextPid)

/-- A page of stack for a task that faulted at `far`. -/
def tryGrowStack (m : Machine σ) (t : Task) (far : Nat) : Machine σ × Task × Bool :=
  if t.ttbr0 = 0 then (m, t, false)
  else if far < userStackTop - userStackPagesMax * pageSize ∨ far ≥ ustackUserBase then
    (m, t, false)
  else if t.stackGrownPhys.length ≥ userStackGrownMax then (m, t, false)
  else
    let pa := zeroedPages src m 1
    if pa.2 = 0 then (pa.1, t, false)
    else
      (mmuMapUserRange src pa.1 (ttbrBaddr t.ttbr0) (far / pageSize * pageSize) pa.2 1 stackFlags,
        { t with stackGrownPhys := t.stackGrownPhys ++ [pa.2] }, true)

/-- The current task faulted at `far`. -/
def schedTryGrowStack (s : Sched σ) (far : Nat) : Sched σ × Bool :=
  match s.queue with
  | [] => (s, false)
  | t :: rest =>
      let grown := tryGrowStack src s.machine t far
      ({ s with machine := grown.1, queue := grown.2.1 :: rest }, grown.2.2)

/-- Give back what a dead task held. -/
def reapTask (m : Machine σ) (dead : Task) : Machine σ :=
  let m := if dead.stackPhys ≠ 0 then freePages src m dead.stackPhys taskStackPages else m
  let m := if dead.ustackPhys ≠ 0 then freePages src m dead.ustackPhys userStackPages else m
  let m := freeRegions src m dead.execImage.regions
  let m := dead.stackGrownPhys.foldl
    (fun m a => if a ≠ 0 then freePages src m a 1 else m) m
  if dead.ttbr0 ≠ 0 then mmuFreeUserTables src m (ttbrBaddr dead.ttbr0) else m

/-- Reap every dead task. -/
def schedReap (s : Sched σ) : Sched σ :=
  { s with machine := s.deadList.foldl (reapTask src) s.machine, deadList := [] }

/-- A task of priority `pri` goes before the best so far. -/
def better (best : Option (Nat × Nat)) (pri : Nat) : Bool :=
  match best with
  | none => true
  | some (_, bestPri) => decide (pri > bestPri)

/-- The first of the runnable tasks of highest priority, by its place from `i`
    on; `best` is the place and the priority of the best so far. The last task of
    the ring is the one that runs now. -/
def pickNext : List Task → Nat → Option (Nat × Nat) → Option (Nat × Nat)
  | [], _, best => best
  | t :: ts, i, best =>
      let runnable := decide (t.state = .ready) || (ts.isEmpty && decide (t.state = .running))
      pickNext ts (i + 1)
        (if runnable && better best t.priority then some (i, t.priority) else best)

/-- The ring from place `i` on. -/
def rotateTo (ring : List Task) (i : Nat) : List Task := ring.drop i ++ ring.take i

/-- The place of the task to run next; the idle task if none is runnable. -/
def nextPlace (ring : List Task) : Nat :=
  match pickNext ring 0 none with
  | some (i, _) => i
  | none => ring.findIdx (·.isIdle)

/-- The ring and the list of dead tasks when the current task is switched away
    from. A dead task leaves the ring here; its pages are in use until the
    switch. -/
def switchFrom (prev : Task) (rest deadList : List Task) (sp : Nat) : List Task × List Task :=
  if prev.state = .dead then (rest, { prev with sp := sp } :: deadList)
  else
    let state := if prev.state = .running then .ready else prev.state
    (rest ++ [{ prev with sp := sp, state := state }], deadList)

/-- Switch from the current task, whose stack pointer is `sp`, to the one to run
    next. -/
def schedule (s : Sched σ) (sp : Nat) : Sched σ :=
  let s := schedReap src s
  match s.queue with
  | [] => s
  | prev :: rest =>
      let next := nextPlace (rest ++ [prev])
      if next = rest.length then { s with queue := { prev with state := .running } :: rest }
      else
        let left := switchFrom prev rest s.deadList sp
        match rotateTo left.1 next with
        | [] => s
        | t :: others =>
            { s with
              queue := { t with state := .running } :: others
              deadList := left.2
              ttbr0El1 := if t.ttbr0 = 0 then s.ttbr0El1 else t.ttbr0 }

/-- The state of the current task. -/
def setCurrentState (s : Sched σ) (state : TaskState) : Sched σ :=
  match s.queue with
  | [] => s
  | t :: rest => { s with queue := { t with state := state } :: rest }

def schedBlockCurrent (s : Sched σ) (sp : Nat) : Sched σ :=
  schedule src (setCurrentState s .blocked) sp

/-- End the current task. -/
def taskExit (s : Sched σ) (sp : Nat) : Sched σ :=
  schedule src (setCurrentState s .dead) sp

/-- Sleep for `ms` milliseconds from tick `now` on. -/
def sleepMs (s : Sched σ) (now ms sp : Nat) : Sched σ :=
  let ticks := if ms / timerIntervalMs = 0 then 1 else ms / timerIntervalMs
  match s.queue with
  | [] => s
  | t :: rest =>
      schedule src
        { s with
          queue := { t with sleepUntil := wrap64 (now + ticks), state := .sleeping } :: rest } sp

/-- Wake the tasks whose time has come. The idle task is not looked at. -/
def schedWakeSleepers (s : Sched σ) (now : Nat) : Sched σ :=
  { s with
    queue := s.queue.map fun t =>
      if t.isIdle = false ∧ t.state = .sleeping ∧ t.rtPeriodCyc = 0 ∧ now ≥ t.sleepUntil then
        { t with state := .ready, sleepUntil := 0 }
      else t }

/-- The ring from the idle task on, where searches start. -/
def fromIdle (queue : List Task) : List Task :=
  queue.dropWhile (fun t => !t.isIdle) ++ queue.takeWhile (fun t => !t.isIdle)

def schedFindTask (s : Sched σ) (pid : Nat) : Option Task :=
  (fromIdle s.queue).find? (·.pid = pid)

/-- Kill a task. The current task ends by exiting; any other one leaves the ring
    and waits to be reaped. -/
def schedKillTask (s : Sched σ) (pid sp : Nat) : Sched σ × Int :=
  if pid = 0 then (s, -1)
  else
    match schedFindTask s pid with
    | none => (s, -1)
    | some t =>
        if t.state = .dead then (s, -1)
        else if s.queue.head? = some t then (taskExit src s sp, 0)
        else
          ({ s with
              queue := s.queue.erase t
              deadList := { t with state := .dead } :: s.deadList }, 0)

/-- Set the state or the priority of the task at place `i` of the ring. -/
def schedMakeReady (s : Sched σ) (i : Nat) : Sched σ :=
  { s with
    queue := s.queue.modify i fun t => if t.state ≠ .dead then { t with state := .ready } else t }

def schedSetPriority (s : Sched σ) (i prio : Nat) : Sched σ :=
  { s with queue := s.queue.modify i fun t => { t with priority := prio } }

/-- The scheduler at boot. -/
def schedInit (m : Machine σ) : Sched σ :=
  { machine := m
    queue := [{ isIdle := true, pid := 0, state := .ready }]
    deadList := []
    nextPid := 1
    nextAsid := 1
    ttbr0El1 := 0 }

end Sched

end CortexForge
