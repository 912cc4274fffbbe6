import CortexForge.Core.Signal

/-!
# System Calls and Exceptions

The way from an exception taken at EL0 back to it: `exception_dispatch`
(`exception/exception.c`), `syscall_dispatch` and the trap-frame side of
`sys_exec` (`syscall/syscall.c`), and the signal delivery at the end.

The dispatcher is modelled branch by branch, with its own checks of the caller's
pointers. What it calls (the file layer, the scheduler, the drivers) stands
behind `Services`, one function for each call, over a kernel state of any type.
A service may change the whole `World`: the kernel state, the caller's memory
and the caller's signal state, since other tasks run while it blocks. What it
cannot change is the trap frame, which the C functions are never given;
`sched_fork` is given it to copy and takes it as an argument. A service that
does not come back to this task returns `none`.

## Main definitions

* `World`: The caller's memory and signal state, and the rest of the kernel.
* `Services`: What the dispatcher calls.
* `sysExec`: Replacing the image of the caller.
* `syscallDispatch`: The system call dispatcher.
* `exceptionDispatch`: The exception dispatcher.
-/

namespace CortexForge.Syscall

open Signal

/-- What a call can see and change besides the trap frame. `hasFds` says that the
    caller has a descriptor table. -/
structure World (K : Type) where
  task : SigTask
  mem : Memory
  hasFds : Bool
  kernel : K

/-- A call that comes back with a value, or not at all. -/
abbrev Service (K : Type) := World K → Option (World K × BitVec 64)

/-- The functions behind the dispatcher, in the order of their numbers. -/
structure Services (K : Type) where
  fdRead : BitVec 32 → BitVec 64 → BitVec 64 → Service K
  fdWrite : BitVec 32 → BitVec 64 → BitVec 64 → Service K
  fdOpen : BitVec 64 → Service K
  fdClose : BitVec 32 → Service K
  schedule : World K → Option (World K)
  sleepMs : BitVec 64 → World K → Option (World K)
  getPid : World K → BitVec 64
  fdSeek : BitVec 32 → BitVec 64 → BitVec 32 → Service K
  uptimeMs : World K → BitVec 64
  netPing : BitVec 16 → Service K
  schedKillTask : BitVec 64 → Service K
  /-- Whether a task with this number is alive, and whether it is the caller. -/
  schedFindTask : BitVec 64 → World K → Option Bool
  /-- Mark a signal pending for another task. -/
  markPending : BitVec 64 → Nat → World K → World K
  schedFork : TrapFrame → Service K
  /-- Load the image at a path with these arguments and switch to it; the value
      is its entry point, or the call failed. -/
  loadImage : BitVec 64 → List (List Byte) → World K → Option (World K × Option (BitVec 64))
  balloonInflate : BitVec 32 → Service K
  balloonDeflate : BitVec 32 → Service K
  balloonActual : World K → BitVec 32
  balloonTarget : World K → BitVec 32
  benchRun : World K → Option (World K)
  blkTest : BitVec 64 → World K → Option (World K)
  fdIoctl : BitVec 32 → BitVec 64 → BitVec 64 → Service K
  rtDemoStart : World K → Option (World K)
  rtPrintStats : World K → Option (World K)
  rtPiDemoStart : World K → Option (World K)
  schedTryGrowStack : BitVec 64 → World K → World K × Bool
  handleIrq : World K → Option (World K)

def userPathMax : Nat := 4096

def execMaxArgc : Nat := 32

def execArgBytesMax : Nat := 1024

/-- The buffer lies in the user address range; an empty one always does. -/
def userBufOk (ptr len : BitVec 64) : Bool :=
  decide (len = 0 ∨ ¬ ((ptr + len).toNat < ptr.toNat) ∧ ¬ ((ptr + len).toNat > userStackTop))

/-- The length of a string in the user address range, or `none`. -/
def userStrOk (mem : Memory) (ptr : BitVec 64) : Option Nat :=
  if ptr.toNat ≥ userStackTop then none
  else
    (List.range (min (userStackTop - ptr.toNat) userPathMax)).find?
      (fun i => mem (ptr.toNat + i) = 0)

/-- The argument strings from slot `argc` on, with `bytes` bytes taken already;
    `none` when one of them is refused. -/
def captureArgs (mem : Memory) (argv : BitVec 64) : Nat → Nat → Nat → Option (List (List Byte))
  | 0, _, _ => some []
  | n + 1, argc, bytes =>
      let slot := argv + BitVec.ofNat 64 (argc * 8)
      if userBufOk slot 8 = false then none
      else
        let p := loadU64 mem slot
        if p = 0 then some []
        else
          match userStrOk mem p with
          | none => none
          | some len =>
              if bytes + len + 1 > execArgBytesMax then none
              else
                (captureArgs mem argv n (argc + 1) (bytes + len + 1)).map
                  (fun rest => (List.range len).map (fun i => mem (p.toNat + i)) :: rest)

/-- The bytes the argument strings take, terminators included. -/
def argBytes (args : List (List Byte)) : Nat := (args.map (fun s => s.length + 1)).sum

/-- The trap frame of a new image: clear registers, the entry point and a state
    of EL0, with the arguments below the top of the stack. -/
def execFrame (frame : TrapFrame) (entry : BitVec 64) (args : List (List Byte)) : TrapFrame :=
  let top := BitVec.ofNat 64 userStackTop
  let argvBase :=
    ((top - BitVec.ofNat 64 (argBytes args)) &&& ~~~15#64)
      - BitVec.ofNat 64 ((args.length + 1) * 8)
  { frame with
    elr := entry
    spsr := 0
    regs := fun i =>
      if i < 31 then
        if args.length > 0 ∧ i = 0 then BitVec.ofNat 64 args.length
        else if args.length > 0 ∧ i = 1 then argvBase
        else 0
      else frame.regs i
    spEl0 := if args.length > 0 then argvBase &&& ~~~15#64 else top }

/-- Replace the caller's image; the frame is `none` when the call failed. -/
def sysExec {K : Type} (svc : Services K) (path argv : BitVec 64) (frame : TrapFrame)
    (w : World K) : Option (World K × Option TrapFrame) :=
  if userStrOk w.mem path = none then some (w, none)
  else if w.hasFds = false then some (w, none)
  else
    match (if argv = 0 then some [] else captureArgs w.mem argv execMaxArgc 0 0) with
    | none => some (w, none)
    | some args =>
        (svc.loadImage path args w).map (fun r =>
          (r.1, r.2.map (fun entry => execFrame frame entry args)))

/-- Signal another task, or ask whether it exists. -/
def sysKill {K : Type} (svc : Services K) (pid : BitVec 64) (signum : Int) : Service K := fun w =>
  if signum = sigKill then svc.schedKillTask pid w
  else
    match svc.schedFindTask pid w with
    | none => some (w, -1)
    | some self =>
        if signum = 0 then some (w, 0)
        else if signum ≥ sigMin ∧ signum ≤ sigMax then
          if self then
            some ({ w with task := { w.task with
              sigPending := w.task.sigPending ||| (1#32 <<< signum.toNat) } }, 0)
          else some (svc.markPending pid signum.toNat w, 0)
        else some (w, -1)

def sysBalloon {K : Type} (svc : Services K) (op n : BitVec 64) : Service K := fun w =>
  if op = 0 then svc.balloonInflate (n.setWidth 32) w
  else if op = 1 then svc.balloonDeflate (n.setWidth 32) w
  else if op = 2 then some (w, (svc.balloonActual w).setWidth 64)
  else if op = 3 then some (w, (svc.balloonTarget w).setWidth 64)
  else some (w, -1)

def sysRt {K : Type} (svc : Services K) (op : BitVec 64) : Service K := fun w =>
  if op = 0 then (svc.rtDemoStart w).map (fun w' => (w', 0))
  else if op = 1 then (svc.rtPrintStats w).map (fun w' => (w', 0))
  else if op = 2 then (svc.rtPiDemoStart w).map (fun w' => (w', 0))
  else some (w, -1)

/-- A call refused before it was made. -/
def refused {K : Type} : Service K := fun w => some (w, -1)

/-- The system calls that return a value in `x0`: every one but `exec`,
    `sigreturn` and `exit`. -/
def plainCall {K : Type} (svc : Services K) (num arg0 arg1 arg2 : BitVec 64) : Service K := fun w =>
  let fd := arg0.setWidth 32
  match num.toNat with
  | 0 => if w.hasFds && userBufOk arg1 arg2 then svc.fdRead fd arg1 arg2 w else refused w
  | 1 => if w.hasFds && userBufOk arg1 arg2 then svc.fdWrite fd arg1 arg2 w else refused w
  | 2 => if w.hasFds && (userStrOk w.mem arg0).isSome then svc.fdOpen arg0 w else refused w
  | 3 => if w.hasFds then svc.fdClose fd w else refused w
  | 5 => (svc.schedule w).map (fun w' => (w', 0))
  | 6 => (svc.sleepMs arg0 w).map (fun w' => (w', 0))
  | 7 => some (w, svc.getPid w)
  | 8 => if w.hasFds then svc.fdSeek fd arg1 (arg2.setWidth 32) w else refused w
  | 9 => some (w, svc.uptimeMs w)
  | 10 => svc.netPing (arg0.setWidth 16) w
  | 11 => sysKill svc arg0 (arg1.setWidth 32).toInt w
  | 14 => sysBalloon svc arg0 arg1 w
  | 15 => (svc.benchRun w).map (fun w' => (w', 0))
  | 16 =>
      let r := signalSigaction w.task (arg0.setWidth 32).toInt arg1
      some ({ w with task := r.1 }, r.2)
  | 18 =>
      let r := signalSigprocmask w.task w.mem (arg0.setWidth 32).toInt arg1 arg2
      some ({ w with task := r.1, mem := r.2.1 }, r.2.2)
  | 19 =>
      let r := signalAlarm w.task arg0
      some ({ w with task := r.1 }, r.2)
  | 20 => if w.hasFds then svc.fdIoctl fd arg1 arg2 w else refused w
  | 21 => sysRt svc arg0 w
  | 22 => (svc.blkTest arg0 w).map (fun w' => (w', 0))
  | _ => refused w

/-- The return value goes into `x0` of the trap frame. -/
def setX0 (frame : TrapFrame) (ret : BitVec 64) : TrapFrame :=
  { frame with regs := Function.update frame.regs 0 ret }

def sysExitNum : BitVec 64 := 4

def sysForkNum : BitVec 64 := 12

def sysExecNum : BitVec 64 := 13

def sysSigreturnNum : BitVec 64 := 17

/-- The dispatcher. `exec` and `sigreturn` rewrite the frame themselves and
    return without the write to `x0`. -/
def syscallDispatch {K : Type} (svc : Services K) (w : World K) (frame : TrapFrame) :
    Option (World K × TrapFrame) :=
  let num := frame.regs 8
  let arg0 := frame.regs 0
  let arg1 := frame.regs 1
  if num = sysExitNum then none
  else if num = sysForkNum then
    (svc.schedFork frame w).map (fun r => (r.1, setX0 frame r.2))
  else if num = sysExecNum then
    (sysExec svc arg0 arg1 frame w).map (fun r => (r.1, r.2.getD (setX0 frame (-1))))
  else if num = sysSigreturnNum then
    (signalSigreturn w.mem frame).map (fun f => (w, f))
  else
    (plainCall svc num arg0 arg1 (frame.regs 2) w).map (fun r => (r.1, setX0 frame r.2))

inductive ExcType where
  | sync
  | irq
  | fiq
  | serror
deriving DecidableEq, Repr

/-- The exception class. -/
def esrEc (esr : BitVec 64) : BitVec 64 := (esr >>> 26) &&& 0x3F

/-- The fault status code of an abort. -/
def esrIssDfsc (esr : BitVec 64) : BitVec 64 := esr &&& 0x3F

def ecSvcAarch64 : BitVec 64 := 0x15

def ecInstAbortLo : BitVec 64 := 0x20

def ecDataAbortLo : BitVec 64 := 0x24

def ecBrk : BitVec 64 := 0x3C

/-- An exception taken from EL0, up to the signal delivery. What is not listed
    panics, and an abort of the lower level ends the task unless the stack could
    be grown. -/
def handleException {K : Type} (svc : Services K) (type : ExcType) (w : World K)
    (frame : TrapFrame) : Option (World K × TrapFrame) :=
  match type with
  | .sync =>
      let ec := esrEc frame.esr
      if ec = ecSvcAarch64 then syscallDispatch svc w frame
      else if ec = ecDataAbortLo then
        let dfsc := esrIssDfsc frame.esr
        if dfsc = 5 ∨ dfsc = 6 ∨ dfsc = 7 then
          let r := svc.schedTryGrowStack frame.far w
          if r.2 then some (r.1, frame) else none
        else none
      else if ec = ecInstAbortLo then none
      else if ec = ecBrk then some (w, { frame with elr := frame.elr + 4 })
      else none
  | .irq => (svc.handleIrq w).map (fun w' => (w', frame))
  | .fiq => none
  | .serror => none

/-- The delivery of at most one signal before the return. -/
def deliverSignals {K : Type} (w : World K) (frame : TrapFrame) : Option (World K × TrapFrame) :=
  let d := signalCheckAndDeliver w.task frame
  match d.2 with
  | .nothing => some ({ w with task := d.1 }, frame)
  | .terminated _ => none
  | .handler frame' stores => some ({ w with task := d.1, mem := applyStores w.mem stores }, frame')

/-- The exception dispatcher; `none` when it does not return. -/
def exceptionDispatch {K : Type} (svc : Services K) (type : ExcType) (w : World K)
    (frame : TrapFrame) : Option (World K × TrapFrame) :=
  (handleException svc type w frame).bind (fun r => deliverSignals r.1 r.2)

end CortexForge.Syscall
