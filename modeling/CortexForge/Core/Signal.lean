import CortexForge.Core.Memory
import CortexForge.Lib.ByteMem

/-!
# Signals

Signal delivery and return, from `syscall/signal.c`. A signal is delivered on
the way back to EL0: the kernel stores the interrupted context in a frame on the
user stack and points the trap frame at the handler. The handler returns through
a trampoline into `sigreturn`, which loads the context back from wherever the
stack pointer then is.

Stores through a user pointer are kept as a list of addresses and values, in the
order the source makes them, and applied to memory by `applyStores`; what is
written where can then be asked of the list. The C code reaches user memory
through the task's own mapping, and an access that faults panics the kernel, so
the memory here is the part of the address space the call can touch and return.

## Main definitions

* `TrapFrame`: The saved registers of an exception.
* `SigTask`: The signal state of a task.
* `signalCheckAndDeliver`: Delivering at most one signal.
* `signalSigreturn`: Restoring the interrupted context.
* `signalSigaction`, `signalSigprocmask`, `signalAlarm`: The system calls.
* `signalTickAlarms`: The alarms at a timer tick.
-/

namespace CortexForge.Signal

def sigKill : Nat := 9

def sigAlrm : Nat := 14

def sigMin : Nat := 1

def sigMax : Nat := 31

/-- The default action, to terminate the task. -/
def sigDfl : BitVec 64 := 0

/-- The signal is ignored. -/
def sigIgn : BitVec 64 := 1

def sigBlock : Int := 0

def sigUnblock : Int := 1

def sigSetmask : Int := 2

/-- The size of a signal frame. -/
def sigframeSize : Nat := 280

/-- The space a delivery takes on the stack, a multiple of 16. -/
def sigframeReserve : BitVec 64 := 288

/-- The integer registers `x0` to `x30` and the system registers of an exception,
    as the vector code saves them. -/
structure TrapFrame where
  regs : Nat → BitVec 64
  elr : BitVec 64
  spsr : BitVec 64
  esr : BitVec 64
  far : BitVec 64
  spEl0 : BitVec 64

/-- The fields of a task that signals use. -/
structure SigTask where
  sigHandlers : Nat → BitVec 64
  sigPending : BitVec 32
  sigBlocked : BitVec 32
  sigAlarmTicks : BitVec 64
  stackGrownCount : Nat

/-- The exception level and stack selection a saved state returns to. -/
def modeBits (spsr : BitVec 64) : BitVec 64 := spsr &&& 0xF

/-- What a delivery came to: nothing, the end of the task, or a trap frame that
    enters a handler together with the stores of the signal frame. -/
inductive Delivery where
  | nothing
  | terminated (sig : Nat)
  | handler (frame : TrapFrame) (stores : List (BitVec 64 × BitVec 64))

/-- Make 64-bit stores in order. -/
def applyStores (mem : Memory) (stores : List (BitVec 64 × BitVec 64)) : Memory :=
  stores.foldl (fun m s => storeN m s.1.toNat 8 s.2.toNat) mem

/-- The fields of a signal frame at `sp` for the interrupted `frame`. -/
def sigframeStores (sp : BitVec 64) (frame : TrapFrame) : List (BitVec 64 × BitVec 64) :=
  (List.range 31).map (fun i => (sp + BitVec.ofNat 64 (8 * i), frame.regs i)) ++
    [(sp + 248, frame.spEl0), (sp + 256, frame.elr), (sp + 264, frame.spsr),
      (sp + 272, BitVec.ofNat 64 userSigtrampVa)]

/-- The lowest address of the mapped user stack. -/
def stackLo (t : SigTask) : Nat :=
  sub64 userStackTop ((userStackPages + t.stackGrownCount) * pageSize)

/-- Build the signal frame and point the trap frame at the handler. A stack
    without room for it ends the task. -/
def deliverOne (t : SigTask) (frame : TrapFrame) (sig : Nat) (handler : BitVec 64) : Delivery :=
  let oldSp := frame.spEl0
  let newSp := (oldSp - sigframeReserve) &&& ~~~15#64
  if newSp.toNat < stackLo t ∨ oldSp.toNat > userStackTop then .terminated sig
  else
    .handler
      { frame with
        elr := handler
        regs := fun i =>
          if i = 30 then BitVec.ofNat 64 userSigtrampVa
          else if i = 0 then BitVec.ofNat 64 sig
          else frame.regs i
        spEl0 := newSp }
      (sigframeStores newSp frame)

/-- The lowest signal of a mask, or 0. -/
def lowestSignal (pending : BitVec 32) : Nat :=
  ((List.range' sigMin sigMax).find? (fun n => pending.getLsbD n)).getD 0

/-- What the pending signals ask for. -/
inductive Verdict where
  | idle
  | kill (sig : Nat)
  | run (sig : Nat) (handler : BitVec 64)
deriving DecidableEq, Repr

/-- The selection loop of `signal_check_and_deliver`. Each turn takes one signal
    off the pending mask, so it ends within `sigMax + 1` turns. -/
def selectSignal : Nat → SigTask → SigTask × Verdict
  | 0, t => (t, .idle)
  | fuel + 1, t =>
      let pending := t.sigPending &&& ~~~t.sigBlocked
      if pending = 0 then (t, .idle)
      else
        let sig := lowestSignal pending
        if sig = 0 then (t, .idle)
        else
          let t' := { t with sigPending := t.sigPending &&& ~~~(1#32 <<< sig) }
          if sig = sigKill then (t', .kill sig)
          else if t.sigHandlers sig = sigIgn then selectSignal fuel t'
          else if t.sigHandlers sig = sigDfl then (t', .kill sig)
          else (t', .run sig (t.sigHandlers sig))

/-- Deliver at most one signal, and only on the way back to EL0. -/
def signalCheckAndDeliver (t : SigTask) (frame : TrapFrame) : SigTask × Delivery :=
  if modeBits frame.spsr ≠ 0 then (t, .nothing)
  else
    let s := selectSignal (sigMax + 1) t
    match s.2 with
    | .idle => (s.1, .nothing)
    | .kill sig => (s.1, .terminated sig)
    | .run sig handler => (s.1, deliverOne s.1 frame sig handler)

/-- The 64-bit word at a user address. -/
def loadU64 (mem : Memory) (addr : BitVec 64) : BitVec 64 :=
  BitVec.ofNat 64 (loadN mem addr.toNat 8)

/-- The signal frame at the stack pointer lies in the user address range. -/
def sigreturnOk (sp : BitVec 64) : Bool :=
  decide (sp.toNat < userStackTop ∧ sp.toNat + sigframeSize ≤ userStackTop)

/-- Restore the context from the signal frame at the stack pointer; `none` ends
    the task. -/
def signalSigreturn (mem : Memory) (frame : TrapFrame) : Option TrapFrame :=
  let sp := frame.spEl0
  if sigreturnOk sp = false then none
  else
    some { frame with
      regs := fun i =>
        if i < 31 then loadU64 mem (sp + BitVec.ofNat 64 (8 * i)) else frame.regs i
      elr := loadU64 mem (sp + 256)
      spsr := loadU64 mem (sp + 264)
      spEl0 := loadU64 mem (sp + 248) }

/-- Install a handler; `SIGKILL` cannot be caught. -/
def signalSigaction (t : SigTask) (signum : Int) (handler : BitVec 64) : SigTask × BitVec 64 :=
  if signum < sigMin ∨ signum > sigMax ∨ signum = sigKill then (t, -1)
  else ({ t with sigHandlers := Function.update t.sigHandlers signum.toNat handler }, 0)

/-- A pointer to four bytes of the user address range. -/
def u32PtrOk (ptr : BitVec 64) : Bool :=
  decide (ptr ≠ 0 ∧ ¬ ((ptr + 4).toNat > userStackTop ∨ (ptr + 4).toNat < ptr.toNat))

/-- The mask `how` asks for, or `none` for an unknown request. -/
def newMask (oldmask set : BitVec 32) (how : Int) : Option (BitVec 32) :=
  if how = sigBlock then some (oldmask ||| set)
  else if how = sigUnblock then some (oldmask &&& ~~~set)
  else if how = sigSetmask then some set
  else none

/-- Report the old mask through `oldsetPtr`, if one is given. -/
def reportMask (t : SigTask) (mem : Memory) (oldmask : BitVec 32) (oldsetPtr : BitVec 64) :
    SigTask × Memory × BitVec 64 :=
  if oldsetPtr = 0 then (t, mem, 0)
  else if u32PtrOk oldsetPtr = false then (t, mem, -1)
  else (t, storeN mem oldsetPtr.toNat 4 oldmask.toNat, 0)

/-- Change the mask of blocked signals. A bad `oldsetPtr` is noticed only after
    the new mask is in force. -/
def signalSigprocmask (t : SigTask) (mem : Memory) (how : Int) (setPtr oldsetPtr : BitVec 64) :
    SigTask × Memory × BitVec 64 :=
  if setPtr = 0 then reportMask t mem t.sigBlocked oldsetPtr
  else if u32PtrOk setPtr = false then (t, mem, -1)
  else
    match newMask t.sigBlocked (BitVec.ofNat 32 (loadN mem setPtr.toNat 4)) how with
    | none => (t, mem, -1)
    | some blocked =>
        reportMask { t with sigBlocked := blocked &&& ~~~(1#32 <<< sigKill) } mem t.sigBlocked
          oldsetPtr

/-- Timer interrupts in a second. -/
def ticksPerSec : BitVec 64 := 100

/-- Arm the alarm; the result is what was left of the previous one, in
    seconds. -/
def signalAlarm (t : SigTask) (seconds : BitVec 64) : SigTask × BitVec 64 :=
  ({ t with sigAlarmTicks := seconds * ticksPerSec },
    (t.sigAlarmTicks + ticksPerSec - 1) / ticksPerSec)

/-- Count down the alarm of one task. -/
def tickAlarm (t : SigTask) : SigTask :=
  if t.sigAlarmTicks > 0 then
    let t := { t with sigAlarmTicks := t.sigAlarmTicks - 1 }
    if t.sigAlarmTicks = 0 then { t with sigPending := t.sigPending ||| 1#32 <<< sigAlrm } else t
  else t

/-- Count down the alarms of the tasks on the run queue, at every timer tick. -/
def signalTickAlarms (tasks : Nat → SigTask) (queue : List Nat) : Nat → SigTask :=
  queue.foldl (fun tasks t => fun u => if u = t then tickAlarm (tasks t) else tasks u) tasks

end CortexForge.Signal
