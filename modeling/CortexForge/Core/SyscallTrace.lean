import CortexForge.Core.Devices
import CortexForge.Core.Exec

/-!
# System Calls with Their Accesses

The dispatcher of `Core.Syscall` over the file layer, with every access the kernel
makes through a pointer of the caller: its buffers, its strings, the array of
arguments and the signal frame.

The calls that are given such a pointer are written out here, check by check and
load by load. All other calls are those of `Core.Syscall`, whose services get values
only; `services` puts the two together.

A file that is to be executed is read into a buffer of the kernel, which is a memory
of its own here. That uses the same operations as a read of the caller, but no
pointer of the caller, and its accesses are left out.

## Main definitions

* `userStrOkTraced`, `captureArgsTraced`: The checks of strings.
* `loadImageTraced`, `sysExecTraced`: Replacing the image of the caller.
* `ImageServices`: What builds the new image.
* `services`: The services of the dispatcher.
* `plainCallTraced`, `syscallDispatchTraced`: The dispatcher.
-/

namespace CortexForge.Vfs

open Traced Syscall Signal

/-- What `sys_exec` does with the file: build a new address space for it, and switch
    to that. Neither is given a pointer of the caller. -/
structure ImageServices (R : Type) where
  Image : Type
  prepare : R → FileBytes → R × Option Image
  commit : FileWorld R → Image → List (List Byte) → Option (FileWorld R × BitVec 64)

variable {R : Type} (hw : Hardware R) (svc : Services (Files R)) (images : ImageServices R)

section

variable (mem : Memory)

/-- The loop over at most `n` more bytes of a string, from number `i` on. -/
def userStrLoop (ptr : Nat) : Nat → Nat → Logged (Option Nat)
  | 0, _ => pure none
  | n + 1, i => do
      let b ← loadByte mem (ptr + i)
      if b = 0 then pure (some i) else userStrLoop ptr n (i + 1)

def userStrOkTraced (ptr : BitVec 64) : Logged (Option Nat) :=
  if ptr.toNat ≥ userStackTop then pure none
  else userStrLoop mem ptr.toNat (min (userStackTop - ptr.toNat) userPathMax) 0

/-- Load a word of 64 bits. -/
def loadU64Traced (addr : BitVec 64) : Logged (BitVec 64) := do
  access (.load addr.toNat 8)
  pure (loadU64 mem addr)

def captureArgsTraced (argv : BitVec 64) :
    Nat → Nat → Nat → Logged (Option (List (List Byte)))
  | 0, _, _ => pure (some [])
  | n + 1, argc, bytes =>
      let slot := argv + BitVec.ofNat 64 (argc * 8)
      if userBufOk slot 8 = false then pure none
      else do
        let p ← loadU64Traced mem slot
        if p = 0 then pure (some [])
        else do
          match ← userStrOkTraced mem p with
          | none => pure none
          | some len =>
              if bytes + len + 1 > execArgBytesMax then pure none
              else do
                -- The terminator is copied as well.
                access (.load p.toNat (len + 1))
                let rest ← captureArgsTraced argv n (argc + 1) (bytes + len + 1)
                pure (rest.map fun rest =>
                  (List.range len).map (fun i => mem (p.toNat + i)) :: rest)

/-- The arguments of `exec`; without an array there are none. -/
def execArgsTraced (argv : BitVec 64) : Logged (Option (List (List Byte))) :=
  if argv = 0 then pure (some []) else captureArgsTraced mem argv execMaxArgc 0 0

end

section

/-- Read an open file into a kernel buffer and close it; `none` if that fails. -/
def slurp (fd : BitVec 32) (w : FileWorld R) : FileWorld R × Option FileBytes :=
  let (k, size) := fdSeek w.kernel fd 0 2
  let (k, _) := fdSeek k fd 0 0
  let w := { w with kernel := k }
  let close (w : FileWorld R) : FileWorld R := { w with kernel := (fdClose hw w.kernel fd).1 }
  if size.toInt ≤ 0 ∨ size.toNat > Sched.execMaxBytes then (close w, none)
  else
    match hw.kmalloc w.kernel.rest size.toNat with
    | (rest, none) => (close (withRest w rest), none)
    | (rest, some kbuf) =>
        let (r, got) := value (fdRead hw fd kbuf size.toNat
          { withRest w rest with mem := fun _ => 0#8 })
        let w := close { w with kernel := r.kernel, task := r.task }
        let w := withRest w (hw.kfree w.kernel.rest kbuf)
        if got.toInt ≠ size.toInt then (w, none)
        else (w, some { bytes := fun i => r.mem (kbuf + i), size := size.toNat })

/-- The message about the new image prints the path once more. -/
def printPath (w : FileWorld R) (path : BitVec 64) : Logged (Option Unit) := do
  let stop ← scan w.mem (· != 0) pathFuel path.toNat
  pure (stop.map fun _ => ())

/-- Load the image at a path and switch to it; the value is its entry point, or the
    call failed. -/
def loadImageTraced (path : BitVec 64) (args : List (List Byte)) (w : FileWorld R) :
    Logged (Option (FileWorld R × Option (BitVec 64))) := do
  match ← fdOpen hw w.mem w.kernel path.toNat with
  | none => pure none
  | some (k, fd) =>
      let w := { w with kernel := k }
      if fd < 0 then pure (some (w, none))
      else
        match slurp hw (BitVec.ofInt 32 fd) w with
        | (w, none) => pure (some (w, none))
        | (w, some file) =>
            match images.prepare w.kernel.rest file with
            | (rest, none) => pure (some (withRest w rest, none))
            | (rest, some image) => do
                match ← printPath w path with
                | none => pure none
                | some () =>
                    pure ((images.commit (withRest w rest) image args).map fun r =>
                      (r.1, some r.2))

def sysExecTraced (path argv : BitVec 64) (frame : TrapFrame) (w : FileWorld R) :
    Logged (Option (FileWorld R × Option TrapFrame)) := do
  let len ← userStrOkTraced w.mem path
  if len = none then pure (some (w, none))
  else if w.hasFds = false then pure (some (w, none))
  else do
    match ← execArgsTraced w.mem argv with
    | none => pure (some (w, none))
    | some args => do
        let r ← loadImageTraced hw images path args w
        pure (r.map fun r => (r.1, r.2.map fun entry => execFrame frame entry args))

end

section

/-- The offsets of the fields that are read back from a signal frame. -/
def sigframeLoads : List Nat := (List.range 31).map (8 * ·) ++ [256, 264, 248]

def signalSigreturnTraced (mem : Memory) (frame : TrapFrame) : Logged (Option TrapFrame) :=
  if sigreturnOk frame.spEl0 = false then pure none
  else do
    accesses (sigframeLoads.map fun off => .load (frame.spEl0.toNat + off) 8)
    pure (signalSigreturn mem frame)

def reportMaskTraced (t : SigTask) (mem : Memory) (oldmask : BitVec 32) (oldsetPtr : BitVec 64) :
    Logged (SigTask × Memory × BitVec 64) :=
  if oldsetPtr = 0 then pure (t, mem, 0)
  else if u32PtrOk oldsetPtr = false then pure (t, mem, -1)
  else do
    access (.store oldsetPtr.toNat 4)
    pure (t, storeN mem oldsetPtr.toNat 4 oldmask.toNat, 0)

def signalSigprocmaskTraced (t : SigTask) (mem : Memory) (how : Int)
    (setPtr oldsetPtr : BitVec 64) : Logged (SigTask × Memory × BitVec 64) :=
  if setPtr = 0 then reportMaskTraced t mem t.sigBlocked oldsetPtr
  else if u32PtrOk setPtr = false then pure (t, mem, -1)
  else do
    access (.load setPtr.toNat 4)
    match newMask t.sigBlocked (BitVec.ofNat 32 (loadN mem setPtr.toNat 4)) how with
    | none => pure (t, mem, -1)
    | some blocked =>
        reportMaskTraced { t with sigBlocked := blocked &&& ~~~(1#32 <<< sigKill) } mem
          t.sigBlocked oldsetPtr

end

section

/-- A result of the file layer as the value of a system call. -/
def returned (r : FileResult R) : Option (FileWorld R × BitVec 64) := some (r.1, r.2.signExtend 64)

/-- The node behind a path, as a system call. -/
def openCall (path : BitVec 64) (w : FileWorld R) :
    Logged (Option (FileWorld R × BitVec 64)) := do
  let r ← fdOpen hw w.mem w.kernel path.toNat
  pure (r.map fun (k, fd) => ({ w with kernel := k }, BitVec.ofInt 64 fd))

/-- The services of the dispatcher: the file layer, and the given ones for all calls
    without pointers. -/
def services : Services (Files R) :=
  { svc with
    fdRead := fun fd buf count w => value (returned <$> fdRead hw fd buf.toNat count.toNat w)
    fdWrite := fun fd buf count w => value (returned <$> fdWrite hw fd buf.toNat count.toNat w)
    fdOpen := fun path w => value (openCall hw path w)
    fdClose := fun fd w =>
      let r := fdClose hw w.kernel fd
      some ({ w with kernel := r.1 }, BitVec.ofInt 64 r.2)
    fdSeek := fun fd offset whence w =>
      let r := fdSeek w.kernel fd offset whence
      some ({ w with kernel := r.1 }, r.2)
    fdIoctl := fun fd cmd arg w => value (returned <$> fdIoctl fd cmd arg w)
    loadImage := fun path args w => value (loadImageTraced hw images path args w) }

/-- The calls that return a value in `x0`. -/
def plainCallTraced (num arg0 arg1 arg2 : BitVec 64) (w : FileWorld R) :
    Logged (Option (FileWorld R × BitVec 64)) :=
  let fd := arg0.setWidth 32
  match num.toNat with
  | 0 =>
      if w.hasFds && userBufOk arg1 arg2 then returned <$> fdRead hw fd arg1.toNat arg2.toNat w
      else pure (refused w)
  | 1 =>
      if w.hasFds && userBufOk arg1 arg2 then returned <$> fdWrite hw fd arg1.toNat arg2.toNat w
      else pure (refused w)
  | 2 =>
      if w.hasFds then do
        let len ← userStrOkTraced w.mem arg0
        if len.isSome then openCall hw arg0 w else pure (refused w)
      else pure (refused w)
  | 18 => do
      let r ← signalSigprocmaskTraced w.task w.mem (arg0.setWidth 32).toInt arg1 arg2
      pure (some ({ w with task := r.1, mem := r.2.1 }, r.2.2))
  | 20 => if w.hasFds then returned <$> fdIoctl fd arg1 arg2 w else pure (refused w)
  -- No other call is given a pointer of the caller.
  | _ => pure (plainCall (services hw svc images) num arg0 arg1 arg2 w)

def syscallDispatchTraced (w : FileWorld R) (frame : TrapFrame) :
    Logged (Option (FileWorld R × TrapFrame)) :=
  let num := frame.regs 8
  let arg0 := frame.regs 0
  let arg1 := frame.regs 1
  if num = sysExecNum then do
    let r ← sysExecTraced hw images arg0 arg1 frame w
    pure (r.map fun r => (r.1, r.2.getD (setX0 frame (-1))))
  else if num = sysSigreturnNum then do
    let f ← signalSigreturnTraced w.mem frame
    pure (f.map fun f => (w, f))
  else if num = sysExitNum ∨ num = sysForkNum then
    pure (syscallDispatch (services hw svc images) w frame)
  else do
    let r ← plainCallTraced hw svc images num arg0 arg1 (frame.regs 2) w
    pure (r.map fun r => (r.1, setX0 frame r.2))

end

end CortexForge.Vfs
