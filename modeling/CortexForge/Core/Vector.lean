import CortexForge.Core.Signal

/-!
# Saving and Restoring Registers

The assembly that moves registers to a kernel stack and back: the vector entry and
`exception_common` of `exception/vector.S`, and the second half of `context_switch`
and `fork_return` of `sched/switch.S`. Programs are lists of instructions in the
order of the source, with its offsets.

An exception pushes a trap frame of 688 bytes: `x0` to `x30`, the system registers,
`SP_EL0`, the vector registers that the C code may change (`q0` to `q7`, `q16` to
`q31`), `FPSR` and `FPCR`. The return pops it.

The only jumps are the ones over a few instructions, so a program is run from left to
right with a count of instructions that are still to be jumped over. Memory is seen at
its virtual addresses, and a stack pointer is far from both ends of them.

## Main definitions

* `Cpu`, `Instr`, `run`: The registers, the instructions and how they are run.
* `vectorEntryLower`, `exceptionSave`: The way in, from EL0.
* `exceptionReturn`: The way out.
* `contextSwitchIn`: Taking up a task that was switched out or is new.
* `forkReturn`: The first return of a forked task.
* `trapLower`: Taking an exception from EL0.
* `FpCaller`, `fpSlot`, `frameSlots`: The vector registers of a trap frame and all its slots.
* `readFrame`, `writeFrame`: The trap frame as the C code sees it.
-/

namespace CortexForge.Vector

open Function

/-- The system registers that are saved or restored. -/
inductive SysReg where
  | elrEl1
  | spsrEl1
  | esrEl1
  | farEl1
  | spEl0
  | fpsr
  | fpcr
deriving DecidableEq, Repr

/-- The registers at EL1, with the memory they are saved to. -/
structure Cpu where
  x : Fin 31 → BitVec 64
  q : Fin 32 → BitVec 128
  sys : SysReg → BitVec 64
  sp : Nat
  mem : Memory
  /-- Instructions still to be jumped over. -/
  skip : Nat

/-- The instructions of the two files. Addresses are offsets from the stack pointer. -/
inductive Instr where
  | subSp (n : Nat)
  | addSp (n : Nat)
  | movImm (d : Fin 31) (v : BitVec 64)
  | andImm (d s : Fin 31) (v : BitVec 64)
  | mrs (d : Fin 31) (r : SysReg)
  | msr (r : SysReg) (s : Fin 31)
  | str (s : Fin 31) (off : Nat)
  | stp (s t : Fin 31) (off : Nat)
  | stpQ (s t : Fin 32) (off : Nat)
  | ldr (d : Fin 31) (off : Nat)
  | ldp (d e : Fin 31) (off : Nat)
  | ldpD (d e : Fin 32) (off : Nat)
  | ldpQ (d e : Fin 32) (off : Nat)
  | cbnz (s : Fin 31) (n : Nat)
deriving DecidableEq, Repr

/-- The 64-bit word at an offset from the stack pointer. -/
def word (c : Cpu) (off : Nat) : BitVec 64 := BitVec.ofNat 64 (loadN c.mem (c.sp + off) 8)

/-- The `n` bytes at an offset from the stack pointer, as a vector register takes them;
    the rest of the register is cleared. -/
def vec (c : Cpu) (off n : Nat) : BitVec 128 := BitVec.ofNat 128 (loadN c.mem (c.sp + off) n)

def setX (c : Cpu) (d : Fin 31) (v : BitVec 64) : Cpu := { c with x := update c.x d v }

def setQ (c : Cpu) (d : Fin 32) (v : BitVec 128) : Cpu := { c with q := update c.q d v }

def store (c : Cpu) (off n v : Nat) : Cpu := { c with mem := storeN c.mem (c.sp + off) n v }

/-- What an instruction does. -/
def exec (c : Cpu) : Instr → Cpu
  | .subSp n => { c with sp := c.sp - n }
  | .addSp n => { c with sp := c.sp + n }
  | .movImm d v => setX c d v
  | .andImm d s v => setX c d (c.x s &&& v)
  | .mrs d r => setX c d (c.sys r)
  | .msr r s => { c with sys := update c.sys r (c.x s) }
  | .str s off => store c off 8 (c.x s).toNat
  | .stp s t off => store (store c off 8 (c.x s).toNat) (off + 8) 8 (c.x t).toNat
  | .stpQ s t off => store (store c off 16 (c.q s).toNat) (off + 16) 16 (c.q t).toNat
  | .ldr d off => setX c d (word c off)
  | .ldp d e off => setX (setX c d (word c off)) e (word c (off + 8))
  | .ldpD d e off => setQ (setQ c d (vec c off 8)) e (vec c (off + 8) 8)
  | .ldpQ d e off => setQ (setQ c d (vec c off 16)) e (vec c (off + 16) 16)
  | .cbnz s n => { c with skip := if c.x s = 0 then 0 else n }

/-- Execute an instruction, or jump over it. -/
def step (c : Cpu) (i : Instr) : Cpu :=
  if c.skip = 0 then exec c i else { c with skip := c.skip - 1 }

def run (program : List Instr) (c : Cpu) : Cpu := program.foldl step c

def frameSize : Nat := 688

def exceptionSync : BitVec 64 := 0

def exceptionIrq : BitVec 64 := 1

/-- The macro `VECTOR_ENTRY_LOWER`, for an exception from EL0. -/
def vectorEntryLower (type : BitVec 64) : List Instr :=
  [.subSp frameSize, .stp 0 1 0, .mrs 0 .spEl0, .str 0 280, .movImm 0 type]

/-- The first half of `exception_common`, up to the call of the C handler. -/
def exceptionSave : List Instr :=
  [.stp 2 3 16, .stp 4 5 32, .stp 6 7 48, .stp 8 9 64, .stp 10 11 80, .stp 12 13 96,
    .stp 14 15 112, .stp 16 17 128, .stp 18 19 144, .stp 20 21 160, .stp 22 23 176,
    .stp 24 25 192, .stp 26 27 208, .stp 28 29 224, .str 30 240,
    .mrs 1 .elrEl1, .str 1 248, .mrs 1 .spsrEl1, .str 1 256,
    .mrs 1 .esrEl1, .str 1 264, .mrs 1 .farEl1, .str 1 272,
    .stpQ 0 1 288, .stpQ 2 3 320, .stpQ 4 5 352, .stpQ 6 7 384, .stpQ 16 17 416,
    .stpQ 18 19 448, .stpQ 20 21 480, .stpQ 22 23 512, .stpQ 24 25 544, .stpQ 26 27 576,
    .stpQ 28 29 608, .stpQ 30 31 640,
    .mrs 1 .fpsr, .str 1 672, .mrs 1 .fpcr, .str 1 680]

/-- Restore the system registers, and `SP_EL0` if the return is to EL0. -/
def restoreSys : List Instr :=
  [.ldr 1 248, .msr .elrEl1 1, .ldr 1 256, .msr .spsrEl1 1,
    .andImm 2 1 0xF, .cbnz 2 2, .ldr 1 280, .msr .spEl0 1]

def restoreFp : List Instr :=
  [.ldr 1 680, .msr .fpcr 1, .ldr 1 672, .msr .fpsr 1,
    .ldpQ 30 31 640, .ldpQ 28 29 608, .ldpQ 26 27 576, .ldpQ 24 25 544, .ldpQ 22 23 512,
    .ldpQ 20 21 480, .ldpQ 18 19 448, .ldpQ 16 17 416, .ldpQ 6 7 384, .ldpQ 4 5 352,
    .ldpQ 2 3 320, .ldpQ 0 1 288]

def restoreGprs : List Instr :=
  [.ldp 2 3 16, .ldp 4 5 32, .ldp 6 7 48, .ldp 8 9 64, .ldp 10 11 80, .ldp 12 13 96,
    .ldp 14 15 112, .ldp 16 17 128, .ldp 18 19 144, .ldp 20 21 160, .ldp 22 23 176,
    .ldp 24 25 192, .ldp 26 27 208, .ldp 28 29 224, .ldr 30 240, .ldp 0 1 0]

/-- The second half of `exception_common`, up to its `eret`. -/
def exceptionReturn : List Instr := restoreSys ++ restoreFp ++ restoreGprs ++ [.addSp frameSize]

/-- The second half of `context_switch`, from the new stack pointer to its `ret`. -/
def contextSwitchIn : List Instr :=
  [.ldp 19 20 0, .ldp 21 22 16, .ldp 23 24 32, .ldp 25 26 48, .ldp 27 28 64, .ldp 29 30 80,
    .ldpD 8 9 96, .ldpD 10 11 112, .ldpD 12 13 128, .ldpD 14 15 144, .addSp 160]

/-- The stub a forked task starts in, up to its `eret`. It mirrors the end of
    `exception_common` as it was for a frame of 288 bytes. -/
def forkReturn : List Instr := restoreSys ++ restoreGprs ++ [.addSp 288]

/-- An exception from EL0, up to the call of the C handler. -/
def trapLower (type : BitVec 64) (c : Cpu) : Cpu := run (vectorEntryLower type ++ exceptionSave) c

/-- The vector registers that C code may change. -/
def FpCaller (r : Fin 32) : Prop := r.val < 8 ∨ 16 ≤ r.val

instance (r : Fin 32) : Decidable (FpCaller r) := inferInstanceAs (Decidable (_ ∨ _))

/-- Where such a register is in a trap frame. -/
def fpSlot (r : Fin 32) : Nat := if r.val < 8 then 288 + 16 * r.val else 160 + 16 * r.val

/-- What a slot of a trap frame holds. -/
inductive Saved where
  | x (r : Fin 31)
  | sys (r : SysReg)
  | q (r : Fin 32)
deriving DecidableEq

/-- The slots of the integer registers that `exception_common` saves. -/
def gprSlots : List (Saved × Nat × Nat) :=
  ((List.finRange 31).drop 2).map fun r => (.x r, 8 * r.val, 8)

def sysSlots : List (Saved × Nat × Nat) :=
  [(.sys .elrEl1, 248, 8), (.sys .spsrEl1, 256, 8), (.sys .esrEl1, 264, 8), (.sys .farEl1, 272, 8)]

def vecSlots : List (Saved × Nat × Nat) :=
  ((List.finRange 32).filter fun r => FpCaller r).map fun r => (.q r, fpSlot r, 16)

/-- All slots of a trap frame, in the order they are stored. -/
def frameSlots : List (Saved × Nat × Nat) :=
  [(.x 0, 0, 8), (.x 1, 8, 8), (.sys .spEl0, 280, 8)] ++ gprSlots ++ sysSlots ++ vecSlots ++
    [(.sys .fpsr, 672, 8), (.sys .fpcr, 680, 8)]

section

open Signal

/-- The frame at the stack pointer, up to the registers that C code has no name for. -/
def readFrame (c : Cpu) : TrapFrame where
  regs i := word c (8 * i)
  elr := word c 248
  spsr := word c 256
  esr := word c 264
  far := word c 272
  spEl0 := word c 280

/-- The words of a trap frame below the vector registers. -/
def frameWord (f : TrapFrame) (i : Nat) : BitVec 64 :=
  if i < 31 then f.regs i
  else if i = 31 then f.elr
  else if i = 32 then f.spsr
  else if i = 33 then f.esr
  else if i = 34 then f.far
  else f.spEl0

/-- A memory in which the frame at `sp` has been changed to `f`. -/
def writeFrame (mem : Memory) (sp : Nat) (f : TrapFrame) : Memory :=
  (List.range 36).foldl (fun m i => storeN m (sp + 8 * i) 8 (frameWord f i).toNat) mem

end

end CortexForge.Vector
