import CortexForge.Core.Sched
import CortexForge.Core.Syscall

/-!
# Replacing an Image

The part of `sys_exec` in `syscall/syscall.c` that comes after the arguments have
been captured: the file is read, a new address space is built from it, the
current task is moved over, and the old image is given back. The rewritten trap
frame is `execFrame`.

Opening and reading the file are the file system's business; the outcome is a
parameter, `none` standing for any failure of theirs or of the buffer's
allocation.

## Main definitions

* `ExecArgs`: Captured arguments, with the bounds the capture keeps.
* `writeArgs`: The arguments on the new stack.
* `loadImage`: The replacement.
-/

namespace CortexForge

/-- Arguments of a new image, within the limits of their capture. -/
structure ExecArgs where
  strings : List (List Byte)
  count_le : strings.length ≤ Syscall.execMaxArgc
  bytes_le : Syscall.argBytes strings ≤ Syscall.execArgBytesMax

/-- The contents of a file. -/
structure FileBytes where
  bytes : Memory
  size : Nat

namespace Sched

open Mmu Elf Syscall

def execMaxBytes : Nat := 2 ^ 20

/-- The captured strings one after the other, each with its terminator. -/
def argBlob (args : List (List Byte)) : List Byte := args.flatMap (· ++ [0#8])

/-- Where the strings are on the new stack. -/
def stringsUserBase (args : List (List Byte)) : Nat := userStackTop - argBytes args

/-- Where the array of pointers to them is. -/
def argvUserBase (args : List (List Byte)) : Nat :=
  stringsUserBase args / 16 * 16 - (args.length + 1) * 8

/-- The pointers to the strings from number `i` on, at `argv`. -/
def writeArgv (args : List (List Byte)) (argv : Nat) : Nat → Nat → Memory → Memory
  | 0, _, mem => mem
  | n + 1, i, mem =>
      writeArgv args argv n (i + 1)
        (storeN mem (argv + 8 * i) 8 (stringsUserBase args + argBytes (args.take i)))

/-- Memory with the arguments on the stack at `stack`, when there are any. -/
def writeArgs (mem : Memory) (stack : Nat) (args : List (List Byte)) : Memory :=
  if args.length > 0 then
    let blob := argBlob args
    let mem := memcpy mem (stack + (stringsUserBase args - ustackUserBase))
      (fun k => blob.getD k 0#8) 0 (argBytes args)
    let argv := stack + (argvUserBase args - ustackUserBase)
    storeN (writeArgv args argv args.length 0 mem) (argv + 8 * args.length) 8 0
  else mem

variable {σ : Type} (src : Pages σ)

/-- Give back the image a task had before. Pages its stack grew by stay. -/
def freeOldImage (m : Machine σ) (old : Task) : Machine σ :=
  let m := if old.ustackPhys ≠ 0 then freePages src m old.ustackPhys userStackPages else m
  let m := freeRegions src m old.execImage.regions
  if old.ttbr0 ≠ 0 then mmuFreeUserTables src m (ttbrBaddr old.ttbr0) else m

/-- Replace the image of the current task. The result is the entry point, or
    `none` when the call failed. -/
def loadImage (s : Sched σ) (file : Option FileBytes) (args : ExecArgs) :
    Sched σ × Option Nat :=
  match s.queue, file with
  | [], _ => (s, none)
  | _ :: _, none => (s, none)
  | cur :: rest, some f =>
      if cur.hasFds = false then (s, none)
      else if f.size = 0 ∨ f.size > execMaxBytes then (s, none)
      else
        let stack := zeroedPages src s.machine userStackPages
        if stack.2 = 0 then ({ s with machine := stack.1 }, none)
        else
          let l0 := mmuCreateUserTables src stack.1
          if l0.2 = 0 then ({ s with machine := freePages src l0.1 stack.2 userStackPages }, none)
          else
            match elfLoad src l0.1 f.bytes f.size l0.2 with
            | (m, none) =>
                let m := mmuFreeUserTables src m l0.2
                ({ s with machine := freePages src m stack.2 userStackPages }, none)
            | (m, some image) =>
                let m := mmuMapUserRange src m l0.2 ustackUserBase stack.2 userStackPages stackFlags
                let asid := schedAsidAlloc s.nextAsid
                let ttbr0 := ttbrPack l0.2 asid.1
                let new : Task :=
                  { cur with
                    ttbr0 := ttbr0
                    ustackPhys := stack.2
                    userSp := userStackTop
                    execImage := image }
                let m := { m with mem := writeArgs m.mem stack.2 args.strings }
                ({ s with
                    machine := freeOldImage src m cur
                    queue := new :: rest
                    nextAsid := asid.2
                    ttbr0El1 := ttbr0 }, some image.entry)

end Sched

end CortexForge
