import CortexForge.Core.BlkDevice
import CortexForge.Core.Receiver
import CortexForge.Core.Syscall

/-!
# Nodes, Paths and Descriptors

The file layer of `fs/vfs/vfs.c` and `fs/fat32/fat32_vfs.c`: the tree of nodes, the
resolution of a path, and the table of open files.

Nodes are numbers into the pool, with 0 for the root. A table of operations is the
constructor of `FileOps` that stands for it. A path is read from memory through the
pointer the caller gave, byte by byte as the source does it, and every load is
logged. The loops that follow a path have no bound of their own; they are bounded
by a counter, and `none` is a loop that is not over by then.

`Hardware` is what the file layer calls that is given no pointer of the caller:
devices, the heap, the generators of `/proc`, and the FAT32 volume under its nodes.
Calls that wait come back with what they waited for. `R` is the state of all that.

## Main definitions

* `Vnode`, `Vfs`, `File`, `Files`: Nodes, the pool, and open files.
* `Hardware`: What is called.
* `vfsResolve`: The node of a path.
* `fdOpen`, `fdClose`, `fdSeek`: Descriptors.
-/

namespace CortexForge.Vfs

open Traced Syscall Function

inductive VnodeType where
  | reg
  | dir
  | chr
  | blk
deriving DecidableEq, Repr

/-- The files below `/proc`. -/
inductive ProcFile where
  | uptime
  | meminfo
  | tasks
  | netinfo
  | interrupts
  | cmdline
  | balloon
  | cpuinfo
  | version
deriving DecidableEq, Repr

/-- The tables of file operations. -/
inductive FileOps where
  | console
  | null
  | zero
  | rng
  | blk
  | vcons
  | uart0
  | proc (file : ProcFile)
  | fat32File
deriving DecidableEq, Repr

/-- Where a file or directory of the FAT32 volume starts, and its size. -/
structure Fat32Priv where
  firstCluster : Nat
  size : BitVec 32
deriving DecidableEq, Repr

/-- A node. `fat32Dir` says that names in it are looked up on the FAT32 volume. -/
structure Vnode where
  name : List Byte
  type : VnodeType
  ops : Option FileOps := none
  fat32Dir : Bool := false
  privateData : Option Fat32Priv := none
  size : Nat := 0
  parent : Option Nat := none
  children : List Nat := []
deriving DecidableEq, Repr

/-- The pool of nodes, of which `count` are in use. -/
structure Pool where
  nodes : Nat → Vnode
  count : Nat

/-- An open file, with the address of its record. The offset is signed. -/
structure File where
  record : Nat
  vnode : Nat
  offset : BitVec 64
deriving DecidableEq, Repr

/-- The nodes, the descriptors of the caller, and the drivers behind them. -/
structure Files (R : Type) where
  pool : Pool
  fds : Nat → Option File
  blk : Blk.BlkDev
  framingTimeout : BitVec 64
  framingStats : Framing.FramingStats
  uart0TxSeq : Byte
  rest : R

/-- An entry of a directory of the FAT32 volume. -/
structure DirEntry where
  cluster : Nat
  size : BitVec 32
  isDir : Bool

structure Hardware (R : Type) extends Blk.BlkHardware R where
  uartGetc : R → R × Byte
  uartPutc : R → Byte → R
  /-- The random bytes of one request, in the bounce buffer. -/
  rngFill : R → Nat → R × Memory
  vconsReady : R → Bool
  vconsPush : R → List Byte → R
  /-- Look for the second serial port; whether it is there. -/
  framingEnsureHw : R → R × Bool
  uart1Send : R → List Byte → R
  framingRecv : R → Framing.FramingStats → BitVec 64 →
    R × Framing.FramingStats × Framing.Code × Framing.Frame
  /-- The text of a file below `/proc`, and the length it would have. -/
  procGenerate : R → ProcFile → R × Memory × BitVec 32
  kmalloc : R → Nat → R × Option Nat
  kfree : R → Nat → R
  fat32LookupInDir : R → Nat → List Byte → R × Option DirEntry
  fat32Read : R → Nat → Nat → R × Memory × BitVec 32

def maxVnodes : Nat := 128

def maxFds : Nat := 64

def slash : Byte := 0x2F#8

def dot : Byte := 0x2E#8

section

def allocVnode (p : Pool) (name : List Byte) (type : VnodeType) : Option (Pool × Nat) :=
  if p.count ≥ maxVnodes then none
  else
    some ({ nodes := update p.nodes p.count { name := name.take 63, type := type }
            count := p.count + 1 }, p.count)

/-- A new node in front of the children of `parent`. -/
def vfsCreateNode (p : Pool) (parent : Nat) (name : List Byte) (type : VnodeType) :
    Option (Pool × Nat) :=
  (allocVnode p name type).map fun (p, n) =>
    let nodes := update p.nodes n { p.nodes n with parent := some parent }
    ({ p with
        nodes := update nodes parent
          { nodes parent with children := n :: (nodes parent).children } }, n)

end

section

variable {R : Type} (hw : Hardware R) (mem : Memory)

/-- Load the byte at an address. -/
def loadByte (addr : Nat) : Logged Byte := do
  access (.load addr 1)
  pure (mem addr)

/-- Go on as long as the bytes are of a kind; the address of the first other one. -/
def scan (kind : Byte → Bool) : Nat → Nat → Logged (Option Nat)
  | 0, _ => pure none
  | fuel + 1, p => do
      let b ← loadByte mem p
      if kind b then scan kind fuel (wrap64 (p + 1)) else pure (some p)

/-- Compare `n` more bytes of a name, from number `i` on, and then that it ends. -/
def nameMatch (name : List Byte) (s : Nat) : Nat → Nat → Logged Bool
  | 0, i => pure (name.getD i 0 == 0)
  | n + 1, i => do
      let b ← loadByte mem (wrap64 (s + i))
      if name.getD i 0 ≠ b then pure false else nameMatch name s n (i + 1)

/-- The first of some nodes with the name of `len` bytes at `s`. -/
def findNamed (p : Pool) (s len : Nat) : List Nat → Logged (Option Nat)
  | [] => pure none
  | c :: cs => do
      let found ← nameMatch mem (p.nodes c).name s len 0
      if found then pure (some c) else findNamed p s len cs

/-- Copy `n` bytes of a name, from number `i` on. -/
def copyName (s : Nat) : Nat → Nat → Logged (List Byte)
  | 0, _ => pure []
  | n + 1, i => do
      let b ← loadByte mem (wrap64 (s + i))
      let bs ← copyName s n (i + 1)
      pure (b :: bs)

/-- The node for an entry that was found on the volume. -/
def fat32Node (e : DirEntry) (n : Vnode) : Vnode :=
  { n with
    privateData := some { firstCluster := e.cluster, size := e.size }
    size := e.size.toNat
    fat32Dir := e.isDir
    ops := if e.isDir then none else some .fat32File }

/-- The size of the record kept for a node of the volume. -/
def fat32PrivSize : Nat := 8

/-- Look a name up in a directory of the volume, and make a node for it. -/
def fat32Lookup (k : Files R) (dir s len : Nat) : Logged (Files R × Option Nat) :=
  match (k.pool.nodes dir).privateData with
  | none => pure (k, none)
  | some pd =>
      if len > 12 then pure (k, none)
      else do
        let tmp ← copyName mem s len 0
        match hw.fat32LookupInDir k.rest pd.firstCluster tmp with
        | (rest, none) => pure ({ k with rest := rest }, none)
        | (rest, some e) =>
            -- The record comes first, so that no node is left without one.
            match hw.kmalloc rest fat32PrivSize with
            | (rest, none) => pure ({ k with rest := rest }, none)
            | (rest, some cpd) =>
                match vfsCreateNode k.pool dir tmp (if e.isDir then .dir else .reg) with
                | none => pure ({ k with rest := hw.kfree rest cpd }, none)
                | some (p, child) =>
                    let p := { p with
                      nodes := update p.nodes child (fat32Node e (p.nodes child)) }
                    pure ({ k with pool := p, rest := rest }, some child)

def findChild (k : Files R) (dir s len : Nat) : Logged (Files R × Option Nat) := do
  let known ← findNamed mem k.pool s len (k.pool.nodes dir).children
  match known with
  | some c => pure (k, some c)
  | none => if (k.pool.nodes dir).fat32Dir then fat32Lookup hw mem k dir s len else pure (k, none)

/-- What a component of a path asks for. -/
inductive Component where
  | stay
  | up
  | child
deriving DecidableEq, Repr

def component (path len : Nat) : Logged Component := do
  if len = 1 then do
    let b ← loadByte mem path
    pure (if b = dot then .stay else .child)
  else if len = 2 then do
    let b ← loadByte mem path
    if b = dot then do
      let b ← loadByte mem (wrap64 (path + 1))
      pure (if b = dot then .up else .child)
    else pure .child
  else pure .child

/-- The node that one component leads to; `none` if there is no such node. -/
def enter (k : Files R) (cur path len : Nat) : Logged (Files R × Option Nat) :=
  if (k.pool.nodes cur).type ≠ .dir then pure (k, none)
  else do
    match ← component mem path len with
    | .stay => pure (k, some cur)
    -- The root is its own parent.
    | .up => pure (k, some ((k.pool.nodes cur).parent.getD cur))
    | .child => findChild hw mem k cur path len

/-- Follow a path from the node `cur` on. -/
def resolveFrom : Nat → Files R → Nat → Nat →
    Logged (Option (Files R × Option Nat))
  | 0, _, _, _ => pure none
  | fuel + 1, k, cur, path => do
      let b ← loadByte mem path
      if b = 0 then pure (some (k, some cur))
      else do
        match ← scan mem (· == slash) fuel path with
        | none => pure none
        | some path => do
            -- Slashes at the end of a path name nothing.
            let b ← loadByte mem path
            if b = 0 then pure (some (k, some cur))
            else do
              match ← scan mem (fun b => b != 0 && b != slash) fuel path with
              | none => pure none
              | some stop => do
                  let next ← enter hw mem k cur path (sub64 stop path)
                  match next with
                  | (k, none) => pure (some (k, none))
                  | (k, some cur) => resolveFrom fuel k cur stop

/-- The node that a path names. -/
def vfsResolve (fuel : Nat) (k : Files R) (path : Nat) :
    Logged (Option (Files R × Option Nat)) :=
  if path = 0 then pure (some (k, none))
  else do
    let b ← loadByte mem path
    if b ≠ slash then pure (some (k, none)) else resolveFrom hw mem fuel k 0 (wrap64 (path + 1))

end

section

variable {R : Type} (hw : Hardware R)

/-- The first free descriptor. -/
def allocFd (k : Files R) : Option Nat :=
  (List.range maxFds).find? fun i => (k.fds i).isNone

/-- The size of an open file's record. -/
def fileSize : Nat := 16

/-- A path that passed the check ends within this many bytes. -/
def pathFuel : Nat := userPathMax + 1

/-- Open a path; `none` is a path that does not end. -/
def fdOpen (mem : Memory) (k : Files R) (path : Nat) : Logged (Option (Files R × Int)) := do
  match ← vfsResolve hw mem pathFuel k path with
  | none => pure none
  | some (k, none) => pure (some (k, -1))
  | some (k, some node) =>
      match allocFd k with
      | none => pure (some (k, -1))
      | some fd =>
          match hw.kmalloc k.rest fileSize with
          | (rest, none) => pure (some ({ k with rest := rest }, -1))
          | (rest, some p) =>
              pure (some ({ k with
                fds := update k.fds fd (some { record := p, vnode := node, offset := 0 })
                rest := rest }, fd))

/-- The open file behind a descriptor. -/
def fileAt (k : Files R) (fd : BitVec 32) : Option File :=
  if fd.toInt < 0 ∨ fd.toInt ≥ maxFds then none else k.fds fd.toNat

def setFile (k : Files R) (fd : BitVec 32) (f : Option File) : Files R :=
  { k with fds := update k.fds fd.toNat f }

def fdClose (k : Files R) (fd : BitVec 32) : Files R × Int :=
  match fileAt k fd with
  | none => (k, -1)
  | some f => (setFile { k with rest := hw.kfree k.rest f.record } fd none, 0)

/-- Where a seek leads, or that it is refused. -/
def seekTarget (n : Vnode) (f : File) (offset : BitVec 64) (whence : BitVec 32) :
    Option (BitVec 64) :=
  if n.type = .chr then none
  else if whence = 0 then some offset
  else if whence = 1 then some (f.offset + offset)
  -- Only a regular file has an end.
  else if whence = 2 then
    if n.type ≠ .reg then none else some (BitVec.ofNat 64 n.size + offset)
  else none

def fdSeek (k : Files R) (fd : BitVec 32) (offset : BitVec 64) (whence : BitVec 32) :
    Files R × BitVec 64 :=
  match fileAt k fd with
  | none => (k, -1)
  | some f =>
      match seekTarget (k.pool.nodes f.vnode) f offset whence with
      | none => (k, -1)
      | some target =>
          if target.toInt < 0 then (k, -1)
          else (setFile k fd (some { f with offset := target }), target)

end

end CortexForge.Vfs
