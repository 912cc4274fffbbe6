import CortexForge.Core.Memory
import CortexForge.Lib.ByteMem

/-!
# Kernel Heap

The first-fit heap of `mm/heap/heap.c`. The blocks and their list live in
memory: a block is a header of `blockHeaderSize` bytes and a payload behind it,
and the header holds the payload's size, a magic number, the free flag and the
address of the next block. The heap proper is only the address of the first
block, the table of regions, and the page allocator it grows from.

A walk over the list is bounded by `walkBound`, the number of headers the
registered regions have room for. A walk that outlasts it, and a read through a
null pointer, have no result; the first 2 MiB are never mapped, so the latter is
a fault.

## Main definitions

* `Heap.kmalloc`: First fit, with one block cut in two where it pays.
* `Heap.kfree`: Giving a block back, and joining the free blocks that touch.
* `Heap.heapExpand`: A further region at the end of the list.
* `Heap.heapUsedBytes`, `Heap.heapFreeBytes`, `Heap.heapTotalBytes`: The
  statistics.
-/

namespace CortexForge

/-- One run of pages the heap took from the page allocator. -/
structure HeapRegion where
  vaStart : Nat
  sizeBytes : Nat

/-- The heap, and the memory and the page allocator it works on. -/
structure Heap (σ : Type) where
  mem : Memory
  heapHead : Nat
  regions : List HeapRegion
  pmm : σ

namespace Heap

def heapInitialPages : Nat := 256

def heapExpandMinPages : Nat := 64

def heapMaxRegions : Nat := 16

def heapMinBlockSize : Nat := 32

def heapAlign : Nat := 16

/-- The size of a header, rounded up to the alignment. -/
def blockHeaderSize : Nat := 32

def blockMagicAlloc : Nat := 0xA110CED

def blockMagicFree : Nat := 0xFEEDF1EE

def sizeMax : Nat := 2 ^ 64 - 1

/-- The next multiple of the alignment, in 64 bits. -/
def heapAlignUp (x : Nat) : Nat := wrap64 (x + heapAlign - 1) / heapAlign * heapAlign

section

variable (mem : Memory) (block : Nat)

def hdrSize : Nat := loadN mem block 8

def hdrMagic : Nat := loadN mem (block + 8) 4

def hdrIsFree : Nat := loadN mem (block + 12) 4

def hdrNext : Nat := loadN mem (block + 16) 8

def setSize (v : Nat) : Memory := storeN mem block 8 v

def setMagic (v : Nat) : Memory := storeN mem (block + 8) 4 v

def setIsFree (v : Nat) : Memory := storeN mem (block + 12) 4 v

def setNext (v : Nat) : Memory := storeN mem (block + 16) 8 v

/-- The header of a free block that ends the list, or of one whose link is set
    next. -/
def setFree (size : Nat) : Memory :=
  setMagic (setIsFree (setSize mem block size) block 1) block blockMagicFree

end

/-- A run of pages as one free block that ends the list. -/
def formatRegion (mem : Memory) (va bytes : Nat) : Memory :=
  setNext (setFree (memset mem va 0#8 bytes) va (sub64 bytes blockHeaderSize)) va 0

variable {σ : Type}

/-- The sum of the regions' sizes. -/
def heapTotalBytes (h : Heap σ) : Nat :=
  h.regions.foldl (fun total r => wrap64 (total + r.sizeBytes)) 0

/-- As many steps as a walk over the list can take, and one more to see its
    end. -/
def walkBound (h : Heap σ) : Nat := heapTotalBytes h / blockHeaderSize + 1

/-- Enter a region, unless the table is full. -/
def registerRegion (h : Heap σ) (va bytes : Nat) : Heap σ × Bool :=
  if h.regions.length ≥ heapMaxRegions then (h, false)
  else ({ h with regions := h.regions ++ [⟨va, bytes⟩] }, true)

def addrInAnyRegion (h : Heap σ) (addr : Nat) : Bool :=
  h.regions.any fun r =>
    decide (r.vaStart ≤ addr) && decide (addr < wrap64 (r.vaStart + r.sizeBytes))

/-- The first region, as one free block. Without pages there is no heap. -/
def heapInit (src : Pages σ) (h : Heap σ) : Heap σ :=
  let got := src.allocatePages h.pmm heapInitialPages
  if got.2 = 0 then { h with pmm := got.1 }
  else
    let va := physToVirt got.2
    let bytes := heapInitialPages * pageSize
    (registerRegion
      { h with mem := formatRegion h.mem va bytes, heapHead := va, pmm := got.1 } va bytes).1

/-- The last block of the list. -/
def tailLoop (mem : Memory) : Nat → Nat → Option Nat
  | 0, _ => none
  | fuel + 1, tail =>
      if tail = 0 then none
      else if hdrNext mem tail ≠ 0 then tailLoop mem fuel (hdrNext mem tail)
      else some tail

/-- The pages a new region takes to hold `needBytes` and a header. -/
def expandPages (needBytes : Nat) : Nat :=
  let bytesRequired := wrap64 (needBytes + blockHeaderSize)
  let pages := wrap64 (bytesRequired + pageSize - 1) / pageSize
  if pages < heapExpandMinPages then heapExpandMinPages else pages

/-- Grow the heap by a region that can hold `needBytes`; the flag is success. A
    region that finds no place in the table is unlinked and given back. -/
def heapExpand (src : Pages σ) (h : Heap σ) (needBytes : Nat) : Option (Heap σ × Bool) :=
  let pages := expandPages needBytes
  let got := src.allocatePages h.pmm pages
  if got.2 = 0 then some ({ h with pmm := got.1 }, false)
  else
    let va := physToVirt got.2
    let bytes := wrap64 (pages * pageSize)
    let mem := formatRegion h.mem va bytes
    match tailLoop mem (walkBound h) h.heapHead with
    | none => none
    | some tail =>
        let h1 := { h with mem := setNext mem tail va, pmm := got.1 }
        let reg := registerRegion h1 va bytes
        if reg.2 then some (reg.1, true)
        else
          some ({ h1 with
            mem := setNext h1.mem tail 0
            pmm := src.freePages got.1 got.2 pages }, false)

/-- The first free block of at least `size` bytes, or 0. -/
def findFit (mem : Memory) (size : Nat) : Nat → Nat → Option Nat
  | 0, _ => none
  | fuel + 1, current =>
      if current = 0 then some 0
      else if hdrIsFree mem current ≠ 0 ∧ hdrSize mem current ≥ size then some current
      else findFit mem size fuel (hdrNext mem current)

/-- Cut a block behind its first `size` bytes of payload; the rest becomes a free
    block of its own. -/
def splitBlock (mem : Memory) (current size remaining : Nat) : Memory :=
  let newBlock := wrap64 (current + blockHeaderSize + size)
  let mem := setFree mem newBlock (sub64 remaining blockHeaderSize)
  let mem := setNext mem newBlock (hdrNext mem current)
  setNext (setSize mem current size) current newBlock

/-- Hand out a block that fits, after cutting off what is left over if that is
    worth a block. -/
def takeBlock (mem : Memory) (current size : Nat) : Memory :=
  let remaining := sub64 (hdrSize mem current) size
  let mem :=
    if remaining > blockHeaderSize + heapMinBlockSize then splitBlock mem current size remaining
    else mem
  setMagic (setIsFree mem current 0) current blockMagicAlloc

/-- The attempts of an allocation: each looks for a block, and one that finds
    none grows the heap for the next. -/
def mallocLoop (src : Pages σ) (size : Nat) : Nat → Heap σ → Option (Heap σ × Nat)
  | 0, h => some (h, 0)
  | attempts + 1, h =>
      match findFit h.mem size (walkBound h) h.heapHead with
      | none => none
      | some current =>
          if current ≠ 0 then
            some ({ h with mem := takeBlock h.mem current size },
              wrap64 (current + blockHeaderSize))
          else
            match heapExpand src h size with
            | none => none
            | some (h', false) => some (h', 0)
            | some (h', true) => mallocLoop src size attempts h'

/-- Allocate `size` bytes; the result is the payload's address, or 0. -/
def kmalloc (src : Pages σ) (h : Heap σ) (size : Nat) : Option (Heap σ × Nat) :=
  if size = 0 then some (h, 0)
  else if size > sizeMax - (heapAlign - 1) then some (h, 0)
  else mallocLoop src (heapAlignUp size) 2 h

/-- Let a free block absorb the free blocks right behind it. -/
def mergeLoop : Nat → Memory → Nat → Option Memory
  | 0, _, _ => none
  | fuel + 1, mem, current =>
      let next := hdrNext mem current
      if hdrIsFree mem current ≠ 0 ∧ next ≠ 0 ∧ hdrIsFree mem next ≠ 0 then
        -- Neighbours in the list need not be neighbours in memory.
        if wrap64 (current + blockHeaderSize + hdrSize mem current) ≠ next then some mem
        else
          let mem := setSize mem current
            (wrap64 (hdrSize mem current + (blockHeaderSize + hdrSize mem next)))
          mergeLoop fuel (setNext mem current (hdrNext mem (hdrNext mem current))) current
      else some mem

/-- Do so at every block of the list in turn. -/
def coalesceLoop (bound : Nat) : Nat → Memory → Nat → Option Memory
  | 0, _, _ => none
  | fuel + 1, mem, current =>
      if current = 0 then some mem
      else
        match mergeLoop bound mem current with
        | none => none
        | some mem => coalesceLoop bound fuel mem (hdrNext mem current)

/-- Give a payload back. A pointer that is not to an allocated block is refused,
    and nothing is touched. -/
def kfree (h : Heap σ) (ptr : Nat) : Option (Heap σ) :=
  if ptr = 0 then some h
  else
    let block := sub64 ptr blockHeaderSize
    if addrInAnyRegion h block = false then some h
    else if hdrMagic h.mem block ≠ blockMagicAlloc then some h
    else if hdrIsFree h.mem block ≠ 0 then some h
    else
      let mem := setMagic (setIsFree h.mem block 1) block blockMagicFree
      match coalesceLoop (walkBound h) (walkBound h) mem h.heapHead with
      | none => none
      | some mem => some { h with mem := mem }

/-- The payload bytes of the blocks of the list that are free, or that are not. -/
def sumBytes (mem : Memory) (free : Bool) : Nat → Nat → Nat → Option Nat
  | 0, _, _ => none
  | fuel + 1, c, total =>
      if c = 0 then some total
      else
        let total := if decide (hdrIsFree mem c ≠ 0) = free then wrap64 (total + hdrSize mem c)
          else total
        sumBytes mem free fuel (hdrNext mem c) total

def heapUsedBytes (h : Heap σ) : Option Nat := sumBytes h.mem false (walkBound h) h.heapHead 0

def heapFreeBytes (h : Heap σ) : Option Nat := sumBytes h.mem true (walkBound h) h.heapHead 0

end Heap

end CortexForge
