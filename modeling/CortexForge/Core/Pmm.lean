import CortexForge.Core.Memory
import CortexForge.Lib.Bitmap

/-!
# Physical Page Allocator

The bitmap allocator of `mm/pmm/pmm.c`. Page frame numbers count from the start
of the managed region, and bit `pfn` of the bitmap is set while that page is in
use. The bits of the last word that stand for no page are set once and for all.

The bitmap is placed behind the kernel image, and the pages up to its end are
reserved; `pmmInit` computes how many from the kernel's end. Nothing there keeps
the reserved pages inside the region, so that is asked of the caller.

Loops run over a structural counter: the scans of an allocation over the words
or pages that are left, and the loop of a multi-page free over its count.

## Main definitions

* `pmmInit`: The allocator at boot.
* `pmmAllocatePage`: The first free page.
* `pmmAllocatePages`: The first run of free pages.
* `pmmFreePage`, `pmmFreePages`: Giving pages back.
-/

namespace CortexForge

/-- The allocator's state. `bitmap` holds the words of the bitmap, and beyond
    `bitmapSize` whatever follows it in memory. -/
structure Pmm where
  bitmap : Nat → BitVec 64
  bitmapSize : Nat
  totalPages : Nat
  usedPages : Nat
  reservedPages : Nat
  memRegionStart : Nat
  memRegionEnd : Nat

namespace Pmm

/-- The next page boundary, in 64 bits. -/
def pageAlignUp (addr : Nat) : Nat := wrap64 (addr + (pageSize - 1)) / pageSize * pageSize

def pfnToPhys (pfn : Nat) : Nat := wrap64 (pfn * pageSize)

def bitmapTest (p : Pmm) (pfn : Nat) : Bool := bitTest p.bitmap pfn

/-- The address of a page of the region. -/
def physAddr (p : Pmm) (pfn : Nat) : Nat := wrap64 (p.memRegionStart + pfnToPhys pfn)

/-- The bitmap of `totalPages` free pages, laid over `ram`. The bits of the last
    word beyond the last page are marked used. -/
def initBitmap (ram : Nat → BitVec 64) (totalPages : Nat) : Nat → BitVec 64 :=
  let bitmapSize := (totalPages + 63) / 64
  let zeroed : Nat → BitVec 64 := fun i => if i < bitmapSize then 0#64 else ram i
  if totalPages % 64 ≠ 0 then
    Function.update zeroed (bitmapSize - 1) (~~~((1#64 <<< (totalPages % 64)) - 1#64))
  else zeroed

/-- The allocator for `memSize` bytes at `memStart`, with the kernel image ending
    at `kernelEnd` and `ram` in the memory the bitmap is laid over. -/
def pmmInit (kernelEnd : Nat) (ram : Nat → BitVec 64) (memStart memSize : Nat) : Pmm :=
  let totalPages := memSize / pageSize
  let bitmapSize := (totalPages + 63) / 64
  let bitmapEnd := wrap64 (pageAlignUp kernelEnd + bitmapSize * 8)
  -- Kernel image and bitmap, up to the next page boundary.
  let reservedPages := sub64 (pageAlignUp bitmapEnd) memStart / pageSize
  { bitmap := bitSetRange (initBitmap ram totalPages) 0 reservedPages
    bitmapSize := bitmapSize
    totalPages := totalPages
    usedPages := reservedPages
    reservedPages := reservedPages
    memRegionStart := memStart
    memRegionEnd := wrap64 (memStart + memSize) }

/-- Mark one page used and count it. -/
def takePage (p : Pmm) (pfn : Nat) : Pmm :=
  { p with bitmap := bitSet p.bitmap pfn, usedPages := wrap64 (p.usedPages + 1) }

/-- The scan of one word, from `bit` on for `n` bits; `none` when the word is
    exhausted and the outer scan goes on. -/
def wordScan (p : Pmm) (i : Nat) : Nat → Nat → Option (Pmm × Nat)
  | 0, _ => none
  | n + 1, bit =>
      let pfn := i * 64 + bit
      if pfn ≥ p.totalPages then some (p, 0)
      else if bitmapTest p pfn = false then some (takePage p pfn, physAddr p pfn)
      else wordScan p i n (bit + 1)

/-- The scan over the words, from word `i` on for `n` words. -/
def pageScan (p : Pmm) : Nat → Nat → Pmm × Nat
  | 0, _ => (p, 0)
  | n + 1, i =>
      if p.bitmap i = BitVec.allOnes 64 then pageScan p n (i + 1)
      else (wordScan p i 64 0).getD (pageScan p n (i + 1))

/-- Allocate one page; the result is its address, or 0. -/
def pmmAllocatePage (p : Pmm) : Pmm × Nat := pageScan p p.bitmapSize 0

/-- Mark a run of pages used and count them. -/
def takeRun (p : Pmm) (start count : Nat) : Pmm :=
  { p with bitmap := bitSetRange p.bitmap start count, usedPages := wrap64 (p.usedPages + count) }

/-- The scan for a run of `count` free pages, from `pfn` on for `n` pages, with
    `runLength` free pages from `runStart` just behind. -/
def runScan (p : Pmm) (count : Nat) : Nat → Nat → Nat → Nat → Pmm × Nat
  | 0, _, _, _ => (p, 0)
  | n + 1, pfn, runStart, runLength =>
      if bitmapTest p pfn = false then
        let runStart' := if runLength = 0 then pfn else runStart
        if runLength + 1 = count then (takeRun p runStart' count, physAddr p runStart')
        else runScan p count n (pfn + 1) runStart' (runLength + 1)
      else runScan p count n (pfn + 1) runStart 0

/-- Allocate `count` pages in a row; the result is the address of the first, or
    0. -/
def pmmAllocatePages (p : Pmm) (count : Nat) : Pmm × Nat :=
  if count = 0 then (p, 0)
  else if count = 1 then pmmAllocatePage p
  else runScan p count (p.totalPages - p.reservedPages) p.reservedPages 0 0

/-- The frame number of an address of the region. -/
def pfnOf (p : Pmm) (addr : Nat) : Nat := sub64 addr p.memRegionStart / pageSize

/-- Give one page back. Anything that is not an allocated page is refused. -/
def pmmFreePage (p : Pmm) (addr : Nat) : Pmm :=
  if addr < p.memRegionStart ∨ addr ≥ p.memRegionEnd then p
  else if addr % pageSize ≠ 0 then p
  else if pfnOf p addr < p.reservedPages then p
  else if bitmapTest p (pfnOf p addr) = false then p
  else
    { p with
      bitmap := bitClear p.bitmap (pfnOf p addr)
      usedPages := sub64 p.usedPages 1 }

/-- Give `count` pages back, from `addr` up. -/
def pmmFreePages (p : Pmm) (addr : Nat) : Nat → Pmm
  | 0 => p
  | count + 1 => pmmFreePage (pmmFreePages p addr count) (wrap64 (addr + count * pageSize))

end Pmm

end CortexForge
