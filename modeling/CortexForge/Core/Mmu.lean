import CortexForge.Core.Memory
import CortexForge.Lib.ByteMem

/-!
# User Page Tables

The translation tables of user address spaces, from `mm/mmu/mmu.c` and
`mm/mmu/mmu.h`: four levels of 512 entries, 4 KiB pages.

Memory is physical memory. The source reaches a physical address through the
kernel's linear map, and entries hold physical addresses, so the two conversions
cancel. A pointer to an entry is the table's address and an index.

Page allocation goes through `Machine.allocatePages`, which also counts the
allocations that came back empty. No code reads that count; it is there to say
of a run that memory never ran out.

## Main definitions

* `Machine`: Physical memory and the page allocator.
* `walkLevels`: The entry for an address, with tables allocated on the way.
* `mmuMapUserRange`: Mapping a run of pages.
* `mmuCreateUserTables`: A new address space, with the signal trampoline.
* `mmuFreeUserTables`: Giving the tables of an address space back.
-/

namespace CortexForge

/-- Physical memory, the page allocator, and the address of the page with the
    signal trampoline once there is one. `refused` counts the allocations that
    came back empty. -/
structure Machine (σ : Type) where
  mem : Memory
  pmm : σ
  sigtrampPhys : Nat
  refused : Nat

namespace Mmu

def pteValidBit : BitVec 64 := 1#64

def pteTable : BitVec 64 := 1#64 <<< 1

def pteAf : BitVec 64 := 1#64 <<< 10

def pteShInner : BitVec 64 := 3#64 <<< 8

/-- EL1 and EL0 may read and write. -/
def pteApRwEl0 : BitVec 64 := 1#64 <<< 6

/-- EL1 and EL0 may read. -/
def pteApRoEl0 : BitVec 64 := 3#64 <<< 6

/-- Normal memory. -/
def pteAttridx1 : BitVec 64 := 1#64 <<< 2

/-- EL0 may not execute. -/
def pteUxn : BitVec 64 := 1#64 <<< 54

/-- EL1 may not execute. -/
def ptePxn : BitVec 64 := 1#64 <<< 53

/-- The entry is cached for the current address space only. -/
def pteNg : BitVec 64 := 1#64 <<< 11

def pteAddrMask : BitVec 64 := 0x0000FFFFFFFFF000#64

def pteValid (entry : BitVec 64) : Bool := entry.getLsbD 0

/-- Bit 1 of an entry: a table above the last level, a page at it. -/
def pteIsTable (entry : BitVec 64) : Bool := entry.getLsbD 1

def pteNextTable (entry : BitVec 64) : Nat := (entry &&& pteAddrMask).toNat

def l0Index (va : Nat) : Nat := va / 2 ^ 39 % 512

def l1Index (va : Nat) : Nat := va / 2 ^ 30 % 512

def l2Index (va : Nat) : Nat := va / 2 ^ 21 % 512

def l3Index (va : Nat) : Nat := va / 2 ^ 12 % 512

/-- The table base in the low 48 bits of a base register and the address space
    number above it. -/
def ttbrPack (baddr asid : Nat) : Nat := baddr % 2 ^ 48 + asid * 2 ^ 48

def ttbrBaddr (ttbr : Nat) : Nat := ttbr % 2 ^ 48

def ttbrAsid (ttbr : Nat) : Nat := ttbr / 2 ^ 48

/-- Entry `i` of the table at `table`. -/
def getEntry (mem : Memory) (table i : Nat) : BitVec 64 :=
  BitVec.ofNat 64 (loadN mem (table + 8 * i) 8)

def setEntry (mem : Memory) (table i : Nat) (entry : BitVec 64) : Memory :=
  storeN mem (table + 8 * i) 8 entry.toNat

/-- An entry that names the table at `table`. -/
def tableEntry (table : Nat) : BitVec 64 := BitVec.ofNat 64 table ||| pteValidBit ||| pteTable

/-- An entry that maps the page at `pa`. -/
def leafEntry (pa : Nat) (flags : BitVec 64) : BitVec 64 :=
  (BitVec.ofNat 64 pa &&& pteAddrMask) ||| pteValidBit ||| pteTable ||| pteAf ||| pteShInner |||
    pteNg ||| flags

/-- Read and execute, for EL0. -/
def textFlags : BitVec 64 := pteAttridx1 ||| pteApRoEl0 ||| ptePxn

/-- Read and write, for EL0. -/
def stackFlags : BitVec 64 := pteAttridx1 ||| pteApRwEl0 ||| pteUxn ||| ptePxn

variable {σ : Type} (src : Pages σ)

/-- Allocate pages, and count the request if it is refused. -/
def allocatePages (m : Machine σ) (count : Nat) : Machine σ × Nat :=
  let got := src.allocatePages m.pmm count
  ({ m with
      pmm := got.1
      refused := if got.2 = 0 then m.refused + 1 else m.refused }, got.2)

def freePages (m : Machine σ) (addr count : Nat) : Machine σ :=
  { m with pmm := src.freePages m.pmm addr count }

/-- A new table without valid entries; 0 when there is no page for it. -/
def allocTable (m : Machine σ) : Machine σ × Nat :=
  let got := allocatePages src m 1
  if got.2 = 0 then (got.1, 0)
  else ({ got.1 with mem := memset got.1.mem got.2 0#8 pageSize }, got.2)

/-- One level down from entry `i` of a table. A missing table is allocated if
    that is asked for. -/
def nextTable (m : Machine σ) (table i : Nat) (alloc : Bool) : Machine σ × Option Nat :=
  if pteValid (getEntry m.mem table i) = false then
    if alloc = false then (m, none)
    else
      let got := allocTable src m
      if got.2 = 0 then (got.1, none)
      else ({ got.1 with mem := setEntry got.1.mem table i (tableEntry got.2) }, some got.2)
  else (m, some (pteNextTable (getEntry m.mem table i)))

/-- The entry for `va` at level 2 or 3, with missing tables allocated if that is
    asked for. -/
def walkLevels (m : Machine σ) (l0Table va targetLevel : Nat) (alloc : Bool) :
    Machine σ × Option (Nat × Nat) :=
  match nextTable src m l0Table (l0Index va) alloc with
  | (m, none) => (m, none)
  | (m, some l1) =>
      match nextTable src m l1 (l1Index va) alloc with
      | (m, none) => (m, none)
      | (m, some l2) =>
          if targetLevel = 2 then (m, some (l2, l2Index va))
          else
            match nextTable src m l2 (l2Index va) alloc with
            | (m, none) => (m, none)
            | (m, some l3) => (m, some (l3, l3Index va))

/-- The pages from `i` on, `n` of them. A walk that fails ends the loop, and what
    is mapped stays mapped. -/
def mapLoop (l0 va pa : Nat) (flags : BitVec 64) : Nat → Nat → Machine σ → Machine σ
  | 0, _, m => m
  | n + 1, i, m =>
      match walkLevels src m l0 (wrap64 (va + i * pageSize)) 3 true with
      | (m, none) => m
      | (m, some (table, index)) =>
          mapLoop l0 va pa flags n (i + 1)
            { m with
              mem := setEntry m.mem table index (leafEntry (wrap64 (pa + i * pageSize)) flags) }

/-- Map the pages at `pa` to the user addresses from `va` on. -/
def mmuMapUserRange (m : Machine σ) (l0 va pa pages : Nat) (flags : BitVec 64) : Machine σ :=
  mapLoop src l0 va pa flags pages 0 m

/-- The page with the signal trampoline, set up on first use; 0 when there is no
    page for it. -/
def mmuSigtrampPage (m : Machine σ) : Machine σ × Nat :=
  if m.sigtrampPhys ≠ 0 then (m, m.sigtrampPhys)
  else
    let got := allocatePages src m 1
    if got.2 = 0 then (got.1, 0)
    else
      let mem := memset got.1.mem got.2 0#8 pageSize
      -- mov x8, #17 ; svc #0
      let mem := storeN mem got.2 4 0xD2800228
      ({ got.1 with mem := storeN mem (got.2 + 4) 4 0xD4000001, sigtrampPhys := got.2 }, got.2)

/-- A new address space with the trampoline mapped; 0 when there is no page for
    its first table. -/
def mmuCreateUserTables (m : Machine σ) : Machine σ × Nat :=
  let l0 := allocTable src m
  if l0.2 = 0 then (l0.1, 0)
  else
    let tramp := mmuSigtrampPage src l0.1
    if tramp.2 = 0 then (tramp.1, l0.2)
    else (mmuMapUserRange src tramp.1 l0.2 userSigtrampVa tramp.2 1 textFlags, l0.2)

/-- The pages freed for a level-2 table: its tables and itself. -/
def l2TablePages (mem : Memory) (l2 : Nat) : List Nat :=
  ((List.range 512).filter fun k =>
      pteValid (getEntry mem l2 k) && pteIsTable (getEntry mem l2 k)).map
    (fun k => pteNextTable (getEntry mem l2 k)) ++ [l2]

def l1TablePages (mem : Memory) (l1 : Nat) : List Nat :=
  ((List.range 512).filter fun j =>
      pteValid (getEntry mem l1 j) && pteIsTable (getEntry mem l1 j)).flatMap
    (fun j => l2TablePages mem (pteNextTable (getEntry mem l1 j))) ++ [l1]

/-- Every table of an address space, in the order they are freed. The first level
    is not asked for bit 1. -/
def userTablePages (mem : Memory) (l0 : Nat) : List Nat :=
  ((List.range 512).filter fun i => pteValid (getEntry mem l0 i)).flatMap
    (fun i => l1TablePages mem (pteNextTable (getEntry mem l0 i))) ++ [l0]

/-- Give the tables of an address space back. The pages they map are left
    alone. -/
def mmuFreeUserTables (m : Machine σ) (l0 : Nat) : Machine σ :=
  (userTablePages m.mem l0).foldl (fun m a => freePages src m a 1) m

end Mmu

end CortexForge
