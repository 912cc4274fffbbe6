import CortexForge.Core.Mmu

/-!
# ELF Loader

The loader of static executables, from `syscall/elf.c` and `syscall/elf.h`. The
file is in a kernel buffer, here a function with a size, and its fields are read
where the packed structures of the header put them. Every loadable segment gets
pages of its own, which are cleared, filled from the file and mapped with the
permissions the segment asks for.

Sums of fields are taken in 64 bits, as the checks of the source take them. The
copy of the file's bytes and the address of a program header come after those
checks and cannot wrap.

A failed load gives the pages of its segments back; what it mapped stays in the
tables, which belong to the caller.

## Main definitions

* `parseFlags`: The permissions of a segment.
* `loadSegments`: The loop over the program headers.
* `elfLoad`: The loader.
-/

namespace CortexForge

/-- The pages of one loaded segment. -/
structure ElfRegion where
  phys : Nat
  pages : Nat
deriving DecidableEq, Repr

/-- What is kept of a loaded file: where it starts, and the pages to give back. -/
structure ElfImage where
  entry : Nat
  regions : List ElfRegion
deriving DecidableEq, Repr

namespace Elf

open Mmu

/-- The size of the file header. -/
def ehdrSize : Nat := 64

/-- The size of a program header. -/
def phdrSize : Nat := 56

def elfClass64 : Nat := 2

def elfData2Lsb : Nat := 1

def evCurrent : Nat := 1

/-- A static executable. -/
def etExec : Nat := 2

def emAarch64 : Nat := 0xB7

/-- A segment to load. -/
def ptLoad : Nat := 1

def maxPhnum : Nat := 32

def elfMaxRegions : Nat := 4

/-- The fields of a program header the loader reads. -/
structure Phdr where
  pType : Nat
  pFlags : Nat
  pOffset : Nat
  pVaddr : Nat
  pFilesz : Nat
  pMemsz : Nat
deriving DecidableEq, Repr

/-- Program header `i` of the table at `phoff`. -/
def readPhdr (kbuf : Memory) (phoff i : Nat) : Phdr :=
  let ph := phoff + i * phdrSize
  { pType := loadN kbuf ph 4
    pFlags := loadN kbuf (ph + 4) 4
    pOffset := loadN kbuf (ph + 8) 8
    pVaddr := loadN kbuf (ph + 16) 8
    pFilesz := loadN kbuf (ph + 32) 8
    pMemsz := loadN kbuf (ph + 40) 8 }

def eEntry (kbuf : Memory) : Nat := loadN kbuf 24 8

def ePhoff (kbuf : Memory) : Nat := loadN kbuf 32 8

def ePhnum (kbuf : Memory) : Nat := loadN kbuf 56 2

/-- The checks of the file header. -/
def headerOk (kbuf : Memory) (size : Nat) : Bool :=
  decide (ehdrSize ≤ size) &&
  -- The magic number and the rest of e_ident.
  (loadN kbuf 0 1 == 0x7F && loadN kbuf 1 1 == 0x45 && loadN kbuf 2 1 == 0x4C &&
    loadN kbuf 3 1 == 0x46) &&
  (loadN kbuf 4 1 == elfClass64 && loadN kbuf 5 1 == elfData2Lsb && loadN kbuf 6 1 == evCurrent) &&
  (loadN kbuf 16 2 == etExec && loadN kbuf 18 2 == emAarch64) &&
  -- The table of program headers.
  (loadN kbuf 54 2 == phdrSize && ePhnum kbuf != 0 && decide (ePhnum kbuf ≤ maxPhnum)) &&
  (decide (ePhoff kbuf ≤ size) &&
    decide (wrap64 (ePhoff kbuf + ePhnum kbuf * phdrSize) ≤ size))

/-- A segment flag: executable, writable or readable. -/
def pfX (pf : Nat) : Bool := pf.testBit 0

def pfW (pf : Nat) : Bool := pf.testBit 1

def pfR (pf : Nat) : Bool := pf.testBit 2

/-- The entry flags for a segment's permissions. Segments that are both writable
    and executable are refused, and so are those that cannot be read. -/
def parseFlags (pf : Nat) : Option (BitVec 64) :=
  let f := pteAttridx1 ||| ptePxn
  let f := if pfW pf = true then f ||| pteApRwEl0 else f ||| pteApRoEl0
  let f := if pfX pf = false then f ||| pteUxn else f
  if pfW pf = true ∧ pfX pf = true then none
  else if pfR pf = false then none
  else some f

/-- The checks of a segment before its permissions, with `count` segments loaded
    already. -/
def segmentOk (ph : Phdr) (size count : Nat) : Prop :=
  ¬ ph.pFilesz > ph.pMemsz ∧
  ¬ (wrap64 (ph.pOffset + ph.pFilesz) > size ∨ wrap64 (ph.pOffset + ph.pFilesz) < ph.pOffset) ∧
  ¬ (ph.pVaddr ≥ userStackTop ∨ wrap64 (ph.pVaddr + ph.pMemsz) > userStackTop ∨
      wrap64 (ph.pVaddr + ph.pMemsz) < ph.pVaddr) ∧
  ¬ count ≥ elfMaxRegions

instance (ph : Phdr) (size count : Nat) : Decidable (segmentOk ph size count) :=
  inferInstanceAs (Decidable (_ ∧ _))

/-- The first page of a segment. -/
def vaLo (ph : Phdr) : Nat := ph.pVaddr / pageSize * pageSize

/-- The end of the last page of a segment. -/
def vaHi (ph : Phdr) : Nat :=
  wrap64 (ph.pVaddr + ph.pMemsz + (pageSize - 1)) / pageSize * pageSize

def segmentPages (ph : Phdr) : Nat := sub64 (vaHi ph) (vaLo ph) / pageSize

/-- Memory with the pages of a segment filled: zeros, and the bytes of the file
    from the segment's start on. -/
def fillSegment (mem : Memory) (kbuf : Memory) (ph : Phdr) (phys : Nat) : Memory :=
  let mem := memset mem phys 0#8 (segmentPages ph * pageSize)
  if ph.pFilesz > 0 then memcpy mem (phys + (ph.pVaddr - vaLo ph)) kbuf ph.pOffset ph.pFilesz
  else mem

variable {σ : Type} (src : Pages σ)

/-- Give the pages of the regions back. -/
def freeRegions (m : Machine σ) (regions : List ElfRegion) : Machine σ :=
  regions.foldl
    (fun m r => if r.phys ≠ 0 ∧ r.pages ≠ 0 then freePages src m r.phys r.pages else m) m

/-- The loop over the program headers, with `regions` loaded already. -/
def loadSegments (kbuf : Memory) (size l0 : Nat) :
    List Phdr → Machine σ → List ElfRegion → Machine σ × Option (List ElfRegion)
  | [], m, regions => (m, some regions)
  | ph :: phs, m, regions =>
      if ph.pType ≠ ptLoad then loadSegments kbuf size l0 phs m regions
      else if ¬ segmentOk ph size regions.length then (freeRegions src m regions, none)
      else
        match parseFlags ph.pFlags with
        | none => (freeRegions src m regions, none)
        | some flags =>
            let got := allocatePages src m (segmentPages ph)
            if got.2 = 0 then (freeRegions src got.1 regions, none)
            else
              let m := { got.1 with mem := fillSegment got.1.mem kbuf ph got.2 }
              let m := mmuMapUserRange src m l0 (vaLo ph) got.2 (segmentPages ph) flags
              loadSegments kbuf size l0 phs m (regions ++ [⟨got.2, segmentPages ph⟩])

/-- The entry point lies in an executable segment. -/
def entryOk (entry : Nat) (phs : List Phdr) : Bool :=
  phs.any fun ph =>
    ph.pType == ptLoad && decide (ph.pVaddr ≤ entry) &&
      decide (entry < wrap64 (ph.pVaddr + ph.pMemsz)) && pfX ph.pFlags

/-- Load a file into the address space at `l0`. -/
def elfLoad (m : Machine σ) (kbuf : Memory) (size l0 : Nat) : Machine σ × Option ElfImage :=
  if headerOk kbuf size = false then (m, none)
  else
    let phs := (List.range (ePhnum kbuf)).map (readPhdr kbuf (ePhoff kbuf))
    match loadSegments src kbuf size l0 phs m [] with
    | (m, none) => (m, none)
    | (m, some regions) =>
        if regions = [] then (m, none)
        else if entryOk (eEntry kbuf) phs = false then (freeRegions src m regions, none)
        else (m, some ⟨eEntry kbuf, regions⟩)

end Elf

end CortexForge
