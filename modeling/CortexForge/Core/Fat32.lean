import CortexForge.Core.Memory
import CortexForge.Lib.ByteMem

/-!
# The FAT32 File System

Lookup, reading and creation of files on a FAT32 volume, from `fs/fat32/fat32.c` and
`fs/fat32/fat32.h`.

The disk is a function of the sector and the offset in it, and all sectors pass
through one buffer, `secBuf`. Every request to the block device takes the next reply
of a given sequence. A request that fails leaves the buffer in any state, and a write
that fails may or may not have reached the disk. Numbers are 32 bits wide in the
source; sums and products wrap here where they do there. `value & 0x0FFFFFFF` is the
remainder `value % 2 ^ 28`.

Loops over the sectors of a cluster and the slots of a sector count down. Loops over
the clusters of a chain and over the entries of the table are bounded by a counter,
and `none` is a loop that is not over by then. A path is the bytes before its
terminator; loops over its components are bounded by its length. Messages are left
out.

## Main definitions

* `Volume`, `Fat32`, `Reply`: The geometry, the disk with its buffer, and the device.
* `fatNext`, `fatWrite`, `fatAllocCluster`: The allocation table.
* `to83`, `dirLookup`, `dirAddEntry`: Directories.
* `clusterWriteData`: The data of a file.
* `fat32Mount`, `fat32Find`, `fat32Create`, `fat32Read`: The calls.
-/

namespace CortexForge

/-- The contents of a disk, by sector and offset. -/
abbrev Disk := Nat → Nat → Byte

/-- What the device makes of a request. If it fails, `stored` says whether a sector to
    be written was, and `buf` is what is in the buffer then. -/
inductive Reply where
  | done
  | failed (stored : Bool) (buf : Memory)

/-- A device, by what it makes of each request. -/
abbrev Device := Nat → Reply

/-- The disk, the sector buffer, and the number of requests so far. -/
structure Fat32 where
  disk : Disk
  secBuf : Memory
  requests : Nat

/-- The geometry of a mounted volume. -/
structure Volume where
  fatStartSector : Nat
  dataStartSector : Nat
  sectorsPerCluster : Nat
  rootCluster : Nat
  bytesPerCluster : Nat
deriving DecidableEq, Repr

/-- A string, without its terminator. -/
structure CString where
  bytes : List Byte
  terminated : 0#8 ∉ bytes

namespace Fat32

def sectorSize : Nat := 512

def dirEntrySize : Nat := 32

/-- The directory entries in a sector. -/
def slotsPerSector : Nat := 16

def attrLfn : Byte := 0x0F#8

def attrVolumeId : Byte := 0x08#8

def attrDirectory : Byte := 0x10#8

def attrArchive : Byte := 0x20#8

/-- Every cluster number from here on is the end of a chain. -/
def fat32Eoc : Nat := 0x0FFFFFF8

/-- The mark of a deleted entry. -/
def deleted : Byte := 0xE5#8

def slash : Byte := 0x2F#8

def dot : Byte := 0x2E#8

def space : Byte := 0x20#8

section

variable (dev : Device)

def blkRead (s : Fat32) (sector : Nat) : Fat32 × Bool :=
  match dev s.requests with
  | .done => ({ s with secBuf := s.disk sector, requests := s.requests + 1 }, true)
  -- A read that fails may have filled a part of the buffer.
  | .failed _ buf => ({ s with secBuf := buf, requests := s.requests + 1 }, false)

def blkWrite (s : Fat32) (sector : Nat) : Fat32 × Bool :=
  let written := Function.update s.disk sector s.secBuf
  match dev s.requests with
  | .done => ({ s with disk := written, requests := s.requests + 1 }, true)
  | .failed stored buf =>
      ({ disk := if stored then written else s.disk
         secBuf := buf
         requests := s.requests + 1 }, false)

end

section

variable (v : Volume) (dev : Device)

def clusterToSector (cluster : Nat) : Nat :=
  wrap32 (v.dataStartSector + wrap32 (sub32 cluster 2 * v.sectorsPerCluster))

/-- The sector of the table that has the entry of a cluster. -/
def fatSector (cluster : Nat) : Nat :=
  wrap32 (v.fatStartSector + wrap32 (cluster * 4) / sectorSize)

def fatOffset (cluster : Nat) : Nat := wrap32 (cluster * 4) % sectorSize

/-- The cluster after one in its chain. A table that cannot be read ends the chain. -/
def fatNext (s : Fat32) (cluster : Nat) : Fat32 × Nat :=
  let r := blkRead dev s (fatSector v cluster)
  if r.2 = false then (r.1, fat32Eoc)
  else (r.1, loadN r.1.secBuf (fatOffset cluster) 4 % 2 ^ 28)

/-- An entry with a new value. Its upper four bits stay. -/
def mergeEntry (existing value : Nat) : Nat := existing / 2 ^ 28 * 2 ^ 28 + value % 2 ^ 28

def fatWrite (s : Fat32) (cluster value : Nat) : Fat32 × Bool :=
  let sector := fatSector v cluster
  let offset := fatOffset cluster
  let r := blkRead dev s sector
  if r.2 = false then (r.1, false)
  else
    let value := mergeEntry (loadN r.1.secBuf offset 4) value
    blkWrite dev { r.1 with secBuf := storeN r.1.secBuf offset 4 value } sector

/-- The first free cluster from `c` on, marked as the end of a chain; 0 if there is
    none. -/
def fatAllocFrom : Nat → Fat32 → Nat → Option (Fat32 × Nat)
  | 0, _, _ => none
  | fuel + 1, s, c =>
      -- The search ends where the data starts, behind the last copy of the table.
      if fatSector v c ≥ v.dataStartSector then some (s, 0)
      else
        let r := blkRead dev s (fatSector v c)
        if r.2 = false then some (r.1, 0)
        else if loadN r.1.secBuf (fatOffset c) 4 % 2 ^ 28 = 0 then
          -- The write reads the sector once more.
          let w := fatWrite v dev r.1 c 0x0FFFFFFF
          if w.2 = false then some (w.1, 0) else some (w.1, c)
        else fatAllocFrom fuel r.1 (wrap32 (c + 1))

def fatAllocCluster (fuel : Nat) (s : Fat32) : Option (Fat32 × Nat) :=
  fatAllocFrom v dev fuel s 2

end

section

def upper (c : Byte) : Byte := if 0x61#8 ≤ c ∧ c ≤ 0x7A#8 then c - 32#8 else c

/-- Bytes padded with spaces to a width. -/
def padTo (width : Nat) (bytes : List Byte) : List Byte :=
  bytes ++ List.replicate (width - bytes.length) space

/-- A name in the form it has in a directory: eight bytes and three, in capitals. What
    comes before the first dot is cut to eight bytes and what comes after it to
    three. -/
def to83 (name : List Byte) : List Byte :=
  let base := (name.takeWhile (· ≠ dot)).take 8
  -- Without a dot nothing is left for the extension. It may contain dots.
  let ext := ((name.dropWhile (· ≠ dot)).drop 1).take 3
  padTo 8 (base.map upper) ++ padTo 3 (ext.map upper)

/-- The name that a component of a path stands for. Components are cut to twelve
    bytes. -/
def target (component : List Byte) : List Byte := to83 (component.take 12)

end

section

/-- What a lookup returns. -/
structure Found where
  cluster : Nat
  size : Nat
  attr : Byte
deriving DecidableEq, Repr

/-- The outcome of a loop over slots or sectors: what was looked for, the end, or that
    the loop is over without either. -/
inductive Scan (α : Type) where
  | hit (a : α)
  | stop
  | more
deriving DecidableEq, Repr

def slotName (buf : Memory) (off : Nat) : List Byte :=
  (List.range 11).map fun i => buf (off + i)

def slotAttr (buf : Memory) (off : Nat) : Byte := buf (off + 11)

def slotCluster (buf : Memory) (off : Nat) : Nat :=
  loadN buf (off + 20) 2 * 2 ^ 16 + loadN buf (off + 26) 2

def slotSize (buf : Memory) (off : Nat) : Nat := loadN buf (off + 28) 4

/-- Look for a name among slots of the buffer, from `off` on. -/
def scanSlots (name : List Byte) (buf : Memory) : Nat → Nat → Scan Found
  | 0, _ => .more
  | k + 1, off =>
      -- A slot that was never used ends the directory. Deleted entries, long names and volume
      -- labels are passed over.
      if buf off = 0#8 then .stop
      else if buf off = deleted then scanSlots name buf k (off + dirEntrySize)
      else if slotAttr buf off = attrLfn then scanSlots name buf k (off + dirEntrySize)
      else if slotAttr buf off &&& attrVolumeId ≠ 0#8 then
        scanSlots name buf k (off + dirEntrySize)
      else if slotName buf off = name then
        .hit ⟨slotCluster buf off, slotSize buf off, slotAttr buf off⟩
      else scanSlots name buf k (off + dirEntrySize)

/-- The first free slot of the buffer from `off` on. -/
def scanFree (buf : Memory) : Nat → Nat → Option Nat
  | 0, _ => none
  | k + 1, off =>
      if buf off = 0#8 ∨ buf off = deleted then some off else scanFree buf k (off + dirEntrySize)

variable (v : Volume) (dev : Device)

def lookupSectors (name : List Byte) : Nat → Fat32 → Nat → Fat32 × Scan Found
  | 0, s, _ => (s, .more)
  | k + 1, s, sector =>
      let r := blkRead dev s sector
      -- A failed read looks like the end of the directory.
      if r.2 = false then (r.1, .stop)
      else
        match scanSlots name r.1.secBuf slotsPerSector 0 with
        | .more => lookupSectors name k r.1 (wrap32 (sector + 1))
        | found => (r.1, found)

/-- Look for a name in the directory that starts at a cluster. -/
def dirLookup (name : List Byte) : Nat → Fat32 → Nat → Option (Fat32 × Option Found)
  | 0, _, _ => none
  | fuel + 1, s, cluster =>
      if cluster < fat32Eoc then
        let r := lookupSectors dev name v.sectorsPerCluster s (clusterToSector v cluster)
        match r.2 with
        | .hit f => some (r.1, some f)
        -- No slot of the cluster was the end, so the directory goes on.
        | .stop => some (r.1, none)
        | .more =>
            let n := fatNext v dev r.1 cluster
            dirLookup name fuel n.1 n.2
      else some (s, none)

def addSectors (entry : Memory) : Nat → Fat32 → Nat → Fat32 × Scan Unit
  | 0, s, _ => (s, .more)
  | k + 1, s, sector =>
      let r := blkRead dev s sector
      if r.2 = false then (r.1, .stop)
      else
        match scanFree r.1.secBuf slotsPerSector 0 with
        | some off =>
            let w := blkWrite dev { r.1 with secBuf := memcpy r.1.secBuf off entry 0 dirEntrySize }
              sector
            (w.1, if w.2 = false then .stop else .hit ())
        | none => addSectors entry k r.1 (wrap32 (sector + 1))

/-- Put an entry into the first free slot of the directory that starts at a cluster. -/
def dirAddEntry (entry : Memory) : Nat → Fat32 → Nat → Option (Fat32 × Bool)
  | 0, _, _ => none
  | fuel + 1, s, cluster =>
      if cluster < fat32Eoc then
        let r := addSectors dev entry v.sectorsPerCluster s (clusterToSector v cluster)
        match r.2 with
        | .hit _ => some (r.1, true)
        | .stop => some (r.1, false)
        -- A full directory is not given another cluster.
        | .more =>
            let n := fatNext v dev r.1 cluster
            dirAddEntry entry fuel n.1 n.2
      else some (s, false)

/-- The entry of a new file. -/
def dirEntry (name : List Byte) (cluster size : Nat) : Memory :=
  -- Times and dates stay 0.
  let named := fun i => if i < 11 then name.getD i 0#8 else if i = 11 then attrArchive else 0#8
  storeN (storeN (storeN named 20 2 (cluster / 2 ^ 16)) 26 2 (cluster % 2 ^ 16)) 28 4 size

end

section

variable (v : Volume) (dev : Device) (data : Memory)

/-- How much of the remaining bytes goes into the next sector. -/
def chunkOf (remaining : Nat) : Nat := if remaining < sectorSize then remaining else sectorSize

/-- The buffer with the next sector of the data. A sector that is not full ends with
    zeros. -/
def dataBuf (buf : Memory) (pos remaining : Nat) : Memory :=
  if remaining < sectorSize then memcpy (memset buf 0 0#8 sectorSize) 0 data pos remaining
  else memcpy buf 0 data pos sectorSize

/-- Write sectors of a cluster from `pos` in the data on, as long as there is data. -/
def writeSectors : Nat → Fat32 → Nat → Nat → Nat → Fat32 × Option (Nat × Nat)
  | 0, s, _, pos, remaining => (s, some (pos, remaining))
  | k + 1, s, sector, pos, remaining =>
      if remaining = 0 then (s, some (pos, remaining))
      else
        let w := blkWrite dev { s with secBuf := dataBuf data s.secBuf pos remaining } sector
        if w.2 = false then (w.1, none)
        else
          let chunk := chunkOf remaining
          writeSectors k w.1 (wrap32 (sector + 1)) (pos + chunk) (remaining - chunk)

/-- Write data to a chain of clusters. -/
def clusterWriteData : Nat → Fat32 → Nat → Nat → Nat → Option (Fat32 × Bool)
  | 0, _, _, _, _ => none
  | fuel + 1, s, cluster, pos, remaining =>
      if remaining > 0 ∧ cluster < fat32Eoc then
        let w := writeSectors dev data v.sectorsPerCluster s (clusterToSector v cluster) pos
          remaining
        match w.2 with
        | none => some (w.1, false)
        | some rest =>
            -- The table is asked for the next cluster even if no data is left.
            let n := fatNext v dev w.1 cluster
            clusterWriteData fuel n.1 n.2 rest.1 rest.2
      else some (s, true)

/-- Read sectors of a cluster behind what was read so far. -/
def readSectors : Nat → Fat32 → Nat → List Byte → Nat → Fat32 × Bool × List Byte × Nat
  | 0, s, _, out, remaining => (s, true, out, remaining)
  | k + 1, s, sector, out, remaining =>
      if remaining = 0 then (s, true, out, remaining)
      else
        let r := blkRead dev s sector
        if r.2 = false then (r.1, false, out, remaining)
        else
          let chunk := chunkOf remaining
          readSectors k r.1 (wrap32 (sector + 1)) (out ++ (List.range chunk).map r.1.secBuf)
            (remaining - chunk)

/-- Read a chain of clusters; whether all reads were done, what was read, and how much
    was not. -/
def readChain : Nat → Fat32 → Nat → List Byte → Nat → Option (Fat32 × Bool × List Byte × Nat)
  | 0, _, _, _, _ => none
  | fuel + 1, s, cluster, out, remaining =>
      if remaining > 0 ∧ cluster < fat32Eoc then
        let r := readSectors dev v.sectorsPerCluster s (clusterToSector v cluster) out remaining
        if r.2.1 = false then some r
        else
          let n := fatNext v dev r.1 cluster
          readChain fuel n.1 n.2 r.2.2.1 r.2.2.2
      else some (s, true, out, remaining)

/-- An unsigned number as the `int` that is returned. -/
def intResult (n : Nat) : Int := (BitVec.ofNat 32 n).toInt

/-- Read a file into a buffer; the bytes in the buffer and what is returned. -/
def fat32Read (fuel : Nat) (s : Fat32) (firstCluster size bufLen : Nat) :
    Option (Fat32 × List Byte × Int) :=
  let size := if size > bufLen then bufLen else size
  (readChain v dev fuel s firstCluster [] size).map fun r =>
    -- What was read before a failure is in the buffer, but the call returns -1.
    (r.1, r.2.2.1, if r.2.1 = false then -1 else intResult (size - r.2.2.2))

end

section

variable (dev : Device)

/-- Mount the volume whose boot sector is sector 0. -/
def fat32Mount (s : Fat32) : Fat32 × Option Volume :=
  let r := blkRead dev s 0
  if r.2 = false then (r.1, none)
  else
    let b := r.1.secBuf
    if loadN b 11 2 ≠ sectorSize then (r.1, none)
    -- A FAT12 or FAT16 volume has its root directory and its table size there.
    else if loadN b 22 2 ≠ 0 ∨ loadN b 17 2 ≠ 0 then (r.1, none)
    else
      (r.1, some
        { sectorsPerCluster := loadN b 13 1
          fatStartSector := loadN b 14 2
          -- The number of copies times the size of one, as a product of 32 bits.
          dataStartSector := wrap32 (loadN b 14 2 + wrap32 (loadN b 16 1 * loadN b 36 4))
          rootCluster := loadN b 44 4
          bytesPerCluster := loadN b 13 1 * sectorSize })

variable (v : Volume)

def skipSlashes (path : List Byte) : List Byte := path.dropWhile (· = slash)

/-- The first component of a path, and what comes after it and its slashes. -/
def firstComponent (path : List Byte) : List Byte := path.takeWhile (· ≠ slash)

def otherComponents (path : List Byte) : List Byte := skipSlashes (path.dropWhile (· ≠ slash))

/-- Follow a path from a directory on. -/
def findFrom (fuel : Nat) : Nat → Fat32 → Nat → List Byte → Option (Fat32 × Option Found)
  | 0, s, _, _ => some (s, none)
  | n + 1, s, curCluster, path =>
      if path = [] then some (s, none)
      else
        (dirLookup v dev (target (firstComponent path)) fuel s curCluster).bind fun r =>
          match r.2 with
          | none => some (r.1, none)
          | some f =>
              -- There are more components, so this one has to be a directory.
              if otherComponents path ≠ [] then
                if f.attr &&& attrDirectory = 0#8 then some (r.1, none)
                else findFrom fuel n r.1 f.cluster (otherComponents path)
              else some (r.1, some f)

/-- The file or directory that a path names. -/
def fat32Find (fuel : Nat) (s : Fat32) (path : CString) : Option (Fat32 × Option Found) :=
  findFrom dev v fuel path.bytes.length s v.rootCluster (skipSlashes path.bytes)

/-- A path cut at its last slash. -/
def splitLast : List Byte → Option (List Byte × List Byte)
  | [] => none
  | c :: cs =>
      match splitLast cs with
      -- A later slash is the last one.
      | some (parent, name) => some (c :: parent, name)
      | none => if c = slash then some ([], cs) else none

/-- The directory that a path of directories leads to. -/
def walkFrom (fuel : Nat) : Nat → Fat32 → Nat → List Byte → Option (Fat32 × Option Nat)
  | 0, s, dirCluster, _ => some (s, some dirCluster)
  | n + 1, s, dirCluster, walk =>
      if walk = [] then some (s, some dirCluster)
      else
        (dirLookup v dev (target (firstComponent walk)) fuel s dirCluster).bind fun r =>
          match r.2 with
          | none => some (r.1, none)
          | some f =>
              -- Every component in front of the last slash has to be a directory.
              if f.attr &&& attrDirectory = 0#8 then some (r.1, none)
              else walkFrom fuel n r.1 f.cluster (otherComponents walk)

/-- The path of the parent directory, and the name in it. -/
def splitPath (path : CString) : List Byte × List Byte :=
  (splitLast (skipSlashes path.bytes)).getD ([], skipSlashes path.bytes)

/-- Allocate `n` more clusters, each chained to the one before. `i` are allocated, from
    `first` to `prev`. -/
def allocChain (fuel : Nat) : Nat → Nat → Fat32 → Nat → Nat → Option (Fat32 × Option Nat)
  | _, 0, s, first, _ => some (s, some first)
  | i, n + 1, s, first, prev =>
      (fatAllocCluster v dev fuel s).bind fun r =>
        -- The clusters taken so far are not given back.
        if r.2 = 0 then some (r.1, none)
        else
          let first := if i = 0 then r.2 else first
          -- The new cluster is marked as the end already, so the chain is never open.
          if prev ≠ 0 then
            let w := fatWrite v dev r.1 prev r.2
            if w.2 = false then some (w.1, none)
            else allocChain fuel (i + 1) n w.1 first r.2
          else allocChain fuel (i + 1) n r.1 first r.2

def clustersNeeded (len : Nat) : Nat :=
  if len = 0 then 0 else sub32 (wrap32 (len + v.bytesPerCluster)) 1 / v.bytesPerCluster

/-- Allocate and write the data of a new file; its first cluster, or 0. -/
def storeData (fuel : Nat) (s : Fat32) (data : Memory) (len : Nat) : Option (Fat32 × Option Nat) :=
  (allocChain dev v fuel 0 (clustersNeeded v len) s 0 0).bind fun r =>
    match r.2 with
    | none => some (r.1, none)
    | some first =>
        -- An empty file has no cluster.
        if len > 0 ∧ first ≠ 0 then
          (clusterWriteData v dev data fuel r.1 first 0 len).map fun w =>
            (w.1, if w.2 = false then none else some first)
        else some (r.1, some first)

/-- Create a file. -/
def fat32Create (fuel : Nat) (s : Fat32) (path : CString) (data : Memory) (len : Nat) :
    Option (Fat32 × Bool) :=
  let parts := splitPath path
  (walkFrom dev v fuel parts.1.length s v.rootCluster parts.1).bind fun r =>
    match r.2 with
    | none => some (r.1, false)
    | some dirCluster =>
        (storeData dev v fuel r.1 data len).bind fun w =>
          match w.2 with
          | none => some (w.1, false)
          | some first =>
              -- The directory is searched for a slot after the data is on the disk.
              dirAddEntry v dev (dirEntry (target parts.2) first len) fuel w.1 dirCluster

end

end Fat32

end CortexForge
