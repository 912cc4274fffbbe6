import CortexForge.Core.Blk
import CortexForge.Lib.Traced

/-!
# Transfers to the Block Device

Reading and writing sectors, from `pci/virtio/blk/blk.c`: a transfer is cut into
requests that fit the device, and a request that times out is made again after a
reset. The chain of a request is the one of `Core.Blk`; how its completion is waited
for is modelled there, and is an outcome here.

What a transfer does to the buffer of its caller is logged. The driver itself never
touches the buffer: it gives the device its address.

## Main definitions

* `UserAccess`: What is touched through a pointer of the caller.
* `BlkDev`: The driver's record of the device.
* `BlkHardware`: What the device answers.
* `blkSubmitOnce`, `blkSubmitRetry`, `blkRw`, `blkRead`, `blkWrite`: A request, the
  same with retries, and a transfer.
-/

namespace CortexForge

/-- What is touched through a pointer that the caller of the kernel gave. -/
inductive UserAccess where
  /-- The kernel loads bytes from an address on. -/
  | load (addr len : Nat)
  /-- The kernel stores bytes from an address on. -/
  | store (addr len : Nat)
  /-- The block device is given the buffer at an address as these segments. -/
  | dma (buf : Nat) (segs : List Virtqueue.VirtqSeg)
deriving DecidableEq, Repr

/-- Code of the kernel that logs what it touches in this way. -/
abbrev Logged : Type → Type := Traced UserAccess

namespace Blk

open Virtqueue Traced

/-- What a transfer returns. -/
inductive BlkResult where
  | success
  | timedOut
  | io
  | range
  | roFs
  | noSpc
  | noDev
  | inval
deriving DecidableEq, Repr

/-- The limits a device states, before the driver clamps them. -/
structure BlkConfig where
  capacitySectors : BitVec 64
  sizeMax : BitVec 32
  segMax : BitVec 32
  readOnly : Bool
  vq : Vq

/-- The driver's record of the device. The limits are clamped whenever they are read,
    and a number of retries is never 0. -/
structure BlkDev extends VirtioBlk where
  initialized : Bool
  readOnly : Bool
  capacitySectors : Nat
  segMax : Nat
  retries : Nat
  vq : Vq
  sizeMax_ge : initialized = true → virtioBlkSectorSize ≤ sizeMax
  sizeMax_lt : sizeMax < 2 ^ 32
  segMax_ge : initialized = true → 3 ≤ segMax
  retries_pos : initialized = true → 0 < retries

/-- What the device does: the handshake of a reset, and the end of a request. -/
structure BlkHardware (R : Type) where
  /-- The handshake; `none` is a device that fails it. -/
  bringup : R → R × Option BlkConfig
  /-- The wait for a request: the queue and the counter of completions afterwards,
      whether there was a completion, and the status byte. -/
  wait : R → Vq → BitVec 32 → R × Vq × BitVec 32 × Bool × Byte
  /-- The addresses of the request header and of the status byte. -/
  hdr : Nat
  status : Nat

variable {R : Type} (hw : BlkHardware R)

/-- The data segments of a request, between its header and its status byte. -/
def blkDataSegs (dev : BlkDev) (r : BlkReq) : List VirtqSeg :=
  ((blkSegs dev.toVirtioBlk r).drop 1).dropLast

/-- One request. The data is on the virtqueue once the chain has been submitted. -/
def blkSubmitOnce (rest : R) (dev : BlkDev) (r : BlkReq) :
    Logged (R × BlkDev × BlkResult) := do
  let a := virtqueueSubmitChain dev.vq (blkSegs dev.toVirtioBlk r)
  if a.2 = virtqNoDesc then pure (rest, { dev with vq := a.1 }, .noSpc)
  else do
    access (.dma r.buf (blkDataSegs dev r))
    let (rest, vq, completions, completed, status) := hw.wait rest a.1 dev.completions
    let dev := { dev with vq := vq, completions := completions }
    pure (rest, dev,
      if completed = false then .timedOut else if status ≠ virtioBlkSOk then .io else .success)

/-- The handshake once more, with a new queue. -/
def blkResetDevice (rest : R) (dev : BlkDev) : R × BlkDev × Bool :=
  match hw.bringup rest with
  | (rest, none) =>
      (rest, { dev with
        initialized := false
        sizeMax_ge := Bool.noConfusion
        segMax_ge := Bool.noConfusion
        retries_pos := Bool.noConfusion }, false)
  | (rest, some c) =>
      (rest,
        { mode := dev.mode
          completions := 0
          timeoutSpins := dev.timeoutSpins
          statIrqs := dev.statIrqs
          -- A request is made on a device that is initialized, and so is this reset.
          initialized := dev.initialized
          readOnly := c.readOnly
          capacitySectors := c.capacitySectors.toNat
          -- A segment holds a sector at least, and a request one segment of data.
          sizeMax := if c.sizeMax.toNat < virtioBlkSectorSize then virtioBlkSectorSize
            else c.sizeMax.toNat
          segMax := if c.segMax.toNat < 3 then 3 else c.segMax.toNat
          retries := dev.retries
          vq := c.vq
          sizeMax_ge := fun _ => by split <;> omega
          sizeMax_lt := by
            have := c.sizeMax.isLt
            split
            · decide
            · omega
          segMax_ge := fun _ => by split <;> omega
          retries_pos := dev.retries_pos }, true)

/-- A request with as many attempts as are left. Only a timeout is tried again. -/
def blkSubmitRetry (r : BlkReq) : Nat → R → BlkDev → Logged (R × BlkDev × BlkResult)
  | 0, rest, dev => pure (rest, dev, .timedOut)
  | attempts + 1, rest, dev => do
      let (rest, dev, rc) ← blkSubmitOnce hw rest dev r
      if rc ≠ .timedOut then pure (rest, dev, rc)
      else
        let (rest, dev, ok) := blkResetDevice hw rest dev
        if ok = false then pure (rest, dev, .noDev) else blkSubmitRetry r attempts rest dev

/-- The descriptors for data in one request. -/
def blkMaxDataSegs (dev : BlkDev) : Nat :=
  let byDev := dev.segMax - 2
  let byVq := virtqMaxSize - 2
  if byDev < byVq then byDev else byVq

/-- The sectors that one request can carry. -/
def maxSectorsPerReq (dev : BlkDev) : Nat :=
  let sectors := wrap32 (blkMaxDataSegs dev * dev.sizeMax / virtioBlkSectorSize)
  if sectors = 0 then 1 else sectors

/-- The loop over the requests of a transfer, with `done` sectors behind it. Each
    request takes one sector at least, so `count` turns are enough. -/
def blkRwLoop (type : ReqType) (buf count maxSectors : Nat) :
    Nat → Nat → R → BlkDev → Logged (R × BlkDev × BlkResult)
  | 0, _, rest, dev => pure (rest, dev, .success)
  | fuel + 1, done, rest, dev =>
      if done < count then do
        let chunk := if count - done > maxSectors then maxSectors else count - done
        let r : BlkReq :=
          { type := type
            count := chunk
            hdr := hw.hdr
            buf := wrap64 (buf + done * virtioBlkSectorSize)
            status := hw.status }
        let (rest, dev, rc) ← blkSubmitRetry hw r dev.retries rest dev
        if rc ≠ .success then pure (rest, dev, rc)
        else blkRwLoop type buf count maxSectors fuel (done + chunk) rest dev
      else pure (rest, dev, .success)

/-- A transfer of `count` sectors from `sector` on. -/
def blkRw (type : ReqType) (sector buf count : Nat) (rest : R) (dev : BlkDev) :
    Logged (R × BlkDev × BlkResult) :=
  if dev.initialized = false then pure (rest, dev, .noDev)
  else if count = 0 ∨ buf = 0 then pure (rest, dev, .inval)
  -- The sum of the two is never computed, so it cannot overflow.
  else if sector ≥ dev.capacitySectors ∨ count > dev.capacitySectors - sector then
    pure (rest, dev, .range)
  else blkRwLoop hw type buf count (maxSectorsPerReq dev) count 0 rest dev

def blkRead (sector buf count : Nat) (rest : R) (dev : BlkDev) :
    Logged (R × BlkDev × BlkResult) :=
  blkRw hw .tIn sector buf count rest dev

def blkWrite (sector buf count : Nat) (rest : R) (dev : BlkDev) :
    Logged (R × BlkDev × BlkResult) :=
  if dev.readOnly = true then pure (rest, dev, .roFs) else blkRw hw .tOut sector buf count rest dev

end Blk

end CortexForge
