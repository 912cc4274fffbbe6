import CortexForge.Core.Memory
import CortexForge.Core.Virtqueue

/-!
# Block Requests

One request to the virtio block device, from `pci/virtio/blk/blk.c`: the chain
`blk_submit_once` builds, the wait for its completion in either mode, and the
interrupt handler that reaps completions in interrupt mode.

The request is modelled a statement at a time. `Stage` is where the requesting
task stands in `blk_submit_once` and the `blk_wait_one` it calls, and
`blkSubmitOnceStep` runs the statement found there. The handler is cut the same
way, into its entry and one turn of its loop, since the device goes on working
while it runs. The queue is a member of the source's device record and is passed
beside it here.

## Main definitions

* `blkSegs`: The segments of a request.
* `Stage`: Where the requesting task stands.
* `blkSubmitOnceStep`: The next statement of a request.
* `blkHandleIrqEntry`, `blkHandleIrqTurn`: The interrupt handler.
-/

namespace CortexForge.Blk

open Virtqueue

def virtioBlkSectorSize : Nat := 512

/-- The device writes into the buffer. -/
def descFWrite : BitVec 16 := 2

/-- The device reads the buffer. -/
def descFNone : BitVec 16 := 0

/-- The status byte of a request that went well. -/
def virtioBlkSOk : Byte := 0

/-- The interrupt was raised for a used buffer. -/
def virtioIsrQueue : Byte := 1

def blkDefaultTimeoutSpins : Nat := 10000000

/-- Return codes of the driver. -/
inductive BlkCode where
  | success
  | timedOut
  | io
  | noSpc
deriving DecidableEq, Repr

/-- How completions are waited for. -/
inductive BlkMode where
  | poll
  | irq
deriving DecidableEq, Repr

inductive ReqType where
  | tIn
  | tOut
  | tFlush
deriving DecidableEq, Repr

/-- The fields of the device record a request uses. -/
structure VirtioBlk where
  sizeMax : Nat
  mode : BlkMode
  completions : BitVec 32
  timeoutSpins : Nat
  statIrqs : Nat
deriving DecidableEq, Repr

/-- A request: its kind, its sector count, and the kernel addresses of its
    header, its data and its status byte. -/
structure BlkReq where
  type : ReqType
  count : Nat
  hdr : Nat
  buf : Nat
  status : Nat
deriving DecidableEq, Repr

/-- The size of the request header. -/
def hdrSize : Nat := 16

/-- The loop that cuts the data into segments of at most `sizeMax` bytes. A
    segment takes at least one byte, so `remaining` turns are enough. -/
def dataSegs (sizeMax : Nat) (flags : BitVec 16) (buf : Nat) : Nat → Nat → Nat → List VirtqSeg
  | 0, _, _ => []
  | fuel + 1, offset, remaining =>
      if remaining = 0 then []
      else
        let chunk := if remaining < sizeMax then remaining else sizeMax
        { pa := virtToPhys (wrap64 (buf + offset)), len := chunk, flags := flags }
          :: dataSegs sizeMax flags buf fuel ((offset + chunk) % 2 ^ 32) (remaining - chunk)

/-- The chain of a request: the header the device reads, the data, and the
    status byte it writes. A flush has no data. -/
def blkSegs (dev : VirtioBlk) (r : BlkReq) : List VirtqSeg :=
  let remaining := r.count * virtioBlkSectorSize % 2 ^ 32
  let dataFlags := if r.type = .tIn then descFWrite else descFNone
  { pa := virtToPhys r.hdr, len := hdrSize, flags := descFNone }
    :: ((if r.type = .tFlush then []
      else dataSegs dev.sizeMax dataFlags r.buf remaining 0 remaining)
      ++ [{ pa := virtToPhys r.status, len := 1, flags := descFWrite }])

/-- Where the requesting task stands. The first two stages are statements of
    `blk_submit_once`, the next three of `blk_wait_one`; `waited` is its return
    and `done` the return of the request. -/
inductive Stage where
  | publish
  | doorbell
  | sample
  | spin (target : BitVec 32) (spins : Nat)
  | poll (spins : Nat)
  | waited (rc : BlkCode)
  | done (rc : BlkCode)
deriving DecidableEq, Repr

/-- The signed comparison of the completion counter with the target. -/
def targetReached (completions target : BitVec 32) : Bool :=
  decide ((completions - target).toInt ≥ 0)

/-- The next statement of a request, with the queue after it. -/
def blkSubmitOnceStep (dev : VirtioBlk) (r : BlkReq) (status : Byte) (vq : Vq) :
    Stage → Vq × Stage
  | .publish =>
      let a := virtqueueSubmitChain vq (blkSegs dev r)
      (a.1, if a.2 = virtqNoDesc then .done .noSpc else .doorbell)
  | .doorbell => (vq, .sample)
  | .sample =>
      (vq, if dev.mode = .irq then .spin (dev.completions + 1) 0 else .poll 0)
  | .spin target spins =>
      if spins < dev.timeoutSpins then
        (vq, if targetReached dev.completions target then .waited .success
          else .spin target (spins + 1))
      else (vq, .waited .timedOut)
  | .poll spins =>
      if spins < dev.timeoutSpins then
        let g := virtqueueGetUsed vq
        (g.1, if g.2.isSome then .waited .success else .poll (spins + 1))
      else (vq, .waited .timedOut)
  | .waited rc =>
      (vq, if rc ≠ .success then .done rc
        else if status ≠ virtioBlkSOk then .done .io else .done .success)
  | .done rc => (vq, .done rc)

/-- The entry of the interrupt handler. Reading the register clears it; the
    result says whether the used ring is to be drained. -/
def blkHandleIrqEntry (isr : Byte) (dev : VirtioBlk) : VirtioBlk × Bool :=
  ({ dev with statIrqs := wrap64 (dev.statIrqs + 1) }, (isr &&& virtioIsrQueue) != 0)

/-- One turn of the handler's loop: reap one completion and count it, or find
    none and return. The result says whether the loop goes on. -/
def blkHandleIrqTurn (vq : Vq) (dev : VirtioBlk) : Vq × VirtioBlk × Bool :=
  let g := virtqueueGetUsed vq
  if g.2.isSome then (g.1, { dev with completions := dev.completions + 1 }, true)
  else (g.1, dev, false)

end CortexForge.Blk
