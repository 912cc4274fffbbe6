import Mathlib.Logic.Function.Basic

/-!
# Split Virtqueue

The driver side of a virtio split queue, from `pci/virtio/virtqueue.c`: a
descriptor table whose free entries are threaded into a list through their own
`next` fields, an available ring the driver publishes chain heads in, and a used
ring the device reports completions in.

The tables are functions from an index, as the source reaches them through bare
pointers; nothing in the type keeps an access below the queue size, so that it
does not has to be proved. The 16-bit counters are natural numbers with their
wrap written out.

`virtqueue_free_chain` follows links read from memory that a device may have
caused to be anything, and its loop has no bound of its own. `freeChainLoop`
carries a bound and says when it was reached; `Theory.Virtqueue` shows that
`size + 1` turns are always enough.

## Main definitions

* `virtqueueSetup`: A queue as it is enabled.
* `virtqueueAllocDesc`: Popping the free list.
* `virtqueueFreeChain`: Releasing a chain.
* `virtqueueSubmit`: Publishing one buffer.
* `virtqueueSubmitChain`: Publishing a chain of buffers.
* `virtqueueGetUsed`: Reaping one completion.
-/

namespace CortexForge.Virtqueue

open Function

def virtqMaxSize : Nat := 128

/-- The end of the free list, and the result of a failed allocation. -/
def virtqNoDesc : Nat := 0xFFFF

/-- The buffer continues through the `next` field. -/
def descFNext : BitVec 16 := 1

structure VirtqDesc where
  addr : Nat
  len : Nat
  flags : BitVec 16
  next : Nat
deriving DecidableEq, Repr

/-- One segment of a chain to be submitted. -/
structure VirtqSeg where
  pa : Nat
  len : Nat
  flags : BitVec 16
deriving DecidableEq, Repr

structure VirtqAvail where
  idx : Nat
  ring : Nat → Nat

structure VirtqUsedElem where
  id : Nat
  len : Nat
deriving DecidableEq, Repr

structure VirtqUsed where
  idx : Nat
  ring : Nat → VirtqUsedElem

/-- The queue: the driver's own counters and the three shared tables. -/
structure Vq where
  size : Nat
  freeHead : Nat
  numFree : Nat
  lastUsed : Nat
  desc : Nat → VirtqDesc
  avail : VirtqAvail
  used : VirtqUsed

/-- The next value of a 16-bit counter. -/
def inc16 (n : Nat) : Nat := (n + 1) % 65536

/-- The previous value of a 16-bit counter. -/
def dec16 (n : Nat) : Nat := (n + 65535) % 65536

/-- The device reads on through `next`. -/
def hasNext (d : VirtqDesc) : Bool := (d.flags &&& descFNext) != 0

def virtqueueInitFreeList (vq : Vq) : Vq :=
  { vq with
    desc := fun i =>
      if i < vq.size then
        { vq.desc i with next := if i + 1 < vq.size then i + 1 else virtqNoDesc }
      else vq.desc i
    freeHead := if vq.size > 0 then 0 else virtqNoDesc
    numFree := vq.size }

/-- Configure a queue for a device that offers `maxSize` entries: clear the
    tables, take the smaller of the two sizes and thread the free list. A device
    that offers no entries has no such queue. -/
def virtqueueSetup (maxSize : Nat) (vq : Vq) : Option Vq :=
  if maxSize = 0 then none
  else
    let qsize := if virtqMaxSize > maxSize then maxSize else virtqMaxSize
    some (virtqueueInitFreeList
      { vq with
        size := qsize
        lastUsed := 0
        desc := fun i =>
          if i < qsize then { addr := 0, len := 0, flags := 0, next := 0 } else vq.desc i
        avail := { idx := 0, ring := fun _ => 0 }
        used := { idx := 0, ring := fun _ => { id := 0, len := 0 } } })

/-- Pop one descriptor off the free list, or `virtqNoDesc` when it is empty. -/
def virtqueueAllocDesc (vq : Vq) : Vq × Nat :=
  if vq.freeHead = virtqNoDesc then (vq, virtqNoDesc)
  else
    ({ vq with freeHead := (vq.desc vq.freeHead).next, numFree := dec16 vq.numFree },
      vq.freeHead)

/-- Clear one descriptor and push it onto the free list. -/
def pushFree (vq : Vq) (idx : Nat) : Vq :=
  { vq with
    desc := update vq.desc idx { addr := 0, len := 0, flags := 0, next := vq.freeHead }
    freeHead := idx
    numFree := inc16 vq.numFree }

/-- The walk of `virtqueue_free_chain`, or `none` when it is not over after
    `fuel` turns. -/
def freeChainLoop : Nat → Vq → Nat → Option Vq
  | 0, _, _ => none
  | fuel + 1, vq, idx =>
      -- A link out of range stops the walk and leaks the rest of the chain.
      if idx ≥ vq.size then some vq
      else
        let d := vq.desc idx
        if hasNext d then freeChainLoop fuel (pushFree vq idx) d.next
        else some (pushFree vq idx)

/-- Release a descriptor chain, from its head through every link. -/
def virtqueueFreeChain (vq : Vq) (head : Nat) : Vq :=
  (freeChainLoop (vq.size + 1) vq head).getD vq

/-- Publish a chain head in the available ring. -/
def publish (vq : Vq) (head : Nat) : Vq :=
  { vq with
    avail :=
      { idx := inc16 vq.avail.idx
        ring := update vq.avail.ring (vq.avail.idx % vq.size) head } }

/-- Submit one buffer; the result is its descriptor, or `virtqNoDesc` when the
    queue is full. -/
def virtqueueSubmit (vq : Vq) (bufPa len : Nat) (flags : BitVec 16) : Vq × Nat :=
  let a := virtqueueAllocDesc vq
  if a.2 = virtqNoDesc then (a.1, virtqNoDesc)
  else
    (publish { a.1 with
      desc := update a.1.desc a.2
        { addr := bufPa, len := len, flags := flags &&& ~~~descFNext, next := 0 } } a.2, a.2)

/-- The allocation loop of a chain submission. -/
def allocLoop : Nat → Vq → Vq × List Nat
  | 0, vq => (vq, [])
  | n + 1, vq =>
      let a := virtqueueAllocDesc vq
      let rest := allocLoop n a.1
      (rest.1, a.2 :: rest.2)

/-- The loop that fills the allocated descriptors in: every segment but the
    last is linked to the one after it. -/
def fillLoop : List Nat → List VirtqSeg → (Nat → VirtqDesc) → Nat → VirtqDesc
  | [i], [s], desc =>
      update desc i { addr := s.pa, len := s.len, flags := s.flags, next := 0 }
  | i :: j :: is, s :: ss, desc =>
      fillLoop (j :: is) ss (update desc i
        { addr := s.pa, len := s.len, flags := s.flags ||| descFNext, next := j })
  | _, _, desc => desc

/-- Submit a chain of buffers; only its head is published. Without enough free
    descriptors nothing is allocated. -/
def virtqueueSubmitChain (vq : Vq) (segs : List VirtqSeg) : Vq × Nat :=
  if segs.length = 0 ∨ segs.length > vq.numFree then (vq, virtqNoDesc)
  else
    let a := allocLoop segs.length vq
    let head := a.2.headD 0
    (publish { a.1 with desc := fillLoop a.2 segs a.1.desc } head, head)

/-- Reap one completion: its id and the byte count the device wrote, with the
    chain released. An id out of range is consumed and reported as nothing. -/
def virtqueueGetUsed (vq : Vq) : Vq × Option VirtqUsedElem :=
  if vq.used.idx = vq.lastUsed then (vq, none)
  else
    let elem := vq.used.ring (vq.lastUsed % vq.size)
    let vq' := { vq with lastUsed := inc16 vq.lastUsed }
    if elem.id ≥ vq.size then (vq', none)
    else (virtqueueFreeChain vq' elem.id, some elem)

end CortexForge.Virtqueue
