import CortexForge.Core.Memory

/-!
# The Host's Framer

The receiving side of the framing protocol on the host, from `scripts/uart-client.py`.
A stream is the bytes that are still to come, and its end stands for the deadline:
`_readb` finds nothing there. Numbers are the integers of the script, without a width;
bytes are bytes, as the socket delivers them.

A tuple `('START', type)` in the place of a byte is `HostRead.start`. It ends the loop
it turns up in and makes the outer loop begin again, which runs over a counter. Each
turn uses up at least two bytes, so their number is enough of it.

## Main definitions

* `crc16CcittHost`: The checksum of the script.
* `HostFramer.logical`: One byte of a body.
* `HostFramer.recvFrame`: Receiving one frame.
-/

namespace CortexForge.HostFramer

def start : Byte := 0xAA

/-- One turn of the inner loop of the checksum. -/
def crcStep (crc : Nat) : Nat :=
  if crc &&& 0x8000 ≠ 0 then ((crc <<< 1) ^^^ 0x1021) &&& 0xFFFF else (crc <<< 1) &&& 0xFFFF

def crc16CcittHost (data : List Byte) : Nat :=
  data.foldl (fun crc b => Nat.repeat crcStep 8 (crc ^^^ (b.toNat <<< 8))) 0xFFFF

/-- What a part of the framer finds: nothing in time, a delimiter with the type of a
    new frame, or what it looks for. -/
inductive HostRead (α : Type) where
  | none
  | start (type : Byte)
  | value (a : α)
deriving DecidableEq, Repr

/-- The tests behind every byte that is read: without one the framer returns, a
    delimiter ends the loop, and a value goes on. -/
def andThen {α β : Type} (found : HostRead α × List Byte)
    (f : α → List Byte → HostRead β × List Byte) : HostRead β × List Byte :=
  match found with
  | (.none, buf) => (.none, buf)
  | (.start t, buf) => (.start t, buf)
  | (.value a, buf) => f a buf

/-- One un-stuffed byte of a body. -/
def logical : List Byte → HostRead Byte × List Byte
  | [] => (.none, [])
  | b :: buf =>
      if b = start then
        match buf with
        | [] => (.none, [])
        | n :: buf => if n = 0x00 then (.value start, buf) else (.start n, buf)
      else (.value b, buf)

/-- The loops that collect `n` bytes of a body. -/
def collect : Nat → List Byte → HostRead (List Byte) × List Byte
  | 0, buf => (.value [], buf)
  | n + 1, buf =>
      andThen (logical buf) fun x buf =>
        andThen (collect n buf) fun xs buf => (.value (x :: xs), buf)

/-- The result of the framer: type, sequence number, payload and whether the checksum
    is right. -/
structure HostFrame where
  type : Byte
  seq : Byte
  payload : List Byte
  crcOk : Bool
deriving DecidableEq, Repr

/-- The search for a delimiter with a valid type behind it. -/
def sync : List Byte → Option Byte × List Byte
  | [] => (none, [])
  | b :: buf =>
      if b ≠ start then sync buf
      else
        match buf with
        | [] => (none, [])
        | t :: buf => if t = 0x01 ∨ t = 0x02 ∨ t = 0x03 then (some t, buf) else sync buf

/-- One turn of the outer loop. The length is not compared with anything. -/
def frameOnce (mtype : Byte) (buf : List Byte) : HostRead HostFrame × List Byte :=
  andThen (collect 3 buf) fun hdr buf =>
    let ln := ((hdr.getD 1 0).toNat <<< 8) ||| (hdr.getD 2 0).toNat
    andThen (collect ln buf) fun payload buf =>
      andThen (collect 2 buf) fun crcb buf =>
        let rxCrc := ((crcb.getD 0 0).toNat <<< 8) ||| (crcb.getD 1 0).toNat
        let body := mtype :: hdr.getD 0 0 :: hdr.getD 1 0 :: hdr.getD 2 0 :: payload
        (.value ⟨mtype, hdr.getD 0 0, payload, crc16CcittHost body == rxCrc⟩, buf)

/-- The outer loop. -/
def frameLoop : Nat → Byte → List Byte → Option HostFrame × List Byte
  | 0, _, buf => (none, buf)
  | fuel + 1, mtype, buf =>
      match frameOnce mtype buf with
      | (.none, buf) => (none, buf)
      | (.start t, buf) => frameLoop fuel t buf
      | (.value f, buf) => (some f, buf)

/-- Receive a frame: the result, and the bytes that are left. -/
def recvFrame (buf : List Byte) : Option HostFrame × List Byte :=
  match sync buf with
  | (none, buf) => (none, buf)
  | (some mtype, buf) => frameLoop (buf.length + 1) mtype buf

end CortexForge.HostFramer
