import CortexForge.Core.Memory
import Mathlib.Data.List.Basic

/-!
# UART Framing

The reliable framing protocol that runs over the second serial port, from
`lib/uart/framing.c`. A frame on the wire is a start delimiter followed by a
stuffed body:

    START | type | seq | len_hi | len_lo | payload | crc_hi | crc_lo

The delimiter is `0xAA`, and every `0xAA` of the body is escaped as `0xAA 0x00`
so that a bare one can only be a delimiter. The CRC is CRC-16/CCITT over the
body without the two CRC bytes themselves.

Buffers are lists: `framing_encode` writes its output front to back and returns
how far it got, so the list it has written carries the returned length too. The
decoder's linear buffer has a fixed size in the source, and its loop stops when
that buffer is full; `framingUnstuff` keeps that bound, because a decoder
without it would accept longer inputs.

## Main definitions

* `crc16Ccitt`: The checksum, bit by bit.
* `framingEncode`: Building a stuffed frame.
* `framingUnstuff`: The decoder's un-stuffing loop.
* `framingDecode`: Decoding one frame from a buffer.
-/

namespace CortexForge.Framing

/-- The frame delimiter. -/
def frameStart : Byte := 0xAA

def framingMaxPayload : Nat := 256

/-- The worst-case encoded size: the delimiter, and every other byte doubled. -/
def framingMaxEncoded : Nat := 525

/-- The size of the decoder's linear buffer: header, payload and CRC. -/
def linSize : Nat := 4 + framingMaxPayload + 2

/-- The result codes of the framing layer. -/
inductive Code where
  | ok
  | errTimeout
  | errCrc
  | errBadlen
deriving DecidableEq, Repr

/-- A decoded frame. The payload holds `len` bytes, the part of the source's
    fixed array that a decode writes. -/
structure Frame where
  type : Byte
  seq : Byte
  len : Nat
  payload : List Byte
deriving DecidableEq, Repr

/-- One bit of the CRC: shift left, and fold the polynomial in when a one
    falls out. -/
def crcBit (crc : BitVec 16) : BitVec 16 :=
  if crc.msb then (crc <<< 1) ^^^ 0x1021 else crc <<< 1

/-- The inner loop of the CRC over one byte. -/
def crcByte (crc : BitVec 16) (b : Byte) : BitVec 16 :=
  Nat.repeat crcBit 8 (crc ^^^ (b.setWidth 16 <<< 8))

def crc16Ccitt (data : List Byte) : BitVec 16 :=
  data.foldl crcByte 0xFFFF

/-- The high byte of a 16-bit value. -/
def hiByte (w : BitVec 16) : Byte := (w >>> 8).setWidth 8

/-- The low byte of a 16-bit value. -/
def loByte (w : BitVec 16) : Byte := w.setWidth 8

/-- Two bytes read back as a big-endian 16-bit value. -/
def word16 (hi lo : Byte) : BitVec 16 := (hi.setWidth 16 <<< 8) ||| lo.setWidth 16

/-- One byte on the wire: a delimiter byte is followed by a zero. -/
def stuffByte (b : Byte) : List Byte :=
  if b = frameStart then [b, 0x00] else [b]

/-- The encoder's output loop over a buffer. -/
def stuff (bs : List Byte) : List Byte := bs.flatMap stuffByte

/-- The CRC input: header and payload. -/
def frameBody (type seq : Byte) (payload : List Byte) : List Byte :=
  type :: seq :: hiByte (BitVec.ofNat 16 payload.length) ::
    loByte (BitVec.ofNat 16 payload.length) :: payload

/-- Encode a frame, or `none` (the source's `-1`) for an oversized payload. -/
def framingEncode (type seq : Byte) (payload : List Byte) : Option (List Byte) :=
  if payload.length > framingMaxPayload then none
  else
    let body := frameBody type seq payload
    let crc := crc16Ccitt body
    some (frameStart :: (stuff body ++ stuffByte (hiByte crc) ++ stuffByte (loByte crc)))

/-- The un-stuffing loop of the decoder: `none` when a delimiter is not
    followed by a zero. The loop stops early once the linear buffer is full. -/
def framingUnstuff : List Byte → List Byte → Option (List Byte)
  | [], lin => some lin
  | b :: rest, lin =>
      if lin.length < linSize then
        if b = frameStart then
          match rest with
          | [] => none
          | n :: rest' =>
              if n = 0x00 then framingUnstuff rest' (lin ++ [frameStart]) else none
        else framingUnstuff rest (lin ++ [b])
      else some lin

/-- Decode the linear buffer of a frame: the length field must account for
    every byte, and the CRC decides the result code. -/
def decodeLin (lin : List Byte) : Code × Option Frame :=
  if lin.length < 6 then (.errBadlen, none)
  else
    let plen := (word16 (lin.getD 2 0) (lin.getD 3 0)).toNat
    if plen > framingMaxPayload ∨ lin.length ≠ 4 + plen + 2 then (.errBadlen, none)
    else
      let rxCrc := word16 (lin.getD (4 + plen) 0) (lin.getD (4 + plen + 1) 0)
      let calcCrc := crc16Ccitt (lin.take (4 + plen))
      let out : Frame :=
        { type := lin.getD 0 0, seq := lin.getD 1 0, len := plen,
          payload := (lin.drop 4).take plen }
      (if calcCrc = rxCrc then .ok else .errCrc, some out)

def framingDecode : List Byte → Code × Option Frame
  | [] => (.errBadlen, none)
  | b :: rest =>
      if b = frameStart then
        match framingUnstuff rest [] with
        | none => (.errBadlen, none)
        | some lin => decodeLin lin
      else (.errBadlen, none)

end CortexForge.Framing
