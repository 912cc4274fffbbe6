import CortexForge.Core.Devices
import CortexForge.Lib.Process

/-!
# Two Ends of a Line

Reliable delivery over `/dev/uart0` as a protocol: one end makes `uart0_write` calls,
the other one `uart0_read` calls, and frames travel between them. The calls are those
of `Core.Devices`, written as the sends and receives they make, so that the moves of the
two ends and of the line can be interleaved.

The line carries frames. What arrives is a result of `framing_recv`: the frame as it was
sent, or a frame that was damaged on the way, which is not reported as received. A frame
may be lost, and a receive may time out at any moment, since a frame may be late by any
time.

A read acknowledges a frame before it copies the payload out and returns. These are two
moves here.

## Main definitions

* `sendReliable`: The loop of `framing_send_reliable`.
* `readCall`: The call `uart0_read`.
* `System`: The two ends, the lines between them, and what has happened.
* `LinkStep`: One move of an end or of a line.
-/

namespace CortexForge.Link

open Framing Vfs

/-- A frame to be sent, and whether it has been sent before in this call. -/
structure Message where
  frame : Frame
  again : Bool

/-- What a call of `framing_recv` returns. -/
abbrev Arrival := Code × Frame

def dataFrame (seq : Byte) (payload : List Byte) : Frame :=
  { type := frameTypeData, seq := seq, len := payload.length, payload := payload }

/-- An acknowledgement, positive or negative. -/
def controlFrame (type seq : Byte) : Frame := { type := type, seq := seq, len := 0, payload := [] }

/-- Wait for the acknowledgement of a frame; anything else is a reason to try again. -/
def awaitAck (seq : Byte) (retry : Proc Message Arrival Code) : Proc Message Arrival Code :=
  .recv fun a =>
    if a.1 = .ok ∧ a.2.type = frameTypeAck ∧ a.2.seq = seq then .done .ok else retry

/-- Send a frame until it is acknowledged, with some attempts left. -/
def sendReliable (seq : Byte) (payload : List Byte) : Nat → Bool → Proc Message Arrival Code
  | 0, _ => .done .errTimeout
  | attempts + 1, again =>
      .send ⟨dataFrame seq payload, again⟩ (awaitAck seq (sendReliable seq payload attempts true))

/-- The bytes that a read with room for `count` copies out of a frame. -/
def cut (count : Nat) (f : Frame) : List Byte :=
  (List.range (if f.len > count then count % 2 ^ 16 else f.len)).map fun i => f.payload.getD i 0#8

/-- A payload that a read returned, and the frame it came in. -/
structure Received where
  count : Nat
  frame : Frame
  bytes : List Byte

/-- The call `uart0_read` with room for `count` bytes; no result stands for `-1`. -/
def readCall (count : Nat) : Proc Message Arrival (Option Received) :=
  .recv fun a =>
    match a.1 with
    | .ok =>
        if a.2.type = frameTypeData then
          .send ⟨controlFrame frameTypeAck a.2.seq, false⟩
            (.done (some { count := count, frame := a.2, bytes := cut count a.2 }))
        else .done none
    | .errCrc => .send ⟨controlFrame frameTypeNack a.2.seq, false⟩ (.done none)
    | _ => .done none

/-- The two ends and the line. A write is numbered by its sequence number. -/
structure System where
  txSeq : Byte
  /-- The write that is under way, with its payload. -/
  writer : Option (List Byte × Proc Message Arrival Code) := none
  /-- The read that is under way. -/
  reader : Option (Proc Message Arrival (Option Received)) := none
  /-- On the way to the reader. -/
  data : List Arrival := []
  /-- On the way to the writer. -/
  back : List Arrival := []
  /-- The writes so far, the one under way included. -/
  issued : List (Byte × List Byte) := []
  /-- The writes that have returned, with what `framing_send_reliable` returned. -/
  finished : List (Byte × List Byte × Code) := []
  /-- What the reads that have returned gave. -/
  reads : List (Option Received) := []

/-- A frame arrives as it was sent. -/
def post (m : Message) : Arrival := (.ok, m.frame)

/-- A receive gives up; the frame it was given is not looked at. -/
def Late (a : Arrival) : Prop := a.1 = .errTimeout

/-- A frame that was damaged, and is reported as such. -/
def Spoilt (a : Arrival) : Prop := a.1 ≠ .ok

/-- One move. A write takes at most 256 bytes of its buffer. -/
inductive LinkStep : System → System → Prop
  | beginWrite (s : System) (bytes : List Byte) (h : s.writer = none) :
      LinkStep s { s with
        writer := some (bytes.take framingMaxPayload,
          sendReliable s.txSeq (bytes.take framingMaxPayload) (framingMaxRetries + 1) false)
        issued := s.issued ++ [(s.txSeq, bytes.take framingMaxPayload)] }
  | write (s : System) (payload : List Byte) (p p' : Proc Message Arrival Code)
      (back data : List Arrival) (h : s.writer = some (payload, p))
      (hmove : Moves post Late p s.back s.data p' back data) :
      LinkStep s { s with writer := some (payload, p'), back := back, data := data }
  | endWrite (s : System) (payload : List Byte) (code : Code)
      (h : s.writer = some (payload, .done code)) :
      LinkStep s { s with
        writer := none
        txSeq := s.txSeq + 1
        finished := s.finished ++ [(s.txSeq, payload, code)] }
  | beginRead (s : System) (count : Nat) (h : s.reader = none) :
      LinkStep s { s with reader := some (readCall count) }
  | read (s : System) (p p' : Proc Message Arrival (Option Received)) (data back : List Arrival)
      (h : s.reader = some p) (hmove : Moves post Late p s.data s.back p' data back) :
      LinkStep s { s with reader := some p', data := data, back := back }
  | endRead (s : System) (r : Option Received) (h : s.reader = some (.done r)) :
      LinkStep s { s with reader := none, reads := s.reads ++ [r] }
  | fadeData (s : System) (data : List Arrival) (h : Fades Spoilt s.data data) :
      LinkStep s { s with data := data }
  | fadeBack (s : System) (back : List Arrival) (h : Fades Spoilt s.back back) :
      LinkStep s { s with back := back }

end CortexForge.Link
