import CortexForge.Core.Framing

/-!
# UART Frame Reception

The receiving side of the framing protocol, from `lib/uart/framing.c`.

The receiver polls the ring that the interrupt handler of the second serial port
fills. A `Poll` is what one look at the ring finds: a byte, or nothing, and then
the tick counter is compared with the deadline. A line is the list of polls to
come. A receiver that has used up the line is still waiting, which is the outcome
`waiting`; all other outcomes carry what is left of the line.

A delimiter inside a frame that is not followed by a zero begins a new frame, and
the source jumps back to the header. `haveType` is that label. It and the search
for a delimiter run over a counter, and each turn uses up at least one poll, so
the number of polls is enough of it.

## Main definitions

* `Poll`, `Outcome`: What the receiver sees, and how far it gets.
* `readLogical`, `syncStart`: One byte of a body, and the start of a frame.
* `framingRecv`: Receiving one frame.
* `recvCalls`: Receiving frames one after another.
-/

namespace CortexForge.Framing

def frameTypeData : Byte := 0x01

def frameTypeAck : Byte := 0x02

def frameTypeNack : Byte := 0x03

/-- The types a frame may start with. -/
def validType (t : Byte) : Bool := t == frameTypeData || t == frameTypeAck || t == frameTypeNack

/-- The counters of the framing layer, 32 bits wide. -/
structure FramingStats where
  framesSent : Nat := 0
  framesRecv : Nat := 0
  retransmits : Nat := 0
  crcErrors : Nat := 0
deriving DecidableEq, Repr

/-- One look at the ring: a byte, or none at the tick `now`. -/
inductive Poll where
  | byte (b : Byte)
  | idle (now : Nat)
deriving DecidableEq, Repr

/-- How a part of the receiver ends, with the polls that are left. -/
inductive Outcome (α : Type) where
  | waiting
  | timeout (rest : List Poll)
  | restart (type : Byte) (rest : List Poll)
  | done (value : α) (rest : List Poll)
deriving DecidableEq, Repr

/-- Go on with the value, if there is one. -/
def Outcome.andThen {α β : Type} (o : Outcome α) (f : α → List Poll → Outcome β) : Outcome β :=
  match o with
  | .waiting => .waiting
  | .timeout rest => .timeout rest
  | .restart type rest => .restart type rest
  | .done value rest => f value rest

section

variable (deadline : Nat)

/-- Wait for a byte until `deadline`. -/
def recvByte : List Poll → Outcome Byte
  | [] => .waiting
  | .byte b :: rest => .done b rest
  -- The deadline is looked at only when the ring is empty.
  | .idle now :: rest => if now ≥ deadline then .timeout rest else recvByte rest

/-- One byte of a body, with its stuffing undone. -/
def readLogical (line : List Poll) : Outcome Byte :=
  (recvByte deadline line).andThen fun b rest =>
    if b = frameStart then
      (recvByte deadline rest).andThen fun n rest =>
        -- Any other byte behind a delimiter is taken for the type of a new frame.
        if n = 0x00 then .done frameStart rest else .restart n rest
    else .done b rest

/-- Scan for a delimiter with a valid type behind it. A delimiter with anything
    else behind it is skipped together with that byte. -/
def syncStart : Nat → List Poll → Outcome Byte
  | 0, _ => .waiting
  | fuel + 1, line =>
      (recvByte deadline line).andThen fun b rest =>
        -- Noise before the delimiter is dropped byte by byte.
        if b ≠ frameStart then syncStart fuel rest
        else
          (recvByte deadline rest).andThen fun t rest =>
            if validType t then .done t rest else syncStart fuel rest

/-- The loops that read `n` bytes of a body. -/
def readMany : Nat → List Poll → Outcome (List Byte)
  | 0, line => .done [] line
  | n + 1, line =>
      (readLogical deadline line).andThen fun b rest =>
        (readMany n rest).andThen fun bs rest => .done (b :: bs) rest

/-- What follows the type of a frame: the header, the payload and the CRC. -/
def readBody (type : Byte) (line : List Poll) : Outcome (Code × Option Frame) :=
  (readMany deadline 3 line).andThen fun hdr line =>
    let seq := hdr.getD 0 0
    let len := (word16 (hdr.getD 1 0) (hdr.getD 2 0)).toNat
    -- The caller's frame is not written, and what follows stays on the line.
    if len > framingMaxPayload then .done (.errBadlen, none) line
    else
      (readMany deadline len line).andThen fun payload line =>
        (readMany deadline 2 line).andThen fun crcb line =>
          let rxCrc := word16 (crcb.getD 0 0) (crcb.getD 1 0)
          let calcCrc := crc16Ccitt (type :: seq :: hdr.getD 1 0 :: hdr.getD 2 0 :: payload)
          let out : Frame := { type := type, seq := seq, len := len, payload := payload }
          -- The frame is handed out before its CRC is compared.
          .done (if calcCrc ≠ rxCrc then .errCrc else .ok, some out) line

/-- Read a frame whose type is known, or the one that begins inside it. -/
def haveType : Nat → Byte → List Poll → Outcome (Code × Option Frame)
  | 0, _, _ => .waiting
  | fuel + 1, type, line =>
      match readBody deadline type line with
      -- The type is not checked this time.
      | .restart rt rest => haveType fuel rt rest
      | o => o

end

/-- The counters after a call that returned `code`. -/
def countRecv (stats : FramingStats) (code : Code) : FramingStats :=
  match code with
  -- The counters wrap around like the source's.
  | .ok => { stats with framesRecv := (stats.framesRecv + 1) % 2 ^ 32 }
  | .errCrc => { stats with crcErrors := (stats.crcErrors + 1) % 2 ^ 32 }
  | _ => stats

/-- Receive a frame, in a call at tick `now`: the result, the frame, the counters
    and what is left of the line. `none` is a call that still waits. -/
def framingRecv (stats : FramingStats) (now timeoutTicks : Nat) (line : List Poll) :
    Option (Code × Option Frame × FramingStats × List Poll) :=
  let deadline := wrap64 (now + timeoutTicks)
  let received := (syncStart deadline (line.length + 1) line).andThen fun type rest =>
    haveType deadline (rest.length + 1) type rest
  match received with
  | .waiting => none
  | .timeout rest => some (.errTimeout, none, stats, rest)
  | .restart _ _ => none
  | .done (code, out) rest => some (code, out, countRecv stats code, rest)

/-- Calls one after another, each at its own tick and with its own timeout. -/
def recvCalls : FramingStats → List (Nat × Nat) → List Poll →
    Option (List (Code × Option Frame) × FramingStats × List Poll)
  | stats, [], line => some ([], stats, line)
  | stats, (now, timeoutTicks) :: calls, line =>
      match framingRecv stats now timeoutTicks line with
      | none => none
      | some (code, out, stats', rest) =>
          (recvCalls stats' calls rest).map fun (received, last) => ((code, out) :: received, last)

end CortexForge.Framing
