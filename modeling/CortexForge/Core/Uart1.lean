import CortexForge.Core.Memory
import Mathlib.Logic.Function.Basic

/-!
# The Second Serial Port

The receive ring of the serial port that carries frames, from `lib/uart/uart.c`. The
interrupt handler moves what the port has received into the ring, and a task takes
bytes out. Both sides hold interrupts off while they work, so a run is a sequence of
whole calls.

## Main definitions

* `Uart1`: The ring and its two indices.
* `uart1RxIsr`: The interrupt handler.
* `uart1GetcNonblock`, `uart1RxAvailable`: The consumer's side.
* `Uart1Call`: One of these calls.
-/

namespace CortexForge.Uart

def uart1RingSz : BitVec 32 := 256

/-- The ring, the index the handler writes to and the one the consumer reads from. -/
structure Uart1 where
  ring : Memory
  head : BitVec 32
  tail : BitVec 32

/-- The indices are reset. The ring keeps what it has. -/
def uart1Init (ring : Memory) : Uart1 := ⟨ring, 0, 0⟩

/-- One turn of the handler's loop. A byte is dropped when the ring is full. -/
def rxByte (u : Uart1) (b : Byte) : Uart1 :=
  let next := (u.head + 1) % uart1RingSz
  if next ≠ u.tail then
    { u with ring := Function.update u.ring u.head.toNat b, head := next }
  else u

/-- The handler drains the port, which has received `burst`. -/
def uart1RxIsr (u : Uart1) (burst : List Byte) : Uart1 := burst.foldl rxByte u

/-- The oldest byte, or -1. -/
def uart1GetcNonblock (u : Uart1) : Uart1 × Int :=
  if u.tail ≠ u.head then
    ({ u with tail := (u.tail + 1) % uart1RingSz }, (u.ring u.tail.toNat).toNat)
  else (u, -1)

/-- The number of bytes in the ring. The difference wraps at 32 bits. -/
def uart1RxAvailable (u : Uart1) : Int := ((u.head - u.tail) % uart1RingSz).toNat

inductive Uart1Call where
  | rxIsr (burst : List Byte)
  | getcNonblock
  | rxAvailable
deriving DecidableEq, Repr

/-- One call, with what it returns. The handler returns nothing. -/
def Uart1Call.run (u : Uart1) : Uart1Call → Uart1 × List Int
  | .rxIsr burst => (uart1RxIsr u burst, [])
  | .getcNonblock => ((uart1GetcNonblock u).1, [(uart1GetcNonblock u).2])
  | .rxAvailable => (u, [uart1RxAvailable u])

/-- A sequence of calls, with what they return. -/
def runUart1 : Uart1 → List Uart1Call → Uart1 × List Int
  | u, [] => (u, [])
  | u, c :: calls =>
      let rest := runUart1 (c.run u).1 calls
      (rest.1, (c.run u).2 ++ rest.2)

end CortexForge.Uart
