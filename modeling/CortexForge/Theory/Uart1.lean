import CortexForge.Core.Uart1
import CortexForge.Lib.BoundedQueue
import CortexForge.Lib.Ring

/-!
# The Receive Ring is a Bounded Queue

The ring of the second serial port against a queue of 255 bytes. One slot of the
ring stays empty, since equal indices mean that nothing is buffered. The ring is
seen through a counter that nothing in the source has: the number of bytes taken out
so far. The tail is that number modulo 256, and the head is as many bytes further as
there are in the queue.

## Main definitions

* `buffered`: The bytes in the ring.
* `Uart1Call.spec`, `runSpec`: The calls on a bounded queue.
* `RingOk`: The ring holds a queue.

## Theorems

* `rxByte_ok`, `getc_ok`: The two sides keep the ring in order.
* `call_ok`, `run_ok`: So does every call, and every sequence of calls.
* `uart1_refines_queue`: The calls return what they return on the queue.
-/

namespace CortexForge.Uart

open List BitVec

/-- The bytes in the ring, the oldest first. -/
def buffered (u : Uart1) : List Byte :=
  (range (uart1RxAvailable u).toNat).map fun i => u.ring ((u.tail.toNat + i) % 256)

/-- A call on a bounded queue: the handler offers bytes, the consumer takes one or
    asks how many there are. -/
def Uart1Call.spec (h : QueueHistory Byte 255) : Uart1Call → QueueHistory Byte 255 × List Int
  | .rxIsr burst => (burst.foldl QueueHistory.offer h, [])
  | .getcNonblock =>
      (h.take.1, [match h.take.2 with
        | some b => b.toNat
        | none => -1])
  | .rxAvailable => (h, [h.queue.items.length])

def runSpec : QueueHistory Byte 255 → List Uart1Call → QueueHistory Byte 255 × List Int
  | h, [] => (h, [])
  | h, c :: calls =>
      let rest := runSpec (c.spec h).1 calls
      (rest.1, (c.spec h).2 ++ rest.2)

/-- The ring holds the bytes `xs` after `n` bytes have been taken out. -/
structure RingOk (u : Uart1) (n : Nat) (xs : List Byte) : Prop where
  tail_eq : u.tail.toNat = n % 256
  head_eq : u.head.toNat = (n + xs.length) % 256
  holds : RingHolds u.ring 256 n xs
  room : xs.length ≤ 255

section

variable {u : Uart1} {n : Nat} {xs : List Byte} {h : QueueHistory Byte 255}

theorem next_index {i : BitVec 32} {k : Nat} (hi : i.toNat = k % 256) :
    ((i + 1) % uart1RingSz).toNat = (k + 1) % 256 := by
  rw [toNat_umod, toNat_add, hi]
  show (k % 256 + 1) % 2 ^ 32 % 256 = _
  omega

theorem available_eq (h : RingOk u n xs) : uart1RxAvailable u = xs.length := by
  have htail := h.tail_eq
  have hhead := h.head_eq
  have hroom := h.room
  unfold uart1RxAvailable
  rw [toNat_umod, toNat_sub, htail, hhead]
  show (((2 ^ 32 - n % 256 + (n + xs.length) % 256) % 2 ^ 32 % 256 : Nat) : Int) = _
  omega

/-- The bytes in the ring are those of the queue. -/
theorem buffered_eq (h : RingOk u n xs) : buffered u = xs := by
  unfold buffered
  rw [available_eq h, Int.toNat_natCast, h.tail_eq]
  refine ext_getElem (by rw [length_map, length_range]) fun i hi hi' => ?_
  rw [getElem_map, getElem_range, Nat.mod_add_mod]
  exact h.holds.2 i hi'

/-- A byte arrives. The indices meet exactly when 255 bytes are waiting. -/
theorem rxByte_ok (h : RingOk u n xs) (b : Byte) :
    RingOk (rxByte u b) n (if xs.length < 255 then xs ++ [b] else xs) := by
  have htail := h.tail_eq
  have hhead := h.head_eq
  have hroom := h.room
  have hnext := next_index hhead
  unfold rxByte
  by_cases hlt : xs.length < 255
  · have hne : (u.head + 1) % uart1RingSz ≠ u.tail := fun hc => by
      rw [hc] at hnext
      omega
    rw [if_pos hne, if_pos hlt]
    refine ⟨htail, ?_, ?_, ?_⟩
    · rw [hnext, length_append, length_singleton, Nat.add_assoc]
    · have hpush := ringHolds_push b h.holds (by omega)
      rw [← hhead] at hpush
      exact hpush
    · rw [length_append]
      exact hlt
  · have heq : (u.head + 1) % uart1RingSz = u.tail := by
      refine eq_of_toNat_eq ?_
      omega
    rw [if_neg (not_not.mpr heq), if_neg hlt]
    exact h

theorem rxIsr_ok (burst : List Byte) : ∀ (u : Uart1) (h : QueueHistory Byte 255),
    RingOk u h.returned.length h.queue.items →
    RingOk (uart1RxIsr u burst) (burst.foldl QueueHistory.offer h).returned.length
      (burst.foldl QueueHistory.offer h).queue.items := by
  induction burst with
  | nil => exact fun u h hok => hok
  | cons b burst ih =>
    intro u h hok
    refine ih (rxByte u b) (h.offer b) ?_
    have hstep := rxByte_ok hok b
    split_ifs at hstep with hlt
    · rw [← QueueHistory.offer_room hlt] at hstep
      rw [QueueHistory.offer, dif_pos hlt] at hstep ⊢
      exact hstep
    · rw [QueueHistory.offer_full (Nat.le_antisymm h.queue.length_le (Nat.not_lt.mp hlt))]
      exact hstep

/-- The ring looks empty exactly when nothing is waiting. -/
theorem tail_eq_head_iff (h : RingOk u n xs) : u.tail = u.head ↔ xs = [] := by
  have hroom := h.room
  rw [← toNat_inj, h.tail_eq, h.head_eq, ← length_eq_zero_iff]
  omega

theorem getc_ok (hok : RingOk u h.returned.length h.queue.items) :
    RingOk (uart1GetcNonblock u).1 h.take.1.returned.length h.take.1.queue.items ∧
      (uart1GetcNonblock u).2 = match h.take.2 with
        | some b => (b.toNat : Int)
        | none => -1 := by
  unfold uart1GetcNonblock
  rcases hitems : h.queue.items with _ | ⟨x, xs⟩
  · rw [if_neg (not_not.mpr ((tail_eq_head_iff hok).mpr hitems)), QueueHistory.take_empty hitems]
    exact ⟨hok, rfl⟩
  · have hne : u.tail ≠ u.head := fun hc =>
      cons_ne_nil x xs (hitems.symm.trans ((tail_eq_head_iff hok).mp hc))
    rcases QueueHistory.take_cons hitems with ⟨hqueue, hreturned, hbyte⟩
    rw [hitems] at hok
    rcases ringHolds_pop hok.holds with ⟨hfirst, hholds⟩
    have hhead := hok.head_eq
    have hroom := hok.room
    rw [length_cons] at hhead hroom
    rw [if_pos hne, hqueue, hreturned, hbyte, length_append, length_singleton]
    refine ⟨⟨next_index hok.tail_eq, ?_, hholds, Nat.le_of_succ_le hroom⟩, ?_⟩
    · rw [hhead, Nat.add_assoc, Nat.add_comm 1]
    · rw [hok.tail_eq, hfirst]

/-- Every call keeps the ring in order, and returns what it returns on the queue. -/
theorem call_ok (hok : RingOk u h.returned.length h.queue.items) (c : Uart1Call) :
    RingOk (c.run u).1 (c.spec h).1.returned.length (c.spec h).1.queue.items ∧
      (c.run u).2 = (c.spec h).2 := by
  cases c with
  | rxIsr burst => exact ⟨rxIsr_ok burst u h hok, rfl⟩
  | getcNonblock =>
    rcases getc_ok hok with ⟨hnext, hresult⟩
    exact ⟨hnext, congrArg (fun r => [r]) hresult⟩
  | rxAvailable => exact ⟨hok, congrArg (fun r => [r]) (available_eq hok)⟩

theorem run_ok (calls : List Uart1Call) : ∀ (u : Uart1) (h : QueueHistory Byte 255),
    RingOk u h.returned.length h.queue.items →
    RingOk (runUart1 u calls).1 (runSpec h calls).1.returned.length
        (runSpec h calls).1.queue.items ∧
      (runUart1 u calls).2 = (runSpec h calls).2 := by
  induction calls with
  | nil => exact fun u h hok => ⟨hok, rfl⟩
  | cons c calls ih =>
    intro u h hok
    rcases call_ok hok c with ⟨hnext, hresult⟩
    rcases ih _ _ hnext with ⟨hlast, hresults⟩
    refine ⟨hlast, ?_⟩
    rw [runUart1, runSpec, hresult, hresults]

end

/-- For any sequence of calls: the calls return what they return on a queue of 255
    bytes; both indices are below 256, the ring holds what the queue holds, and what
    it accepted is what it has given out followed by what it holds. One more byte is
    dropped only if 255 bytes are buffered. -/
theorem uart1_refines_queue (ring : Memory) (calls : List Uart1Call) :
    let u := (runUart1 (uart1Init ring) calls).1
    let h := (runSpec QueueHistory.start calls).1
    (runUart1 (uart1Init ring) calls).2 = (runSpec QueueHistory.start calls).2 ∧
    u.head.toNat < 256 ∧ u.tail.toNat < 256 ∧
    buffered u = h.queue.items ∧ h.accepted = h.returned ++ buffered u ∧
    uart1RxAvailable u = (buffered u).length ∧
    ∀ b, buffered (rxByte u b)
      = if (buffered u).length < 255 then buffered u ++ [b] else buffered u := by
  have hstart : RingOk (uart1Init ring) 0 [] :=
    ⟨rfl, rfl, ringHolds_nil ring 256 0, Nat.zero_le 255⟩
  rcases run_ok calls (uart1Init ring) QueueHistory.start hstart with ⟨hok, hresults⟩
  have hbuffered := buffered_eq hok
  refine ⟨hresults, ?_, ?_, hbuffered, ?_, ?_, fun b => ?_⟩
  · rw [hok.head_eq]
    exact Nat.mod_lt _ (by decide)
  · rw [hok.tail_eq]
    exact Nat.mod_lt _ (by decide)
  · rw [hbuffered]
    exact (runSpec QueueHistory.start calls).1.in_order
  · rw [hbuffered]
    exact available_eq hok
  · rw [hbuffered]
    exact buffered_eq (rxByte_ok hok b)

end CortexForge.Uart
