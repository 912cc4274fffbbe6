import CortexForge.Core.Link
import Mathlib.Data.List.GetD
import Mathlib.Data.List.Nodup
import Mathlib.Data.List.ReduceOption

/-!
# Reliable Delivery

What a write that returns successfully says about the reads at the other end.

An acknowledgement on the line says that a read has taken the frame it names and has
nothing left to do but return it, and the frames on the line and in the hands of a read
are frames of writes. Sequence numbers are eight bits, so among fewer than 256 writes the
one that an acknowledgement names is the one that waits for it, however late it comes and
whatever else is still on the line (`Sound`).

A read acknowledges before it returns. So when a write returns, the read that took its
frame has returned it or is about to (`write_delivered`).

## Main definitions

* `Genuine`: What a read returns when it took the frame of a write.
* `acked`: The payloads of reads that have acknowledged.
* `Sound`: The invariant.

## Theorems

* `uart0Write_exec`, `uart0Read_exec`: The calls of `Core.Devices` make these moves.
* `sound_step`, `sound_run`: The invariant is kept.
* `write_delivered`: A successful write was delivered.
-/

namespace CortexForge.Link

open Framing Vfs Traced Syscall Relation List

section

variable {R : Type} (hw : Hardware R)

/-- Send a frame from a device; an attempt after the first is counted. -/
def deviceSend (w : FileWorld R) (m : Message) : FileWorld R :=
  let stats := w.kernel.framingStats
  let w := if m.again then
    { w with kernel := { w.kernel with
      framingStats := { stats with retransmits := wrap32 (stats.retransmits + 1) } } }
    else w
  sendFrame hw w m.frame.type m.frame.seq m.frame.payload

def deviceRecv (w : FileWorld R) : FileWorld R × Arrival :=
  let got := recvFrame hw w
  (got.1, got.2)

theorem sendFrame_mem (w : FileWorld R) (type seq : Byte) (payload : List Byte) :
    (sendFrame hw w type seq payload).mem = w.mem := by
  unfold sendFrame
  cases framingEncode type seq payload <;> rfl

theorem deviceSend_mem (w : FileWorld R) (m : Message) : (deviceSend hw w m).mem = w.mem := by
  rw [deviceSend, sendFrame_mem]
  cases m.again <;> rfl

/-- The sending loop makes the moves of `sendReliable`. -/
theorem framingSendReliable_exec (seq : Byte) (buf len attempts : Nat) (again : Bool)
    (w : FileWorld R) : value (framingSendReliable hw seq buf len attempts again w) =
      (sendReliable seq (bytesAt w.mem buf len) attempts again).exec (deviceSend hw)
        (deviceRecv hw) w := by
  induction attempts generalizing again w with
  | zero => rfl
  | succ attempts ih =>
    let got := recvFrame hw (deviceSend hw w ⟨dataFrame seq (bytesAt w.mem buf len), again⟩)
    have hmem : got.1.mem = w.mem := deviceSend_mem ..
    -- One attempt of the loop, with the payload read from the buffer again.
    have hloop : value (framingSendReliable hw seq buf len (attempts + 1) again w) =
        if got.2.1 = .ok ∧ got.2.2.type = frameTypeAck ∧ got.2.2.seq = seq then (got.1, .ok)
        else value (framingSendReliable hw seq buf len attempts true got.1) := by
      rw [framingSendReliable]
      cases again <;> exact apply_ite value _ _ _
    rw [hloop, ih, hmem]
    symm
    exact apply_ite (Proc.exec (deviceSend hw) (deviceRecv hw) · got.1) _ _ _

/-- The call `uart0_write` makes the moves of `sendReliable`, with the sequence number
    of the device and at most 256 bytes of the buffer. -/
theorem uart0Write_exec (buf count : Nat) (w : FileWorld R) :
    let ready := withRest w (hw.framingEnsureHw w.kernel.rest).1
    let len := if count > framingMaxPayload then framingMaxPayload else count
    let sent := (sendReliable w.kernel.uart0TxSeq (bytesAt w.mem buf len) (framingMaxRetries + 1)
      false).exec (deviceSend hw) (deviceRecv hw) ready
    value (uart0Write hw buf count w) =
      if (hw.framingEnsureHw w.kernel.rest).2 = false then (ready, -1)
      else ({ sent.1 with
          kernel := { sent.1.kernel with uart0TxSeq := sent.1.kernel.uart0TxSeq + 1 } },
        if sent.2 = .ok then BitVec.ofNat 32 len else -1) := by
  unfold uart0Write
  rw [value_ite]
  simp only [value_bind, value_pure, framingSendReliable_exec]
  rfl

theorem cut_length (count : Nat) (f : Frame) :
    (cut count f).length = if f.len > count then count % 2 ^ 16 else f.len := by
  simp [cut]

theorem memcpy_cut (mem : Memory) (dst count : Nat) (f : Frame) :
    memcpy mem dst (fun i => (cut count f).getD i 0#8) 0 (cut count f).length
      = memcpy mem dst (fun i => f.payload.getD i 0#8) 0 (cut count f).length := by
  funext x
  unfold memcpy
  split_ifs with hx
  · exact (getD_eq_getElem _ _ (by omega)).trans (by simp [cut])
  · rfl

/-- The call `uart0_read` makes the moves of `readCall`; a payload is copied to the
    buffer. -/
theorem uart0Read_exec (buf count : Nat) (w : FileWorld R) :
    let ready := withRest w (hw.framingEnsureHw w.kernel.rest).1
    let got := (readCall count).exec (deviceSend hw) (deviceRecv hw) ready
    value (uart0Read hw buf count w) =
      if (hw.framingEnsureHw w.kernel.rest).2 = false then (ready, -1)
      else match got.2 with
        | none => (got.1, -1)
        | some r => ({ got.1 with
            mem := memcpy got.1.mem buf (fun i => r.bytes.getD i 0#8) 0 r.bytes.length },
            BitVec.ofNat 32 r.bytes.length) := by
  intro ready got
  unfold uart0Read
  rw [value_ite]
  refine if_congr Iff.rfl rfl ?_
  have hgot : (readCall count).exec (deviceSend hw) (deviceRecv hw) ready = got := rfl
  clear_value got
  rw [readCall, Proc.exec, deviceRecv] at hgot
  dsimp only [ready] at hgot
  generalize recvFrame hw _ = arrival at hgot ⊢
  rcases arrival with ⟨w', code, f⟩
  cases code with
  | ok =>
    by_cases hdata : f.type = frameTypeData
    · simp only [if_pos hdata] at hgot ⊢
      cases hgot
      simp only [Proc.exec, memcpy_cut]
      rw [cut_length]
      rfl
    · simp only [if_neg hdata] at hgot ⊢
      cases hgot
      rfl
  | errTimeout | errCrc | errBadlen =>
    cases hgot
    rfl

end

/-- A read that took the frame of a write returns as much of its payload as it has room
    for. -/
def Genuine (issued : List (Byte × List Byte)) (r : Received) : Prop :=
  ∃ w ∈ issued, r.frame = dataFrame w.1 w.2 ∧ r.bytes = w.2.take r.count

/-- The payload of a read that has nothing left to do but return it. -/
def held : Option (Proc Message Arrival (Option Received)) → List Received
  | some (.done (some r)) => [r]
  | _ => []

/-- The payloads of the reads that have acknowledged. -/
def acked (s : System) : List Received := s.reads.reduceOption ++ held s.reader

/-- A read that has acknowledged a sequence number. -/
def Acked (s : System) (seq : Byte) : Prop := ∃ r ∈ acked s, r.frame.seq = seq

/-- Where the call of a write can be. `A` says that its frame has been acknowledged. -/
inductive Trying (seq : Byte) (payload : List Byte) (A : Prop) : Proc Message Arrival Code → Prop
  | sending (attempts : Nat) (again : Bool) :
      Trying seq payload A (sendReliable seq payload attempts again)
  | waiting (attempts : Nat) :
      Trying seq payload A (awaitAck seq (sendReliable seq payload attempts true))
  | acknowledged (h : A) : Trying seq payload A (.done .ok)

/-- Where the call of a read can be. -/
inductive Reading (issued : List (Byte × List Byte)) :
    Proc Message Arrival (Option Received) → Prop
  | waiting (count : Nat) : Reading issued (readCall count)
  | acking (r : Received) (hr : Genuine issued r) :
      Reading issued (.send ⟨controlFrame frameTypeAck r.frame.seq, false⟩ (.done (some r)))
  | nacking (seq : Byte) :
      Reading issued (.send ⟨controlFrame frameTypeNack seq, false⟩ (.done none))
  | refused : Reading issued (.done none)
  | holding (r : Received) (hr : Genuine issued r) : Reading issued (.done (some r))

section

variable {seq : Byte} {payload : List Byte} {issued : List (Byte × List Byte)}
  {inn out inn' out' : List Arrival}

theorem cut_dataFrame (seq : Byte) {payload : List Byte}
    (hlen : payload.length ≤ framingMaxPayload) (count : Nat) :
    cut count (dataFrame seq payload) = payload.take count := by
  have hn : (if (dataFrame seq payload).len > count then count % 2 ^ 16
      else (dataFrame seq payload).len) = min count payload.length := by
    have hfield : (dataFrame seq payload).len = payload.length := rfl
    unfold framingMaxPayload at hlen
    split_ifs with hcount
    · omega
    · omega
  unfold cut
  rw [hn]
  refine ext_getElem ?_ fun i h1 h2 => ?_
  · simp
  · rw [length_take] at h2
    have hin : i < payload.length := by omega
    rw [getElem_map, getElem_range, getElem_take]
    exact getD_eq_getElem payload 0#8 hin

/-- A move of a write: it is acknowledged only by an acknowledgement of its own sequence
    number, and it sends nothing but its own frame. -/
theorem trying_moves {A : Prop} {p p' : Proc Message Arrival Code} (h : Trying seq payload A p)
    (hmove : Moves post Late p inn out p' inn' out')
    (hinn : ∀ a ∈ inn, a.1 = .ok → a.2.type = frameTypeAck → a.2.seq = seq → A) :
    Trying seq payload A p' ∧ (∀ a ∈ inn', a ∈ inn) ∧
      (out' = out ∨ out' = out ++ [(.ok, dataFrame seq payload)]) := by
  cases h with
  | sending attempts again =>
    cases attempts with
    | zero => cases hmove
    | succ attempts =>
      cases hmove with
      | send m next inn out => exact ⟨.waiting attempts, fun _ ha => ha, .inr rfl⟩
  | waiting attempts =>
    cases hmove with
    | take next a inn out =>
      refine ⟨?_, fun b hb => mem_cons_of_mem a hb, .inl rfl⟩
      by_cases hack : a.1 = .ok ∧ a.2.type = frameTypeAck ∧ a.2.seq = seq
      · simp only [if_pos hack]
        exact .acknowledged (hinn a mem_cons_self hack.1 hack.2.1 hack.2.2)
      · simp only [if_neg hack]
        exact .sending attempts true
    | timeout next a inn out hlate =>
      refine ⟨?_, fun _ hb => hb, .inl rfl⟩
      have hnot : ¬ (a.1 = .ok ∧ a.2.type = frameTypeAck ∧ a.2.seq = seq) := fun hc => by
        have hcode : (Code.ok : Code) = .errTimeout := hc.1.symm.trans hlate
        cases hcode
      simp only [if_neg hnot]
      exact .sending attempts true
  | acknowledged hA => cases hmove

/-- A move of a read: it takes a frame of a write, or it sends an acknowledgement and has
    its payload in hand. -/
theorem reading_moves {p p' : Proc Message Arrival (Option Received)} (h : Reading issued p)
    (hmove : Moves post Late p inn out p' inn' out')
    (hshort : ∀ w ∈ issued, w.2.length ≤ framingMaxPayload)
    (hinn : ∀ a ∈ inn, a.1 = .ok → ∃ w ∈ issued, a.2 = dataFrame w.1 w.2) :
    Reading issued p' ∧ (∀ a ∈ inn', a ∈ inn) ∧ (∀ r, p ≠ .done (some r)) ∧
      (out' = out ∨ (∃ seq, out' = out ++ [(.ok, controlFrame frameTypeNack seq)]) ∨
        ∃ r, p' = .done (some r) ∧
          out' = out ++ [(.ok, controlFrame frameTypeAck r.frame.seq)]) := by
  cases h with
  | waiting count =>
    have htaken : ∀ a : Arrival, (a.1 = .ok → ∃ w ∈ issued, a.2 = dataFrame w.1 w.2) →
        ∀ next, readCall count = .recv next → Reading issued (next a) := by
      rintro ⟨code, f⟩ hgood next hnext
      cases hnext
      cases code with
      | ok =>
        rcases hgood rfl with ⟨w, hw, hf⟩
        subst hf
        exact .acking ⟨count, dataFrame w.1 w.2, cut count (dataFrame w.1 w.2)⟩
          ⟨w, hw, rfl, cut_dataFrame w.1 (hshort w hw) count⟩
      | errTimeout => exact .refused
      | errCrc => exact .nacking f.seq
      | errBadlen => exact .refused
    cases hmove with
    | take next a inn out =>
      exact ⟨htaken a (hinn a mem_cons_self) _ rfl,
        fun b hb => mem_cons_of_mem a hb, fun _ hc => (by cases hc), .inl rfl⟩
    | timeout next a inn out hlate =>
      refine ⟨htaken a (fun hc => ?_) _ rfl, fun _ hb => hb, fun _ hc => (by cases hc), .inl rfl⟩
      have hcode : (Code.ok : Code) = .errTimeout := hc.symm.trans hlate
      cases hcode
  | acking r hr =>
    cases hmove with
    | send m next inn out =>
      exact ⟨.holding r hr, fun _ ha => ha, fun _ hc => (by cases hc),
        .inr (.inr ⟨r, rfl, rfl⟩)⟩
  | nacking seq =>
    cases hmove with
    | send m next inn out =>
      exact ⟨.refused, fun _ ha => ha, fun _ hc => (by cases hc), .inr (.inl ⟨seq, rfl⟩)⟩
  | refused => cases hmove
  | holding r hr => cases hmove

end

/-- The invariant of a run that started with the sequence number `seq0`. -/
structure Sound (seq0 : Byte) (s : System) : Prop where
  numbered : s.issued.map Prod.fst
    = (range s.issued.length).map fun k => seq0 + BitVec.ofNat 8 k
  short : ∀ w ∈ s.issued, w.2.length ≤ framingMaxPayload
  idle : s.writer = none → s.txSeq = seq0 + BitVec.ofNat 8 s.issued.length
  writing : ∀ payload p, s.writer = some (payload, p) → (s.txSeq, payload) ∈ s.issued ∧
    s.txSeq + 1 = seq0 + BitVec.ofNat 8 s.issued.length ∧
    Trying s.txSeq payload (Acked s s.txSeq) p
  data : ∀ a ∈ s.data, a.1 = .ok → ∃ w ∈ s.issued, a.2 = dataFrame w.1 w.2
  back : ∀ a ∈ s.back, a.1 = .ok → a.2.type = frameTypeAck → Acked s a.2.seq
  reading : ∀ p, s.reader = some p → Reading s.issued p
  reads : ∀ r, some r ∈ s.reads → Genuine s.issued r
  finished : ∀ f ∈ s.finished, (f.1, f.2.1) ∈ s.issued ∧ (f.2.2 = .ok → Acked s f.1)

section

variable {seq0 seq : Byte} {s s' : System} {payload : List Byte}
  {issued issued' : List (Byte × List Byte)} {r : Received}
  {reader : Option (Proc Message Arrival (Option Received))} {back data : List Arrival}

theorem sound_start (seq0 : Byte) : Sound seq0 { txSeq := seq0 } where
  numbered := rfl
  short _ hw := absurd hw not_mem_nil
  idle _ := (BitVec.add_zero seq0).symm
  writing _ _ h := by cases h
  data _ ha := absurd ha not_mem_nil
  back _ ha := absurd ha not_mem_nil
  reading _ h := by cases h
  reads _ hr := absurd hr not_mem_nil
  finished _ hf := absurd hf not_mem_nil

theorem trying_mono {A B : Prop} (hab : A → B) {p : Proc Message Arrival Code}
    (h : Trying seq payload A p) : Trying seq payload B p := by
  cases h with
  | sending attempts again => exact .sending attempts again
  | waiting attempts => exact .waiting attempts
  | acknowledged hA => exact .acknowledged (hab hA)

theorem genuine_mono (hsub : ∀ w ∈ issued, w ∈ issued') (h : Genuine issued r) :
    Genuine issued' r := by
  rcases h with ⟨w, hw, hframe, hbytes⟩
  exact ⟨w, hsub w hw, hframe, hbytes⟩

theorem reading_mono (hsub : ∀ w ∈ issued, w ∈ issued') {p : Proc Message Arrival (Option Received)}
    (h : Reading issued p) : Reading issued' p := by
  cases h with
  | waiting count => exact .waiting count
  | acking r hr => exact .acking r (genuine_mono hsub hr)
  | nacking seq => exact .nacking seq
  | refused => exact .refused
  | holding r hr => exact .holding r (genuine_mono hsub hr)

theorem mem_held (hr : r ∈ held reader) : reader = some (.done (some r)) := by
  rcases reader with _ | p
  · cases hr
  rcases p with o | ⟨m, next⟩ | next
  · rcases o with _ | r'
    · cases hr
    · rw [mem_singleton.mp hr]
  · cases hr
  · cases hr

/-- What has been acknowledged is a frame of a write. -/
theorem acked_genuine (h : Sound seq0 s) (hr : r ∈ acked s) :
    Genuine s.issued r := by
  rcases mem_append.mp hr with hr | hr
  · exact h.reads r (reduceOption_mem_iff.mp hr)
  · cases h.reading _ (mem_held hr) with
    | holding _ hgenuine => exact hgenuine

/-- Fewer than 256 writes have sequence numbers of their own. -/
theorem sound_nodup (h : Sound seq0 s) (hfew : s.issued.length < 256) :
    (s.issued.map Prod.fst).Nodup := by
  rw [h.numbered]
  refine (nodup_range).map_on fun i hi j hj hij => ?_
  have hi := mem_range.mp hi
  have hj := mem_range.mp hj
  have hval := congrArg BitVec.toNat hij
  rw [BitVec.toNat_add, BitVec.toNat_add, BitVec.toNat_ofNat, BitVec.toNat_ofNat] at hval
  omega

theorem trying_done {A : Prop} (h : Trying seq payload A (.done .ok)) : A := by
  generalize hp : (Proc.done .ok : Proc Message Arrival Code) = p at h
  cases h with
  | sending attempts again =>
    cases attempts with
    | zero => cases hp
    | succ attempts => cases hp
  | waiting attempts => cases hp
  | acknowledged hA => exact hA

theorem acked_mono (hsub : ∀ r ∈ acked s, r ∈ acked s') (h : Acked s seq) :
    Acked s' seq := by
  rcases h with ⟨r, hr, hseq⟩
  exact ⟨r, hsub r hr, hseq⟩

variable (h : Sound seq0 s)
include h

theorem sound_beginWrite (bytes : List Byte) (hwriter : s.writer = none) :
    Sound seq0 { s with
      writer := some (bytes.take framingMaxPayload,
        sendReliable s.txSeq (bytes.take framingMaxPayload) (framingMaxRetries + 1) false)
      issued := s.issued ++ [(s.txSeq, bytes.take framingMaxPayload)] } := by
  have hsub : ∀ w ∈ s.issued, w ∈ s.issued ++ [(s.txSeq, bytes.take framingMaxPayload)] :=
    fun w hw => mem_append_left _ hw
  have hnext := h.idle hwriter
  have hlen : (s.issued ++ [(s.txSeq, bytes.take framingMaxPayload)]).length
      = s.issued.length + 1 := by
    simp
  refine ⟨?_, fun w hw => ?_, fun hc => (by cases hc), fun payload p hp => ?_, fun a ha hok => ?_,
    h.back, fun p hp => reading_mono hsub (h.reading p hp),
    fun r hr => genuine_mono hsub (h.reads r hr), fun f hf => ?_⟩
  · simp only [hlen]
    rw [map_append, h.numbered, range_succ, map_append, map_singleton,
      map_singleton, hnext]
  · rcases mem_append.mp hw with hw | hw
    · exact h.short w hw
    · rw [mem_singleton.mp hw]
      exact length_take_le _ _
  · cases hp
    refine ⟨mem_append_right _ mem_cons_self, ?_, .sending _ _⟩
    simp only [hlen]
    rw [hnext, BitVec.add_assoc]
    congr 1
    have hone : (1 : Byte).toNat = 1 := rfl
    refine BitVec.eq_of_toNat_eq ?_
    rw [BitVec.toNat_add, BitVec.toNat_ofNat, BitVec.toNat_ofNat]
    omega
  · rcases h.data a ha hok with ⟨w, hw, hframe⟩
    exact ⟨w, hsub w hw, hframe⟩
  · exact ⟨hsub _ (h.finished f hf).1, (h.finished f hf).2⟩

theorem sound_write {p p' : Proc Message Arrival Code} (hwriter : s.writer = some (payload, p))
    (hmove : Moves post Late p s.back s.data p' back data) :
    Sound seq0 { s with writer := some (payload, p'), back := back, data := data } := by
  rcases h.writing payload p hwriter with ⟨hissued, hnext, htrying⟩
  rcases trying_moves htrying hmove fun a ha hok hack hseq => hseq ▸ h.back a ha hok hack with
    ⟨htrying', hback, hdata⟩
  refine ⟨h.numbered, h.short, fun hc => (by cases hc), fun payload' q hq => ?_,
    fun a ha hok => ?_, fun a ha => h.back a (hback a ha), h.reading, h.reads, h.finished⟩
  · cases hq
    exact ⟨hissued, hnext, htrying'⟩
  · rcases hdata with rfl | rfl
    · exact h.data a ha hok
    · rcases mem_append.mp ha with ha | ha
      · exact h.data a ha hok
      · rw [mem_singleton.mp ha]
        exact ⟨_, hissued, rfl⟩

theorem sound_endWrite {code : Code} (hwriter : s.writer = some (payload, .done code)) :
    Sound seq0 { s with
      writer := none
      txSeq := s.txSeq + 1
      finished := s.finished ++ [(s.txSeq, payload, code)] } := by
  rcases h.writing payload _ hwriter with ⟨hissued, hnext, htrying⟩
  refine ⟨h.numbered, h.short, fun _ => hnext, fun _ _ hc => (by cases hc), h.data, h.back,
    h.reading, h.reads, fun f hf => ?_⟩
  rcases mem_append.mp hf with hf | hf
  · exact h.finished f hf
  · rw [mem_singleton.mp hf]
    refine ⟨hissued, fun hok => ?_⟩
    have hok : code = .ok := hok
    rw [hok] at htrying
    exact trying_done htrying

theorem sound_read {p p' : Proc Message Arrival (Option Received)} (hreader : s.reader = some p)
    (hmove : Moves post Late p s.data s.back p' data back) :
    Sound seq0 { s with reader := some p', data := data, back := back } := by
  rcases reading_moves (h.reading p hreader) hmove h.short h.data with
    ⟨hreading, hdata, hnot, hback⟩
  -- No payload in hand is given up by a move.
  have hheld : held s.reader = [] := by
    rw [hreader]
    rcases p with o | ⟨m, next⟩ | next
    · rcases o with _ | r
      · rfl
      · exact absurd rfl (hnot r)
    · rfl
    · rfl
  have hmono : ∀ {seq}, Acked s seq →
      Acked { s with reader := some p', data := data, back := back } seq := by
    refine acked_mono fun r hr => ?_
    rw [acked, hheld, append_nil] at hr
    exact mem_append_left _ hr
  refine ⟨h.numbered, h.short, h.idle, fun payload q hq => ?_, fun a ha => h.data a (hdata a ha),
    fun a ha hok hack => ?_, fun q hq => ?_, h.reads,
    fun f hf => ⟨(h.finished f hf).1, fun hok => hmono ((h.finished f hf).2 hok)⟩⟩
  · rcases h.writing payload q hq with ⟨hissued, hnext, htrying⟩
    exact ⟨hissued, hnext, trying_mono hmono htrying⟩
  · rcases hback with rfl | ⟨seq, rfl⟩ | ⟨r, rfl, rfl⟩
    · exact hmono (h.back a ha hok hack)
    · rcases mem_append.mp ha with ha | ha
      · exact hmono (h.back a ha hok hack)
      · rw [mem_singleton.mp ha] at hack
        cases hack
    · rcases mem_append.mp ha with ha | ha
      · exact hmono (h.back a ha hok hack)
      · rw [mem_singleton.mp ha]
        exact ⟨r, mem_append_right _ mem_cons_self, rfl⟩
  · cases hq
    exact hreading

/-- A read begins or returns. -/
theorem sound_reader {reads : List (Option Received)}
    (hacked : ∀ r ∈ acked s, r ∈ acked { s with reader := reader, reads := reads })
    (hreading : ∀ p, reader = some p → Reading s.issued p)
    (hreads : ∀ r, some r ∈ reads → Genuine s.issued r) :
    Sound seq0 { s with reader := reader, reads := reads } := by
  have hmono : ∀ {seq}, Acked s seq → Acked { s with reader := reader, reads := reads } seq :=
    acked_mono hacked
  refine ⟨h.numbered, h.short, h.idle, fun payload p hp => ?_, h.data,
    fun a ha hok hack => hmono (h.back a ha hok hack), hreading, hreads,
    fun f hf => ⟨(h.finished f hf).1, fun hok => hmono ((h.finished f hf).2 hok)⟩⟩
  rcases h.writing payload p hp with ⟨hissued, hnext, htrying⟩
  exact ⟨hissued, hnext, trying_mono hmono htrying⟩

theorem sound_endRead {r : Option Received} (hreader : s.reader = some (.done r)) :
    Sound seq0 { s with reader := none, reads := s.reads ++ [r] } := by
  have hheld : held s.reader = r.toList := by
    rw [hreader]
    cases r with
    | none => rfl
    | some r => rfl
  refine sound_reader h (fun r' hr' => ?_) (fun _ hc => (by cases hc)) fun r' hr' => ?_
  · rw [acked, hheld] at hr'
    rw [acked, reduceOption_append]
    exact mem_append_left _ hr'
  · rcases mem_append.mp hr' with hr' | hr'
    · exact h.reads r' hr'
    · -- What is returned was in hand.
      refine acked_genuine h (mem_append_right _ ?_)
      rw [hheld, ← mem_singleton.mp hr']
      exact mem_cons_self

theorem sound_step (hstep : LinkStep s s') : Sound seq0 s' := by
  cases hstep with
  | beginWrite bytes hwriter => exact sound_beginWrite h bytes hwriter
  | write payload p p' back data hwriter hmove => exact sound_write h hwriter hmove
  | endWrite payload code hwriter => exact sound_endWrite h hwriter
  | beginRead count hreader =>
    refine sound_reader h (fun r hr => ?_) (fun p hp => ?_) h.reads
    · rw [acked, hreader] at hr
      exact hr
    · cases hp
      exact .waiting count
  | read p p' data back hreader hmove => exact sound_read h hreader hmove
  | endRead r hreader => exact sound_endRead h hreader
  | fadeData data hfade =>
    refine ⟨h.numbered, h.short, h.idle, h.writing, fun a ha hok => ?_, h.back, h.reading, h.reads,
      h.finished⟩
    rcases fades_mem hfade ha with ha | hspoilt
    · exact h.data a ha hok
    · exact absurd hok hspoilt
  | fadeBack back hfade =>
    refine ⟨h.numbered, h.short, h.idle, h.writing, h.data, fun a ha hok hack => ?_, h.reading,
      h.reads, h.finished⟩
    rcases fades_mem hfade ha with ha | hspoilt
    · exact h.back a ha hok hack
    · exact absurd hok hspoilt

omit h in
theorem sound_run (hrun : ReflTransGen LinkStep { txSeq := seq0 } s) : Sound seq0 s := by
  induction hrun with
  | refl => exact sound_start seq0
  | tail _ hstep ih => exact sound_step ih hstep

end

/-- In every run of fewer than 256 writes, the payload of a write that has returned
    successfully was taken and acknowledged by a read of the other end. That read has
    returned as much of it as it had room for, or does so with its next move. -/
theorem write_delivered (seq0 : Byte) (s : System)
    (hrun : ReflTransGen LinkStep { txSeq := seq0 } s) (hfew : s.issued.length < 256)
    (seq : Byte) (payload : List Byte) (hwrite : (seq, payload, Code.ok) ∈ s.finished) :
    ∃ r : Received, r.frame = dataFrame seq payload ∧ r.bytes = payload.take r.count ∧
      (some r ∈ s.reads ∨ s.reader = some (.done (some r))) := by
  have h := sound_run hrun
  rcases h.finished _ hwrite with ⟨hissued, hacked⟩
  rcases hacked rfl with ⟨r, hr, hseq⟩
  rcases acked_genuine h hr with ⟨w, hw, hframe, hbytes⟩
  -- The sequence number tells the writes apart.
  have hsame : w = (seq, payload) := by
    have hfst : w.1 = seq := by
      rw [hframe] at hseq
      exact hseq
    exact inj_on_of_nodup_map (sound_nodup h hfew) hw hissued hfst
  subst hsame
  refine ⟨r, hframe, hbytes, ?_⟩
  rcases mem_append.mp hr with hr | hr
  · exact .inl (reduceOption_mem_iff.mp hr)
  · exact .inr (mem_held hr)

/-- A write whose acknowledgement arrives while the read that sent it is not yet back. -/
theorem early_run : ∃ s, ReflTransGen LinkStep { txSeq := 0 } s ∧
    s.issued = [(0, [0x41])] ∧ s.finished = [(0, [0x41], .ok)] ∧ s.reads = [] := by
  have hbegin := ReflTransGen.single (LinkStep.beginWrite { txSeq := 0 } [0x41] rfl)
  have hsend := hbegin.tail (.write _ _ _ _ _ _ rfl (.send _ _ _ _))
  have hread := hsend.tail (.beginRead _ 256 rfl)
  have htake := hread.tail (.read _ _ _ _ _ rfl (.take _ _ _ _))
  have hack := htake.tail (.read _ _ _ _ _ rfl (.send _ _ _ _))
  have hacked := hack.tail (.write _ _ _ _ _ _ rfl (.take _ _ _ _))
  have hend := hacked.tail (.endWrite _ _ _ rfl)
  exact ⟨_, hend, rfl, rfl, rfl⟩

theorem write_delivered_early : ∃ s, ReflTransGen LinkStep { txSeq := 0 } s ∧
    ∃ r : Received, r.frame = dataFrame 0 [0x41] ∧ r.bytes = [0x41].take r.count ∧
      (some r ∈ s.reads ∨ s.reader = some (.done (some r))) := by
  rcases early_run with ⟨s, hrun, hissued, hfinished, -⟩
  exact ⟨s, hrun, write_delivered 0 s hrun (by rw [hissued]; decide) 0 [0x41]
    (by rw [hfinished]; exact mem_cons_self)⟩

/-- A write has returned successfully and no read has returned at all. -/
theorem write_returns_first : ∃ s, ReflTransGen LinkStep { txSeq := 0 } s ∧
    s.issued.length < 256 ∧ (0, [0x41], Code.ok) ∈ s.finished ∧ s.reads = [] := by
  rcases early_run with ⟨s, hrun, hissued, hfinished, hreads⟩
  exact ⟨s, hrun, by rw [hissued]; decide, by rw [hfinished]; exact mem_cons_self, hreads⟩

end CortexForge.Link
