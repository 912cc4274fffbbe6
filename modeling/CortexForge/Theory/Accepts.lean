import CortexForge.Theory.Receiver

/-!
# What the Receiver Accepts

A grammar of what `framing_recv` reads before it hands out a frame. The search for a
delimiter skips some bytes. Then come frames that are given up, each because a
delimiter with a type behind it turned up inside it, and at last a frame that is read
to its end. The receiver follows this grammar in both directions: what it has read
when it returns has this form (`framingRecv_inv`), and a line of this form is received
(`framingRecv_begins`).

So frames sent one after another, with noise between them, are received one after
another, and no call leaves a byte of its frame to the next (`stream_reception`).

The search asks for a valid type. A delimiter inside a frame may have any byte but a
zero behind it, so the frame that is handed out need not have a valid type
(`receiver_sound_iff`).

## Main definitions

* `Skipped`: Bytes that the search drops.
* `Reads`, `Begins`: Bytes after which the receiver has the type of a frame.
* `Delivery`: A frame on its way, with its noise and the call that receives it.

## Theorems

* `syncStart_iff`, `haveType_iff`: The search, and the frames that are given up.
* `framingRecv_inv`, `framingRecv_begins`: The two directions.
* `stream_reception`: The calls receive the frames in order.
* `receiver_sound_iff`: When a frame that is handed out is one that was sent.
-/

namespace CortexForge.Framing

open List

section

/-- Bytes that the search for a frame drops: anything but a delimiter, and a
    delimiter with the byte behind it if that is not a valid type. -/
inductive Skipped : List Byte → Prop
  | nil : Skipped []
  | noise (b : Byte) (bs : List Byte) (hb : b ≠ frameStart) (h : Skipped bs) : Skipped (b :: bs)
  | pair (t : Byte) (bs : List Byte) (ht : validType t = false) (h : Skipped bs) :
      Skipped (frameStart :: t :: bs)

/-- Behind the type `t`, these bytes lead to a frame of type `u`: each frame on the
    way is given up at a delimiter. -/
inductive Reads : Byte → List Byte → Byte → Prop
  | here (t : Byte) : Reads t [] t
  | again (t u v : Byte) (xs bs : List Byte) (hxs : Unfinished xs) (hu : u ≠ 0x00)
      (h : Reads u bs v) : Reads t (stuff xs ++ frameStart :: u :: bs) v

/-- Bytes that the receiver reads up to the type `u` of a frame. -/
inductive Begins : List Byte → Byte → Prop
  | intro (skipped bs : List Byte) (t u : Byte) (hskipped : Skipped skipped)
      (ht : validType t = true) (h : Reads t bs u) :
      Begins (skipped ++ frameStart :: t :: bs) u

/-- Right before a frame there is its delimiter and its type. -/
theorem reads_last {t u : Byte} {bs : List Byte} (h : Reads t bs u) :
    ∃ before, frameStart :: t :: bs = before ++ [frameStart, u] := by
  induction h with
  | here t => exact ⟨[], rfl⟩
  | again t u v xs bs _ _ _ ih =>
    rcases ih with ⟨before, hbefore⟩
    refine ⟨frameStart :: t :: (stuff xs ++ before), ?_⟩
    rw [hbefore]
    simp

theorem begins_last {u : Byte} {bs : List Byte} (h : Begins bs u) :
    ∃ before, bs = before ++ [frameStart, u] := by
  cases h with
  | intro skipped bs t u _ _ h =>
    rcases reads_last h with ⟨before, hbefore⟩
    exact ⟨skipped ++ before, by rw [hbefore, append_assoc]⟩

end

section

variable {deadline : Nat} {line rest : List Poll} {t : Byte}

/-- The search for a frame drops bytes up to a delimiter and a valid type. -/
theorem syncStart_iff (fuel : Nat) (hfuel : line.length < fuel) :
    syncStart deadline fuel line = .done t rest ↔ validType t = true ∧
      ∃ skipped, Skipped skipped ∧ Takes deadline (skipped ++ [frameStart, t]) line rest := by
  induction fuel generalizing line with
  | zero => omega
  | succ fuel ih =>
    have hshort : ∀ {b : Byte} {l mid : List Poll}, recvByte deadline l = .done b mid →
        mid.length < l.length := fun h => by
      have hle := takes_length (recvByte_iff.mp h)
      rw [length_singleton] at hle
      omega
    rw [syncStart, andThen_done_iff]
    constructor
    · rintro ⟨b, mid, hb, h⟩
      have hlt := hshort hb
      split_ifs at h with hnoise
      · rcases (ih (by omega)).mp h with ⟨ht, skipped, hskipped, h⟩
        exact ⟨ht, b :: skipped, .noise b _ hnoise hskipped, takes_cons_iff.mpr ⟨mid, hb, h⟩⟩
      rw [not_not.mp hnoise] at hb
      -- a start byte with a bad type is dropped together with that type
      rcases andThen_done_iff.mp h with ⟨t', mid', ht', h⟩
      split_ifs at h with hvalid
      · cases h
        exact ⟨hvalid, [], .nil, takes_cons_iff.mpr ⟨mid, hb, recvByte_iff.mp ht'⟩⟩
      · have hlt' := hshort ht'
        rcases (ih (by omega)).mp h with ⟨ht, skipped, hskipped, h⟩
        exact ⟨ht, frameStart :: t' :: skipped, .pair t' _ (Bool.of_not_eq_true hvalid) hskipped,
          takes_cons_iff.mpr ⟨mid, hb, takes_cons_iff.mpr ⟨mid', ht', h⟩⟩⟩
    · rintro ⟨ht, skipped, hskipped, h⟩
      cases hskipped with
      | nil =>
        rcases takes_cons_iff.mp h with ⟨mid, hb, h⟩
        refine ⟨_, mid, hb, ?_⟩
        rw [if_neg (not_not.mpr rfl), recvByte_iff.mpr h, Outcome.andThen, if_pos ht]
      | noise b bs hb hskipped =>
        rcases takes_cons_iff.mp h with ⟨mid, hrecv, h⟩
        have hlt := hshort hrecv
        refine ⟨b, mid, hrecv, ?_⟩
        rw [if_pos hb]
        exact (ih (by omega)).mpr ⟨ht, bs, hskipped, h⟩
      | pair t' bs ht' hskipped =>
        rcases takes_cons_iff.mp h with ⟨mid, hrecv, h⟩
        rcases takes_cons_iff.mp h with ⟨mid', hrecv', h⟩
        have hlt := hshort hrecv
        have hlt' := hshort hrecv'
        refine ⟨_, mid, hrecv, ?_⟩
        rw [if_neg (not_not.mpr rfl), hrecv', Outcome.andThen,
          if_neg (by rw [ht']; exact Bool.false_ne_true)]
        exact (ih (by omega)).mpr ⟨ht, bs, hskipped, h⟩

/-- Frames are given up one after the other until one is read to its end. -/
theorem haveType_iff (fuel : Nat) {result : Code × Option Frame} (hfuel : line.length < fuel) :
    haveType deadline fuel t line = .done result rest ↔
      ∃ bs u mid, Reads t bs u ∧ Takes deadline bs line mid ∧
        readBody deadline u mid = .done result rest := by
  induction fuel generalizing line t with
  | zero => omega
  | succ fuel ih =>
    -- What is left when a frame is given up is shorter.
    have hgiven : ∀ {u : Byte} {mid : List Poll}, readBody deadline t line = .restart u mid →
        mid.length < fuel := fun h => by
      rcases readBody_restart_iff.mp h with ⟨_, xs, _, h⟩
      have hle := takes_length h
      rw [length_append, length_cons] at hle
      omega
    rw [haveType]
    constructor
    · intro h
      rcases hbody : readBody deadline t line with _ | _ | ⟨u, mid⟩ | ⟨value, mid⟩
      all_goals rw [hbody] at h
      · cases h
      · cases h
      · rcases readBody_restart_iff.mp hbody with ⟨hu, xs, hxs, htakes⟩
        rcases (ih (hgiven hbody)).mp h with ⟨bs, v, mid', hreads, htakes', hdone⟩
        refine ⟨_, v, mid', .again t u v xs bs hxs hu hreads, ?_, hdone⟩
        have hall := takes_append_iff.mpr ⟨mid, htakes, htakes'⟩
        rw [append_assoc] at hall
        exact hall
      · exact ⟨[], t, line, .here t, takes_nil_iff.mpr rfl, hbody.trans h⟩
    · rintro ⟨bs, u, mid, hreads, h, hbody⟩
      cases hreads with
      | here t =>
        rw [takes_nil_iff.mp h, hbody]
      | again t u v xs bs hxs hu hreads =>
        have hparts : stuff xs ++ frameStart :: u :: bs = (stuff xs ++ [frameStart, u]) ++ bs := by
          rw [append_assoc]
          rfl
        rw [hparts] at h
        rcases takes_append_iff.mp h with ⟨mid', h1, h2⟩
        have hgive : readBody deadline t line = _ := readBody_restart_iff.mpr ⟨hu, xs, hxs, h1⟩
        rw [hgive]
        exact (ih (hgiven hgive)).mpr ⟨bs, _, mid, hreads, h2, hbody⟩

variable {stats stats' : FramingStats} {now timeoutTicks : Nat}

/-- A call that begins to read a frame returns what its body gives. -/
theorem framingRecv_takes {bytes : List Byte} {mid : List Poll} {code : Code} {out : Option Frame}
    (hbegins : Begins bytes t) (h : Takes (wrap64 (now + timeoutTicks)) bytes line mid)
    (hbody : readBody (wrap64 (now + timeoutTicks)) t mid = .done (code, out) rest) :
    framingRecv stats now timeoutTicks line = some (code, out, countRecv stats code, rest) := by
  cases hbegins with
  | intro skipped bs t0 t hskipped ht hreads =>
    have hparts : skipped ++ frameStart :: t0 :: bs = (skipped ++ [frameStart, t0]) ++ bs := by
      simp
    rw [hparts] at h
    rcases takes_append_iff.mp h with ⟨mid', h1, h2⟩
    have hsync := (syncStart_iff _ (Nat.lt_succ_self _)).mpr ⟨ht, skipped, hskipped, h1⟩
    have hhave := (haveType_iff _ (Nat.lt_succ_self _)).mpr ⟨bs, t, mid, hreads, h2, hbody⟩
    simp only [framingRecv, hsync, Outcome.andThen, hhave]

/-- A line of the form that calls read is received. -/
theorem framingRecv_begins {bytes : List Byte} {seq : Byte} {payload : List Byte}
    (hbegins : Begins bytes t) (hlen : payload.length ≤ framingMaxPayload)
    (h : Takes (wrap64 (now + timeoutTicks)) (bytes ++ stuff (frameLin t seq payload).tail) line
      rest) :
    framingRecv stats now timeoutTicks line = some (.ok,
      some { type := t, seq := seq, len := payload.length, payload := payload },
      countRecv stats .ok, rest) := by
  rcases takes_append_iff.mp h with ⟨mid, h1, h2⟩
  have hread := readBody_crc t seq payload (crc16Ccitt (frameBody t seq payload)) hlen h2
  rw [if_neg (not_not_intro rfl)] at hread
  exact framingRecv_takes hbegins h1 hread

/-- What a call that hands out a frame has read. -/
theorem framingRecv_inv {f : Frame}
    (h : framingRecv stats now timeoutTicks line = some (.ok, some f, stats', rest)) :
    ∃ bytes, Begins bytes f.type ∧ f.len = f.payload.length ∧ f.len ≤ framingMaxPayload ∧
      Takes (wrap64 (now + timeoutTicks))
        (bytes ++ stuff (frameLin f.type f.seq f.payload).tail) line rest := by
  unfold framingRecv at h
  simp only at h
  split at h
  case h_4 code out rest' hdone =>
    cases h
    rcases andThen_done_iff.mp hdone with ⟨t, mid, hsync, hhave⟩
    rcases (syncStart_iff _ (Nat.lt_succ_self _)).mp hsync with ⟨ht, skipped, hskipped, htakes⟩
    rcases (haveType_iff _ (Nat.lt_succ_self _)).mp hhave with ⟨bs, u, mid1, hreads, htakes1, hbody⟩
    rcases readBody_done_inv hbody with ⟨hc, _⟩ | ⟨seq, payload, crc, hlen, htakes2, hout, hcode⟩
    · cases hc
    have hcrc : crc16Ccitt (frameBody u seq payload) = crc := by
      by_contra hne
      rw [if_pos hne] at hcode
      cases hcode
    cases hout
    refine ⟨_, .intro skipped bs t u hskipped ht hreads, rfl, hlen, ?_⟩
    have hall := takes_append_iff.mpr ⟨mid, htakes, takes_append_iff.mpr ⟨mid1, htakes1, htakes2⟩⟩
    rw [← hcrc] at hall
    simp only [append_assoc] at hall ⊢
    exact hall
  all_goals cases h

end

/-- On the wire a frame of a valid type is the delimiter, the type and the rest of
    the frame stuffed. -/
theorem framingEncode_valid {t : Byte} (ht : validType t = true) (seq : Byte) {payload : List Byte}
    (hlen : payload.length ≤ framingMaxPayload) :
    framingEncode t seq payload
      = some (frameStart :: t :: stuff (frameLin t seq payload).tail) := by
  have hne : t ≠ frameStart := fun hc => by
    rw [hc] at ht
    exact absurd ht (by decide)
  have hcons : frameLin t seq payload = t :: (frameLin t seq payload).tail := rfl
  rw [framingEncode_eq t seq hlen, hcons, stuff_cons, stuffByte, if_neg hne]
  rfl

/-- What was encoded was not too long. -/
theorem framingEncode_length {t seq : Byte} {payload wire : List Byte}
    (h : framingEncode t seq payload = some wire) : payload.length ≤ framingMaxPayload := by
  by_contra hc
  rw [framingEncode, if_pos (Nat.lt_of_not_le hc)] at h
  cases h

section

/-- A frame on its way: the noise before it, its bytes on the wire, and the polls
    of the call that is to receive it. -/
structure Delivery where
  noise : List Byte
  type : Byte
  seq : Byte
  payload : List Byte
  wire : List Byte
  now : Nat
  timeoutTicks : Nat
  polls : List Poll
  noise_ok : ∀ b ∈ noise, b ≠ frameStart
  type_ok : validType type = true
  sent : framingEncode type seq payload = some wire
  in_time : Delivers (wrap64 (now + timeoutTicks)) (noise ++ wire) polls

/-- The call that is to receive the frame. -/
def Delivery.call (d : Delivery) : Nat × Nat := (d.now, d.timeoutTicks)

/-- What that call is to return. -/
def Delivery.received (d : Delivery) : Code × Option Frame :=
  (.ok, some { type := d.type, seq := d.seq, len := d.payload.length, payload := d.payload })

theorem skipped_noise (noise : List Byte) (h : ∀ b ∈ noise, b ≠ frameStart) : Skipped noise := by
  induction noise with
  | nil => exact .nil
  | cons b noise ih =>
    exact .noise b noise (h b mem_cons_self) (ih fun c hc => h c (mem_cons_of_mem b hc))

/-- A call receives its frame, and leaves what comes behind it. -/
theorem framingRecv_frame (d : Delivery) (stats : FramingStats) (tail : List Poll) :
    framingRecv stats d.now d.timeoutTicks (d.polls ++ tail)
      = some (d.received.1, d.received.2, countRecv stats .ok, tail) := by
  have hlen := framingEncode_length d.sent
  have hwire := d.sent
  rw [framingEncode_valid d.type_ok d.seq hlen] at hwire
  have hdel := d.in_time
  rw [← Option.some.inj hwire] at hdel
  refine framingRecv_begins
    (.intro d.noise [] d.type d.type (skipped_noise _ d.noise_ok) d.type_ok (.here _)) hlen
    ⟨d.polls, rfl, ?_⟩
  rw [append_assoc]
  exact hdel

/-- After `n` calls the first `n` frames have been received, and what is left of
    the line begins right behind the last of them. -/
theorem stream_reception (frames : List Delivery) (stats : FramingStats) (tail : List Poll)
    (n : Nat) :
    recvCalls stats ((frames.take n).map Delivery.call) (frames.flatMap Delivery.polls ++ tail)
      = some ((frames.take n).map Delivery.received,
        (frames.take n).foldl (fun stats _ => countRecv stats .ok) stats,
        (frames.drop n).flatMap Delivery.polls ++ tail) := by
  -- Induction on the calls; the first one takes its own frame off the line.
  induction n generalizing frames stats with
  | zero => rfl
  | succ n ih =>
    rcases frames with _ | ⟨d, frames⟩
    · rfl
    have hrest := ih frames (countRecv stats .ok)
    rw [take_succ_cons, map_cons, flatMap_cons, append_assoc, Delivery.call,
      recvCalls, framingRecv_frame]
    simp only [hrest]
    rfl

/-- Noise, a frame with the delimiter in its payload, more noise, and after an empty look
    at the line a frame with the delimiter for its number. -/
def twoDeliveries : List Delivery :=
  [{ noise := [0x55, 0x00], type := frameTypeData, seq := 7, payload := [0x41, 0xAA]
     wire := (framingEncode frameTypeData 7 [0x41, 0xAA]).getD [], now := 0, timeoutTicks := 100
     polls := ([0x55, 0x00] ++ (framingEncode frameTypeData 7 [0x41, 0xAA]).getD []).map .byte
     noise_ok := by decide, type_ok := by decide, sent := rfl, in_time := delivers_bytes _ _ },
   { noise := [0x01], type := frameTypeAck, seq := frameStart, payload := []
     wire := (framingEncode frameTypeAck frameStart []).getD [], now := 5, timeoutTicks := 10
     polls := .idle 6 :: ([0x01] ++ (framingEncode frameTypeAck frameStart []).getD []).map .byte
     noise_ok := by decide, type_ok := by decide, sent := rfl
     in_time := .idle 6 _ _ _ (by decide) (delivers_bytes _ _) }]

theorem stream_reception_two :
    recvCalls {} [(0, 100), (5, 10)] (twoDeliveries.flatMap Delivery.polls ++ [.idle 50])
      = some ([(.ok, some { type := frameTypeData, seq := 7, len := 2, payload := [0x41, 0xAA] }),
          (.ok, some { type := frameTypeAck, seq := frameStart, len := 0, payload := [] })],
        { framesRecv := 2 }, [.idle 50]) :=
  stream_reception twoDeliveries {} [.idle 50] 2

end

section

/-- No frame of an unknown type is complete on the line where the receiver reads
    it. -/
def KnownTypes (deadline : Nat) (line : List Poll) : Prop :=
  ∀ bytes t seq payload rest, Begins bytes t → payload.length ≤ framingMaxPayload →
    Takes deadline (bytes ++ stuff (frameLin t seq payload).tail) line rest → validType t = true

/-- The receiver hands out nothing but frames of known types that were the last bytes
    it read, if and only if the line has no complete frame of an unknown type where
    the receiver reads one. -/
theorem receiver_sound_iff (stats : FramingStats) (now timeoutTicks : Nat) (line : List Poll) :
    (∀ f stats' rest, framingRecv stats now timeoutTicks line = some (.ok, some f, stats', rest) →
      validType f.type = true ∧ f.len ≤ 256 ∧ f.len = f.payload.length ∧
      ∃ used before wire, line = used ++ rest ∧
        framingEncode f.type f.seq f.payload = some wire ∧ bytesOf used = before ++ wire) ↔
    KnownTypes (wrap64 (now + timeoutTicks)) line := by
  constructor
  · intro hsound bytes t seq payload rest hbegins hlen htakes
    exact (hsound _ _ _ (framingRecv_begins hbegins hlen htakes)).1
  · intro hknown f stats' rest h
    rcases framingRecv_inv h with ⟨bytes, hbegins, hlen, hmax, htakes⟩
    have hpayload : f.payload.length ≤ framingMaxPayload := hlen ▸ hmax
    have ht := hknown bytes f.type f.seq f.payload rest hbegins hpayload htakes
    rcases htakes.used with ⟨used, hline, hdel⟩
    rcases begins_last hbegins with ⟨before, hbefore⟩
    refine ⟨ht, hmax, hlen, used, before, _, hline, framingEncode_valid ht f.seq hpayload, ?_⟩
    rw [bytesOf_delivers hdel, hbefore]
    simp

/-- A frame that is cut short, and a whole frame of type 4 right behind it. -/
def unknownTypeLine : List Poll :=
  ([0xAA, 0x01, 0x07] ++ [0xAA, 0x04, 0x09, 0x00, 0x00, 0xD0, 0xA0]).map .byte

theorem receiver_unknown_type :
    framingRecv {} 0 100 unknownTypeLine = some (.ok,
      some { type := 0x04, seq := 0x09, len := 0, payload := [] }, { framesRecv := 1 }, []) ∧
    validType 0x04 = false := by
  decide +kernel

end

end CortexForge.Framing
