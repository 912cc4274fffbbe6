import CortexForge.Core.Framing
import Mathlib.Data.List.GetD

/-!
# Framing Round Trip

Decoding inverts encoding, for every type, sequence number and payload.

The argument splits at the linear buffer. On the wire side the un-stuffing loop
undoes the stuffing one, whatever mixture of delimiter bytes the body holds:
`framingUnstuff_stuff` is the induction, and its only side condition is that
the body fits the decoder's buffer, since a full buffer stops the loop. On the
other side `decodeLin_frame` reads the header fields back out of the linear
buffer, finds the length it was built with, and recomputes the same CRC over
the same bytes.

The length bounds come from counting: stuffing keeps every byte and adds at
most one after each.

## Main definitions

* `frameLin`: The linear buffer of a frame.

## Theorems

* `stuff_append`: Stuffing a concatenation stuffs its halves.
* `stuff_cons`: Stuffing works byte by byte.
* `length_le_stuff`: Stuffing drops no byte.
* `stuff_length_le`: Stuffing at most doubles the length.
* `framingUnstuff_stuff`: Un-stuffing inverts stuffing while the buffer lasts.
* `framingUnstuff_sound`, `decodeLin_sound`: What the two halves accept.
* `word16_hi_lo`: A 16-bit value is its two bytes put back together.
* `frameLin_length`: A frame's linear buffer has six bytes more than its payload.
* `decodeLin_frame`: The linear buffer of a frame decodes to that frame.
* `framingEncode_eq`: An encoded frame is the delimiter and one stuffed list.
* `decode_canonical`: What decoding accepts, and the one case of bytes left over.
* `framing_round_trip`: Decoding an encoded frame returns what was encoded.
-/

namespace CortexForge.Framing

open List

theorem stuff_append (as bs : List Byte) : stuff (as ++ bs) = stuff as ++ stuff bs := by
  simp [stuff]

theorem stuff_cons (b : Byte) (bs : List Byte) : stuff (b :: bs) = stuffByte b ++ stuff bs := by
  simp [stuff]

theorem length_le_stuff (bs : List Byte) : bs.length ≤ (stuff bs).length := by
  induction bs with
  | nil => exact Nat.zero_le _
  | cons b bs ih =>
    have hb : 1 ≤ (stuffByte b).length := by
      unfold stuffByte
      split_ifs with h
      · exact Nat.le_succ 1
      · exact Nat.le_refl 1
    rw [stuff_cons, length_append, length_cons]
    omega

theorem stuff_length_le (bs : List Byte) : (stuff bs).length ≤ 2 * bs.length := by
  induction bs with
  | nil => exact Nat.le_refl 0
  | cons b bs ih =>
    have hb : (stuffByte b).length ≤ 2 := by
      unfold stuffByte
      split_ifs with h
      · exact Nat.le_refl 2
      · exact Nat.le_succ 1
    rw [stuff_cons, length_append, length_cons]
    omega

/-- Un-stuffing inverts stuffing. The loop leaves off early once its buffer is
    full, so the bytes still to come have to fit behind those already there. -/
theorem framingUnstuff_stuff (bs rest : List Byte) : ∀ (lin : List Byte),
    lin.length + bs.length ≤ linSize →
    framingUnstuff (stuff bs ++ rest) lin = framingUnstuff rest (lin ++ bs) := by
  induction bs with
  | nil =>
    intro lin _
    rw [append_nil]
    rfl
  | cons b bs ih =>
    intro lin hlen
    rw [length_cons] at hlen
    have hroom : lin.length < linSize := by omega
    have hrec := ih (lin ++ [b]) (by
      rw [length_append, length_singleton]
      omega)
    rw [append_assoc] at hrec
    rw [stuff_cons, append_assoc]
    by_cases hb : b = frameStart
    · -- A delimiter of the body: the wire carries it with its zero.
      have hst : stuffByte b = [b, 0x00] := if_pos hb
      rw [hst, cons_append, singleton_append]
      simp only [framingUnstuff, if_pos hroom, if_pos hb]
      rw [← hb]
      exact hrec
    · have hst : stuffByte b = [b] := if_neg hb
      rw [hst, singleton_append, framingUnstuff.eq_def]
      simp only [if_pos hroom, if_neg hb]
      exact hrec

/-- What the loop accepts is stuffed, up to where a full buffer stops it. -/
theorem framingUnstuff_sound (bs lin out : List Byte) (h : framingUnstuff bs lin = some out) :
    ∃ mid rest, bs = stuff mid ++ rest ∧ out = lin ++ mid ∧ (rest ≠ [] → linSize ≤ out.length) := by
  fun_induction framingUnstuff bs lin with
  | case1 lin =>
    cases h
    exact ⟨[], [], rfl, (append_nil _).symm, fun hne => absurd rfl hne⟩
  | case2 | case4 => cases h
  | case3 lin hroom rest ih =>
    rcases ih h with ⟨mid, left, hbs, hout, hfull⟩
    refine ⟨frameStart :: mid, left, ?_, by rw [hout, append_assoc, singleton_append], hfull⟩
    rw [hbs]
    rfl
  | case5 b rest lin hroom hb ih =>
    rcases ih h with ⟨mid, left, hbs, hout, hfull⟩
    refine ⟨b :: mid, left, ?_, by rw [hout, append_assoc, singleton_append], hfull⟩
    rw [hbs, stuff_cons, stuffByte, if_neg hb]
    rfl
  | case6 b rest lin hroom =>
    cases h
    exact ⟨[], b :: rest, rfl, (append_nil _).symm, fun _ => Nat.le_of_not_lt hroom⟩

theorem word16_hi_lo (w : BitVec 16) : word16 (hiByte w) (loByte w) = w := by
  unfold word16 hiByte loByte
  ext i hi
  simp only [BitVec.getElem_or, BitVec.getElem_shiftLeft, BitVec.getElem_setWidth,
    BitVec.getLsbD_setWidth, BitVec.getLsbD_ushiftRight]
  by_cases h8 : i < 8
  · simp only [h8]
    exact BitVec.getLsbD_eq_getElem hi
  · have hs : 8 + (i - 8) = i := by omega
    have hd8 : i - 8 < 8 := by omega
    simp only [h8, hs, hd8, decide_false,
      Bool.false_and, Bool.or_false]
    exact BitVec.getLsbD_eq_getElem hi

theorem hiByte_word16 (hi lo : Byte) : hiByte (word16 hi lo) = hi := by
  unfold hiByte word16
  ext i hlt
  have hlow : ¬ 8 + i < 8 := by omega
  have hhigh : 8 + i < 16 := by omega
  have hout : lo.getLsbD (8 + i) = false := BitVec.getLsbD_of_ge lo (8 + i) (by omega)
  simp only [BitVec.getElem_setWidth, BitVec.getLsbD_ushiftRight, BitVec.getLsbD_or,
    BitVec.getLsbD_shiftLeft, BitVec.getLsbD_setWidth, hlow, hhigh, hout, Nat.add_sub_cancel_left,
      Bool.and_false, Bool.or_false]
  rw [decide_eq_true (by omega : i < 16)]
  exact BitVec.getLsbD_eq_getElem hlt

theorem loByte_word16 (hi lo : Byte) : loByte (word16 hi lo) = lo := by
  unfold loByte word16
  ext i hlt
  have hword : i < 16 := by omega
  simp only [BitVec.getElem_setWidth, BitVec.getLsbD_or, BitVec.getLsbD_shiftLeft,
    BitVec.getLsbD_setWidth, hlt, hword]
  exact BitVec.getLsbD_eq_getElem hlt

variable (type seq : Byte)

/-- The header in front of a payload, when its length field says so. -/
theorem frameBody_word16 {hi lo : Byte} {payload : List Byte}
    (hlen : payload.length = (word16 hi lo).toNat) :
    frameBody type seq payload = type :: seq :: hi :: lo :: payload := by
  rw [frameBody, hlen, BitVec.ofNat_toNat, BitVec.setWidth_eq, hiByte_word16, loByte_word16]

/-- The linear buffer of a frame: its body, then the CRC of that body. -/
def frameLin (type seq : Byte) (payload : List Byte) : List Byte :=
  frameBody type seq payload ++ [hiByte (crc16Ccitt (frameBody type seq payload)),
    loByte (crc16Ccitt (frameBody type seq payload))]

theorem frameLin_length (payload : List Byte) :
    (frameLin type seq payload).length = payload.length + 6 := by
  simp [frameLin, frameBody]

/-- The linear buffer of a frame decodes to that frame. The length field holds
    the payload's length, so the CRC is found right behind the payload and is
    recomputed over the bytes it was computed from. -/
theorem decodeLin_frame (payload : List Byte) (hlen : payload.length ≤ framingMaxPayload) :
    decodeLin (frameLin type seq payload) = (.ok,
      some { type := type, seq := seq, len := payload.length, payload := payload }) := by
  have hbody : (frameBody type seq payload).length = 4 + payload.length := by
    simp only [frameBody, length_cons]
    omega
  have h16 : (BitVec.ofNat 16 payload.length).toNat = payload.length := by
    exact Nat.mod_eq_of_lt (by unfold framingMaxPayload at hlen; omega)
  -- The four header bytes sit at the front, whatever follows them.
  have h2 : (frameLin type seq payload).getD 2 0 = hiByte (BitVec.ofNat 16 payload.length) := rfl
  have h3 : (frameLin type seq payload).getD 3 0 = loByte (BitVec.ofNat 16 payload.length) := rfl
  have hplen : (word16 ((frameLin type seq payload).getD 2 0)
      ((frameLin type seq payload).getD 3 0)).toNat = payload.length := by
    rw [h2, h3, word16_hi_lo, h16]
  have htake : (frameLin type seq payload).take (4 + payload.length)
      = frameBody type seq payload := by
    simp [frameLin, ← hbody]
  have hcrcHi : (frameLin type seq payload).getD (4 + payload.length) 0
      = hiByte (crc16Ccitt (frameBody type seq payload)) := by
    rw [frameLin, ← hbody, getD_append_right _ _ _ _ (Nat.le_refl _), Nat.sub_self]
    rfl
  have hcrcLo : (frameLin type seq payload).getD (4 + payload.length + 1) 0
      = loByte (crc16Ccitt (frameBody type seq payload)) := by
    rw [frameLin, ← hbody, getD_append_right _ _ _ _ (Nat.le_succ _), Nat.succ_sub (Nat.le_refl _),
      Nat.sub_self]
    rfl
  have hpay : ((frameLin type seq payload).drop 4).take payload.length = payload := by
    rw [frameLin, frameBody]
    exact take_left
  unfold decodeLin
  rw [if_neg (by rw [frameLin_length]; omega)]
  simp only [hplen]
  rw [if_neg (by rw [frameLin_length]; omega), htake, hcrcHi, hcrcLo, word16_hi_lo, if_pos rfl,
    hpay]
  rfl

theorem framingEncode_eq {payload : List Byte} (hlen : payload.length ≤ framingMaxPayload) :
    framingEncode type seq payload = some (frameStart :: stuff (frameLin type seq payload)) := by
  unfold framingEncode
  rw [if_neg (by omega), frameLin, stuff_append, stuff_cons, stuff_cons]
  simp [stuff]

/-- A frame is decoded from the front of a buffer when nothing follows it, or
    when it fills the linear buffer and what follows is never read. -/
theorem framingDecode_frame {payload extra : List Byte} (hlen : payload.length ≤ framingMaxPayload)
    (hfull : extra ≠ [] → payload.length = framingMaxPayload) :
    framingDecode (frameStart :: (stuff (frameLin type seq payload) ++ extra)) = (.ok,
      some { type := type, seq := seq, len := payload.length, payload := payload }) := by
  have hlin := frameLin_length type seq payload
  have hun := framingUnstuff_stuff (frameLin type seq payload) extra [] (by
    rw [length_nil]
    unfold linSize
    omega)
  have hstop : framingUnstuff extra (frameLin type seq payload)
      = some (frameLin type seq payload) := by
    rcases extra with _ | ⟨b, rest⟩
    · rfl
    · have hroom : ¬ (frameLin type seq payload).length < linSize := by
        rw [hlin, hfull (cons_ne_nil b rest)]
        decide
      rw [framingUnstuff.eq_def]
      exact if_neg hroom
  simp only [framingDecode, hun, nil_append, hstop]
  exact decodeLin_frame type seq payload hlen

/-- A linear buffer that decodes is that of the frame it decodes to. -/
theorem decodeLin_sound {lin : List Byte} {f : Frame} (h : decodeLin lin = (.ok, some f)) :
    f.payload.length ≤ framingMaxPayload ∧ lin = frameLin f.type f.seq f.payload := by
  rcases lin with _ | ⟨t, _ | ⟨s, _ | ⟨hi, _ | ⟨lo, ys⟩⟩⟩⟩
  · cases h
  · cases h
  · cases h
  · cases h
  simp only [decodeLin, getD_cons_zero, getD_cons_succ, length_cons] at h
  split_ifs at h with hshort hbad hcrc
  · cases h
  · cases h
  · cases h
    have htake : (ys.take (word16 hi lo).toNat).length = (word16 hi lo).toNat := by
      rw [length_take]
      omega
    have hdrop : (ys.drop (word16 hi lo).toNat).length = 2 := by
      rw [length_drop]
      omega
    rcases length_eq_two.mp hdrop with ⟨ch, cl, hpair⟩
    have hsplit := take_append_drop (word16 hi lo).toNat ys
    rw [hpair] at hsplit
    have hbody := frameBody_word16 t s htake
    have hfront : take (4 + (word16 hi lo).toNat) (t :: s :: hi :: lo :: ys)
        = frameBody t s (take (word16 hi lo).toNat ys) := by
      rw [hbody, Nat.add_comm]
      rfl
    have hch : (t :: s :: hi :: lo :: ys).getD (4 + (word16 hi lo).toNat) 0 = ch := by
      rw [Nat.add_comm, ← hsplit]
      simp [htake]
    have hcl : (s :: hi :: lo :: ys).getD (4 + (word16 hi lo).toNat) 0 = cl := by
      rw [Nat.add_comm 4, ← hsplit]
      simp [htake]
    rw [hfront, hch, hcl] at hcrc
    refine ⟨Nat.le_trans (Nat.le_of_eq htake) (by omega), ?_⟩
    show t :: s :: hi :: lo :: ys = frameLin t s (take (word16 hi lo).toNat ys)
    rw [frameLin, hcrc, hiByte_word16, loByte_word16, hbody, cons_append, cons_append, cons_append,
      cons_append, hsplit]
  · cases h

/-- Decoding accepts what encoding gives and nothing else, up to one case: behind
    a frame with the longest payload the linear buffer is full, the loop stops
    and the bytes that are left are not looked at. -/
theorem decode_canonical (buf : List Byte) :
    (∀ f, framingDecode buf = (.ok, some f) → framingEncode f.type f.seq f.payload = some buf) ↔
      ¬ ∃ type seq payload out extra, payload.length = framingMaxPayload ∧
        framingEncode type seq payload = some out ∧ extra ≠ [] ∧ buf = out ++ extra := by
  constructor
  · rintro h ⟨type, seq, payload, out, extra, hlen, hout, hextra, rfl⟩
    rw [framingEncode_eq type seq (Nat.le_of_eq hlen), Option.some.injEq] at hout
    subst hout
    have henc := h _ (framingDecode_frame type seq (Nat.le_of_eq hlen) fun _ => hlen)
    rw [framingEncode_eq type seq (Nat.le_of_eq hlen), Option.some.injEq,
      self_eq_append_right] at henc
    exact hextra henc
  · intro h f hdec
    rcases buf with _ | ⟨b, bs⟩
    · cases hdec
    simp only [framingDecode] at hdec
    split_ifs at hdec with hb
    · rcases hun : framingUnstuff bs [] with _ | lin
      · rw [hun] at hdec
        cases hdec
      rw [hun] at hdec
      rcases decodeLin_sound hdec with ⟨hlen, hlin⟩
      rcases framingUnstuff_sound bs [] lin hun with ⟨mid, rest, hbs, hmid, hfull⟩
      have henc := framingEncode_eq f.type f.seq hlen
      rw [← hlin, hmid, nil_append, ← hb] at henc
      by_cases hrest : rest = []
      · rw [henc, hbs, hrest, append_nil]
      · have hsize := hfull hrest
        rw [hlin, frameLin_length, linSize] at hsize
        exact absurd ⟨f.type, f.seq, f.payload, _, rest, by omega, henc, hrest, by rw [hbs]; rfl⟩ h
    · cases hdec

/-- One byte more behind a frame of 256 zeros, and the frame is accepted. -/
theorem trailing_byte_accepted : ∃ out f,
    framingEncode 0x01 0x00 (replicate 256 0) = some out ∧
      framingDecode (out ++ [0x55]) = (.ok, some f) ∧
      framingEncode f.type f.seq f.payload ≠ some (out ++ [0x55]) := by
  have hlen : (replicate 256 (0 : Byte)).length = framingMaxPayload := length_replicate
  have henc := framingEncode_eq 0x01 0x00 (Nat.le_of_eq hlen)
  refine ⟨_, _, henc, framingDecode_frame 0x01 0x00 (Nat.le_of_eq hlen) fun _ => hlen, ?_⟩
  rw [henc, ne_eq, Option.some.injEq, self_eq_append_right]
  exact cons_ne_nil _ _

/-- Encoding any payload of at most 256 bytes gives between 7 and 525 bytes,
    and decoding those bytes gives the same frame back. -/
theorem framing_round_trip (type seq : Byte) (payload : List Byte)
    (hlen : payload.length ≤ framingMaxPayload) :
    ∃ out, framingEncode type seq payload = some out ∧
      7 ≤ out.length ∧ out.length ≤ framingMaxEncoded ∧
      framingDecode out = (.ok,
        some { type := type, seq := seq, len := payload.length, payload := payload }) := by
  have hlin := frameLin_length type seq payload
  refine ⟨_, framingEncode_eq type seq hlen, ?_, ?_, ?_⟩
  · have := length_le_stuff (frameLin type seq payload)
    rw [length_cons]
    omega
  · have := stuff_length_le (frameLin type seq payload)
    rw [length_cons]
    unfold framingMaxEncoded
    unfold framingMaxPayload at hlen
    omega
  · have hdec := framingDecode_frame type seq hlen (absurd rfl)
    rwa [append_nil] at hdec

/-- The round trip on a frame whose type, sequence number and payload are all
    delimiter bytes. -/
theorem framing_round_trip_delimiters :
    [frameStart, frameStart].length ≤ framingMaxPayload ∧
    ∃ out, framingEncode frameStart frameStart [frameStart, frameStart] = some out ∧
      7 ≤ out.length ∧ out.length ≤ framingMaxEncoded ∧
      framingDecode out = (.ok, some
        { type := frameStart, seq := frameStart, len := 2, payload := [frameStart, frameStart] }) :=
  ⟨by decide, framing_round_trip frameStart frameStart [frameStart, frameStart] (by decide)⟩

end CortexForge.Framing
