import CortexForge.Lib.Crc
import CortexForge.Theory.Accepts

/-!
# The Strength of the Checksum

Which errors the receiver's comparison of checksums finds. The loop of the source is
division by `x^16 + x^12 + x^5 + 1`, with the 16 bits of the checksum behind the body;
bits go out from the highest of each byte. Both sides of the comparison change by the
residue of the bits that were flipped, so an error passes if and only if the residue
of its bits is zero (`error_passes_iff`).

Three facts about the polynomial then do it: its lowest coefficient is one, it has an
even number of terms, and no power of `x` below the 2096th is one. The last is checked
by going through these powers.

## Main definitions

* `errorBits`: The bits of an error, in the order they are sent.

## Theorems

* `crc_error`: The checksum of a body with an error.
* `error_passes_iff`: When the comparison does not notice an error.
* `crc_detects`: Up to three bits, and up to 16 bits in a row, are noticed.
-/

namespace CortexForge.Framing

open Crc Function List BitVec

/-- The bits of a word, the highest first. -/
def bitsOf {n : Nat} (b : BitVec n) : List Bool := (range n).reverse.map b.getLsbD

/-- The bits of an error in a body and its checksum. -/
def errorBits (ebody : List Byte) (ecrc : BitVec 16) : List Bool :=
  ebody.flatMap bitsOf ++ bitsOf ecrc

/-- The polynomial of the checksum without its leading term. -/
def crcPoly : BitVec 16 := 0x1021

section

theorem bitsOf_length {n : Nat} (b : BitVec n) : (bitsOf b).length = n := by
  simp [bitsOf]

theorem errorBits_length (ebody : List Byte) (ecrc : BitVec 16) :
    (errorBits ebody ecrc).length = 8 * ebody.length + 16 := by
  have hbytes : (ebody.flatMap bitsOf).length = 8 * ebody.length := by
    induction ebody with
    | nil => rfl
    | cons b ebody ih =>
      rw [flatMap_cons, length_append, bitsOf_length, length_cons]
      omega
  rw [errorBits, length_append, hbytes, bitsOf_length]

/-- The bits of a word that is short enough are its residue. -/
theorem residue_bitsOf {n : Nat} (b : BitVec n) (hn : n ≤ 16) :
    residue crcPoly 0#16 (bitsOf b) = b.setWidth 16 := by
  refine eq_of_getLsbD_eq fun i hi => ?_
  rw [residue_short crcPoly _ (by rw [bitsOf_length]; exact hn), bitsOf, ← map_reverse,
    reverse_reverse, getLsbD_setWidth, decide_eq_true hi, Bool.true_and]
  by_cases hlt : i < n
  · rw [getD_eq_getElem _ _ (by rw [length_map, length_range]; exact hlt),
      getElem_map, getElem_range]
  · rw [getD_eq_default _ _ (by rw [length_map, length_range]; omega),
      getLsbD_of_ge b i (Nat.le_of_not_lt hlt)]

theorem crcByte_eq (crc : BitVec 16) (b : Byte) :
    crcByte crc b = (mulX crcPoly)^[8] (crc ^^^ (b.setWidth 16 <<< 8)) := rfl

/-- A byte moved to the top of the register has been multiplied eight times. -/
theorem byte_shift (b : Byte) : (mulX crcPoly)^[8] (b.setWidth 16) = b.setWidth 16 <<< 8 := by
  revert b
  decide +kernel

theorem crcByte_xor (a c : BitVec 16) (b e : Byte) :
    crcByte (a ^^^ c) (b ^^^ e) = crcByte a b ^^^ crcByte c e := by
  rw [crcByte_eq, crcByte_eq, crcByte_eq, ← iterate_mulX_xor, setWidth_xor,
    shiftLeft_xor_distrib]
  congr 1
  rw [BitVec.xor_assoc, BitVec.xor_assoc, ← BitVec.xor_assoc c, BitVec.xor_comm c,
    BitVec.xor_assoc (b.setWidth 16 <<< 8)]

/-- The register is 16 multiplications ahead of the division. -/
theorem crcByte_residue (r : BitVec 16) (b : Byte) :
    crcByte ((mulX crcPoly)^[16] r) b = (mulX crcPoly)^[16] (residue crcPoly r (bitsOf b)) := by
  rw [crcByte_eq, residue_from, residue_bitsOf b (by decide), bitsOf_length, iterate_mulX_xor,
    iterate_mulX_xor, ← byte_shift, ← iterate_add_apply, ← iterate_add_apply,
    ← iterate_add_apply]

theorem foldl_residue (es : List Byte) (r : BitVec 16) :
    es.foldl crcByte ((mulX crcPoly)^[16] r)
      = (mulX crcPoly)^[16] (residue crcPoly r (es.flatMap bitsOf)) := by
  induction es generalizing r with
  | nil => rfl
  | cons e es ih =>
    rw [foldl_cons, crcByte_residue, ih, flatMap_cons, residue_append]

theorem foldl_xor (bs : List Byte) : ∀ (es : List Byte) (a c : BitVec 16), bs.length = es.length →
    (zipWith (· ^^^ ·) bs es).foldl crcByte (a ^^^ c)
      = bs.foldl crcByte a ^^^ es.foldl crcByte c := by
  induction bs with
  | nil =>
    intro es a c hlen
    rcases es with _ | ⟨e, es⟩
    · rfl
    · cases hlen
  | cons b bs ih =>
    intro es a c hlen
    rcases es with _ | ⟨e, es⟩
    · cases hlen
    rw [zipWith_cons_cons, foldl_cons, crcByte_xor]
    exact ih es _ _ (Nat.succ.inj hlen)

/-- The checksum of a body with an error in it. -/
theorem crc_error (body ebody : List Byte) (hlen : ebody.length = body.length) :
    crc16Ccitt (zipWith (· ^^^ ·) body ebody) = crc16Ccitt body ^^^
      (mulX crcPoly)^[16] (residue crcPoly 0#16 (ebody.flatMap bitsOf)) := by
  have hsplit := foldl_xor body ebody 0xFFFF 0#16 hlen.symm
  have hzero := foldl_residue ebody 0#16
  rw [iterate_mulX_zero] at hzero
  rw [hzero] at hsplit
  exact hsplit

/-- The comparison does not notice an error if and only if its residue is zero. -/
theorem error_passes_iff (body ebody : List Byte) (ecrc : BitVec 16)
    (hlen : ebody.length = body.length) :
    crc16Ccitt (zipWith (· ^^^ ·) body ebody) = crc16Ccitt body ^^^ ecrc ↔
      residue crcPoly 0#16 (errorBits ebody ecrc) = 0#16 := by
  rw [crc_error body ebody hlen, errorBits, residue_append, residue_from crcPoly (bitsOf ecrc),
    bitsOf_length, residue_bitsOf ecrc (Nat.le_refl 16), BitVec.setWidth_eq]
  constructor
  · intro h
    have hcancel := congrArg (crc16Ccitt body ^^^ ·) h
    simp only [← BitVec.xor_assoc, BitVec.xor_self, BitVec.zero_xor] at hcancel
    simp [hcancel]
  · intro h
    have hcancel := congrArg (· ^^^ ecrc) h
    simp only [BitVec.xor_assoc, BitVec.xor_self, BitVec.xor_zero, BitVec.zero_xor] at hcancel
    rw [hcancel]

end

section

/-- No power of `x` that two bits of a frame can be apart is one. -/
theorem powers_avoid_one : avoidsOne crcPoly 2095 (bit 16 true) = true := by
  decide +kernel

/-- Up to three bits leave a residue. -/
theorem few_bits {ds : List Bool} (hlen : ds.length ≤ 2096) (hne : true ∈ ds)
    (hcount : ds.count true ≤ 3) : residue crcPoly 0#16 ds ≠ 0#16 := by
  intro hzero
  have hpos := count_pos_iff.mpr hne
  by_cases hodd : ds.count true % 2 = 1
  · -- An odd number of bits has an odd residue.
    have hparity := residue_parity (by decide : 0 < 16) (by decide : parity crcPoly = true) ds 0#16
    rw [hzero, parity_zero, paritySum_count, decide_eq_true hodd] at hparity
    cases hparity
  · have htwo : ds.count true = 2 := by omega
    rcases first_true hne with ⟨a, rest, rfl⟩
    rw [count_append, count_cons_self, count_replicate, if_neg (by decide)] at htwo
    have hrest : true ∈ rest := count_pos_iff.mp (by omega)
    rcases first_true hrest with ⟨b, rest', rfl⟩
    rw [count_append, count_cons_self, count_replicate] at htwo
    have hlast := all_false (count_eq_zero.mp (by omega : rest'.count true = 0))
    rw [hlast] at hzero
    simp only [length_append, length_cons, length_replicate] at hlen
    exact avoidsOne_spec 2095 powers_avoid_one (b + 1) (Nat.succ_pos b) (by omega)
      (residue_two (by decide) hzero)

/-- Up to 16 bits in a row leave a residue. -/
theorem burst_bits {ds : List Bool} (hne : true ∈ ds) {i : Nat}
    (hburst : ∀ j, ds.getD j false = true → i ≤ j ∧ j < i + 16) :
    residue crcPoly 0#16 ds ≠ 0#16 := by
  intro hzero
  rcases burst_split hburst with ⟨a, b, mid, hmid, rfl⟩
  have hall := residue_burst (by decide) hmid hzero
  rcases mem_append.mp hne with hne | hne
  · rcases mem_append.mp hne with hne | hne
    · exact Bool.false_ne_true (eq_of_mem_replicate hne).symm
    · exact Bool.false_ne_true (hall true hne).symm
  · exact Bool.false_ne_true (eq_of_mem_replicate hne).symm

end

/-- An error of up to three bits, or within 16 bits in a row, in a body of up to 260
    bytes and its checksum makes the comparison fail. If it leaves the length field as
    it should be, a receiver that begins to read the frame reads it to its end and
    returns a CRC error. -/
theorem crc_detects (body ebody : List Byte) (ecrc : BitVec 16) (hbody : body.length ≤ 260)
    (hlen : ebody.length = body.length) (hne : true ∈ errorBits ebody ecrc)
    (herror : (errorBits ebody ecrc).count true ≤ 3 ∨
      ∃ i, ∀ j, (errorBits ebody ecrc).getD j false = true → i ≤ j ∧ j < i + 16) :
    crc16Ccitt (zipWith (· ^^^ ·) body ebody) ≠ crc16Ccitt body ^^^ ecrc ∧
    ∀ t seq payload, zipWith (· ^^^ ·) body ebody = frameBody t seq payload →
      ∀ stats now timeoutTicks bytes line rest, Begins bytes t →
        Takes (wrap64 (now + timeoutTicks)) (bytes ++ stuff ((frameBody t seq payload).tail ++
          [hiByte (crc16Ccitt body ^^^ ecrc), loByte (crc16Ccitt body ^^^ ecrc)])) line rest →
        framingRecv stats now timeoutTicks line = some (.errCrc,
          some { type := t, seq := seq, len := payload.length, payload := payload },
          countRecv stats .errCrc, rest) := by
  have hfails : crc16Ccitt (zipWith (· ^^^ ·) body ebody) ≠ crc16Ccitt body ^^^ ecrc := by
    rw [ne_eq, error_passes_iff body ebody ecrc hlen]
    rcases herror with hcount | ⟨i, hburst⟩
    · exact few_bits (by rw [errorBits_length]; omega) hne hcount
    · exact burst_bits hne hburst
  refine ⟨hfails, ?_⟩
  intro t seq payload heq stats now timeoutTicks bytes line rest hbegins htakes
  have hpayload : payload.length ≤ framingMaxPayload := by
    have hcount := congrArg length heq
    rw [length_zipWith, hlen, frameBody] at hcount
    simp only [length_cons] at hcount
    unfold framingMaxPayload
    omega
  rw [heq] at hfails
  rcases takes_append_iff.mp htakes with ⟨mid, h1, h2⟩
  have hread := readBody_crc t seq payload _ hpayload h2
  rw [if_pos hfails] at hread
  exact framingRecv_takes hbegins h1 hread

/-- The last bit of the sequence number and the highest two bits of the checksum. -/
theorem crc_detects_three :
    crc16Ccitt (zipWith (· ^^^ ·) [0x01, 0x07, 0x00, 0x01, 0x41] [0x00, 0x01, 0x00, 0x00, 0x00])
      ≠ crc16Ccitt [0x01, 0x07, 0x00, 0x01, 0x41] ^^^ 0xC000 :=
  (crc_detects [0x01, 0x07, 0x00, 0x01, 0x41] [0x00, 0x01, 0x00, 0x00, 0x00] 0xC000 (by decide)
    (by decide) (by decide) (.inl (by decide))).1

end CortexForge.Framing
