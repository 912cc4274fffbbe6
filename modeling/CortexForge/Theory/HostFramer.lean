import CortexForge.Core.HostFramer
import CortexForge.Theory.Receiver
import Mathlib.Data.Nat.Bitwise

/-!
# The Kernel's and the Host's Receiver Agree

The two receivers of the framing protocol on one stream of bytes. For the kernel a
stream is a line with all its bytes and, at the end, a look at an empty ring past the
deadline. The loops are compared from the inside out: each part of the kernel's
receiver gives the outcome of the host's part (`outcome`), until the length field. There
the kernel gives up on a length above 256, which the host does not look at.

The checksums are the same loop on a 16-bit word and on an integer that is cut to 16
bits after every shift.

## Main definitions

* `lineOf`: The line for a stream.
* `outcome`: The kernel's name for what the host's framer finds.

## Theorems

* `crc_host`: The checksums agree.
* `readLogical_host`, `readMany_host`, `syncStart_host`: So do the loops.
* `readBody_host`, `haveType_host`: So do they on frames, but for their length.
* `receivers_agree`: The two receivers on any stream.
-/

namespace CortexForge.Framing

open HostFramer List

section

theorem word16_toNat (hi lo : Byte) : (word16 hi lo).toNat = (hi.toNat <<< 8) ||| lo.toNat := by
  unfold word16
  rw [BitVec.toNat_or, BitVec.toNat_shiftLeft, BitVec.toNat_setWidth, BitVec.toNat_setWidth,
    Nat.mod_eq_of_lt (by omega : hi.toNat < 2 ^ 16),
      Nat.mod_eq_of_lt (by omega : lo.toNat < 2 ^ 16)]
  congr 1
  exact Nat.mod_eq_of_lt (by omega)

/-- The bit that is tested is the sign of the word. -/
theorem msb_host (crc : BitVec 16) : crc.toNat &&& 0x8000 ≠ 0 ↔ crc.msb = true := by
  have hbit : crc.toNat &&& 0x8000 = (crc.toNat.testBit 15).toNat * 2 ^ 15 :=
    Nat.and_two_pow crc.toNat 15
  rw [hbit, BitVec.msb_eq_getLsbD_last, BitVec.getLsbD]
  cases crc.toNat.testBit 15
  · exact iff_of_false (fun hc => hc rfl) Bool.false_ne_true
  · exact iff_of_true (by decide) rfl

theorem crcBit_host (crc : BitVec 16) : (crcBit crc).toNat = crcStep crc.toNat := by
  have hmask : ∀ n : Nat, n &&& 0xFFFF = n % 2 ^ 16 := fun n => Nat.and_two_pow_sub_one_eq_mod n 16
  unfold crcBit crcStep
  by_cases hmsb : crc.msb = true
  · rw [if_pos hmsb, if_pos ((msb_host crc).mpr hmsb), hmask, BitVec.toNat_xor,
      Nat.xor_mod_two_pow]
    rfl
  · rw [if_neg hmsb, if_neg (mt (msb_host crc).mp hmsb), hmask, BitVec.toNat_shiftLeft]

theorem crcBits_host (n : Nat) (crc : BitVec 16) :
    (Nat.repeat crcBit n crc).toNat = Nat.repeat crcStep n crc.toNat := by
  induction n with
  | zero => rfl
  | succ n ih => rw [Nat.repeat, Nat.repeat, crcBit_host, ih]

theorem crc_host (data : List Byte) : crc16CcittHost data = (crc16Ccitt data).toNat := by
  have hbyte : ∀ (crc : BitVec 16) (b : Byte),
      Nat.repeat crcStep 8 (crc.toNat ^^^ (b.toNat <<< 8)) = (crcByte crc b).toNat := by
    intro crc b
    rw [crcByte, crcBits_host, BitVec.toNat_xor, BitVec.toNat_shiftLeft, BitVec.toNat_setWidth,
      Nat.mod_eq_of_lt (by omega : b.toNat < 2 ^ 16), Nat.mod_eq_of_lt]
    omega
  have hfold : ∀ (data : List Byte) (crc : BitVec 16),
      data.foldl (fun crc b => Nat.repeat crcStep 8 (crc ^^^ (b.toNat <<< 8))) crc.toNat
        = (data.foldl crcByte crc).toNat := by
    intro data
    induction data with
    | nil => exact fun crc => rfl
    | cons b data ih =>
      intro crc
      rw [foldl_cons, hbyte]
      exact ih (crcByte crc b)
  exact hfold data 0xFFFF

end

section

variable {deadline late : Nat} {α β : Type} {buf left : List Byte}

/-- The line for a stream whose end is noticed at the tick `late`. -/
def lineOf (late : Nat) (buf : List Byte) : List Poll := buf.map .byte ++ [.idle late]

/-- What the host's framer finds, as the kernel's receiver calls it. -/
def outcome {α : Type} (late : Nat) : HostRead α × List Byte → Outcome α
  | (.none, _) => .timeout []
  | (.start t, buf) => .restart t (lineOf late buf)
  | (.value a, buf) => .done a (lineOf late buf)

theorem recvByte_nil (hlate : deadline ≤ late) : recvByte deadline (lineOf late []) = .timeout [] :=
  if_pos hlate

theorem recvByte_cons (b : Byte) (buf : List Byte) :
    recvByte deadline (lineOf late (b :: buf)) = .done b (lineOf late buf) := rfl

theorem readLogical_host (hlate : deadline ≤ late) (buf : List Byte) :
    readLogical deadline (lineOf late buf) = outcome late (logical buf) := by
  unfold readLogical
  rcases buf with _ | ⟨b, buf⟩
  · rw [recvByte_nil hlate]
    rfl
  rw [recvByte_cons, Outcome.andThen, logical.eq_def]
  simp only
  by_cases hb : b = frameStart
  · rw [if_pos hb, if_pos (show b = start from hb)]
    rcases buf with _ | ⟨n, buf⟩
    · rw [recvByte_nil hlate]
      rfl
    · rw [recvByte_cons, Outcome.andThen]
      simp only
      split_ifs with hn
      · rfl
      · rfl
  · rw [if_neg hb, if_neg (show ¬ b = start from hb)]
    rfl

/-- Going on with a value, on both sides. -/
theorem outcome_then {res : HostRead α × List Byte} {f : α → List Byte → HostRead β × List Byte}
    {g : α → List Poll → Outcome β} (h : ∀ a buf, g a (lineOf late buf) = outcome late (f a buf)) :
    (outcome late res).andThen g = outcome late (HostFramer.andThen res f) := by
  rcases res with ⟨_ | t | a, buf⟩
  · rfl
  · rfl
  · exact h a buf

theorem readMany_host (hlate : deadline ≤ late) (n : Nat) (buf : List Byte) :
    readMany deadline n (lineOf late buf) = outcome late (collect n buf) := by
  induction n generalizing buf with
  | zero => rfl
  | succ n ih =>
    rw [readMany, readLogical_host hlate]
    refine outcome_then fun x buf' => ?_
    rw [ih]
    exact outcome_then fun xs buf'' => rfl

/-- What a loop leaves of its bytes: at most all of them, less if it met a delimiter,
    and nothing if it ran out of them. -/
structure Leaves {α : Type} (buf : List Byte) (res : HostRead α × List Byte) : Prop where
  le : res.2.length ≤ buf.length
  lt : ∀ t, res.1 = .start t → res.2.length < buf.length
  nil : res.1 = .none → res.2 = []

theorem leaves_none (buf : List Byte) : Leaves buf ((.none, []) : HostRead α × List Byte) :=
  ⟨Nat.zero_le _, fun t h => (by cases h), fun _ => rfl⟩

theorem leaves_value (a : α) (h : left.length ≤ buf.length) :
    Leaves buf (.value a, left) :=
  ⟨h, fun t h => (by cases h), fun h => (by cases h)⟩

theorem leaves_start (t : Byte) (h : left.length < buf.length) :
    Leaves buf ((.start t, left) : HostRead α × List Byte) :=
  ⟨Nat.le_of_lt h, fun _ _ => h, fun h => (by cases h)⟩

theorem logical_leaves (buf : List Byte) : Leaves buf (logical buf) := by
  rw [logical.eq_def]
  rcases buf with _ | ⟨b, _ | ⟨n, buf⟩⟩
  · exact leaves_none []
  · simp only
    split
    · exact leaves_none _
    · exact leaves_value b (Nat.le_succ _)
  · have hlt : buf.length < buf.length + 1 + 1 := by omega
    simp only
    split
    · split
      · exact leaves_value _ (Nat.le_of_lt hlt)
      · exact leaves_start n hlt
    · exact leaves_value b (Nat.le_succ _)

/-- Going on with a value, where both parts leave what they should. -/
theorem leaves_then {res : HostRead α × List Byte} (h : Leaves buf res)
    {f : α → List Byte → HostRead β × List Byte}
    (hf : ∀ a left, res = (.value a, left) → Leaves left (f a left)) :
    Leaves buf (HostFramer.andThen res f) := by
  rcases res with ⟨_ | t | a, left⟩
  · exact ⟨h.le, fun t h => (by cases h), fun _ => h.nil rfl⟩
  · exact leaves_start t (h.lt t rfl)
  · have hrest := hf a left rfl
    exact ⟨Nat.le_trans hrest.le h.le, fun t ht => Nat.lt_of_lt_of_le (hrest.lt t ht) h.le,
      hrest.nil⟩

theorem collect_leaves (n : Nat) : ∀ buf : List Byte, Leaves buf (collect n buf) := by
  induction n with
  | zero => exact fun buf => leaves_value [] (Nat.le_refl _)
  | succ n ih =>
    intro buf
    refine leaves_then (logical_leaves buf) fun x left _ => leaves_then (ih left) fun xs left' _ =>
      ?_
    exact leaves_value (x :: xs) (Nat.le_refl _)

theorem frameOnce_leaves (t : Byte) (buf : List Byte) : Leaves buf (frameOnce t buf) := by
  refine leaves_then (collect_leaves 3 buf) fun hdr left _ => ?_
  refine leaves_then (collect_leaves _ left) fun payload left' _ => ?_
  refine leaves_then (collect_leaves 2 left') fun crcb left'' _ => ?_
  exact leaves_value _ (Nat.le_refl _)

/-- With enough of its counter the framer returns nothing only at the end of the
    stream. -/
theorem frameLoop_none (fuel : Nat) : ∀ {t : Byte} {buf left : List Byte}, buf.length < fuel →
    frameLoop fuel t buf = (none, left) → left = [] := by
  induction fuel with
  | zero => exact nofun
  | succ fuel ih =>
    intro t buf left hfuel h
    have hleaves := frameOnce_leaves t buf
    rw [frameLoop] at h
    generalize frameOnce t buf = res at h hleaves
    rcases res with ⟨_ | u | f, buf'⟩
    · injection h with _ hleft
      exact hleft ▸ hleaves.nil rfl
    · have hlt : buf'.length < buf.length := hleaves.lt u rfl
      exact ih (by omega) h
    · cases h

theorem sync_none (buf : List Byte) : ∀ left, sync buf = (none, left) → left = [] := by
  fun_induction sync buf with
  | case1 => rintro _ ⟨⟩; rfl
  | case2 _ _ _ ih => exact ih
  | case3 => rintro _ ⟨⟩; rfl
  | case4 => nofun
  | case5 _ _ _ _ _ ih => exact ih

theorem syncStart_host (hlate : deadline ≤ late) (buf : List Byte) : ∀ fuel, buf.length ≤ fuel →
    syncStart deadline (fuel + 1) (lineOf late buf) = match sync buf with
      | (none, _) => .timeout []
      | (some t, buf) => .done t (lineOf late buf) := by
  have hvalid : ∀ t, validType t = true ↔ t = 0x01 ∨ t = 0x02 ∨ t = 0x03 := fun t => by
    unfold validType
    rw [Bool.or_eq_true, Bool.or_eq_true, beq_iff_eq, beq_iff_eq, beq_iff_eq, or_assoc]
    rfl
  fun_induction sync buf with
  | case1 =>
    intro fuel _
    rw [syncStart, recvByte_nil hlate]
    rfl
  | case2 b buf hb ih =>
    intro fuel hfuel
    rw [length_cons] at hfuel
    rw [syncStart, recvByte_cons, Outcome.andThen, if_pos (show b ≠ frameStart from hb)]
    exact Nat.sub_add_cancel (by omega : 1 ≤ fuel) ▸ ih (fuel - 1) (by omega)
  | case3 b hb =>
    intro fuel _
    rw [syncStart, recvByte_cons, Outcome.andThen, if_neg (show ¬ b ≠ frameStart from hb),
      recvByte_nil hlate]
    rfl
  | case4 b hb t buf ht =>
    intro fuel _
    rw [syncStart, recvByte_cons, Outcome.andThen, if_neg (show ¬ b ≠ frameStart from hb),
      recvByte_cons, Outcome.andThen, if_pos ((hvalid t).mpr ht)]
  | case5 b hb t buf ht ih =>
    -- A delimiter is taken with the byte behind it.
    intro fuel hfuel
    rw [length_cons, length_cons] at hfuel
    rw [syncStart, recvByte_cons, Outcome.andThen, if_neg (show ¬ b ≠ frameStart from hb),
      recvByte_cons, Outcome.andThen, if_neg (mt (hvalid t).mp ht)]
    exact Nat.sub_add_cancel (by omega : 1 ≤ fuel) ▸ ih (fuel - 1) (by omega)

end

section

variable {deadline late : Nat}

/-- The frame that the host's framer returns, as the kernel hands it out. -/
def received (f : HostFrame) : Code × Option Frame :=
  (if f.crcOk then .ok else .errCrc,
    some { type := f.type, seq := f.seq, len := f.payload.length, payload := f.payload })

/-- One frame: the kernel refuses its length, or finds what the host finds. -/
theorem readBody_host (hlate : deadline ≤ late) (t : Byte) (buf : List Byte) :
    (∃ rest, readBody deadline t (lineOf late buf) = .done (.errBadlen, none) rest) ∨
    readBody deadline t (lineOf late buf) = match frameOnce t buf with
      | (.none, _) => .timeout []
      | (.start u, buf) => .restart u (lineOf late buf)
      | (.value f, buf) => .done (received f) (lineOf late buf) := by
  unfold readBody frameOnce
  rw [readMany_host hlate]
  rcases collect 3 buf with ⟨_ | u | hdr, buf1⟩
  · exact .inr rfl
  · exact .inr rfl
  rw [outcome, Outcome.andThen]
  simp only [HostFramer.andThen]
  rw [← word16_toNat]
  split_ifs with hbad
  · exact .inl ⟨_, rfl⟩
  rw [readMany_host hlate]
  refine .inr ?_
  rcases hpayload : collect (word16 (hdr.getD 1 0) (hdr.getD 2 0)).toNat buf1 with
    ⟨_ | u | payload, buf2⟩
  · rfl
  · rfl
  have hread := readMany_host hlate (word16 (hdr.getD 1 0) (hdr.getD 2 0)).toNat buf1
  rw [hpayload] at hread
  have hlen := ((readMany_done_iff _).mp hread).1
  rw [outcome, Outcome.andThen, readMany_host hlate]
  simp only
  rcases collect 2 buf2 with ⟨_ | u | crcb, buf3⟩
  · rfl
  · rfl
  rw [outcome, Outcome.andThen]
  simp only [received]
  rw [← word16_toNat, crc_host, hlen]
  -- The words are equal if and only if the integers are.
  by_cases hcrc : crc16Ccitt (t :: hdr.getD 0 0 :: hdr.getD 1 0 :: hdr.getD 2 0 :: payload)
      = word16 (crcb.getD 0 0) (crcb.getD 1 0)
  · rw [hcrc, if_neg (not_not.mpr rfl), beq_self_eq_true, if_pos rfl]
  · have hne := mt BitVec.eq_of_toNat_eq hcrc
    rw [if_pos hcrc, beq_eq_false_iff_ne.mpr hne, if_neg Bool.false_ne_true]

/-- The loops over frames, each with enough of its counter. -/
theorem haveType_host (hlate : deadline ≤ late) (fuel : Nat) : ∀ (hostFuel : Nat) (t : Byte)
    (buf : List Byte), buf.length < fuel → buf.length < hostFuel →
    (∃ rest, haveType deadline fuel t (lineOf late buf) = .done (.errBadlen, none) rest) ∨
    haveType deadline fuel t (lineOf late buf) = match frameLoop hostFuel t buf with
      | (none, _) => .timeout []
      | (some f, buf) => .done (received f) (lineOf late buf) := by
  induction fuel with
  | zero => exact nofun
  | succ fuel ih =>
    intro hostFuel t buf hfuel hhost
    rcases hostFuel with _ | hostFuel
    · omega
    rw [haveType, frameLoop]
    rcases readBody_host hlate t buf with ⟨rest, hbad⟩ | hbody
    · rw [hbad]
      exact .inl ⟨rest, rfl⟩
    rw [hbody]
    rcases honce : frameOnce t buf with ⟨_ | u | f, buf'⟩
    · exact .inr rfl
    · -- A delimiter: both go on with the frame it begins.
      have hleaves := frameOnce_leaves t buf
      rw [honce] at hleaves
      have hlt : buf'.length < buf.length := hleaves.lt u rfl
      exact ih hostFuel u buf' (by omega) (by omega)
    · exact .inr rfl

end

/-- For every stream the kernel's call returns. If it does not refuse a length, the
    host's framer reads the same bytes: it returns nothing if and only if the kernel's
    receiver runs into its deadline, and otherwise the same frame, with the checksum
    right if and only if the kernel says so. -/
theorem receivers_agree (stats : FramingStats) (now timeoutTicks late : Nat)
    (hlate : wrap64 (now + timeoutTicks) ≤ late) (stream : List Byte) :
    ∃ code out stats' rest,
      framingRecv stats now timeoutTicks (lineOf late stream) = some (code, out, stats', rest) ∧
      (code ≠ .errBadlen → match recvFrame stream with
        | (none, left) => code = .errTimeout ∧ left = [] ∧ rest = []
        | (some f, left) => code ≠ .errTimeout ∧ rest = lineOf late left ∧
            out = some
              { type := f.type, seq := f.seq, len := f.payload.length, payload := f.payload } ∧
            (f.crcOk = true ↔ code = .ok)) := by
  have hline : ∀ buf : List Byte, buf.length ≤ (lineOf late buf).length := fun buf => by
    rw [lineOf, length_append, length_map]
    omega
  unfold framingRecv recvFrame
  simp only
  rw [syncStart_host hlate stream _ (hline stream)]
  rcases hsync : sync stream with ⟨_ | t, buf⟩
  · exact ⟨_, _, _, _, rfl, fun _ => ⟨rfl, sync_none stream buf hsync, rfl⟩⟩
  simp only [Outcome.andThen]
  rcases haveType_host hlate _ (buf.length + 1) t buf (Nat.lt_succ_of_le (hline buf))
    (Nat.lt_succ_self _) with ⟨rest, hbad⟩ | hhave
  · rw [hbad]
    exact ⟨_, _, _, _, rfl, fun hc => absurd rfl hc⟩
  rw [hhave]
  rcases hloop : frameLoop (buf.length + 1) t buf with ⟨_ | f, left⟩
  · exact ⟨_, _, _, _, rfl, fun _ => ⟨rfl, frameLoop_none _ (Nat.lt_succ_self _) hloop, rfl⟩⟩
  · refine ⟨_, _, _, _, rfl, fun _ => ⟨?_, rfl, rfl, ?_⟩⟩
    · cases f.crcOk <;> exact Code.noConfusion
    · cases f.crcOk
      · exact iff_of_false Bool.false_ne_true Code.noConfusion
      · exact iff_of_true rfl rfl

/-- A frame cut short, with a whole one behind it. -/
theorem receivers_agree_cut :
    ∃ code out stats' rest,
      framingRecv {} 0 100 (lineOf 100 [0xAA, 0x01, 0x07, 0xAA, 0x02, 0x05, 0x00, 0x00, 0x82, 0x58])
        = some (code, out, stats', rest) ∧
      (code ≠ .errBadlen → code ≠ .errTimeout ∧ rest = lineOf 100 [] ∧
        out = some { type := 0x02, seq := 0x05, len := 0, payload := [] } ∧
        (true = true ↔ code = .ok)) := by
  have hagree := receivers_agree {} 0 100 100 (by decide)
    [0xAA, 0x01, 0x07, 0xAA, 0x02, 0x05, 0x00, 0x00, 0x82, 0x58]
  have hhost : recvFrame [0xAA, 0x01, 0x07, 0xAA, 0x02, 0x05, 0x00, 0x00, 0x82, 0x58]
      = (some ⟨0x02, 0x05, [], true⟩, []) := by decide +kernel
  rw [hhost] at hagree
  exact hagree

end CortexForge.Framing
