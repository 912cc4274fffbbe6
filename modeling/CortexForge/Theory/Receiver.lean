import CortexForge.Core.Receiver
import CortexForge.Theory.Framing

/-!
# Reading the Line

What the loops of the receiver take off the line, in both directions.

`Delivers` relates the polls of a call to the bytes they find: any number of
looks at an empty ring before each byte, all of them before the deadline. It ends
with a byte, because a receiver does not look again once it has its last one.
`Takes` is the same for the polls at the front of a line. Each loop of the receiver
then has one lemma for each of its ways out: it gets there if and only if the line
has the bytes for it.

The stuffing is undone byte by byte, so a delimiter of the body is never seen
without its zero and never restarts the frame.

## Main definitions

* `Delivers`, `Takes`: Polls that find given bytes in time.
* `Unfinished`: Part of a frame behind its type.

## Theorems

* `takes_cons_iff`, `takes_append_iff`: Taking one part after another.
* `readLogical_done_iff`, `readMany_done_iff`: Bytes of a body.
* `readBody_restart_iff`, `readBody_done_inv`, `readBody_crc`: How a body ends.
-/

namespace CortexForge.Framing

open List

/-- The polls find exactly these bytes before `deadline`, the last of them with
    the last poll. -/
inductive Delivers (deadline : Nat) : List Byte → List Poll → Prop
  | nil : Delivers deadline [] []
  | byte (b : Byte) (bs : List Byte) (polls : List Poll) (h : Delivers deadline bs polls) :
      Delivers deadline (b :: bs) (.byte b :: polls)
  | idle (now : Nat) (b : Byte) (bs : List Byte) (polls : List Poll) (hnow : now < deadline)
      (h : Delivers deadline (b :: bs) polls) : Delivers deadline (b :: bs) (.idle now :: polls)

/-- The polls `used` are taken off the line and find `bs`. -/
structure Takes (deadline : Nat) (bs : List Byte) (line rest : List Poll) : Prop where
  intro ::
  used : ∃ polls, line = polls ++ rest ∧ Delivers deadline bs polls

section

variable {deadline : Nat} {b : Byte} {bs cs : List Byte} {polls line rest : List Poll}

theorem delivers_length (h : Delivers deadline bs polls) : bs.length ≤ polls.length := by
  induction h with
  | nil => exact Nat.le_refl 0
  | byte b bs polls _ ih => exact Nat.succ_le_succ ih
  | idle now b bs polls _ _ ih => exact Nat.le_succ_of_le ih

/-- Bytes that are there at every look. -/
theorem delivers_bytes (deadline : Nat) (bs : List Byte) :
    Delivers deadline bs (bs.map .byte) := by
  induction bs with
  | nil => exact .nil
  | cons b bs ih => exact .byte b bs _ ih

/-- The bytes that polls find. -/
def bytesOf (polls : List Poll) : List Byte :=
  polls.filterMap fun
    | .byte b => some b
    | .idle _ => none

theorem bytesOf_delivers (h : Delivers deadline bs polls) : bytesOf polls = bs := by
  induction h with
  | nil => rfl
  | byte b bs polls _ ih => exact congrArg (b :: ·) ih
  | idle now b bs polls _ _ ih => exact ih

theorem takes_length (h : Takes deadline bs line rest) :
    bs.length + rest.length ≤ line.length := by
  rcases h.used with ⟨polls, rfl, hdel⟩
  rw [length_append]
  exact Nat.add_le_add_right (delivers_length hdel) _

theorem takes_nil_iff : Takes deadline [] line rest ↔ line = rest := by
  constructor
  · rintro ⟨⟨polls, rfl, hdel⟩⟩
    cases hdel
    rfl
  · rintro rfl
    exact ⟨[], rfl, .nil⟩

/-- Waiting for a byte takes it off the line. -/
theorem takes_cons_iff : Takes deadline (b :: bs) line rest ↔
    ∃ mid, recvByte deadline line = .done b mid ∧ Takes deadline bs mid rest := by
  -- Looks at an empty ring before the byte are skipped.
  fun_induction recvByte deadline line with
  | case1 =>
    refine iff_of_false ?_ nofun
    rintro ⟨⟨_ | ⟨_, _⟩, heq, hdel⟩⟩
    · cases hdel
    · cases heq
  | case2 c line =>
    constructor
    · rintro ⟨⟨_, heq, _ | ⟨_, _, polls, hdel⟩ | _⟩⟩
      · cases heq
        exact ⟨_, rfl, polls, rfl, hdel⟩
      · cases heq
    · rintro ⟨_, ⟨⟩, polls, rfl, hdel⟩
      exact ⟨.byte b :: polls, rfl, .byte b bs polls hdel⟩
  | case3 now line hnow =>
    refine iff_of_false ?_ nofun
    rintro ⟨⟨_, heq, _ | _ | ⟨_, _, _, polls, hearly, _⟩⟩⟩
    · cases heq
    · cases heq
      omega
  | case4 now line hnow ih =>
    rw [← ih]
    constructor
    · rintro ⟨⟨_, heq, _ | _ | ⟨_, _, _, polls, _, hdel⟩⟩⟩
      · cases heq
      · cases heq
        exact ⟨polls, rfl, hdel⟩
    · rintro ⟨polls, rfl, hdel⟩
      exact ⟨.idle now :: polls, rfl, .idle now b bs polls (Nat.lt_of_not_le hnow) hdel⟩

theorem takes_append_iff : Takes deadline (bs ++ cs) line rest ↔
    ∃ mid, Takes deadline bs line mid ∧ Takes deadline cs mid rest := by
  induction bs generalizing line with
  | nil =>
    constructor
    · exact fun h => ⟨line, takes_nil_iff.mpr rfl, h⟩
    · rintro ⟨mid, hnil, h⟩
      rw [takes_nil_iff.mp hnil]
      exact h
  | cons b bs ih =>
    simp only [cons_append, takes_cons_iff, ih]
    constructor
    · rintro ⟨m1, hb, m2, hbs, hcs⟩
      exact ⟨m2, ⟨m1, hb, hbs⟩, hcs⟩
    · rintro ⟨m2, ⟨m1, hb, hbs⟩, hcs⟩
      exact ⟨m1, hb, m2, hbs, hcs⟩

theorem recvByte_iff : recvByte deadline line = .done b rest ↔ Takes deadline [b] line rest := by
  simp only [takes_cons_iff, takes_nil_iff, exists_eq_right]

theorem recvByte_no_restart {t : Byte} : recvByte deadline line ≠ .restart t rest := by
  fun_induction recvByte deadline line with
  | case1 => nofun
  | case2 => nofun
  | case3 => nofun
  | case4 _ _ _ ih => exact ih

end

section

variable {α β : Type} {o : Outcome α} {f : α → List Poll → Outcome β} {rest : List Poll}

theorem andThen_done_iff {v : β} :
    o.andThen f = .done v rest ↔ ∃ x line, o = .done x line ∧ f x line = .done v rest := by
  cases o <;> simp [Outcome.andThen]

theorem andThen_restart_iff {t : Byte} : o.andThen f = .restart t rest ↔
    o = .restart t rest ∨ ∃ x line, o = .done x line ∧ f x line = .restart t rest := by
  cases o <;> simp [Outcome.andThen]

end

section

variable {deadline : Nat} {line rest : List Poll} {u t : Byte}

/-- Reading a byte of a body undoes its stuffing. -/
theorem readLogical_done_iff {b : Byte} :
    readLogical deadline line = .done b rest ↔ Takes deadline (stuffByte b) line rest := by
  rw [readLogical, andThen_done_iff, stuffByte]
  constructor
  · rintro ⟨x, mid, hx, h⟩
    split_ifs at h with hstart
    · -- A delimiter of the body, behind which there was a zero.
      rcases andThen_done_iff.mp h with ⟨n, mid', hn, h⟩
      split_ifs at h with hzero
      cases h
      rw [if_pos rfl, ← hstart, ← hzero]
      exact takes_cons_iff.mpr ⟨mid, hx, recvByte_iff.mp hn⟩
    · cases h
      rw [if_neg hstart]
      exact recvByte_iff.mp hx
  · intro h
    split_ifs at h with hb
    · rcases takes_cons_iff.mp h with ⟨mid, hx, hn⟩
      refine ⟨_, mid, hx, ?_⟩
      rw [if_pos hb, recvByte_iff.mpr hn, Outcome.andThen, if_pos rfl, hb]
    · exact ⟨b, rest, recvByte_iff.mpr h, if_neg hb⟩

theorem readLogical_restart_iff : readLogical deadline line = .restart u rest ↔
    u ≠ 0x00 ∧ Takes deadline [frameStart, u] line rest := by
  rw [readLogical, andThen_restart_iff, or_iff_right recvByte_no_restart]
  constructor
  · rintro ⟨x, mid, hx, h⟩
    split_ifs at h with hstart
    rcases andThen_restart_iff.mp h with hc | ⟨n, mid', hn, h⟩
    · exact absurd hc recvByte_no_restart
    split_ifs at h with hzero
    cases h
    rw [hstart] at hx
    exact ⟨hzero, takes_cons_iff.mpr ⟨mid, hx, recvByte_iff.mp hn⟩⟩
  · rintro ⟨hu, h⟩
    rcases takes_cons_iff.mp h with ⟨mid, hx, hn⟩
    refine ⟨_, mid, hx, ?_⟩
    rw [if_pos rfl, recvByte_iff.mpr hn, Outcome.andThen, if_neg hu]

theorem readMany_done_iff (n : Nat) {xs : List Byte} : readMany deadline n line = .done xs rest ↔
    xs.length = n ∧ Takes deadline (stuff xs) line rest := by
  induction n generalizing line rest xs with
  | zero =>
    constructor
    · rintro ⟨⟩
      exact ⟨rfl, takes_nil_iff.mpr rfl⟩
    · rintro ⟨hlen, h⟩
      rw [eq_nil_of_length_eq_zero hlen] at h ⊢
      rw [takes_nil_iff.mp h, readMany]
  | succ n ih =>
    simp only [readMany, andThen_done_iff, readLogical_done_iff, ih]
    constructor
    · rintro ⟨b, mid, hb, bs, _, ⟨rfl, hbs⟩, ⟨⟩⟩
      exact ⟨rfl, takes_append_iff.mpr ⟨mid, hb, hbs⟩⟩
    · rintro ⟨hlen, h⟩
      rcases xs with _ | ⟨b, bs⟩
      · cases hlen
      rcases takes_append_iff.mp h with ⟨mid, hb, hbs⟩
      exact ⟨b, mid, hb, bs, rest, ⟨Nat.succ.inj hlen, hbs⟩, rfl⟩

theorem readMany_restart_iff (n : Nat) : readMany deadline n line = .restart u rest ↔
    u ≠ 0x00 ∧ ∃ xs, xs.length < n ∧ Takes deadline (stuff xs ++ [frameStart, u]) line rest := by
  induction n generalizing line with
  | zero => exact iff_of_false nofun fun ⟨_, xs, hlen, _⟩ => Nat.not_lt_zero _ hlen
  | succ n ih =>
    rw [readMany, andThen_restart_iff]
    constructor
    · rintro (h | ⟨b, mid, hb, h⟩)
      · rcases readLogical_restart_iff.mp h with ⟨hu, h⟩
        exact ⟨hu, [], Nat.succ_pos n, h⟩
      rcases andThen_restart_iff.mp h with h | ⟨_, _, _, ⟨⟩⟩
      rcases ih.mp h with ⟨hu, xs, hlen, h⟩
      refine ⟨hu, b :: xs, Nat.succ_lt_succ hlen, ?_⟩
      rw [stuff_cons, append_assoc]
      exact takes_append_iff.mpr ⟨mid, readLogical_done_iff.mp hb, h⟩
    · rintro ⟨hu, _ | ⟨b, xs⟩, hlen, h⟩
      · exact .inl (readLogical_restart_iff.mpr ⟨hu, h⟩)
      rw [stuff_cons, append_assoc] at h
      rcases takes_append_iff.mp h with ⟨mid, hb, h⟩
      refine .inr ⟨b, mid, readLogical_done_iff.mpr hb, andThen_restart_iff.mpr (.inl ?_)⟩
      exact ih.mpr ⟨hu, xs, Nat.lt_of_succ_lt_succ hlen, h⟩

/-- The length field of a body, of which `xs` is what follows the type. -/
def bodyLen (xs : List Byte) : Nat := (word16 (xs.getD 1 0) (xs.getD 2 0)).toNat

/-- Bytes of a body that do not end it. -/
def Unfinished (xs : List Byte) : Prop :=
  xs.length < 3 ∨ bodyLen xs ≤ framingMaxPayload ∧ xs.length < 5 + bodyLen xs

/-- A body is given up at a delimiter inside it. -/
theorem readBody_restart_iff : readBody deadline t line = .restart u rest ↔
    u ≠ 0x00 ∧ ∃ xs, Unfinished xs ∧ Takes deadline (stuff xs ++ [frameStart, u]) line rest := by
  rw [readBody, andThen_restart_iff]
  constructor
  · rintro (h | ⟨hdr, mid, hhdr, h⟩)
    · rcases (readMany_restart_iff 3).mp h with ⟨hu, xs, hlen, h⟩
      exact ⟨hu, xs, .inl hlen, h⟩
    rcases (readMany_done_iff 3).mp hhdr with ⟨hlen, htakes⟩
    rcases length_eq_three.mp hlen with ⟨s, hi, lo, rfl⟩
    simp only [getD_cons_zero, getD_cons_succ] at h
    split_ifs at h with hbad
    -- The length field of the header counts for whatever follows it.
    have hsome : ∀ ys : List Byte, ys.length < (word16 hi lo).toNat + 2 →
        Takes deadline (stuff ys ++ [frameStart, u]) mid rest →
        ∃ xs, Unfinished xs ∧ Takes deadline (stuff xs ++ [frameStart, u]) line rest := by
      intro ys hys h
      refine ⟨[s, hi, lo] ++ ys, .inr ⟨Nat.le_of_not_lt hbad, ?_⟩, ?_⟩
      · show ys.length + 1 + 1 + 1 < 5 + (word16 hi lo).toNat
        omega
      · rw [stuff_append, append_assoc]
        exact takes_append_iff.mpr ⟨mid, htakes, h⟩
    rcases andThen_restart_iff.mp h with h | ⟨payload, mid1, hpayload, h⟩
    · rcases (readMany_restart_iff _).mp h with ⟨hu, ys, hys, h⟩
      exact ⟨hu, hsome ys (by omega) h⟩
    rcases (readMany_done_iff _).mp hpayload with ⟨hlen1, htakes1⟩
    rcases andThen_restart_iff.mp h with h | ⟨_, _, _, ⟨⟩⟩
    rcases (readMany_restart_iff 2).mp h with ⟨hu, ys, hys, h⟩
    refine ⟨hu, hsome (payload ++ ys) (by rw [length_append]; omega) ?_⟩
    rw [stuff_append, append_assoc]
    exact takes_append_iff.mpr ⟨mid1, htakes1, h⟩
  · rintro ⟨hu, xs, hxs, h⟩
    by_cases hshort : xs.length < 3
    · exact .inl ((readMany_restart_iff 3).mpr ⟨hu, xs, hshort, h⟩)
    rcases hxs.resolve_left hshort with ⟨hmax, hlen⟩
    have hhdr : (xs.take 3).length = 3 := by
      rw [length_take]
      omega
    rcases length_eq_three.mp hhdr with ⟨s, hi, lo, hhdr⟩
    have hxs : xs = [s, hi, lo] ++ xs.drop 3 := by rw [← hhdr, take_append_drop]
    generalize xs.drop 3 = ys at hxs
    subst hxs
    have hfield : bodyLen ([s, hi, lo] ++ ys) = (word16 hi lo).toNat := rfl
    rw [hfield] at hmax hlen
    rw [stuff_append, append_assoc] at h
    rcases takes_append_iff.mp h with ⟨mid, h1, h2⟩
    refine .inr ⟨[s, hi, lo], mid, (readMany_done_iff 3).mpr ⟨rfl, h1⟩, ?_⟩
    simp only [getD_cons_zero, getD_cons_succ, if_neg (Nat.not_lt_of_le hmax)]
    by_cases hpayload : ys.length < (word16 hi lo).toNat
    · exact andThen_restart_iff.mpr (.inl ((readMany_restart_iff _).mpr ⟨hu, ys, hpayload, h2⟩))
    -- The payload is complete, and the delimiter is where the CRC should be.
    have htake : (ys.take (word16 hi lo).toNat).length = (word16 hi lo).toNat :=
      length_take_of_le (Nat.le_of_not_lt hpayload)
    have hdrop : (ys.drop (word16 hi lo).toNat).length < 2 := by
      rw [length_drop]
      simp only [cons_append, nil_append, length_cons] at hlen
      omega
    rw [← take_append_drop (word16 hi lo).toNat ys, stuff_append, append_assoc] at h2
    rcases takes_append_iff.mp h2 with ⟨mid1, h3, h4⟩
    refine andThen_restart_iff.mpr (.inr ⟨_, mid1, (readMany_done_iff _).mpr ⟨htake, h3⟩, ?_⟩)
    exact andThen_restart_iff.mpr (.inl ((readMany_restart_iff 2).mpr ⟨hu, _, hdrop, h4⟩))

/-- A body that is read to its end, or whose length field is out of bounds. -/
theorem readBody_done_inv {code : Code} {out : Option Frame}
    (h : readBody deadline t line = .done (code, out) rest) :
    (code = .errBadlen ∧ out = none) ∨
      ∃ seq payload crc, payload.length ≤ framingMaxPayload ∧
        Takes deadline
          (stuff ((frameBody t seq payload).tail ++ [hiByte crc, loByte crc])) line rest ∧
        out = some { type := t, seq := seq, len := payload.length, payload := payload } ∧
        code = if crc16Ccitt (frameBody t seq payload) ≠ crc then .errCrc else .ok := by
  rcases andThen_done_iff.mp h with ⟨hdr, mid, hhdr, h⟩
  rcases (readMany_done_iff 3).mp hhdr with ⟨hlen, htakes⟩
  rcases length_eq_three.mp hlen with ⟨s, hi, lo, rfl⟩
  simp only [getD_cons_zero, getD_cons_succ] at h
  split_ifs at h with hbad
  · cases h
    exact .inl ⟨rfl, rfl⟩
  rcases andThen_done_iff.mp h with ⟨payload, mid1, hpayload, h⟩
  rcases (readMany_done_iff _).mp hpayload with ⟨hlen1, htakes1⟩
  rcases andThen_done_iff.mp h with ⟨crcb, mid2, hcrcb, h⟩
  rcases (readMany_done_iff 2).mp hcrcb with ⟨hlen2, htakes2⟩
  rcases length_eq_two.mp hlen2 with ⟨ch, cl, rfl⟩
  simp only [getD_cons_zero, getD_cons_succ] at h
  cases h
  -- The header is the one that a payload of this length has.
  have hbody := frameBody_word16 t s hlen1
  have hparts : (t :: s :: hi :: lo :: payload).tail ++ [ch, cl]
      = [s, hi, lo] ++ (payload ++ [ch, cl]) := rfl
  refine .inr ⟨s, payload, word16 ch cl, hlen1 ▸ Nat.le_of_not_lt hbad, ?_, by rw [hlen1],
    by rw [hbody]⟩
  rw [hbody, hiByte_word16, loByte_word16, hparts, stuff_append, stuff_append]
  exact takes_append_iff.mpr ⟨mid, htakes, takes_append_iff.mpr ⟨mid1, htakes1, htakes2⟩⟩

/-- A body with any two bytes in the place of its CRC is read to its last byte. -/
theorem readBody_crc (type seq : Byte) (payload : List Byte) (crc : BitVec 16)
    (hlen : payload.length ≤ framingMaxPayload) (h : Takes deadline
      (stuff ((frameBody type seq payload).tail ++ [hiByte crc, loByte crc])) line rest) :
    readBody deadline type line
      = .done (if crc16Ccitt (frameBody type seq payload) ≠ crc then .errCrc else .ok,
          some { type := type, seq := seq, len := payload.length, payload := payload }) rest := by
  have h16 : (BitVec.ofNat 16 payload.length).toNat = payload.length := by
    exact Nat.mod_eq_of_lt (by unfold framingMaxPayload at hlen; omega)
  have hparts : (frameBody type seq payload).tail ++ [hiByte crc, loByte crc]
      = [seq, hiByte (BitVec.ofNat 16 payload.length), loByte (BitVec.ofNat 16 payload.length)] ++
        (payload ++ [hiByte crc, loByte crc]) := rfl
  rw [hparts, stuff_append, stuff_append, takes_append_iff] at h
  rcases h with ⟨mid, h1, h⟩
  rcases takes_append_iff.mp h with ⟨mid1, h2, h3⟩
  have hhdr := (readMany_done_iff 3).mpr ⟨rfl, h1⟩
  have hpayload := (readMany_done_iff _).mpr ⟨rfl, h2⟩
  have hcrcb := (readMany_done_iff 2).mpr ⟨rfl, h3⟩
  -- The length field and the CRC are put together from their bytes.
  simp only [readBody, hhdr, Outcome.andThen, getD_cons_zero, getD_cons_succ,
    word16_hi_lo, h16, if_neg (Nat.not_lt_of_le hlen), hpayload, hcrcb]
  rfl

end

end CortexForge.Framing
