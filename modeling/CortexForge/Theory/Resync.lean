import CortexForge.Theory.Accepts

/-!
# Resynchronisation

A frame that lost its tail, and a whole frame behind it. The receiver gives the first
up when it meets the delimiter of the second, wherever the first was cut but in one
place: right behind a delimiter byte. That byte then stands before the delimiter of
the second frame, and the receiver takes the two for a pair: a delimiter and the byte
behind it.

## Theorems

* `stuff_cut`: The parts of stuffed bytes.
* `stuff_start_unique`: Where stuffed bytes end at a delimiter is determined.
* `cut_begins`: The receiver gets to the second frame.
* `cut_pair`: It does not if the cut is right behind a delimiter byte.
* `resync_iff`: When the second frame is received.
-/

namespace CortexForge.Framing

open List Option

section

/-- A part of stuffed bytes is stuffed itself, or ends between a delimiter byte and
    its zero. -/
theorem stuff_cut (ys : List Byte) : ∀ {p : List Byte}, p <+: stuff ys →
    ∃ xs, xs <+: ys ∧ (p = stuff xs ∨ p = stuff xs ++ [frameStart] ∧ xs ≠ ys) := by
  induction ys with
  | nil =>
    intro p hp
    exact ⟨[], prefix_refl [], .inl (prefix_nil.mp hp)⟩
  | cons y ys ih =>
    intro p hp
    rcases p with _ | ⟨b, p⟩
    · exact ⟨[], nil_prefix, .inl rfl⟩
    rw [stuff_cons] at hp
    by_cases hy : y = frameStart
    · rw [stuffByte, if_pos hy] at hp
      rcases cons_prefix_cons.mp hp with ⟨hb, hp⟩
      rcases p with _ | ⟨z, p⟩
      · -- The cut is right behind the delimiter byte.
        refine ⟨[], nil_prefix, .inr ⟨?_, (cons_ne_nil y ys).symm⟩⟩
        rw [hb, hy]
        rfl
      rcases cons_prefix_cons.mp hp with ⟨hz, hp⟩
      rcases ih hp with ⟨xs, hxs, hcases⟩
      refine ⟨y :: xs, cons_prefix_cons.mpr ⟨rfl, hxs⟩, ?_⟩
      rw [stuff_cons, stuffByte, if_pos hy, hb, hz]
      exact hcases.imp (fun heq => by rw [heq]; rfl)
        fun hcut => ⟨by rw [hcut.1]; rfl, fun hc => hcut.2 (cons.inj hc).2⟩
    · rw [stuffByte, if_neg hy] at hp
      rcases cons_prefix_cons.mp hp with ⟨hb, hp⟩
      rcases ih hp with ⟨xs, hxs, hcases⟩
      refine ⟨y :: xs, cons_prefix_cons.mpr ⟨rfl, hxs⟩, ?_⟩
      rw [stuff_cons, stuffByte, if_neg hy, hb]
      exact hcases.imp (fun heq => by rw [heq]; rfl)
        fun hcut => ⟨by rw [hcut.1]; rfl, fun hc => hcut.2 (cons.inj hc).2⟩

/-- Stuffed bytes do not end with a delimiter byte. -/
theorem stuff_getLast (xs : List Byte) : (stuff xs).getLast? ≠ some frameStart := by
  rcases eq_nil_or_concat xs with rfl | ⟨xs, x, rfl⟩
  · exact fun hc => some_ne_none _ hc.symm
  · rw [concat_eq_append, stuff_append]
    show (stuff xs ++ (stuffByte x ++ [])).getLast? ≠ some frameStart
    rw [append_nil, stuffByte]
    split_ifs with hx
    · rw [getLast?_append_of_ne_nil _ (cons_ne_nil _ _)]
      intro hc
      have hzero : (0x00 : Byte) = frameStart := some.inj hc
      exact absurd hzero (by decide)
    · rw [getLast?_append_of_ne_nil _ (cons_ne_nil _ _)]
      exact fun hc => hx (some.inj hc)

/-- Stuffed bytes are read back the same way whatever ends them. -/
theorem stuff_start_unique (xs : List Byte) : ∀ {ys as bs : List Byte} {u v : Byte}, u ≠ 0x00 →
    v ≠ 0x00 → stuff xs ++ frameStart :: u :: as = stuff ys ++ frameStart :: v :: bs →
    xs = ys ∧ u = v ∧ as = bs := by
  have hhead : ∀ {y u : Byte} {zs as : List Byte}, u ≠ 0x00 →
      frameStart :: u :: as ≠ stuffByte y ++ zs := by
    intro y u zs as hu hc
    unfold stuffByte at hc
    split_ifs at hc with hy
    · exact hu (cons.inj (cons.inj hc).2).1
    · exact hy (cons.inj hc).1.symm
  induction xs with
  | nil =>
    intro ys as bs u v hu hv heq
    rcases ys with _ | ⟨y, ys⟩
    · have hcons := cons.inj (cons.inj heq).2
      exact ⟨rfl, hcons.1, hcons.2⟩
    · rw [stuff_cons, append_assoc] at heq
      exact absurd heq (hhead hu)
  | cons x xs ih =>
    intro ys as bs u v hu hv heq
    rcases ys with _ | ⟨y, ys⟩
    · rw [stuff_cons, append_assoc] at heq
      exact absurd heq.symm (hhead hv)
    rw [stuff_cons, stuff_cons, append_assoc, append_assoc] at heq
    -- The first byte says whether there is a zero behind it.
    have hxy : x = y := by
      unfold stuffByte at heq
      by_cases hx : x = frameStart <;> by_cases hy : y = frameStart <;>
        simp only [hx, hy] at heq ⊢
      · exact absurd (cons.inj heq).1.symm hy
      · exact absurd (cons.inj heq).1 hx
      · exact (cons.inj heq).1
    rw [hxy] at heq ⊢
    rcases ih hu hv (append_cancel_left heq) with ⟨hxs, huv, has⟩
    exact ⟨by rw [hxs], huv, has⟩

end

section

variable {t1 seq1 t2 seq2 : Byte} {payload1 payload2 xs : List Byte}

/-- What is missing its tail does not end a body. -/
theorem unfinished_cut (hlen : payload1.length ≤ framingMaxPayload)
    (hxs : xs <+: (frameLin t1 seq1 payload1).tail) (hne : xs ≠ (frameLin t1 seq1 payload1).tail) :
    Unfinished xs := by
  have hshort : xs.length < payload1.length + 5 := by
    have htail : (frameLin t1 seq1 payload1).tail.length = payload1.length + 5 := by
      rw [length_tail, frameLin_length]
      rfl
    exact htail ▸ Nat.lt_of_le_of_ne hxs.length_le fun hc => hne (hxs.eq_of_length hc)
  by_cases hhdr : xs.length < 3
  · exact .inl hhdr
  rcases xs with _ | ⟨s, _ | ⟨hi, _ | ⟨lo, ys⟩⟩⟩
  · exact absurd (Nat.succ_pos 2) hhdr
  · exact absurd (Nat.lt_add_left 1 Nat.one_lt_two) hhdr
  · exact absurd (Nat.lt_succ_self 2) hhdr
  -- The header is there, and it has the length of the payload.
  have hcons : (frameLin t1 seq1 payload1).tail =
    seq1 :: hiByte (BitVec.ofNat 16 payload1.length) ::
      loByte (BitVec.ofNat 16 payload1.length) ::
      (payload1 ++ [hiByte (crc16Ccitt (frameBody t1 seq1 payload1)),
        loByte (crc16Ccitt (frameBody t1 seq1 payload1))]) := rfl
  rcases cons_prefix_cons.mp hxs with ⟨_, hxs⟩
  rcases cons_prefix_cons.mp hxs with ⟨hhi, hxs⟩
  rcases cons_prefix_cons.mp hxs with ⟨hlo, _⟩
  have hfield : bodyLen (s :: hi :: lo :: ys) = payload1.length := by
    show (word16 hi lo).toNat = payload1.length
    rw [hhi, hlo, word16_hi_lo]
    exact Nat.mod_eq_of_lt (by unfold framingMaxPayload at hlen; omega)
  exact .inr ⟨hfield ▸ hlen, by rw [hfield]; omega⟩

/-- The places of a cut: before the frame, right behind its delimiter, behind some
    bytes of the body, or between a delimiter byte of the body and its zero. -/
theorem cut_cases (ht : validType t1 = true) (hlen : payload1.length ≤ framingMaxPayload)
    {wire p : List Byte} (hwire : framingEncode t1 seq1 payload1 = some wire) (hp : p <+: wire)
    (hne : p ≠ wire) :
    p = [] ∨ p = [frameStart] ∨ ∃ xs, Unfinished xs ∧
      (p = frameStart :: t1 :: stuff xs ∨ p = frameStart :: t1 :: (stuff xs ++ [frameStart])) := by
  rw [framingEncode_valid ht seq1 hlen] at hwire
  rw [← some.inj hwire] at hp hne
  rcases p with _ | ⟨a, p⟩
  · exact .inl rfl
  rcases cons_prefix_cons.mp hp with ⟨ha, hp⟩
  rcases p with _ | ⟨b, p⟩
  · exact .inr (.inl (by rw [ha]))
  rcases cons_prefix_cons.mp hp with ⟨hb, hp⟩
  refine .inr (.inr ?_)
  rw [ha, hb] at hne ⊢
  rcases stuff_cut _ hp with ⟨xs, hxs, heq | ⟨heq, hproper⟩⟩
  · refine ⟨xs, unfinished_cut hlen hxs fun hc => hne ?_, .inl (by rw [heq])⟩
    rw [heq, hc]
  · exact ⟨xs, unfinished_cut hlen hxs hproper, .inr (by rw [heq])⟩

/-- Behind a cut that is not right behind a delimiter byte the receiver gets to the
    second frame. -/
theorem cut_begins (ht1 : validType t1 = true) (ht2 : validType t2 = true) (hxs : Unfinished xs) :
    Begins (frameStart :: t1 :: (stuff xs ++ [frameStart, t2])) t2 := by
  have hne : t2 ≠ 0x00 := fun hc => by
    rw [hc] at ht2
    exact absurd ht2 (by decide)
  exact .intro [] _ t1 t2 .nil ht1 (.again t1 t2 t2 xs [] hxs hne (.here t2))

/-- Two delimiter bytes in a row are taken for a pair, and the type of the second
    frame is not found. -/
theorem cut_pair (ht1 : validType t1 = true) (xs : List Byte) :
    ¬ Begins [frameStart, frameStart, t2] t2 ∧
      ¬ Begins (frameStart :: t1 :: (stuff xs ++ [frameStart, frameStart, t2])) t2 := by
  -- Nothing is skipped before a delimiter with a valid type behind it.
  have hfirst : ∀ {skipped bs cs : List Byte} {t u : Byte}, Skipped skipped →
      validType u = true → frameStart :: u :: cs = skipped ++ frameStart :: t :: bs →
      t = u ∧ cs = bs := by
    intro skipped bs cs t u hskipped hu heq
    cases hskipped with
    | nil =>
      have hcons := cons.inj (cons.inj heq).2
      exact ⟨hcons.1.symm, hcons.2⟩
    | noise b _ hb _ => exact absurd (cons.inj heq).1.symm hb
    | pair u' _ hu' _ =>
      rw [← (cons.inj (cons.inj heq).2).1, hu] at hu'
      cases hu'
  constructor
  · intro h
    generalize hbytes : [frameStart, frameStart, t2] = bytes at h
    cases h with
    | intro skipped bs t u hskipped ht h =>
      cases hskipped with
      | nil =>
        rw [← (cons.inj (cons.inj hbytes).2).1] at ht
        exact absurd ht (by decide)
      | noise b _ hb _ => exact hb (cons.inj hbytes).1.symm
      | pair u' bs' _ _ =>
        have hlen := congrArg length hbytes
        simp only [length_cons, length_append, length_nil] at hlen
        omega
  · intro h
    generalize hbytes : frameStart :: t1 :: (stuff xs ++ [frameStart, frameStart, t2]) = bytes at h
    cases h with
    | intro skipped bs t u hskipped ht h =>
      rcases hfirst hskipped ht1 hbytes with ⟨_, hbs⟩
      cases h with
      | here t => exact absurd hbs (append_ne_nil_of_right_ne_nil _ (cons_ne_nil _ _))
      | again t v u ys cs _ hv h =>
        rcases stuff_start_unique xs (by decide) hv hbs with ⟨_, _, hcs⟩
        -- One byte is left, too few for another frame to begin in it.
        cases h with
        | here t => exact absurd hcs (cons_ne_nil _ _)
        | again t v' u zs ds _ _ _ =>
          have hlen := congrArg length hcs
          simp only [length_cons, length_append, length_nil] at hlen
          omega

end

/-- A frame behind one that lost its tail is received, if and only if the cut is not
    right behind a delimiter byte. -/
theorem resync_iff (stats : FramingStats) (now timeoutTicks : Nat)
    (t1 seq1 : Byte) (payload1 wire1 p : List Byte) (t2 seq2 : Byte) (payload2 wire2 : List Byte)
    (ht1 : validType t1 = true) (ht2 : validType t2 = true)
    (hwire1 : framingEncode t1 seq1 payload1 = some wire1)
    (hwire2 : framingEncode t2 seq2 payload2 = some wire2) (hp : p <+: wire1) (hcut : p ≠ wire1)
    (line : List Poll) (hline : Delivers (wrap64 (now + timeoutTicks)) (p ++ wire2) line) :
    framingRecv stats now timeoutTicks line = some (.ok,
      some { type := t2, seq := seq2, len := payload2.length, payload := payload2 },
      countRecv stats .ok, []) ↔ p.getLast? ≠ some frameStart := by
  have hlen := framingEncode_length hwire2
  have hwire := hwire2
  rw [framingEncode_valid ht2 seq2 hlen] at hwire
  rw [← some.inj hwire] at hline
  -- Up to the body of the second frame the line has `p` and two bytes.
  have htakes : Takes (wrap64 (now + timeoutTicks))
      (p ++ [frameStart, t2] ++ stuff (frameLin t2 seq2 payload2).tail) line [] := by
    refine ⟨line, (append_nil line).symm, ?_⟩
    rw [append_assoc]
    exact hline
  have hreceived : framingRecv stats now timeoutTicks line = some (.ok,
      some { type := t2, seq := seq2, len := payload2.length, payload := payload2 },
      countRecv stats .ok, []) ↔ Begins (p ++ [frameStart, t2]) t2 := by
    constructor
    · intro h
      rcases framingRecv_inv h with ⟨bytes, hbegins, _, _, htakes'⟩
      rcases htakes'.used with ⟨polls, heq, hdel⟩
      rw [append_nil] at heq
      have hbytes := bytesOf_delivers hdel
      rw [← heq, bytesOf_delivers hline] at hbytes
      have hparts : p ++ [frameStart, t2] ++ stuff (frameLin t2 seq2 payload2).tail
          = bytes ++ stuff (frameLin t2 seq2 payload2).tail := by
        rw [append_assoc]
        exact hbytes
      rw [append_cancel_right hparts]
      exact hbegins
    · exact fun h => framingRecv_begins h hlen htakes
  rw [hreceived]
  rcases cut_cases ht1 (framingEncode_length hwire1) hwire1 hp hcut with
    rfl | rfl | ⟨xs, hxs, rfl | rfl⟩
  · refine iff_of_true (.intro [] [] t2 t2 .nil ht2 (.here t2)) ?_
    exact fun hc => some_ne_none _ hc.symm
  · exact iff_of_false (cut_pair ht1 []).1 (not_not.mpr rfl)
  · refine iff_of_true ?_ fun hc => ?_
    · have hbegins := cut_begins ht1 ht2 hxs
      exact hbegins
    · -- The type of the first frame is no delimiter byte, so all of this is stuffed.
      have hne : t1 ≠ frameStart := fun hc => by
        rw [hc] at ht1
        exact absurd ht1 (by decide)
      have hstuffed : t1 :: stuff xs = stuff (t1 :: xs) := by
        rw [stuff_cons, stuffByte, if_neg hne]
        rfl
      rw [getLast?_cons_cons, hstuffed] at hc
      exact stuff_getLast _ hc
  · have hparts : frameStart :: t1 :: (stuff xs ++ [frameStart]) ++ [frameStart, t2]
        = frameStart :: t1 :: (stuff xs ++ [frameStart, frameStart, t2]) := by
      rw [cons_append, cons_append, append_assoc]
      rfl
    rw [hparts]
    refine iff_of_false (cut_pair ht1 xs).2 (not_not.mpr ?_)
    exact getLast?_concat (l := frameStart :: t1 :: stuff xs)

/-- A frame cut behind its sequence number, and an acknowledgement behind it. -/
theorem resync_iff_header :
    framingRecv {} 0 100
      (([0xAA, 0x01, 0x07] ++ [0xAA, 0x02, 0x05, 0x00, 0x00, 0x82, 0x58]).map .byte)
      = some (.ok, some { type := 0x02, seq := 0x05, len := 0, payload := [] },
        { framesRecv := 1 }, []) :=
  (resync_iff {} 0 100 0x01 0x07 [] _ [0xAA, 0x01, 0x07] 0x02 0x05 [] _ (by decide) (by decide) rfl
    (by decide +kernel) (by decide +kernel) (by decide +kernel) _ (delivers_bytes _ _)).mpr
      (by decide)

/-- A frame cut right behind its delimiter, or between a delimiter byte of its body and
    the zero behind it. The acknowledgement is not received. -/
theorem resync_cut_delimiter :
    framingRecv {} 0 100 (([0xAA] ++ [0xAA, 0x02, 0x05, 0x00, 0x00, 0x82, 0x58]).map .byte ++
      [.idle 100]) = some (.errTimeout, none, {}, []) ∧
    framingRecv {} 0 100
      (([0xAA, 0x01, 0xAA] ++ [0xAA, 0x02, 0x05, 0x00, 0x00, 0x82, 0x58]).map .byte
      ++ [.idle 100]) =
        some (.errBadlen, none, {}, [.byte 0x00, .byte 0x82, .byte 0x58, .idle 100]) := by
  decide +kernel

end CortexForge.Framing
