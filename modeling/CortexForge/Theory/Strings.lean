import CortexForge.Core.Strings
import Mathlib.Data.Nat.Digits.Lemmas

/-!
# Formatted Text Is Cut Off at the Buffer

The text of a format and its arguments does not depend on a buffer. `kvsnprintf` goes
through all of it and keeps what fits in front of a terminator: all it does is to put out
the characters of the text one after the other (`formatLoop_eq`).

## Main definitions

* `numeral`: The digits of a number.
* `render`: The text of a format.
* `written`: The buffer after some stores.

## Theorems

* `formatLoop_eq`: The loop puts out the text.
* `bufPuts_stores`: What is stored of a text.
* `formatted`: The buffer and the result, for every format and buffer length.
-/

namespace CortexForge.Strings

open List Function

/-- The digits of a number, without zeros in front. -/
def numeral (base n : Nat) : List Byte :=
  if n = 0 then [digit 0] else ((Nat.digits base n).map digit).reverse

/-- The text of one conversion, and the arguments left. -/
def converted : Conversion → List Arg → Option (List Byte × List Arg)
  | .s, .str s :: args => some (s.getD (chars "(null)"), args)
  | .d, .int val :: args =>
      some ((if val.toInt < 0 then [minus] else []) ++ numeral 10 val.toInt.natAbs, args)
  | .u, .u64 val :: args => some (numeral 10 val.toNat, args)
  | .x, .u64 val :: args => some (numeral 16 val.toNat, args)
  | .c, .int val :: args => some ([val.setWidth 8], args)
  | .percent, args => some ([percent], args)
  | .unknown spec, args => some ([percent, spec], args)
  | _, _ => none

/-- The text of a format, if the arguments are those it takes. -/
def render : List Byte → List Arg → Option (List Byte)
  | [], _ => some []
  | c :: fmt, args =>
      if c ≠ percent then (render fmt args).map (c :: ·)
      else
        match fmt with
        | [] => some []
        | spec :: fmt => (converted (conversion spec) args).bind fun r =>
            (render fmt r.2).map (r.1 ++ ·)

section

variable (buflen : Nat) (o : Output)

theorem bufPuts_append (s t : List Byte) :
    bufPuts buflen o (s ++ t) = bufPuts buflen (bufPuts buflen o s) t := foldl_append

theorem tmpDigits_eq {base : Nat} (hbase : 2 ≤ base) (fuel : Nat) : ∀ val, val < 2 ^ fuel →
    tmpDigits base fuel val = (Nat.digits base val).map digit := by
  induction fuel with
  | zero =>
    intro val hval
    rw [Nat.lt_one_iff.mp hval, Nat.digits_zero]
    rfl
  | succ fuel ih =>
    intro val hval
    rw [tmpDigits]
    split
    case isTrue hpos =>
      have hless : val / base < 2 ^ fuel := by
        rw [Nat.div_lt_iff_lt_mul (by omega)]
        exact Nat.lt_of_lt_of_le hval (Nat.mul_le_mul_left _ hbase)
      simp [ih _ hless, Nat.digits_def' hbase hpos]
    case isFalse hpos =>
      rw [Nat.eq_zero_of_not_pos hpos, Nat.digits_zero]
      rfl

theorem bufPutu_eq {base : Nat} (hbase : 2 ≤ base) (val : BitVec 64) :
    bufPutu buflen o val base = bufPuts buflen o (numeral base val.toNat) := by
  rw [bufPutu, numeral, tmpDigits_eq hbase 64 _ val.isLt]
  have hzero : val = 0#64 ↔ val.toNat = 0 := BitVec.toNat_eq
  simp only [hzero]
  split_ifs <;> rfl

/-- The number behind the sign, for the least number too. -/
theorem magnitude (val : BitVec 32) :
    (if val.toInt < 0 then 0#64 - val.signExtend 64 else val.signExtend 64).toNat =
      val.toInt.natAbs := by
  have hlt := val.isLt
  have hext : (val.signExtend 64).toNat =
      if val.toInt < 0 then val.toNat + (2 ^ 64 - 2 ^ 32) else val.toNat := by
    rw [BitVec.toNat_signExtend, BitVec.msb_eq_decide, BitVec.toInt_eq_toNat_cond]
    simp only [BitVec.toNat_setWidth, Nat.reducePow, Nat.add_one_sub_one, decide_eq_true_eq,
      Nat.reduceSub, Nat.cast_ofNat]
    grind
  rw [apply_ite BitVec.toNat, BitVec.toNat_sub, hext, BitVec.toInt_eq_toNat_cond]
  simp only [Nat.reducePow, Nat.cast_ofNat, Nat.reduceSub, BitVec.toNat_ofNat]
  split_ifs <;> omega

theorem convert_eq (k : Conversion) (args : List Arg) :
    convert buflen o k args =
      (converted k args).map fun r => (bufPuts buflen o r.1, r.2) := by
  cases k with
  | percent | unknown => rfl
  | s | c => rcases args with _ | ⟨_ | _ | _, _⟩ <;> rfl
  | d =>
    rcases args with _ | ⟨_ | val | _, args⟩
    case cons.int =>
      -- The sign and then the number.
      refine congrArg some (Prod.ext ?_ rfl)
      dsimp only
      rw [bufPuts_append, ← magnitude val]
      split_ifs <;> exact bufPutu_eq _ _ (by decide) _
    all_goals rfl
  | u | x =>
    rcases args with _ | ⟨_ | _ | val, args⟩
    case cons.u64 => exact congrArg some (Prod.ext (bufPutu_eq _ _ (by decide) _) rfl)
    all_goals rfl

/-- The loop puts out the text. -/
theorem formatLoop_eq (fmt : List Byte) (args : List Arg) :
    formatLoop buflen fmt args o = (render fmt args).map (bufPuts buflen o) := by
  fun_induction formatLoop buflen fmt args o with
  | case1 => rfl
  | case2 c fmt args o hc ih =>
    rw [ih, render.eq_def (c :: fmt)]
    dsimp only
    rw [if_pos hc, Option.map_map]
    rfl
  | case3 c args o hc =>
    rw [render, if_neg hc]
    rfl
  | case4 c args o hc spec fmt ih =>
    rw [render, if_neg hc, convert_eq]
    cases converted (conversion spec) args with
    | none => rfl
    | some r =>
      refine (ih (bufPuts buflen o r.1, r.2)).trans ?_
      rw [Option.bind_some, Option.map_map]
      exact Option.map_congr fun t _ => (bufPuts_append buflen o r.1 t).symm

theorem bufPuts_pos (s : List Byte) : (bufPuts buflen o s).pos = o.pos + s.length := by
  induction s generalizing o with
  | nil => rfl
  | cons c s ih =>
    rw [length_cons, Nat.add_comm s.length, ← Nat.add_assoc]
    exact ih (bufPutc buflen o c)

/-- Stored is what is in front of the last place in the buffer. -/
theorem bufPuts_stores (s : List Byte) : (bufPuts buflen o s).stores =
    o.stores ++ (s.take (buflen - 1 - o.pos)).zipIdx o.pos := by
  induction s generalizing o with
  | nil => simp [bufPuts]
  | cons c s ih =>
    refine (ih (bufPutc buflen o c)).trans ?_
    by_cases hroom : o.pos + 1 < buflen
    · have hmore : buflen - 1 - o.pos = buflen - 1 - (o.pos + 1) + 1 := by omega
      simp [bufPutc, hroom, hmore]
    · have hnone : buflen - 1 - o.pos = 0 ∧ buflen - 1 - (o.pos + 1) = 0 := by omega
      simp [bufPutc, hroom, hnone]

end

/-- The buffer after some stores. -/
def written (mem : Memory) (stores : List (Byte × Nat)) : Memory :=
  stores.foldl (fun mem p => update mem p.2 p.1) mem

theorem written_below (s : List Byte) : ∀ (mem : Memory) (pos i : Nat), i < pos →
    written mem (s.zipIdx pos) i = mem i := by
  induction s with
  | nil => exact fun _ _ _ _ => rfl
  | cons c s ih =>
    intro mem pos i hi
    rw [zipIdx_cons]
    exact (ih _ (pos + 1) i (by omega)).trans (update_of_ne (Nat.ne_of_lt hi) c mem)

theorem written_at (s : List Byte) : ∀ (mem : Memory) (pos i : Nat), i < s.length →
    some (written mem (s.zipIdx pos) (pos + i)) = s[i]? := by
  induction s with
  | nil => exact fun _ _ _ hi => absurd hi (Nat.not_lt_zero _)
  | cons c s ih =>
    intro mem pos i hi
    rw [zipIdx_cons]
    cases i with
    | zero =>
      refine congrArg some ((written_below s _ (pos + 1) pos (Nat.lt_succ_self _)).trans ?_)
      exact update_self pos c mem
    | succ i =>
      rw [getElem?_cons_succ, ← ih (update mem pos c) (pos + 1) i (Nat.lt_of_succ_lt_succ hi),
        Nat.add_right_comm]
      rfl

/-- The stores and the result, of a text whose length is an `int`. -/
theorem kvsnprintf_eq {buflen : Nat} {fmt R : List Byte} {args : List Arg}
    (hR : render fmt args = some R) (hlen : R.length < 2 ^ 31) :
    kvsnprintf buflen fmt args = some ((R.take (buflen - 1)).zipIdx ++
      (if buflen > 0 then [(0#8, min R.length (buflen - 1))] else []), (R.length : Int)) := by
  have hint : (BitVec.ofNat 32 R.length).toInt = R.length := by
    rw [BitVec.toInt_eq_toNat_of_lt, BitVec.toNat_ofNat, Nat.mod_eq_of_lt (by omega)]
    rw [BitVec.toNat_ofNat, Nat.mod_eq_of_lt (by omega)]
    omega
  have hlast : (if R.length < buflen then R.length else buflen - 1) =
      min R.length (buflen - 1) ∨ buflen = 0 := by
    split_ifs <;> omega
  simp only [kvsnprintf, formatLoop_eq, hR, Option.map_some, bufPuts_pos, bufPuts_stores,
    Nat.zero_add, Nat.sub_zero, nil_append, hint]
  split_ifs with hpos <;> simp_all <;> omega

theorem stored_lt {buflen : Nat} {R : List Byte} : ∀ p ∈ (R.take (buflen - 1)).zipIdx ++
    (if buflen > 0 then [(0#8, min R.length (buflen - 1))] else []), p.2 < buflen := by
  intro p hp
  rcases mem_append.mp hp with htext | hend
  · have hlt := snd_lt_add_of_mem_zipIdx htext
    rw [length_take] at hlt
    omega
  · grind

/-- The result is the length of the whole text. The buffer has as much of it as fits in
    front of a terminator, and nothing else is stored. -/
theorem formatted (buflen : Nat) (fmt R : List Byte) (args : List Arg)
    (hR : render fmt args = some R) (hlen : R.length < 2 ^ 31) :
    ∃ stores, kvsnprintf buflen fmt args = some (stores, (R.length : Int)) ∧
      (∀ p ∈ stores, p.2 < buflen) ∧ (0 < buflen → ∀ mem,
        written mem stores (min R.length (buflen - 1)) = 0#8 ∧
          ∀ i < min R.length (buflen - 1), some (written mem stores i) = R[i]?) := by
  refine ⟨_, kvsnprintf_eq hR hlen, stored_lt, fun hpos mem => ?_⟩
  rw [if_pos hpos, written, foldl_append]
  refine ⟨update_self .., fun i hi => ?_⟩
  have hat := written_at (R.take (buflen - 1)) mem 0 i (by rw [length_take]; omega)
  rw [Nat.zero_add, getElem?_take_of_lt (by omega)] at hat
  rw [← hat]
  exact congrArg some (update_of_ne (Nat.ne_of_lt hi) ..)

/-- A negative number that does not fit. -/
theorem formatted_least : ∃ stores,
    kvsnprintf 6 (chars "x=%d%") [.int 0x80000000#32] = some (stores, 13) ∧
      (∀ p ∈ stores, p.2 < 6) ∧ (0 < 6 → ∀ mem, written mem stores 5 = 0#8 ∧
        ∀ i < 5, some (written mem stores i) = (chars "x=-2147483648")[i]?) :=
  formatted 6 (chars "x=%d%") (chars "x=-2147483648") [.int 0x80000000#32]
    (by decide +kernel) (by decide)

end CortexForge.Strings
