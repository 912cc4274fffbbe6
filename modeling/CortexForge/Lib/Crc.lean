import Mathlib.Data.List.GetD
import Mathlib.Data.List.Induction
import Mathlib.Logic.Function.Iterate

/-!
# Cyclic Redundancy Checks

Division of bit strings by a polynomial over the field with two elements. A word of
`w` bits is a polynomial of degree below `w`, and `poly` has the coefficients below
the leading one of a polynomial of degree `w`. `mulX` multiplies by `x` modulo that
polynomial, and `residue` divides a bit string, the highest coefficient first.

Division is linear, so what a change of some bits does to the residue is the residue
of the changed bits. The rest of the module says when that is zero: never for an odd
number of bits if the polynomial has an even number of terms, never within `w` bits in
a row if its lowest coefficient is one, and for two bits only if `x` to the power of
their distance is one.

## Main definitions

* `mulX`: Multiplication by `x`.
* `residue`: Division of a bit string.
* `parity`: The sum of the bits of a word.

## Theorems

* `residue_xor`: Division is linear.
* `residue_short`: What is shorter than a word is its own residue.
* `residue_parity`: Division keeps the sum of all bits.
* `residue_burst`: A string of zeros around few bits.
* `residue_two`: Two bits.
-/

namespace CortexForge.Crc

open Function List

variable {w : Nat}

/-- Multiplication by `x`: shift left, and fold the polynomial in when a one falls
    out. -/
def mulX (poly c : BitVec w) : BitVec w :=
  if c.msb then (c <<< 1) ^^^ poly else c <<< 1

/-- One bit as the lowest one of a word. -/
def bit (w : Nat) (d : Bool) : BitVec w := BitVec.ofNat w d.toNat

/-- Division of a bit string, with `c` in front of it. -/
def residue (poly : BitVec w) : BitVec w → List Bool → BitVec w
  | c, [] => c
  | c, d :: ds => residue poly (mulX poly c ^^^ bit w d) ds

/-- The sum of the lowest `n` bits. -/
def parityTo (c : BitVec w) : Nat → Bool
  | 0 => false
  | n + 1 => xor (parityTo c n) (c.getLsbD n)

/-- The sum of the bits of a word. -/
def parity (c : BitVec w) : Bool := parityTo c w

/-- The sum of the bits of a string. -/
def paritySum (ds : List Bool) : Bool := ds.foldr xor false

section

variable (poly : BitVec w)

theorem mulX_xor (a b : BitVec w) : mulX poly (a ^^^ b) = mulX poly a ^^^ mulX poly b := by
  unfold mulX
  rw [BitVec.msb_xor, BitVec.shiftLeft_xor_distrib]
  rcases ha : a.msb <;> rcases hb : b.msb <;>
    simp only [Bool.bne_false, Bool.bne_true, Bool.not_true,
    Bool.not_false, if_true, if_false, Bool.false_eq_true]
  · rw [BitVec.xor_assoc]
  · simp [BitVec.xor_assoc, BitVec.xor_comm (b <<< 1)]
  · -- The two polynomials cancel.
    simp [BitVec.xor_comm poly, BitVec.xor_assoc]

theorem mulX_zero : mulX poly 0#w = 0#w := by
  unfold mulX
  simp

theorem iterate_mulX_xor (n : Nat) (a b : BitVec w) :
    (mulX poly)^[n] (a ^^^ b) = (mulX poly)^[n] a ^^^ (mulX poly)^[n] b := by
  induction n generalizing a b with
  | zero => rfl
  | succ n ih => rw [iterate_succ_apply, mulX_xor, ih]; rfl

theorem iterate_mulX_zero (n : Nat) : (mulX poly)^[n] 0#w = 0#w :=
  iterate_fixed (mulX_zero poly) n

theorem bit_xor (d e : Bool) : bit w (xor d e) = bit w d ^^^ bit w e := by
  cases d <;> cases e
  · exact (BitVec.xor_zero).symm
  · exact (BitVec.zero_xor).symm
  · exact (BitVec.xor_zero).symm
  · exact (BitVec.xor_self).symm

/-- Division is linear. -/
theorem residue_xor (ds : List Bool) : ∀ (es : List Bool) (a b : BitVec w), ds.length = es.length →
    residue poly (a ^^^ b) (zipWith xor ds es) = residue poly a ds ^^^ residue poly b es := by
  induction ds with
  | nil =>
    intro es a b hlen
    rcases es with _ | ⟨e, es⟩
    · rfl
    · cases hlen
  | cons d ds ih =>
    intro es a b hlen
    rcases es with _ | ⟨e, es⟩
    · cases hlen
    rw [zipWith_cons_cons, residue, residue, residue, ← ih _ _ _ (Nat.succ.inj hlen), mulX_xor,
      bit_xor]
    rw [BitVec.xor_assoc, BitVec.xor_assoc, ← BitVec.xor_assoc (mulX poly b),
      BitVec.xor_comm (mulX poly b) (bit w d), BitVec.xor_assoc]

theorem residue_append (ds es : List Bool) (c : BitVec w) :
    residue poly c (ds ++ es) = residue poly (residue poly c ds) es := by
  induction ds generalizing c with
  | nil => rfl
  | cons d ds ih => exact ih _

/-- Zeros multiply by `x`. -/
theorem residue_zeros (n : Nat) (c : BitVec w) :
    residue poly c (replicate n false) = (mulX poly)^[n] c := by
  induction n generalizing c with
  | zero => rfl
  | succ n ih =>
    rw [replicate_succ, residue, ih, iterate_succ_apply]
    congr 1
    exact BitVec.xor_zero

/-- What is in front of a string and the string itself. -/
theorem residue_from (ds : List Bool) (c : BitVec w) :
    residue poly c ds = (mulX poly)^[ds.length] c ^^^ residue poly 0#w ds := by
  have hzeros : zipWith xor (replicate ds.length false) ds = ds := by
    induction ds with
    | nil => rfl
    | cons d ds ih =>
      simp [replicate_succ, ih]
  have hsplit := residue_xor poly (replicate ds.length false) ds c 0#w length_replicate
  rw [hzeros, BitVec.xor_zero, residue_zeros] at hsplit
  exact hsplit

end

section

variable {poly c : BitVec w}

variable (hpoly : poly.getLsbD 0 = true)
include hpoly

/-- Multiplication by `x` loses nothing if the lowest coefficient is one. -/
theorem mulX_eq_zero (h : mulX poly c = 0#w) :
    c = 0#w := by
  unfold mulX at h
  by_cases hmsb : c.msb = true
  · -- The lowest bit of the product is that of the polynomial.
    rw [if_pos hmsb] at h
    have hlow := congrArg (BitVec.getLsbD · 0) h
    simp only [BitVec.getLsbD_xor, hpoly] at hlow
    simp at hlow
  · rw [if_neg hmsb] at h
    refine BitVec.eq_of_getLsbD_eq fun i hi => ?_
    rw [BitVec.getLsbD_zero]
    by_cases hlast : i + 1 < w
    · have hbit := congrArg (BitVec.getLsbD · (i + 1)) h
      simp only [BitVec.getLsbD_shiftLeft, hlast] at hbit
      simpa using hbit
    · have heq : i = w - 1 := by omega
      rw [heq, ← BitVec.msb_eq_getLsbD_last]
      exact Bool.of_not_eq_true hmsb

theorem iterate_mulX_eq_zero (n : Nat) (h : (mulX poly)^[n] c = 0#w) : c = 0#w := by
  induction n generalizing c with
  | zero => exact h
  | succ n ih => exact mulX_eq_zero hpoly (ih h)

/-- Zeros around a string do not matter. -/
theorem residue_surrounded {a b : Nat} {ds : List Bool}
    (h : residue poly 0#w (replicate a false ++ ds ++ replicate b false) = 0#w) :
    residue poly 0#w ds = 0#w := by
  rw [residue_append, residue_append, residue_zeros, residue_zeros, iterate_mulX_zero] at h
  exact iterate_mulX_eq_zero hpoly b h

omit hpoly in
/-- Nothing falls out while the string is shorter than a word. -/
theorem residue_short (poly : BitVec w) (ds : List Bool) (hlen : ds.length ≤ w) (i : Nat) :
    (residue poly 0#w ds).getLsbD i = ds.reverse.getD i false := by
  induction ds using reverseRecOn generalizing i with
  | nil => exact BitVec.getLsbD_zero
  | append_singleton ds d ih =>
    rw [length_append, length_singleton] at hlen
    have hmsb : (residue poly 0#w ds).msb = false := by
      rw [BitVec.msb_eq_getLsbD_last, ih (by omega), getD_eq_default]
      rw [length_reverse]
      omega
    rw [residue_append, residue, residue, mulX, hmsb, if_neg Bool.false_ne_true,
      reverse_append, reverse_singleton, singleton_append]
    rcases i with _ | i
    · rw [BitVec.getLsbD_xor, bit]
      cases d
      · simp
      · simp
        omega
    · rw [BitVec.getLsbD_xor, BitVec.getLsbD_shiftLeft, getD_cons_succ, ← ih (by omega), bit]
      have hbit : (BitVec.ofNat w d.toNat).getLsbD (i + 1) = false := by
        cases d
        · simp
        · simp
      rw [hbit]
      by_cases hi : i + 1 < w
      · simp [hi]
      · have hout := ih (by omega) i
        rw [getD_eq_default _ _ (by rw [length_reverse]; omega)] at hout
        rw [hout]
        simp [hi]

/-- No burst of at most `w` bits goes unnoticed. -/
theorem residue_burst {a b : Nat} {ds : List Bool} (hlen : ds.length ≤ w)
    (h : residue poly 0#w (replicate a false ++ ds ++ replicate b false) = 0#w) :
    ∀ d ∈ ds, d = false := by
  have hzero := residue_surrounded hpoly h
  intro d hd
  rcases getElem_of_mem (mem_reverse.mpr hd) with ⟨i, hi, heq⟩
  have hbit := residue_short poly ds hlen i
  rw [hzero, BitVec.getLsbD_zero, getD_eq_getElem _ _ hi, heq] at hbit
  exact hbit.symm

/-- Two bits go unnoticed only if `x` to the power of their distance is one. -/
theorem residue_two {a b c : Nat}
    (h : residue poly 0#w (replicate a false ++ true :: (replicate b false ++
      true :: replicate c false)) = 0#w) : (mulX poly)^[b + 1] (bit w true) = bit w true := by
  have hparts : replicate a false ++ true :: (replicate b false ++
      true :: replicate c false) = replicate a false ++
        (true :: (replicate b false ++ [true])) ++ replicate c false := by
    simp
  rw [hparts] at h
  have hzero := residue_surrounded hpoly h
  rw [residue, residue_append, residue_zeros, mulX_zero, residue, residue,
    ← iterate_succ_apply' (mulX poly)] at hzero
  have hsum := congrArg (· ^^^ bit w true) hzero
  simp only [BitVec.xor_assoc, BitVec.xor_self, BitVec.xor_zero, BitVec.zero_xor] at hsum
  exact hsum

end

section

/-- None of the next `n` powers of `x` is one. -/
def avoidsOne (poly : BitVec w) : Nat → BitVec w → Bool
  | 0, _ => true
  | n + 1, c => mulX poly c != bit w true && avoidsOne poly n (mulX poly c)

theorem avoidsOne_spec {poly : BitVec w} (n : Nat) : ∀ {c : BitVec w}, avoidsOne poly n c = true →
    ∀ d, 0 < d → d ≤ n → (mulX poly)^[d] c ≠ bit w true := by
  induction n with
  | zero => exact fun _ d hpos hle => absurd hle (Nat.not_le_of_lt hpos)
  | succ n ih =>
    intro c h d hpos hle
    rw [avoidsOne, Bool.and_eq_true, bne_iff_ne] at h
    rcases d with _ | _ | d
    · omega
    · exact h.1
    · exact ih h.2 (d + 1) (Nat.succ_pos d) (Nat.le_of_succ_le_succ hle)

end

section

theorem parityTo_xor (a b : BitVec w) (n : Nat) :
    parityTo (a ^^^ b) n = xor (parityTo a n) (parityTo b n) := by
  induction n with
  | zero => rfl
  | succ n ih =>
    rw [parityTo, parityTo, parityTo, ih, BitVec.getLsbD_xor]
    cases parityTo a n <;> cases parityTo b n <;> cases a.getLsbD n <;> cases b.getLsbD n <;> rfl

/-- A shift moves the sum up by one bit. -/
theorem parityTo_shift (c : BitVec w) (n : Nat) (hn : n < w) :
    parityTo (c <<< 1) (n + 1) = parityTo c n := by
  induction n with
  | zero =>
    rw [parityTo, parityTo, parityTo]
    simp
  | succ n ih =>
    rw [parityTo, ih (by omega), parityTo, BitVec.getLsbD_shiftLeft]
    simp [hn]

theorem parity_zero : parity 0#w = false := by
  have hto : ∀ n, parityTo 0#w n = false := by
    intro n
    induction n with
    | zero => rfl
    | succ n ih => rw [parityTo, ih, BitVec.getLsbD_zero]; rfl
  exact hto w

/-- Multiplication by `x` keeps the sum of the bits, if the polynomial without its
    leading term has an odd number of terms. -/
theorem parity_mulX {poly : BitVec w} (hodd : parity poly = true) (c : BitVec w) :
    parity (mulX poly c) = parity c := by
  rcases w with _ | w
  · cases hodd
  have hlast : parity c = xor (parityTo c w) c.msb := by
    rfl
  have hshift : parity (c <<< 1) = parityTo c w := parityTo_shift c w (Nat.lt_succ_self w)
  unfold mulX
  split_ifs with hmsb
  · rw [parity, parityTo_xor, ← parity, ← parity, hshift, hodd, hlast, hmsb]
  · rw [hshift, hlast, Bool.of_not_eq_true hmsb, Bool.xor_false]

theorem parity_bit (hw : 0 < w) (d : Bool) : parity (bit w d) = d := by
  have hto : ∀ n, n < w → parityTo (bit w d) (n + 1) = d := by
    intro n hn
    induction n with
    | zero =>
      rw [parityTo, parityTo, bit]
      cases d <;> simp [hw]
    | succ n ih =>
      rw [parityTo, ih (by omega), bit]
      cases d
      · simp
      · simp
  rcases w with _ | w
  · omega
  · exact hto w (Nat.lt_succ_self w)

/-- Division keeps the sum of all bits. -/
theorem residue_parity {poly : BitVec w} (hw : 0 < w) (hodd : parity poly = true) (ds : List Bool)
    (c : BitVec w) : parity (residue poly c ds) = xor (parity c) (paritySum ds) := by
  induction ds generalizing c with
  | nil => exact (Bool.xor_false _).symm
  | cons d ds ih =>
    rw [residue, ih, parity, parityTo_xor, ← parity, ← parity, parity_mulX hodd, parity_bit hw,
      Bool.xor_assoc]
    rfl

end

section

variable {ds : List Bool}

/-- The first bit that is set. -/
theorem first_true (h : true ∈ ds) :
    ∃ a rest, ds = replicate a false ++ true :: rest := by
  induction ds with
  | nil => exact absurd h not_mem_nil
  | cons d ds ih =>
    cases d with
    | true => exact ⟨0, ds, rfl⟩
    | false =>
      rcases ih ((mem_cons.mp h).resolve_left Bool.noConfusion) with ⟨a, rest, heq⟩
      exact ⟨a + 1, rest, by rw [heq]; rfl⟩

theorem all_false (h : true ∉ ds) : ds = replicate ds.length false :=
  eq_replicate_of_mem fun d hd => by
    cases d with
    | true => exact absurd hd h
    | false => rfl

/-- Bits that are set at most `n` places apart, between zeros. -/
theorem burst_split {i n : Nat} (h : ∀ j, ds.getD j false = true → i ≤ j ∧ j < i + n) :
    ∃ a b mid, mid.length ≤ n ∧ ds = replicate a false ++ mid ++ replicate b false := by
  have hbefore : true ∉ ds.take i := fun hc => by
    rcases getElem_of_mem hc with ⟨j, hj, heq⟩
    rw [getElem_take] at heq
    rw [length_take] at hj
    have hset := h j (by rw [getD_eq_getElem _ _ (by omega), heq])
    omega
  have hafter : true ∉ (ds.drop i).drop n := fun hc => by
    rcases getElem_of_mem hc with ⟨j, hj, heq⟩
    rw [getElem_drop, getElem_drop] at heq
    rw [length_drop, length_drop] at hj
    have hset := h (i + (n + j)) (by rw [getD_eq_getElem _ _ (by omega), heq])
    omega
  refine ⟨(ds.take i).length, ((ds.drop i).drop n).length, (ds.drop i).take n,
    length_take_le _ _, ?_⟩
  rw [← all_false hbefore, ← all_false hafter, append_assoc, take_append_drop,
    take_append_drop]

theorem paritySum_count (ds : List Bool) : paritySum ds = decide (ds.count true % 2 = 1) := by
  induction ds with
  | nil => rfl
  | cons d ds ih =>
    have hcons : paritySum (d :: ds) = xor d (paritySum ds) := rfl
    rw [hcons, ih]
    cases d
    · simp
    · have hmod := Nat.mod_two_eq_zero_or_one (ds.count true)
      rcases hmod with hmod | hmod <;> simp [hmod, Nat.add_mod]

end

end CortexForge.Crc
