import Mathlib.Data.Finset.Card

/-!
# Bitmaps

A set of numbers kept as bits: number `i` is bit `i % w` of word `i / w`. The
words are a function from their index, so the bitmap has no end of its own and a
bound, where one is needed, is the user's.

The three operations are those of a bitmap over machine words, a shift and a
mask each. What they mean is said once, in terms of `bitTest`: setting or
clearing one number changes the answer for that number and for no other. After
that no proof needs to look inside a word, except for the one shortcut every
scan takes, that a word of all ones has no free bit (`bitTest_of_allOnes`).

`countSet` counts the numbers below a bound that are set.

## Main definitions

* `bitTest`, `bitSet`, `bitClear`: The operations.
* `bitSetRange`: Setting a run of numbers.
* `countSet`: How many numbers below a bound are set.

## Theorems

* `bitTest_bitSet`, `bitTest_bitClear`, `bitTest_bitSetRange`: What the writes do.
* `bitmap_ext`: A bitmap is determined by its numbers.
* `countSet_bitSet`, `countSet_bitClear`, `countSet_bitSetRange`: What they do to
  the count.
* `bitTest_of_allOnes`, `exists_not_bitTest`: A word is full exactly when every
  number of it is set.
-/

namespace CortexForge

open Function BitVec

variable {w : Nat}

def bitTest (bm : Nat → BitVec w) (i : Nat) : Bool :=
  ((bm (i / w) >>> (i % w)) &&& 1#w) != 0#w

def bitSet (bm : Nat → BitVec w) (i : Nat) : Nat → BitVec w :=
  update bm (i / w) (bm (i / w) ||| (1#w <<< (i % w)))

def bitClear (bm : Nat → BitVec w) (i : Nat) : Nat → BitVec w :=
  update bm (i / w) (bm (i / w) &&& ~~~(1#w <<< (i % w)))

/-- Shifting down and masking reads one bit. -/
theorem shift_and_one_ne_zero (x : BitVec w) (k : Nat) :
    ((x >>> k) &&& 1#w != 0#w) = x.getLsbD k := by
  by_cases hbit : x.getLsbD k = true
  · rw [hbit, bne_iff_ne]
    intro hzero
    have h0 := congrArg (fun y => getLsbD y 0) hzero
    have hk : k < w := lt_of_getLsbD hbit
    simp [hbit, show 0 < w by omega] at h0
  · rw [Bool.not_eq_true] at hbit
    rw [hbit, bne_eq_false_iff_eq]
    ext j hj
    by_cases hj0 : j = 0
    · subst hj0
      simp [hbit]
    · simp [hj0]

theorem bitTest_eq (bm : Nat → BitVec w) (i : Nat) :
    bitTest bm i = (bm (i / w)).getLsbD (i % w) :=
  shift_and_one_ne_zero _ _

/-- A bitmap is determined by its numbers. -/
theorem bitmap_ext (hw : 0 < w) {bm bm' : Nat → BitVec w}
    (h : ∀ i, bitTest bm i = bitTest bm' i) : bm = bm' := by
  funext i
  refine eq_of_getLsbD_eq fun b hb => ?_
  have hbit := h (i * w + b)
  rwa [bitTest_eq, bitTest_eq, Nat.mul_comm, Nat.mul_add_div hw, Nat.div_eq_of_lt hb, Nat.add_zero,
    Nat.mul_add_mod, Nat.mod_eq_of_lt hb] at hbit

/-- Numbers in one word with one bit position are equal. -/
theorem bit_index_inj (i j : Nat) (hword : i / w = j / w) (hbit : i % w = j % w) : i = j := by
  rw [← Nat.div_add_mod i w, ← Nat.div_add_mod j w, hword, hbit]

theorem getLsbD_one_shiftLeft (k j : Nat) (hk : k < w) :
    (1#w <<< k).getLsbD j = decide (j = k) := by
  by_cases hjk : j = k
  · subst hjk
    simp [hk]
  · simp only [hjk]
    by_cases hlt : j < k
    · simp [hlt]
    · simp [show j - k ≠ 0 by omega]

variable (hw : 0 < w)
include hw

variable (bm : Nat → BitVec w)

theorem bitTest_bitSet (i j : Nat) :
    bitTest (bitSet bm i) j = (decide (j = i) || bitTest bm j) := by
  rw [bitTest_eq, bitTest_eq, bitSet]
  by_cases hword : j / w = i / w
  · rw [hword, update_self, getLsbD_or,
      getLsbD_one_shiftLeft _ _ (Nat.mod_lt i hw)]
    by_cases hji : j = i
    · simp [hji]
    · -- Another number of the same word is another bit of it.
      have hbit : j % w ≠ i % w := fun hc => hji (bit_index_inj j i hword hc)
      simp [hji, hbit]
  · have hji : j ≠ i := fun hc => hword (by rw [hc])
    rw [update_of_ne hword]
    simp [hji]

theorem bitTest_bitClear (i j : Nat) :
    bitTest (bitClear bm i) j = (!decide (j = i) && bitTest bm j) := by
  rw [bitTest_eq, bitTest_eq, bitClear]
  by_cases hword : j / w = i / w
  · rw [hword, update_self, getLsbD_and, getLsbD_not,
      getLsbD_one_shiftLeft _ _ (Nat.mod_lt i hw)]
    by_cases hji : j = i
    · simp [hji]
    · have hbit : j % w ≠ i % w := fun hc => hji (bit_index_inj j i hword hc)
      simp [hji, hbit, Nat.mod_lt j hw]
  · have hji : j ≠ i := fun hc => hword (by rw [hc])
    rw [update_of_ne hword]
    simp [hji]

/-- A word of all ones has every number of it set. -/
theorem bitTest_of_allOnes (i : Nat) (h : bm (i / w) = allOnes w) : bitTest bm i = true := by
  rw [bitTest_eq, h, getLsbD_allOnes, decide_eq_true_eq]
  exact Nat.mod_lt i hw

/-- A word that is not all ones has a number that is not set. -/
theorem exists_not_bitTest (i : Nat)
    (h : bm i ≠ allOnes w) : ∃ b, b < w ∧ bitTest bm (i * w + b) = false := by
  by_contra hall
  refine h (eq_of_getLsbD_eq fun b hb => ?_)
  have hset : bitTest bm (i * w + b) = true := by
    by_contra hc
    exact hall ⟨b, hb, Bool.not_eq_true _ ▸ hc⟩
  rw [bitTest_eq, Nat.mul_comm, Nat.mul_add_div hw, Nat.div_eq_of_lt hb, Nat.add_zero,
    Nat.mul_add_mod, Nat.mod_eq_of_lt hb] at hset
  simp [hset, decide_eq_true hb]

/-- Set `n` numbers in a row, from `start` up. -/
def bitSetRange (bm : Nat → BitVec w) (start : Nat) : Nat → Nat → BitVec w
  | 0 => bm
  | n + 1 => bitSet (bitSetRange bm start n) (start + n)

theorem bitTest_bitSetRange (start n j : Nat) :
    bitTest (bitSetRange bm start n) j = (decide (start ≤ j ∧ j < start + n) || bitTest bm j) := by
  induction n with
  | zero => simp [bitSetRange]
  | succ n ih =>
    rw [bitSetRange, bitTest_bitSet hw, ih, ← Bool.or_assoc, ← Bool.decide_or]
    congr 1
    rw [decide_eq_decide]
    omega

/-- How many numbers below `n` are set. -/
def countSet (bm : Nat → BitVec w) (n : Nat) : Nat :=
  ((Finset.range n).filter (fun i => bitTest bm i = true)).card

omit hw in
theorem countSet_le (bm : Nat → BitVec w) (n : Nat) : countSet bm n ≤ n := by
  have hle := Finset.card_filter_le (Finset.range n) (fun i => bitTest bm i = true)
  rw [Finset.card_range] at hle
  exact hle

theorem countSet_bitSet (n i : Nat) (hi : i < n)
    (hfree : bitTest bm i = false) : countSet (bitSet bm i) n = countSet bm n + 1 := by
  have hset : (Finset.range n).filter (fun j => bitTest (bitSet bm i) j = true)
      = insert i ((Finset.range n).filter (fun j => bitTest bm j = true)) := by
    ext j
    rw [Finset.mem_insert, Finset.mem_filter, bitTest_bitSet hw]
    by_cases hji : j = i
    · simp [hji, hi]
    · simp [hji]
  have hnot : i ∉ (Finset.range n).filter (fun j => bitTest bm j = true) := by
    rw [Finset.mem_filter, hfree]
    simp
  rw [countSet, hset, Finset.card_insert_of_notMem hnot, countSet]

theorem countSet_bitSetRange (n start k : Nat)
    (hin : start + k ≤ n) (hfree : ∀ i, start ≤ i → i < start + k → bitTest bm i = false) :
    countSet (bitSetRange bm start k) n = countSet bm n + k := by
  induction k with
  | zero => rfl
  | succ k ih =>
    -- The next number is still free: the earlier ones of the range are others.
    have hnext : bitTest (bitSetRange bm start k) (start + k) = false := by
      rw [bitTest_bitSetRange hw, hfree (start + k) (by omega) (by omega)]
      simp
    rw [bitSetRange, countSet_bitSet hw _ n _ (by omega) hnext,
      ih (by omega) (fun i h1 h2 => hfree i h1 (by omega))]
    omega

theorem countSet_bitClear (n i : Nat) (hi : i < n)
    (hused : bitTest bm i = true) : countSet (bitClear bm i) n + 1 = countSet bm n := by
  -- Setting the bit again gives the bitmap back.
  have hback : bitSet (bitClear bm i) i = bm := by
    refine bitmap_ext hw fun j => ?_
    rw [bitTest_bitSet hw, bitTest_bitClear hw]
    by_cases hji : j = i
    · simp [hji, hused]
    · simp [hji]
  have hfree : bitTest (bitClear bm i) i = false := by simp [bitTest_bitClear hw]
  rw [← countSet_bitSet hw _ n i hi hfree, hback]

end CortexForge
