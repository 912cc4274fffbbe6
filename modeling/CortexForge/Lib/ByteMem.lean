import Mathlib.Algebra.GroupWithZero.Nat
import Mathlib.Logic.Function.Basic

/-!
# Words in Byte Memory

A memory is a function from addresses to bytes, and a machine word in it is a
run of bytes with the least significant one first. `loadN` and `storeN` move
words of any number of bytes; a word is a natural number, and a store keeps what
fits.

Two facts carry every proof about a program's memory: a store is read back
(`loadN_storeN`), and it leaves every byte outside its run alone
(`storeN_other`), hence every word that does not overlap it
(`loadN_storeN_disjoint`).

## Main definitions

* `loadN`, `storeN`: Reading and writing a word of `n` bytes.
* `memset`, `memcpy`: Filling and copying a run of bytes.

## Theorems

* `storeN_other`: A store leaves the other bytes alone.
* `loadN_shift`, `loadN_congr`: A word is read from its own bytes.
* `loadN_inj`: Equal numbers are equal bytes.
* `loadN_storeN`: A store is read back.
* `loadN_storeN_disjoint`: A store leaves disjoint words alone.
-/

namespace CortexForge

open Function

/-- The word of `n` bytes at `addr`. -/
def loadN (mem : Nat → BitVec 8) : Nat → Nat → Nat
  | _, 0 => 0
  | addr, n + 1 => (mem addr).toNat + 256 * loadN mem (addr + 1) n

/-- Write the low `n` bytes of `v` at `addr`. -/
def storeN (mem : Nat → BitVec 8) : Nat → Nat → Nat → Nat → BitVec 8
  | _, 0, _ => mem
  | addr, n + 1, v =>
      update (storeN mem (addr + 1) n (v / 256)) addr (BitVec.ofNat 8 v)

/-- `n` bytes `v` from `dst` up. -/
def memset (mem : Nat → BitVec 8) (dst : Nat) (v : BitVec 8) (n : Nat) : Nat → BitVec 8 :=
  fun x => if dst ≤ x ∧ x < dst + n then v else mem x

/-- `n` bytes from `dst` up, taken from `src` in the memory `from_`. -/
def memcpy (mem : Nat → BitVec 8) (dst : Nat) (from_ : Nat → BitVec 8) (src n : Nat) :
    Nat → BitVec 8 :=
  fun x => if dst ≤ x ∧ x < dst + n then from_ (src + (x - dst)) else mem x

theorem memset_other (mem : Nat → BitVec 8) (dst : Nat) (v : BitVec 8) (n x : Nat)
    (hx : x < dst ∨ dst + n ≤ x) : memset mem dst v n x = mem x :=
  if_neg fun hc => by omega

theorem memcpy_other {mem : Nat → BitVec 8} {dst : Nat} {from_ : Nat → BitVec 8} {src n x : Nat}
    (hx : x < dst ∨ dst + n ≤ x) : memcpy mem dst from_ src n x = mem x :=
  if_neg fun hc => by omega

theorem memcpy_at (mem : Nat → BitVec 8) (dst : Nat) (from_ : Nat → BitVec 8) (src n x : Nat)
    (hx : x < n) : memcpy mem dst from_ src n (dst + x) = from_ (src + x) := by
  unfold memcpy
  rw [if_pos ⟨Nat.le_add_right dst x, Nat.add_lt_add_left hx dst⟩, Nat.add_sub_cancel_left]

theorem storeN_other {mem : Nat → BitVec 8} {n : Nat} : ∀ {addr v x : Nat},
    (x < addr ∨ addr + n ≤ x) → storeN mem addr n v x = mem x := by
  induction n with
  | zero => intro addr v x _; rfl
  | succ n ih =>
    intro addr v x hx
    rw [storeN, update_of_ne (by omega), ih (by omega)]

/-- A word is the same wherever its bytes are. -/
theorem loadN_shift (mem mem' : Nat → BitVec 8) (n : Nat) : ∀ addr addr' : Nat,
    (∀ i < n, mem' (addr' + i) = mem (addr + i)) → loadN mem' addr' n = loadN mem addr n := by
  induction n with
  | zero => exact fun _ _ _ => rfl
  | succ n ih =>
    intro addr addr' hag
    have hfirst : mem' addr' = mem addr := hag 0 (Nat.succ_pos n)
    have hrest := ih (addr + 1) (addr' + 1) fun i hi => by
      rw [Nat.add_assoc, Nat.add_assoc, Nat.add_comm 1 i]
      exact hag (i + 1) (Nat.succ_lt_succ hi)
    rw [loadN, loadN, hrest, hfirst]

theorem loadN_congr (mem mem' : Nat → BitVec 8) (n addr : Nat)
    (hag : ∀ x, addr ≤ x → x < addr + n → mem' x = mem x) : loadN mem' addr n = loadN mem addr n :=
  loadN_shift mem mem' n addr addr fun i hi =>
    hag (addr + i) (Nat.le_add_right addr i) (Nat.add_lt_add_left hi addr)

variable (mem : Nat → BitVec 8)

theorem loadN_zero (n : Nat) : ∀ addr, (∀ x, addr ≤ x → x < addr + n → mem x = 0#8) →
    loadN mem addr n = 0 := by
  induction n with
  | zero => exact fun addr _ => rfl
  | succ n ih =>
    intro addr hzero
    rw [loadN, hzero addr (Nat.le_refl _) (by omega),
      ih (addr + 1) fun x h1 h2 => hzero x (by omega) (by omega)]
    rfl

theorem loadN_lt (n : Nat) : ∀ addr : Nat, loadN mem addr n < 256 ^ n := by
  induction n with
  | zero => intro addr; exact Nat.one_pos
  | succ n ih =>
    intro addr
    have hrest := ih (addr + 1)
    rw [loadN]
    omega

/-- Equal numbers are stored as equal bytes. -/
theorem loadN_inj (mem mem' : Nat → BitVec 8) (n addr addr' : Nat)
    (h : loadN mem' addr' n = loadN mem addr n) : ∀ i < n, mem' (addr' + i) = mem (addr + i) := by
  induction n generalizing addr addr' with
  | zero => exact nofun
  | succ n ih =>
    intro i hi
    rw [loadN, loadN] at h
    cases i with
    | zero => exact BitVec.eq_of_toNat_eq (show (mem' addr').toNat = (mem addr).toNat by omega)
    | succ i =>
      have hrest := ih (addr + 1) (addr' + 1) (by omega) i (Nat.lt_of_succ_lt_succ hi)
      rwa [Nat.add_assoc, Nat.add_assoc, Nat.add_comm 1 i] at hrest

/-- A store is read back, cut to its width. -/
theorem loadN_storeN (n : Nat) : ∀ addr v : Nat,
    loadN (storeN mem addr n v) addr n = v % 256 ^ n := by
  induction n with
  | zero => intro addr v; rw [loadN, Nat.pow_zero, Nat.mod_one]
  | succ n ih =>
    intro addr v
    -- The rest of the word does not see the byte written last.
    have hrest : loadN (storeN mem addr (n + 1) v) (addr + 1) n = v / 256 % 256 ^ n := by
      rw [← ih (addr + 1) (v / 256)]
      refine loadN_congr _ _ n (addr + 1) fun x h1 _ => ?_
      rw [storeN, update_of_ne (by omega)]
    have hpow : 256 ^ (n + 1) = 256 * 256 ^ n := by rw [Nat.pow_succ, Nat.mul_comm]
    rw [loadN, hrest, storeN, update_self, BitVec.toNat_ofNat, hpow, Nat.mod_mul]

theorem loadN_storeN_disjoint {a n : Nat} (v : Nat) {b m : Nat} (hdis : b + m ≤ a ∨ a + n ≤ b) :
    loadN (storeN mem a n v) b m = loadN mem b m :=
  loadN_congr _ _ m b fun x _ _ => storeN_other (by omega)

end CortexForge
