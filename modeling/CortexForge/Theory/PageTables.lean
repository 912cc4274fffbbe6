import CortexForge.Core.Mmu
import CortexForge.Lib.Radix

/-!
# Entries and Tables

What the bits of a table entry say, and the tables of an address space in memory
as a radix tree.

An entry built for a table names that table, and one built for a page maps that
page with the permissions of its flags; both hold for page addresses the
translation can express. `getEntry` of a page depends on the bytes of that page
only, and a store to one entry changes no other.

## Main definitions

* `pteFormat`: The entries of the translation tables.
* `el0Read`, `el0Write`, `el0Exec`, `ptePrivNoExec`, `pteNotGlobal`: The bits a
  mapping is judged by.
* `InPage`: The bytes of a page.

## Theorems

* `pteNextTable_tableEntry`, `pteNextTable_leafEntry`: The address in an entry.
* `getEntry_setEntry_of_ne`, `getEntry_congr`: Entries in memory.
-/

namespace CortexForge.Mmu

open BitVec

/-- The entries of the translation tables. -/
def pteFormat : TableFormat (BitVec 64) where
  valid := pteValid
  next := pteNextTable
  fan := 512

/-- EL0 may read. -/
def el0Read (e : BitVec 64) : Bool := e.getLsbD 6

/-- EL0 may write. -/
def el0Write (e : BitVec 64) : Bool := e.getLsbD 6 && !e.getLsbD 7

/-- EL0 may execute. -/
def el0Exec (e : BitVec 64) : Bool := !e.getLsbD 54

/-- EL1 may not execute. -/
def ptePrivNoExec (e : BitVec 64) : Bool := e.getLsbD 53

/-- The entry is not global. -/
def pteNotGlobal (e : BitVec 64) : Bool := e.getLsbD 11

/-- The byte `x` lies in the page at `a`. -/
def InPage (a x : Nat) : Prop := a ≤ x ∧ x < a + pageSize

section

variable (a pa i : Nat) (flags : BitVec 64)

theorem pteAddrMask_bit (hi : i < 64) :
    pteAddrMask.getLsbD i = decide (12 ≤ i ∧ i < 48) := by
  revert i
  decide

/-- The address of a page has bits 12 to 47 only. -/
theorem testBit_page (halign : a % pageSize = 0) (hlt : a < 2 ^ 48) (hbit : a.testBit i = true) :
    12 ≤ i ∧ i < 48 := by
  constructor
  · obtain ⟨k, hk⟩ := Nat.dvd_of_mod_eq_zero halign
    have hpow : pageSize = 2 ^ 12 := rfl
    rw [hk, hpow, Nat.testBit_two_pow_mul] at hbit
    simp only [Bool.and_eq_true, decide_eq_true_eq] at hbit
    omega
  · by_contra hhigh
    have hbig : a < 2 ^ i :=
      Nat.lt_of_lt_of_le hlt (Nat.pow_le_pow_right (Nat.succ_pos 1) (Nat.le_of_not_lt hhigh))
    rw [Nat.testBit_lt_two_pow hbig] at hbit
    exact absurd hbit Bool.false_ne_true

theorem and_mask_page (halign : a % pageSize = 0) (hlt : a < 2 ^ 48) :
    BitVec.ofNat 64 a &&& pteAddrMask = BitVec.ofNat 64 a := by
  apply BitVec.eq_of_getLsbD_eq
  intro i hi
  rw [getLsbD_and, pteAddrMask_bit i hi, getLsbD_ofNat]
  by_cases hbit : a.testBit i = true
  · simp [decide_eq_true (testBit_page a i halign hlt hbit)]
  · rw [Bool.not_eq_true] at hbit
    simp [hbit]

theorem toNat_ofNat_page (hlt : a < 2 ^ 48) : (BitVec.ofNat 64 a).toNat = a := by
  exact Nat.mod_eq_of_lt (by omega)

theorem pteNextTable_tableEntry (halign : a % pageSize = 0) (hlt : a < 2 ^ 48) :
    pteNextTable (tableEntry a) = a := by
  have hbits : (pteValidBit ||| pteTable) &&& pteAddrMask = 0#64 := by decide
  have hmask := and_mask_page a halign hlt
  unfold pteNextTable tableEntry
  rw [BitVec.or_assoc, BitVec.and_comm, BitVec.and_or_distrib_left, BitVec.and_comm pteAddrMask,
    hmask, BitVec.and_comm pteAddrMask, hbits, BitVec.or_zero, toNat_ofNat_page a hlt]

theorem pteValid_tableEntry : pteValid (tableEntry a) = true := by
  unfold pteValid tableEntry
  simp [show pteValidBit.getLsbD 0 = true from rfl]

theorem pteIsTable_tableEntry : pteIsTable (tableEntry a) = true := by
  unfold pteIsTable tableEntry
  simp [show pteTable.getLsbD 1 = true from rfl]

/-- The bits of a page mapping besides its address. -/
def leafBits : BitVec 64 := pteValidBit ||| pteTable ||| pteAf ||| pteShInner ||| pteNg

theorem leafEntry_eq :
    leafEntry pa flags = (BitVec.ofNat 64 pa &&& pteAddrMask) ||| leafBits ||| flags := by
  unfold leafEntry leafBits
  simp only [BitVec.or_assoc]

/-- Outside the address field an entry has the bits of its flags and the fixed
    ones. -/
theorem leafEntry_bit (hi : i < 64) (hout : ¬ (12 ≤ i ∧ i < 48)) :
    (leafEntry pa flags).getLsbD i = (leafBits.getLsbD i || flags.getLsbD i) := by
  rw [leafEntry_eq, getLsbD_or, getLsbD_or, getLsbD_and, pteAddrMask_bit i hi,
    decide_eq_false hout, Bool.and_false, Bool.false_or]

theorem pteNextTable_leafEntry (halign : pa % pageSize = 0) (hlt : pa < 2 ^ 48)
    (hflags : flags &&& pteAddrMask = 0#64) :
    pteNextTable (leafEntry pa flags) = pa := by
  have hbits : leafBits &&& pteAddrMask = 0#64 := by decide
  have hmask := and_mask_page pa halign hlt
  unfold pteNextTable
  rw [leafEntry_eq, hmask, BitVec.and_comm, BitVec.and_or_distrib_left, BitVec.and_or_distrib_left,
    BitVec.and_comm pteAddrMask, hmask, BitVec.and_comm pteAddrMask, hbits,
    BitVec.and_comm pteAddrMask, hflags, BitVec.or_zero, BitVec.or_zero, toNat_ofNat_page pa hlt]

/-- An entry keeps 64 bits of the address it is given. -/
theorem leafEntry_wrap64 :
    leafEntry (wrap64 pa) flags = leafEntry pa flags := by
  have hmod : BitVec.ofNat 64 (wrap64 pa) = BitVec.ofNat 64 pa := by
    apply BitVec.eq_of_toNat_eq
    exact Nat.mod_mod _ _
  unfold leafEntry
  rw [hmod]

/-- What a mapping permits is what its flags say; it is valid and never
    global. -/
theorem leafEntry_perms :
    pteValid (leafEntry pa flags) = true ∧ pteNotGlobal (leafEntry pa flags) = true ∧
      el0Write (leafEntry pa flags) = el0Write flags ∧
      el0Exec (leafEntry pa flags) = el0Exec flags ∧
      ptePrivNoExec (leafEntry pa flags) = ptePrivNoExec flags := by
  have hbit := fun i hi hout => leafEntry_bit pa i flags hi hout
  unfold pteValid pteNotGlobal el0Write el0Exec ptePrivNoExec
  rw [hbit 0 (by omega) (by omega), hbit 6 (by omega) (by omega), hbit 7 (by omega) (by omega),
    hbit 11 (by omega) (by omega), hbit 53 (by omega) (by omega), hbit 54 (by omega) (by omega),
    show leafBits.getLsbD 0 = true by decide, show leafBits.getLsbD 11 = true by decide,
    show leafBits.getLsbD 6 = false by decide, show leafBits.getLsbD 7 = false by decide,
    show leafBits.getLsbD 53 = false by decide, show leafBits.getLsbD 54 = false by decide]
  simp

theorem leafEntry_read :
    el0Read (leafEntry pa flags) = el0Read flags := by
  unfold el0Read
  rw [leafEntry_bit pa 6 flags (by omega) (by omega), show leafBits.getLsbD 6 = false by decide,
    Bool.false_or]

end

section

variable {mem mem' : Memory}

theorem entry_inPage (table i k : Nat) (hi : i < 512) (hk : k < 8) :
    InPage table (table + 8 * i + k) := by
  unfold InPage pageSize
  omega

/-- An entry is read from the bytes of its page. -/
theorem getEntry_congr (table i : Nat) (hi : i < 512) (hag : ∀ x, InPage table x → mem' x = mem x) :
    getEntry mem' table i = getEntry mem table i := by
  unfold getEntry
  rw [loadN_congr mem mem' 8 (table + 8 * i)]
  intro x h1 h2
  have hin := entry_inPage table i (x - (table + 8 * i)) hi (by omega)
  rw [show table + 8 * i + (x - (table + 8 * i)) = x by omega] at hin
  exact hag x hin

theorem getEntry_setEntry_self (mem : Memory) (table i : Nat) (e : BitVec 64) :
    getEntry (setEntry mem table i e) table i = e := by
  unfold getEntry setEntry
  rw [loadN_storeN]
  apply eq_of_toNat_eq
  rw [toNat_ofNat]
  omega

/-- Entries of tables, which are whole pages, overlap only if they are the
    same. -/
theorem getEntry_setEntry_of_ne (mem : Memory) {p q i j : Nat} (e : BitVec 64)
    (hp : p % pageSize = 0) (hq : q % pageSize = 0) (hi : i < 512) (hj : j < 512)
    (hne : ¬ (p = q ∧ i = j)) : getEntry (setEntry mem q j e) p i = getEntry mem p i := by
  unfold getEntry setEntry
  rw [loadN_storeN_disjoint]
  unfold pageSize at hp hq
  omega

/-- A store to an entry stays in the page of its table. -/
theorem setEntry_other (mem : Memory) (table i x : Nat) (e : BitVec 64) (hi : i < 512)
    (hx : ¬ InPage table x) : setEntry mem table i e x = mem x := by
  unfold InPage pageSize at hx
  exact storeN_other (by omega)

/-- A page of zeros is a table without valid entries. -/
theorem pteValid_zero (table i : Nat) (hi : i < 512)
    (hzero : ∀ x, InPage table x → mem x = 0#8) : pteValid (getEntry mem table i) = false := by
  unfold getEntry
  rw [loadN_zero mem 8 (table + 8 * i)]
  · rfl
  · intro x h1 h2
    have hin := entry_inPage table i (x - (table + 8 * i)) hi (by omega)
    rw [show table + 8 * i + (x - (table + 8 * i)) = x by omega] at hin
    exact hzero x hin

end

end CortexForge.Mmu
