import CortexForge.Theory.FileAccess
import CortexForge.Core.SyscallTrace

/-!
# Accesses to Strings and Paths

A string of the caller has no length; the kernel stops at its terminator. The check
of a string finds the terminator below the top of the user address range, and every
loop that follows the string afterwards stops there at the latest, since it stops at
a 0 and the memory is the same.

So the loops that follow a path, which have no bound of their own, both stay in range
and end. `pathFuel` turns are enough for a string that passed the check.

## Main definitions

* `Str`: A string of the caller, from its first byte to its terminator.
* `Follows`: A computation that stays in range and ends.

## Theorems

* `userStrOk_str`: What the check of a string finds.
* `vfsResolve_follows`: Following a path.
* `fdOpen_follows`, `printPath_follows`: Opening it, and printing it.
-/

namespace CortexForge.Vfs

open Traced Syscall UserAccess

/-- The bytes from `p` on are a string that ends at `stop`, in the user address
    range. -/
structure Str (mem : Memory) (p stop : Nat) : Prop where
  le : p ≤ stop
  lt_top : stop < userStackTop
  ends : mem stop = 0
  before : ∀ a, p ≤ a → a < stop → mem a ≠ 0

variable {mem : Memory} {p stop : Nat}

/-- What is left of a string after some of its bytes. -/
theorem Str.suffix (h : Str mem p stop) {q : Nat} (hpq : p ≤ q) (hq : q ≤ stop) :
    Str mem q stop :=
  ⟨hq, h.lt_top, h.ends, fun a ha => h.before a (Nat.le_trans hpq ha)⟩

/-- A byte other than the terminator is not the last one. -/
theorem Str.lt_of_ne (h : Str mem p stop) (hne : mem p ≠ 0) : p < stop :=
  Nat.lt_of_le_of_ne h.le fun heq => hne (heq ▸ h.ends)

theorem Str.next (h : Str mem p stop) (hne : mem p ≠ 0) :
    wrap64 (p + 1) = p + 1 ∧ Str mem (p + 1) stop := by
  have hlt := h.lt_of_ne hne
  have htop := h.lt_top
  have := userStackTop_lt
  exact ⟨Nat.mod_eq_of_lt (by omega), h.suffix (Nat.le_succ p) hlt⟩

/-- The bytes of a string are in the user address range, the terminator included. -/
theorem Str.load (h : Str mem p stop) {a n : Nat} (hn : a + n ≤ stop + 1) :
    InRange 0 userStackTop (.load a n) := by
  have htop := h.lt_top
  exact inRange_load (Nat.le_of_lt userStackTop_lt) (.inr ⟨Nat.zero_le _, by omega⟩)

section

theorem userStrLoop_value (ptr n : Nat) : ∀ i,
    value (userStrLoop mem ptr n i) = (List.range' i n).find? fun j => mem (ptr + j) = 0 := by
  induction n with
  | zero => exact fun i => rfl
  | succ n ih =>
    intro i
    rw [List.range'_succ]
    unfold userStrLoop
    rw [value_bind]
    by_cases hb : mem (ptr + i) = 0
    · rw [List.find?_cons_of_pos (by simpa using hb)]
      exact congrArg value (if_pos hb)
    · rw [List.find?_cons_of_neg (by simpa using hb), ← ih (i + 1)]
      exact congrArg value (if_neg hb)

theorem userStrOkTraced_value (ptr : BitVec 64) :
    value (userStrOkTraced mem ptr) = userStrOk mem ptr := by
  unfold userStrOkTraced userStrOk
  split_ifs with htop
  · rfl
  · rw [userStrLoop_value, List.range_eq_range']

/-- A string that passes the check ends in the user address range, and within the
    limit. -/
theorem userStrOk_str {ptr : BitVec 64} {len : Nat} (h : userStrOk mem ptr = some len) :
    Str mem ptr.toNat (ptr.toNat + len) ∧ len < userPathMax := by
  unfold userStrOk at h
  by_cases htop : ptr.toNat ≥ userStackTop
  · rw [if_pos htop] at h
    exact absurd h (by simp only [reduceCtorEq, not_false_eq_true])
  · rw [if_neg htop] at h
    rcases List.find?_range_eq_some.mp h with ⟨hzero, hmem, hfirst⟩
    have hlen := List.mem_range.mp hmem
    refine ⟨⟨Nat.le_add_right _ _, by omega, of_decide_eq_true hzero, fun a ha hstop heq => ?_⟩,
      by omega⟩
    -- An earlier terminator would have been found first.
    have hnone := hfirst (a - ptr.toNat) (by omega)
    rw [Nat.add_sub_cancel' ha, heq] at hnone
    exact absurd hnone (by decide)

/-- The check loads bytes below the top only. -/
theorem userStrOkTraced_within (ptr : BitVec 64) :
    Within (InRange 0 userStackTop) (userStrOkTraced mem ptr) := by
  refine within_exit fun htop => ?_
  have hloop : ∀ n i, ptr.toNat + i + n ≤ userStackTop →
      Within (InRange 0 userStackTop) (userStrLoop mem ptr.toNat n i) := by
    intro n
    induction n with
    | zero => exact fun i _ => within_pure
    | succ n ih =>
      intro i hn
      refine within_then (loadByte_within ?_) ?_
      · exact inRange_load (Nat.le_of_lt userStackTop_lt) (.inr ⟨Nat.zero_le _, by omega⟩)
      · exact within_exit fun _ => ih (i + 1) (by omega)
  exact hloop _ 0 (by omega)

end

section

variable {s len : Nat}

/-- The computation stays in the user address range, and comes to an end when it has
    turns enough. -/
def Follows {α : Type} (enough : Prop) (c : Logged (Option α)) : Prop :=
  Within (InRange 0 userStackTop) c ∧ (enough → (value c).isSome)

section

variable {α β : Type} {enough : Prop} {c : Logged (Option α)}

theorem follows_some (a : α) : Follows enough (pure (some a)) :=
  ⟨within_pure, fun _ => rfl⟩

theorem follows_none (h : ¬ enough) : Follows enough (pure (none : Option α)) :=
  ⟨within_pure, fun hc => absurd hc h⟩

theorem Follows.ne_none (h : Follows enough c) (he : enough) :
    value c ≠ none := Option.isSome_iff_ne_none.mp (h.2 he)

theorem follows_bind {c : Logged β} {f : β → Logged (Option α)}
    (hc : Within (InRange 0 userStackTop) c) (hf : Follows enough (f (value c))) :
    Follows enough (c >>= f) :=
  ⟨within_then hc hf.1, hf.2⟩

theorem follows_mono {enough' : Prop} (h : Follows enough c) (hmono : enough' → enough) :
    Follows enough' c := ⟨h.1, fun he => h.2 (hmono he)⟩

theorem follows_ite {b : Prop} [Decidable b] {d : Logged (Option α)}
    (hc : b → Follows enough c) (hd : ¬ b → Follows enough d) :
    Follows enough (if b then c else d) := by
  split_ifs with h
  · exact hc h
  · exact hd h

end

theorem Str.loadByte_within (h : Str mem p stop) :
    Within (InRange 0 userStackTop) (loadByte mem p) :=
  Vfs.loadByte_within (h.load (Nat.succ_le_succ h.le))

/-- A scan stays inside the string. -/
theorem scan_follows {kind : Byte → Bool} (hkind : kind 0 = false) (fuel : Nat) :
    ∀ p, Str mem p stop → Follows (stop - p < fuel) (scan mem kind fuel p) := by
  induction fuel with
  | zero => exact fun p _ => follows_none (by omega)
  | succ fuel ih =>
    intro p h
    refine follows_bind h.loadByte_within (follows_ite (fun hb => ?_) fun _ => follows_some p)
    -- A byte of the kind is not the terminator, so the string goes on.
    have hne : mem p ≠ 0 := fun heq => by
      rw [show value (loadByte mem p) = mem p from rfl, heq, hkind] at hb
      exact absurd hb (by decide)
    rcases h.next hne with ⟨hwrap, hrest⟩
    rw [hwrap]
    exact follows_mono (ih (p + 1) hrest) fun hlt => by have := h.lt_of_ne hne; omega

/-- It ends on a byte of another kind. -/
theorem scan_stops {kind : Byte → Bool} (hkind : kind 0 = false) (fuel : Nat) :
    ∀ p, Str mem p stop → ∀ q, value (scan mem kind fuel p) = some q →
      p ≤ q ∧ q ≤ stop ∧ kind (mem q) = false := by
  induction fuel with
  | zero => exact fun p _ q hq =>
      absurd hq (by simp only [scan, value_pure, reduceCtorEq, not_false_eq_true])
  | succ fuel ih =>
    intro p h q hq
    unfold scan at hq
    rw [value_bind, show value (loadByte mem p) = mem p from rfl] at hq
    by_cases hb : kind (mem p) = true
    · have hne : mem p ≠ 0 := fun heq => by
        rw [heq, hkind] at hb
        exact absurd hb (by decide)
      rcases h.next hne with ⟨hwrap, hrest⟩
      rw [if_pos hb, hwrap] at hq
      rcases ih (p + 1) hrest q hq with ⟨hle, hstops⟩
      exact ⟨by omega, hstops⟩
    · rw [if_neg hb] at hq
      cases hq
      exact ⟨Nat.le_refl _, h.le, Bool.of_not_eq_true hb⟩

variable {R : Type} (hw : Hardware R)

/-- A byte of a name that lies inside the string. -/
theorem Str.loadName (h : Str mem p stop) {i : Nat} (hi : i < len) (hlen : s + len ≤ stop) :
    InRange 0 userStackTop (.load (wrap64 (s + i)) 1) := by
  have htop := h.lt_top
  have := userStackTop_lt
  rw [show wrap64 (s + i) = s + i from Nat.mod_eq_of_lt (by omega)]
  exact h.load (by omega)

section

variable (h : Str mem p stop) (hlen : s + len ≤ stop)
include h hlen

theorem nameMatch_within (name : List Byte) (n : Nat) : ∀ i, i + n ≤ len →
    Within (InRange 0 userStackTop) (nameMatch mem name s n i) := by
  induction n with
  | zero => exact fun i _ => within_pure
  | succ n ih =>
    intro i hi
    refine within_then (loadByte_within (h.loadName (by omega) hlen)) ?_
    exact within_exit fun _ => ih (i + 1) (by omega)

theorem findNamed_within (pool : Pool) (cs : List Nat) :
    Within (InRange 0 userStackTop) (findNamed mem pool s len cs) := by
  induction cs with
  | nil => exact within_pure
  | cons c cs ih =>
    refine within_then (nameMatch_within h hlen _ len 0 (by omega)) ?_
    exact within_exit fun _ => ih

theorem copyName_within (n : Nat) : ∀ i, i + n ≤ len →
    Within (InRange 0 userStackTop) (copyName mem s n i) := by
  induction n with
  | zero => exact fun i _ => within_pure
  | succ n ih =>
    intro i hi
    refine within_then (loadByte_within (h.loadName (by omega) hlen)) ?_
    exact within_last (ih (i + 1) (by omega))

/-- Past the copy of the name a lookup on the volume has the kernel's own data. -/
theorem fat32Lookup_within (k : Files R) (dir : Nat) :
    Within (InRange 0 userStackTop) (fat32Lookup hw mem k dir s len) := by
  unfold fat32Lookup
  cases (k.pool.nodes dir).privateData with
  | none => exact within_pure
  | some pd =>
    refine within_exit fun _ => ?_
    refine within_then (copyName_within h hlen len 0 (by omega)) ?_
    generalize value (copyName mem s len 0) = tmp
    rcases hw.fat32LookupInDir k.rest pd.firstCluster tmp with ⟨rest, found⟩
    cases found with
    | none => exact within_pure
    | some e =>
      simp only []
      rcases hw.kmalloc rest fat32PrivSize with ⟨rest, cpd⟩
      cases cpd with
      | none => exact within_pure
      | some cpd =>
        cases vfsCreateNode k.pool dir tmp (if e.isDir then .dir else .reg) with
        | none => exact within_pure
        | some r => exact within_pure

theorem component_within : Within (InRange 0 userStackTop) (component mem s len) := by
  refine within_ite (fun hone => ?_) fun _ => within_ite (fun htwo => ?_) fun _ => within_pure
  · exact within_last (loadByte_within (h.load (by omega)))
  · refine within_then (loadByte_within (h.load (by omega))) ?_
    refine within_ite (fun _ => ?_) fun _ => within_pure
    refine within_last (loadByte_within ?_)
    exact h.loadName (by omega) hlen

theorem enter_within (k : Files R) (cur : Nat) :
    Within (InRange 0 userStackTop) (enter hw mem k cur s len) := by
  refine within_exit fun _ => ?_
  refine within_then (component_within h hlen) ?_
  cases value (component mem s len) with
  | stay => exact within_pure
  | up => exact within_pure
  | child =>
    refine within_then (findNamed_within h hlen _ _) ?_
    cases value (findNamed mem k.pool s len (k.pool.nodes cur).children) with
    | some c => exact within_pure
    | none =>
      exact within_ite (fun _ => fat32Lookup_within hw h hlen k cur) fun _ => within_pure

end

/-- Following a path: each component takes one byte at least, so a turn for each byte
    that is left is enough. -/
theorem resolveFrom_follows (fuel : Nat) : ∀ (k : Files R) (cur p : Nat), Str mem p stop →
    Follows (stop - p + 2 ≤ fuel) (resolveFrom hw mem fuel k cur p) := by
  induction fuel with
  | zero => exact fun k cur p _ => follows_none (by omega)
  | succ fuel ih =>
    intro k cur p h
    refine follows_bind h.loadByte_within (follows_ite (fun _ => follows_some _) fun _ => ?_)
    -- The slashes come first.
    have hslash := @scan_follows mem stop (· == slash) (by decide) fuel p h
    refine follows_bind hslash.1 ?_
    cases hq : value (scan mem (· == slash) fuel p) with
    | none => exact follows_none fun hfuel => hslash.ne_none (by omega) hq
    | some q =>
      rcases scan_stops (by decide) fuel p h q hq with ⟨hpq, hqs, hkind⟩
      have hstr := h.suffix hpq hqs
      refine follows_bind hstr.loadByte_within
        (follows_ite (fun _ => follows_some _) fun hend => ?_)
      -- Then the component, up to the next slash or the end.
      have hname := @scan_follows mem stop (fun b => b != 0 && b != slash) (by decide) fuel q hstr
      refine follows_bind hname.1 ?_
      cases hr : value (scan mem (fun b => b != 0 && b != slash) fuel q) with
      | none => exact follows_none fun hfuel => hname.ne_none (by omega) hr
      | some r =>
        rcases scan_stops (by decide) fuel q hstr r hr
          with ⟨hqr, hrs, hother⟩
        have hlt : q < r := by
          refine Nat.lt_of_le_of_ne hqr fun heq => ?_
          rw [← heq, bne, bne, hkind,
            beq_eq_false_iff_ne.mpr (show mem q ≠ 0 from hend)] at hother
          exact absurd hother (by decide)
        have htop := h.lt_top
        have := userStackTop_lt
        have hlen := sub64_of_le hqr (show r < 2 ^ 64 by omega)
        refine follows_bind (enter_within hw hstr (by omega) k cur) ?_
        rcases value (enter hw mem k cur q (sub64 r q)) with ⟨k', next⟩
        cases next with
        | none => exact follows_some _
        | some cur' =>
          refine follows_mono (ih k' cur' r (hstr.suffix hqr hrs)) fun hfuel => ?_
          omega

theorem vfsResolve_follows (fuel : Nat) (k : Files R) (h : Str mem p stop) :
    Follows (stop - p + 1 ≤ fuel) (vfsResolve hw mem fuel k p) := by
  refine follows_ite (fun _ => follows_some _) fun _ => ?_
  refine follows_bind h.loadByte_within (follows_ite (fun _ => follows_some _) fun hslash => ?_)
  have hne : mem p ≠ 0 := fun heq => hslash fun hc => by
    rw [show value (loadByte mem p) = mem p from rfl, heq] at hc
    exact absurd hc (by decide)
  rcases h.next hne with ⟨hwrap, hrest⟩
  rw [hwrap]
  exact follows_mono (resolveFrom_follows hw fuel k 0 (p + 1) hrest) fun hfuel => by
    have := h.lt_of_ne hne
    omega

/-- Opening a path that passed the check. -/
theorem fdOpen_follows (k : Files R) (h : Str mem p stop) (hlen : stop - p < userPathMax) :
    Follows True (fdOpen hw mem k p) := by
  have hresolve := vfsResolve_follows hw pathFuel k h
  refine follows_bind hresolve.1 ?_
  cases hr : value (vfsResolve hw mem pathFuel k p) with
  | none => exact absurd hr (hresolve.ne_none (by unfold pathFuel; omega))
  | some r =>
    rcases r with ⟨k', node⟩
    cases node with
    | none => exact follows_some _
    | some node =>
      cases hfd : allocFd k' with
      | none =>
        simp only [hfd]
        exact follows_some _
      | some fd =>
        simp only [hfd]
        rcases hw.kmalloc k'.rest fileSize with ⟨rest, record⟩
        cases record with
        | none => exact follows_some _
        | some record => exact follows_some _

theorem printPath_follows {w : FileWorld R} {path : BitVec 64} (h : Str w.mem path.toNat stop)
    (hlen : stop - path.toNat < userPathMax) : Follows True (printPath w path) := by
  have hscan := @scan_follows w.mem stop (· != 0) (by decide) pathFuel path.toNat h
  refine follows_bind hscan.1 ⟨within_pure, fun _ => ?_⟩
  rw [value_pure, Option.isSome_map]
  exact hscan.2 (by unfold pathFuel; omega)

end

end CortexForge.Vfs
