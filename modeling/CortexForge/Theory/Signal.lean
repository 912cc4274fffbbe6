import CortexForge.Core.Signal
import Mathlib.Tactic.SplitIfs

/-!
# Where Signal Frames Go

A delivery stores 280 bytes through a stack pointer the task chose. This module
says which of the deliveries stay on the user stack.

`deliver_one` moves the stack pointer down by 288 and rounds it to 16 bytes, in
64 bits, and then makes two comparisons: the new pointer must not lie below the
stack and the old one not above it. A pointer below 288 passes both. It wraps to
the top of the address space, far above the stack's lowest address, while the
old pointer is as low as can be. `frame_on_stack_iff` says that this is the only
gap: from 288 up the comparisons are exact.

## Main definitions

* `OnStack`: What a delivery may do.

## Theorems

* `toNat_align16`: Rounding down to 16 bytes.
* `frame_on_stack_iff`: A delivery is safe exactly when the pointer has not
  wrapped.
-/

namespace CortexForge.Signal

open List BitVec

/-- Rounding down to 16 bytes is dropping the last four bits. -/
theorem and_not_15 (x : BitVec 64) : x &&& ~~~15#64 = (x >>> 4) <<< 4 := by
  have hmask : ∀ i : Fin 64, (15#64).getLsbD i = decide (i.val < 4) := by decide
  refine eq_of_getLsbD_eq fun i hi => ?_
  rw [getLsbD_and, getLsbD_not, getLsbD_shiftLeft, getLsbD_ushiftRight,
    hmask ⟨i, hi⟩]
  by_cases hlow : i < 4
  · simp [hlow]
  · simp [hlow, hi, show 4 + (i - 4) = i by omega]

theorem toNat_align16 (x : BitVec 64) : (x &&& ~~~15#64).toNat = x.toNat / 16 * 16 := by
  rw [and_not_15, toNat_shiftLeft, toNat_ushiftRight]
  omega

/-- The selection touches nothing but the pending mask. -/
theorem selectSignal_eq (fuel : Nat) : ∀ t : SigTask,
    (selectSignal fuel t).1 = { t with sigPending := (selectSignal fuel t).1.sigPending } := by
  induction fuel with
  | zero => intro t; rfl
  | succ fuel ih =>
    intro t
    simp only [selectSignal]
    split
    · rfl
    · split
      · rfl
      · split
        · rfl
        · split
          · rw [ih]
          · split <;> rfl

/-- A delivery writes nothing, ends the task, or stores inside the mapped user
    stack only. -/
def OnStack (t : SigTask) : Delivery → Prop
  | .nothing => True
  | .terminated _ => True
  | .handler _ stores =>
      ∀ s ∈ stores, stackLo t ≤ s.1.toNat ∧ s.1.toNat + 8 ≤ userStackTop

/-- The words of the signal frame of an interrupted context. -/
def sigframeWord (frame : TrapFrame) (i : Nat) : BitVec 64 :=
  if i < 31 then frame.regs i
  else if i = 31 then frame.spEl0
  else if i = 32 then frame.elr
  else if i = 33 then frame.spsr
  else BitVec.ofNat 64 userSigtrampVa

theorem sigframeStores_eq (sp : BitVec 64) (frame : TrapFrame) :
    sigframeStores sp frame
      = (range 35).map fun i => (sp + BitVec.ofNat 64 (8 * i), sigframeWord frame i) :=
  rfl

/-- Every store of a signal frame is one of its 35 words. -/
theorem mem_sigframeStores {sp : BitVec 64} {frame : TrapFrame} {s : BitVec 64 × BitVec 64}
    (h : s ∈ sigframeStores sp frame) : ∃ i, i < 35 ∧ s.1 = sp + BitVec.ofNat 64 (8 * i) := by
  rw [sigframeStores_eq] at h
  rcases mem_map.mp h with ⟨i, hi, rfl⟩
  exact ⟨i, mem_range.mp hi, rfl⟩

/-- The first register is stored at the new stack pointer itself. -/
theorem sigframe_first (sp : BitVec 64) (frame : TrapFrame) :
    (sp, frame.regs 0) ∈ sigframeStores sp frame := by
  rw [sigframeStores_eq]
  refine mem_map.mpr ⟨0, mem_range.mpr (by omega), ?_⟩
  rw [BitVec.add_zero]
  rfl

/-- The stack pointer a delivery installs, when the old one leaves room. -/
theorem newSp_toNat {sp : BitVec 64} (h : 288 ≤ sp.toNat) :
    ((sp - sigframeReserve) &&& ~~~15#64).toNat = (sp.toNat - 288) / 16 * 16 := by
  have hres : sigframeReserve.toNat = 288 := rfl
  rw [toNat_align16, toNat_sub]
  omega

/-- The stack pointer a delivery installs when the subtraction wraps. -/
theorem newSp_toNat_wrap (sp : BitVec 64) (h : sp.toNat < 288) :
    2 ^ 64 - 288 ≤ ((sp - sigframeReserve) &&& ~~~15#64).toNat := by
  have hres : sigframeReserve.toNat = 288 := rfl
  rw [toNat_align16, toNat_sub]
  omega

theorem stackLo_eq (t : SigTask) (h : t.stackGrownCount ≤ 60) :
    stackLo t = userStackTop - (userStackPages + t.stackGrownCount) * pageSize := by
  unfold stackLo sub64 wrap64 userStackTop userStackPages pageSize
  omega

/-- A single delivery stays on the stack exactly when the pointer leaves room
    for the frame above address zero. -/
theorem deliverOne_onStack_iff {t : SigTask} (frame : TrapFrame) (sig : Nat) (handler : BitVec 64)
    (hgrown : t.stackGrownCount ≤ 60) :
    OnStack t (deliverOne t frame sig handler) ↔ 288 ≤ frame.spEl0.toNat := by
  have hlo := stackLo_eq t hgrown
  have htop : userStackTop = 0x800000 := rfl
  simp only [deliverOne]
  by_cases hroom : 288 ≤ frame.spEl0.toNat
  · simp only [hroom, iff_true]
    have hsp := newSp_toNat hroom
    split
    · exact trivial
    · -- Both comparisons passed, and the frame fits between the two pointers.
      rename_i hcheck
      intro s hs
      rcases mem_sigframeStores hs with ⟨i, hi, haddr⟩
      have hword : s.1.toNat = (frame.spEl0.toNat - 288) / 16 * 16 + 8 * i := by
        rw [haddr, toNat_add, toNat_ofNat]
        omega
      omega
  · simp only [hroom, iff_false]
    have hsp := newSp_toNat_wrap frame.spEl0 (by omega)
    rw [if_neg (by omega)]
    intro hon
    have hfirst := hon _ (sigframe_first _ frame)
    simp only at hfirst
    omega

/-- Where signal frames go, for every stack pointer, mask and handler: the call
    writes nothing, ends the task or stores inside the mapped user stack,
    exactly when it does not return to EL0, has no handler to run, or finds at
    least 288 bytes below the stack pointer. -/
theorem frame_on_stack_iff (t : SigTask) (frame : TrapFrame) (hgrown : t.stackGrownCount ≤ 60) :
    OnStack t (signalCheckAndDeliver t frame).2 ↔
      modeBits frame.spsr ≠ 0 ∨
      (∀ sig handler, (selectSignal (sigMax + 1) t).2 ≠ .run sig handler) ∨
      288 ≤ frame.spEl0.toNat := by
  unfold signalCheckAndDeliver
  split_ifs with hmode
  · exact ⟨fun _ => .inl hmode, fun _ => trivial⟩
  have hlo : stackLo (selectSignal (sigMax + 1) t).1 = stackLo t := by
    rw [selectSignal_eq, stackLo, stackLo]
  have hcount : (selectSignal (sigMax + 1) t).1.stackGrownCount ≤ 60 := by
    rw [selectSignal_eq]
    exact hgrown
  cases hv : (selectSignal (sigMax + 1) t).2 with
  | idle =>
    simp only [hv, OnStack, true_iff]
    exact .inr (.inl (fun _ _ => by simp only [ne_eq, reduceCtorEq, not_false_eq_true]))
  | kill sig =>
    simp only [hv, OnStack, true_iff]
    exact .inr (.inl (fun _ _ => by simp only [ne_eq, reduceCtorEq, not_false_eq_true]))
  | run sig handler =>
    have hone := deliverOne_onStack_iff frame sig handler hcount
    -- The bounds are those of the task before the selection.
    have hsame : ∀ d, OnStack t d ↔ OnStack (selectSignal (sigMax + 1) t).1 d := by
      intro d
      cases d <;> simp only [OnStack, hlo]
    simp only [hv, hsame, hone]
    constructor
    · exact fun h => .inr (.inr h)
    · rintro (h | h | h)
      · exact absurd h hmode
      · exact absurd rfl (h sig handler)
      · exact h

/-- A task that catches `SIGHUP`, with that signal pending. -/
def caughtTask : SigTask :=
  { sigHandlers := fun _ => 0x400000, sigPending := 2, sigBlocked := 0, sigAlarmTicks := 0
    stackGrownCount := 0 }

/-- A trap frame on the way back to EL0 with the given stack pointer. -/
def el0Frame (sp : BitVec 64) : TrapFrame :=
  { regs := fun _ => 0, elr := 0x400100, spsr := 0, esr := 0, far := 0, spEl0 := sp }

/-- A signal for which the task has a handler is delivered, if the stack pointer
    passes the check. -/
theorem caught_delivers (frame : TrapFrame) (hmode : modeBits frame.spsr = 0)
    (hcheck : ¬ (((frame.spEl0 - sigframeReserve) &&& ~~~15#64).toNat < stackLo caughtTask ∨
      frame.spEl0.toNat > userStackTop)) :
    ∃ frame', signalCheckAndDeliver caughtTask frame
        = ({ caughtTask with sigPending := 0 },
          .handler frame' (sigframeStores frame'.spEl0 frame)) ∧
      frame'.spEl0 = (frame.spEl0 - sigframeReserve) &&& ~~~15#64 ∧ frame'.spsr = frame.spsr := by
  have hsel : selectSignal (sigMax + 1) caughtTask
      = ({ caughtTask with sigPending := 0 }, .run 1 0x400000) := rfl
  have hlo : stackLo { caughtTask with sigPending := 0 } = stackLo caughtTask := rfl
  unfold signalCheckAndDeliver
  rw [if_neg (not_not_intro hmode)]
  simp only [hsel, deliverOne, hlo]
  rw [if_neg hcheck]
  exact ⟨_, rfl, rfl, rfl⟩

/-- With a stack pointer of zero the frame is stored at the top of the address
    space. -/
theorem frame_off_stack_zero :
    ¬ OnStack caughtTask (signalCheckAndDeliver caughtTask (el0Frame 0)).2 ∧
    ∃ frame stores, (signalCheckAndDeliver caughtTask (el0Frame 0)).2 = .handler frame stores ∧
      (0xFFFFFFFFFFFFFEE0#64, 0#64) ∈ stores := by
  rcases caught_delivers (el0Frame 0) (by decide) (by decide) with ⟨frame, hcall, hsp, _⟩
  have hfirst := sigframe_first frame.spEl0 (el0Frame 0)
  rw [hcall]
  refine ⟨fun hon => ?_, frame, _, rfl, ?_⟩
  · exact absurd (hon _ hfirst).2 (by simp only [hsp]; decide)
  · rw [hsp] at hfirst ⊢
    exact hfirst

/-- A stack pointer inside the stack: the frame is stored below it. -/
theorem frame_on_stack_inside : OnStack caughtTask
    (signalCheckAndDeliver caughtTask (el0Frame 0x7FF000)).2 :=
  (frame_on_stack_iff caughtTask (el0Frame 0x7FF000) (by decide)).mpr
    (.inr (.inr (by decide)))

end CortexForge.Signal
