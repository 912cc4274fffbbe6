import CortexForge.Theory.SignalStack
import CortexForge.Theory.Vector

/-!
# Signals and Floating Point

A signal handler runs between two exceptions. The first one saves the interrupted
registers in a trap frame, and the delivery moves the integer part of that frame to the
user stack. The second one is the handler's `sigreturn`: the vector code saves the
handler's registers in a new frame, and `signal_sigreturn` overwrites the integer part
with what the delivery had put aside.

The vector registers, `FPSR` and `FPCR` are in neither move: `sigframe_t` has no place
for them. The handler starts with those of the code it interrupts, and that code goes on
with those of the handler, so it finds them as they were if and only if the handler
leaves them alone (`signal_fp_iff`).

## Main definitions

* `SameFp`: Two states with the same floating-point state.
* `OnKernelStack`: A stack pointer in the kernel's linear map, with room for a frame.
* `Handled`: The C handler has returned and left a frame behind.

## Theorems

* `writeFrame_other`, `stores_outside`: What C code and delivery leave alone.
* `return_fp`: A return brings back the floating-point state of its own exception.
* `signal_fp_iff`: When a handler is transparent to floating point.
-/

namespace CortexForge.Signal

open CortexForge.Vector

/-- The vector registers of a trap frame, `FPSR` and `FPCR` are the same. -/
structure SameFp (a b : Vector.Cpu) : Prop where
  q : ∀ r, FpCaller r → a.q r = b.q r
  fpsr : a.sys .fpsr = b.sys .fpsr
  fpcr : a.sys .fpcr = b.sys .fpcr

/-- A kernel stack pointer as it is while EL0 runs: in the linear map, with a frame's
    room below. -/
def OnKernelStack (sp : Nat) : Prop :=
  kernelVaOffset + frameSize ≤ sp ∧ sp ≤ kernelVaOffset + physLimit

/-- The state `d` in which the C handler of an exception returns, when its trap frame at
    `sp` was changed to `f` in the memory `mem`. The handler may have changed any register
    that it need not keep, and memory elsewhere. -/
structure Handled (mem : Memory) (sp : Nat) (f : TrapFrame) (d : Vector.Cpu) : Prop where
  skip : d.skip = 0
  stack : d.sp = sp
  frame : ∀ x, sp ≤ x → x < sp + frameSize → d.mem x = writeFrame mem sp f x

section

theorem sameFp_symm {a b : Vector.Cpu} (h : SameFp a b) : SameFp b a :=
  ⟨fun r hr => (h.q r hr).symm, h.fpsr.symm, h.fpcr.symm⟩

theorem sameFp_trans {a b c : Vector.Cpu} (h : SameFp a b) (h' : SameFp b c) : SameFp a c :=
  ⟨fun r hr => (h.q r hr).trans (h'.q r hr), h.fpsr.trans h'.fpsr, h.fpcr.trans h'.fpcr⟩

/-- C code changes nothing of a frame from the vector registers up. -/
theorem writeFrame_other (mem : Memory) (sp : Nat) (f : TrapFrame) (x : Nat)
    (hx : sp + 288 ≤ x) : writeFrame mem sp f x = mem x := by
  have hall : ∀ n ≤ 36, (List.range n).foldl
      (fun m i => storeN m (sp + 8 * i) 8 (frameWord f i).toNat) mem x = mem x := by
    intro n hn
    induction n with
    | zero => rfl
    | succ n ih =>
      rw [List.range_succ, List.foldl_append, List.foldl_cons, List.foldl_nil,
        storeN_other (by omega), ih (by omega)]
  exact hall 36 (Nat.le_refl 36)

/-- The stores of a delivery are not on a kernel stack. -/
theorem stores_outside {t t' : SigTask} {frame frame' : TrapFrame}
    {stores : List (BitVec 64 × BitVec 64)}
    (hcall : signalCheckAndDeliver t frame = (t', .handler frame' stores))
    {st : BitVec 64 × BitVec 64} (hst : st ∈ stores) :
    st.1.toNat + 8 ≤ kernelVaOffset ∨ kernelVaOffset + physLimit ≤ st.1.toNat := by
  rcases deliver_cases hcall with ⟨hsp, rfl, htop⟩
  rcases mem_sigframeStores hst with ⟨i, hi, haddr⟩
  rw [hsp] at haddr
  have hword : st.1.toNat
      = (((frame.spEl0 - sigframeReserve) &&& ~~~15#64).toNat + 8 * i) % 2 ^ 64 := by
    rw [haddr, BitVec.toNat_add, BitVec.toNat_ofNat]
    omega
  unfold userStackTop at htop
  unfold kernelVaOffset physLimit
  by_cases hroom : 288 ≤ frame.spEl0.toNat
  · rw [newSp_toNat hroom] at hword
    omega
  · -- The pointer wraps, and the frame lies across the end of the address space.
    have hhigh := newSp_toNat_wrap frame.spEl0 (by omega)
    omega

/-- The floating-point state in a frame does not depend on the rest of it. -/
theorem exceptionReturn_fp {c d e : Vector.Cpu} (h : Stored frameSlots c d) (hskip : e.skip = 0)
    (hsp : e.sp = d.sp) (hmem : ∀ x, d.sp + 288 ≤ x → x < d.sp + frameSize → e.mem x = d.mem x) :
    SameFp (run exceptionReturn e) c := by
  rcases stored_fp h with ⟨hq, hfpsr, hfpcr⟩
  have hload : ∀ off n, 288 ≤ off → off + n ≤ frameSize →
      loadN e.mem (e.sp + off) n = loadN d.mem (d.sp + off) n := by
    intro off n hlo hhi
    rw [hsp]
    exact loadN_congr d.mem e.mem n _ fun x h1 h2 => hmem x (by omega) (by omega)
  have hslot : ∀ r, FpCaller r → 288 ≤ fpSlot r ∧ fpSlot r + 16 ≤ frameSize := by decide
  rw [exceptionReturn_eq e hskip]
  refine ⟨fun r hr => ?_, ?_, ?_⟩
  · refine (if_pos hr).trans (Eq.trans ?_ (hq r hr))
    unfold vec
    rw [hload (fpSlot r) 16 (hslot r hr).1 (hslot r hr).2]
  · refine Eq.trans ?_ hfpsr
    exact congrArg (BitVec.ofNat 64) (hload 672 8 (by decide) (by decide))
  · refine Eq.trans ?_ hfpcr
    exact congrArg (BitVec.ofNat 64) (hload 680 8 (by decide) (by decide))

end

/-- The return from an exception brings back the floating-point state it was taken
    with, whatever C code made of the frame. -/
theorem return_fp (type : BitVec 64) {c d : Vector.Cpu} {mem : Memory} {f : TrapFrame}
    (hskip : c.skip = 0) (hroom : frameSize ≤ c.sp) (hd : Handled mem (c.sp - frameSize) f d)
    (hmem : ∀ x, c.sp - frameSize ≤ x → x < c.sp → mem x = (trapLower type c).mem x) :
    SameFp (run exceptionReturn d) c := by
  have hstored := trapLower_stored type hskip
  have hsp : (trapLower type c).sp = c.sp - frameSize := hstored.sp
  have hfp : SameFp (run exceptionReturn d) { c with sp := c.sp - frameSize } := by
    refine exceptionReturn_fp hstored hd.skip (hd.stack.trans hsp.symm) fun x hlo hhi => ?_
    rw [hsp] at hlo hhi
    rw [hd.frame x (by omega) hhi, writeFrame_other mem _ f x hlo]
    exact hmem x (by omega) (by omega)
  exact ⟨hfp.q, hfp.fpsr, hfp.fpcr⟩

/-- A signal is delivered at an exception taken in the state `c`, and the C handler
    returns in the state `d`; the `eret` enters the signal handler. It calls `sigreturn`
    in the state `e`, whatever it has done, and the C handler returns in the state `g`,
    whatever frame `f` the call has found on the user stack.
    The interrupted code finds its vector registers, `FPSR` and `FPCR` as they were if
    and only if the signal handler calls `sigreturn` with the ones it was entered with. -/
theorem signal_fp_iff (t t' : SigTask) (type : BitVec 64) (c d e g : Vector.Cpu)
    (frame' f : TrapFrame) (stores : List (BitVec 64 × BitVec 64)) (hc : c.skip = 0)
    (hstack : OnKernelStack c.sp)
    (hdeliver : signalCheckAndDeliver t (readFrame (trapLower type c)) =
      (t', .handler frame' stores))
    (hd : Handled (applyStores (trapLower type c).mem stores) (c.sp - frameSize) frame' d)
    (he : e.skip = 0) (hesp : e.sp = (run exceptionReturn d).sp)
    (hg : Handled (trapLower exceptionSync e).mem (e.sp - frameSize) f g) :
    SameFp (run exceptionReturn g) c ↔ SameFp e (run exceptionReturn d) := by
  have hroom : frameSize ≤ c.sp := Nat.le_trans (Nat.le_add_left _ _) hstack.1
  -- The delivery stores to the user stack only.
  have hentered : SameFp (run exceptionReturn d) c := by
    refine return_fp type hc hroom hd fun x hlo hhi => ?_
    refine applyStores_other stores _ x fun st hst => ?_
    have hout := stores_outside hdeliver hst
    have hmap := hstack
    unfold OnKernelStack frameSize at hmap
    unfold frameSize at hlo
    omega
  have hesp' : e.sp = c.sp := by
    rw [hesp, exceptionReturn_eq d hd.skip, hd.stack]
    unfold frameSize at hroom ⊢
    simp only
    omega
  have hresumed : SameFp (run exceptionReturn g) e :=
    return_fp exceptionSync he (by rw [hesp']; exact hroom) hg fun _ _ _ => rfl
  constructor
  · intro h
    exact sameFp_trans (sameFp_trans (sameFp_symm hresumed) h) (sameFp_symm hentered)
  · intro h
    exact sameFp_trans hresumed (sameFp_trans h hentered)

/-- The C handler returns and has changed nothing but the frame. -/
def withFrame (c : Vector.Cpu) (mem : Memory) (f : TrapFrame) : Vector.Cpu :=
  { c with mem := writeFrame mem c.sp f }

/-- The state in which it returns when it has delivered a signal. -/
def delivered (t : SigTask) (type : BitVec 64) (c : Vector.Cpu) : Option Vector.Cpu :=
  match (signalCheckAndDeliver t (readFrame (trapLower type c))).2 with
  | .handler frame stores =>
      some (withFrame (trapLower type c) (applyStores (trapLower type c).mem stores) frame)
  | _ => none

/-- The state in which it returns from a `sigreturn`. -/
def sigreturned (e : Vector.Cpu) : Option Vector.Cpu :=
  (signalSigreturn (trapLower exceptionSync e).mem (readFrame (trapLower exceptionSync e))).map
    (withFrame (trapLower exceptionSync e) (trapLower exceptionSync e).mem)

section

variable {t : SigTask} {type : BitVec 64} {c d e g : Vector.Cpu}

theorem withFrame_handled (type : BitVec 64) (hskip : c.skip = 0) (mem : Memory)
    (f : TrapFrame) : Handled mem (c.sp - frameSize) f (withFrame (trapLower type c) mem f) := by
  have hstored := trapLower_stored type hskip
  generalize trapLower type c = saved at hstored
  have hsp : saved.sp = c.sp - frameSize := hstored.sp
  exact ⟨hstored.skip, hsp, fun x _ _ => by rw [withFrame, hsp]⟩

theorem delivered_handled (hskip : c.skip = 0) (h : delivered t type c = some d) :
    ∃ t' frame' stores,
      signalCheckAndDeliver t (readFrame (trapLower type c)) = (t', .handler frame' stores) ∧
      Handled (applyStores (trapLower type c).mem stores) (c.sp - frameSize) frame' d := by
  have hdone := withFrame_handled type hskip
  rcases hcall : signalCheckAndDeliver t (readFrame (trapLower type c)) with ⟨t', outcome⟩
  rw [delivered, hcall] at h
  cases outcome with
  | nothing => cases h
  | terminated sig => cases h
  | handler frame stores =>
    rw [← Option.some.inj h]
    exact ⟨t', frame, stores, rfl, hdone _ frame⟩

theorem sigreturned_handled (hskip : e.skip = 0) (h : sigreturned e = some g) :
    ∃ f, Handled (trapLower exceptionSync e).mem (e.sp - frameSize) f g := by
  rcases Option.map_eq_some_iff.mp h with ⟨f, _, rfl⟩
  exact ⟨f, withFrame_handled exceptionSync hskip _ f⟩

end

/-- A user task in the middle of a computation, with ones in its vector registers. -/
def interrupted : Vector.Cpu where
  x := fun _ => 0
  q := fun _ => 1
  sys
    | .elrEl1 => 0x400200
    | .spEl0 => 0x7FF000
    | _ => 0
  sp := 0xFFFF000040014000
  mem := fun _ => 0
  skip := 0

/-- A signal handler that leaves twos in the vector registers. -/
def overwritten (c : Vector.Cpu) : Vector.Cpu := { c with q := fun _ => 2 }

theorem overwritten_sp (c : Vector.Cpu) : (overwritten c).sp = c.sp := rfl

theorem signal_fp_iff_overwritten :
    ∃ d g, delivered caughtTask exceptionIrq interrupted = some d ∧
      sigreturned (overwritten (run exceptionReturn d)) = some g ∧
      (SameFp (run exceptionReturn g) interrupted ↔
        SameFp (overwritten (run exceptionReturn d)) (run exceptionReturn d)) := by
  have hsome : ((delivered caughtTask exceptionIrq interrupted).bind fun d =>
      sigreturned (overwritten (run exceptionReturn d))).isSome = true := by decide +kernel
  have hany : ∀ c : Vector.Cpu, c.skip = 0 → OnKernelStack c.sp →
      ((delivered caughtTask exceptionIrq c).bind fun d =>
        sigreturned (overwritten (run exceptionReturn d))).isSome = true →
      ∃ d g, delivered caughtTask exceptionIrq c = some d ∧
        sigreturned (overwritten (run exceptionReturn d)) = some g ∧
        (SameFp (run exceptionReturn g) c ↔
          SameFp (overwritten (run exceptionReturn d)) (run exceptionReturn d)) := by
    intro c hstart hstack hboth
    rcases Option.isSome_iff_exists.mp hboth with ⟨g, hboth⟩
    rcases Option.bind_eq_some_iff.mp hboth with ⟨d, hd, hg⟩
    rcases delivered_handled hstart hd with ⟨t', frame', stores, hcall, hdone⟩
    have hskip : (overwritten (run exceptionReturn d)).skip = 0 := by
      rw [overwritten, exceptionReturn_eq d hdone.skip]
      exact hdone.skip
    rcases sigreturned_handled hskip hg with ⟨f, hdone'⟩
    exact ⟨d, g, hd, hg, signal_fp_iff caughtTask t' exceptionIrq c d
      (overwritten (run exceptionReturn d)) g frame' f stores hstart hstack hcall hdone hskip
      (overwritten_sp _) hdone'⟩
  exact hany interrupted rfl ⟨by decide, by decide⟩ hsome

/-- The interrupted code goes on at its own address, with the handler's twos. -/
theorem signal_fp_clobbered :
    ((delivered caughtTask exceptionIrq interrupted).bind fun d =>
      sigreturned (overwritten (run exceptionReturn d))).map
        (fun g => ((run exceptionReturn g).sys .elrEl1, (run exceptionReturn g).q 0))
      = some (0x400200, 2) ∧ interrupted.q 0 = 1 := by
  decide +kernel

end CortexForge.Signal
