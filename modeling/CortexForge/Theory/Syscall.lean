import CortexForge.Core.Syscall
import Mathlib.Logic.Relation
import Mathlib.Tactic.SplitIfs

/-!
# The Return to EL0

The epilogue of an exception returns to whatever level the saved state in the
trap frame names. A frame taken from EL0 names EL0, so what has to be known is
which calls rewrite that field.

Three places do. `exec` puts in a state of EL0. The delivery of a signal keeps
the state of the frame. `sigreturn` loads it from the user stack, and
`signal_sigreturn` checks where the signal frame lies but not what it says:
`dispatch_spsr` lists these, and `eret_level` draws the conclusion. A call
returns to EL0 unless it is a `sigreturn` whose frame names another level, and
in that case it does not (`sigreturn_reaches_el1`).

`El0Step` strings such calls together. Between two of them the task runs at EL0
and may do anything to its registers and memory, and other tasks and interrupts
may do anything to the rest; only the level it runs at is given.

## Main definitions

* `ForgedReturn`: A `sigreturn` from a frame that names another level.
* `El0Step`: From one return to EL0 through a system call to the next.

## Theorems

* `dispatch_spsr`: The saved state after a system call.
* `eret_level`: Which calls return to EL0, and the runs made of them.
-/

namespace CortexForge.Syscall

open Signal Option

variable {K : Type}

/-- The call is `sigreturn`, and the signal frame at the stack pointer names a
    level other than EL0. -/
def ForgedReturn (w : World K) (frame : TrapFrame) : Prop :=
  frame.regs 8 = sysSigreturnNum ∧ modeBits (loadU64 w.mem (frame.spEl0 + 264)) ≠ 0

/-- The saved state after `exec`: a new image starts at EL0, and a failed call
    leaves the state alone. -/
theorem sysExec_spsr {svc : Services K} {path argv : BitVec 64} {frame f : TrapFrame}
    {w w' : World K} (h : sysExec svc path argv frame w = some (w', some f)) : f.spsr = 0 := by
  unfold sysExec at h
  split at h
  · exact absurd h (by simp)
  · split at h
    · exact absurd h (by simp)
    · split at h
      · exact absurd h (by simp)
      · -- Only here is a frame built, and it is the one of the new image.
        rcases map_eq_some_iff.mp h with ⟨r, _, heq⟩
        have hframe := (Prod.mk.injEq _ _ _ _ ▸ heq).2
        rcases map_eq_some_iff.mp hframe with ⟨entry, _, hf⟩
        rw [← hf, execFrame]

theorem dispatch_spsr {svc : Services K} {w w' : World K} {frame f : TrapFrame}
    (h : syscallDispatch svc w frame = some (w', f)) :
    (frame.regs 8 = sysSigreturnNum ∧ w' = w ∧
      f.spsr = loadU64 w.mem (frame.spEl0 + 264)) ∨
    (frame.regs 8 ≠ sysSigreturnNum ∧ (f.spsr = frame.spsr ∨ f.spsr = 0)) := by
  unfold syscallDispatch at h
  by_cases hexit : frame.regs 8 = sysExitNum
  · rw [if_pos hexit] at h
    exact absurd h (by simp)
  rw [if_neg hexit] at h
  split_ifs at h with hfork hexec hsig
  · rcases map_eq_some_iff.mp h with ⟨r, _, heq⟩
    cases heq
    exact .inr ⟨by rw [hfork]; decide, .inl rfl⟩
  · rcases map_eq_some_iff.mp h with ⟨⟨w1, r⟩, hrun, heq⟩
    refine .inr ⟨by rw [hexec]; decide, ?_⟩
    cases r with
    | none =>
      cases heq
      exact .inl rfl
    | some f1 =>
      cases heq
      exact .inr (sysExec_spsr hrun)
  · rcases map_eq_some_iff.mp h with ⟨f1, hret, heq⟩
    cases heq
    refine .inl ⟨hsig, rfl, ?_⟩
    -- The check is of the frame's place; the state is loaded as it stands.
    simp only [signalSigreturn] at hret
    split at hret
    · exact absurd hret (by simp)
    · cases hret
      rfl
  · rcases map_eq_some_iff.mp h with ⟨r, _, heq⟩
    cases heq
    exact .inr ⟨hsig, .inl rfl⟩

/-- The delivery of a signal keeps the saved state. -/
theorem deliverSignals_spsr (w w' : World K) (frame f : TrapFrame)
    (h : deliverSignals w frame = some (w', f)) : f.spsr = frame.spsr := by
  have hone : ∀ t sig handler f1 stores,
      deliverOne t frame sig handler = .handler f1 stores → f1.spsr = frame.spsr := by
    intro t sig handler f1 stores hd
    simp only [deliverOne] at hd
    split at hd
    · exact absurd hd (by simp)
    · cases hd
      rfl
  unfold deliverSignals at h
  unfold signalCheckAndDeliver at h
  by_cases hmode : modeBits frame.spsr ≠ 0
  · simp only [if_pos hmode] at h
    cases h
    rfl
  · simp only [if_neg hmode] at h
    cases hv : (selectSignal (sigMax + 1) w.task).2 with
    | idle =>
      simp only [hv] at h
      cases h
      rfl
    | kill sig => simp only [hv, reduceCtorEq] at h
    | run sig handler =>
      simp only [hv] at h
      cases hd : deliverOne (selectSignal (sigMax + 1) w.task).1 frame sig handler with
      | nothing =>
        simp only [hd] at h
        cases h
        rfl
      | terminated sig => simp only [hd, reduceCtorEq] at h
      | handler f1 stores =>
        simp only [hd] at h
        cases h
        exact hone _ sig handler _ stores hd

/-- A system call taken from EL0 returns to EL0 exactly when it is not a forged
    return. -/
theorem svc_level_iff {svc : Services K} {w w' : World K} {frame f : TrapFrame}
    (hel0 : modeBits frame.spsr = 0) (hsvc : esrEc frame.esr = ecSvcAarch64)
    (h : exceptionDispatch svc .sync w frame = some (w', f)) :
    modeBits f.spsr = 0 ↔ ¬ ForgedReturn w frame := by
  rcases bind_eq_some_iff.mp h with ⟨⟨w1, f1⟩, hcall, hsig⟩
  have hspsr := deliverSignals_spsr w1 w' f1 f hsig
  simp only [handleException, if_pos hsvc] at hcall
  rw [hspsr]
  unfold ForgedReturn
  rcases dispatch_spsr hcall with ⟨hnum, _, hload⟩ | ⟨hnum, hkeep | hzero⟩
  · rw [hload]
    simp [hnum]
  · simp only [hkeep, hel0, hnum, false_and, not_false_eq_true]
  · simp only [hzero, hnum, false_and]
    decide

/-- From one return to EL0 to the next: the task runs at EL0 and everything but
    its level may change, then it makes a system call that is not a forged
    return. -/
def El0Step (svc : Services K) (s s' : World K × TrapFrame) : Prop :=
  modeBits s.2.spsr = 0 ∧ ∃ w frame, modeBits frame.spsr = 0 ∧
    esrEc frame.esr = ecSvcAarch64 ∧ ¬ ForgedReturn w frame ∧
    exceptionDispatch svc .sync w frame = some s'

theorem el0Step_level (svc : Services K) (s s' : World K × TrapFrame) (h : El0Step svc s s') :
    modeBits s'.2.spsr = 0 := by
  rcases h with ⟨_, w, frame, hel0, hsvc, hclean, hrun⟩
  exact (svc_level_iff hel0 hsvc hrun).mpr hclean

/-- The level the epilogue returns to. Whatever the services do and whatever the
    caller's registers and memory hold, a system call from EL0 that returns goes
    back to EL0 exactly when it is not a forged return; and a run of any length
    without forged returns stays at EL0. -/
theorem eret_level (svc : Services K) :
    (∀ w w' frame f, modeBits frame.spsr = 0 → esrEc frame.esr = ecSvcAarch64 →
      exceptionDispatch svc .sync w frame = some (w', f) →
      (modeBits f.spsr = 0 ↔ ¬ ForgedReturn w frame)) ∧
    (∀ s s', modeBits s.2.spsr = 0 → Relation.ReflTransGen (El0Step svc) s s' →
      modeBits s'.2.spsr = 0) := by
  refine ⟨fun w w' frame f => svc_level_iff, ?_⟩
  intro s s' hel0 hrun
  induction hrun with
  | refl => exact hel0
  | tail _ hstep _ => exact el0Step_level svc _ _ hstep

/-- A kernel whose services do nothing and succeed. -/
def idleServices : Services K :=
  { fdRead := fun _ _ _ w => some (w, 0), fdWrite := fun _ _ _ w => some (w, 0)
    fdOpen := fun _ w => some (w, 0), fdClose := fun _ w => some (w, 0)
    schedule := some, sleepMs := fun _ => some, getPid := fun _ => 1
    fdSeek := fun _ _ _ w => some (w, 0), uptimeMs := fun _ => 0
    netPing := fun _ w => some (w, 0), schedKillTask := fun _ w => some (w, 0)
    schedFindTask := fun _ _ => none, markPending := fun _ _ w => w
    schedFork := fun _ w => some (w, 2), loadImage := fun _ _ w => some (w, none)
    balloonInflate := fun _ w => some (w, 0), balloonDeflate := fun _ w => some (w, 0)
    balloonActual := fun _ => 0, balloonTarget := fun _ => 0, benchRun := some
    blkTest := fun _ => some, fdIoctl := fun _ _ _ w => some (w, 0), rtDemoStart := some
    rtPrintStats := some, rtPiDemoStart := some, schedTryGrowStack := fun _ w => (w, false)
    handleIrq := some }

/-- A task with no signals and a word of 5, the state of EL1 with its own stack
    pointer, where a signal frame at `0x7FF000` keeps the saved state. -/
def forgedWorld : World Unit :=
  { task := { sigHandlers := fun _ => 0, sigPending := 0, sigBlocked := 0, sigAlarmTicks := 0
              stackGrownCount := 0 }
    mem := fun a => if a = 0x7FF108 then 5 else 0
    hasFds := true
    kernel := () }

/-- A system call from EL0 with the given number and the stack pointer at
    `0x7FF000`. -/
def svcFrame (num : BitVec 64) : TrapFrame :=
  { regs := fun i => if i = 8 then num else 0, elr := 0x400100, spsr := 0, esr := 0x56000000
    far := 0, spEl0 := 0x7FF000 }

/-- A task at EL0 writes 280 bytes below its stack top, makes the `sigreturn`
    call, and the epilogue returns to EL1. -/
theorem sigreturn_reaches_el1 :
    modeBits (svcFrame sysSigreturnNum).spsr = 0 ∧
    esrEc (svcFrame sysSigreturnNum).esr = ecSvcAarch64 ∧
    ∃ w f, exceptionDispatch idleServices .sync forgedWorld (svcFrame sysSigreturnNum)
        = some (w, f) ∧ f.spsr = 5 ∧ modeBits f.spsr ≠ 0 := by
  refine ⟨by decide, by decide, ?_⟩
  have hload : loadU64 forgedWorld.mem ((svcFrame sysSigreturnNum).spEl0 + 264) = 5 := by decide
  have hcall : ∃ f, syscallDispatch idleServices forgedWorld (svcFrame sysSigreturnNum)
      = some (forgedWorld, f) ∧ f.spsr = 5 := ⟨_, rfl, hload⟩
  rcases hcall with ⟨f, hrun, hf⟩
  have hmode : modeBits f.spsr ≠ 0 := by
    rw [hf]
    decide
  refine ⟨forgedWorld, f, ?_, hf, hmode⟩
  have hec : esrEc (svcFrame sysSigreturnNum).esr = ecSvcAarch64 := by decide
  simp only [exceptionDispatch, handleException, if_pos hec, hrun, bind_some,
    deliverSignals, signalCheckAndDeliver, if_pos hmode]

/-- The process number, a call that returns to EL0. -/
theorem eret_level_getpid :
    ∃ w f, exceptionDispatch idleServices .sync forgedWorld (svcFrame 7) = some (w, f) ∧
      modeBits f.spsr = 0 := by
  have hec : esrEc (svcFrame 7).esr = ecSvcAarch64 := by decide
  have hclean : ¬ ForgedReturn forgedWorld (svcFrame 7) :=
    fun hc => absurd hc.1 (by decide)
  have hrun : ∃ w f, exceptionDispatch idleServices .sync forgedWorld (svcFrame 7)
      = some (w, f) := ⟨_, _, rfl⟩
  rcases hrun with ⟨w, f, hrun⟩
  exact ⟨w, f, hrun,
    ((eret_level idleServices).1 forgedWorld w (svcFrame 7) f (by decide) hec hrun).mpr hclean⟩

end CortexForge.Syscall
