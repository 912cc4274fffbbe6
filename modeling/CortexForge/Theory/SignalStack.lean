import CortexForge.Theory.Signal
import Mathlib.Data.List.Forall2
import Mathlib.Logic.Relation

/-!
# Nested Signal Handlers

A handler can be interrupted by another signal, whose frame then goes below the
stack pointer of the first handler. This module follows the frames of all handlers
that have not returned yet and shows that each return restores exactly what the
delivery interrupted, the last one first.

A handler may use all registers and may write memory, except that it leaves alone
the frames of the handlers that have not returned, its own among them. Its stack
pointer stays at or below its own frame, and is back at the frame when it returns.
The signal state of the task may change in any way while it runs.

The frames do not overlap because a delivery takes its 288 bytes from below the
stack pointer. The exception is a stack pointer below 288, which passes the check
of `deliver_one` and wraps to the top of the address space. The frame is then
stored above the interrupted stack pointer, and `sigreturn` takes it for a forged
one and ends the task.

## Main definitions

* `SigSys`, `SigStep`: A task, its memory and its handlers, and what can happen.
* `Restored`: A context is the one that was interrupted.
* `Unwound`: Handlers return one after the other.
* `RoomStep`: A step whose delivery, if it is one, does not wrap.

## Theorems

* `words_kept`, `sigreturn_restores`: A frame can be read back.
* `nested_sigreturn`: Returns undo deliveries to any depth.
* `nested_sigreturn_wrapped`: A delivery that wraps cannot be undone.
-/

namespace CortexForge.Signal

open Relation List

/-- A handler that has not returned: its frame and what it interrupted. -/
structure Level where
  base : BitVec 64
  saved : TrapFrame

/-- A task with the registers and the memory it sees, and its handlers, the
    innermost first. -/
structure SigSys where
  task : SigTask
  frame : TrapFrame
  mem : Memory
  levels : List Level

/-- The bytes of the signal frame at `base`. -/
def InFrame (base : BitVec 64) (a : Nat) : Prop :=
  base.toNat ≤ a ∧ a < base.toNat + sigframeSize

inductive SigStep : SigSys → SigSys → Prop
  | deliver (s : SigSys) (task : SigTask) (frame : TrapFrame)
      (stores : List (BitVec 64 × BitVec 64))
      (hcall : signalCheckAndDeliver s.task s.frame = (task, .handler frame stores)) :
      SigStep s ⟨task, frame, applyStores s.mem stores, ⟨frame.spEl0, s.frame⟩ :: s.levels⟩
  | run (s : SigSys) (task : SigTask) (frame : TrapFrame) (mem : Memory)
      (hframes : ∀ l ∈ s.levels, ∀ a, InFrame l.base a → mem a = s.mem a)
      (hsp : ∀ l ∈ s.levels.head?, frame.spEl0.toNat ≤ l.base.toNat) :
      SigStep s ⟨task, frame, mem, s.levels⟩
  | sigreturn (s : SigSys) (l : Level) (rest : List Level) (frame : TrapFrame)
      (hlevels : s.levels = l :: rest) (hsp : s.frame.spEl0 = l.base)
      (hcall : signalSigreturn s.mem s.frame = some frame) :
      SigStep s ⟨s.task, frame, s.mem, rest⟩

/-- The context `f` is the one that was interrupted. -/
structure Restored (f saved : TrapFrame) : Prop where
  regs : ∀ i < 31, f.regs i = saved.regs i
  spEl0 : f.spEl0 = saved.spEl0
  elr : f.elr = saved.elr
  spsr : f.spsr = saved.spsr

/-- Handlers run to their end and return, which gives these contexts. -/
inductive Unwound : SigSys → List TrapFrame → SigSys → Prop
  | nil (s : SigSys) : Unwound s [] s
  | cons {s s1 s2 s3 : SigSys} {l : Level} {frames : List TrapFrame} (hrun : SigStep s s1)
      (hsame : s1.levels = s.levels) (hreturn : SigStep s1 s2)
      (hlevels : s1.levels = l :: s2.levels) (hrest : Unwound s2 frames s3) :
      Unwound s (s2.frame :: frames) s3

/-- A step that delivers only from a stack pointer of at least 288. -/
def RoomStep (s s' : SigSys) : Prop :=
  SigStep s s' ∧ (s.levels.length < s'.levels.length → 288 ≤ s.frame.spEl0.toNat)

section

variable {mem mem' : Memory}

/-- The address of a word, if the frame does not wrap. -/
theorem word_toNat {base : BitVec 64} {n i : Nat} (hroom : base.toNat + 8 * n ≤ 2 ^ 64)
    (hi : i < n) : (base + BitVec.ofNat 64 (8 * i)).toNat = base.toNat + 8 * i := by
  rw [BitVec.toNat_add, BitVec.toNat_ofNat]
  omega

theorem applyStores_other (stores : List (BitVec 64 × BitVec 64)) :
    ∀ (mem : Memory) (x : Nat),
    (∀ st ∈ stores, x < st.1.toNat ∨ st.1.toNat + 8 ≤ x) → applyStores mem stores x = mem x := by
  induction stores with
  | nil => exact fun _ _ _ => rfl
  | cons st stores ih =>
    intro mem x hout
    have hrest := ih (storeN mem st.1.toNat 8 st.2.toNat) x fun st' hst' =>
      hout st' (mem_cons_of_mem st hst')
    refine Eq.trans hrest ?_
    exact storeN_other (hout st mem_cons_self)

theorem loadU64_congr {addr : BitVec 64}
    (h : ∀ x, addr.toNat ≤ x → x < addr.toNat + 8 → mem' x = mem x) :
    loadU64 mem' addr = loadU64 mem addr := by
  unfold loadU64
  rw [loadN_congr mem mem' 8 addr.toNat h]

theorem loadU64_storeN (mem : Memory) (addr v : BitVec 64) :
    loadU64 (storeN mem addr.toNat 8 v.toNat) addr = v := by
  have hlt : v.toNat < 256 ^ 8 := v.isLt
  unfold loadU64
  rw [loadN_storeN, Nat.mod_eq_of_lt hlt, BitVec.ofNat_toNat, BitVec.setWidth_eq]

/-- Words stored one after the other can be read back. -/
theorem words_kept (mem : Memory) (base : BitVec 64) (v : Nat → BitVec 64) (n : Nat)
    (hroom : base.toNat + 8 * n ≤ 2 ^ 64) : ∀ i < n,
    loadU64 (applyStores mem ((range n).map fun i => (base + BitVec.ofNat 64 (8 * i), v i)))
      (base + BitVec.ofNat 64 (8 * i)) = v i := by
  induction n with
  | zero => exact nofun
  | succ n ih =>
    intro i hi
    rw [range_succ, map_append, applyStores, foldl_append]
    by_cases hlast : i = n
    · rw [hlast]
      exact loadU64_storeN _ _ _
    · -- The last store is behind the word.
      have hin : i < n := by omega
      rw [← ih (by omega) i hin]
      refine loadU64_congr fun x _ hx => storeN_other (.inl ?_)
      rw [word_toNat hroom hi] at hx
      rw [word_toNat hroom (Nat.lt_succ_self n)]
      omega

/-- The frame at `base` has the words of the context `saved`. -/
def Kept (mem : Memory) (l : Level) : Prop :=
  ∀ i < 35, loadU64 mem (l.base + BitVec.ofNat 64 (8 * i)) = sigframeWord l.saved i

/-- The stores of a frame that does not wrap are inside of it. -/
theorem sigframe_inside {base : BitVec 64} {frame : TrapFrame} (hroom : base.toNat + 280 ≤ 2 ^ 64)
    {st : BitVec 64 × BitVec 64} (hst : st ∈ sigframeStores base frame) :
    base.toNat ≤ st.1.toNat ∧ st.1.toNat + 8 ≤ base.toNat + 280 := by
  rcases mem_sigframeStores hst with ⟨i, hi, haddr⟩
  rw [haddr, word_toNat (n := 35) hroom hi]
  omega

theorem kept_congr {l : Level} (hroom : l.base.toNat + 280 ≤ 2 ^ 64)
    (hsame : ∀ a, InFrame l.base a → mem' a = mem a) (h : Kept mem l) : Kept mem' l := by
  intro i hi
  rw [← h i hi]
  refine loadU64_congr fun x hlo hhi => hsame x ?_
  rw [word_toNat (n := 35) hroom hi] at hlo hhi
  unfold InFrame sigframeSize
  omega

/-- A return from an intact frame restores the context. -/
theorem sigreturn_restores {l : Level} {frame : TrapFrame} (hkept : Kept mem l)
    (hroom : l.base.toNat + 280 ≤ userStackTop) (hsp : frame.spEl0 = l.base) :
    ∃ f, signalSigreturn mem frame = some f ∧ Restored f l.saved := by
  have hok : sigreturnOk l.base = true := by
    unfold sigreturnOk sigframeSize
    rw [decide_eq_true_eq]
    omega
  unfold signalSigreturn
  simp only [hsp, hok]
  refine ⟨_, rfl, ⟨fun i hi => ?_, hkept 31 (by omega), hkept 32 (by omega), hkept 33 (by omega)⟩⟩
  have hword := hkept i (by omega)
  rw [sigframeWord] at hword
  simp [hi, hword]

end

/-- The invariant: the frames of all handlers are intact, below what they
    interrupted and above what those further in use. -/
structure Nested (s : SigSys) : Prop where
  kept : ∀ l ∈ s.levels, Kept s.mem l
  room : ∀ l ∈ s.levels, l.base.toNat + 280 ≤ l.saved.spEl0.toNat ∧
    l.saved.spEl0.toNat ≤ userStackTop
  apart : s.levels.Pairwise fun inner outer => inner.saved.spEl0.toNat ≤ outer.base.toNat
  below : ∀ l ∈ s.levels, s.frame.spEl0.toNat ≤ l.base.toNat

section

variable {s s' : SigSys} {t task : SigTask} {frame frame' : TrapFrame}
  {stores : List (BitVec 64 × BitVec 64)}

theorem nested_room (h : Nested s) {l : Level} (hl : l ∈ s.levels) :
    l.base.toNat + 280 ≤ userStackTop ∧ l.base.toNat + 280 ≤ 2 ^ 64 := by
  have hroom := h.room l hl
  omega

/-- What a delivery does that sets up a handler. -/
theorem deliver_cases (hcall : signalCheckAndDeliver t frame = (task, .handler frame' stores)) :
    frame'.spEl0 = (frame.spEl0 - sigframeReserve) &&& ~~~15#64 ∧
      stores = sigframeStores frame'.spEl0 frame ∧ frame.spEl0.toNat ≤ userStackTop := by
  unfold signalCheckAndDeliver at hcall
  split at hcall
  · cases hcall
  simp only at hcall
  split at hcall
  · cases hcall
  · cases hcall
  · unfold deliverOne at hcall
    simp only at hcall
    split at hcall
    · cases hcall
    · cases hcall
      exact ⟨rfl, rfl, by omega⟩

/-- The frame of a delivery that does not wrap is below the stack pointer. -/
theorem newSp_below {sp : BitVec 64} (h : 288 ≤ sp.toNat) :
    ((sp - sigframeReserve) &&& ~~~15#64).toNat + 280 ≤ sp.toNat := by
  rw [newSp_toNat h]
  omega

theorem nested_deliver (h : Nested s)
    (hcall : signalCheckAndDeliver s.task s.frame = (task, .handler frame stores))
    (hsp : 288 ≤ s.frame.spEl0.toNat) :
    Nested ⟨task, frame, applyStores s.mem stores, ⟨frame.spEl0, s.frame⟩ :: s.levels⟩ := by
  rcases deliver_cases hcall with ⟨hnew, rfl, htop⟩
  have hroom := newSp_below hsp
  rw [← hnew] at hroom
  have hwrap : frame.spEl0.toNat + 280 ≤ 2 ^ 64 := by
    omega
  refine ⟨fun l hl => ?_, fun l hl => ?_, ?_, fun l hl => ?_⟩
  · rcases mem_cons.mp hl with rfl | hl
    · intro i hi
      exact words_kept s.mem _ (sigframeWord s.frame) 35 hwrap i hi
    · -- An older frame is above the interrupted stack pointer.
      refine kept_congr (nested_room h hl).2 (fun a ha => ?_) (h.kept l hl)
      refine applyStores_other _ _ _ fun st hst => .inr ?_
      have hin := sigframe_inside hwrap hst
      have hbelow := h.below l hl
      unfold InFrame at ha
      omega
  · rcases mem_cons.mp hl with rfl | hl
    · exact ⟨hroom, htop⟩
    · exact h.room l hl
  · exact pairwise_cons.mpr ⟨h.below, h.apart⟩
  · rcases mem_cons.mp hl with rfl | hl
    · exact Nat.le_refl _
    · have hbelow := h.below l hl
      simp only
      omega

theorem nested_run (h : Nested s) {mem : Memory}
    (hframes : ∀ l ∈ s.levels, ∀ a, InFrame l.base a → mem a = s.mem a)
    (hsp : ∀ l ∈ s.levels.head?, frame.spEl0.toNat ≤ l.base.toNat) :
    Nested ⟨task, frame, mem, s.levels⟩ := by
  refine ⟨fun l hl => ?_, h.room, h.apart, fun l hl => ?_⟩
  · exact kept_congr (nested_room h hl).2 (hframes l hl) (h.kept l hl)
  · -- Below the innermost frame is below all of them.
    have hroom := h.room
    have hapart := h.apart
    simp only at hl ⊢
    rcases hlevels : s.levels with _ | ⟨inner, rest⟩
    · rw [hlevels] at hl
      exact absurd hl not_mem_nil
    · rw [hlevels] at hl hsp hapart hroom
      have hinner := hsp inner rfl
      rcases mem_cons.mp hl with rfl | hl
      · exact hinner
      · have hout := (pairwise_cons.mp hapart).1 l hl
        have hin := hroom inner mem_cons_self
        omega

theorem nested_sigreturn_step (h : Nested s) {l : Level} {rest : List Level}
    (hlevels : s.levels = l :: rest) (hsp : s.frame.spEl0 = l.base)
    (hcall : signalSigreturn s.mem s.frame = some frame) :
    Restored frame l.saved ∧ Nested ⟨s.task, frame, s.mem, rest⟩ := by
  have hl : l ∈ s.levels := hlevels ▸ mem_cons_self
  rcases sigreturn_restores (h.kept l hl) (nested_room h hl).1 hsp with ⟨f, hf, hrestored⟩
  rw [hf] at hcall
  cases hcall
  have hmem : ∀ x ∈ rest, x ∈ s.levels := fun x hx => hlevels ▸ mem_cons_of_mem l hx
  have hapart := h.apart
  rw [hlevels] at hapart
  rcases pairwise_cons.mp hapart with ⟨hout, hrest⟩
  refine ⟨hrestored, fun x hx => h.kept x (hmem x hx), fun x hx => h.room x (hmem x hx), hrest,
    fun x hx => ?_⟩
  simp only [hrestored.spEl0]
  exact hout x hx

theorem nested_step (h : Nested s) (hstep : RoomStep s s') : Nested s' := by
  rcases hstep with ⟨hstep, hroom⟩
  cases hstep with
  | deliver task frame stores hcall => exact nested_deliver h hcall (hroom (Nat.lt_succ_self _))
  | run task frame mem hframes hsp => exact nested_run h hframes hsp
  | sigreturn l rest frame hlevels hsp hcall => exact (nested_sigreturn_step h hlevels hsp hcall).2

theorem nested_reachable {s0 : SigSys} (hstart : s0.levels = [])
    (hrun : ReflTransGen RoomStep s0 s) : Nested s := by
  induction hrun with
  | refl =>
    have hnone : ∀ l, l ∉ s0.levels := fun l => hstart ▸ not_mem_nil
    refine ⟨fun l hl => absurd hl (hnone l), fun l hl => absurd hl (hnone l), ?_,
      fun l hl => absurd hl (hnone l)⟩
    rw [hstart]
    exact List.Pairwise.nil
  | tail _ hstep ih => exact nested_step ih hstep

/-- The stores of a delivery are below the interrupted stack pointer exactly when it
    does not wrap. -/
theorem stores_below_iff (hcall : signalCheckAndDeliver t frame = (task, .handler frame' stores)) :
    (∀ st ∈ stores, st.1.toNat + 8 ≤ frame.spEl0.toNat) ↔ 288 ≤ frame.spEl0.toNat := by
  rcases deliver_cases hcall with ⟨hnew, rfl, _⟩
  constructor
  · intro hall
    by_contra hlow
    have hwrap := newSp_toNat_wrap frame.spEl0 (by omega)
    -- The first register is stored at the top of the address space.
    have hbelow := hall _ (sigframe_first _ frame)
    rw [← hnew] at hwrap
    simp only at hbelow
    omega
  · intro hsp st hst
    have hroom := newSp_below hsp
    rw [← hnew] at hroom
    have hin := sigframe_inside (by omega) hst
    omega

/-- Returns restore the contexts of the handlers in order. -/
theorem unwound_restored {frames : List TrapFrame} (hunwound : Unwound s frames s') (h : Nested s) :
    List.Forall₂ Restored frames ((s.levels.take frames.length).map Level.saved) := by
  induction hunwound with
  | nil s => exact List.Forall₂.nil
  | @cons s s1 s2 s3 l frames hrun hsame hreturn hlevels _ ih =>
    have hlen : s1.levels.length = s2.levels.length + 1 := by rw [hlevels, length_cons]
    have h1 := nested_step h ⟨hrun, fun hc => absurd hc (by rw [hsame]; exact Nat.lt_irrefl _)⟩
    rw [← hsame]
    -- The levels got fewer, so the second step is a return.
    cases hreturn with
    | deliver task frame stores hcall =>
      rw [length_cons] at hlen
      omega
    | run task frame mem hframes hsp => exact absurd hlen (Nat.ne_of_lt (Nat.lt_succ_self _))
    | sigreturn l rest frame hcons hsp hcall =>
      rcases nested_sigreturn_step h1 hcons hsp hcall with ⟨hrestored, h2⟩
      rw [hcons, length_cons, take_succ_cons]
      exact List.Forall₂.cons hrestored (ih h2)

end

/-- In every state that a task reaches by deliveries from stack pointers of at least
    288: a delivery stores below the stack pointer if and only if that is at least
    288, a handler that is back at its frame returns to what it interrupted, and
    handlers that return one after the other restore what they interrupted in this
    order. -/
theorem nested_sigreturn (s0 s : SigSys) (hstart : s0.levels = [])
    (hrun : ReflTransGen RoomStep s0 s) :
    (∀ task frame stores, signalCheckAndDeliver s.task s.frame = (task, .handler frame stores) →
      ((∀ st ∈ stores, st.1.toNat + 8 ≤ s.frame.spEl0.toNat) ↔ 288 ≤ s.frame.spEl0.toNat)) ∧
    (∀ l rest, s.levels = l :: rest → s.frame.spEl0 = l.base →
      ∃ f, signalSigreturn s.mem s.frame = some f ∧ Restored f l.saved) ∧
    (∀ frames s', Unwound s frames s' →
      List.Forall₂ Restored frames ((s.levels.take frames.length).map Level.saved)) := by
  have h := nested_reachable hstart hrun
  refine ⟨fun task frame stores hcall => stores_below_iff hcall, fun l rest hlevels hsp => ?_,
    fun frames s' hunwound => unwound_restored hunwound h⟩
  have hl : l ∈ s.levels := hlevels ▸ mem_cons_self
  exact sigreturn_restores (h.kept l hl) (nested_room h hl).1 hsp

theorem nested_sigreturn_twice :
    ∃ s0 s l, s0.levels = [] ∧ ReflTransGen RoomStep s0 s ∧ s.levels = [l] ∧
      l.base = 0x7FEEE0 ∧ (∃ f, signalSigreturn s.mem s.frame = some f ∧ Restored f l.saved) ∧
      ∃ task frame stores, signalCheckAndDeliver s.task s.frame = (task, .handler frame stores) ∧
        ∀ st ∈ stores, st.1.toNat + 8 ≤ 0x7FEEE0 := by
  -- A handler runs and its task is sent another signal.
  rcases caught_delivers (el0Frame 0x7FF008) (by decide) (by decide) with ⟨f1, hcall1, hsp1, hspsr1⟩
  have hbase : f1.spEl0 = 0x7FEEE0 := hsp1
  have hdeliver := SigStep.deliver ⟨caughtTask, el0Frame 0x7FF008, fun _ => 0, []⟩ _ _ _ hcall1
  have hrun : ∀ s : SigSys, (∀ l ∈ s.levels.head?, s.frame.spEl0.toNat ≤ l.base.toNat) →
      RoomStep s { s with task := caughtTask } := fun s hsp =>
    ⟨.run s caughtTask s.frame s.mem (fun _ _ _ _ => rfl) hsp, fun hc =>
      absurd hc (Nat.lt_irrefl _)⟩
  have hreach := (ReflTransGen.single
    (show RoomStep _ _ from ⟨hdeliver, fun _ => by decide⟩)).tail
    (hrun _ fun l hl => Option.some.inj hl ▸ Nat.le_refl f1.spEl0.toNat)
  rcases caught_delivers f1 (by rw [hspsr1]; decide) (by rw [hbase]; decide) with ⟨f2, hcall2, _, _⟩
  rcases nested_sigreturn _ _ rfl hreach with ⟨hbelow, hreturn, _⟩
  refine ⟨_, _, _, rfl, hreach, rfl, hbase, hreturn _ _ rfl rfl, _, f2, _, hcall2, ?_⟩
  have hstores := (hbelow _ _ _ hcall2).mpr (by simp only [hbase]; decide)
  simp only [hbase] at hstores
  exact hstores

/-- With a stack pointer of zero the delivery passes the check, stores above the
    stack pointer, and the matching return ends the task. -/
theorem nested_sigreturn_wrapped :
    ∃ s s' l task frame stores, s.levels = [] ∧ s.frame.spEl0 = 0 ∧
      signalCheckAndDeliver s.task s.frame = (task, .handler frame stores) ∧
      SigStep s s' ∧ s'.levels = [l] ∧ s'.frame.spEl0 = l.base ∧
      (∃ st ∈ stores, s.frame.spEl0.toNat ≤ st.1.toNat) ∧
      signalSigreturn s'.mem s'.frame = none := by
  rcases caught_delivers (el0Frame 0) (by decide) (by decide) with ⟨f, hcall, hsp, _⟩
  refine ⟨⟨caughtTask, el0Frame 0, fun _ => 0, []⟩, _, _, _, f, _, rfl, rfl, hcall,
    SigStep.deliver _ _ _ _ hcall, rfl, rfl, ⟨_, mem_cons_self, Nat.zero_le _⟩, ?_⟩
  have hbase : f.spEl0 = 0xFFFFFFFFFFFFFEE0 := hsp
  have hbad : sigreturnOk f.spEl0 = false := by rw [hbase]; decide
  unfold signalSigreturn
  simp [hbad]

end CortexForge.Signal
