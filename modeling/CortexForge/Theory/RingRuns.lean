import CortexForge.Theory.Isolation
import CortexForge.Theory.RunQueue

/-!
# Runs of the Scheduler on its Ring

The invariant of the run queue in every run: any operations in any order, with
other code in between that may change anything in a record but its state and its
number. What an operation needs is that the heap hands out records that are not in
use, and that the idle task does not exit.

A record can be handed out again once its task was released, so the tasks ever
created are counted by their records: the ring, the list of dead tasks and the
releases so far are together the creations so far. A task is therefore in one of
the three places and released once.

## Main definitions

* `Allowed`, `RingStep`: Operations, and other code at work.
* `RingContract`: The run queue in a run.

## Theorems

* `call_ok`, `call_some`: Every operation keeps the invariant, and returns.
* `ring_invariant`: The run queue in every run.
-/

namespace CortexForge.RunQueue

open Function Relation List

variable {σ : Type}

section

variable (src : Pages σ) (img : KernelImage)

/-- What may be called: the heap hands out null or a record that is not in use, and
    the idle task does not exit. -/
def Allowed (s : RunQueue σ) : Call → Prop
  | .createKernelTask t _ => t = 0 ∨ Fresh s t
  | .createTask t _ _ => t = 0 ∨ Fresh s t
  | .fork t _ _ _ => t = 0 ∨ Fresh s t
  | .taskExit _ => s.current ≠ idleTask
  | _ => True

/-- The system moves on: an operation on the run queue, or other code that changes
    memory and records but neither a state nor a number. -/
inductive RingStep : RunQueue σ → RunQueue σ → Prop
  | call {s s' : RunQueue σ} (fuel : Nat) (c : Call) (hallowed : Allowed s c)
      (hcall : call src img fuel s c = some s') : RingStep s s'
  | work {s : RunQueue σ} (m : Machine σ) (task : Nat → Task)
      (hkept : ∀ t, (task t).pid = (s.task t).pid ∧ (task t).state = (s.task t).state) :
      RingStep s { s with machine := m, task := task }

variable {s s' : RunQueue σ} {ring dead : List Nat}

theorem blocked_leaving {state : TaskState} (hstate : state ≠ .dead) (h : RingOk s ring dead) :
    Leaving (setState s s.current state) ring dead := by
  refine ⟨?_, h.2.1, ?_⟩
  · exact shape_current h.1 h.2.1 (sameLinks_setState s _ _) fun _ ht => setState_other s _ ht
  · exact fun hdead => absurd ((setState_self s _ _).symm.trans hdead) hstate

theorem sleep_leaving (ticks : Nat) (h : RingOk s ring dead) :
    Leaving (setSleep s ticks) ring dead := by
  have hself : ((setSleep s ticks).task s.current).state = .sleeping := by
    simp [setSleep]
  have hother : ∀ t ≠ s.current, (setSleep s ticks).task t = s.task t := by
    intro t ht
    simp only [setSleep, update_of_ne ht]
  have hpid : ((setSleep s ticks).task idleTask).pid = (s.task idleTask).pid := by
    by_cases hc : idleTask = s.current
    · simp [setSleep, hc]
    · rw [hother idleTask hc]
  refine ⟨shape_current h.1 h.2.1 ⟨rfl, rfl, rfl, rfl, hpid⟩ fun t ht => ?_, h.2.1, fun hdead => ?_⟩
  · rw [hother t ht]
  · exact TaskState.noConfusion (hself.symm.trans hdead)

/-- Every operation keeps the invariant. It releases all tasks that were dead, or
    none. -/
theorem call_ok {fuel : Nat} {c : Call} (h : RingOk s ring dead) (hallowed : Allowed s c)
    (hcall : call src img fuel s c = some s') :
    (∃ ring' dead', RingOk s' ring' dead') ∧
      (s'.released = s.released ∨ s'.released = s.released ++ dead) := by
  -- A call of `schedule` releases the dead tasks first.
  have hsched : ∀ {r : RunQueue σ} {sp : Nat}, Leaving r ring dead → r.released = s.released →
      schedule src fuel r sp = some s' → (∃ ring' dead', RingOk s' ring' dead') ∧
        (s'.released = s.released ∨ s'.released = s.released ++ dead) := by
    intro r sp hleaving hsame hrun
    rcases schedule_spec src hleaving hrun with ⟨hok, hreleased⟩
    exact ⟨hok, .inr (hsame ▸ hreleased)⟩
  -- A constructor releases nothing.
  have hcreate : ∀ {built : Sched σ × Int} {t : Nat} {r : Int}, Builds built.1 →
      (t = 0 ∨ Fresh s t) → createWith fuel s t built = some (s', r) →
      (∃ ring' dead', RingOk s' ring' dead') ∧
        (s'.released = s.released ∨ s'.released = s.released ++ dead) := by
    intro built t r hbuilt hfresh hrun
    rcases create_spec hbuilt h hfresh hrun with ⟨hok, hreleased, _⟩
    exact ⟨hok, .inl hreleased⟩
  cases c with
  | createKernelTask t entry =>
    rcases Option.map_eq_some_iff.mp hcall with ⟨⟨q, r⟩, hrun, rfl⟩
    exact hcreate (createKernelTask_builds src img s entry) hallowed hrun
  | createTask t fdsOk entry =>
    rcases Option.map_eq_some_iff.mp hcall with ⟨⟨q, r⟩, hrun, rfl⟩
    exact hcreate (createTask_builds src img s fdsOk entry) hallowed hrun
  | fork t fdsOk parent frame =>
    rcases Option.map_eq_some_iff.mp hcall with ⟨⟨q, r⟩, hrun, rfl⟩
    rw [schedFork] at hrun
    split at hrun
    · cases hrun
      exact ⟨⟨ring, dead, h⟩, .inl rfl⟩
    · exact hcreate (fork_builds src img s fdsOk _ frame) hallowed hrun
  | schedule sp => exact hsched (ringOk_leaving h) rfl hcall
  | taskExit sp => exact hsched (exit_leaving h hallowed) rfl hcall
  | killTask pid sp =>
    rcases Option.map_eq_some_iff.mp hcall with ⟨⟨q, r⟩, hrun, rfl⟩
    exact kill_spec src h hrun
  | sleepMs now ms sp => exact hsched (sleep_leaving _ h) rfl hcall
  | wakeSleepers now =>
    rcases wakeFrom_ok _ h hcall with ⟨hok, hreleased, _⟩
    exact ⟨⟨ring, dead, hok⟩, .inl hreleased⟩
  | blockCurrent sp => exact hsched (blocked_leaving TaskState.noConfusion h) rfl hcall
  | makeReady t =>
    cases hcall
    exact ⟨⟨ring, dead, makeReady_ok t h⟩, .inl (makeReady_links s t).1.released⟩
  | reap =>
    rcases reap_spec src h.1 hcall with ⟨hshape, htask, hcurrent, _, hreleased⟩
    refine ⟨⟨ring, [], ?_⟩, .inr hreleased⟩
    rw [RingOk, htask, hcurrent]
    exact ⟨hshape, h.2.1, h.2.2⟩

theorem call_some (c : Call) (h : RingOk s ring dead) (hallowed : Allowed s c) {fuel : Nat}
    (hfuel : ring.length + dead.length < fuel) : ∃ s', call src img fuel s c = some s' := by
  have hcreate : ∀ (built : Sched σ × Int) (t : Nat),
      ∃ q, (createWith fuel s t built).map Prod.fst = some q := by
    intro built t
    rcases create_some built t h (show ring.length ≤ fuel by omega) with ⟨q, r, hrun⟩
    exact ⟨q, by rw [hrun]; rfl⟩
  cases c with
  | createKernelTask t entry => exact hcreate _ t
  | createTask t fdsOk entry => exact hcreate _ t
  | fork t fdsOk parent frame =>
    simp only [call, schedFork]
    split
    · exact ⟨s, rfl⟩
    · exact hcreate _ t
  | schedule sp => exact schedule_some src sp (ringOk_leaving h) hfuel
  | taskExit sp => exact schedule_some src sp (exit_leaving h hallowed) hfuel
  | killTask pid sp =>
    rcases kill_some src h pid sp hfuel with ⟨q, r, hrun⟩
    exact ⟨q, by rw [call, hrun]; rfl⟩
  | sleepMs now ms sp => exact schedule_some src sp (sleep_leaving _ h) hfuel
  | wakeSleepers now =>
    have hidle := h.1.circular.mem
    rcases circular_reaches h.1.circular (circular_next_mem h.1.circular hidle) hidle with
      ⟨n, hn, hreach⟩
    exact wakeFrom_some now hreach (by omega)
  | blockCurrent sp =>
    exact schedule_some src sp (blocked_leaving TaskState.noConfusion h) hfuel
  | makeReady t => exact ⟨_, rfl⟩
  | reap => exact reap_some src h.1 (by omega)

theorem ringStep_ok (hstep : RingStep src img s s') (h : RingOk s ring dead) :
    ∃ ring' dead', RingOk s' ring' dead' := by
  cases hstep with
  | call fuel c hallowed hcall => exact (call_ok src img h hallowed hcall).1
  | work m task hkept =>
    exact ⟨ring, dead, ringOk_ready h ⟨rfl, rfl, rfl, rfl, (hkept idleTask).1⟩ rfl
      fun t => .inl (hkept t).2⟩

theorem init_ok (m : Machine σ) : RingOk (schedInit m) [idleTask] [] := by
  refine ⟨⟨⟨⟨rfl, rfl⟩, nodup_singleton _, mem_singleton_self _⟩, ⟨rfl, not_mem_nil⟩,
    fun _ _ => not_mem_nil, by decide, ?_, ?_, ?_, List.Perm.refl _, rfl⟩,
    mem_singleton_self _, TaskState.noConfusion⟩
  · exact fun _ _ _ => TaskState.noConfusion
  · exact nofun
  · exact fun _ _ hrun => TaskState.noConfusion hrun

theorem run_ringOk {m : Machine σ} (hrun : ReflTransGen (RingStep src img) (schedInit m) s) :
    ∃ ring dead, RingOk s ring dead := by
  induction hrun with
  | refl => exact ⟨_, _, init_ok m⟩
  | tail _ hstep ih =>
    rcases ih with ⟨ring, dead, hok⟩
    exact ringStep_ok src img hstep hok

/-- The run queue in a run: one ring from the idle task on, with the current task on
    it and no dead one; a list of dead tasks that ends and is apart from the ring; no
    running task but the current one; and each task ever created on the ring, on the
    list or released, once. Reaping releases the tasks of the list, which the current
    one is not of, and every operation returns. -/
structure RingContract (s : RunQueue σ) (ring dead : List Nat) : Prop where
  circular : Circular s.next idleTask ring
  current : s.current ∈ ring
  linked : Linked s.next 0 s.deadList dead
  nodup : (ring ++ dead).Nodup
  alive : ∀ t ∈ ring, (s.task t).state ≠ .dead
  buried : ∀ t ∈ dead, (s.task t).state = .dead
  running : ∀ t ∈ ring ++ dead, (s.task t).state = .running → t = s.current
  accounted : (idleTask :: s.created).Perm (ring ++ dead ++ s.released)
  reap : ∀ fuel s', schedReap src fuel s = some s' →
    s'.deadList = 0 ∧ s'.released = s.released ++ dead
  spared : s.current ∉ dead
  releases : ∀ c fuel s', Allowed s c → call src img fuel s c = some s' →
    s'.released = s.released ∨ s'.released = s.released ++ dead
  returns : ∀ c, Allowed s c → ∃ bound, ∀ fuel > bound, ∃ s', call src img fuel s c = some s'

theorem ring_invariant (m : Machine σ) (s : RunQueue σ)
    (hrun : ReflTransGen (RingStep src img) (schedInit m) s) :
    ∃ ring dead, RingContract src img s ring dead := by
  rcases run_ringOk src img hrun with ⟨ring, dead, h⟩
  have hdead := linked_nodup h.1.linked
  refine ⟨ring, dead, h.1.circular, h.2.1, h.1.linked, ?_, ?_, h.1.buried, ?_, h.1.accounted, ?_,
    h.1.disjoint _ h.2.1, ?_, ?_⟩
  · refine nodup_append.mpr ⟨h.1.circular.nodup, hdead, fun t ht u hu hc => ?_⟩
    exact h.1.disjoint t ht (hc ▸ hu)
  · intro t ht
    by_cases hc : t = s.current
    · rw [hc]
      exact h.2.2
    · exact h.1.alive t ht hc
  · intro t ht hstate
    rcases mem_append.mp ht with ht | ht
    · exact h.1.running t ht hstate
    · exact TaskState.noConfusion ((h.1.buried t ht).symm.trans hstate)
  · intro fuel s' hreap
    rcases reap_spec src h.1 hreap with ⟨hshape, _, _, _, hreleased⟩
    exact ⟨linked_nil.mp hshape.linked, hreleased⟩
  · exact fun c fuel s' hallowed hcall => (call_ok src img h hallowed hcall).2
  · exact fun c hallowed => ⟨_, fun fuel hfuel => call_some src img c h hallowed hfuel⟩

end

section

variable (src : Pages σ) (img : KernelImage)

instance decidableAllowed (s : RunQueue σ) : (c : Call) → Decidable (Allowed s c)
  | .createKernelTask t _ => inferInstanceAs (Decidable (t = 0 ∨ t ≠ idleTask ∧ _))
  | .createTask t _ _ => inferInstanceAs (Decidable (t = 0 ∨ t ≠ idleTask ∧ _))
  | .fork t _ _ _ => inferInstanceAs (Decidable (t = 0 ∨ t ≠ idleTask ∧ _))
  | .taskExit _ => inferInstanceAs (Decidable (s.current ≠ idleTask))
  | .schedule _ => isTrue trivial
  | .killTask _ _ => isTrue trivial
  | .sleepMs _ _ _ => isTrue trivial
  | .wakeSleepers _ => isTrue trivial
  | .blockCurrent _ => isTrue trivial
  | .makeReady _ => isTrue trivial
  | .reap => isTrue trivial

/-- The state after some operations, without those that may not be called. -/
def runCalls (fuel : Nat) (s : RunQueue σ) (cs : List Call) : RunQueue σ :=
  cs.foldl (fun s c => if Allowed s c then (call src img fuel s c).getD s else s) s

theorem runCalls_reaches (fuel : Nat) (cs : List Call) : ∀ s : RunQueue σ,
    ReflTransGen (RingStep src img) s (runCalls src img fuel s cs) := by
  induction cs with
  | nil => exact fun s => .refl
  | cons c cs ih =>
    intro s
    rw [runCalls, foldl_cons]
    split
    case isTrue hallowed =>
      rcases hcall : call src img fuel s c with _ | s'
      · exact ih s
      · exact .head (.call fuel c hallowed hcall) (ih s')
    case isFalse => exact ih s

end

/-- Of three tasks, one exits while it runs and one is killed by its number. -/
def thinned : RunQueue Pmm.Allocator :=
  runCalls Pmm.pmmSource Sched.bootImage 8 (schedInit Sched.bootMachine)
    [.createKernelTask 2 0, .createKernelTask 3 0, .createKernelTask 4 0, .schedule 0,
      .taskExit 0, .killTask 3 0]

theorem ring_invariant_thinned :
    thinned.current = 3 ∧ thinned.deadList = 4 ∧ thinned.created = [2, 3, 4] ∧
      ∃ ring dead, RingContract Pmm.pmmSource Sched.bootImage thinned ring dead := by
  refine ⟨by decide +kernel, by decide +kernel, by decide +kernel, ?_⟩
  exact ring_invariant Pmm.pmmSource Sched.bootImage Sched.bootMachine thinned
    (runCalls_reaches _ _ 8 _ _)

end CortexForge.RunQueue
