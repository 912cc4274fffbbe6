import CortexForge.Theory.RingRuns
import Mathlib.Data.List.MinMax

/-!
# States of Tasks through the Operations

What an operation on the run queue does to the states of the tasks on the ring,
beyond the invariant of the ring. An operation ends at most one task, its victim,
and every other task of the ring stays on it. A task that is blocked stays blocked
unless the operation is about that task.

That a task stays on the ring is read off the account of the records: a record that
is neither on the ring nor among the dead tasks has been released, and what an
operation releases was dead before it.

## Main definitions

* `victim`: The task an operation ends.
* `Stirs`: The operation changes the state of a blocked task.
* `Rests`, `Spares`: What happens to the state of one task, and to those of the ring.

## Theorems

* `schedule_states`: The states after a call of `schedule`.
* `schedule_choice`: The task that runs next.
* `call_spares`: Who is dead and who is blocked after an operation.
* `call_stays`: Tasks other than the victim stay on the ring.
-/

namespace CortexForge.RunQueue

open Function List Option

variable {σ : Type}

/-- The task that an operation ends: one that exits, or the one that the search by
    number finds. -/
def victim (fuel : Nat) (s : RunQueue σ) : Call → Option Nat
  | .taskExit _ => some s.current
  | .killTask pid _ =>
      if pid = 0 then none
      else
        (findFrom s pid fuel idleTask).bind fun t =>
          if t = 0 ∨ (s.task t).state = .dead then none else some t
  | _ => none

/-- The operation changes the state of the task `t` even if it is blocked. -/
def Stirs (s : RunQueue σ) (t : Nat) : Call → Prop
  | .sleepMs _ _ _ => t = s.current
  | .makeReady u => t = u
  | _ => False

/-- From `s` to `s'`, the task `t` neither dies nor comes back, and is blocked if it
    was. -/
structure Rests (s s' : RunQueue σ) (t : Nat) : Prop where
  dead : (s'.task t).state = .dead ↔ (s.task t).state = .dead
  blocked : t ≠ idleTask → (s.task t).state = .blocked → (s'.task t).state = .blocked

section

variable {s s' s'' : RunQueue σ} {t : Nat}

theorem rests_of_eq (h : (s'.task t).state = (s.task t).state) : Rests s s' t :=
  ⟨by rw [h], fun _ hblocked => h.trans hblocked⟩

theorem rests_trans (h : Rests s s' t) (h' : Rests s' s'' t) : Rests s s'' t :=
  ⟨h'.dead.trans h.dead, fun hidle hblocked => h'.blocked hidle (h.blocked hidle hblocked)⟩

/-- A task that is neither dead nor blocked may become anything else of the kind. -/
theorem rests_awake {a b : TaskState} (hold : (s.task t).state = a) (hnew : (s'.task t).state = b)
    (hawake : a ≠ .dead ∧ a ≠ .blocked ∧ b ≠ .dead) : Rests s s' t := by
  subst hold hnew
  exact ⟨iff_of_false hawake.2.2 hawake.1, fun _ hc => absurd hc hawake.2.1⟩

end

section

variable {s s' : RunQueue σ} {ring dead : List Nat} {fuel sp : Nat}

theorem demote_state (s : RunQueue σ) (prev t : Nat) :
    ((demote s prev).task t).state =
      if t = prev ∧ (s.task t).state = .running then .ready else (s.task t).state := by
  rw [demote]
  by_cases ht : t = prev
  · rw [ht]
    by_cases hrun : (s.task prev).state = .running
    · simp [hrun, setState_self]
    · simp [hrun]
  · have hother : ¬(t = prev ∧ (s.task t).state = .running) := fun hc => ht hc.1
    split
    · exact setState_other s .ready ht
    · rfl

theorem switchTo_states {prev next : Nat} (hswitch : switchTo fuel s prev next sp = some s') :
    s'.current = next ∧ s'.created = s.created ∧
      ∀ t, (s'.task t).state = if t = next then .running
        else if t = prev ∧ (s.task t).state = .running then .ready else (s.task t).state := by
  rcases map_eq_some_iff.mp hswitch with ⟨left, hleft, rfl⟩
  -- Whether the last task is buried or not, the records are those after the demotion.
  have hsame : left.task = (demote s prev).task ∧ left.created = (demote s prev).created := by
    split at hleft
    · rcases map_eq_some_iff.mp hleft with ⟨p, _, rfl⟩
      exact ⟨rfl, rfl⟩
    · cases hleft
      exact ⟨rfl, rfl⟩
  refine ⟨rfl, hsame.2.trans (sameLinks_demote s prev).created, fun t => ?_⟩
  rw [(contextSwitch_kept (setCurrent left next) prev next sp t).1]
  by_cases ht : t = next
  · rw [if_pos ht, ht]
    exact setState_self left next .running
  · rw [if_neg ht, ← demote_state, ← hsame.1]
    exact setState_other left .running ht

/-- After `schedule` the chosen task runs, the last one is ready again if it could
    have gone on, and no other state has changed. -/
theorem schedule_states (src : Pages σ) (h : Leaving s ring dead)
    (hrun : schedule src fuel s sp = some s') :
    (s'.current = idleTask ∨ runnable s s.current s'.current = true) ∧ s'.created = s.created ∧
      ∀ t, (s'.task t).state = if t = s'.current then .running
        else if t = s.current ∧ (s.task t).state = .running then .ready else (s.task t).state := by
  rcases bind_eq_some_iff.mp hrun with ⟨r, hreap, hrun⟩
  have hleaving := (reap_leaving src h hreap).1
  rcases reap_spec src h.shape hreap with ⟨_, htask, hcurrent, _, _⟩
  have hcreated : r.created = s.created := reap_created src fuel s r hreap
  rcases bind_eq_some_iff.mp hrun with ⟨next, hpick, hrun⟩
  have hshape := hleaving.shape
  have hgood := (pick_spec hshape.circular fuel _ idleTask (-1)
    (circular_next_mem hshape.circular hleaving.mem) hshape.circular.mem (.inl rfl) hpick).2
  have hpicked : next = idleTask ∨ runnable s s.current next = true := by
    rw [runnable, htask, hcurrent] at hgood
    exact hgood
  split_ifs at hrun with hnext
  · cases hrun
    refine ⟨hnext ▸ hpicked, hcreated, fun t => ?_⟩
    by_cases ht : t = r.current
    · rw [ht]
      exact (setState_self r r.current .running).trans (if_pos rfl).symm
    · have hother : ¬(t = s.current ∧ (s.task t).state = .running) := fun hc =>
        ht (hc.1.trans hcurrent.symm)
      rw [setState_other r .running ht, htask, if_neg hother]
      exact (if_neg ht).symm
  · rcases switchTo_states hrun with ⟨hcur, hmade, hstates⟩
    rw [hcur, ← hcreated]
    refine ⟨hpicked, hmade, fun t => ?_⟩
    rw [hstates t, htask, hcurrent]

/-- The scan from `t` on, with the best task before it in `o`. -/
theorem pick_argmax {prev t best next : Nat} {pri : Int} (o : Option Nat)
    (hbest : best = o.getD idleTask) (hpri : pri = o.elim (-1 : Int) fun t => (s.task t).priority)
    (hpick : pick s prev fuel t best pri = some next) :
    ∃ ys, Seg s.next t (t :: ys) (s.next prev) ∧ next = (((t :: ys).filter (runnable s prev)).foldl
      (argAux fun b c => (s.task c).priority < (s.task b).priority) o).getD idleTask := by
  fun_induction pick s prev fuel t best pri generalizing o with
  | case1 => cases hpick
  | case2 _ t _ pri _ _ _ ih =>
    rcases ih (if better s prev t pri then some t else o) (by grind) (by grind) hpick with
      ⟨ys, hseg, rfl⟩
    refine ⟨_, ⟨rfl, hseg⟩, ?_⟩
    cases o <;> grind [better, argAux]
  | case3 _ t _ _ _ hmore =>
    obtain rfl := some.inj hpick
    refine ⟨[], ⟨rfl, not_not.mp hmore⟩, ?_⟩
    cases o <;> grind [better, argAux]

/-- `schedule` looks once around, from the task after the current one on, for the first
    runnable one of the highest priority. If there is none, the idle task is next. -/
theorem schedule_choice (src : Pages σ) (hrun : schedule src fuel s sp = some s') :
    ∃ ys ≠ [], Seg s.next (s.next s.current) ys (s.next s.current) ∧
      s'.current = ((ys.filter (runnable s s.current)).argmax fun t => (s.task t).priority).getD
        idleTask := by
  rcases bind_eq_some_iff.mp hrun with ⟨r, hreap, hrest⟩
  rcases bind_eq_some_iff.mp hrest with ⟨next, hpick, hswitch⟩
  have hcur : s'.current = next := by
    split_ifs at hswitch with hself
    · cases hswitch
      exact hself.symm
    · exact (switchTo_states hswitch).1
  rcases pick_argmax none rfl rfl hpick with ⟨ys, hseg, hnext⟩
  clear hrun hrest hpick hswitch
  -- Reaping leaves the ring and the records as they are.
  fun_induction schedReap src fuel s with
  | case1 => cases hreap
  | case2 _ _ _ ih => exact ih hreap
  | case3 =>
    cases hreap
    exact ⟨_, cons_ne_nil _ ys, hseg, hcur.trans hnext⟩

/-- Three tasks on the ring, the first of a lower priority than the other two. -/
def ranked : RunQueue Pmm.Allocator :=
  let s := runCalls Pmm.pmmSource Sched.bootImage 8 (schedInit Sched.bootMachine)
    [.createKernelTask 2 0, .createKernelTask 3 0, .createKernelTask 4 0]
  { s with task := fun t => { s.task t with priority := [0, 0, 5, 9, 9].getD t 0 } }

/-- Of two tasks of the highest priority the one that comes first is chosen. -/
theorem schedule_choice_ranked : ∃ s', schedule Pmm.pmmSource 8 ranked 0 = some s' ∧
    s'.current = 3 ∧ ∃ ys ≠ [],
      Seg ranked.next (ranked.next ranked.current) ys (ranked.next ranked.current) ∧
      s'.current = ((ys.filter (runnable ranked ranked.current)).argmax
        fun t => (ranked.task t).priority).getD idleTask := by
  have hres : (schedule Pmm.pmmSource 8 ranked 0).map (·.current) = some 3 := by decide +kernel
  rcases map_eq_some_iff.mp hres with ⟨s', hrun, hcurrent⟩
  exact ⟨s', hrun, hcurrent, schedule_choice Pmm.pmmSource hrun⟩

/-- A call of `schedule` leaves tasks at rest. -/
theorem schedule_rests (src : Pages σ) (h : Leaving s ring dead)
    (hrun : schedule src fuel s sp = some s') {t : Nat} (ht : t ∈ ring) : Rests s s' t := by
  rcases schedule_states src h hrun with ⟨hpicked, _, hstates⟩
  have hstate := hstates t
  by_cases hnext : t = s'.current
  · rw [if_pos hnext] at hstate
    rw [← hnext] at hpicked
    -- The chosen task was ready or running, or is the idle task.
    rcases hpicked with hidle | hrunnable
    · have hold : (s.task t).state ≠ .dead := by
        intro hdead
        by_cases hcur : t = s.current
        · exact h.exits (hcur ▸ hdead) (hcur ▸ hidle)
        · exact h.shape.alive t ht hcur hdead
      have hlive : (s'.task t).state ≠ .dead := hstate ▸ TaskState.noConfusion
      exact ⟨iff_of_false hlive hold, fun hc => absurd hidle hc⟩
    · rw [runnable, Bool.or_eq_true, Bool.and_eq_true, decide_eq_true_eq, decide_eq_true_eq,
        decide_eq_true_eq] at hrunnable
      rcases hrunnable with hready | ⟨_, hrunning⟩
      · exact rests_awake hready hstate (by decide)
      · exact rests_awake hrunning hstate (by decide)
  · rw [if_neg hnext] at hstate
    split at hstate
    case isTrue hcur => exact rests_awake hcur.2 hstate (by decide)
    case isFalse => exact rests_of_eq hstate

end

/-- Over an operation, of the tasks on the ring only `gone` dies, and a task that is
    blocked stays blocked unless it is stirred. -/
structure Spares (s s' : RunQueue σ) (ring : List Nat) (gone : Option Nat)
    (stirred : Nat → Prop) : Prop where
  created : ∀ u, s.created.count u ≤ s'.created.count u
  dead : ∀ t ∈ ring, ((s'.task t).state = .dead ↔ gone = some t)
  blocked : ∀ t ∈ ring, t ≠ idleTask → (s.task t).state = .blocked → gone ≠ some t → ¬stirred t →
    (s'.task t).state = .blocked

section

variable (src : Pages σ) (img : KernelImage)
variable {s s' : RunQueue σ} {ring dead : List Nat} {fuel : Nat}

variable (h : RingOk s ring dead)
include h

theorem ringOk_alive {t : Nat} (ht : t ∈ ring) :
    (s.task t).state ≠ .dead := by
  by_cases hcur : t = s.current
  · rw [hcur]
    exact h.2.2
  · exact h.1.alive t ht hcur

/-- The victim of an operation is on the ring. -/
theorem victim_mem {c : Call} {t : Nat} (hvictim : victim fuel s c = some t) : t ∈ ring := by
  cases c with
  | taskExit sp =>
    cases hvictim
    exact h.2.1
  | killTask pid sp =>
    rw [victim] at hvictim
    split at hvictim
    · cases hvictim
    rcases bind_eq_some_iff.mp hvictim with ⟨u, hfind, hu⟩
    split at hu
    · cases hu
    · rename_i hlive
      cases hu
      have hnull : t ≠ 0 := fun hc => hlive (.inl hc)
      exact ((findFrom_spec h.1.circular h.1.circular.mem hfind).resolve_left
        hnull).1
  | _ => cases hvictim

variable {stirred : Nat → Prop}

theorem spares_none (hcreated : ∀ u, s.created.count u ≤ s'.created.count u)
    (hrest : ∀ t ∈ ring, Rests s s' t ∨ stirred t ∧ (s'.task t).state ≠ .dead) :
    Spares s s' ring none stirred := by
  refine ⟨hcreated, fun t ht => ⟨fun hdead => ?_, fun hc => by cases hc⟩, ?_⟩
  · rcases hrest t ht with hrests | ⟨_, hlive⟩
    · exact absurd (hrests.dead.mp hdead) (ringOk_alive h ht)
    · exact absurd hdead hlive
  · intro t ht hidle hblocked _ hstirred
    rcases hrest t ht with hrests | ⟨hc, _⟩
    · exact hrests.blocked hidle hblocked
    · exact absurd hc hstirred

theorem spares_eq (hcreated : s'.created = s.created)
    (htask : ∀ t ∈ ring, (s'.task t).state = (s.task t).state) : Spares s s' ring none stirred :=
  spares_none h (fun u => by rw [hcreated]) fun t ht => .inl (rests_of_eq (htask t ht))

/-- A new record is not on the ring, so every task of it is as before. -/
theorem create_spares {built : Sched σ × Int} {t : Nat} {r : Int} (hfresh : t = 0 ∨ Fresh s t)
    (hcreate : createWith fuel s t built = some (s', r)) : Spares s s' ring none stirred := by
  rw [createWith] at hcreate
  split_ifs at hcreate with hnull
  · cases hcreate
    exact spares_eq h rfl fun _ _ => rfl
  rcases hfresh.resolve_left hnull with ⟨hidle, hcount⟩
  have hring := (fresh_unused h.1 hidle hcount).1
  rcases hqueue : built.1.queue with _ | ⟨record, rest⟩
  · simp only [hqueue, some.injEq, Prod.mk.injEq] at hcreate
    rw [← hcreate.1]
    exact spares_eq h rfl fun _ _ => rfl
  · simp only [hqueue] at hcreate
    rcases map_eq_some_iff.mp hcreate with ⟨tail, _, heq⟩
    cases heq
    refine spares_none h (fun u => ?_) fun u hu => .inl (rests_of_eq ?_)
    · simp only [insertTask, count_append]
      exact Nat.le_add_right _ _
    · have hne : u ≠ t := fun hc => hring (hc ▸ hu)
      simp only [insertTask, update_of_ne hne]

/-- The current task takes a state and gives up the processor. -/
theorem schedule_spares {r : RunQueue σ} {sp : Nat} (hleaving : Leaving r ring dead)
    (hcreated : r.created = s.created)
    (hrest : ∀ t ∈ ring, Rests s r t ∨ stirred t ∧ (r.task t).state ≠ .dead)
    (hrun : schedule src fuel r sp = some s') : Spares s s' ring none stirred := by
  have hmade := (schedule_states src hleaving hrun).2.1
  refine spares_none h (fun u => by rw [hmade, hcreated]) fun t ht => ?_
  have hafter := schedule_rests src hleaving hrun ht
  rcases hrest t ht with hrests | ⟨hstirred, hlive⟩
  · exact .inl (rests_trans hrests hafter)
  · exact .inr ⟨hstirred, fun hdead => hlive (hafter.dead.mp hdead)⟩

theorem exit_spares {sp : Nat} (hidle : s.current ≠ idleTask)
    (hrun : taskExit src fuel s sp = some s') : Spares s s' ring (some s.current) stirred := by
  have hleaving := exit_leaving h hidle
  have hmade := (schedule_states src hleaving hrun).2.1
  refine ⟨fun u => ?_, fun t ht => ?_, fun t ht hne hblocked hgone _ => ?_⟩
  · rw [hmade]
    exact Nat.le_refl _
  · rw [(schedule_rests src hleaving hrun ht).dead]
    by_cases hcur : t = s.current
    · rw [hcur, setState_self]
      exact ⟨fun _ => rfl, fun _ => rfl⟩
    · rw [setState_other s .dead hcur]
      exact ⟨fun hdead => absurd hdead (ringOk_alive h ht),
        fun hc => absurd (some.inj hc).symm hcur⟩
  · have hcur : t ≠ s.current := fun hc => hgone (congrArg some hc.symm)
    refine (schedule_rests src hleaving hrun ht).blocked hne ?_
    rw [setState_other s .dead hcur]
    exact hblocked

theorem killOther_spares {t : Nat} (hkill : killOther fuel s t = some s') :
    Spares s s' ring (some t) stirred := by
  rcases map_eq_some_iff.mp hkill with ⟨left, hleft, rfl⟩
  rcases map_eq_some_iff.mp hleft with ⟨p, _, rfl⟩
  refine ⟨fun u => Nat.le_refl _, fun u hu => ?_, fun u _ _ hblocked hgone _ => ?_⟩
  · by_cases hut : u = t
    · rw [hut, setState_self]
      exact ⟨fun _ => rfl, fun _ => rfl⟩
    · rw [setState_other (bury s p t) .dead hut]
      exact ⟨fun hdead => absurd hdead (ringOk_alive h hu),
        fun hc => absurd (some.inj hc).symm hut⟩
  · have hut : u ≠ t := fun hc => hgone (congrArg some hc.symm)
    rw [setState_other (bury s p t) .dead hut]
    exact hblocked

theorem kill_spares {pid sp : Nat} {r : Int}
    (hkill : schedKillTask src fuel s pid sp = some (s', r)) :
    Spares s s' ring (victim fuel s (.killTask pid sp)) stirred := by
  rw [schedKillTask] at hkill
  rw [victim]
  split_ifs at hkill ⊢ with hpid
  · cases hkill
    exact spares_eq h rfl fun _ _ => rfl
  rcases bind_eq_some_iff.mp hkill with ⟨t, hfind, hkill⟩
  rw [hfind, bind_some]
  by_cases hnull : t = 0
  · rw [if_pos hnull] at hkill
    rw [if_pos (.inl hnull)]
    cases hkill
    exact spares_eq h rfl fun _ _ => rfl
  rcases (findFrom_spec h.1.circular h.1.circular.mem hfind).resolve_left hnull with
    ⟨ht, hfound⟩
  have hlive := ringOk_alive h ht
  rw [if_neg hnull, if_neg hlive] at hkill
  rw [if_neg (not_or.mpr ⟨hnull, hlive⟩)]
  split at hkill
  case isTrue hcur =>
    rcases map_eq_some_iff.mp hkill with ⟨q, hexit, heq⟩
    cases heq
    rw [hcur]
    exact exit_spares src h (hcur ▸ found_not_idle h hpid hfound) hexit
  case isFalse =>
    rcases map_eq_some_iff.mp hkill with ⟨q, hother, heq⟩
    cases heq
    exact killOther_spares h hother

omit h in
theorem wake_rests (now t u : Nat) : Rests s (wake now s t) u := by
  rw [wake]
  split
  case isTrue hsleep =>
    by_cases hu : u = t
    · rw [hu]
      refine @rests_awake _ _ _ _ _ .ready hsleep.1 ?_ (by decide)
      simp only [update_self]
    · refine rests_of_eq ?_
      simp only [update_of_ne hu]
  case isFalse => exact rests_of_eq rfl

omit h in
theorem wakeFrom_rests (now u : Nat) : ∀ (fuel : Nat) (s : RunQueue σ) (t : Nat),
    wakeFrom now fuel s t = some s' → s'.created = s.created ∧ Rests s s' u := by
  intro fuel
  induction fuel with
  | zero =>
    intro s t hwake
    cases hwake
  | succ fuel ih =>
    intro s t hwake
    rw [wakeFrom] at hwake
    split at hwake
    · rcases ih (wake now s t) (s.next t) hwake with ⟨hcreated, hrests⟩
      exact ⟨hcreated.trans (wake_links now s t).1.created, rests_trans (wake_rests now t u) hrests⟩
    · cases hwake
      exact ⟨rfl, rests_of_eq rfl⟩

/-- Every operation ends its victim only and stirs no other blocked task. -/
theorem call_spares {c : Call} (hallowed : Allowed s c) (hcall : call src img fuel s c = some s') :
    Spares s s' ring (victim fuel s c) fun t => Stirs s t c := by
  cases c with
  | createKernelTask t entry =>
    rcases map_eq_some_iff.mp hcall with ⟨⟨q, r⟩, hrun, rfl⟩
    exact create_spares h hallowed hrun
  | createTask t fdsOk entry =>
    rcases map_eq_some_iff.mp hcall with ⟨⟨q, r⟩, hrun, rfl⟩
    exact create_spares h hallowed hrun
  | fork t fdsOk parent frame =>
    rcases map_eq_some_iff.mp hcall with ⟨⟨q, r⟩, hrun, rfl⟩
    rw [schedFork] at hrun
    split at hrun
    · cases hrun
      exact spares_eq h rfl fun _ _ => rfl
    · exact create_spares h hallowed hrun
  | schedule sp =>
    exact schedule_spares src h (ringOk_leaving h) rfl (fun _ _ => .inl (rests_of_eq rfl)) hcall
  | taskExit sp => exact exit_spares src h hallowed hcall
  | killTask pid sp =>
    rcases map_eq_some_iff.mp hcall with ⟨⟨q, r⟩, hrun, rfl⟩
    exact kill_spares src h hrun
  | sleepMs now ms sp =>
    -- only the caller's own state changes before the switch
    refine schedule_spares src h (sleep_leaving _ h) rfl (fun t _ => ?_) hcall
    by_cases hcur : t = s.current
    · refine .inr ⟨hcur, ?_⟩
      simp only [setSleep, hcur, update_self]
      exact TaskState.noConfusion
    · refine .inl (rests_of_eq ?_)
      simp only [setSleep, update_of_ne hcur]
  | wakeSleepers now =>
    refine spares_none h (fun u => ?_) fun t _ => .inl (wakeFrom_rests now t fuel s _ hcall).2
    rw [(wakeFrom_rests now u fuel s _ hcall).1]
  | blockCurrent sp =>
    refine schedule_spares src h (blocked_leaving TaskState.noConfusion h) rfl
      (fun t ht => .inl ?_) hcall
    by_cases hcur : t = s.current
    · rw [hcur] at ht ⊢
      have hself := setState_self s s.current .blocked
      refine ⟨⟨fun hc => ?_, fun hc => absurd hc (ringOk_alive h ht)⟩, fun _ _ => hself⟩
      exact TaskState.noConfusion (hself.symm.trans hc)
    · exact rests_of_eq (setState_other s .blocked hcur)
  | makeReady t =>
    cases hcall
    refine spares_none h (fun u => ?_) fun u _ => ?_
    · rw [(makeReady_links s t).1.created]
    · rw [schedMakeReady]
      split
      · by_cases hut : u = t
        · refine .inr ⟨hut, ?_⟩
          rw [hut, setState_self]
          exact TaskState.noConfusion
        · exact .inl (rests_of_eq (setState_other s .ready hut))
      · exact .inl (rests_of_eq rfl)
  | reap =>
    rcases reap_spec src h.1 hcall with ⟨_, htask, _, _, _⟩
    exact spares_eq h (reap_created src fuel s s' hcall) fun t _ => by rw [htask]

/-- A task that an operation does not end stays on the ring. -/
theorem call_stays {c : Call} (hallowed : Allowed s c) (hcall : call src img fuel s c = some s') :
    ∃ ring' dead', RingOk s' ring' dead' ∧ ∀ t ∈ ring, victim fuel s c ≠ some t → t ∈ ring' := by
  have hspares := call_spares src img h hallowed hcall
  rcases call_ok src img h hallowed hcall with ⟨⟨ring', dead', hok⟩, hreleased⟩
  refine ⟨ring', dead', hok, fun t ht hgone => ?_⟩
  by_contra hout
  have hlive : t ∉ dead' := fun hc => hgone ((hspares.dead t ht).mp (hok.1.buried t hc))
  -- Its record would have been released, but what is released was dead before.
  have hold := h.1.accounted.count_eq t
  have hnew := hok.1.accounted.count_eq t
  have hcreated := hspares.created t
  have hone : 0 < ring.count t := count_pos_iff.mpr ht
  have hdead : dead.count t = 0 := count_eq_zero.mpr (h.1.disjoint t ht)
  have hsame : s'.released.count t = s.released.count t := by
    rcases hreleased with heq | heq
    · rw [heq]
    · simp [heq, hdead]
  simp only [count_append, count_cons, count_eq_zero.mpr hout,
    count_eq_zero.mpr hlive] at hold hnew
  omega

end

end CortexForge.RunQueue
