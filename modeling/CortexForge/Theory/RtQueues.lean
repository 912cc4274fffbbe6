import CortexForge.Core.Rtos
import CortexForge.Lib.Linked
import Mathlib.Data.List.Sort

/-!
# The Wait Queues of Mutexes

The system of tasks that lock and unlock mutexes in any order, and what its wait
queues are. A queue is threaded through the tasks, so the system as a whole has to
keep queues apart: a task waits for one mutex at a time, which its place in the
program says, and therefore is on one queue.

A lock queues the caller by `wqInsert`, which on the list of the queue is an
ordered insertion behind all tasks of at least the same priority that come before
the first one of a lower priority. The insertion does not need the queue to be in
order.

The order in which tasks run is left open: `move` lets a task that does not wait
become ready, run or sleep at any time.

## Main definitions

* `RtSys`, `RtStep`: The system and its steps.
* `Shape`: The queues as lists, and where tasks are.
* `after`, `runBy`: Steps and runs that can be computed.

## Theorems

* `wqInsert_spec`: Queueing a task.
* `pairwise_enqueue`: The order of a queue with a new task.
* `lock_free`, `lock_contended`: The two ways a lock goes.
* `shape_take`, `shape_wait`, `shape_resume`, `shape_unlock`, `shape_move`: The
  queues after each step.
-/

namespace CortexForge.Rtos

open Function Relation List

/-- Where a task is: outside of the calls, or waiting in a lock. -/
inductive RtPc where
  | running
  | locking (m : Nat)
deriving DecidableEq

/-- Tasks and mutexes, where the tasks are, and when they called a lock they have
    not undone yet. -/
structure RtSys where
  rt : Rtos
  pc : Nat → RtPc
  since : Nat → Nat → Option Nat
  clock : Nat

inductive RtEvent where
  | lock (m me : Nat)
  | resume (me : Nat)
  | unlock (m me : Nat)
  | move (t : Nat) (state : TaskState)

/-- The record of a task's calls of locks. -/
def record (since : Nat → Nat → Option Nat) (m me : Nat) (time : Option Nat) :
    Nat → Nat → Option Nat :=
  update since m (update (since m) me time)

inductive RtStep : RtSys → RtEvent → RtSys → Prop
  -- A call is stamped with the clock, so that the order of the calls can be told.
  | lock (s : RtSys) (m me fuel : Nat) (rt : Rtos) (wait : Bool) (hm : m ≠ 0) (hme : me ≠ 0)
      (hstate : (s.rt.task me).state = .running) (hpc : s.pc me = .running)
      (hcall : rtMutexLock fuel s.rt m me = some (rt, wait)) :
      RtStep s (.lock m me)
        { rt := rt
          pc := if wait then update s.pc me (.locking m) else s.pc
          since := record s.since m me (some s.clock)
          clock := s.clock + 1 }
  | resume (s : RtSys) (m me : Nat) (hstate : (s.rt.task me).state = .running)
      (hpc : s.pc me = .locking m) :
      RtStep s (.resume me)
        { s with rt := rtMutexLockResume s.rt me, pc := update s.pc me .running }
  | unlock (s : RtSys) (m me : Nat) (hme : me ≠ 0) (hstate : (s.rt.task me).state = .running)
      (hpc : s.pc me = .running) (howner : (s.rt.mutex m).owner = me) :
      RtStep s (.unlock m me)
        { s with rt := rtMutexUnlock s.rt m me, since := record s.since m me none }
  -- What the scheduler and other code do to tasks that wait for no mutex.
  | move (s : RtSys) (t : Nat) (state : TaskState) (hold : (s.rt.task t).state ≠ .blocked)
      (hnew : state ≠ .blocked) :
      RtStep s (.move t state)
        { s with rt := { s.rt with task := setState s.rt.task t state } }

/-- The links of the wait queues. -/
def nextOf (task : Nat → RtTask) (t : Nat) : Nat := (task t).waitNext

section

variable {task task' task'' : Nat → RtTask} {t : Nat} {r : RtTask}

/-- A field that an update does not change. -/
theorem update_field {α β : Type} {g : Nat → α} {i : Nat} {v : α} {f : α → β} (h : f v = f (g i))
    (x : Nat) : f (update g i v x) = f (g x) := by
  by_cases hx : x = i
  · simp [hx, h]
  · rw [update_of_ne hx]

theorem nextOf_update (h : r.waitNext = (task t).waitNext) :
    nextOf (update task t r) = nextOf task :=
  funext fun x => update_field h x

theorem nextOf_setBlockedOn (task : Nat → RtTask) (t m : Nat) :
    nextOf (setBlockedOn task t m) = nextOf task := nextOf_update rfl

theorem nextOf_setState (task : Nat → RtTask) (t : Nat) (state : TaskState) :
    nextOf (setState task t state) = nextOf task := nextOf_update rfl

theorem nextOf_setPriority (task : Nat → RtTask) (t v : Nat) :
    nextOf (setPriority task t v) = nextOf task := nextOf_update rfl

theorem nextOf_setWaitNext (task : Nat → RtTask) (t v : Nat) :
    nextOf (setWaitNext task t v) = update (nextOf task) t v := by
  funext x
  unfold nextOf setWaitNext
  by_cases hx : x = t
  · simp [hx]
  · simp [update_of_ne hx]

theorem setPriority_priority (task : Nat → RtTask) (t v x : Nat) :
    (setPriority task t v x).priority = if x = t then v else (task x).priority := by
  unfold setPriority
  by_cases hx : x = t
  · simp [hx]
  · simp [hx]

theorem setState_priority (task : Nat → RtTask) (t : Nat) (state : TaskState) (x : Nat) :
    (setState task t state x).priority = (task x).priority := by
  exact update_field (by rfl) x

theorem setState_basePriority (task : Nat → RtTask) (t : Nat) (state : TaskState) (x : Nat) :
    (setState task t state x).basePriority = (task x).basePriority := by
  exact update_field (by rfl) x

theorem setState_blockedOn (task : Nat → RtTask) (t : Nat) (state : TaskState) (x : Nat) :
    (setState task t state x).blockedOn = (task x).blockedOn := by
  exact update_field (by rfl) x

/-- Tasks that differ in their links only. -/
structure Relinked (task task' : Nat → RtTask) : Prop where
  priority : ∀ x, (task' x).priority = (task x).priority
  basePriority : ∀ x, (task' x).basePriority = (task x).basePriority
  state : ∀ x, (task' x).state = (task x).state
  blockedOn : ∀ x, (task' x).blockedOn = (task x).blockedOn

theorem relinked_setWaitNext (task : Nat → RtTask) (t v : Nat) :
    Relinked task (setWaitNext task t v) :=
  ⟨update_field rfl, update_field rfl,
    update_field rfl, update_field rfl⟩

theorem relinked_trans (h : Relinked task task') (h' : Relinked task' task'') :
    Relinked task task'' :=
  ⟨fun x => (h'.priority x).trans (h.priority x),
    fun x => (h'.basePriority x).trans (h.basePriority x),
    fun x => (h'.state x).trans (h.state x), fun x => (h'.blockedOn x).trans (h.blockedOn x)⟩

/-- Tasks that differ in their priorities only. -/
structure Reprioritized (task task' : Nat → RtTask) : Prop where
  waitNext : ∀ x, (task' x).waitNext = (task x).waitNext
  basePriority : ∀ x, (task' x).basePriority = (task x).basePriority
  state : ∀ x, (task' x).state = (task x).state
  blockedOn : ∀ x, (task' x).blockedOn = (task x).blockedOn

theorem reprioritized_refl (task : Nat → RtTask) : Reprioritized task task :=
  ⟨fun _ => rfl, fun _ => rfl, fun _ => rfl, fun _ => rfl⟩

theorem reprioritized_setPriority (task : Nat → RtTask) (t v : Nat) :
    Reprioritized task (setPriority task t v) :=
  ⟨update_field rfl, update_field rfl,
    update_field rfl, update_field rfl⟩

theorem reprioritized_trans (h : Reprioritized task task') (h' : Reprioritized task' task'') :
    Reprioritized task task'' :=
  ⟨fun x => (h'.waitNext x).trans (h.waitNext x),
    fun x => (h'.basePriority x).trans (h.basePriority x),
    fun x => (h'.state x).trans (h.state x), fun x => (h'.blockedOn x).trans (h.blockedOn x)⟩

/-- Inheritance changes priorities only. -/
theorem piPropagate_kept (depth : Nat) : ∀ (s : Rtos) (owner prio : Nat),
    (piPropagate depth s owner prio).mutex = s.mutex ∧
      Reprioritized s.task (piPropagate depth s owner prio).task := by
  induction depth with
  | zero => exact fun s _ _ => ⟨rfl, reprioritized_refl s.task⟩
  | succ depth ih =>
    intro s owner prio
    unfold piPropagate
    split
    · exact ⟨rfl, reprioritized_refl s.task⟩
    split
    · exact ⟨rfl, reprioritized_refl s.task⟩
    -- This owner is raised, and the chain may go on.
    have hset := reprioritized_setPriority s.task owner prio
    simp only
    split
    · exact ⟨rfl, hset⟩
    · rcases ih { s with task := setPriority s.task owner prio } _ prio with ⟨hmutex, hrest⟩
      exact ⟨hmutex, reprioritized_trans hset hrest⟩

end

section

variable {x head fuel m : Nat} {task' : Nat → RtTask} {q : List Nat}

/-- The place of `me` in a queue: behind the tasks of at least its priority. -/
def enqueue (task : Nat → RtTask) (me : Nat) (q : List Nat) : List Nat :=
  q.orderedInsert (fun a b => (task b).priority < (task a).priority) me

variable {task : Nat → RtTask} {me : Nat}

theorem enqueue_front (xs : List Nat) (h : (task x).priority < (task me).priority) :
    enqueue task me (x :: xs) = me :: x :: xs := by
  simp [enqueue, h]

theorem enqueue_skip (xs : List Nat) (h : (task me).priority ≤ (task x).priority) :
    enqueue task me (x :: xs) = x :: enqueue task me xs := by
  rw [enqueue, orderedInsert_cons, if_neg (Nat.not_lt_of_le h)]
  rfl

theorem mem_enqueue {t : Nat} (q : List Nat) : t ∈ enqueue task me q ↔ t = me ∨ t ∈ q :=
  mem_orderedInsert _

theorem perm_enqueue (q : List Nat) : (enqueue task me q).Perm (me :: q) :=
  perm_orderedInsert _ me q

/-- A relation that goes along with priorities holds along the queue with a new
    task, if it held before. -/
theorem pairwise_enqueue {R : Nat → Nat → Prop} (q : List Nat) (hq : q.Pairwise R)
    (hsorted : q.Pairwise fun a b => (task b).priority ≤ (task a).priority)
    (hle : ∀ b ∈ q, (task me).priority ≤ (task b).priority → R b me)
    (hlt : ∀ b ∈ q, (task b).priority < (task me).priority → R me b) :
    (enqueue task me q).Pairwise R := by
  induction q with
  | nil => exact pairwise_singleton R me
  | cons x xs ih =>
    rcases pairwise_cons.mp hq with ⟨hx, hxs⟩
    rcases pairwise_cons.mp hsorted with ⟨hprio, hrest⟩
    by_cases hbelow : (task x).priority < (task me).priority
    · -- All that follow are of a lower priority, too.
      rw [enqueue_front xs hbelow]
      refine pairwise_cons.mpr ⟨fun b hb => hlt b hb ?_, hq⟩
      rcases mem_cons.mp hb with rfl | hb
      · exact hbelow
      · exact Nat.lt_of_le_of_lt (hprio b hb) hbelow
    · have habove := Nat.le_of_not_lt hbelow
      rw [enqueue_skip xs habove]
      refine pairwise_cons.mpr ⟨fun b hb => ?_, ?_⟩
      · rcases (mem_enqueue xs).mp hb with rfl | hb
        · exact hle x mem_cons_self habove
        · exact hx b hb
      · exact ih hxs hrest (fun b hb => hle b (mem_cons_of_mem x hb))
          fun b hb => hlt b (mem_cons_of_mem x hb)

/-- A place depends on the priorities only. -/
theorem enqueue_congr (h : ∀ x, (task' x).priority = (task x).priority) (q : List Nat) :
    enqueue task' me q = enqueue task me q := by
  unfold enqueue
  simp only [h]

/-- The walk stops at the task behind which `me` belongs, if the counter lasts so
    long. -/
theorem wqWalk_spec (xs : List Nat) : ∀ x : Nat, Linked (nextOf task) 0 x (x :: xs) →
    (task me).priority ≤ (task x).priority →
    ∃ as p bs, x :: xs = as ++ p :: bs ∧ enqueue task me (x :: xs) = as ++ p :: me :: bs ∧
      ∀ fuel, wqWalk task (task me).priority fuel x =
        if as.length < fuel then some p else none := by
  induction xs with
  | nil =>
    intro x hlink hle
    have hend : (task x).waitNext = 0 :=
      linked_nil.mp (linked_cons.mp hlink).2.2
    refine ⟨[], x, [], rfl, enqueue_skip [] hle, fun fuel => ?_⟩
    cases fuel <;> simp [wqWalk, hend]
  | cons y ys ih =>
    intro x hlink hle
    have hrest := (linked_cons.mp hlink).2.2
    rcases linked_cons.mp hrest with ⟨hnext, hy, _⟩
    rw [hnext] at hrest
    change (task x).waitNext = y at hnext
    have hskip := enqueue_skip (y :: ys) hle
    -- The loop condition compares with the task after `x`, not with `x` itself.
    by_cases hprio : (task me).priority ≤ (task y).priority
    · rcases ih y hrest hprio with ⟨as, p, bs, hsplit, hins, hwalk⟩
      refine ⟨x :: as, p, bs, by rw [hsplit]; rfl, by rw [hskip, hins]; rfl, fun fuel => ?_⟩
      cases fuel <;> simp [wqWalk, hnext, hy, hprio, hwalk]
    · refine ⟨[], x, y :: ys, rfl, ?_, fun fuel => ?_⟩
      · rw [hskip, enqueue_front ys (Nat.lt_of_not_le hprio)]
        rfl
      · cases fuel <;> simp [wqWalk, hnext, hprio]

/-- The link of a task that is not on a queue is no part of it. -/
theorem linked_setWaitNext (hlink : Linked (nextOf task) 0 head q) (hnew : me ∉ q) (v : Nat) :
    Linked (nextOf (setWaitNext task me v)) 0 head q := by
  rw [nextOf_setWaitNext]
  refine linked_congr (fun x hx => update_of_ne ?_ _ _) hlink
  exact fun hc => hnew (hc ▸ hx)

/-- Queueing a task links it at its place, and changes links of the queue only. -/
theorem wqInsert_spec {head' : Nat} (hlink : Linked (nextOf task) 0 head q) (hme : me ≠ 0)
    (hnew : me ∉ q) (hcall : wqInsert fuel task head me = some (task', head')) :
    Linked (nextOf task') 0 head' (enqueue task me q) ∧ Relinked task task' ∧
      ∀ t, t ≠ me → t ∉ q → nextOf task' t = nextOf task t := by
  have hcleared := relinked_setWaitNext task me 0
  have hlink0 := linked_setWaitNext hlink hnew 0
  have hprio : ∀ a b, (task a).priority ≤ (task b).priority →
      (setWaitNext task me 0 a).priority ≤ (setWaitNext task me 0 b).priority := fun a b hle => by
    rw [hcleared.priority, hcleared.priority]
    exact hle
  unfold wqInsert at hcall
  simp only [hcleared.priority] at hcall
  rw [← enqueue_congr hcleared.priority]
  by_cases hfront : head = 0 ∨ (task me).priority > (task head).priority
  · -- At the front of the queue, which may be empty.
    rw [if_pos hfront] at hcall
    cases hcall
    refine ⟨?_, relinked_trans hcleared (relinked_setWaitNext _ me head), fun t ht _ => ?_⟩
    · have hplace : enqueue (setWaitNext task me 0) me q = me :: q := by
        rcases q with _ | ⟨x, xs⟩
        · rfl
        rcases linked_cons.mp hlink with ⟨hx, hne, _⟩
        rw [hx] at hfront
        refine enqueue_front xs ?_
        rw [hcleared.priority, hcleared.priority]
        exact hfront.resolve_left hne
      rw [hplace, nextOf_setWaitNext]
      exact linked_push hlink0 hnew hme
    · simp [nextOf_setWaitNext, update_of_ne ht]
  · rw [if_neg hfront] at hcall
    rw [not_or] at hfront
    rcases q with _ | ⟨x, xs⟩
    · exact absurd (linked_nil.mp hlink) hfront.1
    -- The head has at least the caller's priority, which is where the walk starts.
    have hx := (linked_cons.mp hlink).1
    subst hx
    rcases Option.map_eq_some_iff.mp hcall with ⟨p, hwalk, heq⟩
    cases heq
    rcases wqWalk_spec xs head hlink0 (hprio me head (Nat.le_of_not_lt hfront.2)) with
      ⟨as, p', bs, hsplit, hplace, hend⟩
    rw [hcleared.priority] at hend
    rw [hend, Option.ite_none_right_eq_some] at hwalk
    obtain rfl := (Option.some.inj hwalk.2).symm
    refine ⟨?_, ?_, fun t ht hq => ?_⟩
    · rw [hsplit] at hlink0 hnew
      rw [hplace, nextOf_setWaitNext, nextOf_setWaitNext]
      exact linked_insert hlink0 hnew hme
    · exact relinked_trans hcleared
        (relinked_trans (relinked_setWaitNext _ me _) (relinked_setWaitNext _ p me))
    -- The one other record that is written is on the queue.
    · have htp : t ≠ p := by
        rintro rfl
        exact hq (hsplit ▸ mem_append_right as mem_cons_self)
      rw [nextOf_setWaitNext, update_of_ne htp, nextOf_setWaitNext,
        update_of_ne ht, nextOf_setWaitNext, update_of_ne ht]

/-- The system after the caller has been queued, before priorities are inherited. -/
structure Queued (s : Rtos) (m me : Nat) (q : List Nat) (s1 : Rtos) : Prop where
  relinked : Relinked (setBlockedOn s.task me m) s1.task
  mutex_eq : ∀ x, x ≠ m → s1.mutex x = s.mutex x
  owner_eq : (s1.mutex m).owner = (s.mutex m).owner
  locked_eq : (s1.mutex m).locked = (s.mutex m).locked
  linked : Linked (nextOf s1.task) 0 (s1.mutex m).waiters (enqueue s.task me q)
  others : ∀ t, t ≠ me → t ∉ q → nextOf s1.task t = nextOf s.task t

/-- A lock of a mutex that is free takes it. -/
theorem lock_free {s s' : Rtos} {wait : Bool} (hlocked : (s.mutex m).locked = 0)
    (hcall : rtMutexLock fuel s m me = some (s', wait)) :
    wait = false ∧
      s' = ⟨s.task, update s.mutex m ⟨me, (s.mutex m).waiters, 1⟩⟩ := by
  rw [rtMutexLock, if_pos hlocked] at hcall
  cases hcall
  exact ⟨rfl, rfl⟩

/-- A lock of a mutex that is taken queues the caller, raises the owner and blocks
    the caller. -/
theorem lock_contended {s s' : Rtos} {wait : Bool}
    (hlink : Linked (nextOf s.task) 0 (s.mutex m).waiters q) (hme : me ≠ 0) (hnew : me ∉ q)
    (hlocked : (s.mutex m).locked ≠ 0) (hcall : rtMutexLock fuel s m me = some (s', wait)) :
    wait = true ∧ ∃ s1, Queued s m me q s1 ∧
      s'.mutex = s1.mutex ∧
      s'.task = setState (piPropagate 8 s1 (s.mutex m).owner (s.task me).priority).task me
        .blocked := by
  rw [rtMutexLock, if_neg hlocked] at hcall
  rcases Option.map_eq_some_iff.mp hcall with ⟨⟨task', head'⟩, hins, heq⟩
  have hlink0 : Linked (nextOf (setBlockedOn s.task me m)) 0 (s.mutex m).waiters q := by
    rw [nextOf_setBlockedOn]
    exact hlink
  rcases wqInsert_spec hlink0 hme hnew hins with ⟨hlinked, hrelinked, hothers⟩
  -- The place on the queue is found after the mark is set, which changes no priority.
  have hprio : ∀ x, (setBlockedOn s.task me m x).priority = (s.task x).priority :=
    update_field rfl
  have hkept := piPropagate_kept 8 { task := task'
                                     mutex := update s.mutex m
                                       { s.mutex m with waiters := head' } }
    (s.mutex m).owner (s.task me).priority
  simp only [update_self, Prod.mk.injEq] at heq
  rw [hrelinked.priority, hprio] at heq
  rcases heq with ⟨hs, hwait⟩
  refine ⟨hwait.symm, { task := task'
                        mutex := update s.mutex m { s.mutex m with waiters := head' } },
    ⟨hrelinked, fun x hx => update_of_ne hx _ _, ?_, ?_, ?_, ?_⟩, ?_, ?_⟩
  · simp
  · simp
  · simp only [update_self]
    rw [← enqueue_congr hprio]
    exact hlinked
  · intro t ht hq
    rw [hothers t ht hq, nextOf_setBlockedOn]
  · rw [← hs]
    exact hkept.1
  · rw [← hs]

end

section

variable {s : Rtos} {m me w : Nat}

/-- With nobody on the queue, the mutex becomes free. -/
theorem unlock_release (hw : (s.mutex m).waiters = 0) (me : Nat) :
    rtMutexUnlock s m me = ⟨setPriority s.task me (s.task me).basePriority,
      update s.mutex m { s.mutex m with locked := 0, owner := 0 }⟩ := by
  exact if_pos hw

/-- Otherwise the first task of the queue becomes the owner and ready. -/
theorem unlock_handover (hw : (s.mutex m).waiters = w) (hne : w ≠ 0) (me : Nat) :
    rtMutexUnlock s m me =
      ⟨setState (setWaitNext (setPriority s.task me (s.task me).basePriority) w 0) w .ready,
        update s.mutex m
          { s.mutex m with waiters := (s.task w).waitNext, owner := w }⟩ := by
  have hnext := (reprioritized_setPriority s.task me (s.task me).basePriority).waitNext w
  unfold rtMutexUnlock
  simp only [hw, if_neg hne, hnext]

/-- Either way the old owner is back at its base priority. -/
theorem unlock_priority (s : Rtos) (m me t : Nat) :
    ((rtMutexUnlock s m me).task t).priority
      = if t = me then (s.task me).basePriority else (s.task t).priority := by
  have hset := setPriority_priority s.task me (s.task me).basePriority t
  by_cases hw : (s.mutex m).waiters = 0
  · rw [unlock_release hw]
    exact hset
  · rw [unlock_handover rfl hw]
    simp only [setState_priority, (relinked_setWaitNext _ _ _).priority]
    exact hset

/-- An unlock leaves base priorities and marks alone. -/
theorem unlock_kept (s : Rtos) (m me t : Nat) :
    ((rtMutexUnlock s m me).task t).basePriority = (s.task t).basePriority ∧
      ((rtMutexUnlock s m me).task t).blockedOn = (s.task t).blockedOn := by
  have hset := reprioritized_setPriority s.task me (s.task me).basePriority
  by_cases hw : (s.mutex m).waiters = 0
  · rw [unlock_release hw]
    exact ⟨hset.basePriority t, hset.blockedOn t⟩
  · rw [unlock_handover rfl hw]
    simp only [setState_basePriority, setState_blockedOn, (relinked_setWaitNext _ _ _).basePriority,
      (relinked_setWaitNext _ _ _).blockedOn]
    exact ⟨hset.basePriority t, hset.blockedOn t⟩

theorem unlock_mutex_other (s : Rtos) (me : Nat) {x : Nat} (hx : x ≠ m) :
    (rtMutexUnlock s m me).mutex x = s.mutex x := by
  by_cases hw : (s.mutex m).waiters = 0
  · rw [unlock_release hw]
    exact update_of_ne hx _ _
  · rw [unlock_handover rfl hw]
    exact update_of_ne hx _ _

/-- The owner after an unlock is the first task of the queue. -/
theorem unlock_owner {q : List Nat} (hqueue : Linked (nextOf s.task) 0 (s.mutex m).waiters q)
    (me : Nat) : ((rtMutexUnlock s m me).mutex m).owner = q.headD 0 := by
  rcases q with _ | ⟨w, rest⟩
  · rw [linked_nil] at hqueue
    rw [unlock_release hqueue]
    simp
  · rcases linked_cons.mp hqueue with ⟨hw, hne, _⟩
    rw [unlock_handover hw hne]
    simp

end

section

variable {m t me clock w : Nat} {since : Nat → Nat → Option Nat}

/-- The queues as lists. Who waits for a mutex is blocked and on its queue, or has
    been handed it. -/
structure Shape (s : RtSys) (Q : Nat → List Nat) : Prop where
  queue : ∀ m, Linked (nextOf s.rt.task) 0 (s.rt.mutex m).waiters (Q m)
  waiting : ∀ m t, t ∈ Q m → (s.rt.task t).state = .blocked ∧ s.pc t = .locking m
  locking : ∀ m t, s.pc t = .locking m → t ≠ 0 ∧ m ≠ 0 ∧ (s.rt.task t).blockedOn = m ∧
    (t ∈ Q m ∨ (s.rt.mutex m).owner = t)
  running : ∀ t, s.pc t = .running → (s.rt.task t).blockedOn = 0
  free : ∀ m, (s.rt.mutex m).locked = 0 → (s.rt.mutex m).owner = 0 ∧ Q m = []
  held : ∀ m, (s.rt.mutex m).locked ≠ 0 → (s.rt.mutex m).locked = 1 ∧ (s.rt.mutex m).owner ≠ 0

variable {s s' : RtSys} {Q : Nat → List Nat}

variable (h : Shape s Q)
include h

/-- A task is on one queue. -/
theorem shape_apart {m' : Nat} (hm : t ∈ Q m) (hm' : t ∈ Q m') : m = m' := by
  have hpc := (h.waiting m t hm).2
  rw [(h.waiting m' t hm').2] at hpc
  injection hpc with heq
  exact heq.symm

/-- A task that runs outside of the calls is on no queue. -/
theorem shape_not_waiting (hpc : s.pc t = .running) (m : Nat) :
    t ∉ Q m := by
  intro hmem
  rw [(h.waiting m t hmem).2] at hpc
  cases hpc

theorem shape_take (hme : me ≠ 0) (hlocked : (s.rt.mutex m).locked = 0) :
    Shape ⟨⟨s.rt.task, update s.rt.mutex m ⟨me, (s.rt.mutex m).waiters, 1⟩⟩, s.pc, since,
      clock⟩ Q := by
  obtain ⟨queue, waiting, locking, running, free, held⟩ := h
  -- Nobody is handed a free mutex, so who is in a lock of it does not exist.
  refine ⟨fun x => ?_, waiting, fun x t hpc => ?_, running, fun x hx => ?_, fun x hx => ?_⟩ <;>
    simp only [update_apply] at * <;> grind

theorem shape_wait (hm : m ≠ 0) (hme : me ≠ 0) (hpc : s.pc me = .running)
    (hlocked : (s.rt.mutex m).locked ≠ 0) {s1 rt : Rtos} (hqueued : Queued s.rt m me (Q m) s1)
    (hmutex : rt.mutex = s1.mutex) {owner prio : Nat}
    (htask : rt.task = setState (piPropagate 8 s1 owner prio).task me .blocked) :
    Shape ⟨rt, update s.pc me (.locking m), since, clock⟩
      (update Q m (enqueue s.rt.task me (Q m))) := by
  have hkept := (piPropagate_kept 8 s1 owner prio).2
  have hnext : nextOf rt.task = nextOf s1.task := by
    rw [htask, nextOf_setState]
    exact funext hkept.waitNext
  have hstate : ∀ t, (rt.task t).state = if t = me then .blocked else (s.rt.task t).state := by
    intro t
    rw [htask, setState, update_apply]
    split
    · rfl
    · rw [hkept.state, hqueued.relinked.state, setBlockedOn, update_of_ne ‹_›]
  have hon : ∀ t, (rt.task t).blockedOn = (setBlockedOn s.rt.task me m t).blockedOn := fun t => by
    rw [htask, setState_blockedOn, hkept.blockedOn, hqueued.relinked.blockedOn]
  have hnot := shape_not_waiting h hpc
  have howner : ∀ x, (rt.mutex x).owner = (s.rt.mutex x).owner ∧
      (rt.mutex x).locked = (s.rt.mutex x).locked := by
    intro x
    rw [hmutex]
    grind [hqueued.owner_eq, hqueued.locked_eq, hqueued.mutex_eq x]
  -- Membership of the queues: the caller is new on one of them.
  have hmem : ∀ x t, t ∈ update Q m (enqueue s.rt.task me (Q m)) x ↔
      t ∈ Q x ∨ t = me ∧ x = m := by
    intro x t
    grind [mem_enqueue]
  have hapart := fun t x (hx : t ∈ Q x) (hm : t ∈ Q m) => shape_apart h hx hm
  obtain ⟨queue, waiting, locking, running, free, held⟩ := h
  refine ⟨fun x => ?_, fun x t hin => ?_, fun x t hin => ?_, fun t hin => ?_, fun x hx => ?_,
    fun x hx => ?_⟩
  · by_cases hxm : x = m
    · rw [hxm, update_self, hmutex, hnext]
      exact hqueued.linked
    · rw [update_of_ne hxm, hmutex, hqueued.mutex_eq x hxm, hnext]
      refine linked_congr (fun t ht => ?_) (queue x)
      exact hqueued.others t (fun hc => hnot x (hc ▸ ht)) fun hc => hxm (hapart t x ht hc)
  all_goals
    simp only [hmem, setBlockedOn] at *
    grind

/-- A task that was handed a mutex goes on. -/
theorem shape_resume (hstate : (s.rt.task me).state = .running) :
    Shape { s with rt := rtMutexLockResume s.rt me, pc := update s.pc me .running } Q := by
  obtain ⟨queue, waiting, locking, running, free, held⟩ := h
  -- A task on a queue is blocked, and this one runs.
  have hnot : ∀ x, me ∉ Q x := fun x hmem => by grind
  simp only [rtMutexLockResume]
  refine ⟨fun x => ?_, fun x t hin => ?_, fun x t hin => ?_, fun t hin => ?_, free, held⟩
  · rw [nextOf_setBlockedOn]
    exact queue x
  all_goals
    simp only [setBlockedOn] at *
    grind

/-- The state of a task that does not wait changes. -/
theorem shape_move {state : TaskState} (hold : (s.rt.task t).state ≠ .blocked) :
    Shape { s with rt := { s.rt with task := setState s.rt.task t state } } Q := by
  refine ⟨fun m => ?_, fun m x hin => ?_, fun m x hin => ?_, fun x hin => ?_, h.free, h.held⟩
  · simp only [nextOf_setState]
    exact h.queue m
  · have hne : x ≠ t := fun hc => hold (hc ▸ (h.waiting m x hin).1)
    simp only [setState, update_of_ne hne]
    exact h.waiting m x hin
  · simp only [setState_blockedOn]
    exact h.locking m x hin
  · simp only [setState_blockedOn]
    exact h.running x hin

/-- An owner that nobody waits for lets go of a mutex. -/
theorem shape_release (hpc : s.pc me = .running) (howner : (s.rt.mutex m).owner = me)
    (hq : Q m = []) :
    Shape { s with rt := rtMutexUnlock s.rt m me, since := since } Q := by
  have hnext := nextOf_setPriority s.rt.task me (s.rt.task me).basePriority
  obtain ⟨-, -, hstate, hon⟩ := reprioritized_setPriority s.rt.task me (s.rt.task me).basePriority
  obtain ⟨queue, waiting, locking, running, free, held⟩ := h
  have hqueue := queue m
  rw [hq, linked_nil] at hqueue
  rw [unlock_release hqueue]
  refine ⟨fun x => ?_, fun x t hin => ?_, fun x t hin => ?_, fun t hin => ?_, fun x hx => ?_,
    fun x hx => ?_⟩ <;>
    simp only [hnext] at * <;> grind

/-- The first task of a queue leaves it. It was on no other queue. -/
theorem shape_tail {rest : List Nat} (hq : Q m = w :: rest) (x t : Nat)
    (hin : t ∈ update Q m rest x) : t ∈ Q x ∧ t ≠ w := by
  have hnodup := linked_nodup (h.queue m)
  have hapart := @shape_apart m w s Q h x (hq ▸ mem_cons_self)
  grind

/-- An owner hands a mutex to the first task of the queue. -/
theorem shape_handover {rest : List Nat} (hpc : s.pc me = .running)
    (howner : (s.rt.mutex m).owner = me) (hq : Q m = w :: rest) :
    Shape { s with rt := rtMutexUnlock s.rt m me, since := since } (update Q m rest) := by
  have hprio := reprioritized_setPriority s.rt.task me (s.rt.task me).basePriority
  have hqueue := h.queue m
  rw [hq, linked_cons] at hqueue
  rcases hqueue with ⟨hw, hne, hrest⟩
  have hout := shape_tail h hq
  rw [unlock_handover hw hne]
  -- Only the task that gets the mutex is ready now, and only its link is cut.
  generalize htask : setState
    (setWaitNext (setPriority s.rt.task me (s.rt.task me).basePriority) w 0)
    w .ready = task
  have hstate : ∀ t, t ≠ w → (task t).state = (s.rt.task t).state := fun t ht => by
    rw [← htask, setState, update_of_ne ht, (relinked_setWaitNext _ w 0).state, hprio.state]
  have hon : ∀ t, (task t).blockedOn = (s.rt.task t).blockedOn := fun t => by
    rw [← htask, setState_blockedOn, (relinked_setWaitNext _ w 0).blockedOn, hprio.blockedOn]
  have hnext : ∀ t, t ≠ w → nextOf task t = nextOf s.rt.task t := fun t ht => by
    rw [← htask, nextOf_setState, nextOf_setWaitNext, update_of_ne ht, nextOf_setPriority]
  obtain ⟨queue, waiting, locking, running, free, held⟩ := h
  refine ⟨fun x => ?_, fun x t hin => ?_, fun x t hin => ?_, fun t hin => ?_, fun x hx => ?_,
    fun x hx => ?_⟩
  · refine linked_congr (fun t ht => hnext t (hout x t ht).2) ?_
    by_cases hxm : x = m
    · simp only [hxm, update_self]
      exact hrest
    · simp only [update_of_ne hxm]
      exact queue x
  · rcases hout x t hin with ⟨hold, htw⟩
    simp only [hstate t htw]
    exact waiting x t hold
  -- Who was on the queue is its first task, the owner now, or is still on it.
  all_goals
    grind

theorem shape_unlock (hpc : s.pc me = .running) (howner : (s.rt.mutex m).owner = me) :
    Shape { s with rt := rtMutexUnlock s.rt m me, since := since }
      (update Q m (Q m).tail) := by
  rcases hq : Q m with _ | ⟨w, rest⟩
  -- Nobody waits: the queue stays empty.
  · have hsame : update Q m ([] : List Nat).tail = Q := by
      rw [tail_nil, ← hq, update_eq_self]
    rw [hsame]
    exact shape_release h hpc howner hq
  · exact shape_handover h hpc howner hq

end

section

/-- The state after an event, if it can happen. Walks along queues are cut off at
    64 tasks. -/
def after (s : RtSys) : RtEvent → Option RtSys
  | .lock m me =>
      if m ≠ 0 ∧ me ≠ 0 ∧ (s.rt.task me).state = .running ∧ s.pc me = .running then
        (rtMutexLock 64 s.rt m me).map fun (rt, wait) =>
          { rt := rt
            pc := if wait then update s.pc me (.locking m) else s.pc
            since := record s.since m me (some s.clock)
            clock := s.clock + 1 }
      else none
  | .resume me =>
      match s.pc me with
      | .running => none
      | .locking _ =>
          if (s.rt.task me).state = .running then
            some { s with rt := rtMutexLockResume s.rt me, pc := update s.pc me .running }
          else none
  | .unlock m me =>
      if me ≠ 0 ∧ (s.rt.task me).state = .running ∧ s.pc me = .running ∧
          (s.rt.mutex m).owner = me then
        some { s with rt := rtMutexUnlock s.rt m me, since := record s.since m me none }
      else none
  | .move t state =>
      if (s.rt.task t).state ≠ .blocked ∧ state ≠ .blocked then
        some { s with rt := { s.rt with task := setState s.rt.task t state } }
      else none

theorem after_step {s s' : RtSys} {e : RtEvent} (h : after s e = some s') : RtStep s e s' := by
  cases e with
  | lock m me =>
    simp only [after] at h
    split at h
    · rename_i hcan
      rcases Option.map_eq_some_iff.mp h with ⟨⟨rt, wait⟩, hcall, rfl⟩
      exact .lock s m me 64 rt wait hcan.1 hcan.2.1 hcan.2.2.1 hcan.2.2.2 hcall
    · cases h
  | resume me =>
    simp only [after] at h
    split at h
    · cases h
    · rename_i m hpc
      split at h
      · rename_i hstate
        cases h
        exact .resume s m me hstate hpc
      · cases h
  | unlock m me =>
    simp only [after] at h
    split at h
    · rename_i hcan
      cases h
      exact .unlock s m me hcan.1 hcan.2.1 hcan.2.2.1 hcan.2.2.2
    · cases h
  | move t state =>
    simp only [after] at h
    split at h
    · rename_i hcan
      cases h
      exact .move s t state hcan.1 hcan.2
    · cases h

/-- The state after a list of events, of which those that `next` refuses are left
    out. -/
def runBy (next : RtSys → RtEvent → Option RtSys) (s : RtSys) (events : List RtEvent) : RtSys :=
  events.foldl (fun s e => (next s e).getD s) s

/-- Such a run is one of steps, given an invariant that makes them so. -/
theorem runBy_reaches {next : RtSys → RtEvent → Option RtSys} {R : RtSys → RtSys → Prop}
    {I : RtSys → Prop} (hnext : ∀ s e s', I s → next s e = some s' → R s s' ∧ I s')
    (events : List RtEvent) : ∀ s, I s →
    ReflTransGen R s (runBy next s events) ∧ I (runBy next s events) := by
  induction events with
  | nil => exact fun s hs => ⟨ReflTransGen.refl, hs⟩
  | cons e events ih =>
    intro s hs
    have hcons : runBy next s (e :: events) = runBy next ((next s e).getD s) events := rfl
    rw [hcons]
    rcases hcall : next s e with _ | s'
    · exact ih s hs
    · rcases hnext s e s' hs hcall with ⟨hstep, hs'⟩
      rcases ih s' hs' with ⟨hrun, hend⟩
      exact ⟨ReflTransGen.head hstep hrun, hend⟩

end

end CortexForge.Rtos
