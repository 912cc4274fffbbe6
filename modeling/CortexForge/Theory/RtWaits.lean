import CortexForge.Core.RtKernel
import CortexForge.Theory.RingStates
import CortexForge.Theory.RtQueues

/-!
# Waiting Tasks and the End of Tasks

Mutexes and semaphores point at tasks: at the owner, and along a wait queue at every
task on it. The scheduler does not know of these pointers. It ends a task by taking
it off the ring and later gives its record back to the heap, whoever still points
at it.

While no task that is ended owns a mutex or waits, every pointer is at a task of the
ring. The invariant that carries this has the wait queues as lists: a task on one is
blocked, so it is on no other and does not run, and an operation of the scheduler
leaves it blocked and on the ring. An end of a task that does own or wait breaks the
property at once, which is the converse.

## Main definitions

* `RtObject`, `waiters`, `Waits`: The wait queues and who is on them.
* `OnRunQueue`, `WaitsSound`: Owners and waiting tasks are on the run queue.
* `Encumbered`, `Careful`: A task that owns or waits, and ends of others only.
* `Allowed`, `RtStep`, `CarefulStep`: Steps of the system.
* `Kept`: The invariant.

## Theorems

* `kept_joins`, `kept_grants`: A task queues up, and the first one is woken.
* `kept_call`: A careful operation keeps the invariant.
* `waits_sound_iff`: In careful runs owners and waiting tasks are on the run queue,
  and only an operation that is not careful can end that.
-/

namespace CortexForge.RtKernel

open RunQueue (idleTask RingOk SameLinks)
open Function Relation

variable {σ : Type}

/-- What a task can wait for. -/
inductive RtObject where
  | mutex (m : Nat)
  | sem (x : Nat)
deriving DecidableEq

/-- The first task on a wait queue. -/
def waiters (s : RtKernel σ) : RtObject → Nat
  | .mutex m => (s.mutex m).waiters
  | .sem x => (s.sem x).waiters

/-- The task `t` is on the wait queue of `o`. -/
def Waits (s : RtKernel σ) (o : RtObject) (t : Nat) : Prop :=
  OnList s.waitNext 0 (waiters s o) t

/-- The task `t` is met on the way around the ring, and is not dead. -/
def OnRunQueue (s : RtKernel σ) (t : Nat) : Prop :=
  (∃ n, s.rq.next^[n] idleTask = t) ∧ (s.rq.task t).state ≠ .dead

structure WaitsSound (s : RtKernel σ) : Prop where
  waiting : ∀ o t, Waits s o t → OnRunQueue s t
  owners : ∀ m, (s.mutex m).owner ≠ 0 → OnRunQueue s (s.mutex m).owner

/-- The task `t` owns a mutex or is on a wait queue. -/
def Encumbered (s : RtKernel σ) (t : Nat) : Prop :=
  (∃ m, (s.mutex m).owner = t) ∨ ∃ o, Waits s o t

/-- The task that an operation ends. -/
def victim (fuel : Nat) (s : RtKernel σ) : RtCall → Option Nat
  | .sched c => RunQueue.victim fuel s.rq c
  | _ => none

/-- If the operation ends a task, then one that owns no mutex and does not wait. -/
def Careful (fuel : Nat) (s : RtKernel σ) (c : RtCall) : Prop :=
  ∀ t, victim fuel s c = some t → ¬Encumbered s t

/-- What may be called. The idle task does not block. A task that is blocked and not
    yet switched away from is about to call `schedule`, so it neither queues up nor
    sleeps. Nothing calls `sched_make_ready`. -/
def Allowed (s : RtKernel σ) : RtCall → Prop
  | .mutexLock _ => s.rq.current ≠ idleTask ∧ (s.rq.task s.rq.current).state ≠ .blocked
  | .semWait _ => s.rq.current ≠ idleTask ∧ (s.rq.task s.rq.current).state ≠ .blocked
  | .sched (.sleepMs _ _ _) => (s.rq.task s.rq.current).state ≠ .blocked
  | .sched (.makeReady _) => False
  | .sched c => RunQueue.Allowed s.rq c
  | _ => True

section

variable (src : Pages σ) (img : KernelImage)

/-- The system moves on: an operation, or other code that changes memory and records
    but neither a state nor a number. -/
inductive RtStep : RtKernel σ → RtKernel σ → Prop
  | call {s s' : RtKernel σ} (fuel : Nat) (c : RtCall) (hallowed : Allowed s c)
      (hcall : rtCall src img fuel s c = some s') : RtStep s s'
  | work {s : RtKernel σ} (m : Machine σ) (task : Nat → Task)
      (hkept : ∀ t, (task t).pid = (s.rq.task t).pid ∧ (task t).state = (s.rq.task t).state) :
      RtStep s { s with rq := { s.rq with machine := m, task := task } }

/-- A step that is careful with the tasks it ends. -/
inductive CarefulStep : RtKernel σ → RtKernel σ → Prop
  | call {s s' : RtKernel σ} (fuel : Nat) (c : RtCall) (hallowed : Allowed s c)
      (hcareful : Careful fuel s c) (hcall : rtCall src img fuel s c = some s') : CarefulStep s s'
  | work {s : RtKernel σ} (m : Machine σ) (task : Nat → Task)
      (hkept : ∀ t, (task t).pid = (s.rq.task t).pid ∧ (task t).state = (s.rq.task t).state) :
      CarefulStep s { s with rq := { s.rq with machine := m, task := task } }

end

/-- The wait queues as lists. A task on one is blocked, and is on that one only. -/
structure Kept (s : RtKernel σ) (ring dead : List Nat) (Q : RtObject → List Nat) : Prop where
  ringOk : RingOk s.rq ring dead
  queue : ∀ o, Linked s.waitNext 0 (waiters s o) (Q o)
  blocked : ∀ o t, t ∈ Q o → t ∈ ring ∧ t ≠ idleTask ∧ (s.rq.task t).state = .blocked
  apart : ∀ o o' t, t ∈ Q o → t ∈ Q o' → o = o'
  owner : ∀ m, (s.mutex m).owner ≠ 0 → (s.mutex m).owner ∈ ring

/-- The current task queues up for `o`. -/
structure Joins (s s' : RtKernel σ) (o : RtObject) (q q' : List Nat) : Prop where
  links : SameLinks s.rq s'.rq
  current : s'.rq.current = s.rq.current
  self : (s'.rq.task s.rq.current).state = .blocked
  others : ∀ t ≠ s.rq.current, (s'.rq.task t).state = (s.rq.task t).state
  queue : Linked s'.waitNext 0 (waiters s' o) q'
  mem : ∀ t, t ∈ q' ↔ t = s.rq.current ∨ t ∈ q
  waitNext : ∀ t, t ≠ s.rq.current → t ∉ q → s'.waitNext t = s.waitNext t
  heads : ∀ o' ≠ o, waiters s' o' = waiters s o'
  owner : ∀ m, (s'.mutex m).owner = (s.mutex m).owner

/-- The first task `w` of the queue of `o` is woken, and perhaps owns a mutex now. -/
structure Grants (s s' : RtKernel σ) (o : RtObject) (w : Nat) : Prop where
  links : SameLinks s.rq s'.rq
  current : s'.rq.current = s.rq.current
  self : (s'.rq.task w).state = .ready
  others : ∀ t ≠ w, (s'.rq.task t).state = (s.rq.task t).state
  head : waiters s' o = s.waitNext w
  waitNext : ∀ t ≠ w, s'.waitNext t = s.waitNext t
  heads : ∀ o' ≠ o, waiters s' o' = waiters s o'
  owner : ∀ m, (s'.mutex m).owner = (s.mutex m).owner ∨ (s'.mutex m).owner = w

/-- Nobody queues up and nobody is woken; a mutex may change hands. -/
structure Stays (s s' : RtKernel σ) (ring : List Nat) : Prop where
  links : SameLinks s.rq s'.rq
  current : s'.rq.current = s.rq.current
  state : ∀ t, (s'.rq.task t).state = (s.rq.task t).state
  waitNext : s'.waitNext = s.waitNext
  heads : ∀ o, waiters s' o = waiters s o
  owner : ∀ m, (s'.mutex m).owner ≠ 0 →
    (s'.mutex m).owner = (s.mutex m).owner ∨ (s'.mutex m).owner ∈ ring

section

variable {s s' : RtKernel σ} {ring dead q : List Nat} {Q : RtObject → List Nat} {o : RtObject}

variable (h : Kept s ring dead Q)
include h

theorem kept_waits (o : RtObject) (t : Nat) : Waits s o t ↔ t ∈ Q o :=
  linked_onList s.waitNext 0 t (Q o) (waiters s o) (h.queue o)

theorem kept_onRunQueue {t : Nat} (ht : t ∈ ring) : OnRunQueue s t :=
  ⟨(circular_mem_iff h.ringOk.1.circular).mp ht, RunQueue.ringOk_alive h.ringOk ht⟩

theorem kept_sound : WaitsSound s := by
  refine ⟨fun o t hw => ?_, fun m hm => kept_onRunQueue h (h.owner m hm)⟩
  exact kept_onRunQueue h (h.blocked o t ((kept_waits h o t).mp hw)).1

/-- A task that is not blocked is on no queue. -/
theorem kept_awake {t : Nat} (ht : (s.rq.task t).state ≠ .blocked) (o : RtObject) : t ∉ Q o :=
  fun hc => ht (h.blocked o t hc).2.2

omit h in
/-- The queue of `o` becomes `q`, the others stay. -/
theorem queues_update (hq : Linked s'.waitNext 0 (waiters s' o) q)
    (hother : ∀ o' ≠ o, Linked s'.waitNext 0 (waiters s' o') (Q o')) (o' : RtObject) :
    Linked s'.waitNext 0 (waiters s' o') (update Q o q o') := by
  by_cases ho : o' = o
  · rw [ho, update_self]
    exact hq
  · rw [update_of_ne ho]
    exact hother o' ho

theorem kept_joins (hidle : s.rq.current ≠ idleTask)
    (hawake : (s.rq.task s.rq.current).state ≠ .blocked) (hjoin : Joins s s' o (Q o) q) :
    Kept s' ring dead (update Q o q) := by
  have hnot := kept_awake h hawake
  -- Who is on a queue afterwards was on it before, or is the caller on the queue of `o`.
  have hmem : ∀ o' t, t ∈ update Q o q o' →
      t = s.rq.current ∧ o' = o ∨ t ∈ Q o' ∧ t ≠ s.rq.current := by
    intro o' t ht
    grind [hjoin.mem t]
  refine ⟨?_, queues_update hjoin.queue fun o' ho => ?_, fun o' t ht => ?_, fun o1 o2 t h1 h2 => ?_,
    fun m hm => ?_⟩
  · rw [RingOk, hjoin.current, hjoin.self]
    exact ⟨RunQueue.shape_current h.ringOk.1 h.ringOk.2.1 hjoin.links hjoin.others, h.ringOk.2.1,
      TaskState.noConfusion⟩
  · rw [hjoin.heads o' ho]
    refine linked_congr (fun t ht => ?_) (h.queue o')
    refine hjoin.waitNext t (fun hc => hnot o' (hc ▸ ht)) fun hc => ho ?_
    exact h.apart o' o t ht hc
  · rcases hmem o' t ht with ⟨rfl, _⟩ | ⟨hold, hne⟩
    · exact ⟨h.ringOk.2.1, hidle, hjoin.self⟩
    · rw [hjoin.others t hne]
      exact h.blocked o' t hold
  · grind [hmem o2 t h2, h.apart o1 o2 t]
  · rw [hjoin.owner m] at hm ⊢
    exact h.owner m hm

theorem kept_grants {w : Nat} {rest : List Nat} (hq : Q o = w :: rest)
    (hgrant : Grants s s' o w) : Kept s' ring dead (update Q o rest) := by
  have hw : w ∈ Q o := hq ▸ List.mem_cons_self
  have hlink := h.queue o
  rw [hq] at hlink
  rcases linked_cons.mp hlink with ⟨_, _, hrest⟩
  -- The woken task is not on the rest of its queue, nor on another one.
  have hgone : w ∉ rest := (List.nodup_cons.mp (linked_nodup hlink)).1
  have hmem : ∀ o' t, t ∈ update Q o rest o' → t ∈ Q o' ∧ t ≠ w := by
    intro o' t ht
    grind [h.apart o' o t]
  refine ⟨?_, queues_update ?_ fun o' ho => ?_, fun o' t ht => ?_, fun o1 o2 t h1 h2 => ?_,
    fun m hm => ?_⟩
  · refine RunQueue.ringOk_ready h.ringOk hgrant.links hgrant.current fun t => ?_
    grind [hgrant.self, hgrant.others t, h.blocked o w hw]
  · rw [hgrant.head]
    refine linked_congr (fun t ht => hgrant.waitNext t ?_) hrest
    exact fun hc => hgone (hc ▸ ht)
  · rw [hgrant.heads o' ho]
    refine linked_congr (fun t ht => hgrant.waitNext t ?_) (h.queue o')
    exact fun hc => ho (h.apart o' o t ht (hc ▸ hw))
  · rcases hmem o' t ht with ⟨hold, hne⟩
    rw [hgrant.others t hne]
    exact h.blocked o' t hold
  · exact h.apart o1 o2 t (hmem o1 t h1).1 (hmem o2 t h2).1
  · grind [hgrant.owner m, h.owner m, h.blocked o w hw]

theorem kept_stays (hstay : Stays s s' ring) : Kept s' ring dead Q := by
  refine ⟨?_, fun o => ?_, fun o t ht => ?_, h.apart, fun m hm => ?_⟩
  · exact RunQueue.ringOk_ready h.ringOk hstay.links hstay.current fun t => .inl (hstay.state t)
  · rw [hstay.waitNext, hstay.heads o]
    exact h.queue o
  · rw [hstay.state t]
    exact h.blocked o t ht
  · grind [hstay.owner m hm, h.owner m]

end

section

variable {s s' : RtKernel σ} {ring dead : List Nat} {Q : RtObject → List Nat} {fuel : Nat}

theorem writeTasks_links (s : RtKernel σ) (task : Nat → RtTask) :
    SameLinks s.rq (writeTasks s task).rq :=
  ⟨rfl, rfl, rfl, rfl, rfl⟩

theorem waiters_mutex (task : Nat → RtTask) {m : Nat} {x : RtMutex} {o : RtObject}
    (hx : o = .mutex m → x.waiters = (s.mutex m).waiters) :
    waiters { writeTasks s task with mutex := update s.mutex m x } o = waiters s o := by
  cases o with
  | mutex y =>
    simp only [waiters, update_apply]
    split_ifs with hy
    · rw [hx (hy ▸ rfl), hy]
    · rfl
  | sem y => rfl

theorem waiters_sem (task : Nat → RtTask) {y : Nat} {x : RtSem} {o : RtObject}
    (hx : o = .sem y → x.waiters = (s.sem y).waiters) :
    waiters { writeTasks s task with sem := update s.sem y x } o = waiters s o := by
  cases o with
  | mutex m => rfl
  | sem z =>
    simp only [waiters, update_apply]
    split_ifs with hz
    · rw [hx (hz ▸ rfl), hz]
    · rfl

/-- Only the mutex that is written to changes hands. -/
theorem owner_update (m : Nat) (x : RtMutex) (y : Nat) :
    (update s.mutex m x y).owner = (s.mutex y).owner ∨ (update s.mutex m x y).owner = x.owner := by
  rw [update_apply]
  split_ifs
  · exact .inr rfl
  · exact .inl rfl

variable (h : Kept s ring dead Q)
include h

/-- The current task is no null pointer. -/
theorem kept_current : s.rq.current ≠ 0 :=
  fun hc => h.ringOk.1.nonnull (hc ▸ h.ringOk.2.1)

/-- The queue of a mutex as the primitives see it. -/
theorem kept_mutex (m : Nat) :
    Linked (Rtos.nextOf (view s).task) 0 ((view s).mutex m).waiters (Q (.mutex m)) :=
  h.queue (.mutex m)

/-- The queue of a semaphore as the primitives see it. -/
theorem kept_sem (x : Nat) :
    Linked (Rtos.nextOf (view s).task) 0 (s.sem x).waiters (Q (.sem x)) :=
  h.queue (.sem x)

theorem mutexLock_kept {m : Nat} (hidle : s.rq.current ≠ idleTask)
    (hawake : (s.rq.task s.rq.current).state ≠ .blocked) (hcall : mutexLock fuel s m = some s') :
    ∃ Q', Kept s' ring dead Q' := by
  rcases Option.map_eq_some_iff.mp hcall with ⟨⟨rt, wait⟩, hlock, rfl⟩
  by_cases hlocked : ((view s).mutex m).locked = 0
  · -- A free mutex is taken by the current task.
    rcases Rtos.lock_free hlocked hlock with ⟨_, rfl⟩
    refine ⟨Q, kept_stays h ⟨writeTasks_links s _, rfl, fun _ => rfl, rfl,
      fun o => waiters_mutex _ fun _ => rfl, fun x _ => ?_⟩⟩
    exact (owner_update m _ x).imp_right fun hc => (congrArg (· ∈ ring) hc).mpr h.ringOk.2.1
  · rcases Rtos.lock_contended (kept_mutex h m) (kept_current h) (kept_awake h hawake _) hlocked
      hlock with ⟨_, s1, hqueued, hmutex, htask⟩
    have hkept := (Rtos.piPropagate_kept 8 s1 ((view s).mutex m).owner
      ((view s).task s.rq.current).priority).2
    have hnext : Rtos.nextOf rt.task = Rtos.nextOf s1.task := by
      rw [htask, Rtos.nextOf_setState]
      exact funext hkept.waitNext
    refine ⟨update Q (.mutex m) (Rtos.enqueue (view s).task s.rq.current (Q (.mutex m))),
      kept_joins h hidle hawake ⟨writeTasks_links s rt.task, rfl, ?_, fun t ht => ?_, ?_,
      fun t => Rtos.mem_enqueue (Q (.mutex m)), fun t ht hq => ?_, fun o ho => ?_, fun x => ?_⟩⟩
    · simp only [writeTasks, htask, Rtos.setState, update_self]
    · simp only [writeTasks, htask, Rtos.setState, update_of_ne ht]
      rw [hkept.state, hqueued.relinked.state, Rtos.setBlockedOn, update_of_ne ht]
      rfl
    · have hlinked := hqueued.linked
      rw [← hnext, ← hmutex] at hlinked
      exact hlinked
    · exact (congrFun hnext t).trans (hqueued.others t ht hq)
    · cases o with
      | mutex x =>
        have hx : x ≠ m := fun hc => ho (hc ▸ rfl)
        simp only [waiters, hmutex, hqueued.mutex_eq x hx, view]
      | sem x => rfl
    · by_cases hx : x = m
      · simp only [hx, hmutex, hqueued.owner_eq, view]
      · simp only [hmutex, hqueued.mutex_eq x hx, view]

theorem mutexUnlock_kept (m : Nat) :
    ∃ Q', Kept (mutexUnlock s m) ring dead Q' := by
  rcases hq : Q (.mutex m) with _ | ⟨w, rest⟩
  · -- nobody waits: the mutex becomes free and the queues stay
    have hhead : ((view s).mutex m).waiters = 0 := by
      have hlink := kept_mutex h m
      rw [hq] at hlink
      exact linked_nil.mp hlink
    have hset := Rtos.reprioritized_setPriority (view s).task s.rq.current
      ((view s).task s.rq.current).basePriority
    rw [mutexUnlock, Rtos.unlock_release hhead]
    refine ⟨Q, kept_stays h ⟨writeTasks_links s _, rfl, hset.state, funext hset.waitNext,
      fun o => waiters_mutex _ fun _ => rfl, fun x hx => ?_⟩⟩
    exact (owner_update m _ x).imp_right fun hc => absurd hc hx
  · -- the first waiter leaves the queue as the new owner
    have hlink := kept_mutex h m
    rw [hq] at hlink
    rcases linked_cons.mp hlink with ⟨hhead, hne, _⟩
    have hset := Rtos.reprioritized_setPriority (view s).task s.rq.current
      ((view s).task s.rq.current).basePriority
    rw [mutexUnlock, Rtos.unlock_handover (s := view s) hhead hne]
    refine ⟨_, kept_grants h hq ⟨writeTasks_links s _, rfl, ?_, fun t ht => ?_, ?_, fun t ht => ?_,
      fun o ho => waiters_mutex _ fun hc => absurd hc ho, owner_update m _⟩⟩
    · simp [writeTasks, Rtos.setState]
    · simp only [writeTasks, Rtos.setState, Rtos.setWaitNext, update_of_ne ht]
      exact hset.state t
    · simp [waiters, view]
    · simp only [writeTasks, Rtos.setState, Rtos.setWaitNext, update_of_ne ht]
      exact hset.waitNext t

theorem semWait_kept {x : Nat} (hidle : s.rq.current ≠ idleTask)
    (hawake : (s.rq.task s.rq.current).state ≠ .blocked) (hcall : semWait fuel s x = some s') :
    ∃ Q', Kept s' ring dead Q' := by
  rcases Option.map_eq_some_iff.mp hcall with ⟨⟨task, sem, wait⟩, hwait, rfl⟩
  rw [Rtos.rtSemWait] at hwait
  split at hwait
  · cases hwait
    exact ⟨Q, kept_stays h ⟨writeTasks_links s _, rfl, fun _ => rfl, rfl,
      fun o => waiters_sem _ fun _ => rfl, fun _ _ => .inl rfl⟩⟩
  · rcases Option.map_eq_some_iff.mp hwait with ⟨⟨task', head⟩, hins, heq⟩
    cases heq
    rcases Rtos.wqInsert_spec (kept_sem h x) (kept_current h) (kept_awake h hawake _) hins with
      ⟨hlinked, hrelinked, hothers⟩
    refine ⟨update Q (.sem x) (Rtos.enqueue (view s).task s.rq.current (Q (.sem x))),
      kept_joins h hidle hawake ⟨writeTasks_links s _, rfl, ?_, fun t ht => ?_, ?_,
      fun t => Rtos.mem_enqueue (Q (.sem x)), fun t ht hq => ?_,
      fun o ho => waiters_sem _ fun hc => absurd hc ho, fun _ => rfl⟩⟩
    · simp [writeTasks, Rtos.setState]
    · simp only [writeTasks, Rtos.setState, update_of_ne ht]
      exact hrelinked.state t
    · simp only [waiters, update_self]
      rw [← Rtos.nextOf_setState task' s.rq.current .blocked] at hlinked
      exact hlinked
    · exact (congrFun (Rtos.nextOf_setState task' s.rq.current .blocked) t).trans (hothers t ht hq)

theorem semPost_kept (x : Nat) : ∃ Q', Kept (semPost s x) ring dead Q' := by
  have hlink := kept_sem h x
  rcases hq : Q (.sem x) with _ | ⟨w, rest⟩
  · rw [hq] at hlink
    have hhead := linked_nil.mp hlink
    rw [semPost, Rtos.rtSemPost, if_neg (not_not_intro hhead)]
    exact ⟨Q, kept_stays h ⟨writeTasks_links s _, rfl, fun _ => rfl, rfl,
      fun o => waiters_sem _ fun _ => rfl, fun _ _ => .inl rfl⟩⟩
  · rw [hq] at hlink
    rcases linked_cons.mp hlink with ⟨hhead, hne, _⟩
    rw [semPost, Rtos.rtSemPost, hhead, if_pos hne]
    refine ⟨_, kept_grants h hq ⟨writeTasks_links s _, rfl, ?_, fun t ht => ?_, ?_, fun t ht => ?_,
      fun o ho => waiters_sem _ fun hc => absurd hc ho, fun _ => .inl rfl⟩⟩
    · simp [writeTasks, Rtos.setState]
    · simp only [writeTasks, Rtos.setState, Rtos.setWaitNext, update_of_ne ht, view]
    · simp [waiters, view]
    · simp only [writeTasks, Rtos.setState, Rtos.setWaitNext, update_of_ne ht, view]

end

section

variable {c : RunQueue.Call}

variable (src : Pages σ) (img : KernelImage)
variable {s s' : RtKernel σ} {ring dead : List Nat} {Q : RtObject → List Nat} {fuel : Nat}

/-- The record that a call takes from the heap is not on the ring. -/
theorem newRecord_unused (h : RingOk s.rq ring dead) (hallowed : RunQueue.Allowed s.rq c)
    (hnew : newRecord c ≠ 0) : newRecord c ∉ ring := by
  have hfresh : ∀ {t : Nat}, t ≠ 0 → (t = 0 ∨ RunQueue.Fresh s.rq t) → t ∉ ring := by
    intro t ht hor
    rcases hor.resolve_left ht with ⟨hidle, hcount⟩
    exact (RunQueue.fresh_unused h.1 hidle hcount).1
  cases c with
  | createKernelTask t entry => exact hfresh hnew hallowed
  | createTask t fdsOk entry => exact hfresh hnew hallowed
  | fork t fdsOk parent frame =>
    rw [newRecord] at hnew ⊢
    split at hnew
    · exact absurd rfl hnew
    · rename_i hgiven
      rw [if_neg hgiven]
      exact hfresh hnew hallowed
  | _ => exact absurd rfl hnew

theorem schedCall_cases (hcall : schedCall src img fuel s c = some s') :
    RunQueue.call src img fuel s.rq c = some s'.rq ∧ s'.mutex = s.mutex ∧ s'.sem = s.sem ∧
      ∀ t, (newRecord c = 0 ∨ t ≠ newRecord c) → s'.waitNext t = s.waitNext t := by
  rcases Option.map_eq_some_iff.mp hcall with ⟨rq, hrun, rfl⟩
  split
  · exact ⟨hrun, rfl, rfl, fun _ _ => rfl⟩
  · rename_i hnew
    refine ⟨hrun, rfl, rfl, fun t ht => ?_⟩
    exact update_of_ne (ht.resolve_left hnew) _ _

/-- An operation of the scheduler that ends no owner and no waiting task. -/
theorem schedCall_kept (h : Kept s ring dead Q) (hallowed : Allowed s (.sched c))
    (hring : RunQueue.Allowed s.rq c) (hcareful : Careful fuel s (.sched c))
    (hcall : schedCall src img fuel s c = some s') :
    ∃ ring' dead', Kept s' ring' dead' Q := by
  rcases schedCall_cases src img hcall with ⟨hrun, hmutex, hsem, hnext⟩
  have hspares := RunQueue.call_spares src img h.ringOk hring hrun
  rcases RunQueue.call_stays src img h.ringOk hring hrun with ⟨ring', dead', hok, hstays⟩
  have hheads : ∀ o, waiters s' o = waiters s o := by
    intro o
    cases o with
    | mutex m => simp only [waiters, hmutex]
    | sem x => simp only [waiters, hsem]
  have hwaits : ∀ o t, t ∈ Q o → RunQueue.victim fuel s.rq c ≠ some t := fun o t ht hc =>
    hcareful t hc (.inr ⟨o, (kept_waits h o t).mpr ht⟩)
  refine ⟨ring', dead', hok, fun o => ?_, fun o t ht => ?_, h.apart, fun m hm => ?_⟩
  · rw [hheads o]
    refine linked_congr (fun t ht => hnext t ?_) (h.queue o)
    -- A record from the heap is not on the ring, and who waits is.
    by_cases hnew : newRecord c = 0
    · exact .inl hnew
    · refine .inr fun hc => newRecord_unused h.ringOk hring hnew ?_
      rw [← hc]
      exact (h.blocked o t ht).1
  · rcases h.blocked o t ht with ⟨hmem, hidle, hblocked⟩
    refine ⟨hstays t hmem (hwaits o t ht), hidle, ?_⟩
    refine hspares.blocked t hmem hidle hblocked (hwaits o t ht) fun hstirs => ?_
    cases c with
    | sleepMs now ms sp => exact hallowed (hstirs ▸ hblocked)
    | makeReady u => exact hallowed
    | _ => exact hstirs
  · rw [hmutex] at hm ⊢
    exact hstays _ (h.owner m hm) fun hc => hcareful _ hc (.inl ⟨m, rfl⟩)

/-- Of the scheduler's operations none is allowed here that was not before. -/
theorem allowed_ring (hallowed : Allowed s (.sched c)) :
    RunQueue.Allowed s.rq c := by
  cases c with
  | sleepMs now ms sp => trivial
  | makeReady t => trivial
  | _ => exact hallowed

theorem kept_call {c : RtCall} (h : Kept s ring dead Q) (hallowed : Allowed s c)
    (hcareful : Careful fuel s c) (hcall : rtCall src img fuel s c = some s') :
    ∃ ring' dead' Q', Kept s' ring' dead' Q' := by
  cases c with
  | mutexLock m => exact ⟨ring, dead, mutexLock_kept h hallowed.1 hallowed.2 hcall⟩
  | mutexLockResume =>
    cases hcall
    have hfield : ∀ t, (Rtos.setBlockedOn (view s).task s.rq.current 0 t).state
        = ((view s).task t).state := Rtos.update_field rfl
    refine ⟨ring, dead, Q, kept_stays h ⟨writeTasks_links s _, rfl, hfield, ?_, fun o => ?_,
      fun _ _ => .inl rfl⟩⟩
    · exact Rtos.nextOf_setBlockedOn (view s).task s.rq.current 0
    · cases o <;> rfl
  | mutexUnlock m =>
    cases hcall
    exact ⟨ring, dead, mutexUnlock_kept h m⟩
  | semWait x => exact ⟨ring, dead, semWait_kept h hallowed.1 hallowed.2 hcall⟩
  | semPost x =>
    cases hcall
    exact ⟨ring, dead, semPost_kept h x⟩
  | sched c =>
    rcases schedCall_kept src img h hallowed (allowed_ring hallowed) hcareful hcall with
      ⟨ring', dead', hkept⟩
    exact ⟨ring', dead', Q, hkept⟩

/-- A task that is ended is dead afterwards, whoever points at it. -/
theorem call_unsound {c : RtCall} {t : Nat} (h : Kept s ring dead Q) (hallowed : Allowed s c)
    (hcall : rtCall src img fuel s c = some s') (hvictim : victim fuel s c = some t)
    (hbound : Encumbered s t) : ¬WaitsSound s' := by
  intro hsound
  cases c with
  | sched c =>
    rcases schedCall_cases src img hcall with ⟨hrun, hmutex, hsem, hnext⟩
    have hspares := RunQueue.call_spares src img h.ringOk (allowed_ring hallowed) hrun
    have hvictim' : RunQueue.victim fuel s.rq c = some t := hvictim
    -- An operation that ends a task takes no record from the heap.
    have hsame : s'.waitNext = s.waitNext := by
      refine funext fun u => hnext u (.inl ?_)
      cases c with
      | createKernelTask t entry => cases hvictim'
      | createTask t fdsOk entry => cases hvictim'
      | fork t fdsOk parent frame => cases hvictim'
      | _ => rfl
    have hmem := RunQueue.victim_mem h.ringOk hvictim'
    have hdead := (hspares.dead t hmem).mpr hvictim'
    rcases hbound with ⟨m, hm⟩ | ⟨o, hw⟩
    · have hon := hsound.owners m
      rw [hmutex, hm] at hon
      exact (hon fun hc => h.ringOk.1.nonnull (hc ▸ hmem)).2 hdead
    · refine (hsound.waiting o t ?_).2 hdead
      cases o <;> simpa only [Waits, waiters, hmutex, hsem, hsame] using hw
  | _ => cases hvictim

theorem init_kept (m : Machine σ) (count : Nat → Int) :
    Kept (init m count) [idleTask] [] fun _ => [] := by
  refine ⟨RunQueue.init_ok m, fun o => ?_, nofun,
    nofun, fun m hm => absurd rfl hm⟩
  cases o <;> exact linked_nil.mpr rfl

theorem run_kept {m : Machine σ} {count : Nat → Int}
    (hrun : ReflTransGen (CarefulStep src img) (init m count) s) :
    ∃ ring dead Q, Kept s ring dead Q := by
  induction hrun with
  | refl => exact ⟨_, _, _, init_kept m count⟩
  | tail _ hstep ih =>
    rcases ih with ⟨ring, dead, Q, hkept⟩
    cases hstep with
    | call fuel c hallowed hcareful hcall => exact kept_call src img hkept hallowed hcareful hcall
    | work m task hsame =>
      refine ⟨ring, dead, Q, kept_stays hkept ⟨⟨rfl, rfl, rfl, rfl, (hsame idleTask).1⟩, rfl,
        fun t => (hsame t).2, rfl, fun o => ?_, fun _ _ => .inl rfl⟩⟩
      cases o <;> rfl

/-- In every run that ends no owner of a mutex and no waiting task, owners and
    waiting tasks are on the run queue and alive. After one more operation they
    still are, exactly if that one ends no such task either. -/
theorem waits_sound_iff (m : Machine σ) (count : Nat → Int) (s : RtKernel σ)
    (hrun : ReflTransGen (CarefulStep src img) (init m count) s) :
    WaitsSound s ∧ ∀ (fuel : Nat) (c : RtCall) (s' : RtKernel σ), Allowed s c →
      rtCall src img fuel s c = some s' → (WaitsSound s' ↔ Careful fuel s c) := by
  rcases run_kept src img hrun with ⟨ring, dead, Q, hkept⟩
  refine ⟨kept_sound hkept, fun fuel c s' hallowed hcall => ⟨fun hsound t hvictim hbound => ?_, ?_⟩⟩
  · exact call_unsound src img hkept hallowed hcall hvictim hbound hsound
  · intro hcareful
    rcases kept_call src img hkept hallowed hcareful hcall with ⟨ring', dead', Q', hkept'⟩
    exact kept_sound hkept'

end

section

variable (src : Pages σ) (img : KernelImage)

instance decidableAllowed (s : RtKernel σ) : (c : RtCall) → Decidable (Allowed s c)
  | .mutexLock _ => inferInstanceAs (Decidable (_ ∧ _))
  | .semWait _ => inferInstanceAs (Decidable (_ ∧ _))
  | .mutexLockResume => isTrue trivial
  | .mutexUnlock _ => isTrue trivial
  | .semPost _ => isTrue trivial
  | .sched (.sleepMs _ _ _) => inferInstanceAs (Decidable (¬_))
  | .sched (.makeReady _) => isFalse id
  | .sched (.createKernelTask t entry) => RunQueue.decidableAllowed s.rq (.createKernelTask t entry)
  | .sched (.createTask t fdsOk entry) => RunQueue.decidableAllowed s.rq (.createTask t fdsOk entry)
  | .sched (.fork t fdsOk parent frame) =>
      RunQueue.decidableAllowed s.rq (.fork t fdsOk parent frame)
  | .sched (.taskExit sp) => RunQueue.decidableAllowed s.rq (.taskExit sp)
  | .sched (.schedule _) => isTrue trivial
  | .sched (.killTask _ _) => isTrue trivial
  | .sched (.wakeSleepers _) => isTrue trivial
  | .sched (.blockCurrent _) => isTrue trivial
  | .sched .reap => isTrue trivial

/-- The state after some operations, without those that may not be called. -/
def runRt (fuel : Nat) (s : RtKernel σ) (cs : List RtCall) : RtKernel σ :=
  cs.foldl (fun s c => if Allowed s c then (rtCall src img fuel s c).getD s else s) s

/-- A run of operations is a run of steps of any kind that they are of. -/
theorem runRt_steps {R : RtKernel σ → RtKernel σ → Prop} (fuel : Nat) (cs : List RtCall)
    (hstep : ∀ c ∈ cs, ∀ s s', Allowed s c → rtCall src img fuel s c = some s' → R s s') :
    ∀ s : RtKernel σ, ReflTransGen R s (runRt src img fuel s cs) := by
  induction cs with
  | nil => exact fun s => .refl
  | cons c cs ih =>
    intro s
    have hrest := ih fun c hc => hstep c (List.mem_cons_of_mem _ hc)
    rw [runRt, List.foldl_cons]
    split
    case isTrue hallowed =>
      rcases hcall : rtCall src img fuel s c with _ | s'
      · exact hrest s
      · exact .head (hstep c List.mem_cons_self s s' hallowed hcall) (hrest s')
    case isFalse => exact hrest s

theorem runRt_reaches (fuel : Nat) (cs : List RtCall) (s : RtKernel σ) :
    ReflTransGen (RtStep src img) s (runRt src img fuel s cs) :=
  runRt_steps src img fuel cs (fun c _ _ _ hallowed hcall => .call fuel c hallowed hcall) s

/-- The operation ends no task in any state. -/
def quiet : RtCall → Bool
  | .sched (.taskExit _) => false
  | .sched (.killTask _ _) => false
  | _ => true

theorem quiet_careful {c : RtCall} (h : quiet c = true) (fuel : Nat) (s : RtKernel σ) :
    Careful fuel s c := by
  intro t ht
  cases c with
  | sched c =>
    cases c with
    | taskExit sp => cases h
    | killTask pid sp => cases h
    | _ => cases ht
  | _ => cases ht

theorem runRt_careful (fuel : Nat) (cs : List RtCall) (hquiet : cs.all quiet = true)
    (s : RtKernel σ) : ReflTransGen (CarefulStep src img) s (runRt src img fuel s cs) := by
  refine runRt_steps src img fuel cs (fun c hc s s' hallowed hcall => ?_) s
  exact .call fuel c hallowed (quiet_careful (List.all_eq_true.mp hquiet c hc) fuel s) hcall

end

/-- Of two tasks, one has locked a mutex and the other waits for it. -/
def contended : RtKernel Pmm.Allocator :=
  runRt Pmm.pmmSource Sched.bootImage 8 (init Sched.bootMachine fun _ => 0)
    [.sched (.createKernelTask 2 0), .sched (.createKernelTask 3 0), .sched (.schedule 0),
      .mutexLock 100, .sched (.schedule 0), .mutexLock 100, .sched (.schedule 0)]

theorem waits_sound_contended :
    contended.mutex 100 = ⟨2, 3, 1⟩ ∧ WaitsSound contended ∧
      ∀ (fuel : Nat) (c : RtCall) (s' : RtKernel Pmm.Allocator), Allowed contended c →
        rtCall Pmm.pmmSource Sched.bootImage fuel contended c = some s' →
          (WaitsSound s' ↔ Careful fuel contended c) := by
  refine ⟨by decide +kernel, ?_⟩
  exact waits_sound_iff Pmm.pmmSource Sched.bootImage Sched.bootMachine (fun _ => 0) contended
    (runRt_careful _ _ 8 _ (by decide) _)

/-- The owner kills the task that waits, by its number, and a call of `schedule`
    gives the record back. -/
def slain : RtKernel Pmm.Allocator :=
  runRt Pmm.pmmSource Sched.bootImage 8 contended [.sched (.killTask 2 0), .sched (.schedule 0)]

/-- The task that was killed is still on the wait queue after its record was
    released, and the unlock writes to the record and makes it the owner. -/
theorem killed_waiter :
    ReflTransGen (RtStep Pmm.pmmSource Sched.bootImage)
        (init Sched.bootMachine fun _ => 0) slain ∧
      Waits slain (.mutex 100) 3 ∧ (slain.rq.task 3).state = .dead ∧ slain.rq.released = [3] ∧
      ¬WaitsSound slain ∧ ((mutexUnlock slain 100).rq.task 3).state = .ready ∧
      ((mutexUnlock slain 100).mutex 100).owner = 3 := by
  have hwaits : Waits slain (.mutex 100) 3 := by
    refine ⟨0, by decide +kernel, fun k hk => ?_⟩
    rw [Nat.le_zero.mp hk]
    decide +kernel
  have hdead : (slain.rq.task 3).state = .dead := by decide +kernel
  refine ⟨?_, hwaits, hdead, by decide +kernel, ?_, by decide +kernel, by decide +kernel⟩
  · exact (runRt_reaches Pmm.pmmSource Sched.bootImage 8 _ _).trans
      (runRt_reaches _ _ 8 _ contended)
  · exact fun hsound => (hsound.waiting _ _ hwaits).2 hdead

end CortexForge.RtKernel
