import CortexForge.Theory.RtQueues
import Mathlib.Data.List.Perm.Basic

/-!
# One Mutex

The contract of a single mutex, in every state that tasks can reach by locking and
unlocking it in any order.

With one mutex there are no blocking chains, so a boost ends at the owner. The
owner's priority is therefore the largest of its own and those on the queue, and
as the queue is in order, the task that the mutex is handed to needs no boost when
it becomes the owner.

## Main definitions

* `Before`: One task is served before another.
* `Contract`: What holds of a mutex and its queue.
* `MutexStep`: A step of tasks that use one mutex.

## Theorems

* `piPropagate_owner`: A boost that ends at the owner.
* `mutex_contract`: The contract in every reachable state.
-/

namespace CortexForge.Rtos

open Function List

section

/-- Without a chain, a boost raises the owner only. An owner that was just handed
    the mutex may still be marked as waiting for it, which the second turn sees. -/
theorem piPropagate_owner {s : Rtos} {m owner : Nat} (depth prio : Nat) (howner : owner ≠ 0)
    (hself : (s.mutex m).owner = owner)
    (hon : (s.task owner).blockedOn = 0 ∨ (s.task owner).blockedOn = m) (t : Nat) :
    ((piPropagate (depth + 2) s owner prio).task t).priority
      = if t = owner then max (s.task owner).priority prio else (s.task t).priority := by
  rw [piPropagate, if_neg howner]
  by_cases hle : prio ≤ (s.task owner).priority
  · rw [if_pos hle, Nat.max_eq_left hle]
    split_ifs with ht
    · rw [ht]
    · rfl
  have hset := setPriority_priority s.task owner prio
  have hfield := (reprioritized_setPriority s.task owner prio).blockedOn owner
  rw [if_neg hle, Nat.max_eq_right (Nat.le_of_not_le hle), ← hset t]
  simp only [hfield]
  split_ifs with hfree
  · rfl
  · rw [hon.resolve_left hfree, hself, piPropagate, if_neg howner, if_pos]
    rw [hset owner, if_pos rfl]

theorem foldr_max_of_le (b : Nat) (xs : List Nat) (h : ∀ x ∈ xs, x ≤ b) : xs.foldr max b = b := by
  induction xs with
  | nil => rfl
  | cons x xs ih =>
    simp [ih fun y hy => h y (mem_cons_of_mem x hy), Nat.max_eq_right (h x mem_cons_self)]

end

/-- `a` is served before `b`: by its priority, and then by the time of its call. -/
def Before (s : RtSys) (m a b : Nat) : Prop :=
  (s.rt.task b).priority < (s.rt.task a).priority ∨
    (s.rt.task a).priority = (s.rt.task b).priority ∧
      ∃ i j, s.since m a = some i ∧ s.since m b = some j ∧ i < j

/-- The contract of a mutex whose queue is `q`. -/
structure Contract (s : RtSys) (m : Nat) (q : List Nat) : Prop where
  queue : Linked (nextOf s.rt.task) 0 (s.rt.mutex m).waiters q
  locked : (s.rt.mutex m).locked = 1 ↔ (s.rt.mutex m).owner ≠ 0
  /-- Who has called lock and not unlocked is the owner or on the queue. -/
  inside : ∀ t, s.since m t ≠ none ↔ t ≠ 0 ∧ ((s.rt.mutex m).owner = t ∨ t ∈ q)
  owner_not_waiting : (s.rt.mutex m).owner ∉ q
  once : q.Nodup
  blocked : ∀ t ∈ q, (s.rt.task t).state = .blocked
  ordered : q.Pairwise (Before s m)
  boosted : (s.rt.mutex m).owner ≠ 0 → (s.rt.task (s.rt.mutex m).owner).priority
    = (q.map fun t => (s.rt.task t).priority).foldr max
        (s.rt.task (s.rt.mutex m).owner).basePriority
  at_base : ∀ t, t ≠ 0 → t ≠ (s.rt.mutex m).owner →
    (s.rt.task t).priority = (s.rt.task t).basePriority

/-- Tasks use the mutex `m` and no other; who owns it or waits for it does not lock
    it again. -/
inductive MutexStep (m : Nat) (s s' : RtSys) : Prop
  | lock (me : Nat) (hnew : s.since m me = none) (hstep : RtStep s (.lock m me) s')
  | resume (me : Nat) (hstep : RtStep s (.resume me) s')
  | unlock (me : Nat) (hstep : RtStep s (.unlock m me) s')
  | move (t : Nat) (state : TaskState) (hstep : RtStep s (.move t state) s')

/-- Nobody has used a mutex yet, and all tasks run at their base priority. -/
structure Fresh (s : RtSys) : Prop where
  mutex : ∀ m, s.rt.mutex m = {}
  pc : ∀ t, s.pc t = .running
  since : ∀ m t, s.since m t = none
  blockedOn : ∀ t, (s.rt.task t).blockedOn = 0
  priority : ∀ t, (s.rt.task t).priority = (s.rt.task t).basePriority

/-- The invariant of tasks that use one mutex. -/
structure Single (s : RtSys) (m : Nat) (Q : Nat → List Nat) : Prop where
  shape : Shape s Q
  -- With one mutex there are no chains, which is what `piPropagate_owner` asks for.
  only : ∀ t, (s.rt.task t).blockedOn = 0 ∨ (s.rt.task t).blockedOn = m
  inside : ∀ t, s.since m t ≠ none ↔ t ≠ 0 ∧ ((s.rt.mutex m).owner = t ∨ t ∈ Q m)
  owner_not_waiting : (s.rt.mutex m).owner ∉ Q m
  -- A caller that comes now is later than everybody inside.
  stamped : ∀ t i, s.since m t = some i → i < s.clock
  ordered : (Q m).Pairwise (Before s m)
  boosted : (s.rt.mutex m).owner ≠ 0 → (s.rt.task (s.rt.mutex m).owner).priority
    = ((Q m).map fun t => (s.rt.task t).priority).foldr max
        (s.rt.task (s.rt.mutex m).owner).basePriority
  at_base : ∀ t, t ≠ 0 → t ≠ (s.rt.mutex m).owner →
    (s.rt.task t).priority = (s.rt.task t).basePriority

section

variable {s s' : RtSys} {m me t fuel : Nat} {Q : Nat → List Nat} {rt : Rtos}

theorem contract_of_single (h : Single s m Q) : Contract s m (Q m) := by
  refine ⟨h.shape.queue m, ⟨fun hlocked => ?_, fun howner => ?_⟩, h.inside, h.owner_not_waiting,
    linked_nodup (h.shape.queue m), fun t ht => (h.shape.waiting m t ht).1, h.ordered,
    h.boosted, h.at_base⟩
  · exact (h.shape.held m (by rw [hlocked]; exact Nat.one_ne_zero)).2
  · refine (h.shape.held m fun hc => howner ?_).1
    exact (h.shape.free m hc).1

theorem record_self (since : Nat → Nat → Option Nat) (m me : Nat) (time : Option Nat) :
    record since m me time m = update (since m) me time := update_self _ _ _

/-- A queue ordered by service is ordered by priority. -/
theorem sorted_of_before {q : List Nat} (h : q.Pairwise (Before s m)) :
    q.Pairwise fun a b => (s.rt.task b).priority ≤ (s.rt.task a).priority :=
  h.imp fun hab => hab.elim Nat.le_of_lt fun hab => Nat.le_of_eq hab.1.symm

/-- The order of service depends on priorities and times of calls only. -/
theorem before_congr {q : List Nat} (h : q.Pairwise (Before s m))
    (hprio : ∀ t ∈ q, (s'.rt.task t).priority = (s.rt.task t).priority)
    (hsince : ∀ t ∈ q, s'.since m t = s.since m t) : q.Pairwise (Before s' m) := by
  refine h.imp_of_mem fun {a b} ha hb hab => ?_
  unfold Before
  rw [hprio a ha, hprio b hb, hsince a ha, hsince b hb]
  exact hab

variable (h : Single s m Q)
include h

/-- A call is stamped with a time before the next one. -/
theorem stamped_record {i : Nat} (hi : record s.since m me (some s.clock) m t = some i) :
    i < s.clock + 1 := by
  rw [record_self, update_apply] at hi
  split_ifs at hi
  · exact Option.some.inj hi ▸ Nat.lt_succ_self _
  · exact Nat.lt_succ_of_lt (h.stamped t i hi)

theorem single_take {wait : Bool} (hme : me ≠ 0) (hlocked : (s.rt.mutex m).locked = 0)
    (hcall : rtMutexLock fuel s.rt m me = some (rt, wait)) :
    Single ⟨rt, if wait then update s.pc me (.locking m) else s.pc,
      record s.since m me (some s.clock), s.clock + 1⟩ m Q := by
  rcases lock_free hlocked hcall with ⟨rfl, rfl⟩
  rcases h.shape.free m hlocked with ⟨howner, hempty⟩
  refine ⟨shape_take h.shape hme hlocked, h.only, fun t => ?_, ?_, fun t i hi => ?_, ?_,
    fun _ => ?_, fun t hne _ => h.at_base t hne fun hc => hne (hc.trans howner)⟩
  · -- Before the call nobody was inside.
    have hout : s.since m t = none := by grind [h.inside t]
    simp only [record_self]
    grind
  · rw [hempty]
    exact not_mem_nil
  · exact stamped_record h hi
  · rw [hempty]
    exact List.Pairwise.nil
  · simp only [update_self, hempty]
    exact h.at_base me hme fun hc => hme (hc.trans howner)

/-- What a lock that has to wait does to the priorities: the owner has at least that of
    the caller now. -/
structure Boosted (s : Rtos) (m me : Nat) (rt : Rtos) : Prop where
  priority : ∀ t, (rt.task t).priority = if t = (s.mutex m).owner then
    max (s.task (s.mutex m).owner).priority (s.task me).priority else (s.task t).priority
  basePriority : ∀ t, (rt.task t).basePriority = (s.task t).basePriority
  blockedOn : ∀ t, (rt.task t).blockedOn = (setBlockedOn s.task me m t).blockedOn
  owner : (rt.mutex m).owner = (s.mutex m).owner

theorem single_boosted {s1 : Rtos} (hlocked : (s.rt.mutex m).locked ≠ 0)
    (hother : (s.rt.mutex m).owner ≠ me) (hqueued : Queued s.rt m me (Q m) s1)
    (hmutex : rt.mutex = s1.mutex)
    (htask : rt.task = setState (piPropagate 8 s1 (s.rt.mutex m).owner
      (s.rt.task me).priority).task me .blocked) : Boosted s.rt m me rt := by
  have howner := (h.shape.held m hlocked).2
  have hkept := (piPropagate_kept 8 s1 (s.rt.mutex m).owner (s.rt.task me).priority).2
  have hsame : ∀ t, (s1.task t).priority = (s.rt.task t).priority := fun t => by
    rw [hqueued.relinked.priority]
    exact update_field (by rfl) t
  refine ⟨fun t => ?_, fun t => ?_, fun t => ?_, ?_⟩
  · -- The owner waits for nothing else, so the boost ends there.
    have honly : (s1.task (s.rt.mutex m).owner).blockedOn = 0 ∨
        (s1.task (s.rt.mutex m).owner).blockedOn = m := by
      rw [hqueued.relinked.blockedOn, setBlockedOn, update_of_ne hother]
      exact h.only _
    have hboost := piPropagate_owner 6 (s.rt.task me).priority howner hqueued.owner_eq honly t
    rw [hsame, hsame] at hboost
    rw [htask, setState_priority]
    exact hboost
  · rw [htask, setState_basePriority, hkept.basePriority, hqueued.relinked.basePriority]
    exact update_field (by rfl) t
  · rw [htask, setState_blockedOn, hkept.blockedOn, hqueued.relinked.blockedOn]
  · rw [hmutex]
    exact hqueued.owner_eq

/-- The queue after a lock that has to wait. The caller is behind its equals, who called
    before. -/
theorem boosted_ordered (hnot : me ∉ Q m)
    (hwaiters : ∀ t ∈ enqueue s.rt.task me (Q m), (rt.task t).priority = (s.rt.task t).priority)
    {pc : Nat → RtPc} :
    (enqueue s.rt.task me (Q m)).Pairwise
      (Before ⟨rt, pc, record s.since m me (some s.clock), s.clock + 1⟩ m) := by
  have hsince : ∀ t ∈ Q m, record s.since m me (some s.clock) m t = s.since m t := fun t ht => by
    have hne : t ≠ me := fun hc => hnot (hc ▸ ht)
    rw [record_self, update_of_ne hne]
  have hpm := hwaiters me ((mem_enqueue _).mpr (.inl rfl))
  have hpq : ∀ b ∈ Q m, (rt.task b).priority = (s.rt.task b).priority := fun b hb =>
    hwaiters b ((mem_enqueue _).mpr (.inr hb))
  refine pairwise_enqueue (Q m) (before_congr h.ordered hpq hsince) (sorted_of_before h.ordered)
    (fun b hb hle => ?_) fun b hb hlt => .inl ?_
  · rcases Nat.lt_or_eq_of_le hle with hlt | heq
    · refine .inl ?_
      rw [hpq b hb, hpm]
      exact hlt
    -- Of equals the one on the queue has called before.
    · have hinside := (h.inside b).mpr ⟨fun hc => (h.shape.queue m).2 (hc ▸ hb), .inr hb⟩
      rcases Option.ne_none_iff_exists'.mp hinside with ⟨i, hi⟩
      refine .inr ⟨?_, i, s.clock, ?_, ?_, h.stamped b i hi⟩
      · rw [hpq b hb, hpm, heq]
      · exact (hsince b hb).trans hi
      · simp [record_self]
  · rw [hpq b hb, hpm]
    exact hlt

theorem single_wait {wait : Bool} (hm : m ≠ 0) (hme : me ≠ 0) (hpc : s.pc me = .running)
    (hnew : s.since m me = none) (hlocked : (s.rt.mutex m).locked ≠ 0)
    (hcall : rtMutexLock fuel s.rt m me = some (rt, wait)) :
    Single ⟨rt, if wait then update s.pc me (.locking m) else s.pc,
      record s.since m me (some s.clock), s.clock + 1⟩ m
      (update Q m (enqueue s.rt.task me (Q m))) := by
  have hnot := shape_not_waiting h.shape hpc m
  -- The caller is not the owner, who does not lock again.
  have hother : (s.rt.mutex m).owner ≠ me := fun hc =>
    (h.inside me).mpr ⟨hme, .inl hc⟩ hnew
  rcases lock_contended (h.shape.queue m) hme hnot hlocked hcall with
    ⟨rfl, s1, hqueued, hmutex, htask⟩
  have hboost := single_boosted h hlocked hother hqueued hmutex htask
  -- Nobody on the queue is the owner, so their priorities stay.
  have hwaiters : ∀ t ∈ enqueue s.rt.task me (Q m),
      (rt.task t).priority = (s.rt.task t).priority := fun t ht => by
    rw [hboost.priority, if_neg]
    rintro rfl
    rcases (mem_enqueue (Q m)).mp ht with hc | hc
    · exact hother hc
    · exact h.owner_not_waiting hc
  refine ⟨shape_wait h.shape hm hme hpc hlocked hqueued hmutex htask, fun t => ?_, fun t => ?_, ?_,
    fun t i hi => ?_, ?_, fun _ => ?_, fun t hne ht => ?_⟩
  · have honly := h.only t
    simp only [hboost.blockedOn, setBlockedOn]
    grind
  · have hinside := h.inside t
    simp only [record_self, update_self, hboost.owner, mem_enqueue]
    grind
  · simp only [hboost.owner, update_self, mem_enqueue, not_or]
    exact ⟨hother, h.owner_not_waiting⟩
  · exact stamped_record h hi
  · rw [update_self]
    exact boosted_ordered h hnot hwaiters
  · -- The caller's priority joins the maximum.
    have howner := (h.shape.held m hlocked).2
    simp only [hboost.owner, update_self]
    rw [hboost.priority, if_pos rfl, hboost.basePriority, map_congr_left hwaiters,
      ((perm_enqueue (Q m)).map _).foldr_op_eq, map_cons, foldr_cons, ← h.boosted howner,
      Nat.max_comm]
  · simp only [hboost.owner] at ht
    rw [hboost.priority, if_neg ht, hboost.basePriority]
    exact h.at_base t hne ht

/-- A step that leaves priorities, owners and queues alone. -/
theorem single_quiet (hshape : Shape s' Q)
    (hprio : ∀ t, (s'.rt.task t).priority = (s.rt.task t).priority)
    (hbase : ∀ t, (s'.rt.task t).basePriority = (s.rt.task t).basePriority)
    (hon : ∀ t, (s'.rt.task t).blockedOn = 0 ∨
      (s'.rt.task t).blockedOn = (s.rt.task t).blockedOn)
    (hmutex : s'.rt.mutex = s.rt.mutex) (hsince : s'.since = s.since)
    (hclock : s'.clock = s.clock) : Single s' m Q := by
  have hordered : (Q m).Pairwise (Before s' m) :=
    before_congr h.ordered (fun t _ => hprio t) fun t _ => by rw [hsince]
  obtain ⟨-, only, inside, outside, stamped, -, boosted, base⟩ := h
  refine ⟨hshape, fun t => ?_, ?_, ?_, ?_, hordered, ?_, ?_⟩
  · grind [hon t]
  all_goals
    simp only [hsince, hmutex, hclock, hprio, hbase]
    assumption

theorem single_resume (hstate : (s.rt.task me).state = .running) :
    Single { s with rt := rtMutexLockResume s.rt me, pc := update s.pc me .running } m Q := by
  refine single_quiet h (shape_resume h.shape hstate) (update_field rfl)
    (update_field rfl) (fun t => ?_) rfl rfl rfl
  simp only [rtMutexLockResume, setBlockedOn, update_apply]
  split_ifs
  · exact .inl rfl
  · exact .inr rfl

theorem single_move {state : TaskState} (hold : (s.rt.task t).state ≠ .blocked) :
    Single { s with rt := { s.rt with task := setState s.rt.task t state } } m Q :=
  single_quiet h (shape_move h.shape hold) (setState_priority s.rt.task t state)
    (setState_basePriority s.rt.task t state)
    (fun x => .inr (setState_blockedOn s.rt.task t state x)) rfl rfl rfl

theorem single_unlock (hpc : s.pc me = .running) (howner : (s.rt.mutex m).owner = me) :
    Single { s with rt := rtMutexUnlock s.rt m me, since := record s.since m me none } m
      (update Q m (Q m).tail) := by
  have hprio := unlock_priority s.rt m me
  have hkept := unlock_kept s.rt m me
  have hnew := unlock_owner (h.shape.queue m) me
  -- Whatever happens on the queue does not concern the caller.
  have hout : me ∉ Q m := howner ▸ h.owner_not_waiting
  have hnodup := linked_nodup (h.shape.queue m)
  have hzero : 0 ∉ Q m := (h.shape.queue m).2
  refine ⟨shape_unlock h.shape hpc howner, fun t => ?_, fun t => ?_, ?_, fun t i hi => ?_, ?_,
    fun hheld => ?_, fun t hne ht => ?_⟩
  · rw [(hkept t).2]
    exact h.only t
  · -- Inside are those who waited; the first of them is the owner now.
    have hinside := h.inside t
    simp only [record_self]
    rcases hq : Q m with _ | ⟨w, rest⟩ <;> grind
  · rcases hq : Q m with _ | ⟨w, rest⟩ <;> grind
  · have hstamped := h.stamped t i
    simp only [record_self] at hi
    grind
  · rw [update_self]
    refine before_congr (h.ordered.sublist (tail_sublist _)) (fun t ht => ?_) fun t ht => ?_
    · have hne : t ≠ me := fun hc => hout (hc ▸ mem_of_mem_tail ht)
      simp [hprio, hne]
    · have hne : t ≠ me := fun hc => hout (hc ▸ mem_of_mem_tail ht)
      simp only [record_self, update_of_ne hne]
  · -- The new owner was at its base, and nobody behind it is above it.
    simp only [hnew] at hheld ⊢
    rcases hq : Q m with _ | ⟨w, rest⟩
    · rw [hq] at hheld
      exact absurd rfl hheld
    have hwm : w ∈ Q m := hq ▸ mem_cons_self
    have hwne : w ≠ me := fun hc => hout (hc ▸ hwm)
    have hwbase := h.at_base w (fun hc => hzero (hc ▸ hwm)) (by rw [howner]; exact hwne)
    have hsorted := sorted_of_before h.ordered
    rw [hq] at hsorted
    simp only [update_self, headD_cons]
    rw [hprio, if_neg hwne, (hkept w).1, hwbase]
    refine (foldr_max_of_le _ _ fun x hx => ?_).symm
    rcases mem_map.mp hx with ⟨t, ht, rfl⟩
    have htm : t ∈ Q m := hq ▸ mem_cons_of_mem w ht
    have htne : t ≠ me := fun hc => hout (hc ▸ htm)
    rw [hprio, if_neg htne, ← hwbase]
    exact (pairwise_cons.mp hsorted).1 t ht
  · rw [hprio, (hkept t).1]
    split_ifs with htm
    · rw [htm]
    · exact h.at_base t hne (by rw [howner]; exact htm)

theorem single_step (hm : m ≠ 0) (hstep : MutexStep m s s') :
    ∃ Q', Single s' m Q' := by
  cases hstep with
  | lock me hnew hstep =>
    cases hstep with
    | lock _ _ fuel rt wait _ hme hstate hpc hcall =>
      by_cases hlocked : (s.rt.mutex m).locked = 0
      · exact ⟨Q, single_take h hme hlocked hcall⟩
      · exact ⟨_, single_wait h hm hme hpc hnew hlocked hcall⟩
  | resume me hstep =>
    cases hstep with
    | resume _ _ hstate hpc => exact ⟨Q, single_resume h hstate⟩
  | unlock me hstep =>
    cases hstep with
    | unlock _ _ hme hstate hpc howner => exact ⟨_, single_unlock h hpc howner⟩
  | move t state hstep =>
    cases hstep with
    | move _ _ hold hnew => exact ⟨Q, single_move h hold⟩

omit h in
theorem fresh_shape (h : Fresh s) : Shape s fun _ => [] := by
  refine ⟨fun x => ?_, nofun, fun x t hc => ?_, fun t _ => h.blockedOn t, fun x _ => ?_,
    fun x hc => ?_⟩
  · rw [h.mutex x]
    exact linked_nil.mpr rfl
  · cases (h.pc t).symm.trans hc
  · exact ⟨congrArg RtMutex.owner (h.mutex x), rfl⟩
  · exact absurd (congrArg RtMutex.locked (h.mutex x)) hc

omit h in
theorem fresh_single (h : Fresh s) (m : Nat) : Single s m fun _ => [] := by
  have howner : (s.rt.mutex m).owner = 0 := by rw [h.mutex m]
  refine ⟨fresh_shape h, fun t => .inl (h.blockedOn t), fun t => ?_, not_mem_nil,
    fun t i hi => ?_, List.Pairwise.nil, fun hc => absurd howner hc, fun t _ _ => h.priority t⟩
  · refine iff_of_false (fun hc => hc (h.since m t)) fun hc => ?_
    exact hc.2.elim (fun ho => hc.1 (ho.symm.trans howner)) not_mem_nil
  · cases (h.since m t).symm.trans hi

end

/-- The contract holds of a mutex in every state that its users can reach. -/
theorem mutex_contract (m : Nat) (hm : m ≠ 0) (s0 s : RtSys) (hfresh : Fresh s0)
    (hrun : Relation.ReflTransGen (MutexStep m) s0 s) : ∃ q, Contract s m q := by
  have hinv : ∃ Q, Single s m Q := by
    induction hrun with
    | refl => exact ⟨_, fresh_single hfresh m⟩
    | tail _ hstep ih =>
      rcases ih with ⟨Q, h⟩
      exact single_step h hm hstep
  rcases hinv with ⟨Q, h⟩
  exact ⟨Q m, contract_of_single h⟩

/-- Every task is ready and has its number for a priority. -/
def rtStart : RtSys :=
  { rt := { task := fun t => { priority := t, basePriority := t, state := .ready }
            mutex := fun _ => {} }
    pc := fun _ => .running
    since := fun _ _ => none
    clock := 0 }

theorem rtStart_fresh : Fresh rtStart :=
  ⟨fun _ => rfl, fun _ => rfl, fun _ _ => rfl, fun _ => rfl, fun _ => rfl⟩

/-- The state after an event that concerns the mutex `m`. -/
def useMutex (m : Nat) (s : RtSys) (e : RtEvent) : Option RtSys :=
  match e with
  | .lock m' me => if m' = m ∧ s.since m me = none then after s e else none
  | .unlock m' _ => if m' = m then after s e else none
  | _ => after s e

theorem useMutex_step {m : Nat} {s s' : RtSys} {e : RtEvent} (h : useMutex m s e = some s') :
    MutexStep m s s' := by
  cases e with
  | lock m' me =>
    simp only [useMutex] at h
    split at h
    · rename_i hcan
      rcases hcan with ⟨rfl, hnew⟩
      exact .lock me hnew (after_step h)
    · cases h
  | resume me => exact .resume me (after_step h)
  | unlock m' me =>
    simp only [useMutex] at h
    split at h
    · rename_i hcan
      subst hcan
      exact .unlock me (after_step h)
    · cases h
  | move t state => exact .move t state (after_step h)

/-- A task of priority 5 has the mutex and one of priority 9 waits for it. -/
def contended : RtSys :=
  runBy (useMutex 1) rtStart
    [.move 5 .running, .lock 1 5, .move 5 .ready, .move 9 .running, .lock 1 9]

theorem mutex_contract_contended :
    (contended.rt.mutex 1).owner = 5 ∧ (contended.rt.mutex 1).waiters = 9 ∧
      (contended.rt.task 5).priority = 9 ∧ ∃ q, Contract contended 1 q := by
  refine ⟨by decide, by decide, by decide, ?_⟩
  have hnext : ∀ s e s', True → useMutex 1 s e = some s' → MutexStep 1 s s' ∧ True :=
    fun s e s' _ h => ⟨useMutex_step h, trivial⟩
  exact mutex_contract 1 (by decide) rtStart contended rtStart_fresh
    (runBy_reaches hnext _ rtStart trivial).1

end CortexForge.Rtos
