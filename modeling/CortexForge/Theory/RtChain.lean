import CortexForge.Theory.RtMutex

/-!
# Blocking Chains

Priority inheritance between any number of mutexes. A task that owns a mutex may
wait for another one, so a boost goes on from owner to owner along a chain. It
stops at an owner that is high enough already, and after eight owners.

A boost raises tasks where they are. One that waits for a mutex stays at its place
of that queue, which was found by its priority at the time it queued up. A queue
can be out of order from then on, and the mutex is handed to its first task all
the same.

The model that the source documents is a task that owns one mutex at a time. In
such a run priorities are inherited as long as nobody is raised while waiting behind
a task that is less urgent than the one who raises.

## Main definitions

* `BlockingChain`: The owners that a boost goes along.
* `DocumentedStep`: A step within the documented model.
* `Inherits`, `HandsToMaximal`: What inheritance is for.
* `ClearAhead`, `ClearStep`: Nobody is raised behind a less urgent task.

## Theorems

* `piPropagate_inherits`: A boost along a chain.
* `piPropagate_raised`: The tasks that a boost raises.
* `chain_inheritance`: Inheritance in runs that raise nobody out of order.
* `chain_inversion`: A run in which a boost of a waiting task is not seen.
-/

namespace CortexForge.Rtos

open Function Relation List

/-- The owners from a mutex on, each of which waits for what the next one owns. -/
inductive BlockingChain (s : Rtos) : Nat → List Nat → Prop
  | last (m : Nat) (howner : (s.mutex m).owner ≠ 0) : BlockingChain s m [(s.mutex m).owner]
  | link (m : Nat) (owners : List Nat) (howner : (s.mutex m).owner ≠ 0)
      (hon : (s.task (s.mutex m).owner).blockedOn ≠ 0)
      (hrest : BlockingChain s (s.task (s.mutex m).owner).blockedOn owners) :
      BlockingChain s m ((s.mutex m).owner :: owners)

def ChainsWithin (n : Nat) (s : Rtos) : Prop :=
  ∀ m owners, BlockingChain s m owners → owners.Nodup → owners.length ≤ n

/-- Each task owns at most one mutex. -/
def OwnsOne (s : Rtos) : Prop :=
  ∀ m m', (s.mutex m).owner = (s.mutex m').owner → (s.mutex m).owner ≠ 0 → m = m'

/-- A step within the documented model. -/
def DocumentedStep (s s' : RtSys) : Prop :=
  ∃ e, RtStep s e s' ∧ OwnsOne s'.rt ∧ ChainsWithin 8 s'.rt

/-- The task `t` is on the queue of `m`. -/
def Waits (s : RtSys) (m t : Nat) : Prop :=
  ∃ q, Linked (nextOf s.rt.task) 0 (s.rt.mutex m).waiters q ∧ t ∈ q

/-- No task waits for one of a lower priority. -/
def Inherits (s : RtSys) : Prop :=
  ∀ m t, Waits s m t →
    (s.rt.task t).priority ≤ (s.rt.task (s.rt.mutex m).owner).priority

/-- A mutex that is waited for is handed to one of the most urgent waiters. -/
def HandsToMaximal (s : RtSys) : Prop :=
  ∀ m me s', RtStep s (.unlock m me) s' → ∀ t, Waits s m t →
    Waits s m (s'.rt.mutex m).owner ∧
      (s.rt.task t).priority ≤ (s.rt.task (s'.rt.mutex m).owner).priority

/-- The owner `o` is on a chain from `m` on whose owners are all below `prio`. -/
def Raised (s : Rtos) (m prio o : Nat) : Prop :=
  ∃ owners, BlockingChain s m owners ∧ (∀ o' ∈ owners, (s.task o').priority < prio) ∧ o ∈ owners

/-- Before a lock of `m` by `me`: who waits in front of an owner that the lock would
    raise is at least as urgent as `me`. -/
def ClearAhead (s : RtSys) (m me : Nat) : Prop :=
  ∀ x q, Linked (nextOf s.rt.task) 0 (s.rt.mutex x).waiters q →
    q.Pairwise fun a b => Raised s.rt m (s.rt.task me).priority b →
      (s.rt.task me).priority ≤ (s.rt.task a).priority

/-- A documented step that, if it is a lock, raises nobody behind a less urgent task. -/
def ClearStep (s s' : RtSys) : Prop :=
  ∃ e, RtStep s e s' ∧ OwnsOne s'.rt ∧ ChainsWithin 8 s'.rt ∧
    ∀ m me, e = .lock m me → ClearAhead s m me

section

variable {m t : Nat}

theorem chain_congr {s s' : Rtos} (howner : ∀ m, (s'.mutex m).owner = (s.mutex m).owner)
    {m : Nat} {owners : List Nat} (hon : ∀ t ∈ owners, (s'.task t).blockedOn = (s.task t).blockedOn)
    (h : BlockingChain s m owners) : BlockingChain s' m owners := by
  induction h with
  | last m hne =>
    rw [← howner m] at hne ⊢
    exact .last m hne
  | link m owners hne hblocked _ ih =>
    rw [forall_mem_cons] at hon
    rw [← hon.1, ← howner m] at hblocked ih
    rw [← howner m] at hne ⊢
    exact .link m owners hne hblocked (ih hon.2)

/-- A chain of owners below `prio`, after the owner of `x` has been raised to it and
    from what that one waits for. With it in front, it was such a chain before. -/
theorem chain_raised {s : Rtos} {x prio : Nat} {owners : List Nat} (hne : (s.mutex x).owner ≠ 0)
    (hlow : (s.task (s.mutex x).owner).priority < prio)
    (hon : (s.task (s.mutex x).owner).blockedOn ≠ 0)
    (hrest : BlockingChain { s with task := setPriority s.task (s.mutex x).owner prio }
      (s.task (s.mutex x).owner).blockedOn owners)
    (hbelow : ∀ o ∈ owners, (setPriority s.task (s.mutex x).owner prio o).priority < prio) :
    BlockingChain s x ((s.mutex x).owner :: owners) ∧ (s.mutex x).owner ∉ owners ∧
      ∀ o ∈ (s.mutex x).owner :: owners, (s.task o).priority < prio := by
  have hset := setPriority_priority s.task (s.mutex x).owner prio
  have hout : (s.mutex x).owner ∉ owners := fun hin => by
    have hc := hbelow _ hin
    rw [hset, if_pos rfl] at hc
    omega
  have hkept := reprioritized_setPriority s.task (s.mutex x).owner prio
  have hrest' : BlockingChain s (s.task (s.mutex x).owner).blockedOn owners :=
    @chain_congr { s with task := setPriority s.task (s.mutex x).owner prio } s
      (fun _ => rfl) _ _ (fun t _ => (hkept.blockedOn t).symm) hrest
  refine ⟨.link x owners hne hon hrest', hout, fun o ho => ?_⟩
  rcases mem_cons.mp ho with rfl | ho
  · exact hlow
  · have hother : o ≠ (s.mutex x).owner := fun heq => hout (heq ▸ ho)
    have hc := hbelow o ho
    rw [hset, if_neg hother] at hc
    exact hc

variable {Q : Nat → List Nat} {prio : Nat}

/-- A boost to `prio` has come to the owner of `x`, with `depth` turns left. Only tasks
    that wait for this owner may be above it, and only up to `prio`; and the owners below
    `prio` from there on are no more than there are turns. -/
structure Rising (Q : Nat → List Nat) (prio depth : Nat) (s : Rtos) (x : Nat) : Prop where
  queued : ∀ m, ∀ t ∈ Q m, (s.task t).blockedOn = m ∧ m ≠ 0 ∧ (s.mutex m).owner ≠ 0
  above : ∀ m, ∀ t ∈ Q m, (s.task t).priority ≤ (s.task (s.mutex m).owner).priority ∨
    (s.mutex m).owner = (s.mutex x).owner ∧ (s.task t).priority ≤ prio
  chain : ∀ owners, BlockingChain s x owners → owners.Nodup →
    (∀ o ∈ owners, (s.task o).priority < prio) → owners.length ≤ depth

variable {depth : Nat} {s : Rtos} {x : Nat}

/-- The boost is over at an owner that is not below `prio`. -/
theorem rising_over (h : Rising Q prio depth s x)
    (hhigh : (s.mutex x).owner ≠ 0 → prio ≤ (s.task (s.mutex x).owner).priority) (ht : t ∈ Q m) :
    (s.task t).priority ≤ (s.task (s.mutex m).owner).priority := by
  rcases h.above m t ht with hle | ⟨hsame, hle⟩
  · exact hle
  -- The only tasks in doubt wait for this very owner.
  · have hne := (h.queued m t ht).2.2
    rw [hsame] at hne ⊢
    omega

/-- Without a turn left no owner is below `prio`. -/
theorem rising_zero (h : Rising Q prio 0 s x) (hne : (s.mutex x).owner ≠ 0) :
    prio ≤ (s.task (s.mutex x).owner).priority := by
  -- An owner below `prio` would be a chain of one, with no turn for it.
  refine Nat.le_of_not_lt fun hlow => ?_
  have hlen := h.chain _ (.last x hne) (nodup_singleton _) fun o ho => by
    rw [mem_singleton.mp ho]
    exact hlow
  exact absurd hlen (Nat.not_succ_le_zero 0)

/-- Raised, the owner is above all that wait for it. It may itself be above the owner of
    what it waits for. -/
theorem rising_raised (h : Rising Q prio depth s x)
    (hlow : (s.task (s.mutex x).owner).priority < prio) (ht : t ∈ Q m) :
    (setPriority s.task (s.mutex x).owner prio t).priority
        ≤ (setPriority s.task (s.mutex x).owner prio (s.mutex m).owner).priority ∨
      t = (s.mutex x).owner := by
  -- The raised task itself is the new doubt, for the next turn.
  by_cases hto : t = (s.mutex x).owner
  · exact .inr hto
  have habove := h.above m t ht
  rw [setPriority_priority, setPriority_priority]
  grind

/-- The boost goes on with what the owner waits for. -/
theorem rising_next (h : Rising Q prio (depth + 1) s x) (hne : (s.mutex x).owner ≠ 0)
    (hlow : (s.task (s.mutex x).owner).priority < prio)
    (hon : (s.task (s.mutex x).owner).blockedOn ≠ 0) :
    Rising Q prio depth { s with task := setPriority s.task (s.mutex x).owner prio }
      (s.task (s.mutex x).owner).blockedOn := by
  have hkept := reprioritized_setPriority s.task (s.mutex x).owner prio
  have hset := setPriority_priority s.task (s.mutex x).owner prio
  refine ⟨fun m t ht => ?_, fun m t ht => ?_, fun owners hrest hnodup hbelow => ?_⟩
  · rw [hkept.blockedOn]
    exact h.queued m t ht
  · refine (rising_raised h hlow ht).imp_right fun hto => ⟨?_, ?_⟩
    · rw [← hto, (h.queued m t ht).1]
    · simp [hset, hto]
  · -- The owner that was raised is in front of a chain of lower ones.
    rcases chain_raised hne hlow hon hrest hbelow with ⟨hwhole, hout, hall⟩
    exact Nat.le_of_succ_le_succ (h.chain _ hwhole (nodup_cons.mpr ⟨hout, hnodup⟩) hall)

/-- A boost that has enough turns leaves every owner above those who wait for it. -/
theorem piPropagate_inherits (depth : Nat) : ∀ (s : Rtos) (x : Nat), Rising Q prio depth s x →
    ∀ m, ∀ t ∈ Q m,
      ((piPropagate depth s (s.mutex x).owner prio).task t).priority
        ≤ ((piPropagate depth s (s.mutex x).owner prio).task (s.mutex m).owner).priority := by
  induction depth with
  | zero => exact fun s x h m t ht => rising_over h (rising_zero h) ht
  | succ depth ih =>
    intro s x h m t ht
    unfold piPropagate
    split
    · rename_i hnone
      exact rising_over h (fun hne => absurd hnone hne) ht
    -- The three ways out of the loop: no owner, no need, nothing further.
    rename_i hne
    split
    · rename_i hhigh
      exact rising_over h (fun _ => hhigh) ht
    rename_i hhigh
    have hlow := Nat.lt_of_not_le hhigh
    have hkept := reprioritized_setPriority s.task (s.mutex x).owner prio
    simp only
    split
    · -- The raised owner waits for nothing, so it is on no queue.
      rename_i hfree
      rw [hkept.blockedOn] at hfree
      refine (rising_raised h hlow ht).resolve_right fun hc => ?_
      rcases h.queued m t ht with ⟨hon, hm, _⟩
      rw [hc, hfree] at hon
      exact hm hon.symm
    · rename_i hon
      rw [hkept.blockedOn] at hon ⊢
      exact ih _ _ (rising_next h hne hlow hon) m t ht

end

/-- A boost raises the owners on a chain as long as they are below `prio`. -/
theorem piPropagate_raised (prio depth : Nat) : ∀ (s : Rtos) (x t : Nat),
    ((piPropagate depth s (s.mutex x).owner prio).task t).priority = (s.task t).priority ∨
      ((piPropagate depth s (s.mutex x).owner prio).task t).priority = prio ∧
        Raised s x prio t := by
  induction depth with
  | zero => exact fun s x t => .inl rfl
  | succ depth ih =>
    intro s x t
    unfold piPropagate
    split
    · exact .inl rfl
    rename_i hne
    split
    · exact .inl rfl
    rename_i hhigh
    have hlow := Nat.lt_of_not_le hhigh
    have hkept := reprioritized_setPriority s.task (s.mutex x).owner prio
    -- The owner of `x` is raised itself, as a chain of one.
    have hfirst : (setPriority s.task (s.mutex x).owner prio t).priority = (s.task t).priority ∨
        (setPriority s.task (s.mutex x).owner prio t).priority = prio ∧ Raised s x prio t := by
      rw [setPriority_priority]
      split_ifs with ht
      · refine .inr ⟨rfl, _, .last x hne, fun o ho => ?_, mem_singleton.mpr ht⟩
        rw [mem_singleton.mp ho]
        exact hlow
      · exact .inl rfl
    simp only
    split
    · exact hfirst
    rename_i hon
    rw [hkept.blockedOn] at hon ⊢
    rcases ih { s with task := setPriority s.task (s.mutex x).owner prio }
      (s.task (s.mutex x).owner).blockedOn t with hsame | ⟨hprio, owners, hchain, hbelow, hin⟩
    · rw [hsame]
      exact hfirst
    · rcases chain_raised hne hlow hon hchain hbelow with ⟨hwhole, _, hall⟩
      exact .inr ⟨hprio, _, hwhole, hall, mem_cons_of_mem _ hin⟩

/-- The invariant of runs that raise nobody out of order. -/
structure Inherited (s : RtSys) (Q : Nat → List Nat) : Prop where
  shape : Shape s Q
  inherits : ∀ m, ∀ t ∈ Q m, (s.rt.task t).priority ≤ (s.rt.task (s.rt.mutex m).owner).priority
  ordered : ∀ m, (Q m).Pairwise fun a b => (s.rt.task b).priority ≤ (s.rt.task a).priority
  one : OwnsOne s.rt

section

variable {s s' : RtSys} {m me fuel clock : Nat} {Q : Nat → List Nat}
  {since : Nat → Nat → Option Nat}

/-- Who waits has somebody to wait for. -/
theorem shape_owner (h : Shape s Q) {t : Nat} (ht : t ∈ Q m) :
    (s.rt.task t).blockedOn = m ∧ m ≠ 0 ∧ (s.rt.mutex m).owner ≠ 0 := by
  rcases h.locking m t (h.waiting m t ht).2 with ⟨_, hm, hon, _⟩
  refine ⟨hon, hm, (h.held m fun hfree => ?_).2⟩
  rw [(h.free m hfree).2] at ht
  exact not_mem_nil ht

theorem waits_iff (h : Shape s Q) (t : Nat) : Waits s m t ↔ t ∈ Q m := by
  constructor
  · rintro ⟨q, hq, ht⟩
    rw [linked_unique (h.queue m) hq]
    exact ht
  · exact fun ht => ⟨Q m, h.queue m, ht⟩

variable (h : Inherited s Q)
include h

theorem inherited_take {rt : Rtos} {wait : Bool} (hme : me ≠ 0)
    (hlocked : (s.rt.mutex m).locked = 0) (hcall : rtMutexLock fuel s.rt m me = some (rt, wait))
    (hone : OwnsOne rt) :
    Inherited ⟨rt, if wait then update s.pc me (.locking m) else s.pc, since, clock⟩
      Q := by
  rcases lock_free hlocked hcall with ⟨rfl, rfl⟩
  refine ⟨shape_take h.shape hme hlocked, fun x t ht => ?_, h.ordered, hone⟩
  -- A free mutex has no waiters to be compared with its new owner.
  have hxm : x ≠ m := by
    rintro rfl
    rw [(h.shape.free x hlocked).2] at ht
    exact not_mem_nil ht
  simp only [update_of_ne hxm]
  exact h.inherits x t ht

omit h in
/-- The tasks a lock raises are known before it: the caller is on no chain of owners
    below its own priority. -/
theorem queued_raised {s s1 : Rtos} {q : List Nat} (hqueued : Queued s m me q s1) {o : Nat}
    (hraised : Raised s1 m (s.task me).priority o) : Raised s m (s.task me).priority o := by
  rcases hraised with ⟨owners, hchain, hbelow, hin⟩
  have hprio : ∀ y, (s1.task y).priority = (s.task y).priority := fun y => by
    rw [hqueued.relinked.priority]
    exact update_field (by rfl) y
  have howner : ∀ y, (s.mutex y).owner = (s1.mutex y).owner := by
    grind [hqueued.owner_eq, hqueued.mutex_eq]
  have hnot : me ∉ owners := fun hc => by
    have hlt := hbelow me hc
    rw [hprio] at hlt
    exact Nat.lt_irrefl _ hlt
  refine ⟨owners, chain_congr howner (fun t ht => ?_) hchain, fun o' ho => ?_, hin⟩
  · have hne : t ≠ me := fun hc => hnot (hc ▸ ht)
    rw [hqueued.relinked.blockedOn, setBlockedOn, update_of_ne hne]
  · rw [← hprio]
    exact hbelow o' ho

/-- The order of the queues after the boosts of a lock that has to wait. -/
theorem inherited_ordered {rt : Rtos} (hclear : ClearAhead s m me)
    (hraised : ∀ t, (rt.task t).priority = (s.rt.task t).priority ∨
      (rt.task t).priority = (s.rt.task me).priority ∧
        Raised s.rt m (s.rt.task me).priority t) (x : Nat) :
    (update Q m (enqueue s.rt.task me (Q m)) x).Pairwise fun a b =>
      (rt.task b).priority ≤ (rt.task a).priority := by
  have hbelow : ∀ t, Raised s.rt m (s.rt.task me).priority t →
      (s.rt.task t).priority < (s.rt.task me).priority := by
    rintro t ⟨owners, _, hall, hin⟩
    exact hall t hin
  have hup : ∀ t, (s.rt.task t).priority ≤ (rt.task t).priority := by
    intro t
    rcases hraised t with heq | ⟨heq, hr⟩
    · exact Nat.le_of_eq heq.symm
    · exact heq ▸ Nat.le_of_lt (hbelow t hr)
  have hme : (rt.task me).priority = (s.rt.task me).priority := by
    rcases hraised me with heq | ⟨heq, _⟩
    · exact heq
    · exact heq
  -- Who is raised comes up to `me`, and so is everybody in front of them already.
  have hold : ∀ y, (Q y).Pairwise fun a b => (rt.task b).priority ≤ (rt.task a).priority := by
    intro y
    refine ((h.ordered y).and (hclear y (Q y) (h.shape.queue y))).imp ?_
    rintro a b ⟨hle, hahead⟩
    refine Nat.le_trans ?_ (hup a)
    rcases hraised b with heq | ⟨heq, hr⟩
    · exact heq ▸ hle
    · exact heq ▸ hahead hr
  by_cases hx : x = m
  · rw [hx, update_self]
    refine pairwise_enqueue (Q m) (hold m) (h.ordered m) (fun b _ hle => ?_) fun b _ hlt => ?_
    · exact hme ▸ Nat.le_trans hle (hup b)
    · rcases hraised b with heq | ⟨heq, _⟩
      · exact heq ▸ hme ▸ Nat.le_of_lt hlt
      · exact Nat.le_of_eq (heq.trans hme.symm)
  · rw [update_of_ne hx]
    exact hold x

/-- A lock that has to wait boosts the owners before it. -/
theorem inherited_wait {rt : Rtos} {wait : Bool} (hm : m ≠ 0) (hme : me ≠ 0)
    (hpc : s.pc me = .running) (hlocked : (s.rt.mutex m).locked ≠ 0)
    (hcall : rtMutexLock fuel s.rt m me = some (rt, wait)) (hone : OwnsOne rt)
    (hchain : ChainsWithin 8 rt) (hclear : ClearAhead s m me) :
    Inherited ⟨rt, if wait then update s.pc me (.locking m) else s.pc, since, clock⟩
      (update Q m (enqueue s.rt.task me (Q m))) := by
  have hnew := shape_not_waiting h.shape hpc m
  rcases lock_contended (h.shape.queue m) hme hnew hlocked hcall with
    ⟨rfl, s1, hqueued, hmutex, htask⟩
  have hshape : Shape ⟨rt, update s.pc me (.locking m), since, clock⟩
      (update Q m (enqueue s.rt.task me (Q m))) :=
    shape_wait h.shape hm hme hpc hlocked hqueued hmutex htask
  have hprio : ∀ y, (s1.task y).priority = (s.rt.task y).priority := fun y => by
    rw [hqueued.relinked.priority]
    exact update_field (by rfl) y
  have howner : ∀ y, (s1.mutex y).owner = (s.rt.mutex y).owner := by
    grind [hqueued.owner_eq, hqueued.mutex_eq]
  refine ⟨hshape, fun x t ht => ?_, inherited_ordered h hclear fun t => ?_, hone⟩
  swap
  · rw [htask, setState_priority, ← howner m]
    rcases piPropagate_raised (s.rt.task me).priority 8 s1 m t with heq | ⟨heq, hraised⟩
    · exact .inl (heq.trans (hprio t))
    · exact .inr ⟨heq, queued_raised hqueued hraised⟩
  have hkept := (piPropagate_kept 8 s1 (s.rt.mutex m).owner (s.rt.task me).priority).2
  have hfield : ∀ y, (rt.task y).blockedOn = (s1.task y).blockedOn := fun y => by
    rw [htask, setState_blockedOn, hkept.blockedOn]
  simp only [hmutex, htask, setState_priority]
  rw [← howner m]
  -- Only the caller may be above an owner, that of `m`: here the boost starts.
  refine piPropagate_inherits 8 s1 m ⟨fun y u hu => ?_, fun y u hu => ?_,
    fun owners hc hnodup _ => ?_⟩ x t ht
  · rw [← hfield, ← hmutex]
    exact shape_owner hshape hu
  · have hinherits := h.inherits y u
    grind [mem_enqueue]
  -- Chains are bounded after the step, and the boost has not changed any.
  · refine hchain m owners (chain_congr (fun y => ?_) (fun y _ => hfield y) hc) hnodup
    rw [hmutex]

/-- A step that changes neither owners nor priorities. -/
theorem inherited_quiet (hshape : Shape s' Q) (hmutex : s'.rt.mutex = s.rt.mutex)
    (hprio : ∀ t, (s'.rt.task t).priority = (s.rt.task t).priority) : Inherited s' Q := by
  refine ⟨hshape, fun x t ht => ?_, fun x => ?_, fun x y heq hne => ?_⟩
  · rw [hmutex, hprio, hprio]
    exact h.inherits x t ht
  · simp only [hprio]
    exact h.ordered x
  · rw [hmutex] at heq hne
    exact h.one x y heq hne

/-- The first task of the queue is the most urgent one, so it needs no boost when it
    becomes the owner. -/
theorem inherited_unlock (hme : me ≠ 0) (hpc : s.pc me = .running)
    (howner : (s.rt.mutex m).owner = me) (hone : OwnsOne (rtMutexUnlock s.rt m me)) :
    Inherited { s with rt := rtMutexUnlock s.rt m me, since := since }
      (update Q m (Q m).tail) := by
  have hout := shape_not_waiting h.shape hpc
  -- Queues only get shorter, and the tasks on them keep their priorities.
  have hsub : ∀ x, (update Q m (Q m).tail x).Sublist (Q x) := by
    intro x
    by_cases hx : x = m
    · rw [hx, update_self]
      exact tail_sublist _
    · rw [update_of_ne hx]
  have hprio : ∀ x, ∀ t ∈ Q x, ((rtMutexUnlock s.rt m me).task t).priority
      = (s.rt.task t).priority := by
    intro x t ht
    have hne : t ≠ me := fun hc => hout x (hc ▸ ht)
    rw [unlock_priority, if_neg hne]
  refine ⟨shape_unlock h.shape hpc howner, fun x t ht => ?_, fun x => ?_, hone⟩
  · have hin := (hsub x).subset ht
    rw [hprio x t hin]
    by_cases hx : x = m
    · subst hx
      rw [unlock_owner (h.shape.queue x)]
      have hordered := h.ordered x
      rcases hq : Q x with _ | ⟨w, rest⟩ <;> grind
    · -- The caller owns nothing else, so nobody else loses a boost.
      have hother : (s.rt.mutex x).owner ≠ me := by
        intro hc
        exact hx (h.one x m (hc.trans howner.symm) (by rw [hc]; exact hme))
      rw [unlock_mutex_other s.rt me hx, unlock_priority, if_neg hother]
      exact h.inherits x t hin
  · refine ((h.ordered x).sublist (hsub x)).imp_of_mem ?_
    intro a b ha hb hle
    rw [hprio x a ((hsub x).subset ha), hprio x b ((hsub x).subset hb)]
    exact hle

theorem inherited_step (hstep : ClearStep s s') : ∃ Q', Inherited s' Q' := by
  rcases hstep with ⟨e, hstep, hone, hchain, hclear⟩
  cases hstep with
  | lock m me fuel rt wait hm hme hstate hpc hcall =>
    by_cases hlocked : (s.rt.mutex m).locked = 0
    · exact ⟨Q, inherited_take h hme hlocked hcall hone⟩
    · exact ⟨_, inherited_wait h hm hme hpc hlocked hcall hone hchain (hclear m me rfl)⟩
  | resume m me hstate hpc =>
    refine ⟨Q, inherited_quiet h (shape_resume h.shape hstate) rfl ?_⟩
    exact update_field rfl
  | unlock m me hme hstate hpc howner => exact ⟨_, inherited_unlock h hme hpc howner hone⟩
  | move t state hold hnew =>
    refine ⟨Q, inherited_quiet h (shape_move h.shape hold) rfl ?_⟩
    exact setState_priority s.rt.task t state

omit h in
theorem fresh_inherited (h : Fresh s) : Inherited s fun _ => [] := by
  refine ⟨fresh_shape h, nofun, fun _ => List.Pairwise.nil,
    fun x y _ hne => absurd ?_ hne⟩
  rw [h.mutex x]

theorem inherited_inherits : Inherits s :=
  fun m t ht => h.inherits m t ((waits_iff h.shape t).mp ht)

theorem inherited_hands : HandsToMaximal s := by
  intro m me s' hstep t ht
  cases hstep with
  | unlock _ _ hme hstate hpc howner =>
    rw [waits_iff h.shape] at ht
    rw [waits_iff h.shape, unlock_owner (h.shape.queue m)]
    have hordered := h.ordered m
    rcases hq : Q m with _ | ⟨w, rest⟩ <;> grind [pairwise_cons]

end

/-- In every documented run whose locks raise nobody who waits behind a task less urgent
    than the caller, no task waits for one of a lower priority, and a mutex is handed to a
    most urgent waiter. -/
theorem chain_inheritance (s0 s : RtSys) (hfresh : Fresh s0)
    (hrun : ReflTransGen ClearStep s0 s) : Inherits s ∧ HandsToMaximal s := by
  have hinv : ∃ Q, Inherited s Q := by
    induction hrun with
    | refl => exact ⟨_, fresh_inherited hfresh⟩
    | tail _ hstep ih =>
      rcases ih with ⟨Q, h⟩
      exact inherited_step h hstep
  rcases hinv with ⟨Q, h⟩
  exact ⟨inherited_inherits h, inherited_hands h⟩

section

variable {s s' : RtSys}

/-- A step changes no mutex but the one that is locked or unlocked. -/
theorem step_mutex_other {e : RtEvent} (hstep : RtStep s e s') {x : Nat}
    (hlock : ∀ me, e ≠ .lock x me) (hunlock : ∀ me, e ≠ .unlock x me) :
    s'.rt.mutex x = s.rt.mutex x := by
  cases hstep with
  | lock m me fuel rt wait hm hme hstate hpc hcall =>
    have hx : x ≠ m := fun hc => hlock me (by rw [hc])
    simp only [rtMutexLock] at hcall
    split at hcall
    · cases hcall
      exact update_of_ne hx _ _
    · rcases Option.map_eq_some_iff.mp hcall with ⟨⟨task', head'⟩, _, heq⟩
      simp only [Prod.mk.injEq] at heq
      rw [← heq.1, (piPropagate_kept 8 _ _ _).1]
      exact update_of_ne hx _ _
  | resume m me hstate hpc => rfl
  | unlock m me hme hstate hpc howner =>
    have hx : x ≠ m := fun hc => hunlock me (by rw [hc])
    exact unlock_mutex_other s.rt me hx
  | move t state hold hnew => rfl

/-- Only the mutexes 1 and 2 have been used. -/
def OnlyTwo (s : RtSys) : Prop :=
  ∀ m, m ≠ 1 → m ≠ 2 → (s.rt.mutex m).owner = 0 ∧ (s.rt.mutex m).waiters = 0

def RtEvent.usesTwo : RtEvent → Bool
  | .lock m _ => m == 1 || m == 2
  | .unlock m _ => m == 1 || m == 2
  | _ => true

/-- The state after an event of the mutexes 1 and 2, if these have different owners
    then. -/
def useTwo (s : RtSys) (e : RtEvent) : Option RtSys :=
  (after s e).filter fun s' => e.usesTwo &&
    ((s'.rt.mutex 1).owner != (s'.rt.mutex 2).owner || (s'.rt.mutex 1).owner == 0)

theorem chain_owners {s : Rtos} {m : Nat} {owners : List Nat} (h : BlockingChain s m owners) :
    ∀ o ∈ owners, ∃ x, (s.mutex x).owner = o ∧ o ≠ 0 := by
  induction h with
  | last m hne =>
    intro o ho
    rw [mem_singleton.mp ho]
    exact ⟨m, rfl, hne⟩
  | link m owners hne _ _ ih =>
    intro o ho
    rcases mem_cons.mp ho with rfl | ho
    · exact ⟨m, rfl, hne⟩
    · exact ih o ho

/-- Chains of two mutexes are short. -/
theorem chains_of_two (h : OnlyTwo s) : ChainsWithin 8 s.rt := by
  intro m owners hchain hnodup
  -- All owners of a chain are among the two there are.
  have hsub : owners ⊆ [(s.rt.mutex 1).owner, (s.rt.mutex 2).owner] := by
    intro o ho
    rcases chain_owners hchain o ho with ⟨x, rfl, hne⟩
    by_cases h1 : x = 1
    · rw [h1]
      exact mem_cons_self
    by_cases h2 : x = 2
    · rw [h2]
      exact mem_cons_of_mem _ mem_cons_self
    · exact absurd (h x h1 h2).1 hne
  exact Nat.le_trans (subperm_of_subset hnodup hsub).length_le (Nat.le_add_left 2 6)

theorem useTwo_step {e : RtEvent} (hs : OnlyTwo s) (h : useTwo s e = some s') :
    (RtStep s e s' ∧ OwnsOne s'.rt ∧ ChainsWithin 8 s'.rt) ∧ OnlyTwo s' := by
  rcases Option.filter_eq_some_iff.mp h with ⟨hafter, hcheck⟩
  have hstep := after_step hafter
  rw [Bool.and_eq_true, Bool.or_eq_true] at hcheck
  rcases hcheck with ⟨huses, hapart⟩
  have honly : OnlyTwo s' := by
    intro x h1 h2
    have hother : ∀ m, (m == 1 || m == 2) = true → x ≠ m := by
      intro m hm hc
      subst hc
      simp only [Bool.or_eq_true, beq_iff_eq] at hm
      exact hm.elim h1 h2
    rw [step_mutex_other hstep (fun me hc => hother x (by rw [hc] at huses; exact huses) rfl)
      fun me hc => hother x (by rw [hc] at huses; exact huses) rfl]
    exact hs x h1 h2
  refine ⟨⟨hstep, fun x y heq hne => ?_, chains_of_two honly⟩, honly⟩
  have hin : ∀ x, (s'.rt.mutex x).owner ≠ 0 → x = 1 ∨ x = 2 := by
    intro x hx
    by_contra hc
    rw [not_or] at hc
    exact hx (honly x hc.1 hc.2).1
  simp only [bne_iff_ne, beq_iff_eq] at hapart
  rcases hin x hne with rfl | rfl <;> rcases hin y (heq ▸ hne) with rfl | rfl
  · rfl
  · exact absurd heq (hapart.resolve_right hne)
  · exact absurd heq.symm (hapart.resolve_right (heq ▸ hne))
  · rfl

theorem rtStart_onlyTwo : OnlyTwo rtStart := fun _ _ _ => ⟨rfl, rfl⟩

/-- The queue from `head` on, cut off at `fuel` tasks. -/
def waiting (task : Nat → RtTask) : Nat → Nat → List Nat
  | 0, _ => []
  | fuel + 1, head => if head = 0 then [] else head :: waiting task fuel (task head).waitNext

theorem waiting_linked (task : Nat → RtTask) (fuel : Nat) : ∀ head,
    (waiting task fuel head).length < fuel →
    Linked (nextOf task) 0 head (waiting task fuel head) := by
  induction fuel with
  | zero => exact nofun
  | succ fuel ih =>
    intro head hlen
    unfold waiting at hlen ⊢
    split
    · rename_i hnil
      exact linked_nil.mpr hnil
    · rename_i hne
      rw [if_neg hne] at hlen
      exact linked_cons.mpr ⟨rfl, hne, ih _ (Nat.lt_of_succ_lt_succ hlen)⟩

/-- Whether on the queue of `x` no owner below `prio` is behind a task below it. -/
def clearOn (s : RtSys) (prio x : Nat) : Bool :=
  let q := waiting s.rt.task 64 (s.rt.mutex x).waiters
  q.length < 64 && decide (q.Pairwise fun a b =>
    (b = (s.rt.mutex 1).owner ∨ b = (s.rt.mutex 2).owner) → (s.rt.task b).priority < prio →
      prio ≤ (s.rt.task a).priority)

theorem clearOn_clear (h : OnlyTwo s) {m me : Nat} (h1 : clearOn s (s.rt.task me).priority 1 = true)
    (h2 : clearOn s (s.rt.task me).priority 2 = true) : ClearAhead s m me := by
  intro x q hq
  by_cases hx : x = 1 ∨ x = 2
  · have hclear : clearOn s (s.rt.task me).priority x = true := by
      rcases hx with rfl | rfl
      · exact h1
      · exact h2
    simp only [clearOn, Bool.and_eq_true, decide_eq_true_eq] at hclear
    rw [linked_unique hq (waiting_linked _ 64 _ hclear.1)]
    refine hclear.2.imp fun hab hraised => ?_
    rcases hraised with ⟨owners, hchain, hbelow, hin⟩
    refine hab ?_ (hbelow _ hin)
    rcases chain_owners hchain _ hin with ⟨y, hy, hne⟩
    by_contra hc
    rw [not_or] at hc
    refine hne (hy ▸ (h y ?_ ?_).1)
    · rintro rfl
      exact hc.1 hy.symm
    · rintro rfl
      exact hc.2 hy.symm
  · rw [not_or] at hx
    rw [(h x hx.1 hx.2).2] at hq
    rw [linked_unique hq (linked_nil.mpr rfl)]
    exact List.Pairwise.nil

/-- An event that, if it is a lock, raises nobody behind a less urgent task. -/
def useTwoClear (s : RtSys) (e : RtEvent) : Option RtSys :=
  (useTwo s e).filter fun _ =>
    match e with
    | .lock _ me => clearOn s (s.rt.task me).priority 1 && clearOn s (s.rt.task me).priority 2
    | _ => true

theorem useTwoClear_step {e : RtEvent} (hs : OnlyTwo s) (h : useTwoClear s e = some s') :
    ClearStep s s' ∧ OnlyTwo s' := by
  rcases Option.filter_eq_some_iff.mp h with ⟨huse, hcheck⟩
  rcases useTwo_step hs huse with ⟨⟨hstep, hone, hchain⟩, honly⟩
  refine ⟨⟨e, hstep, hone, hchain, ?_⟩, honly⟩
  rintro m me rfl
  rw [Bool.and_eq_true] at hcheck
  exact clearOn_clear hs hcheck.1 hcheck.2

/-- Only the task `me` runs. -/
def switchTo (old me : Nat) : List RtEvent := [.move old .ready, .move me .running]

/-- Task 1 has the first mutex, task 5 the second one and waits for the first, and
    task 20 waits for the second. -/
def chained : RtSys :=
  runBy useTwoClear rtStart
    ([.move 1 .running, .lock 1 1] ++ switchTo 1 5 ++ [.lock 2 5, .lock 1 5, .move 20 .running,
      .lock 2 20])

end

theorem chain_inheritance_chained :
    (chained.rt.mutex 1).waiters = 5 ∧ (chained.rt.mutex 2).waiters = 20 ∧
      (chained.rt.task 1).priority = 20 ∧ Inherits chained ∧ HandsToMaximal chained := by
  have hnext : ∀ s e s', OnlyTwo s → useTwoClear s e = some s' →
      ClearStep s s' ∧ OnlyTwo s' := fun _ _ _ => useTwoClear_step
  refine ⟨by decide, by decide, by decide, ?_⟩
  exact chain_inheritance rtStart chained rtStart_fresh
    (runBy_reaches hnext _ rtStart rtStart_onlyTwo).1

/-- As before, but task 10 waits for the first mutex, too, and was in front of task 5
    before that was boosted; task 1 runs. -/
def inverted : RtSys :=
  runBy useTwo rtStart
    ([.move 1 .running, .lock 1 1] ++ switchTo 1 5 ++ [.lock 2 5, .lock 1 5, .move 10 .running,
      .lock 1 10, .move 20 .running, .lock 2 20, .move 1 .running])

/-- The first mutex is handed to task 10 although task 5 has the priority 20 by now,
    and then task 5 waits for an owner of priority 10. -/
theorem chain_inversion :
    Fresh rtStart ∧ ReflTransGen DocumentedStep rtStart inverted ∧
      ¬ HandsToMaximal inverted ∧
      ∃ s, DocumentedStep inverted s ∧ RtStep inverted (.unlock 1 1) s ∧ ¬ Inherits s := by
  have hnext : ∀ s e s', OnlyTwo s → useTwo s e = some s' → DocumentedStep s s' ∧ OnlyTwo s' :=
    fun s e s' hs h => ⟨⟨e, (useTwo_step hs h).1⟩, (useTwo_step hs h).2⟩
  have hreach : ReflTransGen DocumentedStep rtStart inverted ∧ OnlyTwo inverted :=
    runBy_reaches hnext _ rtStart rtStart_onlyTwo
  rcases hreach with ⟨hrun, honly⟩
  have hunlock : useTwo inverted (.unlock 1 1) = some (runBy useTwo inverted [.unlock 1 1]) := rfl
  have hstep := (useTwo_step honly hunlock).1
  -- Task 5 has been boosted to 20 in its place behind task 10.
  have hqueue : Waits inverted 1 5 := ⟨[10, 5], ⟨⟨rfl, rfl, rfl⟩, by decide⟩, by decide⟩
  refine ⟨rtStart_fresh, hrun, fun hmax => ?_, _, ⟨_, hstep⟩, hstep.1, fun hinh => ?_⟩
  · exact absurd (hmax 1 1 _ hstep.1 5 hqueue).2 (by decide)
  · exact absurd (hinh 1 5 ⟨[5], ⟨⟨rfl, rfl⟩, by decide⟩, by decide⟩) (by decide)

end CortexForge.Rtos
