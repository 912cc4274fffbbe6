import CortexForge.Core.RunQueue

/-!
# The Shape of the Run Queue

The ring of tasks and the list of dead ones, through each operation of the scheduler.

`Shape` says what the links look like: the ring is one circular list with the idle
task on it, the list of dead tasks ends and shares no record with the ring, and the
two together with the records released so far are the records ever created, each
as often as it was created. The task that may be running, and may be dead without
having left the ring yet, is an argument, since inside an operation it is not
always `current`.

An operation changes states of records, links, or both. `shape_states` carries the
shape over a change of states, and the changes of links are an insertion, a burial
and a release, with one lemma each. Loops are followed along the ring, which
`circular_reaches` bounds.

## Main definitions

* `Shape`: The links and the states of the records.
* `RingOk`: The invariant between operations.
* `Leaving`: What `schedule` is called with.
* `Fresh`: A record that the heap may hand out.

## Theorems

* `shape_states`, `shape_bury`, `shape_insert`, `shape_freeDead`: The shape over each
  kind of change.
* `reap_spec`, `schedule_spec`, `kill_spec`, `create_spec`: What the operations keep.
* `reap_some`, `schedule_some`, `kill_some`, `create_some`: They return.
-/

namespace CortexForge.RunQueue

open Function List Option

variable {σ : Type}

/-- The ring and the list of dead tasks, while `cur` is the task that runs. -/
structure Shape (s : RunQueue σ) (cur : Nat) (ring dead : List Nat) : Prop where
  circular : Circular s.next idleTask ring
  linked : Linked s.next 0 s.deadList dead
  disjoint : ∀ t ∈ ring, t ∉ dead
  nonnull : 0 ∉ ring
  alive : ∀ t ∈ ring, t ≠ cur → (s.task t).state ≠ .dead
  buried : ∀ t ∈ dead, (s.task t).state = .dead
  running : ∀ t ∈ ring, (s.task t).state = .running → t = cur
  -- Every record ever linked in is in exactly one place: on the ring, dead, or released.
  accounted : (idleTask :: s.created).Perm (ring ++ dead ++ s.released)
  idlePid : (s.task idleTask).pid = 0

/-- The run queue between operations: the current task is on the ring and alive. -/
def RingOk (s : RunQueue σ) (ring dead : List Nat) : Prop :=
  Shape s s.current ring dead ∧ s.current ∈ ring ∧ (s.task s.current).state ≠ .dead

/-- The run queue when the current task gives up the processor, perhaps for good.
    The idle task never does. -/
structure Leaving (s : RunQueue σ) (ring dead : List Nat) : Prop where
  shape : Shape s s.current ring dead
  mem : s.current ∈ ring
  exits : (s.task s.current).state = .dead → s.current ≠ idleTask

/-- The two run queues have the same links, and the idle task its number. -/
structure SameLinks (s s' : RunQueue σ) : Prop where
  next : s'.next = s.next
  deadList : s'.deadList = s.deadList
  created : s'.created = s.created
  released : s'.released = s.released
  idlePid : (s'.task idleTask).pid = (s.task idleTask).pid

section

variable {s s' : RunQueue σ} {cur cur' t : Nat} {ring dead : List Nat} {state : TaskState}

theorem ringOk_leaving (h : RingOk s ring dead) : Leaving s ring dead :=
  ⟨h.1, h.2.1, fun hdead => absurd hdead h.2.2⟩

theorem sameLinks_setState (s : RunQueue σ) (t : Nat) (state : TaskState) :
    SameLinks s (setState s t state) := by
  refine ⟨rfl, rfl, rfl, rfl, ?_⟩
  by_cases ht : idleTask = t
  · simp [setState, ht]
  · simp only [setState, update_of_ne ht]

theorem setState_self (s : RunQueue σ) (t : Nat) (state : TaskState) :
    ((setState s t state).task t).state = state := by
  simp [setState]

theorem setState_other (s : RunQueue σ) (state : TaskState) {t u : Nat} (hne : u ≠ t) :
    ((setState s t state).task u).state = (s.task u).state := by
  simp only [setState, update_of_ne hne]

variable (h : Shape s cur ring dead)
include h

/-- A change of states that keeps the links. A task keeps its state, becomes ready
    while it is not dead, or is the one of the ring that runs from now on. The one
    that ran until now does not run any more, and is not dead. -/
theorem shape_states (hlinks : SameLinks s s') (hstate : ∀ t, (s'.task t).state = (s.task t).state ∨
      (s.task t).state ≠ .dead ∧ (s'.task t).state = .ready ∨ t = cur' ∧ t ∈ ring)
    (hcur : cur ∈ ring → cur = cur' ∨
      (s.task cur).state ≠ .running ∧ (s.task cur).state ≠ .dead) :
    Shape s' cur' ring dead where
  circular := hlinks.next ▸ h.circular
  linked := by
    rw [hlinks.next, hlinks.deadList]
    exact h.linked
  disjoint := h.disjoint
  nonnull := h.nonnull
  alive := by
    intro t ht hne
    rcases hstate t with heq | ⟨_, heq⟩ | ⟨hc, _⟩
    · rw [heq]
      by_cases hc : t = cur
      · subst hc
        exact ((hcur ht).resolve_left hne).2
      · exact h.alive t ht hc
    · rw [heq]
      exact TaskState.noConfusion
    · exact absurd hc hne
  buried := by
    intro t ht
    rcases hstate t with heq | ⟨hlive, _⟩ | ⟨_, hmem⟩
    · exact heq.trans (h.buried t ht)
    · exact absurd (h.buried t ht) hlive
    · exact absurd ht (h.disjoint t hmem)
  running := by
    intro t ht hrun
    rcases hstate t with heq | ⟨_, heq⟩ | ⟨hc, _⟩
    · rw [heq] at hrun
      obtain rfl := h.running t ht hrun
      exact (hcur ht).resolve_right fun hc => hc.1 hrun
    · rw [heq] at hrun
      cases hrun
    · exact hc
  accounted := by
    rw [hlinks.created, hlinks.released]
    exact h.accounted
  idlePid := hlinks.idlePid.trans h.idlePid

/-- The current task may take any state. -/
theorem shape_current (hcur : cur ∈ ring) (hlinks : SameLinks s s')
    (hother : ∀ t ≠ cur, (s'.task t).state = (s.task t).state) : Shape s' cur ring dead := by
  refine shape_states h hlinks (fun t => ?_) fun _ => .inl rfl
  by_cases ht : t = cur
  · exact .inr (.inr ⟨ht, ht ▸ hcur⟩)
  · exact .inl (hother t ht)

/-- A task that is not dead may become ready. -/
theorem shape_ready (hlinks : SameLinks s s') (hstate : ∀ t, (s'.task t).state = (s.task t).state ∨
      (s.task t).state ≠ .dead ∧ (s'.task t).state = .ready) : Shape s' cur ring dead :=
  shape_states h hlinks (fun t => (hstate t).imp_right .inl) fun _ => .inl rfl

/-- Another task of the ring runs, when the last one does not any more. -/
theorem shape_setCurrent {next : Nat} (hnext : next ∈ ring)
    (hcur : cur ∈ ring → (s.task cur).state ≠ .running ∧ (s.task cur).state ≠ .dead) :
    Shape (setCurrent s next) next ring dead := by
  have hlinks := sameLinks_setState s next .running
  refine shape_states h ⟨hlinks.1, hlinks.2, hlinks.3, hlinks.4, hlinks.5⟩ (fun t => ?_)
    fun hmem => .inr (hcur hmem)
  by_cases ht : t = next
  · exact .inr (.inr ⟨ht, ht ▸ hnext⟩)
  · exact .inl (setState_other s _ ht)

end

section

variable {s s' : RunQueue σ} {cur t p : Nat} {ring dead : List Nat}

/-- A task other than the idle task leaves the ring for the list of dead tasks. -/
theorem shape_bury (h : Shape s cur ring dead) (hpmem : p ∈ ring) (hpt : s.next p = t)
    (hidle : t ≠ idleTask) (hlinks : SameLinks (bury s p t) s') (hself : (s'.task t).state = .dead)
    (hother : ∀ u ≠ t, (s'.task u).state = (s.task u).state) (hpid : (s'.task idleTask).pid = 0) :
    ∃ ring', (t :: ring').Perm ring ∧ Shape s' cur ring' (t :: dead) := by
  rcases circular_unlink h.circular hpmem hpt hidle with ⟨ring', hcircular, hperm, hp⟩
  have ht : t ∈ ring := hperm.mem_iff.mp mem_cons_self
  have hnodup : (t :: ring').Nodup := hperm.nodup_iff.mpr h.circular.nodup
  have hsub : ∀ u ∈ ring', u ∈ ring := fun u hu => hperm.mem_iff.mp (mem_cons_of_mem t hu)
  have hne : ∀ u ∈ ring', u ≠ t := fun u hu hc => (nodup_cons.mp hnodup).1 (hc ▸ hu)
  have hnext : s'.next =
      update (update s.next p (s.next t)) t s.deadList := hlinks.next
  -- The two stores are to records of the ring, so the dead tasks keep their links.
  have hdead : ∀ u ∈ dead, s'.next u = s.next u := by
    intro u hu
    have hut : u ≠ t := fun hc => h.disjoint t ht (hc ▸ hu)
    have hup : u ≠ p := fun hc => h.disjoint p (hsub p hp) (hc ▸ hu)
    rw [hnext, update_of_ne hut, update_of_ne hup]
  refine ⟨ring', hperm, ?_, ?_, ?_, ?_, ?_, ?_, ?_, ?_, hpid⟩
  · refine circular_congr hcircular fun u hu => ?_
    rw [hnext, update_of_ne (hne u hu)]
  · rw [hlinks.deadList]
    refine linked_cons.mpr ⟨rfl, fun hc => h.nonnull (hc ▸ ht), ?_⟩
    rw [hnext, update_self, ← hnext]
    exact linked_congr hdead h.linked
  · intro u hu hmem
    rcases mem_cons.mp hmem with hc | hmem
    · exact hne u hu hc
    · exact h.disjoint u (hsub u hu) hmem
  · exact fun hmem => h.nonnull (hsub 0 hmem)
  · intro u hu hcur
    rw [hother u (hne u hu)]
    exact h.alive u (hsub u hu) hcur
  · intro u hu
    rcases mem_cons.mp hu with rfl | hmem
    · exact hself
    · have hut : u ≠ t := fun hc => h.disjoint t ht (hc ▸ hmem)
      rw [hother u hut]
      exact h.buried u hmem
  · intro u hu hrun
    rw [hother u (hne u hu)] at hrun
    exact h.running u (hsub u hu) hrun
  · rw [hlinks.created, hlinks.released]
    refine h.accounted.trans (List.Perm.append_right s.released ?_)
    exact (hperm.symm.append_right dead).trans perm_middle.symm

/-- A new task goes before the current one. -/
theorem shape_insert (h : Shape s s.current ring dead) {tail : Nat}
    (htail : tail ∈ ring) (hnext : s.next tail = s.current) {record : Task}
    (hring : t ∉ ring) (hdead : t ∉ dead) (hnull : t ≠ 0) (hstate : record.state = .ready) :
    ∃ ring', ring'.Perm (t :: ring) ∧ Shape (insertTask s tail t record) s.current ring' dead := by
  rcases circular_link h.circular htail hnext hring with ⟨ring', hcircular, hperm⟩
  have htask : ∀ u ≠ t, (insertTask s tail t record).task u = s.task u := by
    intro u hu
    simp only [insertTask, update_of_ne hu]
  have hself : (insertTask s tail t record).task t = record := by
    simp [insertTask]
  have hidle : idleTask ≠ t := fun hc => hring (hc ▸ h.circular.mem)
  -- A record of the new ring is the new one, or was on the ring.
  have hmem : ∀ u ∈ ring', u = t ∨ u ≠ t ∧ u ∈ ring := by
    intro u hu
    rcases mem_cons.mp (hperm.mem_iff.mp hu) with hc | hu'
    · exact .inl hc
    · exact .inr ⟨fun hc => hring (hc ▸ hu'), hu'⟩
  refine ⟨ring', hperm, hcircular, ?_, ?_, ?_, ?_, ?_, ?_, ?_, ?_⟩
  · refine linked_congr (fun u hu => ?_) h.linked
    have hut : u ≠ t := fun hc => hdead (hc ▸ hu)
    have hutail : u ≠ tail := fun hc => h.disjoint tail htail (hc ▸ hu)
    exact (update_of_ne hut _ _).trans (update_of_ne hutail _ _)
  · intro u hu
    rcases hmem u hu with rfl | ⟨_, hu'⟩
    · exact hdead
    · exact h.disjoint u hu'
  · intro hc
    rcases hmem 0 hc with hc | ⟨_, hc⟩
    · exact hnull hc.symm
    · exact h.nonnull hc
  · intro u hu hne
    rcases hmem u hu with rfl | ⟨hut, hu'⟩
    · rw [hself, hstate]
      exact TaskState.noConfusion
    · rw [htask u hut]
      exact h.alive u hu' hne
  · intro u hu
    rw [htask u fun hc => hdead (hc ▸ hu)]
    exact h.buried u hu
  · intro u hu hrun
    rcases hmem u hu with rfl | ⟨hut, hu'⟩
    · rw [hself, hstate] at hrun
      cases hrun
    · rw [htask u hut] at hrun
      exact h.running u hu' hrun
  · have hnew : (idleTask :: (s.created ++ [t])).Perm (t :: (ring ++ dead ++ s.released)) :=
      (perm_append_singleton t (idleTask :: s.created)).trans (h.accounted.cons t)
    exact hnew.trans ((hperm.symm.append_right dead).append_right s.released)
  · rw [htask idleTask hidle]
    exact h.idlePid

/-- A record the heap may hand out again is not in use. -/
theorem fresh_unused (h : Shape s cur ring dead) (hidle : t ≠ idleTask)
    (hfresh : s.created.count t = s.released.count t) : t ∉ ring ∧ t ∉ dead := by
  have hcount := h.accounted.count_eq t
  rw [count_append, count_append, count_cons_of_ne (Ne.symm hidle)] at hcount
  have hzero : ring.count t = 0 ∧ dead.count t = 0 := by omega
  exact ⟨count_eq_zero.mp hzero.1, count_eq_zero.mp hzero.2⟩

end

section

variable (src : Pages σ) {s : RunQueue σ} {cur fuel : Nat}
  {ring dead : List Nat}

theorem shape_freeDead {d : Nat} (h : Shape s cur ring (d :: dead)) :
    Shape (freeDead src (popDead s d) d) cur ring dead := by
  rcases linked_cons.mp h.linked with ⟨_, _, hrest⟩
  refine ⟨h.circular, hrest, ?_, h.nonnull, h.alive, ?_, h.running, ?_, h.idlePid⟩
  · exact fun t ht hmem => h.disjoint t ht (mem_cons_of_mem d hmem)
  · exact fun t ht => h.buried t (mem_cons_of_mem d ht)
  · refine h.accounted.trans ?_
    -- The record moves from the dead tasks to the released ones.
    have hmove : (ring ++ d :: dead).Perm (ring ++ dead ++ [d]) := by
      rw [append_assoc]
      exact List.Perm.append_left ring (perm_append_singleton d dead).symm
    have hall := hmove.append_right s.released
    rw [append_assoc (ring ++ dead)] at hall
    exact hall.trans (List.Perm.append_left (ring ++ dead) perm_append_comm)

/-- What reaping leaves alone. -/
def Reaped (s s' : RunQueue σ) (dead : List Nat) : Prop :=
  s'.task = s.task ∧ s'.current = s.current ∧ s'.next = s.next ∧
    s'.released = s.released ++ dead

/-- Reaping releases the dead tasks, each once and in order, and nothing else. -/
theorem reap_cases (dead : List Nat) : ∀ (fuel : Nat) (s : RunQueue σ), Shape s cur ring dead →
    if dead.length < fuel then
      ∃ s', schedReap src fuel s = some s' ∧ Shape s' cur ring [] ∧ Reaped s s' dead
    else schedReap src fuel s = none := by
  induction dead with
  | nil =>
    rintro (_ | fuel) s h
    · rfl
    -- An empty list ends the loop at its first test.
    · rw [length_nil, if_pos (Nat.succ_pos fuel), schedReap,
        if_neg (not_not_intro (linked_nil.mp h.linked))]
      exact ⟨s, rfl, h, rfl, rfl, rfl, (append_nil _).symm⟩
  | cons d dead ih =>
    rintro (_ | fuel) s h
    · rfl
    · rcases linked_cons.mp h.linked with ⟨hhead, hnull, _⟩
      have hrest := ih fuel _ (shape_freeDead src h)
      simp only [schedReap, hhead, if_pos hnull, length_cons, Nat.succ_lt_succ_iff]
      split_ifs at hrest ⊢
      · rcases hrest with ⟨s', hreap, hshape, htask, hcurrent, hnext, hreleased⟩
        refine ⟨s', hreap, hshape, htask, hcurrent, hnext, hreleased.trans ?_⟩
        exact append_assoc s.released [d] dead
      · exact hrest

theorem reap_spec {s' : RunQueue σ} (h : Shape s cur ring dead)
    (hreap : schedReap src fuel s = some s') : Shape s' cur ring [] ∧ Reaped s s' dead := by
  have hcases := reap_cases src dead fuel s h
  rw [hreap] at hcases
  split_ifs at hcases
  rcases hcases with ⟨_, heq, hspec⟩
  cases heq
  exact hspec

theorem reap_some (h : Shape s cur ring dead) (hfuel : dead.length < fuel) :
    ∃ s', schedReap src fuel s = some s' := by
  have hcases := reap_cases src dead fuel s h
  rw [if_pos hfuel] at hcases
  exact hcases.imp fun _ hspec => hspec.1

theorem reap_created (fuel : Nat) (s s' : RunQueue σ) (hreap : schedReap src fuel s = some s') :
    s'.created = s.created := by
  fun_induction schedReap src fuel s with
  | case1 => cases hreap
  | case2 fuel s _ ih => exact ih hreap
  | case3 => cases hreap; rfl

end

section

variable {s s' : RunQueue σ} {ring dead : List Nat} {prev next cur sp fuel : Nat}
  (src : Pages σ)

/-- The scan ends at a task of the ring: a runnable one, or the idle task. -/
theorem pick_spec (hring : Circular s.next idleTask ring) (fuel t best : Nat) (pri : Int)
    (ht : t ∈ ring) (hbest : best ∈ ring) (hgood : best = idleTask ∨ runnable s prev best = true)
    (hpick : pick s prev fuel t best pri = some next) :
    next ∈ ring ∧ (next = idleTask ∨ runnable s prev next = true) := by
  -- The better of the two so far is one or the other.
  have hstep : ∀ t best pri, t ∈ ring → best ∈ ring →
      (best = idleTask ∨ runnable s prev best = true) →
      (if better s prev t pri = true then t else best) ∈ ring ∧
        ((if better s prev t pri = true then t else best) = idleTask ∨
          runnable s prev (if better s prev t pri = true then t else best) = true) := by
    intro t best pri ht hbest hgood
    split_ifs with hb
    · exact ⟨ht, .inr (Bool.and_eq_true _ _ ▸ hb).1⟩
    · exact ⟨hbest, hgood⟩
  fun_induction pick s prev fuel t best pri with
  | case1 => cases hpick
  | case2 fuel t best bestPri pri best' _ ih =>
    have hbetter := hstep t best bestPri ht hbest hgood
    exact ih (circular_next_mem hring ht) hbetter.1 hbetter.2 hpick
  | case3 fuel t best bestPri =>
    obtain rfl := Option.some.inj hpick
    exact hstep t best bestPri ht hbest hgood

/-- The scan is over when it comes to the task it started after. -/
theorem pick_some {prev n fuel t best : Nat} {pri : Int} (hreach : s.next^[n] t = prev)
    (hfuel : n < fuel) : ∃ next, pick s prev fuel t best pri = some next := by
  fun_induction pick s prev fuel t best pri generalizing n with
  | case1 => omega
  | case2 =>
    rename_i hgo ih
    rcases n with _ | n
    -- This is `prev`, and the loop condition compares successors.
    · exact absurd (congrArg s.next hreach) hgo
    · exact ih hreach (Nat.lt_of_succ_lt_succ hfuel)
  | case3 => exact ⟨_, rfl⟩

theorem demote_shape (h : Leaving s ring dead) :
    Shape (demote s s.current) s.current ring dead := by
  rw [demote]
  split
  · exact shape_current h.shape h.mem (sameLinks_setState s _ _) fun t ht => setState_other s _ ht
  · exact h.shape

theorem demote_current (s : RunQueue σ) :
    ((demote s s.current).task s.current).state ≠ .running := by
  rw [demote]
  split
  · rw [setState_self]
    exact TaskState.noConfusion
  · assumption

theorem demote_dead (s : RunQueue σ) (hdead : ((demote s s.current).task s.current).state = .dead) :
    (s.task s.current).state = .dead := by
  rw [demote] at hdead
  split at hdead
  · rw [setState_self] at hdead
    cases hdead
  · exact hdead

theorem sameLinks_demote (s : RunQueue σ) (t : Nat) : SameLinks s (demote s t) := by
  rw [demote]
  split
  · exact sameLinks_setState s t .ready
  · exact ⟨rfl, rfl, rfl, rfl, rfl⟩

theorem contextSwitch_kept (s : RunQueue σ) (prev next sp t : Nat) :
    ((contextSwitch s prev next sp).task t).state = (s.task t).state ∧
      ((contextSwitch s prev next sp).task t).pid = (s.task t).pid := by
  by_cases ht : t = prev
  · simp [ht, contextSwitch]
  · simp [contextSwitch, update_of_ne ht]

/-- The stack pointer is not part of the shape. -/
theorem contextSwitch_shape (h : Shape s cur ring dead) :
    Shape (contextSwitch s prev next sp) cur ring dead :=
  shape_ready h ⟨rfl, rfl, rfl, rfl, (contextSwitch_kept s prev next sp idleTask).2⟩
    fun t => .inl (contextSwitch_kept s prev next sp t).1

/-- The end of a switch to a task of the ring, whichever way the last one left. -/
theorem switched (h : Shape s cur ring dead) (hnext : next ∈ ring)
    (hcur : cur ∈ ring → (s.task cur).state ≠ .running ∧ (s.task cur).state ≠ .dead) :
    RingOk (contextSwitch (setCurrent s next) prev next sp) ring dead := by
  refine ⟨contextSwitch_shape (shape_setCurrent h hnext hcur), hnext, fun hdead => ?_⟩
  rw [(contextSwitch_kept (setCurrent s next) prev next sp _).1] at hdead
  exact TaskState.noConfusion ((setState_self s next .running).symm.trans hdead)

theorem switchTo_spec (h : Leaving s ring dead) (hnext : next ∈ ring) (hne : next ≠ s.current)
    (hswitch : switchTo fuel s s.current next sp = some s') :
    (∃ ring' dead', RingOk s' ring' dead') ∧ s'.released = s.released := by
  have hshape := demote_shape h
  have hlinks := sameLinks_demote s s.current
  rw [switchTo] at hswitch
  split at hswitch
  case isTrue hdead =>
    rcases map_eq_some_iff.mp hswitch with ⟨left, hleft, rfl⟩
    rcases map_eq_some_iff.mp hleft with ⟨p, hwalk, rfl⟩
    rcases predecessor_pred hshape.circular h.mem hwalk with ⟨hp, hpt⟩
    rcases shape_bury hshape hp hpt (h.exits (demote_dead s hdead)) ⟨rfl, rfl, rfl, rfl, rfl⟩ hdead
      (fun u _ => rfl) hshape.idlePid with ⟨ring', hperm, hbury⟩
    -- The chosen task is not the one that is buried, so it is still on the ring.
    have hmem := (mem_cons.mp (hperm.mem_iff.mpr hnext)).resolve_left hne
    have hgone : s.current ∉ ring' :=
      (nodup_cons.mp (hperm.nodup_iff.mpr hshape.circular.nodup)).1
    exact ⟨⟨ring', _, switched hbury hmem fun hc => absurd hc hgone⟩, hlinks.released⟩
  case isFalse hlive =>
    cases hswitch
    exact ⟨⟨ring, dead, switched hshape hnext fun _ => ⟨demote_current s, hlive⟩⟩,
      hlinks.released⟩

/-- Reaping changes nothing for the task that is about to leave. -/
theorem reap_leaving {r : RunQueue σ} (h : Leaving s ring dead)
    (hreap : schedReap src fuel s = some r) :
    Leaving r ring [] ∧ r.released = s.released ++ dead := by
  rcases reap_spec src h.shape hreap with ⟨hshape, htask, hcurrent, _, hreleased⟩
  refine ⟨⟨hcurrent ▸ hshape, hcurrent ▸ h.mem, ?_⟩, hreleased⟩
  rw [htask, hcurrent]
  exact h.exits

theorem schedule_spec (h : Leaving s ring dead) (hrun : schedule src fuel s sp = some s') :
    (∃ ring' dead', RingOk s' ring' dead') ∧ s'.released = s.released ++ dead := by
  rcases bind_eq_some_iff.mp hrun with ⟨r, hreap, hrun⟩
  rcases reap_leaving src h hreap with ⟨hleaving, hreleased⟩
  rcases bind_eq_some_iff.mp hrun with ⟨next, hpick, hrun⟩
  have hcur := hleaving.mem
  have hshape := hleaving.shape
  rcases pick_spec hshape.circular fuel _ idleTask (-1) (circular_next_mem hshape.circular hcur)
    hshape.circular.mem (.inl rfl) hpick with ⟨hmem, hgood⟩
  by_cases hnext : next = r.current
  · -- The current task stays. It is not dead, since it is runnable or the idle task.
    rw [if_pos hnext] at hrun
    cases hrun
    refine ⟨⟨ring, [], ?_, hcur, ?_⟩, hreleased⟩
    · exact shape_current hleaving.shape hcur (sameLinks_setState r _ _)
        fun t ht => setState_other r _ ht
    · exact fun hdead =>
        TaskState.noConfusion ((setState_self r r.current .running).symm.trans hdead)
  · rw [if_neg hnext] at hrun
    rcases switchTo_spec hleaving hmem hnext hrun with ⟨hok, hsame⟩
    exact ⟨hok, hsame.trans hreleased⟩

end

section

variable {s : RunQueue σ} {ring dead : List Nat} {fuel : Nat}

theorem walk_some {cur t : Nat} (h : Shape s cur ring dead) (ht : t ∈ ring)
    (hfuel : ring.length ≤ fuel) : ∃ p, predecessor s.next t fuel t = some p := by
  rcases circular_from h.circular ht with ⟨ys, hys, hperm⟩
  exact predecessor_some hys (hperm.length_eq ▸ hfuel)

theorem switchTo_some {next sp : Nat} (h : Leaving s ring dead) (hfuel : ring.length ≤ fuel) :
    ∃ s', switchTo fuel s s.current next sp = some s' := by
  rw [switchTo]
  split
  · rcases walk_some (demote_shape h) h.mem hfuel with ⟨p, hp⟩
    rw [unlinkDead, hp]
    exact ⟨_, rfl⟩
  · exact ⟨_, rfl⟩

theorem schedule_some (src : Pages σ) (sp : Nat) (h : Leaving s ring dead)
    (hfuel : ring.length + dead.length < fuel) : ∃ s', schedule src fuel s sp = some s' := by
  rcases @reap_some σ src s _ fuel ring dead h.shape (by omega) with ⟨r, hreap⟩
  have hleaving := (reap_leaving src h hreap).1
  have hcur := hleaving.mem
  have hshape := hleaving.shape
  -- The scan comes back to the current task after at most one lap.
  rcases circular_reaches hshape.circular (circular_next_mem hshape.circular hcur) hcur with
    ⟨n, hn, hreach⟩
  rcases @pick_some σ r r.current n fuel _ idleTask (-1) hreach (by omega) with ⟨next, hpick⟩
  rw [schedule, hreap]
  simp only [hpick, bind_some]
  split
  · exact ⟨_, rfl⟩
  · exact switchTo_some hleaving (by omega)

end

section

variable {s s' : RunQueue σ} {ring dead : List Nat} {fuel pid t : Nat}
  (src : Pages σ)

/-- A search ends with a task of the ring that has the number, or without one. -/
theorem findFrom_spec (hring : Circular s.next idleTask ring) {fuel u : Nat} (hu : u ∈ ring)
    (hfind : findFrom s pid fuel u = some t) : t = 0 ∨ t ∈ ring ∧ (s.task t).pid = pid := by
  fun_induction findFrom s pid fuel u with
  | case1 => cases hfind
  | case2 fuel u hpid => cases hfind; exact .inr ⟨hu, hpid⟩
  | case3 fuel u _ _ ih => exact ih (circular_next_mem hring hu) hfind
  | case4 => cases hfind; exact .inl rfl

theorem findFrom_some {n fuel u : Nat} (hreach : s.next^[n] (s.next u) = idleTask)
    (hfuel : n < fuel) : ∃ t, findFrom s pid fuel u = some t := by
  fun_induction findFrom s pid fuel u generalizing n with
  | case1 => omega
  | case3 fuel u _ hgo ih =>
    rcases n with _ | n
    · exact absurd hreach hgo
    · exact ih hreach (Nat.lt_of_succ_lt_succ hfuel)
  | case2 | case4 => exact ⟨_, rfl⟩

variable (h : RingOk s ring dead)
include h

theorem killOther_spec (ht : t ∈ ring) (hidle : t ≠ idleTask) (hne : t ≠ s.current)
    (hkill : killOther fuel s t = some s') :
    (∃ ring' dead', RingOk s' ring' dead') ∧ s'.released = s.released ∧ s'.current = s.current := by
  rcases map_eq_some_iff.mp hkill with ⟨left, hleft, rfl⟩
  rcases map_eq_some_iff.mp hleft with ⟨p, hwalk, rfl⟩
  -- The task is unlinked first and marked dead after, and the order makes no difference.
  have hother : ∀ u ≠ t, ((setState (bury s p t) t .dead).task u).state = (s.task u).state :=
    fun u hu => setState_other _ _ hu
  have hlinks := sameLinks_setState (bury s p t) t .dead
  rcases predecessor_pred h.1.circular ht hwalk with ⟨hp, hpt⟩
  rcases shape_bury h.1 hp hpt hidle hlinks (setState_self _ _ _) hother
    (hlinks.idlePid.trans h.1.idlePid) with ⟨ring', hperm, hshape⟩
  refine ⟨⟨ring', t :: dead, hshape, ?_, ?_⟩, rfl, rfl⟩
  · exact (mem_cons.mp (hperm.mem_iff.mpr h.2.1)).resolve_left (Ne.symm hne)
  · exact fun hdead => h.2.2 ((hother s.current (Ne.symm hne)).symm.trans hdead)

/-- The current task, once it is marked dead. -/
theorem exit_leaving (hidle : s.current ≠ idleTask) :
    Leaving (setState s s.current .dead) ring dead :=
  ⟨shape_current h.1 h.2.1 (sameLinks_setState s _ _) fun _ ht => setState_other s _ ht, h.2.1,
    fun _ => hidle⟩

/-- A task found by a number other than 0 is not the idle task. -/
theorem found_not_idle (hpid : pid ≠ 0) (hfound : (s.task t).pid = pid) : t ≠ idleTask := by
  rintro rfl
  exact hpid (hfound.symm.trans h.1.idlePid)

theorem kill_spec {sp : Nat} {r : Int}
    (hkill : schedKillTask src fuel s pid sp = some (s', r)) :
    (∃ ring' dead', RingOk s' ring' dead') ∧
      (s'.released = s.released ∨ s'.released = s.released ++ dead) := by
  rw [schedKillTask] at hkill
  split_ifs at hkill with hpid
  · cases hkill
    exact ⟨⟨ring, dead, h⟩, .inl rfl⟩
  rcases bind_eq_some_iff.mp hkill with ⟨t, hfind, hkill⟩
  rcases findFrom_spec h.1.circular h.1.circular.mem hfind with hzero | ⟨ht, hfound⟩
  · rw [if_pos hzero] at hkill
    cases hkill
    exact ⟨⟨ring, dead, h⟩, .inl rfl⟩
  -- What is left is a task of the ring that is not the idle task.
  have hidle := found_not_idle h hpid hfound
  split at hkill
  · cases hkill
    exact ⟨⟨ring, dead, h⟩, .inl rfl⟩
  split at hkill
  · cases hkill
    exact ⟨⟨ring, dead, h⟩, .inl rfl⟩
  split at hkill
  case isTrue hcur =>
    rcases map_eq_some_iff.mp hkill with ⟨q, hexit, heq⟩
    cases heq
    rcases schedule_spec src (exit_leaving h (hcur ▸ hidle)) hexit with ⟨hok, hreleased⟩
    exact ⟨hok, .inr hreleased⟩
  case isFalse hcur =>
    rcases map_eq_some_iff.mp hkill with ⟨q, hother, heq⟩
    cases heq
    rcases killOther_spec h ht hidle hcur hother with ⟨hok, hreleased, _⟩
    exact ⟨hok, .inl hreleased⟩

theorem kill_some (pid sp : Nat) (hfuel : ring.length + dead.length < fuel) :
    ∃ s' r, schedKillTask src fuel s pid sp = some (s', r) := by
  rw [schedKillTask]
  by_cases hpid : pid = 0
  · exact ⟨s, -1, by rw [if_pos hpid]⟩
  rw [if_neg hpid]
  have hidle := h.1.circular.mem
  rcases circular_reaches h.1.circular (circular_next_mem h.1.circular hidle) hidle with
    ⟨n, hn, hreach⟩
  rcases @findFrom_some σ s pid n fuel idleTask hreach (by omega) with ⟨t, hfind⟩
  rw [hfind, bind_some]
  split
  · exact ⟨s, -1, rfl⟩
  case isFalse hnull =>
  rcases (findFrom_spec h.1.circular hidle hfind).resolve_left hnull with ⟨ht, hfound⟩
  split
  · exact ⟨s, -1, rfl⟩
  split
  case isTrue hcur =>
    have hleaving := exit_leaving h (hcur ▸ found_not_idle h hpid hfound)
    rcases schedule_some src sp hleaving hfuel with ⟨s', hexit⟩
    exact ⟨s', 0, by rw [taskExit, hexit]; rfl⟩
  case isFalse =>
    rcases walk_some h.1 ht (show ring.length ≤ fuel by omega) with ⟨p, hp⟩
    rw [killOther, unlinkDead, hp]
    exact ⟨_, 0, rfl⟩

end

section

variable {s s' : RunQueue σ} {ring dead : List Nat} (now : Nat)

theorem ringOk_ready (h : RingOk s ring dead) (hlinks : SameLinks s s')
    (hcurrent : s'.current = s.current) (hstate : ∀ t, (s'.task t).state = (s.task t).state ∨
      (s.task t).state ≠ .dead ∧ (s'.task t).state = .ready) : RingOk s' ring dead := by
  have hshape := shape_ready h.1 hlinks hstate
  rw [RingOk, hcurrent]
  refine ⟨hshape, h.2.1, ?_⟩
  rcases hstate s.current with heq | ⟨_, heq⟩
  · rw [heq]
    exact h.2.2
  · rw [heq]
    exact TaskState.noConfusion

theorem wake_links (s : RunQueue σ) (t : Nat) :
    SameLinks s (wake now s t) ∧ (wake now s t).current = s.current := by
  rw [wake]
  split
  · refine ⟨⟨rfl, rfl, rfl, rfl, ?_⟩, rfl⟩
    by_cases ht : idleTask = t
    · simp [ht]
    · simp only [update_of_ne ht]
  · exact ⟨⟨rfl, rfl, rfl, rfl, rfl⟩, rfl⟩

theorem wake_ok (t : Nat) (h : RingOk s ring dead) : RingOk (wake now s t) ring dead := by
  have hlinks := wake_links now s t
  refine ringOk_ready h hlinks.1 hlinks.2 fun u => ?_
  rw [wake]
  split
  case isTrue hsleep =>
    by_cases hu : u = t
    · refine .inr ⟨?_, ?_⟩
      · rw [hu, hsleep.1]
        exact TaskState.noConfusion
      · simp [hu]
    · refine .inl ?_
      simp only [update_of_ne hu]
  case isFalse => exact .inl rfl

theorem wakeFrom_ok {fuel : Nat} {s : RunQueue σ} {t : Nat} (h : RingOk s ring dead)
    (hwake : wakeFrom now fuel s t = some s') :
    RingOk s' ring dead ∧ s'.released = s.released ∧ s'.current = s.current := by
  fun_induction wakeFrom now fuel s t with
  | case1 => cases hwake
  | case2 fuel s t _ ih =>
    rcases ih (wake_ok now t h) hwake with ⟨hok, hreleased, hcurrent⟩
    have hlinks := wake_links now s t
    exact ⟨hok, hreleased.trans hlinks.1.released, hcurrent.trans hlinks.2⟩
  | case3 => cases hwake; exact ⟨h, rfl, rfl⟩

theorem wakeFrom_some {n fuel : Nat} {s : RunQueue σ} {t : Nat} (hreach : s.next^[n] t = idleTask)
    (hfuel : n < fuel) : ∃ s', wakeFrom now fuel s t = some s' := by
  fun_induction wakeFrom now fuel s t generalizing n with
  | case1 => omega
  | case2 fuel s t hgo ih =>
    rcases n with _ | n
    · exact absurd hreach hgo
    -- The walk reads the link of a task it has just woken, and waking keeps the links.
    · refine ih ?_ (Nat.lt_of_succ_lt_succ hfuel)
      rw [(wake_links now s t).1.next]
      exact hreach
  | case3 => exact ⟨_, rfl⟩

theorem makeReady_links (s : RunQueue σ) (t : Nat) :
    SameLinks s (schedMakeReady s t) ∧ (schedMakeReady s t).current = s.current := by
  rw [schedMakeReady]
  split
  · exact ⟨sameLinks_setState s t .ready, rfl⟩
  · exact ⟨⟨rfl, rfl, rfl, rfl, rfl⟩, rfl⟩

theorem makeReady_ok (t : Nat) (h : RingOk s ring dead) :
    RingOk (schedMakeReady s t) ring dead := by
  rw [schedMakeReady]
  split
  case isTrue hlive =>
    refine ringOk_ready h (sameLinks_setState s t .ready) rfl fun u => ?_
    by_cases hu : u = t
    · exact .inr ⟨hu ▸ hlive.2, hu ▸ setState_self s t .ready⟩
    · exact .inl (setState_other s .ready hu)
  case isFalse => exact h

end

section

variable {s s' : RunQueue σ} {ring dead : List Nat} {fuel t : Nat}
  (src : Pages σ) (img : KernelImage)

/-- What a constructor leaves in an empty queue: nothing, or one task that is ready
    to run. -/
def Builds (built : Sched σ) : Prop :=
  built.queue = [] ∨ ∃ record, built.queue = [record] ∧ record.state = .ready

theorem createKernelTask_builds (s : RunQueue σ) (entry : Nat) :
    Builds (Sched.schedCreateKernelTask src img (builder s) true entry).1 := by
  rw [Sched.schedCreateKernelTask, if_neg Bool.noConfusion]
  dsimp only
  split
  · exact .inl rfl
  · exact .inr ⟨_, rfl, rfl⟩

theorem createTask_builds (s : RunQueue σ) (fdsOk : Bool) (entry : Nat) :
    Builds (Sched.schedCreateTask src img (builder s) true fdsOk entry).1 := by
  rw [Sched.schedCreateTask, if_neg Bool.noConfusion]
  dsimp only
  split_ifs
  all_goals first | exact .inl rfl | exact .inr ⟨_, rfl, rfl⟩

theorem fork_builds (s : RunQueue σ) (fdsOk : Bool) (parent : Task) (frame : Nat) :
    Builds (Sched.schedFork src img (builder s) true fdsOk parent frame).1 := by
  rw [Sched.schedFork, if_neg Bool.noConfusion]
  dsimp only
  split_ifs
  all_goals first | exact .inl rfl | exact .inr ⟨_, rfl, rfl⟩

/-- The heap may hand out the record `t`: every task that was created in it has
    been released. -/
def Fresh (s : RunQueue σ) (t : Nat) : Prop :=
  t ≠ idleTask ∧ s.created.count t = s.released.count t

theorem create_spec {built : Sched σ × Int} (hbuilt : Builds built.1) {r : Int}
    (h : RingOk s ring dead) (hfresh : t = 0 ∨ Fresh s t)
    (hcreate : createWith fuel s t built = some (s', r)) :
    (∃ ring' dead', RingOk s' ring' dead') ∧ s'.released = s.released ∧ s'.current = s.current := by
  rw [createWith] at hcreate
  split_ifs at hcreate with hnull
  · cases hcreate
    exact ⟨⟨ring, dead, h⟩, rfl, rfl⟩
  rcases hfresh.resolve_left hnull with ⟨hidle, hcount⟩
  -- By the account of the records, a fresh one is neither on the ring nor dead.
  rcases fresh_unused h.1 hidle hcount with ⟨hring, hdead⟩
  -- The machine and the counters are no part of the shape.
  have hshape : Shape { s with
      machine := built.1.machine
      nextPid := built.1.nextPid
      nextAsid := built.1.nextAsid } s.current ring dead :=
    shape_ready h.1 ⟨rfl, rfl, rfl, rfl, rfl⟩ fun _ => .inl rfl
  rcases hbuilt with hempty | ⟨record, hone, hready⟩
  · simp only [hempty, some.injEq, Prod.mk.injEq] at hcreate
    rw [← hcreate.1]
    exact ⟨⟨ring, dead, hshape, h.2.1, h.2.2⟩, rfl, rfl⟩
  · simp only [hone] at hcreate
    rcases map_eq_some_iff.mp hcreate with ⟨tail, hwalk, heq⟩
    cases heq
    rcases predecessor_pred h.1.circular h.2.1 hwalk with ⟨htail, hnext⟩
    rcases shape_insert hshape htail hnext hring hdead hnull hready with ⟨ring', hperm, hshape'⟩
    refine ⟨⟨ring', dead, hshape', ?_, ?_⟩, rfl, rfl⟩
    · exact hperm.mem_iff.mpr (mem_cons_of_mem t h.2.1)
    · have hne : s.current ≠ t := fun hc => hring (hc ▸ h.2.1)
      simp only [insertTask, update_of_ne hne]
      exact h.2.2

theorem create_some (built : Sched σ × Int) (t : Nat) (h : RingOk s ring dead)
    (hfuel : ring.length ≤ fuel) : ∃ s' r, createWith fuel s t built = some (s', r) := by
  rw [createWith]
  split
  · exact ⟨s, -1, rfl⟩
  rcases hqueue : built.1.queue with _ | ⟨record, rest⟩
  · exact ⟨_, built.2, rfl⟩
  · rcases walk_some h.1 h.2.1 hfuel with ⟨tail, hwalk⟩
    simp only [hwalk]
    exact ⟨_, built.2, rfl⟩

end

end CortexForge.RunQueue
