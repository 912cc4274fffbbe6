import CortexForge.Core.Preempt
import CortexForge.Theory.RingRuns

/-!
# Context Switches under Interrupts

When is it safe to take a timer interrupt inside `schedule`? Two things must never
happen: a context switch that stores the stack pointer into the record of a task
whose kernel stack is not the one in use, and the release of the kernel stack that
is in use.

Both do happen. `schedule` makes another task the current one, and puts a dead task
on the list of those to be reaped, before it has left the stack of the task it
switches from. A nested `schedule` that starts in between takes the wrong task for
its own, or releases the stack it runs on. As long as no interrupt is taken between
the first statement of `schedule` and its context switch, neither happens.

The invariant of such runs says for each statement how far the run queue is from
its shape between operations: `At` lists them. Only the activation in progress is
ever in the middle of `schedule`; the others wait behind a context switch. So
between activations the run queue is as the operations find it, and an activation
that starts finds the task on whose stack it runs to be the current one.

## Main definitions

* `OwnStack`, `SparesStack`: The two safety properties.
* `At`: The run queue at each statement.
* `CpuOk`: The invariant of runs without interrupts inside `schedule`.

## Theorems

* `schedule_statements`: Uninterrupted, the statements do what `schedule` does.
* `step_at`: Each statement leads from its assertion to the next one.
* `shielded_safe`: The two properties, when `schedule` is not interrupted.
-/

namespace CortexForge.Cpu

open RunQueue Function Relation List Option

variable {σ : Type} (src : Pages σ) (img : KernelImage)

/-- A context switch that is about to store the stack pointer stores it into the
    record of the task whose stack is in use. -/
def OwnStack (c : Cpu σ) : Prop :=
  ∀ a rest prev next, c.frames c.stack = a :: rest → a.stmt = .contextSwitch prev next →
    c.stack = prev

/-- A task that is about to be released is not the one whose stack is in use. -/
def SparesStack (c : Cpu σ) : Prop :=
  ∀ a rest dead, c.frames c.stack = a :: rest → a.stmt = .reapFree dead → dead ≠ c.stack

section

variable {prev next fuel : Nat}

variable (sp : Nat)

/-- One statement after the other, without an interrupt. -/
def Stmts (s : RunQueue σ × Stmt) (s' : RunQueue σ × Stmt) : Prop :=
  ReflTransGen (fun p q => step src sp p.1 p.2 = q) s s'

variable {src} {sp} {s s' : RunQueue σ}

theorem reap_statements (hreap : schedReap src fuel s = some s') :
    Stmts src sp (s, .reapTest) (s', .readCurrent) := by
  fun_induction schedReap src fuel s with
  | case1 => cases hreap
  | case2 _ s hdead ih =>
    -- One round of the loop is four statements.
    have htest : step src sp s .reapTest = (s, .reapHead) := by rw [step, if_pos hdead]
    exact .head htest (.head rfl (.head rfl (.head rfl (ih hreap))))
  | case3 _ _ hdead =>
    cases hreap
    exact .single (by rw [step, if_neg hdead])

theorem pick_statements {t best : Nat} {pri : Int}
    (hpick : pick s prev fuel t best pri = some next) :
    Stmts src sp (s, .scan prev t best pri) (s, .choose prev next) := by
  fun_induction pick s prev fuel t best pri with
  | case1 => cases hpick
  | case2 _ _ _ _ _ _ hmore ih => exact .head (by rw [step, if_pos hmore]) (ih hpick)
  | case3 _ _ _ _ _ hmore =>
    obtain rfl := Option.some.inj hpick
    exact .single (by rw [step, if_neg hmore])

theorem walk_statements {t p : Nat} (hwalk : predecessor s.next prev fuel t = some p) :
    Stmts src sp (s, .walk prev next t) (s, .unlink prev next p) := by
  fun_induction predecessor s.next prev fuel t with
  | case1 => cases hwalk
  | case2 _ _ hmore ih => exact .head (by rw [step, if_pos hmore]) (ih hwalk)
  | case3 _ _ hmore =>
    cases hwalk
    exact .single (by rw [step, if_neg hmore])

theorem switch_statements (hswitch : switchTo fuel s prev next sp = some s') :
    Stmts src sp (s, .demote prev next) (s', .leave) := by
  refine .head rfl ?_
  rw [switchTo] at hswitch
  split at hswitch
  case isTrue hdead =>
    rcases map_eq_some_iff.mp hswitch with ⟨left, hleft, rfl⟩
    rcases map_eq_some_iff.mp hleft with ⟨p, hwalk, rfl⟩
    have htest : step src sp (RunQueue.demote s prev) (.testDead prev next) =
        (RunQueue.demote s prev, .walk prev next prev) := by rw [step, if_pos hdead]
    refine .head htest ((walk_statements hwalk).trans ?_)
    -- The burial is three statements, and three more make the switch.
    exact .head rfl (.head rfl (.head rfl (.head rfl (.head rfl (.single rfl)))))
  case isFalse hlive =>
    cases hswitch
    have htest : step src sp (RunQueue.demote s prev) (.testDead prev next) =
        (RunQueue.demote s prev, .markRunning prev next) := by rw [step, if_neg hlive]
    exact .head htest (.head rfl (.head rfl (.single rfl)))

/-- Uninterrupted, the statements of `schedule` do what the operation does. -/
theorem schedule_statements (hrun : schedule src fuel s sp = some s') :
    Stmts src sp (s, .reapTest) (s', .leave) := by
  rcases bind_eq_some_iff.mp hrun with ⟨r, hreap, hrun⟩
  rcases bind_eq_some_iff.mp hrun with ⟨next, hpick, hrun⟩
  -- The two single statements in between read `current` and its successor.
  refine (reap_statements hreap).trans (.head rfl (.head rfl ?_))
  refine (pick_statements hpick).trans ?_
  split at hrun
  case isTrue hsame =>
    cases hrun
    exact .single (by rw [step, if_pos hsame])
  case isFalse hother =>
    exact .head (by rw [step, if_neg hother]) (switch_statements hrun)

/-- A task exits while two dead ones are on the list: these are released, the task is
    taken off the ring, and the processor goes to the idle task. -/
theorem schedule_statements_exit : ∃ s' : RunQueue Pmm.Allocator,
    s'.current = idleTask ∧ s'.deadList = 3 ∧ s'.released = [4, 2] ∧
    Stmts Pmm.pmmSource 0 (give thinned .exit, .reapTest) (s', .leave) := by
  have hres : (schedule Pmm.pmmSource 8 (give thinned .exit) 0).map
      (fun s => (s.current, s.deadList, s.released)) = some (idleTask, 3, [4, 2]) := by
    decide +kernel
  rcases map_eq_some_iff.mp hres with ⟨s', hrun, heq⟩
  simp only [Prod.mk.injEq] at heq
  exact ⟨s', heq.1, heq.2.1, heq.2.2, schedule_statements hrun⟩

end

section

variable {d prev next p : Nat}

/-- The run queue at a statement of an activation on the stack of `me`. Up to the
    burial nothing has left its place but released tasks. From there on `me` is not
    on the ring any more if it is dead, and from `setCurrent` on another task runs. -/
def At (s : RunQueue σ) (me : Nat) : Stmt → Prop
  | .reapTest => ∃ ring dead, Leaving s ring dead ∧ s.current = me
  | .reapHead => ∃ ring dead, Leaving s ring dead ∧ s.current = me ∧ s.deadList ≠ 0
  | .reapPop d => ∃ ring dead, Leaving s ring (d :: dead) ∧ s.current = me
  -- The record is off the list but not released yet, so the account is short by it.
  | .reapFree d => ∃ ring dead, Leaving { s with released := s.released ++ [d] } ring dead ∧
      s.current = me ∧ d ∉ ring
  | .readCurrent => ∃ ring, Leaving s ring [] ∧ s.current = me
  | .scanStart prev => ∃ ring, Leaving s ring [] ∧ s.current = me ∧ prev = me
  | .scan prev t best _ => ∃ ring, Leaving s ring [] ∧ s.current = me ∧ prev = me ∧
      t ∈ ring ∧ best ∈ ring
  | .choose prev next => ∃ ring, Leaving s ring [] ∧ s.current = me ∧ prev = me ∧ next ∈ ring
  | .demote prev next => ∃ ring, Leaving s ring [] ∧ s.current = me ∧ prev = me ∧
      next ∈ ring ∧ next ≠ me
  | .testDead prev next => ∃ ring, Leaving s ring [] ∧ s.current = me ∧ prev = me ∧
      next ∈ ring ∧ next ≠ me ∧ (s.task me).state ≠ .running
  | .walk prev next p => ∃ ring, Leaving s ring [] ∧ s.current = me ∧ prev = me ∧
      next ∈ ring ∧ next ≠ me ∧ (s.task me).state = .dead ∧ p ∈ ring
  | .unlink prev next p => ∃ ring, Leaving s ring [] ∧ s.current = me ∧ prev = me ∧
      next ∈ ring ∧ next ≠ me ∧ (s.task me).state = .dead ∧ p ∈ ring ∧ s.next p = me
  -- The links are halfway through the burial: the shape is that of the finished one.
  | .push prev next => ∃ ring dead,
      Shape { setNext s me s.deadList with deadList := me } me ring dead ∧ prev = me ∧
        next ∈ ring ∧ me ∉ ring
  | .setDead prev next => ∃ ring dead, Shape { s with deadList := me } me ring dead ∧ prev = me ∧
      next ∈ ring ∧ me ∉ ring
  | .markRunning prev next => ∃ ring dead, Shape s me ring dead ∧ prev = me ∧ next ∈ ring ∧
      (me ∈ ring → (s.task me).state ≠ .running ∧ (s.task me).state ≠ .dead)
  | .setCurrent prev next => ∃ ring dead, RingOk { s with current := next } ring dead ∧ prev = me
  | .contextSwitch prev next => ∃ ring dead, RingOk s ring dead ∧ s.current = next ∧ prev = me
  -- The activation continues after its switch only when its task runs again.
  | .leave => ∃ ring dead, RingOk s ring dead ∧ s.current = me

variable {s : RunQueue σ} {me sp : Nat}

theorem at_reapTest (h : At s me .reapTest) :
    At (step src sp s .reapTest).1 me (step src sp s .reapTest).2 := by
  rcases h with ⟨ring, dead, hleaving, hme⟩
  rw [step]
  split_ifs with hdead
  · exact ⟨ring, dead, hleaving, hme, hdead⟩
  · -- A null head is the head of the empty list only.
    have hnil : dead = [] :=
      linked_unique hleaving.shape.linked
        (linked_nil.mpr (not_not.mp hdead))
    exact ⟨ring, hnil ▸ hleaving, hme⟩

theorem at_reapHead (h : At s me .reapHead) :
    At (step src sp s .reapHead).1 me (step src sp s .reapHead).2 := by
  rcases h with ⟨ring, dead, hleaving, hme, hdead⟩
  rcases dead with _ | ⟨d, dead⟩
  · exact absurd (linked_nil.mp hleaving.shape.linked) hdead
  · have hhead : s.deadList = d :=
      (linked_cons.mp hleaving.shape.linked).1
    rw [step, hhead]
    exact ⟨ring, dead, hleaving, hme⟩

/-- The first dead task is taken off the list. It is as if it were released. -/
theorem at_reapPop (h : At s me (.reapPop d)) :
    At (step src sp s (.reapPop d)).1 me (step src sp s (.reapPop d)).2 := by
  rcases h with ⟨ring, dead, hleaving, hme⟩
  have hshape := shape_freeDead src hleaving.shape
  refine ⟨ring, dead, ⟨?_, hleaving.mem, hleaving.exits⟩, hme, ?_⟩
  · exact shape_ready hshape ⟨rfl, rfl, rfl, rfl, rfl⟩ fun _ => .inl rfl
  -- The task in progress is on the ring, so it is not the one that is released.
  · exact fun hmem => hleaving.shape.disjoint d hmem mem_cons_self

theorem at_reapFree (h : At s me (.reapFree d)) :
    At (step src sp s (.reapFree d)).1 me (step src sp s (.reapFree d)).2 := by
  rcases h with ⟨ring, dead, hleaving, hme, _⟩
  refine ⟨ring, dead, ⟨?_, hleaving.mem, hleaving.exits⟩, hme⟩
  exact shape_ready hleaving.shape ⟨rfl, rfl, rfl, rfl, rfl⟩ fun _ => .inl rfl

theorem at_scan {t best : Nat} {pri : Int} (h : At s me (.scan prev t best pri)) :
    At (step src sp s (.scan prev t best pri)).1 me (step src sp s (.scan prev t best pri)).2 := by
  rcases h with ⟨ring, hleaving, hme, hprev, ht, hbest⟩
  have hbest' : (if better s prev t pri = true then t else best) ∈ ring := by
    split
    · exact ht
    · exact hbest
  rw [step]
  by_cases hmore : s.next t ≠ s.next prev
  · rw [if_pos hmore]
    exact ⟨ring, hleaving, hme, hprev, circular_next_mem hleaving.shape.circular ht, hbest'⟩
  · rw [if_neg hmore]
    exact ⟨ring, hleaving, hme, hprev, hbest'⟩

theorem at_choose (h : At s me (.choose prev next)) :
    At (step src sp s (.choose prev next)).1 me (step src sp s (.choose prev next)).2 := by
  rcases h with ⟨ring, hleaving, rfl, rfl, hnext⟩
  rw [step]
  split_ifs with hsame
  · refine ⟨ring, [], ⟨?_, hleaving.mem, ?_⟩, rfl⟩
    · exact shape_current hleaving.shape hleaving.mem (sameLinks_setState s _ _)
        fun t ht => setState_other s _ ht
    · exact fun hdead =>
        TaskState.noConfusion ((setState_self s s.current .running).symm.trans hdead)
  · exact ⟨ring, hleaving, rfl, rfl, hnext, hsame⟩

theorem at_demote (h : At s me (.demote prev next)) :
    At (step src sp s (.demote prev next)).1 me (step src sp s (.demote prev next)).2 := by
  rcases h with ⟨ring, hleaving, rfl, rfl, hnext, hne⟩
  have hcurrent : (RunQueue.demote s s.current).current = s.current := by
    rw [RunQueue.demote]
    split <;> rfl
  refine ⟨ring, ⟨?_, ?_, ?_⟩, hcurrent, rfl, hnext, hne, demote_current s⟩
  · rw [step, hcurrent]
    exact demote_shape hleaving
  · rw [step, hcurrent]
    exact hleaving.mem
  · rw [step, hcurrent]
    exact fun hdead => hleaving.exits (demote_dead s hdead)

theorem at_testDead (h : At s me (.testDead prev next)) :
    At (step src sp s (.testDead prev next)).1 me (step src sp s (.testDead prev next)).2 := by
  rcases h with ⟨ring, hleaving, rfl, rfl, hnext, hne, hrunning⟩
  rw [step]
  split_ifs with hdead
  · exact ⟨ring, hleaving, rfl, rfl, hnext, hne, hdead, hleaving.mem⟩
  · exact ⟨ring, [], hleaving.shape, rfl, hnext, fun _ => ⟨hrunning, hdead⟩⟩

theorem at_walk (h : At s me (.walk prev next p)) :
    At (step src sp s (.walk prev next p)).1 me (step src sp s (.walk prev next p)).2 := by
  rcases h with ⟨ring, hleaving, hme, hprev, hnext, hne, hdead, hp⟩
  rw [step]
  split_ifs with hmore
  · exact ⟨ring, hleaving, hme, hprev, hnext, hne, hdead,
      circular_next_mem hleaving.shape.circular hp⟩
  · exact ⟨ring, hleaving, hme, hprev, hnext, hne, hdead, hp, (not_not.mp hmore).trans hprev⟩

/-- After the first statement of the burial, the shape is that of a burial that is
    over. -/
theorem at_unlink (h : At s me (.unlink prev next p)) :
    At (step src sp s (.unlink prev next p)).1 me (step src sp s (.unlink prev next p)).2 := by
  rcases h with ⟨ring, hleaving, rfl, rfl, hnext, hne, hdead, hp, hpnext⟩
  rcases shape_bury hleaving.shape hp hpnext (hleaving.exits hdead) ⟨rfl, rfl, rfl, rfl, rfl⟩ hdead
    (fun _ _ => rfl) hleaving.shape.idlePid with ⟨ring', hperm, hshape⟩
  refine ⟨ring', [s.current], hshape, rfl, ?_, ?_⟩
  · exact (mem_cons.mp (hperm.mem_iff.mpr hnext)).resolve_left hne
  · exact (nodup_cons.mp (hperm.nodup_iff.mpr hleaving.shape.circular.nodup)).1

theorem at_push (h : At s me (.push prev next)) :
    At (step src sp s (.push prev next)).1 me (step src sp s (.push prev next)).2 := by
  rcases h with ⟨ring, dead, hshape, rfl, hnext, hgone⟩
  exact ⟨ring, dead, hshape, rfl, hnext, hgone⟩

theorem at_setDead (h : At s me (.setDead prev next)) :
    At (step src sp s (.setDead prev next)).1 me (step src sp s (.setDead prev next)).2 := by
  rcases h with ⟨ring, dead, hshape, rfl, hnext, hgone⟩
  exact ⟨ring, dead, hshape, rfl, hnext, fun hmem => absurd hmem hgone⟩

theorem at_markRunning (h : At s me (.markRunning prev next)) :
    At (step src sp s (.markRunning prev next)).1 me
      (step src sp s (.markRunning prev next)).2 := by
  rcases h with ⟨ring, dead, hshape, rfl, hnext, hme⟩
  refine ⟨ring, dead, ⟨shape_setCurrent hshape hnext hme, hnext, ?_⟩, rfl⟩
  exact fun hdead => TaskState.noConfusion ((setState_self s next .running).symm.trans hdead)

/-- Every statement before the context switch leads to the next one. -/
theorem step_at {stmt : Stmt} (hswitch : ∀ prev next, stmt ≠ .contextSwitch prev next)
    (h : At s me stmt) : At (step src sp s stmt).1 me (step src sp s stmt).2 := by
  cases stmt with
  | reapTest => exact at_reapTest src h
  | reapHead => exact at_reapHead src h
  | reapPop d => exact at_reapPop src h
  | reapFree d => exact at_reapFree src h
  | readCurrent =>
    rcases h with ⟨ring, hleaving, hme⟩
    exact ⟨ring, hleaving, hme, hme⟩
  | scanStart prev =>
    rcases h with ⟨ring, hleaving, hme, hprev⟩
    have hmem : prev ∈ ring := hprev ▸ hme ▸ hleaving.mem
    exact ⟨ring, hleaving, hme, hprev, circular_next_mem hleaving.shape.circular hmem,
      hleaving.shape.circular.mem⟩
  | scan prev t best pri => exact at_scan src h
  | choose prev next => exact at_choose src h
  | demote prev next => exact at_demote src h
  | testDead prev next => exact at_testDead src h
  | walk prev next p => exact at_walk src h
  | unlink prev next p => exact at_unlink src h
  | push prev next => exact at_push src h
  | setDead prev next => exact at_setDead src h
  | markRunning prev next => exact at_markRunning src h
  | setCurrent prev next =>
    rcases h with ⟨ring, dead, hok, hprev⟩
    exact ⟨ring, dead, hok, rfl, hprev⟩
  | contextSwitch prev next => exact absurd rfl (hswitch prev next)
  | leave => exact h

/-- Other code at work on a record, at any statement. -/
theorem at_work {stmt : Stmt} (t : Nat) (record : Task) (h : At s me stmt) :
    At (work s t record) me stmt := by
  have hkept : ∀ u, ((work s t record).task u).pid = (s.task u).pid ∧
      ((work s t record).task u).state = (s.task u).state := by
    intro u
    simp only [work, update_apply]
    split_ifs with hu
    · rw [hu]
      exact ⟨rfl, rfl⟩
    · exact ⟨rfl, rfl⟩
  -- All that is asserted of a record is its number and its state.
  have hshape : ∀ {q : RunQueue σ} {cur ring dead}, Shape q cur ring dead → q.task = s.task →
      Shape { q with task := (work s t record).task } cur ring dead := fun hs hq =>
    shape_ready hs ⟨rfl, rfl, rfl, rfl, hq ▸ (hkept idleTask).1⟩ fun u => .inl (hq ▸ (hkept u).2)
  have hleaving : ∀ {q : RunQueue σ} {ring dead}, Leaving q ring dead → q.task = s.task →
      Leaving { q with task := (work s t record).task } ring dead := fun hl hq =>
    ⟨hshape hl.shape hq, hl.mem, fun hdead => hl.exits (hq ▸ (hkept _).2 ▸ hdead)⟩
  have hok : ∀ {q : RunQueue σ} {ring dead}, RingOk q ring dead → q.task = s.task →
      RingOk { q with task := (work s t record).task } ring dead := fun hr hq =>
    ⟨hshape hr.1 hq, hr.2.1, fun hdead => hr.2.2 (hq ▸ (hkept _).2 ▸ hdead)⟩
  cases stmt with
  | reapTest | reapHead | reapPop | reapFree =>
    rcases h with ⟨ring, dead, hl, hrest⟩
    exact ⟨ring, dead, hleaving hl rfl, hrest⟩
  | readCurrent | scanStart | scan | choose | demote =>
    rcases h with ⟨ring, hl, hrest⟩
    exact ⟨ring, hleaving hl rfl, hrest⟩
  | testDead | walk | unlink =>
    rcases h with ⟨ring, hl, hme, hprev, hnext, hne, hrest⟩
    refine ⟨ring, hleaving hl rfl, hme, hprev, hnext, hne, ?_⟩
    rw [(hkept me).2]
    exact hrest
  | push | setDead =>
    rcases h with ⟨ring, dead, hs, hrest⟩
    exact ⟨ring, dead, hshape hs rfl, hrest⟩
  | markRunning =>
    rcases h with ⟨ring, dead, hs, hprev, hnext, hrest⟩
    refine ⟨ring, dead, hshape hs rfl, hprev, hnext, ?_⟩
    rw [(hkept me).2]
    exact hrest
  | setCurrent | contextSwitch | leave =>
    rcases h with ⟨ring, dead, hr, hrest⟩
    exact ⟨ring, dead, hok hr rfl, hrest⟩

/-- The context switch goes on with the task that it names. -/
theorem at_contextSwitch (h : At s me (.contextSwitch prev next)) :
    At (RunQueue.contextSwitch s prev next sp) next .leave := by
  rcases h with ⟨ring, dead, hok, hcurrent, _⟩
  refine ⟨ring, dead, ⟨contextSwitch_shape hok.1, hok.2.1, ?_⟩, hcurrent⟩
  rw [(contextSwitch_kept s prev next sp _).1]
  exact hok.2.2

end

section

variable {frames : List Activation}

/-- The statement that activations on a stack are at. Code outside the scheduler is
    as if it had just returned. -/
def stmtOf : List Activation → Stmt
  | [] => .leave
  | a :: _ => a.stmt

/-- In runs in which `schedule` is not interrupted: every task has its pointer into
    its own stack, every activation but the one in progress has its context switch
    behind it, and the run queue is as that one needs it. -/
structure CpuOk (c : Cpu σ) : Prop where
  saved : ∀ t, c.saved t = t
  elsewhere : ∀ k ≠ c.stack, ∀ a ∈ c.frames k, a.stmt = .leave
  below : ∀ a ∈ (c.frames c.stack).tail, a.stmt = .leave
  here : At c.queue c.stack (stmtOf (c.frames c.stack))

variable {src} {img} {c c' : Cpu σ} {fuel : Nat}

theorem stmtOf_leave (h : ∀ a ∈ frames, a.stmt = .leave) :
    stmtOf frames = .leave := by
  cases frames with
  | nil => rfl
  | cons a rest => exact h a mem_cons_self

theorem all_leave (hhead : stmtOf frames = .leave) (htail : ∀ a ∈ frames.tail, a.stmt = .leave) :
    ∀ a ∈ frames, a.stmt = .leave := by
  intro a ha
  cases frames with
  | nil => exact absurd ha not_mem_nil
  | cons b rest =>
    rcases mem_cons.mp ha with rfl | hmem
    · exact hhead
    · exact htail a hmem

/-- Other activations on the stack in use, with a run queue that is as the first of
    them needs it. -/
theorem cpuOk_frames (h : CpuOk c) {q : RunQueue σ} (masked : Bool)
    (hbelow : ∀ a ∈ frames.tail, a.stmt = .leave) (hhere : At q c.stack (stmtOf frames)) :
    CpuOk { c with
      queue := q
      masked := masked
      frames := update c.frames c.stack frames } := by
  -- Of the four fields only the two about the stack in use have anything new.
  have hself : update c.frames c.stack frames c.stack = frames := update_self _ _ _
  refine ⟨h.saved, fun k hk => ?_, ?_, ?_⟩
  · have hother : update c.frames c.stack frames k = c.frames k :=
      update_of_ne hk _ _
    simp only [hother]
    exact h.elsewhere k hk
  · simp only [hself]
    exact hbelow
  · simp only [hself]
    exact hhere

/-- A call of `schedule` with a run queue that is ready for it. -/
theorem enter_ok (h : CpuOk c) (hleave : stmtOf (c.frames c.stack) = .leave) {q : RunQueue σ}
    (masked irq : Bool) (hq : At q c.stack .reapTest) :
    CpuOk (enter { c with queue := q, masked := masked } irq) :=
  cpuOk_frames h masked (all_leave hleave h.below) hq

/-- What executing the statement in progress does: return, switch to another stack,
    or go on to the next statement. -/
theorem run_cases {sp : Nat} (hrun : run src c sp = some c') :
    ∃ a rest, c.frames c.stack = a :: rest ∧
      ((a.stmt = .leave ∧ c' = { c with
          masked := if a.irq then false else c.masked
          frames := update c.frames c.stack rest }) ∨
        (∃ prev next, a.stmt = .contextSwitch prev next ∧ c' = { c with
          queue := RunQueue.contextSwitch c.queue prev next sp
          stack := update c.saved prev c.stack next
          saved := update c.saved prev c.stack
          frames := update c.frames c.stack ({ a with stmt := .leave } :: rest) }) ∨
        ((∀ prev next, a.stmt ≠ .contextSwitch prev next) ∧ c' = { c with
          queue := (step src sp c.queue a.stmt).1
          frames := update c.frames c.stack
            ({ a with stmt := (step src sp c.queue a.stmt).2 } :: rest) })) := by
  rw [run] at hrun
  rcases hframes : c.frames c.stack with _ | ⟨a, rest⟩
  · simp only [hframes, reduceCtorEq] at hrun
  refine ⟨a, rest, rfl, ?_⟩
  simp only [hframes] at hrun
  -- The cases are those of `run`: return, context switch, any other statement.
  split at hrun
  case h_1 hstmt => exact .inl ⟨hstmt, (some.inj hrun).symm⟩
  case h_2 prev next hstmt =>
    refine .inr (.inl ⟨prev, next, hstmt, ?_⟩)
    rw [hstmt] at hrun
    exact (some.inj hrun).symm
  case h_3 hswitch =>
    exact .inr (.inr ⟨hswitch, (some.inj hrun).symm⟩)

theorem run_cpuOk {sp : Nat} (h : CpuOk c) (hrun : run src c sp = some c') : CpuOk c' := by
  rcases run_cases hrun with ⟨a, rest, hframes, hcases⟩
  have hbelow : ∀ b ∈ rest, b.stmt = .leave := by
    have htail := h.below
    rw [hframes] at htail
    exact htail
  have hhere : At c.queue c.stack a.stmt := by
    have hfirst := h.here
    rw [hframes] at hfirst
    exact hfirst
  rcases hcases with ⟨hstmt, rfl⟩ | ⟨prev, next, hstmt, rfl⟩ | ⟨hswitch, rfl⟩
  · -- The activation returns to one behind its context switch, or to other code.
    refine cpuOk_frames h _ (fun b hb => hbelow b (mem_of_mem_tail hb)) ?_
    rw [stmtOf_leave hbelow, ← hstmt]
    exact hhere
  · -- The stack pointer goes where it belongs, and every activation is behind its switch.
    rw [hstmt] at hhere
    have hprev : prev = c.stack := by
      rcases hhere with ⟨_, _, _, _, hprev⟩
      exact hprev
    -- Storing the pointer for `prev` stores what was there before.
    have hsaved : update c.saved prev c.stack = c.saved := by
      rw [hprev]
      exact update_eq_self_iff.mpr (h.saved c.stack).symm
    have hall : ∀ k, ∀ b ∈ update c.frames c.stack ({ a with stmt := .leave } :: rest) k,
        b.stmt = .leave := by
      intro k b hb
      by_cases hk : k = c.stack
      · rw [hk, update_self] at hb
        rcases mem_cons.mp hb with rfl | hb
        · rfl
        · exact hbelow b hb
      · rw [update_of_ne hk] at hb
        exact h.elsewhere k hk b hb
    refine ⟨fun t => ?_, fun k _ => hall k, fun b hb => hall _ b (mem_of_mem_tail hb), ?_⟩
    · simp only [hsaved]
      exact h.saved t
    · rw [stmtOf_leave (hall _)]
      simp only [hsaved, h.saved next]
      exact at_contextSwitch hhere
  · exact cpuOk_frames h c.masked hbelow (step_at src hswitch hhere)

end

section

variable {src} {img} {c c' : Cpu σ} {fuel : Nat}

/-- What may happen: the idle task does not exit, and the heap hands out records
    that are not in use. -/
def Permitted (c : Cpu σ) : Event → Prop
  | .give giving => giving = .exit → c.queue.current ≠ idleTask
  | .op operation => Allowed c.queue operation
  | _ => True

/-- No interrupt between the first statement of `schedule` and its context switch. -/
def Shielded (c : Cpu σ) : Event → Prop
  | .irq _ => stmtOf (c.frames c.stack) = .leave
  | _ => True

/-- The run queue when `schedule` is called. -/
theorem give_at {giving : Giving} (hgiving : Permitted c (.give giving))
    (h : At c.queue c.stack .leave) : At (give c.queue giving) c.stack .reapTest := by
  rcases h with ⟨ring, dead, hok, hme⟩
  cases giving with
  | yield => exact ⟨ring, dead, ringOk_leaving hok, hme⟩
  | sleep now ms => exact ⟨ring, dead, sleep_leaving _ hok, hme⟩
  | block => exact ⟨ring, dead, blocked_leaving TaskState.noConfusion hok, hme⟩
  | exit => exact ⟨ring, dead, exit_leaving hok (hgiving rfl), hme⟩

variable (h : CpuOk c)
include h

/-- A change of the run queue by code outside the scheduler. -/
theorem cpuOk_queue (hnone : c.frames c.stack = []) {q : RunQueue σ}
    (hq : At q c.stack .leave) : CpuOk { c with queue := q } := by
  refine ⟨h.saved, h.elsewhere, h.below, ?_⟩
  simp only [hnone]
  exact hq

theorem irq_cpuOk {tick : Option Nat} (hleave : stmtOf (c.frames c.stack) = .leave)
    (hirq : irq fuel c tick = some c') : CpuOk c' := by
  have hhere := h.here
  rw [hleave] at hhere
  -- Outside of `schedule` the run queue is in order, and waking sleepers keeps it so.
  rcases hhere with ⟨ring, dead, hok, hme⟩
  unfold irq at hirq
  split at hirq
  · cases hirq
  rcases map_eq_some_iff.mp hirq with ⟨q, hq, rfl⟩
  refine enter_ok h hleave true true ?_
  cases tick with
  | none =>
    cases hq
    exact ⟨ring, dead, ringOk_leaving hok, hme⟩
  | some now =>
    rcases wakeFrom_ok _ hok hq with ⟨hok', _, hcurrent⟩
    exact ⟨ring, dead, ringOk_leaving hok', hcurrent.trans hme⟩

theorem kill_cpuOk {pid : Nat} (hnone : c.frames c.stack = [])
    (hkill : kill fuel c pid = some c') : CpuOk c' := by
  have hleave : stmtOf (c.frames c.stack) = .leave := by rw [hnone]; rfl
  have hhere := h.here
  rw [hleave] at hhere
  have hleft := hhere
  rcases hhere with ⟨ring, dead, hok, hme⟩
  rw [kill] at hkill
  split_ifs at hkill with hpid
  · cases hkill
    exact h
  rcases bind_eq_some_iff.mp hkill with ⟨t, hfind, hkill⟩
  rcases findFrom_spec hok.1.circular hok.1.circular.mem hfind with
    hzero | ⟨ht, hfound⟩
  · rw [if_pos hzero] at hkill
    cases hkill
    exact h
  have hidle := found_not_idle hok hpid hfound
  split at hkill
  · cases hkill
    exact h
  split at hkill
  · cases hkill
    exact h
  split at hkill
  case isTrue hcur =>
    cases hkill
    -- The idle task has the number 0, and the caller was found by another one.
    have hpermitted : Permitted c (.give .exit) := fun _ => hcur ▸ hidle
    exact enter_ok h hleave c.masked false (give_at hpermitted hleft)
  case isFalse hcur =>
    rcases map_eq_some_iff.mp hkill with ⟨q, hother, rfl⟩
    rcases killOther_spec hok ht hidle hcur hother with ⟨⟨ring', dead', hok'⟩, _, hcurrent⟩
    exact cpuOk_queue h hnone ⟨ring', dead', hok', hcurrent.trans hme⟩

/-- A new task with a stack of its own. -/
theorem newStack_ok (t : Nat) (hnone : c.frames c.stack = []) :
    CpuOk (newStack c t) := by
  -- The new stack is empty, and the others are as they were.
  have hframes : ∀ k, update c.frames t [] k = c.frames k ∨
      update c.frames t [] k = [] := by
    intro k
    by_cases hk : k = t
    · exact .inr (by rw [hk, update_self])
    · exact .inl (by rw [update_of_ne hk])
  have hstack : update c.frames t [] c.stack = [] := by
    rcases hframes c.stack with heq | heq
    · exact heq.trans hnone
    · exact heq
  refine ⟨fun u => ?_, fun k hk a ha => ?_, ?_, ?_⟩
  · by_cases hu : u = t
    · simp [newStack, hu]
    · simp only [newStack, update_of_ne hu]
      exact h.saved u
  · simp only [newStack] at ha hk
    rcases hframes k with heq | heq
    · rw [heq] at ha
      exact h.elsewhere k hk a ha
    · rw [heq] at ha
      exact absurd ha not_mem_nil
  · simp only [newStack, hstack]
    exact nofun
  · have hhere := h.here
    rw [hnone] at hhere
    simp only [newStack, hstack]
    exact hhere

theorem op_cpuOk {operation : Call} (hnone : c.frames c.stack = [])
    (hallowed : Allowed c.queue operation) (hop : op src img fuel c operation = some c') :
    CpuOk c' := by
  have hhere := h.here
  rw [hnone] at hhere
  rcases hhere with ⟨ring, dead, hok, hme⟩
  -- A constructor leaves the current task alone.
  have hcreate : ∀ {built : Sched σ × Int} {t : Nat} {q : RunQueue σ}, Builds built.1 →
      (t = 0 ∨ Fresh c.queue t) → (createWith fuel c.queue t built).map Prod.fst = some q →
      CpuOk (newStack { c with queue := q } t) := by
    intro built t q hbuilt hfresh hrun
    rcases map_eq_some_iff.mp hrun with ⟨⟨q', r⟩, hcreated, rfl⟩
    rcases create_spec hbuilt hok hfresh hcreated with ⟨⟨ring', dead', hok'⟩, _, hcurrent⟩
    exact newStack_ok (cpuOk_queue h hnone ⟨ring', dead', hok', hcurrent.trans hme⟩) t hnone
  cases operation with
  | createKernelTask t entry =>
    rcases map_eq_some_iff.mp hop with ⟨q, hrun, rfl⟩
    exact hcreate (createKernelTask_builds src img c.queue entry) hallowed hrun
  | createTask t fdsOk entry =>
    rcases map_eq_some_iff.mp hop with ⟨q, hrun, rfl⟩
    exact hcreate (createTask_builds src img c.queue fdsOk entry) hallowed hrun
  | fork t fdsOk parent frame =>
    rcases map_eq_some_iff.mp hop with ⟨q, hrun, rfl⟩
    rw [call, schedFork] at hrun
    split at hrun
    · cases hrun
      exact newStack_ok h t hnone
    · exact hcreate (fork_builds src img c.queue fdsOk _ frame) hallowed hrun
  | wakeSleepers now =>
    rcases map_eq_some_iff.mp hop with ⟨q, hrun, rfl⟩
    rcases wakeFrom_ok _ hok hrun with ⟨hok', _, hcurrent⟩
    exact cpuOk_queue h hnone ⟨ring, dead, hok', hcurrent.trans hme⟩
  | makeReady t =>
    simp only [op, call, map_some, some.injEq] at hop
    rw [← hop]
    exact cpuOk_queue h hnone
      ⟨ring, dead, makeReady_ok t hok, (makeReady_links c.queue t).2.trans hme⟩
  -- The operations that call `schedule` come as other events.
  | schedule sp => cases hop
  | taskExit sp => cases hop
  | killTask pid sp => cases hop
  | sleepMs now ms sp => cases hop
  | blockCurrent sp => cases hop
  | reap => cases hop

theorem next_cpuOk {e : Event} (hpermitted : Permitted c e) (hshielded : Shielded c e)
    (hnext : next src img fuel c e = some c') : CpuOk c' := by
  -- All but the first two and the last need code outside the scheduler.
  cases e with
  | run sp => exact run_cpuOk h hnext
  | irq tick => exact irq_cpuOk h hshielded hnext
  | mask masked =>
    rw [next] at hnext
    split at hnext
    · cases hnext
      exact ⟨h.saved, h.elsewhere, h.below, h.here⟩
    · cases hnext
  | give giving =>
    rw [next] at hnext
    split at hnext
    case isTrue hnone =>
      cases hnext
      have hhere := h.here
      rw [hnone] at hhere
      exact enter_ok h (by rw [hnone]; rfl) c.masked false (give_at hpermitted hhere)
    case isFalse => cases hnext
  | kill pid =>
    rw [next] at hnext
    split at hnext
    case isTrue hnone => exact kill_cpuOk h hnone hnext
    case isFalse => cases hnext
  | op operation =>
    rw [next] at hnext
    split at hnext
    case isTrue hnone => exact op_cpuOk h hnone hpermitted hnext
    case isFalse => cases hnext
  | work t record =>
    cases hnext
    exact ⟨h.saved, h.elsewhere, h.below, at_work t record h.here⟩

end

section

/-- Anything that may happen. -/
def CpuStep (c c' : Cpu σ) : Prop :=
  ∃ fuel e, Permitted c e ∧ next src img fuel c e = some c'

/-- The same without interrupts inside `schedule`. -/
def ShieldedStep (c c' : Cpu σ) : Prop :=
  ∃ fuel e, Permitted c e ∧ Shielded c e ∧ next src img fuel c e = some c'

theorem boot_cpuOk (m : Machine σ) : CpuOk (boot m) :=
  ⟨fun _ => rfl, nofun,
    nofun, ⟨_, _, init_ok m, rfl⟩⟩

theorem shielded_cpuOk {m : Machine σ} {c : Cpu σ}
    (hrun : ReflTransGen (ShieldedStep src img) (boot m) c) : CpuOk c := by
  induction hrun with
  | refl => exact boot_cpuOk m
  | tail _ hstep ih =>
    rcases hstep with ⟨fuel, e, hpermitted, hshielded, hnext⟩
    exact next_cpuOk ih hpermitted hshielded hnext

theorem shielded_safe (m : Machine σ) (c : Cpu σ)
    (hrun : ReflTransGen (ShieldedStep src img) (boot m) c) :
    OwnStack c ∧ SparesStack c := by
  have h := shielded_cpuOk src img hrun
  have hhere := h.here
  constructor
  · intro a rest prev next hframes hstmt
    rw [hframes, show stmtOf (a :: rest) = a.stmt from rfl, hstmt] at hhere
    rcases hhere with ⟨_, _, _, _, hprev⟩
    exact hprev.symm
  · intro a rest dead hframes hstmt
    rw [hframes, show stmtOf (a :: rest) = a.stmt from rfl, hstmt] at hhere
    rcases hhere with ⟨ring, _, hleaving, hme, hgone⟩
    exact fun hc => hgone (hc ▸ hme ▸ hleaving.mem)

end

section

instance decidablePermitted (c : Cpu σ) : (e : Event) → Decidable (Permitted c e)
  | .give giving => inferInstanceAs (Decidable (giving = .exit → c.queue.current ≠ idleTask))
  | .op operation => inferInstanceAs (Decidable (Allowed c.queue operation))
  | .run _ => isTrue trivial
  | .irq _ => isTrue trivial
  | .mask _ => isTrue trivial
  | .kill _ => isTrue trivial
  | .work _ _ => isTrue trivial

instance decidableShielded (c : Cpu σ) : (e : Event) → Decidable (Shielded c e)
  | .irq _ => inferInstanceAs (Decidable (stmtOf (c.frames c.stack) = .leave))
  | .run _ => isTrue trivial
  | .mask _ => isTrue trivial
  | .give _ => isTrue trivial
  | .kill _ => isTrue trivial
  | .op _ => isTrue trivial
  | .work _ _ => isTrue trivial

/-- The processor after some events, without those that are ruled out. -/
def runEvents (ok : Cpu σ → Event → Bool) (fuel : Nat) (c : Cpu σ) (es : List Event) : Cpu σ :=
  es.foldl (fun c e => if ok c e then (next src img fuel c e).getD c else c) c

variable {src} {img}

theorem runEvents_reaches {ok : Cpu σ → Event → Bool} {R : Cpu σ → Cpu σ → Prop} {fuel : Nat}
    (hstep : ∀ c e c', ok c e = true → next src img fuel c e = some c' → R c c') (es : List Event) :
    ∀ c, ReflTransGen R c (runEvents src img ok fuel c es) := by
  induction es with
  | nil => exact fun c => .refl
  | cons e es ih =>
    intro c
    rw [runEvents, foldl_cons]
    split
    case isTrue hok =>
      rcases hnext : next src img fuel c e with _ | c'
      · exact ih c
      · exact .head (hstep c e c' hok hnext) (ih c')
    case isFalse => exact ih c

end

/-- The idle task makes two tasks and yields to the first, with interrupts on. -/
def preparing : List Event :=
  [.op (.createKernelTask 2 0), .op (.createKernelTask 3 0), .mask false, .give .yield] ++
    replicate 12 (.run 0)

/-- The processor after events that may happen, from boot on. -/
def unshielded (es : List Event) : Cpu Pmm.Allocator :=
  runEvents Pmm.pmmSource Sched.bootImage (fun c e => decide (Permitted c e)) 8
    (boot Sched.bootMachine) es

theorem unshielded_reaches (es : List Event) :
    ReflTransGen (CpuStep Pmm.pmmSource Sched.bootImage) (boot Sched.bootMachine)
      (unshielded es) :=
  runEvents_reaches (fun _ e _ hok hnext => ⟨8, e, of_decide_eq_true hok, hnext⟩) es _

/-- A task yields. It is interrupted when the other task is the current one already,
    and the handler comes to its own context switch. -/
def yieldInterrupted : Cpu Pmm.Allocator :=
  unshielded (preparing ++ [.give .yield] ++ replicate 11 (.run 0) ++ [.irq none] ++
    replicate 11 (.run 0))

/-- A task exits. It is interrupted when it is on the list of dead tasks already, and
    the handler reaps. -/
def exitInterrupted : Cpu Pmm.Allocator :=
  unshielded (preparing ++ [.give .exit] ++ replicate 15 (.run 0) ++ [.irq none] ++
    replicate 3 (.run 0))

/-- Two runs with one interrupt each. In the first the pointer into the stack of task 2
    is about to be stored for task 3, in the second task 2 is about to release the
    stack that it runs on. -/
theorem interrupted_schedule :
    (ReflTransGen (CpuStep Pmm.pmmSource Sched.bootImage) (boot Sched.bootMachine)
        yieldInterrupted ∧ ¬ OwnStack yieldInterrupted) ∧
      ReflTransGen (CpuStep Pmm.pmmSource Sched.bootImage) (boot Sched.bootMachine)
        exitInterrupted ∧ ¬ SparesStack exitInterrupted := by
  -- Both runs are evaluated down to the activations on the stack of task 2.
  have hyield : yieldInterrupted.stack = 2 ∧ yieldInterrupted.frames yieldInterrupted.stack =
      [⟨.contextSwitch 3 2, true⟩, ⟨.contextSwitch 2 3, false⟩] := by decide +kernel
  have hexit : exitInterrupted.stack = 2 ∧ exitInterrupted.frames exitInterrupted.stack =
      [⟨.reapFree 2, true⟩, ⟨.markRunning 2 3, false⟩] := by decide +kernel
  refine ⟨⟨unshielded_reaches _, fun hown => ?_⟩, unshielded_reaches _, fun hspares => ?_⟩
  · have hprev := hown _ _ 3 2 hyield.2 rfl
    rw [hyield.1] at hprev
    cases hprev
  · exact hspares _ _ 2 hexit.2 rfl hexit.1.symm

/-- A task is interrupted outside the scheduler, which switches to the other one, and
    that one yields. The interrupt inside `schedule` does not happen. -/
def yieldShielded : Cpu Pmm.Allocator :=
  runEvents Pmm.pmmSource Sched.bootImage (fun c e => decide (Permitted c e ∧ Shielded c e)) 8
    (boot Sched.bootMachine)
    (preparing ++ [.irq none] ++ replicate 12 (.run 0) ++
      [.mask false, .give .yield, .irq none] ++ replicate 11 (.run 0))

theorem shielded_safe_yield :
    yieldShielded.frames yieldShielded.stack = [⟨.contextSwitch 3 2, false⟩] ∧
      OwnStack yieldShielded ∧ SparesStack yieldShielded := by
  refine ⟨by decide +kernel, ?_⟩
  refine shielded_safe Pmm.pmmSource Sched.bootImage Sched.bootMachine yieldShielded ?_
  refine runEvents_reaches (fun c e c' hok hnext => ?_) _ _
  have hboth := of_decide_eq_true hok
  exact ⟨8, e, hboth.1, hboth.2, hnext⟩

end CortexForge.Cpu
