import CortexForge.Theory.Calls
import CortexForge.Theory.Isolation

/-!
# The Active User Tables

Whether the tables that the base register has are ever given back. A switch to a
task without tables of its own leaves the register as it is, and dead tasks are
reaped by whoever switches next, so the register may have the tables of a task
that is being reaped.

The condition is put on the calls that reap: the task whose tables the register
has, the last user task that ran, must still be on the run queue. As long as it
is met, no call gives the active tables back, and the first call that does not
meet it does. Other calls give back tables that they have just allocated, or, in
`sys_exec`, the old ones when the register has the new ones.

## Main definitions

* `TablesSafe`: No call of `mmu_free_user_tables` is given the active table.
* `OwnerQueued`: The condition.

## Theorems

* `reaps_log`, `keeps_log`: The tables that a call gives back.
* `active_table_iff`: The active tables are safe as long as the condition is met.
* `active_table_freed`: A run in which the idle task has them freed.
-/

namespace CortexForge.Sched

open Mmu Elf Syscall Traced Holdings Relation List
open Pmm (pmmSource Allocator)

variable {σ : Type} (src : Pages σ) (img : KernelImage)

/-- No table is given back while the register has it. -/
def TablesSafe (frees : List TableFree) : Prop :=
  ∀ e ∈ frees, e.l0 ≠ ttbrBaddr e.ttbr0El1

/-- The task whose tables the register has, if any, is on the run queue. -/
def OwnerQueued (s : Sched σ) : Prop := s.ttbr0El1 = 0 ∨ s.ttbr0El1 ∈ bases s.queue

/-- A call that does not reap, or reaps while the condition is met. -/
def CarefulStep (s s' : Sched σ) : Prop :=
  ∃ c : SchedCall σ, c.Allowed src img s ∧ s' = value (c.run src img s) ∧
    (c.Reaps s → OwnerQueued s)

section

variable {src} {img} {s : Sched σ} {e : TableFree} {kmallocOk fdsOk : Bool}

theorem log_freeTables (reg l0 : Nat) (m : Machine σ) :
    log (freeTablesTraced src reg m l0) = [⟨l0, reg⟩] := by
  simp [freeTablesTraced]

theorem mem_log_reapTask (reg : Nat) (m : Machine σ) (dead : Task) (e : TableFree) :
    e ∈ log (reapTaskTraced src reg m dead) ↔
      dead.ttbr0 ≠ 0 ∧ e = ⟨ttbrBaddr dead.ttbr0, reg⟩ := by
  unfold reapTaskTraced
  simp only
  split_ifs with htables <;> simp [log_freeTables, htables]

theorem mem_log_reapTasks (reg : Nat) (dead : List Task) (e : TableFree) : ∀ m : Machine σ,
    e ∈ log (reapTasksTraced src reg dead m) ↔
      ∃ t ∈ dead, t.ttbr0 ≠ 0 ∧ e = ⟨ttbrBaddr t.ttbr0, reg⟩ := by
  induction dead with
  | nil =>
    intro m
    refine ⟨nofun, ?_⟩
    rintro ⟨t, ht, _⟩
    exact absurd ht not_mem_nil
  | cons t rest ih =>
    intro m
    rw [reapTasksTraced, log_bind, mem_append, mem_log_reapTask, ih, exists_mem_cons_iff]

/-- Reaping gives back the tables of every dead task that has some. -/
theorem mem_log_reap (s : Sched σ) (e : TableFree) :
    e ∈ log (schedReapTraced src s) ↔
      ∃ t ∈ s.deadList, t.ttbr0 ≠ 0 ∧ e = ⟨ttbrBaddr t.ttbr0, s.ttbr0El1⟩ := by
  simp [schedReapTraced, mem_log_reapTasks]

theorem log_schedule (s : Sched σ) (sp : Nat) :
    log (scheduleTraced src s sp) = log (schedReapTraced src s) := by
  simp [scheduleTraced]

/-- What a call that reaps gives back. -/
theorem reaps_log {c : SchedCall σ} (hc : c.Reaps s) (e : TableFree) :
    e ∈ log (c.run src img s) ↔
      ∃ t ∈ s.deadList, t.ttbr0 ≠ 0 ∧ e = ⟨ttbrBaddr t.ttbr0, s.ttbr0El1⟩ := by
  have hset : ∀ state, (setCurrentState s state).deadList = s.deadList ∧
      (setCurrentState s state).ttbr0El1 = s.ttbr0El1 := by
    intro state
    unfold setCurrentState
    rcases s.queue with _ | ⟨t, rest⟩ <;> exact ⟨rfl, rfl⟩
  have hleave : ∀ state sp, e ∈ log (scheduleTraced src (setCurrentState s state) sp) ↔
      ∃ t ∈ s.deadList, t.ttbr0 ≠ 0 ∧ e = ⟨ttbrBaddr t.ttbr0, s.ttbr0El1⟩ := by
    intro state sp
    rw [log_schedule, mem_log_reap, (hset state).1, (hset state).2]
  cases c with
  | schedule sp => rw [SchedCall.run, log_schedule, mem_log_reap]
  | block sp => exact hleave .blocked sp
  | sleep now ms sp =>
    rw [SchedCall.run, sleepMsTraced]
    rcases hqueue : s.queue with _ | ⟨t, rest⟩
    · exact absurd hqueue hc
    · rw [log_schedule, mem_log_reap]
  | exit sp => exact hleave .dead sp
  | kill pid sp =>
    rcases hc with ⟨hzero, t, hfind, hlive, hhead⟩
    rw [SchedCall.run, schedKillTaskTraced, if_neg hzero, hfind]
    simp only
    rw [if_neg hlive, if_pos hhead]
    exact hleave .dead sp
  | reap => exact mem_log_reap s e
  | _ => exact absurd hc not_false

/-- A table that a call gives back besides reaping: it has just been allocated,
    or it is the old table of a task and the register has a new one. -/
def Disposable (src : Pages σ) (s : Sched σ) (e : TableFree) : Prop :=
  e.ttbr0El1 = s.ttbr0El1 ∧ e.l0 ≠ 0 ∧ ¬ src.Held s.machine.pmm e.l0 ∨
  ∃ t ∈ s.queue, t.ttbr0 ≠ 0 ∧ e.l0 = ttbrBaddr t.ttbr0 ∧
    ¬ src.Held s.machine.pmm (ttbrBaddr e.ttbr0El1)

theorem mem_log_freeTables {reg l0 : Nat} {m : Machine σ} {β : Type} {f : Machine σ → β}
    (he : e ∈ log (freeTablesTraced src reg m l0 >>= fun m => pure (f m))) :
    e = ⟨l0, reg⟩ := by
  exact mem_singleton.mp he

theorem createTask_log {entry : Nat}
    (he : e ∈ log (schedCreateTaskTraced src img s kmallocOk fdsOk entry)) :
    Disposable src s e := by
  unfold schedCreateTaskTraced at he
  simp only [mem_log_exit] at he
  rcases he with ⟨_, _, hl0, _, he⟩
  -- Only the failure to get a user stack is left.
  split at he
  next =>
    rw [mem_log_freeTables he]
    exact .inl ⟨rfl, hl0, createTables_unheld _ _ (zeroedPages_held s.machine _) hl0⟩
  next => exact absurd he not_mem_nil

theorem fork_log {parent : Task} {frame : Nat}
    (he : e ∈ log (schedForkTraced src img s kmallocOk fdsOk parent frame)) :
    Disposable src s e := by
  unfold schedForkTraced at he
  simp only [mem_log_exit] at he
  rcases he with ⟨_, _, hl0, he⟩
  split at he
  next =>
    rw [mem_log_freeTables he]
    exact .inl ⟨rfl, hl0, createTables_unheld _ _ (zeroedPages_held s.machine _) hl0⟩
  next => exact absurd he not_mem_nil

theorem loadImage_log {file : Option FileBytes} {args : ExecArgs}
    (he : e ∈ log (loadImageTraced src s file args)) : Disposable src s e := by
  unfold loadImageTraced at he
  rcases hqueue : s.queue with _ | ⟨cur, rest⟩
  · rw [hqueue] at he
    exact absurd he not_mem_nil
  rcases file with _ | f
  · rw [hqueue] at he
    exact absurd he not_mem_nil
  simp only [hqueue, mem_log_exit] at he
  rcases he with ⟨_, _, _, hl0, he⟩
  have hnew := createTables_unheld _ _ (zeroedPages_held s.machine userStackPages) hl0
  have hlt := (createTables_new _ hl0).2
  split at he
  next =>
    -- The file was not loaded, and the new tables go.
    rw [mem_log_freeTables he]
    exact .inl ⟨rfl, hl0, hnew⟩
  next =>
    -- The image is replaced, and the old tables go.
    rw [log_bind, log_pure, append_nil, freeOldImageTraced] at he
    by_cases htables : cur.ttbr0 ≠ 0
    · rw [if_pos htables, log_freeTables, mem_singleton] at he
      refine .inr ⟨cur, hqueue ▸ mem_cons_self, htables, congrArg TableFree.l0 he, ?_⟩
      rw [he, ttbrBaddr_pack _ _ hlt]
      exact hnew
    · rw [if_neg htables] at he
      exact absurd he not_mem_nil

/-- What a call that does not reap gives back. -/
theorem keeps_log {c : SchedCall σ} (hc : ¬ c.Reaps s) (he : e ∈ log (c.run src img s)) :
    Disposable src s e := by
  cases c with
  | createTask kmallocOk fdsOk entry => exact createTask_log he
  | fork kmallocOk fdsOk frame =>
    rw [SchedCall.run] at he
    rcases hqueue : s.queue with _ | ⟨parent, rest⟩
    · rw [hqueue] at he
      exact absurd he not_mem_nil
    · rw [hqueue] at he
      exact fork_log he
  | exec file args => exact loadImage_log he
  | schedule sp => exact absurd trivial hc
  | block sp => exact absurd trivial hc
  | sleep now ms sp =>
    rw [SchedCall.run, sleepMsTraced] at he
    rcases hqueue : s.queue with _ | ⟨t, rest⟩
    · rw [hqueue] at he
      exact absurd he not_mem_nil
    · exact absurd (fun hnil => absurd (hqueue.symm.trans hnil) (cons_ne_nil _ _)) hc
  | exit sp => exact absurd trivial hc
  | kill pid sp =>
    rw [SchedCall.run, schedKillTaskTraced, mem_log_exit] at he
    rcases hfind : schedFindTask s pid with _ | t
    · rw [hfind] at he
      exact absurd he.2 not_mem_nil
    simp only [hfind, mem_log_exit] at he
    rcases he with ⟨hzero, hdead, he⟩
    split_ifs at he with hhead
    · exact absurd ⟨hzero, t, hfind, hdead, hhead⟩ hc
    · exact absurd he not_mem_nil
  | reap => exact absurd trivial hc
  | _ => exact absurd he not_mem_nil

end

section

variable {src} {img} {s s' : Sched σ} {base : Nat}

/-- The invariant of the system, and the tables that the register has are those of
    a task that has not been reaped. -/
structure ActiveOk (src : Pages σ) (img : KernelImage) (s : Sched σ) : Prop where
  ok : SchedOk src img s
  owner : s.ttbr0El1 = 0 ∨ s.ttbr0El1 ∈ bases (s.queue ++ s.deadList)
  roots : ∀ base ∈ bases (s.queue ++ s.deadList), base ≠ 0 → ttbrBaddr base ≠ 0

/-- The first table of a task that has not been reaped is in use. -/
theorem root_held (hok : SchedOk src img s) (hbase : base ∈ bases (s.queue ++ s.deadList))
    (hne : base ≠ 0) :
    src.Held s.machine.pmm (ttbrBaddr base) := by
  rcases hok with ⟨role, hok⟩
  rcases mem_map.mp hbase with ⟨t, ht, rfl⟩
  have htask := hok.tasks (holdings t) (mem_map_of_mem ht)
  exact ((htask.user hne).2.1.place [] _ (Nat.zero_le 3) rfl).2

theorem roots_apart (hok : SchedOk src img s) {t : Task} (ht : t ∈ s.deadList) (huser : t.ttbr0 ≠ 0)
    (hbase : base ∈ bases s.queue) (hne : base ≠ 0) :
    ttbrBaddr t.ttbr0 ≠ ttbrBaddr base := by
  rcases hok with ⟨role, hok⟩
  rcases mem_map.mp hbase with ⟨u, hu, rfl⟩
  have hapart := hok.apart
  rw [map_append, pairwise_append] at hapart
  have huv := hapart.2.2 (holdings u) (mem_map_of_mem hu) (holdings t) (mem_map_of_mem ht)
  exact (huv.2 hne huser).symm

theorem disposable_safe (h : ActiveOk src img s) {e : TableFree} (he : Disposable src s e) :
    e.l0 ≠ ttbrBaddr e.ttbr0El1 := by
  rcases he with ⟨hreg, hne, hnew⟩ | ⟨t, ht, huser, hold, hnew⟩
  · rw [hreg]
    by_cases hzero : s.ttbr0El1 = 0
    · rw [hzero]
      exact hne
    · intro hc
      rw [hc] at hnew
      exact hnew (root_held h.ok (h.owner.resolve_left hzero) hzero)
  · intro hc
    rw [← hc, hold] at hnew
    refine hnew (root_held h.ok ?_ huser)
    exact mem_map_of_mem (mem_append_left _ ht)

/-- The tables that a call gives back are not the active ones, exactly if it does
    not reap or the condition is met. -/
theorem call_safe (h : ActiveOk src img s) (c : SchedCall σ) :
    TablesSafe (log (c.run src img s)) ↔ (c.Reaps s → OwnerQueued s) := by
  by_cases hreaps : c.Reaps s
  · refine ⟨fun hsafe _ => ?_, fun hqueued e he => ?_⟩
    · by_contra hc
      rcases not_or.mp hc with ⟨hne, hgone⟩
      -- The owner is not on the queue, so it is one of the dead tasks.
      have howner := h.owner.resolve_left hne
      rw [bases, map_append, mem_append] at howner
      rcases mem_map.mp (howner.resolve_left hgone) with ⟨t, ht, heq⟩
      have hmem := (@reaps_log σ src img s c hreaps ⟨ttbrBaddr t.ttbr0, s.ttbr0El1⟩).mpr
        ⟨t, ht, fun hz => hne (heq.symm.trans hz), rfl⟩
      exact hsafe _ hmem (congrArg ttbrBaddr heq)
    · rcases (reaps_log hreaps e).mp he with ⟨t, ht, huser, rfl⟩
      by_cases hzero : s.ttbr0El1 = 0
      · rw [hzero]
        exact h.roots _ (mem_map_of_mem (mem_append_right _ ht)) huser
      · exact roots_apart h.ok ht huser ((hqueued hreaps).resolve_left hzero) hzero
  · exact ⟨fun _ hc => absurd hc hreaps, fun _ e he => disposable_safe h (keeps_log hreaps he)⟩

theorem root_ne_zero {l0 asid : Nat} (htable : l0 ≠ 0 ∧ l0 < 2 ^ 48)
    (hbase : base = ttbrPack l0 asid) : ttbrBaddr base ≠ 0 := by
  rw [hbase, ttbrBaddr_pack _ _ htable.2]
  exact htable.1

theorem bases_appended {s' : Sched σ} (queue : bases s'.queue = bases s.queue ++ [base])
    (dead : s'.deadList = s.deadList) :
    (bases (s'.queue ++ s'.deadList)).Perm (base :: bases (s.queue ++ s.deadList)) := by
  rw [bases_append, bases_append, queue, dead, append_assoc]
  exact perm_middle

/-- The invariant is kept when a task is appended. -/
theorem activeOk_appended {s' : Sched σ} (h : ActiveOk src img s) (hok : SchedOk src img s')
    (hqueue : bases s'.queue = bases s.queue ++ [base]) (hdead : s'.deadList = s.deadList)
    (hregister : s'.ttbr0El1 = s.ttbr0El1) (hroot : base ≠ 0 → ttbrBaddr base ≠ 0) :
    ActiveOk src img s' := by
  have hperm := bases_appended hqueue hdead
  refine ⟨hok, ?_, fun b hb hne => ?_⟩
  · rw [hregister]
    exact h.owner.imp id fun hmem => hperm.mem_iff.mpr (mem_cons_of_mem _ hmem)
  · rcases mem_cons.mp (hperm.mem_iff.mp hb) with rfl | hold
    · exact hroot hne
    · exact h.roots b hold hne

/-- The invariant is kept by every call that meets the condition. -/
theorem activeOk_call (h : ActiveOk src img s) {c : SchedCall σ} (hc : c.Allowed src img s)
    (hcare : c.Reaps s → OwnerQueued s) : ActiveOk src img (value (c.run src img s)) := by
  have hok := schedCall_ok h.ok hc
  have heffect := @schedCall_effect σ src img c s
  cases heffect with
  | keeps _ tasks _ _ register =>
    refine ⟨hok, ?_, fun base hbase => h.roots base (tasks.mem_iff.mpr hbase)⟩
    rw [register]
    exact h.owner.imp id tasks.mem_iff.mp
  | reaps reaps tasks _ register =>
    refine ⟨hok, ?_, fun base hbase => h.roots base ?_⟩
    · rcases register with hsame | hnext
      · rw [hsame]
        exact (hcare reaps).imp id tasks.mem_iff.mp
      · rw [bases_append]
        exact .inr (mem_append_left _ hnext)
    · rw [bases_append]
      exact mem_append_left _ (tasks.mem_iff.mpr hbase)
  | kernelTask _ queue dead _ register =>
    exact activeOk_appended h hok queue dead register fun hc => absurd rfl hc
  | userTask _ l0 table _ queue dead _ register =>
    exact activeOk_appended h hok queue dead register fun _ => root_ne_zero table rfl
  | image _ l0 table _ t rest old queue dead _ register =>
    have hroots := h.roots
    rw [bases_append, old] at hroots
    refine ⟨hok, ?_, fun base hbase hne => ?_⟩
    · rw [register, bases_append, queue]
      exact .inr (mem_append_left _ mem_cons_self)
    · rw [bases_append, queue, dead] at hbase
      rcases mem_append.mp hbase with hbase | hbase
      · rcases mem_cons.mp hbase with hbase | hbase
        · exact root_ne_zero table hbase
        · exact hroots base (mem_append_left _ (mem_cons_of_mem _ hbase)) hne
      · exact hroots base (mem_append_right _ hbase) hne

theorem activeOk_run {m : Machine σ} (hboot : Boot src img m)
    (hrun : ReflTransGen (CarefulStep src img) (schedInit m) s) :
    ActiveOk src img s := by
  induction hrun with
  | refl =>
    refine ⟨boot_ok hboot, .inl rfl, fun base hbase hne => ?_⟩
    exact absurd (mem_singleton.mp hbase) hne
  | tail _ hstep ih =>
    rcases hstep with ⟨c, hc, rfl, hcare⟩
    exact activeOk_call ih hc hcare

end

/-- In a run whose calls reap only while the task whose tables the register has is
    on the run queue, the tables that any further call gives back are not the
    active ones if and only if that call meets the condition too. -/
theorem active_table_iff (m : Machine σ) (hboot : Boot src img m) (s : Sched σ)
    (hrun : ReflTransGen (CarefulStep src img) (schedInit m) s) (c : SchedCall σ) :
    TablesSafe (log (c.run src img s)) ↔ (c.Reaps s → OwnerQueued s) :=
  call_safe (activeOk_run hboot hrun) c

theorem head_busy {s : Sched σ} (h : s.queue.head?.map (·.isIdle) = some false) :
    ∀ t rest, s.queue = t :: rest → t.isIdle = false := by
  intro t rest hqueue
  rw [hqueue] at h
  exact Option.some.inj h

/-- One of two user tasks has ended, and the other runs. -/
def handedOver : Sched Allocator :=
  taskExit pmmSource (schedule pmmSource twoTasks 0) 0

theorem handedOver_careful :
    ReflTransGen (CarefulStep pmmSource bootImage) (schedInit bootMachine) handedOver := by
  have hcreate : ∀ s, CarefulStep pmmSource bootImage s
      (schedCreateTask pmmSource bootImage s true true bootImage.textStart).1 := fun s =>
    ⟨.createTask true true bootImage.textStart, trivial,
      (schedCreateTaskTraced_value _ _ _ _).symm, nofun⟩
  have hswitch : ∀ s, OwnerQueued s →
      CarefulStep pmmSource bootImage s (schedule pmmSource s 0) :=
    fun s hqueued => ⟨.schedule 0, trivial, rfl, fun _ => hqueued⟩
  have hexit : ∀ s, s.queue.head?.map (·.isIdle) = some false → OwnerQueued s →
      CarefulStep pmmSource bootImage s (taskExit pmmSource s 0) :=
    fun s hbusy hqueued => ⟨.exit 0, head_busy hbusy, rfl, fun _ => hqueued⟩
  refine (((ReflTransGen.single (hcreate _)).tail (hcreate oneTask)).tail
    (hswitch twoTasks (.inl ?_))).tail (hexit _ ?_ (.inr ?_))
  · decide +kernel
  · decide +kernel
  · decide +kernel

/-- A timer tick reaps the task that has ended, and the tables it gives back are not the
    active ones. -/
theorem active_table_tick :
    log (SchedCall.run pmmSource bootImage (.schedule 0) handedOver)
        = [⟨0x40006000, 0x2000040015000⟩] ∧
      TablesSafe (log (SchedCall.run pmmSource bootImage (.schedule 0) handedOver)) := by
  refine ⟨by decide +kernel, ?_⟩
  exact (active_table_iff pmmSource bootImage bootMachine bootMachine_boot handedOver
    handedOver_careful (.schedule 0)).mpr fun _ => .inr (by decide +kernel)

/-- The system with the user task running. -/
def runningTask : Sched Allocator := schedule pmmSource oneTask 0

/-- The system after the only user task has ended: the idle task runs, and the
    register has the tables of the dead task. -/
def endedTask : Sched Allocator := taskExit pmmSource runningTask 0

/-- The next switch reaps the task, and gives the active tables back. -/
theorem active_table_freed :
    ReflTransGen (SchedStep pmmSource bootImage) (schedInit bootMachine) endedTask ∧
      log (SchedCall.run pmmSource bootImage (.schedule 0) endedTask)
        = [⟨0x40006000, 0x1000040006000⟩] ∧
      ttbrBaddr 0x1000040006000 = 0x40006000 := by
  refine ⟨?_, by decide +kernel, by decide⟩
  exact (oneTask_run.tail (.schedule oneTask 0)).tail (.exit _ 0 (head_busy (by decide +kernel)))

end CortexForge.Sched
