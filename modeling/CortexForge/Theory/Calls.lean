import CortexForge.Core.SchedTrace
import CortexForge.Theory.Runs
import Mathlib.Data.List.Perm.Subperm

/-!
# Runs as Sequences of Calls

The steps of the system, named by the calls that make them. A run of the system
is then a sequence of calls, and a condition can be put on each of them.

What a call does to the tables that tasks have, to the counter of address space
numbers and to the base register comes in few kinds. `schedCall_effect` says once
which of them a call has.

## Main definitions

* `SchedCall.Allowed`: What is asked of a call.
* `SchedCall.Reaps`: The calls that reap dead tasks.
* `SchedCall.Effect`: What a call does to the base registers of tasks.

## Theorems

* `schedCall_ok`: A call that is allowed keeps the invariant.
* `schedCall_effect`: The effect of every call.
-/

namespace CortexForge.Sched

open Mmu Elf Syscall Traced List

variable {σ : Type} (src : Pages σ) (img : KernelImage)

/-- The idle task does not exit, programs store to their own pages, and other
    work of the kernel leaves the tables of tasks alone. -/
def SchedCall.Allowed (s : Sched σ) : SchedCall σ → Prop
  | .exit _ => ∀ t rest, s.queue = t :: rest → t.isIdle = false
  | .store mem => UserStore s mem
  | .kernel m => KernelWork src img s m
  | _ => True

/-- The call reaps dead tasks. A kill does so if its target is the current
    task. -/
def SchedCall.Reaps (s : Sched σ) : SchedCall σ → Prop
  | .schedule _ => True
  | .block _ => True
  | .sleep _ _ _ => s.queue ≠ []
  | .exit _ => True
  | .kill pid _ => pid ≠ 0 ∧ ∃ t, schedFindTask s pid = some t ∧ t.state ≠ .dead ∧
      s.queue.head? = some t
  | .reap => True
  | _ => False

/-- The base registers of some tasks. -/
def bases (tasks : List Task) : List Nat := tasks.map (·.ttbr0)

/-- What a call does to the base registers of tasks, to the counter of address
    space numbers and to the base register of the machine. -/
inductive SchedCall.Effect (c : SchedCall σ) (s s' : Sched σ) : Prop
  /-- Tasks are rearranged, or one of them dies. -/
  | keeps (reaps : ¬ c.Reaps s)
      (tasks : (bases (s.queue ++ s.deadList)).Perm (bases (s'.queue ++ s'.deadList)))
      (queue : (bases s'.queue).Subperm (bases s.queue))
      (asid : s'.nextAsid = s.nextAsid) (register : s'.ttbr0El1 = s.ttbr0El1)
  /-- Dead tasks are reaped, and perhaps tasks are switched. -/
  | reaps (reaps : c.Reaps s)
      (tasks : (bases s.queue).Perm (bases (s'.queue ++ s'.deadList)))
      (asid : s'.nextAsid = s.nextAsid)
      (register : s'.ttbr0El1 = s.ttbr0El1 ∨ s'.ttbr0El1 ∈ bases s'.queue)
  | kernelTask (reaps : ¬ c.Reaps s) (queue : bases s'.queue = bases s.queue ++ [0])
      (dead : s'.deadList = s.deadList) (asid : s'.nextAsid = s.nextAsid)
      (register : s'.ttbr0El1 = s.ttbr0El1)
  | userTask (reaps : ¬ c.Reaps s) (l0 : Nat) (table : l0 ≠ 0 ∧ l0 < 2 ^ 48)
      (call : ∀ file args, c ≠ .exec file args)
      (queue : bases s'.queue = bases s.queue ++ [ttbrPack l0 s.nextAsid])
      (dead : s'.deadList = s.deadList) (asid : s'.nextAsid = (schedAsidAlloc s.nextAsid).2)
      (register : s'.ttbr0El1 = s.ttbr0El1)
  | image (reaps : ¬ c.Reaps s) (l0 : Nat) (table : l0 ≠ 0 ∧ l0 < 2 ^ 48)
      (call : ∃ file args, c = .exec file args)
      (t : Task) (rest : List Task)
      (old : s.queue = t :: rest) (queue : bases s'.queue = ttbrPack l0 s.nextAsid :: bases rest)
      (dead : s'.deadList = s.deadList) (asid : s'.nextAsid = (schedAsidAlloc s.nextAsid).2)
      (register : s'.ttbr0El1 = ttbrPack l0 s.nextAsid)

section

variable {src} {img}

theorem freeTablesTraced_value (ttbr0El1 : Nat) (m : Machine σ) (l0 : Nat) :
    value (freeTablesTraced src ttbr0El1 m l0) = mmuFreeUserTables src m l0 := by
  simp [freeTablesTraced]

theorem reapTaskTraced_value (ttbr0El1 : Nat) (m : Machine σ) (dead : Task) :
    value (reapTaskTraced src ttbr0El1 m dead) = reapTask src m dead := by
  simp only [reapTaskTraced, reapTask, value_ite, freeTablesTraced_value, value_pure]

theorem reapTasksTraced_value (ttbr0El1 : Nat) (dead : List Task) : ∀ m : Machine σ,
    value (reapTasksTraced src ttbr0El1 dead m) = dead.foldl (reapTask src) m := by
  induction dead with
  | nil => intro m; rfl
  | cons t rest ih =>
    intro m
    rw [reapTasksTraced, value_bind, reapTaskTraced_value, ih, foldl_cons]

variable (s : Sched σ)

theorem schedReapTraced_value : value (schedReapTraced src s) = schedReap src s := by
  rw [schedReapTraced, value_bind, reapTasksTraced_value]
  rfl

theorem sleepMsTraced_value (now ms sp : Nat) :
    value (sleepMsTraced src s now ms sp) = sleepMs src s now ms sp := by
  unfold sleepMsTraced sleepMs
  rcases s.queue with _ | ⟨t, rest⟩ <;> rfl

theorem schedKillTaskTraced_value (pid sp : Nat) :
    value (schedKillTaskTraced src s pid sp) = (schedKillTask src s pid sp).1 := by
  unfold schedKillTaskTraced
  rcases hfind : schedFindTask s pid with _ | t
  · simp [schedKillTask, hfind]
  simp only [value_ite]
  split_ifs with hzero hdead hcurrent <;> simp [schedKillTask, *]
  rfl

theorem schedCreateTaskTraced_value (kmallocOk fdsOk : Bool) (entry : Nat) :
    value (schedCreateTaskTraced src img s kmallocOk fdsOk entry)
      = (schedCreateTask src img s kmallocOk fdsOk entry).1 := by
  simp only [schedCreateTaskTraced, value_ite, value_bind, freeTablesTraced_value]
  split_ifs with hkmalloc hkstack hl0 hwindow hustack <;> simp [schedCreateTask, *]

theorem schedForkTraced_value (kmallocOk fdsOk : Bool) (parent : Task)
    (frame : Nat) : value (schedForkTraced src img s kmallocOk fdsOk parent frame)
      = (schedFork src img s kmallocOk fdsOk parent frame).1 := by
  simp only [schedForkTraced, value_ite, value_bind, freeTablesTraced_value]
  split_ifs with hkmalloc hkstack hl0 hustack <;> simp [schedFork, *]

theorem freeOldImageTraced_value (ttbr0El1 : Nat) (m : Machine σ) (old : Task) :
    value (freeOldImageTraced src ttbr0El1 m old) = freeOldImage src m old := by
  simp only [freeOldImageTraced, freeOldImage, value_ite, freeTablesTraced_value, value_pure]

theorem loadImageTraced_value (file : Option FileBytes) (args : ExecArgs) :
    value (loadImageTraced src s file args) = (loadImage src s file args).1 := by
  unfold loadImageTraced loadImage
  rcases s.queue with _ | ⟨cur, rest⟩
  · rfl
  rcases file with _ | f
  · rfl
  simp only [value_ite]
  split_ifs with hfds hsize hstack hl0
  · rfl
  · rfl
  · rfl
  · rfl
  rcases elfLoad src _ f.bytes f.size _ with ⟨m, _ | image⟩
  · rfl
  · simp [freeOldImageTraced_value]

end

section

variable {src} {img} {s s' : Sched σ}

/-- A call that is allowed makes a step, or does nothing. -/
theorem schedCall_step {c : SchedCall σ} (hc : c.Allowed src img s) :
    SchedStep src img s (value (c.run src img s)) ∨ value (c.run src img s) = s := by
  cases c with
  | createTask kmallocOk fdsOk entry =>
    rw [SchedCall.run, schedCreateTaskTraced_value]
    exact .inl (.createTask s kmallocOk fdsOk entry)
  | createKernelTask kmallocOk entry => exact .inl (.createKernelTask s kmallocOk entry)
  | fork kmallocOk fdsOk frame =>
    rw [SchedCall.run]
    rcases hqueue : s.queue with _ | ⟨parent, rest⟩
    · exact .inr rfl
    · simp only [schedForkTraced_value]
      exact .inl (.fork s kmallocOk fdsOk parent rest frame hqueue)
  | exec file args =>
    rw [SchedCall.run, loadImageTraced_value]
    exact .inl (.exec s file args)
  | growStack far => exact .inl (.growStack s far)
  | schedule sp => exact .inl (.schedule s sp)
  | block sp => exact .inl (.block s sp)
  | sleep now ms sp =>
    rw [SchedCall.run, sleepMsTraced_value]
    exact .inl (.sleep s now ms sp)
  | wake now => exact .inl (.wake s now)
  | makeReady i => exact .inl (.makeReady s i)
  | setPriority i prio => exact .inl (.setPriority s i prio)
  | exit sp => exact .inl (.exit s sp hc)
  | kill pid sp =>
    rw [SchedCall.run, schedKillTaskTraced_value]
    exact .inl (.kill s pid sp)
  | reap =>
    rw [SchedCall.run, schedReapTraced_value]
    exact .inl (.reap s)
  | store mem => exact .inl (.store s mem hc)
  | kernel m => exact .inl (.kernel s m hc)

theorem schedCall_ok {c : SchedCall σ} (hok : SchedOk src img s) (hc : c.Allowed src img s) :
    SchedOk src img (value (c.run src img s)) := by
  rcases schedCall_step hc with hstep | heq
  · exact schedStep_ok hok hstep
  · rw [heq]
    exact hok

end

section

variable {src} {img} {s : Sched σ} {res : Sched σ × Int} {c : SchedCall σ}

theorem bases_map {ts us : List Task} (h : (ts.map holdings).Perm (us.map holdings)) :
    (bases ts).Perm (bases us) := by
  have hbase := h.map (·.ttbr0)
  rw [map_map, map_map] at hbase
  exact hbase

theorem bases_append (ts us : List Task) : bases (ts ++ us) = bases ts ++ bases us :=
  map_append

theorem bases_modify {ts : List Task} (i : Nat) (f : Task → Task)
    (hf : ∀ t, (f t).ttbr0 = t.ttbr0) : bases (ts.modify i f) = bases ts :=
  map_modify i f hf

/-- New tables come from a page that nobody had. -/
theorem createTables_new (m : Machine σ) (hne : (mmuCreateUserTables src m).2 ≠ 0) :
    ¬ src.Held m.pmm (mmuCreateUserTables src m).2 ∧
      (mmuCreateUserTables src m).2 < 2 ^ 48 := by
  have htable : (allocTable src m).2 = (src.allocatePages m.pmm 1).2 := by
    unfold allocTable
    simp only
    split
    next hzero => exact hzero.symm
    next => rfl
  have hl0 : (mmuCreateUserTables src m).2 = (src.allocatePages m.pmm 1).2 := by
    rw [← htable]
    unfold mmuCreateUserTables
    simp only
    split
    next hzero => exact hzero.symm
    next => split <;> rfl
  rw [hl0] at hne ⊢
  have hnew := src.alloc_new m.pmm 1 0 hne Nat.one_pos
  have hbelow := src.alloc_below m.pmm 1 hne
  unfold physLimit at hbelow
  exact ⟨hnew, by omega⟩

/-- New tables on a machine that has more pages in use. -/
theorem createTables_unheld (m m' : Machine σ) (hheld : ∀ a, src.Held m.pmm a → src.Held m'.pmm a)
    (hne : (mmuCreateUserTables src m').2 ≠ 0) :
    ¬ src.Held m.pmm (mmuCreateUserTables src m').2 :=
  fun hc => (createTables_new m' hne).1 (hheld _ hc)

theorem zeroedPages_held (m : Machine σ) (n a : Nat) (ha : src.Held m.pmm a) :
    src.Held (zeroedPages src m n).1.pmm a := by
  have hkeep := src.alloc_keep m.pmm n a ha
  unfold zeroedPages
  simp only
  split
  · exact hkeep
  · exact hkeep

/-- The construction of a user task fails and changes nothing but the machine, or
    adds a task with the next number. -/
theorem construction_cases {plan : TaskPlan} {s : Sched σ} (h : Construction src img plan s res) :
    (∃ m, res.1 = { s with machine := m }) ∨
    ∃ m t l0, l0 ≠ 0 ∧ l0 < 2 ^ 48 ∧ t.ttbr0 = ttbrPack l0 s.nextAsid ∧
      res.1 = { s with
        machine := m
        queue := s.queue ++ [t]
        nextPid := wrap64 (s.nextPid + 1)
        nextAsid := (schedAsidAlloc s.nextAsid).2 } := by
  cases h with
  | @made mk m1 m2 m3 m4 k r u mem t hstacked ht =>
    have hl0 : (mmuCreateUserTables src mk).2 = r := by rw [hstacked.windowed.begun.tables]
    have hlt := createTables_new mk (by rw [hl0]; exact hstacked.windowed.root_ne)
    rw [hl0] at hlt
    exact .inr ⟨_, t, r, hstacked.windowed.root_ne, hlt.2, congrArg Holdings.ttbr0 ht, rfl⟩
  | _ => exact .inl ⟨_, rfl⟩

theorem schedCreateKernelTask_cases (s : Sched σ) (kmallocOk : Bool) (entry : Nat) :
    (∃ m, (schedCreateKernelTask src img s kmallocOk entry).1 = { s with machine := m }) ∨
    ∃ m t, t.ttbr0 = 0 ∧
      (schedCreateKernelTask src img s kmallocOk entry).1
        = { s with
            machine := m
            queue := s.queue ++ [t]
            nextPid := wrap64 (s.nextPid + 1) } := by
  have hout := @createKernelTask_construction σ src img s kmallocOk entry
  generalize schedCreateKernelTask src img s kmallocOk entry = res at hout ⊢
  cases hout with
  | made _ _ _ _ ht => exact .inr ⟨_, _, congrArg Holdings.ttbr0 ht, rfl⟩
  | _ => exact .inl ⟨_, rfl⟩

theorem loadImage_cases (s : Sched σ) (file : Option FileBytes) (args : ExecArgs) :
    (∃ m, (loadImage src s file args).1 = { s with machine := m }) ∨
    ∃ m cur new rest l0, s.queue = cur :: rest ∧ l0 ≠ 0 ∧ l0 < 2 ^ 48 ∧
      new.ttbr0 = ttbrPack l0 s.nextAsid ∧
      (loadImage src s file args).1
        = { s with
            machine := m
            queue := new :: rest
            nextAsid := (schedAsidAlloc s.nextAsid).2
            ttbr0El1 := ttbrPack l0 s.nextAsid } := by
  have hout := @loadImage_replacement σ src s file args
  generalize loadImage src s file args = res at hout ⊢
  cases hout with
  | @replaced cur new rest f ms m1 m2 m3 u r image hmay hopened hr hload hmap hnew =>
    have hl0 : (mmuCreateUserTables src ms).2 = r := by rw [hopened.tables]
    have hlt := createTables_new ms (by rw [hl0]; exact hr)
    rw [hl0] at hlt
    exact .inr ⟨_, cur, new, rest, r, hmay.current, hr, hlt.2, by rw [hnew], rfl⟩
  | _ => exact .inl ⟨_, rfl⟩

/-- Stack growth changes nothing but the machine and what the task holds besides
    its tables. -/
theorem schedTryGrowStack_bases (s : Sched σ) (far : Nat) :
    bases (schedTryGrowStack src s far).1.queue = bases s.queue ∧
      (schedTryGrowStack src s far).1
        = { s with
            machine := (schedTryGrowStack src s far).1.machine
            queue := (schedTryGrowStack src s far).1.queue } := by
  have hout := @tryGrowStack_growth σ src s far
  generalize schedTryGrowStack src s far = res at hout ⊢
  cases hout with
  | grown hcurrent _ _ _ _ _ =>
    rw [hcurrent]
    exact ⟨rfl, rfl⟩
  | _ => exact ⟨rfl, rfl⟩

theorem keeps_machine {s : Sched σ} {m : Machine σ} (hno : ¬ c.Reaps s) :
    c.Effect s { s with machine := m } :=
  .keeps hno (List.Perm.refl _) (List.Subperm.refl _) rfl rfl

/-- A change of the queue to what tasks hold besides their tables. -/
theorem keeps_queue {s : Sched σ} {m : Machine σ} {queue : List Task} (hno : ¬ c.Reaps s)
    (hsame : bases queue = bases s.queue) :
    c.Effect s { s with machine := m, queue := queue } := by
  refine .keeps hno (List.Perm.of_eq ?_) (List.Perm.subperm (List.Perm.of_eq hsame)) rfl rfl
  unfold bases at hsame ⊢
  simp [hsame]

theorem reaps_switched {s' : Sched σ} (hreaps : c.Reaps s) (h : Switched src s s') :
    c.Effect s s' := by
  refine .reaps hreaps (bases_map h.perm) h.asid_eq (h.register.imp id ?_)
  rintro ⟨t, ht, heq⟩
  exact heq ▸ mem_map_of_mem ht

/-- A user task is made, or not. -/
theorem construction_effect {plan : TaskPlan} (hno : ¬ c.Reaps s)
    (hexec : ∀ file args, c ≠ .exec file args) (hout : Construction src img plan s res) :
    c.Effect s res.1 := by
  rcases construction_cases hout with ⟨m, heq⟩ | ⟨m, t, l0, hne, hlt, ht, heq⟩
  · rw [heq]
    exact keeps_machine hno
  · rw [heq]
    refine .userTask hno l0 ⟨hne, hlt⟩ hexec ?_ rfl rfl rfl
    rw [bases, map_append, map_singleton, ht]
    rfl

theorem kill_effect (s : Sched σ) (pid sp : Nat) :
    (SchedCall.kill pid sp : SchedCall σ).Effect s (schedKillTask src s pid sp).1 := by
  unfold schedKillTask
  rcases hfind : schedFindTask s pid with _ | t
  · split_ifs <;> exact keeps_machine fun ⟨_, u, hu, _⟩ => by simp [hfind] at hu
  have hfound : ∀ u, schedFindTask s pid = some u → u = t := fun u hu =>
    Option.some.inj (hu.symm.trans hfind)
  simp only
  split_ifs with hzero hdead hcurrent
  · exact keeps_machine fun hc => hc.1 hzero
  · exact keeps_machine fun ⟨_, u, hu, hlive, _⟩ => hlive (hfound u hu ▸ hdead)
  · exact reaps_switched ⟨hzero, t, hfind, hdead, hcurrent⟩ (leave_switched s .dead sp)
  · refine .keeps (fun ⟨_, u, hu, _, hhead⟩ => hcurrent (hfound u hu ▸ hhead)) ?_ ?_ rfl rfl
    · have hperm := perm_cons_erase (schedFindTask_mem hfind)
      unfold bases
      rw [map_append, map_append]
      exact (List.Perm.append_right _ (hperm.map _)).trans perm_middle.symm
    · exact ((erase_sublist).map _).subperm

theorem schedCall_effect (c : SchedCall σ) (s : Sched σ) :
    c.Effect s (value (c.run src img s)) := by
  cases c with
  | createTask kmallocOk fdsOk entry =>
    rw [SchedCall.run, schedCreateTaskTraced_value]
    exact construction_effect not_false (fun _ _ hc => by cases hc)
      (createTask_construction s kmallocOk fdsOk entry)
  | createKernelTask kmallocOk entry =>
    rw [SchedCall.run, value_pure]
    rcases schedCreateKernelTask_cases s kmallocOk entry with
      ⟨m, heq⟩ | ⟨m, t, ht, heq⟩
    · rw [heq]
      exact keeps_machine not_false
    · rw [heq]
      refine .kernelTask not_false ?_ rfl rfl rfl
      rw [bases, map_append, map_singleton, ht]
      rfl
  | fork kmallocOk fdsOk frame =>
    rw [SchedCall.run]
    rcases hqueue : s.queue with _ | ⟨parent, rest⟩
    · exact keeps_machine not_false
    simp only [schedForkTraced_value]
    exact construction_effect not_false (fun _ _ hc => by cases hc)
      (fork_construction s kmallocOk fdsOk parent frame)
  | exec file args =>
    rw [SchedCall.run, loadImageTraced_value]
    rcases loadImage_cases s file args with
      ⟨m, heq⟩ | ⟨m, cur, new, rest, l0, hqueue, hne, hlt, hnew, heq⟩
    · rw [heq]
      exact keeps_machine not_false
    · rw [heq]
      refine .image not_false l0 ⟨hne, hlt⟩ ⟨file, args, rfl⟩ cur rest hqueue ?_ rfl rfl rfl
      rw [bases, map_cons, hnew]
      rfl
  | growStack far =>
    rw [SchedCall.run]
    rcases schedTryGrowStack_bases s far with ⟨hbases, heq⟩
    rw [heq]
    exact keeps_queue not_false hbases
  | schedule sp => exact reaps_switched trivial (schedule_switched s sp)
  | block sp => exact reaps_switched trivial (leave_switched s .blocked sp)
  | sleep now ms sp =>
    rw [SchedCall.run, sleepMsTraced_value]
    rcases hqueue : s.queue with _ | ⟨t, rest⟩
    · rw [sleepMs, hqueue]
      exact keeps_machine (fun hc => hc hqueue)
    · refine reaps_switched (fun hc => ?_) (sleepMs_switched hqueue now ms sp)
      exact absurd (hqueue.symm.trans hc) (cons_ne_nil _ _)
  | wake now =>
    refine keeps_queue not_false ?_
    unfold bases
    rw [map_map]
    refine map_congr_left fun t _ => ?_
    simp only [Function.comp_apply]
    split <;> rfl
  | makeReady i =>
    refine keeps_queue not_false (bases_modify i _ fun t => ?_)
    split <;> rfl
  | setPriority i prio => exact keeps_queue not_false (bases_modify i _ fun _ => rfl)
  | exit sp => exact reaps_switched trivial (leave_switched s .dead sp)
  | kill pid sp =>
    rw [SchedCall.run, schedKillTaskTraced_value]
    exact kill_effect s pid sp
  | reap =>
    rw [SchedCall.run, schedReapTraced_value]
    refine .reaps trivial ?_ rfl (.inl rfl)
    rw [show (schedReap src s).queue ++ (schedReap src s).deadList = s.queue from
      append_nil _]
  | store mem => exact keeps_machine not_false
  | kernel m => exact keeps_machine not_false

end

end CortexForge.Sched
