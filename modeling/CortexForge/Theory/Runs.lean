import CortexForge.Theory.Exec
import CortexForge.Theory.Fork
import Mathlib.Logic.Relation

/-!
# Runs of the Scheduler

The steps of the system and the invariant over whole runs. A step is one of the
scheduler's calls, a store by the program that runs now, or other work of the
kernel.

A program stores through its own address space: what it changes lies in pages
that its tables let it write to. That these are never tables is not assumed; it
is part of what the invariant says. Other work of the kernel may write to
anything but the tables of tasks, and take and give back pages of its own.

Calls that change states and priorities, or move tasks between the queue and the
list of dead tasks, leave what tasks hold as it is, up to the order.

## Main definitions

* `UserStore`, `KernelWork`: What happens besides the calls.
* `SchedStep`: One step.
* `Switched`: What a switch of tasks does.
* `Boot`: The machine the scheduler starts on.

## Theorems

* `schedule_switched`: The effect of a switch.
* `switched_goes`, `kill_goes`, `reap_goes`: The calls that move tasks.
* `schedStep_cases`: What a step does to address spaces.
* `schedStep_ok`, `run_ok`: The invariant along a run.
-/

namespace CortexForge.Sched

open Mmu Elf Holdings List

variable {σ : Type} (src : Pages σ) (img : KernelImage)

/-- The memory after stores by the current task: every byte that differs lies in
    a page its tables let it write to. -/
def UserStore (s : Sched σ) (mem : Memory) : Prop :=
  ∃ t rest, s.queue = t :: rest ∧ t.ttbr0 ≠ 0 ∧
    ∀ x, mem x ≠ s.machine.mem x → ∃ va e,
      translate s.machine.mem (ttbrBaddr t.ttbr0) va = some e ∧ el0Write e = true ∧
        InPage (pteNextTable e) x

/-- The machine after other work of the kernel: pages of tasks and shared pages
    are still held, and the tables of tasks are as they were. -/
structure KernelWork (s : Sched σ) (m : Machine σ) : Prop where
  task_held : ∀ t ∈ s.queue ++ s.deadList, ∀ a, TaskPage s.machine (holdings t) a →
    src.Held s.machine.pmm a → src.Held m.pmm a
  shared_held : ∀ a, SharedPage img s.machine a → src.Held s.machine.pmm a → src.Held m.pmm a
  tables_eq : ∀ t ∈ s.queue ++ s.deadList, t.ttbr0 ≠ 0 → ∀ a x,
    TablePage s.machine.mem (ttbrBaddr t.ttbr0) a → InPage a x → m.mem x = s.machine.mem x
  tramp_eq : m.sigtrampPhys = s.machine.sigtrampPhys
  refused_eq : m.refused = s.machine.refused

/-- One step of the system. The idle task does not exit. -/
inductive SchedStep : Sched σ → Sched σ → Prop
  | createTask (s : Sched σ) (kmallocOk fdsOk : Bool) (entry : Nat) :
      SchedStep s (schedCreateTask src img s kmallocOk fdsOk entry).1
  | createKernelTask (s : Sched σ) (kmallocOk : Bool) (entry : Nat) :
      SchedStep s (schedCreateKernelTask src img s kmallocOk entry).1
  | fork (s : Sched σ) (kmallocOk fdsOk : Bool) (parent : Task) (rest : List Task) (frame : Nat)
      (hcurrent : s.queue = parent :: rest) :
      SchedStep s (schedFork src img s kmallocOk fdsOk parent frame).1
  | exec (s : Sched σ) (file : Option FileBytes) (args : ExecArgs) :
      SchedStep s (loadImage src s file args).1
  | growStack (s : Sched σ) (far : Nat) : SchedStep s (schedTryGrowStack src s far).1
  | schedule (s : Sched σ) (sp : Nat) : SchedStep s (schedule src s sp)
  | block (s : Sched σ) (sp : Nat) : SchedStep s (schedBlockCurrent src s sp)
  | sleep (s : Sched σ) (now ms sp : Nat) : SchedStep s (sleepMs src s now ms sp)
  | wake (s : Sched σ) (now : Nat) : SchedStep s (schedWakeSleepers s now)
  | makeReady (s : Sched σ) (i : Nat) : SchedStep s (schedMakeReady s i)
  | setPriority (s : Sched σ) (i prio : Nat) : SchedStep s (schedSetPriority s i prio)
  | exit (s : Sched σ) (sp : Nat) (hidle : ∀ t rest, s.queue = t :: rest → t.isIdle = false) :
      SchedStep s (taskExit src s sp)
  | kill (s : Sched σ) (pid sp : Nat) : SchedStep s (schedKillTask src s pid sp).1
  | reap (s : Sched σ) : SchedStep s (schedReap src s)
  | store (s : Sched σ) (mem : Memory) (hstore : UserStore s mem) :
      SchedStep s { s with machine := { s.machine with mem := mem } }
  | kernel (s : Sched σ) (m : Machine σ) (hwork : KernelWork src img s m) :
      SchedStep s { s with machine := m }

/-- The machine at boot: the kernel's text is in use, and there is no trampoline
    yet. -/
structure Boot (m : Machine σ) : Prop where
  text_held : ∀ a, TextPage img a → src.Held m.pmm a
  no_tramp : m.sigtrampPhys = 0

section

variable {src} {img} {s s' : Sched σ}

/-- Tasks of the queue are changed in what they do not hold. -/
theorem goes_map {queue : List Task} (hok : SchedOk src img s)
    (hsame : queue.map holdings = s.queue.map holdings) :
    Goes src img s { s with queue := queue } := by
  refine goes_perm hok ?_
  simp [hsame]

/-- The tasks, with those that are to be reaped first. -/
theorem dead_perm (s : Sched σ) : ((s.queue ++ s.deadList).map holdings).Perm
    (s.deadList.map holdings ++ s.queue.map holdings) := by
  rw [map_append]
  exact perm_append_comm

/-- Reaping leaves memory alone. -/
theorem reap_goes (hok : SchedOk src img s) : Goes src img s (schedReap src s) := by
  rcases hok with ⟨role, hok⟩
  have hperm := dead_perm s
  have hgoes := carries_reap s.deadList s.machine (sysOk_perm hok hperm)
  have hleft : ((schedReap src s).queue ++ (schedReap src s).deadList).map holdings
      = s.queue.map holdings := by
    simp [schedReap]
  refine ⟨⟨role, ?_⟩, hgoes.maps.refused_le, fun h hin => .inr ?_⟩
  · rw [hleft]
    exact hgoes.sys
  · rw [hleft] at hin
    exact ⟨hperm.mem_iff.mpr (mem_append_right _ hin), hgoes.maps.translate_eq h hin⟩

theorem rotateTo_perm (ring : List Task) (i : Nat) : (rotateTo ring i).Perm ring := by
  refine perm_append_comm.trans ?_
  simp

/-- Whether or not the task that is switched away from is dead, it is still held
    somewhere. -/
theorem switchFrom_perm (prev : Task) (rest deadList : List Task) (sp : Nat) :
    (((prev :: rest) ++ deadList).map holdings).Perm
      (((switchFrom prev rest deadList sp).1 ++ (switchFrom prev rest deadList sp).2).map
        holdings) := by
  unfold switchFrom
  by_cases hdead : prev.state = .dead
  · rw [if_pos hdead, map_append, map_append]
    exact perm_middle.symm
  · rw [if_neg hdead, map_append, map_append, map_append]
    exact List.Perm.append_right _ (perm_append_singleton _ _).symm

/-- The effect of a switch: dead tasks are reaped, and the tasks of the queue are
    rearranged, one of them perhaps on the list of dead tasks now. The register
    is left alone, or has the tables of a task of the queue. -/
structure Switched (src : Pages σ) (s s' : Sched σ) : Prop where
  machine_eq : s'.machine = (schedReap src s).machine
  perm : (s.queue.map holdings).Perm ((s'.queue ++ s'.deadList).map holdings)
  asid_eq : s'.nextAsid = s.nextAsid
  register : s'.ttbr0El1 = s.ttbr0El1 ∨ ∃ t ∈ s'.queue, t.ttbr0 = s'.ttbr0El1

theorem schedule_switched (s : Sched σ) (sp : Nat) : Switched src s (schedule src s sp) := by
  have hreaped : (schedReap src s).queue = s.queue := rfl
  have hempty : (schedReap src s).deadList = [] := rfl
  unfold schedule
  rcases hqueue : s.queue with _ | ⟨prev, rest⟩
  · simp only [hreaped, hqueue]
    refine ⟨rfl, ?_, rfl, .inl rfl⟩
    rw [hreaped, hqueue]
    exact List.Perm.nil
  simp only [hreaped, hqueue]
  split_ifs with hsame
  · refine ⟨rfl, ?_, rfl, .inl rfl⟩
    rw [hqueue, hempty, append_nil]
    exact List.Perm.refl _
  have hleft := switchFrom_perm prev rest (schedReap src s).deadList sp
  have hrotate := rotateTo_perm (switchFrom prev rest (schedReap src s).deadList sp).1
    (nextPlace (rest ++ [prev]))
  rw [hempty, append_nil, ← hqueue] at hleft
  rcases hring : rotateTo (switchFrom prev rest (schedReap src s).deadList sp).1
      (nextPlace (rest ++ [prev])) with _ | ⟨t, others⟩
  · refine ⟨rfl, ?_, rfl, .inl rfl⟩
    simp [hreaped, hempty]
  · rw [hring] at hrotate
    refine ⟨rfl, hleft.trans ?_, rfl, ?_⟩
    · rw [map_append, map_append]
      exact List.Perm.append_right _ ((hrotate.map holdings).symm)
    · by_cases huser : t.ttbr0 = 0
      · exact .inl (if_pos huser)
      · exact .inr ⟨_, mem_cons_self, (if_neg huser).symm⟩

/-- A change to what tasks do not hold, before the switch. -/
theorem switched_map {queue : List Task} (hsame : queue.map holdings = s.queue.map holdings)
    (h : Switched src { s with queue := queue } s') : Switched src s s' :=
  ⟨h.machine_eq, hsame ▸ h.perm, h.asid_eq, h.register⟩

/-- The state of the current task is set, and then tasks are switched. -/
theorem leave_switched (s : Sched σ) (state : TaskState) (sp : Nat) :
    Switched src s (schedule src (setCurrentState s state) sp) := by
  unfold setCurrentState
  rcases hqueue : s.queue with _ | ⟨t, rest⟩
  · exact schedule_switched s sp
  · refine switched_map ?_ (schedule_switched _ sp)
    rw [hqueue]
    rfl

theorem sleepMs_switched {t : Task} {rest : List Task} (hqueue : s.queue = t :: rest)
    (now ms sp : Nat) : Switched src s (sleepMs src s now ms sp) := by
  unfold sleepMs
  rw [hqueue]
  refine switched_map ?_ (schedule_switched _ sp)
  rw [hqueue]
  rfl

/-- What a switch does to address spaces. -/
theorem switched_goes (hok : SchedOk src img s) (h : Switched src s s') :
    Goes src img s s' := by
  have hreap := reap_goes hok
  rcases s' with ⟨m, queue, deadList, pid, asid, ttbr⟩
  have hm : m = (schedReap src s).machine := h.machine_eq
  rw [hm]
  refine goes_trans hreap (goes_perm hreap.ok ?_)
  rw [show (schedReap src s).queue ++ (schedReap src s).deadList = s.queue from
    append_nil _]
  exact h.perm

theorem sleepMs_goes (hok : SchedOk src img s) (now ms sp : Nat) :
    Goes src img s (sleepMs src s now ms sp) := by
  rcases hqueue : s.queue with _ | ⟨t, rest⟩
  · rw [sleepMs, hqueue]
    exact goes_refl hok
  · exact switched_goes hok (sleepMs_switched hqueue now ms sp)

theorem wakeSleepers_goes (hok : SchedOk src img s) (now : Nat) :
    Goes src img s (schedWakeSleepers s now) := by
  refine goes_map hok ?_
  rw [map_map]
  refine map_congr_left fun t _ => ?_
  simp only [Function.comp_apply]
  split <;> rfl

/-- A change to one element of a list that does not show in what is looked at. -/
theorem map_modify {α : Type} {ts : List Task} (i : Nat) (f : Task → Task) {g : Task → α}
    (hf : ∀ t, g (f t) = g t) : (ts.modify i f).map g = ts.map g := by
  refine ext_getElem? fun j => ?_
  rw [getElem?_map, getElem?_map, getElem?_modify]
  by_cases hij : i = j
  · rcases ts[j]? with _ | t
    · rfl
    · simp [hij, hf]
  · rcases ts[j]? with _ | t
    · rfl
    · simp only [if_neg hij]
      rfl

/-- A change to one task of the queue, in what it does not hold. -/
theorem modify_goes (hok : SchedOk src img s) (i : Nat) (f : Task → Task)
    (hf : ∀ t, holdings (f t) = holdings t) :
    Goes src img s { s with queue := s.queue.modify i f } :=
  goes_map hok (map_modify i f hf)

theorem schedFindTask_mem {pid : Nat} {t : Task} (hfind : schedFindTask s pid = some t) :
    t ∈ s.queue := by
  have hin := mem_of_find?_eq_some hfind
  rcases mem_append.mp hin with hin | hin
  · exact (dropWhile_sublist _).subset hin
  · exact (takeWhile_sublist _).subset hin

/-- What killing a task comes to: nothing, a switch if it is the current task, or
    its move to the dead list. -/
theorem kill_cases (s : Sched σ) (pid sp : Nat) :
    (schedKillTask src s pid sp).1 = s ∨ Switched src s (schedKillTask src s pid sp).1 ∨
      ∃ queue deadList,
        (schedKillTask src s pid sp).1 = { s with queue := queue, deadList := deadList } ∧
        ((s.queue ++ s.deadList).map holdings).Perm ((queue ++ deadList).map holdings) := by
  unfold schedKillTask
  split_ifs with hzero
  · exact .inl rfl
  rcases hfind : schedFindTask s pid with _ | t
  · exact .inl rfl
  simp only
  by_cases hdead : t.state = .dead
  · rw [if_pos hdead]
    exact .inl rfl
  by_cases hcurrent : s.queue.head? = some t
  · rw [if_neg hdead, if_pos hcurrent]
    exact .inr (.inl (leave_switched s .dead sp))
  · rw [if_neg hdead, if_neg hcurrent]
    refine .inr (.inr ⟨_, _, rfl, ?_⟩)
    have hperm := perm_cons_erase (schedFindTask_mem hfind)
    rw [map_append, map_append]
    refine (List.Perm.append_right _ (hperm.map holdings)).trans ?_
    exact perm_middle.symm

theorem kill_goes (hok : SchedOk src img s) (pid sp : Nat) :
    Goes src img s (schedKillTask src s pid sp).1 := by
  rcases @kill_cases σ src s pid sp with heq | hswitch | ⟨queue, deadList, heq, hperm⟩
  · rw [heq]
    exact goes_refl hok
  · exact switched_goes hok hswitch
  · rw [heq]
    exact goes_perm hok hperm

end

section

variable {src} {img} {s : Sched σ} {role : Roles} {mem : Memory}

/-- Stores by a program change nothing but its own pages. -/
theorem store_evolves (hok : SysOk src img s.machine role ((s.queue ++ s.deadList).map holdings))
    (hstore : UserStore s mem) :
    ∃ W, Evolves src W s.machine role { s.machine with mem := mem } role ∧
      ∀ r path, ¬ W (.table r path) := by
  rcases hstore with ⟨t, rest, hqueue, huser, hbytes⟩
  have ht := hok.tasks (holdings t) (mem_map_of_mem (by rw [hqueue]; exact mem_cons_self))
  refine ⟨fun ρ => ρ = .data (holdings t).root ∨ ρ = .grown (holdings t).stackPhys,
    evolves_write fun x hx => ?_, fun r path hc => ?_⟩
  · rcases hbytes x hx with ⟨va, e, htranslate, hwrite, hin⟩
    have hrole := ownPage_role ht (own_of_write ht huser rfl htranslate hwrite)
    exact ⟨_, hrole.2, hin, hrole.1⟩
  · rcases hc with hc | hc
    · exact Role.noConfusion hc
    · exact Role.noConfusion hc

theorem store_goes (hok : SchedOk src img s) (hstore : UserStore s mem) :
    Goes src img s { s with machine := { s.machine with mem := mem } } := by
  rcases hok with ⟨role, hok⟩
  rcases store_evolves hok hstore with ⟨W, hev, hW⟩
  exact goes_carries (carries_evolves hok hev fun h _ _ path => hW h.root path)

theorem kernelWork_undisturbed {m : Machine σ}
    (hok : SysOk src img s.machine role ((s.queue ++ s.deadList).map holdings))
    (hwork : KernelWork src img s m) : ∀ h ∈ (s.queue ++ s.deadList).map holdings,
      Undisturbed src s.machine role m role h := by
  intro h hmem
  rcases mem_map.mp hmem with ⟨t, ht, rfl⟩
  refine ⟨fun a ha => ⟨rfl, ?_⟩, fun huser a x ha hx => hwork.tables_eq t ht huser a x ha hx,
    fun _ => hwork.tramp_eq, Nat.le_of_eq hwork.refused_eq.symm⟩
  exact hwork.task_held t ht a ha (taskPage_role (hok.tasks (holdings t) hmem) ha).2

theorem kernelWork_goes {m : Machine σ} (hok : SchedOk src img s)
    (hwork : KernelWork src img s m) : Goes src img s { s with machine := m } := by
  rcases hok with ⟨role, hok⟩
  have hun := kernelWork_undisturbed hok hwork
  refine @goes_carries σ src img s m role ⟨⟨fun h hmem => taskOk_frame (hok.tasks h hmem)
    (hun h hmem), hok.apart, ⟨fun a ha => ?_, fun hne => ?_⟩⟩,
    ⟨Nat.le_of_eq hwork.refused_eq.symm, fun h hmem huser v => ?_⟩⟩
  · rcases hok.shared.text_shared a ha with ⟨hrole, hheld⟩
    exact ⟨hrole, hwork.shared_held a (.inl ha) hheld⟩
  · rw [hwork.tramp_eq] at hne ⊢
    rcases hok.shared.tramp_shared hne with ⟨hrole, hheld⟩
    exact ⟨hrole, hwork.shared_held _ (.inr ⟨hne, rfl⟩) hheld⟩
  · exact (space_undisturbed (hok.tasks h hmem) (hun h hmem) huser).2.2 (pathOf v) (l3Index v)
      (Nat.le_refl 3)

end

section

variable {src} {img} {s s' : Sched σ}

/-- What a step can do: it leaves the address spaces of tasks alone, or grows the
    stack of the current task, or replaces its image. -/
theorem schedStep_cases (hok : SchedOk src img s) (hstep : SchedStep src img s s') :
    Goes src img s s' ∨
      (∃ far, schedTryGrowStack src s far = (s', true) ∧ SchedOk src img s' ∧
        ∃ t rest p, StackGrown s far s' t rest p) ∨
      ∃ file args entry, loadImage src s file args = (s', some entry) ∧ SchedOk src img s' ∧
        ∃ t new rest, Replaced s s' t new rest := by
  cases hstep with
  | createTask kmallocOk fdsOk entry =>
    exact .inl (construction_goes hok (createTask_construction s kmallocOk fdsOk entry))
  | createKernelTask kmallocOk entry => exact .inl (createKernelTask_goes hok kmallocOk entry)
  | fork kmallocOk fdsOk parent rest frame hcurrent =>
    have hparent : parent ∈ s.queue := hcurrent ▸ mem_cons_self
    exact .inl (fork_spec hok kmallocOk fdsOk hparent frame).1
  | exec file args =>
    rcases loadImage_spec hok file args with ⟨_, hgoes⟩ | ⟨hsome, hok', hnew⟩
    · exact .inl hgoes
    · rcases Option.ne_none_iff_exists'.mp hsome with ⟨entry, hentry⟩
      exact .inr (.inr ⟨file, args, entry, Prod.ext rfl hentry, hok', hnew⟩)
  | growStack far =>
    rcases tryGrowStack_spec hok far with ⟨_, hgoes⟩ | ⟨htrue, hok', hgrown⟩
    · exact .inl hgoes
    · exact .inr (.inl ⟨far, Prod.ext rfl htrue, hok', hgrown⟩)
  | schedule sp => exact .inl (switched_goes hok (schedule_switched s sp))
  | block sp => exact .inl (switched_goes hok (leave_switched s .blocked sp))
  | sleep now ms sp => exact .inl (sleepMs_goes hok now ms sp)
  | wake now => exact .inl (wakeSleepers_goes hok now)
  | makeReady i =>
    refine .inl (modify_goes hok i _ fun t => ?_)
    split <;> rfl
  | setPriority i prio => exact .inl (modify_goes hok i _ fun _ => rfl)
  | exit sp _ => exact .inl (switched_goes hok (leave_switched s .dead sp))
  | kill pid sp => exact .inl (kill_goes hok pid sp)
  | reap => exact .inl (reap_goes hok)
  | store mem hstore => exact .inl (store_goes hok hstore)
  | kernel m hwork => exact .inl (kernelWork_goes hok hwork)

theorem schedStep_ok (hok : SchedOk src img s) (hstep : SchedStep src img s s') :
    SchedOk src img s' := by
  rcases schedStep_cases hok hstep with hgoes | ⟨_, _, hok', _⟩ | ⟨_, _, _, _, hok', _⟩
  · exact hgoes.ok
  · exact hok'
  · exact hok'

/-- At boot there is the idle task, which holds nothing. -/
theorem boot_ok {m : Machine σ} (hboot : Boot src img m) : SchedOk src img (schedInit m) := by
  refine ⟨fun _ => .shared, fun h hmem => ?_, pairwise_singleton _ _,
    ⟨fun a ha => ⟨rfl, hboot.text_held a ha⟩, fun hne => absurd hboot.no_tramp hne⟩⟩
  have hidle : h = holdings { isIdle := true, pid := 0, state := .ready } := mem_singleton.mp hmem
  rw [hidle]
  refine ⟨fun a ha => absurd rfl ha.1, fun a ha => ?_, nofun,
    fun _ => ⟨rfl, rfl, rfl, rfl⟩, fun hc => absurd rfl hc, fun _ hc => absurd rfl hc⟩
  rcases ha with ⟨hc, _⟩ | ⟨_, hc, _⟩
  · exact absurd rfl hc
  · exact absurd hc not_mem_nil

/-- The invariant holds along every run. -/
theorem run_ok {m : Machine σ} (hboot : Boot src img m)
    (hrun : Relation.ReflTransGen (SchedStep src img) (schedInit m) s) : SchedOk src img s := by
  induction hrun with
  | refl => exact boot_ok hboot
  | tail _ hstep ih => exact schedStep_ok ih hstep

end

end CortexForge.Sched
