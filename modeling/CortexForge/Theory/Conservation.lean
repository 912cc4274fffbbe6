import CortexForge.Theory.Calls
import CortexForge.Theory.Isolation
import CortexForge.Theory.Ledger

/-!
# Conservation of Task Pages

Over any run, the pages in use on behalf of tasks are exactly those the records of
tasks account for, each of them once, and the trampoline page. The run starts at
boot, where everything in use belongs to the rest of the kernel. It consists of the
calls of the scheduler, whether they succeed or not, of stores by programs, and of
other work of the kernel, which takes and gives back pages of its own.

Which pages are others' is nothing the machine knows. It is carried along with the
state: the calls leave it as it is, so what they take more than they give back must
have become a page of a task.

## Main definitions

* `taskPages`: The pages the records of tasks account for.
* `OtherWork`: What the rest of the kernel may do.
* `LedgerStep`: One step of the system, with the pages that are others'.

## Theorems

* `balanced_pages`: What a ledger in order says about pages in use.
* `balanced_reap`: What reaping does.
* `task_pages_conserved`: Conservation along every run.
-/

namespace CortexForge.Sched

open Mmu Holdings Traced Relation List
open Pmm (pmmSource Allocator)

variable {σ : Type} (src : Pages σ) (img : KernelImage)
  (Sound : σ → Prop) (Fixed : Nat → Prop)

/-- The pages of some tasks. -/
def pagesOf (mem : Memory) (tasks : List Task) : List Nat :=
  tasks.flatMap fun t => (holdings t).pages mem

/-- The pages of all tasks, and the trampoline page if there is one. -/
def taskPages (s : Sched σ) : List Nat :=
  (if s.machine.sigtrampPhys ≠ 0 then [s.machine.sigtrampPhys] else []) ++
    pagesOf s.machine.mem (s.queue ++ s.deadList)

/-- Work of the rest of the kernel. It had the pages in `others` and has those in
    `others'` now, where the new ones were nobody's. -/
structure OtherWork (s : Sched σ) (others : Nat → Prop) (m : Machine σ) (others' : Nat → Prop) :
    Prop where
  work : KernelWork src img s m
  sound : Sound m.pmm
  fixed : ∀ a, Fixed a → others' a
  held : ∀ a, src.Held m.pmm a ↔ others' a ∨ (src.Held s.machine.pmm a ∧ ¬ others a)
  fresh : ∀ a, others' a → others a ∨ ¬ src.Held s.machine.pmm a

/-- A call of the scheduler that creates no task outside the window. -/
def SchedCall.ForTasks : SchedCall σ → Prop
  | .createTask _ _ entry => ¬ EntryOutside img entry
  | .kernel _ => False
  | _ => True

/-- One step of the system, together with the pages that are not the tasks'. -/
inductive LedgerStep : Sched σ × (Nat → Prop) → Sched σ × (Nat → Prop) → Prop
  | call (s : Sched σ) (others : Nat → Prop) (c : SchedCall σ) (hallowed : c.Allowed src img s)
      (hfor : c.ForTasks img) : LedgerStep (s, others) (value (c.run src img s), others)
  | other (s : Sched σ) (others others' : Nat → Prop) (m : Machine σ)
      (hwork : OtherWork src img Sound Fixed s others m others') :
      LedgerStep (s, others) ({ s with machine := m }, others')

section

variable {src} {img} {Sound} {Fixed} {others others' : Nat → Prop} {s : Sched σ} {m : Machine σ}
  (hex : src.Exact Sound Fixed) (h : Balanced src img Sound Fixed others s)
include h

/-- A call that only rearranges tasks. -/
theorem balanced_perm {queue deadList : List Task} {pid asid ttbr : Nat}
    (hperm : ((s.queue ++ s.deadList).map holdings).Perm ((queue ++ deadList).map holdings)) :
    Balanced src img Sound Fixed others ⟨s.machine, queue, deadList, pid, asid, ttbr⟩ :=
  ledger_perm h hperm

theorem balanced_map {queue : List Task} (hsame : queue.map holdings = s.queue.map holdings) :
    Balanced src img Sound Fixed others { s with queue := queue } := by
  refine balanced_perm h ?_
  simp [hsame]

/-- A change to one task of the queue, in what it does not hold. -/
theorem balanced_modify (i : Nat) (f : Task → Task) (hf : ∀ t, holdings (f t) = holdings t) :
    Balanced src img Sound Fixed others { s with queue := s.queue.modify i f } :=
  balanced_map h (map_modify i f hf)

include hex

/-- Dead tasks are reaped and the others rearranged. -/
theorem balanced_switched {s' : Sched σ} (hswitch : Switched src s s') :
    Balanced src img Sound Fixed others s' := by
  have hperm := dead_perm s
  have hreaped := reapTasks_ledger hex s.deadList s.machine (ledger_perm h hperm)
  unfold Balanced
  rw [hswitch.machine_eq]
  exact ledger_perm hreaped hswitch.perm

/-- A task that is killed goes to the dead list, by a switch if it is the current
    one. -/
theorem kill_balanced (pid sp : Nat) :
    Balanced src img Sound Fixed others (schedKillTask src s pid sp).1 := by
  rcases kill_cases s pid sp with heq | hswitch | ⟨queue, deadList, heq, hperm⟩
  · rw [heq]
    exact h
  · exact balanced_switched hex h hswitch
  · rw [heq]
    exact balanced_perm h hperm

theorem store_balanced {mem : Memory} (hstore : UserStore s mem) :
    Balanced src img Sound Fixed others { s with machine := { s.machine with mem := mem } } := by
  rcases ledger_roles h with ⟨role, hok, hothers⟩
  rcases store_evolves hok hstore with ⟨W, hev, hW⟩
  have hsys := (carries_evolves hok hev fun h _ _ path => hW h.root path).sys
  exact @ledger_evolves σ src img Sound Fixed others s.machine { s.machine with mem := mem }
    role role
    _ [] (fun _ => False) W hex h hok hothers (adds_same h.sound rfl rfl) hev
    (fun k _ _ path => hW k.root path) [] hsys
    nofun nofun
    nofun

omit hex in
/-- The rest of the kernel trades pages of its own. -/
theorem otherWork_balanced (hwork : OtherWork src img Sound Fixed s others m others') :
    Balanced src img Sound Fixed others' { s with machine := m } := by
  rcases h.sys with ⟨role, hok⟩
  have hun := kernelWork_undisturbed hok hwork.work
  have htramp : ∀ a, TrampPage m a ↔ TrampPage s.machine a := fun a => by
    unfold TrampPage
    rw [hwork.work.tramp_eq]
  refine ⟨(kernelWork_goes h.sys hwork.work).ok, hwork.sound, hwork.fixed,
    fun a ha => (hwork.held a).mpr (.inl ha), fun a ha k hk hpage => ?_, fun a ha hc => ?_,
    fun a ha => ?_, h.once⟩
  · -- Tables are where they were, so the page was the task's before.
    have hbefore : TaskPage s.machine k a := by
      rcases hpage with hpage | hpage | ⟨huser, hpage⟩
      · exact .inl hpage
      · exact .inr (.inl hpage)
      · exact .inr (.inr ⟨huser,
          ((space_undisturbed (hok.tasks k hk) (hun k hk) huser).2.1 a).mp hpage⟩)
    rcases hwork.fresh a ha with hold | hnew
    · exact h.apart a hold k hk hbefore
    · exact hnew (taskPage_role (hok.tasks k hk) hbefore).2
  · have hold := (htramp a).mp ha
    rcases hwork.fresh a hc with hc | hnew
    · exact h.tramp a hold hc
    · exact hnew (hold.2 ▸ (hok.shared.tramp_shared hold.1).2)
  · rcases (hwork.held a).mp ha with hnew | ⟨hheld, hnot⟩
    · exact .inl hnew
    · rcases h.covers a hheld with hc | hpage | ⟨k, hk, hpage⟩
      · exact absurd hc hnot
      · exact .inr (.inl ((htramp a).mpr hpage))
      · refine .inr (.inr ⟨k, hk, pages_tables (taskOk_frame (hok.tasks k hk) (hun k hk))
          (fun huser b => ((space_undisturbed (hok.tasks k hk) (hun k hk) huser).2.1 b).mpr) hpage⟩)

/-- Every call keeps the ledger in order. -/
theorem schedCall_balanced {c : SchedCall σ} (hallowed : c.Allowed src img s)
    (hfor : c.ForTasks img) : Balanced src img Sound Fixed others (value (c.run src img s)) := by
  cases c with
  | createTask kmallocOk fdsOk entry =>
    rw [SchedCall.run, schedCreateTaskTraced_value]
    exact @construction_ledger σ src img Sound Fixed hex others s
      (createPlan img kmallocOk fdsOk entry) _ hfor h
      (createTask_construction s kmallocOk fdsOk entry)
  | createKernelTask kmallocOk entry =>
    exact kernelConstruction_ledger hex h (createKernelTask_construction s kmallocOk entry)
  | fork kmallocOk fdsOk frame =>
    rw [SchedCall.run]
    rcases hqueue : s.queue with _ | ⟨parent, rest⟩
    · exact h
    · simp only [schedForkTraced_value]
      exact construction_ledger hex not_false h (fork_construction s kmallocOk fdsOk parent frame)
  | exec file args =>
    rw [SchedCall.run, loadImageTraced_value]
    exact replacement_ledger hex h (loadImage_replacement s file args)
  | growStack far => exact growth_ledger hex h (tryGrowStack_growth s far)
  | schedule sp => exact balanced_switched hex h (schedule_switched s sp)
  | block sp => exact balanced_switched hex h (leave_switched s .blocked sp)
  | sleep now ms sp =>
    rw [SchedCall.run, sleepMsTraced_value]
    rcases hqueue : s.queue with _ | ⟨t, rest⟩
    · rw [sleepMs, hqueue]
      exact h
    · exact balanced_switched hex h (sleepMs_switched hqueue now ms sp)
  | wake now =>
    refine balanced_map h ?_
    rw [List.map_map]
    refine List.map_congr_left fun t _ => ?_
    simp only [Function.comp_apply]
    split <;> rfl
  | makeReady i =>
    refine balanced_modify h i _ fun t => ?_
    split <;> rfl
  | setPriority i prio => exact balanced_modify h i _ fun _ => rfl
  | exit sp => exact balanced_switched hex h (leave_switched s .dead sp)
  | kill pid sp =>
    rw [SchedCall.run, schedKillTaskTraced_value]
    exact kill_balanced hex h pid sp
  | reap =>
    rw [SchedCall.run, schedReapTraced_value]
    exact balanced_switched hex h ⟨rfl, by rw [schedReap, append_nil], rfl, .inl rfl⟩
  | store mem => exact store_balanced hex h hallowed
  | kernel m => exact absurd hfor not_false

omit h

/-- At boot everything in use belongs to the rest of the kernel. -/
theorem boot_balanced (hsound : Sound m.pmm) (hboot : Boot src img m) :
    Balanced src img Sound Fixed (src.Held m.pmm) (schedInit m) := by
  refine ⟨boot_ok hboot, hsound, fun a ha => hex.fixed_held _ a hsound ha, fun a ha => ha,
    fun a ha k hk hpage => ?_, fun a ha => absurd hboot.no_tramp ha.1, fun a ha => .inl ha,
    fun k hk => ?_⟩
  · -- The idle task holds nothing.
    rw [mem_singleton.mp hk] at hpage
    rcases hpage with hc | ((hc | ⟨_, hc, _⟩) | hc) | hc
    · exact hc.1 rfl
    · exact hc.1 rfl
    · exact absurd hc not_mem_nil
    · exact absurd hc not_mem_nil
    · exact hc.1 rfl
  · rw [mem_singleton.mp hk]
    exact ⟨nodup_nil, nodup_nil⟩

/-- The ledger is in order in every state of a run. -/
theorem run_balanced (hsound : Sound m.pmm) (hboot : Boot src img m) {x : Sched σ × (Nat → Prop)}
    (hrun : ReflTransGen (LedgerStep src img Sound Fixed)
      (schedInit m, src.Held m.pmm) x) : Balanced src img Sound Fixed x.2 x.1 := by
  induction hrun with
  | refl => exact boot_balanced hex hsound hboot
  | tail _ hstep ih =>
    cases hstep with
    | call s others c hallowed hfor => exact schedCall_balanced hex ih hallowed hfor
    | other s others others' m hwork => exact otherWork_balanced ih hwork

end

section

variable {src} {img} {Sound} {Fixed} {others : Nat → Prop} {s : Sched σ} {hs : List Holdings}

theorem mem_pagesOf {mem : Memory} {tasks : List Task} {a : Nat} :
    a ∈ pagesOf mem tasks ↔ ∃ h ∈ tasks.map holdings, a ∈ h.pages mem := by
  rw [pagesOf, mem_flatMap]
  exact ⟨fun ⟨t, ht, ha⟩ => ⟨_, mem_map_of_mem ht, ha⟩, fun ⟨h, hh, ha⟩ =>
    let ⟨t, ht, heq⟩ := mem_map.mp hh
    ⟨t, ht, heq ▸ ha⟩⟩

theorem mem_taskPages {a : Nat} :
    a ∈ taskPages s ↔ TrampPage s.machine a ∨
      a ∈ pagesOf s.machine.mem (s.queue ++ s.deadList) := by
  unfold taskPages
  rw [mem_append]
  refine or_congr_left ?_
  split
  next hne => exact ⟨fun ha => ⟨hne, mem_singleton.mp ha⟩, fun ha =>
    mem_singleton.mpr ha.2⟩
  next hzero => exact ⟨nofun, fun ha => absurd ha.1 hzero⟩

/-- Tasks share no page, and none of them has a page twice. -/
theorem pagesOf_nodup {m : Machine σ} {tasks : List Task}
    (h : Ledger src img Sound Fixed others m (tasks.map holdings)) :
    (pagesOf m.mem tasks).Nodup := by
  rcases h.sys with ⟨role, hok⟩
  refine nodup_flatMap.mpr ⟨fun t ht => ?_, ?_⟩
  · have hmem := mem_map_of_mem (f := holdings) ht
    exact pages_nodup (hok.tasks _ hmem) (h.once _ hmem).1 (h.once _ hmem).2
  · refine (pairwise_map.mp hok.apart).imp_of_mem fun ht hu hapart a ha hb => ?_
    exact taskPage_apart (hok.tasks _ (mem_map_of_mem ht))
      (hok.tasks _ (mem_map_of_mem hu)) hapart (taskPage_of_mem ha) (taskPage_of_mem hb)

/-- The pages in use that are not others' are those of tasks, each of them once. -/
theorem balanced_pages (h : Balanced src img Sound Fixed others s) :
    (taskPages s).Nodup ∧
      ∀ a, src.Held s.machine.pmm a ∧ ¬ others a ↔ a ∈ taskPages s := by
  rcases h.sys with ⟨role, hok⟩
  refine ⟨List.Nodup.append ?_ (pagesOf_nodup h) fun a ha hb => ?_, fun a => ?_⟩
  · split
    · exact nodup_singleton _
    · exact nodup_nil
  · -- The trampoline is a shared page, so it is no task's.
    have htramp : TrampPage s.machine a := by
      split at ha
      next hne => exact ⟨hne, mem_singleton.mp ha⟩
      next => exact absurd ha not_mem_nil
    rcases mem_pagesOf.mp hb with ⟨k, hk, hpage⟩
    have hrole := (taskPage_role (hok.tasks k hk) (taskPage_of_mem hpage)).1
    rw [htramp.2, (hok.shared.tramp_shared htramp.1).1] at hrole
    exact taskRole_not_shared hrole
  · rw [mem_taskPages, mem_pagesOf]
    constructor
    · rintro ⟨hheld, hnot⟩
      exact (h.covers a hheld).resolve_left hnot
    · rintro (htramp | ⟨k, hk, hpage⟩)
      · exact ⟨htramp.2 ▸ (hok.shared.tramp_shared htramp.1).2, h.tramp a htramp⟩
      · have htask := taskPage_of_mem hpage
        exact ⟨(taskPage_role (hok.tasks k hk) htask).2, fun hc => h.apart a hc k hk htask⟩

variable (hex : src.Exact Sound Fixed)
include hex

/-- What is in use after pages of tasks are given back. -/
theorem giveBack_exactly {m : Machine σ}
    (h : Ledger src img Sound Fixed others m hs) {ps : List Nat}
    (hps : ∀ a ∈ ps, ∃ k ∈ hs, a ∈ k.pages m.mem) (a : Nat) :
    src.Held (giveBack src m ps).pmm a ↔ src.Held m.pmm a ∧ a ∉ ps := by
  rcases h.sys with ⟨role, hok⟩
  have hbelow : ∀ p ∈ ps, p + pageSize ≤ physLimit := fun p hp =>
    let ⟨k, hk, hpage⟩ := hps p hp
    pages_below (hok.tasks k hk) p hpage
  constructor
  · intro ha
    rcases (giveBack_only hex h.sound hbelow).2 a ha with ⟨hheld, hfixed⟩
    refine ⟨hheld, fun hc => ?_⟩
    -- A page that cannot be given back is others', and so it is on no task's list.
    rcases hps a hc with ⟨k, hk, hpage⟩
    exact h.apart a (h.fixed a (hfixed hc)) k hk (taskPage_of_mem hpage)
  · rintro ⟨hheld, hnot⟩
    exact (giveBack_frees hbelow).kept a hheld hnot

/-- Reaping dead tasks one after the other gives back the pages of all of them. -/
theorem reapTasks_eq (dead : List Task) :
    ∀ m : Machine σ, Ledger src img Sound Fixed others m (dead.map holdings ++ hs) →
    dead.foldl (reapTask src) m = giveBack src m (pagesOf m.mem dead) := by
  induction dead with
  | nil => exact fun m _ => rfl
  | cons t dead ih =>
    intro m h
    rcases h.sys with ⟨role, hok⟩
    have hfirst := reapTask_eq hex t (hok.tasks _ mem_cons_self)
    have hmem : (reapTask src m t).mem = m.mem := by
      rw [hfirst]
      rfl
    rw [foldl_cons, ih _ (reapTask_ledger hex h), hfirst]
    exact (giveBack_append m _ _).symm

/-- Reaping gives back the pages of dead tasks, one by one, and nothing else. -/
theorem balanced_reap (h : Balanced src img Sound Fixed others s) :
    (∀ t ∈ s.deadList,
      reapTask src s.machine t = giveBack src s.machine ((holdings t).pages s.machine.mem) ∧
      ∀ a, src.Held (reapTask src s.machine t).pmm a ↔
        src.Held s.machine.pmm a ∧ a ∉ (holdings t).pages s.machine.mem) ∧
    (schedReap src s).machine = giveBack src s.machine (pagesOf s.machine.mem s.deadList) ∧
    ∀ a, src.Held (schedReap src s).machine.pmm a ↔
      src.Held s.machine.pmm a ∧ a ∉ pagesOf s.machine.mem s.deadList := by
  have hperm := dead_perm s
  have hall : (schedReap src s).machine =
    giveBack src s.machine (pagesOf s.machine.mem s.deadList) :=
    reapTasks_eq hex s.deadList s.machine (ledger_perm h hperm)
  rcases h.sys with ⟨role, hok⟩
  refine ⟨fun t ht => ?_, hall, fun a => ?_⟩
  · have hmem : holdings t ∈ (s.queue ++ s.deadList).map holdings :=
      mem_map_of_mem (mem_append_right _ ht)
    have heq := reapTask_eq hex t (hok.tasks _ hmem)
    refine ⟨heq, fun a => ?_⟩
    rw [heq]
    exact giveBack_exactly hex h (fun a ha => ⟨_, hmem, ha⟩) a
  · rw [hall]
    refine giveBack_exactly hex h (fun a ha => ?_) a
    rcases mem_pagesOf.mp ha with ⟨k, hk, hpage⟩
    exact ⟨k, hperm.mem_iff.mpr (mem_append_left _ hk), hpage⟩

end

/-- In every state of a run from boot, the pages in use on behalf of tasks are those
    of the tasks' records and the trampoline page, each of them once. Reaping a task
    gives back its pages, each of them once, and no other page. -/
theorem task_pages_conserved (img : KernelImage) (m : Machine Allocator)
    (hboot : Boot pmmSource img m) (hstart : m.pmm.1.memRegionStart ≠ 0)
    (s : Sched Allocator) (others : Nat → Prop) (hrun : ReflTransGen
      (LedgerStep pmmSource img (Pmm.SameMemory m.pmm) (Pmm.ReservedPage m.pmm))
      (schedInit m, pmmSource.Held m.pmm) (s, others)) :
    (taskPages s).Nodup ∧
    (∀ a, pmmSource.Held s.machine.pmm a ∧ ¬ others a ↔ a ∈ taskPages s) ∧
    (∀ t ∈ s.deadList,
      reapTask pmmSource s.machine t
        = giveBack pmmSource s.machine ((holdings t).pages s.machine.mem) ∧
      ∀ a, pmmSource.Held (reapTask pmmSource s.machine t).pmm a ↔
        pmmSource.Held s.machine.pmm a ∧ a ∉ (holdings t).pages s.machine.mem) ∧
    (schedReap pmmSource s).machine
      = giveBack pmmSource s.machine (pagesOf s.machine.mem s.deadList) ∧
    ∀ a, pmmSource.Held (schedReap pmmSource s).machine.pmm a ↔
      pmmSource.Held s.machine.pmm a ∧ a ∉ pagesOf s.machine.mem s.deadList := by
  have hex := Pmm.pmmSource_exact m.pmm hstart
  have h := run_balanced hex (Pmm.sameRegion_refl m.pmm.1) hboot hrun
  rcases balanced_pages h with ⟨hnodup, hpages⟩
  exact ⟨hnodup, hpages, balanced_reap hex h⟩

/-- The second of two tasks has been killed and waits to be reaped. -/
def oneKilled : Sched Allocator := (schedKillTask pmmSource twoTasks 2 0).1

theorem oneKilled_run :
    ReflTransGen (LedgerStep pmmSource bootImage (Pmm.SameMemory bootMachine.pmm)
      (Pmm.ReservedPage bootMachine.pmm))
        (schedInit bootMachine, pmmSource.Held bootMachine.pmm)
      (oneKilled, pmmSource.Held bootMachine.pmm) := by
  have hinside : ¬ EntryOutside bootImage bootImage.textStart := by decide
  have hcreate : ∀ s others, LedgerStep pmmSource bootImage (Pmm.SameMemory bootMachine.pmm)
      (Pmm.ReservedPage bootMachine.pmm) (s, others)
      ((schedCreateTask pmmSource bootImage s true true bootImage.textStart).1, others) := by
    intro s others
    have hstep := @LedgerStep.call _ pmmSource bootImage (Pmm.SameMemory bootMachine.pmm)
      (Pmm.ReservedPage bootMachine.pmm) s others
        (.createTask true true bootImage.textStart) trivial
      hinside
    rw [SchedCall.run, schedCreateTaskTraced_value] at hstep
    exact hstep
  have hkill := @LedgerStep.call _ pmmSource bootImage (Pmm.SameMemory bootMachine.pmm)
    (Pmm.ReservedPage bootMachine.pmm) twoTasks (pmmSource.Held bootMachine.pmm) (.kill 2 0)
    trivial trivial
  rw [SchedCall.run, schedKillTaskTraced_value] at hkill
  exact ((ReflTransGen.single (hcreate _ _)).tail (hcreate oneTask _)).tail hkill

/-- Of two tasks one is dead. The next reap gives back its pages. -/
theorem task_pages_conserved_killed :
    oneKilled.queue.map (·.stackPhys) = [0, 0x40002000] ∧
    oneKilled.deadList.map (·.stackPhys) = [0x40011000] ∧
      (taskPages oneKilled).Nodup ∧
      ∀ a, pmmSource.Held (schedReap pmmSource oneKilled).machine.pmm a ↔
        pmmSource.Held oneKilled.machine.pmm a ∧
          a ∉ pagesOf oneKilled.machine.mem oneKilled.deadList := by
  have hstart : bootMachine.pmm.1.memRegionStart ≠ 0 := by decide
  rcases task_pages_conserved bootImage bootMachine bootMachine_boot hstart oneKilled _
    oneKilled_run
    with ⟨hnodup, _, _, _, hreap⟩
  exact ⟨by decide +kernel, by decide +kernel, hnodup, hreap⟩

end CortexForge.Sched
