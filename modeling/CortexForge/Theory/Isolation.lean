import CortexForge.Theory.Heap
import CortexForge.Theory.Runs

/-!
# Isolation of User Address Spaces

What user programs can reach in any state of the system. The kernel cannot be
made to execute a user page, no translation outlives its address space number,
and no page is writable and executable at once. A page that a program can write
to was allocated for its task, is in use, is no table of any address space, and
is not in the address space of another task.

The page allocator is any `PageSource`, so all that is used of it is that it
never hands out a page that is still in use. The theorem covers every task that
has not been reaped, dead ones included.

## Main definitions

* `MapsPage`, `WritesPage`: A page in an address space.
* `Isolated`: The guarantees.

## Theorems

* `user_isolation`: The guarantees hold in every reachable state.
-/

namespace CortexForge.Sched

open Mmu Elf Holdings Relation

variable {σ : Type}

/-- The task's address space contains the page at `a`. -/
def MapsPage (m : Machine σ) (t : Task) (a : Nat) : Prop :=
  t.ttbr0 ≠ 0 ∧ ∃ path i e, path.length = 3 ∧ leafAt m.mem (ttbrBaddr t.ttbr0) path i = some e ∧
    pteNextTable e = a

/-- The task's program may write to the page at `a`. -/
def WritesPage (m : Machine σ) (t : Task) (a : Nat) : Prop :=
  t.ttbr0 ≠ 0 ∧ ∃ path i e, path.length = 3 ∧ leafAt m.mem (ttbrBaddr t.ttbr0) path i = some e ∧
    el0Write e = true ∧ pteNextTable e = a

/-- The address spaces of the tasks are isolated. -/
structure Isolated (src : Pages σ) (s : Sched σ) : Prop where
  leaves : ∀ t ∈ s.queue ++ s.deadList, t.ttbr0 ≠ 0 → ∀ path i e, path.length = 3 →
    leafAt s.machine.mem (ttbrBaddr t.ttbr0) path i = some e →
    ptePrivNoExec e = true ∧ pteNotGlobal e = true ∧ ¬ (el0Write e = true ∧ el0Exec e = true)
  /-- There are no leaves above the last level. -/
  tables : ∀ t ∈ s.queue ++ s.deadList, t.ttbr0 ≠ 0 → ∀ path p i, path.length < 3 →
    follow s.machine.mem (ttbrBaddr t.ttbr0) path = some p → i < 512 →
    pteValid (getEntry s.machine.mem p i) = true → pteIsTable (getEntry s.machine.mem p i) = true
  own : ∀ t ∈ s.queue ++ s.deadList, ∀ a, WritesPage s.machine t a →
    (holdings t).OwnPage a ∧ src.Held s.machine.pmm a ∧
    ∀ u ∈ s.queue ++ s.deadList, u.ttbr0 ≠ 0 →
      ¬ TablePage s.machine.mem (ttbrBaddr u.ttbr0) a
  apart : (s.queue ++ s.deadList).Pairwise fun t u => ∀ a,
    ¬ (WritesPage s.machine t a ∧ MapsPage s.machine u a) ∧
    ¬ (MapsPage s.machine t a ∧ WritesPage s.machine u a)

section

variable {src : Pages σ} {img : KernelImage} {m : Machine σ}
  {role : Roles} {t u : Task}

theorem writesPage_own (ht : TaskOk src img m role (holdings t)) {a : Nat}
    (ha : WritesPage m t a) : (holdings t).OwnPage a := by
  rcases ha with ⟨huser, path, i, e, hlen, hleaf, hwrite, rfl⟩
  exact own_of_write ht huser hlen hleaf hwrite

/-- A page that one task may write to is not in the address space of another. -/
theorem writesPage_apart (hshared : SharedOk src (TextPage img) m role)
    (ht : TaskOk src img m role (holdings t)) (hu : TaskOk src img m role (holdings u))
    (hapart : (holdings t).Apart (holdings u)) (a : Nat) (ha : WritesPage m t a) :
    ¬ MapsPage m u a := by
  rintro ⟨huser, path, i, e, hlen, hleaf, rfl⟩
  have hown : TaskPage m (holdings t) (pteNextTable e) :=
    .inr (.inl (writesPage_own ht ha))
  rcases ((hu.user huser).2.2 path i e hlen hleaf).target with hother | ⟨hother, _⟩
  · exact taskPage_apart ht hu hapart hown (.inr (.inl hother))
  · exact taskRole_not_shared
      ((sharedPage_role hshared hother).1 ▸ (taskPage_role ht hown).1)

end

/-- In every state the system can reach, user address spaces are isolated. -/
theorem user_isolation (src : Pages σ) (img : KernelImage)
    (m : Machine σ) (hboot : Boot src img m) (s : Sched σ)
    (hrun : ReflTransGen (SchedStep src img) (schedInit m) s) : Isolated src s := by
  rcases run_ok hboot hrun with ⟨role, hok⟩
  have htask : ∀ t ∈ s.queue ++ s.deadList, TaskOk src img s.machine role (holdings t) :=
    fun t ht => hok.tasks _ (List.mem_map_of_mem ht)
  refine ⟨fun t ht huser path i e hlen hleaf => ?_, fun t ht huser => ?_, fun t ht a ha => ?_, ?_⟩
  · have hok := ((htask t ht).user huser).2.2 path i e hlen hleaf
    exact ⟨hok.priv_no_exec, hok.not_global, hok.not_both⟩
  · exact ((htask t ht).user huser).2.1.tables
  · have hown := writesPage_own (htask t ht) ha
    rcases ownPage_role (htask t ht) hown with ⟨hrole, hheld⟩
    refine ⟨hown, hheld, fun u hu huser htable => ?_⟩
    -- A table has another role than the pages of a program.
    rcases htable with ⟨path, hlen, hpath⟩
    have htable := (((htask u hu).user huser).2.1.place path a hlen hpath).1
    rw [htable] at hrole
    rcases hrole with hc | hc
    · exact Role.noConfusion hc
    · exact Role.noConfusion hc
  · refine (List.pairwise_map.mp hok.apart).imp_of_mem fun {t u} ht hu hapart a => ⟨?_, ?_⟩
    · exact fun hc => writesPage_apart hok.shared (htask t ht) (htask u hu) hapart a hc.1 hc.2
    · exact fun hc =>
        writesPage_apart hok.shared (htask u hu) (htask t ht)
          (Holdings.apart_symm hapart) a hc.2 hc.1

/-- A kernel whose user window is its first page. -/
def bootImage : KernelImage :=
  { textStart := kernelVaOffset + 0x40000000
    userTextEnd := kernelVaOffset + 0x40001000
    taskTrampoline := kernelVaOffset + 0x40000100
    kernelTaskTrampoline := kernelVaOffset + 0x40000200
    forkReturn := kernelVaOffset + 0x40000300
    start_mapped := by decide
    start_le_end := by decide
    end_mapped := by decide
    start_aligned := by decide
    end_aligned := by decide }

/-- Two MiB of cleared memory behind that kernel. -/
def bootMachine : Machine Pmm.Allocator :=
  { mem := fun _ => 0#8, pmm := Heap.bootPmm, sigtrampPhys := 0, refused := 0 }

theorem bootMachine_boot : Boot Pmm.pmmSource bootImage bootMachine := by
  refine ⟨fun a ha => ?_, rfl⟩
  have hone : a = 0x40000000 := inRun_one ha
  rw [hone]
  exact ⟨0, by decide, by rfl, by rfl⟩

/-- The system with one user task. -/
def oneTask : Sched Pmm.Allocator :=
  (schedCreateTask Pmm.pmmSource bootImage (schedInit bootMachine) true true
    bootImage.textStart).1

theorem oneTask_run :
    ReflTransGen (SchedStep Pmm.pmmSource bootImage) (schedInit bootMachine) oneTask :=
  ReflTransGen.single (SchedStep.createTask _ true true _)

/-- The system with two user tasks. -/
def twoTasks : Sched Pmm.Allocator :=
  (schedCreateTask Pmm.pmmSource bootImage oneTask true true bootImage.textStart).1

/-- Two user tasks, each with a stack it can write to. -/
theorem user_isolation_two :
    twoTasks.queue.map (fun t => ttbrBaddr t.ttbr0) = [0, 0x40006000, 0x40015000] ∧
      (translate twoTasks.machine.mem 0x40006000 0x7FF000).map el0Write = some true ∧
      (translate twoTasks.machine.mem 0x40015000 0x7FF000).map el0Write = some true ∧
      Isolated Pmm.pmmSource twoTasks := by
  refine ⟨by decide +kernel, by decide +kernel, by decide +kernel, ?_⟩
  exact user_isolation Pmm.pmmSource bootImage bootMachine bootMachine_boot twoTasks
    (oneTask_run.tail (SchedStep.createTask oneTask true true bootImage.textStart))

end CortexForge.Sched
