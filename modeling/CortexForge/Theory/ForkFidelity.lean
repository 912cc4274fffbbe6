import CortexForge.Theory.Isolation

/-!
# What a Forked Program Sees

A forked program is meant to see what its parent saw: at every user address the
same mapping, with the same permissions and the same byte. It does if its parent
still has the address space it was created with and no page was refused to the
tables. Then the child's writable pages are its own, and were in no use before.

The child's address space is the one every task starts with, whatever its parent
had loaded or grown. So a page of stack that the parent was given on demand is
missing in the child.

## Main definitions

* `UserView`, `view`: What a program finds at an address.

## Theorems

* `fork_child_plain`: The address space of every child.
* `fork_faithful`: The child sees what its parent saw.
* `fork_grown_missing`: A page of stack the child does not see.
-/

namespace CortexForge.Sched

open Mmu Elf Holdings Relation List

variable {σ : Type}

/-- What a program may do with a byte, and the byte. -/
structure UserView where
  canRead : Bool
  canWrite : Bool
  canExec : Bool
  byte : Byte
deriving DecidableEq

/-- What a program with the tables at `r` finds at the address `v`. -/
def view (mem : Memory) (r v : Nat) : Option UserView :=
  (translate mem r v).map fun e =>
    ⟨el0Read e, el0Write e, el0Exec e, mem (pteNextTable e + v % pageSize)⟩

section

variable {src : Pages σ} {img : KernelImage} {s s' : Sched σ}
  {m : Machine σ} {role : Roles} {h : Holdings} {parent child : Task}

theorem view_leafEntry {mem : Memory} {r v pa : Nat} {flags : BitVec 64}
    (htrans : translate mem r v = some (leafEntry pa flags)) (hflags : FlagsOk flags)
    (halign : pa % pageSize = 0) (hlt : pa < 2 ^ 48) :
    view mem r v = some ⟨el0Read flags, el0Write flags, el0Exec flags,
      mem (pa + v % pageSize)⟩ := by
  rcases leafEntry_perms pa flags with ⟨_, _, hwrite, hexec, _⟩
  unfold view
  rw [htrans, Option.map_some, leafEntry_read, hwrite, hexec,
    pteNextTable_leafEntry pa flags halign hlt hflags.no_address]

/-- Without segments and grown pages, a task owns its stack only. -/
theorem ownPage_plain (hregions : h.regions = []) (hgrown : h.grown = []) {a : Nat}
    (ha : h.OwnPage a) : h.ustackPhys ≠ 0 ∧ InRun h.ustackPhys userStackPages a := by
  rcases ha with (ha | ⟨reg, hmem, _⟩) | ha
  · exact ha
  · exact absurd (hregions ▸ hmem) not_mem_nil
  · exact absurd (hgrown ▸ ha) not_mem_nil

/-- A task with the address space it started with has a stack. -/
theorem plain_stack_ne (ht : TaskOk src img m role h) (hrefused : m.refused = 0)
    (huser : h.ttbr0 ≠ 0) (hregions : h.regions = []) (hgrown : h.grown = []) :
    h.ustackPhys ≠ 0 := by
  have hmap := (ht.plain hrefused huser hregions hgrown).2 ustackUserBase (by decide)
  unfold plainMap at hmap
  have hown := own_of_write ht huser rfl hmap
    ((leafEntry_perms _ stackFlags).2.2.1.trans (by decide))
  exact (ownPage_plain hregions hgrown hown).1

/-- The child of any parent starts with the text window, the trampoline and four
    pages of stack. -/
theorem fork_child_plain (hok : SchedOk src img s') (hcopied : Copied src img s parent s' child)
    (hrefused : s'.machine.refused = 0) :
    s'.machine.sigtrampPhys ≠ 0 ∧ ∀ v, v < 2 ^ 48 →
      translate s'.machine.mem (ttbrBaddr child.ttbr0) v
        = plainMap img s'.machine.sigtrampPhys child.ustackPhys v := by
  rcases hok with ⟨role, hok⟩
  have hmem : child ∈ s'.queue ++ s'.deadList := by
    rw [hcopied.queue_eq]
    exact mem_append_left _ (mem_append_right _ (mem_singleton_self child))
  exact (hok.tasks _ (mem_map_of_mem hmem)).plain hrefused hcopied.user hcopied.no_regions
    hcopied.no_grown

/-- Parent and child see the same at an address, if both have the address space
    tasks start with. -/
theorem view_copied (ht : TaskOk src img s.machine role (holdings parent))
    (hcopied : Copied src img s parent s' child) (huser : parent.ttbr0 ≠ 0)
    (hheld : ∀ a, InRun parent.ustackPhys userStackPages a → src.Held s.machine.pmm a)
    (hheld' : ∀ a, InRun child.ustackPhys userStackPages a → src.Held s'.machine.pmm a)
    (hstack : parent.ustackPhys ≠ 0) {tramp v : Nat}
    (hmap : translate s.machine.mem (ttbrBaddr parent.ttbr0) v
      = plainMap img tramp parent.ustackPhys v)
    (hmap' : translate s'.machine.mem (ttbrBaddr child.ttbr0) v
      = plainMap img tramp child.ustackPhys v) :
    view s'.machine.mem (ttbrBaddr child.ttbr0) v
      = view s.machine.mem (ttbrBaddr parent.ttbr0) v := by
  have hmod : v % pageSize < pageSize := Nat.mod_lt v (Nat.succ_pos 4095)
  by_cases hin : ustackUserBase / pageSize ≤ v / pageSize ∧
      v / pageSize < ustackUserBase / pageSize + userStackPages
  · -- A page of the stack, which was copied.
    unfold plainMap at hmap hmap'
    rw [if_pos hin] at hmap hmap'
    generalize hj : v / pageSize - ustackUserBase / pageSize = j at hmap hmap'
    have hlt : j < userStackPages := by omega
    rcases held_lt (hheld _ ⟨j, hlt, rfl⟩) with ⟨halign, hbound⟩
    rcases held_lt (hheld' _ ⟨j, hlt, rfl⟩) with ⟨halign', hbound'⟩
    have hoff : j * pageSize + v % pageSize < userStackPages * pageSize := by
      unfold pageSize at *
      omega
    rw [view_leafEntry hmap stackFlags_ok halign hbound,
      view_leafEntry hmap' stackFlags_ok halign' hbound', Nat.add_assoc, Nat.add_assoc,
      hcopied.stack hstack _ hoff]
  · -- A page of the window or the trampoline, which both map, or no page.
    unfold plainMap at hmap hmap'
    rw [if_neg hin] at hmap hmap'
    have hsame := hmap'.trans hmap.symm
    unfold view
    rw [hsame]
    rcases hleaf : translate s.machine.mem (ttbrBaddr parent.ttbr0) v with _ | e
    · rfl
    have hseen : (holdings parent).OwnPage (pteNextTable e) ∨
        SharedPage img s.machine (pteNextTable e) := by
      rcases ((ht.user huser).2.2 _ _ e rfl hleaf).target with hown | ⟨hshared, _⟩
      · exact .inl hown
      · exact .inr hshared
    simp [hcopied.kept _ _ hseen ⟨Nat.le_add_right _ _, Nat.add_lt_add_left hmod _⟩]

end

/-- In every state the system can reach, the child of a task that has loaded no
    program and grown no stack sees what its parent saw, in pages of its own where
    it can write, unless a page was refused. -/
theorem fork_faithful (src : Pages σ) (img : KernelImage) (m : Machine σ)
    (hboot : Boot src img m) (s : Sched σ)
    (hrun : ReflTransGen (SchedStep src img) (schedInit m) s) (parent child : Task)
    (hparent : parent ∈ s.queue) (huser : parent.ttbr0 ≠ 0)
    (hregions : parent.execImage.regions = []) (hgrown : parent.stackGrownPhys = [])
    (kmallocOk fdsOk : Bool) (frame : Nat) (s' : Sched σ) (pid : Int)
    (hfork : schedFork src img s kmallocOk fdsOk parent frame = (s', pid))
    (hchild : s'.queue = s.queue ++ [child]) (hrefused : s'.machine.refused = 0) :
    (∀ v, v < 2 ^ 48 → view s'.machine.mem (ttbrBaddr child.ttbr0) v
      = view s.machine.mem (ttbrBaddr parent.ttbr0) v) ∧
    ∀ a, WritesPage s'.machine child a →
      (holdings child).OwnPage a ∧ ¬ src.Held s.machine.pmm a := by
  have hok := run_ok hboot hrun
  have hspec := fork_spec hok kmallocOk fdsOk hparent frame
  rw [hfork] at hspec
  rcases hspec with ⟨⟨hok', _, _⟩, hsame | ⟨child', hcopied⟩⟩
  · -- A fork that fails leaves the queue as it is.
    rw [hsame] at hchild
    exact absurd (congrArg length hchild) (by simp)
  have heq : child' = child := by
    have hlast := hcopied.queue_eq.symm.trans hchild
    simpa using hlast
  subst heq
  have hbefore : s.machine.refused = 0 := Nat.le_zero.mp (hrefused ▸ hcopied.refused_le)
  rcases fork_child_plain hok' hcopied hrefused with ⟨htramp', hmap'⟩
  rcases hok with ⟨role, hok⟩
  rcases hok' with ⟨role', hok'⟩
  have ht := hok.tasks _ (mem_map_of_mem (mem_append_left s.deadList hparent))
  have hmem : child' ∈ s'.queue ++ s'.deadList := by
    rw [hchild]
    exact mem_append_left _ (mem_append_right _ (mem_singleton_self child'))
  have ht' := hok'.tasks _ (mem_map_of_mem hmem)
  have hstack := plain_stack_ne ht hbefore huser hregions hgrown
  have hstack' := plain_stack_ne ht' hrefused hcopied.user hcopied.no_regions hcopied.no_grown
  rcases ht.plain hbefore huser hregions hgrown with ⟨htramp, hmap⟩
  refine ⟨fun v hv => ?_, fun a ha => ?_⟩
  · have hchildmap := hmap' v hv
    rw [hcopied.tramp htramp] at hchildmap
    exact view_copied ht hcopied huser (fun a ha => (ht.image a (.inl ⟨hstack, ha⟩)).2)
      (fun a ha => (ht'.image a (.inl ⟨hstack', ha⟩)).2) hstack (hmap v hv) hchildmap
  · have hown := writesPage_own ht' ha
    exact ⟨hown, hcopied.fresh a (ownPage_plain hcopied.no_regions hcopied.no_grown hown).2⟩

/-- The system while its user task runs. -/
def running : Sched Pmm.Allocator := schedule Pmm.pmmSource oneTask 0xFFFF000040001F00

theorem running_run :
    ReflTransGen (SchedStep Pmm.pmmSource bootImage) (schedInit bootMachine) running :=
  oneTask_run.tail (SchedStep.schedule oneTask _)

def currentTask (s : Sched σ) : Task := s.queue.headD { pid := 0, state := .ready }

def lastTask (s : Sched σ) : Task := s.queue.getLastD { pid := 0, state := .ready }

/-- The current task forks. Its trap frame is at the top of its kernel stack. -/
def forkCurrent (s : Sched Pmm.Allocator) :
    Sched Pmm.Allocator × Int :=
  schedFork Pmm.pmmSource bootImage s true true (currentTask s) 0x40005D50

/-- A task that was created and forks. -/
theorem fork_faithful_running :
    (forkCurrent running).1.queue = running.queue ++ [lastTask (forkCurrent running).1] ∧
    (∀ v, v < 2 ^ 48 →
      view (forkCurrent running).1.machine.mem
          (ttbrBaddr (lastTask (forkCurrent running).1).ttbr0) v
        = view running.machine.mem (ttbrBaddr (currentTask running).ttbr0) v) ∧
    ∀ a, WritesPage (forkCurrent running).1.machine (lastTask (forkCurrent running).1) a →
      (holdings (lastTask (forkCurrent running).1)).OwnPage a ∧
        ¬ Pmm.pmmSource.Held running.machine.pmm a := by
  have hchild : (forkCurrent running).1.queue
      = running.queue ++ [lastTask (forkCurrent running).1] := by decide +kernel
  exact ⟨hchild, fork_faithful Pmm.pmmSource bootImage bootMachine bootMachine_boot running
    running_run (currentTask running) (lastTask (forkCurrent running).1) (by decide)
    (by decide) (by rfl) (by rfl) true true 0x40005D50 _ _
    (Prod.eta _).symm hchild (by decide +kernel)⟩

/-- The system after the running task has touched the page below its stack. -/
def grownStack : Sched Pmm.Allocator :=
  (schedTryGrowStack Pmm.pmmSource running 0x7FB800).1

/-- A page of stack that was grown on demand is in the parent's address space and
    not in that of the child. -/
theorem fork_grown_missing :
    ReflTransGen (SchedStep Pmm.pmmSource bootImage) (schedInit bootMachine) grownStack ∧
    currentTask grownStack ∈ grownStack.queue ∧
    (forkCurrent grownStack).1.queue = grownStack.queue ++ [lastTask (forkCurrent grownStack).1] ∧
    (forkCurrent grownStack).2 = 2 ∧ (forkCurrent grownStack).1.machine.refused = 0 ∧
    view grownStack.machine.mem (ttbrBaddr (currentTask grownStack).ttbr0) 0x7FB800
      = some ⟨true, true, false, 0⟩ ∧
    view (forkCurrent grownStack).1.machine.mem
      (ttbrBaddr (lastTask (forkCurrent grownStack).1).ttbr0) 0x7FB800 = none := by
  refine ⟨running_run.tail (SchedStep.growStack running _), ?_⟩
  decide +kernel

end CortexForge.Sched
