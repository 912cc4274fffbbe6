import CortexForge.Theory.ForkFidelity

/-!
# The Stack and Its Count

A task counts the pages its stack has grown by, and the kernel takes that many
pages below the initial stack to be mapped. It relies on this when it stores a
signal frame on the user stack.

A page is grown where the task faulted, which can be anywhere in the growth zone,
and a new image keeps the count of the old one without its pages. So the count
says where the stack ends only in a run in which every growth is at the page right
below the stack, and no task that has grown its stack loads a new image. In such a
run the stack is mapped down to where the count says, as long as no page was
refused.

## Main definitions

* `StackMapped`: The stack is mapped as far as the count says.
* `InOrderStep`: A step that grows a stack at its end only.

## Theorems

* `stack_matches_count`: The stack of every task, in such runs.
* `stack_count_wrong`: One fault deep in the growth zone.
-/

namespace CortexForge.Sched

open Mmu Elf Holdings Relation List

variable {σ : Type}

/-- Every page from the end of the stack that the count gives up to its top is
    writable for the task. -/
def StackMapped (m : Machine σ) (t : Task) : Prop :=
  t.ttbr0 ≠ 0 → ∀ v,
    userStackTop - (userStackPages + t.stackGrownPhys.length) * pageSize ≤ v → v < userStackTop →
    ∃ e, translate m.mem (ttbrBaddr t.ttbr0) v = some e ∧ el0Write e = true

/-- A step that grows a stack only at the page below it, and replaces only images
    whose stack was not grown. -/
def InOrderStep (src : Pages σ) (img : KernelImage) (s s' : Sched σ) : Prop :=
  SchedStep src img s s' ∧
    (∀ far, schedTryGrowStack src s far = (s', true) → ∀ t rest, s.queue = t :: rest →
      far / pageSize + t.stackGrownPhys.length + 1 = ustackUserBase / pageSize) ∧
    ∀ file args entry, loadImage src s file args = (s', some entry) → ∀ t rest,
      s.queue = t :: rest → t.stackGrownPhys = []

section

variable {src : Pages σ} {img : KernelImage} {s s' : Sched σ}
  {m m' : Machine σ} {t t' : Task}

theorem stackMapped_congr (h : StackMapped m t) (hsame : holdings t' = holdings t)
    (hmap : t.ttbr0 ≠ 0 → ∀ v,
      translate m'.mem (ttbrBaddr t.ttbr0) v = translate m.mem (ttbrBaddr t.ttbr0) v) :
    StackMapped m' t' := by
  have httbr : t'.ttbr0 = t.ttbr0 := congrArg Holdings.ttbr0 hsame
  have hgrown : t'.stackGrownPhys = t.stackGrownPhys := congrArg Holdings.grown hsame
  unfold StackMapped
  rw [httbr, hgrown]
  intro huser v hlo hhi
  rw [hmap huser v]
  exact h huser v hlo hhi

/-- The stack a task starts with. -/
theorem plain_stackMapped {role : Roles} (ht : TaskOk src img m role (holdings t))
    (hrefused : m.refused = 0) (hregions : t.execImage.regions = [])
    (hgrown : t.stackGrownPhys = []) : StackMapped m t := by
  intro huser v hlo hhi
  have hbase : ustackUserBase = 0x7FC000 := rfl
  rw [hgrown, length_nil] at hlo
  unfold userStackTop userStackPages pageSize at hlo
  unfold userStackTop at hhi
  have hmap := (ht.plain hrefused huser hregions hgrown).2 v (by omega)
  rw [plainMap, if_pos (by unfold userStackPages pageSize; omega)] at hmap
  refine ⟨_, hmap, ?_⟩
  rw [(leafEntry_perms _ _).2.2.1]
  rfl

/-- Above the page below a stack of `n` grown pages is the stack. -/
theorem stack_above {far n v : Nat} (hnext : far / pageSize + n + 1 = 0x7FC)
    (hother : v / pageSize ≠ far / pageSize)
    (hlo : userStackTop - (userStackPages + (n + 1)) * pageSize ≤ v) :
    userStackTop - (userStackPages + n) * pageSize ≤ v := by
  unfold userStackTop userStackPages pageSize at hlo ⊢
  unfold pageSize at hother hnext
  have hpage : far / 4096 < v / 4096 := by omega
  have hle : (far / 4096 + 1) * 4096 ≤ v := (Nat.le_div_iff_mul_le (Nat.succ_pos 4095)).mp hpage
  clear hlo hother hpage
  omega

/-- A growth at the page below the stack. -/
theorem grown_stackMapped {far p : Nat} {rest : List Task} (hgrown : StackGrown s far s' t rest p)
    (hrefused : s'.machine.refused = s.machine.refused)
    (hnext : far / pageSize + t.stackGrownPhys.length + 1 = ustackUserBase / pageSize)
    (h : StackMapped s.machine t) :
    StackMapped s'.machine { t with stackGrownPhys := t.stackGrownPhys ++ [p] } := by
  intro huser v hlo hhi
  simp only [length_append] at hlo ⊢
  have hbase : ustackUserBase / pageSize = 0x7FC := rfl
  have hv : v < 2 ^ 48 := Nat.lt_trans hhi (by decide)
  rw [hgrown.mapped hrefused v hv]
  split
  · refine ⟨_, rfl, ?_⟩
    rw [(leafEntry_perms _ _).2.2.1]
    rfl
  · -- Above the new page the stack is as before.
    rename_i hother
    refine h huser v ?_ hhi
    exact stack_above hnext hother hlo

/-- A new image, for a task whose stack was not grown. -/
theorem replaced_stackMapped {new : Task} {rest : List Task} (hnew : Replaced s s' t new rest)
    (hrefused : s'.machine.refused = s.machine.refused) (hnone : t.stackGrownPhys = []) :
    StackMapped s'.machine new := by
  intro _ v hlo hhi
  rw [hnew.grown_eq, hnone] at hlo
  exact hnew.mapped hrefused v hlo hhi

theorem stackMapped_step (hok : SchedOk src img s) (hstep : InOrderStep src img s s')
    (hrefused : s'.machine.refused = 0)
    (h : s.machine.refused = 0 → ∀ t ∈ s.queue ++ s.deadList, StackMapped s.machine t) :
    ∀ t ∈ s'.queue ++ s'.deadList, StackMapped s'.machine t := by
  rcases hstep with ⟨hstep, hgrow, hexec⟩
  -- A task that is still there with its address space.
  have hkept : ∀ u ∈ s.queue ++ s.deadList, s.machine.refused ≤ s'.machine.refused →
      ((holdings u).ttbr0 ≠ 0 → ∀ v, translate s'.machine.mem (holdings u).root v
        = translate s.machine.mem (holdings u).root v) →
      ∀ t, holdings t = holdings u → StackMapped s'.machine t := fun u hu hle hmap t hsame =>
    stackMapped_congr (h (by omega) u hu) hsame hmap
  rcases schedStep_cases hok hstep with hgoes | ⟨far, hcall, _, t, rest, p, hgrown⟩ |
    ⟨file, args, entry, hcall, _, t, new, rest, hnew⟩
  · intro t ht
    rcases hgoes.ok with ⟨role, hok'⟩
    have hmem := mem_map_of_mem (f := holdings) ht
    rcases hgoes.tasks _ hmem with ⟨hregions, hgrown⟩ | ⟨hold, hmap⟩
    · exact plain_stackMapped (hok'.tasks _ hmem) hrefused hregions hgrown
    · rcases mem_map.mp hold with ⟨u, hu, hsame⟩
      rw [← hsame] at hmap
      exact hkept u hu hgoes.refused_le hmap t hsame.symm
  · have hle := hgrown.others.refused_le
    have hsame : s'.machine.refused = s.machine.refused := by omega
    intro u hu
    rw [hgrown.queue_eq, hgrown.dead_eq] at hu
    rcases mem_cons.mp hu with rfl | hu
    · refine grown_stackMapped hgrown hsame (hgrow far hcall t rest hgrown.current)
        (h (by omega) t ?_)
      rw [hgrown.current]
      exact mem_cons_self
    · refine hkept u ?_ hle (hgrown.others.translate_eq _ (mem_map_of_mem hu)) u rfl
      rw [hgrown.current]
      exact mem_cons_of_mem _ hu
  · have hle := hnew.others.refused_le
    intro u hu
    rw [hnew.queue_eq, hnew.dead_eq] at hu
    rcases mem_cons.mp hu with rfl | hu
    · exact replaced_stackMapped hnew (by omega) (hexec file args entry hcall t rest hnew.current)
    · refine hkept u ?_ hle (hnew.others.translate_eq _ (mem_map_of_mem hu)) u rfl
      rw [hnew.current]
      exact mem_cons_of_mem _ hu

end

/-- In every run that grows stacks in order, the stack of every task is mapped as
    far as its count says, unless a page was refused. -/
theorem stack_matches_count (src : Pages σ) (img : KernelImage)
    (m : Machine σ) (hboot : Boot src img m) (s : Sched σ)
    (hrun : ReflTransGen (InOrderStep src img) (schedInit m) s) (hrefused : s.machine.refused = 0) :
    ∀ t ∈ s.queue ++ s.deadList, StackMapped s.machine t := by
  induction hrun with
  | refl =>
    intro t ht huser
    rw [mem_singleton.mp ht] at huser
    exact absurd rfl huser
  | tail hrun hstep ih =>
    have hsteps : ReflTransGen (SchedStep src img) _ _ :=
      ReflTransGen.mono (fun _ _ (hstep : InOrderStep src img _ _) => hstep.1) _ _ hrun
    exact stackMapped_step (run_ok hboot hsteps) hstep hrefused ih

section

/-- The idle task has neither a stack to grow nor an image to replace. -/
theorem inOrder_kernel {src : Pages σ} {img : KernelImage}
    {s s' : Sched σ} (hstep : SchedStep src img s s')
    (hkernel : (currentTask s).ttbr0 = 0 ∧ (currentTask s).hasFds = false) :
    InOrderStep src img s s' := by
  refine ⟨hstep, fun far hcall t rest hqueue => ?_, fun file args entry hcall t rest hqueue => ?_⟩
  · rw [currentTask, hqueue, headD_cons] at hkernel
    simp only [schedTryGrowStack, hqueue, tryGrowStack, if_pos hkernel.1] at hcall
    cases hcall
  · rw [currentTask, hqueue, headD_cons] at hkernel
    rcases file with _ | f
    · simp only [loadImage, hqueue] at hcall
      cases hcall
    · simp only [loadImage, hqueue, if_pos hkernel.2] at hcall
      cases hcall

theorem running_inOrder :
    ReflTransGen (InOrderStep Pmm.pmmSource bootImage) (schedInit bootMachine) running := by
  have hcreate : InOrderStep Pmm.pmmSource bootImage (schedInit bootMachine) oneTask :=
    inOrder_kernel (SchedStep.createTask _ true true bootImage.textStart) ⟨rfl, rfl⟩
  refine (ReflTransGen.single hcreate).tail (inOrder_kernel (.schedule oneTask _) ?_)
  decide +kernel

/-- A fault right below the stack. -/
theorem grownStack_inOrder :
    ReflTransGen (InOrderStep Pmm.pmmSource bootImage) (schedInit bootMachine)
      grownStack := by
  have hcurrent : currentTask running ∈ running.queue.head? ∧
      (currentTask running).stackGrownPhys = [] ∧
      ttbrBaddr (currentTask running).ttbr0 = 0x40006000 := by decide +kernel
  have hbefore : translate running.machine.mem 0x40006000 0x7FB800 = none ∧
      translate grownStack.machine.mem 0x40006000 0x7FB800 ≠ none ∧
      grownStack.machine.refused = running.machine.refused := by decide +kernel
  refine running_inOrder.tail ⟨.growStack running 0x7FB800, fun far hcall t rest hqueue => ?_,
    fun file args entry hcall t rest hqueue => ?_⟩ <;>
    rw [hqueue, head?_cons, Option.mem_some_iff] at hcurrent
  · -- Only a fault at this page maps it.
    rw [hcurrent.1, hcurrent.2.1]
    rcases tryGrowStack_spec (run_ok bootMachine_boot running_run) far with
      ⟨hfalse, _⟩ | ⟨_, _, u, others, p, hgrown⟩
    · rw [hcall] at hfalse
      cases hfalse
    · rw [hcall] at hgrown
      have hu : u = currentTask running := by
        have heq := hgrown.current.symm.trans hqueue
        rw [← hcurrent.1]
        exact (cons.inj heq).1
      have hmapped := hgrown.mapped hbefore.2.2 0x7FB800 (by decide)
      rw [hu] at hmapped
      split at hmapped
      · rename_i hpage
        rw [← hpage]
        rfl
      · exact absurd (hmapped.trans hbefore.1) hbefore.2.1
  · rw [hcurrent.1]
    exact hcurrent.2.1

end

theorem stack_matches_count_grown :
    (currentTask grownStack).stackGrownPhys.length = 1 ∧
      StackMapped grownStack.machine (currentTask grownStack) := by
  have hcurrent : currentTask grownStack ∈ grownStack.queue ++ grownStack.deadList := by
    decide +kernel
  refine ⟨by decide +kernel, ?_⟩
  exact stack_matches_count Pmm.pmmSource bootImage bootMachine bootMachine_boot grownStack
    grownStack_inOrder (by decide +kernel) _ hcurrent

/-- A fault at the lower end of the growth zone. -/
def grownDeep : Sched Pmm.Allocator :=
  (schedTryGrowStack Pmm.pmmSource running 0x7C0000).1

/-- One page was grown, and it is not the page below the stack. -/
theorem stack_count_wrong :
    ReflTransGen (SchedStep Pmm.pmmSource bootImage) (schedInit bootMachine) grownDeep ∧
      grownDeep.machine.refused = 0 ∧ currentTask grownDeep ∈ grownDeep.queue ∧
      (currentTask grownDeep).stackGrownPhys.length = 1 ∧
      translate grownDeep.machine.mem (ttbrBaddr (currentTask grownDeep).ttbr0) 0x7FB000 = none ∧
      ¬ StackMapped grownDeep.machine (currentTask grownDeep) := by
  have hfacts : grownDeep.machine.refused = 0 ∧ currentTask grownDeep ∈ grownDeep.queue ∧
      (currentTask grownDeep).stackGrownPhys.length = 1 ∧
      translate grownDeep.machine.mem (ttbrBaddr (currentTask grownDeep).ttbr0) 0x7FB000 = none ∧
      (currentTask grownDeep).ttbr0 ≠ 0 := by decide +kernel
  rcases hfacts with ⟨hrefused, hmem, hcount, hnone, huser⟩
  refine ⟨running_run.tail (SchedStep.growStack running _), hrefused, hmem, hcount, hnone,
    fun hmapped => ?_⟩
  rcases hmapped huser 0x7FB000 (by rw [hcount]; decide) (by decide) with ⟨e, he, _⟩
  rw [hnone] at he
  cases he

end CortexForge.Sched
