import CortexForge.Theory.Preempt

/-!
# The Ring at Interruptible Points

Every timer interrupt walks the run queue, so the ring must be closed wherever an
interrupt can arrive: following `next` from the idle task meets neither a null pointer
nor a record that went back to the heap, and returns to the idle task.

A new task is linked in by two stores, `tail->next = t` and `t->next = current`.
`sched_fork` masks interrupts around them and `sched_kill_task` around its own, while
`sched_create_kernel_task` and `sched_create_task` leave the mask as their caller has
it. Called from a system call they are open to interrupts between the two stores,
where the new task still points to null. Here such an insertion is taken apart into
its statements. With interrupts masked nothing can come between them, and it is the
single step it is in the model of the processor.

## Main definitions

* `RingClosed`: The walks of the interrupt handler come back.
* `Insertion`, `Point`, `Act`, `Point.next`: The processor with insertions in progress.
* `guarded`: Tasks are created and killed, and `schedule` runs, without interrupts.

## Theorems

* `at_ringClosed`: The ring is closed at every statement of `schedule`.
* `ring_closed_guarded`: It is closed at every interruptible point of a guarded run.
* `ring_open_inserting`: It is not while `sched_create_kernel_task` links a task in.
-/

namespace CortexForge

open RunQueue Cpu Function Relation

variable {σ : Type} (src : Pages σ) (img : KernelImage)

/-- The record was handed out more often than it was given back. The record of the
    idle task is static. -/
def InUse (s : RunQueue σ) (t : Nat) : Prop :=
  t = idleTask ∨ s.released.count t < s.created.count t

/-- Following `next` from the idle task never meets a null or freed task and returns. -/
def RingClosed (s : RunQueue σ) : Prop :=
  (∀ n, s.next^[n] idleTask ≠ 0 ∧ InUse s (s.next^[n] idleTask)) ∧
    ∃ n > 0, s.next^[n] idleTask = idleTask

/-- Where the insertion of the record `t` is: looking for the task before the current
    one, about to point that one to `t`, or about to point `t` to the current task. -/
inductive Insertion where
  | walk (t tail : Nat)
  | link (t tail : Nat)
  | close (t : Nat)
deriving DecidableEq, Repr

/-- The processor, with the insertion that is not over on each kernel stack. -/
structure Point (σ : Type) where
  cpu : Cpu σ
  inserting : Nat → Option Insertion

/-- An event of the processor, an unmasked creation that has filled in its record, or
    the next statement of an insertion. -/
inductive Act where
  | event (e : Event)
  | begin (c : Call)
  | insert
deriving DecidableEq, Repr

/-- The record that a creator links in without a mask of its own. -/
def unmaskedRecord : Call → Option Nat
  | .createKernelTask t _ => some t
  | .createTask t _ _ => some t
  | _ => none

namespace Point

/-- What the processor can do by itself. Under an insertion that was interrupted only
    the handler runs. -/
def free (p : Point σ) : Event → Bool
  | .run _ => true
  | .irq _ => true
  | .op c => (p.inserting p.cpu.stack).isNone && (p.cpu.masked || (unmaskedRecord c).isNone)
  | _ => (p.inserting p.cpu.stack).isNone

/-- The record is filled in but not linked: its own link is null from `memset`. -/
def begin (fuel : Nat) (p : Point σ) (c : Call) (t : Nat) : Option (Point σ) :=
  (Cpu.op src img fuel p.cpu c).map fun done =>
    if done.queue.created = p.cpu.queue.created then { p with cpu := done }
    else
      { cpu := { done with
          queue := { done.queue with next := update p.cpu.queue.next t 0 } }
        inserting := update p.inserting p.cpu.stack (some (.walk t p.cpu.queue.current)) }

/-- One statement of an insertion. -/
def insert (s : RunQueue σ) : Insertion → RunQueue σ × Option Insertion
  | .walk t tail =>
      (s, some (if s.next tail ≠ s.current then .walk t (s.next tail) else .link t tail))
  | .link t tail => (setNext s tail t, some (.close t))
  | .close t => (setNext s t s.current, none)

def next (fuel : Nat) (p : Point σ) : Act → Option (Point σ)
  | .event e =>
      if p.free e then (Cpu.next src img fuel p.cpu e).map fun c => { p with cpu := c } else none
  | .begin c =>
      match unmaskedRecord c with
      | some t =>
          if p.cpu.frames p.cpu.stack = [] ∧ p.inserting p.cpu.stack = none ∧
              p.cpu.masked = false then
            begin src img fuel p c t
          else none
      | none => none
  | .insert =>
      if p.cpu.frames p.cpu.stack = [] then
        (p.inserting p.cpu.stack).map fun i =>
          { cpu := { p.cpu with queue := (insert p.cpu.queue i).1 }
            inserting :=
              update p.inserting p.cpu.stack (insert p.cpu.queue i).2 }
      else none

def boot (m : Machine σ) : Point σ := ⟨Cpu.boot m, fun _ => none⟩

/-- What may happen, as far as it is not for the kernel to decide. -/
def Permitted (p : Point σ) : Act → Prop
  | .event e => Cpu.Permitted p.cpu e
  | .begin c => Allowed p.cpu.queue c
  | .insert => True

/-- Tasks are created and killed with interrupts masked, and no interrupt arrives
    inside `schedule`. -/
def guarded (p : Point σ) : Act → Bool
  | .event (.kill _) => p.cpu.masked
  | .event e => decide (Shielded p.cpu e)
  | .begin _ => false
  | .insert => true

def Step (p p' : Point σ) : Prop := ∃ fuel a, Permitted p a ∧ next src img fuel p a = some p'

def GuardedStep (p p' : Point σ) : Prop :=
  ∃ fuel a, Permitted p a ∧ guarded p a ∧ next src img fuel p a = some p'

end Point

section

variable {s s' : RunQueue σ} {me cur : Nat} {ring dead : List Nat}

/-- A ring of another state whose links are the same and that has released no less. -/
theorem shape_ringClosed (h : Shape s' cur ring dead) (hnext : ∀ t ∈ ring, s.next t = s'.next t)
    (hcreated : s.created = s'.created)
    (hreleased : ∀ t, s.released.count t ≤ s'.released.count t) : RingClosed s := by
  have hring : Circular s.next idleTask ring := circular_congr h.circular hnext
  have hmem : ∀ n, s.next^[n] idleTask ∈ ring := fun n => (circular_mem_iff hring).mpr ⟨n, rfl⟩
  refine ⟨fun n => ⟨fun h0 => h.nonnull (h0 ▸ hmem n), ?_⟩, ?_⟩
  · rcases eq_or_ne (s.next^[n] idleTask) idleTask with hidle | hidle
    · exact .inl hidle
    · -- The record is on the ring besides its releases, so it was created once more.
      have hcount := h.accounted.count_eq (s.next^[n] idleTask)
      have hone := List.one_le_count_iff.mpr (hmem n)
      have hle := hreleased (s.next^[n] idleTask)
      rw [List.count_cons_of_ne hidle.symm, List.count_append, List.count_append,
        ← hcreated] at hcount
      exact .inr (by omega)
  · rcases circular_reaches hring (hmem 1) hring.mem with ⟨n, _, hn⟩
    exact ⟨n + 1, Nat.succ_pos n, hn⟩

theorem at_ringClosed {stmt : Stmt} (h : At s me stmt) : RingClosed s := by
  have same : ∀ {cur ring dead}, Shape s cur ring dead → RingClosed s := fun hshape =>
    shape_ringClosed hshape (fun _ _ => rfl) rfl fun _ => Nat.le_refl _
  cases stmt with
  | reapTest | reapHead | reapPop =>
    obtain ⟨ring, dead, hleaving, _⟩ := h
    exact same hleaving.shape
  | reapFree d =>
    obtain ⟨ring, dead, hleaving, _⟩ := h
    refine shape_ringClosed hleaving.shape (fun _ _ => rfl) rfl fun t => ?_
    exact (List.sublist_append_left _ _).count_le t
  | push =>
    -- The dead task has its old link, but the ring no longer leads to it.
    obtain ⟨ring, dead, hshape, -, -, hme⟩ := h
    refine shape_ringClosed hshape (fun t ht => ?_) rfl fun _ => Nat.le_refl _
    exact (update_of_ne (fun (heq : t = me) => hme (heq ▸ ht)) _ _).symm
  | setDead | markRunning | leave | contextSwitch | setCurrent =>
    obtain ⟨ring, dead, hshape, _⟩ := h
    first
      | exact same hshape.1
      | exact shape_ringClosed hshape (fun _ _ => rfl) rfl fun _ => Nat.le_refl _
      | exact shape_ringClosed hshape.1 (fun _ _ => rfl) rfl fun _ => Nat.le_refl _
  | _ =>
    obtain ⟨ring, hleaving, _⟩ := h
    exact same hleaving.shape

end

namespace Point

variable {src} {img}

theorem guardedStep_cpuOk {p p' : Point σ} (h : CpuOk p.cpu ∧ p.inserting = fun _ => none)
    (hstep : GuardedStep src img p p') : CpuOk p'.cpu ∧ p'.inserting = fun _ => none := by
  rcases hstep with ⟨fuel, a, hpermitted, hguarded, hnext⟩
  cases a with
  | event e =>
    have hshielded : Shielded p.cpu e := by
      cases e <;> first | exact of_decide_eq_true hguarded | exact trivial
    rw [next] at hnext
    split at hnext
    · obtain ⟨c, hc, rfl⟩ := Option.map_eq_some_iff.mp hnext
      exact ⟨next_cpuOk h.1 hpermitted hshielded hc, h.2⟩
    · cases hnext
  | begin c => exact absurd hguarded Bool.false_ne_true
  | insert => grind [next]

variable (src) (img) in
/-- What is done in `acts`, as far as it is `ok`. -/
def runActs (ok : Point σ → Act → Bool) (fuel : Nat) (p : Point σ) (acts : List Act) : Point σ :=
  acts.foldl (fun p a => if ok p a then (next src img fuel p a).getD p else p) p

theorem runActs_reaches {ok : Point σ → Act → Bool} {R : Point σ → Point σ → Prop} {fuel : Nat}
    (hstep : ∀ p a p', ok p a = true → next src img fuel p a = some p' → R p p')
    (acts : List Act) (p : Point σ) : ReflTransGen R p (runActs src img ok fuel p acts) := by
  induction acts generalizing p with
  | nil => exact .refl
  | cons a acts ih =>
    rw [runActs, List.foldl_cons]
    cases hok : ok p a with
    | false => exact ih p
    | true =>
      cases hnext : next src img fuel p a with
      | none => exact ih p
      | some p' => exact .head (hstep p a p' hok hnext) (ih p')

variable (src) (img)

/-- In a run without unmasked creations and without interrupts inside `schedule` the
    ring is closed wherever an interrupt can arrive. -/
theorem ring_closed_guarded (m : Machine σ) (p : Point σ)
    (hrun : ReflTransGen (GuardedStep src img) (boot m) p) :
    p.cpu.masked = false → RingClosed p.cpu.queue := by
  have hok : CpuOk p.cpu ∧ p.inserting = fun _ => none := by
    induction hrun with
    | refl => exact ⟨boot_cpuOk m, rfl⟩
    | tail _ hstep ih => exact guardedStep_cpuOk ih hstep
  exact fun _ => at_ringClosed hok.1.here

instance decidablePermitted (p : Point σ) : (a : Act) → Decidable (Permitted p a)
  | .event e => inferInstanceAs (Decidable (Cpu.Permitted p.cpu e))
  | .begin c => inferInstanceAs (Decidable (Allowed p.cpu.queue c))
  | .insert => isTrue trivial

/-- The kernel at boot creates a task, enables interrupts and is inside a call of
    `schedule`. -/
def yielding : Point Pmm.Allocator :=
  runActs Pmm.pmmSource Sched.bootImage
    (fun p a => decide (Permitted p a ∧ guarded p a)) 8
    (boot Sched.bootMachine)
    [.event (.op (.createKernelTask 2 0)), .event (.mask false), .event (.give .yield),
      .event (.run 0)]

theorem ring_closed_yielding :
    yielding.cpu.masked = false ∧ yielding.cpu.queue.created = [2] ∧
      RingClosed yielding.cpu.queue := by
  have hopen : yielding.cpu.masked = false := by rfl
  refine ⟨hopen, by rfl, ?_⟩
  refine ring_closed_guarded Pmm.pmmSource Sched.bootImage Sched.bootMachine yielding ?_ hopen
  refine runActs_reaches (fun p a p' hok hnext => ?_) _ _
  have hboth := of_decide_eq_true hok
  exact ⟨8, a, hboth.1, hboth.2, hnext⟩

/-- The kernel at boot, with interrupts enabled, creates a kernel task up to the store
    into the task before it. -/
def inserted : Point Pmm.Allocator :=
  runActs Pmm.pmmSource Sched.bootImage (fun p a => decide (Permitted p a)) 8
    (boot Sched.bootMachine)
    [.event (.mask false), .begin (.createKernelTask 2 0), .insert, .insert]

/-- Between the two stores of `sched_create_kernel_task` the second task after the
    idle task is the null pointer. -/
theorem ring_open_inserting :
    ReflTransGen (Step Pmm.pmmSource Sched.bootImage) (boot Sched.bootMachine) inserted ∧
      inserted.cpu.masked = false ∧ ¬ RingClosed inserted.cpu.queue := by
  refine ⟨runActs_reaches (fun p a p' hok hnext => ⟨8, a, of_decide_eq_true hok, hnext⟩) _ _,
    by rfl, fun hclosed => (hclosed.1 2).1 ?_⟩
  rfl

end Point

end CortexForge
