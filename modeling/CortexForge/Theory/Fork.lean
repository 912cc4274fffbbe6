import CortexForge.Theory.TaskCalls

/-!
# Forking

A fork keeps the invariant of tasks, and when it succeeds the child is related to
its parent by `Copied`: the child's stack has the bytes of the four pages of stack
its parent started with, the pages of the parent and the shared ones are as they
were, and the child's stack was not in use before.

Nothing else of the parent is read. In particular neither its loaded segments nor
the stack pages it was given on demand reach the child.

## Main definitions

* `Copied`: A parent and its child after a fork.

## Theorems

* `fork_spec`: What a fork does.
-/

namespace CortexForge.Sched

open Mmu Elf Holdings

variable {σ : Type} {src : Pages σ} {img : KernelImage}

/-- The child after a fork that succeeds. -/
structure Copied (src : Pages σ) (img : KernelImage) (s : Sched σ)
    (parent : Task) (s' : Sched σ) (child : Task) : Prop where
  queue_eq : s'.queue = s.queue ++ [child]
  user : child.ttbr0 ≠ 0
  no_regions : child.execImage.regions = []
  no_grown : child.stackGrownPhys = []
  refused_le : s.machine.refused ≤ s'.machine.refused
  tramp : s.machine.sigtrampPhys ≠ 0 → s'.machine.sigtrampPhys = s.machine.sigtrampPhys
  kept : ∀ a x, (holdings parent).OwnPage a ∨ SharedPage img s.machine a → InPage a x →
    s'.machine.mem x = s.machine.mem x
  stack : parent.ustackPhys ≠ 0 → ∀ x, x < userStackPages * pageSize →
    s'.machine.mem (child.ustackPhys + x) = s.machine.mem (parent.ustackPhys + x)
  fresh : ∀ a, InRun child.ustackPhys userStackPages a → ¬ src.Held s.machine.pmm a

section

variable {s : Sched σ} {parent child : Task} {mk m4 : Machine σ} {role rolek role4 : Roles}
  {k r u pid asid : Nat}

/-- A page a program may see is none of those that a construction writes to. -/
theorem seen_not_written {m : Machine σ} {h : Holdings} (ht : TaskOk src img m role h)
    (hshared : SharedOk src (TextPage img) m role) {a : Nat}
    (ha : h.OwnPage a ∨ SharedPage img m a) :
    src.Held m.pmm a ∧ ¬ (TableOf r (role a) ∨ role a = .kstack k) := by
  have hrole : src.Held m.pmm a ∧
      (role a = .data h.root ∨ role a = .grown h.stackPhys ∨ role a = .shared) := by
    rcases ha with ha | ha
    · rcases ownPage_role ht ha with ⟨hrole | hrole, hheld⟩
      · exact ⟨hheld, .inl hrole⟩
      · exact ⟨hheld, .inr (.inl hrole)⟩
    · rcases sharedPage_role hshared ha with ⟨hrole, hheld⟩
      exact ⟨hheld, .inr (.inr hrole)⟩
  rcases hrole with ⟨hheld, hrole⟩
  refine ⟨hheld, fun hc => ?_⟩
  rcases hrole with hrole | hrole | hrole <;> rw [hrole] at hc <;>
    rcases hc with ⟨_, hc⟩ | hc <;> exact Role.noConfusion hc

/-- The child, once its stack is copied and its frames are written. -/
theorem newTask_copied {mem : Memory}
    (hok : SysOk src img s.machine role ((s.queue ++ s.deadList).map holdings))
    (hparent : parent ∈ s.queue) (hkstack : KernelStack src k s.machine role mk rolek)
    (hbuilt : Built src img r u mk rolek m4 role4) (hmem : StackOnly k mem m4.mem)
    (hcopy : parent.ustackPhys ≠ 0 → ∀ x, x < userStackPages * pageSize →
      m4.mem (u + x) = s.machine.mem (parent.ustackPhys + x))
    (huser : child.ttbr0 ≠ 0) (hstack : child.ustackPhys = u)
    (hregions : child.execImage.regions = []) (hgrown : child.stackGrownPhys = []) :
    Copied src img s parent
      { s with
        machine := { m4 with mem := mem }
        queue := s.queue ++ [child]
        nextPid := pid
        nextAsid := asid } child := by
  have hev := newTask_evolves hkstack hbuilt hmem
  have ht := hok.tasks (holdings parent)
    (List.mem_map_of_mem (List.mem_append_left s.deadList hparent))
  refine ⟨rfl, huser, hregions, hgrown, hev.refused_le, fun hne => ?_, fun a x ha hx => ?_,
    fun hne x hx => ?_, fun a ha hc => ?_⟩
  · rcases hev.tramp with heq | ⟨hzero, _⟩
    · exact heq
    · exact absurd hzero hne
  · rcases seen_not_written ht hok.shared ha with ⟨hheld, hnot⟩
    exact hev.mem_eq a x hheld hnot hx
  · -- The frames are written to the kernel stack, not to the stack copied before.
    rcases inPage_of_run u userStackPages (u + x) (Nat.le_add_right u x)
      (by omega) with ⟨a, ha, hin⟩
    rcases hbuilt.pages a ha with ⟨hrole, hheld, _⟩
    have hframes := (evolves_kstack (built_kstack hkstack hbuilt) hmem).mem_eq a (u + x) hheld
      (by rw [hrole]; exact Role.noConfusion) hin
    rw [hstack, ← hcopy hne x hx]
    exact hframes
  · rw [hstack] at ha
    exact (hbuilt.pages a ha).2.2 (hkstack.evolves.held a hc)

/-- A fork keeps the invariant. It adds a copy of the parent, or no task. -/
theorem fork_spec (hok : SchedOk src img s) (kmallocOk fdsOk : Bool) (hparent : parent ∈ s.queue)
    (frame : Nat) :
    Goes src img s (schedFork src img s kmallocOk fdsOk parent frame).1 ∧
      ((schedFork src img s kmallocOk fdsOk parent frame).1.queue = s.queue ∨
        ∃ child, Copied src img s parent (schedFork src img s kmallocOk fdsOk parent frame).1
          child) := by
  have hout := @fork_construction σ src img s kmallocOk fdsOk parent frame
  refine ⟨construction_goes hok hout, ?_⟩
  rcases hok with ⟨role, hok⟩
  generalize schedFork src img s kmallocOk fdsOk parent frame = res at hout ⊢
  rcases hout with _ | _ | _ | _ | _ | @⟨mk, m1, m2, m3, m4, k, r, u, mem, child, hstacked, hchild⟩
  iterate 5 exact .inl rfl
  have hwindowed := hstacked.windowed
  rcases kernelStack_spec role hwindowed.begun.kstack with ⟨hc, _⟩ | ⟨rolek, hkstack⟩
  · exact absurd hc hwindowed.begun.kstack_ne
  have hshared := sharedOk_evolves hok.shared hkstack.evolves
  rcases newSpace_spec hshared hwindowed.begun.tables hwindowed.root_ne hwindowed.window with
    ⟨_, role2, hev2, _⟩
  rcases stacked_built hstacked hshared with ⟨role4, hbuilt, hfilled⟩
  have hlt := (held_lt (hbuilt.space.place [] r (Nat.zero_le 3) rfl).2).2
  refine .inr ⟨child, newTask_copied hok hparent hkstack hbuilt hstacked.frames
    (fun hne x hx => ?_) ?_ (congrArg Holdings.ustackPhys hchild)
    (congrArg Holdings.regions hchild) (congrArg Holdings.grown hchild)⟩
  rotate_left
  · rw [show child.ttbr0 = ttbrPack r s.nextAsid from congrArg Holdings.ttbr0 hchild]
    exact ttbrPack_ne r _ hwindowed.root_ne hlt
  -- The stack is copied after the tables are allocated, which left the parent's alone.
  rcases inPage_of_run u userStackPages (u + x) (Nat.le_add_right u x)
    (by omega) with ⟨a, ha, hin⟩
  rcases inPage_of_run parent.ustackPhys userStackPages (parent.ustackPhys + x)
    (Nat.le_add_right _ x) (by omega) with ⟨b, hb, hbin⟩
  have ht := hok.tasks (holdings parent)
    (List.mem_map_of_mem (List.mem_append_left s.deadList hparent))
  rcases seen_not_written (r := r) (k := k) ht hok.shared (.inl (.inl (.inl ⟨hne, hb⟩))) with
    ⟨hheld, hnot⟩
  have hsame := (evolves_trans (evolves_mono hkstack.evolves nofun)
    hev2).mem_eq b _ hheld (fun hc => hnot (.inl hc)) hbin
  have hcopied : m4.mem (u + x) = m3.mem (parent.ustackPhys + x) :=
    (hfilled a _ ha hin).trans (memcpy_at _ _ _ _ _ _ hx)
  rw [hcopied, allocatePages_mem hwindowed.stack, hsame]

end

end CortexForge.Sched
