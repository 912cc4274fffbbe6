import CortexForge.Theory.Calls
import CortexForge.Theory.Isolation
import CortexForge.Theory.SparePages

/-!
# Address Space Numbers

Whether the user tasks on the run queue have different address space numbers, so
that a translation cached for one of them is never used for another.

Numbers are handed out by a counter of 16 bits that skips 0. Nobody looks at the
numbers in use, and no number is given back: after 65535 of them the counter is
back at the first. What keeps numbers apart is that the tasks that had them are
gone by then. The condition is put on each call that takes a number: no task that
keeps its own number has the one the counter stands at. Along runs that meet it
numbers are different, and the first call that does not meet it makes two of them
equal.

## Main definitions

* `asids`, `AsidsUnique`: The numbers of the user tasks on the queue.
* `SchedCall.AsidFree`: The condition on a call.

## Theorems

* `asids_unique_iff`: Numbers are different as long as the condition is met.
* `asid_reused`: A run after which two tasks have one number.
-/

namespace CortexForge.Sched

open Mmu Elf Syscall Traced Relation List

variable {σ : Type} (src : Pages σ) (img : KernelImage)

/-- The address space numbers in some base registers; 0 means no tables. -/
def asidsIn (bs : List Nat) : List Nat := (bs.filter (· ≠ 0)).map ttbrAsid

/-- The address space numbers of the user tasks on the queue. -/
def asids (s : Sched σ) : List Nat := asidsIn (bases s.queue)

/-- The user tasks on the queue have different numbers, none of them 0. -/
structure AsidsUnique (s : Sched σ) : Prop where
  nodup : (asids s).Nodup
  nonzero : 0 ∉ asids s

/-- The tasks that have the same number after the call as before it. -/
def SchedCall.others (s : Sched σ) : SchedCall σ → List Task
  | .exec _ _ => s.queue.tail
  | _ => s.queue

/-- The number that the counter stands at is not in use by another task. -/
def SchedCall.AsidFree (s : Sched σ) (c : SchedCall σ) : Prop :=
  s.nextAsid ∉ asidsIn (bases (c.others s))

/-- A call that takes no number, or a number that is free. -/
def FreshStep (s s' : Sched σ) : Prop :=
  ∃ c : SchedCall σ, s' = value (c.run src img s) ∧ (s'.nextAsid ≠ s.nextAsid → c.AsidFree s)

section

theorem ttbrAsid_pack (l0 asid : Nat) : ttbrAsid (ttbrPack l0 asid) = asid := by
  unfold ttbrAsid ttbrPack
  omega

/-- The counter stays among the numbers that are handed out, and moves. -/
theorem schedAsidAlloc_next {asid : Nat} (hlt : asid < 2 ^ 16) :
    (schedAsidAlloc asid).2 ≠ 0 ∧ (schedAsidAlloc asid).2 < 2 ^ 16 ∧
      (schedAsidAlloc asid).2 ≠ asid := by
  unfold schedAsidAlloc
  simp only
  split <;> omega

theorem asidsIn_append (bs cs : List Nat) : asidsIn (bs ++ cs) = asidsIn bs ++ asidsIn cs := by
  unfold asidsIn
  simp

theorem asidsIn_pack (l0 : Nat) {asid : Nat} (hasid : asid ≠ 0) :
    asidsIn [ttbrPack l0 asid] = [asid] := by
  unfold asidsIn
  rw [filter_singleton, decide_eq_true (by unfold ttbrPack; omega)]
  exact congrArg (fun a => [a]) (ttbrAsid_pack l0 asid)

/-- Fewer tasks have fewer numbers. -/
theorem asidsIn_subperm {bs cs : List Nat} (h : bs.Subperm cs) :
    (asidsIn bs).Subperm (asidsIn cs) := by
  rcases h.filter (· ≠ 0) with ⟨l, hperm, hsub⟩
  exact ⟨l.map ttbrAsid, hperm.map _, hsub.map _⟩

theorem unique_of_subperm {bs cs : List Nat} (hsub : bs.Subperm cs) (hnodup : (asidsIn cs).Nodup)
    (hnonzero : 0 ∉ asidsIn cs) : (asidsIn bs).Nodup ∧ 0 ∉ asidsIn bs := by
  rcases asidsIn_subperm hsub with ⟨l, hperm, hle⟩
  exact ⟨hperm.nodup_iff.mp (hnodup.sublist hle), fun hc =>
    hnonzero (hle.subset (hperm.mem_iff.mpr hc))⟩

end

section

variable {src} {img} {s s' : Sched σ}

theorem asidsUnique_subperm (h : AsidsUnique s) (hsub : (bases s'.queue).Subperm (bases s.queue)) :
    AsidsUnique s' := by
  rcases unique_of_subperm hsub h.nodup h.nonzero with ⟨hnodup, hnonzero⟩
  exact ⟨hnodup, hnonzero⟩

/-- A task with the number `asid` beside the base registers `bs`. -/
theorem asidsUnique_insert (s' : Sched σ) {bs : List Nat} {asid : Nat} (l0 : Nat)
    (hasid : asid ≠ 0) (hnodup : (asidsIn bs).Nodup) (hnonzero : 0 ∉ asidsIn bs)
    (hqueue : (bases s'.queue).Perm (ttbrPack l0 asid :: bs)) :
    AsidsUnique s' ↔ asid ∉ asidsIn bs := by
  have hperm : (asids s').Perm (asid :: asidsIn bs) := by
    have hcons : asidsIn (ttbrPack l0 asid :: bs) = asid :: asidsIn bs := by
      rw [← singleton_append, asidsIn_append, asidsIn_pack l0 hasid]
      rfl
    exact hcons ▸ (hqueue.filter _).map _
  constructor
  · intro h
    exact (nodup_cons.mp (hperm.nodup_iff.mp h.nodup)).1
  · intro hfresh
    refine ⟨hperm.nodup_iff.mpr (nodup_cons.mpr ⟨hfresh, hnodup⟩), fun hc => ?_⟩
    rcases mem_cons.mp (hperm.mem_iff.mp hc) with hzero | hmem
    · exact hasid hzero.symm
    · exact hnonzero hmem

/-- The counter stands at a number that may be handed out, and the numbers in use
    are different. -/
structure AsidsOk (s : Sched σ) : Prop where
  unique : AsidsUnique s
  next_ne_zero : s.nextAsid ≠ 0
  next_lt : s.nextAsid < 2 ^ 16

theorem asidsOk_keeps (h : AsidsOk s) (hsub : (bases s'.queue).Subperm (bases s.queue))
    (hasid : s'.nextAsid = s.nextAsid) : AsidsOk s' :=
  ⟨asidsUnique_subperm h.unique hsub, hasid ▸ h.next_ne_zero, hasid ▸ h.next_lt⟩

/-- After a call numbers are different if and only if it takes no number, or one
    that is free; the counter may be handed out either way. -/
theorem asids_call (h : AsidsOk s) (c : SchedCall σ) :
    (AsidsUnique (value (c.run src img s)) ↔
      ((value (c.run src img s)).nextAsid ≠ s.nextAsid → c.AsidFree s)) ∧
    (value (c.run src img s)).nextAsid ≠ 0 ∧ (value (c.run src img s)).nextAsid < 2 ^ 16 := by
  have heffect := @schedCall_effect σ src img c s
  generalize value (c.run src img s) = s' at heffect
  have hmoved := schedAsidAlloc_next h.next_lt
  cases heffect with
  | keeps _ _ queue asid _ =>
    have hok := asidsOk_keeps h queue asid
    exact ⟨⟨fun _ hne => absurd asid hne, fun _ => hok.unique⟩, hok.next_ne_zero, hok.next_lt⟩
  | reaps _ tasks asid _ =>
    have hsub : (bases s'.queue).Subperm (bases s.queue) := by
      refine List.Subperm.trans ?_ tasks.symm.subperm
      exact ((sublist_append_left _ _).map _).subperm
    have hok := asidsOk_keeps h hsub asid
    exact ⟨⟨fun _ hne => absurd asid hne, fun _ => hok.unique⟩, hok.next_ne_zero, hok.next_lt⟩
  | kernelTask _ queue _ asid _ =>
    have hsame : asids s' = asids s := by
      unfold asids
      rw [queue, asidsIn_append]
      exact append_nil _
    have hunique : AsidsUnique s' := ⟨hsame ▸ h.unique.nodup, hsame ▸ h.unique.nonzero⟩
    exact ⟨⟨fun _ hne => absurd asid hne, fun _ => hunique⟩, asid ▸ h.next_ne_zero,
      asid ▸ h.next_lt⟩
  | userTask _ l0 _ call queue _ asid _ =>
    have hothers : c.others s = s.queue := by
      cases c with
      | exec file args => exact absurd rfl (call file args)
      | _ => rfl
    have hinsert := asidsUnique_insert s' l0 h.next_ne_zero h.unique.nodup h.unique.nonzero
      (queue ▸ perm_append_singleton _ _)
    refine ⟨?_, asid ▸ hmoved.1, asid ▸ hmoved.2.1⟩
    rw [hinsert, SchedCall.AsidFree, hothers]
    exact ⟨fun hfree _ => hfree, fun hfree => hfree (asid ▸ hmoved.2.2)⟩
  | image _ l0 _ call t rest old queue _ asid _ =>
    have hothers : c.others s = rest := by
      rcases call with ⟨file, args, rfl⟩
      simp [SchedCall.others, old]
    have hsub : (bases rest).Subperm (bases s.queue) := by
      rw [old]
      exact ((sublist_cons_self t rest).map _).subperm
    rcases unique_of_subperm hsub h.unique.nodup h.unique.nonzero with ⟨hnodup, hnonzero⟩
    have hinsert := asidsUnique_insert s' l0 h.next_ne_zero hnodup hnonzero
      (List.Perm.of_eq queue)
    refine ⟨?_, asid ▸ hmoved.1, asid ▸ hmoved.2.1⟩
    rw [hinsert, SchedCall.AsidFree, hothers]
    exact ⟨fun hfree _ => hfree, fun hfree => hfree (asid ▸ hmoved.2.2)⟩

/-- The numbers are in order along every run that meets the condition. -/
theorem asidsOk_run {m : Machine σ}
    (hrun : ReflTransGen (FreshStep src img) (schedInit m) s) : AsidsOk s := by
  induction hrun with
  | refl => exact ⟨⟨nodup_nil, not_mem_nil⟩, Nat.one_ne_zero, show 1 < 2 ^ 16 by decide⟩
  | tail _ hstep ih =>
    rcases hstep with ⟨c, rfl, hfree⟩
    rcases asids_call ih c with ⟨hiff, hne, hlt⟩
    exact ⟨hiff.mpr hfree, hne, hlt⟩

end

/-- In every state of a run whose calls take numbers that are free, user tasks
    have different numbers; and after one more call they do if and only if that
    call takes a free one. -/
theorem asids_unique_iff (m : Machine σ) (s : Sched σ)
    (hrun : ReflTransGen (FreshStep src img) (schedInit m) s) :
    AsidsUnique s ∧ ∀ c : SchedCall σ, AsidsUnique (value (c.run src img s)) ↔
      ((value (c.run src img s)).nextAsid ≠ s.nextAsid → c.AsidFree s) := by
  have hok := asidsOk_run hrun
  exact ⟨hok.unique, fun c => (asids_call hok c).1⟩

/-- Two user tasks, created one after the other. -/
theorem asids_unique_two : AsidsUnique twoTasks := by
  have hone : FreshStep Pmm.pmmSource bootImage (schedInit bootMachine) oneTask :=
    ⟨.createTask true true bootImage.textStart, (schedCreateTaskTraced_value _ _ _ _).symm,
      fun _ => not_mem_nil⟩
  have htwo : FreshStep Pmm.pmmSource bootImage oneTask twoTasks :=
    ⟨.createTask true true bootImage.textStart, (schedCreateTaskTraced_value _ _ _ _).symm,
      fun _ => by unfold SchedCall.AsidFree; decide⟩
  exact (asids_unique_iff Pmm.pmmSource bootImage bootMachine twoTasks
    ((ReflTransGen.single hone).tail htwo)).1

section

/-- Eight GiB of cleared memory behind the kernel. -/
def largePmm : Pmm.Allocator :=
  ⟨Pmm.pmmInit 0x40000800 (fun _ => 0) 0x40000000 0x200000000,
    ⟨Pmm.pmmInit_ok (by decide) (by decide) (by decide) (by decide) (by decide),
      by decide⟩⟩

def largeMachine : PmmMachine :=
  { mem := fun _ => 0#8, pmm := largePmm, sigtrampPhys := 0, refused := 0 }

theorem largeMachine_spare : Spare largeMachine (28 * 65536) :=
  ⟨by decide, Pmm.spare_mono (Pmm.spare_init 0x40000800 (fun _ => 0) 0x40000000 0x200000000)
    (by decide)⟩

/-- The idle task at boot. -/
def idleTask : Task := { isIdle := true, pid := 0, state := .ready }

/-- The first user task besides the idle task, when `k` others have come and
    gone. -/
structure Lone (a : Task) (k : Nat) (s : Sched Pmm.Allocator) : Prop where
  queue : s.queue = [idleTask, a]
  dead : s.deadList = []
  pid : s.nextPid = k + 2
  asid : s.nextAsid = (k + 1) % 65535 + 1
  spare : Spare s.machine (28 * (65535 - k))

variable {s : Sched Pmm.Allocator} {a : Task} {k : Nat}

theorem bootImage_window : textStartPa bootImage ≤ virtToPhys bootImage.textStart ∧
    virtToPhys bootImage.textStart < userTextEndPa bootImage := by decide

/-- The last task of the queue is found by its number, if no other has it. -/
theorem schedKillTask_last {t : Task} (ha : a.pid = 1) (ht : t.pid = k + 2)
    (hidle : t.isIdle = false) (hready : t.state = .ready)
    (hqueue : s.queue = [idleTask, a, t]) (sp : Nat) :
    (schedKillTask Pmm.pmmSource s (k + 2) sp).1
      = { s with
          queue := [idleTask, a]
          deadList := { t with state := .dead } :: s.deadList } := by
  have hat : a ≠ t := fun hc => by rw [hc] at ha; omega
  have hit : idleTask ≠ t := fun hc => by
    rw [← hc] at hidle
    exact absurd hidle (by decide)
  have hfind : schedFindTask s (k + 2) = some t := by
    unfold schedFindTask fromIdle
    rw [hqueue, dropWhile_cons_of_neg (by decide), takeWhile_cons_of_neg (by decide),
      append_nil, find?_cons_of_neg (by simp [idleTask]),
      find?_cons_of_neg (by simp [ha]), find?_cons_of_pos (by simp [ht])]
  unfold schedKillTask
  rw [if_neg (by omega), hfind]
  simp only
  rw [hready, hqueue, if_neg (by decide), head?_cons,
    if_neg (fun hc => hit (Option.some.inj hc)),
    erase_cons_tail (by simpa using hit), erase_cons_tail (by simpa using hat),
    erase_cons_head]

/-- Another task comes and goes. -/
theorem lone_round (ha : a.pid = 1) (h : Lone a k s) (hk : k < 65534) :
    ∃ s', ReflTransGen (SchedStep Pmm.pmmSource bootImage) s s' ∧ Lone a (k + 1) s' := by
  have hcost : createCost bootImage = 28 := by decide
  rcases createTask_spare bootImage s true bootImage.textStart h.spare (by omega)
    bootImage_window with ⟨m, t, l0, hidle, hready, hpid, _, hspare, hcreate⟩
  have hkill := schedKillTask_last ha (hpid.trans h.pid) hidle hready
    (s := (schedCreateTask Pmm.pmmSource bootImage s true true bootImage.textStart).1)
    (by rw [hcreate, h.queue]; rfl) 0
  refine ⟨schedReap Pmm.pmmSource _, ((ReflTransGen.single
    (.createTask s true true bootImage.textStart)).tail (.kill _ (k + 2) 0)).tail (.reap _), ?_⟩
  rw [hkill, hcreate]
  refine ⟨rfl, rfl, ?_, ?_, ?_⟩
  · rw [show k + 1 + 2 = s.nextPid + 1 by rw [h.pid]]
    exact Nat.mod_eq_of_lt (by rw [h.pid]; omega)
  · show (schedAsidAlloc s.nextAsid).2 = _
    rw [h.asid]
    unfold schedAsidAlloc
    simp only
    split <;> omega
  · rw [h.dead]
    exact spare_le (spare_reapTask hspare _) (by omega)

/-- As many tasks as there are further numbers come and go. -/
theorem lone_rounds (ha : a.pid = 1) (h : Lone a 0 s) (k : Nat) (hk : k ≤ 65534) :
    ∃ s', ReflTransGen (SchedStep Pmm.pmmSource bootImage) s s' ∧ Lone a k s' := by
  induction k with
  | zero => exact ⟨s, ReflTransGen.refl, h⟩
  | succ k ih =>
    rcases ih (by omega) with ⟨s1, hrun, hlone⟩
    rcases lone_round ha hlone (by omega) with ⟨s2, hround, hlone'⟩
    exact ⟨s2, hrun.trans hround, hlone'⟩

/-- A run after which two user tasks on the queue have the same number: the first
    task stays, 65534 others are created, killed and reaped one after the other,
    and then one more is created. -/
theorem asid_reused : ∃ s,
    ReflTransGen (SchedStep Pmm.pmmSource bootImage) (schedInit largeMachine) s ∧
      asids s = [1, 1] := by
  have hcost : createCost bootImage = 28 := by decide
  rcases createTask_spare bootImage (schedInit largeMachine) true bootImage.textStart
    largeMachine_spare (by omega) bootImage_window with
    ⟨m, a, l0, _, _, hpid, hbase, hspare, hcreate⟩
  have hlone : Lone a 0
      (schedCreateTask Pmm.pmmSource bootImage (schedInit largeMachine) true true
        bootImage.textStart).1 := by
    rw [hcreate]
    exact ⟨rfl, rfl, rfl, rfl, spare_le hspare (by omega)⟩
  rcases lone_rounds hpid hlone 65534 (Nat.le_refl _) with ⟨s, hrun, hend⟩
  rcases createTask_spare bootImage s true bootImage.textStart hend.spare (by omega)
    bootImage_window with ⟨m', b, l0', _, _, _, hbase', _, hcreate'⟩
  refine ⟨_, ((ReflTransGen.single
    (.createTask _ true true bootImage.textStart)).trans hrun).tail
    (.createTask s true true bootImage.textStart), ?_⟩
  have hlast : s.nextAsid = 1 := hend.asid
  have hbases : bases (s.queue ++ [b]) = [0] ++ ([a.ttbr0] ++ [b.ttbr0]) := by
    rw [hend.queue]
    rfl
  have hfirst : a.ttbr0 = ttbrPack l0 1 := hbase
  rw [hlast] at hbase'
  rw [hcreate', asids, hbases, hfirst, hbase', asidsIn_append, asidsIn_append,
    asidsIn_pack l0 Nat.one_ne_zero, asidsIn_pack l0' Nat.one_ne_zero]
  rfl

end

end CortexForge.Sched
