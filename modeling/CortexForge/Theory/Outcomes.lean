import CortexForge.Core.Exec
import CortexForge.Theory.Tasks

/-!
# Outcomes of Task Construction

What the calls that build address spaces can come to, one constructor for each way
out of the function. Each constructor names the machines on the way, so that a
proof about the call is a proof about its outcomes and never looks at the function
again.

`sched_create_task` and `sched_fork` take the same steps. They differ in whether
there is an entry point to be checked, in how the new stack is filled and in what
goes to the new kernel stack, and have a common description.

## Main definitions

* `TaskPlan`: In what the two calls differ.
* `Construction`: The outcomes of creating and of forking a task.
* `KernelConstruction`: Those of creating a kernel task.
* `Growth`: Those of growing a stack.
* `Replacement`: Those of replacing an image.

## Theorems

* `createTask_construction`, `fork_construction`, `createKernelTask_construction`,
  `tryGrowStack_growth`, `loadImage_replacement`: The calls have these outcomes.
-/

namespace CortexForge.Sched

open Mmu Elf Syscall Bool

/-- Memory that has changed in the kernel stack at `k` only. -/
def StackOnly (k : Nat) (mem mem0 : Memory) : Prop :=
  ∀ x, x < k ∨ k + taskStackPages * pageSize ≤ x → mem x = mem0 x

/-- The stack frame of a new task lies in its kernel stack. -/
theorem frame_other (mem : Memory) (k v0 v1 v11 x : Nat)
    (hx : x < k ∨ k + taskStackPages * pageSize ≤ x) :
    storeN (storeN (storeN mem (k + taskStackPages * pageSize - switchFrameSize) 8 v0)
      (k + taskStackPages * pageSize - switchFrameSize + 8) 8 v1)
      (k + taskStackPages * pageSize - switchFrameSize + 88) 8 v11 x = mem x := by
  unfold taskStackPages pageSize switchFrameSize at *
  rw [storeN_other (by omega), storeN_other (by omega),
    storeN_other (by omega)]

/-- The frames of a forked task lie in its kernel stack. -/
theorem forkFrame_other (mem : Memory) (k frame v11 x : Nat)
    (hx : x < k ∨ k + taskStackPages * pageSize ≤ x) :
    storeN (storeN (storeN (storeN
      (memcpy mem (k + taskStackPages * pageSize - trapFrameSize) mem frame trapFrameSize)
      (k + taskStackPages * pageSize - trapFrameSize) 8 0)
      (k + taskStackPages * pageSize - trapFrameSize - switchFrameSize) 8 0)
      (k + taskStackPages * pageSize - trapFrameSize - switchFrameSize + 8) 8 0)
      (k + taskStackPages * pageSize - trapFrameSize - switchFrameSize + 88) 8 v11 x = mem x := by
  unfold taskStackPages pageSize switchFrameSize trapFrameSize at *
  rw [storeN_other (by omega), storeN_other (by omega),
    storeN_other (by omega), storeN_other (by omega),
    memcpy_other (by omega)]

/-- In what the construction of one user task differs from that of another:
    whether the heap has a record for it, whether its entry point lies outside the
    window, what its stack is filled with, and whether it has file descriptors. -/
structure TaskPlan where
  record : Bool
  outside : Prop
  fill : Memory → Nat → Memory
  fds : Bool
  fill_other : ∀ mem u x, x < u ∨ u + userStackPages * pageSize ≤ x → fill mem u x = mem x

/-- The entry point of a task is outside the window on the kernel's text. -/
def EntryOutside (img : KernelImage) (entry : Nat) : Prop :=
  virtToPhys entry < textStartPa img ∨ virtToPhys entry ≥ userTextEndPa img

instance (img : KernelImage) (entry : Nat) : Decidable (EntryOutside img entry) :=
  inferInstanceAs (Decidable (_ ∨ _))

/-- A task with a cleared stack. -/
def createPlan (img : KernelImage) (kmallocOk fdsOk : Bool) (entry : Nat) : TaskPlan where
  record := kmallocOk
  outside := EntryOutside img entry
  fill mem u := memset mem u 0#8 (userStackPages * pageSize)
  fds := fdsOk
  fill_other mem u x hx := memset_other mem u 0#8 _ x hx

/-- A task with a copy of its parent's stack. -/
def forkPlan (kmallocOk fdsOk : Bool) (parent : Task) : TaskPlan where
  record := kmallocOk
  outside := False
  fill mem u := memcpy mem u mem parent.ustackPhys (userStackPages * pageSize)
  fds := fdsOk
  fill_other _ _ _ hx := memcpy_other hx

variable {σ : Type} (src : Pages σ) (img : KernelImage)

/-- There is a kernel stack at `k`, and the tables at `r` have been asked for. -/
structure Begun (plan : TaskPlan) (m mk : Machine σ) (k : Nat) (m1 : Machine σ) (r : Nat) :
    Prop where
  record : plan.record = true
  kstack : zeroedPages src m taskStackPages = (mk, k)
  kstack_ne : k ≠ 0
  tables : mmuCreateUserTables src mk = (m1, r)

/-- The window is mapped in the tables at `r`, and the stack at `u` has been asked
    for. -/
structure Windowed (plan : TaskPlan) (m mk : Machine σ) (k : Nat) (m1 : Machine σ) (r : Nat)
    (m2 m3 : Machine σ) (u : Nat) : Prop where
  begun : Begun src plan m mk k m1 r
  root_ne : r ≠ 0
  inside : ¬ plan.outside
  window : mmuMapUserRange src m1 r userTextBase (textStartPa img) (textPages img) textFlags = m2
  stack : allocatePages src m2 userStackPages = (m3, u)

/-- The stack is mapped, and `mem` is memory with the frames on the kernel
    stack. -/
structure Stacked (plan : TaskPlan) (m mk : Machine σ) (k : Nat) (m1 : Machine σ) (r : Nat)
    (m2 m3 : Machine σ) (u : Nat) (m4 : Machine σ) (mem : Memory) : Prop where
  windowed : Windowed src img plan m mk k m1 r m2 m3 u
  stack_ne : u ≠ 0
  mapped : mmuMapUserRange src { m3 with mem := plan.fill m3.mem u } r ustackUserBase u
    userStackPages stackFlags = m4
  frames : StackOnly k mem m4.mem

/-- The outcomes of constructing a user task. An entry point outside the window is
    noticed when the tables exist, and of those the first is given back. -/
inductive Construction (plan : TaskPlan) (s : Sched σ) : Sched σ × Int → Prop
  | noRecord (hrecord : plan.record = false) : Construction plan s (s, -1)
  | noStack {mk : Machine σ} (hrecord : plan.record = true)
      (hkstack : zeroedPages src s.machine taskStackPages = (mk, 0)) :
      Construction plan s ({ s with machine := mk }, -1)
  | noTables {mk m1 : Machine σ} {k : Nat} (h : Begun src plan s.machine mk k m1 0) :
      Construction plan s ({ s with machine := freePages src m1 k taskStackPages }, -1)
  | outside {mk m1 : Machine σ} {k r : Nat} (h : Begun src plan s.machine mk k m1 r)
      (hr : r ≠ 0) (hout : plan.outside) :
      Construction plan s
        ({ s with machine := freePages src (freePages src m1 r 1) k taskStackPages }, -1)
  | noUserStack {mk m1 m2 m3 : Machine σ} {k r : Nat}
      (h : Windowed src img plan s.machine mk k m1 r m2 m3 0) :
      Construction plan s
        ({ s with machine := freePages src (mmuFreeUserTables src m3 r) k taskStackPages }, -1)
  | made {mk m1 m2 m3 m4 : Machine σ} {k r u : Nat} {mem : Memory} {t : Task}
      (h : Stacked src img plan s.machine mk k m1 r m2 m3 u m4 mem)
      (ht : holdings t = ⟨k, ttbrPack r s.nextAsid, u, [], [], plan.fds⟩) :
      Construction plan s
        ({ s with
            machine := { m4 with mem := mem }
            queue := s.queue ++ [t]
            nextPid := wrap64 (s.nextPid + 1)
            nextAsid := (schedAsidAlloc s.nextAsid).2 }, pidResult s.nextPid)

section

variable {src} {img}

/-- Cleared pages are handed out first. -/
theorem zeroedPages_eq {m m1 : Machine σ} {n u : Nat} (hcall : zeroedPages src m n = (m1, u)) :
    ∃ m0, allocatePages src m n = (m0, u) ∧ (u = 0 → m1 = m0) ∧
      (u ≠ 0 → m1 = { m0 with mem := memset m0.mem u 0#8 (n * pageSize) }) := by
  unfold zeroedPages at hcall
  rcases halloc : allocatePages src m n with ⟨m0, u0⟩
  rw [halloc] at hcall
  simp only at hcall
  split_ifs at hcall with hzero <;> rw [Prod.mk.injEq] at hcall
  · refine ⟨m0, by rw [hzero, hcall.2], fun _ => hcall.1.symm, fun hc => absurd hcall.2.symm hc⟩
  · rw [← hcall.2]
    exact ⟨m0, rfl, fun hc => absurd hc hzero, fun _ => hcall.1.symm⟩

theorem createTask_construction (s : Sched σ) (kmallocOk fdsOk : Bool) (entry : Nat) :
    Construction src img (createPlan img kmallocOk fdsOk entry) s
      (schedCreateTask src img s kmallocOk fdsOk entry) := by
  unfold schedCreateTask
  rcases hkstack : zeroedPages src s.machine taskStackPages with ⟨mk, k⟩
  rcases htables : mmuCreateUserTables src mk with ⟨m1, r⟩
  rcases hzeroed : zeroedPages src (mmuMapUserRange src m1 r userTextBase (textStartPa img)
    (textPages img) textFlags) userStackPages with ⟨mz, u⟩
  rcases zeroedPages_eq hzeroed with ⟨m3, halloc, hrefused, hfilled⟩
  simp only [htables, hzeroed]
  split_ifs with hrecord hk hr hout hu
  · exact .noRecord hrecord
  · exact .noStack (of_not_eq_false hrecord) (hk ▸ hkstack)
  all_goals
    have hbegun : Begun src (createPlan img kmallocOk fdsOk entry) s.machine mk k m1 r :=
      ⟨of_not_eq_false hrecord, hkstack, hk, htables⟩
  · exact .noTables (hr ▸ hbegun)
  · exact .outside hbegun hr hout
  · rw [hrefused hu]
    exact .noUserStack ⟨hbegun, hr, hout, rfl, hu ▸ halloc⟩
  · rw [hfilled hu]
    exact .made ⟨⟨hbegun, hr, hout, rfl, halloc⟩, hu, rfl, fun x hx => frame_other _ k _ _ _ x hx⟩
      rfl

theorem fork_construction (s : Sched σ) (kmallocOk fdsOk : Bool) (parent : Task) (frame : Nat) :
    Construction src img (forkPlan kmallocOk fdsOk parent) s
      (schedFork src img s kmallocOk fdsOk parent frame) := by
  unfold schedFork
  rcases hkstack : zeroedPages src s.machine taskStackPages with ⟨mk, k⟩
  rcases htables : mmuCreateUserTables src mk with ⟨m1, r⟩
  rcases halloc : allocatePages src (mmuMapUserRange src m1 r userTextBase (textStartPa img)
    (textPages img) textFlags) userStackPages with ⟨m3, u⟩
  simp only [htables, halloc]
  split_ifs with hrecord hk hr hu
  · exact .noRecord hrecord
  · exact .noStack (of_not_eq_false hrecord) (hk ▸ hkstack)
  all_goals
    have hbegun : Begun src (forkPlan kmallocOk fdsOk parent) s.machine mk k m1 r :=
      ⟨of_not_eq_false hrecord, hkstack, hk, htables⟩
  · exact .noTables (hr ▸ hbegun)
  · exact .noUserStack ⟨hbegun, hr, not_false, rfl, hu ▸ halloc⟩
  · exact .made ⟨⟨hbegun, hr, not_false, rfl, halloc⟩, hu, rfl,
      fun x hx => forkFrame_other _ k _ _ x hx⟩ rfl

end

/-- The outcomes of constructing a kernel task. -/
inductive KernelConstruction (record : Bool) (s : Sched σ) : Sched σ × Int → Prop
  | noRecord (hrecord : record = false) : KernelConstruction record s (s, -1)
  | noStack {mk : Machine σ} (hrecord : record = true)
      (hkstack : zeroedPages src s.machine taskStackPages = (mk, 0)) :
      KernelConstruction record s ({ s with machine := mk }, -1)
  | made {mk : Machine σ} {k : Nat} {mem : Memory} {t : Task} (hrecord : record = true)
      (hkstack : zeroedPages src s.machine taskStackPages = (mk, k)) (hk : k ≠ 0)
      (hmem : StackOnly k mem mk.mem)
      (ht : holdings t = ⟨k, 0, 0, [], [], false⟩) :
      KernelConstruction record s
        ({ s with
            machine := { mk with mem := mem }
            queue := s.queue ++ [t]
            nextPid := wrap64 (s.nextPid + 1) }, pidResult s.nextPid)

/-- The outcomes of growing the stack of the current task. -/
inductive Growth (s : Sched σ) (far : Nat) : Sched σ × Bool → Prop
  | refused : Growth s far (s, false)
  | noPage {mz : Machine σ} (hpage : zeroedPages src s.machine 1 = (mz, 0)) :
      Growth s far ({ s with machine := mz }, false)
  | grown {t : Task} {rest : List Task} {mz m' : Machine σ} {p : Nat}
      (hcurrent : s.queue = t :: rest) (huser : t.ttbr0 ≠ 0)
      (hfar : ¬ (far < userStackTop - userStackPagesMax * pageSize ∨ far ≥ ustackUserBase))
      (hpage : zeroedPages src s.machine 1 = (mz, p)) (hp : p ≠ 0)
      (hmap : mmuMapUserRange src mz (ttbrBaddr t.ttbr0) (far / pageSize * pageSize) p 1 stackFlags
        = m') :
      Growth s far
        ({ s with
            machine := m'
            queue := { t with stackGrownPhys := t.stackGrownPhys ++ [p] } :: rest }, true)

section

variable {src} {img}

theorem createKernelTask_construction (s : Sched σ) (kmallocOk : Bool) (entry : Nat) :
    KernelConstruction src kmallocOk s (schedCreateKernelTask src img s kmallocOk entry) := by
  unfold schedCreateKernelTask
  rcases hkstack : zeroedPages src s.machine taskStackPages with ⟨mk, k⟩
  simp only
  split_ifs with hrecord hk
  · exact .noRecord hrecord
  · exact .noStack (of_not_eq_false hrecord) (hk ▸ hkstack)
  · exact .made (of_not_eq_false hrecord) hkstack hk (fun x hx => frame_other _ k _ _ _ x hx) rfl

theorem tryGrowStack_growth (s : Sched σ) (far : Nat) :
    Growth src s far (schedTryGrowStack src s far) := by
  unfold schedTryGrowStack
  rcases hqueue : s.queue with _ | ⟨t, rest⟩
  · exact .refused
  rcases hpage : zeroedPages src s.machine 1 with ⟨mz, p⟩
  simp only [tryGrowStack, hpage]
  split_ifs with huser hfar hmax hp
  · rw [← hqueue]
    exact .refused
  · rw [← hqueue]
    exact .refused
  · rw [← hqueue]
    exact .refused
  · rw [← hqueue]
    exact .noPage (hp ▸ hpage)
  · exact .grown hqueue huser hfar hpage hp rfl

end

/-- The current task may load the file. -/
structure MayLoad (s : Sched σ) (file : Option FileBytes) (cur : Task) (rest : List Task)
    (f : FileBytes) : Prop where
  current : s.queue = cur :: rest
  file_eq : file = some f
  fds : cur.hasFds = true
  size : ¬ (f.size = 0 ∨ f.size > execMaxBytes)

/-- There is a stack at `u`, and the tables at `r` have been asked for. -/
structure Opened (m ms : Machine σ) (u : Nat) (m1 : Machine σ) (r : Nat) : Prop where
  stack : zeroedPages src m userStackPages = (ms, u)
  stack_ne : u ≠ 0
  tables : mmuCreateUserTables src ms = (m1, r)

/-- The outcomes of replacing the image of the current task. -/
inductive Replacement (s : Sched σ) (file : Option FileBytes) (args : ExecArgs) :
    Sched σ × Option Nat → Prop
  | refused (hmay : ∀ cur rest f, ¬ MayLoad s file cur rest f) : Replacement s file args (s, none)
  | noStack {cur : Task} {rest : List Task} {f : FileBytes} {ms : Machine σ}
      (hmay : MayLoad s file cur rest f)
      (hstack : zeroedPages src s.machine userStackPages = (ms, 0)) :
      Replacement s file args ({ s with machine := ms }, none)
  | noTables {cur : Task} {rest : List Task} {f : FileBytes} {ms m1 : Machine σ} {u : Nat}
      (hmay : MayLoad s file cur rest f) (h : Opened src s.machine ms u m1 0) :
      Replacement s file args ({ s with machine := freePages src m1 u userStackPages }, none)
  | notLoaded {cur : Task} {rest : List Task} {f : FileBytes} {ms m1 m2 : Machine σ} {u r : Nat}
      (hmay : MayLoad s file cur rest f) (h : Opened src s.machine ms u m1 r) (hr : r ≠ 0)
      (hload : elfLoad src m1 f.bytes f.size r = (m2, none)) :
      Replacement s file args
        ({ s with machine := freePages src (mmuFreeUserTables src m2 r) u userStackPages }, none)
  | replaced {cur new : Task} {rest : List Task} {f : FileBytes} {ms m1 m2 m3 : Machine σ}
      {u r : Nat} {image : ElfImage}
      (hmay : MayLoad s file cur rest f) (h : Opened src s.machine ms u m1 r) (hr : r ≠ 0)
      (hload : elfLoad src m1 f.bytes f.size r = (m2, some image))
      (hmap : mmuMapUserRange src m2 r ustackUserBase u userStackPages stackFlags = m3)
      (hnew : new = { cur with
        ttbr0 := ttbrPack r s.nextAsid
        ustackPhys := u
        userSp := userStackTop
        execImage := image }) :
      Replacement s file args
        ({ s with
            machine := freeOldImage src { m3 with mem := writeArgs m3.mem u args.strings } cur
            queue := new :: rest
            nextAsid := (schedAsidAlloc s.nextAsid).2
            ttbr0El1 := ttbrPack r s.nextAsid }, some image.entry)

variable {src} in
theorem loadImage_replacement (s : Sched σ) (file : Option FileBytes) (args : ExecArgs) :
    Replacement src s file args (loadImage src s file args) := by
  unfold loadImage
  rcases hqueue : s.queue with _ | ⟨cur, rest⟩
  · refine .refused fun cur rest f hmay => ?_
    exact absurd (hqueue.symm.trans hmay.current) (List.cons_ne_nil cur rest).symm
  rcases file with _ | f
  · exact .refused fun cur rest f hmay => absurd hmay.file_eq.symm (Option.some_ne_none f)
  have hunique : ∀ cur' rest' f', MayLoad s (some f) cur' rest' f' → cur' = cur ∧ f' = f := by
    intro cur' rest' f' hmay
    have hcons := hqueue.symm.trans hmay.current
    rw [List.cons.injEq] at hcons
    exact ⟨hcons.1.symm, (Option.some.inj hmay.file_eq).symm⟩
  rcases hstack : zeroedPages src s.machine userStackPages with ⟨ms, u⟩
  rcases htables : mmuCreateUserTables src ms with ⟨m1, r⟩
  simp only [htables, ← hqueue]
  split_ifs with hfds hsize hu hr
  · refine .refused fun cur' rest' f' hmay => ?_
    have htrue := hmay.fds
    rw [(hunique cur' rest' f' hmay).1, hfds] at htrue
    exact false_ne_true htrue
  · refine .refused fun cur' rest' f' hmay => hmay.size ?_
    rw [(hunique cur' rest' f' hmay).2]
    exact hsize
  all_goals
    have hmay : MayLoad s (some f) cur rest f := ⟨hqueue, rfl, of_not_eq_false hfds, hsize⟩
  · exact .noStack hmay (hu ▸ hstack)
  · exact .noTables hmay ⟨hstack, hu, hr ▸ htables⟩
  · rcases hload : elfLoad src m1 f.bytes f.size r with ⟨m2, _ | image⟩
    · exact .notLoaded hmay ⟨hstack, hu, htables⟩ hr hload
    · exact .replaced hmay ⟨hstack, hu, htables⟩ hr hload rfl rfl

end CortexForge.Sched
