import CortexForge.Core.Sched
import CortexForge.Theory.Elf

/-!
# What Tasks Hold

The pages of tasks and the invariant on them. A task holds its kernel stack, the
pages of its image, the pages its stack grew by, and the tables of its address
space. `TaskOk` says that each of these pages is held and has the role that goes
with it, and what the leaves of the address space may be. `SysOk` asks this of
every task, and that no two tasks share a kernel stack or an address space.

Roles then keep tasks apart: the role of a page names the task or the address
space it belongs to, so a page of one task is never a page of another
(`taskPage_apart`).

The invariant speaks of a list of `Holdings` rather than of tasks. States and
priorities play no part in it, and neither does the order of the list.

The last condition of `TaskOk` says what a task sees whose image was never
replaced and whose stack never grew, as long as no allocation was refused.

## Main definitions

* `Holdings`: What the pages of a task are reached from.
* `TaskPage`: A page of a task.
* `plainMap`: The address space tasks start with.
* `TaskOk`, `SysOk`: The invariant.

## Theorems

* `taskOk_frame`: A task that is left alone.
* `sysOk_evolves`, `sysOk_frees`, `sysOk_perm`: Ways the invariant is kept.
* `sysOk_cons`: A new task.
* `reapTask_frees`: What reaping gives back.
-/

namespace CortexForge

namespace Sched

open Mmu Elf List

/-- What the pages of a task are reached from, and whether it has a table of file
    descriptors. -/
structure Holdings where
  stackPhys : Nat
  ttbr0 : Nat
  ustackPhys : Nat
  regions : List ElfRegion
  grown : List Nat
  hasFds : Bool

def holdings (t : Task) : Holdings :=
  ⟨t.stackPhys, t.ttbr0, t.ustackPhys, t.execImage.regions, t.stackGrownPhys, t.hasFds⟩

namespace Holdings

/-- The first table of the task's address space. -/
def root (h : Holdings) : Nat := ttbrBaddr h.ttbr0

/-- A page of the kernel stack. -/
def KstackPage (h : Holdings) (a : Nat) : Prop :=
  h.stackPhys ≠ 0 ∧ InRun h.stackPhys taskStackPages a

/-- A page of the image: the stack it started with, or a loaded segment. -/
def ImagePage (h : Holdings) (a : Nat) : Prop :=
  (h.ustackPhys ≠ 0 ∧ InRun h.ustackPhys userStackPages a) ∨ RegionPage h.regions a

/-- A page that was allocated for the task's own use. -/
def OwnPage (h : Holdings) (a : Nat) : Prop := h.ImagePage a ∨ a ∈ h.grown

/-- The tasks have neither a kernel stack nor an address space in common. -/
def Apart (h k : Holdings) : Prop :=
  (h.stackPhys ≠ 0 → k.stackPhys ≠ 0 → h.stackPhys ≠ k.stackPhys) ∧
  (h.ttbr0 ≠ 0 → k.ttbr0 ≠ 0 → h.root ≠ k.root)

theorem apart_symm {h k : Holdings} (hk : h.Apart k) : k.Apart h :=
  ⟨fun h1 h2 heq => hk.1 h2 h1 heq.symm, fun h1 h2 heq => hk.2 h2 h1 heq.symm⟩

/-- A role of the task's pages. -/
def TaskRole (h : Holdings) (ρ : Role) : Prop :=
  (h.stackPhys ≠ 0 ∧ (ρ = .kstack h.stackPhys ∨ ρ = .grown h.stackPhys)) ∨
  (h.ttbr0 ≠ 0 ∧ (ρ = .data h.root ∨ TableOf h.root ρ))

/-- A role belongs to one task. -/
theorem taskRole_apart {h k : Holdings} {ρ : Role} (hh : h.TaskRole ρ) (hk : k.TaskRole ρ) :
    ¬ h.Apart k := by
  rintro ⟨hstack, hroot⟩
  rcases hh with ⟨hs, rfl | rfl⟩ | ⟨hu, rfl | ⟨path, rfl⟩⟩ <;>
    rcases hk with ⟨ks, heq | heq⟩ | ⟨ku, heq | ⟨path', heq⟩⟩ <;>
    first
      | exact Role.noConfusion heq
      | injection heq with heq
  · exact hstack hs ks heq
  · exact hstack hs ks heq
  · exact hroot hu ku heq
  · exact hroot hu ku heq

end Holdings

open Holdings

section

variable (img : KernelImage)

/-- A page of the window on the kernel's text. -/
def TextPage (a : Nat) : Prop := InRun (textStartPa img) (textPages img) a

/-- The window is a run of whole pages of physical memory. -/
theorem textPages_spec : textStartPa img % pageSize = 0 ∧
    textStartPa img + textPages img * pageSize ≤ physLimit := by
  have h1 := img.start_mapped
  have h2 := img.start_le_end
  have h3 := img.end_mapped
  have h4 := img.start_aligned
  have h5 := img.end_aligned
  unfold textPages userTextEndPa textStartPa virtToPhys sub64 wrap64 kernelVaOffset physLimit
    pageSize at *
  omega

/-- What an address maps to in an address space with the window on the kernel's
    text and the trampoline. -/
def windowMap (tramp v : Nat) : Option (BitVec 64) :=
  if userTextBase / pageSize ≤ v / pageSize ∧
      v / pageSize < userTextBase / pageSize + textPages img then
    some (leafEntry (textStartPa img + (v / pageSize - userTextBase / pageSize) * pageSize)
      textFlags)
  else if v / pageSize = userSigtrampVa / pageSize then some (leafEntry tramp textFlags)
  else none

/-- What an address maps to in the address space a task starts with. The stack is
    mapped last. -/
def plainMap (tramp ustack v : Nat) : Option (BitVec 64) :=
  if ustackUserBase / pageSize ≤ v / pageSize ∧
      v / pageSize < ustackUserBase / pageSize + userStackPages then
    some (leafEntry (ustack + (v / pageSize - ustackUserBase / pageSize) * pageSize) stackFlags)
  else windowMap img tramp v

end

variable {σ : Type} (src : Pages σ) (img : KernelImage)

/-- A page that every address space may map. -/
def SharedPage (m : Machine σ) (a : Nat) : Prop :=
  TextPage img a ∨ m.sigtrampPhys ≠ 0 ∧ a = m.sigtrampPhys

/-- A page of the task, its tables included. -/
def TaskPage (m : Machine σ) (h : Holdings) (a : Nat) : Prop :=
  h.KstackPage a ∨ h.OwnPage a ∨ h.ttbr0 ≠ 0 ∧ TablePage m.mem h.root a

/-- The pages of a task have their roles, and its address space is in order. -/
structure TaskOk (m : Machine σ) (role : Roles) (h : Holdings) : Prop where
  kstack : ∀ a, h.KstackPage a → role a = .kstack h.stackPhys ∧ src.Held m.pmm a
  image : ∀ a, h.ImagePage a → role a = .data h.root ∧ src.Held m.pmm a
  grown : ∀ a ∈ h.grown, role a = .grown h.stackPhys ∧ src.Held m.pmm a
  kernel : h.ttbr0 = 0 →
    h.ustackPhys = 0 ∧ h.regions = [] ∧ h.grown = [] ∧ h.hasFds = false
  user : h.ttbr0 ≠ 0 → h.stackPhys ≠ 0 ∧ SpaceOk src m role h.root ∧
    LeavesOk h.OwnPage (SharedPage img m) m.mem h.root
  plain : m.refused = 0 → h.ttbr0 ≠ 0 → h.regions = [] → h.grown = [] →
    m.sigtrampPhys ≠ 0 ∧ ∀ v, v < 2 ^ 48 →
      translate m.mem h.root v = plainMap img m.sigtrampPhys h.ustackPhys v

/-- Every task is in order, and no two of them have pages in common. -/
structure SysOk (m : Machine σ) (role : Roles) (hs : List Holdings) : Prop where
  tasks : ∀ h ∈ hs, TaskOk src img m role h
  apart : hs.Pairwise Holdings.Apart
  shared : SharedOk src (TextPage img) m role

section

variable {src} {img} {m m' : Machine σ} {role role' : Roles} {h k : Holdings} {a : Nat}

/-- The pages of a task are held and have a role of the task. -/
theorem taskPage_role (ht : TaskOk src img m role h) (ha : TaskPage m h a) :
    h.TaskRole (role a) ∧ src.Held m.pmm a := by
  have hnot : h.ustackPhys ≠ 0 ∨ h.regions ≠ [] ∨ h.grown ≠ [] → h.ttbr0 ≠ 0 := by
    intro hsome hzero
    rcases ht.kernel hzero with ⟨h1, h2, h3, _⟩
    rcases hsome with hc | hc | hc
    · exact hc h1
    · exact hc h2
    · exact hc h3
  rcases ha with ha | (ha | ha) | ⟨huser, path, hlen, hpath⟩
  · rcases ht.kstack a ha with ⟨hrole, hheld⟩
    exact ⟨.inl ⟨ha.1, .inl hrole⟩, hheld⟩
  · rcases ht.image a ha with ⟨hrole, hheld⟩
    refine ⟨.inr ⟨hnot ?_, .inl hrole⟩, hheld⟩
    rcases ha with ⟨hstack, _⟩ | ⟨reg, hmem, _⟩
    · exact .inl hstack
    · exact .inr (.inl fun hc => not_mem_nil (hc ▸ hmem))
  · rcases ht.grown a ha with ⟨hrole, hheld⟩
    have huser := hnot (.inr (.inr fun hc => not_mem_nil (hc ▸ ha)))
    exact ⟨.inl ⟨(ht.user huser).1, .inr hrole⟩, hheld⟩
  · rcases (ht.user huser).2.1.place path a hlen hpath with ⟨hrole, hheld⟩
    exact ⟨.inr ⟨huser, .inr ⟨path, hrole⟩⟩, hheld⟩

/-- A page of one task is not a page of another. -/
theorem taskPage_apart (ht : TaskOk src img m role h) (hk : TaskOk src img m role k)
    (hapart : h.Apart k) (ha : TaskPage m h a) : ¬ TaskPage m k a :=
  fun hc => taskRole_apart (taskPage_role ht ha).1 (taskPage_role hk hc).1 hapart

/-- The root of a user task is one of its tables. -/
theorem root_taskPage (huser : h.ttbr0 ≠ 0) : TaskPage m h h.root :=
  .inr (.inr ⟨huser, [], Nat.zero_le 3, rfl⟩)

/-- Shared pages are no task's. -/
theorem taskRole_not_shared : ¬ h.TaskRole .shared := by
  rintro (⟨_, hc | hc⟩ | ⟨_, hc | ⟨_, hc⟩⟩) <;> exact Role.noConfusion hc

theorem sharedPage_role (hs : SharedOk src (TextPage img) m role) (ha : SharedPage img m a) :
    role a = .shared ∧ src.Held m.pmm a := by
  rcases ha with ha | ⟨hne, rfl⟩
  · exact hs.text_shared a ha
  · exact hs.tramp_shared hne

/-- A page that a task may write to is one of its own. -/
theorem own_of_write (ht : TaskOk src img m role h) (huser : h.ttbr0 ≠ 0) {path : List Nat}
    {i : Nat} {e : BitVec 64} (hlen : path.length = 3) (hleaf : leafAt m.mem h.root path i = some e)
    (hwrite : el0Write e = true) : h.OwnPage (pteNextTable e) := by
  rcases ((ht.user huser).2.2 path i e hlen hleaf).target with hown | ⟨_, hread⟩
  · exact hown
  · rw [hwrite] at hread
    exact absurd hread (by simp)

theorem ownPage_role (ht : TaskOk src img m role h) (ha : h.OwnPage a) :
    (role a = .data h.root ∨ role a = .grown h.stackPhys) ∧ src.Held m.pmm a := by
  rcases ha with ha | ha
  · exact ⟨.inl (ht.image a ha).1, (ht.image a ha).2⟩
  · exact ⟨.inr (ht.grown a ha).1, (ht.grown a ha).2⟩

end

section

variable {src} {img} {m m' : Machine σ} {role role' : Roles} {h : Holdings}

/-- A task is left alone: its pages are still held in their roles, and its tables
    are not written to. -/
structure Undisturbed (src : Pages σ) (m : Machine σ)
    (role : Roles) (m' : Machine σ) (role' : Roles) (h : Holdings) : Prop where
  kept : ∀ a, TaskPage m h a → role' a = role a ∧ src.Held m'.pmm a
  mem_eq : h.ttbr0 ≠ 0 → ∀ a x, TablePage m.mem h.root a → InPage a x → m'.mem x = m.mem x
  tramp_eq : m.sigtrampPhys ≠ 0 → m'.sigtrampPhys = m.sigtrampPhys
  refused_le : m.refused ≤ m'.refused

variable (ht : TaskOk src img m role h)
include ht

/-- The address space of a task that is left alone stays in order, with the same tables
    and the same leaves. -/
theorem space_undisturbed (hun : Undisturbed src m role m' role' h)
    (huser : h.ttbr0 ≠ 0) : SpaceOk src m' role' h.root ∧
      (∀ a, TablePage m'.mem h.root a ↔ TablePage m.mem h.root a) ∧
      ∀ path i, path.length ≤ 3 → leafAt m'.mem h.root path i = leafAt m.mem h.root path i := by
  rcases @space_keep σ src m m' role role' h.root (ht.user huser).2.1
    (fun path p x hlen hp hx => hun.mem_eq huser p x ⟨path, hlen, hp⟩ hx)
    (fun path p hlen hp => hun.kept p (.inr (.inr ⟨huser, path, hlen, hp⟩))) with
    ⟨hspace, hfollow, hleaf⟩
  refine ⟨hspace, fun a => ?_, hleaf⟩
  exact exists_congr fun path => and_congr_right fun hlen => hfollow path a hlen

theorem taskOk_frame (hun : Undisturbed src m role m' role' h) :
    TaskOk src img m' role' h := by
  have hpage : ∀ a ρ, TaskPage m h a → role a = ρ → role' a = ρ ∧ src.Held m'.pmm a :=
    fun a ρ ha hrole => ⟨(hun.kept a ha).1.trans hrole, (hun.kept a ha).2⟩
  have hspace := space_undisturbed ht hun
  refine ⟨fun a ha => ?_, fun a ha => ?_, fun a ha => ?_, ht.kernel, fun huser => ?_,
    fun hrefused huser hregions hgrown => ?_⟩
  · exact hpage a _ (.inl ha) (ht.kstack a ha).1
  · exact hpage a _ (.inr (.inl (.inl ha))) (ht.image a ha).1
  · exact hpage a _ (.inr (.inl (.inr ha))) (ht.grown a ha).1
  · rcases hspace huser with ⟨hok, _, hleaf⟩
    refine ⟨(ht.user huser).1, hok,
      leavesOk_mono (leavesOk_congr (ht.user huser).2.2 hleaf) (fun _ ha => ha) ?_⟩
    rintro a (htext | ⟨hne, heq⟩)
    · exact .inl htext
    · have hsame := hun.tramp_eq hne
      rw [← hsame] at hne heq
      exact .inr ⟨hne, heq⟩
  · have hle := hun.refused_le
    rcases ht.plain (by omega) huser hregions hgrown with ⟨hne, hmap⟩
    rw [hun.tramp_eq hne]
    refine ⟨hne, fun v hv => ?_⟩
    rw [← hmap v hv]
    exact (hspace huser).2.2 (pathOf v) (l3Index v) (Nat.le_refl 3)

theorem undisturbed_of_evolves {W : Role → Prop} (hev : Evolves src W m role m' role')
    (hW : h.ttbr0 ≠ 0 → ∀ path, ¬ W (.table h.root path)) :
    Undisturbed src m role m' role' h := by
  refine ⟨fun a ha => ?_, fun huser a x ha hx => ?_, fun hne => ?_, hev.refused_le⟩
  · have hheld := (taskPage_role ht ha).2
    exact ⟨hev.role_eq a hheld, hev.held a hheld⟩
  · rcases ha with ⟨path, hlen, hpath⟩
    rcases (ht.user huser).2.1.place path a hlen hpath with ⟨hrole, hheld⟩
    refine hev.mem_eq a x hheld ?_ hx
    rw [hrole]
    exact hW huser path
  · rcases hev.tramp with hsame | ⟨hzero, _⟩
    · exact hsame
    · exact absurd hzero hne

theorem undisturbed_of_frees {P : Nat → Prop}
    (hfrees : Frees src P m m') (hout : ∀ a, TaskPage m h a → ¬ P a) :
    Undisturbed src m role m' role h := by
  refine ⟨fun a ha => ⟨rfl, hfrees.kept a (taskPage_role ht ha).2 (hout a ha)⟩, fun _ a x _ _ => ?_,
    fun _ => hfrees.tramp_eq, Nat.le_of_eq hfrees.refused_eq.symm⟩
  rw [hfrees.mem_eq]

end

section

variable {src} {img} {m m' : Machine σ} {role role' : Roles} {h : Holdings}
  {hs hs' : List Holdings} {W : Role → Prop}

variable (hok : SysOk src img m role hs)
include hok

theorem sysOk_perm (hperm : hs.Perm hs') :
    SysOk src img m role hs' :=
  ⟨fun h hmem => hok.tasks h (hperm.mem_iff.mpr hmem),
    (hperm.pairwise_iff fun hk => Holdings.apart_symm hk).mp hok.apart, hok.shared⟩

/-- The address spaces of tasks are what they were. -/
structure MapsKept (m m' : Machine σ) (hs : List Holdings) : Prop where
  refused_le : m.refused ≤ m'.refused
  translate_eq : ∀ h ∈ hs, h.ttbr0 ≠ 0 → ∀ v,
    translate m'.mem h.root v = translate m.mem h.root v

/-- Tasks go on in the machine `m'` with the address spaces they have in `m`. -/
structure Carries (src : Pages σ) (img : KernelImage) (m m' : Machine σ)
    (role' : Roles) (hs : List Holdings) : Prop where
  sys : SysOk src img m' role' hs
  maps : MapsKept m m' hs

omit hok in
theorem mapsKept_of_mem (hmem : m'.mem = m.mem) (hrefused : m.refused ≤ m'.refused)
    (hs : List Holdings) : MapsKept m m' hs :=
  ⟨hrefused, fun _ _ _ _ => by rw [hmem]⟩

omit hok in
theorem mapsKept_trans {m1 : Machine σ} (h1 : MapsKept m m1 hs) (h2 : MapsKept m1 m' hs) :
    MapsKept m m' hs :=
  ⟨Nat.le_trans h1.refused_le h2.refused_le, fun h hmem huser v =>
    (h2.translate_eq h hmem huser v).trans (h1.translate_eq h hmem huser v)⟩

section

variable (hev : Evolves src W m role m' role')
  (hW : ∀ h ∈ hs, h.ttbr0 ≠ 0 → ∀ path, ¬ W (.table h.root path))
include hev hW

/-- Kernel code that writes to none of the tables there are. -/
theorem sysOk_evolves : SysOk src img m' role' hs :=
  ⟨fun h hmem => taskOk_frame (hok.tasks h hmem)
      (undisturbed_of_evolves (hok.tasks h hmem) hev (hW h hmem)), hok.apart,
    sharedOk_evolves hok.shared hev⟩

theorem mapsKept_evolves : MapsKept m m' hs :=
  ⟨hev.refused_le, fun h hmem huser v =>
    (space_frame ((hok.tasks h hmem).user huser).2.1 hev (hW h hmem huser)).2.2 (pathOf v)
      (l3Index v) (Nat.le_refl 3)⟩

theorem carries_evolves : Carries src img m m' role' hs :=
  ⟨sysOk_evolves hok hev hW, mapsKept_evolves hok hev hW⟩

end

/-- Giving back pages that belong to none of the tasks. -/
theorem sysOk_frees {P : Nat → Prop} (hfrees : Frees src P m m')
    (hout : ∀ h ∈ hs, ∀ a, TaskPage m h a → ¬ P a) (hshared : ∀ a, P a → role a ≠ .shared) :
    SysOk src img m' role hs := by
  refine ⟨fun h hmem => taskOk_frame (hok.tasks h hmem)
    (undisturbed_of_frees (hok.tasks h hmem) hfrees (hout h hmem)), hok.apart,
    fun a ha => ?_, fun hne => ?_⟩
  · rcases hok.shared.text_shared a ha with ⟨hrole, hheld⟩
    exact ⟨hrole, hfrees.kept a hheld fun hp => hshared a hp hrole⟩
  · rw [hfrees.tramp_eq] at hne ⊢
    rcases hok.shared.tramp_shared hne with ⟨hrole, hheld⟩
    exact ⟨hrole, hfrees.kept _ hheld fun hp => hshared _ hp hrole⟩

/-- A new task, with pages that were nobody's. -/
theorem sysOk_cons (ht : TaskOk src img m role h)
    (hapart : ∀ k ∈ hs, h.Apart k) : SysOk src img m role (h :: hs) := by
  refine ⟨?_, pairwise_cons.mpr ⟨hapart, hok.apart⟩, hok.shared⟩
  rw [forall_mem_cons]
  exact ⟨ht, hok.tasks⟩

/-- Roots and kernel stacks that were not held are not those of any task. -/
theorem apart_of_new (hstack : h.stackPhys ≠ 0 → ¬ src.Held m.pmm h.stackPhys)
    (hroot : h.ttbr0 ≠ 0 → ¬ src.Held m.pmm h.root) : ∀ k ∈ hs, h.Apart k := by
  intro k hmem
  refine ⟨fun hne hk heq => hstack hne ?_, fun hne hk heq => hroot hne ?_⟩
  · rw [heq]
    refine ((hok.tasks k hmem).kstack _ ⟨hk, inRun_self _ ?_⟩).2
    exact Nat.succ_pos 3
  · rw [heq]
    exact (taskPage_role (hok.tasks k hmem) (root_taskPage hk)).2

/-- Giving back pages whose roles are no task's. -/
theorem sysOk_frees_roles {P : Nat → Prop} (hfrees : Frees src P m m')
    (hrole : ∀ a, P a → role a ≠ .shared ∧ ∀ h ∈ hs, ¬ h.TaskRole (role a)) :
    SysOk src img m' role hs :=
  sysOk_frees hok hfrees (fun h hmem a ha hp =>
    (hrole a hp).2 h hmem (taskPage_role (hok.tasks h hmem) ha).1) fun a hp => (hrole a hp).1

/-- The roles that go with a stack that was not held are no task's. -/
theorem not_taskRole_stack {k : Nat} (hk : ¬ src.Held m.pmm k)
    (hmem : h ∈ hs) : ¬ h.TaskRole (.kstack k) := by
  rintro (⟨hne, hc | hc⟩ | ⟨_, hc | ⟨_, hc⟩⟩)
  · injection hc with hc
    refine hk (hc ▸ ((hok.tasks h hmem).kstack _ ⟨hne, inRun_self _ ?_⟩).2)
    exact Nat.succ_pos 3
  all_goals exact Role.noConfusion hc

/-- The roles that go with an address space whose root was not held are no
    task's. -/
theorem not_taskRole_space {r : Nat} (hr : ¬ src.Held m.pmm r)
    (hmem : h ∈ hs) {ρ : Role} (hρ : ρ = .data r ∨ TableOf r ρ) : ¬ h.TaskRole ρ := by
  have hroot : ∀ hne : h.ttbr0 ≠ 0, r ≠ h.root := fun hne heq =>
    hr (heq ▸ (taskPage_role (hok.tasks h hmem) (root_taskPage hne)).2)
  rcases hρ with rfl | ⟨path, rfl⟩
  · rintro (⟨_, hc | hc⟩ | ⟨hne, hc | ⟨_, hc⟩⟩)
    · exact Role.noConfusion hc
    · exact Role.noConfusion hc
    · injection hc with hc
      exact hroot hne hc
    · exact Role.noConfusion hc
  · rintro (⟨_, hc | hc⟩ | ⟨hne, hc | ⟨_, hc⟩⟩)
    · exact Role.noConfusion hc
    · exact Role.noConfusion hc
    · exact Role.noConfusion hc
    · injection hc with hc _
      exact hroot hne hc

/-- Tables that were not held are not those of any task. -/
theorem not_tableOf_new {r : Nat} (hr : ¬ src.Held m.pmm r)
    (hmem : h ∈ hs) (huser : h.ttbr0 ≠ 0) (path : List Nat) : ¬ TableOf r (.table h.root path) := by
  rintro ⟨path', heq⟩
  injection heq with heq _
  exact hr (heq ▸ (taskPage_role (hok.tasks h hmem) (root_taskPage huser)).2)

end

section

variable {src} {img} {m : Machine σ} {role : Roles} {hs : List Holdings}

/-- Pages that the stack has not grown by are passed over. -/
theorem freeGrown_fold (ps : List Nat) (m : Machine σ) :
    ps.foldl (fun m a => if a ≠ 0 then freePages src m a 1 else m) m
      = (ps.filter (· ≠ 0)).foldl (fun m a => freePages src m a 1) m := by
  rw [foldl_filter]
  simp only [decide_eq_true_eq]

theorem freeGrown_frees (ps : List Nat) (m : Machine σ)
    (hbelow : ∀ p ∈ ps, p + pageSize ≤ physLimit) :
    Frees src (· ∈ ps) m
      (ps.foldl (fun m a => if a ≠ 0 then freePages src m a 1 else m) m) := by
  rw [freeGrown_fold]
  exact frees_mono (freeAll_frees _ m fun p hp => hbelow p (mem_filter.mp hp).1)
    fun a ha => (mem_filter.mp ha).1

section

variable {P : Nat → Prop} {s : σ} (hheld : ∀ a, P a → src.Held s a)

include hheld

theorem freeStack_frees (m : Machine σ) {addr n : Nat} (hn : 0 < n)
    (hpages : addr ≠ 0 → ∀ a, InRun addr n a → P a) :
    Frees src P m (if addr ≠ 0 then freePages src m addr n else m) := by
  split_ifs with hne
  · have hbelow := run_below hn fun a ha => hheld a (hpages hne a ha)
    exact frees_mono (freePages_frees m hbelow) (hpages hne)
  · exact frees_refl _ m

theorem freeImage_frees (m : Machine σ) {regions : List ElfRegion}
    (hpages : ∀ a, RegionPage regions a → P a) : Frees src P m (freeRegions src m regions) :=
  frees_mono (freeRegions_frees _ m fun reg hreg hne =>
    run_below (Nat.pos_of_ne_zero hne) fun a ha => hheld a (hpages a ⟨reg, hreg, ha⟩)) hpages

/-- Giving back the tables of a task that has some. -/
theorem freeSpace_frees {m m' : Machine σ} {ttbr0 : Nat} (hmem : m'.mem = m.mem)
    (hpages : ttbr0 ≠ 0 → ∀ a, TablePage m.mem (ttbrBaddr ttbr0) a → P a) :
    Frees src P m' (if ttbr0 ≠ 0 then mmuFreeUserTables src m' (ttbrBaddr ttbr0) else m') := by
  rw [← hmem] at hpages
  split_ifs with hne
  · exact frees_mono (freeTables_frees m' _ fun a ha =>
      src.held_below _ a (hheld a (hpages hne a ha))) (hpages hne)
  · exact frees_refl _ m'

end

/-- Giving more back, after pages that leave memory as it was. -/
theorem frees_then {P : Nat → Prop} {m1 : Machine σ} (f : Machine σ → Machine σ)
    (h : Frees src P m m1) (hf : ∀ m', m'.mem = m.mem → Frees src P m' (f m')) :
    Frees src P m (f m1) :=
  frees_trans h (hf m1 h.mem_eq)

/-- Reaping a task gives back pages of that task only. -/
theorem reapTask_frees (t : Task) (ht : TaskOk src img m role (holdings t)) :
    Frees src (TaskPage m (holdings t)) m (reapTask src m t) := by
  have hheld := fun a (ha : TaskPage m (holdings t) a) => (taskPage_role ht ha).2
  -- The five kinds of pages, in the order they are given back.
  have hkstack := fun m' => freeStack_frees hheld m' (Nat.succ_pos 3) fun hne a ha => .inl ⟨hne, ha⟩
  have hustack := fun m' => freeStack_frees hheld m' (Nat.succ_pos 3)
    fun hne a ha => .inr (.inl (.inl (.inl ⟨hne, ha⟩)))
  have himage := fun m' => freeImage_frees hheld m' fun a ha => .inr (.inl (.inl (.inr ha)))
  have hgrown : ∀ m', Frees src (TaskPage m (holdings t)) m'
      (t.stackGrownPhys.foldl (fun m a => if a ≠ 0 then freePages src m a 1 else m) m') := by
    intro m'
    have hpages : ∀ a ∈ t.stackGrownPhys, TaskPage m (holdings t) a :=
      fun a ha => .inr (.inl (.inr ha))
    exact frees_mono (freeGrown_frees _ m' fun a ha => src.held_below _ a (hheld a (hpages a ha)))
      hpages
  refine frees_then _ ?_ fun m' hmem =>
    freeSpace_frees hheld hmem fun hne a ha => .inr (.inr ⟨hne, ha⟩)
  exact frees_trans (frees_trans (frees_trans (hkstack m) (hustack _)) (himage _)) (hgrown _)

/-- Reaping a task leaves the others in order. -/
theorem carries_reapTask (t : Task) (hok : SysOk src img m role (holdings t :: hs)) :
    Carries src img m (reapTask src m t) role hs := by
  have ht := hok.tasks _ mem_cons_self
  rcases pairwise_cons.mp hok.apart with ⟨hapart, hpair⟩
  have hrest : SysOk src img m role hs :=
    ⟨fun h hmem => hok.tasks h (mem_cons_of_mem _ hmem), hpair, hok.shared⟩
  have hfrees := reapTask_frees t ht
  refine ⟨sysOk_frees hrest hfrees (fun h hmem a ha hc => ?_) fun a ha hc => ?_,
    mapsKept_of_mem hfrees.mem_eq (Nat.le_of_eq hfrees.refused_eq.symm) hs⟩
  · exact taskPage_apart ht (hok.tasks h (mem_cons_of_mem _ hmem)) (hapart h hmem) hc ha
  · exact taskRole_not_shared (hc ▸ (taskPage_role ht ha).1)

theorem carries_reap (dead : List Task) : ∀ m : Machine σ,
    SysOk src img m role (dead.map holdings ++ hs) →
    Carries src img m (dead.foldl (reapTask src) m) role hs := by
  induction dead with
  | nil => exact fun m hok => ⟨hok, mapsKept_of_mem rfl (Nat.le_refl _) hs⟩
  | cons t dead ih =>
    intro m hok
    have hfirst := carries_reapTask t hok
    have hrest := ih _ hfirst.sys
    have hmaps : MapsKept m (reapTask src m t) hs :=
      ⟨hfirst.maps.refused_le, fun h hmem =>
        hfirst.maps.translate_eq h (mem_append_right _ hmem)⟩
    exact ⟨hrest.sys, mapsKept_trans hmaps hrest.maps⟩

end

end Sched

end CortexForge
