import CortexForge.Theory.Runs
import CortexForge.Theory.TaskPages

/-!
# The Ledger of Task Pages

Every page in use belongs to somebody: to the rest of the kernel, to one of the
tasks, or it is the trampoline page. `Ledger` says so for a machine, a list of what
tasks hold and the set of pages that others have, together with what keeps it that
way.

A call takes pages, gives a list of pages back and leaves some tasks. Whatever the
call, the ledger is in order afterwards if what was taken, and what the tasks had
before, is given back or belongs to a task (`ledger_call`). The calls of the
scheduler are then a matter of naming the pages on each way out.

## Main definitions

* `Ledger`: The accounts.
* `Balanced`: The accounts of the scheduler's state.

## Theorems

* `ledger_call`: What a call has to see to.
* `construction_ledger`, `replacement_ledger`, `growth_ledger`, `reapTasks_ledger`:
  The calls.
-/

namespace CortexForge.Sched

open Mmu Elf Holdings List

variable {σ : Type} {src : Pages σ} {img : KernelImage}
  {Sound : σ → Prop} {Fixed : Nat → Prop}

section

variable {m : Machine σ} {role : Roles} {hs : List Holdings}

open Classical in
/-- Roles under which the pages that are no task's are shared. -/
noncomputable def neutralRole (m : Machine σ) (role : Roles) (hs : List Holdings) :
    Roles :=
  fun a => if ∃ h ∈ hs, TaskPage m h a then role a else .shared

/-- The roles of pages that are no task's do not matter. -/
theorem sysOk_neutral (hok : SysOk src img m role hs) :
    SysOk src img m (neutralRole m role hs) hs ∧
      ∀ a, (∀ h ∈ hs, ¬ TaskPage m h a) → neutralRole m role hs a = .shared := by
  have hshared : ∀ a, role a = .shared → neutralRole m role hs a = .shared := by
    intro a ha
    unfold neutralRole
    split
    · exact ha
    · rfl
  refine ⟨⟨fun h hmem => taskOk_frame (hok.tasks h hmem) ?_, hok.apart, ⟨fun a ha => ?_,
    fun hne => ?_⟩⟩, fun a ha => if_neg fun ⟨h, hmem, hc⟩ => ha h hmem hc⟩
  · refine ⟨fun a ha => ⟨if_pos ⟨h, hmem, ha⟩, (taskPage_role (hok.tasks h hmem) ha).2⟩,
      fun _ _ _ _ _ => rfl, fun _ => rfl, Nat.le_refl _⟩
  · exact ⟨hshared a (hok.shared.text_shared a ha).1, (hok.shared.text_shared a ha).2⟩
  · exact ⟨hshared _ (hok.shared.tramp_shared hne).1, (hok.shared.tramp_shared hne).2⟩

end

/-- The accounts of the machine `m`, whose tasks hold `hs`: the pages in `others`
    belong to the rest of the kernel, and every page in use that is not one of them
    is the trampoline or on the list of a task. -/
structure Ledger (src : Pages σ) (img : KernelImage) (Sound : σ → Prop)
    (Fixed : Nat → Prop) (others : Nat → Prop) (m : Machine σ) (hs : List Holdings) : Prop where
  sys : ∃ role, SysOk src img m role hs
  sound : Sound m.pmm
  fixed : ∀ a, Fixed a → others a
  held : ∀ a, others a → src.Held m.pmm a
  apart : ∀ a, others a → ∀ h ∈ hs, ¬ TaskPage m h a
  tramp : ∀ a, TrampPage m a → ¬ others a
  covers : ∀ a, src.Held m.pmm a → others a ∨ TrampPage m a ∨ ∃ h ∈ hs, a ∈ h.pages m.mem
  once : ∀ h ∈ hs, h.imagePages.Nodup ∧ h.grown.Nodup

section

variable {others : Nat → Prop} {m m1 : Machine σ} {role role1 : Roles}
  {hs hs' : List Holdings}

theorem ledger_perm (h : Ledger src img Sound Fixed others m hs) (hperm : hs.Perm hs') :
    Ledger src img Sound Fixed others m hs' := by
  rcases h.sys with ⟨role, hok⟩
  have hmem : ∀ {k}, k ∈ hs' ↔ k ∈ hs := fun {k} => hperm.mem_iff.symm
  refine ⟨⟨role, sysOk_perm hok hperm⟩, h.sound, h.fixed, h.held,
    fun a ha k hk => h.apart a ha k (hmem.mp hk), h.tramp, fun a ha => ?_,
    fun k hk => h.once k (hmem.mp hk)⟩
  rcases h.covers a ha with hothers | htramp | ⟨k, hk, hpage⟩
  · exact .inl hothers
  · exact .inr (.inl htramp)
  · exact .inr (.inr ⟨k, hmem.mpr hk, hpage⟩)

/-- Roles for the tasks of a ledger under which everybody else's pages are
    shared. -/
theorem ledger_roles (h : Ledger src img Sound Fixed others m hs) :
    ∃ role, SysOk src img m role hs ∧ ∀ a, others a → role a = .shared := by
  rcases h.sys with ⟨role, hok⟩
  rcases sysOk_neutral hok with ⟨hneutral, hshared⟩
  exact ⟨_, hneutral, fun a ha => hshared a (h.apart a ha)⟩

/-- A call takes the pages in `N` on the way to `m1` and gives `ps` back. The ledger
    is in order again if those that are not given back belong to a task. -/
theorem ledger_call {N : Nat → Prop} {ps : List Nat} (hex : src.Exact Sound Fixed)
    (h : Ledger src img Sound Fixed others m hs) (hothers : ∀ a, others a → role a = .shared)
    (hadds : Adds src Sound N m m1) (hroles : ∀ a, src.Held m.pmm a → role1 a = role a)
    (hsys : SysOk src img (giveBack src m1 ps) role1 hs')
    (hps : ∀ a ∈ ps, role1 a ≠ .shared ∧ src.Held m1.pmm a)
    (hnew : ∀ a, N a → a ∈ ps ∨ ∃ k ∈ hs', a ∈ k.pages m1.mem)
    (hold : ∀ k ∈ hs, ∀ a ∈ k.pages m.mem, a ∈ ps ∨ ∃ k' ∈ hs', a ∈ k'.pages m1.mem)
    (honce : ∀ k ∈ hs', k.imagePages.Nodup ∧ k.grown.Nodup) :
    Ledger src img Sound Fixed others (giveBack src m1 ps) hs' := by
  have hbelow : ∀ a ∈ ps, a + pageSize ≤ physLimit := fun a ha => src.held_below _ a (hps a ha).2
  rcases giveBack_only hex hadds.sound hbelow with ⟨hsound, honly⟩
  have hshared : ∀ a, others a → role1 a = .shared := fun a ha =>
    (hroles a (h.held a ha)).trans (hothers a ha)
  refine ⟨⟨role1, hsys⟩, hsound, h.fixed, fun a ha => ?_, fun a ha k hk hpage => ?_,
    fun a ha hc => ?_, fun a ha => ?_, honce⟩
  · exact (giveBack_frees hbelow).kept a (hadds.held a (h.held a ha)) fun hc =>
      (hps a hc).1 (hshared a ha)
  · have hrole := (taskPage_role (hsys.tasks k hk) hpage).1
    rw [hshared a ha] at hrole
    exact taskRole_not_shared hrole
  · -- The trampoline is the one there was, or a page that was nobody's.
    have htramp : TrampPage m1 a := ha
    rcases hadds.tramp with hsame | ⟨_, hfresh⟩
    · refine h.tramp a ?_ hc
      unfold TrampPage at htramp ⊢
      rw [← hsame]
      exact htramp
    · exact hfresh (htramp.2 ▸ h.held a hc)
  · rcases honly a ha with ⟨hmid, hgone⟩
    -- What is on the list and still held is fixed, and so it is somebody else's.
    have hlisted : (a ∈ ps ∨ ∃ k' ∈ hs', a ∈ k'.pages m1.mem) → others a ∨
        TrampPage (giveBack src m1 ps) a ∨ ∃ k' ∈ hs', a ∈ k'.pages m1.mem := by
      rintro (hc | hpage)
      · exact .inl (h.fixed a (hgone hc))
      · exact .inr (.inr hpage)
    rcases hadds.only a hmid with hheld | htramp | hN
    · rcases h.covers a hheld with hothers | htramp | ⟨k, hk, hpage⟩
      · exact .inl hothers
      · exact .inr (.inl (trampPage_adds hadds htramp))
      · exact hlisted (hold k hk a hpage)
    · exact .inr (.inl htramp)
    · exact hlisted (hnew a hN)

/-- The pages of a task whose tables are still there. -/
theorem pages_tables {k : Holdings} (ht : TaskOk src img m1 role1 k)
    (htables : k.ttbr0 ≠ 0 → ∀ a, TablePage m.mem k.root a → TablePage m1.mem k.root a) {a : Nat}
    (ha : a ∈ k.pages m.mem) : a ∈ k.pages m1.mem := by
  rw [mem_pages] at ha ⊢
  refine ha.imp_right (Or.imp_right (Or.imp_right fun hspace => ?_))
  rw [mem_spacePages] at hspace ⊢
  refine ⟨hspace.1, (mem_userTablePages_iff (ht.user hspace.1).2.1 a).mpr ?_⟩
  exact htables hspace.1 a (mem_userTablePages hspace.2)

/-- The pages of a task whose tables are left alone. -/
theorem pages_evolves {W : Role → Prop} {k : Holdings} (ht : TaskOk src img m role k)
    (hev : Evolves src W m role m1 role1) (hW : k.ttbr0 ≠ 0 → ∀ path, ¬ W (.table k.root path))
    {a : Nat} (ha : a ∈ k.pages m.mem) : a ∈ k.pages m1.mem :=
  pages_tables (taskOk_frame ht (undisturbed_of_evolves ht hev hW))
    (fun hne a => (tables_frame (ht.user hne).2.1 hev (hW hne) a).mpr) ha

/-- A call that does nothing but take pages for a new task. -/
theorem ledger_evolves {N : Nat → Prop} {W : Role → Prop} (hex : src.Exact Sound Fixed)
    (h : Ledger src img Sound Fixed others m hs) (hok : SysOk src img m role hs)
    (hothers : ∀ a, others a → role a = .shared) (hadds : Adds src Sound N m m1)
    (hev : Evolves src W m role m1 role1)
    (hW : ∀ k ∈ hs, k.ttbr0 ≠ 0 → ∀ path, ¬ W (.table k.root path)) {ps : List Nat}
    (hsys : SysOk src img (giveBack src m1 ps) role1 (hs' ++ hs))
    (hps : ∀ a ∈ ps, role1 a ≠ .shared ∧ src.Held m1.pmm a)
    (hnew : ∀ a, N a → a ∈ ps ∨ ∃ k ∈ hs', a ∈ k.pages m1.mem)
    (honce : ∀ k ∈ hs', k.imagePages.Nodup ∧ k.grown.Nodup) :
    Ledger src img Sound Fixed others (giveBack src m1 ps) (hs' ++ hs) := by
  refine ledger_call hex h hothers hadds hev.role_eq hsys hps (fun a ha => ?_)
    (fun k hk a ha => .inr ⟨k, mem_append_right _ hk, ?_⟩) fun k hk => ?_
  · rcases hnew a ha with hp | ⟨k, hk, hpage⟩
    · exact .inl hp
    · exact .inr ⟨k, mem_append_left _ hk, hpage⟩
  · exact pages_evolves (hok.tasks k hk) hev (hW k hk) ha
  · rcases mem_append.mp hk with hk | hk
    · exact honce k hk
    · exact h.once k hk

end

/-- The ledger of the scheduler's state, over the tasks of the run queue and those
    waiting to be reaped. -/
def Balanced (src : Pages σ) (img : KernelImage) (Sound : σ → Prop)
    (Fixed : Nat → Prop) (others : Nat → Prop) (s : Sched σ) : Prop :=
  Ledger src img Sound Fixed others s.machine ((s.queue ++ s.deadList).map holdings)

variable (hex : src.Exact Sound Fixed)
include hex

section

variable {others : Nat → Prop} {m mk m1 m2 m3 m4 : Machine σ} {rolek : Roles}
  {hs : List Holdings} {plan : TaskPlan} {k r u : Nat} {mem : Memory}

theorem zeroedPages_adds (hsound : Sound m.pmm) {n : Nat} (hcall : zeroedPages src m n = (m1, u)) :
    Adds src Sound (fun a => u ≠ 0 ∧ InRun u n a) m m1 := by
  rcases zeroedPages_eq hcall with ⟨m0, halloc, hrefused, hfilled⟩
  have hadds := allocatePages_adds hex hsound halloc
  by_cases hu : u = 0
  · rw [hrefused hu]
    exact hadds
  · rw [hfilled hu]
    exact adds_write hadds _

omit hex in
/-- The tables of an address space are nobody else's. -/
theorem tables_private (hspace : SpaceOk src m rolek r) {a : Nat}
    (ha : a ∈ userTablePages m.mem r) : rolek a ≠ .shared ∧ src.Held m.pmm a := by
  rcases mem_userTablePages ha with ⟨path, hlen, hpath⟩
  rcases hspace.place path a hlen hpath with ⟨hrole, hheld⟩
  exact ⟨hrole ▸ Role.noConfusion, hheld⟩

/-- A call that fails gives back what it took: the tables `ts` of an address space it
    had begun, and a run of pages. -/
theorem ledger_failed {role : Roles} {W : Role → Prop} {n : Nat} {ts : List Nat}
    (h : Ledger src img Sound Fixed others m hs) (hok : SysOk src img m role hs)
    (hothers : ∀ a, others a → role a = .shared)
    (hadds : Adds src Sound (fun a => InRun u n a ∨ a ∈ ts) m m1)
    (hev : Evolves src W m role m1 rolek)
    (hW : ∀ k ∈ hs, k.ttbr0 ≠ 0 → ∀ path, ¬ W (.table k.root path)) (hn : 0 < n)
    (hrun : ∀ a, InRun u n a → rolek a ≠ .shared ∧ src.Held m1.pmm a)
    (hts : ∀ a ∈ ts, rolek a ≠ .shared ∧ src.Held m1.pmm a)
    (hsys : SysOk src img (freePages src (giveBack src m1 ts) u n) rolek hs) :
    Ledger src img Sound Fixed others (freePages src (giveBack src m1 ts) u n) hs := by
  rw [freePages_eq hex _ (run_below hn fun a ha => (hrun a ha).2), ← giveBack_append] at hsys ⊢
  refine ledger_call hex h hothers hadds hev.role_eq hsys (fun a ha => ?_) (fun a ha => .inl ?_)
    (fun k hk a ha => .inr ⟨k, hk, pages_evolves (hok.tasks k hk) hev (hW k hk) ha⟩) h.once
  · exact (mem_append.mp ha).elim (hts a) fun ha => hrun a (mem_runPages.mp ha)
  · exact mem_append.mpr (ha.symm.imp_right mem_runPages.mpr)

/-- A refusal leaves the accounts as they are. -/
theorem ledger_refused {n : Nat}
    (h : Ledger src img Sound Fixed others m hs) (hcall : zeroedPages src m n = (m1, 0)) :
    Ledger src img Sound Fixed others m1 hs := by
  rcases ledger_roles h with ⟨role, hok, hothers⟩
  have hev := (zeroedPages_refused role hcall).1
  exact @ledger_evolves σ src img Sound Fixed others m m1 role role hs [] _ _ hex h hok hothers
    (zeroedPages_adds hex h.sound hcall) hev (fun _ _ _ _ => not_false) []
    (sysOk_evolves hok hev fun _ _ _ _ => not_false) nofun (fun a ha => absurd rfl ha.1) nofun

/-- A kernel stack and the window: what is taken is the stack and the tables. -/
theorem windowed_adds (hsound : Sound m.pmm) (hshared : SharedOk src (TextPage img) mk rolek)
    (h : Windowed src img plan m mk k m1 r m2 m3 u) :
    Adds src Sound (fun a => InRun k taskStackPages a ∨ TablePage m2.mem r a) m m2 := by
  have hstack := zeroedPages_adds hex hsound h.begun.kstack
  have htables := createTables_adds hex hstack.sound h.begun.tables
  rcases createTables_leaves hshared h.begun.tables h.root_ne with ⟨_, role1, _, hspace, _, _⟩
  have hwindow :=
    @mapRange_builds σ src Sound Fixed (fun _ => False) m1 m2 role1 r hex htables.sound
    hspace _ _ _ _ h.window
  refine adds_trans (adds_mono hstack fun a ha => .inl ha.2) (adds_trans (adds_mono htables
    fun a ha => .inr (hwindow.tables a ha.2)) (adds_mono hwindow.adds fun a ha => .inr ?_))
  exact ha.resolve_right not_false

/-- And the user stack on top. -/
theorem stacked_adds (hsound : Sound m.pmm) (hshared : SharedOk src (TextPage img) mk rolek)
    (h : Stacked src img plan m mk k m1 r m2 m3 u m4 mem) :
    Adds src Sound (fun a => InRun k taskStackPages a ∨ TablePage m4.mem r a ∨
      InRun u userStackPages a) m m4 := by
  have hwindow := windowed_adds hex hsound hshared h.windowed
  rcases newSpace_spec hshared h.windowed.begun.tables h.windowed.root_ne h.windowed.window with
    ⟨_, role2, _, hspace2, _⟩
  have hfilled : ∀ x, x < u ∨ u + userStackPages * pageSize ≤ x →
      plan.fill m3.mem u x = m2.mem x := fun x hx => by
    rw [plan.fill_other m3.mem u x hx, allocatePages_mem h.windowed.stack]
  have hfill := fill_builds hex hwindow.sound hspace2 h.windowed.stack h.stack_ne _ hfilled
  rcases evolves_fill (fun _ => False) role2 .other h.windowed.stack h.stack_ne _ hfilled with
    ⟨hev, _⟩
  have hmap := @mapRange_builds σ src Sound Fixed (fun _ => False) _ m4 _ r hex hfill.adds.sound
    (space_frame hspace2 hev fun _ hc => hc).1 _ _ _ _ h.mapped
  have hboth := builds_trans hfill (builds_mono hmap nofun)
  exact adds_trans (adds_mono hwindow fun a ha => ha.imp_right fun ht => .inl (hboth.tables a ht))
    (adds_mono hboth.adds fun a ha => .inr ha)

/-- Without a user stack the tables and the kernel stack are given back. -/
theorem windowed_ledger (h : Ledger src img Sound Fixed others m hs)
    (hwindowed : Windowed src img plan m mk k m1 r m2 m3 0) :
    Ledger src img Sound Fixed others
      (freePages src (mmuFreeUserTables src m3 r) k taskStackPages) hs := by
  rcases ledger_roles h with ⟨role, hok, hothers⟩
  rcases begun_kernelStack role hwindowed.begun with ⟨rolek, hkstack⟩
  have hshared := sharedOk_evolves hok.shared hkstack.evolves
  rcases newSpace_spec hshared hwindowed.begun.tables hwindowed.root_ne hwindowed.window with
    ⟨hnew, role2, hev2, hspace2, _, _⟩
  have hsys := (createFail_stack hok hkstack hev2 hnew hspace2 hwindowed.stack).sys
  have hmem := allocatePages_mem hwindowed.stack
  have hzero : (allocatePages src m2 userStackPages).2 = 0 := by rw [hwindowed.stack]
  have hnone := (evolves_refused (fun _ => False) role2 hzero).1
  rw [hwindowed.stack] at hnone
  -- the refused stack leaves the new tables as they were, and they go back whole
  have hspace3 := (space_frame hspace2 hnone fun _ hc => hc).1
  have hwindow := windowed_adds hex h.sound hshared hwindowed
  have hadds := adds_trans hwindow (adds_mono (allocatePages_adds hex hwindow.sound
    hwindowed.stack) fun a ha => absurd rfl ha.1)
  have hev := evolves_trans (evolves_mono hkstack.evolves nofun)
    (evolves_trans hev2 (evolves_mono hnone nofun))
  rw [freeTables_eq] at hsys
  simp only [freeTables_eq]
  refine ledger_failed hex h hok hothers (adds_mono hadds fun a ha => ha.imp_right fun ht =>
    (mem_userTablePages_iff hspace3 a).mpr (hmem ▸ ht)) hev (fun k' hk' huser path =>
      not_tableOf_new hok (fun hc => hnew (hkstack.evolves.held r hc)) hk' huser path)
    (Nat.succ_pos 3) (fun a ha => ?_) (fun a => tables_private hspace3) hsys
  rcases hkstack.pages a ha with ⟨_, hheld, hrole⟩
  exact ⟨(hev2.role_eq a hheld).trans hrole ▸ Role.noConfusion,
    hnone.held a (hev2.held a hheld)⟩

/-- A task that is made holds all that was taken for it. -/
theorem stacked_ledger {t : Task} {asid : Nat} (h : Ledger src img Sound Fixed others m hs)
    (hstacked : Stacked src img plan m mk k m1 r m2 m3 u m4 mem)
    (ht : holdings t = ⟨k, ttbrPack r asid, u, [], [], plan.fds⟩) :
    Ledger src img Sound Fixed others { m4 with mem := mem } (holdings t :: hs) := by
  rcases ledger_roles h with ⟨role, hok, hothers⟩
  rcases begun_kernelStack role hstacked.windowed.begun with ⟨rolek, hkstack⟩
  have hshared := sharedOk_evolves hok.shared hkstack.evolves
  rcases stacked_built hstacked hshared with ⟨role4, hbuilt, _⟩
  have hr := hstacked.windowed.root_ne
  have hsys := newTask_ok hok hkstack asid plan.fds hbuilt hr hstacked.stack_ne
    hstacked.frames
  have hev := newTask_evolves hkstack hbuilt hstacked.frames
  have hwrite := evolves_kstack (built_kstack hkstack hbuilt) hstacked.frames
  have hlt := (held_lt (hbuilt.space.place [] r (Nat.zero_le 3) rfl).2).2
  have hne := ttbrPack_ne r asid hr hlt
  have hroot : Holdings.root ⟨k, ttbrPack r asid, u, [], [], plan.fds⟩ = r :=
    ttbrBaddr_pack r asid hlt
  have htask := hsys.tasks _ mem_cons_self
  have hspace := (htask.user hne).2.1
  rw [← ht] at hsys
  refine @ledger_evolves σ src img Sound Fixed others m _ role role4 _ [holdings t] _ _
    hex h hok hothers (adds_write (stacked_adds hex h.sound hshared hstacked) mem) hev
    (fun k' hk' huser path hc => ?_) [] hsys nofun
    (fun a ha => .inr ⟨_, mem_singleton_self _, ?_⟩) fun k' hk' => ?_
  · rcases hc with hc | hc
    · exact not_tableOf_new hok (fun hc => hbuilt.root_new (hkstack.evolves.held r hc)) hk' huser
        path hc
    · exact Role.noConfusion hc
  · -- what was taken: the kernel stack, the tables and the user stack
    rw [ht, mem_pages]
    rcases ha with ha | ha | ha
    · exact .inl ⟨hkstack.ne_zero, ha⟩
    · refine .inr (.inr (.inr (mem_spacePages.mpr ⟨hne, ?_⟩)))
      refine (mem_userTablePages_iff hspace a).mpr ?_
      rw [hroot]
      exact (tables_frame hbuilt.space hwrite (fun _ => Role.noConfusion) a).mpr ha
    · exact .inr (.inl (mem_append_left _ (mem_stackPages.mpr ⟨hstacked.stack_ne, ha⟩)))
  · rw [mem_singleton.mp hk', ht]
    refine ⟨?_, nodup_nil⟩
    rw [imagePages, regionPages, flatMap_nil, append_nil]
    exact stackPages_nodup _ _

end

section

variable {others : Nat → Prop} {s : Sched σ}

/-- The construction of a user task whose entry point is inside the window. -/
theorem construction_ledger {plan : TaskPlan} {res : Sched σ × Int}
    (hinside : ¬ plan.outside) (h : Balanced src img Sound Fixed others s)
    (hout : Construction src img plan s res) : Balanced src img Sound Fixed others res.1 := by
  rcases ledger_roles h with ⟨role, hok, hothers⟩
  cases hout with
  | noRecord _ => exact h
  | noStack _ hkstack => exact ledger_refused hex h hkstack
  | @noTables mk m1 k hbegun =>
    rcases begun_kernelStack role hbegun with ⟨rolek, hkstack⟩
    have hev := createTables_refused rolek hbegun.tables
    have hadds := zeroedPages_adds hex h.sound hbegun.kstack
    have htables := createTables_adds hex hadds.sound hbegun.tables
    refine @ledger_failed _ src img _ _ hex _ _ m1 rolek _ k role _ _ [] h hok hothers
      (adds_trans (adds_mono hadds fun a ha => .inl ha.2)
        (adds_mono htables fun a ha => absurd rfl ha.1)) (evolves_trans hkstack.evolves hev)
      (fun _ _ _ _ => not_false) (Nat.succ_pos 3) (fun a ha => ?_) nofun
      (createFail_kstack hok hkstack hev).sys
    rw [(hkstack.pages a ha).2.2]
    exact ⟨Role.noConfusion, hev.held a (hkstack.pages a ha).2.1⟩
  | outside _ _ hc => exact absurd hc hinside
  | noUserStack hwindowed => exact windowed_ledger hex h hwindowed
  | @made _ _ _ _ _ _ _ _ _ t hstacked ht =>
    exact ledger_perm (stacked_ledger hex h hstacked ht) (append_perm s.queue s.deadList t)

theorem kernelConstruction_ledger {record : Bool}
    {res : Sched σ × Int} (h : Balanced src img Sound Fixed others s)
    (hout : KernelConstruction src record s res) :
    Balanced src img Sound Fixed others res.1 := by
  rcases ledger_roles h with ⟨role, hok, hothers⟩
  cases hout with
  | noRecord _ => exact h
  | noStack _ hkstack => exact ledger_refused hex h hkstack
  | @made mk k mem t _ hkcall hk hmem ht =>
    rcases kernelStack_spec role hkcall with ⟨hc, _⟩ | ⟨rolek, hkstack⟩
    · exact absurd hc hk
    have hsys := newKernelTask_ok hok hkstack hmem
    have hwrite := evolves_kstack (fun a ha => (hkstack.pages a ha).2) hmem
    have hev := evolves_trans (evolves_mono hkstack.evolves nofun) hwrite
    rw [← ht] at hsys
    refine ledger_perm ?_ (append_perm s.queue s.deadList t)
    refine @ledger_evolves σ src img Sound Fixed others s.machine _ role rolek _ [holdings t] _ _
      hex h hok hothers (adds_write (zeroedPages_adds hex h.sound hkcall) mem) hev
      (fun _ _ _ _ => Role.noConfusion) [] hsys nofun
      (fun a ha => .inr ⟨_, mem_singleton_self _, ?_⟩) fun k' hk' => ?_
    · rw [ht, mem_pages]
      exact .inl ha
    · rw [mem_singleton.mp hk', ht]
      exact ⟨nodup_nil, nodup_nil⟩

end

section

variable {others : Nat → Prop} {s : Sched σ} {m ms m1 m2 : Machine σ} {role : Roles}
  {hs : List Holdings} {u r size : Nat} {bytes : Memory}

/-- The stack, the tables and the segments of a new image, as far as they got. The
    segments have pages that nobody had, so none of them is of the stack. -/
theorem newImage_adds (hsound : Sound m.pmm)
    (hok : SysOk src img m role hs) (h : Opened src m ms u m1 r) (hr : r ≠ 0)
    {res : Option ElfImage} (hload : elfLoad src m1 bytes size r = (m2, res)) :
    Adds src Sound (fun a => InRun u userStackPages a ∨ TablePage m2.mem r a ∨
      ∃ image, res = some image ∧ a ∈ regionPages image.regions) m m2 ∧
      ∀ image, res = some image →
        (stackPages u userStackPages ++ regionPages image.regions).Nodup := by
  rcases zeroedPages_got role .other h.stack h.stack_ne with ⟨hevs, hrun, _⟩
  have hstack := zeroedPages_adds hex hsound h.stack
  have htables := createTables_adds hex hstack.sound h.tables
  rcases createTables_leaves (sharedOk_evolves hok.shared hevs) h.tables hr with
    ⟨_, role1, hev1, hspace, hleaves, _⟩
  have hbegun := adds_trans (adds_mono hstack fun a ha => Or.inl ha.2)
    (adds_mono htables fun a ha => Or.inr ha.2)
  have hcases := elfLoad_builds hex htables.sound hspace hleaves bytes size
  rw [hload] at hcases
  have hmore : ∀ {S : Nat → Prop}, Builds src Sound r S m1 m2 →
      Adds src Sound (fun a => InRun u userStackPages a ∨ TablePage m2.mem r a ∨ S a) m m2 :=
    fun hbuilds => adds_trans (adds_mono hbegun fun a ha => ha.imp_right fun ht =>
      Or.inl (hbuilds.tables a ht)) (adds_mono hbuilds.adds fun a ha => Or.inr ha)
  rcases hcases with ⟨hnone, hclean⟩ | ⟨_, image, himage, hloaded⟩
  · refine ⟨adds_mono (hmore hclean.rest) fun a ha => ha.imp_right (Or.imp_right nofun),
      fun image hc => ?_⟩
    exact absurd (hnone.symm.trans hc).symm (Option.some_ne_none image)
  · refine ⟨adds_mono (hmore hloaded.builds) fun a ha => ha.imp_right (Or.imp_right fun hc =>
      ⟨image, himage, hc⟩), fun image' himage' => ?_⟩
    rw [← Option.some.inj (himage.symm.trans himage')]
    refine List.Nodup.append (stackPages_nodup _ _) hloaded.nodup fun a ha hb => ?_
    exact (hloaded.loaded.pages a (regionPage_of_mem hb)).2.2
      (hev1.held a (hrun a (mem_stackPages.mp ha).2).2)

/-- A task that has changed over to its new image. It keeps its kernel stack and the
    pages its stack grew by. -/
theorem replaced_ledger {cur : Task} {image : ElfImage}
    {m3 : Machine σ} (h : Ledger src img Sound Fixed others m (holdings cur :: hs))
    (hok : SysOk src img m role (holdings cur :: hs)) (hothers : ∀ a, others a → role a = .shared)
    (huser : cur.ttbr0 ≠ 0) (hopened : Opened src m ms u m1 r) (hr : r ≠ 0)
    (hload : elfLoad src m1 bytes size r = (m2, some image))
    (hmap : mmuMapUserRange src m2 r ustackUserBase u userStackPages stackFlags = m3)
    (args : ExecArgs) (asid : Nat) :
    Ledger src img Sound Fixed others
      (freeOldImage src { m3 with mem := writeArgs m3.mem u args.strings } cur)
      ({ holdings cur with
        ttbr0 := ttbrPack r asid, ustackPhys := u, regions := image.regions } :: hs) := by
  rcases newImage_spec hok hopened.stack hopened.stack_ne hopened.tables hr hload with
    ⟨role2, _, hspec, _⟩
  rcases replaced_spec hok huser hopened hr hload hmap args asid with
    ⟨role3, hev, hgoes, hsys, hbaddr, htables, _⟩
  rcases newImage_adds hex h.sound hok hopened hr hload with ⟨hadds, himage⟩
  have hmapped := @mapRange_builds σ src Sound Fixed (fun _ => False) m2 m3 role2 r hex hadds.sound
    hspec.space _ _ _ _ hmap
  have hall := adds_trans (adds_mono hadds fun a ha => ha.imp_right
    (Or.imp_left (hmapped.tables a))) (adds_mono hmapped.adds fun a ha =>
      .inr (.inl (ha.resolve_right not_false)))
  have hne := ttbrPack_ne r asid hr (held_lt (hspec.space.place [] r (Nat.zero_le 3) rfl).2).2
  generalize writeArgs m3.mem u args.strings = mem at hev hgoes hsys htables ⊢
  have htask := hgoes.sys.tasks _ mem_cons_self
  have hkeep : ∀ k ∈ holdings cur :: hs, ∀ a, a ∈ k.pages m.mem → a ∈ k.pages mem := by
    intro k hk a ha
    refine pages_evolves (hok.tasks k hk) hev (fun huser path hc => ?_) ha
    rcases hc with hc | hc
    · exact not_tableOf_new hok hspec.root_new hk huser path hc
    · exact Role.noConfusion hc
  rw [freeOldImage_eq hex cur htask] at hsys ⊢
  have hspace := ((hsys.tasks _ mem_cons_self).user hne).2.1
  refine ledger_call hex h hothers (adds_write hall mem) hev.role_eq hsys (fun a ha => ?_)
    (fun a ha => .inr ⟨_, mem_cons_self, mem_pages.mpr ?_⟩) (fun k hk a ha => ?_)
    fun k hk => ?_
  · -- What is given back belongs to the old address space.
    have hold := oldPage_of_mem ha
    refine ⟨fun hc => ?_, (taskPage_role htask (oldPage_taskPage hold)).2⟩
    have hrole := (oldPage_role htask hold).2
    rw [hc] at hrole
    rcases hrole with hc | ⟨path, hc⟩ <;> exact Role.noConfusion hc
  · rcases ha with ha | ha | ⟨image', himage', ha⟩
    · exact .inr (.inl (mem_append_left _ (mem_stackPages.mpr ⟨hopened.stack_ne, ha⟩)))
    · refine .inr (.inr (.inr (mem_spacePages.mpr ⟨hne, ?_⟩)))
      have htable := htables a ha
      rw [← hbaddr] at htable
      exact (mem_userTablePages_iff hspace a).mpr htable
    · rw [← Option.some.inj himage'] at ha
      exact .inr (.inl (mem_append_right _ ha))
  · have hthen := hkeep k hk a ha
    rcases mem_cons.mp hk with rfl | hk
    · -- The kernel stack and the grown pages stay, the rest is given back.
      rcases mem_pages.mp hthen with hp | hp | hp | hp
      · exact .inr ⟨_, mem_cons_self, mem_pages.mpr (.inl ⟨hp.1, hp.2⟩)⟩
      · exact .inl (mem_append_left _ hp)
      · exact .inr ⟨_, mem_cons_self, mem_pages.mpr (.inr (.inr (.inl hp)))⟩
      · exact .inl (mem_append_right _ hp)
    · exact .inr ⟨k, mem_cons_of_mem _ hk, hthen⟩
  · rcases mem_cons.mp hk with rfl | hk
    · exact ⟨himage image rfl, (h.once _ mem_cons_self).2⟩
    · exact h.once k (mem_cons_of_mem _ hk)

/-- The image of the current task is replaced, or not. -/
theorem replacement_ledger {file : Option FileBytes} {args : ExecArgs}
    {res : Sched σ × Option Nat} (h : Balanced src img Sound Fixed others s)
    (hout : Replacement src s file args res) : Balanced src img Sound Fixed others res.1 := by
  rcases ledger_roles h with ⟨role, hok, hothers⟩
  cases hout with
  | refused _ => exact h
  | noStack _ hstack => exact ledger_refused hex h hstack
  | @noTables cur rest f ms m1 u _ hopened =>
    rcases stackOnly_fail hok hopened.stack hopened.stack_ne hopened.tables rfl with
      ⟨role1, hev, hpages, hfail⟩
    have hstack := zeroedPages_adds hex h.sound hopened.stack
    have htables := createTables_adds hex hstack.sound hopened.tables
    exact @ledger_failed _ src img _ _ hex _ _ m1 role1 _ u role _ _ [] h hok hothers
      (adds_trans (adds_mono hstack fun a ha => .inl ha.2)
        (adds_mono htables fun a ha => absurd rfl ha.1)) hev (fun _ _ _ _ => not_false)
      (Nat.succ_pos 3) (fun a ha => ⟨(hpages a ha).1 ▸ Role.noConfusion, (hpages a ha).2⟩)
      nofun hfail.sys
  | @notLoaded cur rest f ms m1 m2 u r _ hopened hr hload =>
    rcases newImage_spec hok hopened.stack hopened.stack_ne hopened.tables hr hload with
      ⟨role2, hev, hnew, _⟩
    have hsys := (newImage_fail hok hnew).sys
    have hadds := (newImage_adds hex h.sound hok hopened hr hload).1
    rw [freeTables_eq] at hsys
    simp only [freeTables_eq]
    refine ledger_failed hex h hok hothers (adds_mono hadds fun a ha => ha.imp_right ?_) hev
      (fun k hk huser path => not_tableOf_new hok hnew.root_new hk huser path) (Nat.succ_pos 3)
      (fun a ha => ⟨(hnew.stack a ha).1 ▸ Role.noConfusion, (hnew.stack a ha).2⟩)
      (fun a => tables_private hnew.space) hsys
    rintro (ht | ⟨image, hc, _⟩)
    · exact (mem_userTablePages_iff hnew.space a).mpr ht
    · exact absurd hc.symm (Option.some_ne_none image)
  | @replaced cur new rest f ms m1 m2 m3 u r image hmay hopened hr hload hmap hnewTask =>
    unfold Balanced at h ⊢
    rw [hmay.current, cons_append] at h hok
    rw [hnewTask, cons_append]
    exact replaced_ledger hex h hok hothers (mayLoad_user hok hmay) hopened hr hload hmap args
      s.nextAsid

end

section

variable {others : Nat → Prop} {s : Sched σ} {m : Machine σ} {hs : List Holdings}

/-- The stack of the current task grows, or not. -/
theorem growth_ledger {far : Nat} {res : Sched σ × Bool}
    (h : Balanced src img Sound Fixed others s) (hout : Growth src s far res) :
    Balanced src img Sound Fixed others res.1 := by
  cases hout with
  | refused => exact h
  | noPage hpage => exact ledger_refused hex h hpage
  | @grown t rest mz m' p hcurrent huser _ hpage hp hmap =>
    unfold Balanced at h
    rw [hcurrent, cons_append] at h
    rcases ledger_roles h with ⟨role, hok, hothers⟩
    rcases (growTask_ok hok huser hpage hp _ hmap).1 with ⟨role', hev, hsys⟩
    rcases zeroedPages_got role .other hpage hp with ⟨hevz, hrun, _⟩
    have hzero := zeroedPages_adds hex h.sound hpage
    have ht := hok.tasks _ mem_cons_self
    have hspacez := (space_frame (ht.user huser).2.1 hevz fun _ hc => hc).1
    have hmapped := @mapRange_builds σ src Sound Fixed (fun _ => False) mz m' _ _ hex hzero.sound
      hspacez _ _ _ _ hmap
    have hadds := adds_trans (adds_mono hzero fun a ha => Or.inl (inRun_one ha.2))
      (adds_mono hmapped.adds fun a ha => Or.inr (ha.resolve_right not_false))
    have ht' := hsys.tasks _ mem_cons_self
    -- The tables of the task grow; those of the others are left alone.
    have hgrows : ∀ a, TablePage s.machine.mem (holdings t).root a →
        TablePage m'.mem (holdings t).root a := fun a ha =>
      hmapped.tables a ((tables_frame (ht.user huser).2.1 hevz (fun _ hc => hc) a).mpr ha)
    unfold Balanced
    refine @ledger_call σ src img Sound Fixed others s.machine m' role role' _ _ _ [] hex h hothers
      hadds hev.role_eq hsys nofun
      (fun a ha => .inr ⟨_, mem_cons_self, mem_pages.mpr ?_⟩)
      (fun k hk a ha => .inr ?_) fun k hk => ?_
    · rcases ha with rfl | ha
      · exact .inr (.inr (.inl ⟨mem_append_right _ (mem_singleton_self _), hp⟩))
      · refine .inr (.inr (.inr (mem_spacePages.mpr ⟨huser, ?_⟩)))
        exact (mem_userTablePages_iff (ht'.user huser).2.1 a).mpr ha
    · rcases mem_cons.mp hk with rfl | hk
      · refine ⟨_, mem_cons_self, mem_pages.mpr ?_⟩
        rcases mem_pages.mp ha with hpage | hpage | hpage | hpage
        · exact .inl hpage
        · exact .inr (.inl hpage)
        · exact .inr (.inr (.inl ⟨mem_append_left _ hpage.1, hpage.2⟩))
        · rcases mem_spacePages.mp hpage with ⟨_, hspace⟩
          refine .inr (.inr (.inr (mem_spacePages.mpr ⟨huser, ?_⟩)))
          exact (mem_userTablePages_iff (ht'.user huser).2.1 a).mpr
            (hgrows a (mem_userTablePages hspace))
      · refine ⟨k, mem_cons_of_mem _ hk, pages_evolves (hok.tasks k
          (mem_cons_of_mem _ hk)) hev (fun hk' path => ?_) ha⟩
        rintro ⟨path', hc⟩
        injection hc with hc _
        exact ((pairwise_cons.mp hok.apart).1 k hk).2 huser hk' hc.symm
    · rcases mem_cons.mp hk with rfl | hk
      · refine ⟨(h.once _ mem_cons_self).1, ?_⟩
        refine List.Nodup.append (h.once _ mem_cons_self).2 (nodup_singleton p)
          fun a ha hb => ?_
        rw [mem_singleton] at hb
        exact (hrun p (inRun_self p Nat.one_pos)).1 (hb ▸ (ht.grown a ha).2)
      · exact h.once k (mem_cons_of_mem _ hk)

theorem reapTask_ledger {t : Task} (h : Ledger src img Sound Fixed others m (holdings t :: hs)) :
    Ledger src img Sound Fixed others (reapTask src m t) hs := by
  rcases ledger_roles h with ⟨role, hok, hothers⟩
  have hsys := (carries_reapTask t hok).sys
  have ht := hok.tasks _ mem_cons_self
  rw [reapTask_eq hex t ht] at hsys ⊢
  refine ledger_call hex h hothers (adds_same h.sound rfl rfl) (fun a _ => rfl) hsys
    (fun a ha => ?_) (fun a hc => absurd hc not_false) (fun k hk a ha => ?_)
    fun k hk => h.once k (mem_cons_of_mem _ hk)
  · have hrole := taskPage_role ht (taskPage_of_mem ha)
    exact ⟨fun hc => taskRole_not_shared (hc ▸ hrole.1), hrole.2⟩
  · rcases mem_cons.mp hk with rfl | hk
    · exact .inl ha
    · exact .inr ⟨k, hk, ha⟩

/-- Dead tasks are reaped one after the other. -/
theorem reapTasks_ledger (dead : List Task) : ∀ m : Machine σ,
    Ledger src img Sound Fixed others m (dead.map holdings ++ hs) →
    Ledger src img Sound Fixed others (dead.foldl (reapTask src) m) hs := by
  induction dead with
  | nil => exact fun m h => h
  | cons t dead ih => exact fun m h => ih _ (reapTask_ledger hex h)

end

end CortexForge.Sched
