import CortexForge.Theory.Outcomes

/-!
# Task Construction Keeps the Invariant

Creating and growing tasks, against the invariant of tasks. A new task
is built from pages that were nobody's, so the tasks there are stay as they were;
when the construction fails halfway, the pages that are given back have roles of
the task that never was.

The address space of a created and of a forked task is built by the same steps,
described by `Built`: the window on the text, the trampoline, and a stack that is
cleared in one case and copied in the other.

## Main definitions

* `Built`: An address space with its stack.

## Theorems

* `zeroedPages_refused`, `zeroedPages_got`: Cleared pages.
* `newSpace_spec`, `userSpace_spec`: The steps of building an address space.
* `construction_goes`, `createKernelTask_goes`, `tryGrowStack_spec`: The calls.
-/

namespace CortexForge.Sched

open Mmu Elf Holdings List

variable {σ : Type} {src : Pages σ} {img : KernelImage}

section

variable {m m1 m2 : Machine σ} {role : Roles} {r n u : Nat}

/-- Without pages there was a refusal. -/
theorem zeroedPages_refused (role : Roles) (hcall : zeroedPages src m n = (m1, 0)) :
    Evolves src (fun _ => False) m role m1 role ∧ m.refused < m1.refused := by
  rcases zeroedPages_eq hcall with ⟨m0, halloc, hrefused, -⟩
  rw [hrefused rfl]
  simpa only [halloc] using evolves_refused (fun _ => False) role (congrArg Prod.snd halloc)

/-- Cleared pages were nobody's. -/
theorem zeroedPages_got (role : Roles) (ρ : Role) (hcall : zeroedPages src m n = (m1, u))
    (hu : u ≠ 0) :
    Evolves src (fun _ => False) m role m1 (assign role u n ρ) ∧
      (∀ a, InRun u n a → ¬ src.Held m.pmm a ∧ src.Held m1.pmm a) ∧ m1.refused = m.refused := by
  rcases zeroedPages_eq hcall with ⟨m0, halloc, -, hfilled⟩
  rw [hfilled hu]
  refine evolves_fill (fun _ => False) role ρ halloc hu _ fun x hx => ?_
  rw [memset_other _ _ 0#8 _ x hx, allocatePages_mem halloc]

theorem sharedPage_evolves {W : Role → Prop} {role1 : Roles}
    (hev : Evolves src W m role m1 role1) {a : Nat} (ha : SharedPage img m a) :
    SharedPage img m1 a := by
  rcases ha with htext | ⟨hne, heq⟩
  · exact .inl htext
  · rcases hev.tramp with hsame | ⟨hzero, _⟩
    · rw [← hsame] at hne heq
      exact .inr ⟨hne, heq⟩
    · exact absurd hzero hne

/-- A new address space maps shared pages only. -/
theorem createTables_leaves (hshared : SharedOk src (TextPage img) m role)
    (hcall : mmuCreateUserTables src m = (m1, r)) (hne : r ≠ 0) :
    ¬ src.Held m.pmm r ∧ ∃ role1, Evolves src (TableOf r) m role m1 role1 ∧
      SpaceOk src m1 role1 r ∧ LeavesOk (fun _ => False) (SharedPage img m1) m1.mem r ∧
      (m1.refused = m.refused → m1.sigtrampPhys ≠ 0 ∧ ∀ v, v < 2 ^ 48 →
        translate m1.mem r v =
          if v / pageSize = userSigtrampVa / pageSize then
            some (leafEntry m1.sigtrampPhys textFlags)
          else none) := by
  rcases createTables_got role hcall hne with ⟨hnew, role1, hev, hspace, hleaves, hplain⟩
  refine ⟨hnew, role1, hev, hspace, fun path j e hlen he => ?_, hplain⟩
  rcases hleaves path j e hlen he with ⟨htramp, heq⟩
  rcases held_lt ((sharedOk_evolves hshared hev).tramp_shared htramp).2 with ⟨halign, hlt⟩
  rw [heq]
  exact leafEntry_ok textFlags_ok halign hlt (.inr ⟨.inr ⟨htramp, rfl⟩, by decide⟩)

/-- The window on the kernel's text is mapped over the trampoline. -/
theorem newSpace_spec (hshared : SharedOk src (TextPage img) m role)
    (hcall : mmuCreateUserTables src m = (m1, r)) (hne : r ≠ 0)
    (hmap : mmuMapUserRange src m1 r userTextBase (textStartPa img) (textPages img)
      textFlags = m2) :
    ¬ src.Held m.pmm r ∧ ∃ role2, Evolves src (TableOf r) m role m2 role2 ∧
      SpaceOk src m2 role2 r ∧ LeavesOk (fun _ => False) (SharedPage img m2) m2.mem r ∧
      (m2.refused = m.refused → m2.sigtrampPhys ≠ 0 ∧ ∀ v, v < 2 ^ 48 →
        translate m2.mem r v = windowMap img m2.sigtrampPhys v) := by
  rcases createTables_leaves hshared hcall hne with ⟨hnew, role1, hev1, hspace1, hleaves1, hplain1⟩
  have htext := (sharedOk_evolves hshared hev1).text_shared
  rcases mapRange_leaves hspace1 hleaves1 userTextBase textFlags_ok
    (fun a ha => ⟨(held_lt (htext a ha).2).1, (held_lt (htext a ha).2).2,
      .inr ⟨.inl ha, by decide⟩⟩) with ⟨role2, hgrows, hleaves2⟩
  rw [hmap] at hgrows hleaves2
  refine ⟨hnew, role2, evolves_trans hev1 hgrows.evolves, hgrows.space,
    leavesOk_mono hleaves2 (fun _ hc => hc) fun a ha => sharedPage_evolves hgrows.evolves ha,
    fun hsame => ?_⟩
  -- No refusal on the way, so each step mapped what it was to map.
  have hle1 := hev1.refused_le
  have hle2 := hgrows.evolves.refused_le
  rcases hplain1 (by omega) with ⟨htramp, hmap1⟩
  have htramp2 : m2.sigtrampPhys = m1.sigtrampPhys := by
    rcases hgrows.evolves.tramp with heq | ⟨hzero, _⟩
    · exact heq
    · exact absurd hzero htramp
  rw [htramp2]
  refine ⟨htramp, fun v hv => ?_⟩
  have hbound : userTextBase + (0 + textPages img) * pageSize ≤ 2 ^ 48 := by
    have hend := (textPages_spec img).2
    rw [Nat.zero_add]
    unfold userTextBase
    unfold physLimit at hend
    omega
  unfold mmuMapUserRange at hmap
  have htrans :=
    mapLoop_translate userTextBase (textStartPa img) textFlags (textPages img) 0 m1 role1
    hspace1 hbound (by rw [hmap]; omega) v hv
  rw [hmap, hmap1 v hv] at htrans
  exact htrans

/-- An address space with the window, the trampoline and the stack at `u`, built
    from the machine `m0` on. -/
structure Built (src : Pages σ) (img : KernelImage) (r u : Nat)
    (m0 : Machine σ) (role0 : Roles) (m : Machine σ) (role : Roles) : Prop where
  evolves : Evolves src (TableOf r) m0 role0 m role
  root_new : ¬ src.Held m0.pmm r
  space : SpaceOk src m role r
  pages : ∀ a, InRun u userStackPages a →
    role a = .data r ∧ src.Held m.pmm a ∧ ¬ src.Held m0.pmm a
  leaves : LeavesOk (InRun u userStackPages) (SharedPage img m) m.mem r
  plain : m.refused = m0.refused → m.sigtrampPhys ≠ 0 ∧ ∀ v, v < 2 ^ 48 →
    translate m.mem r v = plainMap img m.sigtrampPhys u v

/-- The stack on top of the window. Its pages are filled before they are mapped,
    and mapping does not write to them. -/
theorem userSpace_spec {m3 m4 : Machine σ} (mem : Memory)
    (hshared : SharedOk src (TextPage img) m role) (hcall : mmuCreateUserTables src m = (m1, r))
    (hne : r ≠ 0)
    (hmap : mmuMapUserRange src m1 r userTextBase (textStartPa img) (textPages img) textFlags = m2)
    (halloc : allocatePages src m2 userStackPages = (m3, u)) (hu : u ≠ 0)
    (hfill : ∀ x, x < u ∨ u + userStackPages * pageSize ≤ x → mem x = m2.mem x)
    (hstack : mmuMapUserRange src { m3 with mem := mem } r ustackUserBase u userStackPages
      stackFlags
      = m4) :
    ∃ role4, Built src img r u m role m4 role4 ∧
      ∀ a x, InRun u userStackPages a → InPage a x → m4.mem x = mem x := by
  rcases newSpace_spec hshared hcall hne hmap with ⟨hnew, role2, hev2, hspace2, hleaves2, hplain2⟩
  rcases evolves_fill (TableOf r) role2 (.data r) halloc hu mem hfill with ⟨hev3, hrun, hcount⟩
  rcases evolves_fill (fun _ => False) role2 (.data r) halloc hu mem hfill with ⟨hnone, _⟩
  rcases space_frame hspace2 hnone fun _ hc => hc with ⟨hspace3, _, hleaf3⟩
  have hrole3 : ∀ a, InRun u userStackPages a → assign role2 u userStackPages (.data r) a =
    .data r :=
    fun a ha => assign_of_inRun ha
  rcases mapRange_leaves hspace3 (leavesOk_mono (leavesOk_congr hleaves2 hleaf3)
    nofun fun a ha => sharedPage_evolves hev3 ha) ustackUserBase stackFlags_ok
    (fun a ha => ⟨(held_lt (hrun a ha).2).1, (held_lt (hrun a ha).2).2, .inl ha⟩) with
    ⟨role4, hgrows, hleaves4⟩
  rw [hstack] at hgrows hleaves4
  have hrole4 : ∀ a, InRun u userStackPages a → role4 a = .data r := fun a ha => by
    rw [hgrows.evolves.role_eq a (hrun a ha).2, hrole3 a ha]
  refine ⟨role4, ⟨evolves_trans hev2 (evolves_trans hev3 hgrows.evolves), hnew, hgrows.space,
    fun a ha => ⟨hrole4 a ha, hgrows.evolves.held a (hrun a ha).2, fun hc => ?_⟩,
    leavesOk_mono hleaves4 (fun _ hc => hc) fun a ha => sharedPage_evolves hgrows.evolves ha,
    fun hsame => ?_⟩, fun a x ha hx => ?_⟩
  · exact (hrun a ha).1 (hev2.held a hc)
  · -- Without a refusal the stack is mapped over what the window left.
    have hle2 := hev2.refused_le
    have hle3 := hev3.refused_le
    have hle4 := hgrows.evolves.refused_le
    rcases hplain2 (by omega) with ⟨htramp, hmap2⟩
    have htramp4 : m4.sigtrampPhys = m2.sigtrampPhys := by
      rcases (evolves_trans hev3 hgrows.evolves).tramp with heq | ⟨hzero, _⟩
      · exact heq
      · exact absurd hzero htramp
    rw [htramp4]
    refine ⟨htramp, fun v hv => ?_⟩
    unfold mmuMapUserRange at hstack
    have htrans := mapLoop_translate ustackUserBase u stackFlags userStackPages 0 _ _ hspace3
      (by unfold ustackUserBase userStackTop userStackPages pageSize; omega)
      (by rw [hstack]; simp only; omega) v hv
    have hold : translate mem r v = translate m2.mem r v := hleaf3 _ _ (Nat.le_refl 3)
    rw [hstack] at htrans
    simp only [hold, hmap2 v hv] at htrans
    exact htrans
  · refine hgrows.evolves.mem_eq a x (hrun a ha).2 ?_ hx
    rw [hrole3 a ha]
    rintro ⟨path, hc⟩
    exact Role.noConfusion hc

end

section

variable {m mk m4 : Machine σ} {role rolek role4 : Roles} {hs : List Holdings} {k r u : Nat}
  {mem : Memory}

/-- A kernel stack at `k`, cleared, from the machine `m` to the machine `mk`. -/
structure KernelStack (src : Pages σ) (k : Nat) (m : Machine σ)
    (role : Roles) (mk : Machine σ) (rolek : Roles) : Prop where
  evolves : Evolves src (fun _ => False) m role mk rolek
  ne_zero : k ≠ 0
  pages : ∀ a, InRun k taskStackPages a →
    ¬ src.Held m.pmm a ∧ src.Held mk.pmm a ∧ rolek a = .kstack k

theorem kernelStack_new (h : KernelStack src k m role mk rolek) : ¬ src.Held m.pmm k :=
  (h.pages k (inRun_self k (Nat.succ_pos 3))).1

theorem kernelStack_spec {mk : Machine σ} (role : Roles)
    (hcall : zeroedPages src m taskStackPages = (mk, k)) :
    (k = 0 ∧ Evolves src (fun _ => False) m role mk role) ∨
      ∃ rolek, KernelStack src k m role mk rolek := by
  by_cases hk : k = 0
  · exact .inl ⟨hk, (zeroedPages_refused role (hk ▸ hcall)).1⟩
  · rcases zeroedPages_got role (.kstack k) hcall hk with ⟨hev, hrun, _⟩
    refine .inr ⟨_, hev, hk, fun a ha => ⟨(hrun a ha).1, (hrun a ha).2, ?_⟩⟩
    exact assign_of_inRun ha

theorem evolves_kstack (hpages : ∀ a, InRun k taskStackPages a →
      src.Held m.pmm a ∧ role a = .kstack k) (hmem : StackOnly k mem m.mem) :
    Evolves src (· = .kstack k) m role { m with mem := mem } role := by
  refine evolves_write fun x hx => ?_
  have hin : k ≤ x ∧ x < k + taskStackPages * pageSize := by
    by_contra hout
    exact hx (hmem x (by omega))
  rcases inPage_of_run k taskStackPages x hin.1 hin.2 with ⟨a, ha, hax⟩
  exact ⟨a, (hpages a ha).1, hax, (hpages a ha).2⟩

theorem ttbrBaddr_pack (baddr asid : Nat) (hlt : baddr < 2 ^ 48) :
    ttbrBaddr (ttbrPack baddr asid) = baddr := by
  unfold ttbrBaddr ttbrPack
  omega

theorem ttbrPack_ne (baddr asid : Nat) (hne : baddr ≠ 0) (hlt : baddr < 2 ^ 48) :
    ttbrPack baddr asid ≠ 0 := by
  unfold ttbrPack
  omega

variable (hok : SysOk src img m role hs) (hkstack : KernelStack src k m role mk rolek)
include hkstack

/-- The kernel stack keeps its role while the address space is built. -/
theorem built_kstack (hbuilt : Built src img r u mk rolek m4 role4) (a : Nat)
    (ha : InRun k taskStackPages a) :
    src.Held m4.pmm a ∧ role4 a = .kstack k := by
  rcases hkstack.pages a ha with ⟨_, hheld, hrole⟩
  exact ⟨hbuilt.evolves.held a hheld, (hbuilt.evolves.role_eq a hheld).trans hrole⟩

/-- The construction of a user task writes to its tables and its kernel stack, as
    far as pages are concerned that were in use before. -/
theorem newTask_evolves (hbuilt : Built src img r u mk rolek m4 role4)
    (hmem : StackOnly k mem m4.mem) :
    Evolves src (fun ρ => TableOf r ρ ∨ ρ = .kstack k) m role { m4 with mem := mem } role4 :=
  evolves_trans (evolves_mono hkstack.evolves nofun)
    (evolves_trans (evolves_mono hbuilt.evolves fun _ => .inl)
      (evolves_mono (evolves_kstack (built_kstack hkstack hbuilt) hmem) fun _ => .inr))

include hok

/-- The tasks there are go on: no table of theirs is written to. -/
theorem newTask_carries (hbuilt : Built src img r u mk rolek m4 role4)
    (hmem : StackOnly k mem m4.mem) : Carries src img m { m4 with mem := mem } role4 hs := by
  refine carries_evolves hok (newTask_evolves hkstack hbuilt hmem) fun h hmem' huser path hc => ?_
  rcases hc with hc | hc
  · exact not_tableOf_new hok (fun hc => hbuilt.root_new (hkstack.evolves.held r hc)) hmem' huser
      path hc
  · exact Role.noConfusion hc

/-- A new user task. What is written to its kernel stack last does not matter. -/
theorem newTask_ok (asid : Nat) (fds : Bool) (hbuilt : Built src img r u mk rolek m4 role4)
    (hr : r ≠ 0) (hu : u ≠ 0) (hmem : StackOnly k mem m4.mem) :
    SysOk src img { m4 with mem := mem } role4 (⟨k, ttbrPack r asid, u, [], [], fds⟩ :: hs) := by
  have hheldr := (hbuilt.space.place [] r (Nat.zero_le 3) rfl).2
  have hroot : Holdings.root ⟨k, ttbrPack r asid, u, [], [], fds⟩ = r :=
    ttbrBaddr_pack r asid (held_lt hheldr).2
  have hnewr : ¬ src.Held m.pmm r := fun hc => hbuilt.root_new (hkstack.evolves.held r hc)
  have hkpages := built_kstack hkstack hbuilt
  have hwrite := evolves_kstack hkpages hmem
  rcases space_frame hbuilt.space hwrite fun _ => Role.noConfusion with ⟨hspace, _, hleaf⟩
  refine sysOk_cons (newTask_carries hok hkstack hbuilt hmem).sys ?_
    (apart_of_new hok (fun _ => kernelStack_new hkstack) fun _ => by rw [hroot]; exact hnewr)
  refine ⟨fun a ha => ⟨(hkpages a ha.2).2, (hkpages a ha.2).1⟩, fun a ha => ?_,
    nofun,
    fun hc => absurd hc (ttbrPack_ne r asid hr (held_lt hheldr).2), fun _ => ?_,
    fun hrefused _ _ _ => ?_⟩
  · rcases ha with ⟨_, hrun⟩ | ⟨_, hc, _⟩
    · rw [hroot]
      exact ⟨(hbuilt.pages a hrun).1, (hbuilt.pages a hrun).2.1⟩
    · exact absurd hc not_mem_nil
  · rw [hroot]
    refine ⟨hkstack.ne_zero, hspace, leavesOk_mono (leavesOk_congr hbuilt.leaves hleaf)
      (fun a ha => .inl (.inl ⟨hu, ha⟩)) fun _ ha => ha⟩
  · have hle := hbuilt.evolves.refused_le
    simp only at hrefused
    rcases hbuilt.plain (by omega) with ⟨htramp, hmap⟩
    refine ⟨htramp, fun v hv => ?_⟩
    rw [hroot, ← hmap v hv]
    exact hleaf (pathOf v) (l3Index v) (Nat.le_refl 3)

theorem newKernelTask_carries (hmem : StackOnly k mem mk.mem) :
    Carries src img m { mk with mem := mem } rolek hs := by
  have hwrite := evolves_kstack (fun a ha => (hkstack.pages a ha).2) hmem
  have hev := evolves_trans (evolves_mono hkstack.evolves nofun) hwrite
  exact carries_evolves hok hev fun _ _ _ _ => Role.noConfusion

theorem newKernelTask_ok (hmem : StackOnly k mem mk.mem) :
    SysOk src img { mk with mem := mem } rolek (⟨k, 0, 0, [], [], false⟩ :: hs) := by
  refine sysOk_cons (newKernelTask_carries hok hkstack hmem).sys ?_
    (apart_of_new hok (fun _ => kernelStack_new hkstack) fun hc => absurd rfl hc)
  refine ⟨fun a ha => ?_, fun a ha => ?_, nofun,
    fun _ => ⟨rfl, rfl, rfl, rfl⟩, fun hc => absurd rfl hc, fun _ hc => absurd rfl hc⟩
  · exact ⟨(hkstack.pages a ha.2).2.2, (hkstack.pages a ha.2).2.1⟩
  · rcases ha with ⟨hc, _⟩ | ⟨_, hc, _⟩
    · exact absurd rfl hc
    · exact absurd hc not_mem_nil

omit hkstack in
/-- A construction that is given up: the pages given back have roles of the task
    that never was. -/
theorem carries_abandon {m' m'' : Machine σ} {role' : Roles} {P : Nat → Prop}
    (hgoes : Carries src img m m' role' hs) (hfrees : Frees src P m' m'')
    (hroles : ∀ a, P a → (∃ k, ¬ src.Held m.pmm k ∧ role' a = .kstack k) ∨
      ∃ r, ¬ src.Held m.pmm r ∧ (role' a = .data r ∨ TableOf r (role' a))) :
    Carries src img m m'' role' hs := by
  refine ⟨sysOk_frees_roles hgoes.sys hfrees fun a ha => ?_, mapsKept_trans hgoes.maps
    (mapsKept_of_mem hfrees.mem_eq (Nat.le_of_eq hfrees.refused_eq.symm) hs)⟩
  rcases hroles a ha with ⟨k, hk, hrole⟩ | ⟨r, hr, hrole⟩
  · rw [hrole]
    exact ⟨Role.noConfusion, fun h hmem => not_taskRole_stack hok hk hmem⟩
  · refine ⟨fun hc => ?_, fun h hmem => not_taskRole_space hok hr hmem hrole⟩
    rw [hc] at hrole
    rcases hrole with hc | ⟨_, hc⟩
    · exact Role.noConfusion hc
    · exact Role.noConfusion hc

end

/-- The invariant of the scheduler's state, over the tasks of the run queue and
    those waiting to be reaped. -/
def SchedOk (src : Pages σ) (img : KernelImage) (s : Sched σ) : Prop :=
  ∃ role, SysOk src img s.machine role ((s.queue ++ s.deadList).map holdings)

section

variable {s : Sched σ} {m m1 mk m2 m3 : Machine σ} {queue deadList : List Task}
  {pid asid ttbr k r : Nat} {role rolek : Roles} {hs : List Holdings}

/-- The numbers that are handed out play no part. -/
theorem schedOk_mk (hok : SysOk src img m role ((queue ++ deadList).map holdings)) :
    SchedOk src img ⟨m, queue, deadList, pid, asid, ttbr⟩ :=
  ⟨role, hok⟩

/-- The tasks there are go on with the address spaces they have. Those that are new
    have loaded no program and grown no stack. -/
structure Goes (src : Pages σ) (img : KernelImage) (s s' : Sched σ) : Prop where
  ok : SchedOk src img s'
  refused_le : s.machine.refused ≤ s'.machine.refused
  tasks : ∀ h ∈ (s'.queue ++ s'.deadList).map holdings, h.regions = [] ∧ h.grown = [] ∨
    h ∈ (s.queue ++ s.deadList).map holdings ∧ (h.ttbr0 ≠ 0 → ∀ v,
      translate s'.machine.mem h.root v = translate s.machine.mem h.root v)

theorem goes_refl (hok : SchedOk src img s) : Goes src img s s :=
  ⟨hok, Nat.le_refl _, fun _ hmem => .inr ⟨hmem, fun _ _ => rfl⟩⟩

theorem goes_trans {s1 s' : Sched σ} (h1 : Goes src img s s1) (h2 : Goes src img s1 s') :
    Goes src img s s' := by
  refine ⟨h2.ok, Nat.le_trans h1.refused_le h2.refused_le, fun h hmem => ?_⟩
  rcases h2.tasks h hmem with hplain | ⟨hmem1, hmap2⟩
  · exact .inl hplain
  · refine (h1.tasks h hmem1).imp_right fun ⟨hmem0, hmap1⟩ => ⟨hmem0, fun huser v => ?_⟩
    exact (hmap2 huser v).trans (hmap1 huser v)

/-- A call that fails, or that does not change the queue. -/
theorem goes_carries {m : Machine σ} {role : Roles}
    (hgoes : Carries src img s.machine m role ((s.queue ++ s.deadList).map holdings)) :
    Goes src img s { s with machine := m } :=
  ⟨⟨role, hgoes.sys⟩, hgoes.maps.refused_le, fun h hmem =>
    .inr ⟨hmem, hgoes.maps.translate_eq h hmem⟩⟩

/-- A task that is appended to the queue is one more task. -/
theorem append_perm (queue deadList : List Task) (t : Task) :
    (holdings t :: (queue ++ deadList).map holdings).Perm
      ((queue ++ [t] ++ deadList).map holdings) := by
  rw [append_assoc, map_append, map_append, singleton_append, map_cons]
  exact perm_middle.symm

theorem goes_append {t : Task}
    (hok : SysOk src img m role (holdings t :: (s.queue ++ s.deadList).map holdings))
    (hmaps : MapsKept s.machine m ((s.queue ++ s.deadList).map holdings))
    (hregions : t.execImage.regions = []) (hgrown : t.stackGrownPhys = []) :
    Goes src img s
      { s with machine := m, queue := s.queue ++ [t], nextPid := pid, nextAsid := asid } := by
  have hperm := append_perm s.queue s.deadList t
  refine ⟨⟨role, sysOk_perm hok hperm⟩, hmaps.refused_le, fun h hmem => ?_⟩
  rcases mem_cons.mp (hperm.mem_iff.mpr hmem) with rfl | hmem
  · exact .inl ⟨hregions, hgrown⟩
  · exact .inr ⟨hmem, hmaps.translate_eq h hmem⟩

/-- What tasks hold stays as it is, up to the order. -/
theorem goes_perm (hok : SchedOk src img s)
    (hperm : ((s.queue ++ s.deadList).map holdings).Perm ((queue ++ deadList).map holdings)) :
    Goes src img s ⟨s.machine, queue, deadList, pid, asid, ttbr⟩ := by
  rcases hok with ⟨role, hok⟩
  exact ⟨⟨role, sysOk_perm hok hperm⟩, Nat.le_refl _, fun h hmem =>
    .inr ⟨hperm.mem_iff.mpr hmem, fun _ _ => rfl⟩⟩

/-- A construction that fails before there are tables. -/
theorem createFail_kstack (hok : SysOk src img m role hs)
    (hkstack : KernelStack src k m role mk rolek)
    (hev : Evolves src (fun _ => False) mk rolek m1 rolek) :
    Carries src img m (freePages src m1 k taskStackPages) rolek hs := by
  have hgoes : Carries src img m m1 rolek hs :=
    carries_evolves hok (evolves_trans hkstack.evolves hev) fun _ _ _ _ => not_false
  refine carries_abandon hok hgoes (freePages_frees m1 ?_) fun a ha => ?_
  · exact run_below (Nat.succ_pos 3) fun a ha => hev.held a (hkstack.pages a ha).2.1
  · exact .inl ⟨k, kernelStack_new hkstack, (hkstack.pages a ha).2.2⟩

/-- A construction that fails when there are tables, and gives `P` back before
    the kernel stack. -/
theorem createFail_tables {role1 : Roles} {P : Nat → Prop} (hok : SysOk src img m role hs)
    (hkstack : KernelStack src k m role mk rolek) (hev : Evolves src (TableOf r) mk rolek m1 role1)
    (hnew : ¬ src.Held mk.pmm r) (hfrees : Frees src P m1 m2)
    (hroles : ∀ a, P a → TableOf r (role1 a)) :
    Carries src img m (freePages src m2 k taskStackPages) role1 hs := by
  have hnewr : ¬ src.Held m.pmm r := fun hc => hnew (hkstack.evolves.held r hc)
  have hgoes1 : Carries src img m m1 role1 hs := by
    refine carries_evolves hok (evolves_trans (evolves_mono hkstack.evolves
      nofun) hev) fun h hmem huser path => ?_
    exact not_tableOf_new hok hnewr hmem huser path
  have hpages : ∀ a, InRun k taskStackPages a → src.Held m2.pmm a ∧ role1 a = .kstack k := by
    intro a ha
    rcases hkstack.pages a ha with ⟨_, hheld, hrole⟩
    have hrole1 := (hev.role_eq a hheld).trans hrole
    refine ⟨hfrees.kept a (hev.held a hheld) fun hp => ?_, hrole1⟩
    rcases hroles a hp with ⟨_, hc⟩
    exact Role.noConfusion (hrole1.symm.trans hc)
  have hgoes2 : Carries src img m m2 role1 hs :=
    carries_abandon hok hgoes1 hfrees fun a ha => .inr ⟨r, hnewr, .inr (hroles a ha)⟩
  refine carries_abandon hok hgoes2 (freePages_frees m2 ?_) fun a ha =>
    .inl ⟨k, kernelStack_new hkstack, (hpages a ha).2⟩
  exact run_below (Nat.succ_pos 3) fun a ha => (hpages a ha).1

/-- Giving the tables of an abandoned address space back. -/
theorem spaceTables_frees (hspace : SpaceOk src m role r) :
    Frees src (TablePage m.mem r) m (mmuFreeUserTables src m r) ∧
      ∀ a, TablePage m.mem r a → TableOf r (role a) := by
  refine ⟨freeTables_frees m r fun a ha => ?_, fun a ha => ?_⟩ <;>
    rcases ha with ⟨path, hlen, hpath⟩
  · exact src.held_below _ _ (hspace.place path a hlen hpath).2
  · exact ⟨path, (hspace.place path a hlen hpath).1⟩

/-- A construction that fails for want of a user stack. -/
theorem createFail_stack {role2 : Roles} {n : Nat} (hok : SysOk src img m role hs)
    (hkstack : KernelStack src k m role mk rolek) (hev : Evolves src (TableOf r) mk rolek m2 role2)
    (hnew : ¬ src.Held mk.pmm r) (hspace : SpaceOk src m2 role2 r)
    (halloc : allocatePages src m2 n = (m3, 0)) :
    Carries src img m (freePages src (mmuFreeUserTables src m3 r) k taskStackPages) role2 hs := by
  have hzero : (allocatePages src m2 n).2 = 0 := by rw [halloc]
  have hnone := (evolves_refused (fun _ => False) role2 hzero).1
  rw [halloc] at hnone
  rcases space_frame hspace hnone fun _ hc => hc with ⟨hspace3, _⟩
  rcases spaceTables_frees hspace3 with ⟨hfrees, hroles⟩
  exact createFail_tables hok hkstack
    (evolves_trans hev (evolves_mono hnone nofun)) hnew hfrees hroles

theorem begun_kernelStack {plan : TaskPlan} (role : Roles) (h : Begun src plan m mk k m1 r) :
    ∃ rolek, KernelStack src k m role mk rolek :=
  (kernelStack_spec role h.kstack).resolve_left fun hc => h.kstack_ne hc.1

/-- The pages of a stacked task have their roles. -/
theorem stacked_built {plan : TaskPlan} {m4 : Machine σ} {u : Nat} {mem : Memory}
    (h : Stacked src img plan m mk k m1 r m2 m3 u m4 mem)
    (hshared : SharedOk src (TextPage img) mk rolek) :
    ∃ role4, Built src img r u mk rolek m4 role4 ∧
      ∀ a x, InRun u userStackPages a → InPage a x → m4.mem x = plan.fill m3.mem u x := by
  have hmem3 := allocatePages_mem h.windowed.stack
  refine userSpace_spec _ hshared h.windowed.begun.tables h.windowed.root_ne h.windowed.window
    h.windowed.stack h.stack_ne (fun x hx => ?_) h.mapped
  rw [plan.fill_other m3.mem u x hx, hmem3]

/-- The construction of a task keeps the invariant. -/
theorem construction_goes {plan : TaskPlan} {res : Sched σ × Int} (hok : SchedOk src img s)
    (h : Construction src img plan s res) : Goes src img s res.1 := by
  rcases hok with ⟨role, hok⟩
  cases h with
  | noRecord _ => exact goes_refl ⟨role, hok⟩
  | noStack _ hkstack =>
    exact goes_carries (carries_evolves hok (zeroedPages_refused role hkstack).1
      fun _ _ _ _ => not_false)
  | noTables hbegun =>
    rcases begun_kernelStack role hbegun with ⟨rolek, hkstack⟩
    exact goes_carries (createFail_kstack hok hkstack (createTables_refused rolek hbegun.tables))
  | @outside mk m1 k r hbegun hr _ =>
    -- Only the first table is given back; the others are lost, and nobody's.
    rcases begun_kernelStack role hbegun with ⟨rolek, hkstack⟩
    have hshared := sharedOk_evolves hok.shared hkstack.evolves
    rcases createTables_leaves hshared hbegun.tables hr with ⟨hnew, role1, hev, hspace, _, _⟩
    have hroot := hspace.place [] r (Nat.zero_le 3) rfl
    refine goes_carries (createFail_tables hok hkstack hev hnew (freePages_frees m1 ?_)
      fun a ha => ?_)
    · rw [Nat.one_mul]
      exact src.held_below _ r hroot.2
    · rw [inRun_one ha]
      exact ⟨[], hroot.1⟩
  | noUserStack hwindowed =>
    rcases begun_kernelStack role hwindowed.begun with ⟨rolek, hkstack⟩
    have hshared := sharedOk_evolves hok.shared hkstack.evolves
    rcases newSpace_spec hshared hwindowed.begun.tables hwindowed.root_ne hwindowed.window with
      ⟨hnew, role2, hev2, hspace2, _, _⟩
    exact goes_carries (createFail_stack hok hkstack hev2 hnew hspace2 hwindowed.stack)
  | made hstacked ht =>
    rcases begun_kernelStack role hstacked.windowed.begun with ⟨rolek, hkstack⟩
    rcases stacked_built hstacked (sharedOk_evolves hok.shared hkstack.evolves) with
      ⟨role4, hbuilt, _⟩
    have hnew := newTask_ok hok hkstack s.nextAsid plan.fds hbuilt hstacked.windowed.root_ne
      hstacked.stack_ne hstacked.frames
    rw [← ht] at hnew
    refine goes_append hnew (newTask_carries hok hkstack hbuilt hstacked.frames).maps ?_ ?_
    · exact congrArg Holdings.regions ht
    · exact congrArg Holdings.grown ht

end

section

variable {s : Sched σ}

/-- Creating a kernel task. It holds its stack and nothing else. -/
theorem createKernelTask_goes (hok : SchedOk src img s) (kmallocOk : Bool) (entry : Nat) :
    Goes src img s (schedCreateKernelTask src img s kmallocOk entry).1 := by
  have hout := @createKernelTask_construction σ src img s kmallocOk entry
  generalize schedCreateKernelTask src img s kmallocOk entry = res at hout ⊢
  rcases hok with ⟨role, hok⟩
  cases hout with
  | noRecord _ => exact goes_refl ⟨role, hok⟩
  | noStack _ hkstack =>
    exact goes_carries (carries_evolves hok (zeroedPages_refused role hkstack).1
      fun _ _ _ _ => not_false)
  | made _ hkcall hk hmem ht =>
    rcases kernelStack_spec role hkcall with ⟨hc, _⟩ | ⟨rolek, hkstack⟩
    · exact absurd hc hk
    have hnew := newKernelTask_ok hok hkstack hmem
    rw [← ht] at hnew
    refine goes_append hnew (newKernelTask_carries hok hkstack hmem).maps ?_ ?_
    · exact congrArg Holdings.regions ht
    · exact congrArg Holdings.grown ht

end

section

variable {s : Sched σ} {m mz m' : Machine σ} {role : Roles} {h : Holdings}
  {hs : List Holdings}

theorem sysOk_tail (hok : SysOk src img m role (h :: hs)) : SysOk src img m role hs :=
  ⟨fun k hmem => hok.tasks k (mem_cons_of_mem _ hmem), (pairwise_cons.mp hok.apart).2,
    hok.shared⟩

theorem mapsKept_tail (h' : MapsKept m m' (h :: hs)) : MapsKept m m' hs :=
  ⟨h'.refused_le, fun k hmem => h'.translate_eq k (mem_cons_of_mem h hmem)⟩

/-- Kernel code that writes to the tables of one task only. -/
theorem tables_carries {role' : Roles} (hok : SysOk src img m role (h :: hs))
    (huser : h.ttbr0 ≠ 0) (hev : Evolves src (TableOf h.root) m role m' role') :
    Carries src img m m' role' hs := by
  refine carries_evolves (sysOk_tail hok) hev fun k hmem hk path => ?_
  rintro ⟨path', hc⟩
  injection hc with hc _
  exact ((pairwise_cons.mp hok.apart).1 k hmem).2 huser hk hc.symm

/-- One more page of stack. -/
theorem growTask_ok {p : Nat} (hok : SysOk src img m role (h :: hs)) (huser : h.ttbr0 ≠ 0)
    (hcall : zeroedPages src m 1 = (mz, p)) (hp : p ≠ 0) (va : Nat)
    (hmap : mmuMapUserRange src mz h.root va p 1 stackFlags = m') :
    (∃ role', Evolves src (TableOf h.root) m role m' role' ∧
        SysOk src img m' role' ({ h with grown := h.grown ++ [p] } :: hs)) ∧
      MapsKept m m' hs ∧ (m'.refused = m.refused → va + pageSize ≤ 2 ^ 48 → ∀ v, v < 2 ^ 48 →
        translate m'.mem h.root v = if v / pageSize = va / pageSize then
            some (leafEntry p stackFlags)
          else translate m.mem h.root v) := by
  rcases zeroedPages_got role (.grown h.stackPhys) hcall hp with ⟨hev1, hrun, hrefused1⟩
  have hself := inRun_self p Nat.one_pos
  have hrole1 : assign role p 1 (.grown h.stackPhys) p = .grown h.stackPhys := assign_of_inRun hself
  rcases carries_evolves hok hev1 fun _ _ _ _ => not_false with ⟨hok1, hmaps1⟩
  have ht := hok1.tasks h mem_cons_self
  rcases ht.user huser with ⟨hstack, hspace, hleaves⟩
  have hpages : ∀ a, InRun p 1 a → a % pageSize = 0 ∧ a < 2 ^ 48 ∧
      (OwnPage { h with grown := h.grown ++ [p] } a ∨
        SharedPage img mz a ∧ el0Write stackFlags = false) := by
    intro a ha
    rcases held_lt (hrun a ha).2 with ⟨halign, hlt⟩
    refine ⟨halign, hlt, .inl (.inr ?_)⟩
    rw [inRun_one ha]
    exact mem_append_right _ (mem_singleton_self p)
  have hown : ∀ a, h.OwnPage a → OwnPage { h with grown := h.grown ++ [p] } a := by
    intro a ha
    rcases ha with ha | ha
    · exact .inl ha
    · exact .inr (mem_append_left _ ha)
  rcases mapRange_leaves hspace (leavesOk_mono hleaves hown fun _ ha => ha) va stackFlags_ok hpages
    with ⟨role', hgrows, hleaves'⟩
  rw [hmap] at hgrows hleaves'
  -- What the task held before keeps its roles.
  have hkeep : ∀ a ρ, src.Held mz.pmm a → assign role p 1 (.grown h.stackPhys) a = ρ →
      role' a = ρ ∧ src.Held m'.pmm a := fun a ρ hheld hrole =>
    ⟨(hgrows.evolves.role_eq a hheld).trans hrole, hgrows.evolves.held a hheld⟩
  have hothers := tables_carries hok1 huser hgrows.evolves
  have hev := evolves_trans (evolves_mono hev1 nofun) hgrows.evolves
  refine ⟨⟨role', hev, sysOk_cons hothers.sys ?_ (pairwise_cons.mp hok.apart).1⟩,
    mapsKept_trans (mapsKept_tail hmaps1) hothers.maps, fun hrefused hva v hv => ?_⟩
  rotate_left
  · -- One page is mapped over what there was.
    have hmapped := mapLoop_translate va p stackFlags 1 0 mz _ hspace (by omega)
      (by rw [← mmuMapUserRange, hmap, hrefused, hrefused1]) v hv
    rw [← mmuMapUserRange, hmap] at hmapped
    rw [hmapped, hmaps1.translate_eq h mem_cons_self huser v]
    by_cases hpage : v / pageSize = va / pageSize
    · simp [hpage]
    · rw [if_neg (by omega), if_neg hpage]
  refine ⟨fun a ha => ?_, fun a ha => ?_, fun a ha => ?_, fun hc => absurd hc huser, fun _ => ?_,
    fun _ _ _ hc => ?_⟩
  · exact hkeep a _ (ht.kstack a ha).2 (ht.kstack a ha).1
  · exact hkeep a _ (ht.image a ha).2 (ht.image a ha).1
  · rcases mem_append.mp ha with ha | ha
    · exact hkeep a _ (ht.grown a ha).2 (ht.grown a ha).1
    · rw [mem_singleton] at ha
      rw [ha]
      exact hkeep p _ (hrun p hself).2 hrole1
  · exact ⟨hstack, hgrows.space, leavesOk_mono hleaves' (fun _ ha => ha) fun a ha =>
      sharedPage_evolves hgrows.evolves ha⟩
  · exact absurd hc (append_ne_nil_of_right_ne_nil _ (cons_ne_nil p []))

/-- The current task `t` has grown its stack by the page `p` at the address
    `far`. -/
structure StackGrown (s : Sched σ) (far : Nat) (s' : Sched σ) (t : Task) (rest : List Task)
    (p : Nat) : Prop where
  current : s.queue = t :: rest
  user : t.ttbr0 ≠ 0
  queue_eq : s'.queue = { t with stackGrownPhys := t.stackGrownPhys ++ [p] } :: rest
  dead_eq : s'.deadList = s.deadList
  others : MapsKept s.machine s'.machine ((rest ++ s.deadList).map holdings)
  mapped : s'.machine.refused = s.machine.refused → ∀ v, v < 2 ^ 48 →
    translate s'.machine.mem (ttbrBaddr t.ttbr0) v = if v / pageSize = far / pageSize then
        some (leafEntry p stackFlags)
      else translate s.machine.mem (ttbrBaddr t.ttbr0) v

theorem tryGrowStack_spec (hok : SchedOk src img s) (far : Nat) :
    (schedTryGrowStack src s far).2 = false ∧ Goes src img s (schedTryGrowStack src s far).1 ∨
    (schedTryGrowStack src s far).2 = true ∧ SchedOk src img (schedTryGrowStack src s far).1 ∧
      ∃ t rest p, StackGrown s far (schedTryGrowStack src s far).1 t rest p := by
  have hout := @tryGrowStack_growth σ src s far
  generalize schedTryGrowStack src s far = res at hout ⊢
  cases hout with
  | refused => exact .inl ⟨rfl, goes_refl hok⟩
  | noPage hpage =>
    rcases hok with ⟨role, hok⟩
    exact .inl ⟨rfl, goes_carries (carries_evolves hok (zeroedPages_refused role hpage).1
      fun _ _ _ _ => not_false)⟩
  | @grown t rest mz m' p hcurrent huser hfar hpage hp hmap =>
    rcases hok with ⟨role, hok⟩
    rw [hcurrent] at hok
    rcases growTask_ok hok huser hpage hp _ hmap with ⟨⟨role', _, hok'⟩, hothers, hmapped⟩
    refine .inr ⟨rfl, schedOk_mk hok', t, rest, p, hcurrent, huser, rfl, rfl, hothers,
      fun hrefused v hv => ?_⟩
    have hva : far / pageSize * pageSize + pageSize ≤ 2 ^ 48 := by
      have hbase : ustackUserBase = 0x7FC000 := rfl
      unfold pageSize
      omega
    have hpage' : far / pageSize * pageSize / pageSize = far / pageSize :=
      Nat.mul_div_cancel _ (Nat.succ_pos 4095)
    have hv' := hmapped hrefused hva v hv
    rw [hpage'] at hv'
    exact hv'

end

end CortexForge.Sched
