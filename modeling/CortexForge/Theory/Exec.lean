import CortexForge.Theory.TaskCalls

/-!
# Replacing an Image Keeps the Invariant

`loadImage` against the invariant of tasks. The new image is built while the old
one is in place, from pages that were nobody's; only then the task changes over,
and the old image is given back. What a task keeps across the change are its
kernel stack and the pages its stack grew by, whose roles name the task and not
an address space.

The arguments go to the top of the new stack. Their capture keeps them short
enough for that (`captureArgs_bounds`), so what `sys_exec` captures are `ExecArgs`.

## Main definitions

* `execArgs`: The arguments that are captured.

## Theorems

* `sysExec_execArgs`: A call of `sys_exec` asks for an image with captured arguments.

* `writeArgs_other`: Writing them stays inside the new stack.
* `freeOldImage_frees`: What is given back of the old image.
* `replaceTask_ok`: A task that has changed over.
* `loadImage_spec`: The call.
-/

namespace CortexForge.Sched

open Mmu Elf Holdings Syscall List

section

/-- A capture takes at most `n` strings, and no more bytes than are left for them. -/
theorem captureArgs_bounds {mem : Memory} {argv : BitVec 64} (n : Nat) : ∀ argc bytes args,
    bytes ≤ execArgBytesMax → captureArgs mem argv n argc bytes = some args →
      args.length ≤ n ∧ bytes + argBytes args ≤ execArgBytesMax := by
  induction n with
  | zero =>
    intro argc bytes args hbytes hcap
    cases hcap
    exact ⟨Nat.le_refl 0, hbytes⟩
  | succ n ih =>
    intro argc bytes args hbytes hcap
    simp only [captureArgs] at hcap
    generalize Signal.loadU64 mem (argv + BitVec.ofNat 64 (argc * 8)) = p at hcap
    split_ifs at hcap
    · rw [← Option.some.inj hcap]
      exact ⟨Nat.zero_le _, hbytes⟩
    rcases hlen : userStrOk mem p with _ | len
    · rw [hlen] at hcap
      cases hcap
    simp only [hlen] at hcap
    split_ifs at hcap with hfull
    -- The test before a string is taken leaves room for it and its terminator.
    rcases Option.map_eq_some_iff.mp hcap with ⟨rest, hrest, rfl⟩
    rcases ih _ _ rest (Nat.le_of_not_lt hfull) hrest with ⟨hcount, hroom⟩
    refine ⟨Nat.succ_le_succ hcount, ?_⟩
    simp only [argBytes, map_cons, sum_cons, length_map, length_range] at hroom ⊢
    omega

/-- The arguments that `sys_exec` captures, or `none` when it refuses them. -/
def execArgs (mem : Memory) (argv : BitVec 64) : Option ExecArgs :=
  if argv = 0 then some ⟨[], Nat.zero_le _, Nat.zero_le _⟩
  else
    (captureArgs mem argv execMaxArgc 0 0).pmap
      (fun strings h => ⟨strings, h.1, Nat.zero_add (argBytes strings) ▸ h.2⟩)
      (fun strings h => captureArgs_bounds _ _ _ strings (Nat.zero_le _) h)

theorem execArgs_strings (mem : Memory) (argv : BitVec 64) :
    (execArgs mem argv).map ExecArgs.strings =
      if argv = 0 then some [] else captureArgs mem argv execMaxArgc 0 0 := by
  unfold execArgs
  split_ifs
  · rfl
  · rw [Option.map_pmap, Option.pmap_eq_map, Option.map_id']

/-- Whatever image `sys_exec` asks for, it asks for with captured arguments. -/
theorem sysExec_execArgs {K : Type} (svc : Services K) (path argv : BitVec 64)
    (frame : Signal.TrapFrame) (w : World K) : sysExec svc path argv frame w =
      if userStrOk w.mem path = none ∨ w.hasFds = false then some (w, none)
      else
        (execArgs w.mem argv).elim (some (w, none)) fun args =>
          (svc.loadImage path args.strings w).map fun r =>
            (r.1, r.2.map (execFrame frame · args.strings)) := by
  rw [sysExec, ← execArgs_strings]
  by_cases hpath : userStrOk w.mem path = none
  · rw [if_pos hpath, if_pos (.inl hpath)]
  by_cases hfds : w.hasFds = false
  · rw [if_neg hpath, if_pos hfds, if_pos (.inr hfds)]
  rw [if_neg hpath, if_neg hfds, if_neg (not_or.mpr ⟨hpath, hfds⟩)]
  cases execArgs w.mem argv <;> rfl

/-- The pointers go into their array. -/
theorem writeArgv_other (args : List (List Byte)) (argv n : Nat) : ∀ i mem x,
    x < argv ∨ argv + 8 * (i + n) ≤ x → writeArgv args argv n i mem x = mem x := by
  induction n with
  | zero => exact fun i mem x _ => rfl
  | succ n ih =>
    intro i mem x hx
    rw [writeArgv, ih (i + 1) _ x (by omega), storeN_other (by omega)]

/-- Writing the arguments stays inside the stack. -/
theorem writeArgs_other (mem : Memory) (stack : Nat) (args : ExecArgs) (x : Nat)
    (hx : x < stack ∨ stack + userStackPages * pageSize ≤ x) :
    writeArgs mem stack args.strings x = mem x := by
  have hcount := args.count_le
  have hbytes := args.bytes_le
  unfold writeArgs
  by_cases hsome : args.strings.length > 0
  · simp only [if_pos hsome]
    unfold argvUserBase stringsUserBase ustackUserBase userStackPages pageSize
      execMaxArgc execArgBytesMax at *
    rw [storeN_other (by omega), writeArgv_other _ _ _ _ _ _ (by omega),
      memcpy_other (by omega)]
  · rw [if_neg hsome]

end

variable {σ : Type} {src : Pages σ} {img : KernelImage}

section

variable {m m' : Machine σ} {role role' : Roles} {h : Holdings} {hs : List Holdings}

/-- A page of the old image or of its tables. -/
def OldPage (m : Machine σ) (h : Holdings) (a : Nat) : Prop :=
  h.ImagePage a ∨ h.ttbr0 ≠ 0 ∧ TablePage m.mem h.root a

theorem oldPage_taskPage {a : Nat} (ha : OldPage m h a) : TaskPage m h a := by
  rcases ha with ha | ha
  · exact .inr (.inl (.inl ha))
  · exact .inr (.inr ha)

/-- The old image has the roles of its address space. -/
theorem oldPage_role (ht : TaskOk src img m role h) {a : Nat} (ha : OldPage m h a) :
    h.ttbr0 ≠ 0 ∧ (role a = .data h.root ∨ TableOf h.root (role a)) := by
  rcases ha with ha | ⟨huser, path, hlen, hpath⟩
  · refine ⟨fun hzero => ?_, .inl (ht.image a ha).1⟩
    rcases ht.kernel hzero with ⟨hstack, hregions, _⟩
    rcases ha with ⟨hne, _⟩ | ⟨reg, hmem, _⟩
    · exact hne hstack
    · exact not_mem_nil (hregions ▸ hmem)
  · exact ⟨huser, .inr ⟨path, ((ht.user huser).2.1.place path a hlen hpath).1⟩⟩

/-- Giving the old image back gives back its pages and its tables. -/
theorem freeOldImage_frees (t : Task) (ht : TaskOk src img m role (holdings t)) :
    Frees src (OldPage m (holdings t)) m (freeOldImage src m t) := by
  have hheld := fun a (ha : OldPage m (holdings t) a) =>
    (taskPage_role ht (oldPage_taskPage ha)).2
  have hustack := freeStack_frees hheld m (Nat.succ_pos 3) fun hne a ha => .inl (.inl ⟨hne, ha⟩)
  have himage := fun m' => freeImage_frees hheld m' fun a ha => .inl (.inr ha)
  exact frees_then _ (frees_trans hustack (himage _)) fun m' hmem =>
    freeSpace_frees hheld hmem fun hne a ha => .inr ⟨hne, ha⟩

/-- A task that has changed over to the address space at `r`, whose root was not
    held before, can give its old image back. -/
theorem replaceTask_ok {h' : Holdings} (t : Task) (hok : SysOk src img m role (holdings t :: hs))
    (ht' : TaskOk src img m role h') (hstack : h'.stackPhys = t.stackPhys)
    (hroot : h'.ttbr0 ≠ 0 → t.ttbr0 ≠ 0 → h'.root ≠ (holdings t).root)
    (hapart : ∀ k ∈ hs, h'.ttbr0 ≠ 0 → k.ttbr0 ≠ 0 → h'.root ≠ k.root) :
    SysOk src img (freeOldImage src m t) role (h' :: hs) := by
  have ht := hok.tasks _ mem_cons_self
  have hpair := (pairwise_cons.mp hok.apart).1
  have hnew : SysOk src img m role (h' :: hs) := by
    refine sysOk_cons (sysOk_tail hok) ht' fun k hmem => ⟨fun hne hk => ?_, hapart k hmem⟩
    rw [hstack] at hne ⊢
    exact (hpair k hmem).1 hne hk
  refine sysOk_frees hnew (freeOldImage_frees t ht) (fun k hmem a ha hold => ?_) fun a hold hc => ?_
  · rcases mem_cons.mp hmem with rfl | hmem
    · -- The new image has roles of the new address space.
      rcases oldPage_role ht hold with ⟨huser, hrole⟩
      rcases (taskPage_role ht' ha).1 with ⟨_, hc | hc⟩ | ⟨huser', hc | ⟨path, hc⟩⟩ <;>
        rw [hc] at hrole <;> rcases hrole with hc' | ⟨path', hc'⟩ <;>
        first
          | exact Role.noConfusion hc'
          | injection hc' with heq
            exact hroot huser' huser heq
    · exact taskPage_apart ht (hok.tasks k (mem_cons_of_mem _ hmem)) (hpair k hmem)
        (oldPage_taskPage hold) ha
  · exact taskRole_not_shared (hc ▸ (taskPage_role ht (oldPage_taskPage hold)).1)

end

section

variable {m ms m1 m2 m3 : Machine σ} {role role2 : Roles} {h : Holdings} {hs : List Holdings}
  {u r size : Nat} {bytes : Memory}

/-- The machine `m` with a new image under construction at `r`, next to the tasks
    of the machine `m0`. The stack is at `u` and not mapped yet. -/
structure NewImage (src : Pages σ) (img : KernelImage) (r u : Nat)
    (hs : List Holdings) (m0 m : Machine σ) (role : Roles) : Prop where
  goes : Carries src img m0 m role hs
  root_new : ¬ src.Held m0.pmm r
  space : SpaceOk src m role r
  stack : ∀ a, InRun u userStackPages a → role a = .data r ∧ src.Held m.pmm a

/-- Stack, tables and segments, as far as they got. -/
theorem newImage_spec {res : Option ElfImage} (hok : SysOk src img m role hs)
    (hstack : zeroedPages src m userStackPages = (ms, u)) (hu : u ≠ 0)
    (hcall : mmuCreateUserTables src ms = (m1, r)) (hr : r ≠ 0)
    (hload : elfLoad src m1 bytes size r = (m2, res)) :
    ∃ role2, Evolves src (TableOf r) m role m2 role2 ∧ NewImage src img r u hs m m2 role2 ∧
      ∀ image, res = some image →
      image.regions ≠ [] ∧
      (∀ a, RegionPage image.regions a → role2 a = .data r ∧ src.Held m2.pmm a) ∧
      LeavesOk (RegionPage image.regions) (SharedPage img m2) m2.mem r := by
  -- The stack comes first, but its role is that of the address space to be.
  rcases zeroedPages_got role (.data r) hstack hu with ⟨hevs, hrun, _⟩
  have hshared := sharedOk_evolves hok.shared hevs
  rcases createTables_leaves hshared hcall hr with ⟨hnew, role1, hev1, hspace1, hleaves1, _⟩
  rcases elfLoad_spec hspace1 hleaves1 bytes size with ⟨role2, hev2, hspace2, himage⟩
  rw [hload] at hev2 hspace2 himage
  have hnewr : ¬ src.Held m.pmm r := fun hc => hnew (hevs.held r hc)
  have hev := evolves_trans hev1 hev2
  have hall := evolves_trans (evolves_mono hevs nofun) hev
  refine ⟨role2, hall, ⟨?_, hnewr, hspace2, fun a ha => ?_⟩, fun image hres => ?_⟩
  · exact carries_evolves hok hall fun h hmem huser path =>
      not_tableOf_new hok hnewr hmem huser path
  · have hheld := (hrun a ha).2
    refine ⟨(hev.role_eq a hheld).trans ?_, hev.held a hheld⟩
    exact assign_of_inRun ha
  · rcases himage image hres with ⟨hne, hpages, hleaves⟩
    exact ⟨hne, hpages, leavesOk_mono hleaves (fun _ ha => ha) fun a ha =>
      sharedPage_evolves hev2 ha⟩

/-- There are no tables: the stack is given back. -/
theorem stackOnly_fail (hok : SysOk src img m role hs)
    (hstack : zeroedPages src m userStackPages = (ms, u)) (hu : u ≠ 0)
    (hcall : mmuCreateUserTables src ms = (m1, r)) (hr : r = 0) :
    ∃ role1, Evolves src (fun _ => False) m role m1 role1 ∧
      (∀ a, InRun u userStackPages a → role1 a = .kstack u ∧ src.Held m1.pmm a) ∧
      Carries src img m (freePages src m1 u userStackPages) role1 hs := by
  rcases zeroedPages_got role (.kstack u) hstack hu with ⟨hevs, hrun, _⟩
  have hev := evolves_trans hevs (createTables_refused _ (hr ▸ hcall))
  have hpages : ∀ a, InRun u userStackPages a →
      assign role u userStackPages (.kstack u) a = .kstack u ∧ src.Held m1.pmm a := fun a ha =>
    ⟨assign_of_inRun ha, (createTables_refused role (hr ▸ hcall)).held a (hrun a ha).2⟩
  refine ⟨_, hev, hpages, carries_abandon hok (carries_evolves hok hev fun _ _ _ _ => not_false)
    (freePages_frees m1 ?_) fun a ha => .inl ⟨u, ?_, (hpages a ha).1⟩⟩
  · exact run_below (Nat.succ_pos 3) fun a ha => (hpages a ha).2
  · exact (hrun u (inRun_self u (Nat.succ_pos 3))).1

/-- A load that failed: tables and stack are given back. -/
theorem newImage_fail (hok : SysOk src img m role hs) (hnew : NewImage src img r u hs m m2 role2) :
    Carries src img m (freePages src (mmuFreeUserTables src m2 r) u userStackPages) role2 hs := by
  rcases spaceTables_frees hnew.space with ⟨hfrees, hroles⟩
  have hgoes := carries_abandon hok hnew.goes hfrees fun a ha =>
    .inr ⟨r, hnew.root_new, .inr (hroles a ha)⟩
  refine carries_abandon hok hgoes (freePages_frees _ ?_) fun a ha =>
    .inr ⟨r, hnew.root_new, .inl (hnew.stack a ha).1⟩
  refine run_below (Nat.succ_pos 3) fun a ha => hfrees.kept a (hnew.stack a ha).2 fun hc => ?_
  rcases hroles a hc with ⟨path, hrole⟩
  exact Role.noConfusion ((hnew.stack a ha).1.symm.trans hrole)

/-- The stack is mapped and the arguments are on it: a task with a kernel stack
    can change over. -/
theorem newImage_task {image : ElfImage} {mem : Memory} {ttbr : Nat}
    (hok : SysOk src img m role (h :: hs)) (hnew : NewImage src img r u (h :: hs) m m2 role2)
    (hu : u ≠ 0) (hbaddr : ttbrBaddr ttbr = r) (httbr : ttbr ≠ 0) (hregions : image.regions ≠ [])
    (hpages : ∀ a, RegionPage image.regions a → role2 a = .data r ∧ src.Held m2.pmm a)
    (hleaves : LeavesOk (RegionPage image.regions) (SharedPage img m2) m2.mem r)
    (hmap : mmuMapUserRange src m2 r ustackUserBase u userStackPages stackFlags = m3)
    (hmem : ∀ x, x < u ∨ u + userStackPages * pageSize ≤ x → mem x = m3.mem x)
    (huser : h.ttbr0 ≠ 0) :
    ∃ role3, Evolves src (fun ρ => TableOf r ρ ∨ ρ = .data r) m2 role2
        { m3 with mem := mem } role3 ∧
      Carries src img m { m3 with mem := mem } role3 (h :: hs) ∧
      TaskOk src img { m3 with mem := mem } role3
        { h with ttbr0 := ttbr, ustackPhys := u, regions := image.regions } ∧
      (∀ a, TablePage m3.mem r a → TablePage mem r a) ∧
      (m3.refused = m.refused → ∀ v, ustackUserBase ≤ v → v < userStackTop →
        ∃ e, translate mem r v = some e ∧ el0Write e = true) := by
  have hroot : Holdings.root { h with ttbr0 := ttbr, ustackPhys := u, regions := image.regions } =
    r :=
    hbaddr
  have himage : ∀ a, ImagePage
      { h with ttbr0 := ttbr, ustackPhys := u, regions := image.regions } a →
      role2 a = .data r ∧ src.Held m2.pmm a := by
    intro a ha
    rcases ha with ⟨_, ha⟩ | ha
    · exact hnew.stack a ha
    · exact hpages a ha
  rcases mapRange_leaves hnew.space
    (leavesOk_mono hleaves (fun a ha => show ImagePage
      { h with ttbr0 := ttbr, ustackPhys := u, regions := image.regions } a from
        Or.inr ha) fun _ ha => ha)
    ustackUserBase stackFlags_ok
    (fun a ha => ⟨(held_lt (hnew.stack a ha).2).1, (held_lt (hnew.stack a ha).2).2,
      Or.inl (Or.inl ⟨hu, ha⟩)⟩) with ⟨role3, hgrows, hleaves3⟩
  rw [hmap] at hgrows hleaves3
  -- The arguments are written to pages of the new image.
  have hwrite : Evolves src (· = .data r) m3 role3 { m3 with mem := mem } role3 := by
    refine evolves_write fun x hx => ?_
    have hin : u ≤ x ∧ x < u + userStackPages * pageSize := by
      by_contra hout
      exact hx (hmem x (by omega))
    rcases inPage_of_run u userStackPages x hin.1 hin.2 with ⟨a, ha, hax⟩
    have hheld := (hnew.stack a ha).2
    exact ⟨a, hgrows.evolves.held a hheld, hax,
      (hgrows.evolves.role_eq a hheld).trans (hnew.stack a ha).1⟩
  rcases space_frame hgrows.space hwrite fun _ => Role.noConfusion with ⟨hspace, hfollow, hleaf⟩
  have hev := evolves_trans (evolves_mono hgrows.evolves fun _ => Or.inl)
    (evolves_mono hwrite fun _ => Or.inr)
  have hgoes : Carries src img m2 { m3 with mem := mem } role3 (h :: hs) := by
    refine carries_evolves hnew.goes.sys hev fun k hmem' hk path hc => ?_
    rcases hc with hc | hc
    · exact not_tableOf_new hok hnew.root_new hmem' hk path hc
    · exact Role.noConfusion hc
  -- What it keeps has the roles it had; the rest is new.
  have ht := hgoes.sys.tasks h mem_cons_self
  refine ⟨role3, hev, ⟨hgoes.sys, mapsKept_trans hnew.goes.maps hgoes.maps⟩,
    ⟨ht.kstack, fun a ha => ?_,
    ht.grown, fun hc => absurd hc httbr, fun _ => ?_, fun _ _ hc => absurd hc hregions⟩,
    fun a ⟨path, hlen, hpath⟩ => ⟨path, hlen, (hfollow path a hlen).mpr hpath⟩,
    fun hrefused v hlo hhi => ?_⟩
  · rcases himage a ha with ⟨hrole, hheld⟩
    rw [hroot]
    exact ⟨(hgrows.evolves.role_eq a hheld).trans hrole, hgrows.evolves.held a hheld⟩
  · rw [hroot]
    exact ⟨(ht.user huser).1, hspace, leavesOk_mono (leavesOk_congr hleaves3 hleaf)
      (fun _ => Or.inl) fun a ha => sharedPage_evolves hgrows.evolves ha⟩
  · have hle := hnew.goes.maps.refused_le
    have hle3 := hgrows.evolves.refused_le
    have hv : v < 2 ^ 48 := Nat.lt_trans hhi (by decide)
    have hbase : ustackUserBase = 0x7FC000 := rfl
    have htop : userStackTop = 0x800000 := rfl
    have hmapped := mapLoop_translate ustackUserBase u stackFlags userStackPages 0 m2 _ hnew.space
      (by decide) (by rw [← mmuMapUserRange, hmap]; omega) v hv
    rw [← mmuMapUserRange, hmap, if_pos (by unfold userStackPages pageSize; omega)] at hmapped
    refine ⟨_, (hleaf (pathOf v) (l3Index v) (Nat.le_refl 3)).trans hmapped, ?_⟩
    rw [(leafEntry_perms _ _).2.2.1]
    rfl

/-- The last steps of a replacement: the task `cur` has changed over from the
    machine `m`, and its old image is given back. -/
theorem replaced_spec {cur : Task} {image : ElfImage}
    (hok : SysOk src img m role (holdings cur :: hs)) (huser : cur.ttbr0 ≠ 0)
    (h : Opened src m ms u m1 r) (hr : r ≠ 0)
    (hload : elfLoad src m1 bytes size r = (m2, some image))
    (hmap : mmuMapUserRange src m2 r ustackUserBase u userStackPages stackFlags = m3)
    (args : ExecArgs) (asid : Nat) :
    ∃ role3, Evolves src (fun ρ => TableOf r ρ ∨ ρ = .data r) m role
        { m3 with mem := writeArgs m3.mem u args.strings } role3 ∧
      Carries src img m { m3 with mem := writeArgs m3.mem u args.strings } role3
        (holdings cur :: hs) ∧
      SysOk src img (freeOldImage src { m3 with mem := writeArgs m3.mem u args.strings } cur) role3
        ({ holdings cur with
          ttbr0 := ttbrPack r asid, ustackPhys := u, regions := image.regions } :: hs) ∧
      ttbrBaddr (ttbrPack r asid) = r ∧
      (∀ a, TablePage m3.mem r a → TablePage (writeArgs m3.mem u args.strings) r a) ∧
      (m3.refused = m.refused → ∀ v, ustackUserBase ≤ v → v < userStackTop →
        ∃ e, translate (writeArgs m3.mem u args.strings) r v = some e ∧ el0Write e = true) := by
  rcases newImage_spec hok h.stack h.stack_ne h.tables hr hload with ⟨role2, hev2, hnew, himage⟩
  rcases himage image rfl with ⟨hregions, hpages, hleaves⟩
  have hlt := (held_lt (hnew.space.place [] r (Nat.zero_le 3) rfl).2).2
  have hbaddr := ttbrBaddr_pack r asid hlt
  rcases newImage_task hok hnew h.stack_ne hbaddr (ttbrPack_ne r asid hr hlt) hregions
    hpages hleaves
    hmap (fun x hx => writeArgs_other m3.mem u args x hx) huser with
    ⟨role3, hev3, hgoes, htask, htables, hmapped⟩
  refine ⟨role3, evolves_trans (evolves_mono hev2 fun _ => .inl) hev3, hgoes, ?_, hbaddr, htables,
    hmapped⟩
  -- The new root was nobody's when the call began.
  have hother : ∀ k ∈ holdings cur :: hs, k.ttbr0 ≠ 0 → r ≠ k.root := fun k hmem hk heq =>
    hnew.root_new (heq ▸ (taskPage_role (hok.tasks k hmem) (root_taskPage hk)).2)
  exact replaceTask_ok cur hgoes.sys htask rfl
    (fun _ hk heq => hother _ mem_cons_self hk (hbaddr.symm.trans heq))
    fun k hmem _ hk heq => hother k (mem_cons_of_mem _ hmem) hk (hbaddr.symm.trans heq)

/-- A task with file descriptors is a user task. -/
theorem mayLoad_user {s : Sched σ} {file : Option FileBytes} {cur : Task} {rest : List Task}
    {f : FileBytes} (hok : SysOk src img m role (holdings cur :: hs))
    (hmay : MayLoad s file cur rest f) : cur.ttbr0 ≠ 0 := by
  intro hzero
  have hfds := ((hok.tasks _ mem_cons_self).kernel hzero).2.2.2
  exact Bool.false_ne_true (hfds.symm.trans hmay.fds)

/-- The current task `t` has a new image, whose stack is mapped. -/
structure Replaced (s s' : Sched σ) (t new : Task) (rest : List Task) : Prop where
  current : s.queue = t :: rest
  queue_eq : s'.queue = new :: rest
  dead_eq : s'.deadList = s.deadList
  grown_eq : new.stackGrownPhys = t.stackGrownPhys
  others : MapsKept s.machine s'.machine ((rest ++ s.deadList).map holdings)
  mapped : s'.machine.refused = s.machine.refused → ∀ v, ustackUserBase ≤ v → v < userStackTop →
    ∃ e, translate s'.machine.mem (ttbrBaddr new.ttbr0) v = some e ∧ el0Write e = true

theorem loadImage_spec {s : Sched σ} (hok : SchedOk src img s) (file : Option FileBytes)
    (args : ExecArgs) :
    (loadImage src s file args).2 = none ∧ Goes src img s (loadImage src s file args).1 ∨
    (loadImage src s file args).2 ≠ none ∧ SchedOk src img (loadImage src s file args).1 ∧
      ∃ t new rest, Replaced s (loadImage src s file args).1 t new rest := by
  have hout := @loadImage_replacement σ src s file args
  generalize loadImage src s file args = res at hout ⊢
  rcases hok with ⟨role, hok⟩
  cases hout with
  | refused _ => exact .inl ⟨rfl, goes_refl ⟨role, hok⟩⟩
  | noStack _ hstack =>
    exact .inl ⟨rfl, goes_carries (carries_evolves hok (zeroedPages_refused role hstack).1
      fun _ _ _ _ => not_false)⟩
  | noTables _ hopened =>
    rcases stackOnly_fail hok hopened.stack hopened.stack_ne hopened.tables rfl with
      ⟨role1, _, _, hfail⟩
    exact .inl ⟨rfl, goes_carries hfail⟩
  | notLoaded _ hopened hr hload =>
    rcases newImage_spec hok hopened.stack hopened.stack_ne hopened.tables hr hload with
      ⟨role2, _, hnew, _⟩
    exact .inl ⟨rfl, goes_carries (newImage_fail hok hnew)⟩
  | @replaced cur new rest f ms m1 m2 m3 u r image hmay hopened hr hload hmap hnewTask =>
    have hok' := hok
    rw [hmay.current, cons_append] at hok'
    have huser := mayLoad_user hok' hmay
    rcases replaced_spec hok' huser hopened hr hload hmap args s.nextAsid with
      ⟨role3, _, hgoes, hsys, hbaddr, _, hmapped⟩
    have hfrees := freeOldImage_frees cur (hgoes.sys.tasks _ mem_cons_self)
    rw [hnewTask]
    refine .inr ⟨Option.some_ne_none _, schedOk_mk hsys, cur, _, rest, hmay.current, rfl, rfl, rfl,
      mapsKept_trans (mapsKept_tail hgoes.maps)
        (mapsKept_of_mem hfrees.mem_eq (Nat.le_of_eq hfrees.refused_eq.symm) _),
      fun hrefused v hlo hhi => ?_⟩
    rw [hbaddr, hfrees.mem_eq]
    rw [hfrees.refused_eq] at hrefused
    exact hmapped hrefused v hlo hhi

end

end CortexForge.Sched
