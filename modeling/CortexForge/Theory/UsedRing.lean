import CortexForge.Theory.Virtqueue

/-!
# The Free List under Any Device

`Theory.Virtqueue` asks of the device that it reports each chain once. This module asks
nothing: a reap finds whatever the device has written, an id that was reported before,
one from the middle of a chain, one that is free, or an index that has jumped.

`virtqueue_get_used` turns away an id outside the table and nothing else, and
`virtqueue_free_chain` then pushes every descriptor the links lead to. `named` is that
chain, read off the table before the walk. A reap is harmless exactly when the chain
meets no descriptor twice and none that is already free (`Returnable`). Otherwise the
walk pushes a descriptor that is on the list, which closes a cycle, and no later push
opens it again: `freeChainLoop_endless` is why one bad completion is enough.

No statement here speaks of outstanding chains, so the flags of the submitted segments
may be anything as well.

## Main definitions

* `FreeListOk`: What the free list is supposed to be.
* `Vq.step`: One call of the driver, with the used ring as the device shows it.
* `named`: The chain an id names.
* `Returnable`: The completion a reap finds can be released.
* `Move`: A descriptor allocated or released, and `moves` those of a call.
* `AtReaps`: A condition on every reap of a run.

## Theorems

* `freeChainLoop_lists`: Releasing a chain of them.
* `freeChainLoop_cycle`: Releasing any other chain.
* `lists_submit`: A submission takes its descriptors off the front.
* `lists_reap`, `endless_reap`: A reap, with and without `Returnable`.
* `freeList_iff_returnable`: The free list survives a run exactly when every
  completion the driver is shown can be released.
-/

namespace CortexForge.Virtqueue

open Function List

/-- The free list ends, holds descriptors of the table and each of them once, and is
    as long as the queue says. -/
def FreeListOk (vq : Vq) : Prop :=
  ∃ free, Linked (links vq.desc) virtqNoDesc vq.freeHead free ∧ free.Nodup ∧
    (∀ i ∈ free, i < vq.size) ∧ vq.numFree = free.length ∧ vq.numFree ≤ vq.size

/-- One call of the driver. -/
def Vq.step (vq : Vq) : Event → Vq
  | .submit bufPa len flags => (virtqueueSubmit vq bufPa len flags).1
  | .submitChain segs => (virtqueueSubmitChain vq segs).1
  | .getUsed used => (virtqueueGetUsed { vq with used := used }).1

/-- The descriptors the links lead to from `idx`, for at most `fuel` of them. -/
def namedFrom (desc : Nat → VirtqDesc) (size : Nat) : Nat → Nat → List Nat
  | 0, _ => []
  | fuel + 1, idx =>
      if idx ≥ size then []
      else idx :: (if hasNext (desc idx) then namedFrom desc size fuel (desc idx).next else [])

/-- The chain an id names. A chain without repetitions fits in the table, so the bound
    cuts only chains that have one. -/
def named (vq : Vq) (id : Nat) : List Nat := namedFrom vq.desc vq.size (vq.size + 1) id

/-- What a reap finds can be released: nothing, an id that is turned away, or one that
    names a chain without repetitions and without free descriptors. -/
def Returnable (vq : Vq) (used : VirtqUsed) : Prop :=
  let id := (used.ring (vq.lastUsed % vq.size)).id
  used.idx = vq.lastUsed ∨ vq.size ≤ id ∨
    ((named vq id).Nodup ∧
      ∀ i ∈ named vq id, ¬ OnList (links vq.desc) virtqNoDesc vq.freeHead i)

/-- What happens to a descriptor. -/
inductive Move where
  | taken (d : Nat)
  | released (d : Nat)
deriving DecidableEq, Repr

/-- The descriptors the walk of `virtqueue_free_chain` releases, in order. -/
def releasedLoop : Nat → Vq → Nat → List Nat
  | 0, _, _ => []
  | fuel + 1, vq, idx =>
      if idx ≥ vq.size then []
      else
        let d := vq.desc idx
        idx :: (if hasNext d then releasedLoop fuel (pushFree vq idx) d.next else [])

/-- The allocations and releases of a call, in order. -/
def moves (vq : Vq) : Event → List Move
  | .submit _ _ _ =>
      if (virtqueueAllocDesc vq).2 = virtqNoDesc then [] else [.taken (virtqueueAllocDesc vq).2]
  | .submitChain segs =>
      if segs.length = 0 ∨ segs.length > vq.numFree then []
      else (allocLoop segs.length vq).2.map .taken
  | .getUsed used =>
      let id := (used.ring (vq.lastUsed % vq.size)).id
      if used.idx = vq.lastUsed ∨ id ≥ vq.size then []
      else (releasedLoop (vq.size + 1)
        { vq with used := used, lastUsed := inc16 vq.lastUsed } id).map .released

/-- The allocations and releases of a run. -/
def log : Vq → List Event → List Move
  | _, [] => []
  | vq, e :: es => moves vq e ++ log (vq.step e) es

/-- The condition `P` holds of every reap of a run, in the state it is called in. -/
def AtReaps (P : Vq → VirtqUsed → Prop) : Vq → List Event → Prop
  | _, [] => True
  | vq, .getUsed used :: es => P vq used ∧ AtReaps P (vq.step (.getUsed used)) es
  | vq, e :: es => AtReaps P (vq.step e) es

section

variable {vq : Vq} {free : List Nat}

theorem Lists.freeListOk (h : Lists vq free) : FreeListOk vq :=
  ⟨free, h.linked, h.nodup, h.lt_size, h.numFree, h.numFree ▸ h.length_le⟩

theorem Lists.onList (h : Lists vq free) (i : Nat) :
    OnList (links vq.desc) virtqNoDesc vq.freeHead i ↔ i ∈ free :=
  linked_onList _ _ i free _ h.linked

/-- The walk over a chain goes the same way until it first comes to a descriptor that
    has been rewritten, so whether it comes there is not changed by the rewriting. -/
theorem mem_namedFrom_update (desc : Nat → VirtqDesc) (size x : Nat) (d : VirtqDesc)
    (fuel idx : Nat) : x ∈ namedFrom (update desc x d) size fuel idx ↔
      x ∈ namedFrom desc size fuel idx := by
  induction fuel generalizing idx with
  | zero => exact Iff.rfl
  | succ fuel ih =>
    simp only [namedFrom]
    by_cases hx : idx = x
    · split_ifs <;> simp [hx]
    · rw [update_of_ne hx]
      split_ifs <;> simp [ih]

theorem namedFrom_pushFree {fuel idx j : Nat} (h : idx ∉ namedFrom vq.desc vq.size fuel j) :
    namedFrom (pushFree vq idx).desc (pushFree vq idx).size fuel j
      = namedFrom vq.desc vq.size fuel j := by
  show namedFrom (update vq.desc idx _) vq.size fuel j = _
  induction fuel generalizing j with
  | zero => rfl
  | succ fuel ih =>
    simp only [namedFrom] at h ⊢
    by_cases hout : j ≥ vq.size
    · rw [if_pos hout, if_pos hout]
    · rw [if_neg hout] at h
      rcases not_or.mp (mem_cons.not.mp h) with ⟨hne, hrest⟩
      rw [if_neg hout, if_neg hout, update_of_ne (Ne.symm hne)]
      split_ifs with hnext
      · rw [if_pos hnext] at hrest
        rw [ih hrest]
      · rfl

/-- A chain without repetitions and without free descriptors is released as a whole. -/
theorem freeChainLoop_lists (fuel : Nat) (vq : Vq) (idx : Nat) (free : List Nat)
    (h : Lists vq free) (hnd : (namedFrom vq.desc vq.size fuel idx ++ free).Nodup)
    (hlt : (namedFrom vq.desc vq.size fuel idx).length < fuel) :
    releasedLoop fuel vq idx = namedFrom vq.desc vq.size fuel idx ∧
    ∃ vq', freeChainLoop fuel vq idx = some vq' ∧
      Lists vq' ((namedFrom vq.desc vq.size fuel idx).reverse ++ free) := by
  fun_induction freeChainLoop fuel vq idx generalizing free with
  | case1 => omega
  | case2 => grind [namedFrom, releasedLoop]
  | case3 fuel vq idx hidx d hn ih =>
    rw [namedFrom] at hnd hlt ⊢
    -- The rest of the chain does not come back to `idx`, so the push leaves it alone.
    have hsame := @namedFrom_pushFree vq fuel idx (vq.desc idx).next (by grind)
    have hpush := @lists_pushFree vq free h idx (by omega) (by grind)
    grind [releasedLoop]
  | case4 fuel vq idx hidx d hn =>
    have hpush := @lists_pushFree vq free h idx
    grind [namedFrom, releasedLoop]

theorem endless_pushFree (hsz : vq.size ≤ virtqMaxSize) {x : Nat} (hx : x < vq.size)
    (h : Endless (links vq.desc) virtqNoDesc vq.freeHead) :
    Endless (links (pushFree vq x).desc) virtqNoDesc (pushFree vq x).freeHead := by
  rw [links_pushFree]
  exact endless_push h (ne_noDesc_of_lt hsz hx)

/-- Once the free list does not end, no further release mends it. -/
theorem freeChainLoop_endless (fuel : Nat) (vq vq' : Vq) (idx : Nat)
    (hsz : vq.size ≤ virtqMaxSize) (h : Endless (links vq.desc) virtqNoDesc vq.freeHead)
    (hrun : freeChainLoop fuel vq idx = some vq') :
    Endless (links vq'.desc) virtqNoDesc vq'.freeHead := by
  fun_induction freeChainLoop fuel vq idx with
  | case1 => cases hrun
  | case2 => grind
  | case3 fuel vq idx hidx d hn ih => exact ih hsz (endless_pushFree hsz (by omega) h) hrun
  | case4 fuel vq idx hidx d hn =>
    obtain rfl := Option.some.inj hrun
    exact endless_pushFree hsz (by omega) h

/-- A chain with a repetition or a free descriptor makes the free list endless. -/
theorem freeChainLoop_cycle (fuel : Nat) (vq vq' : Vq) (idx : Nat) (free : List Nat)
    (h : Lists vq free) (hnd : ¬ (namedFrom vq.desc vq.size fuel idx ++ free).Nodup)
    (hrun : freeChainLoop fuel vq idx = some vq') :
    Endless (links vq'.desc) virtqNoDesc vq'.freeHead := by
  have hfree := h.nodup
  fun_induction freeChainLoop fuel vq idx generalizing free with
  | case1 => cases hrun
  | case2 => grind [namedFrom]
  | case3 fuel vq idx hidx d hn ih =>
    by_cases hmem : idx ∈ free
    · -- The descriptor is free: this push closes the cycle, and the rest keeps it.
      refine freeChainLoop_endless fuel (pushFree vq idx) vq' _ h.size_le ?_ hrun
      rw [links_pushFree]
      exact linked_push_again h.linked hmem
    · have hpush := lists_pushFree h (show idx < vq.size by omega) hmem
      -- Either the rest comes back to `idx`, which is free by now, or the push has
      -- left it alone and its own repetition is still there.
      have hback := mem_namedFrom_update vq.desc vq.size idx
      have hsame := @namedFrom_pushFree vq fuel idx (vq.desc idx).next
      grind [namedFrom, pushFree]
  | case4 fuel vq idx hidx d hn =>
    obtain rfl := Option.some.inj hrun
    rw [links_pushFree]
    exact linked_push_again h.linked (by grind [namedFrom])

end

/-- A submission takes the descriptors it fills off the front of the free list. -/
theorem lists_submit (vq : Vq) (free : List Nat) (h : Lists vq free) (e : Event)
    (he : ∀ used, e ≠ .getUsed used) :
    ∃ xs rest, free = xs ++ rest ∧ moves vq e = xs.map .taken ∧ Lists (vq.step e) rest := by
  have hchain : ∀ segs, ∃ xs rest, free = xs ++ rest ∧
      moves vq (.submitChain segs) = xs.map .taken ∧ Lists (vq.step (.submitChain segs)) rest := by
    intro segs
    by_cases hroom : segs.length = 0 ∨ segs.length > vq.numFree
    · refine ⟨[], free, rfl, ?_, ?_⟩
      · simp only [moves, if_pos hroom, map_nil]
      · simp only [Vq.step, virtqueueSubmitChain, if_pos hroom]
        exact h
    · rcases submitChain_spec segs h hroom with ⟨xs, rest, hsplit, _, hlists, hsub⟩
      refine ⟨xs, rest, hsplit, ?_, hlists⟩
      simp only [moves, if_neg hroom, hsub.taken]
  cases e with
  | getUsed used => exact absurd rfl (he used)
  | submit bufPa len flags =>
    -- one buffer is the chain of one segment
    rcases hchain [⟨bufPa, len, flags &&& ~~~descFNext⟩] with ⟨xs, rest, hsplit, hmoves, hlists⟩
    refine ⟨xs, rest, hsplit, hmoves ▸ ?_, by rwa [Vq.step, submit_eq_chain h]⟩
    have hnum := h.numFree
    cases free with
    | nil =>
      have hhead := linked_nil.mp h.linked
      simp [moves, virtqueueAllocDesc, hhead, hnum]
    | cons x free =>
      have hne := ne_noDesc_of_lt h.size_le (h.lt_size x mem_cons_self)
      simp [moves, allocLoop, (lists_alloc h).1, hne, hnum]
  | submitChain segs => exact hchain segs

/-- The free list of a queue does not depend on what the device shows or on how far the
    driver has read it. -/
theorem lists_shown {vq : Vq} {free : List Nat} (used : VirtqUsed) (n : Nat) (h : Lists vq free) :
    Lists { vq with used := used, lastUsed := n } free :=
  ⟨h.size_le, h.linked, h.lt_size, h.numFree⟩

/-- A chain that meets no descriptor twice fits in the table. -/
theorem namedFrom_lt (desc : Nat → VirtqDesc) (size fuel idx : Nat) :
    ∀ i ∈ namedFrom desc size fuel idx, i < size := by
  induction fuel generalizing idx with
  | zero => exact nofun
  | succ fuel ih =>
    rw [namedFrom]
    split_ifs with hout
    · exact nofun
    · exact forall_mem_cons.mpr ⟨Nat.lt_of_not_le hout, ih _⟩
    · exact forall_mem_cons.mpr ⟨Nat.lt_of_not_le hout, nofun⟩

theorem named_length (vq : Vq) (id : Nat) (hnd : (named vq id).Nodup) :
    (named vq id).length < vq.size + 1 := by
  have hsub : (named vq id).toFinset ⊆ Finset.range vq.size := by
    intro i hi
    rw [Finset.mem_range]
    exact namedFrom_lt vq.desc vq.size (vq.size + 1) id i (mem_toFinset.mp hi)
  have hcard := Finset.card_le_card hsub
  rw [toFinset_card_of_nodup hnd, Finset.card_range] at hcard
  omega

/-- What a reap of an id inside the table does: the chain it names is released. -/
theorem step_getUsed {vq : Vq} {used : VirtqUsed} (hnew : used.idx ≠ vq.lastUsed)
    (hid : (used.ring (vq.lastUsed % vq.size)).id < vq.size) :
    vq.step (.getUsed used)
      = virtqueueFreeChain { vq with used := used, lastUsed := inc16 vq.lastUsed }
          (used.ring (vq.lastUsed % vq.size)).id := by
  have hin : ¬ (used.ring (vq.lastUsed % vq.size)).id ≥ vq.size := by omega
  simp only [Vq.step, virtqueueGetUsed, if_neg hnew, if_neg hin]

/-- A reap that finds nothing to release leaves the free list alone. -/
theorem lists_reap_none (vq : Vq) (free : List Nat) (used : VirtqUsed) (h : Lists vq free)
    (hnone : used.idx = vq.lastUsed ∨ vq.size ≤ (used.ring (vq.lastUsed % vq.size)).id) :
    Lists (vq.step (.getUsed used)) free := by
  by_cases hidle : used.idx = vq.lastUsed
  · simp only [Vq.step, virtqueueGetUsed, if_pos hidle]
    exact lists_shown used vq.lastUsed h
  · have hout : (used.ring (vq.lastUsed % vq.size)).id ≥ vq.size := hnone.resolve_left hidle
    simp only [Vq.step, virtqueueGetUsed, if_neg hidle, if_pos hout]
    exact lists_shown used (inc16 vq.lastUsed) h

/-- A completion that can be released: its chain goes to the front of the free list. -/
theorem lists_reap {vq : Vq} {free : List Nat} {used : VirtqUsed} (h : Lists vq free)
    (hret : Returnable vq used) :
    ∃ c, (c ++ free).Nodup ∧ moves vq (.getUsed used) = c.map .released ∧
      Lists (vq.step (.getUsed used)) (c.reverse ++ free) := by
  by_cases hnone : used.idx = vq.lastUsed ∨ vq.size ≤ (used.ring (vq.lastUsed % vq.size)).id
  · refine ⟨[], h.nodup, ?_, lists_reap_none vq free used h hnone⟩
    simp [moves, hnone]
  rw [not_or, Nat.not_le] at hnone
  rcases hret with hc | hc | ⟨hnd, hnot⟩
  · exact absurd hc hnone.1
  · omega
  -- the named chain is off the free list, so freeing it repeats no descriptor
  have hboth : (named vq (used.ring (vq.lastUsed % vq.size)).id ++ free).Nodup := by
    refine nodup_append.mpr ⟨hnd, h.nodup, ?_⟩
    rintro i hi j hj rfl
    exact hnot i hi ((h.onList i).mpr hj)
  rcases freeChainLoop_lists (vq.size + 1)
    { vq with used := used, lastUsed := inc16 vq.lastUsed }
    (used.ring (vq.lastUsed % vq.size)).id free (lists_shown used _ h) hboth
    (named_length vq _ hnd) with ⟨hrel, vq', hrun, hlists⟩
  refine ⟨named vq (used.ring (vq.lastUsed % vq.size)).id, hboth, ?_, ?_⟩
  · have hin : ¬ (used.idx = vq.lastUsed ∨ (used.ring (vq.lastUsed % vq.size)).id ≥ vq.size) := by
      omega
    simp only [moves, if_neg hin, hrel]
    rfl
  · rw [step_getUsed hnone.1 hnone.2, virtqueueFreeChain, hrun]
    exact hlists

/-- Any other completion leaves a free list that does not end. -/
theorem endless_reap (vq : Vq) (free : List Nat) (used : VirtqUsed) (h : Lists vq free)
    (hret : ¬ Returnable vq used) :
    Endless (links (vq.step (.getUsed used)).desc) virtqNoDesc
      (vq.step (.getUsed used)).freeHead := by
  simp only [Returnable, not_or, Nat.not_le] at hret
  rcases hret with ⟨hnew, hid, hbad⟩
  have hboth : ¬ (named vq (used.ring (vq.lastUsed % vq.size)).id ++ free).Nodup := by
    intro hnd
    rcases nodup_append.mp hnd with ⟨hc, _, hdisj⟩
    exact hbad ⟨hc, fun i hi hon => hdisj i hi i ((h.onList i).mp hon) rfl⟩
  rcases Option.isSome_iff_exists.mp (freeChainLoop_size_isSome
    { vq with used := used, lastUsed := inc16 vq.lastUsed }
    (used.ring (vq.lastUsed % vq.size)).id) with ⟨vq', hrun⟩
  rw [step_getUsed hnew hid, virtqueueFreeChain, hrun]
  exact freeChainLoop_cycle (vq.size + 1) _ vq' _ free (lists_shown used _ h) hboth hrun

/-- The free list is in order after a reap exactly when its completion can be
    released. -/
theorem freeListOk_reap_iff (vq : Vq) (free : List Nat) (used : VirtqUsed) (h : Lists vq free) :
    FreeListOk (vq.step (.getUsed used)) ↔ Returnable vq used := by
  constructor
  · rintro ⟨free', hlink, _⟩
    by_contra hret
    exact (endless_reap vq free used h hret).not_linked free' hlink
  · intro hret
    rcases lists_reap h hret with ⟨c, _, _, hlists⟩
    exact hlists.freeListOk

/-- No descriptor of `out`, and none twice, is taken before it is released. -/
def Fair : List Nat → List Move → Prop
  | _, [] => True
  | out, .taken d :: ms => d ∉ out ∧ Fair (d :: out) ms
  | out, .released d :: ms => Fair (out.filter (· ≠ d)) ms

theorem fair_takes (xs out : List Nat) (ms : List Move) (hnd : xs.Nodup)
    (hout : ∀ d ∈ xs, d ∉ out) (h : Fair (xs.reverse ++ out) ms) :
    Fair out (xs.map .taken ++ ms) := by
  induction xs generalizing out with
  | nil => exact h
  | cons x xs ih =>
    rcases nodup_cons.mp hnd with ⟨hx, hxs⟩
    refine ⟨hout x mem_cons_self, ih (x :: out) hxs (fun d hd => ?_) ?_⟩
    · exact not_mem_cons_of_ne_of_not_mem (fun hc => hx (hc ▸ hd)) (hout d (mem_cons_of_mem x hd))
    · rwa [reverse_cons, append_assoc, singleton_append] at h

theorem fair_releases (c out : List Nat) (ms : List Move)
    (h : ∀ out', (∀ d ∈ out', d ∈ out ∧ d ∉ c) → Fair out' ms) :
    Fair out (c.map .released ++ ms) := by
  induction c generalizing out with
  | nil => exact h out fun d hd => ⟨hd, not_mem_nil⟩
  | cons x c ih =>
    refine ih (out.filter (· ≠ x)) fun out' hout' => h out' fun d hd => ?_
    rcases hout' d hd with ⟨hin, hc⟩
    rcases mem_filter.mp hin with ⟨hin, hne⟩
    exact ⟨hin, not_mem_cons_of_ne_of_not_mem (of_decide_eq_true hne) hc⟩

/-- A descriptor that is out stays out until it is released. -/
theorem fair_released {b c : List Move} {out : List Nat} {d : Nat} (hd : d ∈ out)
    (h : Fair out (b ++ .taken d :: c)) : .released d ∈ b := by
  induction b generalizing out with
  | nil => exact absurd hd h.1
  | cons m b ih =>
    cases m with
    | taken x => exact mem_cons_of_mem _ (ih (mem_cons_of_mem x hd) h.2)
    | released x =>
      by_cases hx : d = x
      · exact hx ▸ mem_cons_self
      · exact mem_cons_of_mem _ (ih (mem_filter.mpr ⟨hd, decide_eq_true hx⟩) h)

theorem fair_between (a b c : List Move) (out : List Nat) (d : Nat)
    (h : Fair out (a ++ .taken d :: (b ++ .taken d :: c))) : .released d ∈ b := by
  induction a generalizing out with
  | nil => exact fair_released mem_cons_self h.2
  | cons m a ih =>
    cases m with
    | taken x => exact ih (x :: out) h.2
    | released x => exact ih _ h

/-- A run whose completions can all be released allocates no descriptor of `out`, and
    none twice, before it has been released. -/
theorem fair_log (es : List Event) (vq : Vq) (free out : List Nat) (h : Lists vq free)
    (hout : ∀ d ∈ out, d ∉ free) (hret : AtReaps Returnable vq es) : Fair out (log vq es) := by
  induction es generalizing vq free out with
  | nil => trivial
  | cons e es ih =>
    by_cases he : ∃ used, e = .getUsed used
    · rcases he with ⟨used, rfl⟩
      rcases lists_reap h hret.1 with ⟨c, _, hmoves, hlists⟩
      rw [log, hmoves]
      exact fair_releases c out _ fun out' hout' => ih _ _ out' hlists (by grind) hret.2
    · rcases lists_submit vq free h e (by grind) with ⟨xs, rest, rfl, hmoves, hlists⟩
      have hnd := h.nodup
      have hrest : AtReaps Returnable (vq.step e) es := by
        cases e <;> grind [AtReaps]
      rw [log, hmoves]
      exact fair_takes xs out _ (by grind) (by grind) (ih _ rest _ hlists (by grind) hrest)

/-- Step by step, the free list is in order after the reaps of a run exactly when their
    completions can be released. -/
theorem atReaps_iff (es : List Event) (vq : Vq) (free : List Nat) (h : Lists vq free) :
    AtReaps (fun vq used => FreeListOk (vq.step (.getUsed used))) vq es ↔
      AtReaps Returnable vq es := by
  induction es generalizing vq free with
  | nil => exact Iff.rfl
  | cons e es ih =>
    by_cases he : ∃ used, e = .getUsed used
    · rcases he with ⟨used, rfl⟩
      simp only [AtReaps]
      rw [freeListOk_reap_iff vq free used h]
      refine and_congr_right fun hret => ?_
      rcases lists_reap h hret with ⟨c, _, _, hlists⟩
      exact ih _ _ hlists
    · rcases lists_submit vq free h e (by grind) with ⟨_, rest, _, _, hlists⟩
      cases e <;> grind [AtReaps]

theorem lists_setup {maxSize : Nat} {vq0 vq : Vq} (h : virtqueueSetup maxSize vq0 = some vq) :
    Lists vq (range vq.size) := by
  have hown := owns_setup h
  exact ⟨hown.size_le, hown.linked, fun i hi => mem_range.mp hi, hown.numFree⟩

/-- The free list under any device. On a queue of any size, with anything in the used
    ring at each reap and any submissions in between, the free list is in order after
    every reap and no descriptor is allocated twice without a release in between
    exactly when every completion the driver is shown names a chain without
    repetitions and without free descriptors. -/
theorem freeList_iff_returnable (maxSize : Nat) (vq0 vq : Vq)
    (hsetup : virtqueueSetup maxSize vq0 = some vq) (es : List Event) :
    (AtReaps (fun vq used => FreeListOk (vq.step (.getUsed used))) vq es ∧
      ∀ a b c d, log vq es = a ++ .taken d :: (b ++ .taken d :: c) → .released d ∈ b) ↔
    AtReaps Returnable vq es := by
  have hlists := lists_setup hsetup
  rw [atReaps_iff es vq _ hlists]
  refine ⟨fun h => h.1, fun hret => ⟨hret, fun a b c d hlog => ?_⟩⟩
  have hfair := fair_log es vq _ [] hlists nofun hret
  rw [hlog] at hfair
  exact fair_between a b c [] d hfair

/-- A ring in which every entry reports descriptor 0. -/
def reportsZero (idx : Nat) : VirtqUsed := { idx := idx, ring := fun _ => { id := 0, len := 0 } }

/-- One buffer, reported once. -/
theorem freeList_iff_returnable_once : ∃ vq, virtqueueSetup 2 blankVq = some vq ∧
    ((AtReaps (fun vq used => FreeListOk (vq.step (.getUsed used))) vq
          [.submit 64 8 0, .getUsed (reportsZero 1)] ∧
        ∀ a b c d, log vq [.submit 64 8 0, .getUsed (reportsZero 1)]
          = a ++ .taken d :: (b ++ .taken d :: c) → .released d ∈ b) ↔
      AtReaps Returnable vq [.submit 64 8 0, .getUsed (reportsZero 1)]) :=
  ⟨_, rfl, freeList_iff_returnable 2 blankVq _ rfl _⟩

/-- The device reports one buffer twice. The second report puts descriptor 0 on the
    free list again, the queue of two counts three free descriptors, and the next two
    submissions are given the same one. -/
theorem free_list_reported_twice : ∃ vq, virtqueueSetup 2 blankVq = some vq ∧
    ¬ AtReaps (fun vq used => FreeListOk (vq.step (.getUsed used))) vq
      [.submit 64 8 0, .getUsed (reportsZero 1), .getUsed (reportsZero 2)] ∧
    log vq [.submit 64 8 0, .getUsed (reportsZero 1), .getUsed (reportsZero 2),
        .submit 64 8 0, .submit 128 8 0]
      = [.taken 0, .released 0, .released 0, .taken 0, .taken 0] := by
  refine ⟨_, rfl, ?_, by decide⟩
  rintro ⟨_, ⟨_, _, _, _, _, hle⟩, _⟩
  exact absurd hle (by decide)

end CortexForge.Virtqueue
