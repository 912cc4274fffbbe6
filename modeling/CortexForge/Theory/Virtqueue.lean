import CortexForge.Core.Virtqueue
import CortexForge.Lib.Linked
import Mathlib.Data.List.Range

/-!
# Descriptor Ownership

Every descriptor of a queue is in exactly one place: on the free list, or in one
chain the device still holds.

The free list and the live chains share the `next` fields of one table, so the
statement has to cover both at once. `Owns` lists the free descriptors, the live
chains, and a third part, the descriptors a call in progress has taken back and
not yet put on the free list. The three together are a permutation of the table.
With the third part named, a release is a move of one descriptor after another
from that part to the free list. A submission takes its descriptors off the front
of the free list and fills them before it shows them to the device, so that one
lemma says all of what it did (`submitChain_spec`).

Everything else is framing. The parts are disjoint because a permutation of a
range has no repetitions, so a write to a descriptor of one part leaves the
links of the others alone.

`Admissible` is what is asked of the device: when it shows the driver a
completion, its id is the head of a chain that is still outstanding. Nothing is
asked about the order.

## Main definitions

* `ChainAt`: A chain as the device reads it.
* `Owns`: Who owns which descriptor.
* `Lists`: The free list alone.
* `Carries`: The segments that a chain carries.
* `Submitted`: What the submission of a chain did.
* `QState`: A queue with the heads handed to the device and not yet returned.
* `Event`: What the driver may do, and what it finds in the used ring.
* `DriverStep`: One admissible event.

## Theorems

* `lists_alloc`, `lists_pushFree`: What the two operations do to the free list.
* `owns_setup`: A fresh queue owns every descriptor.
* `fillLoop_chainAt`: Filling turns the allocated descriptors into a chain.
* `owns_freeChain`: Releasing moves a whole chain back.
* `submit_eq_chain`: One buffer is a chain of one.
* `owns_submitChain`, `owns_getUsed`: The calls.
* `freeChainLoop_isSome`: The release walk ends, whatever the links say.
* `free_chain_ends`: How long it takes, and what it writes.
* `partitioned_step`: Every admissible event keeps the partition.
* `partitioned_reachable`: The partition holds in every reachable state.
* `descriptor_ownership`: The free list and the outstanding chains partition the
  table, and nothing outstanding is handed out again.
* `chain_construction`: A submission builds the chain it was asked for.
-/

namespace CortexForge.Virtqueue

open Function Relation List

/-- The link function of a descriptor table. -/
def links (desc : Nat → VirtqDesc) (i : Nat) : Nat := (desc i).next

/-- A chain as the device reads it: every descriptor but the last continues to
    the one after it. -/
def ChainAt (desc : Nat → VirtqDesc) : List Nat → Prop
  | [] => False
  | [i] => hasNext (desc i) = false
  | i :: j :: is => hasNext (desc i) = true ∧ (desc i).next = j ∧ ChainAt desc (j :: is)

/-- The descriptors `free` are on the free list, `pend` are held by a call in
    progress, and each of `chains` is a chain of the device. -/
structure Owns (vq : Vq) (free pend : List Nat) (chains : List (List Nat)) : Prop where
  size_le : vq.size ≤ virtqMaxSize
  linked : Linked (links vq.desc) virtqNoDesc vq.freeHead free
  numFree : vq.numFree = free.length
  chain : ∀ c ∈ chains, ChainAt vq.desc c
  perm : (free ++ (pend ++ chains.flatten)).Perm (range vq.size)

/-- The free list of a queue, by its entries, whoever owns the rest of the table. -/
structure Lists (vq : Vq) (free : List Nat) : Prop where
  size_le : vq.size ≤ virtqMaxSize
  linked : Linked (links vq.desc) virtqNoDesc vq.freeHead free
  lt_size : ∀ i ∈ free, i < vq.size
  numFree : vq.numFree = free.length

section

variable {vq : Vq} {free : List Nat}

theorem Lists.nodup (h : Lists vq free) : free.Nodup := linked_nodup h.linked

theorem Lists.length_le (h : Lists vq free) : free.length ≤ vq.size := by
  have hsub : free.toFinset ⊆ Finset.range vq.size := by
    intro i hi
    rw [Finset.mem_range]
    exact h.lt_size i (mem_toFinset.mp hi)
  have hcard := Finset.card_le_card hsub
  rwa [toFinset_card_of_nodup h.nodup, Finset.card_range] at hcard

theorem ne_noDesc_of_lt (h : vq.size ≤ virtqMaxSize) {i : Nat} (hi : i < vq.size) :
    i ≠ virtqNoDesc := by
  unfold virtqMaxSize at h
  unfold virtqNoDesc
  omega

theorem links_pushFree (vq : Vq) (x : Nat) :
    links (pushFree vq x).desc = update (links vq.desc) x vq.freeHead := by
  funext i
  by_cases hi : i = x
  · subst hi
    simp [links, pushFree]
  · simp [links, pushFree, hi]

/-- Releasing a descriptor that is not free puts it in front. -/
theorem lists_pushFree (h : Lists vq free) {x : Nat} (hx : x < vq.size) (hnot : x ∉ free) :
    Lists (pushFree vq x) (x :: free) := by
  have hlink : Linked (links (pushFree vq x).desc) virtqNoDesc x (x :: free) := by
    rw [links_pushFree]
    exact linked_push h.linked hnot (ne_noDesc_of_lt h.size_le hx)
  refine ⟨h.size_le, hlink, ?_, ?_⟩
  · intro i hi
    rcases mem_cons.mp hi with rfl | hi
    · exact hx
    · exact h.lt_size i hi
  · have hle := h.length_le
    have hsz := h.size_le
    unfold virtqMaxSize at hsz
    simp only [pushFree, inc16, h.numFree, length_cons]
    omega

/-- An allocation takes the front of the free list. -/
theorem lists_alloc {vq : Vq} {x : Nat} {free : List Nat} (h : Lists vq (x :: free)) :
    (virtqueueAllocDesc vq).2 = x ∧ Lists (virtqueueAllocDesc vq).1 free := by
  rcases linked_cons.mp h.linked with ⟨hhead, hne, hrest⟩
  have halloc : virtqueueAllocDesc vq
      = ({ vq with freeHead := (vq.desc x).next, numFree := dec16 vq.numFree }, x) := by
    unfold virtqueueAllocDesc
    rw [hhead, if_neg hne]
  rw [halloc]
  refine ⟨rfl, h.size_le, hrest, fun i hi => h.lt_size i (mem_cons_of_mem x hi), ?_⟩
  have hle := h.length_le
  have hsz := h.size_le
  unfold virtqMaxSize at hsz
  rw [length_cons] at hle
  simp only [dec16, h.numFree, length_cons]
  omega

theorem lists_allocLoop : ∀ (xs : List Nat) (vq : Vq) (free : List Nat), Lists vq (xs ++ free) →
    (allocLoop xs.length vq).2 = xs ∧ Lists (allocLoop xs.length vq).1 free := by
  intro xs
  induction xs with
  | nil => exact fun vq free h => ⟨rfl, h⟩
  | cons x xs ih =>
    intro vq free h
    rcases lists_alloc h with ⟨hx, hlists⟩
    rcases ih _ free hlists with ⟨hxs, hlists'⟩
    refine ⟨?_, hlists'⟩
    rw [length_cons, allocLoop]
    simp only [hx, hxs]

/-- The allocation loop changes nothing but the front of the free list and its
    length. -/
theorem allocLoop_eq (n : Nat) : ∀ vq : Vq,
    ∃ head num, (allocLoop n vq).1 = { vq with freeHead := head, numFree := num } := by
  induction n with
  | zero => exact fun vq => ⟨_, _, rfl⟩
  | succ n ih =>
    intro vq
    rcases ih (virtqueueAllocDesc vq).1 with ⟨head, num, heq⟩
    refine ⟨head, num, heq.trans ?_⟩
    unfold virtqueueAllocDesc
    split <;> rfl

end

theorem chainAt_congr {desc desc' : Nat → VirtqDesc} {c : List Nat}
    (hag : ∀ i ∈ c, desc' i = desc i) (h : ChainAt desc c) : ChainAt desc' c := by
  fun_induction ChainAt desc c with
  | case1 => exact h
  | case2 i => rwa [ChainAt, hag i mem_cons_self]
  | case3 i j is ih =>
    rw [ChainAt, hag i mem_cons_self]
    exact ⟨h.1, h.2.1, ih (fun k hk => hag k (mem_cons_of_mem i hk)) h.2.2⟩

theorem headD_mem_of_chainAt {desc : Nat → VirtqDesc} {c : List Nat} (h : ChainAt desc c) :
    c.headD 0 ∈ c := by
  cases c with
  | nil => exact h.elim
  | cons x rest => exact mem_cons_self

section

variable {vq : Vq} {free pend : List Nat} {chains : List (List Nat)}

variable (h : Owns vq free pend chains)
include h

theorem Owns.nodup :
    (free ++ (pend ++ chains.flatten)).Nodup :=
  h.perm.nodup_iff.mpr nodup_range

theorem Owns.lists : Lists vq free :=
  ⟨h.size_le, h.linked,
    fun _ hi => mem_range.mp (h.perm.mem_iff.mp (mem_append_left _ hi)), h.numFree⟩

theorem Owns.lt_size (i : Nat) (hi : i ∈ free ++ (pend ++ chains.flatten)) : i < vq.size :=
  mem_range.mp (h.perm.mem_iff.mp hi)

/-- Every index below the size is far below the end-of-list mark. -/
theorem Owns.ne_noDesc (i : Nat) (hi : i ∈ free ++ (pend ++ chains.flatten)) : i ≠ virtqNoDesc :=
  ne_noDesc_of_lt h.size_le (h.lt_size i hi)

end

/-- The table right after setup: every descriptor is free, in index order. -/
theorem linked_initFreeList (vq : Vq) (hle : vq.size ≤ virtqMaxSize) : ∀ n i, i + n = vq.size →
    0 < n → Linked (links (virtqueueInitFreeList vq).desc) virtqNoDesc i (range' i n) := by
  intro n
  induction n with
  | zero => exact fun _ _ => nofun
  | succ n ih =>
    intro i hi _
    have hlt : i < vq.size := by omega
    have hnext : links (virtqueueInitFreeList vq).desc i
        = if i + 1 < vq.size then i + 1 else virtqNoDesc := by
      simp only [links, virtqueueInitFreeList, if_pos hlt]
    rw [range'_succ, linked_cons, hnext]
    refine ⟨rfl, ne_noDesc_of_lt hle hlt, ?_⟩
    split_ifs with hlast
    · exact ih (i + 1) (by omega) (by omega)
    · -- The last descriptor ends the list.
      simp [show n = 0 by omega, linked_nil]

theorem owns_setup {maxSize : Nat} {vq0 vq : Vq} (h : virtqueueSetup maxSize vq0 = some vq) :
    Owns vq (range vq.size) [] [] := by
  unfold virtqueueSetup at h
  split at h
  · cases h
  obtain rfl := Option.some.inj h
  set qsize := if virtqMaxSize > maxSize then maxSize else virtqMaxSize with hq
  have hsize : 0 < qsize ∧ qsize ≤ virtqMaxSize := by
    rw [hq, virtqMaxSize]
    split_ifs <;> omega
  refine ⟨hsize.2, ?_, by simp only [virtqueueInitFreeList, length_range], nofun, ?_⟩
  · have hlink := linked_initFreeList
      { vq0 with
        size := qsize
        desc := fun i =>
          if i < qsize then { addr := 0, len := 0, flags := 0, next := 0 } else vq0.desc i
        used := { idx := 0, ring := fun _ => { id := 0, len := 0 } } }
      hsize.2 qsize 0 (Nat.zero_add _) hsize.1
    simp only [virtqueueInitFreeList, if_pos (show qsize > 0 from hsize.1)] at hlink ⊢
    rw [range_eq_range']
    exact hlink
  · simp

section

variable {vq : Vq} {free pend : List Nat} {chains : List (List Nat)} (xs : List Nat)
  (segs : List VirtqSeg) (desc : Nat → VirtqDesc)

/-- The fill loop writes only the descriptors it was given. -/
theorem fillLoop_other (i : Nat) (hi : i ∉ xs) : fillLoop xs segs desc i = desc i := by
  fun_induction fillLoop xs segs desc with
  | case1 => exact update_of_ne (ne_of_not_mem_cons hi) _ _
  | case2 x y ys s ss desc ih =>
    rw [ih (not_mem_of_not_mem_cons hi), update_of_ne (ne_of_not_mem_cons hi)]
  | case3 => rfl

theorem hasNext_or_next (f : BitVec 16) (a l n : Nat) :
    hasNext { addr := a, len := l, flags := f ||| descFNext, next := n } = true := by
  have hbit : ((f ||| descFNext) &&& descFNext) = descFNext := by
    ext i hi
    rw [BitVec.getElem_and, BitVec.getElem_or]
    cases f[i] <;> cases descFNext[i] <;> rfl
  simp only [hasNext, hbit]
  decide

theorem clear_link (f : BitVec 16) (h : f &&& descFNext = 0) :
    f &&& ~~~descFNext = f ∧ (f ||| descFNext) &&& ~~~descFNext = f := by
  constructor <;> ext i hi <;> have hbit := congrArg (fun b => b.getLsbD i) h <;>
    simp only [BitVec.getElem_and,
      BitVec.getLsbD_eq_getElem hi] at hbit ⊢ <;>
    cases hf : f[i] <;> cases hd : descFNext[i] <;> simp_all

/-- The descriptors `xs` carry the segments, in order; the links are extra. -/
def Carries (desc : Nat → VirtqDesc) (xs : List Nat) (segs : List VirtqSeg) : Prop :=
  Forall₂ (fun i s => (desc i).addr = s.pa ∧ (desc i).len = s.len ∧
    (desc i).flags &&& ~~~descFNext = s.flags) xs segs

/-- Filling distinct descriptors with as many segments links them into a chain,
    provided no segment asks for a link of its own. -/
theorem fillLoop_chainAt (hnd : xs.Nodup) (hlen : xs.length = segs.length) (hne : xs ≠ [])
    (hfl : ∀ s ∈ segs, s.flags &&& descFNext = 0) :
    ChainAt (fillLoop xs segs desc) xs ∧ Carries (fillLoop xs segs desc) xs segs := by
  fun_induction fillLoop xs segs desc with
  | case1 x s desc =>
    have hs := hfl s mem_cons_self
    refine ⟨by simp only [ChainAt, update_self, hasNext, hs]; rfl, .cons ?_ .nil⟩
    rw [update_self]
    exact ⟨rfl, rfl, (clear_link _ hs).1⟩
  | case2 x y ys s ss desc ih =>
    rw [nodup_cons] at hnd
    -- The later turns of the loop leave `x` as this one wrote it.
    have hx := fillLoop_other (y :: ys) ss (update desc x
      { addr := s.pa, len := s.len, flags := s.flags ||| descFNext, next := y }) x hnd.1
    rw [update_self] at hx
    rcases ih hnd.2 (Nat.succ.inj hlen) (cons_ne_nil y ys)
      fun s' hs' => hfl s' (mem_cons_of_mem s hs') with ⟨hchain, hcarries⟩
    refine ⟨?_, .cons ?_ hcarries⟩
    · rw [ChainAt, hx]
      exact ⟨hasNext_or_next _ _ _ _, rfl, hchain⟩
    · rw [hx]
      exact ⟨rfl, rfl, (clear_link _ (hfl s mem_cons_self)).2⟩
  | case3 xs segs desc hone hmore =>
    rcases xs with _ | ⟨x, _ | ⟨y, ys⟩⟩ <;> rcases segs with _ | ⟨s, _ | ⟨s', ss⟩⟩ <;> grind

/-- Writing descriptors in the caller's hands leaves the free list and the
    chains alone. -/
theorem owns_write (h : Owns vq free pend chains) (desc' : Nat → VirtqDesc)
    (hag : ∀ i, i ∉ pend → desc' i = vq.desc i) :
    Owns { vq with desc := desc' } free pend chains := by
  have hnd := h.nodup
  rw [nodup_append, nodup_append] at hnd
  rcases hnd with ⟨_, ⟨_, _, hpc⟩, hfp⟩
  refine ⟨h.size_le, ?_, h.numFree, fun c hc => ?_, h.perm⟩
  · refine linked_congr (fun i hi => ?_) h.linked
    have hnot : i ∉ pend := fun hp => hfp i hi i (mem_append_left _ hp) rfl
    simp only [links, hag i hnot]
  · refine chainAt_congr (fun i hi => hag i (fun hp => ?_)) (h.chain c hc)
    exact hpc i hp i (mem_flatten.mpr ⟨c, hc, hi⟩) rfl

/-- What a submission that published `head` did to the part of the queue that
    the device sees. -/
structure Published (vq vq' : Vq) (head : Nat) : Prop where
  avail : vq'.avail = (publish vq head).avail
  used : vq'.used = vq.used
  lastUsed : vq'.lastUsed = vq.lastUsed
  size : vq'.size = vq.size

/-- What the submission of a chain did with the descriptors `xs`. -/
structure Submitted (vq : Vq) (segs : List VirtqSeg) (xs : List Nat) (vq' : Vq) : Prop where
  taken : (allocLoop segs.length vq).2 = xs
  length : xs.length = segs.length
  chain : (∀ s ∈ segs, s.flags &&& descFNext = 0) →
    ChainAt vq'.desc xs ∧ Carries vq'.desc xs segs
  other : ∀ i, i ∉ xs → vq'.desc i = vq.desc i
  head_mem : xs.headD 0 ∈ xs
  published : Published vq vq' (xs.headD 0)

/-- Submitting a chain: as many descriptors as it has segments leave the front of
    the free list. -/
theorem submitChain_spec (h : Lists vq free)
    (hroom : ¬ (segs.length = 0 ∨ segs.length > vq.numFree)) :
    ∃ xs rest, free = xs ++ rest ∧ (virtqueueSubmitChain vq segs).2 = xs.headD 0 ∧
      Lists (virtqueueSubmitChain vq segs).1 rest ∧
      Submitted vq segs xs (virtqueueSubmitChain vq segs).1 := by
  have hnum := h.numFree
  have hxs : (free.take segs.length).length = segs.length := length_take_of_le (by omega)
  have hsplit := (take_append_drop segs.length free).symm
  generalize free.take segs.length = xs at hxs hsplit
  generalize free.drop segs.length = rest at hsplit
  rw [hsplit] at h
  have hnd := nodup_append.mp h.nodup
  have hne : xs ≠ [] := by
    rintro rfl
    exact hroom (.inl hxs.symm)
  rcases lists_allocLoop xs vq rest h with ⟨hidx, hlists⟩
  rw [hxs] at hidx hlists
  rcases allocLoop_eq segs.length vq with ⟨head, num, heq⟩
  rw [heq] at hlists
  simp only [virtqueueSubmitChain, if_neg hroom, hidx, heq]
  refine ⟨xs, rest, hsplit, rfl, ⟨hlists.size_le, ?_, hlists.lt_size, hlists.numFree⟩, hidx, hxs,
    fillLoop_chainAt xs segs vq.desc hnd.1 hxs hne, fillLoop_other xs segs vq.desc, ?_,
    rfl, rfl, rfl, rfl⟩
  · refine linked_congr (fun i hi => ?_) hlists.linked
    exact congrArg VirtqDesc.next (fillLoop_other xs segs vq.desc i fun hc => hnd.2.2 i hc i hi rfl)
  · rcases exists_cons_of_ne_nil hne with ⟨x, xs, rfl⟩
    exact mem_cons_self

/-- One buffer is a chain of one segment whose link flag has been cleared. -/
theorem submit_eq_chain (h : Lists vq free) (bufPa len : Nat) (flags : BitVec 16) :
    virtqueueSubmit vq bufPa len flags =
      virtqueueSubmitChain vq [⟨bufPa, len, flags &&& ~~~descFNext⟩] := by
  have hnum := h.numFree
  cases free with
  | nil =>
    have hhead := linked_nil.mp h.linked
    simp [virtqueueSubmit, virtqueueSubmitChain, virtqueueAllocDesc, hhead, hnum]
  | cons x free =>
    have hne := ne_noDesc_of_lt h.size_le (h.lt_size x mem_cons_self)
    have hx := (lists_alloc h).1
    simp [virtqueueSubmit, virtqueueSubmitChain, allocLoop, fillLoop, hx, hne, hnum]

/-- Clearing one held descriptor and pushing it on the free list. -/
theorem owns_pushFree {x : Nat} (h : Owns vq free (x :: pend) chains) :
    Owns (pushFree vq x) (x :: free) pend chains := by
  have hw := owns_write h
    (update vq.desc x { addr := 0, len := 0, flags := 0, next := vq.freeHead })
    fun i hi => update_of_ne (ne_of_not_mem_cons hi) _ _
  have hperm : (x :: free ++ (pend ++ chains.flatten)).Perm (range vq.size) :=
    perm_middle.symm.trans hw.perm
  have hx : x ∉ free := fun hc =>
    (nodup_cons.mp (hperm.nodup_iff.mpr nodup_range)).1 (mem_append_left _ hc)
  have hlists := lists_pushFree h.lists (h.lt_size x (mem_append_right _ mem_cons_self)) hx
  exact ⟨h.size_le, hlists.linked, hlists.numFree, hw.chain, hperm⟩

/-- What a walk along a chain leaves alone. -/
structure SameRings (vq vq' : Vq) : Prop where
  avail : vq'.avail = vq.avail
  used : vq'.used = vq.used
  lastUsed : vq'.lastUsed = vq.lastUsed
  size : vq'.size = vq.size

/-- Releasing a chain moves all of it back. The walk pushes each descriptor it
    leaves, so the chain arrives on the free list in reverse. -/
theorem owns_freeChainLoop (c : List Nat) : ∀ (fuel : Nat) (vq : Vq) (free : List Nat),
    Owns vq free c chains → ChainAt vq.desc c → c.length ≤ fuel →
    ∃ vq', freeChainLoop fuel vq (c.headD 0) = some vq' ∧
      Owns vq' (c.reverse ++ free) [] chains ∧ SameRings vq vq' := by
  induction c with
  | nil => exact fun _ _ _ _ => False.elim
  | cons x c ih =>
    intro fuel vq free h hch hfuel
    rcases fuel with _ | fuel
    · cases hfuel
    have hlt := Nat.not_le_of_lt (h.lt_size x (mem_append_right _ mem_cons_self))
    have hpush := owns_pushFree h
    rw [headD_cons, freeChainLoop, if_neg hlt]
    rcases c with _ | ⟨y, ys⟩
    · -- The last descriptor has no link, and the walk ends on it.
      rw [ChainAt] at hch
      exact ⟨pushFree vq x, by simp only [hch]; rfl, hpush, rfl, rfl, rfl, rfl⟩
    · rcases hch with ⟨hnext, hy, hrest⟩
      -- The rest of the chain is disjoint from `x`, so it is still a chain.
      have hnd := h.nodup
      rw [nodup_append, nodup_append, nodup_cons] at hnd
      have hrest' : ChainAt (pushFree vq x).desc (y :: ys) := by
        refine chainAt_congr (fun i hi => update_of_ne ?_ _ _) hrest
        exact fun hc => hnd.2.1.1.1 (hc ▸ hi)
      rcases ih fuel (pushFree vq x) (x :: free) hpush hrest' (Nat.le_of_succ_le_succ hfuel) with
        ⟨vq', hrun, hown, hsame⟩
      refine ⟨vq', ?_, ?_, hsame.avail, hsame.used, hsame.lastUsed, hsame.size⟩
      · simp only [hnext, hy]
        exact hrun
      · rw [reverse_cons, append_assoc]
        exact hown

end

/-- The descriptors that still carry a link. -/
def linkedSet (vq : Vq) : Finset Nat :=
  (Finset.range vq.size).filter (fun i => hasNext (vq.desc i) = true)

/-- Pushing a descriptor clears its flags, so it carries no link any more. -/
theorem linkedSet_pushFree (vq : Vq) (idx : Nat) :
    linkedSet (pushFree vq idx) = (linkedSet vq).erase idx := by
  ext i
  unfold linkedSet
  rw [Finset.mem_erase, Finset.mem_filter]
  by_cases hi : i = idx
  · subst hi
    simp [pushFree, hasNext]
  · simp [pushFree, hi]

/-- The release walk ends whatever the links in the table say, a cycle included:
    each turn that goes on takes one link out of the table. -/
theorem freeChainLoop_isSome (fuel : Nat) (vq : Vq) (idx : Nat)
    (h : (linkedSet vq).card < fuel) : (freeChainLoop fuel vq idx).isSome := by
  fun_induction freeChainLoop fuel vq idx with
  | case1 => cases h
  | case2 => rfl
  | case3 fuel vq idx hin d hnext ih =>
    have hmem : idx ∈ linkedSet vq :=
      Finset.mem_filter.mpr ⟨Finset.mem_range.mpr (Nat.lt_of_not_le hin), hnext⟩
    have hcard := Finset.card_erase_lt_of_mem hmem
    refine ih ?_
    rw [linkedSet_pushFree]
    omega
  | case4 => rfl

/-- The bound `virtqueueFreeChain` runs under is never reached. -/
theorem freeChainLoop_size_isSome (vq : Vq) (idx : Nat) :
    (freeChainLoop (vq.size + 1) vq idx).isSome := by
  refine freeChainLoop_isSome _ vq idx ?_
  have hle := Finset.card_filter_le (Finset.range vq.size) (fun i => hasNext (vq.desc i) = true)
  rw [Finset.card_range] at hle
  exact Nat.lt_succ_of_le hle

/-- The release walk writes the descriptors it visits, and visits no other than those of
    the table. -/
theorem freeChainLoop_visits (fuel : Nat) (vq vq' : Vq) (idx : Nat)
    (hrun : freeChainLoop fuel vq idx = some vq') :
    ∃ visited : List Nat, visited.length ≤ fuel ∧ (∀ i ∈ visited, i < vq.size) ∧
      vq' = visited.foldl pushFree vq := by
  fun_induction freeChainLoop fuel vq idx with
  | case1 => cases hrun
  | case2 =>
    cases hrun
    exact ⟨[], Nat.zero_le _, nofun, rfl⟩
  | case3 fuel vq idx hin d hnext ih =>
    rcases ih hrun with ⟨visited, hlen, hbelow, hwrites⟩
    exact ⟨idx :: visited, Nat.succ_le_succ hlen,
      forall_mem_cons.mpr ⟨Nat.lt_of_not_le hin, hbelow⟩, hwrites⟩
  | case4 fuel vq idx hin =>
    cases hrun
    exact ⟨[idx], Nat.succ_le_succ (Nat.zero_le _),
      forall_mem_cons.mpr ⟨Nat.lt_of_not_le hin, nofun⟩, rfl⟩

/-- Releasing a chain is over after `size + 1` turns at most, whatever the table holds,
    and writes descriptors of the table only. -/
theorem free_chain_ends (vq : Vq) (head : Nat) :
    freeChainLoop (vq.size + 1) vq head = some (virtqueueFreeChain vq head) ∧
      ∃ visited : List Nat, visited.length ≤ vq.size + 1 ∧ (∀ i ∈ visited, i < vq.size) ∧
        virtqueueFreeChain vq head = visited.foldl pushFree vq := by
  rcases Option.isSome_iff_exists.mp (freeChainLoop_size_isSome vq head) with ⟨vq', hrun⟩
  have hfree : virtqueueFreeChain vq head = vq' := by
    rw [virtqueueFreeChain, hrun, Option.getD_some]
  rw [hfree]
  exact ⟨hrun, freeChainLoop_visits _ vq vq' head hrun⟩

section

variable {vq : Vq} {free c : List Nat} {chains : List (List Nat)}

theorem owns_freeChain (h : Owns vq free c chains) (hch : ChainAt vq.desc c) :
    Owns (virtqueueFreeChain vq (c.headD 0)) (c.reverse ++ free) [] chains ∧
      SameRings vq (virtqueueFreeChain vq (c.headD 0)) := by
  have hlen := h.perm.length_eq
  rw [length_append, length_append, length_range] at hlen
  rcases owns_freeChainLoop c (vq.size + 1) vq free h hch (by omega) with ⟨vq', hrun, hrest⟩
  rw [virtqueueFreeChain, hrun]
  exact hrest

/-- The descriptors of a chain that was submitted become the device's. -/
theorem owns_submitChain {segs : List VirtqSeg} (h : Owns vq free [] chains)
    (hfl : ∀ s ∈ segs, s.flags &&& descFNext = 0)
    (hroom : ¬ (segs.length = 0 ∨ segs.length > vq.numFree)) :
    ∃ xs rest, (virtqueueSubmitChain vq segs).2 = xs.headD 0 ∧ xs.headD 0 ≠ virtqNoDesc ∧
      Owns (virtqueueSubmitChain vq segs).1 rest [] (chains ++ [xs]) ∧
      Submitted vq segs xs (virtqueueSubmitChain vq segs).1 ∧
      ∀ c ∈ chains, ∀ i ∈ c, i ∉ xs := by
  rcases submitChain_spec segs h.lists hroom with ⟨xs, rest, rfl, hhead, hlists, hsub⟩
  have hnd := nodup_append.mp h.nodup
  have hapart : ∀ c ∈ chains, ∀ i ∈ c, i ∉ xs := fun c hc i hi hx =>
    hnd.2.2 i (mem_append_left _ hx) i (mem_append_right _ (mem_flatten.mpr ⟨c, hc, hi⟩)) rfl
  refine ⟨xs, rest, hhead, h.ne_noDesc _ (mem_append_left _ (mem_append_left _ hsub.head_mem)),
    ⟨hlists.size_le, hlists.linked, hlists.numFree, fun c hc => ?_, ?_⟩, hsub, hapart⟩
  · rcases mem_append.mp hc with hold | hnew
    · exact chainAt_congr (fun i hi => hsub.other i (hapart c hold i hi))
        (h.chain c hold)
    · rw [mem_singleton.mp hnew]
      exact (hsub.chain hfl).1
  · rw [hsub.published.size, nil_append, flatten_append, flatten_singleton]
    refine List.Perm.trans ?_ h.perm
    rw [append_assoc, ← append_assoc]
    exact perm_append_comm

/-- Reaping a completion whose id is the head of a live chain releases that
    chain and no other. -/
theorem owns_getUsed {as bs : List (List Nat)} (h : Owns vq free [] (as ++ c :: bs))
    (hnew : vq.used.idx ≠ vq.lastUsed)
    (hid : (vq.used.ring (vq.lastUsed % vq.size)).id = c.headD 0) :
    ∃ vq', virtqueueGetUsed vq = (vq', some (vq.used.ring (vq.lastUsed % vq.size))) ∧
      Owns vq' (c.reverse ++ free) [] (as ++ bs) ∧
      SameRings { vq with lastUsed := inc16 vq.lastUsed } vq' := by
  have hch : ChainAt vq.desc c := h.chain c (mem_append_right _ mem_cons_self)
  -- Take the chain out of the device's hands first.
  have htake : Owns { vq with lastUsed := inc16 vq.lastUsed } free c (as ++ bs) := by
    refine ⟨h.size_le, h.linked, h.numFree, fun d hd => h.chain d ?_, ?_⟩
    · exact perm_middle.mem_iff.mpr (mem_cons_of_mem c hd)
    · refine List.Perm.trans (List.Perm.append_left free ?_) h.perm
      exact (@perm_middle _ c as bs).symm.flatten
  have hlt : ¬ c.headD 0 ≥ vq.size := Nat.not_le_of_lt (htake.lt_size _
    (mem_append_right _ (mem_append_left _ (headD_mem_of_chainAt hch))))
  refine ⟨_, ?_, owns_freeChain htake hch⟩
  simp only [virtqueueGetUsed, if_neg hnew, hid, if_neg hlt]

end

/-- A queue together with the chain heads the driver has submitted and not yet
    reaped, as its callers see them. -/
structure QState where
  vq : Vq
  outstanding : List Nat

/-- One call of the driver. A reap comes with the used ring the device shows at
    that moment. -/
inductive Event where
  | submit (bufPa len : Nat) (flags : BitVec 16)
  | submitChain (segs : List VirtqSeg)
  | getUsed (used : VirtqUsed)

/-- The heads in flight after a submission that returned `r`. -/
def afterSubmit (outstanding : List Nat) (r : Nat) : List Nat :=
  if r = virtqNoDesc then outstanding else outstanding ++ [r]

/-- The heads in flight after a reap that returned `r`. -/
def afterReap (outstanding : List Nat) : Option VirtqUsedElem → List Nat
  | none => outstanding
  | some elem => outstanding.erase elem.id

def QState.next (q : QState) : Event → QState
  | .submit bufPa len flags =>
      { vq := (virtqueueSubmit q.vq bufPa len flags).1
        outstanding := afterSubmit q.outstanding (virtqueueSubmit q.vq bufPa len flags).2 }
  | .submitChain segs =>
      { vq := (virtqueueSubmitChain q.vq segs).1
        outstanding := afterSubmit q.outstanding (virtqueueSubmitChain q.vq segs).2 }
  | .getUsed used =>
      { vq := (virtqueueGetUsed { q.vq with used := used }).1
        outstanding :=
          afterReap q.outstanding (virtqueueGetUsed { q.vq with used := used }).2 }

/-- What callers and device keep to: no segment carries the link flag, and a
    completion the driver is shown names a chain still outstanding. -/
def Admissible (q : QState) : Event → Prop
  | .submit _ _ _ => True
  | .submitChain segs => ∀ s ∈ segs, s.flags &&& descFNext = 0
  | .getUsed used =>
      used.idx = q.vq.lastUsed ∨ (used.ring (q.vq.lastUsed % q.vq.size)).id ∈ q.outstanding

def DriverStep (q q' : QState) : Prop := ∃ e, Admissible q e ∧ q' = q.next e

/-- The free list and the outstanding chains partition the table, the chains
    being those of the outstanding heads. -/
def Partitioned (q : QState) (free : List Nat) (chains : List (List Nat)) : Prop :=
  Owns q.vq free [] chains ∧ chains.map (fun c => c.headD 0) = q.outstanding

variable {chains : List (List Nat)} {free : List Nat}

/-- A head that is outstanding picks out its chain, and taking the head off the
    list takes exactly that chain away. -/
theorem partitioned_split {q : QState} (h : Partitioned q free chains) {id : Nat}
    (hid : id ∈ q.outstanding) :
    ∃ as c bs, chains = as ++ c :: bs ∧ c.headD 0 = id ∧
      (as ++ bs).map (fun c => c.headD 0) = q.outstanding.erase id := by
  rcases h with ⟨hown, hheads⟩
  rw [← hheads] at hid
  rcases mem_map.mp hid with ⟨c, hc, hcid⟩
  rcases append_of_mem hc with ⟨as, bs, hsplit⟩
  refine ⟨as, c, bs, hsplit, hcid, ?_⟩
  have hnot : id ∉ as.map (fun c => c.headD 0) := by
    intro hmem
    rcases mem_map.mp hmem with ⟨d, hd, hdid⟩
    -- Two chains with one head would share a descriptor.
    have hnd := hown.nodup
    rw [hsplit, nil_append, flatten_append, nodup_append,
      nodup_append] at hnd
    have hdmem := headD_mem_of_chainAt (hown.chain d (by
      rw [hsplit]
      exact mem_append_left _ hd))
    have hcmem := headD_mem_of_chainAt (hown.chain c hc)
    rw [hdid] at hdmem
    rw [hcid] at hcmem
    exact hnd.2.1.2.2 id (mem_flatten.mpr ⟨d, hd, hdmem⟩) id
      (mem_append_left _ hcmem) rfl
  rw [← hheads, hsplit, map_append, map_append, map_cons, hcid,
    erase_append_right _ hnot, erase_cons_head]

theorem partitioned_submitChain {q : QState} (h : Partitioned q free chains) {segs : List VirtqSeg}
    (hfl : ∀ s ∈ segs, s.flags &&& descFNext = 0) :
    ∃ free' chains', Partitioned (q.next (.submitChain segs)) free' chains' := by
  by_cases hroom : segs.length = 0 ∨ segs.length > q.vq.numFree
  · have hnext : q.next (.submitChain segs) = q := by
      simp only [QState.next, virtqueueSubmitChain, if_pos hroom, afterSubmit, if_true]
    rw [hnext]
    exact ⟨free, chains, h⟩
  · rcases owns_submitChain h.1 hfl hroom with ⟨xs, rest, hhead, hne, hown, _⟩
    refine ⟨rest, chains ++ [xs], hown, ?_⟩
    rw [QState.next, hhead, afterSubmit, if_neg hne, map_append, h.2]
    rfl

theorem cleared_link (flags : BitVec 16) (bufPa len : Nat) :
    ∀ s ∈ [VirtqSeg.mk bufPa len (flags &&& ~~~descFNext)], s.flags &&& descFNext = 0 := by
  intro s hs
  rw [mem_singleton.mp hs]
  ext i hi
  cases flags[i] <;> cases descFNext[i] <;> simp

/-- Every admissible event keeps the partition. -/
theorem partitioned_step {q q' : QState} (h : Partitioned q free chains) (hstep : DriverStep q q') :
    ∃ free' chains', Partitioned q' free' chains' := by
  rcases hstep with ⟨e, hadm, rfl⟩
  rcases h with ⟨hown, hheads⟩
  cases e with
  | submit bufPa len flags =>
    simp only [QState.next, submit_eq_chain hown.lists]
    exact partitioned_submitChain ⟨hown, hheads⟩ (cleared_link flags bufPa len)
  | submitChain segs => exact partitioned_submitChain ⟨hown, hheads⟩ hadm
  | getUsed used =>
    have hown0 : Owns { q.vq with used := used } free [] chains :=
      ⟨hown.size_le, hown.linked, hown.numFree, hown.chain, hown.perm⟩
    by_cases hidle : used.idx = q.vq.lastUsed
    · -- Nothing has completed: the call changes nothing.
      have hnone : virtqueueGetUsed { q.vq with used := used }
          = ({ q.vq with used := used }, none) := by
        simp [virtqueueGetUsed, hidle]
      refine ⟨free, chains, ?_, ?_⟩
      · simp only [QState.next, hnone]
        exact hown0
      · simp only [QState.next, hnone]
        exact hheads
    · rcases hadm with hc | hid
      · exact absurd hc hidle
      rcases partitioned_split ⟨hown, hheads⟩ hid with
        ⟨as, c, bs, hsplit, hcid, hrest⟩
      rw [hsplit] at hown0
      rcases owns_getUsed hown0 hidle hcid.symm with ⟨vq', hrun, hown', _⟩
      refine ⟨c.reverse ++ free, as ++ bs, ?_, ?_⟩
      · simp only [QState.next, hrun]
        exact hown'
      · simp only [QState.next, hrun]
        exact hrest

/-- The partition holds in every state a fresh queue can reach. -/
theorem partitioned_reachable {maxSize : Nat} {vq0 vq : Vq}
    (hsetup : virtqueueSetup maxSize vq0 = some vq) {q : QState}
    (hreach : ReflTransGen DriverStep { vq := vq, outstanding := [] } q) :
    ∃ free chains, Partitioned q free chains := by
  induction hreach with
  | refl => exact ⟨range vq.size, [], owns_setup hsetup, rfl⟩
  | tail _ hstep ih =>
    rcases ih with ⟨free, chains, h⟩
    exact partitioned_step h hstep

/-- What the allocation loop hands out was on the free list. -/
theorem allocLoop_subset {vq : Vq} (h : Owns vq free [] chains) {n : Nat} (hn : n ≤ vq.numFree) :
    ∀ d ∈ (allocLoop n vq).2, d ∈ free := by
  rw [h.numFree] at hn
  have hsplit : free = free.take n ++ free.drop n := (take_append_drop n free).symm
  rw [hsplit] at h
  have hidx := (lists_allocLoop (free.take n) vq _ h.lists).1
  rw [length_take_of_le hn] at hidx
  intro d hd
  rw [hidx] at hd
  exact mem_of_mem_take hd

/-- Descriptor ownership. After any sequence of submissions and reaps, on a
    queue of any size and with completions in any order, the free list is a
    list without repetitions that ends in `virtqNoDesc` and has `numFree`
    entries, every outstanding head starts a chain, and each descriptor of the
    table is on exactly one of them. What a further allocation hands out is
    therefore in no outstanding chain. -/
theorem descriptor_ownership (maxSize : Nat) (vq0 vq : Vq)
    (hsetup : virtqueueSetup maxSize vq0 = some vq) (q : QState)
    (hreach : ReflTransGen DriverStep { vq := vq, outstanding := [] } q) :
    ∃ (free : List Nat) (chains : List (List Nat)),
      Linked (links q.vq.desc) virtqNoDesc q.vq.freeHead free ∧
      free.Nodup ∧ free.length = q.vq.numFree ∧
      chains.map (fun c => c.headD 0) = q.outstanding ∧
      (∀ c ∈ chains, ChainAt q.vq.desc c) ∧
      (free ++ chains.flatten).Perm (range q.vq.size) ∧
      (∀ n ≤ q.vq.numFree, ∀ d ∈ (allocLoop n q.vq).2, ∀ c ∈ chains, d ∉ c) := by
  rcases partitioned_reachable hsetup hreach with ⟨free, chains, hown, hheads⟩
  refine ⟨free, chains, hown.linked, linked_nodup hown.linked, hown.numFree.symm,
    hheads, hown.chain, hown.perm, ?_⟩
  intro n hn d hd c hc hdc
  have hfree := allocLoop_subset hown hn d hd
  have hnd := hown.nodup
  rw [nodup_append] at hnd
  exact hnd.2.2 d hfree d (mem_flatten.mpr ⟨c, hc, hdc⟩) rfl

/-- A queue with nothing set up yet. -/
def blankVq : Vq :=
  { size := 0, freeHead := 0, numFree := 0, lastUsed := 0
    desc := fun _ => { addr := 0, len := 0, flags := 0, next := 0 }
    avail := { idx := 0, ring := fun _ => 0 }
    used := { idx := 0, ring := fun _ => { id := 0, len := 0 } } }

/-- Ownership on a queue of two descriptors after one submission. -/
theorem descriptor_ownership_two : ∃ vq,
    virtqueueSetup 2 blankVq = some vq ∧
    ∃ (free : List Nat) (chains : List (List Nat)),
      Linked (links (virtqueueSubmit vq 64 8 0).1.desc) virtqNoDesc
        (virtqueueSubmit vq 64 8 0).1.freeHead free ∧
      free.Nodup ∧ free.length = (virtqueueSubmit vq 64 8 0).1.numFree ∧
      chains.map (fun c => c.headD 0) = [0] ∧
      (∀ c ∈ chains, ChainAt (virtqueueSubmit vq 64 8 0).1.desc c) ∧
      (free ++ chains.flatten).Perm (range 2) ∧
      (∀ n ≤ (virtqueueSubmit vq 64 8 0).1.numFree,
        ∀ d ∈ (allocLoop n (virtqueueSubmit vq 64 8 0).1).2, ∀ c ∈ chains, d ∉ c) := by
  refine ⟨_, rfl, ?_⟩
  exact descriptor_ownership 2 blankVq _ rfl
    (QState.next { vq := _, outstanding := [] } (.submit 64 8 0))
    (ReflTransGen.single ⟨.submit 64 8 0, trivial, rfl⟩)

/-- Submitting a chain in any reachable state. Without room nothing happens. With room
    the returned head starts a chain of new descriptors that carries the segments, the
    available ring has one more entry, which names it, and the chains in flight are as
    they were. -/
theorem chain_construction (maxSize : Nat) (vq0 vq : Vq)
    (hsetup : virtqueueSetup maxSize vq0 = some vq) (q : QState)
    (hreach : ReflTransGen DriverStep { vq := vq, outstanding := [] } q) (segs : List VirtqSeg)
    (hfl : ∀ s ∈ segs, s.flags &&& descFNext = 0) :
    let vq' := (virtqueueSubmitChain q.vq segs).1
    let head := (virtqueueSubmitChain q.vq segs).2
    (segs.length = 0 ∨ segs.length > q.vq.numFree → vq' = q.vq ∧ head = virtqNoDesc) ∧
    (¬ (segs.length = 0 ∨ segs.length > q.vq.numFree) →
      ∃ (xs : List Nat) (chains : List (List Nat)), xs.headD 0 = head ∧ xs.Nodup ∧
        xs.length = segs.length ∧ ChainAt vq'.desc xs ∧ Carries vq'.desc xs segs ∧
        vq'.avail.idx = inc16 q.vq.avail.idx ∧
        vq'.avail.ring = update q.vq.avail.ring (q.vq.avail.idx % q.vq.size) head ∧
        vq'.numFree = q.vq.numFree - segs.length ∧
        chains.map (fun c => c.headD 0) = q.outstanding ∧
        ∀ c ∈ chains, ChainAt q.vq.desc c ∧ ∀ i ∈ c, i ∉ xs ∧ vq'.desc i = q.vq.desc i) := by
  rcases partitioned_reachable hsetup hreach with ⟨free, chains, hown, hheads⟩
  refine ⟨fun hfull => ?_, fun hroom => ?_⟩
  · rw [virtqueueSubmitChain, if_pos hfull]
    exact ⟨rfl, rfl⟩
  rcases owns_submitChain hown hfl hroom with ⟨xs, rest, hhead, _, hown', hsub, hapart⟩
  have hnd := hown'.nodup
  rw [nil_append, flatten_append, flatten_singleton, nodup_append, nodup_append] at hnd
  refine ⟨xs, chains, hhead.symm, hnd.2.1.2.1, hsub.length, (hsub.chain hfl).1, (hsub.chain hfl).2,
    by rw [hsub.published.avail]; rfl, by rw [hsub.published.avail, hhead]; rfl, ?_, hheads,
    fun c hc => ⟨hown.chain c hc, fun i hi => ⟨hapart c hc i hi, hsub.other i (hapart c hc i hi)⟩⟩⟩
  have hlen := hown'.perm.length_eq.trans (hsub.published.size ▸ hown.perm.length_eq.symm)
  simp only [length_append, flatten_append, flatten_singleton] at hlen
  have hlength := hsub.length
  rw [hown'.numFree, hown.numFree]
  omega

/-- A chain of two segments on a queue of two. -/
theorem chain_construction_two : ∃ vq, virtqueueSetup 2 blankVq = some vq ∧
    (virtqueueSubmitChain vq [⟨64, 8, 0⟩, ⟨128, 16, 2⟩]).1.numFree = 0 := by
  refine ⟨_, rfl, ?_⟩
  rcases (chain_construction 2 blankVq _ rfl _ .refl [⟨64, 8, 0⟩, ⟨128, 16, 2⟩] (by decide)).2
    (by decide) with ⟨_, _, _, _, _, _, _, _, _, hnum, _⟩
  exact hnum

end CortexForge.Virtqueue
