import CortexForge.Lib.Ring
import CortexForge.Theory.Virtqueue

/-!
# The Ring Protocol

The driver and the device talk through two rings. The driver publishes chain
heads in the available ring and the device takes them; the device posts
completions in the used ring and the driver reaps them. Four counters of 16 bits
run freely, and each wraps on its own.

`Link` is the queue with the device at its other end and the history of what was
said: the heads published and taken, the completions posted and returned. The
histories are not read by any step. They are what the exactness of the protocol
is stated about: the taken heads are the first of the published ones, and the
returned completions the first of the posted ones.

The counters are the lengths of the histories modulo 65536 (`InStep`). That the
wrapped counters still tell an empty ring from a full one, and that no slot is
written over before it is read, both come down to one number: the entries under
way in the two rings and the chains the device is working on are together the
outstanding chains, and `Owns` allows at most one of those for each descriptor.

## Main definitions

* `Link`: The queue, the device and the history.
* `Action`: A call of the driver, or a move of the device.
* `LinkStep`: One enabled action.
* `InStep`: The rings hold what is under way, and the counters count.

## Theorems

* `inStep_step`: Every enabled action keeps the two ends in step.
* `inStep_reachable`: The ends are in step in every reachable state.
* `ring_exactness`: Every head is taken once and in order, and every completion
  is returned once with the id and length it was posted with.
-/

namespace CortexForge.Virtqueue

open Relation List

/-- The two ends of a queue. `devAvail` is the device's count of the heads it
    took, `working` the chains it took and has not completed. -/
structure Link where
  q : QState
  devAvail : Nat
  working : List Nat
  published : List Nat
  taken : List Nat
  posted : List VirtqUsedElem
  returned : List VirtqUsedElem

/-- A call of the driver (`submit`, `submitChain`, `getUsed`) or a move of the
    device (`take`, `post`). -/
inductive Action where
  | submit (bufPa len : Nat) (flags : BitVec 16)
  | submitChain (segs : List VirtqSeg)
  | getUsed
  | take
  | post (elem : VirtqUsedElem)

/-- The head the device finds in the available ring, if there is a new one. -/
def deviceNext (vq : Vq) (devAvail : Nat) : Option Nat :=
  if vq.avail.idx = devAvail then none else some (vq.avail.ring (devAvail % vq.size))

/-- The device writes a completion into the used ring. -/
def devicePost (vq : Vq) (elem : VirtqUsedElem) : Vq :=
  { vq with
    used :=
      { idx := inc16 vq.used.idx
        ring := Function.update vq.used.ring (vq.used.idx % vq.size) elem } }

def Link.next (s : Link) : Action → Link
  | .submit bufPa len flags =>
      { s with
        q := s.q.next (.submit bufPa len flags)
        published := afterSubmit s.published (virtqueueSubmit s.q.vq bufPa len flags).2 }
  | .submitChain segs =>
      { s with
        q := s.q.next (.submitChain segs)
        published := afterSubmit s.published (virtqueueSubmitChain s.q.vq segs).2 }
  | .getUsed =>
      { s with
        q := s.q.next (.getUsed s.q.vq.used)
        returned := s.returned ++ (virtqueueGetUsed s.q.vq).2.toList }
  | .take =>
      match deviceNext s.q.vq s.devAvail with
      | none => s
      | some head =>
          { s with
            devAvail := inc16 s.devAvail
            working := s.working ++ [head]
            taken := s.taken ++ [head] }
  | .post elem =>
      { s with
        q := { s.q with vq := devicePost s.q.vq elem }
        working := s.working.erase elem.id
        posted := s.posted ++ [elem] }

/-- Callers pass no link flag, and the device completes only chains it took. -/
def Enabled (s : Link) : Action → Prop
  | .submitChain segs => ∀ g ∈ segs, g.flags &&& descFNext = 0
  | .post elem => elem.id ∈ s.working
  | _ => True

def LinkStep (s s' : Link) : Prop := ∃ a, Enabled s a ∧ s' = s.next a

/-- A queue just set up, with an idle device. -/
def Link.init (vq : Vq) : Link :=
  { q := { vq := vq, outstanding := [] }, devAvail := 0, working := []
    published := [], taken := [], posted := [], returned := [] }

/-- The two ends are in step: `waiting` are the heads published and not taken,
    `unread` the completions posted and not returned. -/
structure InStep (s : Link) (waiting : List Nat) (unread : List VirtqUsedElem) : Prop where
  parts : ∃ free chains, Partitioned s.q free chains
  size_dvd : s.q.vq.size ∣ 65536
  published : s.published = s.taken ++ waiting
  posted : s.posted = s.returned ++ unread
  availIdx : s.q.vq.avail.idx = s.published.length % 65536
  devAvail : s.devAvail = s.taken.length % 65536
  usedIdx : s.q.vq.used.idx = s.posted.length % 65536
  lastUsed : s.q.vq.lastUsed = s.returned.length % 65536
  avail : RingHolds s.q.vq.avail.ring s.q.vq.size s.taken.length waiting
  used : RingHolds s.q.vq.used.ring s.q.vq.size s.returned.length unread
  underWay : (waiting ++ (s.working ++ unread.map VirtqUsedElem.id)).Perm s.q.outstanding

/-- At most one chain is outstanding for each descriptor of the table. -/
theorem outstanding_length_le (q : QState) (h : ∃ free chains, Partitioned q free chains) :
    q.outstanding.length ≤ q.vq.size := by
  rcases h with ⟨free, chains, hown, hheads⟩
  have hlen := hown.perm.length_eq
  rw [length_append, length_append, length_range] at hlen
  -- No chain is empty, so there are at most as many chains as descriptors in them.
  have hchains : ∀ cs : List (List Nat), (∀ c ∈ cs, ChainAt q.vq.desc c) →
      cs.length ≤ cs.flatten.length := by
    intro cs hcs
    induction cs with
    | nil => exact Nat.le_refl 0
    | cons c cs ih =>
      have hpos := length_pos_of_mem (headD_mem_of_chainAt (hcs c mem_cons_self))
      have hrest := ih fun d hd => hcs d (mem_cons_of_mem c hd)
      rw [flatten_cons, length_cons, length_append]
      omega
  have := hchains chains hown.chain
  rw [← hheads, length_map]
  omega

theorem inc16_mod (n : Nat) : inc16 (n % 65536) = (n + 1) % 65536 := by
  unfold inc16
  simp

section

variable {s : Link} {waiting : List Nat} {unread : List VirtqUsedElem}

variable (h : InStep s waiting unread)
include h

/-- The window of each ring and the chains being worked on fit the table
    together. -/
theorem InStep.underWay_le :
    waiting.length + (s.working.length + unread.length) ≤ s.q.vq.size := by
  have hlen := h.underWay.length_eq
  rw [length_append, length_append, length_map] at hlen
  rw [hlen]
  exact outstanding_length_le s.q h.parts

theorem InStep.size_lt : s.q.vq.size < 65536 := by
  rcases h.parts with ⟨free, chains, hown, _⟩
  have hle := hown.size_le
  unfold virtqMaxSize at hle
  omega

theorem InStep.published_length :
    s.published.length = s.taken.length + waiting.length := by
  simp [h.published]

theorem InStep.posted_length :
    s.posted.length = s.returned.length + unread.length := by
  simp [h.posted]

/-- The slot of a wrapped counter is the slot of the entry it counts. -/
theorem InStep.slot (n : Nat) :
    n % 65536 % s.q.vq.size = n % s.q.vq.size :=
  Nat.mod_mod_of_dvd n h.size_dvd

/-- What the device finds is the oldest head it has not taken. The window has
    fewer than 65536 entries, so equal counters mean an empty window. -/
theorem InStep.deviceNext_eq :
    deviceNext s.q.vq s.devAvail = waiting.head? := by
  have hle := h.underWay_le
  have hsize := h.size_lt
  have hlen := h.published_length
  unfold deviceNext
  rw [h.availIdx, h.devAvail]
  cases waiting with
  | nil =>
    rw [length_nil, Nat.add_zero] at hlen
    simp [hlen]
  | cons head rest =>
    rw [length_cons] at hlen hle
    have hne : ¬ s.published.length % 65536 = s.taken.length % 65536 := by
      omega
    rw [if_neg hne, h.slot, (ringHolds_pop h.avail).1, head?_cons]

end

section

variable {s : Link} {waiting : List Nat} {unread : List VirtqUsedElem}

variable (h : InStep s waiting unread)
include h

/-- A submission that published `head` appends it to the window of the
    available ring. -/
theorem inStep_published (vq' : Vq) (head : Nat) (hpub : Published s.q.vq vq' head)
    (hparts : ∃ free chains,
      Partitioned { vq := vq', outstanding := s.q.outstanding ++ [head] } free chains) :
    InStep { s with
      q := { vq := vq', outstanding := s.q.outstanding ++ [head] }
      published := s.published ++ [head] } (waiting ++ [head]) unread := by
  have hlen := h.published_length
  have hperm : ((waiting ++ [head]) ++ (s.working ++ unread.map VirtqUsedElem.id)).Perm
      (s.q.outstanding ++ [head]) := by
    refine List.Perm.trans ?_ (h.underWay.append_right [head])
    rw [append_assoc, append_assoc]
    exact List.Perm.append_left waiting perm_append_comm
  -- One more chain than before still fits the table, so there was a free slot.
  have hroom : waiting.length < s.q.vq.size := by
    have hle := outstanding_length_le _ hparts
    have hplen := hperm.length_eq
    simp only [length_append, length_singleton] at hplen hle
    rw [hpub.size] at hle
    omega
  refine { h with
    parts := hparts
    size_dvd := hpub.size ▸ h.size_dvd
    published := by rw [h.published, append_assoc]
    availIdx := ?_
    usedIdx := hpub.used ▸ h.usedIdx
    lastUsed := hpub.lastUsed ▸ h.lastUsed
    avail := ?_
    used := ?_
    underWay := hperm }
  · rw [hpub.avail, length_append, length_singleton, ← inc16_mod, ← h.availIdx]
    rfl
  · have hpush := ringHolds_push head h.avail hroom
    rw [hpub.avail, hpub.size]
    simp only [publish]
    rw [h.availIdx, h.slot, hlen]
    exact hpush
  · rw [hpub.used, hpub.size]
    exact h.used

theorem inStep_submitChain {segs : List VirtqSeg} (hfl : ∀ g ∈ segs, g.flags &&& descFNext = 0) :
    ∃ waiting', InStep (s.next (.submitChain segs)) waiting' unread := by
  rcases h.parts with ⟨free, chains, hpart⟩
  have hparts := partitioned_submitChain hpart hfl
  by_cases hroom : segs.length = 0 ∨ segs.length > s.q.vq.numFree
  · refine ⟨waiting, ?_⟩
    simp only [Link.next, QState.next, virtqueueSubmitChain, if_pos hroom]
    exact h
  · rcases owns_submitChain hpart.1 hfl hroom with ⟨xs, rest, hhead, hne, _, hsub, _⟩
    simp only [QState.next, hhead, afterSubmit, if_neg hne] at hparts
    refine ⟨waiting ++ [xs.headD 0], ?_⟩
    simp only [Link.next, QState.next, hhead, afterSubmit, if_neg hne]
    exact inStep_published h _ _ hsub.published hparts

/-- Taking the oldest head moves it from the ring to the device. -/
theorem inStep_take :
    ∃ waiting', InStep (s.next .take) waiting' unread := by
  have hnext := h.deviceNext_eq
  cases waiting with
  | nil =>
    refine ⟨[], ?_⟩
    simp only [Link.next, hnext]
    exact h
  | cons head rest =>
    rw [head?_cons] at hnext
    refine ⟨rest, ?_⟩
    simp only [Link.next, hnext]
    refine { h with
      published := by rw [h.published, append_assoc, singleton_append]
      devAvail := by rw [length_append, length_singleton, ← inc16_mod, ← h.devAvail]
      avail := ?_
      underWay := ?_ }
    · rw [length_append]
      exact (ringHolds_pop h.avail).2
    · refine List.Perm.trans ?_ h.underWay
      rw [append_assoc, singleton_append, ← append_assoc]
      refine List.Perm.trans perm_middle ?_
      simp

/-- Posting a completion appends it to the window of the used ring. -/
theorem inStep_post (elem : VirtqUsedElem) (hwork : elem.id ∈ s.working) :
    InStep (s.next (.post elem)) waiting (unread ++ [elem]) := by
  have hlen := h.posted_length
  -- The chain being completed leaves a slot for its completion.
  have hroom : unread.length < s.q.vq.size := by
    have hle := h.underWay_le
    have hpos := length_pos_of_mem hwork
    omega
  refine { h with
    parts := ?_
    posted := by simp only [Link.next, h.posted, append_assoc]
    usedIdx := ?_
    used := ?_
    underWay := ?_ }
  · rcases h.parts with ⟨free, chains, hown, hheads⟩
    exact ⟨free, chains, ⟨hown.size_le, hown.linked, hown.numFree, hown.chain, hown.perm⟩, hheads⟩
  · simp only [Link.next, devicePost]
    simp [← inc16_mod, ← h.usedIdx]
  · have hpush := ringHolds_push elem h.used hroom
    simp only [Link.next, devicePost]
    rw [h.usedIdx, h.slot, hlen]
    exact hpush
  · refine List.Perm.trans (List.Perm.append_left waiting ?_) h.underWay
    simp only [map_append, map_cons, map_nil]
    rw [← append_assoc]
    refine List.Perm.trans perm_append_comm ?_
    exact List.Perm.append_right _ (perm_cons_erase hwork).symm

end

section

variable {s : Link} {waiting : List Nat} {unread rest : List VirtqUsedElem} {elem : VirtqUsedElem}

/-- With nothing posted the reap finds equal counters. -/
theorem InStep.getUsed_nil (h : InStep s waiting []) :
    virtqueueGetUsed s.q.vq = (s.q.vq, none) := by
  have hlen := h.posted_length
  rw [length_nil, Nat.add_zero] at hlen
  have hidle : s.q.vq.used.idx = s.q.vq.lastUsed := by rw [h.usedIdx, h.lastUsed, hlen]
  rw [virtqueueGetUsed, if_pos hidle]

/-- With a completion posted the counters differ, and the slot the driver reads
    holds the oldest one. -/
theorem InStep.used_head (h : InStep s waiting (elem :: rest)) :
    s.q.vq.used.idx ≠ s.q.vq.lastUsed ∧
      s.q.vq.used.ring (s.q.vq.lastUsed % s.q.vq.size) = elem ∧
      elem.id ∈ s.q.outstanding := by
  have hle := h.underWay_le
  have hsize := h.size_lt
  have hlen := h.posted_length
  rw [length_cons] at hlen hle
  refine ⟨?_, ?_, ?_⟩
  · rw [h.usedIdx, h.lastUsed, ne_eq]
    omega
  · rw [h.lastUsed, h.slot]
    exact (ringHolds_pop h.used).1
  · refine h.underWay.mem_iff.mp ?_
    exact mem_append_right _ (mem_append_right _ mem_cons_self)

/-- A reap returns the oldest completion and touches neither ring. -/
theorem InStep.getUsed_cons (h : InStep s waiting (elem :: rest)) :
    ∃ vq', virtqueueGetUsed s.q.vq = (vq', some elem) ∧
      (∃ free chains,
        Partitioned { vq := vq', outstanding := s.q.outstanding.erase elem.id } free chains) ∧
      SameRings { s.q.vq with lastUsed := inc16 s.q.vq.lastUsed } vq' := by
  rcases h.used_head with ⟨hnew, hslot, hout⟩
  rcases h.parts with ⟨free, chains, hpart⟩
  rcases partitioned_split hpart hout with ⟨as, c, bs, hsplit, hcid, hrest⟩
  have hown := hpart.1
  rw [hsplit] at hown
  rcases owns_getUsed hown hnew (by rw [hslot, hcid]) with ⟨vq', hrun, hown', hshared⟩
  rw [hslot] at hrun
  exact ⟨vq', hrun, ⟨c.reverse ++ free, as ++ bs, hown', hrest⟩, hshared⟩

theorem inStep_getUsed (h : InStep s waiting unread) :
    ∃ unread', InStep (s.next .getUsed) waiting unread' := by
  cases unread with
  | nil =>
    have hrun := h.getUsed_nil
    refine ⟨[], ?_⟩
    simp only [Link.next, QState.next, hrun, Option.toList_none, append_nil]
    exact h
  | cons elem rest =>
    rcases h.getUsed_cons with ⟨vq', hrun, hparts, hav, hus, hlu, hsz⟩
    refine ⟨rest, ?_⟩
    simp only [Link.next, QState.next, hrun, Option.toList_some]
    refine { h with
      parts := hparts
      size_dvd := hsz ▸ h.size_dvd
      posted := by rw [h.posted, append_assoc, singleton_append]
      availIdx := hav ▸ h.availIdx
      usedIdx := hus ▸ h.usedIdx
      lastUsed := by rw [hlu, h.lastUsed, inc16_mod, length_append, length_singleton]
      avail := by rw [hav, hsz]; exact h.avail
      used := ?_
      underWay := ?_ }
    · rw [hus, hsz, length_append]
      exact (ringHolds_pop h.used).2
    · -- The reaped head leaves both sides of the permutation.
      have hperm : (elem.id :: (waiting ++ (s.working ++ rest.map VirtqUsedElem.id))).Perm
          s.q.outstanding := by
        refine List.Perm.trans ?_ h.underWay
        rw [← append_assoc, ← append_assoc]
        exact perm_middle.symm
      have herase := hperm.erase elem.id
      rw [erase_cons_head] at herase
      exact herase

end

/-- Every enabled action keeps the two ends in step. -/
theorem inStep_step {s s' : Link} {waiting : List Nat} {unread : List VirtqUsedElem}
    (h : InStep s waiting unread) (hstep : LinkStep s s') :
    ∃ waiting' unread', InStep s' waiting' unread' := by
  rcases hstep with ⟨a, hen, rfl⟩
  cases a with
  | submit bufPa len flags =>
    rcases h.parts with ⟨free, chains, hown, _⟩
    have hnext : s.next (.submit bufPa len flags) =
        s.next (.submitChain [⟨bufPa, len, flags &&& ~~~descFNext⟩]) := by
      simp only [Link.next, QState.next, submit_eq_chain hown.lists]
    rcases inStep_submitChain h (cleared_link flags bufPa len) with ⟨waiting', h'⟩
    exact ⟨waiting', unread, hnext ▸ h'⟩
  | submitChain segs =>
    rcases inStep_submitChain h hen with ⟨waiting', h'⟩
    exact ⟨waiting', unread, h'⟩
  | getUsed =>
    rcases inStep_getUsed h with ⟨unread', h'⟩
    exact ⟨waiting, unread', h'⟩
  | take =>
    rcases inStep_take h with ⟨waiting', h'⟩
    exact ⟨waiting', unread, h'⟩
  | post elem => exact ⟨waiting, unread ++ [elem], inStep_post h elem hen⟩

/-- A power of two up to the table limit divides the range of a counter. -/
theorem size_dvd_of_pow_two (size k : Nat) (hpow : size = 2 ^ k) (hle : size ≤ virtqMaxSize) :
    size ∣ 65536 := by
  have hk : k ≤ 16 := by
    by_contra hc
    have h17 : 2 ^ 17 ≤ 2 ^ k := Nat.pow_le_pow_right (by decide) (by omega)
    unfold virtqMaxSize at hle
    omega
  rw [hpow]
  exact Nat.pow_dvd_pow 2 hk

theorem inStep_reachable (maxSize k : Nat) (vq0 vq : Vq)
    (hsetup : virtqueueSetup maxSize vq0 = some vq) (hpow : vq.size = 2 ^ k) (s : Link)
    (hreach : ReflTransGen LinkStep (Link.init vq) s) :
    ∃ waiting unread, InStep s waiting unread := by
  induction hreach with
  | refl =>
    have hown := owns_setup hsetup
    have hcounters : vq.avail.idx = 0 ∧ vq.used.idx = 0 ∧ vq.lastUsed = 0 := by
      unfold virtqueueSetup at hsetup
      split at hsetup
      · cases hsetup
      · cases hsetup
        exact ⟨rfl, rfl, rfl⟩
    exact ⟨[], [], ⟨_, _, hown, rfl⟩, size_dvd_of_pow_two vq.size k hpow hown.size_le, rfl, rfl,
      hcounters.1, rfl, hcounters.2.1, hcounters.2.2, ringHolds_nil _ _ _, ringHolds_nil _ _ _,
      List.Perm.refl []⟩
  | tail _ hstep ih =>
    rcases ih with ⟨waiting, unread, h⟩
    exact inStep_step h hstep

/-- Exactness of the two rings, for every interleaving of the driver and the
    device and across every wrap of the counters. The heads taken are the first
    of the published ones, the next take yields the next of them, and those not
    taken are still in their slots; and the same holds for the completions
    posted and returned, each with the id and length it was posted with. -/
theorem ring_exactness (maxSize k : Nat) (vq0 vq : Vq)
    (hsetup : virtqueueSetup maxSize vq0 = some vq) (hpow : vq.size = 2 ^ k) (s : Link)
    (hreach : ReflTransGen LinkStep (Link.init vq) s) :
    (s.taken = s.published.take s.taken.length ∧
      deviceNext s.q.vq s.devAvail = s.published[s.taken.length]? ∧
      ∀ i (h : i < s.published.length), s.taken.length ≤ i →
        s.q.vq.avail.ring (i % s.q.vq.size) = s.published[i]) ∧
    (s.returned = s.posted.take s.returned.length ∧
      (virtqueueGetUsed s.q.vq).2 = s.posted[s.returned.length]? ∧
      ∀ i (h : i < s.posted.length), s.returned.length ≤ i →
        s.q.vq.used.ring (i % s.q.vq.size) = s.posted[i]) := by
  rcases inStep_reachable maxSize k vq0 vq hsetup hpow s hreach with ⟨waiting, unread, h⟩
  refine ⟨⟨?_, ?_, ?_⟩, ?_, ?_, ?_⟩
  · simp [h.published]
  · rw [h.deviceNext_eq, h.published, getElem?_append_right (Nat.le_refl _), Nat.sub_self,
      head?_eq_getElem?]
  · intro i hi hlo
    simp only [h.published] at hi ⊢
    exact ringHolds_entry h.avail hlo hi
  · simp [h.posted]
  · rw [h.posted, getElem?_append_right (Nat.le_refl _), Nat.sub_self,
      ← head?_eq_getElem?]
    cases unread with
    | nil => rw [h.getUsed_nil, head?_nil]
    | cons elem rest =>
      rcases h.getUsed_cons with ⟨vq', hrun, _⟩
      simp [hrun]
  · intro i hi hlo
    simp only [h.posted] at hi ⊢
    exact ringHolds_entry h.used hlo hi

/-- A queue of two descriptors, just set up. -/
def pairVq : Vq := (virtqueueSetup 2 blankVq).getD blankVq

/-- The queue of two descriptors after a submission, its take and its
    completion. -/
def pairRun : Link :=
  (((Link.init pairVq).next (.submit 64 8 0)).next .take).next (.post ⟨0, 8⟩)

theorem pairRun_reachable : ReflTransGen LinkStep (Link.init pairVq) pairRun := by
  refine ReflTransGen.tail (b := ((Link.init pairVq).next (.submit 64 8 0)).next .take)
    ?_ ⟨.post ⟨0, 8⟩, mem_singleton.mpr rfl, rfl⟩
  refine ReflTransGen.tail (b := (Link.init pairVq).next (.submit 64 8 0))
    ?_ ⟨.take, trivial, rfl⟩
  exact ReflTransGen.single ⟨.submit 64 8 0, trivial, rfl⟩

/-- Exactness at a run that leaves one completion to be reaped. -/
theorem ring_exactness_pair :
    pairRun.taken = [0] ∧ deviceNext pairRun.q.vq pairRun.devAvail = none ∧
      (virtqueueGetUsed pairRun.q.vq).2 = some ⟨0, 8⟩ := by
  have h := ring_exactness 2 1 blankVq pairVq rfl rfl pairRun pairRun_reachable
  refine ⟨h.1.1.trans rfl, h.1.2.1.trans rfl, h.2.2.1.trans rfl⟩

end CortexForge.Virtqueue
