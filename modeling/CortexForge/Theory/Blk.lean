import CortexForge.Core.Blk
import CortexForge.Theory.RingProtocol

/-!
# Waiting for a Block Request

A request in interrupt mode is a race of three parties: the task that submits it
and spins, the device that completes it, and the interrupt handler that reaps
the completion and counts it. `BlkSys` puts them in one state and lets them move
in any order; while the handler runs the task stands still, and the device never
waits for either.

`blk_wait_one` takes its target from the completion counter after the doorbell
has been rung. A completion reaped before that moment is already in the counter,
so the target lies one beyond what the request will ever bring, and the task
spins its whole budget (`wait_misses_early_reap`). Reaped after it, the target
is reached and the task sees it on its next turn. `reapedAt` records the stage
the task was in when its completion was reaped, and `wait_success_iff` says that
nothing else matters.

The queue is `RingProtocol`'s: every move of the three parties is one of its
actions or leaves the queue alone (`blkStep_link`), so the one outstanding chain
of the request can be reaped at most once.

## Main definitions

* `BlkSys`: The task, the device and the handler.
* `Move`: Who moves.
* `BlkStep`: One possible move.
* `QuietStart`: A request about to be submitted on an idle queue.
* `Tracks`: What the completion counter says at each stage.

## Theorems

* `blkStep_link`: A move is an action of the ring protocol or none.
* `tracks_reachable`: The counter is right at every reachable state.
* `wait_success_iff`: The wait succeeds exactly when the reap follows the sample.
-/

namespace CortexForge.Blk

open Virtqueue Relation List Option

/-- A request `r` in progress. `inHandler` says that the interrupt handler is in
    its loop, `reapedAt` the stage the task was in when its completion was
    reaped by the handler. -/
structure BlkSys where
  r : BlkReq
  dev : VirtioBlk
  link : Link
  isr : Byte
  status : Byte
  stage : Stage
  inHandler : Bool
  reapedAt : Option Stage

/-- The task runs a statement, the handler is entered or takes a turn, or the
    device takes a chain or completes one with a status byte. -/
inductive Move where
  | cpu
  | irq
  | turn
  | take
  | post (elem : VirtqUsedElem) (status : Byte)

/-- The call a statement makes on the queue. -/
def queueCall (dev : VirtioBlk) (r : BlkReq) : Stage → Option Action
  | .publish => some (.submitChain (blkSegs dev r))
  | .poll spins => if spins < dev.timeoutSpins then some .getUsed else none
  | _ => none

/-- The doorbell has been rung. -/
def notified : Stage → Bool
  | .publish => false
  | .doorbell => false
  | _ => true

def BlkSys.next (s : BlkSys) : Move → BlkSys
  | .cpu =>
      { s with
        link := (queueCall s.dev s.r s.stage).elim s.link s.link.next
        status := if s.stage = .publish then 0xFF else s.status
        stage := (blkSubmitOnceStep s.dev s.r s.status s.link.q.vq s.stage).2 }
  | .irq =>
      { s with
        dev := (blkHandleIrqEntry s.isr s.dev).1
        isr := 0
        inHandler := (blkHandleIrqEntry s.isr s.dev).2 }
  | .turn =>
      { s with
        dev := (blkHandleIrqTurn s.link.q.vq s.dev).2.1
        link := s.link.next .getUsed
        inHandler := (blkHandleIrqTurn s.link.q.vq s.dev).2.2
        reapedAt :=
          if (blkHandleIrqTurn s.link.q.vq s.dev).2.2 then some s.stage else s.reapedAt }
  | .take => { s with link := s.link.next .take }
  | .post elem status =>
      { s with
        link := s.link.next (.post elem)
        isr := s.isr ||| virtioIsrQueue
        status := status }

/-- Who may move when: the task outside the handler, the handler's turns inside
    it, and the device after the doorbell, completing chains it took. -/
def CanMove (s : BlkSys) : Move → Prop
  | .cpu => s.inHandler = false
  | .irq => s.inHandler = false ∧ s.dev.mode = .irq
  | .turn => s.inHandler = true
  | .take => notified s.stage = true
  | .post elem _ => notified s.stage = true ∧ elem.id ∈ s.link.working

def BlkStep (s s' : BlkSys) : Prop := ∃ m, CanMove s m ∧ s' = s.next m

/-- A request about to be submitted in interrupt mode, on a queue with nothing
    outstanding. -/
structure QuietStart (s : BlkSys) : Prop where
  inStep : ∃ waiting unread, InStep s.link waiting unread
  idle : s.link.q.outstanding = []
  stage : s.stage = .publish
  mode : s.dev.mode = .irq
  handler : s.inHandler = false
  fresh : s.reapedAt = none

/-- Where the request can stand with the counter at `c0` before it: nothing
    reaped yet, reaped before the target was sampled (`early`), reaped while the
    task spins, or reaped when the wait was already over. -/
inductive Progress (c0 : BitVec 32) (budget : Nat) : Option Stage → Stage → Prop where
  | publish : Progress c0 budget none .publish
  | doorbell : Progress c0 budget none .doorbell
  | sample : Progress c0 budget none .sample
  | spin (k : Nat) : Progress c0 budget none (.spin (c0 + 1) k)
  | timedOut : Progress c0 budget none (.waited .timedOut)
  | refused : Progress c0 budget none (.done .noSpc)
  | gaveUp : Progress c0 budget none (.done .timedOut)
  | earlySample : Progress c0 budget (some .sample) .sample
  | earlySpin (k : Nat) : Progress c0 budget (some .sample) (.spin (c0 + 2) k)
  | earlyTimedOut : Progress c0 budget (some .sample) (.waited .timedOut)
  | reaped (k : Nat) : Progress c0 budget (some (.spin (c0 + 1) k)) (.spin (c0 + 1) k)
  | success (k : Nat) (h : k < budget) :
      Progress c0 budget (some (.spin (c0 + 1) k)) (.waited .success)
  | overrun (k : Nat) (h : budget ≤ k) :
      Progress c0 budget (some (.spin (c0 + 1) k)) (.waited .timedOut)
  | late (rc : BlkCode) : Progress c0 budget (some (.waited rc)) (.waited rc)
  | finished (st : Stage) (rc : BlkCode) : Progress c0 budget (some st) (.done rc)

/-- The completion counter at each stage of a request that started at `c0`. -/
structure Tracks (c0 : BitVec 32) (s : BlkSys) : Prop where
  inStep : ∃ waiting unread, InStep s.link waiting unread
  mode : s.dev.mode = .irq
  progress : Progress c0 s.dev.timeoutSpins s.reapedAt s.stage
  counter : s.dev.completions = if s.reapedAt.isSome then c0 + 1 else c0
  outstanding : s.link.q.outstanding.length ≤
    if s.reapedAt.isSome ∨ s.stage = .publish then 0 else 1
  quiet : notified s.stage = false → s.link.posted = s.link.returned

theorem tracks_start (s : BlkSys) (h : QuietStart s) : Tracks s.dev.completions s := by
  refine ⟨h.inStep, h.mode, ?_, ?_, ?_, ?_⟩
  · rw [h.fresh, h.stage]
    exact .publish
  · rw [h.fresh]
    rfl
  · rw [h.idle]
    exact Nat.zero_le _
  · -- With no chain outstanding there is no completion to be read.
    intro _
    rcases h.inStep with ⟨waiting, unread, hin⟩
    have hperm := hin.underWay
    rw [h.idle, perm_nil] at hperm
    have hmap := (append_eq_nil_iff.mp (append_eq_nil_iff.mp hperm).2).2
    simp [hin.posted, map_eq_nil_iff.mp hmap]

theorem not_targetReached_succ (c : BitVec 32) : targetReached c (c + 1) = false := by
  have hdiff : c - (c + 1) = -1 := by bv_omega
  simp only [targetReached, hdiff]
  decide

theorem targetReached_self (c : BitVec 32) : targetReached c c = true := by
  simp [targetReached]

theorem dataSegs_flags (sizeMax : Nat) (flags : BitVec 16) (buf fuel offset remaining : Nat) :
    ∀ g ∈ dataSegs sizeMax flags buf fuel offset remaining, g.flags = flags := by
  fun_induction dataSegs sizeMax flags buf fuel offset remaining with
  | case1 => exact nofun
  | case2 => exact nofun
  | case3 fuel offset remaining _ chunk ih => exact forall_mem_cons.mpr ⟨rfl, ih⟩

/-- No segment of a request carries the link flag. -/
theorem blkSegs_flags (dev : VirtioBlk) (r : BlkReq) :
    ∀ g ∈ blkSegs dev r, g.flags &&& descFNext = 0 := by
  intro g hg
  simp only [blkSegs, mem_cons, mem_append, not_mem_nil, or_false] at hg
  rcases hg with rfl | hdata | rfl
  · exact (by decide : descFNone &&& descFNext = 0)
  · by_cases hflush : r.type = .tFlush
    · rw [if_pos hflush] at hdata
      exact absurd hdata not_mem_nil
    · rw [if_neg hflush] at hdata
      rw [dataSegs_flags _ _ _ _ _ _ g hdata]
      split <;> decide
  · exact (by decide : descFWrite &&& descFNext = 0)

/-- A move is an action of the ring protocol, or leaves the queue alone. -/
theorem blkStep_link (s s' : BlkSys) (h : BlkStep s s') :
    s'.link = s.link ∨ LinkStep s.link s'.link := by
  rcases h with ⟨m, hmove, rfl⟩
  cases m with
  | cpu =>
    simp only [BlkSys.next]
    cases hcall : queueCall s.dev s.r s.stage with
    | none => exact .inl rfl
    | some a =>
      right
      refine ⟨a, ?_, rfl⟩
      -- The only call with a condition is the submission of the chain.
      cases hstage : s.stage <;> simp only [hstage, queueCall, reduceCtorEq] at hcall
      case publish =>
        cases hcall
        exact blkSegs_flags s.dev s.r
      case poll k =>
        split at hcall <;> cases hcall
        exact trivial
  | irq => exact .inl rfl
  | turn => exact .inr ⟨.getUsed, trivial, rfl⟩
  | take => exact .inr ⟨.take, trivial, rfl⟩
  | post elem status => exact .inr ⟨.post elem, hmove.2, rfl⟩

theorem inStep_blkStep (s s' : BlkSys) (h : BlkStep s s')
    (hin : ∃ waiting unread, InStep s.link waiting unread) :
    ∃ waiting unread, InStep s'.link waiting unread := by
  rcases hin with ⟨waiting, unread, hin⟩
  rcases blkStep_link s s' h with heq | hstep
  · rw [heq]
    exact ⟨waiting, unread, hin⟩
  · exact inStep_step hin hstep

/-- The submission: the chain is outstanding from here on, or the request ends
    for want of descriptors. -/
theorem tracks_publish (c0 : BitVec 32) (s : BlkSys) (h : Tracks c0 s)
    (hin : ∃ waiting unread, InStep (s.next .cpu).link waiting unread)
    (hstage : s.stage = .publish) (hreap : s.reapedAt = none) : Tracks c0 (s.next .cpu) := by
  rcases h with ⟨_, hmode, _, hcount, hout, hquiet⟩
  rw [if_pos (.inr hstage)] at hout
  rw [hreap] at hcount
  have hnil : s.link.q.outstanding = [] := length_eq_zero_iff.mp (Nat.le_zero.mp hout)
  refine ⟨hin, hmode, ?_, ?_, ?_, ?_⟩
  · simp only [BlkSys.next, hstage, hreap, blkSubmitOnceStep]
    split
    · exact .refused
    · exact .doorbell
  · simp only [BlkSys.next, hreap]
    exact hcount
  · have hnew : (s.next .cpu).stage ≠ .publish := by
      simp only [BlkSys.next, hstage, blkSubmitOnceStep]
      split <;> simp only [ne_eq, reduceCtorEq, not_false_eq_true]
    have hfresh : ¬ ((s.next .cpu).reapedAt.isSome ∨ (s.next .cpu).stage = .publish) := by
      simp only [BlkSys.next, hreap, isSome_none, Bool.false_eq_true, false_or]
      exact hnew
    rw [if_neg hfresh]
    simp only [BlkSys.next, hstage, queueCall, elim_some, Link.next, QState.next, hnil,
      afterSubmit]
    split
    · exact Nat.zero_le _
    · exact Nat.le_refl _
  · intro _
    simp only [BlkSys.next, hstage]
    exact hquiet (by rw [hstage]; rfl)

/-- Every statement after the submission leaves the doorbell rung. -/
theorem notified_next (dev : VirtioBlk) (r : BlkReq) (status : Byte) (vq : Vq) (stage : Stage)
    (hne : stage ≠ .publish) : notified (blkSubmitOnceStep dev r status vq stage).2 = true := by
  cases stage with
  | publish => exact absurd rfl hne
  | _ =>
    simp only [blkSubmitOnceStep]
    repeat' split
    all_goals rfl

/-- Away from the submission, a statement of the task in interrupt mode makes no
    call on the queue and takes one allowed stage to another. -/
theorem progress_cpu (c0 : BitVec 32) (dev : VirtioBlk) (r : BlkReq) (status : Byte) (vq : Vq)
    (reap : Option Stage) (stage : Stage) (h : Progress c0 dev.timeoutSpins reap stage)
    (hne : stage ≠ .publish) (hmode : dev.mode = .irq)
    (hcount : dev.completions = if reap.isSome then c0 + 1 else c0) :
    queueCall dev r stage = none ∧
      Progress c0 dev.timeoutSpins reap (blkSubmitOnceStep dev r status vq stage).2 := by
  have hc1 : c0 + 1 + 1 = c0 + 2 := by rw [BitVec.add_assoc]; rfl
  cases h with
  | publish => exact absurd rfl hne
  | doorbell => exact ⟨rfl, .sample⟩
  | sample =>
    simp only [blkSubmitOnceStep, hmode, hcount]
    exact ⟨rfl, .spin 0⟩
  | earlySample =>
    -- The completion is in the counter already, and the target skips over it.
    simp only [isSome_some, if_true] at hcount
    simp only [blkSubmitOnceStep, hmode, hcount, hc1]
    exact ⟨rfl, .earlySpin 0⟩
  | spin k =>
    simp only [isSome_none] at hcount
    simp only [blkSubmitOnceStep, hcount, not_targetReached_succ, Bool.false_eq_true, if_false]
    by_cases hk : k < dev.timeoutSpins
    · simp only [if_pos hk]
      exact ⟨rfl, .spin (k + 1)⟩
    · simp only [if_neg hk]
      exact ⟨rfl, .timedOut⟩
  | earlySpin k =>
    simp only [isSome_some, if_true] at hcount
    simp only [blkSubmitOnceStep, hcount, ← hc1, not_targetReached_succ]
    by_cases hk : k < dev.timeoutSpins
    · simp only [if_pos hk]
      exact ⟨rfl, hc1 ▸ .earlySpin (k + 1)⟩
    · simp only [if_neg hk]
      exact ⟨rfl, .earlyTimedOut⟩
  | reaped k =>
    simp only [isSome_some, if_true] at hcount
    simp only [blkSubmitOnceStep, hcount, targetReached_self]
    by_cases hk : k < dev.timeoutSpins
    · simp only [if_pos hk]
      exact ⟨rfl, .success k hk⟩
    · simp only [if_neg hk]
      exact ⟨rfl, .overrun k (by omega)⟩
  | timedOut => exact ⟨rfl, .gaveUp⟩
  | refused => exact ⟨rfl, .refused⟩
  | gaveUp => exact ⟨rfl, .gaveUp⟩
  | earlyTimedOut => exact ⟨rfl, .finished _ _⟩
  | success k hk =>
    simp only [blkSubmitOnceStep, ne_eq, not_true_eq_false, if_false]
    exact ⟨rfl, by split <;> exact .finished _ _⟩
  | overrun k hk => exact ⟨rfl, .finished _ _⟩
  | late rc =>
    simp only [blkSubmitOnceStep]
    exact ⟨rfl, by split <;> [skip; split] <;> exact .finished _ _⟩
  | finished st rc => exact ⟨rfl, .finished st rc⟩

theorem tracks_cpu (c0 : BitVec 32) (s : BlkSys) (h : Tracks c0 s)
    (hin : ∃ waiting unread, InStep (s.next .cpu).link waiting unread) :
    Tracks c0 (s.next .cpu) := by
  by_cases hstage : s.stage = .publish
  · have hreap : s.reapedAt = none := by
      have hprog := h.progress
      rw [hstage] at hprog
      generalize s.reapedAt = reap at hprog ⊢
      cases hprog with
      | publish => rfl
    exact tracks_publish c0 s h hin hstage hreap
  · rcases progress_cpu c0 s.dev s.r s.status s.link.q.vq _ _ h.progress hstage h.mode h.counter
      with ⟨hcall, hprog⟩
    have hbell := notified_next s.dev s.r s.status s.link.q.vq s.stage hstage
    have hout := h.outstanding
    refine ⟨hin, h.mode, hprog, h.counter, ?_, fun hc => absurd (hc.symm.trans hbell) nofun⟩
    have hne : (blkSubmitOnceStep s.dev s.r s.status s.link.q.vq s.stage).2 ≠ .publish := by
      intro hc
      rw [hc] at hbell
      cases hbell
    simp only [hstage, or_false] at hout
    simp only [hne, or_false, BlkSys.next, hcall]
    exact hout

/-- A turn of the handler that finds nothing changes no counter. -/
theorem turn_none (s : BlkSys) (h : (virtqueueGetUsed s.link.q.vq).2 = none) :
    (s.next .turn).dev = s.dev ∧ (s.next .turn).reapedAt = s.reapedAt ∧
      (s.next .turn).link.q.outstanding = s.link.q.outstanding := by
  simp [BlkSys.next, blkHandleIrqTurn, Link.next, QState.next, afterReap, h]

/-- A turn that reaps counts the completion and takes its chain off. -/
theorem turn_some (s : BlkSys) (elem : VirtqUsedElem)
    (h : (virtqueueGetUsed s.link.q.vq).2 = some elem) :
    (s.next .turn).dev = { s.dev with completions := s.dev.completions + 1 } ∧
      (s.next .turn).reapedAt = some s.stage ∧
      (s.next .turn).link.q.outstanding = s.link.q.outstanding.erase elem.id := by
  simp [BlkSys.next, blkHandleIrqTurn, Link.next, QState.next, afterReap, h]

/-- The one chain of the request is reaped while the task stands at `stage`. -/
theorem progress_reap (c0 : BitVec 32) (budget : Nat) (stage : Stage)
    (h : Progress c0 budget none stage) (hbell : notified stage = true) :
    Progress c0 budget (some stage) stage := by
  cases h with
  | publish => exact absurd hbell (by simp [notified])
  | doorbell => exact absurd hbell (by simp [notified])
  | sample => exact .earlySample
  | spin k => exact .reaped k
  | timedOut => exact .late .timedOut
  | refused => exact .finished _ _
  | gaveUp => exact .finished _ _

theorem tracks_turn (c0 : BitVec 32) (s : BlkSys) (h : Tracks c0 s)
    (hin : ∃ waiting unread, InStep (s.next .turn).link waiting unread) :
    Tracks c0 (s.next .turn) := by
  rcases h.inStep with ⟨waiting, unread, hlink⟩
  cases unread with
  | nil =>
    have hrun := hlink.getUsed_nil
    rcases turn_none s (by rw [hrun]) with ⟨hdev, hreap, hout⟩
    refine ⟨hin, ?_, ?_, ?_, ?_, ?_⟩
    · rw [hdev]
      exact h.mode
    · rw [hdev, hreap]
      exact h.progress
    · rw [hdev, hreap]
      exact h.counter
    · rw [hout, hreap]
      exact h.outstanding
    · simp only [BlkSys.next, Link.next, hrun, toList_none, append_nil]
      exact h.quiet
  | cons elem rest =>
    rcases hlink.getUsed_cons with ⟨vq', hrun, _⟩
    have hmem := hlink.used_head.2.2
    have hpos := length_pos_of_mem hmem
    have hout := h.outstanding
    -- A chain is outstanding, so nothing was reaped and the task has submitted.
    have hopen : ¬ (s.reapedAt.isSome ∨ s.stage = .publish) := by
      intro hc
      rw [if_pos hc] at hout
      omega
    rw [if_neg hopen] at hout
    rw [not_or, not_isSome_iff_eq_none] at hopen
    -- A completion was posted, so the doorbell has been rung.
    have hbell : notified s.stage = true := by
      by_contra hc
      have hposted := hlink.posted
      rw [h.quiet (Bool.not_eq_true _ ▸ hc)] at hposted
      have hlen := congrArg length hposted
      rw [length_append, length_cons] at hlen
      omega
    rcases turn_some s elem (by rw [hrun]) with ⟨hdev, hreap, hleft⟩
    have hprog := h.progress
    have hcount := h.counter
    rw [hopen.1] at hprog hcount
    refine ⟨hin, ?_, ?_, ?_, ?_, ?_⟩
    · rw [hdev]
      exact h.mode
    · rw [hdev, hreap]
      exact progress_reap c0 _ s.stage hprog hbell
    · rw [hdev, hreap, hcount]
      rfl
    · rw [hleft, length_erase_of_mem hmem]
      omega
    · intro hc
      exact absurd hbell (by rw [show s.stage = (s.next .turn).stage from rfl, hc]; simp)

theorem tracks_step (c0 : BitVec 32) (s s' : BlkSys) (h : Tracks c0 s) (hstep : BlkStep s s') :
    Tracks c0 s' := by
  have hin := inStep_blkStep s s' hstep h.inStep
  rcases hstep with ⟨m, hmove, rfl⟩
  cases m with
  | cpu => exact tracks_cpu c0 s h hin
  | turn => exact tracks_turn c0 s h hin
  | irq => exact ⟨hin, h.mode, h.progress, h.counter, h.outstanding, h.quiet⟩
  | take =>
    refine ⟨hin, h.mode, h.progress, h.counter, ?_, ?_⟩
    · simp only [BlkSys.next, Link.next]
      split <;> exact h.outstanding
    · simp only [BlkSys.next, Link.next]
      split <;> exact h.quiet
  | post elem status =>
    refine ⟨hin, h.mode, h.progress, h.counter, h.outstanding, ?_⟩
    -- The device posts only once the doorbell has been rung.
    intro hbell
    exact absurd hmove.1
      (by rw [show s.stage = (s.next (.post elem status)).stage from rfl, hbell]; simp)

/-- The counter is right in every state the request can reach. -/
theorem tracks_reachable (s0 s : BlkSys) (h : QuietStart s0)
    (hreach : ReflTransGen BlkStep s0 s) : Tracks s0.dev.completions s := by
  induction hreach with
  | refl => exact tracks_start s0 h
  | tail _ hstep ih => exact tracks_step _ _ _ ih hstep

/-- A reap at this stage comes before the spin budget has run out. -/
def BeforeBudget (budget : Nat) : Stage → Prop
  | .sample => True
  | .spin _ k => k < budget
  | _ => False

/-- The wait of a request whose completion was reaped in time, in every
    interleaving: it returns success exactly when the reap came after the target
    was sampled, and in that case does so at its very next turn. -/
theorem wait_success_iff (s0 s : BlkSys) (h : QuietStart s0)
    (hreach : ReflTransGen BlkStep s0 s) (st : Stage) (hreap : s.reapedAt = some st)
    (htime : BeforeBudget s.dev.timeoutSpins st) :
    (∀ rc, s.stage = .waited rc → (rc = .success ↔ ∃ target k, st = .spin target k)) ∧
    (∀ target k, s.stage = .spin target k →
      ((s.next .cpu).stage = .waited .success ↔ ∃ target k, st = .spin target k)) := by
  have ht := tracks_reachable s0 s h hreach
  have hprog := ht.progress
  have hcount := ht.counter
  rw [hreap] at hprog hcount
  constructor
  · intro rc hstage
    rw [hstage] at hprog
    cases hprog with
    | earlyTimedOut => simp
    | success k hk => simp
    | overrun k hk => exact absurd htime (Nat.not_lt.mpr hk)
    | late rc => exact htime.elim
  · intro target k hstage
    rw [hstage] at hprog
    cases hprog with
    | earlySpin k =>
      have hnot : targetReached s.dev.completions (s0.dev.completions + 2) = false := by
        have hsucc := not_targetReached_succ (s0.dev.completions + 1)
        rw [BitVec.add_assoc] at hsucc
        rw [hcount]
        exact hsucc
      simp only [BlkSys.next, hstage, blkSubmitOnceStep, hnot]
      split <;> simp
    | reaped k =>
      have hyes : targetReached s.dev.completions (s0.dev.completions + 1) = true := by
        rw [hcount]
        exact targetReached_self _
      have hk : k < s.dev.timeoutSpins := htime
      simp only [BlkSys.next, hstage, blkSubmitOnceStep, hyes, if_true, if_pos hk]
      exact ⟨fun _ => ⟨_, _, rfl⟩, fun _ => trivial⟩

/-- A task whose target is out of reach spins until its budget is gone. -/
theorem spin_exhausts (n : Nat) : ∀ (s : BlkSys) (target : BitVec 32) (k : Nat),
    s.stage = .spin target k → s.inHandler = false →
    targetReached s.dev.completions target = false → k + n = s.dev.timeoutSpins →
    ReflTransGen BlkStep s { s with stage := .waited .timedOut } := by
  induction n with
  | zero =>
    intro s target k hstage hfree hno hk
    have hover : ¬ k < s.dev.timeoutSpins := by omega
    have hnext : { s with stage := Stage.waited .timedOut } = s.next .cpu := by
      simp [BlkSys.next, hstage, queueCall, blkSubmitOnceStep, hover]
    exact ReflTransGen.single ⟨.cpu, hfree, hnext⟩
  | succ n ih =>
    intro s target k hstage hfree hno hk
    have hin : k < s.dev.timeoutSpins := by omega
    have hnext : { s with stage := Stage.spin target (k + 1) } = s.next .cpu := by
      simp [BlkSys.next, hstage, queueCall, blkSubmitOnceStep, hin, hno]
    refine ReflTransGen.head ⟨.cpu, hfree, hnext⟩ ?_
    exact ih { s with stage := .spin target (k + 1) } target (k + 1) rfl hfree hno
      (show k + 1 + n = s.dev.timeoutSpins by omega)

/-- Every move of a list may be made in turn. -/
def CanRun (s : BlkSys) : List Move → Prop
  | [] => True
  | m :: ms => CanMove s m ∧ CanRun (s.next m) ms

theorem reach_foldl (ms : List Move) : ∀ s : BlkSys, CanRun s ms →
    ReflTransGen BlkStep s (ms.foldl BlkSys.next s) := by
  induction ms with
  | nil => intro s _; exact ReflTransGen.refl
  | cons m ms ih =>
    intro s hrun
    exact ReflTransGen.head ⟨m, hrun.1, rfl⟩ (ih (s.next m) hrun.2)

/-- A queue of four descriptors, just set up. -/
def quadVq : Vq := (virtqueueSetup 4 blankVq).getD blankVq

/-- A read of one sector about to be submitted, with the default budget. -/
def readStart : BlkSys :=
  { r := { type := .tIn, count := 1, hdr := 0xFFFF000040100000
           buf := 0xFFFF000040200000, status := 0xFFFF000040100010 }
    dev := { sizeMax := 0xFFFFFFFF, mode := .irq, completions := 0
             timeoutSpins := blkDefaultTimeoutSpins, statIrqs := 0 }
    link := Link.init quadVq, isr := 0, status := 0, stage := .publish
    inHandler := false, reapedAt := none }

theorem readStart_quiet : QuietStart readStart :=
  { inStep := inStep_reachable 4 2 blankVq quadVq rfl rfl _ ReflTransGen.refl
    idle := rfl, stage := rfl, mode := rfl, handler := rfl, fresh := rfl }

/-- The device completes the read and the handler reaps it, all right after the
    doorbell. -/
def earlyMoves : List Move :=
  [.cpu, .cpu, .take, .post ⟨0, 513⟩ 0, .irq, .turn, .turn, .cpu]

/-- The same, with the target sampled first. -/
def timelyMoves : List Move :=
  [.cpu, .cpu, .cpu, .take, .post ⟨0, 513⟩ 0, .irq, .turn, .turn]

/-- The interrupt falls between the doorbell and the sample: the completion is
    reaped, the status byte says that the read went well, and the wait still
    times out. -/
theorem wait_misses_early_reap : QuietStart readStart ∧
    ∃ s, ReflTransGen BlkStep readStart s ∧ s.link.returned = [⟨0, 513⟩] ∧
      s.status = virtioBlkSOk ∧ s.reapedAt = some .sample ∧
      BeforeBudget s.dev.timeoutSpins .sample ∧ s.stage = .waited .timedOut := by
  have hrun : CanRun readStart earlyMoves :=
    ⟨rfl, rfl, rfl, ⟨rfl, mem_singleton.mpr rfl⟩, ⟨rfl, rfl⟩, rfl, rfl, rfl, trivial⟩
  have hspin := spin_exhausts blkDefaultTimeoutSpins (earlyMoves.foldl BlkSys.next readStart) 2 0
    rfl rfl rfl (Nat.zero_add _)
  exact ⟨readStart_quiet, _, (reach_foldl _ _ hrun).trans hspin, rfl, rfl, rfl, trivial, rfl⟩

/-- A reap right after the sample, and the wait that returns at once. -/
theorem wait_success_iff_timely :
    ((timelyMoves.foldl BlkSys.next readStart).next .cpu).stage = .waited .success := by
  have hrun : CanRun readStart timelyMoves :=
    ⟨rfl, rfl, rfl, rfl, ⟨rfl, mem_singleton.mpr rfl⟩, ⟨rfl, rfl⟩, rfl, rfl, trivial⟩
  have h := wait_success_iff readStart _ readStart_quiet (reach_foldl _ _ hrun) (.spin 1 0) rfl
    (show 0 < blkDefaultTimeoutSpins by decide)
  exact (h.2 1 0 rfl).mpr ⟨1, 0, rfl⟩

end CortexForge.Blk
