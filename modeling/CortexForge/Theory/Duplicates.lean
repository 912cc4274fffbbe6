import CortexForge.Theory.Link
import Mathlib.Data.List.Count

/-!
# Duplicates

How often a payload is delivered. `uart0_read` keeps no record of sequence numbers: it
acknowledges and returns every intact frame of data. A write sends its frame again when
it gets no acknowledgement in time, whichever of the two was lost. So if only the
acknowledgement is lost or late, the payload is returned twice (`delivered_twice`).

It is returned at most once if a frame is sent again only when no copy of it is left: none
on the line, and none taken by a read (`FreshStep`). Every sequence number then has at
most one copy at any time, on the line or in the hands of a read, for ever
(`delivered_once`).

## Main definitions

* `taken`: What reads have taken, returned or not.
* `copies`: The sequence numbers of the frames on the line and of those taken.
* `FreshStep`: A move that sends no second copy.

## Theorems

* `once_step`, `once_run`: No sequence number has two copies.
* `delivered_once`: No payload is returned twice.
-/

namespace CortexForge.Link

open Framing Vfs Relation List

/-- The payload of a read that has taken a frame. -/
def inHand : Option (Proc Message Arrival (Option Received)) → List Received
  | some (.done (some r)) => [r]
  | some (.send _ (.done (some r))) => [r]
  | _ => []

/-- The payloads that reads have taken. -/
def taken (s : System) : List Received := s.reads.reduceOption ++ inHand s.reader

/-- The sequence number of a frame that is intact. -/
def goodSeq (a : Arrival) : Option Byte := if a.1 = .ok then some a.2.seq else none

/-- The sequence numbers of the copies of frames, on the line and taken. -/
def copies (s : System) : List Byte :=
  s.data.filterMap goodSeq ++ (taken s).map fun r => r.frame.seq

/-- A move in which a write sends its frame again only if there is no copy of it. -/
structure FreshStep (s s' : System) : Prop where
  step : LinkStep s s'
  fresh : ∀ payload m next, s.writer = some (payload, .send m next) → m.again = true →
    s'.data = s.data ++ [post m] → m.frame.seq ∉ copies s

/-- No sequence number has two copies, and a write that is about to send for the first
    time has none. -/
structure Once (s : System) : Prop where
  single : (copies s).Nodup
  first : ∀ payload m next, s.writer = some (payload, .send m next) → m.again = false →
    m.frame.seq ∉ copies s

section

variable {seq0 seq : Byte} {s s' : System} {data back : List Arrival} {payload : List Byte}

theorem goodSeq_spoilt (a : Arrival) (h : Spoilt a) : goodSeq a = none := if_neg h

/-- What a read has in hand is a frame of a write. -/
theorem inHand_genuine {issued : List (Byte × List Byte)}
    {p : Proc Message Arrival (Option Received)} (h : Reading issued p) {r : Received}
    (hr : r ∈ inHand (some p)) : Genuine issued r := by
  cases h with
  | waiting count => cases hr
  | acking r' hr' =>
    rw [mem_singleton.mp hr]
    exact hr'
  | nacking seq => cases hr
  | refused => cases hr
  | holding r' hr' =>
    rw [mem_singleton.mp hr]
    exact hr'

theorem taken_genuine (h : Sound seq0 s) {r : Received} (hr : r ∈ taken s) :
    Genuine s.issued r := by
  rcases mem_append.mp hr with hr | hr
  · exact h.reads r (reduceOption_mem_iff.mp hr)
  · have hreading := h.reading
    generalize s.reader = reader at hreading hr
    cases reader with
    | none => cases hr
    | some p => exact inHand_genuine (hreading p rfl) hr

/-- Copies are copies of writes. -/
theorem copies_issued (h : Sound seq0 s) (hseq : seq ∈ copies s) :
    seq ∈ s.issued.map Prod.fst := by
  rcases mem_append.mp hseq with hline | htaken
  · rcases mem_filterMap.mp hline with ⟨a, ha, hgood⟩
    by_cases hok : a.1 = .ok
    · rcases h.data a ha hok with ⟨w, hw, hframe⟩
      rw [goodSeq, if_pos hok, hframe] at hgood
      cases hgood
      exact mem_map_of_mem hw
    · rw [goodSeq_spoilt a hok] at hgood
      cases hgood
  · rcases mem_map.mp htaken with ⟨r, hr, rfl⟩
    rcases taken_genuine h hr with ⟨w, hw, hframe, -⟩
    rw [hframe]
    exact mem_map_of_mem hw

/-- Moves that add no copy. -/
theorem once_of_fewer (h : Once s) (hwriter : s'.writer = s.writer) (seqs : List Byte)
    (hperm : (copies s').Perm seqs) (hsub : seqs.Sublist (copies s)) : Once s' := by
  refine ⟨hperm.nodup_iff.mpr (h.single.sublist hsub), fun payload m next hsend hagain hmem => ?_⟩
  rw [hwriter] at hsend
  exact h.first payload m next hsend hagain (hsub.subset (hperm.mem_iff.mp hmem))

/-- A read takes a copy off the line or leaves the copies as they are. -/
theorem once_read (hsound : Sound seq0 s) (h : Once s)
    {p p' : Proc Message Arrival (Option Received)} (hreader : s.reader = some p)
    (hmove : Moves post Late p s.data s.back p' data back) :
    Once { s with reader := some p', data := data, back := back } := by
  have hcopies : copies s = s.data.filterMap goodSeq ++
      (s.reads.reduceOption ++ inHand (some p)).map fun r => r.frame.seq := by
    rw [copies, taken, hreader]
  have hgood := hsound.data
  generalize s.data = line at hmove hcopies hgood
  -- A move that leaves the line alone and what the read has in hand.
  have hsame : data.filterMap goodSeq = line.filterMap goodSeq →
      inHand (some p') = inHand (some p) →
      Once { s with reader := some p', data := data, back := back } := fun hline hhand =>
    once_of_fewer h rfl _ (List.Perm.refl _) (by
      rw [hcopies, ← hline, ← hhand]
      exact List.Sublist.refl _)
  cases hsound.reading p hreader with
  | waiting count =>
    cases hmove with
    | take next a inn out =>
      rcases a with ⟨code, f⟩
      cases code with
      | ok =>
        rcases hgood _ mem_cons_self rfl with ⟨w, -, hframe⟩
        subst hframe
        -- The copy moves from the line into the hands of the read.
        have hmoved : ∀ (seqs : List Byte) (rs : List Received) (r : Received),
            (seqs ++ (rs ++ [r]).map fun r => r.frame.seq).Perm
              (r.frame.seq :: (seqs ++ rs.map fun r => r.frame.seq)) := fun seqs rs r => by
          rw [map_append, ← append_assoc]
          exact perm_append_singleton _ _
        refine once_of_fewer h rfl _ (hmoved _ _ _) ?_
        have hhand : inHand (some (readCall count)) = [] := rfl
        rw [hcopies, hhand, append_nil]
        exact List.Sublist.refl _
      | errTimeout => exact hsame rfl rfl
      | errCrc => exact hsame rfl rfl
      | errBadlen => exact hsame rfl rfl
    | timeout next a inn out hlate =>
      rcases a with ⟨code, f⟩
      have hcode : code = .errTimeout := hlate
      subst hcode
      exact hsame rfl rfl
  | acking r hr =>
    cases hmove with
    | send m next inn out => exact hsame rfl rfl
  | nacking seq =>
    cases hmove with
    | send m next inn out => exact hsame rfl rfl
  | refused => cases hmove
  | holding r hr => cases hmove

/-- After a wait, a frame that is sent is sent again. -/
theorem awaitAck_again {attempts : Nat} {c : Prop} [Decidable c] {m : Message}
    {next : Proc Message Arrival Code}
    (h : (if c then .done .ok else sendReliable seq payload attempts true) = Proc.send m next) :
    m.again = true := by
  by_cases hc : c
  · rw [if_pos hc] at h
    cases h
  · rw [if_neg hc] at h
    cases attempts with
    | zero => cases h
    | succ attempts =>
      cases h
      rfl

/-- A write sends a frame that has no copy, or leaves the copies as they are. -/
theorem once_write (hsound : Sound seq0 s) (h : Once s) {p p' : Proc Message Arrival Code}
    (hwriter : s.writer = some (payload, p)) (hmove : Moves post Late p s.back s.data p' back data)
    (hfresh : ∀ m next, p = .send m next → m.again = true → data = s.data ++ [post m] →
      m.frame.seq ∉ copies s) :
    Once { s with writer := some (payload, p'), back := back, data := data } := by
  have hfirst := h.first payload
  rw [hwriter] at hfirst
  have hcopies : copies s = s.data.filterMap goodSeq ++ (taken s).map fun r => r.frame.seq := rfl
  have hsingle := h.single
  generalize hline : s.data = line at hmove hfresh hcopies
  generalize s.back = line' at hmove
  cases (hsound.writing payload p hwriter).2.2 with
  | sending attempts again =>
    cases attempts with
    | zero => cases hmove
    | succ attempts =>
      cases hmove with
      | send m next inn out =>
        have hnew : s.txSeq ∉ copies s := by
          cases again with
          | false => exact hfirst _ _ rfl rfl
          | true => exact hfresh _ _ rfl rfl rfl
        refine ⟨?_, fun payload' m next hc => (by cases hc)⟩
        have hadded : copies { s with
            data := line ++ [(.ok, dataFrame s.txSeq payload)] }
            = line.filterMap goodSeq ++ s.txSeq :: (taken s).map fun r => r.frame.seq := by
          rw [copies, filterMap_append, append_assoc]
          rfl
        refine Eq.mpr (congrArg List.Nodup hadded) ?_
        rw [perm_middle.nodup_iff, nodup_cons, ← hcopies]
        exact ⟨hnew, hsingle⟩
  | waiting attempts =>
    rw [hcopies] at hsingle
    cases hmove with
    | take next a inn out =>
      refine ⟨hsingle, fun payload' m next hc hagain => ?_⟩
      rw [awaitAck_again (Prod.mk.inj (Option.some.inj hc)).2] at hagain
      cases hagain
    | timeout next a inn out hlate =>
      refine ⟨hsingle, fun payload' m next hc hagain => ?_⟩
      rw [awaitAck_again (Prod.mk.inj (Option.some.inj hc)).2] at hagain
      cases hagain
  | acknowledged hA => cases hmove

/-- Every move that sends no second copy keeps the copies single. -/
theorem once_step (hsound : Sound seq0 s) (h : Once s) (hfew : s'.issued.length < 256)
    (hstep : FreshStep s s') : Once s' := by
  have hfresh := hstep.fresh
  have hsound' := sound_step hsound hstep.step
  cases hstep.step with
  | beginWrite bytes hwriter =>
    refine ⟨h.single, fun payload m next hc _ hmem => ?_⟩
    cases hc
    -- The sequence number is new.
    have hnodup := sound_nodup hsound' hfew
    rw [map_append, nodup_append] at hnodup
    exact hnodup.2.2 _ (copies_issued hsound hmem) _ mem_cons_self rfl
  | write payload p p' back data hwriter hmove =>
    exact once_write hsound h hwriter hmove fun m next hp =>
      hfresh payload m next (by rw [hwriter, hp])
  | endWrite payload code hwriter => exact ⟨h.single, fun _ _ _ hc => (by cases hc)⟩
  | beginRead count hreader =>
    refine once_of_fewer h rfl _ (List.Perm.refl _) ?_
    have hhand : inHand s.reader = inHand (some (readCall count)) := by
      rw [hreader]
      rfl
    rw [copies, taken, ← hhand]
    exact List.Sublist.refl _
  | read p p' data back hreader hmove => exact once_read hsound h hreader hmove
  | endRead r hreader =>
    refine once_of_fewer h rfl _ (List.Perm.refl _) ?_
    have hhand : inHand s.reader = r.toList := by
      rw [hreader]
      cases r with
      | none => rfl
      | some r => rfl
    have htaken : taken { s with reader := none, reads := s.reads ++ [r] } = taken s := by
      rw [taken, taken, hhand, reduceOption_append]
      exact append_nil _
    rw [copies, htaken]
    exact List.Sublist.refl _
  | fadeData data hfade =>
    exact once_of_fewer h rfl _ (List.Perm.refl _)
      ((fades_sublist hfade goodSeq_spoilt).append (List.Sublist.refl _))
  | fadeBack back hfade =>
    exact once_of_fewer h rfl _ (List.Perm.refl _) (List.Sublist.refl _)

theorem issued_grows (h : LinkStep s s') : s.issued.length ≤ s'.issued.length := by
  cases h with
  | beginWrite bytes hwriter =>
    rw [length_append]
    exact Nat.le_add_right _ _
  | _ => exact Nat.le_refl _

theorem once_run (hrun : ReflTransGen FreshStep { txSeq := seq0 } s) :
    Sound seq0 s ∧ (s.issued.length < 256 → Once s) := by
  induction hrun with
  | refl =>
    exact ⟨sound_start seq0, fun _ => ⟨nodup_nil, fun _ _ _ hc => (by cases hc)⟩⟩
  | tail _ hstep ih =>
    refine ⟨sound_step ih.1 hstep.step, fun hfew => ?_⟩
    exact once_step ih.1 (ih.2 (Nat.lt_of_le_of_lt (issued_grows hstep.step) hfew)) hfew hstep

end

/-- In every run of fewer than 256 writes in which a frame is sent again only when there is
    no copy of it, on the line or taken by a read, every payload that a read returns is
    that of a write, and no write's payload is returned by two reads. -/
theorem delivered_once (seq0 : Byte) (s : System)
    (hrun : ReflTransGen FreshStep { txSeq := seq0 } s) (hfew : s.issued.length < 256) :
    (∀ r, some r ∈ s.reads → Genuine s.issued r) ∧
    ∀ w ∈ s.issued,
      (s.reads.reduceOption.filter fun r => r.frame = dataFrame w.1 w.2).length ≤ 1 := by
  rcases once_run hrun with ⟨hsound, honce⟩
  refine ⟨hsound.reads, fun w _ => ?_⟩
  have hsub : (s.reads.reduceOption.map fun r => r.frame.seq).Sublist (copies s) := by
    rw [copies, taken, map_append]
    exact (sublist_append_left _ _).trans (sublist_append_right _ _)
  have hnodup := (honce hfew).single.sublist hsub
  -- Reads of one write have its sequence number.
  calc (s.reads.reduceOption.filter fun r => r.frame = dataFrame w.1 w.2).length
      = s.reads.reduceOption.countP (fun r => r.frame = dataFrame w.1 w.2) :=
        countP_eq_length_filter.symm
    _ ≤ s.reads.reduceOption.countP (fun r => r.frame.seq == w.1) :=
        countP_mono_left fun r _ hr => by
          rw [decide_eq_true_eq] at hr
          rw [hr]
          exact beq_self_eq_true _
    _ = (s.reads.reduceOption.map fun r => r.frame.seq).count w.1 := by
        rw [count, countP_map]
        rfl
    _ ≤ 1 := nodup_iff_count_le_one.mp hnodup w.1

/-- The first copy of a frame is lost, and the second one is delivered. -/
theorem delivered_once_resent : ∃ s, ReflTransGen FreshStep { txSeq := 0 } s ∧
    s.reads.length = 1 ∧
    ∀ w ∈ s.issued,
      (s.reads.reduceOption.filter fun r => r.frame = dataFrame w.1 w.2).length ≤ 1 := by
  have hbegin := ReflTransGen.single (show FreshStep _ _ from
    ⟨.beginWrite { txSeq := 0 } [0x41] rfl, fun _ _ _ hc => (by cases hc)⟩)
  have hsend := hbegin.tail ⟨.write _ _ _ _ _ _ rfl (.send _ _ _ _),
    fun _ _ _ hc hagain => (by cases hc; cases hagain)⟩
  have hlost := hsend.tail ⟨.fadeData _ _ (.lose [] [] _), fun _ _ _ hc => (by cases hc)⟩
  have hlate := hlost.tail ⟨.write _ _ _ _ _ _ rfl
    (.timeout _ (Code.errTimeout, controlFrame 0 0) _ _ rfl), fun _ _ _ hc => (by cases hc)⟩
  have hagain :=
    hlate.tail ⟨.write _ _ _ _ _ _ rfl (.send _ _ _ _), fun _ _ _ _ _ _ hc => (by cases hc)⟩
  have hread := hagain.tail ⟨.beginRead _ 256 rfl, fun _ _ _ hc => (by cases hc)⟩
  have htake := hread.tail ⟨.read _ _ _ _ _ rfl (.take _ _ _ _), fun _ _ _ hc => (by cases hc)⟩
  have hack := htake.tail ⟨.read _ _ _ _ _ rfl (.send _ _ _ _), fun _ _ _ hc => (by cases hc)⟩
  have hend := hack.tail ⟨.endRead _ _ rfl, fun _ _ _ hc => (by cases hc)⟩
  exact ⟨_, hend, rfl, (delivered_once 0 _ hend (by decide)).2⟩

/-- The acknowledgement is lost, and the payload of one write is returned by two reads. -/
theorem delivered_twice : ∃ s, ReflTransGen LinkStep { txSeq := 0 } s ∧
    s.issued = [(0, [0x41])] ∧
    (s.reads.reduceOption.filter fun r => r.frame = dataFrame 0 [0x41]).length = 2 := by
  have hbegin := ReflTransGen.single (LinkStep.beginWrite { txSeq := 0 } [0x41] rfl)
  have hsend := hbegin.tail (.write _ _ _ _ _ _ rfl (.send _ _ _ _))
  have hread := hsend.tail (.beginRead _ 256 rfl)
  have htake := hread.tail (.read _ _ _ _ _ rfl (.take _ _ _ _))
  have hack := htake.tail (.read _ _ _ _ _ rfl (.send _ _ _ _))
  have hend := hack.tail (.endRead _ _ rfl)
  have hlost := hend.tail (.fadeBack _ _ (.lose [] [] _))
  have hlate := hlost.tail (.write _ _ _ _ _ _ rfl
    (.timeout _ (Code.errTimeout, controlFrame 0 0) _ _ rfl))
  have hagain := hlate.tail (.write _ _ _ _ _ _ rfl (.send _ _ _ _))
  have hread' := hagain.tail (.beginRead _ 256 rfl)
  have htake' := hread'.tail (.read _ _ _ _ _ rfl (.take _ _ _ _))
  have hack' := htake'.tail (.read _ _ _ _ _ rfl (.send _ _ _ _))
  have hend' := hack'.tail (.endRead _ _ rfl)
  exact ⟨_, hend', rfl, rfl⟩

end CortexForge.Link
