import CortexForge.Lib.Linked

/-!
# Circular Lists through a Next Function

Circular lists given by a successor function: following it from any node meets
every node once and is back at the start. A circular list has no first node of its
own, so its list of nodes is given together with the node it starts from, and
`circular_rotate` moves the start.

A singly linked circular list is changed behind its last node: the predecessor of
the start is found by a walk once around, which is `predecessor`.

## Main definitions

* `Circular`: The nodes of a circular list from one of them on.
* `predecessor`: The node before a given one, found by walking.

## Theorems

* `circular_rotate`: The same list from another node on.
* `circular_reaches`: Any node is reached from any other.
* `circular_mem_iff`: The nodes are those reached from the start.
* `circular_pred_last`: The node before the start is the last one.
* `predecessor_spec`, `predecessor_some`: The walk ends at the last node.
* `circular_insert`: A new last node.
* `circular_remove`: The list without its start.
* `circular_link`, `circular_unlink`: Both at any place.
-/

namespace CortexForge

open Function List

variable {α : Type}

/-- Following `next` from `p` meets exactly the nodes `xs`, each once, and is back
    at `p`. -/
structure Circular (next : α → α) (p : α) (xs : List α) : Prop where
  seg : Seg next p xs p
  nodup : xs.Nodup
  mem : p ∈ xs

section

variable {next next' : α → α} {p x : α} {xs as bs : List α}

theorem circular_cons (h : Circular next p xs) : ∃ ys, xs = p :: ys := by
  rcases xs with _ | ⟨y, ys⟩
  · exact absurd h.mem not_mem_nil
  · exact ⟨ys, by rw [h.seg.1]⟩

theorem circular_congr (h : Circular next p xs) (hag : ∀ x ∈ xs, next' x = next x) :
    Circular next' p xs :=
  ⟨seg_congr next next' xs p p hag h.seg, h.nodup, h.mem⟩

/-- A node of a segment is reached in as many steps as there are nodes before. -/
theorem seg_iterate (as bs : List α) : ∀ {q y : α} (p : α),
    Seg next p (as ++ y :: bs) q → next^[as.length] p = y := by
  induction as with
  | nil => exact fun p h => h.1
  | cons a as ih =>
    intro q y p h
    rw [length_cons, show p = a from h.1]
    exact ih (next a) h.2

/-- The same list from its node `x` on. -/
theorem circular_rotate (h : Circular next p (as ++ x :: bs)) :
    Circular next x (x :: bs ++ as) := by
  rcases (seg_append next as (x :: bs) p p).mp h.seg with ⟨q, has, hbs⟩
  have hq : q = x := hbs.1
  rw [hq] at has hbs
  refine ⟨(seg_append next (x :: bs) as x x).mpr ⟨p, hbs, has⟩, ?_, mem_cons_self⟩
  exact (perm_append_comm.nodup_iff).mp h.nodup

variable (h : Circular next p xs)
include h

/-- Following `next` from one node arrives at any other in less than a round. -/
theorem circular_reaches {y : α} (hx : x ∈ xs) (hy : y ∈ xs) :
    ∃ n < xs.length, next^[n] x = y := by
  rcases append_of_mem hx with ⟨as, bs, rfl⟩
  have hy' : y ∈ x :: bs ++ as := by
    rcases mem_append.mp hy with hy | hy
    · exact mem_append_right _ hy
    · exact mem_append_left _ hy
  rcases append_of_mem hy' with ⟨cs, ds, hsplit⟩
  have hseg := (circular_rotate h).seg
  rw [hsplit] at hseg
  refine ⟨cs.length, ?_, seg_iterate cs ds x hseg⟩
  have hlen := congrArg length hsplit
  simp only [length_append, length_cons] at hlen ⊢
  omega

theorem circular_next_mem (hx : x ∈ xs) : next x ∈ xs := by
  rcases append_of_mem hx with ⟨as, bs, rfl⟩
  have hseg := (circular_rotate h).seg
  rcases bs with _ | ⟨b, bs⟩
  · rcases as with _ | ⟨a, as⟩
    · have hnext : next x = x := hseg.2
      rw [hnext]
      exact hx
    · rw [show next x = a from hseg.2.1]
      exact mem_cons_self
  · rw [show next x = b from hseg.2.1]
    exact mem_append_right as (mem_cons_of_mem x mem_cons_self)

/-- The nodes of the list are those that are reached from its start. -/
theorem circular_mem_iff : x ∈ xs ↔ ∃ n, next^[n] p = x := by
  constructor
  · intro hx
    rcases circular_reaches h h.mem hx with ⟨n, _, hn⟩
    exact ⟨n, hn⟩
  · rintro ⟨n, rfl⟩
    induction n with
    | zero => exact h.mem
    | succ n ih =>
      rw [iterate_succ_apply']
      exact circular_next_mem h ih

/-- Any node of the list can be its start. -/
theorem circular_from (hx : x ∈ xs) :
    ∃ ys, Circular next x ys ∧ ys.Perm xs := by
  rcases append_of_mem hx with ⟨as, bs, rfl⟩
  exact ⟨x :: bs ++ as, circular_rotate h, perm_append_comm⟩

omit h in
theorem circular_last (h : Circular next p (as ++ [x])) : next x = p := by
  rcases (seg_append next as [x] p p).mp h.seg with ⟨_, _, _, hlast⟩
  exact hlast

/-- The node before the start is the last one. -/
theorem circular_pred_last {l : α} (hl : l ∈ xs) (hnext : next l = p) :
    ∃ as, xs = as ++ [l] := by
  rcases append_of_mem hl with ⟨as, bs, rfl⟩
  rcases bs with _ | ⟨b, bs⟩
  · exact ⟨as, rfl⟩
  -- Otherwise the node after `l` is the start, which comes earlier as well.
  · have hseg := (circular_rotate h).seg
    have hb : b = p := (show next l = b from hseg.2.1).symm.trans hnext
    rcases circular_cons h with ⟨ys, hys⟩
    have hnodup := h.nodup
    rcases as with _ | ⟨a, as⟩
    · have hlp : l = p := (cons.inj hys).1
      rw [hb, hlp] at hnodup
      exact absurd mem_cons_self (nodup_cons.mp hnodup).1
    · have hap : a = p := (cons.inj hys).1
      rw [hb, hap] at hnodup
      refine absurd ?_ (nodup_cons.mp hnodup).1
      exact mem_append_right as (mem_cons_of_mem l mem_cons_self)

end

section

variable {fuel : Nat} {l : α}

variable [DecidableEq α]

/-- From `p` on, the first node whose successor is `stop`. -/
def predecessor (next : α → α) (stop : α) : Nat → α → Option α
  | 0, _ => none
  | fuel + 1, p => if next p ≠ stop then predecessor next stop fuel (next p) else some p

variable {next : α → α} {p x : α} {xs as : List α}

/-- The walk along a segment ends at its last node, if it may take so many steps. -/
theorem predecessor_seg (stop : α) (ys : List α) : ∀ (fuel : Nat) (x : α),
    Seg next x (x :: ys) stop → stop ∉ ys → predecessor next stop fuel x =
      if ys.length < fuel then some ((x :: ys).getLast (cons_ne_nil x ys)) else none := by
  induction ys with
  | nil =>
    rintro (_ | fuel) x hseg _
    · rfl
    · have hlast : next x = stop := hseg.2
      simp [predecessor, hlast]
  | cons y ys ih =>
    rintro (_ | fuel) x hseg hstop
    · rfl
    · have hnext : next x = y := hseg.2.1
      have hne : y ≠ stop := fun hc => hstop (hc ▸ mem_cons_self)
      rw [predecessor, hnext, if_pos hne,
        ih fuel y ⟨rfl, hseg.2.2⟩ fun hc => hstop (mem_cons_of_mem y hc)]
      simp

/-- Once around, the walk stops before the start. -/
theorem predecessor_spec (h : Circular next p xs) (hwalk : predecessor next p fuel p = some l) :
    ∃ as, xs = as ++ [l] := by
  rcases circular_cons h with ⟨ys, rfl⟩
  rw [predecessor_seg p ys fuel p h.seg (nodup_cons.mp h.nodup).1] at hwalk
  split_ifs at hwalk
  obtain rfl := Option.some.inj hwalk
  exact ⟨_, (dropLast_append_getLast _).symm⟩

theorem predecessor_some (h : Circular next p xs) (hfuel : xs.length ≤ fuel) :
    ∃ l, predecessor next p fuel p = some l := by
  rcases circular_cons h with ⟨ys, rfl⟩
  exact ⟨_, (predecessor_seg p ys fuel p h.seg (nodup_cons.mp h.nodup).1).trans (if_pos hfuel)⟩

/-- A new node between the last node `l` and the start. -/
theorem circular_insert (h : Circular next p (as ++ [l])) (hx : x ∉ as ++ [l]) :
    Circular (update (update next l x) x p) p (as ++ [l] ++ [x]) := by
  have hlx : l ≠ x := fun hc => hx (hc ▸ mem_append_right as (mem_singleton_self l))
  rcases (seg_append next as [l] p p).mp h.seg with ⟨q, has, hq, _⟩
  have hout : ∀ y ∈ as, update (update next l x) x p y = next y := by
    intro y hy
    have hyl : y ≠ l := by
      rintro rfl
      exact (nodup_append.mp h.nodup).2.2 y hy y (mem_singleton_self y) rfl
    have hyx : y ≠ x := fun hc => hx (hc ▸ mem_append_left _ hy)
    rw [update_of_ne hyx, update_of_ne hyl]
  refine ⟨?_, ?_, mem_append_left _ h.mem⟩
  · rw [append_assoc]
    refine (seg_append _ as ([l] ++ [x]) p p).mpr ⟨q, seg_congr next _ as p q hout has, hq, ?_, ?_⟩
    · simp [update_of_ne hlx]
    · rw [update_self]
      rfl
  · refine nodup_append.mpr ⟨h.nodup, nodup_singleton x, ?_⟩
    rintro a ha b hb rfl
    exact hx (mem_singleton.mp hb ▸ ha)

/-- The list without its start, which has other nodes. -/
theorem circular_remove (h : Circular next p (p :: as ++ [l])) :
    Circular (update next l (next p)) (next p) (as ++ [l]) := by
  have hseg := h.seg
  have hnodup := h.nodup
  rcases (seg_append next as [l] (next p) p).mp hseg.2 with ⟨q, has, hq, _⟩
  have hrest := (nodup_cons.mp hnodup).2
  have hout : ∀ y ∈ as, update next l (next p) y = next y := by
    intro y hy
    refine update_of_ne ?_ _ _
    rintro rfl
    exact (nodup_append.mp hrest).2.2 y hy y (mem_singleton_self y) rfl
  refine ⟨(seg_append _ as [l] _ _).mpr ⟨q, seg_congr next _ as _ q hout has, hq, ?_⟩, hrest, ?_⟩
  · rw [update_self]
    rfl
  · rcases as with _ | ⟨a, as⟩
    · have hnext : next p = l := has.trans hq
      rw [hnext]
      exact mem_singleton_self l
    · rw [has.1]
      exact mem_cons_self

/-- The walk from a node around to it ends at the node before it. -/
theorem predecessor_pred (h : Circular next p xs) (hx : x ∈ xs)
    (hwalk : predecessor next x fuel x = some l) : l ∈ xs ∧ next l = x := by
  rcases circular_from h hx with ⟨ys, hys, hperm⟩
  rcases predecessor_spec hys hwalk with ⟨as, rfl⟩
  exact ⟨hperm.mem_iff.mp (by simp), circular_last hys⟩

/-- Link a new node in between `tail` and the node `c` after it. -/
theorem circular_link {c tail : α} (h : Circular next p xs) (htail : tail ∈ xs)
    (hnext : next tail = c) (hx : x ∉ xs) :
    ∃ ys, Circular (update (update next tail x) x c) p ys ∧
      ys.Perm (x :: xs) := by
  have hc : c ∈ xs := hnext ▸ circular_next_mem h htail
  rcases circular_from h hc with ⟨zs, hzs, hperm⟩
  rcases circular_pred_last hzs (hperm.mem_iff.mpr htail) hnext with ⟨as, rfl⟩
  have hnew := circular_insert hzs (fun hmem => hx (hperm.mem_iff.mp hmem))
  have hp : p ∈ as ++ [tail] ++ [x] := mem_append_left _ (hperm.mem_iff.mpr h.mem)
  rcases circular_from hnew hp with ⟨ys, hys, hys'⟩
  refine ⟨ys, hys, hys'.trans ?_⟩
  exact (perm_append_singleton x _).trans (hperm.cons x)

/-- Take the node after `l` out, when it is not the start. -/
theorem circular_unlink (h : Circular next p xs) (hl : l ∈ xs) (hnext : next l = x) (hne : x ≠ p) :
    ∃ ys, Circular (update next l (next x)) p ys ∧ (x :: ys).Perm xs ∧ l ∈ ys := by
  have hx : x ∈ xs := hnext ▸ circular_next_mem h hl
  rcases circular_from h hx with ⟨zs, hzs, hperm⟩
  rcases circular_pred_last hzs (hperm.mem_iff.mpr hl) hnext with ⟨as, hsplit⟩
  rcases circular_cons hzs with ⟨bs, hbs⟩
  -- The list has the start besides `x`, so the last node is not `x`.
  have hp : p ∈ bs := by
    have hmem := hperm.mem_iff.mpr h.mem
    rw [hbs] at hmem
    exact (mem_cons.mp hmem).resolve_left fun hc => hne hc.symm
  rcases as with _ | ⟨a, as⟩
  · rw [hbs] at hsplit
    rw [(cons.inj hsplit).2] at hp
    exact absurd hp not_mem_nil
  · rw [hbs] at hsplit
    obtain ⟨rfl, rfl⟩ := cons.inj hsplit
    rw [hbs] at hzs hperm
    rcases circular_from (circular_remove hzs) hp with ⟨ys, hys, hys'⟩
    exact ⟨ys, hys, (hys'.cons x).trans hperm, hys'.mem_iff.mpr (by simp)⟩

end

end CortexForge
