import Mathlib.Algebra.GroupWithZero.Nat
import Mathlib.Data.List.Pairwise

/-!
# Tilings

A list of spans, each a start and a length, that cut up the same space as
another list of spans: no two pieces overlap, every point of a piece lies in a
region and every point of a region in a piece, and the lengths add up to the
same.

Pieces may be cut in two and two that touch may be joined (`tiles_split_iff`), and
a new region may be added as one piece as long as it
overlaps no region that is there (`tiles_append`). The order of the pieces is
not that of their addresses, so a cut and a join happen somewhere in the middle
of the list.

## Main definitions

* `InSpan`: A point lies in a span.
* `Apart`: Two spans do not overlap.
* `Tiles`: The pieces tile the regions.

## Theorems

* `tiles_split_iff`: Cutting a piece, and joining two that touch.
* `tiles_append`: A new region, in one piece.
-/

namespace CortexForge

open List

/-- The point `x` lies in the span. -/
def InSpan (s : Nat × Nat) (x : Nat) : Prop := s.1 ≤ x ∧ x < s.1 + s.2

/-- The two spans do not overlap. -/
def Apart (s t : Nat × Nat) : Prop := s.1 + s.2 ≤ t.1 ∨ t.1 + t.2 ≤ s.1

theorem apart_symm {s t : Nat × Nat} (h : Apart s t) : Apart t s := Or.symm h

/-- Spans that are not empty and share no point do not overlap. -/
theorem apart_of_disjoint {s t : Nat × Nat} (hs : 0 < s.2) (ht : 0 < t.2)
    (h : ∀ x, InSpan s x → ¬ InSpan t x) : Apart s t := by
  have h1 := h s.1 ⟨Nat.le_refl _, by omega⟩
  have h2 : t.1 < s.1 + s.2 → t.1 < s.1 := by
    intro hlt
    by_contra hc
    exact h t.1 ⟨by omega, hlt⟩ ⟨Nat.le_refl _, by omega⟩
  unfold InSpan at h1
  unfold Apart
  omega

/-- The pieces `ps` tile the regions `rs`. -/
structure Tiles (ps rs : List (Nat × Nat)) : Prop where
  apart : ps.Pairwise Apart
  cover : ∀ x, (∃ p ∈ ps, InSpan p x) ↔ ∃ r ∈ rs, InSpan r x
  total : (ps.map Prod.snd).sum = (rs.map Prod.snd).sum

/-- A piece stands clear of a joined span exactly when it does of both parts. -/
theorem apart_join (p : Nat × Nat) (a m n : Nat) (hp : 0 < p.2) (hm : 0 < m) (hn : 0 < n) :
    Apart p (a, m + n) ↔ Apart p (a, m) ∧ Apart p (a + m, n) := by
  unfold Apart
  constructor
  · omega
  · intro h
    -- A piece between the two parts would be empty.
    rcases h with ⟨h1 | h1, h2 | h2⟩ <;> omega

/-- One piece or its two parts: it is the same tiling. -/
theorem tiles_split_iff (as bs rs : List (Nat × Nat)) (a m n : Nat) (hm : 0 < m) (hn : 0 < n)
    (hpos : ∀ p ∈ as ++ bs, 0 < p.2) :
    Tiles (as ++ (a, m + n) :: bs) rs ↔ Tiles (as ++ (a, m) :: (a + m, n) :: bs) rs := by
  have hpas : ∀ p ∈ as, 0 < p.2 := fun p hp => hpos p (mem_append_left _ hp)
  have hpbs : ∀ p ∈ bs, 0 < p.2 := fun p hp => hpos p (mem_append_right _ hp)
  have happart : (as ++ (a, m + n) :: bs).Pairwise Apart ↔
      (as ++ (a, m) :: (a + m, n) :: bs).Pairwise Apart := by
    have hself : Apart (a, m) (a + m, n) := .inl (Nat.le_refl _)
    -- Seen from a piece on either side, the join is apart when both parts are.
    have hleft : ∀ p ∈ as, Apart p (a, m + n) ↔ Apart p (a, m) ∧ Apart p (a + m, n) :=
      fun p hp => apart_join p a m n (hpas p hp) hm hn
    have hright : ∀ p ∈ bs, Apart (a, m + n) p ↔ Apart (a, m) p ∧ Apart (a + m, n) p := by
      intro p hp
      have hjoin := apart_join p a m n (hpbs p hp) hm hn
      constructor
      · intro h
        exact ⟨apart_symm (hjoin.mp (apart_symm h)).1, apart_symm (hjoin.mp (apart_symm h)).2⟩
      · intro h
        exact apart_symm (hjoin.mpr ⟨apart_symm h.1, apart_symm h.2⟩)
    simp only [pairwise_append, pairwise_cons, mem_cons, forall_eq_or_imp]
    constructor
    · rintro ⟨has, ⟨hb, hbs⟩, hab⟩
      refine ⟨has, ⟨⟨hself, fun q hq => ((hright q hq).mp (hb q hq)).1⟩,
        fun q hq => ((hright q hq).mp (hb q hq)).2, hbs⟩, fun p hp => ?_⟩
      exact ⟨((hleft p hp).mp (hab p hp).1).1, ((hleft p hp).mp (hab p hp).1).2, (hab p hp).2⟩
    · rintro ⟨has, ⟨⟨_, hb1⟩, hb2, hbs⟩, hab⟩
      refine ⟨has, ⟨fun q hq => (hright q hq).mpr ⟨hb1 q hq, hb2 q hq⟩, hbs⟩, fun p hp => ?_⟩
      exact ⟨(hleft p hp).mpr ⟨(hab p hp).1, (hab p hp).2.1⟩, (hab p hp).2.2⟩
  have hcover : ∀ x, (∃ p ∈ as ++ (a, m + n) :: bs, InSpan p x) ↔
      ∃ p ∈ as ++ (a, m) :: (a + m, n) :: bs, InSpan p x := by
    intro x
    have hpoint : InSpan (a, m + n) x ↔ InSpan (a, m) x ∨ InSpan (a + m, n) x := by
      unfold InSpan
      omega
    simp only [mem_append, mem_cons, or_and_right, exists_or, exists_eq_left, hpoint]
    simp only [or_assoc]
  have htotal : ((as ++ (a, m + n) :: bs).map Prod.snd).sum
      = ((as ++ (a, m) :: (a + m, n) :: bs).map Prod.snd).sum := by
    simp only [map_append, map_cons, sum_append, sum_cons]
    omega
  constructor
  · intro h
    exact ⟨happart.mp h.apart, fun x => (hcover x).symm.trans (h.cover x), htotal ▸ h.total⟩
  · intro h
    exact ⟨happart.mpr h.apart, fun x => (hcover x).trans (h.cover x), htotal ▸ h.total⟩

/-- A new region in one piece, clear of every region that is there. -/
theorem tiles_append (ps rs : List (Nat × Nat)) (s : Nat × Nat) (h : Tiles ps rs)
    (hs : 0 < s.2) (hpos : ∀ p ∈ ps, 0 < p.2) (hclear : ∀ r ∈ rs, Apart r s) :
    Tiles (ps ++ [s]) (rs ++ [s]) := by
  refine ⟨?_, ?_, ?_⟩
  · rw [pairwise_append]
    refine ⟨h.apart, pairwise_singleton Apart s, fun p hp q hq => ?_⟩
    rw [mem_singleton.mp hq]
    -- A point of both would lie in a region, and that region is clear of the new one.
    refine apart_of_disjoint (hpos p hp) hs fun x hx hxs => ?_
    rcases (h.cover x).mp ⟨p, hp, hx⟩ with ⟨r, hr, hxr⟩
    have hcl := hclear r hr
    unfold InSpan at hxs hxr
    unfold Apart at hcl
    omega
  · intro x
    simp only [mem_append, or_and_right, exists_or]
    rw [h.cover x]
  · simp [h.total]

/-- Spans apart share no point. -/
theorem apart_not_inSpan {s t : Nat × Nat} (h : Apart s t) (x : Nat) (hx : InSpan s x) :
    ¬ InSpan t x := by
  unfold InSpan at *
  unfold Apart at h
  omega

end CortexForge
