import Mathlib.Data.Finset.Card
import Mathlib.Data.List.Nodup
import Mathlib.Logic.Function.Iterate

/-!
# Linked Lists through a Next Function

Singly linked lists given by a successor function, the shape of every list a
kernel threads through its own records: a free list whose links live in the
free entries, a block list whose links live in memory.

The nodes are of any type and the successor is a plain function, so a list in
memory is read by instantiating the function with a load. `Seg` is the piece of
such a list between two nodes and `Linked` a whole one, ended by a sentinel.
The list of nodes is an argument rather than computed, because computing it
would have to bound the walk; `linked_unique` says that there is at most one,
and `linked_nodup` that a list which ends cannot revisit a node. Acyclicity
therefore never has to be assumed separately.

An update of the links is a new function. `seg_congr` moves a segment across
one that agrees on its nodes, and `seg_append` cuts a list at the node where
the update happens.

## Main definitions

* `Seg`: The nodes met on the way from one node to another.
* `Linked`: A list ended by a sentinel.
* `OnList`: A node met on the way to the sentinel.
* `Endless`: A walk that never comes to the sentinel.

## Theorems

* `seg_append`: A segment splits at any of its nodes.
* `seg_congr`: A segment depends only on the links of its nodes.
* `linked_nil`: The empty list starts at the sentinel.
* `linked_cons`: A list is its first node and the list after it.
* `linked_congr`: A list depends only on the links of its nodes.
* `linked_suffix`: From any node on, a list is a list.
* `linked_unique`: A start determines its list.
* `linked_nodup`: A list that ends meets no node twice.
* `linked_onList`: The nodes of a list are those met on the way.
* `linked_push`, `linked_insert`: A new node in front, and one behind a node.
* `endless_of_closed`: A set of nodes that keeps the walk keeps it from ending.
* `linked_push_again`: A node in front that is on the list already ends the list.
* `endless_push`: A node in front of an endless walk does not end it.
* `first_lt_card`: A walk among few nodes is soon where it first comes to.
-/

namespace CortexForge

open Function List

variable {α : Type}

/-- Following `next` from `p` meets exactly the nodes `xs` and then arrives at
    `q`. -/
def Seg (next : α → α) : α → List α → α → Prop
  | p, [], q => p = q
  | p, x :: xs, q => p = x ∧ Seg next (next x) xs q

/-- Following `next` from `p` meets exactly the nodes `xs` and then the
    sentinel `nil`. -/
def Linked (next : α → α) (nil p : α) (xs : List α) : Prop :=
  Seg next p xs nil ∧ nil ∉ xs

theorem seg_append (next : α → α) (xs ys : List α) : ∀ (p r : α),
    Seg next p (xs ++ ys) r ↔ ∃ q, Seg next p xs q ∧ Seg next q ys r := by
  induction xs with
  | nil =>
    intro p r
    constructor
    · intro h
      exact ⟨p, rfl, h⟩
    · rintro ⟨q, hpq, h⟩
      rw [show p = q from hpq]
      exact h
  | cons x xs ih =>
    intro p r
    constructor
    · rintro ⟨hp, h⟩
      rcases (ih (next x) r).mp h with ⟨q, hq, hr⟩
      exact ⟨q, ⟨hp, hq⟩, hr⟩
    · rintro ⟨q, ⟨hp, hq⟩, hr⟩
      exact ⟨hp, (ih (next x) r).mpr ⟨q, hq, hr⟩⟩

theorem seg_congr (next next' : α → α) (xs : List α) : ∀ (p q : α),
    (∀ x ∈ xs, next' x = next x) → Seg next p xs q → Seg next' p xs q := by
  induction xs with
  | nil => exact fun _ _ _ h => h
  | cons x xs ih =>
    rintro p q hag ⟨hp, h⟩
    refine ⟨hp, ?_⟩
    rw [hag x mem_cons_self]
    exact ih (next x) q (fun y hy => hag y (mem_cons_of_mem x hy)) h

variable (next : α → α)

theorem linked_nil {next : α → α} {nil p : α} : Linked next nil p [] ↔ p = nil :=
  ⟨fun h => h.1, fun h => ⟨h, not_mem_nil⟩⟩

theorem linked_cons {next : α → α} {nil p x : α} {xs : List α} :
    Linked next nil p (x :: xs) ↔ p = x ∧ x ≠ nil ∧ Linked next nil (next x) xs := by
  constructor
  · rintro ⟨⟨hp, h⟩, hnil⟩
    rw [mem_cons, not_or] at hnil
    exact ⟨hp, fun hx => hnil.1 hx.symm, h, hnil.2⟩
  · rintro ⟨hp, hx, h, hnil⟩
    refine ⟨⟨hp, h⟩, ?_⟩
    rw [mem_cons, not_or]
    exact ⟨fun hc => hx hc.symm, hnil⟩

theorem linked_congr {next next' : α → α} {nil p : α} {xs : List α}
    (hag : ∀ x ∈ xs, next' x = next x) (h : Linked next nil p xs) : Linked next' nil p xs :=
  ⟨seg_congr next next' xs p nil hag h.1, h.2⟩

theorem linked_suffix (nil p x : α) (xs ys : List α)
    (h : Linked next nil p (xs ++ x :: ys)) : Linked next nil x (x :: ys) := by
  rcases (seg_append next xs (x :: ys) p nil).mp h.1 with ⟨q, _, hq⟩
  have hqx : q = x := hq.1
  rw [hqx] at hq
  exact ⟨hq, fun hc => h.2 (mem_append_right xs hc)⟩

/-- A start determines its list: two walks from the same node agree step by
    step, and the sentinel ends them both at once. -/
theorem linked_unique {next : α → α} {nil : α} {xs : List α} : ∀ {p : α} {ys : List α},
    Linked next nil p xs → Linked next nil p ys → xs = ys := by
  induction xs with
  | nil =>
    intro p ys hx hy
    rw [linked_nil] at hx
    cases ys with
    | nil => rfl
    | cons y ys =>
      rcases linked_cons.mp hy with ⟨hp, hne, _⟩
      exact absurd (hp.symm.trans hx) hne
  | cons x xs ih =>
    intro p ys hx hy
    rcases linked_cons.mp hx with ⟨hp, hne, hxs⟩
    cases ys with
    | nil => exact absurd (hp.symm.trans (linked_nil.mp hy)) hne
    | cons y ys =>
      rcases linked_cons.mp hy with ⟨hp', _, hys⟩
      have hxy : x = y := hp.symm.trans hp'
      subst hxy
      rw [ih hxs hys]

/-- A list that ends meets no node twice. A second visit would start the same
    walk again, and that walk is as long as itself. -/
theorem linked_nodup {next : α → α} {nil : α} {xs : List α} : ∀ {p : α},
    Linked next nil p xs → xs.Nodup := by
  induction xs with
  | nil => exact fun _ => nodup_nil
  | cons x xs ih =>
    intro p h
    rcases linked_cons.mp h with ⟨hp, _, hxs⟩
    refine nodup_cons.mpr ⟨fun hmem => ?_, ih hxs⟩
    rcases append_of_mem hmem with ⟨as, bs, hsplit⟩
    have hagain : Linked next nil x (x :: bs) := by
      rw [hsplit] at hxs
      exact linked_suffix next nil (next x) x as bs hxs
    rw [hp] at h
    have heq := congrArg length (linked_unique h hagain)
    rw [hsplit] at heq
    simp only [length_cons, length_append] at heq
    omega

/-- Following `next` from `p` comes to `x` before the sentinel. -/
def OnList (next : α → α) (nil p x : α) : Prop :=
  ∃ n, next^[n] p = x ∧ ∀ k ≤ n, next^[k] p ≠ nil

theorem linked_onList (nil x : α) (xs : List α) : ∀ (p : α),
    Linked next nil p xs → (OnList next nil p x ↔ x ∈ xs) := by
  induction xs with
  | nil =>
    intro p h
    refine ⟨?_, nofun⟩
    rintro ⟨n, _, hbefore⟩
    exact absurd (linked_nil.mp h) (hbefore 0 (Nat.zero_le n))
  | cons y ys ih =>
    intro p h
    rcases linked_cons.mp h with ⟨rfl, hne, hys⟩
    rw [mem_cons, ← ih (next p) hys]
    constructor
    · rintro ⟨n, hn, hbefore⟩
      rcases n with _ | n
      · exact .inl hn.symm
      · exact .inr ⟨n, hn, fun k hk => hbefore (k + 1) (Nat.succ_le_succ hk)⟩
    · rintro (rfl | ⟨n, hn, hbefore⟩)
      · refine ⟨0, rfl, fun k hk => ?_⟩
        rw [Nat.le_zero.mp hk]
        exact hne
      · refine ⟨n + 1, hn, fun k hk => ?_⟩
        rcases k with _ | k
        · exact hne
        · exact hbefore k (Nat.le_of_succ_le_succ hk)

section

variable [DecidableEq α] {next : α → α} {nil p x : α}

/-- A new node in front of a list. -/
theorem linked_push {xs : List α} (h : Linked next nil p xs) (hx : x ∉ xs) (hne : x ≠ nil) :
    Linked (update next x p) nil x (x :: xs) := by
  refine linked_cons.mpr ⟨rfl, hne, ?_⟩
  rw [update_self]
  refine linked_congr (fun y hy => ?_) h
  have hyx : y ≠ x := fun hc => hx (hc ▸ hy)
  exact update_of_ne hyx _ _

/-- A new node behind the node `a` of a list. -/
theorem linked_insert {a : α} {as bs : List α} (h : Linked next nil p (as ++ a :: bs))
    (hx : x ∉ as ++ a :: bs) (hne : x ≠ nil) :
    Linked (update (update next x (next a)) a x) nil p (as ++ a :: x :: bs) := by
  have hnodup := linked_nodup h
  have hxa : x ≠ a := fun hc => hx (hc ▸ mem_append_right as mem_cons_self)
  have hout : ∀ y ∈ as ++ bs, update (update next x (next a)) a x y = next y := by
    intro y hy
    have hmem : y ∈ as ++ a :: bs := by
      rcases mem_append.mp hy with hy | hy
      · exact mem_append_left _ hy
      · exact mem_append_right _ (mem_cons_of_mem a hy)
    have hya : y ≠ a := by
      rintro rfl
      exact (nodup_middle.mp hnodup |> nodup_cons.mp).1 hy
    have hyx : y ≠ x := fun hc => hx (hc ▸ hmem)
    rw [update_of_ne hya, update_of_ne hyx]
  rcases (seg_append next as (a :: bs) p nil).mp h.1 with ⟨q, has, hq, hbs⟩
  refine ⟨(seg_append _ as (a :: x :: bs) p nil).mpr ⟨q, ?_, hq, ?_, ?_⟩, fun hc => ?_⟩
  · exact seg_congr next _ as p q (fun y hy => hout y (mem_append_left bs hy)) has
  · simp
  · rw [update_of_ne hxa, update_self]
    exact seg_congr next _ bs _ nil (fun y hy => hout y (mem_append_right as hy)) hbs
  · rcases mem_append.mp hc with hc | hc
    · exact h.2 (mem_append_left _ hc)
    · rcases mem_cons.mp hc with hc | hc
      · exact h.2 (mem_append_right _ (hc ▸ mem_cons_self))
      · rcases mem_cons.mp hc with hc | hc
        · exact hne hc.symm
        · exact h.2 (mem_append_right _ (mem_cons_of_mem a hc))

end

/-- Following `next` from `p` never comes to the sentinel. -/
def Endless (next : α → α) (nil p : α) : Prop := ∀ n, next^[n] p ≠ nil

theorem endless_of_closed {next : α → α} {nil p : α} (S : α → Prop) (hp : S p) (hnil : ¬ S nil)
    (hstep : ∀ y, S y → S (next y)) : Endless next nil p := by
  have hall : ∀ n, S (next^[n] p) := by
    intro n
    induction n with
    | zero => exact hp
    | succ n ih =>
      rw [iterate_succ_apply']
      exact hstep _ ih
  exact fun n hn => hnil (hn ▸ hall n)

theorem Endless.not_linked {next : α → α} {nil p : α} (h : Endless next nil p) (xs : List α) :
    ¬ Linked next nil p xs := by
  induction xs generalizing p with
  | nil => exact fun hl => h 0 (linked_nil.mp hl)
  | cons x xs ih =>
    intro hl
    rcases linked_cons.mp hl with ⟨rfl, _, hxs⟩
    exact ih (fun n => h (n + 1)) hxs

/-- A node of a segment leads to another one or out of it at its end. -/
theorem seg_next_mem {next : α → α} {as : List α} {q : α} : ∀ {p : α}, Seg next p as q →
    ∀ y ∈ as, next y ∈ as ∨ next y = q := by
  induction as with
  | nil => exact nofun
  | cons a as ih =>
    rintro p ⟨rfl, h⟩ y hy
    rcases mem_cons.mp hy with rfl | hy
    · cases as with
      | nil => exact .inr h
      | cons b bs => exact .inl (mem_cons_of_mem _ (h.1 ▸ mem_cons_self))
    · rcases ih h y hy with hin | hq
      · exact .inl (mem_cons_of_mem _ hin)
      · exact .inr hq

section

variable [DecidableEq α] {next : α → α} {nil p x : α}

/-- Putting a node in front of a list it is already on closes a cycle: the walk
    comes back to it and starts over. -/
theorem linked_push_again {xs : List α} (h : Linked next nil p xs) (hx : x ∈ xs) :
    Endless (update next x p) nil x := by
  rcases append_of_mem hx with ⟨as, bs, rfl⟩
  rcases (seg_append next as (x :: bs) p nil).mp h.1 with ⟨q, has, rfl, _⟩
  refine endless_of_closed (fun y => y ∈ as ∨ y = q) (.inr rfl) ?_ ?_
  · rintro (hn | hn)
    · exact h.2 (mem_append_left _ hn)
    · exact h.2 (hn ▸ hx)
  · intro y hy
    by_cases hyq : y = q
    · -- The node itself leads to the old front, which is before it or itself.
      subst hyq
      rw [update_self]
      cases as with
      | nil => exact .inr has
      | cons a as => exact .inl (has.1 ▸ mem_cons_self)
    · rw [update_of_ne hyq]
      rcases hy with hy | hy
      · exact seg_next_mem has y hy
      · exact absurd hy hyq

theorem endless_push (h : Endless next nil p) (hne : x ≠ nil) :
    Endless (update next x p) nil x := by
  refine endless_of_closed (fun y => y = x ∨ ∃ n, y = next^[n] p) (.inl rfl) ?_ ?_
  · rintro (hn | ⟨n, hn⟩)
    · exact hne hn.symm
    · exact h n hn.symm
  · intro y hy
    by_cases hyx : y = x
    · rw [hyx, update_self]
      exact .inr ⟨0, rfl⟩
    · rw [update_of_ne hyx]
      rcases hy with hy | ⟨n, rfl⟩
      · exact absurd hy hyx
      · exact .inr ⟨n + 1, (iterate_succ_apply' next n p).symm⟩

end

/-- A walk that stays in a finite set comes to a node with a property, if it does at
    all, within as many steps as there are nodes. -/
theorem first_lt_card {next : α → α} {p : α} {S : Finset α} {P : α → Prop} {n : Nat}
    (hS : ∀ k ≤ n, next^[k] p ∈ S) (hn : P (next^[n] p)) (hfirst : ∀ k < n, ¬ P (next^[k] p)) :
    n < S.card := by
  have hinj : ∀ i j, i < j → j ≤ n → next^[i] p ≠ next^[j] p := by
    intro i j hij hj heq
    -- From the second visit on the walk repeats what follows the first one.
    refine hfirst (n - j + i) (by omega) ?_
    rw [iterate_add_apply, heq, ← iterate_add_apply, Nat.sub_add_cancel hj]
    exact hn
  have hcard := Finset.card_le_card_of_injOn (s := Finset.range (n + 1)) (t := S)
    (fun k => next^[k] p) (fun k hk => hS k (by grind)) fun i hi j hj heq => by
      grind
  rwa [Finset.card_range] at hcard

end CortexForge
