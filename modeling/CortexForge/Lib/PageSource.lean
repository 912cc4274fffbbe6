import Mathlib.Data.Nat.Notation

/-!
# Page Sources

What the users of a page allocator may rely on, whatever the allocator is: it
hands out runs of whole pages below some limit, never a page that somebody still
has, and takes back nothing but what it is given.

The allocator's state is any type, and the pages in someone's hands are a
predicate on it rather than a list, so a bitmap is a source without keeping
track of who has what. Address zero stands for a refusal.

## Main definitions

* `PageSource`: An allocator together with the pages it has handed out.
* `PageSource.allocatePage`, `PageSource.freePage`: A single page.

## Theorems

* `clear_or_mem_run`: A page overlaps a run of pages only as one of them.
* `alloc_apart`: A page that is held lies outside a run that is handed out.
-/

namespace CortexForge

/-- An allocator of pages of `page` bytes below the address `limit`. -/
structure PageSource (σ : Type) (page limit : Nat) where
  allocatePages : σ → Nat → σ × Nat
  freePages : σ → Nat → Nat → σ
  /-- The page at this address has been handed out. -/
  Held : σ → Nat → Prop
  held_aligned : ∀ s a, Held s a → a % page = 0
  held_below : ∀ s a, Held s a → a + page ≤ limit
  alloc_aligned : ∀ s n, (allocatePages s n).2 % page = 0
  alloc_below : ∀ s n, (allocatePages s n).2 ≠ 0 → (allocatePages s n).2 + n * page ≤ limit
  alloc_new : ∀ s n i, (allocatePages s n).2 ≠ 0 → i < n →
    ¬ Held s ((allocatePages s n).2 + i * page)
  alloc_held : ∀ s n i, (allocatePages s n).2 ≠ 0 → i < n →
    Held (allocatePages s n).1 ((allocatePages s n).2 + i * page)
  alloc_keep : ∀ s n a, Held s a → Held (allocatePages s n).1 a
  free_keep : ∀ s addr n a, addr + n * page ≤ limit → Held s a →
    (∀ i, i < n → a ≠ addr + i * page) → Held (freePages s addr n) a

namespace PageSource

variable {σ : Type} {page limit : Nat} (src : PageSource σ page limit)

def allocatePage (s : σ) : σ × Nat := src.allocatePages s 1

def freePage (s : σ) (addr : Nat) : σ := src.freePages s addr 1

/-- A page either lies clear of a run of pages or is one of them. -/
theorem clear_or_mem_run (page n r a : Nat) (hr : r % page = 0) (ha : a % page = 0) :
    a + page ≤ r ∨ r + n * page ≤ a ∨ ∃ i, i < n ∧ a = r + i * page := by
  obtain ⟨k, hk⟩ := Nat.dvd_of_mod_eq_zero hr
  obtain ⟨m, hm⟩ := Nat.dvd_of_mod_eq_zero ha
  rw [Nat.mul_comm page k] at hk
  rw [Nat.mul_comm page m] at hm
  by_cases hlo : m + 1 ≤ k
  · have hstep := Nat.mul_le_mul_right page hlo
    rw [Nat.add_mul] at hstep
    omega
  by_cases hhi : k + n ≤ m
  · right
    have hstep := Nat.mul_le_mul_right page hhi
    rw [Nat.add_mul] at hstep
    omega
  · refine .inr (.inr ⟨m - k, by omega, ?_⟩)
    rw [hk, hm, ← Nat.add_mul]
    congr 1
    omega

/-- A run of pages that is handed out does not touch a page that is held. -/
theorem alloc_apart {s : σ} {n a : Nat} (hr : (src.allocatePages s n).2 ≠ 0) (ha : src.Held s a) :
    a + page ≤ (src.allocatePages s n).2 ∨ (src.allocatePages s n).2 + n * page ≤ a := by
  rcases clear_or_mem_run page n _ a (src.alloc_aligned s n) (src.held_aligned s a ha) with
    hlo | hhi | ⟨i, hi, heq⟩
  · exact .inl hlo
  · exact .inr hhi
  · rw [heq] at ha
    exact absurd ha (src.alloc_new s n i hr hi)

end PageSource

end CortexForge
