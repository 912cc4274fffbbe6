import CortexForge.Core.Heap
import CortexForge.Lib.Tiling
import Mathlib.Data.List.Chain
import Mathlib.Data.List.Perm.Basic

/-!
# The Heap as a List of Blocks

What the heap's calls do, without the memory: a list of blocks, of which one is
cut, one is marked, some are joined and some are added at the end. The list is in
the order of its links, which is not that of the addresses.

`Layout` is the shape such a list keeps: the blocks tile the regions, on
addresses that are multiples of the alignment. Cutting and joining are the two
directions of `tiles_split_iff`, and a region is added by `tiles_append`. Blocks
in use are what the callers of the heap see, and joining free blocks does not
touch them (`used_coalesce`).

## Main definitions

* `Block`: One block, with its header.
* `Block.cut`: The pieces of a block that is handed out.
* `absorb`, `coalesce`: The two loops that join free blocks.
* `Layout`: The blocks tile the regions.
* `breaks`: The places where the list jumps in the address space.

## Theorems

* `layout_cut`, `layout_coalesce`, `layout_append`: The calls keep the layout.
* `used_coalesce`: Joining leaves the blocks in use as they are.
* `length_le_total`: There is room for every header.
* `coalesce_chain`: Joining leaves no two neighbours that could be joined.
* `breaks_cut`, `breaks_coalesce`, `breaks_append_le`: Only a new region adds a
  jump.
-/

namespace CortexForge.Heap

open List

structure Block where
  addr : Nat
  size : Nat
  free : Bool
  deriving DecidableEq

/-- The bytes of a block, header and payload. -/
def Block.span (b : Block) : Nat × Nat := (b.addr, blockHeaderSize + b.size)

/-- The bytes a caller may use. -/
def Block.payload (b : Block) : Nat × Nat := (b.addr + blockHeaderSize, b.size)

def spanOf (r : HeapRegion) : Nat × Nat := (r.vaStart, r.sizeBytes)

/-- The block can serve a request for `size` bytes. -/
def Block.fits (size : Nat) (b : Block) : Prop := b.free = true ∧ size ≤ b.size

instance (size : Nat) (b : Block) : Decidable (b.fits size) := inferInstanceAs (Decidable (_ ∧ _))

/-- A block handed out for `size` bytes, and the free block cut off behind it if
    enough is left. -/
def Block.cut (b : Block) (size : Nat) : List Block :=
  if b.size - size > blockHeaderSize + heapMinBlockSize then
    [⟨b.addr, size, false⟩,
      ⟨b.addr + blockHeaderSize + size, b.size - size - blockHeaderSize, true⟩]
  else [{ b with free := false }]

/-- The two blocks are free and the second starts where the first ends. -/
def Joinable (b c : Block) : Prop :=
  b.free = true ∧ c.free = true ∧ b.addr + blockHeaderSize + b.size = c.addr

instance (b c : Block) : Decidable (Joinable b c) := inferInstanceAs (Decidable (_ ∧ _ ∧ _))

/-- The block grown over one behind it. -/
def Block.join (b c : Block) : Block :=
  { b with size := b.size + (blockHeaderSize + c.size) }

/-- The inner loop: a block takes in the joinable blocks behind it. -/
def absorb : Block → List Block → Block × List Block
  | b, [] => (b, [])
  | b, c :: rest => if Joinable b c then absorb (b.join c) rest else (b, c :: rest)

theorem absorb_length (b : Block) (rest : List Block) :
    (absorb b rest).2.length ≤ rest.length := by
  fun_induction absorb b rest with
  | case1 => exact Nat.le_refl _
  | case2 b c rest _ ih => exact Nat.le_succ_of_le ih
  | case3 => exact Nat.le_refl _

/-- The outer loop, over every block that is left. -/
def coalesce : List Block → List Block
  | [] => []
  | b :: rest => (absorb b rest).1 :: coalesce (absorb b rest).2
  termination_by bs => bs.length
  decreasing_by exact Nat.lt_succ_of_le (absorb_length b rest)

/-- The block is aligned and lies inside the kernel's address range. -/
structure Block.Sound (b : Block) : Prop where
  addr_aligned : b.addr % heapAlign = 0
  size_aligned : b.size % heapAlign = 0
  kernel_le : kernelVaOffset ≤ b.addr
  lt_end : b.addr + blockHeaderSize + b.size < 2 ^ 64

/-- The blocks tile the regions. -/
structure Layout (regions : List HeapRegion) (bs : List Block) : Prop where
  tiles : Tiles (bs.map Block.span) (regions.map spanOf)
  sound : ∀ b ∈ bs, b.Sound

section

variable {regions : List HeapRegion} {as cs bs : List Block} {b c : Block}

theorem layout_nil : Layout [] [] :=
  ⟨⟨List.Pairwise.nil, fun _ => Iff.rfl, rfl⟩, nofun⟩

theorem span_pos (b : Block) : 0 < b.span.2 :=
  Nat.lt_of_lt_of_le (Nat.succ_pos 31) (Nat.le_add_right _ _)

theorem spans_pos (bs : List Block) : ∀ p ∈ bs.map Block.span, 0 < p.2 := by
  intro p hp
  rcases mem_map.mp hp with ⟨b, _, rfl⟩
  exact span_pos b

theorem layout_mem (hl : Layout regions (as ++ b :: cs)) : b.Sound :=
  hl.sound b (mem_append_right as mem_cons_self)

/-- A block lies clear of the others, wherever they stand in the list. -/
theorem layout_apart (hl : Layout regions (as ++ b :: cs)) (hc : c ∈ as ++ cs) :
    Apart c.span b.span := by
  have hpair := hl.tiles.apart
  rw [map_append, map_cons, pairwise_append, pairwise_cons] at hpair
  rcases mem_append.mp hc with has | hcs
  · exact hpair.2.2 c.span (mem_map_of_mem has) b.span mem_cons_self
  · exact apart_symm (hpair.2.1.1 c.span (mem_map_of_mem hcs))

/-- Only the addresses and sizes of the blocks matter. -/
theorem layout_mark (hl : Layout regions (as ++ b :: cs)) (free : Bool) :
    Layout regions (as ++ { b with free := free } :: cs) := by
  refine ⟨?_, ?_⟩
  · have hspans : (as ++ { b with free := free } :: cs).map Block.span
        = (as ++ b :: cs).map Block.span := by
      simp [Block.span]
    rw [hspans]
    exact hl.tiles
  · have hall := hl.sound
    rw [forall_mem_append, forall_mem_cons] at hall ⊢
    have hb := hall.2.1
    exact ⟨hall.1, ⟨hb.addr_aligned, hb.size_aligned, hb.kernel_le, hb.lt_end⟩, hall.2.2⟩

/-- A block is sound when the two it is made of are. -/
theorem sound_join_iff (hadj : b.addr + blockHeaderSize + b.size = c.addr)
    (haddr : c.addr % heapAlign = 0) (hsize : c.size % heapAlign = 0) :
    (b.join c).Sound ↔ b.Sound ∧ c.Sound := by
  unfold blockHeaderSize at hadj
  unfold heapAlign at hsize
  constructor
  · rintro ⟨h1, h2, h3, h4⟩
    simp only [Block.join, heapAlign, blockHeaderSize] at h1 h2 h3 h4
    refine ⟨⟨h1, ?_, h3, ?_⟩, ⟨haddr, hsize, by omega, ?_⟩⟩ <;>
      simp only [heapAlign, blockHeaderSize] <;> omega
  · rintro ⟨⟨h1, h2, h3, _⟩, ⟨_, _, _, h4⟩⟩
    simp only [heapAlign, blockHeaderSize] at h1 h2 h4
    refine ⟨h1, ?_, h3, ?_⟩ <;> simp only [Block.join, heapAlign, blockHeaderSize] <;> omega

/-- One block, or the two it is made of. -/
theorem layout_join_iff (as cs : List Block)
    (hadj : b.addr + blockHeaderSize + b.size = c.addr) (haddr : c.addr % heapAlign = 0)
    (hsize : c.size % heapAlign = 0) :
    Layout regions (as ++ b.join c :: cs) ↔ Layout regions (as ++ b :: c :: cs) := by
  have htiles := tiles_split_iff (as.map Block.span) (cs.map Block.span) (regions.map spanOf)
    b.addr (blockHeaderSize + b.size) (blockHeaderSize + c.size) (span_pos b) (span_pos c) (by
      rw [← map_append]
      exact spans_pos _)
  have hjoin : (b.join c).span
      = (b.addr, blockHeaderSize + b.size + (blockHeaderSize + c.size)) := by
    simp only [Block.span, Block.join, Nat.add_assoc]
  have hsecond : c.span = (b.addr + (blockHeaderSize + b.size), blockHeaderSize + c.size) := by
    simp only [Block.span, ← hadj, Nat.add_assoc]
  -- The tiles and the blocks are two sides of the same cut.
  have hspans : Tiles ((as ++ b.join c :: cs).map Block.span) (regions.map spanOf) ↔
      Tiles ((as ++ b :: c :: cs).map Block.span) (regions.map spanOf) := by
    rw [map_append, map_cons, hjoin, map_append, map_cons, map_cons,
      hsecond]
    exact htiles
  have hsound : (∀ d ∈ as ++ b.join c :: cs, d.Sound) ↔ ∀ d ∈ as ++ b :: c :: cs, d.Sound := by
    simp only [forall_mem_append, forall_mem_cons, sound_join_iff hadj haddr hsize,
      and_assoc]
  exact ⟨fun h => ⟨hspans.mp h.tiles, hsound.mp h.sound⟩,
    fun h => ⟨hspans.mpr h.tiles, hsound.mpr h.sound⟩⟩

/-- Handing out a block keeps the layout, cut or not. -/
theorem layout_cut (hl : Layout regions (as ++ b :: cs)) (size : Nat)
    (halign : size % heapAlign = 0) : Layout regions (as ++ b.cut size ++ cs) := by
  unfold Block.cut
  split_ifs with hcut
  · have hsound := layout_mem hl
    have h1 := hsound.addr_aligned
    have h2 := hsound.size_aligned
    unfold heapAlign at h1 h2 halign
    unfold blockHeaderSize at hcut
    -- The block is the join of the two, up to the mark of the first.
    have hmark := layout_mark hl false
    have hwhole : { b with free := false } = (Block.mk b.addr size false).join
        ⟨b.addr + blockHeaderSize + size, b.size - size - blockHeaderSize, true⟩ := by
      simp only [Block.join, Block.mk.injEq, and_true, true_and]
      unfold blockHeaderSize
      omega
    rw [hwhole] at hmark
    have hsplit := (layout_join_iff as cs rfl ?_ ?_).mp hmark
    · rwa [append_assoc]
    all_goals
      simp only [blockHeaderSize, heapAlign]
      omega
  · rw [append_assoc]
    exact layout_mark hl false

theorem layout_absorb {b : Block} {rest : List Block} (hl : Layout regions (as ++ b :: rest)) :
    Layout regions (as ++ (absorb b rest).1 :: (absorb b rest).2) := by
  fun_induction absorb b rest with
  | case1 => exact hl
  | case2 b c rest hj ih =>
    have hc := hl.sound c (by simp)
    exact ih ((layout_join_iff as rest hj.2.2 hc.addr_aligned hc.size_aligned).mpr hl)
  | case3 => exact hl

/-- Joining keeps the layout. The blocks behind the one at hand have been dealt
    with and are part of the list in front. -/
theorem layout_coalesce (as bs : List Block) (hl : Layout regions (as ++ bs)) :
    Layout regions (as ++ coalesce bs) := by
  induction bs using coalesce.induct generalizing as with
  | case1 => rwa [coalesce]
  | case2 b rest ih =>
    rw [coalesce]
    have habs := layout_absorb hl
    rw [append_cons] at habs ⊢
    exact ih _ habs

/-- A new region is one free block at the end of the list. -/
theorem layout_append (hl : Layout regions bs) (va bytes : Nat) (hbytes : blockHeaderSize ≤ bytes)
    (hsound : (Block.mk va (bytes - blockHeaderSize) true).Sound)
    (hclear : ∀ r ∈ regions, Apart (spanOf r) (va, bytes)) :
    Layout (regions ++ [⟨va, bytes⟩]) (bs ++ [⟨va, bytes - blockHeaderSize, true⟩]) := by
  have hspan : (Block.mk va (bytes - blockHeaderSize) true).span = (va, bytes) := by
    simp only [Block.span, Prod.mk.injEq, true_and]
    omega
  refine ⟨?_, ?_⟩
  · have htiles := tiles_append (bs.map Block.span) (regions.map spanOf) (va, bytes) hl.tiles
      (Nat.lt_of_lt_of_le (Nat.succ_pos 31) hbytes) (spans_pos bs) (fun r hr => by
        rcases mem_map.mp hr with ⟨r0, hr0, rfl⟩
        exact hclear r0 hr0)
    rw [map_append, map_append, map_singleton, hspan]
    exact htiles
  · rw [forall_mem_append, forall_mem_singleton]
    exact ⟨hl.sound, hsound⟩

/-- Every block takes a header's room out of the regions. -/
theorem length_le_total (hl : Layout regions bs) :
    bs.length * blockHeaderSize ≤ ((regions.map spanOf).map Prod.snd).sum := by
  rw [← hl.tiles.total]
  clear hl
  induction bs with
  | nil => exact Nat.le_of_eq (Nat.zero_mul _)
  | cons b bs ih =>
    simp only [length_cons, map_cons, sum_cons, Nat.succ_mul, Block.span] at ih ⊢
    omega

end

section

variable (b : Block) (bs : List Block)

/-- The blocks that are handed out, in list order. -/
def used (bs : List Block) : List Block := bs.filter (fun b => !b.free)

theorem mem_used (b : Block) : b ∈ used bs ↔ b ∈ bs ∧ b.free = false := by
  simp [used]

theorem used_append (as bs : List Block) : used (as ++ bs) = used as ++ used bs :=
  filter_append as bs

theorem used_cons : used (b :: bs) = used [b] ++ used bs :=
  used_append [b] bs

theorem used_free (h : b.free = true) : used [b] = [] := by
  simp [used, h]

theorem used_absorb (rest : List Block) :
    used ((absorb b rest).1 :: (absorb b rest).2) = used (b :: rest) := by
  fun_induction absorb b rest with
  | case1 => rfl
  | case2 b c rest hj ih =>
    rw [ih]
    simp [used, Block.join, hj.1, hj.2.1]
  | case3 => rfl

/-- Joining leaves the blocks in use as they are. -/
theorem used_coalesce : used (coalesce bs) = used bs := by
  induction bs using coalesce.induct with
  | case1 => rw [coalesce]
  | case2 b rest ih =>
    rw [coalesce, used_cons, ih, ← used_cons]
    exact used_absorb b rest

end

section

variable (b : Block) (bs rest : List Block)

/-- How often the list goes on at another address than the one it has reached,
    seen from the address `e`. -/
def breaks (e : Nat) : List Block → Nat
  | [] => 0
  | b :: bs => (if e = b.addr then 0 else 1) + breaks (b.addr + blockHeaderSize + b.size) bs

theorem breaks_append_le (e : Nat) :
    breaks e (bs ++ [b]) ≤ breaks e bs + 1 := by
  fun_induction breaks e bs with
  | case1 e =>
    simp only [nil_append, breaks]
    split_ifs <;> omega
  | case2 e c bs ih =>
    simp only [cons_append, breaks]
    omega

/-- What happens in the middle of a list is seen from where its front ends. -/
theorem breaks_middle {bs bs' : List Block} (h : ∀ e, breaks e bs' = breaks e bs)
    (as : List Block) (e : Nat) : breaks e (as ++ bs') = breaks e (as ++ bs) := by
  induction as generalizing e with
  | nil => exact h e
  | cons a as ih => simp only [cons_append, breaks, ih]

theorem breaks_mark (free : Bool) (as cs : List Block) (e : Nat) :
    breaks e (as ++ { b with free := free } :: cs) = breaks e (as ++ b :: cs) := by
  refine breaks_middle (fun e => ?_) as e
  rfl

theorem breaks_cut (size : Nat) (as cs : List Block) (e : Nat) :
    breaks e (as ++ b.cut size ++ cs) = breaks e (as ++ b :: cs) := by
  rw [append_assoc]
  refine breaks_middle (fun e => ?_) as e
  unfold Block.cut
  split_ifs with hcut
  · have hend : b.addr + blockHeaderSize + size + blockHeaderSize
        + (b.size - size - blockHeaderSize) = b.addr + blockHeaderSize + b.size := by omega
    simp [breaks, hend]
  · rfl

theorem breaks_absorb (e : Nat) :
    breaks e ((absorb b rest).1 :: (absorb b rest).2) = breaks e (b :: rest) := by
  fun_induction absorb b rest with
  | case1 b => rfl
  | case2 b c rest hj ih =>
    have hend : b.addr + blockHeaderSize + (b.size + (blockHeaderSize + c.size))
        = c.addr + blockHeaderSize + c.size := by
      rw [← hj.2.2]
      omega
    rw [ih]
    simp only [breaks, Block.join, hend, if_pos hj.2.2, Nat.zero_add]
    rfl
  | case3 b c rest hj => rfl

theorem breaks_coalesce : ∀ e, breaks e (coalesce bs) = breaks e bs := by
  induction bs using coalesce.induct with
  | case1 => exact fun e => by rw [coalesce]
  | case2 b rest ih =>
    intro e
    rw [coalesce, ← breaks_absorb b rest e]
    exact breaks_middle ih [(absorb b rest).1] e

/-- A block keeps its place and its mark while it grows, and it stops in front of
    one it cannot take in. -/
theorem absorb_spec :
    (absorb b rest).1.addr = b.addr ∧ (absorb b rest).1.free = b.free ∧
      (∀ c ∈ (absorb b rest).2.head?, ¬ Joinable (absorb b rest).1 c) ∧
      ∀ c ∈ (absorb b rest).2, c ∈ rest := by
  fun_induction absorb b rest with
  | case1 b => exact ⟨rfl, rfl, nofun, nofun⟩
  | case2 b c rest hj ih => exact ⟨ih.1, ih.2.1, ih.2.2.1, fun d hd => .tail c (ih.2.2.2 d hd)⟩
  | case3 b c rest hj => exact ⟨rfl, rfl, by simpa using hj, fun _ => id⟩

theorem coalesce_chain :
    (coalesce bs).IsChain fun b c => ¬ Joinable b c := by
  induction bs using coalesce.induct with
  | case1 => simp [coalesce]
  | case2 b rest ih =>
    rw [coalesce, isChain_cons]
    refine ⟨fun c hc => ?_, ih⟩
    have hstop := (absorb_spec b rest).2.2.1
    revert hc hstop
    -- The block behind has grown as well, but it begins where it did.
    rcases (absorb b rest).2 with _ | ⟨d, ds⟩
    · simp [coalesce]
    · rcases absorb_spec d ds with ⟨haddr, hfree, _⟩
      rw [coalesce, head?_cons, Option.mem_some_iff]
      rintro rfl hstop hjoin
      exact hstop d rfl ⟨hjoin.1, hfree ▸ hjoin.2.1, haddr ▸ hjoin.2.2⟩

/-- Free blocks that cannot be joined all start at a jump. -/
theorem breaks_eq_length {bs : List Block} (hfree : ∀ b ∈ bs, b.free = true)
    (hchain : bs.IsChain fun b c => ¬ Joinable b c) :
    ∀ e, (∀ b ∈ bs.head?, e ≠ b.addr) → breaks e bs = bs.length := by
  induction bs with
  | nil => exact fun e _ => rfl
  | cons b bs ih =>
    intro e he
    rw [forall_mem_cons] at hfree
    rw [isChain_cons] at hchain
    rw [breaks, if_neg (he b rfl), ih hfree.2 hchain.2 _ fun c hc hend => ?_, length_cons,
      Nat.add_comm]
    exact hchain.1 c hc ⟨hfree.1, hfree.2 c (mem_of_mem_head? hc), hend⟩

end

end CortexForge.Heap
