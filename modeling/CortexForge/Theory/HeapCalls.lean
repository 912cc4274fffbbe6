import CortexForge.Theory.HeapMemory

/-!
# The Calls of the Heap

The calls of the heap in terms of its list of blocks.

`HeapOk` says that the memory holds a list of blocks that tiles the regions, and
that the pages of the regions are still the heap's. Each call has one lemma that
says what becomes of the list: an expansion adds a block or leaves the list as
it was, also when it has to take the block out again (`heapExpand_spec`); an
allocation adds one block to those in use (`kmalloc_spec`); a free takes one
away (`kfree_spec`). All three leave the payloads of the blocks in use alone.

That a new region overlaps nothing is the page allocator's doing: the pages
under the regions are held, and a page that is held is not handed out
(`fresh_region_apart`).

## Main definitions

* `HeapOk`: The list in memory and the pages under it.
* `PayloadsKept`: What the callers have stored is as it was.
* `Spread`: Only a new region makes the list jump once more.
* `Granted`: The blocks in use after an allocation.

## Theorems

* `heapInit_spec`, `heapExpand_spec`, `kmalloc_spec`, `kfree_spec`: The calls.
-/

namespace CortexForge.Heap

open List

variable {σ : Type} (src : Pages σ)

/-- The region is a run of pages the heap has been handed out. -/
structure RegionHeld (s : σ) (r : HeapRegion) (phys pages : Nat) : Prop where
  start_eq : r.vaStart = kernelVaOffset + phys
  size_eq : r.sizeBytes = pages * pageSize
  pos : 0 < pages
  below : phys + pages * pageSize ≤ physLimit
  held : ∀ i, i < pages → src.Held s (phys + i * pageSize)

/-- The memory holds the list of blocks, and the blocks tile the regions. -/
structure HeapOk (h : Heap σ) (bs : List Block) : Prop where
  list : Piece h.mem h.heapHead bs 0
  layout : Layout h.regions bs
  few : h.regions.length ≤ heapMaxRegions
  regions : ∀ r ∈ h.regions, ∃ phys pages, RegionHeld src h.pmm r phys pages

/-- The payloads of the blocks in use are the same in both memories. -/
def PayloadsKept (bs : List Block) (mem mem' : Memory) : Prop :=
  ∀ b ∈ used bs, ∀ x, InSpan b.payload x → mem' x = mem x

/-- The list has no more new jumps than the heap has new regions. -/
def Spread (h : Heap σ) (bs : List Block) (h' : Heap σ) (bs' : List Block) : Prop :=
  breaks 0 bs' + h.regions.length ≤ breaks 0 bs + h'.regions.length

theorem Spread.few {h h' : Heap σ} {bs bs' : List Block} (hspread : Spread h bs h' bs')
    (hfew : breaks 0 bs ≤ h.regions.length) : breaks 0 bs' ≤ h'.regions.length := by
  unfold Spread at hspread
  omega

section

variable {src} {h : Heap σ} {bs : List Block}

theorem regionHeld_mono {s s' : σ} {r : HeapRegion} {phys pages : Nat}
    (hr : RegionHeld src s r phys pages)
    (hkeep : ∀ i, i < pages → src.Held s (phys + i * pageSize) →
      src.Held s' (phys + i * pageSize)) : RegionHeld src s' r phys pages :=
  ⟨hr.start_eq, hr.size_eq, hr.pos, hr.below, fun i hi => hkeep i hi (hr.held i hi)⟩

theorem foldl_wrap (rs : List HeapRegion) : ∀ total,
    total + ((rs.map spanOf).map Prod.snd).sum < 2 ^ 64 →
    rs.foldl (fun total r => wrap64 (total + r.sizeBytes)) total
      = total + ((rs.map spanOf).map Prod.snd).sum := by
  induction rs with
  | nil => exact fun total _ => rfl
  | cons r rs ih =>
    intro total hlt
    simp only [map_cons, sum_cons, spanOf] at hlt
    rw [foldl_cons, show wrap64 (total + r.sizeBytes) = total + r.sizeBytes from
      Nat.mod_eq_of_lt (by omega), ih _ (by omega)]
    simp [spanOf, Nat.add_assoc]

theorem sizes_le (rs : List HeapRegion)
    (hrs : ∀ r ∈ rs, ∃ phys pages, RegionHeld src h.pmm r phys pages) :
    ((rs.map spanOf).map Prod.snd).sum ≤ rs.length * physLimit := by
  induction rs with
  | nil => exact Nat.zero_le _
  | cons r rs ih =>
    rw [forall_mem_cons] at hrs
    rcases hrs with ⟨⟨phys, pages, hr⟩, hrs⟩
    have hle := hr.below
    have hrest := ih hrs
    simp only [map_cons, sum_cons, length_cons, Nat.succ_mul]
    have hsize : (spanOf r).2 = pages * pageSize := hr.size_eq
    omega

/-- The table is short and the regions are small, so their sum does not wrap. -/
theorem heapTotalBytes_eq (hok : HeapOk src h bs) :
    heapTotalBytes h = ((h.regions.map spanOf).map Prod.snd).sum ∧
      ((h.regions.map spanOf).map Prod.snd).sum < 2 ^ 64 := by
  have hle := sizes_le h.regions hok.regions
  have hfew := hok.few
  have hmul := Nat.mul_le_mul_right physLimit hfew
  have hlt : ((h.regions.map spanOf).map Prod.snd).sum < 2 ^ 64 := by
    unfold heapMaxRegions physLimit at hmul
    unfold physLimit at hle
    omega
  refine ⟨?_, hlt⟩
  simp [heapTotalBytes, foldl_wrap h.regions 0 (by omega)]

/-- The bound on the walks is enough for the list. -/
theorem length_lt_walkBound (hok : HeapOk src h bs) : bs.length < walkBound h := by
  have hle := length_le_total hok.layout
  rw [walkBound, (heapTotalBytes_eq hok).1]
  exact Nat.lt_succ_of_le ((Nat.le_div_iff_mul_le (Nat.succ_pos 31)).mpr hle)

/-- Every block lies inside one of the regions. -/
theorem block_in_region (hok : HeapOk src h bs) {b : Block} (hb : b ∈ bs) (x : Nat)
    (hx : InSpan b.span x) : ∃ r ∈ h.regions, InSpan (spanOf r) x := by
  rcases (hok.layout.tiles.cover x).mp ⟨b.span, mem_map_of_mem hb, hx⟩ with ⟨s, hs, hxs⟩
  rcases mem_map.mp hs with ⟨r, hr, rfl⟩
  exact ⟨r, hr, hxs⟩

theorem payload_subset (b : Block) (x : Nat) (hx : InSpan b.payload x) : InSpan b.span x := by
  unfold InSpan Block.payload at hx
  unfold InSpan Block.span
  omega

/-- No header lies in a payload, the block's own or another's. -/
theorem payload_not_header (hl : Layout h.regions bs) {b c : Block} (hb : b ∈ bs) (hc : c ∈ bs)
    (x : Nat) (hx : InSpan b.payload x) : ¬ InSpan c.header x := by
  intro hxc
  rcases append_of_mem hc with ⟨as, cs, rfl⟩
  by_cases hsame : b = c
  · rw [hsame] at hx
    unfold InSpan Block.payload blockHeaderSize at hx
    unfold InSpan Block.header at hxc
    omega
  · have hother : b ∈ as ++ cs := by
      rcases mem_append.mp hb with has | hcs
      · exact mem_append_left cs has
      · rcases mem_cons.mp hcs with heq | hcs
        · exact absurd heq hsame
        · exact mem_append_right as hcs
    exact apart_not_inSpan (layout_apart hl hother) x (payload_subset b x hx)
      (header_subset hxc)

/-- A run of pages the allocator hands out lies clear of every region: the pages
    of the regions are held, and a held page is not handed out. -/
theorem fresh_region_apart {s : σ} {n : Nat} {r : HeapRegion} {phys pages : Nat}
    (hgot : (src.allocatePages s n).2 ≠ 0) (hn : 0 < n) (hr : RegionHeld src s r phys pages) :
    Apart (spanOf r) (kernelVaOffset + (src.allocatePages s n).2, n * pageSize) := by
  have hpage : 0 < pageSize := Nat.succ_pos 4095
  have hstart := hr.start_eq
  have hsize := hr.size_eq
  have hpos : 0 < r.sizeBytes := hsize ▸ Nat.mul_pos hr.pos hpage
  refine apart_of_disjoint hpos (Nat.mul_pos hn hpage) fun x hx hxn => ?_
  unfold InSpan spanOf at hx
  unfold InSpan at hxn
  -- The page of the region that the shared byte lies in.
  set i := (x - (kernelVaOffset + phys)) / pageSize with hi
  have hdiv := Nat.div_add_mod (x - (kernelVaOffset + phys)) pageSize
  have hmod := Nat.mod_lt (x - (kernelVaOffset + phys)) hpage
  rw [← hi, Nat.mul_comm] at hdiv
  have hlt : i < pages := by
    refine (Nat.div_lt_iff_lt_mul hpage).mpr ?_
    omega
  have hclear := src.alloc_apart hgot (hr.held i hlt)
  omega

end

section

variable {src} {s : σ} {n : Nat}

variable (hgot : (src.allocatePages s n).2 ≠ 0)
include hgot

theorem physToVirt_eq :
    physToVirt (src.allocatePages s n).2 = kernelVaOffset + (src.allocatePages s n).2 := by
  have hbelow := src.alloc_below s n hgot
  unfold physLimit at hbelow
  unfold physToVirt wrap64 kernelVaOffset
  omega

theorem bytes_eq :
    wrap64 (n * pageSize) = n * pageSize := by
  have hbelow := src.alloc_below s n hgot
  unfold physLimit at hbelow
  exact Nat.mod_eq_of_lt (by omega)

/-- The one block of a new region. -/
def regionBlock (va bytes : Nat) : Block := ⟨va, bytes - blockHeaderSize, true⟩

theorem regionBlock_sound (hn : 0 < n) :
    (regionBlock (kernelVaOffset + (src.allocatePages s n).2) (n * pageSize)).Sound := by
  have hbelow := src.alloc_below s n hgot
  have halign := src.alloc_aligned s n
  unfold physLimit at hbelow
  unfold pageSize at hbelow halign
  refine ⟨?_, ?_, Nat.le_add_right _ _, ?_⟩ <;>
    simp only [regionBlock, heapAlign, blockHeaderSize, pageSize, kernelVaOffset] <;> omega

theorem regionHeld_new (hn : 0 < n) :
    RegionHeld src (src.allocatePages s n).1
      ⟨kernelVaOffset + (src.allocatePages s n).2, n * pageSize⟩ (src.allocatePages s n).2 n :=
  ⟨rfl, rfl, hn, src.alloc_below s n hgot, fun i hi => src.alloc_held s n i hgot hi⟩

omit hgot in
/-- Laying out a region writes to that region only and leaves one free block. -/
theorem formatRegion_spec (mem : Memory) (va bytes : Nat) (hlo : blockHeaderSize ≤ bytes)
    (hhi : bytes < 2 ^ 64) :
    Piece (formatRegion mem va bytes) va [regionBlock va bytes] 0 ∧
      ∀ x, ¬ InSpan (va, bytes) x → formatRegion mem va bytes x = mem x := by
  unfold formatRegion
  rw [sub64_of_le hlo hhi]
  refine ⟨setFree_spec _ va (by omega) (Nat.two_pow_pos 64), fun x hx => ?_⟩
  have hout : ¬ InSpan (va, 24) x := by
    unfold InSpan at hx ⊢
    unfold blockHeaderSize at hlo
    omega
  exact (setFree_frame _ _ 0 hout).2.trans (if_neg hx)

end

section

variable {src} {h : Heap σ} {bs : List Block}

theorem registerRegion_room (h : Heap σ) (va bytes : Nat)
    (hlen : h.regions.length < heapMaxRegions) :
    registerRegion h va bytes = ({ h with regions := h.regions ++ [⟨va, bytes⟩] }, true) :=
  if_neg (Nat.not_le.mpr hlen)

/-- At boot the heap is one free block, or empty when there were no pages. -/
theorem heapInit_spec (hhead : h.heapHead = 0) (hregions : h.regions = []) :
    ∃ bs, HeapOk src (heapInit src h) bs ∧ used bs = [] ∧ Spread h [] (heapInit src h) bs := by
  unfold heapInit
  by_cases hgot : (src.allocatePages h.pmm heapInitialPages).2 = 0
  · rw [if_pos hgot]
    refine ⟨[], ⟨(piece_nil _ 0).mpr hhead, ?_, ?_, ?_⟩, rfl, Nat.le_refl _⟩
    · simp only [hregions]
      exact layout_nil
    · simp only [hregions]
      exact Nat.zero_le _
    · simp only [hregions]
      exact nofun
  · rw [if_neg hgot]
    have hn : 0 < heapInitialPages := Nat.succ_pos 255
    have hsound := regionBlock_sound hgot hn
    have hlo : blockHeaderSize ≤ heapInitialPages * pageSize := by
      unfold blockHeaderSize pageSize
      omega
    have hhi : heapInitialPages * pageSize < 2 ^ 64 := by
      unfold heapInitialPages pageSize
      omega
    have hroom : h.regions.length < heapMaxRegions := by
      rw [hregions]
      exact Nat.succ_pos 15
    simp only [physToVirt_eq hgot]
    rw [registerRegion_room _ _ _ (by exact hroom)]
    simp only [hregions, nil_append]
    refine ⟨[regionBlock (kernelVaOffset + (src.allocatePages h.pmm heapInitialPages).2)
      (heapInitialPages * pageSize)], ⟨?_, ?_, Nat.succ_le_succ (Nat.zero_le 15), ?_⟩, rfl, ?_⟩
    · exact (formatRegion_spec h.mem _ _ hlo hhi).1
    · exact layout_append layout_nil _ _ hlo hsound nofun
    · rw [forall_mem_singleton]
      exact ⟨_, _, regionHeld_new hgot hn⟩
    · have hone := breaks_append_le (regionBlock (kernelVaOffset
        + (src.allocatePages h.pmm heapInitialPages).2) (heapInitialPages * pageSize)) [] 0
      unfold Spread
      rw [hregions]
      exact hone

theorem expandPages_pos (need : Nat) : 0 < expandPages need := by
  unfold expandPages heapExpandMinPages
  simp only
  split
  · exact Nat.succ_pos 63
  · omega

/-- A fresh run of pages lies clear of the regions and of every block. -/
theorem fresh_clear (hok : HeapOk src h bs) {n : Nat} (hn : 0 < n)
    (hgot : (src.allocatePages h.pmm n).2 ≠ 0) :
    (∀ r ∈ h.regions,
      Apart (spanOf r) (kernelVaOffset + (src.allocatePages h.pmm n).2, n * pageSize)) ∧
    ∀ c ∈ bs, ∀ x, InSpan c.span x →
      ¬ InSpan (kernelVaOffset + (src.allocatePages h.pmm n).2, n * pageSize) x := by
  have hapart : ∀ r ∈ h.regions,
      Apart (spanOf r) (kernelVaOffset + (src.allocatePages h.pmm n).2, n * pageSize) := by
    intro r hr
    rcases hok.regions r hr with ⟨phys, pages, hheld⟩
    exact fresh_region_apart hgot hn hheld
  refine ⟨hapart, fun c hc x hx => ?_⟩
  rcases block_in_region hok hc x hx with ⟨r, hr, hxr⟩
  exact apart_not_inSpan (hapart r hr) x hxr

/-- A region laid out beside the list and linked behind its last block. The
    payloads of the list see neither the layout nor the link. -/
theorem link_region {as : List Block} {b : Block} {mem : Memory} (head : Nat) {va bytes : Nat}
    (hl : Layout h.regions (as ++ [b])) (hlist : Piece mem head (as ++ [b]) 0)
    (hlo : blockHeaderSize ≤ bytes) (hhi : va + bytes < 2 ^ 64)
    (hclear : ∀ c ∈ as ++ [b], ∀ x, InSpan c.span x → ¬ InSpan (va, bytes) x) :
    Piece (formatRegion mem va bytes) head (as ++ [b]) 0 ∧
    Piece (setNext (formatRegion mem va bytes) b.addr va) head (as ++ [b]) va ∧
    Piece (setNext (formatRegion mem va bytes) b.addr va) va [regionBlock va bytes] 0 ∧
    ∀ c ∈ as ++ [b], ∀ x, InSpan c.payload x →
      formatRegion mem va bytes x = mem x ∧ ¬ InSpan (b.addr, 24) x := by
  rcases formatRegion_spec mem va bytes hlo (by omega) with ⟨hformat, hframe⟩
  have hbmem : b ∈ as ++ [b] := mem_append_right as (mem_singleton_self b)
  have hlist1 : Piece (formatRegion mem va bytes) head (as ++ [b]) 0 :=
    piece_frame _ 0 _ (fun c hc x hx => hframe x (hclear c hc x (header_subset hx))) hlist
  refine ⟨hlist1, link_spec hl (by omega) hlist1, ?_, fun c hc x hx => ⟨?_, ?_⟩⟩
  · refine piece_frame va 0 _ (fun c hc x hx => ?_) hformat
    rw [mem_singleton.mp hc] at hx
    -- The header of the new block is in the new region and the link is not.
    refine (setters_frame _ va fun hxb => ?_).2.2.2
    refine hclear b hbmem x (header_subset hxb) ?_
    unfold InSpan Block.header regionBlock at hx
    unfold InSpan
    unfold blockHeaderSize at hlo
    simp only at hx ⊢
    omega
  · exact hframe x (hclear c hc x (payload_subset c x hx))
  · exact payload_not_header hl hc hbmem x hx

/-- How an expansion ends: with one region more and the block in it, or with the
    regions and blocks there were. -/
def Expanded (src : Pages σ) (h : Heap σ) (bs : List Block) (n : Nat)
    (h' : Heap σ) (bs' : List Block) : Bool → Prop
  | true => h.heapHead ≠ 0 ∧ (src.allocatePages h.pmm n).2 ≠ 0 ∧
      h.regions.length < heapMaxRegions ∧ h'.regions.length = h.regions.length + 1 ∧
        ∃ va, bs' = bs ++ [regionBlock va (n * pageSize)]
  | false => bs' = bs ∧ h'.regions = h.regions ∧
      ((src.allocatePages h.pmm n).2 = 0 ∧ h'.pmm = (src.allocatePages h.pmm n).1 ∨
        heapMaxRegions ≤ h.regions.length ∧ (src.allocatePages h.pmm n).2 ≠ 0 ∧
          h'.pmm = src.freePages (src.allocatePages h.pmm n).1 (src.allocatePages h.pmm n).2 n)

/-- What an expansion does. With a list to append to, it returns; whatever it
    returns, the list is the old one, possibly with one free block more, and
    nothing is written to any payload. -/
theorem heapExpand_spec (hok : HeapOk src h bs) (need : Nat) :
    (bs ≠ [] → (heapExpand src h need).isSome) ∧
    ∀ h' ok, heapExpand src h need = some (h', ok) →
      h'.heapHead = h.heapHead ∧
      ∃ bs', HeapOk src h' bs' ∧ used bs' = used bs ∧ Spread h bs h' bs' ∧
        Expanded src h bs (expandPages need) h' bs' ok ∧
        ∀ b ∈ bs, ∀ x, InSpan b.payload x → h'.mem x = h.mem x := by
  unfold heapExpand
  set n := expandPages need with hndef
  have hn : 0 < n := expandPages_pos need
  simp only
  split_ifs with hgot
  · refine ⟨fun _ => rfl, ?_⟩
    rintro _ _ ⟨⟩
    refine ⟨rfl, bs, ⟨hok.list, hok.layout, hok.few, fun r hr => ?_⟩, rfl, Nat.le_refl _,
      ⟨rfl, rfl, .inl ⟨hgot, rfl⟩⟩, fun _ _ _ _ => rfl⟩
    rcases hok.regions r hr with ⟨phys, pages, hheld⟩
    exact ⟨phys, pages, regionHeld_mono hheld fun i _ => src.alloc_keep h.pmm n _⟩
  · rw [physToVirt_eq hgot, bytes_eq hgot]
    have hsound := regionBlock_sound hgot hn
    have hnew := regionHeld_new hgot hn
    rcases fresh_clear hok hn hgot with ⟨hapart, hclear⟩
    set va := kernelVaOffset + (src.allocatePages h.pmm n).2 with hva
    have hlo : blockHeaderSize ≤ n * pageSize := by
      have hpage := Nat.mul_le_mul_right pageSize hn
      unfold blockHeaderSize
      unfold pageSize at hpage ⊢
      omega
    have hhi : va + n * pageSize < 2 ^ 64 := by
      have hend := hsound.lt_end
      simp only [regionBlock] at hend
      omega
    rcases eq_nil_or_concat bs with hnil | ⟨as, b, hbs⟩
    · -- Without a list the source reads through a null pointer.
      have hhead : h.heapHead = 0 := (piece_nil _ 0).mp (hnil ▸ hok.list)
      have htail : tailLoop (formatRegion h.mem va (n * pageSize)) (walkBound h) h.heapHead
          = none := by
        rw [hhead, walkBound, tailLoop, if_pos rfl]
      rw [htail]
      exact ⟨fun hne => absurd hnil hne, fun h' ok heq => absurd heq (by simp)⟩
    · rw [concat_eq_append] at hbs
      have hlen := length_lt_walkBound hok
      have hlayout := hok.layout
      have hlist := hok.list
      rw [hbs] at hlist hlen hlayout hclear
      rcases link_region h.heapHead hlayout hlist hlo hhi hclear with
        ⟨hlist1, hlinked, hregion, hpay⟩
      rw [← hbs] at hpay
      have hwalk := tailLoop_spec as b h.heapHead (walkBound h) hlist1 hlayout.sound hlen
      have hhead : h.heapHead ≠ 0 := fun hc => by
        rw [hc, walkBound, tailLoop] at hwalk
        cases hwalk
      rw [hwalk]
      simp only
      set mem1 := formatRegion h.mem va (n * pageSize) with hmem1
      by_cases hroom : h.regions.length < heapMaxRegions
      · rw [registerRegion_room _ _ _ (by exact hroom)]
        refine ⟨fun _ => rfl, ?_⟩
        rintro _ _ ⟨⟩
        refine ⟨rfl, bs ++ [regionBlock va (n * pageSize)], ⟨?_, ?_, ?_, ?_⟩, ?_, ?_,
          ⟨hhead, hgot, hroom, length_append, va, rfl⟩, ?_⟩
        · rw [hbs, piece_append]
          exact ⟨va, hlinked, hregion⟩
        · exact layout_append hok.layout va _ hlo hsound hapart
        · simp only [length_append]
          exact hroom
        · rw [forall_mem_append, forall_mem_singleton]
          refine ⟨fun r hr => ?_, _, _, hnew⟩
          rcases hok.regions r hr with ⟨phys, pages, hheld⟩
          exact ⟨phys, pages, regionHeld_mono hheld fun i _ => src.alloc_keep h.pmm n _⟩
        · rw [used_append, used_free _ rfl, append_nil]
        · have hone := breaks_append_le (regionBlock va (n * pageSize)) bs 0
          simp only [Spread, length_append, length_singleton]
          omega
        · intro c hc x hx
          rcases hpay c hc x hx with ⟨hsame, hout⟩
          exact ((setters_frame mem1 va hout).2.2.2).trans hsame
      · rw [registerRegion, if_pos (Nat.not_lt.mp hroom)]
        refine ⟨fun _ => rfl, ?_⟩
        rintro _ _ ⟨⟩
        refine ⟨rfl, bs, ⟨?_, hok.layout, hok.few, ?_⟩, rfl, Nat.le_refl _,
          ⟨rfl, rfl, .inr ⟨Nat.not_lt.mp hroom, hgot, rfl⟩⟩, ?_⟩
        · rw [hbs]
          exact link_spec hlayout (Nat.two_pow_pos 64) hlinked
        · intro r hr
          rcases hok.regions r hr with ⟨phys, pages, hheld⟩
          refine ⟨phys, pages, regionHeld_mono hheld fun i _ hi => ?_⟩
          -- The pages that go back are the new ones, and these were nobody's.
          refine src.free_keep _ _ _ _ (src.alloc_below h.pmm n hgot)
            (src.alloc_keep h.pmm n _ hi) fun j hj heq => ?_
          exact src.alloc_new h.pmm n j hgot hj (heq ▸ hi)
        · intro c hc x hx
          rcases hpay c hc x hx with ⟨hsame, hout⟩
          exact ((setters_frame _ 0 hout).2.2.2).trans
            (((setters_frame mem1 va hout).2.2.2).trans hsame)

/-- An allocation found a block: the block joins those in use. -/
theorem take_spec (hok : HeapOk src h bs) {as cs : List Block} {b : Block} (size : Nat)
    (hbs : bs = as ++ b :: cs) (hfits : b.fits size) (halign : size % heapAlign = 0) :
    HeapOk src { h with mem := takeBlock h.mem b.addr size } (as ++ b.cut size ++ cs) ∧
    (∃ blk, blk.addr = b.addr ∧ size ≤ blk.size ∧
      (used (as ++ b.cut size ++ cs)).Perm (blk :: used bs)) ∧
    PayloadsKept bs h.mem (takeBlock h.mem b.addr size) := by
  have hl := hok.layout
  have hlist := hok.list
  rw [hbs] at hl hlist
  have hedit := fun r (hr : Piece h.mem b.addr [b] r) =>
    takeBlock_spec b r size (layout_mem hl) hfits hr
  -- The block is on the list, so what is said of every end of it can be used at one.
  have hframe : ∀ x, ¬ InSpan b.span x → takeBlock h.mem b.addr size x = h.mem x := by
    rcases (piece_append _ 0 as (b :: cs)).mp hlist with ⟨m, _, hb⟩
    rcases (piece_cons m 0 b cs).mp hb with ⟨_, hheader, _⟩
    exact (hedit _ ((piece_singleton _ b).mpr ⟨hheader, rfl⟩)).2
  refine ⟨⟨?_, layout_cut hl size halign, hok.few, hok.regions⟩, ?_, ?_⟩
  · exact piece_replace h.heapHead 0 hl hframe (fun r hr => (hedit r hr).1) hlist
  · have hnone : used [b] = [] := used_free b hfits.1
    rw [hbs]
    unfold Block.cut
    split_ifs with hcut
    · refine ⟨⟨b.addr, size, false⟩, rfl, Nat.le_refl _, ?_⟩
      rw [used_append, used_append, used_append, used_cons b cs, hnone]
      simp only [used, append_assoc]
      exact perm_middle
    · refine ⟨{ b with free := false }, rfl, hfits.2, ?_⟩
      rw [used_append, used_append, used_append, used_cons b cs, hnone]
      simp only [used,
        append_assoc]
      exact perm_middle
  · intro c hc x hx
    refine hframe x (apart_not_inSpan (layout_apart hl ?_) x (payload_subset c x hx))
    -- A block in use is not the free one that was found.
    rw [mem_used, hbs] at hc
    rcases mem_append.mp hc.1 with has | hcs
    · exact mem_append_left cs has
    · rcases mem_cons.mp hcs with heq | hcs
      · rw [heq, hfits.1] at hc
        exact absurd hc.2 (by simp)
      · exact mem_append_right as hcs

end

section

variable {src} {h : Heap σ} {bs : List Block}

theorem head_ne_zero (hok : HeapOk src h bs) (hhead : h.heapHead ≠ 0) : bs ≠ [] := by
  intro hnil
  exact hhead ((piece_nil _ 0).mp (hnil ▸ hok.list))

/-- The blocks in use after an allocation of at least `size` bytes that returned
    `r`: one more, or the same when it was refused. -/
def Granted (size r : Nat) (bs bs' : List Block) : Prop :=
  (r = 0 ∧ used bs' = used bs) ∨
  ∃ blk : Block, r = blk.addr + blockHeaderSize ∧ r ≠ 0 ∧ size ≤ blk.size ∧
    (used bs').Perm (blk :: used bs)

/-- The heap after such an allocation. What was in use before has its contents. -/
structure Allocated (src : Pages σ) (size r : Nat) (h : Heap σ) (bs : List Block) (h' : Heap σ) :
    Prop where
  head_eq : h'.heapHead = h.heapHead
  blocks : ∃ bs', HeapOk src h' bs' ∧ Granted size r bs bs' ∧ Spread h bs h' bs' ∧
    PayloadsKept bs h.mem h'.mem

theorem allocated_refused (hok : HeapOk src h bs) (size : Nat) : Allocated src size 0 h bs h :=
  ⟨rfl, bs, hok, .inl ⟨rfl, rfl⟩, Nat.le_refl _, fun _ _ _ _ => rfl⟩

theorem mallocLoop_spec {size : Nat} (halign : size % heapAlign = 0) : ∀ attempts h bs,
    HeapOk src h bs →
    (h.heapHead ≠ 0 → (mallocLoop src size attempts h).isSome) ∧
    ∀ h' r, mallocLoop src size attempts h = some (h', r) → Allocated src size r h bs h' := by
  intro attempts
  induction attempts with
  | zero =>
    intro h bs hok
    refine ⟨fun _ => rfl, ?_⟩
    rintro _ _ ⟨⟩
    exact allocated_refused hok size
  | succ attempts ih =>
    intro h bs hok
    unfold mallocLoop
    rcases findFit_spec size bs h.heapHead (walkBound h) hok.list hok.layout.sound
      (length_lt_walkBound hok) with ⟨hnone, _⟩ | ⟨as, b, cs, hbs, hfits, _, hfound⟩
    · -- No block fits: the outcome is that of the expansion, or of what follows it.
      simp only [hnone]
      rcases heapExpand_spec hok size with ⟨hsome, hexp⟩
      rcases hrun : heapExpand src h size with _ | ⟨h1, ok⟩
      · refine ⟨fun hhead => ?_, fun h' r heq => absurd heq (by simp)⟩
        have hret := hsome (head_ne_zero hok hhead)
        rw [hrun] at hret
        exact absurd hret (by simp)
      · rcases hexp h1 ok hrun with ⟨hhead1, bs1, hok1, hused1, hspread1, _, hkept1⟩
        have hkept : PayloadsKept bs h.mem h1.mem :=
          fun c hc => hkept1 c ((mem_used bs c).mp hc).1
        cases ok with
        | false =>
          refine ⟨fun _ => rfl, ?_⟩
          rintro _ _ ⟨⟩
          exact ⟨hhead1, bs1, hok1, .inl ⟨rfl, hused1⟩, hspread1, hkept⟩
        | true =>
          rcases ih h1 bs1 hok1 with ⟨hsome1, hrest⟩
          refine ⟨fun hhead => hsome1 (hhead1 ▸ hhead), fun h' r heq => ?_⟩
          rcases hrest h' r heq with ⟨hhead2, bs2, hok2, hgrant, hspread2, hkept2⟩
          refine ⟨hhead2.trans hhead1, bs2, hok2, ?_, ?_, fun c hc x hx => ?_⟩
          · unfold Granted at hgrant ⊢
            rw [hused1] at hgrant
            exact hgrant
          · unfold Spread at hspread1 hspread2 ⊢
            omega
          · rw [hkept2 c (hused1 ▸ hc) x hx, hkept c hc x hx]
    · have hb := hok.layout.sound b (hbs ▸ mem_append_right as mem_cons_self)
      rcases take_spec hok size hbs hfits halign with ⟨hok', ⟨blk, haddr, hsize, hperm⟩, hkept⟩
      simp only [hfound, if_pos (sound_ne_zero hb)]
      refine ⟨fun _ => rfl, ?_⟩
      rintro _ _ ⟨⟩
      have hwrap : wrap64 (b.addr + blockHeaderSize) = blk.addr + blockHeaderSize := by
        rw [haddr]
        exact Nat.mod_eq_of_lt (Nat.lt_of_le_of_lt (Nat.le_add_right _ _) hb.lt_end)
      rw [hwrap]
      refine ⟨rfl, _, hok', .inr ⟨blk, rfl, Nat.succ_ne_zero _, hsize, hperm⟩, ?_, hkept⟩
      rw [Spread, breaks_cut, hbs]

/-- An allocation: at most one block more in use, of at least the size asked
    for. -/
theorem kmalloc_spec (hok : HeapOk src h bs) (size : Nat) :
    (h.heapHead ≠ 0 → (kmalloc src h size).isSome) ∧
    ∀ h' r, kmalloc src h size = some (h', r) → Allocated src size r h bs h' := by
  have hrefuse : ∀ h' r, some (h, 0) = some (h', r) → Allocated src size r h bs h' := by
    rintro _ _ ⟨⟩
    exact allocated_refused hok size
  unfold kmalloc
  split_ifs with hzero hhuge
  · exact ⟨fun _ => rfl, hrefuse⟩
  · exact ⟨fun _ => rfl, hrefuse⟩
  -- Below the limit the rounding does not wrap, so it only adds.
  have hround : heapAlignUp size % heapAlign = 0 ∧ size ≤ heapAlignUp size := by
    unfold sizeMax heapAlign at hhuge
    have hwrap : wrap64 (size + 16 - 1) = size + 15 := Nat.mod_eq_of_lt (by omega)
    unfold heapAlignUp heapAlign
    omega
  rcases mallocLoop_spec hround.1 2 h bs hok with ⟨hsome, hrun⟩
  refine ⟨hsome, fun h' r heq => ?_⟩
  rcases hrun h' r heq with ⟨hhead, bs', hok', hgrant, hspread, hkept⟩
  refine ⟨hhead, bs', hok', ?_, hspread, hkept⟩
  rcases hgrant with hno | ⟨blk, haddr, hne, hsize, hperm⟩
  · exact .inl hno
  · exact .inr ⟨blk, haddr, hne, Nat.le_trans hround.2 hsize, hperm⟩

theorem block_addrInAnyRegion (hok : HeapOk src h bs) {b : Block} (hb : b ∈ bs) :
    addrInAnyRegion h b.addr = true := by
  rcases block_in_region hok hb b.addr ⟨Nat.le_refl _, Nat.lt_add_of_pos_right (span_pos b)⟩ with
    ⟨r, hr, hlo, hhi⟩
  rcases hok.regions r hr with ⟨phys, pages, hheld⟩
  have hstart := hheld.start_eq
  have hsize := hheld.size_eq
  have hbelow := hheld.below
  have hwrap : wrap64 (r.vaStart + r.sizeBytes) = r.vaStart + r.sizeBytes := by
    unfold physLimit at hbelow
    unfold kernelVaOffset at hstart
    exact Nat.mod_eq_of_lt (by omega)
  rw [addrInAnyRegion, any_eq_true]
  refine ⟨r, hr, ?_⟩
  rw [hwrap, Bool.and_eq_true, decide_eq_true_iff, decide_eq_true_iff]
  exact ⟨hlo, hhi⟩

/-- A free of a payload in use: one block less in use. The block is marked and
    then joined with its neighbours, and neither reaches into a payload. No two
    neighbours are left that could be joined. -/
theorem kfree_spec (hok : HeapOk src h bs) {b : Block} (hb : b ∈ used bs) :
    ∃ h', kfree h (b.addr + blockHeaderSize) = some h' ∧ h'.heapHead = h.heapHead ∧
      ∃ bs', HeapOk src h' bs' ∧ (used bs).Perm (b :: used bs') ∧ Spread h bs h' bs' ∧
        (bs'.IsChain fun b c => ¬ Joinable b c) ∧ PayloadsKept bs h.mem h'.mem := by
  rcases (mem_used bs b).mp hb with ⟨hmem, hinuse⟩
  rcases append_of_mem hmem with ⟨as, cs, hbs⟩
  have hl := hok.layout
  have hlist := hok.list
  rw [hbs] at hl hlist
  have hsound := layout_mem hl
  have hheader := hok.list.header b hmem
  have hblock : sub64 (b.addr + blockHeaderSize) blockHeaderSize = b.addr := by
    have hend := hsound.lt_end
    unfold sub64 wrap64
    omega
  have hmagic : hdrMagic h.mem b.addr = blockMagicAlloc := by
    rw [hheader.magic_eq, hinuse]
    rfl
  have hfree : hdrIsFree h.mem b.addr = 0 := by
    rw [hheader.isFree_eq, hinuse]
    rfl
  set mem1 := setMagic (setIsFree h.mem b.addr 1) b.addr blockMagicFree with hmem1
  have hframe1 : ∀ x, ¬ InSpan b.header x → mem1 x = h.mem x :=
    fun x hx => mark_frame h.mem b.addr _ _ x hx
  have hl1 := layout_mark hl true
  have hlist1 : Piece mem1 h.heapHead (as ++ { b with free := true } :: cs) 0 := by
    rw [append_cons]
    exact piece_replace h.heapHead 0 hl
      (fun x hx => hframe1 x fun hc => hx (header_subset hc))
      (fun r hr => mark_spec b r hr true) hlist
  have hlen : (as ++ { b with free := true } :: cs).length < walkBound h := by
    have hlt := length_lt_walkBound hok
    rw [hbs] at hlt
    simpa only [length_append, length_cons] using hlt
  rcases coalesceLoop_spec (walkBound h) _ [] h.heapHead (walkBound h) mem1 hl1 hlist1 hlen
    (Nat.le_of_lt hlen) with ⟨mem2, hloop, hlist2, hframe2⟩
  refine ⟨{ h with mem := mem2 }, ?_, rfl, coalesce (as ++ { b with free := true } :: cs),
    ⟨hlist2, layout_coalesce [] _ hl1, hok.few, hok.regions⟩, ?_, ?_, coalesce_chain _,
    fun c hc x hx => ?_⟩
  · unfold kfree
    simp only [hblock, block_addrInAnyRegion hok hmem, hmagic, hfree, ← hmem1, hloop,
      Nat.add_eq_zero_iff, sound_ne_zero hsound, false_and, if_false, ne_eq, not_true_eq_false,
      Bool.true_eq_false]
  · rw [used_coalesce, hbs, used_append, used_append, used_cons { b with free := true },
      used_free { b with free := true } rfl]
    simp only [used, filter_cons, hinuse]
    exact perm_middle
  · rw [Spread, breaks_coalesce, breaks_mark, hbs]
  · have hcmem := ((mem_used bs c).mp hc).1
    -- No payload contains a header, neither that of the block nor a free one's.
    have hout : ∀ d ∈ bs, ¬ InSpan d.header x :=
      fun d hd => payload_not_header hok.layout hcmem hd x hx
    have hkeep : mem2 x = mem1 x := by
      refine hframe2 x fun d hd _ => ?_
      rcases mem_append.mp hd with has | hcs
      · exact hout d (hbs ▸ mem_append_left _ has)
      · rcases mem_cons.mp hcs with heq | hcs
        · rw [heq]
          exact hout b hmem
        · exact hout d (hbs ▸ mem_append_right as (mem_cons_of_mem b hcs))
    exact hkeep.trans (hframe1 x (hout b hmem))

end

end CortexForge.Heap
