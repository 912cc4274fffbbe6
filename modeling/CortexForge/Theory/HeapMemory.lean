import CortexForge.Lib.Linked
import CortexForge.Theory.Blocks

/-!
# The Block List in Memory

The blocks of the heap read from memory, and what each edit and each walk of the
source does to them.

`Piece` says that a stretch of the list is stored in memory, from the address of
its first block to the address behind its last link. A stretch depends on its
own headers only (`piece_frame`), and stretches compose (`piece_append`), so an
edit is described where it happens: `takeBlock` at the block it hands out
(`takeBlock_spec`), marking at the block it marks, a link at the block it is
stored in. `piece_replace` then carries the edit into a whole list, where the
other blocks lie clear of it by the layout.

The walks are bounded, and each returns when it is given more steps than there
are blocks. The two loops that join free blocks compute `absorb` and `coalesce`
and write to the headers of free blocks only.

## Main definitions

* `HeaderOk`: The header of a block is in memory.
* `Piece`: A stretch of the list is in memory.

## Theorems

* `piece_replace`: One block of a list replaced by others.
* `findFit_spec`: The search finds a block that fits, or there is none.
* `takeBlock_spec`: What handing out a block leaves in memory.
* `mergeLoop_spec`, `coalesceLoop_spec`: The loops compute `absorb` and
  `coalesce`.
* `sumBytes_spec`: The statistics walk adds up the sizes.
-/

namespace CortexForge.Heap

open List

/-- The bytes of a header that are used. -/
def Block.header (b : Block) : Nat × Nat := (b.addr, 24)

/-- The header in memory is that of the block, and its magic number agrees with
    its flag. -/
structure HeaderOk (mem : Memory) (b : Block) : Prop where
  size_eq : hdrSize mem b.addr = b.size
  magic_eq : hdrMagic mem b.addr = if b.free then blockMagicFree else blockMagicAlloc
  isFree_eq : hdrIsFree mem b.addr = if b.free then 1 else 0

/-- The links from `p` on lead through the blocks `bs` to `q`. -/
structure Piece (mem : Memory) (p : Nat) (bs : List Block) (q : Nat) : Prop where
  seg : Seg (hdrNext mem) p (bs.map Block.addr) q
  header : ∀ b ∈ bs, HeaderOk mem b

section

variable {mem mem' : Memory} {b : Block} {regions : List HeapRegion} (p q : Nat)

theorem headerOk_isFree (h : HeaderOk mem b) :
    hdrIsFree mem b.addr ≠ 0 ↔ b.free = true := by
  rw [h.isFree_eq]
  cases b.free <;> simp

theorem piece_nil : Piece mem p [] q ↔ p = q :=
  ⟨fun h => h.seg, fun h => ⟨h, nofun⟩⟩

theorem piece_cons (b : Block) (bs : List Block) :
    Piece mem p (b :: bs) q ↔
      p = b.addr ∧ HeaderOk mem b ∧ Piece mem (hdrNext mem b.addr) bs q := by
  constructor
  · rintro ⟨⟨hp, hseg⟩, hheader⟩
    rw [forall_mem_cons] at hheader
    exact ⟨hp, hheader.1, hseg, hheader.2⟩
  · rintro ⟨hp, hb, hseg, hheader⟩
    exact ⟨⟨hp, hseg⟩, forall_mem_cons.mpr ⟨hb, hheader⟩⟩

theorem piece_singleton (b : Block) :
    Piece mem b.addr [b] q ↔ HeaderOk mem b ∧ hdrNext mem b.addr = q := by
  rw [piece_cons, piece_nil]
  exact ⟨fun h => h.2, fun h => ⟨rfl, h⟩⟩

theorem piece_append (as bs : List Block) :
    Piece mem p (as ++ bs) q ↔ ∃ r, Piece mem p as r ∧ Piece mem r bs q := by
  constructor
  · rintro ⟨hseg, hheader⟩
    rw [map_append, seg_append] at hseg
    rw [forall_mem_append] at hheader
    rcases hseg with ⟨r, has, hbs⟩
    exact ⟨r, ⟨has, hheader.1⟩, hbs, hheader.2⟩
  · rintro ⟨r, has, hbs⟩
    refine ⟨?_, forall_mem_append.mpr ⟨has.header, hbs.header⟩⟩
    rw [map_append, seg_append]
    exact ⟨r, has.seg, hbs.seg⟩

/-- A header is read from its own bytes. -/
theorem header_frame (b : Block) (hag : ∀ x, InSpan b.header x → mem' x = mem x) :
    (HeaderOk mem b → HeaderOk mem' b) ∧ hdrNext mem' b.addr = hdrNext mem b.addr := by
  have hfield : ∀ off w, off + w ≤ 24 →
      loadN mem' (b.addr + off) w = loadN mem (b.addr + off) w := by
    intro off w hle
    refine loadN_congr mem mem' w (b.addr + off) fun x h1 h2 => hag x ⟨?_, ?_⟩
    · exact Nat.le_trans (Nat.le_add_right _ _) h1
    · simp only [Block.header]
      omega
  have hsize := hfield 0 8 (by omega)
  have hmagic := hfield 8 4 (by omega)
  have hfree := hfield 12 4 (by omega)
  exact ⟨fun h => ⟨hsize.trans h.size_eq, hmagic.trans h.magic_eq, hfree.trans h.isFree_eq⟩,
    hfield 16 8 (by omega)⟩

/-- A stretch of the list depends on its own headers only. -/
theorem piece_frame (bs : List Block) (hag : ∀ b ∈ bs, ∀ x, InSpan b.header x → mem' x = mem x)
    (h : Piece mem p bs q) :
    Piece mem' p bs q := by
  refine ⟨seg_congr _ _ _ p q (fun a ha => ?_) h.seg, fun b hb => ?_⟩
  · rcases mem_map.mp ha with ⟨b, hb, rfl⟩
    exact (header_frame b (hag b hb)).2
  · exact (header_frame b (hag b hb)).1 (h.header b hb)

theorem header_subset {b : Block} {x : Nat} (hx : InSpan b.header x) : InSpan b.span x := by
  unfold InSpan Block.header at hx
  unfold InSpan Block.span blockHeaderSize
  omega

/-- An edit inside one block leaves the headers of the others alone. -/
theorem frame_apart {as cs : List Block} (hl : Layout regions (as ++ b :: cs))
    (hag : ∀ x, ¬ InSpan b.span x → mem' x = mem x) :
    ∀ c ∈ as ++ cs, ∀ x, InSpan c.header x → mem' x = mem x :=
  fun _ hc x hx => hag x (apart_not_inSpan (layout_apart hl hc) x (header_subset hx))

/-- One block of a list replaced by others, by an edit inside that block. -/
theorem piece_replace {as ys cs : List Block} (hl : Layout regions (as ++ b :: cs))
    (hag : ∀ x, ¬ InSpan b.span x → mem' x = mem x)
    (hedit : ∀ r, Piece mem b.addr [b] r → Piece mem' b.addr ys r)
    (h : Piece mem p (as ++ b :: cs) q) : Piece mem' p (as ++ ys ++ cs) q := by
  have hother := frame_apart hl hag
  rw [append_cons, piece_append] at h
  rcases h with ⟨r, hfront, hcs⟩
  rcases (piece_append p r as [b]).mp hfront with ⟨m, has, hb⟩
  -- The stretch of one block starts at that block.
  have hm : m = b.addr := hb.seg.1
  rw [hm] at has hb
  rw [piece_append]
  refine ⟨r, (piece_append p r as ys).mpr ⟨b.addr, ?_, hedit r hb⟩, ?_⟩
  · exact piece_frame p b.addr as (fun c hc => hother c (mem_append_left cs hc)) has
  · exact piece_frame r q cs (fun c hc => hother c (mem_append_right as hc)) hcs

end

section

variable {mem : Memory} (b : Block)

/-- Bytes outside a header are not written by the header's setters. -/
theorem setters_frame (mem : Memory) {a : Nat} (v : Nat) {x : Nat} (hx : ¬ InSpan (a, 24) x) :
    setSize mem a v x = mem x ∧ setMagic mem a v x = mem x ∧ setIsFree mem a v x = mem x ∧
      setNext mem a v x = mem x := by
  unfold InSpan at hx
  exact ⟨storeN_other (by omega), storeN_other (by omega),
    storeN_other (by omega), storeN_other (by omega)⟩

theorem setFree_spec (mem : Memory) (a : Nat) {size next : Nat} (hsize : size < 2 ^ 64)
    (hnext : next < 2 ^ 64) :
    Piece (setNext (setFree mem a size) a next) a [⟨a, size, true⟩] next := by
  rw [piece_singleton (b := ⟨a, size, true⟩)]
  refine ⟨⟨?_, ?_, ?_⟩, ?_⟩ <;>
    simp (disch := omega) only [hdrSize, hdrMagic, hdrIsFree, hdrNext, setNext, setFree, setSize,
      setMagic, setIsFree, loadN_storeN_disjoint, loadN_storeN, if_true]
  all_goals first
    | exact Nat.mod_eq_of_lt hsize
    | exact Nat.mod_eq_of_lt hnext
    | rfl

theorem setFree_frame (mem : Memory) {a : Nat} (size next : Nat) {x : Nat}
    (hx : ¬ InSpan (a, 24) x) :
    setFree mem a size x = mem x ∧ setNext (setFree mem a size) a next x = mem x := by
  have hfree : setFree mem a size x = mem x := by
    unfold setFree
    rw [(setters_frame _ _ hx).2.1, (setters_frame _ _ hx).2.2.1,
      (setters_frame _ _ hx).1]
  exact ⟨hfree, (setters_frame _ _ hx).2.2.2.trans hfree⟩

/-- Marking a block, free or in use. -/
theorem mark_spec (q : Nat) (h : Piece mem b.addr [b] q) (free : Bool) :
    Piece (setMagic (setIsFree mem b.addr (if free then 1 else 0)) b.addr
        (if free then blockMagicFree else blockMagicAlloc))
      b.addr [{ b with free := free }] q := by
  rw [piece_singleton] at h
  rw [piece_singleton (b := { b with free := free })]
  rcases h with ⟨⟨hsize, _, _⟩, hnext⟩
  refine ⟨⟨?_, ?_, ?_⟩, ?_⟩ <;>
    simp (disch := omega) only [hdrSize, hdrMagic, hdrIsFree, hdrNext, setMagic, setIsFree,
      loadN_storeN_disjoint, loadN_storeN]
  · exact hsize
  · cases free <;> rfl
  · cases free <;> rfl
  · exact hnext

theorem mark_frame (mem : Memory) (a v w x : Nat) (hx : ¬ InSpan (a, 24) x) :
    setMagic (setIsFree mem a v) a w x = mem x := by
  rw [(setters_frame _ _ hx).2.1, (setters_frame _ _ hx).2.2.1]

/-- Changing the size and the link of a block. -/
theorem resize_spec (q size next : Nat) (h : Piece mem b.addr [b] q) (hsize : size < 2 ^ 64)
    (hnext : next < 2 ^ 64) :
    Piece (setNext (setSize mem b.addr size) b.addr next) b.addr [{ b with size := size }]
      next := by
  rw [piece_singleton] at h
  rw [piece_singleton (b := { b with size := size })]
  rcases h with ⟨⟨_, hmagic, hfree⟩, _⟩
  refine ⟨⟨?_, ?_, ?_⟩, ?_⟩ <;>
    simp (disch := omega) only [hdrSize, hdrMagic, hdrIsFree, hdrNext, setSize, setNext,
      loadN_storeN_disjoint, loadN_storeN]
  · exact Nat.mod_eq_of_lt hsize
  · exact hmagic
  · exact hfree
  · exact Nat.mod_eq_of_lt hnext

/-- Changing the link of a block alone. -/
theorem relink_spec (q next : Nat) (h : Piece mem b.addr [b] q) (hnext : next < 2 ^ 64) :
    Piece (setNext mem b.addr next) b.addr [b] next := by
  rw [piece_singleton] at h ⊢
  rcases h with ⟨⟨hsize, hmagic, hfree⟩, _⟩
  refine ⟨⟨?_, ?_, ?_⟩, ?_⟩ <;>
    simp (disch := omega) only [hdrSize, hdrMagic, hdrIsFree, hdrNext, setNext,
      loadN_storeN_disjoint, loadN_storeN]
  · exact hsize
  · exact hmagic
  · exact hfree
  · exact Nat.mod_eq_of_lt hnext

theorem resize_frame (mem : Memory) {a : Nat} (v w : Nat) {x : Nat} (hx : ¬ InSpan (a, 24) x) :
    setNext (setSize mem a v) a w x = mem x := by
  rw [(setters_frame _ _ hx).2.2.2, (setters_frame _ _ hx).1]

end

section

variable {mem : Memory} {regions : List HeapRegion} {b : Block}

theorem sound_ne_zero (hb : b.Sound) : b.addr ≠ 0 := by
  have hle := hb.kernel_le
  unfold kernelVaOffset at hle
  omega

theorem hdrNext_lt (mem : Memory) (a : Nat) : hdrNext mem a < 2 ^ 64 := loadN_lt mem 8 (a + 16)

/-- Handing out a block leaves in memory the pieces it is cut into, and writes
    nothing outside the block. -/
theorem takeBlock_spec (b : Block) (q size : Nat) (hb : b.Sound) (hfits : b.fits size)
    (h : Piece mem b.addr [b] q) :
    Piece (takeBlock mem b.addr size) b.addr (b.cut size) q ∧
      ∀ x, ¬ InSpan b.span x → takeBlock mem b.addr size x = mem x := by
  rcases (piece_singleton q b).mp h with ⟨hheader, hq⟩
  have hend := hb.lt_end
  have hout : ∀ x, ¬ InSpan b.span x → ¬ InSpan (b.addr, 24) x :=
    fun x hx hc => hx (header_subset hc)
  unfold takeBlock Block.cut
  simp only [hheader.size_eq, sub64_of_le hfits.2 (by omega : b.size < 2 ^ 64)]
  split_ifs with hcut
  · simp only [blockHeaderSize] at hcut hend
    have hnew : wrap64 (b.addr + blockHeaderSize + size) = b.addr + blockHeaderSize + size :=
      Nat.mod_eq_of_lt (by unfold blockHeaderSize; omega)
    simp only [splitBlock, hnew, sub64_of_le (Nat.le_of_lt (by unfold blockHeaderSize; omega) :
      blockHeaderSize ≤ b.size - size) (by omega)]
    set rest : Block :=
      ⟨b.addr + blockHeaderSize + size, b.size - size - blockHeaderSize, true⟩ with hrest
    have hrest_lt : rest.addr < 2 ^ 64 ∧ rest.size < 2 ^ 64 := by
      simp only [hrest, blockHeaderSize]
      omega
    -- The two headers do not overlap, and both lie in the block.
    have happ : ∀ x, InSpan (rest.addr, 24) x → ¬ InSpan (b.addr, 24) x ∧ InSpan b.span x := by
      simp only [InSpan, Block.span, hrest, blockHeaderSize]
      omega
    have hfree : ∀ x, ¬ InSpan (rest.addr, 24) x → setFree mem rest.addr rest.size x = mem x ∧
        setNext (setFree mem rest.addr rest.size) rest.addr q x = mem x :=
      fun x hx => setFree_frame mem rest.size q hx
    have hother : ∀ x, InSpan b.header x → ¬ InSpan (rest.addr, 24) x :=
      fun x hx hc => (happ x hc).1 hx
    have hlink : hdrNext (setFree mem rest.addr rest.size) b.addr = q :=
      (header_frame b fun x hx => (hfree x (hother x hx)).1).2.trans hq
    rw [hlink]
    have hpiece2 := setFree_spec mem rest.addr hrest_lt.2 (hq ▸ hdrNext_lt mem b.addr)
    have hpiece1 : Piece (setNext (setFree mem rest.addr rest.size) rest.addr q) b.addr [b] q :=
      piece_frame b.addr q [b] (fun c hc x hx => by
        rw [mem_singleton.mp hc] at hx
        exact (hfree x (hother x hx)).2) h
    have hframe2 : ∀ x, ¬ InSpan b.span x →
        setNext (setFree mem rest.addr rest.size) rest.addr q x = mem x :=
      fun x hx => (hfree x fun hc => hx (happ x hc).2).2
    generalize setNext (setFree mem rest.addr rest.size) rest.addr q = mem2
      at hpiece1 hpiece2 hframe2 ⊢
    -- From here on only the header of the block itself is written.
    have hresize := resize_spec b q size rest.addr hpiece1 (by omega) hrest_lt.1
    have hmark := mark_spec { b with size := size } rest.addr hresize false
    have hframe : ∀ x, ¬ InSpan (b.addr, 24) x →
        setMagic (setIsFree (setNext (setSize mem2 b.addr size) b.addr rest.addr) b.addr 0) b.addr
          blockMagicAlloc x = mem2 x := by
      intro x hx
      rw [mark_frame _ b.addr _ _ x hx, resize_frame _ _ _ hx]
    constructor
    · refine (piece_append b.addr q [⟨b.addr, size, false⟩] [rest]).mpr ⟨rest.addr, hmark, ?_⟩
      refine piece_frame rest.addr q [rest] (fun c hc x hx => hframe x ?_) hpiece2
      rw [mem_singleton.mp hc] at hx
      exact (happ x hx).1
    · intro x hx
      rw [hframe x (hout x hx), hframe2 x hx]
  · exact ⟨mark_spec b q h false, fun x hx => mark_frame mem b.addr _ _ x (hout x hx)⟩

/-- A stretch of blocks does not start at null. -/
theorem piece_ne_zero {p : Nat} {bs : List Block} (h : Piece mem p (b :: bs) 0)
    (hsound : ∀ c ∈ b :: bs, c.Sound) : p ≠ 0 := by
  rw [((piece_cons p 0 b bs).mp h).1]
  exact sound_ne_zero (hsound b mem_cons_self)

/-- The search finds the first block that fits, or there is none. -/
theorem findFit_spec (size : Nat) (bs : List Block) : ∀ p fuel, Piece mem p bs 0 →
    (∀ b ∈ bs, b.Sound) → bs.length < fuel →
    (findFit mem size fuel p = some 0 ∧ ∀ b ∈ bs, ¬ b.fits size) ∨
    ∃ as b cs, bs = as ++ b :: cs ∧ b.fits size ∧ (∀ a ∈ as, ¬ a.fits size) ∧
      findFit mem size fuel p = some b.addr := by
  induction bs with
  | nil =>
    intro p fuel h _ hfuel
    rcases fuel with _ | fuel
    · omega
    left
    rw [findFit, if_pos ((piece_nil p 0).mp h)]
    exact ⟨rfl, nofun⟩
  | cons b bs ih =>
    intro p fuel h hsound hfuel
    rw [forall_mem_cons] at hsound
    rcases fuel with _ | fuel
    · omega
    rcases (piece_cons p 0 b bs).mp h with ⟨hp, hb, hbs⟩
    have hne := sound_ne_zero hsound.1
    -- The test on the header is the test on the block.
    have htest : (hdrIsFree mem b.addr ≠ 0 ∧ hdrSize mem b.addr ≥ size) ↔ b.fits size := by
      rw [headerOk_isFree hb, hb.size_eq]
      rfl
    rw [hp, findFit, if_neg hne]
    by_cases hfit : b.fits size
    · right
      rw [if_pos (htest.mpr hfit)]
      exact ⟨[], b, bs, rfl, hfit, nofun, rfl⟩
    · rw [if_neg (fun hc => hfit (htest.mp hc))]
      rcases ih _ fuel hbs hsound.2 (Nat.lt_of_succ_lt_succ hfuel) with
        ⟨hnone, hall⟩ | ⟨as, c, cs, hsplit, hc, hall, hfound⟩
      · exact .inl ⟨hnone, forall_mem_cons.mpr ⟨hfit, hall⟩⟩
      · refine .inr ⟨b :: as, c, cs, by rw [hsplit, cons_append], hc, ?_, hfound⟩
        exact forall_mem_cons.mpr ⟨hfit, hall⟩

/-- The walk to the end of the list arrives at its last block. -/
theorem tailLoop_spec (as : List Block) (b : Block) : ∀ p fuel, Piece mem p (as ++ [b]) 0 →
    (∀ c ∈ as ++ [b], c.Sound) → (as ++ [b]).length < fuel →
    tailLoop mem fuel p = some b.addr := by
  induction as with
  | nil =>
    intro p fuel h hsound hfuel
    rcases fuel with _ | fuel
    · omega
    rcases (piece_cons p 0 b []).mp h with ⟨hp, _, hend⟩
    rw [hp, tailLoop, if_neg (sound_ne_zero (hsound b (mem_singleton_self b))),
      if_neg (not_not.mpr ((piece_nil _ 0).mp hend))]
  | cons a as ih =>
    intro p fuel h hsound hfuel
    rcases fuel with _ | fuel
    · omega
    rcases (piece_cons p 0 a (as ++ [b])).mp h with ⟨hp, _, hrest⟩
    have hsound' := fun c hc => hsound c (mem_cons_of_mem a hc)
    -- The list goes on, so the link is to a block and not null.
    have hnext : hdrNext mem a.addr ≠ 0 := by
      cases as with
      | nil => exact piece_ne_zero hrest hsound'
      | cons c cs => exact piece_ne_zero hrest hsound'
    rw [hp, tailLoop, if_neg (sound_ne_zero (hsound a mem_cons_self)), if_pos hnext]
    exact ih _ fuel hrest hsound' (Nat.lt_of_succ_lt_succ hfuel)

/-- A link stored in the last block of a stretch moves its end. -/
theorem link_spec {as : List Block} {p q v : Nat} (hl : Layout regions (as ++ [b]))
    (hv : v < 2 ^ 64) (h : Piece mem p (as ++ [b]) q) :
    Piece (setNext mem b.addr v) p (as ++ [b]) v := by
  have hframe : ∀ x, ¬ InSpan b.span x → setNext mem b.addr v x = mem x :=
    fun x hx => (setters_frame mem v fun hc => hx (header_subset hc)).2.2.2
  rcases (piece_append p q as [b]).mp h with ⟨m, has, hb⟩
  have hm : m = b.addr := hb.seg.1
  rw [hm] at has hb
  refine (piece_append p v as [b]).mpr ⟨b.addr, ?_, relink_spec b q v hb hv⟩
  exact piece_frame p b.addr as
    (fun c hc => frame_apart hl hframe c (mem_append_left [] hc)) has

end

section

variable {regions : List HeapRegion}

/-- The inner loop computes `absorb`. It writes to the header of its block only,
    and not even there unless the block is free. -/
theorem mergeLoop_spec (as rest : List Block) : ∀ b fuel mem,
    Layout regions (as ++ b :: rest) → Piece mem b.addr (b :: rest) 0 → rest.length < fuel →
    ∃ mem', mergeLoop fuel mem b.addr = some mem' ∧
      Piece mem' b.addr ((absorb b rest).1 :: (absorb b rest).2) 0 ∧
      ∀ x, (b.free = true → ¬ InSpan b.header x) → mem' x = mem x := by
  induction rest with
  | nil =>
    intro b fuel mem hl h hfuel
    rcases fuel with _ | fuel
    · omega
    have hend : hdrNext mem b.addr = 0 := ((piece_singleton 0 b).mp h).2
    refine ⟨mem, ?_, h, fun x _ => rfl⟩
    exact if_neg fun hc => hc.2.1 hend
  | cons c rest ih =>
    intro b fuel mem hl h hfuel
    rcases fuel with _ | fuel
    · omega
    rcases (piece_cons b.addr 0 b (c :: rest)).mp h with ⟨_, hb, hcrest⟩
    rcases (piece_cons _ 0 c rest).mp hcrest with ⟨hnext, hc, hrest⟩
    have hbs := layout_mem hl
    have hcs : c.Sound := hl.sound c (by simp)
    have hne := sound_ne_zero hcs
    have hsum : wrap64 (b.addr + blockHeaderSize + b.size)
        = b.addr + blockHeaderSize + b.size := Nat.mod_eq_of_lt hbs.lt_end
    unfold mergeLoop absorb
    simp only [hnext, headerOk_isFree hb, headerOk_isFree hc, hb.size_eq, hc.size_eq, hsum]
    by_cases hj : Joinable b c
    · have hjoin := (layout_join_iff as rest hj.2.2 hcs.addr_aligned hcs.size_aligned).mpr hl
      have hjsound := (layout_mem hjoin).lt_end
      have hgrow : b.size + (blockHeaderSize + c.size) < 2 ^ 64 := by
        simp only [Block.join] at hjsound
        omega
      rw [if_pos ⟨hj.1, hne, hj.2.1⟩, if_neg (not_not.mpr hj.2.2), if_pos hj]
      rw [show wrap64 (b.size + (blockHeaderSize + c.size))
        = b.size + (blockHeaderSize + c.size) from Nat.mod_eq_of_lt hgrow]
      set mem1 := setSize mem b.addr (b.size + (blockHeaderSize + c.size)) with hmem1
      have hframe1 : ∀ x, ¬ InSpan b.header x → mem1 x = mem x :=
        fun x hx => (setters_frame mem _ hx).1
      have hother : ∀ d ∈ c :: rest, ∀ x, InSpan d.header x → ¬ InSpan b.header x := by
        intro d hd x hx hxb
        exact apart_not_inSpan (layout_apart hl (mem_append_right as hd)) x
          (header_subset hx) (header_subset hxb)
      -- The link that is copied is still the one of the absorbed block.
      have hlink1 : hdrNext mem1 b.addr = c.addr := by
        rw [hmem1, ← hnext]
        simp (disch := omega) only [hdrNext, setSize, loadN_storeN_disjoint]
      have hlink2 : hdrNext mem1 c.addr = hdrNext mem c.addr :=
        (header_frame c fun x hx => hframe1 x (hother c mem_cons_self x hx)).2
      rw [hlink1, hlink2]
      have hgrown := resize_spec b c.addr _ (hdrNext mem c.addr)
        ((piece_singleton c.addr b).mpr ⟨hb, hnext⟩) hgrow (hdrNext_lt mem c.addr)
      have hframe2 : ∀ x, ¬ InSpan b.header x →
          setNext mem1 b.addr (hdrNext mem c.addr) x = mem x :=
        fun x hx => resize_frame mem _ _ hx
      have hpiece : Piece (setNext mem1 b.addr (hdrNext mem c.addr)) b.addr
          (b.join c :: rest) 0 := by
        refine (piece_append b.addr 0 [b.join c] rest).mpr ⟨_, hgrown, ?_⟩
        exact piece_frame _ 0 rest (fun d hd x hx =>
          hframe2 x (hother d (mem_cons_of_mem c hd) x hx)) hrest
      rcases ih (b.join c) fuel _ hjoin hpiece (Nat.lt_of_succ_lt_succ hfuel) with
        ⟨mem', hrun, hres, hframe⟩
      refine ⟨mem', hrun, hres, fun x hx => ?_⟩
      have hout := hx hj.1
      rw [hframe x (fun _ => hout), hframe2 x hout]
    · rw [if_neg hj]
      refine ⟨mem, ?_, h, fun x _ => rfl⟩
      by_cases hboth : b.free = true ∧ c.addr ≠ 0 ∧ c.free = true
      · rw [if_pos hboth, if_pos fun hadj => hj ⟨hboth.1, hboth.2.2, hadj⟩]
      · rw [if_neg hboth]

/-- The outer loop computes `coalesce`, and writes to the headers of free blocks
    only. -/
theorem coalesceLoop_spec (bound : Nat) (bs : List Block) : ∀ as p fuel mem,
    Layout regions (as ++ bs) → Piece mem p bs 0 → bs.length < fuel → bs.length ≤ bound →
    ∃ mem', coalesceLoop bound fuel mem p = some mem' ∧ Piece mem' p (coalesce bs) 0 ∧
      ∀ x, (∀ b ∈ bs, b.free = true → ¬ InSpan b.header x) → mem' x = mem x := by
  induction bs using coalesce.induct with
  | case1 =>
    intro as p fuel mem _ h hfuel _
    rcases fuel with _ | fuel
    · omega
    refine ⟨mem, ?_, by rwa [coalesce], fun x _ => rfl⟩
    rw [coalesceLoop, if_pos ((piece_nil p 0).mp h)]
  | case2 b rest ih =>
    intro as p fuel mem hl h hfuel hbound
    rcases fuel with _ | fuel
    · omega
    have hp : p = b.addr := h.seg.1
    subst hp
    rcases mergeLoop_spec as rest b bound mem hl h hbound with
      ⟨mem1, hmerge, hpiece1, hframe1⟩
    have habs := layout_absorb hl
    set b' := (absorb b rest).1 with hb'
    set rest' := (absorb b rest).2 with hrest'
    have haddr : b'.addr = b.addr := (absorb_spec b rest).1
    rcases (piece_cons b.addr 0 b' rest').mp hpiece1 with ⟨_, hhead, htail⟩
    rw [haddr] at htail
    have hlen := absorb_length b rest
    rw [← hrest'] at hlen
    simp only [length_cons] at hfuel hbound
    have hl' : Layout regions ((as ++ [b']) ++ rest') := by
      rw [← append_cons]
      exact habs
    rcases ih (as ++ [b']) (hdrNext mem1 b.addr) fuel mem1 hl' htail (by omega) (by omega)
      with ⟨mem2, hloop, hpiece2, hframe2⟩
    -- The rest of the walk writes to other headers than that of this block.
    have hkeep : ∀ x, InSpan b'.header x → mem2 x = mem1 x := by
      intro x hx
      refine hframe2 x fun c hc _ hxc => ?_
      exact apart_not_inSpan (layout_apart habs (mem_append_right as hc)) x
        (header_subset hxc) (header_subset hx)
    have hsame := header_frame b' hkeep
    refine ⟨mem2, ?_, ?_, fun x hx => ?_⟩
    · rw [coalesceLoop, if_neg (sound_ne_zero (layout_mem hl)), hmerge]
      exact hloop
    · rw [coalesce, piece_cons]
      refine ⟨haddr.symm, hsame.1 hhead, ?_⟩
      rw [hsame.2, haddr]
      exact hpiece2
    · rw [forall_mem_cons] at hx
      rw [hframe2 x fun c hc => hx.2 c ((absorb_spec b rest).2.2.2 c hc), hframe1 x hx.1]

end

/-- The payload bytes of the blocks with the given mark. -/
def payloadBytes (bs : List Block) (free : Bool) : Nat :=
  ((bs.filter fun b => b.free = free).map Block.size).sum

/-- The statistics walk adds up the sizes, as long as they fit 64 bits. -/
theorem sumBytes_spec {mem : Memory} (free : Bool) (bs : List Block) : ∀ p fuel total,
    Piece mem p bs 0 → (∀ b ∈ bs, b.Sound) → bs.length < fuel →
    total + payloadBytes bs free < 2 ^ 64 →
    sumBytes mem free fuel p total = some (total + payloadBytes bs free) := by
  induction bs with
  | nil =>
    intro p fuel total h _ hfuel _
    cases fuel with
    | zero => omega
    | succ fuel => rw [sumBytes, if_pos ((piece_nil p 0).mp h)]; rfl
  | cons b bs ih =>
    intro p fuel total h hsound hfuel hfits
    rw [forall_mem_cons] at hsound
    rcases fuel with _ | fuel
    · omega
    rcases (piece_cons p 0 b bs).mp h with ⟨hp, hb, hbs⟩
    have hmark : decide (hdrIsFree mem b.addr ≠ 0) = b.free := by
      rw [hb.isFree_eq]
      cases b.free <;> rfl
    rw [hp, sumBytes, if_neg (sound_ne_zero hsound.1)]
    simp only [hmark, hb.size_eq]
    unfold payloadBytes at hfits ⊢
    split_ifs with heq
    · simp only [filter_cons, heq, decide_true, if_true, map_cons,
        sum_cons] at hfits ⊢
      have hadd : wrap64 (total + b.size) = total + b.size :=
        Nat.mod_eq_of_lt (by omega)
      rw [hadd, ih _ fuel _ hbs hsound.2 (Nat.lt_of_succ_lt_succ hfuel)
        (by unfold payloadBytes; omega), payloadBytes, Nat.add_assoc]
    · simp only [filter_cons, heq]
        at hfits ⊢
      exact ih _ fuel _ hbs hsound.2 (Nat.lt_of_succ_lt_succ hfuel) hfits

end CortexForge.Heap
