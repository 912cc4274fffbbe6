import CortexForge.Theory.HeapCalls
import CortexForge.Theory.PmmSource

/-!
# The Heap over Any Sequence of Calls

`HeapSys` is the heap together with what its callers know, the pointers they
were given and have not given back. Between two calls the callers write to what
they were given, and other parts of the kernel take and return pages, none of
them the heap's.

That the list and the callers agree (`InOrder`) is kept by every step, so the
representation of the heap holds in every reachable state
(`heap_representation`), for any page allocator that keeps its contract. The
bitmap allocator is one.

## Main definitions

* `HeapSys`, `HeapStep`: The heap and its callers.
* `Serves`: The live pointers are those of the blocks in use.
* `Represents`: Everything the heap keeps true between calls.

## Theorems

* `inOrder_step`, `inOrder_reachable`: The list and the callers agree.
* `heap_representation`: The list, the callers and the next call together.
* `free_coalesces`: What a free leaves on the list.
-/

namespace CortexForge.Heap

open Relation List
open Pmm (pmmSource Allocator)

variable {σ : Type} (src : Pages σ)

/-- The heap, and the pointers its callers were given and have not given back,
    each with the size that was asked for. -/
structure HeapSys (σ : Type) where
  heap : Heap σ
  live : List (Nat × Nat)

/-- What callers may pass to `kfree`. -/
def MayFree (s : HeapSys σ) (p : Nat) : Prop := p = 0 ∨ p ∈ s.live.map Prod.fst

/-- The physical page lies under one of the heap's regions. -/
def UnderHeap (h : Heap σ) (a : Nat) : Prop :=
  ∃ r ∈ h.regions, InSpan (spanOf r) (kernelVaOffset + a)

/-- One step of the heap and its surroundings: a call that returns, a write by
    the callers, or page traffic elsewhere in the kernel. -/
inductive HeapStep (s : HeapSys σ) : HeapSys σ → Prop
  | malloc (size r : Nat) (h : Heap σ) (hsize : size < 2 ^ 64)
      (hcall : kmalloc src s.heap size = some (h, r)) :
      HeapStep s ⟨h, if r = 0 then s.live else (r, size) :: s.live⟩
  | free (p : Nat) (h : Heap σ) (hp : MayFree s p) (hcall : kfree s.heap p = some h) :
      HeapStep s ⟨h, s.live.filter fun e => e.1 ≠ p⟩
  -- Callers write to the bytes they asked for; the rest of memory is not the heap's.
  | write (mem : Memory)
      (hmem : ∀ x, (∃ r ∈ s.heap.regions, InSpan (spanOf r) x) →
        (∀ e ∈ s.live, ¬ InSpan e x) → mem x = s.heap.mem x) :
      HeapStep s ⟨{ s.heap with mem := mem }, s.live⟩
  -- Others take pages and return pages, but only their own.
  | pages (pmm : σ)
      (hpages : ∀ a, UnderHeap s.heap a → src.Held s.heap.pmm a → src.Held pmm a) :
      HeapStep s ⟨{ s.heap with pmm := pmm }, s.live⟩

/-- The live pointers are those of the blocks in use, with room for what was
    asked for. -/
structure Serves (live : List (Nat × Nat)) (bs : List Block) : Prop where
  pointers : (live.map Prod.fst).Perm ((used bs).map fun b => b.addr + blockHeaderSize)
  room : ∀ e ∈ live, ∃ b ∈ used bs, e.1 = b.addr + blockHeaderSize ∧ e.2 ≤ b.size

section

variable {src} {s s' : HeapSys σ} {bs bs' : List Block} {live : List (Nat × Nat)}
  {regions : List HeapRegion}

theorem serves_grant {size r : Nat} (hs : Serves live bs) (hgrant : Granted size r bs bs') :
    Serves (if r = 0 then live else (r, size) :: live) bs' := by
  rcases hgrant with ⟨hzero, hsame⟩ | ⟨blk, haddr, hne, hsize, hperm⟩
  · rw [if_pos hzero]
    exact ⟨hsame ▸ hs.pointers, hsame ▸ hs.room⟩
  · rw [if_neg hne]
    refine ⟨?_, ?_⟩
    · refine List.Perm.trans ?_ (hperm.map _).symm
      rw [map_cons, haddr]
      exact hs.pointers.cons _
    · rw [forall_mem_cons]
      refine ⟨⟨blk, hperm.mem_iff.mpr mem_cons_self, haddr, hsize⟩, fun e he => ?_⟩
      rcases hs.room e he with ⟨b, hb, hroom⟩
      exact ⟨b, hperm.mem_iff.mpr (mem_cons_of_mem blk hb), hroom⟩

/-- Blocks at different places have different payloads. -/
theorem used_nodup (hl : Layout regions bs) :
    ((used bs).map fun b => b.addr + blockHeaderSize).Nodup := by
  have hpair : bs.Pairwise fun b c => b.addr + blockHeaderSize ≠ c.addr + blockHeaderSize := by
    refine (pairwise_map.mp hl.tiles.apart).imp fun hapart heq => ?_
    unfold Apart Block.span blockHeaderSize at hapart
    omega
  exact pairwise_map.mpr (hpair.sublist filter_sublist)

theorem serves_release {b : Block} (hl : Layout regions bs) (hs : Serves live bs)
    (hperm : (used bs).Perm (b :: used bs')) :
    Serves (live.filter fun e => e.1 ≠ b.addr + blockHeaderSize) bs' := by
  have hnodup := ((hperm.map _).nodup_iff).mp (used_nodup hl)
  rw [map_cons, nodup_cons] at hnodup
  have hexact := hs.pointers.trans (hperm.map _)
  refine ⟨?_, fun e he => ?_⟩
  · -- Filtering both sides takes the freed pointer away and nothing else.
    have hfilter := hexact.filter fun p => p ≠ b.addr + blockHeaderSize
    have hkeep : ((used bs').map fun c => c.addr + blockHeaderSize).filter
        (fun p => p ≠ b.addr + blockHeaderSize)
        = (used bs').map fun c => c.addr + blockHeaderSize := by
      rw [filter_eq_self]
      intro p hp
      exact decide_eq_true fun heq => hnodup.1 (heq ▸ hp)
    rw [map_cons, filter_cons_of_neg (by simp), hkeep, filter_map] at hfilter
    exact hfilter
  · rw [mem_filter, decide_eq_true_iff] at he
    rcases hs.room e he.1 with ⟨c, hc, haddr, hroom⟩
    rcases mem_cons.mp (hperm.mem_iff.mp hc) with heq | hc'
    · exact absurd (heq ▸ haddr) he.2
    · exact ⟨c, hc', haddr, hroom⟩

/-- The list and the callers agree, and the list jumps at most once for every
    region. -/
def InOrder (src : Pages σ) (s : HeapSys σ) : Prop :=
  ∃ bs, HeapOk src s.heap bs ∧ Serves s.live bs ∧ breaks 0 bs ≤ s.heap.regions.length

/-- A pointer that may be freed is null or that of a block in use. -/
theorem mayFree_cases (hs : Serves s.live bs) {p : Nat} (hp : MayFree s p) :
    p = 0 ∨ ∃ b ∈ used bs, p = b.addr + blockHeaderSize := by
  rcases hp with hzero | hlive
  · exact .inl hzero
  · rcases mem_map.mp (hs.pointers.mem_iff.mp hlive) with ⟨b, hb, heq⟩
    exact .inr ⟨b, hb, heq.symm⟩

theorem kfree_null (h : Heap σ) : kfree h 0 = some h := if_pos rfl

/-- What the callers write lies in payloads, where no header is. -/
theorem heapOk_write (hok : HeapOk src s.heap bs) (hs : Serves s.live bs) (mem : Memory)
    (hmem : ∀ x, (∃ r ∈ s.heap.regions, InSpan (spanOf r) x) →
      (∀ e ∈ s.live, ¬ InSpan e x) → mem x = s.heap.mem x) :
    HeapOk src { s.heap with mem := mem } bs := by
  refine ⟨piece_frame _ 0 bs (fun c hc x hx => ?_) hok.list, hok.layout, hok.few, hok.regions⟩
  refine hmem x (block_in_region hok hc x (header_subset hx)) fun e he hxe => ?_
  rcases hs.room e he with ⟨b, hb, haddr, hroom⟩
  refine payload_not_header hok.layout ((mem_used bs b).mp hb).1 hc x ?_ hx
  unfold InSpan at hxe
  unfold InSpan Block.payload
  omega

theorem heapOk_pages (hok : HeapOk src s.heap bs) (pmm : σ)
    (hpages : ∀ a, UnderHeap s.heap a → src.Held s.heap.pmm a → src.Held pmm a) :
    HeapOk src { s.heap with pmm := pmm } bs := by
  refine ⟨hok.list, hok.layout, hok.few, fun r hr => ?_⟩
  rcases hok.regions r hr with ⟨phys, pages, hheld⟩
  refine ⟨phys, pages, regionHeld_mono hheld fun i hi => hpages _ ⟨r, hr, ?_⟩⟩
  have hstart := hheld.start_eq
  have hsize := hheld.size_eq
  have hstep := Nat.mul_le_mul_right pageSize hi
  rw [Nat.succ_mul] at hstep
  have hpage : 0 < pageSize := Nat.succ_pos 4095
  unfold InSpan spanOf
  omega

theorem inOrder_step (h : InOrder src s) (hstep : HeapStep src s s') :
    InOrder src s' ∧ s'.heap.heapHead = s.heap.heapHead := by
  rcases h with ⟨bs, hok, hs, hfew⟩
  cases hstep with
  | malloc size r h _ hcall =>
    rcases (kmalloc_spec hok size).2 h r hcall with ⟨hhead, bs', hok', hgrant, hspread, _⟩
    exact ⟨⟨bs', hok', serves_grant hs hgrant, hspread.few hfew⟩, hhead⟩
  | free p h hp hcall =>
    rcases mayFree_cases hs hp with hzero | ⟨b, hb, heq⟩
    · rw [hzero, kfree_null, Option.some.injEq] at hcall
      rw [← hcall, hzero]
      refine ⟨⟨bs, hok, ?_, hfew⟩, rfl⟩
      -- No live pointer is null, so nothing leaves the list.
      have hall : s.live.filter (fun e => e.1 ≠ 0) = s.live := by
        rw [filter_eq_self]
        intro e he
        rcases hs.room e he with ⟨b, _, haddr, _⟩
        rw [haddr]
        exact decide_eq_true (Nat.succ_ne_zero _)
      simp only [hall]
      exact hs
    · subst heq
      rcases kfree_spec hok hb with ⟨h', hrun, hhead, bs', hok', hperm, hspread, _⟩
      rw [hrun, Option.some.injEq] at hcall
      rw [← hcall]
      exact ⟨⟨bs', hok', serves_release hok.layout hs hperm, hspread.few hfew⟩, hhead⟩
  | write mem hmem => exact ⟨⟨bs, heapOk_write hok hs mem hmem, hs, hfew⟩, rfl⟩
  | pages pmm hpages => exact ⟨⟨bs, heapOk_pages hok pmm hpages, hs, hfew⟩, rfl⟩

/-- The heap before `heapInit`. -/
structure Unstarted (h : Heap σ) : Prop where
  head_eq : h.heapHead = 0
  regions_eq : h.regions = []

theorem inOrder_reachable {h : Heap σ} (hstart : Unstarted h)
    (hreach : ReflTransGen (HeapStep src) ⟨heapInit src h, []⟩ s) :
    InOrder src s ∧ s.heap.heapHead = (heapInit src h).heapHead := by
  induction hreach with
  | refl =>
    rcases @heapInit_spec σ src h hstart.head_eq hstart.regions_eq with ⟨bs, hok, hused, hspread⟩
    refine ⟨⟨bs, hok, ⟨?_, nofun⟩, hspread.few (Nat.zero_le _)⟩, rfl⟩
    rw [hused]
    exact List.Perm.nil
  | tail _ hstep ih =>
    rcases inOrder_step ih.1 hstep with ⟨hord, hhead⟩
    exact ⟨hord, hhead.trans ih.2⟩

end

/-- Everything the heap keeps true between calls, of the list of its blocks. -/
structure Represents (s : HeapSys σ) (bs : List Block) : Prop where
  /-- The list ends, and no block comes twice. -/
  linked : Linked (hdrNext s.heap.mem) 0 s.heap.heapHead (bs.map Block.addr)
  nodup : (bs.map Block.addr).Nodup
  /-- The blocks are disjoint and fill the regions. -/
  apart : bs.Pairwise fun b c => Apart b.span c.span
  cover : ∀ x, (∃ b ∈ bs, InSpan b.span x) ↔ ∃ r ∈ s.heap.regions, InSpan (spanOf r) x
  aligned : ∀ b ∈ bs, b.addr % heapAlign = 0 ∧ b.size % heapAlign = 0
  /-- The size, the flag and the magic number in memory are those of the block. -/
  headers : ∀ b ∈ bs, HeaderOk s.heap.mem b
  serves : Serves s.live bs
  accounting : ∃ usedBytes freeBytes, heapUsedBytes s.heap = some usedBytes ∧
    heapFreeBytes s.heap = some freeBytes ∧
    usedBytes + freeBytes + blockHeaderSize * bs.length = heapTotalBytes s.heap

section

variable {src} {s : HeapSys σ} {bs : List Block}

/-- The payloads and the headers are all there is. -/
theorem payloadBytes_sum (bs : List Block) :
    payloadBytes bs false + payloadBytes bs true + blockHeaderSize * bs.length
      = ((bs.map Block.span).map Prod.snd).sum := by
  induction bs with
  | nil => rfl
  | cons b bs ih =>
    unfold payloadBytes at ih ⊢
    rcases b with ⟨addr, size, free⟩
    cases free <;>
      simp only [filter_cons, decide_true, decide_false, if_true, Bool.false_eq_true,
        Bool.true_eq_false, if_false, map_cons, sum_cons, length_cons,
        Block.span, Nat.mul_succ] at ih ⊢ <;>
      omega

theorem bytes_of_ok {h : Heap σ} (hok : HeapOk src h bs) :
    heapUsedBytes h = some (payloadBytes bs false) ∧
    heapFreeBytes h = some (payloadBytes bs true) ∧
    payloadBytes bs false + payloadBytes bs true + blockHeaderSize * bs.length
      = heapTotalBytes h := by
  have hsum := payloadBytes_sum bs
  rw [hok.layout.tiles.total] at hsum
  rcases heapTotalBytes_eq hok with ⟨htotal, hlt⟩
  have hlen := length_lt_walkBound hok
  refine ⟨?_, ?_, htotal ▸ hsum⟩
  · simp [heapUsedBytes, sumBytes_spec false bs _ _ 0 hok.list hok.layout.sound hlen (by omega)]
  · simp [heapFreeBytes, sumBytes_spec true bs _ _ 0 hok.list hok.layout.sound hlen (by omega)]

theorem represents_of_ok (hok : HeapOk src s.heap bs) (hs : Serves s.live bs) :
    Represents s bs := by
  have hlinked : Linked (hdrNext s.heap.mem) 0 s.heap.heapHead (bs.map Block.addr) := by
    refine ⟨hok.list.seg, fun hzero => ?_⟩
    rcases mem_map.mp hzero with ⟨b, hb, heq⟩
    exact sound_ne_zero (hok.layout.sound b hb) heq
  refine
    { linked := hlinked
      nodup := linked_nodup hlinked
      apart := pairwise_map.mp hok.layout.tiles.apart
      cover := fun x => ?_
      aligned := fun b hb =>
        ⟨(hok.layout.sound b hb).addr_aligned, (hok.layout.sound b hb).size_aligned⟩
      headers := hok.list.header
      serves := hs
      accounting := ⟨payloadBytes bs false, payloadBytes bs true, bytes_of_ok hok⟩ }
  have hcover := hok.layout.tiles.cover x
  simp only [mem_map, exists_exists_and_eq_and] at hcover
  exact hcover

end

/-- Over any sequence of calls with pointers that are null or live, whatever the
    callers write into what they were given and whatever pages move elsewhere:
    the block list is a finite tiling of the regions with headers that agree,
    the live pointers are exactly the payloads of the blocks in use, and no
    call writes into one of them. Every call returns, unless there never was a
    heap. -/
theorem heap_representation (h : Heap σ) (hstart : Unstarted h) (s : HeapSys σ)
    (hreach : ReflTransGen (HeapStep src) ⟨heapInit src h, []⟩ s) :
    ∃ bs, Represents s bs ∧
      (∀ b ∈ used bs, ∀ x, InSpan b.payload x →
        (∀ size h' r, kmalloc src s.heap size = some (h', r) → h'.mem x = s.heap.mem x) ∧
        (∀ p h', MayFree s p → kfree s.heap p = some h' → h'.mem x = s.heap.mem x)) ∧
      ((heapInit src h).heapHead ≠ 0 →
        (∀ size, (kmalloc src s.heap size).isSome) ∧
        ∀ p, MayFree s p → (kfree s.heap p).isSome) := by
  rcases inOrder_reachable hstart hreach with ⟨⟨bs, hok, hs, _⟩, hhead⟩
  refine ⟨bs, represents_of_ok hok hs, fun b hb x hx => ⟨?_, ?_⟩, fun hne => ⟨?_, ?_⟩⟩
  · intro size h' r hcall
    rcases (kmalloc_spec hok size).2 h' r hcall with ⟨_, _, _, _, _, hkept⟩
    exact hkept b hb x hx
  · intro p h' hp hcall
    rcases mayFree_cases hs hp with hzero | ⟨c, hc, heq⟩
    · rw [hzero, kfree_null, Option.some.injEq] at hcall
      rw [← hcall]
    · rcases kfree_spec hok hc with ⟨h'', hrun, _, _, _, _, _, _, hkept⟩
      rw [heq, hrun, Option.some.injEq] at hcall
      rw [← hcall]
      exact hkept b hb x hx
  · exact fun size => (kmalloc_spec hok size).1 (hhead ▸ hne)
  · intro p hp
    rcases mayFree_cases hs hp with hzero | ⟨c, hc, heq⟩
    · rw [hzero]
      rfl
    · rcases kfree_spec hok hc with ⟨h'', hrun, _⟩
      rw [heq, hrun]
      rfl

/-- After any sequence of calls, a free of a live pointer returns and leaves no
    two neighbours on the list that are free and touch. When it was the last
    live pointer, there are at most as many blocks as regions, and all that is
    not a header is free. -/
theorem free_coalesces (h : Heap σ) (hstart : Unstarted h) (s : HeapSys σ)
    (hreach : ReflTransGen (HeapStep src) ⟨heapInit src h, []⟩ s) (p : Nat)
    (hp : p ∈ s.live.map Prod.fst) :
    ∃ h' bs, kfree s.heap p = some h' ∧ Represents ⟨h', s.live.filter fun e => e.1 ≠ p⟩ bs ∧
      (bs.IsChain fun b c => ¬ Joinable b c) ∧
      (s.live.map Prod.fst = [p] → bs.length ≤ h'.regions.length ∧
        heapFreeBytes h' = some (heapTotalBytes h' - blockHeaderSize * bs.length)) := by
  rcases inOrder_reachable hstart hreach with ⟨⟨bs, hok, hs, hfew⟩, _⟩
  rcases mem_map.mp (hs.pointers.mem_iff.mp hp) with ⟨b, hb, rfl⟩
  rcases kfree_spec hok hb with ⟨h', hrun, _, bs', hok', hperm, hspread, hchain, _⟩
  refine ⟨h', bs', hrun, represents_of_ok hok' (serves_release hok.layout hs hperm), hchain,
    fun hlast => ?_⟩
  -- No block is in use any more.
  have hnone : used bs' = [] := by
    have hlen := hperm.length_eq
    have hone := hs.pointers.length_eq
    rw [hlast, length_map] at hone
    rw [length_cons, ← hone, length_singleton] at hlen
    exact length_eq_zero_iff.mp (by omega)
  have hfree : ∀ c ∈ bs', c.free = true := by
    intro c hc
    by_contra hinuse
    have hmem := (mem_used bs' c).mpr ⟨hc, by simpa using hinuse⟩
    rw [hnone] at hmem
    exact absurd hmem not_mem_nil
  constructor
  · have hstarts := breaks_eq_length hfree hchain 0 fun c hc =>
      (sound_ne_zero (hok'.layout.sound c (mem_of_mem_head? hc))).symm
    exact hstarts ▸ hspread.few hfew
  · rcases bytes_of_ok hok' with ⟨_, hbytes, hsum⟩
    have hzero : payloadBytes bs' false = 0 := by
      rw [payloadBytes, filter_eq_nil_iff.mpr fun c hc => by simp [hfree c hc]]
      rfl
    rw [hbytes, ← hsum, hzero, Nat.zero_add, Nat.add_sub_cancel]

section

/-- The block list, the region table and the page allocator are what they were. -/
def Untouched (h h' : Heap σ) : Prop :=
  h'.heapHead = h.heapHead ∧ h'.regions = h.regions ∧ h'.pmm = h.pmm ∧
    ∃ bs, Piece h.mem h.heapHead bs 0 ∧ Piece h'.mem h'.heapHead bs 0

/-- The heap can grow, and the size is one that passes the check of `kmalloc` and whose
    number of pages wraps in `heap_expand`. -/
structure Overgrows (h : Heap Allocator) (size : Nat) : Prop where
  started : h.heapHead ≠ 0
  wraps : 2 ^ 64 - 4128 < size
  accepted : size ≤ sizeMax - (heapAlign - 1)
  room : h.regions.length < heapMaxRegions
  pages : ∃ s, Pmm.FreeRun h.pmm.1 s heapExpandMinPages

variable {src} {h : Heap σ} {bs : List Block} {size : Nat}

theorem untouched_refl (hok : HeapOk src h bs) : Untouched h h :=
  ⟨rfl, rfl, rfl, bs, hok.list, hok.list⟩

theorem mallocLoop_fit (hok : HeapOk src h bs) (hfit : ∃ b ∈ bs, b.fits size) (n : Nat)
    (h' : Heap σ) : mallocLoop src size (n + 1) h ≠ some (h', 0) := by
  unfold mallocLoop
  rcases findFit_spec size bs h.heapHead (walkBound h) hok.list hok.layout.sound
    (length_lt_walkBound hok) with ⟨_, hno⟩ | ⟨as, b, cs, hbs, _, _, hfound⟩
  · rcases hfit with ⟨b, hb, hfits⟩
    exact absurd hfits (hno b hb)
  · have hb := hok.layout.sound b (hbs ▸ mem_append_right as mem_cons_self)
    have hend := hb.lt_end
    have hzero : wrap64 (b.addr + blockHeaderSize) ≠ 0 := by
      unfold wrap64 blockHeaderSize at *
      omega
    simp only [hfound, if_pos (sound_ne_zero hb)]
    exact fun hc => hzero (congrArg Prod.snd (Option.some.inj hc))

theorem mallocLoop_nofit (hok : HeapOk src h bs) (hno : ∀ b ∈ bs, ¬ b.fits size) (n : Nat) :
    mallocLoop src size (n + 1) h = match heapExpand src h size with
      | none => none
      | some (h', false) => some (h', 0)
      | some (h', true) => mallocLoop src size n h' := by
  rw [mallocLoop]
  rcases findFit_spec size bs h.heapHead (walkBound h) hok.list hok.layout.sound
    (length_lt_walkBound hok) with ⟨hnone, _⟩ | ⟨as, b, cs, hbs, hfits, _, _⟩
  · rw [hnone]
    rfl
  · exact absurd hfits (hno b (hbs ▸ mem_append_right as mem_cons_self))

/-- A block is smaller than the part of the address space above the kernel's base. -/
theorem huge_nofit (hok : HeapOk src h bs) (hbig : 2 ^ 64 - 4128 < size) :
    ∀ b ∈ bs, ¬ b.fits size := by
  intro b hb hfits
  have hle := hfits.2
  have hend := (hok.layout.sound b hb).lt_end
  have hlow := (hok.layout.sound b hb).kernel_le
  unfold kernelVaOffset at hlow
  omega

theorem expandPages_room (hsize : size ≤ 2 ^ 64 - 4128) :
    size ≤ expandPages size * pageSize - blockHeaderSize := by
  unfold expandPages wrap64 blockHeaderSize pageSize heapExpandMinPages
  simp only
  split <;> omega

theorem expandPages_wrapped (hbig : 2 ^ 64 - 4128 < size) (hlt : size < 2 ^ 64) :
    expandPages size = heapExpandMinPages := by
  unfold expandPages wrap64 blockHeaderSize pageSize heapExpandMinPages
  simp only
  split <;> omega

variable {h : Heap Allocator}

/-- An expansion that fails leaves nothing behind: the pages it got are back. -/
theorem expanded_false (hok : HeapOk pmmSource h bs) (hstart : h.pmm.1.memRegionStart ≠ 0)
    {h' : Heap Allocator} {bs' : List Block} {n : Nat} (hn : 1 ≤ n)
    (hhead : h'.heapHead = h.heapHead) (hok' : HeapOk pmmSource h' bs')
    (hexp : Expanded pmmSource h bs n h' bs' false) :
    Untouched h h' ∧
      (h.regions.length < heapMaxRegions → ∀ s, ¬ Pmm.FreeRun h.pmm.1 s n) := by
  have haddr : Pmm.Addressed h.pmm.1 := by
    have hbelow := h.pmm.2.below
    unfold physLimit at hbelow
    exact ⟨h.pmm.2.ok, by omega, by omega⟩
  rcases hexp with ⟨rfl, hregions, hpmm⟩
  have hsame : h'.pmm = h.pmm ∧
      (h.regions.length < heapMaxRegions → ∀ s, ¬ Pmm.FreeRun h.pmm.1 s n) := by
    rcases Pmm.allocatePages_lowest haddr.ok hn with ⟨hnone, hres⟩ | ⟨s, hs, _, hres⟩
    · have hgot : (pmmSource.allocatePages h.pmm n).2 = 0 := congrArg Prod.snd hres
      rcases hpmm with ⟨_, hpmm⟩ | ⟨_, hne, _⟩
      · exact ⟨hpmm.trans (Subtype.ext (congrArg Prod.fst hres)), fun _ => hnone⟩
      · exact absurd hgot hne
    · have hgot : Pmm.physAddr h.pmm.1 s ≠ 0 := by
        have hinside := hs.inside
        rw [Pmm.physAddr_eq h.pmm.2 s (by omega)]
        omega
      rcases hpmm with ⟨hzero, _⟩ | ⟨hfull, _, hpmm⟩
      · exact absurd ((congrArg Prod.snd hres).symm.trans hzero) hgot
      · refine ⟨hpmm.trans (Subtype.ext ?_), fun hroom => absurd hroom (Nat.not_lt.mpr hfull)⟩
        show Pmm.pmmFreePages (Pmm.pmmAllocatePages h.pmm.1 n).1
          (Pmm.pmmAllocatePages h.pmm.1 n).2 n = h.pmm.1
        rw [hres]
        exact Pmm.freePages_takeRun haddr hs
  exact ⟨⟨hhead, hregions, hsame.1, _, hok.list, hok'.list⟩, hsame.2⟩

end

/-- A refused allocation leaves the block list, the region table and the page allocator
    alone, unless the size is so large that the pages to grow by wrap around: then the
    heap has grown for nothing. -/
theorem failed_malloc_iff (h0 : Heap Allocator) (hstart : Unstarted h0) (s : HeapSys Allocator)
    (hreach : ReflTransGen (HeapStep pmmSource) ⟨heapInit pmmSource h0, []⟩ s)
    (hmem : s.heap.pmm.1.memRegionStart ≠ 0) (size : Nat) :
    (∀ h', kmalloc pmmSource s.heap size = some (h', 0) → Untouched s.heap h') ↔
      ¬ Overgrows s.heap size := by
  rcases inOrder_reachable hstart hreach with ⟨⟨bs, hok, _, _⟩, _⟩
  unfold kmalloc
  split_ifs with hzero hhuge
  · refine iff_of_true ?_ fun hc => absurd hc.wraps (by omega)
    rintro _ ⟨⟩
    exact untouched_refl hok
  · refine iff_of_true ?_ fun hc => Nat.not_le.mpr hhuge hc.accepted
    rintro _ ⟨⟩
    exact untouched_refl hok
  have hround : heapAlignUp size % heapAlign = 0 ∧ size ≤ heapAlignUp size ∧
      heapAlignUp size < 2 ^ 64 ∧ (size ≤ 2 ^ 64 - 4128 → heapAlignUp size ≤ 2 ^ 64 - 4128) := by
    unfold sizeMax heapAlign at hhuge
    unfold heapAlignUp wrap64 heapAlign
    omega
  generalize heapAlignUp size = need at hround
  rcases hround with ⟨halign, hle, hlt, hsmall⟩
  by_cases hfit : ∃ b ∈ bs, b.fits need
  · refine iff_of_true (fun h' hc => absurd hc (mallocLoop_fit hok hfit 1 h')) fun hc => ?_
    rcases hfit with ⟨b, hb, hfits⟩
    exact huge_nofit hok (Nat.lt_of_lt_of_le hc.wraps hle) b hb hfits
  have hno : ∀ b ∈ bs, ¬ b.fits need := fun b hb hc => hfit ⟨b, hb, hc⟩
  rw [mallocLoop_nofit hok hno]
  rcases heapExpand_spec hok need with ⟨hsome, hexp⟩
  rcases hrun : heapExpand pmmSource s.heap need with _ | ⟨h1, _ | _⟩
  · refine iff_of_true nofun fun hc => ?_
    have hret := hsome (head_ne_zero hok hc.started)
    rw [hrun] at hret
    cases hret
  · rcases hexp h1 false hrun with ⟨hhead, bs1, hok1, _, _, hfailed, _⟩
    rcases expanded_false hok hmem (expandPages_pos need) hhead hok1 hfailed with ⟨hsame, hpages⟩
    refine iff_of_true ?_ fun hc => ?_
    · rintro _ ⟨⟩
      exact hsame
    · rw [expandPages_wrapped (Nat.lt_of_lt_of_le hc.wraps hle) hlt] at hpages
      rcases hc.pages with ⟨k, hk⟩
      exact hpages hc.room k hk
  · rcases hexp h1 true hrun with ⟨_, bs1, hok1, _, _, ⟨hhead, hgot, hroom, hgrown, va, hbs1⟩, _⟩
    by_cases hbig : 2 ^ 64 - 4128 < size
    · -- No block can be that large, so the second attempt fails too and the region stays.
      have hwrapped := Nat.lt_of_lt_of_le hbig hle
      have hkept : ∃ h', mallocLoop pmmSource need 1 h1 = some (h', 0) ∧
          h1.regions.length ≤ h'.regions.length := by
        rw [mallocLoop_nofit hok1 (huge_nofit hok1 hwrapped)]
        rcases heapExpand_spec hok1 need with ⟨hsome1, hexp1⟩
        rcases hrun1 : heapExpand pmmSource h1 need with _ | ⟨h2, _ | _⟩
        · have hret := hsome1 (hbs1 ▸ append_ne_nil_of_right_ne_nil bs (cons_ne_nil _ _))
          rw [hrun1] at hret
          cases hret
        · rcases hexp1 h2 false hrun1 with ⟨_, _, _, _, _, ⟨_, hsame, _⟩, _⟩
          exact ⟨h2, rfl, Nat.le_of_eq (congrArg length hsame.symm)⟩
        · rcases hexp1 h2 true hrun1 with ⟨_, _, _, _, _, ⟨_, _, _, hlen, _⟩, _⟩
          exact ⟨h2, rfl, by omega⟩
      rcases hkept with ⟨h', hret, hlen⟩
      refine iff_of_false (fun hall => ?_)
        (not_not.mpr ⟨hhead, hbig, Nat.not_lt.mp hhuge, hroom, ?_⟩)
      · have hsame := congrArg length (hall h' hret).2.1
        omega
      · rw [expandPages_wrapped hwrapped hlt] at hgot
        rcases Pmm.allocatePages_lowest s.heap.pmm.2.ok (by decide : 1 ≤ heapExpandMinPages) with
          ⟨_, hres⟩ | ⟨k, hk, _⟩
        · exact absurd (congrArg Prod.snd hres) hgot
        · exact ⟨k, hk⟩
    · -- The new region has room for the block.
      refine iff_of_true (fun h' hc => absurd hc (mallocLoop_fit hok1 ?_ 0 h')) fun hc =>
        hbig hc.wraps
      refine ⟨regionBlock va (expandPages need * pageSize), ?_, rfl, ?_⟩
      · rw [hbs1]
        exact mem_append_right bs (mem_singleton_self _)
      · exact expandPages_room (hsmall (Nat.not_lt.mp hbig))

theorem malloc_step (h h' : Heap σ) (size r : Nat) (hsize : size < 2 ^ 64) (hr : r ≠ 0)
    (hcall : kmalloc src h size = some (h', r)) : HeapStep src ⟨h, []⟩ ⟨h', [(r, size)]⟩ := by
  have hstep : HeapStep src ⟨h, []⟩ ⟨h', if r = 0 then [] else [(r, size)]⟩ :=
    HeapStep.malloc size r h' hsize hcall
  rwa [if_neg hr] at hstep

/-- Two MiB of memory behind a small kernel. -/
def bootPmm : Allocator :=
  ⟨Pmm.pmmInit 0x40000800 (fun _ => 0) 0x40000000 0x200000,
    ⟨Pmm.pmmInit_ok (by decide) (by decide) (by decide) (by decide) (by decide),
      by decide⟩⟩

def bootHeap : Heap Allocator :=
  { mem := fun _ => 0#8, heapHead := 0, regions := [], pmm := bootPmm }

theorem boot_allocates : ∃ h,
    kmalloc pmmSource (heapInit pmmSource bootHeap) 100 = some (h, 0xFFFF000040002020) ∧
      ReflTransGen (HeapStep pmmSource) ⟨heapInit pmmSource bootHeap, []⟩
        ⟨h, [(0xFFFF000040002020, 100)]⟩ := by
  have hret : (kmalloc pmmSource (heapInit pmmSource bootHeap) 100).map Prod.snd
      = some 0xFFFF000040002020 := by decide +kernel
  rcases Option.map_eq_some_iff.mp hret with ⟨⟨h, r⟩, hcall, hr⟩
  have hr' : r = 0xFFFF000040002020 := hr
  subst hr'
  exact ⟨h, hcall, .single
    (malloc_step pmmSource _ h 100 _ (by decide) (by decide) hcall)⟩

/-- The heap on that memory after one allocation of a hundred bytes. -/
theorem heap_representation_boot : ∃ h bs,
    kmalloc pmmSource (heapInit pmmSource bootHeap) 100 = some (h, 0xFFFF000040002020) ∧
      Represents ⟨h, [(0xFFFF000040002020, 100)]⟩ bs := by
  rcases boot_allocates with ⟨h, hcall, hreach⟩
  rcases heap_representation pmmSource bootHeap ⟨rfl, rfl⟩ _ hreach with ⟨bs, hrep, _⟩
  exact ⟨h, bs, hcall, hrep⟩

/-- The hundred bytes are given back. -/
theorem free_coalesces_boot : ∃ h h' bs,
    kmalloc pmmSource (heapInit pmmSource bootHeap) 100 = some (h, 0xFFFF000040002020) ∧
      kfree h 0xFFFF000040002020 = some h' ∧ Represents ⟨h', []⟩ bs ∧
      bs.length ≤ h'.regions.length ∧
      heapFreeBytes h' = some (heapTotalBytes h' - blockHeaderSize * bs.length) := by
  rcases boot_allocates with ⟨h, hcall, hreach⟩
  rcases free_coalesces pmmSource bootHeap ⟨rfl, rfl⟩ _ hreach 0xFFFF000040002020
    (mem_singleton_self _) with ⟨h', bs, hfree, hrep, _, hlast⟩
  exact ⟨h, h', bs, hcall, hfree, hrep, hlast rfl⟩

/-- A request for all of memory but the last bytes is refused, and two regions are
    added. -/
theorem failed_malloc_grows : ∃ h,
    kmalloc pmmSource (heapInit pmmSource bootHeap) (2 ^ 64 - 16) = some (h, 0) ∧
      h.regions.length = 3 ∧ ¬ Untouched (heapInit pmmSource bootHeap) h := by
  have hret : (kmalloc pmmSource (heapInit pmmSource bootHeap) (2 ^ 64 - 16)).map
      (fun r => (r.1.regions.length, r.2)) = some (3, 0) := by decide +kernel
  rcases Option.map_eq_some_iff.mp hret with ⟨⟨h, r⟩, hcall, hr⟩
  rcases Prod.mk.inj hr with ⟨hlen, rfl⟩
  refine ⟨h, hcall, hlen, fun hc => ?_⟩
  have hone : (heapInit pmmSource bootHeap).regions.length = 1 := by decide +kernel
  rw [← hc.2.1, hlen] at hone
  cases hone

/-- A request that the heap has no room for leaves no trace. -/
theorem failed_malloc_iff_boot :
    ¬ Overgrows (heapInit pmmSource bootHeap) (2 ^ 40) ∧
      ∀ h, kmalloc pmmSource (heapInit pmmSource bootHeap) (2 ^ 40) = some (h, 0) →
        Untouched (heapInit pmmSource bootHeap) h := by
  have hstart : (heapInit pmmSource bootHeap).pmm.1.memRegionStart = 0x40000000 := by
    decide +kernel
  generalize hboot : heapInit pmmSource bootHeap = h at hstart ⊢
  have hsmall : ¬ Overgrows h (2 ^ 40) := fun hc => absurd hc.wraps (by decide)
  exact ⟨hsmall, (failed_malloc_iff bootHeap ⟨rfl, rfl⟩ ⟨h, []⟩ (hboot ▸ .refl)
    (by rw [hstart]; decide) (2 ^ 40)).mpr hsmall⟩

end CortexForge.Heap
