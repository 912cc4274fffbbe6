import CortexForge.Theory.BlkDma

/-!
# Transfers and the Size of the Queue

A transfer is cut into requests by the limits of the device, and by the size that the
driver's tables were compiled for. The queue has the size that was negotiated. Where it
is smaller, a request can have more segments than there are descriptors, and is refused
although none of them is in use.

## Main definitions

* `Steady`: Requests that are answered give their descriptors back.
* `largestReq`: The most sectors whose bytes a request can ask for.
* `AtRest`, `Reaps`: The queue between requests, and waits that reap completions.

## Theorems

* `retry_ready`, `loop_ready`: A request that fits, and a transfer of such requests.
* `transfer_fits_iff`: The devices on which every transfer fits.
* `reaps_steady`: A device whose completions are reaped is steady.
-/

namespace CortexForge.Blk

open Virtqueue Traced List

/-- All descriptors are free. -/
structure Idle (size : Nat) (vq : Vq) : Prop where
  free : vq.numFree = size
  head : vq.freeHead ≠ virtqNoDesc

/-- The driver is between two requests, with the limits it started with. -/
structure Ready (Rests : Vq → Prop) (dev d : BlkDev) : Prop where
  rests : Rests d.vq
  sizeMax : d.sizeMax = dev.sizeMax

/-- Between requests the queue is one of `Rests`, all of which are idle: a request that is
    taken and answered leaves such a queue, and so does a reset, which does not change the
    size of segments either. -/
structure Steady {R : Type} (hw : BlkHardware R) (dev : BlkDev) (Rests : Vq → Prop) : Prop where
  start : Rests dev.vq
  idle : ∀ vq, Rests vq → Idle dev.vq.size vq
  answered : ∀ rest vq d r n, Rests vq →
    (virtqueueSubmitChain vq (blkSegs d r)).2 ≠ virtqNoDesc →
    (hw.wait rest (virtqueueSubmitChain vq (blkSegs d r)).1 n).2.2.2.1 = true →
    Rests (hw.wait rest (virtqueueSubmitChain vq (blkSegs d r)).1 n).2.1
  reset : ∀ rest d, (blkResetDevice hw rest d).2.2 = true →
    Ready Rests dev (blkResetDevice hw rest d).2.1

/-- The queue has a descriptor for each segment of a request for `count` sectors. -/
def Fits (dev : BlkDev) (count : Nat) : Prop :=
  segCount dev.sizeMax (count * virtioBlkSectorSize % 2 ^ 32) + 2 ≤ dev.vq.size

/-- The sectors of the largest request. From `2 ^ 23` sectors on the number of bytes
    wraps, so no request asks for more. -/
def largestReq (dev : BlkDev) : Nat :=
  min (min (maxSectorsPerReq dev) dev.capacitySectors) (2 ^ 23 - 1)

variable {R : Type} {hw : BlkHardware R} {dev : BlkDev} {Rests : Vq → Prop}

theorem retry_ready (hsteady : Steady hw dev Rests) (hsize : 0 < dev.sizeMax) {r : BlkReq}
    (htype : r.type ≠ .tFlush) (hfits : Fits dev r.count) (attempts : Nat) : ∀ rest d,
    Ready Rests dev d → (value (blkSubmitRetry hw r attempts rest d)).2.2 ≠ .noSpc ∧
      ((value (blkSubmitRetry hw r attempts rest d)).2.2 = .success →
        Ready Rests dev (value (blkSubmitRetry hw r attempts rest d)).2.1) := by
  induction attempts with
  | zero => exact fun _ _ _ => ⟨nofun, nofun⟩
  | succ attempts ih =>
    intro rest d hd
    have hidle := hsteady.idle d.vq hd.rests
    have htakes : Takes d r := (takes_iff (hd.sizeMax ▸ hsize) htype).mpr
      ⟨by rw [hd.sizeMax, hidle.free]; exact hfits, hidle.head⟩
    have hanswered := hsteady.answered rest d.vq d.toVirtioBlk r d.completions hd.rests htakes
    rcases hwait : hw.wait rest (virtqueueSubmitChain d.vq (blkSegs d.toVirtioBlk r)).1
      d.completions with ⟨rest', vq, n, completed, status⟩
    rw [hwait] at hanswered
    have honce : value (blkSubmitOnce hw rest d r)
        = (rest', { d with vq := vq, completions := n }, if completed = false then .timedOut
            else if status ≠ virtioBlkSOk then .io else .success) := by
      unfold blkSubmitOnce
      rw [if_neg htakes, hwait]
      rfl
    simp only [blkSubmitRetry, value_bind, honce]
    cases completed with
    | true =>
      by_cases hok : status = virtioBlkSOk
      · simp [hok]
        exact ⟨hanswered rfl, hd.sizeMax⟩
      · simp [hok]
    | false =>
      -- The request timed out: after a reset it is made on an idle queue again.
      rcases hreset : blkResetDevice hw rest' { d with vq := vq, completions := n } with
        ⟨rest'', d', _ | _⟩
      · simp
      · have hready := hsteady.reset rest' { d with vq := vq, completions := n }
        rw [hreset] at hready
        simpa using ih rest'' d' (hready rfl)

theorem loop_ready (hsteady : Steady hw dev Rests) (hsize : 0 < dev.sizeMax) {type : ReqType}
    (htype : type ≠ .tFlush) {buf count maxSectors : Nat}
    (hfits : ∀ c, c ≤ maxSectors → c ≤ count → Fits dev c) (fuel : Nat) : ∀ done rest d,
    Ready Rests dev d →
    (value (blkRwLoop hw type buf count maxSectors fuel done rest d)).2.2 ≠ .noSpc := by
  induction fuel with
  | zero => exact fun _ _ _ _ => BlkResult.noConfusion
  | succ fuel ih =>
    intro done rest d hd
    unfold blkRwLoop
    by_cases hdone : done < count
    · rw [if_pos hdone]
      -- each chunk is within both bounds, and a request that succeeds leaves the driver ready
      have hchunk : Fits dev (if count - done > maxSectors then maxSectors else count - done) := by
        refine hfits _ ?_ ?_ <;> split <;> omega
      generalize (if count - done > maxSectors then maxSectors else count - done) = chunk
        at hchunk ⊢
      rcases retry_ready hsteady hsize (r := ⟨type, chunk, hw.hdr, wrap64
        (buf + done * virtioBlkSectorSize), hw.status⟩) htype hchunk d.retries rest d hd with
        ⟨hne, hok⟩
      simp only [value_bind]
      split_ifs with hrc
      · exact hne
      · exact ih _ _ _ (hok (not_not.mp hrc))
    · rw [if_neg hdone]
      exact BlkResult.noConfusion

/-- The bytes of a request of at most `count` sectors are no more than those of the
    largest request. -/
theorem fits_of_largest {c : Nat} (hc : c ≤ maxSectorsPerReq dev) (hcap : c ≤ dev.capacitySectors)
    (h : segCount dev.sizeMax (largestReq dev * virtioBlkSectorSize) + 2 ≤ dev.vq.size) :
    Fits dev c := by
  have hle : c * virtioBlkSectorSize % 2 ^ 32 ≤ largestReq dev * virtioBlkSectorSize := by
    unfold largestReq virtioBlkSectorSize
    omega
  refine Nat.le_trans (Nat.add_le_add_right (Nat.div_le_div_right ?_) 2) h
  omega

/-- A device that answers nothing, not even a reset. -/
def silentDevice : BlkHardware Unit where
  bringup rest := (rest, none)
  wait rest vq n := (rest, vq, n, false, virtioBlkSOk)
  hdr := 0
  status := 0

theorem silent_steady (hidle : Idle dev.vq.size dev.vq) : Steady silentDevice dev (· = dev.vq) :=
  ⟨rfl, fun _ hvq => hvq ▸ hidle, nofun, nofun⟩

/-- On an idle queue every transfer inside the device finds descriptors, exactly when
    there are enough for the data of the largest request, its header and its status
    byte. -/
theorem transfer_fits_iff (dev : BlkDev) (hinit : dev.initialized = true)
    (hqueue : 3 ≤ dev.vq.size) (hidle : Idle dev.vq.size dev.vq) :
    (∀ (R : Type) (hw : BlkHardware R) (Rests : Vq → Prop) (type : ReqType)
        (sector buf count : Nat) (rest : R),
      Steady hw dev Rests → type ≠ .tFlush → sector + count ≤ dev.capacitySectors →
      (value (blkRw hw type sector buf count rest dev)).2.2 ≠ .noSpc) ↔
      segCount dev.sizeMax (largestReq dev * virtioBlkSectorSize) + 2 ≤ dev.vq.size := by
  have hsize : 0 < dev.sizeMax := Nat.lt_of_lt_of_le (by decide) (dev.sizeMax_ge hinit)
  constructor
  · intro hall
    by_cases hzero : largestReq dev = 0
    · rw [hzero, segCount, Nat.div_eq_of_lt (by omega)]
      omega
    -- The largest request, as a transfer of its own.
    by_contra hc
    have hmax : largestReq dev ≤ maxSectorsPerReq dev ∧
        largestReq dev ≤ dev.capacitySectors ∧ largestReq dev < 2 ^ 23 := by
      unfold largestReq
      omega
    have hchunk : firstChunk dev (largestReq dev) = largestReq dev :=
      if_neg (Nat.not_lt.mpr hmax.1)
    have hbytes : largestReq dev * virtioBlkSectorSize < 2 ^ 32 := by
      unfold virtioBlkSectorSize
      omega
    refine hall Unit silentDevice _ .tIn 0 1 (largestReq dev) () (silent_steady hidle) nofun
      (by omega) ?_
    rw [blkRw, if_neg (by rw [hinit]; nofun), if_neg (by omega), if_neg (by omega)]
    refine ((blkRwLoop_first _ (dev.retries_pos hinit) .tIn 1 hzero ()).2 fun htakes => hc ?_).2
    have hroom := ((takes_iff hsize (r := firstReq silentDevice dev .tIn 1 _) nofun).mp
      htakes).1
    rwa [firstReq, hchunk, Nat.mod_eq_of_lt hbytes, hidle.free] at hroom
  · intro hlargest R hw Rests type sector buf count rest hsteady htype hrange
    unfold blkRw
    split_ifs
    · exact nofun
    · exact nofun
    · exact nofun
    · exact loop_ready hsteady hsize htype
        (fun c hc hcount => fits_of_largest hc (by omega) hlargest) count 0 rest dev
        ⟨hsteady.start, rfl⟩

/-- All descriptors are on the free list, and all completions have been reaped. -/
structure AtRest (size : Nat) (vq : Vq) : Prop where
  size_eq : vq.size = size
  owns : ∃ free, Owns vq free [] []
  avail_lt : vq.avail.idx < 65536
  reaped : vq.used.idx = vq.lastUsed

/-- The chain published last. -/
def lastHead (vq : Vq) : Nat := vq.avail.ring ((vq.avail.idx + 65535) % 65536 % vq.size)

/-- A wait that sees a completion has reaped that of the chain published last. -/
def Reaps {R : Type} (hw : BlkHardware R) : Prop :=
  ∀ rest vq n, (hw.wait rest vq n).2.2.2.1 = true → ∃ len,
    (hw.wait rest vq n).2.1 = (virtqueueGetUsed (devicePost vq ⟨lastHead vq, len⟩)).1

theorem atRest_idle {size : Nat} (hpos : 0 < size) {vq : Vq} (h : AtRest size vq) :
    Idle size vq := by
  rcases h.owns with ⟨free, hown⟩
  have hlen := hown.perm.length_eq
  rw [flatten_nil, append_nil, append_nil, length_range, h.size_eq] at hlen
  refine ⟨hown.numFree.trans hlen, fun hnone => ?_⟩
  -- A free list that starts nowhere is empty.
  have hlinked := hown.linked
  rw [hnone] at hlinked
  rcases free with _ | ⟨x, free⟩
  · rw [length_nil] at hlen
    omega
  · exact (linked_cons.mp hlinked).2.1 (linked_cons.mp hlinked).1.symm

/-- A chain is published, completed and reaped. -/
theorem atRest_reap {size : Nat} {vq : Vq} (h : AtRest size vq) {segs : List VirtqSeg}
    (hflags : ∀ g ∈ segs, g.flags &&& descFNext = 0)
    (htaken : (virtqueueSubmitChain vq segs).2 ≠ virtqNoDesc) (len : Nat) :
    AtRest size (virtqueueGetUsed (devicePost (virtqueueSubmitChain vq segs).1
      ⟨lastHead (virtqueueSubmitChain vq segs).1, len⟩)).1 := by
  rcases h.owns with ⟨free, hown⟩
  have hroom : ¬ (segs.length = 0 ∨ segs.length > vq.numFree) := fun hc =>
    htaken (by rw [virtqueueSubmitChain, if_pos hc])
  rcases owns_submitChain hown hflags hroom with ⟨xs, rest, _, _, hown', hsub, _⟩
  generalize (virtqueueSubmitChain vq segs).1 = vq' at hown' hsub ⊢
  have hpub := hsub.published
  -- the slot before `avail.idx` holds the head just published, also when the index wraps
  have hhead : lastHead vq' = xs.headD 0 := by
    have hidx : (inc16 vq.avail.idx + 65535) % 65536 = vq.avail.idx := by
      have := h.avail_lt
      unfold inc16
      omega
    rw [lastHead, hpub.avail, hpub.size]
    simp only [publish, hidx, Function.update_self]
  have hlast : vq'.used.idx = vq'.lastUsed := by rw [hpub.used, hpub.lastUsed, h.reaped]
  have hposted : Owns (devicePost vq' ⟨lastHead vq', len⟩) rest [] ([] ++ xs :: []) :=
    ⟨hown'.size_le, hown'.linked, hown'.numFree, hown'.chain, hown'.perm⟩
  have hnew : inc16 vq'.used.idx ≠ vq'.lastUsed := by
    rw [hlast, inc16]
    omega
  rcases owns_getUsed hposted hnew (by simp [devicePost, hlast, hhead]) with
    ⟨vq'', hrun, hown'', hrings⟩
  rw [hrun]
  refine ⟨hrings.size.trans (hpub.size.trans h.size_eq), ⟨_, hown''⟩, ?_, ?_⟩
  · rw [hrings.avail]
    show vq'.avail.idx < 65536
    rw [hpub.avail]
    exact Nat.mod_lt _ (by decide)
  · rw [hrings.used, hrings.lastUsed]
    show inc16 vq'.used.idx = inc16 vq'.lastUsed
    rw [hlast]

/-- A device whose completions are reaped is steady. -/
theorem reaps_steady (hpos : 0 < dev.vq.size) (hreaps : Reaps hw)
    (hrest : AtRest dev.vq.size dev.vq) (hreset : ∀ rest d, (blkResetDevice hw rest d).2.2 = true →
      Ready (AtRest dev.vq.size) dev (blkResetDevice hw rest d).2.1) :
    Steady hw dev (AtRest dev.vq.size) := by
  refine ⟨hrest, fun vq h => atRest_idle hpos h, fun rest vq d r n h htaken hdone => ?_, hreset⟩
  rcases hreaps rest _ n hdone with ⟨len, hvq⟩
  rw [hvq]
  exact atRest_reap h (blkSegs_flags d r) htaken len

/-- A device that completes every chain, before the first turn of the polling loop. -/
def promptDevice : BlkHardware Unit where
  bringup rest := (rest, none)
  wait rest vq n :=
    let g := virtqueueGetUsed (devicePost vq ⟨lastHead vq, 1⟩)
    (rest, g.1, n, g.2.isSome, virtioBlkSOk)
  hdr := 0
  status := 0

/-- A device with a queue of `n` descriptors and segments of one sector. -/
def smallDevice (n : Nat) : BlkDev where
  sizeMax := 512
  mode := .poll
  completions := 0
  timeoutSpins := blkDefaultTimeoutSpins
  statIrqs := 0
  initialized := true
  readOnly := false
  capacitySectors := 100
  segMax := 126
  retries := 3
  vq := (virtqueueSetup n blankVq).getD blankVq
  sizeMax_ge := fun _ => by decide
  sizeMax_lt := by decide
  segMax_ge := fun _ => Nat.le_add_left 3 123
  retries_pos := fun _ => Nat.succ_pos 2

/-- Three sectors take five descriptors, and the queue has four. -/
theorem transfer_refused : Idle 4 (smallDevice 4).vq ∧
    (value (blkRead promptDevice 0 1 3 () (smallDevice 4))).2.2 = .noSpc :=
  ⟨⟨rfl, by decide⟩, by rfl⟩

/-- The same transfer with a queue for a hundred sectors. -/
theorem transfer_fits_iff_small :
    (value (blkRead promptDevice 0 1 3 () (smallDevice 128))).2.2 ≠ .noSpc := by
  have hsetup : virtqueueSetup 128 blankVq = some (smallDevice 128).vq := rfl
  have hrest : AtRest 128 (smallDevice 128).vq :=
    ⟨rfl, ⟨_, owns_setup hsetup⟩, Nat.succ_pos 65535, rfl⟩
  have hsteady : Steady promptDevice (smallDevice 128) (AtRest 128) :=
    reaps_steady (Nat.succ_pos 127) (fun _ _ _ _ => ⟨1, rfl⟩) hrest nofun
  exact (transfer_fits_iff (smallDevice 128) rfl (by decide) (hsteady.idle _ hrest)).mpr
    (by decide) Unit _ _ .tIn 0 1 3 () hsteady nofun (by decide)

end CortexForge.Blk
