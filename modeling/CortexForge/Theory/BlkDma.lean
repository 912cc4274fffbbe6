import CortexForge.Theory.Isolation
import CortexForge.Theory.UserPointers

/-!
# What the Block Device Is Given

A read or a write of `/dev/blk` hands the caller's buffer to the device. The device
takes physical addresses; the driver computes them with the inverse of the kernel's
linear map, which is right for kernel buffers and for no other. The buffer of a
system call is a user address: below the top of the user range, while everything in
the linear map is above `kernelVaOffset`. What comes out is the user address plus
`2 ^ 48`, which no page table entry can name.

So the property that a transfer reaches the caller's pages holds only for transfers
that put nothing on the queue: those that are refused before, and those for which
there are not enough descriptors. The first request decides, since a transfer stops
when a request fails.

## Main definitions

* `userPhys`: The physical address behind a user address.
* `DmaOk`: A transfer is given the caller's pages.
* `Placed`: The transfer reaches the queue.

## Theorems

* `userPhys_lt`, `not_segsOk_user`: The two ranges do not meet.
* `blk_dma_iff`: Transfers that are given the caller's pages.
-/

namespace CortexForge

namespace Blk

open Virtqueue Traced List

variable {R : Type} (hw : BlkHardware R)

section

/-- The segments that some bytes are cut into. -/
def segCount (sizeMax bytes : Nat) : Nat := (bytes + sizeMax - 1) / sizeMax

theorem dataSegs_length {sizeMax : Nat} (hsize : 0 < sizeMax) (flags : BitVec 16) (buf fuel : Nat) :
    ∀ offset remaining, remaining ≤ fuel →
      (dataSegs sizeMax flags buf fuel offset remaining).length = segCount sizeMax remaining := by
  induction fuel with
  | zero =>
    intro offset remaining hle
    exact (Nat.div_eq_of_lt (by omega)).symm
  | succ fuel ih =>
    intro offset remaining hle
    unfold dataSegs
    by_cases hzero : remaining = 0
    · rw [hzero]
      exact (Nat.div_eq_of_lt (by omega)).symm
    rw [if_neg hzero, length_cons]
    split_ifs with hlast
    · rw [ih _ _ (by omega), Nat.sub_self]
      unfold segCount
      rw [Nat.div_eq_of_lt (by omega : 0 + sizeMax - 1 < sizeMax)]
      exact (Nat.div_eq_of_lt_le (by omega) (by omega)).symm
    · rw [ih _ _ (by omega)]
      unfold segCount
      rw [← Nat.add_div_right _ hsize]
      congr 1
      omega

/-- A chain is refused when there are too few descriptors. The second case is a free
    list that does not agree with its count. -/
theorem submitChain_refused (vq : Vq) (segs : List VirtqSeg) (hsegs : segs ≠ []) :
    (virtqueueSubmitChain vq segs).2 = virtqNoDesc ↔
      vq.numFree < segs.length ∨ vq.freeHead = virtqNoDesc := by
  have hlen : segs.length ≠ 0 := fun h => hsegs (length_eq_zero_iff.mp h)
  unfold virtqueueSubmitChain
  split_ifs with hcond
  · simp [hcond.resolve_left hlen]
  · rw [not_or] at hcond
    rw [or_iff_right hcond.2]
    -- The head of the chain is the head of the free list.
    obtain ⟨n, hn⟩ := Nat.exists_eq_succ_of_ne_zero hlen
    simp only [hn, allocLoop, virtqueueAllocDesc]
    split_ifs with hhead <;> simp [hhead]

end

section

variable {dev : BlkDev} {r : BlkReq} {attempts count : Nat}

/-- The sectors of the first request. -/
def firstChunk (dev : BlkDev) (count : Nat) : Nat :=
  if count > maxSectorsPerReq dev then maxSectorsPerReq dev else count

/-- The transfer gets as far as the queue, and there are descriptors for its first
    request: the data, the header and the status byte. -/
structure Placed (dev : BlkDev) (type : ReqType) (sector buf count : Nat) : Prop where
  initialized : dev.initialized = true
  writable : type = .tOut → dev.readOnly = false
  count_ne : count ≠ 0
  buf_ne : buf ≠ 0
  sector_lt : sector < dev.capacitySectors
  count_le : count ≤ dev.capacitySectors - sector
  descs : segCount dev.sizeMax (firstChunk dev count * virtioBlkSectorSize) + 2 ≤ dev.vq.numFree
  head : dev.vq.freeHead ≠ virtqNoDesc

/-- The first request of a transfer. -/
def firstReq (dev : BlkDev) (type : ReqType) (buf count : Nat) : BlkReq :=
  { type := type
    count := firstChunk dev count
    hdr := hw.hdr
    buf := wrap64 (buf + 0 * virtioBlkSectorSize)
    status := hw.status }

/-- The queue takes the chain of the request. -/
def Takes (dev : BlkDev) (r : BlkReq) : Prop :=
  (virtqueueSubmitChain dev.vq (blkSegs dev.toVirtioBlk r)).2 ≠ virtqNoDesc

theorem blkSegs_length (hsize : 0 < dev.sizeMax) (htype : r.type ≠ .tFlush) :
    (blkSegs dev.toVirtioBlk r).length
      = segCount dev.sizeMax (r.count * virtioBlkSectorSize % 2 ^ 32) + 2 := by
  simp only [blkSegs, length_cons, length_append, length_nil, if_neg htype]
  rw [dataSegs_length hsize _ _ _ _ _ (Nat.le_refl _)]

theorem takes_iff {dev : BlkDev} (hsize : 0 < dev.sizeMax) {r : BlkReq} (htype : r.type ≠ .tFlush) :
    Takes dev r ↔ segCount dev.sizeMax (r.count * virtioBlkSectorSize % 2 ^ 32) + 2
      ≤ dev.vq.numFree ∧ dev.vq.freeHead ≠ virtqNoDesc := by
  unfold Takes
  rw [ne_eq, submitChain_refused _ _ (by simp [blkSegs]), blkSegs_length hsize htype, not_or,
    Nat.not_lt]

theorem blkSubmitOnce_refuses (h : ¬ Takes dev r) (rest : R) :
    log (blkSubmitOnce hw rest dev r) = [] ∧
      (value (blkSubmitOnce hw rest dev r)).2.2 = .noSpc := by
  unfold blkSubmitOnce
  rw [if_pos (not_not.mp h)]
  exact ⟨rfl, rfl⟩

/-- A request that the queue takes is logged in its first attempt. -/
theorem blkSubmitRetry_takes (h : Takes dev r) (hpos : 0 < attempts) (rest : R) :
    .dma r.buf (blkDataSegs dev r) ∈ log (blkSubmitRetry hw r attempts rest dev) := by
  obtain ⟨n, rfl⟩ := Nat.exists_eq_succ_of_ne_zero (Nat.pos_iff_ne_zero.mp hpos)
  unfold blkSubmitRetry
  rw [blkSubmitOnce, if_neg h]
  exact mem_cons_self

/-- One that it refuses is not tried again. -/
theorem blkSubmitRetry_refuses (h : ¬ Takes dev r) (hpos : 0 < attempts) (rest : R) :
    log (blkSubmitRetry hw r attempts rest dev) = [] ∧
      (value (blkSubmitRetry hw r attempts rest dev)).2.2 = .noSpc := by
  obtain ⟨n, rfl⟩ := Nat.exists_eq_succ_of_ne_zero (Nat.pos_iff_ne_zero.mp hpos)
  rcases blkSubmitOnce_refuses hw h rest with ⟨hlog, hrc⟩
  unfold blkSubmitRetry
  rw [log_bind, value_bind, hlog]
  rcases hv : value (blkSubmitOnce hw rest dev r) with ⟨rest', dev', rc⟩
  rw [hv] at hrc
  simp only at hrc
  have hne : rc ≠ .timedOut := by
    rw [hrc]
    decide
  simp only [if_pos hne]
  exact ⟨rfl, hrc⟩

/-- A transfer of at least one sector begins with its first request, and ends with it
    if that fails. -/
theorem blkRwLoop_first (hretries : 0 < dev.retries) (type : ReqType) (buf : Nat)
    (hcount : count ≠ 0) (rest : R) :
    (Takes dev (firstReq hw dev type buf count) →
      .dma (wrap64 (buf + 0 * virtioBlkSectorSize))
        (blkDataSegs dev (firstReq hw dev type buf count)) ∈
        log (blkRwLoop hw type buf count (maxSectorsPerReq dev) count 0 rest dev)) ∧
    (¬ Takes dev (firstReq hw dev type buf count) →
      log (blkRwLoop hw type buf count (maxSectorsPerReq dev) count 0 rest dev) = [] ∧
        (value (blkRwLoop hw type buf count (maxSectorsPerReq dev) count 0 rest dev)).2.2
          = .noSpc) := by
  obtain ⟨n, hn⟩ := Nat.exists_eq_succ_of_ne_zero hcount
  have hloop : blkRwLoop hw type buf count (maxSectorsPerReq dev) count 0 rest dev =
      (blkSubmitRetry hw (firstReq hw dev type buf count) dev.retries rest dev >>= fun a =>
        if a.2.2 ≠ .success then pure (a.1, a.2.1, a.2.2)
        else blkRwLoop hw type buf count (maxSectorsPerReq dev) n (0 + firstChunk dev count) a.1
          a.2.1) := by
    conv_lhs =>
      rw [hn]
      unfold blkRwLoop
    rw [if_pos (Nat.succ_pos n), ← hn]
    rfl
  rw [hloop, log_bind, value_bind]
  refine ⟨fun htakes => mem_append_left _ (blkSubmitRetry_takes hw htakes hretries rest), ?_⟩
  intro hrefuses
  rcases blkSubmitRetry_refuses hw hrefuses hretries rest with ⟨hlog, hrc⟩
  rw [hlog, hrc]
  exact ⟨rfl, rfl⟩

/-- What a transfer logs: its first request, if it gets there. -/
theorem blkRw_first {type : ReqType} (htype : type ≠ .tFlush)
    (hwritable : type = .tOut → dev.readOnly = false) (sector buf : Nat)
    (hbytes : count * virtioBlkSectorSize < 2 ^ 32) (rest : R) :
    (Placed dev type sector buf count →
      .dma (wrap64 (buf + 0 * virtioBlkSectorSize))
        (blkDataSegs dev (firstReq hw dev type buf count)) ∈
        log (blkRw hw type sector buf count rest dev)) ∧
    (¬ Placed dev type sector buf count → log (blkRw hw type sector buf count rest dev) = []) := by
  unfold blkRw
  split_ifs with hinit hargs hrange
  · exact ⟨fun h => absurd h.initialized (by rw [hinit]; decide), fun _ => rfl⟩
  · exact ⟨fun h => absurd hargs (not_or.mpr ⟨h.count_ne, h.buf_ne⟩), fun _ => rfl⟩
  · refine ⟨fun h => ?_, fun _ => rfl⟩
    have := h.count_le
    omega
  have hinit := Bool.of_not_eq_false hinit
  rw [not_or] at hargs hrange
  -- The limits of an initialized device leave room for the first request.
  have hchunk : firstChunk dev count ≤ count := by
    unfold firstChunk
    split <;> omega
  have hfirst : (firstReq hw dev type buf count).count * virtioBlkSectorSize < 2 ^ 32 :=
    Nat.lt_of_le_of_lt (Nat.mul_le_mul_right _ hchunk) hbytes
  have hsize : 0 < dev.sizeMax := Nat.lt_of_lt_of_le (by decide) (dev.sizeMax_ge hinit)
  have htakes := @takes_iff dev hsize (firstReq hw dev type buf count) htype
  rw [Nat.mod_eq_of_lt hfirst] at htakes
  rcases blkRwLoop_first hw (dev.retries_pos hinit) type buf hargs.1 rest with ⟨hlogged, hempty⟩
  refine ⟨fun h => hlogged (htakes.mpr ⟨h.descs, h.head⟩), fun h => (hempty fun hc => h ?_).1⟩
  rcases htakes.mp hc with ⟨hdescs, hhead⟩
  exact ⟨hinit, hwritable, hargs.1, hargs.2, Nat.not_le.mp hrange.1, Nat.not_lt.mp hrange.2, hdescs,
    hhead⟩

/-- The first data segment is the start of the buffer, through the linear map. -/
theorem firstReq_segs {type : ReqType} (htype : type ≠ .tFlush) {sector buf : Nat}
    (h : Placed dev type sector buf count) (hbytes : count * virtioBlkSectorSize < 2 ^ 32)
    (hbuf : buf < 2 ^ 64) :
    ∃ seg segs, blkDataSegs dev (firstReq hw dev type buf count) = seg :: segs ∧
      seg.pa = virtToPhys buf ∧ 0 < seg.len := by
  have hchunk : 0 < firstChunk dev count ∧ firstChunk dev count ≤ count := by
    have hcount := h.count_ne
    have hmax : 0 < maxSectorsPerReq dev := by
      unfold maxSectorsPerReq
      simp only []
      split <;> omega
    unfold firstChunk
    split <;> omega
  have hpos : firstChunk dev count * virtioBlkSectorSize % 2 ^ 32 ≠ 0 := by
    unfold virtioBlkSectorSize at hbytes ⊢
    omega
  have hsize : 0 < dev.sizeMax := Nat.lt_of_lt_of_le (by decide) (dev.sizeMax_ge h.initialized)
  obtain ⟨n, hn⟩ := Nat.exists_eq_succ_of_ne_zero hpos
  unfold blkDataSegs blkSegs firstReq
  simp only [if_neg htype, drop_succ_cons, drop_zero, dropLast_concat]
  rw [hn]
  unfold dataSegs
  refine ⟨_, _, rfl, ?_, ?_⟩
  · simp only [Nat.zero_mul, Nat.add_zero]
    rw [show wrap64 (wrap64 buf) = buf by unfold wrap64; omega]
  · simp only []
    split <;> omega

end

end Blk

namespace Vfs

open Traced Syscall Signal Mmu Blk

/-- The physical address that the tables with root `root` in the physical memory
    `phys` translate a user address to. -/
def userPhys (phys : Memory) (root va : Nat) : Option Nat :=
  (translate phys root va).map fun e => pteNextTable e + va % pageSize

/-- Segments from a user address on are the bytes that the tables translate its
    addresses to. -/
def SegsOk (phys : Memory) (root : Nat) : Nat → List Virtqueue.VirtqSeg → Prop
  | _, [] => True
  | va, seg :: segs =>
      (∀ j, j < seg.len → userPhys phys root (va + j) = some (seg.pa + j)) ∧
        SegsOk phys root (va + seg.len) segs

/-- The device is given the caller's pages. -/
def DmaOk (phys : Memory) (root : Nat) : UserAccess → Prop
  | .dma buf segs => SegsOk phys root buf segs
  | _ => True

section

/-- An entry names a page below `2 ^ 48`. -/
theorem userPhys_lt {phys : Memory} {root va pa : Nat} (h : userPhys phys root va = some pa) :
    pa < 2 ^ 48 := by
  rcases Option.map_eq_some_iff.mp h with ⟨e, _, rfl⟩
  have hentry : pteNextTable e ≤ pteAddrMask.toNat := by
    exact Nat.and_le_right
  have hoff : va % pageSize < 4096 := Nat.mod_lt _ (by decide)
  have hmask : pteAddrMask.toNat = 0x0000FFFFFFFFF000 := rfl
  omega

/-- Segments through the linear map are never the caller's. -/
theorem not_segsOk_user (phys : Memory) (root : Nat) {buf : Nat} (hbuf : buf < userStackTop)
    {seg : Virtqueue.VirtqSeg} {segs : List Virtqueue.VirtqSeg} (hpa : seg.pa = virtToPhys buf)
    (hlen : 0 < seg.len) : ¬ SegsOk phys root buf (seg :: segs) := by
  intro h
  have hlt := userPhys_lt (h.1 0 hlen)
  rw [hpa] at hlt
  unfold virtToPhys sub64 wrap64 kernelVaOffset at hlt
  unfold userStackTop at hbuf
  omega

end

section

variable {R : Type} (hw : Hardware R) (svc : Services (Files R)) (images : ImageServices R)

/-- The kind of request that a system call makes. -/
def callType (num : BitVec 64) : ReqType := if num.toNat = 1 then .tOut else .tIn

/-- The transfer of a read or a write. -/
def transferOf (num : BitVec 64) :
    Nat → Nat → Nat → R → BlkDev → Logged (R × BlkDev × BlkResult) :=
  if num.toNat = 1 then blkWrite hw.toBlkHardware else blkRead hw.toBlkHardware

/-- A read or a write of `/dev/blk` logs what its transfer does, if the caller has
    descriptors at all. -/
theorem dispatch_blk_log (w : FileWorld R) (frame : TrapFrame) {f : File}
    (hnum : (frame.regs 8).toNat = 0 ∨ (frame.regs 8).toNat = 1)
    (hfile : fileAt w.kernel ((frame.regs 0).setWidth 32) = some f)
    (hops : (w.kernel.pool.nodes f.vnode).ops = some .blk)
    (hbuf : userBufOk (frame.regs 1) (frame.regs 2) = true)
    (hoff : f.offset.toInt.tmod virtioBlkSectorSize = 0)
    (hcount : (frame.regs 2).toNat % virtioBlkSectorSize = 0) :
    log (syscallDispatchTraced hw svc images w frame) =
      if w.hasFds = true then
        log (transferOf hw (frame.regs 8) (f.offset.toNat / virtioBlkSectorSize)
          (frame.regs 1).toNat (wrap32 ((frame.regs 2).toNat / virtioBlkSectorSize))
          w.kernel.rest w.kernel.blk)
      else [] := by
  have hother : ∀ num : BitVec 64, 1 < num.toNat → frame.regs 8 ≠ num := by
    intro num hlt heq
    rw [heq] at hnum
    omega
  -- Past the alignment checks everything that is logged comes from the driver.
  have htransfer : ∀ transfer, log (blkDevTransfer transfer ((frame.regs 0).setWidth 32) f
      (frame.regs 1).toNat (frame.regs 2).toNat w) =
        log (transfer (f.offset.toNat / virtioBlkSectorSize) (frame.regs 1).toNat
          (wrap32 ((frame.regs 2).toNat / virtioBlkSectorSize)) w.kernel.rest w.kernel.blk) := by
    intro transfer
    unfold blkDevTransfer
    have hcond : ¬ (f.offset.toInt.tmod virtioBlkSectorSize ≠ 0 ∨
        (frame.regs 2).toNat % virtioBlkSectorSize ≠ 0) :=
      not_or.mpr ⟨not_not.mpr hoff, not_not.mpr hcount⟩
    rw [if_neg hcond, log_bind]
    simp [apply_ite log]
  unfold syscallDispatchTraced
  simp only [if_neg (hother sysExecNum (by decide)), if_neg (hother sysSigreturnNum (by decide)),
    if_neg (not_or.mpr ⟨hother sysExitNum (by decide), hother sysForkNum (by decide)⟩), log_bind,
    log_pure, List.append_nil]
  have hcond : (w.hasFds && userBufOk (frame.regs 1) (frame.regs 2)) = w.hasFds := by
    simp [hbuf]
  split_ifs with hfds
  · rw [← hcond] at hfds
    rcases hnum with hnum | hnum
    · simp only [plainCallTraced, hnum, if_pos hfds, log_map, fdRead, hfile, hops, fileRead,
        blkDevRead, htransfer, transferOf, if_neg Nat.zero_ne_one]
    · simp only [plainCallTraced, hnum, if_pos hfds, log_map, fdWrite, hfile, hops, fileWrite,
        blkDevWrite, htransfer, transferOf, if_true]
  · rw [← hcond] at hfds
    rcases hnum with hnum | hnum <;> simp only [plainCallTraced, hnum, if_neg hfds, log_pure]

/-- The transfer of a call logs its first request, if it gets there. -/
theorem transferOf_first {num : BitVec 64} (hnum : num.toNat = 0 ∨ num.toNat = 1)
    (dev : BlkDev) (sector buf : Nat) {count : Nat}
    (hbytes : count * virtioBlkSectorSize < 2 ^ 32) (rest : R) :
    (Placed dev (callType num) sector buf count →
      .dma (wrap64 (buf + 0 * virtioBlkSectorSize))
        (blkDataSegs dev (firstReq hw.toBlkHardware dev (callType num) buf count)) ∈
        log (transferOf hw num sector buf count rest dev)) ∧
    (¬ Placed dev (callType num) sector buf count →
      log (transferOf hw num sector buf count rest dev) = []) := by
  unfold transferOf callType
  rcases hnum with hnum | hnum
  · rw [hnum]
    exact blkRw_first _ (by decide) (fun h => absurd h (by decide)) sector buf hbytes rest
  · rw [hnum, if_pos rfl, if_pos rfl, blkWrite]
    split_ifs with hro
    · -- A device that cannot be written to is given nothing.
      exact ⟨fun h => absurd (h.writable rfl) (by simp [hro]), fun _ => rfl⟩
    · exact blkRw_first _ (by decide) (fun _ => Bool.of_not_eq_true hro) sector buf hbytes rest

/-- A read or a write of `/dev/blk` gives the device the pages behind the caller's
    buffer exactly when it gives it nothing: when the caller has no descriptors, the
    transfer is refused, or the queue has no descriptors for its first request. This
    is for every content of the page tables. -/
theorem blk_dma_iff (w : FileWorld R) (frame : TrapFrame) (f : File)
    (hnum : (frame.regs 8).toNat = 0 ∨ (frame.regs 8).toNat = 1)
    (hfile : fileAt w.kernel ((frame.regs 0).setWidth 32) = some f)
    (hops : (w.kernel.pool.nodes f.vnode).ops = some .blk)
    (hbuf : userBufOk (frame.regs 1) (frame.regs 2) = true)
    (hoff : f.offset.toInt.tmod virtioBlkSectorSize = 0)
    (hcount : (frame.regs 2).toNat % virtioBlkSectorSize = 0) (phys : Memory) (root : Nat) :
    Within (DmaOk phys root) (syscallDispatchTraced hw svc images w frame) ↔
      ¬ (w.hasFds = true ∧
        Placed w.kernel.blk (callType (frame.regs 8)) (f.offset.toNat / virtioBlkSectorSize)
          (frame.regs 1).toNat (wrap32 ((frame.regs 2).toNat / virtioBlkSectorSize))) := by
  unfold Within
  rw [dispatch_blk_log hw svc images w frame hnum hfile hops hbuf hoff hcount]
  split_ifs with hfds
  · rw [and_iff_right hfds]
    -- A buffer in the user range has less than 2 ^ 32 bytes.
    have hrange := userBuf_of_ok hbuf
    have hbytes : wrap32 ((frame.regs 2).toNat / virtioBlkSectorSize) * virtioBlkSectorSize
        < 2 ^ 32 := by
      refine Nat.lt_of_le_of_lt (Nat.mul_le_mul_right _ (Nat.mod_le _ _)) ?_
      refine Nat.lt_of_le_of_lt (Nat.div_mul_le_self _ _) ?_
      unfold UserBuf userStackTop at hrange
      omega
    rcases transferOf_first hw hnum w.kernel.blk (f.offset.toNat / virtioBlkSectorSize)
      (frame.regs 1).toNat hbytes w.kernel.rest with ⟨hlogged, hempty⟩
    refine ⟨fun hall hplaced => ?_, fun hnot => ?_⟩
    · have htype : callType (frame.regs 8) ≠ .tFlush := by
        unfold callType
        split <;> decide
      have hpos : (frame.regs 2).toNat ≠ 0 := fun hzero => hplaced.count_ne (by rw [hzero]; rfl)
      have htop : (frame.regs 1).toNat < userStackTop := by
        rcases hrange with hrange | hrange <;> omega
      have hwrap : wrap64 ((frame.regs 1).toNat + 0 * virtioBlkSectorSize) =
        (frame.regs 1).toNat := by
        exact Nat.mod_eq_of_lt (frame.regs 1).isLt
      rcases firstReq_segs hw.toBlkHardware htype hplaced hbytes (frame.regs 1).isLt
        with ⟨seg, segs, hsegs, hpa, hlen⟩
      have hdma := hall _ (hlogged hplaced)
      rw [hwrap, hsegs] at hdma
      exact not_segsOk_user phys root htop hpa hlen hdma
    · rw [hempty hnot]
      exact nofun
  · exact ⟨fun _ h => hfds h.1, nofun⟩

/-- A task with a stack at `0x7FF000` reads one sector of `/dev/blk` to there. Its
    tables translate the buffer to its page at `0x4000F000`; the device is given
    `0x10000007FF000`. -/
theorem blk_read_misplaced :
    userBufOk 0x7FF000 512 = true ∧
    userPhys Sched.twoTasks.machine.mem 0x40006000 0x7FF000 = some 0x4000F000 ∧
    log (syscallDispatchTraced quietHardware idleServices quietImages (openWorld .blk)
      (transferFrame 0 0x7FF000 512))
        = [.dma 0x7FF000 [⟨0x10000007FF000, 512, descFWrite⟩]] ∧
    ¬ Within (DmaOk Sched.twoTasks.machine.mem 0x40006000)
      (syscallDispatchTraced quietHardware idleServices quietImages (openWorld .blk)
        (transferFrame 0 0x7FF000 512)) := by
  have hlog : log (syscallDispatchTraced quietHardware idleServices quietImages (openWorld .blk)
      (transferFrame 0 0x7FF000 512))
        = [.dma 0x7FF000 [⟨0x10000007FF000, 512, descFWrite⟩]] := by decide +kernel
  refine ⟨by decide, by decide +kernel, hlog, fun h => ?_⟩
  have hdma := h (.dma 0x7FF000 [⟨0x10000007FF000, 512, descFWrite⟩])
    (by rw [hlog]; exact List.mem_singleton_self _)
  exact not_segsOk_user _ _ (by decide) (by decide) (by decide) hdma

/-- A read past the end of the device gives it nothing, and so nothing wrong. -/
theorem blk_dma_past_end :
    Within (DmaOk Sched.twoTasks.machine.mem 0x40006000)
      (syscallDispatchTraced quietHardware idleServices quietImages (openWorld .blk)
        (transferFrame 0 0x7FE000 0x2000)) :=
  (blk_dma_iff quietHardware idleServices quietImages (openWorld .blk)
    (transferFrame 0 0x7FE000 0x2000) { record := 0, vnode := 1, offset := 0 } (.inl rfl) rfl rfl
    (by decide) (by decide) (by decide) Sched.twoTasks.machine.mem 0x40006000).mpr
    fun h => absurd h.2.count_le (by decide)

end

end Vfs

end CortexForge
