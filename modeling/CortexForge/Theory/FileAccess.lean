import CortexForge.Core.Devices

/-!
# Accesses to a Buffer

A read or a write of a file touches the caller's buffer and nothing else. The check
of the buffer is made once, by the dispatcher; what is touched is decided by each
device on its own, from the count it is given and from what it finds: the length of
a frame, of a text, of a file. So there is one lemma for each of them, and a buffer
that passed the check does not wrap around.

All loops are bounded for every number of turns, so nothing rests on where the model
stops them.

## Main definitions

* `Touches`: The addresses of an access.
* `InRange`: All of them are in a range.
* `UserBuf`: A buffer that the check lets through.

## Theorems

* `fdRead_within`, `fdWrite_within`: The calls keep to their buffer.
* `fdIoctl_within`: Control calls keep to the user address range.
-/

namespace CortexForge

namespace UserAccess

/-- The kernel touches the address. A buffer that is given to the device is touched
    by the device. -/
def Touches : UserAccess → Nat → Prop
  | .load addr len, a => ∃ i, i < len ∧ a = wrap64 (addr + i)
  | .store addr len, a => ∃ i, i < len ∧ a = wrap64 (addr + i)
  | .dma _ _, _ => False

/-- Every address that is touched is in the range. -/
def InRange (lo hi : Nat) (e : UserAccess) : Prop := ∀ a, e.Touches a → lo ≤ a ∧ a < hi

theorem inRange_dma (lo hi buf : Nat) (segs : List Virtqueue.VirtqSeg) :
    InRange lo hi (.dma buf segs) := fun _ h => False.elim h

theorem inRange_mono {lo hi lo' hi' : Nat} (hlo : lo' ≤ lo) (hhi : hi ≤ hi') (e : UserAccess)
    (h : InRange lo hi e) : InRange lo' hi' e := fun a ha =>
  ⟨Nat.le_trans hlo (h a ha).1, Nat.lt_of_lt_of_le (h a ha).2 hhi⟩

/-- A block of addresses that does not wrap around. -/
theorem block_range {lo hi addr len a : Nat} (hhi : hi ≤ 2 ^ 64)
    (h : len = 0 ∨ lo ≤ addr ∧ addr + len ≤ hi) (ha : ∃ i, i < len ∧ a = wrap64 (addr + i)) :
    lo ≤ a ∧ a < hi := by
  rcases ha with ⟨i, hi, rfl⟩
  have hwrap : wrap64 (addr + i) = addr + i := Nat.mod_eq_of_lt (by omega)
  omega

theorem inRange_load {lo hi addr len : Nat} (hhi : hi ≤ 2 ^ 64)
    (h : len = 0 ∨ lo ≤ addr ∧ addr + len ≤ hi) : InRange lo hi (.load addr len) :=
  fun _ ha => block_range hhi h ha

theorem inRange_store {lo hi addr len : Nat} (hhi : hi ≤ 2 ^ 64)
    (h : len = 0 ∨ lo ≤ addr ∧ addr + len ≤ hi) : InRange lo hi (.store addr len) :=
  fun _ ha => block_range hhi h ha

end UserAccess

namespace Vfs

open Traced Syscall Framing UserAccess

/-- A buffer that the check of the dispatcher lets through. -/
def UserBuf (buf count : Nat) : Prop := count = 0 ∨ buf + count ≤ userStackTop

theorem userBuf_of_ok {ptr len : BitVec 64} (h : userBufOk ptr len = true) :
    UserBuf ptr.toNat len.toNat := by
  rcases of_decide_eq_true h with hzero | ⟨hwrap, htop⟩
  · exact .inl (by rw [hzero]; rfl)
  · -- A sum that wraps around is less than the pointer.
    refine .inr ?_
    have hsum := BitVec.toNat_add ptr len
    omega

theorem userStackTop_lt : userStackTop < 2 ^ 64 := by decide

section

variable {buf count off n : Nat}

variable (h : UserBuf buf count)
include h

theorem UserBuf.hi_le (hpos : 0 < count) : buf + count ≤ 2 ^ 64 := by
  have := userStackTop_lt
  rcases h with h | h <;> omega

theorem UserBuf.block {a : Nat} (hn : off + n ≤ count)
    (ha : ∃ i, i < n ∧ a = wrap64 (wrap64 (buf + off) + i)) : buf ≤ a ∧ a < buf + count := by
  rcases ha with ⟨i, hi, ha⟩
  have hhi := h.hi_le (by omega)
  have hoff : wrap64 (buf + off) = buf + off := Nat.mod_eq_of_lt (by omega)
  exact block_range hhi (.inr ⟨by omega, by omega⟩) ⟨i, hi, ha⟩

theorem UserBuf.load (hn : off + n ≤ count) :
    InRange buf (buf + count) (.load (wrap64 (buf + off)) n) := fun _ ha => h.block hn ha

theorem UserBuf.store (hn : off + n ≤ count) :
    InRange buf (buf + count) (.store (wrap64 (buf + off)) n) := fun _ ha => h.block hn ha

theorem UserBuf.start (hn : n ≤ count) :
    n = 0 ∨ buf ≤ buf ∧ buf + n ≤ min (buf + count) (2 ^ 64) := by
  by_cases hpos : 0 < count
  · exact .inr ⟨Nat.le_refl _, by have := h.hi_le hpos; omega⟩
  · exact .inl (by omega)

theorem UserBuf.loadStart (hn : n ≤ count) :
    InRange buf (buf + count) (.load buf n) :=
  inRange_mono (Nat.le_refl _) (Nat.min_le_left _ _) _
    (inRange_load (Nat.min_le_right _ _) (h.start hn))

theorem UserBuf.storeStart (hn : n ≤ count) :
    InRange buf (buf + count) (.store buf n) :=
  inRange_mono (Nat.le_refl _) (Nat.min_le_left _ _) _
    (inRange_store (Nat.min_le_right _ _) (h.start hn))

end

section

variable {R : Type} (hw : Hardware R) {buf count len : Nat} {P : UserAccess → Prop}

theorem loadByte_within {mem : Memory} {addr : Nat} (h : P (.load addr 1)) :
    Within P (loadByte mem addr) :=
  within_last (within_access.mpr h)

theorem storeByte_within {w : FileWorld R} {addr : Nat} {b : Byte} (h : P (.store addr 1)) :
    Within P (storeByte w addr b) :=
  within_last (within_access.mpr h)

theorem copyOut_within {w : FileWorld R} {dst : Nat} {src : Memory} {off n : Nat}
    (h : P (.store dst n)) : Within P (copyOut w dst src off n) :=
  within_last (within_access.mpr h)

theorem ite_lt_le (a b : Nat) : (if a < b then a else b) ≤ a := by
  split <;> omega

/-- What a read of the volume copies out. The sum of offset and length is taken in 32
    bits; where it wraps around, no more bytes are read than it comes to, and what is
    copied is less than what was asked for all the same. -/
theorem fat32_copied_le {got off toRead : Nat} (hgot : ¬ got ≤ wrap32 off) :
    (if got < wrap32 (off + toRead) then got - wrap32 off else toRead) ≤ toRead := by
  split
  · next hlt =>
      have hsum : wrap32 (off + toRead) ≤ wrap32 off + toRead := by
        unfold wrap32
        rw [Nat.add_mod]
        exact Nat.le_trans (Nat.mod_le _ _) (by omega)
      omega
  · exact Nat.le_refl _

section

variable (h : UserBuf buf count)
include h

theorem consoleRead_within (w : FileWorld R) :
    Within (InRange buf (buf + count)) (consoleRead hw buf count w) := by
  refine within_last (within_loop count 0 w fun i w _ hi => ?_)
  exact storeByte_within (h.store (by omega))

theorem consoleWrite_within (w : FileWorld R) :
    Within (InRange buf (buf + count)) (consoleWrite hw buf count w) := by
  refine within_last (within_loop count 0 w fun i w _ hi => ?_)
  exact within_last (loadByte_within (h.load (by omega)))

theorem zeroRead_within (w : FileWorld R) :
    Within (InRange buf (buf + count)) (zeroRead buf count w) := by
  refine within_last (within_loop count 0 w fun i w _ hi => ?_)
  exact storeByte_within (h.store (by omega))

/-- The requests for random bytes, however many there are. -/
theorem rngLoop_within (hlen : len ≤ count) (fuel : Nat) :
    ∀ (done : Nat) (w : FileWorld R),
      Within (InRange buf (buf + count)) (rngLoop hw buf len fuel done w) := by
  induction fuel with
  | zero => exact fun done w => within_pure
  | succ fuel ih =>
    intro done w
    refine within_ite (fun hdone => ?_) fun _ => within_pure
    refine within_then (within_loop _ 0 _ fun i w _ hi => ?_) (ih _ _)
    -- A chunk is at most what is left.
    have hchunk : (if len - done > rngBufSize then rngBufSize else len - done) ≤ len - done := by
      split <;> omega
    exact storeByte_within (h.store (by omega))

theorem vconsLoop_within (hlen : len ≤ count) (fuel : Nat) :
    ∀ (done : Nat) (w : FileWorld R),
      Within (InRange buf (buf + count)) (vconsLoop hw buf len fuel done w) := by
  induction fuel with
  | zero => exact fun done w => within_pure
  | succ fuel ih =>
    intro done w
    refine within_ite (fun hdone => ?_) fun _ => within_pure
    refine within_then (within_access.mpr (h.load ?_)) (ih _ _)
    split <;> omega

theorem vconsWrite_within (w : FileWorld R) :
    Within (InRange buf (buf + count)) (vconsWrite hw buf count w) := by
  refine within_exit fun _ => ?_
  refine within_exit fun _ => ?_
  exact within_last (vconsLoop_within hw h (Nat.mod_le _ _) _ 0 w)

/-- The length of a frame comes from the other end of the line; it is cut to the
    buffer. -/
theorem uart0Read_within (w : FileWorld R) :
    Within (InRange buf (buf + count)) (uart0Read hw buf count w) := by
  refine within_exit fun _ => ?_
  rcases recvFrame hw (withRest w (hw.framingEnsureHw w.kernel.rest).1) with ⟨w', code, frame⟩
  cases code with
  | ok =>
    refine within_ite (fun _ => ?_) fun _ => within_pure
    refine within_last (copyOut_within (h.storeStart ?_))
    split <;> omega
  | _ => exact within_pure

theorem framingSendReliable_within (seq : Byte) (hlen : len ≤ count) (attempts : Nat) :
    ∀ (again : Bool) (w : FileWorld R),
      Within (InRange buf (buf + count)) (framingSendReliable hw seq buf len attempts again w) := by
  induction attempts with
  | zero => exact fun again w => within_pure
  | succ attempts ih =>
    intro again w
    refine within_then (within_access.mpr (h.loadStart hlen)) ?_
    exact within_exit fun _ => ih true _

theorem uart0Write_within (w : FileWorld R) :
    Within (InRange buf (buf + count)) (uart0Write hw buf count w) := by
  refine within_exit fun _ => ?_
  refine within_last (framingSendReliable_within hw h _ ?_ _ _ _)
  split <;> omega

theorem procReadVia_within (file : ProcFile) (fd : BitVec 32) (f : File) (w : FileWorld R) :
    Within (InRange buf (buf + count)) (procReadVia hw file fd f buf count w) := by
  refine within_exit fun _ => ?_
  refine within_exit fun _ => ?_
  refine within_last (copyOut_within (h.storeStart ?_))
  exact ite_lt_le _ _

theorem fat32FileRead_within (fd : BitVec 32) (f : File) (w : FileWorld R) :
    Within (InRange buf (buf + count)) (fat32FileRead hw fd f buf count w) := by
  simp only [fat32FileRead]
  cases (w.kernel.pool.nodes f.vnode).privateData with
  | none => exact within_pure
  | some pd =>
    refine within_exit fun _ => ?_
    -- What is asked for is at most the count.
    have hread : wrap32 (if sub64 pd.size.toNat f.offset.toNat < count
        then sub64 pd.size.toNat f.offset.toNat else count) ≤ count := by
      refine Nat.le_trans (Nat.mod_le _ _) ?_
      split <;> omega
    generalize wrap32 (if sub64 pd.size.toNat f.offset.toNat < count
      then sub64 pd.size.toNat f.offset.toNat else count) = toRead at hread ⊢
    rcases hw.kmalloc w.kernel.rest (wrap32 (f.offset.toNat + toRead)) with ⟨rest, tmp⟩
    cases tmp with
    | none => exact within_pure
    | some tmp =>
      refine within_exit fun _ => ?_
      refine within_exit fun hgot => ?_
      refine within_last (copyOut_within (h.storeStart ?_))
      exact Nat.le_trans (fat32_copied_le hgot) hread

end

/-- The driver touches nothing itself, in any number of attempts. -/
theorem blkSubmitRetry_within (h : Blk.BlkHardware R) (hP : ∀ buf segs, P (.dma buf segs))
    (r : Blk.BlkReq) (attempts : Nat) :
    ∀ (rest : R) (dev : Blk.BlkDev), Within P (Blk.blkSubmitRetry h r attempts rest dev) := by
  have honce : ∀ (rest : R) (dev : Blk.BlkDev), Within P (Blk.blkSubmitOnce h rest dev r) := by
    intro rest dev
    refine within_exit fun _ => ?_
    exact within_last (within_access.mpr (hP _ _))
  induction attempts with
  | zero => exact fun rest dev => within_pure
  | succ attempts ih =>
    intro rest dev
    refine within_then (honce rest dev) ?_
    refine within_exit fun _ => ?_
    exact within_exit fun _ => ih _ _

theorem blkRwLoop_within (h : Blk.BlkHardware R) (hP : ∀ buf segs, P (.dma buf segs))
    (type : Blk.ReqType) (buf count maxSectors fuel : Nat) :
    ∀ (done : Nat) (rest : R) (dev : Blk.BlkDev),
      Within P (Blk.blkRwLoop h type buf count maxSectors fuel done rest dev) := by
  induction fuel with
  | zero => exact fun done rest dev => within_pure
  | succ fuel ih =>
    intro done rest dev
    refine within_ite (fun _ => ?_) fun _ => within_pure
    refine within_then (blkSubmitRetry_within h hP _ _ rest dev) ?_
    exact within_exit fun _ => ih _ _ _

theorem blkRw_within (h : Blk.BlkHardware R) (hP : ∀ buf segs, P (.dma buf segs))
    (type : Blk.ReqType) (sector buf count : Nat) (rest : R) (dev : Blk.BlkDev) :
    Within P (Blk.blkRw h type sector buf count rest dev) := by
  refine within_exit fun _ => ?_
  refine within_exit fun _ => ?_
  exact within_exit fun _ => blkRwLoop_within h hP type buf count _ _ 0 _ _

/-- A transfer of `/dev/blk` does what the transfer below does. -/
theorem blkDevTransfer_within {transfer : Nat → Nat → Nat → R → Blk.BlkDev →
      Logged (R × Blk.BlkDev × Blk.BlkResult)}
    (ht : ∀ sector buf count rest dev, Within P (transfer sector buf count rest dev))
    (fd : BitVec 32) (f : File) (buf count : Nat) (w : FileWorld R) :
    Within P (blkDevTransfer transfer fd f buf count w) := by
  refine within_exit fun _ => ?_
  refine within_then (ht _ _ _ _ _) ?_
  exact within_exit fun _ => within_pure

theorem blkDevWrite_within (hP : ∀ buf segs, P (.dma buf segs)) (fd : BitVec 32) (f : File)
    (buf count : Nat) (w : FileWorld R) :
    Within P (blkDevWrite hw fd f buf count w) := by
  refine blkDevTransfer_within (fun sector buf count rest dev => ?_) fd f buf count w
  exact within_exit fun _ => blkRw_within _ hP _ _ _ _ _ _

/-- A read touches the buffer it is given, whatever the file is. -/
theorem fdRead_within (h : UserBuf buf count) (fd : BitVec 32) (w : FileWorld R) :
    Within (InRange buf (buf + count)) (fdRead hw fd buf count w) := by
  unfold fdRead
  cases fileAt w.kernel fd with
  | none => exact within_pure
  | some f =>
    cases hops : (w.kernel.pool.nodes f.vnode).ops with
    | none =>
      simp only [hops]
      exact within_pure
    | some ops =>
      simp only [hops]
      cases ops with
      | console => exact consoleRead_within hw h w
      | null => exact within_pure
      | zero => exact zeroRead_within h w
      | rng => exact within_last (rngLoop_within hw h (Nat.mod_le _ _) _ 0 w)
      | blk =>
        exact blkDevTransfer_within (blkRw_within hw.toBlkHardware (inRange_dma _ _) .tIn) fd f buf
          count w
      | vcons => exact within_pure
      | uart0 => exact uart0Read_within hw h w
      | proc file => exact procReadVia_within hw h file fd f w
      | fat32File => exact fat32FileRead_within hw h fd f w

/-- So does a write. -/
theorem fdWrite_within (h : UserBuf buf count) (fd : BitVec 32) (w : FileWorld R) :
    Within (InRange buf (buf + count)) (fdWrite hw fd buf count w) := by
  unfold fdWrite
  cases fileAt w.kernel fd with
  | none => exact within_pure
  | some f =>
    cases hops : (w.kernel.pool.nodes f.vnode).ops with
    | none =>
      simp only [hops]
      exact within_pure
    | some ops =>
      simp only [hops]
      cases ops with
      | console => exact consoleWrite_within hw h w
      | blk => exact blkDevWrite_within hw (inRange_dma _ _) fd f buf count w
      | vcons => exact vconsWrite_within hw h w
      | uart0 => exact uart0Write_within hw h w
      | _ => exact within_pure

/-- The only control call with a pointer checks it itself. -/
theorem fdIoctl_within (fd : BitVec 32) (cmd arg : BitVec 64) (w : FileWorld R) :
    Within (InRange 0 userStackTop) (fdIoctl fd cmd arg w) := by
  unfold fdIoctl
  cases fileAt w.kernel fd with
  | none => exact within_pure
  | some f =>
    refine within_ite (fun _ => ?_) fun _ => within_pure
    refine within_exit fun _ => ?_
    refine within_ite (fun _ => ?_) fun _ => within_pure
    refine within_exit fun hok => ?_
    refine within_last (copyOut_within ?_)
    have hptr := of_decide_eq_true (Bool.of_not_eq_false hok)
    have hsum := BitVec.toNat_add arg 16
    refine inRange_store (Nat.le_of_lt userStackTop_lt) (.inr ⟨Nat.zero_le _, ?_⟩)
    have h16 : (16 : BitVec 64).toNat = 16 := rfl
    have hsize : framingStatsSize = 16 := rfl
    omega

end

end Vfs

end CortexForge
