import CortexForge.Theory.Blk
import CortexForge.Theory.PathAccess
import CortexForge.Theory.Syscall

/-!
# Pointers of the Caller

Every address that the kernel touches for a system call, through whatever pointer the
caller gave, is in the user address range. The arguments are arbitrary, and so are
the contents of the caller's memory, which is where the pointers of an argument
vector come from.

The checks are in five places and are not the same: the dispatcher checks buffers and
strings, `exec` checks each slot of the argument vector and each string in it,
`sigreturn` and `sigprocmask` check their own pointers, and so does the control call
of the serial port. A read or a write keeps to its buffer besides, which is what the
device behind it decides.

The traced dispatcher computes what the dispatcher of `Core.Syscall` does
(`dispatchTraced_value`).

## Theorems

* `dispatchTraced_value`: The traced dispatcher is the dispatcher.
* `kernel_pointers_closed`: What the kernel touches for a system call.
-/

namespace CortexForge.Vfs

open Traced Syscall Signal UserAccess Bool

variable {R : Type} (hw : Hardware R) (svc : Services (Files R)) (images : ImageServices R)

section

variable {mem : Memory} (argv : BitVec 64)

theorem loadU64Traced_within {slot : BitVec 64} (hslot : userBufOk slot 8 = true) :
    Within (InRange 0 userStackTop) (loadU64Traced mem slot) := by
  refine within_last (within_access.mpr ?_)
  rcases userBuf_of_ok hslot with hzero | htop
  · exact absurd hzero (by decide)
  · exact inRange_load (Nat.le_of_lt userStackTop_lt) (.inr ⟨Nat.zero_le _, htop⟩)

/-- The slots of the argument vector and the strings they point to. -/
theorem captureArgsTraced_within (n : Nat) : ∀ argc bytes,
    Within (InRange 0 userStackTop) (captureArgsTraced mem argv n argc bytes) := by
  induction n with
  | zero => exact fun argc bytes => within_pure
  | succ n ih =>
    intro argc bytes
    refine within_exit fun hslot => ?_
    refine within_then (loadU64Traced_within (of_not_eq_false hslot)) ?_
    refine within_exit fun _ => ?_
    refine within_then (userStrOkTraced_within _) ?_
    rw [userStrOkTraced_value]
    generalize hp : value (loadU64Traced mem (argv + BitVec.ofNat 64 (argc * 8))) = p
    cases hlen : userStrOk mem p with
    | none => exact within_pure
    | some len =>
      refine within_exit fun _ => ?_
      have hstr := (userStrOk_str hlen).1
      refine within_then (within_access.mpr (hstr.load (by omega))) ?_
      exact within_last (ih _ _)

theorem captureArgsTraced_value (n : Nat) : ∀ argc bytes,
    value (captureArgsTraced mem argv n argc bytes) = captureArgs mem argv n argc bytes := by
  induction n with
  | zero => exact fun argc bytes => rfl
  | succ n ih =>
    intro argc bytes
    have hload : value (loadU64Traced mem (argv + BitVec.ofNat 64 (argc * 8)))
      = loadU64 mem (argv + BitVec.ofNat 64 (argc * 8)) := rfl
    simp only [captureArgsTraced, captureArgs, value_ite, value_bind, hload,
      userStrOkTraced_value]
    cases userStrOk mem (loadU64 mem (argv + BitVec.ofNat 64 (argc * 8))) with
    | none => rfl
    | some len => simp only [value_ite, value_bind, ih, value_pure]

end

section

/-- Reading the file to be executed leaves the caller's memory alone. -/
theorem slurp_mem (fd : BitVec 32) (w : FileWorld R) : (slurp hw fd w).1.mem = w.mem := by
  simp only [slurp]
  repeat' split
  all_goals rfl

theorem loadImageTraced_within (path : BitVec 64) (args : List (List Byte)) (w : FileWorld R)
    {len : Nat} (hpath : userStrOk w.mem path = some len) :
    Within (InRange 0 userStackTop) (loadImageTraced hw images path args w) := by
  rcases userStrOk_str hpath with ⟨hstr, hlen⟩
  refine within_then ((fdOpen_follows hw w.kernel hstr (by omega)).1) ?_
  cases value (fdOpen hw w.mem w.kernel path.toNat) with
  | none => exact within_pure
  | some r =>
    rcases r with ⟨k, fd⟩
    refine within_exit fun _ => ?_
    have hmem := slurp_mem hw (BitVec.ofInt 32 fd) { w with kernel := k }
    rcases hfile : slurp hw (BitVec.ofInt 32 fd) { w with kernel := k } with ⟨w', file⟩
    rw [hfile] at hmem
    cases file with
    | none => exact within_pure
    | some file =>
      simp only []
      rcases images.prepare w'.kernel.rest file with ⟨rest, image⟩
      cases image with
      | none => exact within_pure
      | some image =>
        -- The path is read a second time, from the same memory.
        have hstr' : Str w'.mem path.toNat (path.toNat + len) := hmem ▸ hstr
        refine within_then ((printPath_follows hstr' (by omega)).1) ?_
        cases value (printPath w' path) with
        | none => exact within_pure
        | some u => exact within_pure

theorem sysExecTraced_within (path argv : BitVec 64) (frame : TrapFrame) (w : FileWorld R) :
    Within (InRange 0 userStackTop) (sysExecTraced hw images path argv frame w) := by
  refine within_then (userStrOkTraced_within path) ?_
  rw [userStrOkTraced_value]
  refine within_exit fun hpath => ?_
  refine within_exit fun _ => ?_
  refine within_then (within_exit fun _ =>
    captureArgsTraced_within argv _ _ _) ?_
  cases value (execArgsTraced w.mem argv) with
  | none => exact within_pure
  | some args =>
    rcases Option.ne_none_iff_exists'.mp hpath with ⟨len, hlen⟩
    exact within_last (loadImageTraced_within hw images path args w hlen)

theorem sysExecTraced_value (path argv : BitVec 64) (frame : TrapFrame) (w : FileWorld R) :
    value (sysExecTraced hw images path argv frame w)
      = sysExec (services hw svc images) path argv frame w := by
  simp only [sysExecTraced, sysExec, execArgsTraced, value_bind, value_ite, value_pure,
    userStrOkTraced_value, captureArgsTraced_value]
  cases (if argv = 0 then some [] else captureArgs w.mem argv execMaxArgc 0 0) <;> rfl

end

section

variable (t : SigTask) (mem : Memory) (frame : TrapFrame) (oldmask : BitVec 32) (how : Int)
  (oldsetPtr : BitVec 64)

/-- The fields of a signal frame that passed the check. -/
theorem signalSigreturnTraced_within :
    Within (InRange 0 userStackTop) (signalSigreturnTraced mem frame) := by
  refine within_exit fun hok => ?_
  refine within_last ?_
  have htop := (of_decide_eq_true (of_not_eq_false hok)).2
  have hfields : ∀ off ∈ sigframeLoads, off + 8 ≤ sigframeSize := by decide
  intro e he
  rcases List.mem_map.mp he with ⟨off, hoff, rfl⟩
  have hoff := hfields off hoff
  exact inRange_load (Nat.le_of_lt userStackTop_lt) (.inr ⟨Nat.zero_le _, by omega⟩)

theorem signalSigreturnTraced_value :
    value (signalSigreturnTraced mem frame) = signalSigreturn mem frame := by
  rw [signalSigreturnTraced]
  split_ifs with hok
  · rw [signalSigreturn, if_pos hok]
    rfl
  · rfl

/-- A pointer to four bytes that passed its check. -/
theorem u32PtrOk_top {ptr : BitVec 64} (h : u32PtrOk ptr = true) :
    ptr.toNat + 4 ≤ userStackTop := by
  rcases of_decide_eq_true h with ⟨_, hrange⟩
  have hsum := BitVec.toNat_add ptr 4
  have h4 : (4 : BitVec 64).toNat = 4 := rfl
  omega

theorem reportMaskTraced_within :
    Within (InRange 0 userStackTop) (reportMaskTraced t mem oldmask oldsetPtr) := by
  refine within_exit fun _ => ?_
  refine within_exit fun hok => ?_
  have htop := u32PtrOk_top (of_not_eq_false hok)
  refine within_last (within_access.mpr ?_)
  exact inRange_store (Nat.le_of_lt userStackTop_lt) (.inr ⟨Nat.zero_le _, htop⟩)

theorem signalSigprocmaskTraced_within (setPtr oldsetPtr : BitVec 64) :
    Within (InRange 0 userStackTop) (signalSigprocmaskTraced t mem how setPtr oldsetPtr) := by
  refine within_ite (fun _ => reportMaskTraced_within t mem _ _) fun _ => ?_
  refine within_exit fun hok => ?_
  have htop := u32PtrOk_top (of_not_eq_false hok)
  refine within_then (within_access.mpr ?_) ?_
  · exact inRange_load (Nat.le_of_lt userStackTop_lt) (.inr ⟨Nat.zero_le _, htop⟩)
  · cases newMask t.sigBlocked (BitVec.ofNat 32 (loadN mem setPtr.toNat 4)) how with
    | none => exact within_pure
    | some blocked => exact reportMaskTraced_within _ mem _ _

theorem reportMaskTraced_value :
    value (reportMaskTraced t mem oldmask oldsetPtr) = reportMask t mem oldmask oldsetPtr := by
  simp only [reportMaskTraced, value_ite]
  rfl

theorem signalSigprocmaskTraced_value (setPtr oldsetPtr : BitVec 64) :
    value (signalSigprocmaskTraced t mem how setPtr oldsetPtr)
      = signalSigprocmask t mem how setPtr oldsetPtr := by
  simp only [signalSigprocmaskTraced, signalSigprocmask, value_ite, value_bind, value_pure,
    reportMaskTraced_value]
  cases newMask t.sigBlocked (BitVec.ofNat 32 (loadN mem setPtr.toNat 4)) how with
  | none => rfl
  | some blocked => simp only [reportMaskTraced_value]

end

section

/-- A buffer that passed the check is in the user address range. -/
theorem inRange_top {buf count : Nat} (h : UserBuf buf count) (e : UserAccess)
    (he : InRange buf (buf + count) e) : InRange 0 userStackTop e := by
  intro a ha
  rcases he a ha with ⟨hlo, hhi⟩
  rcases h with h | h
  · omega
  · exact ⟨Nat.zero_le _, by omega⟩

theorem openCall_within (path : BitVec 64) (w : FileWorld R) {len : Nat}
    (hpath : userStrOk w.mem path = some len) :
    Within (InRange 0 userStackTop) (openCall hw path w) := by
  rcases userStrOk_str hpath with ⟨hstr, hlen⟩
  exact within_last ((fdOpen_follows hw w.kernel hstr (by omega)).1)

/-- A read and a write keep to the buffer. -/
theorem plainCallTraced_buffer {num : BitVec 64} (hnum : num.toNat = 0 ∨ num.toNat = 1)
    (arg0 arg1 arg2 : BitVec 64) (w : FileWorld R) :
    Within (InRange arg1.toNat (arg1.toNat + arg2.toNat))
      (plainCallTraced hw svc images num arg0 arg1 arg2 w) := by
  rcases hnum with hnum | hnum
  · simp only [plainCallTraced, hnum]
    refine within_ite (fun hok => ?_) fun _ => within_pure
    rw [and_eq_true] at hok
    exact within_map.mpr (fdRead_within hw (userBuf_of_ok hok.2) _ w)
  · simp only [plainCallTraced, hnum]
    refine within_ite (fun hok => ?_) fun _ => within_pure
    rw [and_eq_true] at hok
    exact within_map.mpr (fdWrite_within hw (userBuf_of_ok hok.2) _ w)

theorem plainCallTraced_within (num arg0 arg1 arg2 : BitVec 64) (w : FileWorld R) :
    Within (InRange 0 userStackTop) (plainCallTraced hw svc images num arg0 arg1 arg2 w) := by
  unfold plainCallTraced
  split
  · refine within_ite (fun hok => ?_) fun _ => within_pure
    have hbuf := userBuf_of_ok (and_eq_true _ _ ▸ hok).2
    exact within_map.mpr (within_mono (fdRead_within hw hbuf _ w) (inRange_top hbuf))
  · refine within_ite (fun hok => ?_) fun _ => within_pure
    have hbuf := userBuf_of_ok (and_eq_true _ _ ▸ hok).2
    exact within_map.mpr (within_mono (fdWrite_within hw hbuf _ w) (inRange_top hbuf))
  · refine within_ite (fun _ => ?_) fun _ => within_pure
    refine within_then (userStrOkTraced_within arg0) ?_
    rw [userStrOkTraced_value]
    refine within_ite (fun hlen => ?_) fun _ => within_pure
    rcases Option.isSome_iff_exists.mp hlen with ⟨len, hlen⟩
    exact openCall_within hw arg0 w hlen
  · exact within_last (signalSigprocmaskTraced_within _ _ _ _ _)
  · refine within_ite (fun _ => ?_) fun _ => within_pure
    exact within_map.mpr (fdIoctl_within _ _ _ w)
  · exact within_pure

theorem plainCallTraced_value (num arg0 arg1 arg2 : BitVec 64) (w : FileWorld R) :
    value (plainCallTraced hw svc images num arg0 arg1 arg2 w)
      = plainCall (services hw svc images) num arg0 arg1 arg2 w := by
  unfold plainCallTraced
  split
  · next hnum =>
      simp only [plainCall, hnum, value_ite]
      rfl
  · next hnum =>
      simp only [plainCall, hnum, value_ite]
      rfl
  · next hnum =>
      simp only [plainCall, hnum, value_ite, value_bind, userStrOkTraced_value]
      cases hfds : w.hasFds <;> rfl
  · next hnum =>
      simp only [plainCall, hnum, value_bind, signalSigprocmaskTraced_value]
      rfl
  · next hnum =>
      simp only [plainCall, hnum, value_ite]
      rfl
  · rfl

theorem dispatchTraced_value (w : FileWorld R) (frame : TrapFrame) :
    value (syscallDispatchTraced hw svc images w frame)
      = syscallDispatch (services hw svc images) w frame := by
  have hexecNum : sysExecNum ≠ sysExitNum ∧ sysExecNum ≠ sysForkNum := by decide
  have hsigNum : sysSigreturnNum ≠ sysExitNum ∧ sysSigreturnNum ≠ sysForkNum ∧
      sysSigreturnNum ≠ sysExecNum := by decide
  simp only [syscallDispatchTraced, value_ite, value_bind, sysExecTraced_value hw svc,
    signalSigreturnTraced_value, plainCallTraced_value]
  split_ifs with hexec hsig hother
  · simp [syscallDispatch, hexec, hexecNum]
  · simp [syscallDispatch, hsig, hsigNum]
  · rfl
  · simp [syscallDispatch, hexec, hsig, not_or.mp hother]

/-- What the kernel touches for a system call. Whatever its number and arguments and
    the contents of the caller's memory are, every address is in the user address
    range; a read and a write keep to their buffer. These are all the accesses: the
    traced dispatcher returns what the dispatcher does, and no path that passed its
    check is left before its end. -/
theorem kernel_pointers_closed (w : FileWorld R) (frame : TrapFrame) :
    Within (InRange 0 userStackTop) (syscallDispatchTraced hw svc images w frame) ∧
    ((frame.regs 8).toNat = 0 ∨ (frame.regs 8).toNat = 1 →
      Within (InRange (frame.regs 1).toNat ((frame.regs 1).toNat + (frame.regs 2).toNat))
        (syscallDispatchTraced hw svc images w frame)) ∧
    value (syscallDispatchTraced hw svc images w frame)
      = syscallDispatch (services hw svc images) w frame ∧
    (∀ path, userStrOk w.mem path ≠ none →
      value (fdOpen hw w.mem w.kernel path.toNat) ≠ none ∧ value (printPath w path) ≠ none) := by
  refine ⟨?_, fun hnum => ?_, dispatchTraced_value hw svc images w frame, fun path hpath => ?_⟩
  · refine within_ite (fun _ => ?_) fun _ => within_ite (fun _ => ?_) fun _ =>
      within_exit fun _ => ?_
    · exact within_last (sysExecTraced_within hw images _ _ frame w)
    · exact within_last (signalSigreturnTraced_within w.mem frame)
    · exact within_last (plainCallTraced_within hw svc images _ _ _ _ w)
  · -- The numbers 0 and 1 are none of those that are handled apart.
    have hother : ∀ num : BitVec 64, 1 < num.toNat → frame.regs 8 ≠ num := by
      intro num hlt heq
      rw [heq] at hnum
      omega
    unfold syscallDispatchTraced
    simp only [if_neg (hother sysExecNum (by decide)), if_neg (hother sysSigreturnNum (by decide)),
      if_neg (not_or.mpr ⟨hother sysExitNum (by decide), hother sysForkNum (by decide)⟩)]
    exact within_last (plainCallTraced_buffer hw svc images hnum _ _ _ w)
  · rcases Option.ne_none_iff_exists'.mp hpath with ⟨len, hlen⟩
    rcases userStrOk_str hlen with ⟨hstr, hmax⟩
    exact ⟨(fdOpen_follows hw w.kernel hstr (by omega)).ne_none trivial,
      (printPath_follows hstr (by omega)).ne_none trivial⟩

end

section

/-- A device that answers every request at once. -/
def quietHardware : Hardware Unit :=
  { bringup := fun _ => ((), none)
    wait := fun _ vq n => ((), vq, n, true, Blk.virtioBlkSOk)
    hdr := 0x40100000
    status := 0x40100010
    uartGetc := fun _ => ((), 0)
    uartPutc := fun _ _ => ()
    rngFill := fun _ _ => ((), fun _ => 0)
    vconsReady := fun _ => false
    vconsPush := fun _ _ => ()
    framingEnsureHw := fun _ => ((), false)
    uart1Send := fun _ _ => ()
    framingRecv := fun _ stats _ =>
      ((), stats, .errTimeout, { type := 0, seq := 0, len := 0, payload := [] })
    procGenerate := fun _ _ => ((), fun _ => 0, 0)
    kmalloc := fun _ _ => ((), none)
    kfree := fun _ _ => ()
    fat32LookupInDir := fun _ _ _ => ((), none)
    fat32Read := fun _ _ _ => ((), fun _ => 0, 0) }

def quietImages : ImageServices Unit :=
  { Image := Unit
    prepare := fun _ _ => ((), none)
    commit := fun _ _ _ => none }

/-- A task with descriptor 3 on a node with the given operations, and a block device
    of eight sectors with four free descriptors. -/
def openWorld (ops : FileOps) : FileWorld Unit :=
  { task := { sigHandlers := fun _ => 0, sigPending := 0, sigBlocked := 0, sigAlarmTicks := 0
              stackGrownCount := 0 }
    mem := fun _ => 0
    hasFds := true
    kernel :=
      { pool := { nodes := fun _ => { name := [], type := .chr, ops := some ops }, count := 2 }
        fds := fun i => if i = 3 then some { record := 0, vnode := 1, offset := 0 } else none
        blk :=
          { sizeMax := 0xFFFFFFFF, mode := .irq, completions := 0
            timeoutSpins := Blk.blkDefaultTimeoutSpins, statIrqs := 0, initialized := true
            readOnly := false, capacitySectors := 8, segMax := 126, retries := 3
            vq := Blk.quadVq
            sizeMax_ge := fun _ => by decide
            sizeMax_lt := by decide
            segMax_ge := fun _ => by decide
            retries_pos := fun _ => by decide }
        framingTimeout := 100
        framingStats := {}
        uart0TxSeq := 0
        rest := () } }

/-- A read (0) or a write (1) of `count` bytes at `buf` through descriptor 3. -/
def transferFrame (num buf count : BitVec 64) : TrapFrame :=
  { svcFrame num with
    regs := fun i => if i = 8 then num else if i = 0 then 3 else if i = 1 then buf
      else if i = 2 then count else 0 }

/-- Two bytes of `/dev/zero`: both are stored, and in the buffer. -/
theorem kernel_pointers_zero :
    log (syscallDispatchTraced quietHardware idleServices quietImages (openWorld .zero)
      (transferFrame 0 0x7FF000 2)) = [.store 0x7FF000 1, .store 0x7FF001 1] ∧
    Within (InRange 0x7FF000 0x7FF002)
      (syscallDispatchTraced quietHardware idleServices quietImages (openWorld .zero)
        (transferFrame 0 0x7FF000 2)) :=
  ⟨by decide, (kernel_pointers_closed quietHardware idleServices quietImages (openWorld .zero)
    (transferFrame 0 0x7FF000 2)).2.1 (.inl rfl)⟩

end

end CortexForge.Vfs
