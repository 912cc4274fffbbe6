import CortexForge.Core.Vfs

/-!
# File Operations

Reading, writing and control of open files: the devices of `devices/devices.c` with
the drivers behind them as far as they touch the caller's buffer (`rng_read`,
`vcons_send`, `framing_send_reliable`), the files of `fs/proc/proc.c`, and the files
of the FAT32 volume of `fs/fat32/fat32_vfs.c`.

Every load and store through the buffer is logged with its address and length. A
copy is one access. The operations work on the whole `World`, since a read changes
the caller's memory.

What the block device writes is not seen in that memory: the addresses it is given
are those of `Core.BlkDevice`.

## Main definitions

* `fdRead`, `fdWrite`, `fdIoctl`: The calls, by descriptor.
* `consoleRead`, `rngRead`, `procReadVia`, `fat32FileRead`, ...: The operations.
-/

namespace CortexForge.Vfs

open Traced Syscall Framing

/-- The caller's memory together with the file layer. -/
abbrev FileWorld (R : Type) := World (Files R)

/-- What an operation leaves behind, and the `int` it returns. -/
abbrev FileResult (R : Type) := FileWorld R × BitVec 32

variable {R : Type} (hw : Hardware R)

def withRest (w : FileWorld R) (rest : R) : FileWorld R :=
  { w with kernel := { w.kernel with rest := rest } }

def withFile (w : FileWorld R) (fd : BitVec 32) (f : File) : FileWorld R :=
  { w with kernel := setFile w.kernel fd (some f) }

/-- Store a byte through the caller's pointer. -/
def storeByte (w : FileWorld R) (addr : Nat) (b : Byte) : Logged (FileWorld R) := do
  access (.store addr 1)
  pure { w with mem := Function.update w.mem addr b }

/-- Copy `n` bytes of a kernel buffer to the caller's. -/
def copyOut (w : FileWorld R) (dst : Nat) (src : Memory) (off n : Nat) : Logged (FileWorld R) := do
  access (.store dst n)
  pure { w with mem := memcpy w.mem dst src off n }

section

def consoleRead (buf count : Nat) (w : FileWorld R) : Logged (FileResult R) := do
  let w ← loop (fun i w =>
    let (rest, b) := hw.uartGetc w.kernel.rest
    storeByte (withRest w rest) (wrap64 (buf + i)) b) count 0 w
  pure (w, BitVec.ofNat 32 count)

def consoleWrite (buf count : Nat) (w : FileWorld R) : Logged (FileResult R) := do
  let w ← loop (fun i w => do
    let b ← loadByte w.mem (wrap64 (buf + i))
    pure (withRest w (hw.uartPutc w.kernel.rest b))) count 0 w
  pure (w, BitVec.ofNat 32 count)

def zeroRead (buf count : Nat) (w : FileWorld R) : Logged (FileResult R) := do
  let w ← loop (fun i w => storeByte w (wrap64 (buf + i)) 0#8) count 0 w
  pure (w, BitVec.ofNat 32 count)

/-- End of file, whatever the buffer is. -/
def nullRead (w : FileWorld R) : Logged (FileResult R) := pure (w, 0)

/-- Accept everything and look at nothing. -/
def nullWrite (count : Nat) (w : FileWorld R) : Logged (FileResult R) :=
  pure (w, BitVec.ofNat 32 count)

end

section

def rngBufSize : Nat := 256

/-- The loop over requests for random bytes, with `done` bytes behind it. Each request
    is for one byte at least, so `count` turns are enough. -/
def rngLoop (buf count : Nat) : Nat → Nat → FileWorld R → Logged (FileWorld R)
  | 0, _, w => pure w
  | fuel + 1, done, w =>
      if done < count then do
        let chunk := if count - done > rngBufSize then rngBufSize else count - done
        let (rest, bytes) := hw.rngFill w.kernel.rest chunk
        let w ← loop (fun i w => storeByte w (wrap64 (buf + (done + i))) (bytes i)) chunk 0
          (withRest w rest)
        rngLoop buf count fuel (done + chunk) w
      else pure w

def rngRead (buf count : Nat) (w : FileWorld R) : Logged (FileResult R) := do
  -- The driver takes a count of 32 bits.
  let count := wrap32 count
  let w ← rngLoop hw buf count count 0 w
  pure (w, BitVec.ofNat 32 count)

end

section

def consoleTxBuf : Nat := 4096

/-- The bytes of memory from an address on. -/
def bytesAt (mem : Memory) (addr n : Nat) : List Byte :=
  (List.range n).map fun i => mem (addr + i)

/-- The loop that stages the data and sends it off. -/
def vconsLoop (buf len : Nat) : Nat → Nat → FileWorld R → Logged (FileWorld R)
  | 0, _, w => pure w
  | fuel + 1, done, w =>
      if done < len then do
        let chunk := if len - done > consoleTxBuf then consoleTxBuf else len - done
        access (.load (wrap64 (buf + done)) chunk)
        let bytes := bytesAt w.mem (wrap64 (buf + done)) chunk
        vconsLoop buf len fuel (done + chunk) (withRest w (hw.vconsPush w.kernel.rest bytes))
      else pure w

def vconsWrite (buf count : Nat) (w : FileWorld R) : Logged (FileResult R) :=
  let len := wrap32 count
  if hw.vconsReady w.kernel.rest = false then pure (w, -1)
  else if len = 0 then pure (w, 0)
  else do
    let w ← vconsLoop hw buf len len 0 w
    pure (w, BitVec.ofNat 32 len)

end

section

def framingMaxRetries : Nat := 3

def framingDefaultTimeoutTicks : BitVec 64 := 100

/-- The size of the counters of the framing layer. -/
def framingStatsSize : Nat := 16

def uartIoctlSetTimeout : BitVec 64 := 1

def uartIoctlGetStats : BitVec 64 := 2

/-- Receive a frame from the second serial port. -/
def recvFrame (w : FileWorld R) : FileWorld R × Code × Frame :=
  let (rest, stats, code, frame) :=
    hw.framingRecv w.kernel.rest w.kernel.framingStats w.kernel.framingTimeout
  ({ w with kernel := { w.kernel with rest := rest, framingStats := stats } }, code, frame)

/-- Send a frame; one that cannot be encoded is not sent. -/
def sendFrame (w : FileWorld R) (type seq : Byte) (payload : List Byte) : FileWorld R :=
  match framingEncode type seq payload with
  | none => w
  | some wire =>
      let stats := w.kernel.framingStats
      { w with kernel := { w.kernel with
        rest := hw.uart1Send w.kernel.rest wire
        framingStats := { stats with framesSent := wrap32 (stats.framesSent + 1) } } }

def uart0Read (buf count : Nat) (w : FileWorld R) : Logged (FileResult R) :=
  let (rest, available) := hw.framingEnsureHw w.kernel.rest
  let w := withRest w rest
  if available = false then pure (w, -1)
  else
    match recvFrame hw w with
    | (w, .ok, frame) =>
        if frame.type = frameTypeData then do
          let w := sendFrame hw w frameTypeAck frame.seq []
          -- A frame that is longer than the buffer is cut.
          let n := if frame.len > count then count % 2 ^ 16 else frame.len
          let w ← copyOut w buf (fun i => frame.payload.getD i 0#8) 0 n
          pure (w, BitVec.ofNat 32 n)
        else pure (w, -1)
    | (w, .errCrc, frame) => pure (sendFrame hw w frameTypeNack frame.seq [], -1)
    | (w, _, _) => pure (w, -1)

/-- Send a frame and wait for its acknowledgement, with some attempts left. The
    payload is read from the caller's buffer for each of them. -/
def framingSendReliable (seq : Byte) (buf len : Nat) :
    Nat → Bool → FileWorld R → Logged (FileWorld R × Code)
  | 0, _, w => pure (w, .errTimeout)
  | attempts + 1, again, w => do
      let stats := w.kernel.framingStats
      let w := if again then
        { w with kernel := { w.kernel with
          framingStats := { stats with retransmits := wrap32 (stats.retransmits + 1) } } }
        else w
      access (.load buf len)
      let w := sendFrame hw w frameTypeData seq (bytesAt w.mem buf len)
      let (w, code, frame) := recvFrame hw w
      if code = .ok ∧ frame.type = frameTypeAck ∧ frame.seq = seq then pure (w, .ok)
      else framingSendReliable seq buf len attempts true w

def uart0Write (buf count : Nat) (w : FileWorld R) : Logged (FileResult R) :=
  let (rest, available) := hw.framingEnsureHw w.kernel.rest
  let w := withRest w rest
  if available = false then pure (w, -1)
  else do
    let len := if count > framingMaxPayload then framingMaxPayload else count
    let (w, code) ← framingSendReliable hw w.kernel.uart0TxSeq buf len (framingMaxRetries + 1)
      false w
    let w := { w with kernel := { w.kernel with uart0TxSeq := w.kernel.uart0TxSeq + 1 } }
    pure (w, if code = .ok then BitVec.ofNat 32 len else -1)

/-- The counters as they lie in memory, four words of 32 bits. -/
def statsBytes (stats : FramingStats) (i : Nat) : Byte :=
  let word := match i / 4 with
    | 0 => stats.framesSent
    | 1 => stats.framesRecv
    | 2 => stats.retransmits
    | _ => stats.crcErrors
  BitVec.ofNat 8 (word / 2 ^ (8 * (i % 4)))

/-- The pointer to the counters is in the user address range. -/
def statsPtrOk (arg : BitVec 64) : Bool :=
  decide (¬(arg = 0 ∨ (arg + 16).toNat > userStackTop ∨ (arg + 16).toNat < arg.toNat))

def uart0Ioctl (cmd arg : BitVec 64) (w : FileWorld R) : Logged (FileResult R) :=
  if cmd = uartIoctlSetTimeout then
    let timeout := if arg = 0 then framingDefaultTimeoutTicks else arg
    pure ({ w with kernel := { w.kernel with framingTimeout := timeout } }, 0)
  else if cmd = uartIoctlGetStats then
    if statsPtrOk arg = false then pure (w, -1)
    else do
      let w ← copyOut w arg.toNat (statsBytes w.kernel.framingStats) 0 framingStatsSize
      pure (w, 0)
  else pure (w, -1)

end

section

def procBufBytes : Nat := 2048

/-- Generate a file below `/proc` and copy out what is asked for. -/
def procReadVia (file : ProcFile) (fd : BitVec 32) (f : File) (buf count : Nat)
    (w : FileWorld R) : Logged (FileResult R) :=
  let (rest, text, total) := hw.procGenerate w.kernel.rest file
  let w := withRest w rest
  if total.toInt < 0 then pure (w, -1)
  else
    -- The length is what the text would have without the limit of the buffer.
    let avail := if total.toNat ≥ procBufBytes then procBufBytes - 1 else total.toNat
    if f.offset.toNat ≥ avail then pure (w, 0)
    else do
      let remaining := avail - f.offset.toNat
      let n := if count < remaining then count else remaining
      let w ← copyOut w buf text f.offset.toNat n
      pure (withFile w fd { f with offset := f.offset + BitVec.ofNat 64 n }, BitVec.ofNat 32 n)

/-- Read a file of the FAT32 volume: everything up to the end of what is asked for,
    into a buffer of the kernel, and then that part out of it. -/
def fat32FileRead (fd : BitVec 32) (f : File) (buf count : Nat) (w : FileWorld R) :
    Logged (FileResult R) :=
  match (w.kernel.pool.nodes f.vnode).privateData with
  | none => pure (w, -1)
  | some pd =>
      if f.offset.toInt ≥ pd.size.toNat then pure (w, 0)
      else
        let remaining := sub64 pd.size.toNat f.offset.toNat
        let toRead := wrap32 (if remaining < count then remaining else count)
        let needed := wrap32 (f.offset.toNat + toRead)
        match hw.kmalloc w.kernel.rest needed with
        | (rest, none) => pure (withRest w rest, -1)
        | (rest, some tmp) =>
            let (rest, bytes, got) := hw.fat32Read rest pd.firstCluster needed
            if got.toInt < 0 then pure (withRest w (hw.kfree rest tmp), -1)
            else if got.toNat ≤ wrap32 f.offset.toNat then pure (withRest w (hw.kfree rest tmp), 0)
            else do
              let n := if got.toNat < needed then got.toNat - wrap32 f.offset.toNat else toRead
              let w ← copyOut w buf bytes f.offset.toNat n
              pure (withFile (withRest w (hw.kfree rest tmp)) fd
                { f with offset := f.offset + BitVec.ofNat 64 n }, BitVec.ofNat 32 n)

/-- One of the two transfers of `/dev/blk`. Offset and count are whole sectors. -/
def blkDevTransfer
    (transfer : Nat → Nat → Nat → R → Blk.BlkDev →
      Logged (R × Blk.BlkDev × Blk.BlkResult))
    (fd : BitVec 32) (f : File) (buf count : Nat) (w : FileWorld R) :
    Logged (FileResult R) :=
  if f.offset.toInt.tmod Blk.virtioBlkSectorSize ≠ 0 ∨ count % Blk.virtioBlkSectorSize ≠ 0 then
    pure (w, -1)
  else do
    let sectors := count / Blk.virtioBlkSectorSize
    let sector := f.offset.toNat / Blk.virtioBlkSectorSize
    let (rest, dev, rc) ← transfer sector buf (wrap32 sectors) w.kernel.rest w.kernel.blk
    let w := { w with kernel := { w.kernel with rest := rest, blk := dev } }
    if rc ≠ .success then pure (w, -1)
    else
      pure (withFile w fd { f with offset := f.offset + BitVec.ofNat 64 count },
        BitVec.ofNat 32 count)

def blkDevRead (fd : BitVec 32) (f : File) (buf count : Nat) (w : FileWorld R) :
    Logged (FileResult R) :=
  blkDevTransfer (Blk.blkRead hw.toBlkHardware) fd f buf count w

def blkDevWrite (fd : BitVec 32) (f : File) (buf count : Nat) (w : FileWorld R) :
    Logged (FileResult R) :=
  blkDevTransfer (Blk.blkWrite hw.toBlkHardware) fd f buf count w

end

section

/-- The read operation of a table; a node without a table has none. -/
def fileRead (ops : Option FileOps) (fd : BitVec 32) (f : File) (buf count : Nat)
    (w : FileWorld R) : Logged (FileResult R) :=
  match ops with
  | none => pure (w, -1)
  | some .console => consoleRead hw buf count w
  | some .null => nullRead w
  | some .zero => zeroRead buf count w
  | some .rng => rngRead hw buf count w
  | some .blk => blkDevRead hw fd f buf count w
  -- The receiving side of the virtio console is not used.
  | some .vcons => nullRead w
  | some .uart0 => uart0Read hw buf count w
  | some (.proc file) => procReadVia hw file fd f buf count w
  | some .fat32File => fat32FileRead hw fd f buf count w

/-- The write operation of a table. Random numbers, `/proc` and the volume have
    none. -/
def fileWrite (ops : Option FileOps) (fd : BitVec 32) (f : File) (buf count : Nat)
    (w : FileWorld R) : Logged (FileResult R) :=
  match ops with
  | some .console => consoleWrite hw buf count w
  | some .null => nullWrite count w
  | some .zero => nullWrite count w
  | some .blk => blkDevWrite hw fd f buf count w
  | some .vcons => vconsWrite hw buf count w
  | some .uart0 => uart0Write hw buf count w
  | _ => pure (w, -1)

def fdRead (fd : BitVec 32) (buf count : Nat) (w : FileWorld R) :
    Logged (FileResult R) :=
  match fileAt w.kernel fd with
  | none => pure (w, -1)
  | some f => fileRead hw (w.kernel.pool.nodes f.vnode).ops fd f buf count w

def fdWrite (fd : BitVec 32) (buf count : Nat) (w : FileWorld R) :
    Logged (FileResult R) :=
  match fileAt w.kernel fd with
  | none => pure (w, -1)
  | some f => fileWrite hw (w.kernel.pool.nodes f.vnode).ops fd f buf count w

def fdIoctl (fd : BitVec 32) (cmd arg : BitVec 64) (w : FileWorld R) :
    Logged (FileResult R) :=
  match fileAt w.kernel fd with
  | none => pure (w, -1)
  | some f =>
      if (w.kernel.pool.nodes f.vnode).ops = some .uart0 then uart0Ioctl cmd arg w
      else pure (w, -1)

end

end CortexForge.Vfs
