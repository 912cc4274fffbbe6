import CortexForge.Theory.ForkFidelity
import CortexForge.Theory.Vector

/-!
# The First Return of a Forked Task

`sched_fork` copies the trap frame of the parent, all 688 bytes of it, to the top of
the child's kernel stack, and puts the frame of a context switch below. The first
switch to the child pops that frame and returns into `fork_return`, which is meant to
do what the end of `exception_common` does.

It restores the same integer and system registers from the same slots. But it was
written for a frame of 288 bytes: it restores no vector register, no `FPSR` and no
`FPCR`, and it leaves the stack pointer 400 bytes below the top of the stack.

## Main definitions

* `kernelView`: Physical memory as the kernel sees it.
* `SameReturn`: Two returns that a task cannot tell apart.

## Theorems

* `schedFork_stack`: The kernel stack of a forked task.
* `fork_return_never`: The first return is not that of an exception.
-/

namespace CortexForge.Sched

open Mmu Elf CortexForge.Vector

/-- Memory at the addresses of the kernel's linear map. -/
def kernelView (mem : Memory) : Memory := fun va => mem (virtToPhys va)

/-- The registers a task comes back with and the kernel stack it leaves behind. -/
structure SameReturn (a b : Vector.Cpu) : Prop where
  x : a.x = b.x
  q : ∀ r, FpCaller r → a.q r = b.q r
  fpsr : a.sys .fpsr = b.sys .fpsr
  fpcr : a.sys .fpcr = b.sys .fpcr
  spEl0 : a.sys .spEl0 = b.sys .spEl0
  elr : a.sys .elrEl1 = b.sys .elrEl1
  spsr : a.sys .spsrEl1 = b.sys .spsrEl1
  sp : a.sp = b.sp

section

variable {σ : Type} {src : Pages σ} {img : KernelImage}

theorem physToVirt_eq {p : Nat} (hp : p < 2 ^ 48) : physToVirt p = p + kernelVaOffset := by
  unfold physToVirt wrap64 kernelVaOffset
  omega

theorem kernelView_at (mem : Memory) {p : Nat} (hp : p < 2 ^ 48) :
    kernelView mem (p + kernelVaOffset) = mem p := by
  have hback : virtToPhys (p + kernelVaOffset) = p := by
    unfold virtToPhys sub64 wrap64 kernelVaOffset
    omega
  exact congrArg mem hback

theorem loadN_kernelView (mem : Memory) {p n : Nat} (hp : p + n ≤ 2 ^ 48) :
    loadN (kernelView mem) (p + kernelVaOffset) n = loadN mem p n := by
  refine loadN_shift mem (kernelView mem) n p (p + kernelVaOffset) fun i hi => ?_
  rw [Nat.add_right_comm]
  exact kernelView_at mem (by omega)

/-- The kernel stack of a forked task, from the address `k` up. -/
theorem schedFork_stack {s s' : Sched σ} {kmallocOk fdsOk : Bool} {parent child : Task}
    {frame : Nat} {pid : Int} (hfork : schedFork src img s kmallocOk fdsOk parent frame = (s', pid))
    (hchild : s'.queue = s.queue ++ [child]) :
    ∃ k mem, k + taskStackPages * pageSize ≤ physLimit ∧
      child.sp = physToVirt
        (k + taskStackPages * pageSize - trapFrameSize - switchFrameSize) ∧
      child.kstackTop = wrap64 (physToVirt k + taskStackPages * pageSize) ∧
      s'.machine.mem = storeN mem
        (k + taskStackPages * pageSize - trapFrameSize - switchFrameSize + 88) 8
          img.forkReturn := by
  have hgrown : s'.queue ≠ s.queue := fun hc => by
    rw [hc] at hchild
    have hlen := congrArg List.length hchild
    rw [List.length_append, List.length_singleton] at hlen
    omega
  unfold schedFork at hfork
  rcases hkstack : zeroedPages src s.machine taskStackPages with ⟨mk, k⟩
  simp only [hkstack] at hfork
  split_ifs at hfork with hrecord hk hr hu <;> rw [Prod.mk.injEq] at hfork
  · exact absurd (congrArg Sched.queue hfork.1.symm) hgrown
  · exact absurd (congrArg Sched.queue hfork.1.symm) hgrown
  · exact absurd (congrArg Sched.queue hfork.1.symm) hgrown
  · exact absurd (congrArg Sched.queue hfork.1.symm) hgrown
  rcases hfork with ⟨rfl, -⟩
  -- The child is the task at the end of the queue.
  have hlast := List.append_cancel_left hchild
  cases hlast
  rcases zeroedPages_eq hkstack with ⟨m0, halloc, -, -⟩
  have hgot : (src.allocatePages s.machine.pmm taskStackPages).2 = k :=
    congrArg Prod.snd halloc
  have hbelow := src.alloc_below s.machine.pmm taskStackPages (by rw [hgot]; exact hk)
  rw [hgot] at hbelow
  exact ⟨k, _, hbelow, rfl, rfl, rfl⟩

end

/-- The first return of a forked task is not the return from its system call. The
    integer registers, `ELR`, `SPSR` and `SP_EL0` are the same. The vector registers,
    `FPSR` and `FPCR` are those of whoever ran before, and the kernel stack pointer is
    400 bytes below the top. -/
theorem fork_return_never {σ : Type} (src : Pages σ) (img : KernelImage)
    (s : Sched σ) (kmallocOk fdsOk : Bool) (parent : Task) (frame : Nat) (s' : Sched σ) (pid : Int)
    (child : Task) (hfork : schedFork src img s kmallocOk fdsOk parent frame = (s', pid))
    (hchild : s'.queue = s.queue ++ [child]) (c entered : Vector.Cpu) (hskip : c.skip = 0)
    (hsp : c.sp = child.sp) (hmem : c.mem = kernelView s'.machine.mem)
    (hentered : run contextSwitchIn c = entered) :
    entered.x 30 = BitVec.ofNat 64 img.forkReturn ∧
    ¬ SameReturn (run forkReturn entered) (run exceptionReturn entered) ∧
    (run exceptionReturn entered).sp = child.kstackTop ∧
    (run forkReturn entered).sp + 400 = child.kstackTop ∧
    (run forkReturn entered).x = (run exceptionReturn entered).x ∧
    (∀ r, r = .elrEl1 ∨ r = .spsrEl1 ∨ r = .spEl0 →
      (run forkReturn entered).sys r = (run exceptionReturn entered).sys r) ∧
    (∀ r, FpCaller r → (run forkReturn entered).q r = c.q r) ∧
    ∀ r, r = .fpsr ∨ r = .fpcr → (run forkReturn entered).sys r = c.sys r := by
  rcases schedFork_stack hfork hchild with ⟨k, mem, hbelow, hchildSp, htop, hframes⟩
  rcases contextSwitchIn_eq c hskip with ⟨x, q, hrun, hx30, hq⟩
  rw [hrun] at hentered
  subst hentered
  unfold taskStackPages physLimit at hbelow
  unfold taskStackPages pageSize trapFrameSize switchFrameSize at hchildSp hframes
  unfold taskStackPages pageSize at htop
  have htop' : child.kstackTop = c.sp + 848 := by
    rw [hsp, htop, hchildSp, physToVirt_eq (by omega), physToVirt_eq (by omega)]
    unfold wrap64 kernelVaOffset
    omega
  have hexc := exceptionReturn_eq { c with x := x, q := q, sp := c.sp + 160 } hskip
  have hret := forkReturn_eq { c with x := x, q := q, sp := c.sp + 160 } hskip
  have hdiffer : (run forkReturn { c with x := x, q := q, sp := c.sp + 160 }).sp
      ≠ (run exceptionReturn { c with x := x, q := q, sp := c.sp + 160 }).sp := by
    rw [hexc, hret]
    simp only
    omega
  refine ⟨?_, fun hsame => hdiffer hsame.sp, ?_, ?_, ?_, ?_, ?_, ?_⟩
  · -- The word that `sched_fork` stored last.
    refine hx30.trans ?_
    unfold word
    have haddr : c.sp + 88 = k + 4 * 4096 - 688 - 160 + 88 + kernelVaOffset := by
      rw [hsp, hchildSp, physToVirt_eq (by omega)]
      omega
    rw [haddr, hmem, loadN_kernelView _ (by omega), hframes, loadN_storeN]
    refine BitVec.eq_of_toNat_eq ?_
    rw [BitVec.toNat_ofNat, BitVec.toNat_ofNat]
    omega
  · rw [hexc, htop']
  · rw [hret, htop']
  · rw [hexc, hret]
  · rw [hexc, hret]
    rintro r (rfl | rfl | rfl)
    · rfl
    · rfl
    · rfl
  · rw [hret]
    exact hq
  · rw [hret]
    rintro r (rfl | rfl)
    · rfl
    · rfl

/-- The processor when it switches to the last task: the one before it left sevens in
    the vector registers. -/
def firstSwitch {σ : Type} (s : Sched σ) : Vector.Cpu where
  x := fun _ => 0
  q := fun _ => 7
  sys := fun _ => 0
  sp := (lastTask s).sp
  mem := kernelView s.machine.mem
  skip := 0

theorem fork_return_never_running :
    ¬ SameReturn (run forkReturn (run contextSwitchIn (firstSwitch (forkCurrent running).1)))
      (run exceptionReturn (run contextSwitchIn (firstSwitch (forkCurrent running).1))) := by
  have hchild : (forkCurrent running).1.queue
      = running.queue ++ [lastTask (forkCurrent running).1] := by decide +kernel
  have hany : ∀ res, forkCurrent running = res → res.1.queue = running.queue ++ [lastTask res.1] →
      ¬ SameReturn (run forkReturn (run contextSwitchIn (firstSwitch res.1)))
        (run exceptionReturn (run contextSwitchIn (firstSwitch res.1))) :=
    fun res hfork hchild =>
      (fork_return_never Pmm.pmmSource bootImage running true true (currentTask running) 0x40005D50
        res.1 res.2 (lastTask res.1) hfork hchild (firstSwitch res.1) _ rfl rfl rfl rfl).2.1
  exact hany _ rfl hchild

/-- The child starts with the sevens where its frame has zeros, and below the top of its
    kernel stack. -/
theorem fork_return_stale :
    (forkCurrent running).2 = 2 ∧
    (run forkReturn (run contextSwitchIn (firstSwitch (forkCurrent running).1))).q 0 = 7 ∧
    (run exceptionReturn (run contextSwitchIn (firstSwitch (forkCurrent running).1))).q 0 = 0 ∧
    (run forkReturn (run contextSwitchIn (firstSwitch (forkCurrent running).1))).sp
      = 0xFFFF000040014E70 ∧
    (lastTask (forkCurrent running).1).kstackTop = 0xFFFF000040015000 := by
  decide +kernel

end CortexForge.Sched
