import CortexForge.Lib.PageSource
import Mathlib.Algebra.GroupWithZero.Nat

/-!
# Addresses

The constants and address arithmetic the memory manager and the drivers share.
Addresses are natural numbers below `2 ^ 64`, and every sum the source computes
in a `uint64_t` is taken modulo that range. The kernel sees all of physical
memory through a linear map at `kernelVaOffset`.

## Main definitions

* `wrap64`, `wrap32`: The values that registers of 64 and 32 bits keep.
* `physToVirt`, `virtToPhys`: The linear map and its inverse.
* `Pages`: Where physical pages come from.
-/

namespace CortexForge

/-- One byte of a buffer or of memory. -/
abbrev Byte := BitVec 8

/-- Memory or a buffer, with a byte at each address or offset. -/
abbrev Memory := Nat → Byte

def pageSize : Nat := 4096

def kernelVaOffset : Nat := 0xFFFF000000000000

/-- The kernel's translation tables reach 1 TiB of physical memory. -/
def physLimit : Nat := 2 ^ 40

/-- A source of pages of physical memory. -/
abbrev Pages (σ : Type) := PageSource σ pageSize physLimit

/-- The end of the user address range, and the top of every user stack. -/
def userStackTop : Nat := 0x00800000

/-- The pages of a user stack that are mapped from the start. -/
def userStackPages : Nat := 4

/-- Where user code is loaded. -/
def userTextBase : Nat := 0x00400000

/-- The page that signal handlers return through. -/
def userSigtrampVa : Nat := 0x00300000

/-- The value a 64-bit register keeps of `n`. -/
def wrap64 (n : Nat) : Nat := n % 2 ^ 64

/-- `a - b` in 64 bits. -/
def sub64 (a b : Nat) : Nat := wrap64 (a + (2 ^ 64 - b % 2 ^ 64))

/-- A difference that is not negative does not wrap around. -/
theorem sub64_of_le {a b : Nat} (h : b ≤ a) (ha : a < 2 ^ 64) : sub64 a b = a - b := by
  unfold sub64 wrap64
  omega

/-- The value a 32-bit register keeps of `n`. -/
def wrap32 (n : Nat) : Nat := n % 2 ^ 32

/-- `a - b` in 32 bits. -/
def sub32 (a b : Nat) : Nat := wrap32 (a + (2 ^ 32 - b % 2 ^ 32))

/-- The kernel address of a physical one. -/
def physToVirt (pa : Nat) : Nat := wrap64 (pa + kernelVaOffset)

/-- The physical address behind a kernel one. -/
def virtToPhys (va : Nat) : Nat := sub64 va kernelVaOffset

end CortexForge
