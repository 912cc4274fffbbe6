import CortexForge.Core.Vector
import CortexForge.Lib.Slots

/-!
# Trap Frames

What the vector code saves and restores. The restoring code is nearly all loads, and a
program of loads is read off its table of registers and slots (`run_loads`), so each
part of a return has one equation for the state it leaves. The saving code is nearly
all stores to slots that do not overlap.

## Main definitions

* `returnSys`: The system registers after a return.

## Theorems

* `run_loads`: The state after a program of loads.
* `exceptionReturn_eq`: The state after the end of `exception_common`.
* `forkReturn_eq`: The state after `fork_return`.
-/

namespace CortexForge.Vector

open Function List

/-- The registers and slots of an instruction that loads from the frame. -/
def xSlots : Instr → List (Fin 31 × Nat)
  | .ldr d off => [(d, off)]
  | .ldp d e off => [(d, off), (e, off + 8)]
  | _ => []

/-- The vector registers of such an instruction, with offset and width. -/
def qSlots : Instr → List (Fin 32 × Nat × Nat)
  | .ldpD d e off => [(d, off, 8), (e, off + 8, 8)]
  | .ldpQ d e off => [(d, off, 16), (e, off + 16, 16)]
  | _ => []

/-- An instruction that only loads registers from the frame. -/
def isLoad : Instr → Bool
  | .ldr _ _ | .ldp _ _ _ | .ldpD _ _ _ | .ldpQ _ _ _ => true
  | _ => false

section

theorem run_append (ps qs : List Instr) (c : Cpu) : run (ps ++ qs) c = run qs (run ps c) :=
  foldl_append

theorem exec_load (c : Cpu) (i : Instr) (hi : isLoad i = true) :
    exec c i = { c with
      x := loads c.x (word c) (xSlots i)
      q := loads c.q (fun s => vec c s.1 s.2) (qSlots i) } := by
  cases i with
  | ldr d off => rfl
  | ldp d e off => rfl
  | ldpD d e off => rfl
  | ldpQ d e off => rfl
  | _ => cases hi

theorem run_cons (i : Instr) (program : List Instr) {c : Cpu} (hskip : c.skip = 0) :
    run (i :: program) c = run program (exec c i) := by
  rw [run, foldl_cons, step, if_pos hskip]
  rfl

/-- A program of loads changes nothing but the registers it loads. -/
theorem run_loads {program : List Instr} (h : ∀ i ∈ program, isLoad i = true) :
    ∀ c : Cpu, c.skip = 0 → run program c = { c with
      x := loads c.x (word c) (program.flatMap xSlots)
      q := loads c.q (fun s => vec c s.1 s.2) (program.flatMap qSlots) } := by
  induction program with
  | nil => exact fun _ _ => rfl
  | cons i program ih =>
    intro c hskip
    have hi := exec_load c i (h i mem_cons_self)
    have hrest := ih (fun j hj => h j (mem_cons_of_mem i hj)) (exec c i)
      (by rw [hi]; exact hskip)
    rw [run_cons i program hskip, hrest, hi, flatMap_cons, flatMap_cons, loads_append, loads_append]
    rfl

end

/-- The system registers after the first part of a return. -/
def returnSys (c : Cpu) : SysReg → BitVec 64
  | .elrEl1 => word c 248
  | .spsrEl1 => word c 256
  | .spEl0 => if word c 256 &&& 0xF = 0 then word c 280 else c.sys .spEl0
  | r => c.sys r

section

variable (c : Cpu)

variable (hskip : c.skip = 0)
include hskip

theorem restoreGprs_eq :
    run restoreGprs c = { c with x := fun r => word c (8 * r.val) } := by
  rw [run_loads (by decide) c hskip]
  have hq : restoreGprs.flatMap qSlots = [] := by decide
  have hx : loads c.x (word c) (restoreGprs.flatMap xSlots) = fun r => word c (8 * r.val) := by
    funext r
    have hslot : ∀ r : Fin 31,
        (restoreGprs.flatMap xSlots).reverse.lookup r = some (8 * r.val) := by decide
    rw [loads_lookup, hslot r]
    rfl
  rw [hx]
  rfl

theorem restoreElr_eq :
    run (restoreSys.take 5) c = { c with
      x := update (update (update c.x 1 (word c 248)) 1 (word c 256)) 2
        (word c 256 &&& 0xF)
      sys := update (update c.sys .elrEl1 (word c 248)) .spsrEl1
        (word c 256) } := by
  rcases c with ⟨x, q, sys, sp, mem, skip⟩
  cases hskip
  rfl

/-- `SP_EL0` is restored if `x2` is zero, and the code is jumped over if not. -/
theorem restoreSpEl0_eq :
    run (restoreSys.drop 5) c = if c.x 2 = 0 then
      { c with
        x := update c.x 1 (word c 280)
        sys := update c.sys .spEl0 (word c 280) }
      else c := by
  rcases c with ⟨x, q, sys, sp, mem, skip⟩
  cases hskip
  have hcbnz : run (restoreSys.drop 5) ⟨x, q, sys, sp, mem, 0⟩
      = run (restoreSys.drop 6) ⟨x, q, sys, sp, mem, if x 2 = 0 then 0 else 2⟩ := rfl
  rw [hcbnz]
  split_ifs with hx
  · rfl
  · rfl

/-- The first part of a return leaves only `x1` and `x2` in disorder. -/
theorem restoreSys_eq :
    ∃ x, run restoreSys c = { c with x := x, sys := returnSys c } := by
  have hsplit : run restoreSys c = run (restoreSys.drop 5) (run (restoreSys.take 5) c) :=
    run_append (restoreSys.take 5) (restoreSys.drop 5) c
  rw [hsplit, restoreElr_eq c hskip, restoreSpEl0_eq _ (by exact hskip)]
  split_ifs with hel0
  · refine ⟨_, congrArg (fun sys => ({ c with x := _, sys := sys } : Cpu)) (funext fun r => ?_)⟩
    cases r with
    | spEl0 => exact (if_pos hel0).symm
    | _ => rfl
  · refine ⟨_, congrArg (fun sys => ({ c with x := _, sys := sys } : Cpu)) (funext fun r => ?_)⟩
    cases r with
    | spEl0 => exact (if_neg hel0).symm
    | _ => rfl

theorem restoreFp_eq :
    ∃ x, run restoreFp c = { c with
      x := x
      q := fun r => if FpCaller r then vec c (fpSlot r) 16 else c.q r
      sys := update (update c.sys .fpcr (word c 680)) .fpsr (word c 672) } := by
  have hfirst : run (restoreFp.take 4) c = { c with
      x := update (update c.x 1 (word c 680)) 1 (word c 672)
      sys := update (update c.sys .fpcr (word c 680)) .fpsr (word c 672) } := by
    rcases c with ⟨x, q, sys, sp, mem, skip⟩
    cases hskip
    rfl
  have hsplit : run restoreFp c = run (restoreFp.drop 4) (run (restoreFp.take 4) c) :=
    run_append (restoreFp.take 4) (restoreFp.drop 4) c
  have hslot : ∀ r : Fin 32, ((restoreFp.drop 4).flatMap qSlots).reverse.lookup r
      = if FpCaller r then some (fpSlot r, 16) else none := by decide
  rw [hsplit, hfirst, run_loads (by decide) _ (by exact hskip)]
  refine ⟨_, congrArg (fun q => ({ c with x := _, q := q, sys := _ } : Cpu)) (funext fun r => ?_)⟩
  rw [loads_lookup, hslot r]
  split_ifs with hr
  · rfl
  · rfl

/-- The end of `exception_common` restores the whole frame and pops it. -/
theorem exceptionReturn_eq :
    run exceptionReturn c = { c with
      x := fun r => word c (8 * r.val)
      q := fun r => if FpCaller r then vec c (fpSlot r) 16 else c.q r
      sys := update (update (returnSys c) .fpcr (word c 680)) .fpsr (word c 672)
      sp := c.sp + 688 } := by
  unfold exceptionReturn
  rw [run_append, run_append, run_append]
  rcases restoreSys_eq c hskip with ⟨x, hsys⟩
  rw [hsys]
  rcases restoreFp_eq { c with x := x, sys := returnSys c } hskip with ⟨x', hfp⟩
  rw [hfp, restoreGprs_eq _ (by exact hskip)]
  exact if_pos hskip

/-- The stub of a forked task leaves the vector registers, `FPSR` and `FPCR` as they
    are, and pops 288 bytes. -/
theorem forkReturn_eq :
    run forkReturn c = { c with
      x := fun r => word c (8 * r.val)
      sys := returnSys c
      sp := c.sp + 288 } := by
  unfold forkReturn
  rw [run_append, run_append]
  rcases restoreSys_eq c hskip with ⟨x, hsys⟩
  rw [hsys, restoreGprs_eq _ (by exact hskip)]
  exact if_pos hskip

/-- A task that is taken up gets its callee-saved registers from the frame of the
    context switch; no other vector register changes. -/
theorem contextSwitchIn_eq :
    ∃ x q, run contextSwitchIn c = { c with x := x, q := q, sp := c.sp + 160 } ∧
      x 30 = word c 88 ∧ ∀ r, FpCaller r → q r = c.q r := by
  have hsplit : run contextSwitchIn c
      = run [.addSp 160] (run (contextSwitchIn.take 10) c) :=
    run_append (contextSwitchIn.take 10) [.addSp 160] c
  have hx : ((contextSwitchIn.take 10).flatMap xSlots).reverse.lookup 30 = some 88 := by decide
  have hq : ∀ r : Fin 32, FpCaller r →
      ((contextSwitchIn.take 10).flatMap qSlots).reverse.lookup r = none := by decide
  rw [hsplit, run_loads (by decide) c hskip]
  refine ⟨_, _, if_pos hskip, ?_, fun r hr => ?_⟩
  · refine (loads_lookup c.x (word c) _ 30).trans ?_
    rfl
  · refine (loads_lookup c.q (fun s : Nat × Nat => vec c s.1 s.2) _ r).trans ?_
    rw [hq r hr]
    rfl

end

/-- The value a slot is stored with. -/
def savedValue (c : Cpu) : Saved → Nat
  | .x r => (c.x r).toNat
  | .sys r => (c.sys r).toNat
  | .q r => (c.q r).toNat

/-- A memory after the stores of a table of slots, each with its offset from `sp` and its
    width. -/
def save (mem : Memory) (sp : Nat) (v : Saved → Nat) (slots : List (Saved × Nat × Nat)) : Memory :=
  storeAll mem (slots.map fun s => (sp + s.2.1, s.2.2, v s.1))

/-- The slots of an instruction that stores to the frame. -/
def storeSlots : Instr → List (Saved × Nat × Nat)
  | .str s off => [(.x s, off, 8)]
  | .stp s t off => [(.x s, off, 8), (.x t, off + 8, 8)]
  | .stpQ s t off => [(.q s, off, 16), (.q t, off + 16, 16)]
  | _ => []

def isStore : Instr → Bool
  | .str _ _ | .stp _ _ _ | .stpQ _ _ _ => true
  | _ => false

section

variable {c d : Cpu}

theorem save_append (mem : Memory) (sp : Nat) (v : Saved → Nat) (ss ts : List (Saved × Nat × Nat)) :
    save (save mem sp v ss) sp v ts = save mem sp v (ss ++ ts) := by
  rw [save, save, save, map_append]
  exact foldl_append.symm

theorem save_congr (mem : Memory) (sp : Nat) {v v' : Saved → Nat}
    {ss : List (Saved × Nat × Nat)} (h : ∀ s ∈ ss, v s.1 = v' s.1) :
    save mem sp v ss = save mem sp v' ss := by
  unfold save
  rw [map_congr_left fun s hs => by rw [h s hs]]

/-- A program of stores changes nothing but memory. -/
theorem run_stores (program : List Instr) (h : ∀ i ∈ program, isStore i = true) :
    ∀ c : Cpu, c.skip = 0 → run program c = { c with
      mem := save c.mem c.sp (savedValue c) (program.flatMap storeSlots) } := by
  induction program with
  | nil => exact fun _ _ => rfl
  | cons i program ih =>
    intro c hskip
    have hi : exec c i = { c with mem := save c.mem c.sp (savedValue c) (storeSlots i) } := by
      have hstore := h i mem_cons_self
      cases i with
      | str s off => rfl
      | stp s t off => rfl
      | stpQ s t off => rfl
      | _ => cases hstore
    rw [run_cons i program hskip,
      ih (fun j hj => h j (mem_cons_of_mem i hj)) _ (by rw [hi]; exact hskip), hi, flatMap_cons,
      ← save_append]
    rfl

/-- The state `d` after the registers of some slots were saved from the state `c`, with
    `x0` and `x1` as scratch. -/
structure Stored (slots : List (Saved × Nat × Nat)) (c d : Cpu) : Prop where
  skip : d.skip = 0
  x : ∀ r, r ≠ 0 → r ≠ 1 → d.x r = c.x r
  q : d.q = c.q
  sys : d.sys = c.sys
  sp : d.sp = c.sp
  mem : d.mem = save c.mem c.sp (savedValue c) slots

/-- What is saved after the scratch registers may have changed. -/
theorem stored_trans {ss ts : List (Saved × Nat × Nat)} {e : Cpu} (h : Stored ss c d)
    (h' : Stored ts d e) (hts : ∀ s ∈ ts, s.1 ≠ .x 0 ∧ s.1 ≠ .x 1) : Stored (ss ++ ts) c e := by
  refine ⟨h'.skip, fun r h0 h1 => (h'.x r h0 h1).trans (h.x r h0 h1), h'.q.trans h.q,
    h'.sys.trans h.sys, h'.sp.trans h.sp, ?_⟩
  have hvalues : ∀ s ∈ ts, savedValue d s.1 = savedValue c s.1 := by
    intro s hs
    have hne := hts s hs
    rcases hwhat : s.1 with r | r | r
    · rw [hwhat] at hne
      have h0 : r ≠ 0 := fun hc => hne.1 (by rw [hc])
      have h1 : r ≠ 1 := fun hc => hne.2 (by rw [hc])
      exact congrArg BitVec.toNat (h.x r h0 h1)
    · exact congrArg BitVec.toNat (congrFun h.sys r)
    · exact congrArg BitVec.toNat (congrFun h.q r)
  rw [h'.mem, h.mem, h.sp, save_congr _ _ hvalues, save_append]

theorem stored_stores (program : List Instr) (h : ∀ i ∈ program, isStore i = true)
    (hskip : c.skip = 0) : Stored (program.flatMap storeSlots) c (run program c) := by
  rw [run_stores program h c hskip]
  exact ⟨hskip, fun _ _ _ => rfl, rfl, rfl, rfl, rfl⟩

/-- The stores of the vector entry. They leave the type of the exception in `x0`. -/
theorem stored_entry (type : BitVec 64) (hskip : c.skip = 0) :
    Stored [(.x 0, 0, 8), (.x 1, 8, 8), (.sys .spEl0, 280, 8)] c
      (run (vectorEntryLower type).tail c) := by
  rcases c with ⟨x, q, sys, sp, mem, skip⟩
  cases hskip
  refine ⟨rfl, fun r h0 _ => ?_, rfl, rfl, rfl, rfl⟩
  exact (update_of_ne h0 _ _).trans (update_of_ne h0 _ _)

/-- System registers are stored through `x1`. -/
theorem stored_sys (r : SysReg) (off : Nat) (hskip : c.skip = 0) :
    Stored [(.sys r, off, 8)] c (run [.mrs 1 r, .str 1 off] c) := by
  rcases c with ⟨x, q, sys, sp, mem, skip⟩
  cases hskip
  exact ⟨rfl, fun r _ h1 => update_of_ne h1 _ _, rfl, rfl, rfl, rfl⟩

/-- The way in stores every register that the frame has a slot for. -/
theorem trapLower_stored (type : BitVec 64) (hskip : c.skip = 0) :
    Stored frameSlots { c with sp := c.sp - frameSize } (trapLower type c) := by
  have hparts : (vectorEntryLower type).tail ++ exceptionSave = (vectorEntryLower type).tail ++
      exceptionSave.take 15 ++ [.mrs 1 .elrEl1, .str 1 248] ++ [.mrs 1 .spsrEl1, .str 1 256] ++
      [.mrs 1 .esrEl1, .str 1 264] ++ [.mrs 1 .farEl1, .str 1 272] ++
      (exceptionSave.drop 23).take 12 ++ [.mrs 1 .fpsr, .str 1 672] ++
      [.mrs 1 .fpcr, .str 1 680] := rfl
  have hfirst : trapLower type c
      = run ((vectorEntryLower type).tail ++ exceptionSave) { c with sp := c.sp - frameSize } := by
    unfold trapLower vectorEntryLower run
    rw [cons_append, foldl_cons, step, if_pos hskip]
    rfl
  have hgprs : (exceptionSave.take 15).flatMap storeSlots = gprSlots := by decide
  have hvecs : ((exceptionSave.drop 23).take 12).flatMap storeSlots = vecSlots := by decide
  rw [hfirst, hparts]
  simp only [run_append]
  have h1 := stored_entry type (c := { c with sp := c.sp - frameSize }) hskip
  have h2 := stored_trans h1 (stored_stores (exceptionSave.take 15) (by decide) h1.skip)
     (by rw [hgprs]; decide)
  have h3 := stored_trans h2 (stored_sys .elrEl1 248 h2.skip) (by decide)
  have h4 := stored_trans h3 (stored_sys .spsrEl1 256 h3.skip) (by decide)
  have h5 := stored_trans h4 (stored_sys .esrEl1 264 h4.skip) (by decide)
  have h6 := stored_trans h5 (stored_sys .farEl1 272 h5.skip) (by decide)
  have h7 := stored_trans h6 (stored_stores ((exceptionSave.drop 23).take 12) (by decide) h6.skip)
     (by rw [hvecs]; decide)
  have h8 := stored_trans h7 (stored_sys .fpsr 672 h7.skip) (by decide)
  have h9 := stored_trans h8 (stored_sys .fpcr 680 h8.skip) (by decide)
  exact h9

/-- A slot of the frame can be read back. -/
theorem stored_read (h : Stored frameSlots c d) {s : Saved × Nat × Nat} (hs : s ∈ frameSlots)
    (hfits : savedValue c s.1 < 256 ^ s.2.2) :
    loadN d.mem (d.sp + s.2.1) s.2.2 = savedValue c s.1 := by
  have hapart : frameSlots.Pairwise fun s t =>
      s.2.1 + s.2.2 ≤ t.2.1 ∨ t.2.1 + t.2.2 ≤ s.2.1 := by decide +kernel
  have hread := loadN_storeAll (frameSlots.map fun s => (c.sp + s.2.1, s.2.2, savedValue c s.1))
    (pairwise_map.mpr (hapart.imp fun h => by simp only; omega)) c.mem _ (mem_map_of_mem hs)
  rw [h.mem, h.sp]
  exact hread.trans (Nat.mod_eq_of_lt hfits)

/-- The frame holds the vector registers that C code may change, `FPSR` and `FPCR`. -/
theorem stored_fp (h : Stored frameSlots c d) :
    (∀ r, FpCaller r → vec d (fpSlot r) 16 = c.q r) ∧ word d 672 = c.sys .fpsr ∧
      word d 680 = c.sys .fpcr := by
  have hslot : ∀ r, FpCaller r → (Saved.q r, fpSlot r, 16) ∈ frameSlots := by decide
  refine ⟨fun r hr => ?_, ?_, ?_⟩
  · unfold vec
    rw [stored_read h (hslot r hr) (c.q r).isLt]
    exact (BitVec.ofNat_toNat _ _).trans (BitVec.setWidth_eq _)
  · unfold word
    rw [stored_read (s := (.sys .fpsr, 672, 8)) h (by decide) (c.sys .fpsr).isLt]
    exact (BitVec.ofNat_toNat _ _).trans (BitVec.setWidth_eq _)
  · unfold word
    rw [stored_read (s := (.sys .fpcr, 680, 8)) h (by decide) (c.sys .fpcr).isLt]
    exact (BitVec.ofNat_toNat _ _).trans (BitVec.setWidth_eq _)

end

end CortexForge.Vector
