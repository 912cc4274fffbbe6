import CortexForge.Core.Pci
import CortexForge.Lib.Linked
import Mathlib.Data.Finset.Image

/-!
# The Capability Search Is Complete

The walk along the capability list is cut off after 48 hops. The offsets it visits are
multiples of four from `0x40` on, and there are 48 of them. A path that is longer goes
round in circles, and comes past every capability in its first turn.

The walk that looks for the registers of a virtio device is not cut off, and it takes
the pointers as they are, where the search clears their low two bits. It does not
return from a list without an end. In a list that has one, and whose pointers have
those bits clear, it comes to all capabilities that the search can reach.

## Main definitions

* `Pci.capAt`, `Pci.Reached`: The path of next pointers, and how far it goes.
* `Pci.listAt`, `Pci.vendorCaps`: The path that the walk takes, and what it handles there.

## Theorems

* `find_capability`: What the search returns for every configuration space.
* `listAt_eq_capAt`: Pointers with their low bits clear lead the same way.
* `capabilities_parsed`: The lists the walk gets to the end of, and what it handles.
-/

namespace CortexForge.Pci

variable {cfg : Memory} {capId : Byte}

def nextCap (cfg : Memory) (ptr : Byte) : Byte := cfg (ptr.toNat + 1) &&& 0xFC#8

/-- The offset after `n` hops. -/
def capAt (cfg : Memory) (n : Nat) : Byte := (nextCap cfg)^[n] (cfg pciCapPtr &&& 0xFC#8)

/-- The path goes on for `n` hops, and has the capability there. -/
def Reached (cfg : Memory) (capId : Byte) (n : Nat) : Prop :=
  (∀ k ≤ n, 0x40#8 ≤ capAt cfg k) ∧ cfg (capAt cfg n).toNat = capId

theorem capAt_succ (n : Nat) : capAt cfg (n + 1) = nextCap cfg (capAt cfg n) :=
  Function.iterate_succ_apply' ..

/-- Where capabilities can be. -/
def slots : Finset Byte := (Finset.range 48).image fun i => BitVec.ofNat 8 (0x40 + 4 * i)

theorem mem_slots : ∀ ptr : Byte, 0x40#8 ≤ ptr → ptr &&& 0xFC#8 = ptr → ptr ∈ slots := by
  decide +kernel

theorem capAt_aligned (n : Nat) : capAt cfg n &&& 0xFC#8 = capAt cfg n := by
  have hmask : ∀ b : Byte, b &&& 0xFC#8 &&& 0xFC#8 = b &&& 0xFC#8 := by decide +kernel
  cases n with
  | zero => exact hmask _
  | succ n =>
    rw [capAt_succ]
    exact hmask _

/-- A capability is found within the first 48 hops, if it is on the path at all. -/
theorem reached_lt {n : Nat} (h : Reached cfg capId n) (hfirst : ∀ k < n, ¬ Reached cfg capId k) :
    n < 48 := by
  exact first_lt_card (P := fun ptr => cfg ptr.toNat = capId)
    (fun k hk => mem_slots _ (h.1 k hk) (capAt_aligned k)) h.2
    fun k hk hfound => hfirst k hk ⟨fun j hj => h.1 j (by omega), hfound⟩

/-- The walk goes on from the offset after `i` hops, with nothing found so far. -/
theorem capLoop_cases (hops : Nat) : ∀ i,
    (∀ k < i, 0x40#8 ≤ capAt cfg k ∧ cfg (capAt cfg k).toNat ≠ capId) →
    (∃ n, Reached cfg capId n ∧ (∀ k < n, ¬ Reached cfg capId k) ∧
      capLoop cfg capId hops (capAt cfg i) = capAt cfg n) ∨
    (∀ n < i + hops, ¬ Reached cfg capId n) ∧ capLoop cfg capId hops (capAt cfg i) = 0#8 := by
  induction hops with
  | zero => exact fun i hbefore => .inr ⟨fun n hn h => (hbefore n hn).2 h.2, rfl⟩
  | succ hops ih =>
    intro i hbefore
    rw [capLoop]
    by_cases hon : 0x40#8 ≤ capAt cfg i
    swap
    · -- The path ends here.
      rw [if_neg hon]
      refine .inr ⟨fun n _ h => ?_, rfl⟩
      rcases Nat.lt_or_ge n i with hn | hn
      · exact (hbefore n hn).2 h.2
      · exact hon (h.1 i hn)
    rw [if_pos hon]
    by_cases hfound : cfg (capAt cfg i).toNat = capId
    · rw [if_pos hfound]
      refine .inl ⟨i, ⟨fun k hk => ?_, hfound⟩, fun k hk h => (hbefore k hk).2 h.2, rfl⟩
      rcases Nat.lt_or_eq_of_le hk with hk | rfl
      · exact (hbefore k hk).1
      · exact hon
    have hbefore' : ∀ k < i + 1, 0x40#8 ≤ capAt cfg k ∧ cfg (capAt cfg k).toNat ≠ capId := by
      intro k hk
      rcases Nat.lt_or_eq_of_le (Nat.le_of_lt_succ hk) with hk | rfl
      · exact hbefore k hk
      · exact ⟨hon, hfound⟩
    have hnext := ih (i + 1) hbefore'
    rw [capAt_succ] at hnext
    rw [if_neg hfound]
    by_cases hzero : cfg ((capAt cfg i).toNat + 1) &&& 0xFC#8 = 0#8
    · simp only [hzero, if_true]
      refine .inr ⟨fun n _ h => ?_, trivial⟩
      rcases Nat.lt_or_ge n (i + 1) with hn | hn
      · exact (hbefore' n hn).2 h.2
      · have hlow := h.1 (i + 1) hn
        rw [capAt_succ, nextCap, hzero] at hlow
        exact absurd hlow (by decide)
    · simp only [if_neg hzero]
      rwa [Nat.add_assoc, Nat.add_comm 1 hops] at hnext

/-- The search returns the first offset on the path that has the capability, and 0 if
    there is none or the device has no list. -/
theorem find_capability (cfg : Memory) (capId ptr : Byte) :
    pciFindCapability cfg capId = ptr ↔
      ((loadN cfg pciStatus 2).testBit 4 = true ∧ ∃ n, Reached cfg capId n ∧
        (∀ k < n, ¬ Reached cfg capId k) ∧ ptr = capAt cfg n) ∨
      ((loadN cfg pciStatus 2).testBit 4 = false ∨ ∀ n, ¬ Reached cfg capId n) ∧ ptr = 0#8 := by
  unfold pciFindCapability
  cases hstatus : (loadN cfg pciStatus 2).testBit 4 with
  | false => grind
  | true =>
    have hwalk := @capLoop_cases cfg capId 48 0 nofun
    rw [capAt, Function.iterate_zero_apply] at hwalk
    rcases hwalk with ⟨n, hn, hfirst, heq⟩ | ⟨hnone, heq⟩
    · grind
    · have hno : ∀ n, ¬ Reached cfg capId n := by
        intro n
        induction n using Nat.strong_induction_on with
        | _ n ih => exact fun h => hnone n (by simpa using reached_lt h ih) h
      grind

section

variable {barAddr : Nat → Nat}

/-- The pointer that the walk goes on with: the byte itself. -/
def listNext (cfg : Memory) (ptr : Byte) : Byte := cfg (ptr.toNat + 1)

/-- The offset after `n` turns of the walk. -/
def listAt (cfg : Memory) (n : Nat) : Byte := (listNext cfg)^[n] (cfg pciCapPtr)

/-- The vendor-specific capabilities in the first `n` turns of the walk from an offset
    on. -/
def vendorCaps (cfg : Memory) (ptr : Byte) (n : Nat) : List Byte :=
  ((List.range n).map fun k => (listNext cfg)^[k] ptr).filter
    fun p => cfg p.toNat = vendorSpecific

theorem vendorCaps_succ (ptr : Byte) (n : Nat) : vendorCaps cfg ptr (n + 1) =
    (if cfg ptr.toNat = vendorSpecific then [ptr] else []) ++
      vendorCaps cfg (listNext cfg ptr) n := by
  rw [vendorCaps, List.range_succ_eq_map, List.map_cons, List.map_map]
  by_cases hvendor : cfg ptr.toNat = vendorSpecific <;>
    simp [vendorCaps, hvendor, Function.comp_def]

/-- The walk is at the first end of the list, or still on its way. -/
theorem parseLoop_cases (fuel : Nat) : ∀ (ptr : Byte) (caps : VirtioPciCaps),
    (∀ n < fuel, (listNext cfg)^[n] ptr ≠ 0#8) ∧ parseLoop cfg barAddr fuel ptr caps = none ∨
    ∃ n < fuel, (listNext cfg)^[n] ptr = 0#8 ∧ (∀ k < n, (listNext cfg)^[k] ptr ≠ 0#8) ∧
      parseLoop cfg barAddr fuel ptr caps =
        some ((vendorCaps cfg ptr n).foldl (virtioPopulateCapabilities cfg barAddr) caps) := by
  induction fuel with
  | zero => exact fun ptr caps => .inl ⟨nofun, rfl⟩
  | succ fuel ih =>
    intro ptr caps
    rw [parseLoop]
    by_cases hend : ptr = 0#8
    · exact .inr ⟨0, Nat.succ_pos _, hend, nofun, if_pos hend⟩
    rw [if_neg hend]
    rcases ih (listNext cfg ptr) (if cfg ptr.toNat = vendorSpecific then
      virtioPopulateCapabilities cfg barAddr caps ptr else caps) with
      ⟨hon, hrun⟩ | ⟨n, hn, hzero, hfirst, hrun⟩
    · refine .inl ⟨fun n hn => ?_, hrun⟩
      cases n with
      | zero => exact hend
      | succ n => exact hon n (Nat.lt_of_succ_lt_succ hn)
    · refine .inr ⟨n + 1, Nat.succ_lt_succ hn, hzero, fun k hk => ?_, ?_⟩
      · cases k with
        | zero => exact hend
        | succ k => exact hfirst k (Nat.lt_of_succ_lt_succ hk)
      · rw [vendorCaps_succ, List.foldl_append]
        refine hrun.trans (congrArg some ?_)
        split <;> rfl

/-- A list that has an end has it within 255 entries. -/
theorem listAt_lt {n : Nat} (hzero : listAt cfg n = 0#8) (hfirst : ∀ k < n, listAt cfg k ≠ 0#8) :
    n < 256 := by
  have hin : ∀ b : Byte, b ∈ (Finset.range 256).image (BitVec.ofNat 8) := fun b =>
    Finset.mem_image.mpr ⟨b.toNat, Finset.mem_range.mpr b.isLt, by simp⟩
  refine Nat.lt_of_lt_of_le
    (first_lt_card (P := fun p => p = 0#8) (fun k _ => hin _) hzero hfirst) ?_
  exact Finset.card_image_le.trans (Nat.le_of_eq (Finset.card_range 256))

/-- Pointers that have their low two bits clear lead the walk where the search goes. -/
theorem listAt_eq_capAt {n : Nat} (hzero : listAt cfg n = 0#8)
    (haligned : ∀ k < n, listAt cfg k &&& 0xFC#8 = listAt cfg k) :
    ∀ k ≤ n, capAt cfg k = listAt cfg k := by
  have hmask : ∀ k ≤ n, listAt cfg k &&& 0xFC#8 = listAt cfg k := by
    intro k hk
    rcases Nat.lt_or_eq_of_le hk with hk | rfl
    · exact haligned k hk
    · rw [hzero]
      rfl
  intro k
  induction k with
  | zero => exact hmask 0
  | succ k ih =>
    intro hk
    rw [capAt_succ, ih (Nat.le_of_succ_le hk), ← hmask (k + 1) hk]
    rw [show listAt cfg (k + 1) = listNext cfg (listAt cfg k) from
      Function.iterate_succ_apply' ..]
    rfl

/-- What the search can reach in such a list is on the way of the walk. -/
theorem reached_mem {n : Nat} (hzero : listAt cfg n = 0#8)
    (haligned : ∀ k < n, listAt cfg k &&& 0xFC#8 = listAt cfg k) {k : Nat}
    (h : Reached cfg vendorSpecific k) : capAt cfg k ∈ vendorCaps cfg (cfg pciCapPtr) n := by
  have hsame := listAt_eq_capAt hzero haligned
  have hk : k < n := by
    refine Nat.lt_of_not_le fun hle => ?_
    have hlow := h.1 n hle
    rw [hsame n (Nat.le_refl n), hzero] at hlow
    exact absurd hlow (by decide)
  refine List.mem_filter.mpr ⟨List.mem_map.mpr ⟨k, List.mem_range.mpr hk, ?_⟩, ?_⟩
  · exact (hsame k (Nat.le_of_lt hk)).symm
  · exact decide_eq_true h.2

end

/-- The walk returns for a list that has an end, and for a device without one. Then it
    has handled the vendor-specific capabilities on its way, in 256 turns at most; and
    where the pointers have their low two bits clear, these are all the vendor-specific
    capabilities that `pci_find_capability` can reach. -/
theorem capabilities_parsed (cfg : Memory) (barAddr : Nat → Nat) (caps : VirtioPciCaps) :
    ((∃ fuel, (virtioParseCapabilities cfg barAddr fuel caps).isSome) ↔
      (loadN cfg pciStatus 2).testBit 4 = false ∨ ∃ n, listAt cfg n = 0#8) ∧
    ∀ n, (loadN cfg pciStatus 2).testBit 4 = true → listAt cfg n = 0#8 →
      (∀ k < n, listAt cfg k ≠ 0#8) → virtioParseCapabilities cfg barAddr 256 caps =
        some ((vendorCaps cfg (cfg pciCapPtr) n).foldl
          (virtioPopulateCapabilities cfg barAddr) caps) ∧
        ((∀ k < n, listAt cfg k &&& 0xFC#8 = listAt cfg k) →
          ∀ k, Reached cfg vendorSpecific k →
            capAt cfg k ∈ vendorCaps cfg (cfg pciCapPtr) n) := by
  unfold virtioParseCapabilities
  cases hstatus : (loadN cfg pciStatus 2).testBit 4 with
  | false => simp
  | true =>
    rw [if_neg (by simp)]
    have hwalk := fun fuel => @parseLoop_cases cfg barAddr fuel (cfg pciCapPtr) caps
    have hends : ∀ n, listAt cfg n = 0#8 → (∀ k < n, listAt cfg k ≠ 0#8) →
        parseLoop cfg barAddr 256 (cfg pciCapPtr) caps =
          some ((vendorCaps cfg (cfg pciCapPtr) n).foldl
            (virtioPopulateCapabilities cfg barAddr) caps) := by
      intro n hzero hfirst
      -- a list that ends does so within 256 steps: its pointers are distinct bytes
      rcases hwalk 256 with ⟨hon, _⟩ | ⟨m, _, hm, hbefore, hrun⟩
      · exact absurd hzero (hon n (listAt_lt hzero hfirst))
      · have heq : m = n := by
          rcases Nat.lt_trichotomy m n with hlt | heq | hlt
          · exact absurd hm (hfirst m hlt)
          · exact heq
          · exact absurd hzero (hbefore n hlt)
        rw [hrun, heq]
    refine ⟨⟨fun ⟨fuel, hsome⟩ => .inr ?_, fun h => ?_⟩, fun n _ hzero hfirst =>
      ⟨hends n hzero hfirst, fun haligned k hk => reached_mem hzero haligned hk⟩⟩
    · rcases hwalk fuel with ⟨_, hnone⟩ | ⟨n, _, hzero, _⟩
      · rw [hnone] at hsome
        cases hsome
      · exact ⟨n, hzero⟩
    · rcases h.resolve_left nofun with ⟨n, hzero⟩
      refine ⟨n + 1, ?_⟩
      rcases hwalk (n + 1) with ⟨hon, _⟩ | ⟨m, _, _, _, hrun⟩
      · exact absurd hzero (hon n (Nat.lt_succ_self n))
      · rw [hrun]
        rfl

/-- A capability that is its own successor. -/
def loopedCaps (offset : Nat) : Byte :=
  if offset = pciStatus then 0x10#8 else if offset = pciCapPtr ∨ offset = 0x41 then 0x40#8 else 0#8

/-- A vendor-specific capability at `0x40`, and a pointer to it with its low bit set. -/
def offsetCaps (offset : Nat) : Byte :=
  if offset = pciStatus then 0x10#8 else if offset = pciCapPtr then 0x41#8
  else if offset = 0x40 then vendorSpecific else if offset = 0x43 then 1#8 else 0#8

/-- The walk along a list that comes back to its first capability does not end. And it
    passes by a capability that the search finds, when the pointer to it is not a multiple
    of four. -/
theorem malformed_lists :
    (¬ ∃ fuel r, virtioParseCapabilities loopedCaps (fun _ => 0) fuel ⟨0, 0, 0, 0, 0⟩ = some r) ∧
      pciFindCapability offsetCaps vendorSpecific = 0x40#8 ∧
      virtioParseCapabilities offsetCaps (fun _ => 0x1000) 256 ⟨0, 0, 0, 0, 0⟩ =
        some ⟨0, 0, 0, 0, 0⟩ := by
  refine ⟨?_, by decide, rfl⟩
  rintro ⟨fuel, r, hsome⟩
  have hstay : ∀ n, (listNext loopedCaps)^[n] 0x40#8 = 0x40#8 :=
    fun n => Function.iterate_fixed rfl n
  rcases @parseLoop_cases loopedCaps (fun _ => 0) fuel 0x40#8 ⟨0, 0, 0, 0, 0⟩ with
    ⟨_, hnone⟩ | ⟨n, _, hzero, _⟩
  · exact absurd (hsome.symm.trans hnone) (Option.some_ne_none r)
  · rw [hstay] at hzero
    exact absurd hzero (by decide)

end CortexForge.Pci
