import CortexForge.Core.Memory
import CortexForge.Lib.ByteMem

/-!
# PCI Capabilities

The search of the capability list of a device, from `pci/pci.c`, and the walk along it
that finds the registers of a virtio device, from `pci/virtio/virtio.c`. The
configuration space is a function of the offset. Offsets in the list are bytes.

## Main definitions

* `pciFindCapability`: The offset of a capability, or 0.
* `virtioParseCapabilities`: The registers that the vendor-specific capabilities name.
-/

namespace CortexForge.Pci

def pciStatus : Nat := 0x06

def pciCapPtr : Nat := 0x34

/-- The walk along the list, for so many hops at most. -/
def capLoop (cfg : Memory) (capId : Byte) : Nat → Byte → Byte
  | 0, _ => 0#8
  | hops + 1, ptr =>
      if 0x40#8 ≤ ptr then
        if cfg ptr.toNat = capId then ptr
        else
          let ptr := cfg (ptr.toNat + 1) &&& 0xFC#8
          if ptr = 0#8 then 0#8 else capLoop cfg capId hops ptr
      else 0#8

def pciFindCapability (cfg : Memory) (capId : Byte) : Byte :=
  -- The device has no capability list.
  if (loadN cfg pciStatus 2).testBit 4 = false then 0#8
  else capLoop cfg capId 48 (cfg pciCapPtr &&& 0xFC#8)

/-- Where the registers of a virtio device are (`struct virtio_pci_caps`). -/
structure VirtioPciCaps where
  commonCfg : Nat
  notifyBase : Nat
  isrCfg : Nat
  deviceCfg : Nat
  notifyOffMultiplier : Nat

/-- A vendor-specific capability gives the place of one block of registers, in one of
    the six regions of the device. -/
def virtioPopulateCapabilities (cfg : Memory) (barAddr : Nat → Nat) (caps : VirtioPciCaps)
    (capPtr : Byte) : VirtioPciCaps :=
  let p := capPtr.toNat
  let bar := (cfg (p + 4)).toNat
  -- A region that does not exist.
  if bar ≥ 6 then caps
  else
    let capAddr := wrap64 (barAddr bar + loadN cfg (p + 8) 4)
    match (cfg (p + 3)).toNat with
    | 1 => { caps with commonCfg := capAddr }
    | 2 => { caps with notifyBase := capAddr, notifyOffMultiplier := loadN cfg (p + 0x10) 4 }
    | 3 => { caps with isrCfg := capAddr }
    | 4 => { caps with deviceCfg := capAddr }
    | _ => caps

def vendorSpecific : Byte := 0x09#8

/-- The walk of `virtio_parse_capabilities`, or `none` when it is not over after `fuel`
    turns. -/
def parseLoop (cfg : Memory) (barAddr : Nat → Nat) :
    Nat → Byte → VirtioPciCaps → Option VirtioPciCaps
  | 0, _, _ => none
  | fuel + 1, capPtr, caps =>
      if capPtr = 0#8 then some caps
      else
        parseLoop cfg barAddr fuel (cfg (capPtr.toNat + 1))
          (if cfg capPtr.toNat = vendorSpecific then
            virtioPopulateCapabilities cfg barAddr caps capPtr
          else caps)

def virtioParseCapabilities (cfg : Memory) (barAddr : Nat → Nat) (fuel : Nat)
    (caps : VirtioPciCaps) : Option VirtioPciCaps :=
  if (loadN cfg pciStatus 2).testBit 4 = false then some caps
  else parseLoop cfg barAddr fuel (cfg pciCapPtr) caps

end CortexForge.Pci
