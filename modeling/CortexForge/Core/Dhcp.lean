import CortexForge.Core.Memory
import CortexForge.Lib.Traced

/-!
# DHCP Replies

The parser of DHCP replies, from `pci/virtio/net/net.c`. A reply is an Ethernet
frame with an IPv4 packet, a UDP datagram and a BOOTP message in it, one after the
other at fixed offsets, and a list of options behind the magic cookie.

The parser is traced: every byte of the frame that it reads is logged by its
index, in the order in which the source evaluates its conditions. `frame` is the
memory the buffer pointer points to, also beyond the received length, so that a
read past the end has a value as it has in the source.

Option areas have a 16-bit length, and positions in them stay far below `2 ^ 32`.

## Main definitions

* `dhcpFindOption`: The search for an option.
* `dhcpFixed`: The checks before the options.
* `dhcpParse`: The parser.
-/

namespace CortexForge.Dhcp

open Traced

def dhcpMagic : List Nat := [0x63, 0x82, 0x53, 0x63]

def dhcpOptSubnet : Nat := 1

def dhcpOptRouter : Nat := 3

def dhcpOptLease : Nat := 51

def dhcpOptMsgtype : Nat := 53

def dhcpOptServerId : Nat := 54

def dhcpOptEnd : Nat := 255

/-- The Ethernet, IPv4 and UDP headers and the fixed part of the message with the
    magic cookie. -/
def fixedSize : Nat := 14 + 20 + 8 + 240

/-- Where the UDP header, the message and the options begin, with an IPv4 header
    of twenty bytes. -/
def udpStart : Nat := 14 + 20

def bootpStart : Nat := udpStart + 8

def optsStart : Nat := bootpStart + 240

/-- Byte `i` of the frame. -/
def readByte (frame : Memory) (i : Nat) : Traced Nat Nat := do
  access i
  pure (frame i).toNat

/-- The bytes from `i` on are the ones given. The comparison stops at the first
    that differs. -/
def bytesAre (frame : Memory) : Nat → List Nat → Traced Nat Bool
  | _, [] => pure true
  | i, b :: bs => do
      let x ← readByte frame i
      if x ≠ b then pure false else bytesAre frame (i + 1) bs

/-- The `n` bytes from `i` on. -/
def readBytes (frame : Memory) : Nat → Nat → Traced Nat (List Nat)
  | _, 0 => pure []
  | i, n + 1 => do
      let x ← readByte frame i
      let xs ← readBytes frame (i + 1) n
      pure (x :: xs)

/-- A number with its most significant byte first. -/
def bigEndian (bytes : List Nat) : Nat := bytes.foldl (fun n b => n * 256 + b) 0

/-- The search for an option from position `p` of the options on. A found option
    is the index of its value and the length. -/
def dhcpFindFrom (frame : Memory) (opts maxLen want p : Nat) : Traced Nat (Option (Nat × Nat)) :=
  if p < maxLen then do
    let code ← readByte frame (opts + p)
    if code = dhcpOptEnd then pure none
    -- A pad byte has no length.
    else if code = 0 then dhcpFindFrom frame opts maxLen want (p + 1)
    else if p + 1 ≥ maxLen then pure none
    else do
      let len ← readByte frame (opts + (p + 1))
      if p + 2 + len > maxLen then pure none
      else if code = want then pure (some (opts + (p + 2), len))
      else dhcpFindFrom frame opts maxLen want (p + 2 + len)
  else pure none
termination_by maxLen - p

def dhcpFindOption (frame : Memory) (opts maxLen want : Nat) : Traced Nat (Option (Nat × Nat)) :=
  dhcpFindFrom frame opts maxLen want 0

/-- The checks before the options. A reply that passes them is described by the
    length of its options. -/
def dhcpFixed (frame : Memory) (flen expectXid : Nat) : Traced Nat (Option Nat) :=
  if flen < fixedSize then pure none
  else do
    let ether ← bytesAre frame 12 [0x08, 0x00]
    if ether = false then pure none
    else do
      let version ← readByte frame 14
      if version &&& 0xF0 ≠ 0x40 then pure none
      else do
        let protocol ← readByte frame (14 + 9)
        if protocol ≠ 17 then pure none
        else do
          let ihl ← readByte frame 14
          if (ihl &&& 0x0F) * 4 ≠ 20 then pure none
          else do
            let srcPort ← readBytes frame udpStart 2
            let dstPort ← readBytes frame (udpStart + 2) 2
            let udpLen ← readBytes frame (udpStart + 4) 2
            if bigEndian srcPort ≠ 67 ∨ bigEndian dstPort ≠ 68 then pure none
            else if bigEndian udpLen < 8 + 240 then pure none
            else do
              let op ← readByte frame bootpStart
              if op ≠ 2 then pure none
              else do
                let xid ← readBytes frame (bootpStart + 4) 4
                if bigEndian xid ≠ expectXid then pure none
                else do
                  let magic ← bytesAre frame (bootpStart + 236) dhcpMagic
                  if magic = false then pure none
                  else pure (some (bigEndian udpLen - 8 - 240))

/-- What the caller is told. The address lists have four bytes. -/
structure Reply where
  yiaddr : List Nat
  server : List Nat
  mask : List Nat
  router : List Nat
  lease : Nat
deriving DecidableEq, Repr

/-- The value of an option, if it was found with a length that is accepted; `old`
    otherwise. -/
def takeOption (frame : Memory) (found : Option (Nat × Nat)) (accept : Nat → Bool)
    (old : List Nat) : Traced Nat (List Nat) :=
  match found with
  | some (value, len) => if accept len = true then readBytes frame value 4 else pure old
  | none => pure old

/-- The message type is the expected one. -/
def msgtypeIs (frame : Memory) (found : Option (Nat × Nat)) (expectMsg : Nat) : Traced Nat Bool :=
  match found with
  | some (value, len) =>
      if len ≠ 1 then pure false
      else do
        let x ← readByte frame value
        pure (x == expectMsg)
  | none => pure false

/-- Parse a frame of `flen` bytes. Options that are missing leave what the caller
    had, apart from the lease, which is 0 then. -/
def dhcpParse (frame : Memory) (flen expectXid expectMsg : Nat) (out : Reply) :
    Traced Nat (Bool × Reply) := do
  let fixed ← dhcpFixed frame flen expectXid
  match fixed with
  | none => pure (false, out)
  | some optsLen => do
      let mt ← dhcpFindOption frame optsStart optsLen dhcpOptMsgtype
      let expected ← msgtypeIs frame mt expectMsg
      if expected = false then pure (false, out)
      else do
        let yiaddr ← readBytes frame (bootpStart + 16) 4
        let sid ← dhcpFindOption frame optsStart optsLen dhcpOptServerId
        let server ← takeOption frame sid (· == 4) out.server
        let sm ← dhcpFindOption frame optsStart optsLen dhcpOptSubnet
        let mask ← takeOption frame sm (· == 4) out.mask
        let rt ← dhcpFindOption frame optsStart optsLen dhcpOptRouter
        let router ← takeOption frame rt (fun l => decide (4 ≤ l)) out.router
        let ls ← dhcpFindOption frame optsStart optsLen dhcpOptLease
        let lease ← takeOption frame ls (· == 4) []
        pure (true, ⟨yiaddr, server, mask, router, bigEndian lease⟩)

end CortexForge.Dhcp
