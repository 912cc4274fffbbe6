import CortexForge.Core.Dhcp

/-!
# The DHCP Parser and the End of the Frame

Which bytes of a frame the DHCP parser reads. The fixed part of a reply is checked
against the received length before anything of it is read. The options are not:
their length is what the UDP header says, and the search for an option goes on
until it has found it, meets the end marker or has come to the end of that length.

So the parser stays inside the frame exactly when each search it makes stops
there. Where a search leads is a property of the bytes: from the first option on,
one position follows from the other (`Chain`), and the search ends at a position
where nothing behind the frame is needed to decide (`Stops`).

## Main definitions

* `FixedPart`: The replies that pass the checks before the options.
* `Chain`: The positions a search goes through.
* `Stops`: A position where a search ends inside the frame.

## Theorems

* `searchInside_findFrom`: Where a search stays inside.
* `dhcpFixed_value`, `dhcpFixed_within`: The checks before the options.
* `dhcpParse_inside_iff`: When the parser stays inside the frame.
-/

namespace CortexForge.Dhcp

open Traced List

variable {frame : Memory} {P : Nat → Prop}

section

@[simp] theorem value_readByte (frame : Memory) (i : Nat) :
    value (readByte frame i) = (frame i).toNat := rfl

@[simp] theorem within_readByte (i : Nat) : Within P (readByte frame i) ↔ P i := by
  unfold readByte
  rw [within_bind, within_access]
  exact and_iff_left within_pure

theorem within_readBytes (n : Nat) : ∀ i,
    Within P (readBytes frame i n) ↔ ∀ k, k < n → P (i + k) := by
  induction n with
  | zero => exact fun i => iff_of_true within_pure nofun
  | succ n ih =>
    intro i
    rw [readBytes, within_bind, within_bind, within_readByte, ih]
    refine ⟨fun ⟨hfirst, hrest, _⟩ k hk => ?_, fun h => ⟨h 0 (Nat.succ_pos n), fun k hk => ?_,
      within_pure⟩⟩
    · cases k with
      | zero => exact hfirst
      | succ k =>
        rw [Nat.add_comm k 1, ← Nat.add_assoc]
        exact hrest k (Nat.lt_of_succ_lt_succ hk)
    · rw [Nat.add_assoc, Nat.add_comm 1 k]
      exact h (k + 1) (Nat.succ_lt_succ hk)

/-- A comparison reads at most the bytes it compares. -/
theorem within_bytesAre (bs : List Nat) : ∀ i, (∀ k, k < bs.length → P (i + k)) →
    Within P (bytesAre frame i bs) := by
  induction bs with
  | nil => exact fun i _ => within_pure
  | cons b bs ih =>
    intro i h
    rw [bytesAre, within_bind, within_readByte]
    refine ⟨h 0 (Nat.succ_pos _), ?_⟩
    split
    · exact within_pure
    · refine ih (i + 1) fun k hk => ?_
      rw [Nat.add_assoc, Nat.add_comm 1 k]
      exact h (k + 1) (Nat.succ_lt_succ hk)

theorem value_bytesAre (bs : List Nat) : ∀ i,
    value (bytesAre frame i bs) = true ↔ value (readBytes frame i bs.length) = bs := by
  induction bs with
  | nil => exact fun i => iff_of_true rfl rfl
  | cons b bs ih =>
    intro i
    rw [bytesAre, value_bind, length_cons, readBytes, value_bind, value_bind, value_pure,
      cons.injEq]
    by_cases hb : value (readByte frame i) = b
    · rw [if_neg (not_not.mpr hb), ih, and_iff_right hb]
    · rw [if_pos hb]
      exact iff_of_false Bool.false_ne_true fun hc => hb hc.1

end

section

/-- The code of the option at position `p`. -/
def codeAt (frame : Memory) (opts p : Nat) : Nat := (frame (opts + p)).toNat

/-- The length of the option at position `p`. -/
def lengthAt (frame : Memory) (opts p : Nat) : Nat := (frame (opts + (p + 1))).toNat

/-- From position `p` a search for `want` comes to position `q`, over padding and
    other options that begin in the first `avail` bytes. -/
inductive Chain (frame : Memory) (opts avail want : Nat) : Nat → Nat → Prop
  | here (p : Nat) : Chain frame opts avail want p p
  | pad (p q : Nat) (hin : p < avail) (hcode : codeAt frame opts p = 0)
      (hrest : Chain frame opts avail want (p + 1) q) : Chain frame opts avail want p q
  | skip (p q : Nat) (hin : p + 1 < avail) (hpad : codeAt frame opts p ≠ 0)
      (hend : codeAt frame opts p ≠ dhcpOptEnd) (hother : codeAt frame opts p ≠ want)
      (hrest : Chain frame opts avail want (p + 2 + lengthAt frame opts p) q) :
      Chain frame opts avail want p q

/-- A search in `maxLen` bytes of options ends at position `q`, and the first
    `avail` bytes are enough to see that. Of an option that is found, `taken` says
    how many bytes are read. -/
structure Stops (frame : Memory) (opts avail maxLen want : Nat) (taken : Nat → Nat)
    (q : Nat) : Prop where
  inside : q < maxLen → q < avail
  option : q < maxLen → codeAt frame opts q ≠ dhcpOptEnd → codeAt frame opts q ≠ 0 ∧
    (q + 1 < maxLen → q + 1 < avail ∧ (q + 2 + lengthAt frame opts q ≤ maxLen →
      codeAt frame opts q = want ∧ q + 2 + taken (lengthAt frame opts q) ≤ avail))

/-- A search and the bytes taken from what it finds keep to the first `avail`
    bytes behind `opts`. -/
def SearchInside (opts avail : Nat) (taken : Nat → Nat) (c : Traced Nat (Option (Nat × Nat))) :
    Prop :=
  Within (· < opts + avail) c ∧
    ∀ v len, value c = some (v, len) → ∀ k, k < taken len → v + k < opts + avail

variable {opts avail maxLen want : Nat} {taken : Nat → Nat}

theorem searchInside_none : SearchInside opts avail taken (pure none) :=
  ⟨within_pure, nofun⟩

theorem searchInside_some (v len : Nat) :
    SearchInside opts avail taken (pure (some (v, len))) ↔
      ∀ k, k < taken len → v + k < opts + avail := by
  refine ⟨fun h => h.2 v len rfl, fun h => ⟨within_pure, fun v' len' heq => ?_⟩⟩
  rw [value_pure, Option.some.injEq, Prod.mk.injEq] at heq
  rw [← heq.1, ← heq.2]
  exact h

theorem searchInside_read (p : Nat) (f : Nat → Traced Nat (Option (Nat × Nat))) :
    SearchInside opts avail taken (readByte frame (opts + p) >>= f) ↔
      p < avail ∧ SearchInside opts avail taken (f (frame (opts + p)).toNat) := by
  unfold SearchInside
  simp [and_assoc]

/-- A search stays inside, with the bytes taken from what it finds, when it comes
    to a position where it stops inside. -/
theorem searchInside_findFrom (p : Nat) :
    SearchInside opts avail taken (dhcpFindFrom frame opts maxLen want p) ↔
      ∃ q, Chain frame opts avail want p q ∧ Stops frame opts avail maxLen want taken q := by
  induction hleft : maxLen - p using Nat.strongRecOn generalizing p with
  | ind left ih =>
    rw [dhcpFindFrom]
    by_cases hp : ¬ p < maxLen
    · -- The search is over, whatever is there.
      rw [if_neg hp]
      exact iff_of_true searchInside_none
        ⟨p, .here p, fun hc => absurd hc hp, fun hc => absurd hc hp⟩
    rw [not_not] at hp
    rw [if_pos hp, searchInside_read]
    by_cases hin : ¬ p < avail
    · -- The code itself is behind the frame, and no step leads on from there.
      refine iff_of_false (fun hc => hin hc.1) ?_
      rintro ⟨q, hchain, hstop⟩
      cases hchain with
      | here => exact hin (hstop.inside hp)
      | pad _ _ hlt => exact hin hlt
      | skip _ _ hlt => exact hin (Nat.lt_of_succ_lt hlt)
    rw [not_not] at hin
    rw [and_iff_right hin, ← codeAt]
    by_cases hend : codeAt frame opts p = dhcpOptEnd
    · rw [if_pos hend]
      exact iff_of_true searchInside_none ⟨p, .here p, fun _ => hin, fun _ hc => absurd hend hc⟩
    rw [if_neg hend]
    by_cases hpad : codeAt frame opts p = 0
    · -- Padding is one step of the chain.
      rw [if_pos hpad, ih _ (by omega) (p + 1) rfl]
      refine exists_congr fun q => and_congr_left fun hstop => ⟨Chain.pad p q hin hpad, ?_⟩
      intro hchain
      cases hchain with
      | here => exact absurd hpad (hstop.option hp hend).1
      | pad _ _ _ _ hrest => exact hrest
      | skip _ _ _ hc => exact absurd hpad hc
    rw [if_neg hpad]
    by_cases hlast : p + 1 ≥ maxLen
    · rw [if_pos hlast]
      exact iff_of_true searchInside_none
        ⟨p, .here p, fun _ => hin, fun _ _ => ⟨hpad, fun hc => by omega⟩⟩
    rw [if_neg hlast, searchInside_read]
    by_cases hin' : ¬ p + 1 < avail
    · -- The length is behind the frame.
      refine iff_of_false (fun hc => hin' hc.1) ?_
      rintro ⟨q, hchain, hstop⟩
      cases hchain with
      | here => exact hin' ((hstop.option hp hend).2 (by omega)).1
      | pad _ _ _ hc => exact hpad hc
      | skip _ _ hlt => exact hin' hlt
    rw [not_not] at hin'
    rw [and_iff_right hin', ← lengthAt]
    by_cases hlong : p + 2 + lengthAt frame opts p > maxLen
    · rw [if_pos hlong]
      exact iff_of_true searchInside_none ⟨p, .here p, fun _ => hin, fun _ _ => ⟨hpad, fun _ =>
        ⟨hin', fun hc => by omega⟩⟩⟩
    rw [if_neg hlong]
    by_cases hwant : codeAt frame opts p = want
    · -- The option is found, and what is taken of it has to be inside.
      rw [if_pos hwant, searchInside_some]
      refine ⟨fun h => ⟨p, .here p, fun _ => hin, fun _ _ => ⟨hpad, fun _ => ⟨hin', fun _ =>
        ⟨hwant, ?_⟩⟩⟩⟩, ?_⟩
      · by_contra hout
        have hlast := h (taken (lengthAt frame opts p) - 1) (by omega)
        omega
      rintro ⟨q, hchain, hstop⟩
      cases hchain with
      | here =>
        have htaken := (((hstop.option hp hend).2 (by omega)).2 (by omega)).2
        exact fun k hk => by omega
      | pad _ _ _ hc => exact absurd hc hpad
      | skip _ _ _ _ _ hc => exact absurd hwant hc
    · rw [if_neg hwant, ih _ (by omega) (p + 2 + lengthAt frame opts p) rfl]
      refine exists_congr fun q => and_congr_left fun hstop =>
        ⟨Chain.skip p q hin' hpad hend hwant, ?_⟩
      intro hchain
      cases hchain with
      | here => exact absurd (((hstop.option hp hend).2 (by omega)).2 (by omega)).1 hwant
      | pad _ _ _ hc => exact absurd hc hpad
      | skip _ _ _ _ _ _ hrest => exact hrest

/-- A search that is not over yet reads on. -/
theorem mem_log_findFrom {p : Nat} (hp : p < maxLen) :
    opts + p ∈ log (dhcpFindFrom frame opts maxLen want p) := by
  rw [dhcpFindFrom, if_pos hp]
  exact mem_append_left _ mem_cons_self

end

section

/-- The length the UDP header gives. -/
def udpLength (frame : Memory) : Nat := bigEndian (value (readBytes frame (udpStart + 4) 2))

/-- A frame that passes the checks before the options. -/
structure FixedPart (frame : Memory) (flen expectXid : Nat) : Prop where
  long : fixedSize ≤ flen
  ether : value (readBytes frame 12 2) = [0x08, 0x00]
  version : (frame 14).toNat &&& 0xF0 = 0x40
  protocol : (frame 23).toNat = 17
  ihl : ((frame 14).toNat &&& 0x0F) * 4 = 20
  src_port : bigEndian (value (readBytes frame udpStart 2)) = 67
  dst_port : bigEndian (value (readBytes frame (udpStart + 2) 2)) = 68
  udp_len : 8 + 240 ≤ udpLength frame
  op : (frame bootpStart).toNat = 2
  xid : bigEndian (value (readBytes frame (bootpStart + 4) 4)) = expectXid
  magic : value (readBytes frame (bootpStart + 236) 4) = dhcpMagic

/-- A check that fails reads nothing. -/
theorem within_refuse {α : Type} {c : Prop} [Decidable c] {x : α} {d : Traced Nat α}
    (h : Within P d) : Within P (if c then pure x else d) := by
  split
  · exact within_pure
  · exact h

/-- The length is compared with the fixed part before any of it is read. -/
theorem dhcpFixed_within (frame : Memory) (flen expectXid : Nat) :
    Within (· < flen) (dhcpFixed frame flen expectXid) := by
  unfold dhcpFixed
  by_cases hlong : flen < fixedSize
  · rw [if_pos hlong]
    exact within_pure
  rw [if_neg hlong]
  unfold fixedSize at hlong
  have hbytes : ∀ i n, i + n ≤ 282 → Within (· < flen) (readBytes frame i n) := fun i n hn =>
    (within_readBytes n i).mpr fun k hk => by omega
  have hsame : ∀ i bs, i + bs.length ≤ 282 → Within (· < flen) (bytesAre frame i bs) :=
    fun i bs hn => within_bytesAre bs i fun k hk => by omega
  have hbyte : ∀ i, i < 282 → Within (· < flen) (readByte frame i) := fun i hi =>
    (within_readByte i).mpr (by omega)
  refine (within_bind ..).mpr ⟨hsame 12 _ (by decide), within_refuse ?_⟩
  refine (within_bind ..).mpr ⟨hbyte 14 (by decide), within_refuse ?_⟩
  refine (within_bind ..).mpr ⟨hbyte (14 + 9) (by decide), within_refuse ?_⟩
  refine (within_bind ..).mpr ⟨hbyte 14 (by decide), within_refuse ?_⟩
  rw [within_bind, within_bind, within_bind]
  refine ⟨hbytes udpStart 2 (by decide), hbytes _ 2 (by decide), hbytes _ 2 (by decide),
    within_refuse (within_refuse ?_)⟩
  refine (within_bind ..).mpr ⟨hbyte bootpStart (by decide), within_refuse ?_⟩
  refine (within_bind ..).mpr ⟨hbytes _ 4 (by decide), within_refuse ?_⟩
  exact (within_bind ..).mpr ⟨hsame _ _ (by decide), within_refuse within_pure⟩

/-- A check that fails ends the parse. -/
theorem value_refuse {α : Type} {c : Prop} [Decidable c] (d : Traced Nat (Option α)) (x : α) :
    value (if c then pure none else d) = some x ↔ ¬ c ∧ value d = some x := by
  split_ifs with hc
  · exact iff_of_false (Option.some_ne_none x).symm fun h => h.1 hc
  · rw [and_iff_right hc]

/-- The frames that pass, and what is known of them then. -/
theorem dhcpFixed_value (frame : Memory) (flen expectXid n : Nat) :
    value (dhcpFixed frame flen expectXid) = some n ↔
      FixedPart frame flen expectXid ∧ n = udpLength frame - 8 - 240 := by
  unfold dhcpFixed
  rw [value_refuse, value_bind, value_refuse, value_bind, value_refuse, value_bind, value_refuse,
    value_bind, value_refuse, value_bind, value_bind, value_bind, value_refuse, value_refuse,
    value_bind, value_refuse, value_bind, value_refuse, value_bind, value_refuse, value_pure]
  simp only [Bool.not_eq_false, value_bytesAre, not_not, not_or, Nat.not_lt,
    Option.some.injEq]
  constructor
  · rintro ⟨hlong, hether, hversion, hprotocol, hihl, ⟨hsrc, hdst⟩, hlen, hop, hxid, hmagic, hn⟩
    exact ⟨⟨hlong, hether, hversion, hprotocol, hihl, hsrc, hdst, hlen, hop, hxid, hmagic⟩, hn.symm⟩
  · rintro ⟨h, hn⟩
    exact ⟨h.long, h.ether, h.version, h.protocol, h.ihl, ⟨h.src_port, h.dst_port⟩, h.udp_len, h.op,
      h.xid, h.magic, hn.symm⟩

end

section

/-- How many bytes are read of an option of a given length. -/
def takenOfMsgtype (len : Nat) : Nat := if len = 1 then 1 else 0

def takenOf (accept : Nat → Bool) (len : Nat) : Nat := if accept len = true then 4 else 0

/-- The search for an option, with the bytes taken from it, stops inside a frame
    of `flen` bytes. -/
def StopsInside (frame : Memory) (flen want : Nat) (taken : Nat → Nat) : Prop :=
  ∃ q, Chain frame optsStart (flen - optsStart) want 0 q ∧
    Stops frame optsStart (flen - optsStart) (udpLength frame - 8 - 240) want taken q

/-- The message type is there, and is the expected one. -/
def MsgtypeIs (frame : Memory) (expectMsg : Nat) : Prop :=
  ∃ v, value (dhcpFindOption frame optsStart (udpLength frame - 8 - 240) dhcpOptMsgtype)
    = some (v, 1) ∧ (frame v).toNat = expectMsg

/-- Every search the parser makes stops inside the frame: the one for the message
    type, and the others when that is the expected one. -/
structure OptionsInside (frame : Memory) (flen expectMsg : Nat) : Prop where
  msgtype : StopsInside frame flen dhcpOptMsgtype takenOfMsgtype
  server_id : MsgtypeIs frame expectMsg →
    StopsInside frame flen dhcpOptServerId (takenOf (· == 4))
  subnet : MsgtypeIs frame expectMsg → StopsInside frame flen dhcpOptSubnet (takenOf (· == 4))
  router : MsgtypeIs frame expectMsg →
    StopsInside frame flen dhcpOptRouter (takenOf fun l => decide (4 ≤ l))
  lease : MsgtypeIs frame expectMsg → StopsInside frame flen dhcpOptLease (takenOf (· == 4))

variable {flen : Nat}

/-- A search and what is read of the option it finds. -/
theorem within_take {α : Type} (frame : Memory) (want : Nat) (hlong : optsStart ≤ flen)
    (taken : Nat → Nat) (read : Option (Nat × Nat) → Traced Nat α)
    (hread : ∀ found, Within (· < flen) (read found) ↔
      ∀ v len, found = some (v, len) → ∀ k, k < taken len → v + k < flen) :
    Within (· < flen) (dhcpFindOption frame optsStart (udpLength frame - 8 - 240) want) ∧
        Within (· < flen) (read (value
          (dhcpFindOption frame optsStart (udpLength frame - 8 - 240) want))) ↔
      StopsInside frame flen want taken := by
  have hend : optsStart + (flen - optsStart) = flen := Nat.add_sub_cancel' hlong
  rw [hread, StopsInside, ← searchInside_findFrom, SearchInside, hend]
  rfl

theorem forall_found {v len : Nat} {Q : Nat → Nat → Prop} :
    (∀ v' len', some (v, len) = some (v', len') → Q v' len') ↔ Q v len := by
  refine ⟨fun h => h v len rfl, fun h v' len' heq => ?_⟩
  rw [Option.some.injEq, Prod.mk.injEq] at heq
  rw [← heq.1, ← heq.2]
  exact h

theorem within_msgtypeIs (expectMsg : Nat) (found : Option (Nat × Nat)) :
    Within (· < flen) (msgtypeIs frame found expectMsg) ↔
      ∀ v len, found = some (v, len) → ∀ k, k < takenOfMsgtype len → v + k < flen := by
  unfold msgtypeIs takenOfMsgtype
  rcases found with _ | ⟨v, len⟩
  · exact iff_of_true within_pure nofun
  rw [forall_found]
  dsimp only
  by_cases hlen : len = 1
  · rw [if_neg (not_not.mpr hlen), if_pos hlen, within_bind, within_readByte]
    refine ⟨fun h k hk => ?_, fun h => ⟨h 0 Nat.one_pos, within_pure⟩⟩
    rw [Nat.lt_one_iff.mp hk]
    exact h.1
  · rw [if_pos hlen, if_neg hlen]
    exact iff_of_true within_pure nofun

theorem within_takeOption (accept : Nat → Bool) (old : List Nat) (found : Option (Nat × Nat)) :
    Within (· < flen) (takeOption frame found accept old) ↔
      ∀ v len, found = some (v, len) → ∀ k, k < takenOf accept len → v + k < flen := by
  unfold takeOption takenOf
  rcases found with _ | ⟨v, len⟩
  · exact iff_of_true within_pure nofun
  rw [forall_found]
  dsimp only
  split_ifs
  · rw [within_readBytes]
  · exact iff_of_true within_pure nofun

theorem value_msgtypeIs (expectMsg : Nat) :
    value (msgtypeIs frame (value (dhcpFindOption frame optsStart (udpLength frame - 8 - 240)
      dhcpOptMsgtype)) expectMsg) = true ↔ MsgtypeIs frame expectMsg := by
  unfold MsgtypeIs msgtypeIs
  rcases value (dhcpFindOption frame optsStart (udpLength frame - 8 - 240) dhcpOptMsgtype) with
    _ | ⟨v, len⟩
  · exact iff_of_false Bool.false_ne_true fun ⟨v, hc, _⟩ => absurd hc (Option.some_ne_none _).symm
  simp only [Option.some.injEq, Prod.mk.injEq]
  by_cases hlen : len = 1
  · rw [if_neg (not_not.mpr hlen), value_bind, value_pure, beq_iff_eq]
    exact ⟨fun h => ⟨v, ⟨rfl, hlen⟩, h⟩, fun ⟨v', ⟨hv, _⟩, h⟩ => hv ▸ h⟩
  · rw [if_pos hlen]
    exact iff_of_false Bool.false_ne_true fun ⟨v', ⟨_, hc⟩, _⟩ => hlen hc

/-- The parser reads nothing but bytes of the frame if and only if the frame fails
    a check before the options, or every search among the options stops inside. -/
theorem dhcpParse_inside_iff (frame : Memory) (flen expectXid expectMsg : Nat) (out : Reply) :
    Within (· < flen) (dhcpParse frame flen expectXid expectMsg out) ↔
      (FixedPart frame flen expectXid → OptionsInside frame flen expectMsg) := by
  unfold dhcpParse
  rw [within_bind, and_iff_right (dhcpFixed_within frame flen expectXid)]
  rcases hfixed : value (dhcpFixed frame flen expectXid) with _ | optsLen
  · -- A check has failed, and nothing else is read.
    refine iff_of_true within_pure fun hpart => ?_
    rw [(dhcpFixed_value frame flen expectXid _).mpr ⟨hpart, rfl⟩] at hfixed
    exact absurd hfixed (Option.some_ne_none _)
  rcases (dhcpFixed_value frame flen expectXid optsLen).mp hfixed with ⟨hpart, hlen⟩
  rw [hlen]
  have hlong : optsStart ≤ flen := hpart.long
  have hmsg := within_take frame dhcpOptMsgtype hlong takenOfMsgtype
    (fun found => msgtypeIs frame found expectMsg) (within_msgtypeIs expectMsg)
  have hopt := fun want accept old => within_take frame want hlong (takenOf accept)
    (fun found => takeOption frame found accept old) (within_takeOption accept old)
  rw [forall_prop_of_true hpart, within_bind, within_bind, ← and_assoc, hmsg]
  by_cases hexpected : MsgtypeIs frame expectMsg
  · have hvalue := (value_msgtypeIs expectMsg).mpr hexpected
    rw [if_neg (by rw [hvalue]; exact Bool.noConfusion)]
    iterate 9 rw [within_bind]
    have hserver := hopt dhcpOptServerId (· == 4) out.server
    have hmask := hopt dhcpOptSubnet (· == 4) out.mask
    have hrouter := hopt dhcpOptRouter (fun l => decide (4 ≤ l)) out.router
    have hlease := hopt dhcpOptLease (· == 4) []
    constructor
    · rintro ⟨hmt, _, hfind1, htake1, hfind2, htake2, hfind3, htake3, hfind4, htake4, _⟩
      exact ⟨hmt, fun _ => hserver.mp ⟨hfind1, htake1⟩, fun _ => hmask.mp ⟨hfind2, htake2⟩,
        fun _ => hrouter.mp ⟨hfind3, htake3⟩, fun _ => hlease.mp ⟨hfind4, htake4⟩⟩
    · intro h
      rcases hserver.mpr (h.server_id hexpected) with ⟨hfind1, htake1⟩
      rcases hmask.mpr (h.subnet hexpected) with ⟨hfind2, htake2⟩
      rcases hrouter.mpr (h.router hexpected) with ⟨hfind3, htake3⟩
      rcases hlease.mpr (h.lease hexpected) with ⟨hfind4, htake4⟩
      refine ⟨h.msgtype, (within_readBytes 4 _).mpr fun k hk => ?_, hfind1, htake1, hfind2, htake2,
        hfind3, htake3, hfind4, htake4, within_pure⟩
      unfold optsStart at hlong
      omega
  · -- The reply is not the expected one, and its other options are not looked for.
    have hvalue := mt (value_msgtypeIs expectMsg).mp hexpected
    rw [Bool.not_eq_true] at hvalue
    rw [if_pos hvalue, and_iff_left within_pure]
    exact ⟨fun h => ⟨h, fun hc => absurd hc hexpected, fun hc => absurd hc hexpected,
      fun hc => absurd hc hexpected, fun hc => absurd hc hexpected⟩, fun h => h.msgtype⟩

/-- A reply without options whose UDP length leaves room for eight bytes of them:
    the bytes of the fixed part that are not zero. -/
def bareReply : Memory := fun i =>
  (([(12, 0x08), (14, 0x45), (23, 17), (35, 67), (37, 68), (38, 1), (42, 2), (46, 0xFE), (47, 0x22),
    (48, 0x10), (49, 0x01), (278, 0x63), (279, 0x82), (280, 0x53), (281, 0x63)] :
    List (Nat × Byte)).lookup i).getD 0

/-- What the caller starts with. -/
def noReply : Reply := ⟨[0, 0, 0, 0], [0, 0, 0, 0], [255, 255, 255, 0], [0, 0, 0, 0], 0⟩

/-- The parser reads the byte behind the 282 bytes of this frame. -/
theorem bareReply_overread :
    ¬ Within (· < 282) (dhcpParse bareReply 282 0xFE221001 2 noReply) := by
  have hfixed : value (dhcpFixed bareReply 282 0xFE221001) = some 8 := by rfl
  intro hwithin
  unfold dhcpParse at hwithin
  rw [within_bind, hfixed] at hwithin
  have hsearch := ((within_bind ..).mp hwithin.2).1
  exact absurd (hsearch _ (mem_log_findFrom (by decide))) (by decide)

end

end CortexForge.Dhcp
