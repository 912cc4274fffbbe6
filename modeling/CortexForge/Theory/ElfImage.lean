import CortexForge.Theory.Elf
import CortexForge.Theory.Heap

/-!
# What a Loaded Program Sees

The address space after a load, byte by byte. Every segment gets pages of its own,
from the page its first byte is in to the page its last byte is in, and the
segments are mapped one after the other. An address in the pages of several
segments is therefore mapped as the last of them is, and what the others had there
cannot be seen.

So a file is loaded faithfully exactly when this does no harm: where the pages of
a later segment cover a byte of an earlier one, the last segment to do so has the
same permissions, and the byte is zero like the rest of the later segment's page.
Segments with no page in common are the common case (`compatible_of_apart`).

## Main definitions

* `Placed`: A segment with its pages.
* `lastCover`, `mappedBy`: The segment an address is mapped by.
* `Faithful`: Every byte of every segment is where it should be.
* `Compatible`: Later segments do no harm to earlier ones.

## Theorems

* `takes_shown`: The address space the loop builds.
* `load_faithful_iff`: When a file is loaded faithfully.
-/

namespace CortexForge.Elf

open Mmu List Option

/-- The address is in one of the pages of the segment. -/
def Phdr.Covers (ph : Phdr) (v : Nat) : Prop :=
  vaLo ph / pageSize ≤ v / pageSize ∧ v / pageSize < vaLo ph / pageSize + segmentPages ph

instance (ph : Phdr) (v : Nat) : Decidable (ph.Covers v) := inferInstanceAs (Decidable (_ ∧ _))

/-- The address is in the range of the segment. -/
def Phdr.Contains (ph : Phdr) (v : Nat) : Prop := ph.pVaddr ≤ v ∧ v < ph.pVaddr + ph.pMemsz

/-- The last of the segments whose pages the address is in. -/
def lastCover (phs : List Phdr) (v : Nat) : Option Phdr :=
  phs.reverse.find? fun ph => decide (ph.Covers v)

/-- A segment that has been loaded, with its permissions and its pages. -/
structure Placed where
  ph : Phdr
  flags : BitVec 64
  phys : Nat

/-- The entry that maps an address to the pages of the segment. -/
def Placed.entry (p : Placed) (v : Nat) : BitVec 64 :=
  leafEntry (p.phys + (v / pageSize - vaLo p.ph / pageSize) * pageSize) p.flags

/-- The pages to give back. -/
def Placed.region (p : Placed) : ElfRegion := ⟨p.phys, segmentPages p.ph⟩

/-- The segment that an address is mapped by. -/
def mappedBy (placed : List Placed) (v : Nat) : Option Placed :=
  placed.reverse.find? fun p => decide (p.ph.Covers v)

section

theorem mappedBy_snoc (placed : List Placed) (p : Placed) (v : Nat) :
    mappedBy (placed ++ [p]) v = if p.ph.Covers v then some p else mappedBy placed v := by
  unfold mappedBy
  rw [reverse_append, reverse_singleton, singleton_append, find?_cons]
  by_cases hcovers : p.ph.Covers v
  · simp [hcovers]
  · simp [hcovers]

theorem mappedBy_map (placed : List Placed) (v : Nat) :
    (mappedBy placed v).map Placed.ph = lastCover (placed.map Placed.ph) v := by
  unfold lastCover
  rw [← map_reverse, find?_map]
  rfl

/-- A segment whose pages the address is in maps it, unless a later one does. -/
theorem mappedBy_append (front back : List Placed) (p : Placed) (v : Nat) (hp : p.ph.Covers v) :
    mappedBy (front ++ p :: back) v = (mappedBy back v).or (some p) := by
  unfold mappedBy
  rw [reverse_append, reverse_cons, find?_append, find?_append,
    find?_singleton, decide_eq_true hp]
  generalize find? (fun p => decide (p.ph.Covers v)) back.reverse = found
  cases found with
  | none => rfl
  | some q => rfl

theorem mem_of_mappedBy {placed : List Placed} {v : Nat} {p : Placed}
    (h : mappedBy placed v = some p) : p ∈ placed ∧ p.ph.Covers v := by
  have hcovers : decide (p.ph.Covers v) = true :=
    @List.find?_some Placed (fun p => decide (p.ph.Covers v)) p placed.reverse h
  exact ⟨mem_reverse.mp (mem_of_find?_eq_some h), of_decide_eq_true hcovers⟩

end

/-- Byte `k` of the pages of a segment. -/
def imageByte (kbuf : Memory) (ph : Phdr) (k : Nat) : Byte :=
  if ph.pVaddr - vaLo ph ≤ k ∧ k < ph.pVaddr - vaLo ph + ph.pFilesz then
    kbuf (ph.pOffset + (k - (ph.pVaddr - vaLo ph)))
  else 0

/-- Byte `i` of a segment in memory. -/
def segmentByte (kbuf : Memory) (ph : Phdr) (i : Nat) : Byte :=
  if i < ph.pFilesz then kbuf (ph.pOffset + i) else 0

section

theorem fillSegment_at (mem kbuf : Memory) (ph : Phdr) (phys k : Nat)
    (hk : k < segmentPages ph * pageSize) :
    fillSegment mem kbuf ph phys (phys + k) = imageByte kbuf ph k := by
  have hclear : memset mem phys 0#8 (segmentPages ph * pageSize) (phys + k) = 0#8 :=
    if_pos ⟨Nat.le_add_right _ _, Nat.add_lt_add_left hk phys⟩
  unfold fillSegment imageByte
  by_cases hfile : ph.pFilesz > 0
  · split_ifs with hin
    · unfold memcpy
      rw [if_pos (by omega)]
      congr 2
      omega
    · rw [memcpy_other (by omega)]
      exact hclear
  · rw [if_neg hfile, if_neg (by omega)]
    exact hclear

/-- A segment's own bytes, in its own pages. -/
theorem imageByte_own (kbuf : Memory) (ph : Phdr) (i : Nat) :
    imageByte kbuf ph (ph.pVaddr + i - vaLo ph) = segmentByte kbuf ph i := by
  have hlo : vaLo ph ≤ ph.pVaddr := Nat.div_mul_le_self _ _
  unfold imageByte segmentByte
  by_cases hfile : i < ph.pFilesz
  · rw [if_pos (by omega), if_pos hfile]
    congr 2
    omega
  · rw [if_neg (by omega), if_neg hfile]

end

variable {σ : Type} {src : Pages σ}

/-- The machine `m` after some segments, seen from the machine `m0` before: what
    is mapped, and what is in the pages. -/
structure Shown (kbuf : Memory) (r : Nat) (m0 m : Machine σ) (placed : List Placed) : Prop where
  outside : ∀ v, v < 2 ^ 48 → mappedBy placed v = none →
    translate m.mem r v = translate m0.mem r v
  mapped : m.refused = m0.refused → ∀ v p, v < 2 ^ 48 → mappedBy placed v = some p →
    translate m.mem r v = some (p.entry v)
  bytes : ∀ p ∈ placed, ∀ k, k < segmentPages p.ph * pageSize →
    m.mem (p.phys + k) = imageByte kbuf p.ph k

section

variable {shared : Nat → Prop} {r : Nat} {m0 m : Machine σ} {role0 role : Roles}
  {placed : List Placed} {kbuf : Memory}

theorem shown_start (m : Machine σ) : Shown kbuf r m m [] :=
  ⟨fun _ _ _ => rfl, nofun,
    nofun⟩

theorem shown_places {m1 m2 : Machine σ} {ph : Phdr} {flags : BitVec 64} {u size count : Nat}
    (h : Loaded src shared r m0 role0 m role (placed.map Placed.region))
    (hshown : Shown kbuf r m0 m placed) (hplace : Places src kbuf size r count m ph flags u m1 m2) :
    Shown kbuf r m0 m2 (placed ++ [⟨ph, flags, u⟩]) := by
  rcases places_spec h.space hplace with ⟨role1, role2, hev, hrun, hrefused, hgrows⟩
  have hmap := hplace.map
  rcases space_frame h.space hev fun _ hc => hc with ⟨hspace, _, hleaf⟩
  have hend : vaLo ph + segmentPages ph * pageSize ≤ 2 ^ 48 :=
    Nat.le_trans (segment_pages hplace.ok hplace.memsz).2 (by decide)
  have hfilled : ∀ v, translate (fillSegment m1.mem kbuf ph u) r v = translate m.mem r v :=
    fun v => hleaf (pathOf v) (l3Index v) (Nat.le_refl 3)
  refine ⟨fun v hv hnone => ?_, fun hsame v p hv hsome => ?_, fun p hp k hk => ?_⟩
  · rw [mappedBy_snoc] at hnone
    by_cases hcovers : ph.Covers v
    · rw [if_pos hcovers] at hnone
      exact absurd hnone (some_ne_none _)
    · rw [if_neg hcovers] at hnone
      rw [← hmap, mapRange_outside hspace hend v hv hcovers, hfilled, hshown.outside v hv hnone]
  · -- No refusal on the way, so this segment is mapped and the others were.
    have hle0 := h.evolves.refused_le
    have hle := hgrows.evolves.refused_le
    simp only at hle
    rw [← hmap, mapRange_translate hspace hend (by rw [hmap]; simp only; omega) v hv]
    rw [mappedBy_snoc] at hsome
    split_ifs at hsome with hcovers
    · rw [some.injEq] at hsome
      rw [if_pos (show _ ∧ _ from hcovers), ← hsome]
      rfl
    · rw [if_neg (show ¬ (_ ∧ _) from hcovers), hfilled]
      exact hshown.mapped (by omega) v p hv hsome
  · -- What is in the pages of segments is not touched by mapping.
    have hkeep : ∀ a x, src.Held m1.pmm a → role1 a = .data r → InPage a x →
        m2.mem x = fillSegment m1.mem kbuf ph u x := by
      intro a x hheld hrole hx
      refine hgrows.evolves.mem_eq a x hheld ?_ hx
      rw [hrole]
      rintro ⟨path, hc⟩
      exact Role.noConfusion hc
    rcases inPage_of_run p.phys (segmentPages p.ph) (p.phys + k) (Nat.le_add_right _ _)
      (by omega) with ⟨a, ha, hx⟩
    rcases mem_append.mp hp with hp | hp
    · rcases h.pages a ⟨p.region, mem_map_of_mem hp, ha⟩ with ⟨hrole, hheld, _⟩
      rw [hkeep a _ (hev.held a hheld) ((hev.role_eq a hheld).trans hrole) hx]
      exact (hev.mem_eq a _ hheld not_false hx).trans (hshown.bytes p hp k hk)
    · rw [mem_singleton] at hp
      rw [hp] at ha hx hk ⊢
      rw [hkeep a _ (hrun a ha).2.1 (hrun a ha).2.2 hx]
      exact fillSegment_at m1.mem kbuf ph u k hk

/-- What is known of a segment that has been loaded. -/
structure PlacedOk (size : Nat) (p : Placed) : Prop where
  flags_eq : parseFlags p.ph.pFlags = some p.flags
  memsz_lt : p.ph.pMemsz < 2 ^ 64
  checked : ∃ count, segmentOk p.ph size count

/-- The address space a run of the loop builds. The segments that are loaded are those
    of the headers, in their order. -/
theorem takes_shown {size : Nat} {phs : List Phdr} {regions : List ElfRegion}
    (hspace : SpaceOk src m0 role0 r) (hleaves : LeavesOk (fun _ => False) shared m0.mem r)
    (h : Takes src kbuf size r m0 phs m regions) :
    ∃ role placed, placed.map Placed.region = regions ∧
      Loaded src shared r m0 role0 m role (placed.map Placed.region) ∧
      Shown kbuf r m0 m placed ∧ (∀ p ∈ placed, PlacedOk size p) ∧
      placed.map Placed.ph = phs.filter (·.pType == ptLoad) := by
  induction h with
  | start =>
    rcases takes_loaded hspace hleaves (.start : Takes src kbuf size r m0 [] m0 []) with ⟨role, h⟩
    exact ⟨role, [], rfl, h, shown_start m0, nofun, rfl⟩
  | skipped _ htype ih =>
    rw [filter_append, filter_cons_of_neg (by rw [beq_iff_eq]; exact htype), filter_nil,
      append_nil]
    exact ih
  | @placed phs _ m1 m2 _ ph flags u _ htype hplace ih =>
    rcases ih with ⟨role, placed, rfl, h, hshown, hall, hphs⟩
    rcases loaded_places h hplace with ⟨role', h'⟩
    have hregions : (placed ++ [(⟨ph, flags, u⟩ : Placed)]).map Placed.region =
        placed.map Placed.region ++ [(⟨u, segmentPages ph⟩ : ElfRegion)] := map_append
    refine ⟨role', placed ++ [⟨ph, flags, u⟩], hregions, hregions ▸ h',
      shown_places h hshown hplace, fun p hp => ?_, ?_⟩
    · rcases mem_append.mp hp with hp | hp
      · exact hall p hp
      · rw [mem_singleton.mp hp]
        exact ⟨hplace.flags_eq, hplace.memsz, _, hplace.ok⟩
    · rw [filter_append, filter_cons_of_pos (by rw [beq_iff_eq]; exact htype), map_append, hphs]
      rfl

end

/-- The loadable segments of a file. -/
def segments (kbuf : Memory) : List Phdr :=
  ((range (ePhnum kbuf)).map (readPhdr kbuf (ePhoff kbuf))).filter (·.pType == ptLoad)

/-- The program reads the byte `b` at the address `v`, where it has the
    permissions of the segment flags `pf`. -/
def Shows (mem : Memory) (r v pf : Nat) (b : Byte) : Prop :=
  ∃ e, translate mem r v = some e ∧ el0Read e = pfR pf ∧ el0Write e = pfW pf ∧
    el0Exec e = pfX pf ∧ mem (pteNextTable e + v % pageSize) = b

/-- Every byte of every segment is where it should be: the bytes of the file, and
    zeros behind them. -/
def Faithful (kbuf mem : Memory) (r : Nat) : Prop :=
  ∀ ph ∈ segments kbuf, ∀ i, i < ph.pMemsz →
    Shows mem r (ph.pVaddr + i) ph.pFlags (segmentByte kbuf ph i)

/-- Where the pages of later segments cover a byte of a segment, the last of them
    has the same permissions, and the byte is zero. -/
def Compatible (kbuf : Memory) : Prop :=
  ∀ front ph back, segments kbuf = front ++ ph :: back → ∀ i, i < ph.pMemsz →
    ∀ later, lastCover back (ph.pVaddr + i) = some later →
      pfW later.pFlags = pfW ph.pFlags ∧ pfX later.pFlags = pfX ph.pFlags ∧
        segmentByte kbuf ph i = 0

section

variable {shared : Nat → Prop} {r size v : Nat} {m0 m : Machine σ} {role0 role : Roles}
  {placed : List Placed} {kbuf : Memory} {ph : Phdr} {p : Placed}

theorem covers_of_contains (hfits : SegmentFits ph size) (hin : ph.Contains v) : ph.Covers v := by
  have hfirst := hfits.first
  have hlast := hfits.last
  have hlo : vaLo ph % pageSize = 0 := Nat.mul_mod_left _ _
  unfold Phdr.Contains at hin
  unfold Phdr.Covers
  unfold pageSize at *
  omega

theorem lo_le_of_covers (hcovers : ph.Covers v) :
    vaLo ph ≤ v ∧ v - vaLo ph = (v / pageSize - vaLo ph / pageSize) * pageSize + v % pageSize ∧
      v - vaLo ph < segmentPages ph * pageSize := by
  have hlo : vaLo ph % pageSize = 0 := Nat.mul_mod_left _ _
  unfold Phdr.Covers at hcovers
  unfold pageSize at *
  omega

theorem segments_lt (hph : ph ∈ segments kbuf) : ph.pOffset < 2 ^ 64 := by
  rcases mem_map.mp (mem_filter.mp hph).1 with ⟨i, _, rfl⟩
  exact (readPhdr_lt kbuf _ i).1

variable (h : Loaded src shared r m0 role0 m role (placed.map Placed.region))
  (hshown : Shown kbuf r m0 m placed)
include h hshown

/-- What is behind the entry of a segment. -/
theorem placed_byte (hp : p ∈ placed) (hok : PlacedOk size p) (hcovers : p.ph.Covers v) :
    m.mem (pteNextTable (p.entry v) + v % pageSize) = imageByte kbuf p.ph (v - vaLo p.ph) := by
  rcases lo_le_of_covers hcovers with ⟨_, hoff, hlt⟩
  -- The page is one of those that were handed out for the segment.
  have hheld := (h.pages (p.phys + (v / pageSize - vaLo p.ph / pageSize) * pageSize)
    ⟨p.region, mem_map_of_mem hp, v / pageSize - vaLo p.ph / pageSize,
      Nat.sub_lt_left_of_lt_add hcovers.1 hcovers.2, rfl⟩).2.1
  rcases held_lt hheld with ⟨halign, hbelow⟩
  rw [Placed.entry,
    pteNextTable_leafEntry _ _ halign hbelow (parseFlags_spec hok.flags_eq).1.no_address,
    Nat.add_assoc, ← hoff]
  exact hshown.bytes p hp _ hlt

/-- An address that is mapped by a segment shows what that segment has there. -/
theorem shows_iff (hok : PlacedOk size p) (hv : v < 2 ^ 48)
    (hrefused : m.refused = m0.refused) (hmapped : mappedBy placed v = some p) {pf : Nat}
    (hpf : pfR pf = true) (b : Byte) :
    Shows m.mem r v pf b ↔ pfW p.ph.pFlags = pfW pf ∧ pfX p.ph.pFlags = pfX pf ∧
      imageByte kbuf p.ph (v - vaLo p.ph) = b := by
  rcases mem_of_mappedBy hmapped with ⟨hp, hcovers⟩
  rcases parseFlags_spec hok.flags_eq with ⟨_, _, hread, hwrite, hexec⟩
  rcases leafEntry_perms (p.phys + (v / pageSize - vaLo p.ph / pageSize) * pageSize) p.flags with
    ⟨_, _, hleafw, hleafx, _⟩
  unfold Shows
  rw [hshown.mapped hrefused v p hv hmapped]
  simp only [some.injEq, exists_eq_left']
  rw [placed_byte h hshown hp hok hcovers, Placed.entry, leafEntry_read, hleafw, hleafx, hread, hpf,
    hwrite, hexec]
  exact and_iff_right rfl

/-- One byte of one segment. The segment has the byte in its own pages, so the
    question is only whether a later segment has been mapped over it. -/
theorem shows_byte_iff (hall : ∀ p ∈ placed, PlacedOk size p)
    (hmap : placed.map Placed.ph = segments kbuf) (hrefused : m.refused = m0.refused)
    (hdisjoint : (segments kbuf).Pairwise fun p q => ∀ v, ¬ (p.Contains v ∧ q.Contains v))
    {front back : List Phdr} {ph : Phdr} (hsplit : segments kbuf = front ++ ph :: back) {i : Nat}
    (hi : i < ph.pMemsz) :
    Shows m.mem r (ph.pVaddr + i) ph.pFlags (segmentByte kbuf ph i) ↔
      ∀ later, lastCover back (ph.pVaddr + i) = some later →
        pfW later.pFlags = pfW ph.pFlags ∧ pfX later.pFlags = pfX ph.pFlags ∧
          segmentByte kbuf ph i = 0 := by
  have hmem : ph ∈ segments kbuf := by
    rw [hsplit]
    exact mem_append_right _ mem_cons_self
  rcases map_eq_append_iff.mp (hmap.trans hsplit) with ⟨before, rest, hplaced, _, hrest⟩
  rcases map_eq_cons_iff.mp hrest with ⟨p, after, hafter, rfl, hback⟩
  rw [hafter] at hplaced
  have hp : p ∈ placed := by
    rw [hplaced]
    exact mem_append_right _ mem_cons_self
  have hfits := segment_fits (hall p hp).checked.choose_spec (segments_lt hmem) (hall p hp).memsz_lt
  have hin : p.ph.Contains (p.ph.pVaddr + i) := ⟨Nat.le_add_right _ _, Nat.add_lt_add_left hi _⟩
  have hv : p.ph.pVaddr + i < 2 ^ 48 := by
    have hrange := hfits.range
    unfold userStackTop at hrange
    omega
  have hpf := (parseFlags_spec (hall p hp).flags_eq).2.1
  have hwho := mappedBy_append before after p _ (covers_of_contains hfits hin)
  rw [← hplaced] at hwho
  have hcover := mappedBy_map after (p.ph.pVaddr + i)
  rw [hback] at hcover
  rcases hlater : mappedBy after (p.ph.pVaddr + i) with _ | q
  · -- Nobody later has the page.
    rw [hlater] at hwho hcover
    rw [shows_iff h hshown (hall p hp) hv hrefused hwho hpf, imageByte_own, ← hcover]
    exact iff_of_true ⟨rfl, rfl, rfl⟩ nofun
  · rw [hlater] at hwho hcover
    rcases mem_of_mappedBy hlater with ⟨hq, hcovers⟩
    have hqplaced : q ∈ placed := by
      rw [hplaced]
      exact mem_append_right _ (mem_cons_of_mem _ hq)
    have hqback : q.ph ∈ back := hback ▸ mem_map_of_mem hq
    rw [hsplit, pairwise_append, pairwise_cons] at hdisjoint
    have hout := hdisjoint.2.1.1 q.ph hqback (p.ph.pVaddr + i)
    have hle : q.ph.pFilesz ≤ q.ph.pMemsz :=
      Nat.le_of_not_lt (hall q hqplaced).checked.choose_spec.1
    -- Outside its own range the pages of a segment are zero.
    have hzero : imageByte kbuf q.ph (p.ph.pVaddr + i - vaLo q.ph) = 0 := by
      have hlo := (lo_le_of_covers hcovers).1
      have hfirst : vaLo q.ph ≤ q.ph.pVaddr := Nat.div_mul_le_self _ _
      exact if_neg fun hc => hout ⟨hin, by unfold Phdr.Contains; omega⟩
    rw [shows_iff h hshown (hall q hqplaced) hv hrefused hwho hpf, hzero, ← hcover, map_some]
    simp only [some.injEq, forall_eq']
    rw [eq_comm (b := segmentByte kbuf p.ph i)]

end

section

variable {kbuf : Memory}

/-- New tables map shared pages only, whatever is shared. -/
theorem newTables_leaves {m0 m : Machine σ} {r : Nat}
    (hcreate : mmuCreateUserTables src m0 = (m, r)) (hr : r ≠ 0) :
    ∃ role, SpaceOk src m role r ∧ LeavesOk (fun _ => False) (fun _ => True) m.mem r := by
  rcases createTables_got (fun _ => .other) hcreate hr with ⟨_, role, _, hspace, hleaves, _⟩
  refine ⟨role, hspace, fun path i e hlen he => ?_⟩
  rw [(hleaves path i e hlen he).2]
  rcases leafEntry_perms m.sigtrampPhys textFlags with ⟨_, hng, hw, hx, hpriv⟩
  refine ⟨hpriv.trans textFlags_ok.priv_no_exec, hng, ?_, .inr ⟨trivial, hw.trans (by decide)⟩⟩
  rw [hw, hx]
  exact textFlags_ok.not_both

/-- Segments whose pages no other segment has bytes in. -/
theorem compatible_of_apart
    (hapart : (segments kbuf).Pairwise fun p q => ∀ v, ¬ (p.Contains v ∧ q.Covers v)) :
    Compatible kbuf := by
  intro front ph back hsplit i hi later hlater
  have hcovers : decide (later.Covers (ph.pVaddr + i)) = true :=
    @List.find?_some Phdr (fun ph' => decide (ph'.Covers (ph.pVaddr + i))) later back.reverse hlater
  have hmem : later ∈ back := mem_reverse.mp (mem_of_find?_eq_some hlater)
  rw [hsplit, pairwise_append, pairwise_cons] at hapart
  exact absurd ⟨⟨Nat.le_add_right _ _, Nat.add_lt_add_left hi _⟩, of_decide_eq_true hcovers⟩
    (hapart.2.1.1 later hmem (ph.pVaddr + i))

/-- A file with segments that do not overlap, loaded into new tables while no
    table is refused, is loaded faithfully if and only if its segments are
    compatible. -/
theorem load_faithful_iff (src : Pages σ) (m0 m m' : Machine σ)
    (kbuf : Memory) (size r : Nat) (image : ElfImage)
    (hcreate : mmuCreateUserTables src m0 = (m, r)) (hr : r ≠ 0)
    (hload : elfLoad src m kbuf size r = (m', some image)) (hrefused : m'.refused = m.refused)
    (hdisjoint : (segments kbuf).Pairwise fun p q => ∀ v, ¬ (p.Contains v ∧ q.Contains v)) :
    Faithful kbuf m'.mem r ↔ Compatible kbuf := by
  rcases newTables_leaves hcreate hr with ⟨role, hspace, hleaves⟩
  have htakes : ∃ regions, Takes src kbuf size r m (phdrs kbuf) m' regions := by
    rcases @elfLoad_takes σ src m kbuf size r with ⟨hnone, _⟩ | ⟨_, _, _, _, htakes⟩
    · rw [hload] at hnone
      cases hnone
    · rw [hload] at htakes
      exact ⟨_, htakes⟩
  rcases htakes with ⟨regions, htakes⟩
  rcases takes_shown hspace hleaves htakes with ⟨role', placed, _, h, hshown, hall, hmap⟩
  have hbyte := fun front ph back hsplit i hi => @shows_byte_iff σ src (fun _ => True) r size m m'
    role role' placed kbuf h hshown hall hmap hrefused hdisjoint front back ph hsplit i hi
  constructor
  · intro hfaithful front ph back hsplit i hi
    refine (hbyte front ph back hsplit i hi).mp (hfaithful ph ?_ i hi)
    rw [hsplit]
    exact mem_append_right _ mem_cons_self
  · intro hcompatible ph hph i hi
    rcases append_of_mem hph with ⟨front, back, hsplit⟩
    exact (hbyte front ph back hsplit i hi).mpr (hcompatible front ph back hsplit i hi)

/-- Two MiB of cleared memory to load files into. -/
def emptyMachine : Machine Pmm.Allocator :=
  { mem := fun _ => 0#8, pmm := Heap.bootPmm, sigtrampPhys := 0, refused := 0 }

/-- The machine with new tables. -/
def emptyTables : Machine Pmm.Allocator × Nat :=
  mmuCreateUserTables Pmm.pmmSource emptyMachine

/-- A file with four bytes of text at 0x400000, its entry point, and four bytes of
    data at 0x400000 + 256 * `place`: the bytes that are not zero. -/
def twoSegments (place : Byte) : Memory := fun i =>
  (([(0, 0x7F), (1, 0x45), (2, 0x4C), (3, 0x46), (4, 2), (5, 1), (6, 1), (16, 2), (18, 0xB7),
    (26, 0x40), (32, 64), (54, 56), (56, 2),
    -- The program headers.
    (64, 1), (68, 5), (72, 176), (82, 0x40), (96, 4), (104, 4),
    (120, 1), (124, 6), (128, 180), (137, place), (138, 0x40), (152, 4), (160, 4),
    (176, 1), (177, 2), (178, 3), (179, 4), (180, 5), (181, 6), (182, 7), (183, 8)] :
    List (Nat × Byte)).lookup i).getD 0

/-- That file, loaded. -/
def twoLoaded (place : Byte) : Machine Pmm.Allocator × Option ElfImage :=
  elfLoad Pmm.pmmSource emptyTables.1 (twoSegments place) 184 emptyTables.2

def twoImage : ElfImage := ⟨0x400000, [⟨0x40007000, 1⟩, ⟨0x40009000, 1⟩]⟩

theorem twoSegments_apart (place : Byte) (hplace : 0 < place.toNat)
    (hseg : segments (twoSegments place) = [⟨1, 5, 176, 0x400000, 4, 4⟩,
      ⟨1, 6, 180, 0x400000 + 256 * place.toNat, 4, 4⟩]) :
    (segments (twoSegments place)).Pairwise fun p q => ∀ v, ¬ (p.Contains v ∧ q.Contains v) := by
  rw [hseg, pairwise_pair]
  intro v hc
  unfold Phdr.Contains at hc
  simp only at hc
  omega

/-- With the data in the next page, the file is loaded faithfully. -/
theorem load_faithful_apart :
    emptyTables.2 ≠ 0 ∧ (twoLoaded 0x10).2 = some twoImage ∧
      Faithful (twoSegments 0x10) (twoLoaded 0x10).1.mem emptyTables.2 := by
  have hroot : emptyTables.2 ≠ 0 := by decide
  have himage : (twoLoaded 0x10).2 = some twoImage := by rfl
  have hseg : segments (twoSegments 0x10) = [⟨1, 5, 176, 0x400000, 4, 4⟩,
      ⟨1, 6, 180, 0x400000 + 256 * (0x10 : Byte).toNat, 4, 4⟩] := by rfl
  refine ⟨hroot, himage, (load_faithful_iff Pmm.pmmSource emptyMachine emptyTables.1
    (twoLoaded 0x10).1 (twoSegments 0x10) 184 emptyTables.2 twoImage rfl hroot (Prod.ext rfl himage)
    (by decide) (twoSegments_apart 0x10 (by decide) hseg)).mpr (compatible_of_apart ?_)⟩
  rw [hseg, pairwise_pair]
  rintro v ⟨hin, hcovers⟩
  unfold Phdr.Contains at hin
  have hpage : vaLo ⟨1, 6, 180, 0x400000 + 256 * (0x10 : Byte).toNat, 4, 4⟩ = 0x401000 := by decide
  have hlo := hcovers.1
  unfold pageSize at hlo
  simp only at hin
  omega

/-- With the data in the same page, the text is not to be seen: the data segment
    has been mapped over it. -/
theorem load_hides_text :
    emptyTables.2 ≠ 0 ∧ (twoLoaded 8).2 = some twoImage ∧
      (twoLoaded 8).1.refused = emptyTables.1.refused ∧
      ((segments (twoSegments 8)).Pairwise fun p q => ∀ v, ¬ (p.Contains v ∧ q.Contains v)) ∧
      (∀ ph ∈ segments (twoSegments 8), ∀ v, ph.Contains v →
        v / pageSize ≠ userSigtrampVa / pageSize) ∧
      ¬ Faithful (twoSegments 8) (twoLoaded 8).1.mem emptyTables.2 := by
  have hseg : segments (twoSegments 8) = [⟨1, 5, 176, 0x400000, 4, 4⟩,
      ⟨1, 6, 180, 0x400000 + 256 * (8 : Byte).toNat, 4, 4⟩] := by rfl
  refine ⟨by decide, by rfl, by decide,
    twoSegments_apart 8 (by decide) hseg, ?_, fun hfaithful => ?_⟩
  · rw [hseg]
    intro ph hph v hin
    unfold Phdr.Contains at hin
    unfold pageSize userSigtrampVa
    simp only [mem_cons, not_mem_nil, or_false] at hph
    rcases hph with rfl | rfl
    · simp only at hin
      omega
    · have hplace : (8 : Byte).toNat = 8 := rfl
      simp only [hplace] at hin
      omega
  · -- The text segment asks for execution, and its page cannot be executed.
    rcases hfaithful ⟨1, 5, 176, 0x400000, 4, 4⟩ (by rw [hseg]; exact mem_cons_self) 0
      (by decide) with ⟨e, htranslate, _, _, hexec, _⟩
    have hmapped : (translate (twoLoaded 8).1.mem emptyTables.2 0x400000).map el0Exec =
      some false := by
      rfl
    rw [htranslate, map_some, hexec] at hmapped
    exact absurd hmapped (by decide)

end

end CortexForge.Elf
