import CortexForge.Theory.Accounts
import CortexForge.Theory.ElfImage

/-!
# Memory Safety of the ELF Loader

What the loader reads and writes, for any contents of the file. Every field of a
header is chosen by whoever wrote the file, and sums of them are taken in 64 bits;
the checks have to hold for the sums themselves and not only for what is left of
them.

Both are seen from outside. A loader that read past the end of the file could be
told from one that does not by what it loads, or by whether it loads at all; so a
buffer with other bytes from there on must give the same machine and the same
image. What is written is seen in memory: a byte that has changed is in a run of
pages that the allocator has just handed out for a segment, or in a table of the
address space.

The loader is given a buffer of the kernel. That the table of program headers does
not wrap around is a consequence of its lying in the address space; the file's
size alone would not be enough near `2 ^ 64`.

## Main definitions

* `KernelBuffer`: The file in the kernel's address space.
* `LoaderSafe`: The guarantees.

## Theorems

* `table_fits`: The table of program headers ends inside the buffer.
* `elfLoad_congr`: A load depends on nothing behind the end of the file.
* `takes_written`: What a run of the loop writes.
* `loader_safe`: The guarantees hold for every buffer.
-/

namespace CortexForge.Elf

open Mmu List

/-- A buffer in the kernel's part of the address space. -/
structure KernelBuffer where
  bytes : Memory
  base : Nat
  size : Nat
  kernel : kernelVaOffset ≤ base
  fits : base + size ≤ 2 ^ 64

section

variable {kbuf : Memory} {size : Nat}

theorem headerOk_size (hok : headerOk kbuf size = true) : ehdrSize ≤ size := by
  simp only [headerOk, Bool.and_eq_true, decide_eq_true_eq] at hok
  exact hok.1.1.1.1.1

/-- The table of program headers ends inside the buffer. -/
theorem table_fits (buf : KernelBuffer) (hok : headerOk buf.bytes buf.size = true) :
    ePhoff buf.bytes + ePhnum buf.bytes * phdrSize ≤ buf.size := by
  have hbase := buf.kernel
  have hfits := buf.fits
  simp only [headerOk, Bool.and_eq_true, decide_eq_true_eq] at hok
  unfold wrap64 phdrSize maxPhnum kernelVaOffset at *
  omega

variable {kbuf' : Memory} (hsame : ∀ i, i < size → kbuf' i = kbuf i)
include hsame

theorem field_congr {off len : Nat} (hin : off + len ≤ size) :
    loadN kbuf' off len = loadN kbuf off len :=
  loadN_congr kbuf kbuf' len off fun x _ hx => hsame x (by omega)

/-- The header is read only when it is there. -/
theorem headerOk_congr : headerOk kbuf' size = headerOk kbuf size := by
  unfold headerOk
  by_cases hsize : ehdrSize ≤ size
  · have hfield : ∀ off len, off + len ≤ ehdrSize → loadN kbuf' off len = loadN kbuf off len :=
      fun off len hin => field_congr hsame (Nat.le_trans hin hsize)
    unfold ePhnum ePhoff
    rw [hfield 0 1 (by decide), hfield 1 1 (by decide), hfield 2 1 (by decide),
      hfield 3 1 (by decide), hfield 4 1 (by decide), hfield 5 1 (by decide),
      hfield 6 1 (by decide), hfield 16 2 (by decide), hfield 18 2 (by decide),
      hfield 54 2 (by decide), hfield 56 2 (by decide), hfield 32 8 (by decide)]
  · simp only [decide_eq_false hsize, Bool.false_and]

theorem readPhdr_congr {phoff i : Nat} (hin : phoff + i * phdrSize + phdrSize ≤ size) :
    readPhdr kbuf' phoff i = readPhdr kbuf phoff i := by
  have hfield : ∀ off len, off + len ≤ phdrSize →
      loadN kbuf' (phoff + i * phdrSize + off) len = loadN kbuf (phoff + i * phdrSize + off) len :=
    fun off len hle => field_congr hsame (by omega)
  have htype : loadN kbuf' (phoff + i * phdrSize) 4 = loadN kbuf (phoff + i * phdrSize) 4 :=
    hfield 0 4 (by decide)
  unfold readPhdr
  simp (disch := decide) only [htype, hfield]

/-- What is copied for a segment was checked to be in the file. -/
theorem fillSegment_congr {ph : Phdr} (hfits : SegmentFits ph size) (mem : Memory)
    (phys : Nat) : fillSegment mem kbuf' ph phys = fillSegment mem kbuf ph phys := by
  unfold fillSegment memcpy
  have hfile := hfits.file
  split_ifs
  · funext x
    split_ifs with hx
    · exact hsame _ (by omega)
    · rfl
  · rfl

variable {σ : Type} {src : Pages σ}

theorem loadSegments_congr (l0 : Nat) (phs : List Phdr) : ∀ (m : Machine σ) regions,
    (∀ ph ∈ phs, ph.pOffset < 2 ^ 64 ∧ ph.pMemsz < 2 ^ 64) →
    loadSegments src kbuf' size l0 phs m regions = loadSegments src kbuf size l0 phs m regions := by
  induction phs with
  | nil => exact fun m regions _ => rfl
  | cons ph phs ih =>
    intro m regions hlt
    rw [forall_mem_cons] at hlt
    rw [loadSegments, loadSegments, ih m regions hlt.2]
    by_cases hok : segmentOk ph size regions.length
    · simp only [fillSegment_congr hsame (segment_fits hok hlt.1.1 hlt.1.2), ih _ _ hlt.2]
    · rw [if_pos hok, if_pos hok]

end

/-- A load depends on nothing behind the end of the file. -/
theorem elfLoad_congr {σ : Type} (src : Pages σ) (m : Machine σ)
    (buf : KernelBuffer) (l0 : Nat) {kbuf : Memory}
    (hsame : ∀ i, i < buf.size → kbuf i = buf.bytes i) :
    elfLoad src m kbuf buf.size l0 = elfLoad src m buf.bytes buf.size l0 := by
  unfold elfLoad
  rw [headerOk_congr hsame]
  by_cases hok : headerOk buf.bytes buf.size = true
  · -- an accepted header puts every field and the whole program table inside the buffer
    have hsize := headerOk_size hok
    have htable := table_fits buf hok
    have hentry : eEntry kbuf = eEntry buf.bytes :=
      field_congr hsame (Nat.le_trans (by decide) hsize)
    have hphoff : ePhoff kbuf = ePhoff buf.bytes :=
      field_congr hsame (Nat.le_trans (by decide) hsize)
    have hphnum : ePhnum kbuf = ePhnum buf.bytes :=
      field_congr hsame (Nat.le_trans (by decide) hsize)
    have hphdrs : phdrs kbuf = phdrs buf.bytes := by
      unfold phdrs
      rw [hphoff, hphnum]
      refine map_congr_left fun i hi => readPhdr_congr hsame ?_
      have hmul := Nat.mul_le_mul_right phdrSize (mem_range.mp hi)
      rw [Nat.succ_mul] at hmul
      omega
    have hlt : ∀ ph ∈ phdrs buf.bytes, ph.pOffset < 2 ^ 64 ∧ ph.pMemsz < 2 ^ 64 := by
      intro ph hph
      rcases mem_map.mp hph with ⟨i, _, rfl⟩
      have hlt := readPhdr_lt buf.bytes (ePhoff buf.bytes) i
      exact ⟨hlt.1, hlt.2.2.2⟩
    simp only [hphdrs, hentry, loadSegments_congr hsame l0 _ m [] hlt]
  · rw [Bool.not_eq_true] at hok
    rw [if_pos hok, if_pos hok]

section

variable {σ : Type} {src : Pages σ} {kbuf : Memory} {size r : Nat}
  {m0 m m1 : Machine σ} {role0 : Roles} {phs : List Phdr} {regions : List ElfRegion}

theorem freeRegions_mem (regions : List ElfRegion) : ∀ m : Machine σ,
    (freeRegions src m regions).mem = m.mem := by
  induction regions with
  | nil => exact fun m => rfl
  | cons reg regions ih =>
    intro m
    unfold freeRegions
    rw [foldl_cons]
    refine (ih _).trans ?_
    split
    · rfl
    · rfl

/-- The byte at `x` is in pages that were handed out for a segment, or in a table of the
    address space at `r`. -/
def Writable (mem : Memory) (r : Nat) (regions : List ElfRegion) (x : Nat) : Prop :=
  (∃ a, RegionPage regions a ∧ InPage a x) ∨ ∃ a, TablePage mem r a ∧ InPage a x

/-- A run of the loop writes to the pages of its segments and to tables, and maps
    nothing above the user's address range. -/
theorem takes_written (hspace : SpaceOk src m0 role0 r)
    (h : Takes src kbuf size r m0 phs m regions) : ∃ role, SpaceOk src m role r ∧
      (∀ x, m.mem x ≠ m0.mem x → Writable m.mem r regions x) ∧
      ∀ v, userStackTop ≤ v → v < 2 ^ 48 → translate m.mem r v = translate m0.mem r v := by
  induction h with
  | start => exact ⟨role0, hspace, fun x hc => absurd rfl hc, fun _ _ _ => rfl⟩
  | skipped _ _ ih => exact ih
  | @placed _ m m1 m2 regions ph _ u _ _ hplace ih =>
    rcases ih with ⟨role, hspace, hwritten, habove⟩
    rcases places_spec hspace hplace with ⟨role1, role2, hev, _, _, hgrows⟩
    rcases space_frame hspace hev fun _ hc => hc with ⟨hspace1, _, hleaf⟩
    refine ⟨role2, hgrows.space, fun x hx => ?_, fun v hlo hhi => ?_⟩
    · by_cases hmapped : m2.mem x = fillSegment m1.mem kbuf ph u x
      · by_cases hrun : x < u ∨ u + segmentPages ph * pageSize ≤ x
        · -- Neither filling nor mapping has changed this byte.
          rw [hmapped, fillSegment_other hplace.ok hplace.memsz _ kbuf u x hrun,
            allocatePages_mem hplace.alloc] at hx
          rcases hwritten x hx with ⟨a, ⟨reg, hreg, ha⟩, hin⟩ | ⟨a, ha, hin⟩
          · exact .inl ⟨a, ⟨reg, mem_append_left _ hreg, ha⟩, hin⟩
          · exact .inr ⟨a, grows_tables hgrows a
              ((tables_frame hspace hev (fun _ hc => hc) a).mpr ha), hin⟩
        · rcases inPage_of_run u (segmentPages ph) x (by omega) (by omega) with ⟨a, ha, hin⟩
          exact .inl ⟨a, ⟨_, mem_append_right _ (mem_singleton_self _), ha⟩, hin⟩
      · exact .inr (hgrows.written x hmapped)
    · have htop := (segment_pages hplace.ok hplace.memsz).2
      have hout : ¬ (vaLo ph / pageSize ≤ v / pageSize ∧
          v / pageSize < vaLo ph / pageSize + segmentPages ph) := by
        unfold pageSize at *
        omega
      have hend : vaLo ph + segmentPages ph * pageSize ≤ 2 ^ 48 := by omega
      rw [← hplace.map, mapRange_outside hspace1 hend v hhi hout, ← habove v hlo hhi]
      exact hleaf (pathOf v) (l3Index v) (Nat.le_refl 3)

/-- Whether it fails or not, a load leaves the memory of a run of its loop. -/
theorem elfLoad_run (m : Machine σ) (kbuf : Memory) (size r : Nat) :
    ∃ phs m1 regions, phs <+: phdrs kbuf ∧ Takes src kbuf size r m phs m1 regions ∧
      (elfLoad src m kbuf size r).1.mem = m1.mem ∧
      ∀ image, (elfLoad src m kbuf size r).2 = some image → image.regions = regions := by
  rcases @elfLoad_takes σ src m kbuf size r with
    ⟨hnone, phs, m1, m2, regions, hphs, htakes, hstop, hfreed⟩ | ⟨image, himage, _, _, htakes⟩
  · refine ⟨phs, m1, regions, hphs, htakes, ?_, fun image hc => ?_⟩
    · rw [hfreed, freeRegions_mem]
      rcases hstop with rfl | ⟨n, halloc⟩
      · rfl
      · exact allocatePages_mem halloc
    · exact absurd (hnone.symm.trans hc) nofun
  · refine ⟨_, _, image.regions, prefix_rfl, htakes, rfl, fun image' himage' => ?_⟩
    rw [Option.some.inj (himage.symm.trans himage')]

end

/-- What the loader reads and writes and what it leaves, for a file in a kernel
    buffer. -/
structure LoaderSafe {σ : Type} (src : Pages σ) (m : Machine σ)
    (buf : KernelBuffer) (l0 : Nat) : Prop where
  /-- No byte behind the end of the file has an influence. -/
  reads : ∀ kbuf, (∀ i, i < buf.size → kbuf i = buf.bytes i) →
    elfLoad src m kbuf buf.size l0 = elfLoad src m buf.bytes buf.size l0
  /-- The bytes of a segment that passes its checks go to the pages it is given. -/
  fills : ∀ i count mem phys x,
    segmentOk (readPhdr buf.bytes (ePhoff buf.bytes) i) buf.size count →
    x < phys ∨
      phys + segmentPages (readPhdr buf.bytes (ePhoff buf.bytes) i) * pageSize ≤ x →
    fillSegment mem buf.bytes (readPhdr buf.bytes (ePhoff buf.bytes) i) phys x = mem x
  /-- Memory outside the pages that the allocator handed out for segments, and outside
      the tables, is left alone. There is room for every region that is stored. -/
  writes : ∀ role, SpaceOk src m role l0 → ∃ phs m1 regions, phs <+: phdrs buf.bytes ∧
    Takes src buf.bytes buf.size l0 m phs m1 regions ∧ regions.length ≤ elfMaxRegions ∧
    (∀ image, (elfLoad src m buf.bytes buf.size l0).2 = some image → image.regions = regions) ∧
    ∀ x, (elfLoad src m buf.bytes buf.size l0).1.mem x ≠ m.mem x →
      Writable (elfLoad src m buf.bytes buf.size l0).1.mem l0 regions x
  /-- The tables map nothing new above the user's address range. -/
  above : ∀ role, SpaceOk src m role l0 → ∀ v, userStackTop ≤ v → v < 2 ^ 48 →
    translate (elfLoad src m buf.bytes buf.size l0).1.mem l0 v = translate m.mem l0 v
  /-- The checks hold for the sums they are about. -/
  table : headerOk buf.bytes buf.size = true →
    ePhoff buf.bytes + ePhnum buf.bytes * phdrSize ≤ buf.size
  segment : ∀ i count, segmentOk (readPhdr buf.bytes (ePhoff buf.bytes) i) buf.size count →
    SegmentFits (readPhdr buf.bytes (ePhoff buf.bytes) i) buf.size

/-- The loader is safe for every buffer, whatever its bytes are. -/
theorem loader_safe {σ : Type} (src : Pages σ) (m : Machine σ)
    (buf : KernelBuffer) (l0 : Nat) : LoaderSafe src m buf l0 := by
  have hlt := readPhdr_lt buf.bytes (ePhoff buf.bytes)
  rcases @elfLoad_run σ src m buf.bytes buf.size l0 with
    ⟨phs, m1, regions, hphs, htakes, hmem, hstored⟩
  refine ⟨fun kbuf hsame => elfLoad_congr src m buf l0 hsame, fun i count mem phys x hok hx => ?_,
    fun role hspace => ?_, fun role hspace => ?_, table_fits buf, fun i count hok => ?_⟩
  · exact fillSegment_other hok (hlt i).2.2.2 mem buf.bytes phys x hx
  · rcases takes_written hspace htakes with ⟨_, _, hwritten, _⟩
    refine ⟨phs, m1, regions, hphs, htakes, (takes_regions htakes).1, hstored, ?_⟩
    rwa [hmem]
  · rcases takes_written hspace htakes with ⟨_, _, _, habove⟩
    rwa [hmem]
  · exact segment_fits hok (hlt i).1 (hlt i).2.2.2

/-- A file with two segments, loaded into new tables. -/
theorem loader_safe_two : ∃ buf : KernelBuffer, buf.bytes = twoSegments 0x10 ∧
    (elfLoad Pmm.pmmSource emptyTables.1 buf.bytes buf.size emptyTables.2).2 = some twoImage ∧
    (∃ role, SpaceOk Pmm.pmmSource emptyTables.1 role emptyTables.2) ∧
    LoaderSafe Pmm.pmmSource emptyTables.1 buf emptyTables.2 := by
  rcases newTables_leaves (rfl : mmuCreateUserTables Pmm.pmmSource emptyMachine = emptyTables)
    (by decide) with ⟨role, hspace, _⟩
  have himage : (twoLoaded 0x10).2 = some twoImage := by rfl
  refine ⟨⟨twoSegments 0x10, kernelVaOffset, 184, Nat.le_refl _, by decide⟩, rfl, himage,
    ⟨role, hspace⟩, ?_⟩
  exact loader_safe Pmm.pmmSource emptyTables.1 _ emptyTables.2

end CortexForge.Elf
