import CortexForge.Theory.Fat32Create

/-!
# Clusters Lost to a Failed Creation

A creation takes its clusters before it looks for a slot in the directory, and gives
none of them back. When it fails for want of clusters or of a slot, what it took by
then stays marked in the table.

With a device that fails no request these are the only ways to fail once the directory
is found. The table is as before exactly if nothing was taken: no cluster was needed,
or there was not one to take.

## Theorems

* `grown_unchanged`: The table is as before if no cluster was taken.
* `create_failed`: What a failed creation has taken.
* `create_unchanged_iff`: When a failed creation leaves the table as it was.
-/

namespace CortexForge.Fat32

variable {v : Volume} {dev : Device} {data : Memory} {fuel len : Nat} {path : CString}
  {s s' : Fat32} {isDir : Nat → Prop}

/-- A cluster that was taken was free before and is not now. -/
theorem grown_unchanged {d0 d : Disk} {got : List Nat} (h : Grown v d0 got d) :
    (∀ c < fatEntries v, fatEntry v d c = fatEntry v d0 c) ↔ got = [] := by
  constructor
  · intro hsame
    -- A cluster that was taken has an entry now, and had none.
    refine List.eq_nil_iff_forall_not_mem.mpr fun c hc => closed_used h.closed hc ?_
    rw [nextCluster, hsame c (h.closed c hc).1.2]
    exact h.free c hc
  · rintro rfl c hc
    exact h.entries c hc List.not_mem_nil

/-- A creation that fails in a directory that exists has taken all clusters it needs, or
    all there were. -/
theorem create_failed (hdone : Done dev) (h : WellFormed v s.disk isDir)
    (hcreate : fat32Create dev v fuel s path data len = some (s', false))
    (hparent : ∃ s1 k, walkFrom dev v fuel (splitPath path).1.length s v.rootCluster
      (splitPath path).1 = some (s1, some k)) :
    ∃ got, Grown v s.disk got s'.disk ∧ got.length ≤ clustersNeeded v len ∧
      (got.length = clustersNeeded v len ∨
        ∀ x, Indexable v x → nextCluster v s'.disk x ≠ 0) := by
  have hg := h.geometry
  rcases hparent with ⟨s1, k, hwalk⟩
  rcases walkFrom_dir h _ s _ _ rfl h.root hwalk with ⟨hd1, hdir⟩
  rw [fat32Create, hwalk, Option.bind_some] at hcreate
  rcases Option.bind_eq_some_iff.mp hcreate with ⟨⟨s2, r2⟩, hstore, hadd⟩
  rcases storeData_cases hg hstore with
    ⟨got, hgrown, ⟨first, rfl, hlen⟩ | ⟨rfl, hlen, hfull⟩⟩
  -- The data is stored, so it is the directory that has no free slot.
  · rw [hd1] at hgrown
    rcases h.chain k (hdir k rfl) with ⟨cs, hcs⟩
    rcases dirAddEntry_cases hg cs fuel k s2 rfl (chain_grown hgrown hcs) hadd with
      ⟨hsame, _⟩ | ⟨p, _, _, hok | hfail⟩
    · exact ⟨got, hsame ▸ hgrown, Nat.le_of_eq hlen, .inl hlen⟩
    · cases hok
    · exact absurd hdone hfail
  · cases hadd
    exact ⟨got, hd1 ▸ hgrown, hlen, .inr (hfull hdone)⟩

/-- A creation that fails for want of clusters or of a slot leaves the table as it was
    exactly if it needs no cluster or there is none. -/
theorem create_unchanged_iff (hdone : Done dev) (h : WellFormed v s.disk isDir)
    (hcreate : fat32Create dev v fuel s path data len = some (s', false))
    (hparent : ∃ s1 k, walkFrom dev v fuel (splitPath path).1.length s v.rootCluster
      (splitPath path).1 = some (s1, some k)) :
    (∀ c < fatEntries v, fatEntry v s'.disk c = fatEntry v s.disk c) ↔
      clustersNeeded v len = 0 ∨ ∀ c, Indexable v c → nextCluster v s.disk c ≠ 0 := by
  rcases create_failed hdone h hcreate hparent with ⟨got, hgrown, hle, hall⟩
  rw [grown_unchanged hgrown]
  constructor
  · intro hnone
    -- No cluster was taken, so the table before is the table after.
    have hsame := (grown_unchanged hgrown).mpr hnone
    rw [hnone] at hall
    refine hall.imp Eq.symm fun hfull c hc => ?_
    rw [nextCluster, ← hsame c hc.2]
    exact hfull c hc
  · rintro (hzero | hfull)
    · exact List.eq_nil_of_length_eq_zero (Nat.le_zero.mp (hzero ▸ hle))
    · refine List.eq_nil_iff_forall_not_mem.mpr fun c hc => ?_
      exact hfull c (hgrown.closed c hc).1 (hgrown.free c hc)

/-- The small volume with a root directory that is full of empty files. -/
def fullRoot : Fat32 :=
  ⟨smallDisk fun i => dirEntry (target [0x41#8]) 0 0 (i % dirEntrySize), fun _ => 0#8, 0⟩

theorem fullRoot_wellFormed : WellFormed smallVolume fullRoot.disk (· = 2) := by
  refine small_wellFormed _ ?_ ?_
  · decide
  · decide

/-- An empty file that does not go into the directory costs nothing. -/
theorem create_unchanged_empty :
    ∃ s', fat32Create (fun _ => .done) smallVolume 200 fullRoot secondPath (fun _ => 7#8) 0 =
        some (s', false) ∧
      ∀ c < fatEntries smallVolume, fatEntry smallVolume s'.disk c =
        fatEntry smallVolume fullRoot.disk c := by
  have hrun : (fat32Create (fun _ => .done) smallVolume 200 fullRoot secondPath
      (fun _ => 7#8) 0).map Prod.snd = some false := by
    decide
  rcases Option.map_eq_some_iff.mp hrun with ⟨⟨s', ok⟩, hcreate, rfl⟩
  have hiff := create_unchanged_iff (fun _ => rfl) fullRoot_wellFormed hcreate ⟨fullRoot, 2, rfl⟩
  exact ⟨s', hcreate, hiff.mpr (.inl rfl)⟩

/-- A file of one byte that does not go into the directory leaves its cluster taken. -/
theorem create_leaks :
    WellFormed smallVolume fullRoot.disk (· = 2) ∧
      freeIn fullRoot.disk (dirSlots smallVolume [2]) = none ∧
      fatEntry smallVolume fullRoot.disk 4 = 0 ∧
      (fat32Create (fun _ => .done) smallVolume 200 fullRoot secondPath (fun _ => 7#8) 1).map
          (fun r => (r.2, fatEntry smallVolume r.1.disk 4)) = some (false, 0x0FFFFFFF) :=
  ⟨fullRoot_wellFormed, by decide, by decide, by decide⟩

end CortexForge.Fat32
