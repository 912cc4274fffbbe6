import CortexForge.Core.Fat32
import CortexForge.Theory.UserPointers

/-!
# One Node for an Entry

A directory of the FAT32 volume keeps the nodes of the entries that were looked up in
it. A name is compared with them byte for byte, while the volume is asked for its 8.3
name. So an entry has one node as long as it is spelled in one way (`entries_nodup`);
another spelling gives it another node (`spelled_twice`).

## Main definitions

* `entries`: The entries that have nodes, once for each node.
* `components`: A path as `vfs_resolve` takes it apart.
* `Cached`: The nodes are found again under their spellings.

## Theorems

* `findChild_cached`, `resolveFrom_cached`: One component, and a path.
* `entries_nodup`: Any sequence of paths.
-/

namespace CortexForge.Vfs

open Traced Syscall Function List

/-- The entry of the volume that a node stands for: the directory, and the 8.3 name in
    it. Nodes outside the volume stand for none. -/
def entryOf (p : Pool) (n : Nat) : Option (Nat × List Byte) :=
  match (p.nodes n).parent with
  | none => none
  | some d => if (p.nodes d).fat32Dir then some (d, Fat32.to83 (p.nodes n).name) else none

def entries (p : Pool) : List (Nat × List Byte) := (range p.count).filterMap (entryOf p)

/-- The components of the path at an address. -/
def components (mem : Memory) : Nat → Nat → List (List Byte)
  | 0, _ => []
  | fuel + 1, path =>
      match (scan mem (· == slash) fuel path).value with
      | none => []
      | some path =>
          if mem path = 0 then []
          else
            match (scan mem (fun b => b != 0 && b != slash) fuel path).value with
            | none => []
            | some stop =>
                (copyName mem path (sub64 stop path) 0).value :: components mem fuel stop

/-- The nodes of the volume are among the children of their directories, under the
    spellings in `S`. -/
structure Cached (S : Set (List Byte)) (p : Pool) : Prop where
  pos : 0 < p.count
  parent_lt : ∀ n < p.count, ∀ d, (p.nodes n).parent = some d → d < p.count
  child_lt : ∀ d < p.count, ∀ c ∈ (p.nodes d).children, c < p.count
  known : ∀ n < p.count, ∀ d, (p.nodes n).parent = some d → (p.nodes d).fat32Dir = true →
    n ∈ (p.nodes d).children ∧ (p.nodes n).name ∈ S
  once : (entries p).Nodup

/-- The pool `p'` has one more node, called `name`, in the directory `dir`. -/
structure Added (p p' : Pool) (dir : Nat) (name : List Byte) : Prop where
  count : p'.count = p.count + 1
  parent : (p'.nodes p.count).parent = some dir
  name : (p'.nodes p.count).name = name
  children : (p'.nodes p.count).children = []
  listed : p'.nodes dir = { p.nodes dir with children := p.count :: (p.nodes dir).children }
  other : ∀ n, n ≠ p.count → n ≠ dir → p'.nodes n = p.nodes n

section

variable {R : Type} {hw : Hardware R} {mem : Memory} {S : Set (List Byte)} {p p' : Pool}
  {k k' : Files R} {dir s len cur path fuel : Nat} {name : List Byte} {r : Option Nat}

theorem value_load (a : Nat) : (loadByte mem a).value = mem a := by simp [loadByte]

theorem copyName_length (s n i : Nat) : (copyName mem s n i).value.length = n := by
  induction n generalizing i with
  | zero => rfl
  | succ n ih => simp [copyName, ih]

/-- A node is found again under the name it was made with. -/
theorem nameMatch_copy (n i : Nat) (h : name.drop i = (copyName mem s n i).value) :
    (nameMatch mem name s n i).value = true := by
  induction n generalizing i with
  | zero => simp_all [copyName, nameMatch]
  | succ n ih =>
    have hhead : name.getD i 0 = mem (wrap64 (s + i)) := by
      rw [getD_eq_getElem?_getD, ← head?_drop, h]
      rfl
    have htail := congrArg tail h
    rw [tail_drop] at htail
    simpa [nameMatch, value_load, ← hhead] using ih (i + 1) htail

theorem findNamed_spec (cs : List Nat) :
    (∀ c, (findNamed mem p s len cs).value = some c → c ∈ cs) ∧
      ((findNamed mem p s len cs).value = none →
        ∀ c ∈ cs, (p.nodes c).name ≠ (copyName mem s len 0).value) := by
  induction cs with
  | nil => simp [findNamed]
  | cons c cs ih =>
    have hmatch := @nameMatch_copy mem s (p.nodes c).name len 0
    simp only [findNamed, value_bind, value_ite, value_pure]
    split_ifs with hfound
    · exact ⟨fun _ hc => Option.some.inj hc ▸ mem_cons_self, fun hc => absurd hc (by simp)⟩
    · exact ⟨fun c' hc => mem_cons_of_mem c (ih.1 c' hc),
        fun hnone => forall_mem_cons.mpr ⟨fun hc => hfound (hmatch hc), ih.2 hnone⟩⟩

theorem vfsCreateNode_added {type : VnodeType} {n : Nat} (hdir : dir < p.count)
    (hname : name.length ≤ 63) (hcall : vfsCreateNode p dir name type = some (p', n)) :
    n = p.count ∧ Added p p' dir name := by
  have hne := Nat.ne_of_lt hdir
  unfold vfsCreateNode allocVnode at hcall
  split_ifs at hcall
  · cases hcall
  · cases hcall
    refine ⟨rfl, rfl, ?_, ?_, ?_, ?_, fun n hn hd => ?_⟩ <;>
      simp_all [hne.symm]

/-- What the volume says of a node changes nothing of its place. -/
theorem added_fat32Node (h : Added p p' dir name) (hdir : dir < p.count) (e : DirEntry) :
    Added p { p' with nodes := update p'.nodes p.count (fat32Node e (p'.nodes p.count)) } dir
      name := by
  refine ⟨h.count, ?_, ?_, ?_, ?_, fun n hn hd => ?_⟩
  · simpa only [update_self, fat32Node] using h.parent
  · simpa only [update_self, fat32Node] using h.name
  · simpa only [update_self, fat32Node] using h.children
  · simpa only [update_of_ne (Nat.ne_of_lt hdir)] using h.listed
  · simpa only [update_of_ne hn] using h.other n hn hd

/-- A lookup adds at most one node, of the name that was looked up. -/
theorem fat32Lookup_added (hdir : dir < k.pool.count)
    (hres : (fat32Lookup hw mem k dir s len).value = (k', r)) :
    k'.pool = k.pool ∧ r = none ∨ len ≤ 12 ∧ r = some k.pool.count ∧
      Added k.pool k'.pool dir (copyName mem s len 0).value := by
  -- Until the node is made, only what is not the pool changes.
  have hsame : ∀ rest : R, ({ k with rest := rest }, none) = (k', r) →
      k'.pool = k.pool ∧ r = none := by
    rintro rest ⟨rfl, rfl⟩
    exact ⟨rfl, rfl⟩
  unfold fat32Lookup at hres
  rcases hpd : (k.pool.nodes dir).privateData with _ | pd
  · rw [hpd] at hres
    exact .inl (hsame k.rest hres)
  simp only [hpd, value_ite, value_bind] at hres
  have hlen := @copyName_length mem s len 0
  generalize (copyName mem s len 0).value = tmp at hres hlen
  split_ifs at hres with hlong
  · exact .inl (hsame k.rest hres)
  rcases hfound : hw.fat32LookupInDir k.rest pd.firstCluster tmp with ⟨rest, _ | e⟩
  · rw [hfound] at hres
    exact .inl (hsame rest hres)
  rcases hrecord : hw.kmalloc rest fat32PrivSize with ⟨rest', _ | cpd⟩
  · simp only [hfound, hrecord] at hres
    exact .inl (hsame rest' hres)
  simp only [hfound, hrecord] at hres
  rcases hnode : vfsCreateNode k.pool dir tmp (if e.isDir then .dir else .reg) with _ | ⟨p, child⟩
  · rw [hnode] at hres
    exact .inl (hsame _ hres)
  · rw [hnode] at hres
    cases hres
    rcases vfsCreateNode_added hdir (by omega) hnode with ⟨rfl, hadded⟩
    exact .inr ⟨by omega, rfl, added_fat32Node hadded hdir e⟩

theorem entries_added (h : Added p p' dir name)
    (hparent : ∀ n < p.count, ∀ d, (p.nodes n).parent = some d → d < p.count) :
    entries p' = entries p ++ (entryOf p' p.count).toList := by
  have hold : ∀ n < p.count, entryOf p' n = entryOf p n := by
    have hlisted := h.listed
    have hother := h.other
    grind [entryOf]
  rw [entries, h.count, range_succ, filterMap_append]
  congr 1
  exact filterMap_congr fun n hn => hold n (mem_range.mp hn)

variable (hS : Set.InjOn Fat32.to83 S)
include hS

/-- A name that no child has, as the volume tells the spellings in `S` apart. -/
theorem cached_added (h : Cached S p) (hadd : Added p p' dir name)
    (hdir : dir < p.count) (hname : name ∈ S)
    (hnew : ∀ c ∈ (p.nodes dir).children, (p.nodes c).name ≠ name) : Cached S p' := by
  rcases hadd with ⟨hcount, hparent, hname', hchildren, hlisted, hother⟩
  refine ⟨by omega, ?_, ?_, ?_, ?_⟩
  · have := h.parent_lt
    grind
  · have := h.child_lt
    grind
  · have := h.known
    have := h.parent_lt
    grind
  · rw [entries_added ⟨hcount, hparent, hname', hchildren, hlisted, hother⟩ h.parent_lt]
    refine nodup_append.mpr ⟨h.once, ?_, ?_⟩
    · rcases entryOf p' p.count <;> simp
    · intro e he e' he' heq
      rcases mem_filterMap.mp he with ⟨n, hn, hentry⟩
      have hknown := h.known n (mem_range.mp hn)
      have hinj := @hS (p.nodes n).name
      grind [entryOf]

/-- A component of a path leads to a child that is there, or that is new. -/
theorem findChild_cached (h : Cached S k.pool) (hdir : dir < k.pool.count)
    (hname : len ≤ 12 → (copyName mem s len 0).value ∈ S)
    (hres : (findChild hw mem k dir s len).value = (k', r)) :
    Cached S k'.pool ∧ ∀ c, r = some c → c < k'.pool.count := by
  rcases findNamed_spec (k.pool.nodes dir).children with ⟨hin, hnew⟩
  simp only [findChild, value_bind] at hres
  rcases hnamed : (findNamed mem k.pool s len (k.pool.nodes dir).children).value with _ | c
  · simp only [hnamed, value_ite, value_pure] at hres
    split_ifs at hres with hfat
    · rcases fat32Lookup_added hdir hres with ⟨hpool, hnone⟩ | ⟨hlen, hsome, hadd⟩
      · grind
      · exact ⟨cached_added hS h hadd hdir (hname hlen) (hnew hnamed), by grind [hadd.count]⟩
    · grind
  · have hlt := h.child_lt dir hdir c (hin c hnamed)
    simp only [hnamed, value_pure] at hres
    grind

theorem enter_cached (h : Cached S k.pool) (hcur : cur < k.pool.count)
    (hname : len ≤ 12 → (copyName mem path len 0).value ∈ S)
    (hres : (enter hw mem k cur path len).value = (k', r)) :
    Cached S k'.pool ∧ ∀ c, r = some c → c < k'.pool.count := by
  have hup := h.parent_lt cur hcur
  simp only [enter, value_ite, value_bind, value_pure] at hres
  split_ifs at hres with hdir
  · grind
  · cases hcomponent : (component mem path len).value <;> simp only [hcomponent, value_pure] at hres
    · grind
    · rcases hparent : (k.pool.nodes cur).parent <;> grind
    · exact findChild_cached hS h hcur hname hres

theorem resolveFrom_cached (fuel : Nat) : ∀ (k : Files R) cur path,
    Cached S k.pool → cur < k.pool.count →
    (∀ c ∈ components mem fuel path, c.length ≤ 12 → c ∈ S) →
    (resolveFrom hw mem fuel k cur path).value = some (k', r) → Cached S k'.pool := by
  induction fuel with
  | zero => simp [resolveFrom]
  | succ fuel ih =>
    intro k cur path h hcur hnames hres
    simp only [resolveFrom, value_bind, value_ite, value_pure] at hres
    split_ifs at hres with hend
    · grind
    simp only [components] at hnames
    rcases hskip : (scan mem (· == slash) fuel path).value with _ | start
    · simp [hskip] at hres
    simp only [hskip, value_load, value_bind, value_ite, value_pure] at hres hnames
    split_ifs at hres hnames with hlast
    · grind
    rcases hstop : (scan mem (fun b => b != 0 && b != slash) fuel start).value with _ | stop
    · simp only [hstop, value_pure, reduceCtorEq] at hres
    simp only [hstop, value_bind] at hres hnames
    -- one component is entered, which may add its node; the rest of the path follows
    have hlen := @copyName_length mem start (sub64 stop start) 0
    rcases hnext : (enter hw mem k cur start (sub64 stop start)).value with ⟨k1, r1⟩
    have hone := enter_cached hS h hcur
      (fun hle => hnames _ mem_cons_self (by omega)) hnext
    rcases r1 with _ | cur1
    · grind [value_pure]
    · simp only [hnext] at hres
      exact ih k1 cur1 stop hone.1 (hone.2 cur1 rfl)
        (fun c hc => hnames c (mem_cons_of_mem _ hc)) hres

end

section

variable {R : Type} (hw : Hardware R) (S : Set (List Byte))

/-- A path is resolved whose components are spelled as in `S`, as far as the volume is
    asked for them, or other work is done that leaves the nodes alone. -/
def Resolves (k k' : Files R) : Prop :=
  k'.pool = k.pool ∨ ∃ mem fuel path r,
    (∀ c ∈ components mem fuel (wrap64 (path + 1)), c.length ≤ 12 → c ∈ S) ∧
      (vfsResolve hw mem fuel k path).value = some (k', r)

/-- No entry of the volume gets a second node, from a state on in which none has one
    yet. -/
theorem entries_nodup {k k' : Files R} (hS : Set.InjOn Fat32.to83 S) (h : Cached ∅ k.pool)
    (hrun : Relation.ReflTransGen (Resolves hw S) k k') : (entries k'.pool).Nodup := by
  suffices hall : Cached S k'.pool from hall.once
  induction hrun with
  | refl =>
    exact ⟨h.pos, h.parent_lt, h.child_lt, fun n hn d hparent hfat =>
      absurd (h.known n hn d hparent hfat).2 (Set.notMem_empty _), h.once⟩
  | tail _ hstep ih =>
    rcases hstep with hpool | ⟨mem, fuel, path, r, hnames, hres⟩
    · exact hpool ▸ ih
    · simp only [vfsResolve, value_bind, value_ite, value_pure] at hres
      split_ifs at hres
      · grind
      · grind
      · exact resolveFrom_cached hS fuel _ 0 _ ih ih.pos hnames hres

end

section

/-- A volume with one entry, `A`, in its root directory. -/
def letterHardware : Hardware Unit :=
  { quietHardware with
    kmalloc := fun _ _ => ((), some 0x41000000)
    fat32LookupInDir := fun _ _ name =>
      ((), if Fat32.to83 name = Fat32.to83 [0x41#8] then some ⟨5, 3, false⟩ else none) }

/-- The root, and the volume mounted at `/m`. -/
def letterPool : Pool :=
  { nodes := fun n =>
      if n = 0 then { name := [slash], type := .dir, children := [1] }
      else { name := [0x6D#8], type := .dir, fat32Dir := true, privateData := some ⟨2, 0⟩
             parent := some 0 }
    count := 2 }

/-- The path `/m/` with one more letter, at address 1. -/
def letterPath (letter : Byte) (a : Nat) : Byte := [0, slash, 0x6D#8, slash, letter].getD a 0

def letterFiles : Files Unit := { (openWorld .null).kernel with pool := letterPool }

theorem letterPool_cached : Cached ∅ letterFiles.pool := by
  constructor <;> decide

/-- The files after a letter was resolved. -/
def afterLetter (k : Files Unit) (letter : Byte) : Files Unit :=
  ((vfsResolve letterHardware (letterPath letter) 8 k 1).value.getD (k, none)).1

theorem resolves_letter {S : Set (List Byte)} {k : Files Unit} {letter : Byte}
    (hS : ∀ c ∈ components (letterPath letter) 8 2, c ∈ S)
    (hends : (vfsResolve letterHardware (letterPath letter) 8 k 1).value.isSome = true) :
    Resolves letterHardware S k (afterLetter k letter) := by
  rcases Option.isSome_iff_exists.mp hends with ⟨⟨k', r⟩, hres⟩
  refine .inr ⟨letterPath letter, 8, 1, r, fun c hc _ => hS c hc, ?_⟩
  simp [afterLetter, hres]

/-- One spelling, twice: the second time the node is there. -/
theorem entries_nodup_again :
    (entries (afterLetter (afterLetter letterFiles 0x41#8) 0x41#8).pool).Nodup := by
  have hnames : ∀ c ∈ components (letterPath 0x41#8) 8 2,
      c ∈ ({[0x6D#8], [0x41#8]} : Set (List Byte)) := by
    have hsplit : components (letterPath 0x41#8) 8 2 = [[0x6D#8], [0x41#8]] := by decide +kernel
    simp [hsplit]
  refine entries_nodup letterHardware {[0x6D#8], [0x41#8]} ?_ letterPool_cached
    (.tail (.single (resolves_letter hnames ?_)) (resolves_letter hnames ?_))
  · rintro a (rfl | rfl) b (rfl | rfl) h <;> first | rfl | exact absurd h (by decide)
  · decide +kernel
  · decide +kernel

/-- Two spellings of one entry, which gets two nodes. -/
theorem spelled_twice : ∃ k', Cached ∅ letterFiles.pool ∧
    Relation.ReflTransGen (Resolves letterHardware Set.univ) letterFiles k' ∧
      ¬ (entries k'.pool).Nodup := by
  refine ⟨afterLetter (afterLetter letterFiles 0x41#8) 0x61#8, letterPool_cached,
    .tail (.single (resolves_letter (fun _ _ => trivial) ?_))
      (resolves_letter (fun _ _ => trivial) ?_), ?_⟩ <;> decide +kernel

end

end CortexForge.Vfs
