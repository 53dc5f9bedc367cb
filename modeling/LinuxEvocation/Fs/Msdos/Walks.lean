import LinuxEvocation.Fs.Msdos.FatAccess
import LinuxEvocation.Fs.Msdos.Steps
import LinuxEvocation.Lib.Links

/-!
# Walks along the FAT

What is in the FAT of a disk can be anything: the chain of a file may come to a free or a reserved
cluster, or to itself.  `get_cluster` counts its steps and `fat_free` frees what it has seen, so that
they come to an end.  The search of `msdos_add_cluster` for the last cluster, and the scan of a
directory, only look for an end mark.

* `getCluster`, `freeTurn`, `addTurn`, `scanTurn` — the loops, turn by turn.
* `link` — the link of a cluster; `scanLink` — where nothing was found in it.
* `walks_exact` — the ends, and the clusters that data sectors are computed from.
-/

namespace LinuxEvocation.Msdos.Walks

open FatAccess (Sb Cache InRange fatAccess)
open Iteration (Halts iterate)
open Links (Acyclic Behind Ends Passes follow)
open Transition (Reach)

/-! ## The functions -/

/-- The super block of a file system that has clusters; `msdos_read_super` also accepts one without. -/
structure Super extends Sb where
  clusterSize : Nat
  dataStart : Nat
  clusters_pos : 0 < clusters

/-- The mark that the kernel writes. -/
def eofMark (d : Super) : Nat := if d.wide then 0xfff8 else 0xff8

/-- An entry that is read; `none` stands for -1. -/
def access (d : Super) (c : Cache) (nr : Nat) : Option Nat := (fatAccess d.toSb c nr none).1

def dataSector (d : Super) (cluster : Nat) (count : Nat) : Int :=
  ((cluster : Int) - 2) * d.clusterSize + d.dataStart + count

/-- The loop of `get_cluster`; it returns 0 for `none`. -/
def getTurn (d : Super) (c : Cache) (cluster : Nat) : Nat × Nat → (Nat × Nat) ⊕ Option Nat
  | (count, nr) =>
    if count < cluster then
      match access d c nr with
      | none => .inr none
      | some 0 => .inr none
      | some next => .inl (count + 1, next)
    else .inr (some nr)

/-- `get_cluster`, with as many turns of the loop as it can take. -/
def getCluster (d : Super) (c : Cache) (i : Inode) (cluster : Nat) (es : List CacheEntry) :
    Option (Nat × List CacheEntry) :=
  if i.start = 0 then some (0, es)
  else if cluster = 0 then some (i.start, es)
  else
    (iterate (getTurn d c cluster) (cluster + 1) (cacheLookup i (some cluster) es (0, i.start))).map
      fun
      | none => (0, es)
      | some nr => (nr, cacheAdd i cluster nr es)

/-- Where `fat_free` is: at the beginning, on the way to the cut, or behind it. -/
inductive FreePhase where
  | begin (skip : Nat)
  | skip (skip last nr : Nat)
  | free (nr : Option Nat)

structure Freeing where
  c : Cache
  start : Nat
  freeClusters : Int
  blocks : Int
  phase : FreePhase

/-- A turn of `fat_free`. -/
def freeTurn (d : Super) (s : Freeing) : Freeing ⊕ (Freeing × Int) :=
  match s.phase with
  | .begin skip => if s.start = 0 then .inr (s, 0) else .inl { s with phase := .skip skip 0 s.start }
  | .skip 0 last nr =>
    if last ≠ 0 then .inl { s with
      c := (fatAccess d.toSb s.c last (some (eofMark d))).2
      phase := .free (some nr) }
    else .inl { s with start := 0, phase := .free (some nr) }
  | .skip (skip + 1) _ nr =>
    match access d s.c nr with
    | none => .inr (s, 0)
    | some 0 => .inr (s, -eio)
    | some next => .inl { s with phase := .skip skip nr next }
  | .free none => .inr (s, 0)
  | .free (some nr) =>
    let r := fatAccess d.toSb s.c nr (some 0)
    match r.1 with
    | some 0 => .inr ({ s with c := r.2 }, 0)
    | next => .inl { s with
        c := r.2
        freeClusters := if s.freeClusters ≠ -1 then s.freeClusters + 1 else s.freeClusters
        blocks := s.blocks - d.clusterSize
        phase := .free next }

/-- Where `msdos_add_cluster` is: at the beginning, at a candidate, or on the way to the last cluster of
the file. -/
inductive AddPhase where
  | begin
  | scan (count : Nat)
  | walk (nr last : Nat) (current : Option Nat)

/-- With the clusters that data sectors were computed from. -/
structure Adding where
  c : Cache
  start : Nat
  prevFree : Nat
  freeClusters : Int
  used : List Nat
  phase : AddPhase

/-- The cluster that the search looks at. -/
def candidate (d : Super) (prevFree count : Nat) : Nat := (count + prevFree) % d.clusters + 2

/-- Where the way to the last cluster begins. -/
def walkFrom (i : Inode) (es : List CacheEntry) (start : Nat) : Nat × Nat :=
  if start = 0 then (0, 0) else cacheLookup i none es (0, start)

/-- A turn of `msdos_add_cluster`. -/
def addTurn (d : Super) (i : Inode) (es : List CacheEntry) (s : Adding) : Adding ⊕ (Adding × Int) :=
  match s.phase with
  | .begin =>
    if i.ino = rootIno then .inr (s, -enospc)
    else if s.freeClusters = 0 then .inr (s, -enospc)
    else .inl { s with phase := .scan 0 }
  | .scan count =>
    let nr := candidate d s.prevFree count
    if access d s.c nr = some 0 then
      let p := walkFrom i es s.start
      .inl { s with
        prevFree := (count + s.prevFree + 1) % d.clusters
        c := (fatAccess d.toSb s.c nr (some (eofMark d))).2
        freeClusters := if s.freeClusters ≠ -1 then s.freeClusters - 1 else s.freeClusters
        phase := .walk nr p.1 (some p.2) }
    else if count + 1 < d.clusters then .inl { s with phase := .scan (count + 1) }
    else .inr ({ s with
      prevFree := (d.clusters + s.prevFree + 1) % d.clusters
      freeClusters := 0 }, -enospc)
  | .walk nr last current =>
    if current = none ∨ current = some 0 then
      -- the new cluster goes behind the last one, and is filled with zeros
      let s := { s with used := s.used ++ [nr] }
      if last ≠ 0 then .inr ({ s with c := (fatAccess d.toSb s.c last (some nr)).2 }, 0)
      else .inr ({ s with start := nr }, 0)
    else
      match access d s.c (current.getD 0) with
      | some 0 => .inr (s, -enospc)
      | next => .inl { s with phase := .walk nr (current.getD 0) next }

/-! ## Directories -/

structure DirEntry where
  name : List (BitVec 8)
  attr : BitVec 8
  start : Nat

def isFree (e : DirEntry) : Bool := e.name.headD 0 = 0 || e.name.headD 0 = 0xe5 || e.name.headD 0 = 0xf6

/-- `strncmp` says that the strings are the same. -/
def sameName : Nat → List (BitVec 8) → List (BitVec 8) → Bool
  | 0, _, _ => true
  | n + 1, a, b =>
    a.headD 0 = b.headD 0 && (a.headD 0 = 0 || sameName n a.tail b.tail)

/-- The four modes of `raw_scan_sector`. -/
inductive Mode where
  | name (name : List (BitVec 8))
  | start (number : Nat)
  | count
  | free

/-- The sectors that can be read, with their entries, and the entries that are busy. -/
structure Entries where
  sector : Int → Option (Nat → DirEntry)
  busy : Int → Nat → Bool

/-- `done`. -/
def entryDone (busy : Bool) (e : DirEntry) : Mode → Bool
  | .name name => sameName 11 e.name name && e.attr &&& 8 = 0
  | .start number => !isFree e && e.start = number
  | .count => false
  | .free => isFree e && !busy

/-- What `raw_scan_sector` finds. -/
def sectorFound (dir : Entries) (mode : Mode) (sector : Int) : Option Nat :=
  (dir.sector sector).bind fun data =>
    ((List.range 16).find? fun entry => entryDone (dir.busy sector entry) (data entry) mode).map
      fun entry => (data entry).start

/-- What it adds to `*number`. -/
def sectorCount (dir : Entries) (mode : Mode) (sector : Int) : Nat :=
  match mode, dir.sector sector with
  | .count, some data =>
    ((List.range 16).filter fun entry => !isFree (data entry) && (data entry).attr &&& 16 ≠ 0).length
  | _, _ => 0

/-- The scan of a cluster. -/
def clusterFound (d : Super) (dir : Entries) (mode : Mode) (start : Nat) : Option Nat :=
  (List.range d.clusterSize).findSome? fun count => sectorFound dir mode (dataSector d start count)

def clusterCount (d : Super) (dir : Entries) (mode : Mode) (start : Nat) : Nat :=
  ((List.range d.clusterSize).map fun count => sectorCount dir mode (dataSector d start count)).sum

structure Scanning where
  start : Nat
  number : Nat

def enoent : Int := 2

/-- A turn of `raw_scan_nonroot`. -/
def scanTurn (d : Super) (c : Cache) (dir : Entries) (mode : Mode) (s : Scanning) :
    Scanning ⊕ (Nat × Int) :=
  let number := s.number + clusterCount d dir mode s.start
  match clusterFound d dir mode s.start with
  | some cluster => .inr (number, cluster)
  | none =>
    match access d c s.start with
    | none => .inr (number, -enoent)
    | some 0 => .inr (number, -enoent)
    | some next => .inl { start := next, number := number }

/-! ## Links -/

/-- The link of a cluster. -/
def link (d : Super) (c : Cache) (nr : Nat) : Option Nat :=
  match access d c nr with
  | some 0 => none
  | next => next

/-- The link of a cluster in which nothing is found. -/
def scanLink (d : Super) (c : Cache) (dir : Entries) (mode : Mode) (nr : Nat) : Option Nat :=
  if clusterFound d dir mode nr = none then link d c nr else none

/-- A look-up for a file, and the cache after it. -/
def lookup (d : Super) (c : Cache) (file : Nat → Inode) (es : List CacheEntry) :
    Nat × Nat → Option (List CacheEntry)
  | (f, n) => (getCluster d c (file f) n es).map Prod.snd

/-- After `cache_init`. -/
def cacheInit : List CacheEntry := List.replicate 8 ⟨0, 0, 0, 0⟩

section Proofs

variable {d : Super} {c : Cache} {nr next : Nat} {i : Inode} {es : List CacheEntry}

theorem inRange_of_access (h : access d c nr ≠ some 0) : InRange d.toSb nr := by
  by_contra hrange
  apply h
  rw [access, FatAccess.fatAccess_outside c hrange]

theorem link_some : link d c nr = some next ↔ access d c nr = some next ∧ next ≠ 0 := by
  unfold link
  split
  next hzero =>
    rw [hzero]
    simp only [reduceCtorEq, Option.some.injEq, false_iff, not_and, not_not]
    exact fun h => h.symm
  next hne =>
    refine ⟨fun h => ⟨h, ?_⟩, fun h => h.1⟩
    rintro rfl
    exact hne h

theorem link_none : link d c nr = none ↔ access d c nr = none ∨ access d c nr = some 0 := by
  unfold link
  split
  next hzero => simp [hzero]
  next hne => exact ⟨.inl, fun h => h.resolve_right hne⟩

/-- Only the clusters of the file system have links. -/
theorem link_finite (d : Super) (c : Cache) : {nr | link d c nr ≠ none}.Finite := by
  apply (Set.finite_lt_nat (d.clusters + 2)).subset
  intro nr hnr
  have hrange : InRange d.toSb nr :=
    inRange_of_access fun hzero => hnr (link_none.mpr (.inr hzero))
  exact hrange.2

theorem scanLink_finite (d : Super) (c : Cache) (dir : Entries) (mode : Mode) :
    {nr | scanLink d c dir mode nr ≠ none}.Finite := by
  apply (link_finite d c).subset
  intro nr hnr hlink
  apply hnr
  rw [scanLink, hlink, ite_self]

/-! ## Writes -/

theorem access_write_self (h : InRange d.toSb nr) {value : Nat}
    (hvalue : FatAccess.FitsEntry d.toSb value) :
    access d (fatAccess d.toSb c nr (some value)).2 nr = FatAccess.found d.toSb value :=
  FatAccess.read_write_self c h hvalue

theorem access_write_of_ne (h : InRange d.toSb nr) {value m : Nat}
    (hvalue : FatAccess.FitsEntry d.toSb value) (hm : m ≠ nr) :
    access d (fatAccess d.toSb c nr (some value)).2 m = access d c m :=
  FatAccess.read_write_of_ne c h hvalue hm

theorem eofMark_fits (d : Super) : FatAccess.FitsEntry d.toSb (eofMark d) := by
  unfold FatAccess.FitsEntry eofMark
  split <;> decide

theorem found_eofMark (d : Super) : FatAccess.found d.toSb (eofMark d) = none := by
  unfold FatAccess.found FatAccess.eof eofMark
  split <;> rfl

theorem zero_fits (d : Super) : FatAccess.FitsEntry d.toSb 0 := by
  unfold FatAccess.FitsEntry
  split <;> decide

theorem found_zero (d : Super) : FatAccess.found d.toSb 0 = some 0 := by
  unfold FatAccess.found FatAccess.eof
  split <;> rfl

/-! ## `fat_free` -/

/-- The clusters that are not free. -/
def taken (d : Super) (c : Cache) : Finset Nat :=
  (Finset.range (d.clusters + 2)).filter fun nr => access d c nr ≠ some 0

theorem taken_le (d : Super) (c : Cache) : (taken d c).card ≤ d.clusters + 2 :=
  (Finset.card_filter_le _ _).trans (Finset.card_range _).le

theorem taken_write (h : access d c nr ≠ some 0) :
    (taken d (fatAccess d.toSb c nr (some 0)).2).card < (taken d c).card := by
  have hrange := inRange_of_access h
  apply Finset.card_lt_card
  rw [Finset.ssubset_iff_of_subset]
  · refine ⟨nr, Finset.mem_filter.mpr ⟨Finset.mem_range.mpr hrange.2, h⟩, ?_⟩
    intro hmem
    apply (Finset.mem_filter.mp hmem).2
    rw [access_write_self hrange (zero_fits d), found_zero]
  · intro m hmem
    obtain ⟨hlt, hm⟩ := Finset.mem_filter.mp hmem
    refine Finset.mem_filter.mpr ⟨hlt, ?_⟩
    by_cases heq : m = nr
    · rwa [heq]
    · rwa [access_write_of_ne hrange (zero_fits d) heq] at hm

/-- How much is left to do. -/
def left (d : Super) (s : Freeing) : Nat :=
  match s.phase with
  | .begin skip => skip + d.clusters + 5
  | .skip skip _ _ => skip + d.clusters + 4
  | .free none => 0
  | .free (some _) => (taken d s.c).card + 1

theorem left_freeTurn {s s' : Freeing} (h : freeTurn d s = .inl s') : left d s' < left d s := by
  obtain ⟨c, start, freeClusters, blocks, phase⟩ := s
  unfold freeTurn at h
  rcases phase with skip | ⟨skip, last, nr⟩ | nr
  · simp only at h
    split at h
    · cases h
    · cases h
      simp only [left]
      omega
  · cases skip with
    | zero =>
      simp only at h
      split at h
      · cases h
        have hle := taken_le d (fatAccess d.toSb c last (some (eofMark d))).2
        simp only [left]
        omega
      · cases h
        have hle := taken_le d c
        simp only [left]
        omega
    | succ skip =>
      simp only at h
      split at h
      · cases h
      · cases h
      · cases h
        simp only [left]
        omega
  · cases nr with
    | none => cases h
    | some nr =>
      simp only at h
      split at h
      · cases h
      next hne =>
        cases h
        have hacc : access d c nr ≠ some 0 := by
          rw [access, ← FatAccess.fatAccess_returns d.toSb c nr (some 0)]
          exact hne
        have hlt := taken_write hacc
        simp only [left]
        split <;> simp_all

/-- **`fat_free` comes to an end.** -/
theorem freeTurn_halts (d : Super) (s : Freeing) : Halts (freeTurn d) s :=
  Iteration.halts_of_measure (I := fun _ => True) (left d)
    (fun _ _ _ h => ⟨trivial, left_freeTurn h⟩) trivial

/-! ## Directories -/

section Scans

variable {dir : Entries} {mode : Mode}

theorem scanTurn_next (s : Scanning) {b : Nat} (h : scanLink d c dir mode s.start = some b) :
    ∃ s', scanTurn d c dir mode s = .inl s' ∧ s'.start = b := by
  unfold scanLink at h
  split at h
  next hnone =>
    obtain ⟨hacc, hne⟩ := link_some.mp h
    refine ⟨{ start := b, number := s.number + clusterCount d dir mode s.start }, ?_, rfl⟩
    unfold scanTurn
    rw [hnone, hacc]
    obtain ⟨b, rfl⟩ := Nat.exists_eq_succ_of_ne_zero hne
    rfl
  next => cases h

theorem scanTurn_done (s : Scanning) (h : scanLink d c dir mode s.start = none) :
    ∃ r, scanTurn d c dir mode s = .inr r := by
  unfold scanLink at h
  unfold scanTurn
  cases hfound : clusterFound d dir mode s.start with
  | some cluster => exact ⟨_, rfl⟩
  | none =>
    rw [hfound, if_pos rfl] at h
    rcases link_none.mp h with hacc | hacc <;> rw [hacc] <;> exact ⟨_, rfl⟩

/-- **When the scan of a directory comes to an end.** -/
theorem scanTurn_halts_iff (d : Super) (c : Cache) (dir : Entries) (mode : Mode) (s : Scanning) :
    Halts (scanTurn d c dir mode) s ↔ Acyclic (scanLink d c dir mode) s.start := by
  rw [← Links.ends_iff_acyclic (scanLink_finite d c dir mode)]
  refine Links.halts_iff_ends (I := fun _ => True) ?_ ?_ trivial
  · intro s b _ hlink
    obtain ⟨s', hs', hstart⟩ := scanTurn_next s hlink
    exact ⟨s', hs', hstart, trivial⟩
  · intro s _ hlink
    obtain ⟨r, hr⟩ := scanTurn_done s hlink
    exact .done hr

/-- **The clusters that it computes data sectors from.** -/
theorem scanTurn_passes (d : Super) (c : Cache) (dir : Entries) (mode : Mode) (s : Scanning) :
    (∀ s', Passes (scanTurn d c dir mode) s s' → InRange d.toSb s'.start) ↔
      ∀ b, Behind (scanLink d c dir mode) s.start b → InRange d.toSb b := by
  have hpasses (b : Nat) : (∃ s', Passes (scanTurn d c dir mode) s s' ∧ s'.start = b) ↔
      Behind (scanLink d c dir mode) s.start b :=
    Links.passes_iff_behind (fun s _ => scanTurn_next s) scanTurn_done
  constructor
  · intro h b hb
    obtain ⟨s', hs', rfl⟩ := (hpasses b).mpr hb
    exact h s' hs'
  · intro h s' hs'
    exact h s'.start ((hpasses _).mp ⟨s', hs', rfl⟩)

end Scans

/-! ## Look-ups -/

theorem getTurn_next {cluster count : Nat} (hlt : count < cluster) (h : link d c nr = some next) :
    getTurn d c cluster (count, nr) = .inl (count + 1, next) := by
  obtain ⟨hacc, hne⟩ := link_some.mp h
  obtain ⟨next, rfl⟩ := Nat.exists_eq_succ_of_ne_zero hne
  rw [getTurn, if_pos hlt, hacc]
  rfl

theorem getTurn_done {cluster count : Nat} (hlt : count < cluster) (h : link d c nr = none) :
    getTurn d c cluster (count, nr) = .inr none := by
  rw [getTurn, if_pos hlt]
  rcases link_none.mp h with hacc | hacc <;> rw [hacc] <;> rfl

/-- **The loop of `get_cluster`** follows the links. -/
theorem iterate_getTurn (d : Super) (c : Cache) (nr n count fuel : Nat) (hfuel : n < fuel) :
    iterate (getTurn d c (count + n)) fuel (count, nr) = some (follow (link d c) n nr) := by
  induction n generalizing count nr fuel with
  | zero =>
    obtain ⟨fuel, rfl⟩ := Nat.exists_eq_add_of_lt hfuel
    refine Iteration.iterate_of_done ?_ _
    rw [getTurn, if_neg (by omega), follow]
  | succ n ih =>
    obtain ⟨fuel, rfl⟩ : ∃ k, fuel = k + 1 := ⟨fuel - 1, by omega⟩
    rw [follow]
    cases hlink : link d c nr with
    | none => exact Iteration.iterate_of_done (getTurn_done (by omega) hlink) _
    | some next =>
      rw [Iteration.iterate_of_next (getTurn_next (by omega) hlink), Option.bind_some,
        show count + (n + 1) = count + 1 + n by omega]
      exact ih next (count + 1) fuel (by omega)

/-- The cache finds nothing behind the cluster. -/
theorem cacheLookup_le (i : Inode) (cluster : Nat) (es : List CacheEntry) {p : Nat × Nat}
    (hp : p.1 ≤ cluster) : (cacheLookup i (some cluster) es p).1 ≤ cluster := by
  induction es generalizing p with
  | nil => exact hp
  | cons e es ih =>
    rw [cacheLookup]
    split_ifs with hcond hexact
    · exact hcond.2.1 cluster rfl
    · exact ih (hcond.2.1 cluster rfl)
    · exact ih hp

/-- **`get_cluster` comes to an end**, with any cache. -/
theorem getCluster_returns (d : Super) (c : Cache) (i : Inode) (cluster : Nat)
    (es : List CacheEntry) : (getCluster d c i cluster es).isSome := by
  unfold getCluster
  split_ifs
  · rfl
  · rfl
  · have hle := cacheLookup_le i cluster es (p := (0, i.start)) (Nat.zero_le _)
    generalize cacheLookup i (some cluster) es (0, i.start) = p at hle
    obtain ⟨count, nr⟩ := p
    obtain ⟨n, rfl⟩ := Nat.exists_eq_add_of_le hle
    rw [iterate_getTurn d c nr n count _ (by omega), Option.isSome_map]
    rfl

/-- What the cache knows about the file is on its chain. -/
def CacheOk (d : Super) (c : Cache) (i : Inode) (es : List CacheEntry) : Prop :=
  ∀ e ∈ es, e.isFor i = true → follow (link d c) e.fileCluster i.start = some e.diskCluster

theorem cacheLookup_follow (h : CacheOk d c i es) {cluster : Option Nat} {p : Nat × Nat}
    (hp : follow (link d c) p.1 i.start = some p.2) :
    follow (link d c) (cacheLookup i cluster es p).1 i.start =
      some (cacheLookup i cluster es p).2 := by
  induction es generalizing p with
  | nil => exact hp
  | cons e es ih =>
    have hrest : CacheOk d c i es := fun e' he' => h e' (List.mem_cons_of_mem _ he')
    rw [cacheLookup]
    split_ifs with hcond
    · exact h e List.mem_cons_self hcond.1
    · exact ih hrest (h e List.mem_cons_self hcond.1)
    · exact ih hrest hp

/-- **What a look-up returns**: the cluster that many links behind the first one, or 0. -/
theorem getCluster_eq (hstart : i.start ≠ 0) (h : CacheOk d c i es) (n : Nat) :
    ∃ es', getCluster d c i n es = some ((follow (link d c) n i.start).getD 0, es') ∧
      (es' = es ∨ ∃ nr, follow (link d c) n i.start = some nr ∧ es' = cacheAdd i n nr es) := by
  unfold getCluster
  rw [if_neg hstart]
  split_ifs with hn
  · subst hn
    exact ⟨es, rfl, .inl rfl⟩
  · have hle := cacheLookup_le i n es (p := (0, i.start)) (Nat.zero_le _)
    have hfollow : follow (link d c) (cacheLookup i (some n) es (0, i.start)).1 i.start =
        some (cacheLookup i (some n) es (0, i.start)).2 := cacheLookup_follow h rfl
    generalize cacheLookup i (some n) es (0, i.start) = p at hle hfollow
    obtain ⟨count, nr⟩ := p
    obtain ⟨k, rfl⟩ := Nat.exists_eq_add_of_le hle
    rw [iterate_getTurn d c nr k count _ (by omega)]
    have hwhole : follow (link d c) (count + k) i.start = follow (link d c) k nr := by
      rw [Links.follow_add, hfollow, Option.bind_some]
    rw [hwhole]
    cases follow (link d c) k nr with
    | none => exact ⟨es, rfl, .inl rfl⟩
    | some r => exact ⟨_, rfl, .inr ⟨r, rfl, rfl⟩⟩

theorem cacheOk_lookup {file : Nat → Inode}
    (hkeys : ∀ f g, (file f).dev = (file g).dev → (file f).ino = (file g).ino → f = g)
    (hdevs : ∀ f, (file f).dev ≠ 0) {es es' : List CacheEntry}
    (h : ∀ f, CacheOk d c (file f) es) {e : Nat × Nat} (hlookup : lookup d c file es e = some es') :
    ∀ f, CacheOk d c (file f) es' := by
  obtain ⟨f, n⟩ := e
  by_cases hstart : (file f).start = 0
  · rw [lookup, getCluster, if_pos hstart] at hlookup
    cases hlookup
    exact h
  · obtain ⟨es₁, heq, hcache⟩ := getCluster_eq hstart (h f) n
    rw [lookup, heq] at hlookup
    cases hlookup
    rcases hcache with rfl | ⟨nr, hnr, rfl⟩
    · exact h
    · intro g e he hfor
      rcases mem_cacheAdd he (hdevs g) hfor with he | rfl
      · exact h g e he hfor
      · simp only [CacheEntry.isFor, Bool.and_eq_true, beq_iff_eq] at hfor
        rw [← hkeys f g hfor.1 hfor.2]
        exact hnr

/-- **The clusters that look-ups find.** -/
theorem lookups_inRange {file : Nat → Inode}
    (hkeys : ∀ f g, (file f).dev = (file g).dev → (file f).ino = (file g).ino → f = g)
    (hdevs : ∀ f, (file f).dev ≠ 0)
    (hes : Reach (lookup d c file) Transition.anyStep cacheInit es) (f : Nat) :
    (∀ n r es', getCluster d c (file f) n es = some (r, es') → r ≠ 0 → InRange d.toSb r) ↔
      ((file f).start ≠ 0 → ∀ b, Behind (link d c) (file f).start b → InRange d.toSb b) := by
  have hok : ∀ f, CacheOk d c (file f) es := by
    refine hes.invariant (I := fun es => ∀ f, CacheOk d c (file f) es) ?_ ?_
    · intro f e he hfor
      rw [List.eq_of_mem_replicate he] at hfor
      simp only [CacheEntry.isFor, Bool.and_eq_true, beq_iff_eq] at hfor
      exact absurd hfor.1.symm (hdevs f)
    · intro es e es' h _ hlookup
      exact cacheOk_lookup hkeys hdevs h hlookup
  by_cases hstart : (file f).start = 0
  · refine iff_of_true ?_ fun h => absurd hstart h
    intro n r es' hget hr
    rw [getCluster, if_pos hstart] at hget
    cases hget
    exact absurd rfl hr
  · constructor
    · rintro h - b ⟨n, hn⟩
      obtain ⟨es', heq, -⟩ := getCluster_eq hstart (hok f) n
      rw [hn] at heq
      refine h n b es' heq ?_
      cases n with
      | zero =>
        cases hn
        exact hstart
      | succ n =>
        rw [Links.follow_succ] at hn
        obtain ⟨a, -, hab⟩ := Option.bind_eq_some_iff.mp hn
        exact (link_some.mp hab).2
    · intro h n r es' hget hr
      obtain ⟨es₁, heq, -⟩ := getCluster_eq hstart (hok f) n
      rw [hget] at heq
      simp only [Option.some.injEq, Prod.mk.injEq] at heq
      cases hfollow : follow (link d c) n (file f).start with
      | none =>
        rw [hfollow] at heq
        exact absurd heq.1 hr
      | some b =>
        rw [hfollow] at heq
        exact heq.1 ▸ h hstart b ⟨n, hfollow⟩

/-! ## `msdos_add_cluster` -/

/-- The mark in a free cluster leaves the links. -/
theorem link_mark (h : InRange d.toSb nr) (hfree : access d c nr = some 0) :
    link d (fatAccess d.toSb c nr (some (eofMark d))).2 = link d c := by
  funext m
  by_cases hm : m = nr
  · rw [hm, link_none.mpr (.inl ?_), link_none.mpr (.inr hfree)]
    rw [access_write_self h (eofMark_fits d), found_eofMark]
  · rw [link, access_write_of_ne h (eofMark_fits d) hm, link]

theorem candidate_inRange (d : Super) (prevFree count : Nat) :
    InRange d.toSb (candidate d prevFree count) := by
  have hlt := Nat.mod_lt (count + prevFree) d.clusters_pos
  unfold candidate
  exact ⟨by omega, by omega⟩

theorem candidate_surj (prevFree : Nat) (h : InRange d.toSb nr) :
    ∃ count < d.clusters, candidate d prevFree count = nr := by
  obtain ⟨hlo, hhi⟩ := h
  have hlt := Nat.mod_lt prevFree d.clusters_pos
  refine ⟨(nr - 2 + (d.clusters - prevFree % d.clusters)) % d.clusters,
    Nat.mod_lt _ d.clusters_pos, ?_⟩
  have hsum : nr - 2 + (d.clusters - prevFree % d.clusters) + prevFree =
      nr - 2 + d.clusters * (prevFree / d.clusters + 1) := by
    have := Nat.mod_add_div prevFree d.clusters
    rw [Nat.mul_succ]
    omega
  rw [candidate, Nat.mod_add_mod, hsum, Nat.add_mul_mod_self_left, Nat.mod_eq_of_lt (by omega)]
  omega

section Add

variable {s : Adding}

/-- The cluster that the walk is at. -/
def current (s : Adding) : Nat :=
  match s.phase with
  | .walk _ _ (some current) => current
  | _ => 0

/-- **The way to the last cluster** ends exactly if the chain does. -/
theorem walk_halts_iff {nr last cur : Nat} (h : s.phase = .walk nr last (some cur)) :
    Halts (addTurn d i es) s ↔ Ends (link d s.c) cur := by
  have hcur : current s = cur := by rw [current, h]
  rw [← hcur]
  refine Links.halts_iff_ends
    (I := fun t => t.c = s.c ∧ ∃ nr last cur, t.phase = .walk nr last (some cur)) ?_ ?_
    ⟨rfl, nr, last, cur, h⟩
  · rintro t b ⟨hc, nr, last, cur, hphase⟩ hlink
    have hview : current t = cur := by rw [current, hphase]
    rw [hview] at hlink
    obtain ⟨hacc, hne⟩ := link_some.mp hlink
    obtain ⟨b, rfl⟩ := Nat.exists_eq_succ_of_ne_zero hne
    have hpos : cur ≠ 0 := by
      have hrange : InRange d.toSb cur := inRange_of_access (by rw [hacc]; simp)
      exact (Nat.lt_of_lt_of_le Nat.two_pos hrange.1).ne'
    refine ⟨{ t with phase := .walk nr cur (some (b + 1)) }, ?_, rfl, hc, nr, cur, b + 1, rfl⟩
    unfold addTurn
    rw [hphase]
    simp only [reduceCtorEq, Option.some.injEq, hpos, or_self, if_false, Option.getD_some, hc, hacc]
  · rintro t ⟨hc, nr, last, cur, hphase⟩ hlink
    have hview : current t = cur := by rw [current, hphase]
    rw [hview] at hlink
    have hend {t : Adding} {nr last : Nat} {r : Option Nat} (hr : r = none ∨ r = some 0)
        (hphase : t.phase = .walk nr last r) : Halts (addTurn d i es) t := by
      cases hturn : addTurn d i es t with
      | inr r => exact .done hturn
      | inl t' =>
        unfold addTurn at hturn
        rw [hphase] at hturn
        simp only [hr, if_true] at hturn
        split at hturn <;> cases hturn
    by_cases hpos : cur = 0
    · exact hend (.inr (congrArg some hpos)) hphase
    · have hturn : addTurn d i es t = match access d t.c cur with
          | some 0 => .inr (t, -enospc)
          | next => .inl { t with phase := .walk nr cur next } := by
        rw [addTurn, hphase]
        simp only [reduceCtorEq, Option.some.injEq, hpos, or_self, if_false, Option.getD_some]
      rcases link_none.mp hlink with hacc | hacc
      · rw [hc, hacc] at hturn
        exact .next hturn (hend (.inl rfl) rfl)
      · rw [hc, hacc] at hturn
        exact .done hturn

theorem found_halts_iff {count : Nat} (h : s.phase = .scan count)
    (hfree : access d s.c (candidate d s.prevFree count) = some 0) :
    Halts (addTurn d i es) s ↔ Ends (link d s.c) (walkFrom i es s.start).2 := by
  have hrange := candidate_inRange d s.prevFree count
  have hturn : ∃ s', addTurn d i es s = .inl s' ∧
      s'.c = (fatAccess d.toSb s.c (candidate d s.prevFree count) (some (eofMark d))).2 ∧
      s'.phase = .walk (candidate d s.prevFree count) (walkFrom i es s.start).1
        (some (walkFrom i es s.start).2) := by
    refine ⟨{ s with
      prevFree := (count + s.prevFree + 1) % d.clusters
      c := (fatAccess d.toSb s.c (candidate d s.prevFree count) (some (eofMark d))).2
      freeClusters := if s.freeClusters ≠ -1 then s.freeClusters - 1 else s.freeClusters
      phase := .walk (candidate d s.prevFree count) (walkFrom i es s.start).1
        (some (walkFrom i es s.start).2) }, ?_, rfl, rfl⟩
    rw [addTurn, h]
    exact if_pos hfree
  obtain ⟨s', hs', hc, hphase⟩ := hturn
  rw [Iteration.halts_next_iff hs', walk_halts_iff hphase, hc, link_mark hrange hfree]

/-- The search for a free cluster, and what comes behind it. -/
theorem scan_halts_iff (n : Nat) {count : Nat} (hn : d.clusters = count + n + 1)
    (h : s.phase = .scan count) :
    Halts (addTurn d i es) s ↔
      (∀ k, count ≤ k → k < d.clusters → access d s.c (candidate d s.prevFree k) ≠ some 0) ∨
        Ends (link d s.c) (walkFrom i es s.start).2 := by
  induction n generalizing count s with
  | zero =>
    by_cases hfree : access d s.c (candidate d s.prevFree count) = some 0
    · rw [found_halts_iff h hfree]
      exact (or_iff_right fun hall => hall count le_rfl (by omega) hfree).symm
    · refine iff_of_true ?_ (.inl ?_)
      · refine .done (r := ?_) ?_
        rotate_left
        · rw [addTurn, h]
          simp only [if_neg hfree, if_neg (show ¬ count + 1 < d.clusters by omega)]
          rfl
      · intro k hlo hhi
        rwa [show k = count by omega]
  | succ n ih =>
    by_cases hfree : access d s.c (candidate d s.prevFree count) = some 0
    · rw [found_halts_iff h hfree]
      exact (or_iff_right fun hall => hall count le_rfl (by omega) hfree).symm
    · have hturn : addTurn d i es s = .inl { s with phase := .scan (count + 1) } := by
        rw [addTurn, h]
        simp only [if_neg hfree, if_pos (show count + 1 < d.clusters by omega)]
      rw [Iteration.halts_next_iff hturn, ih (by omega) rfl]
      refine or_congr_left ⟨fun hall k hlo hhi => ?_, fun hall k hlo hhi => hall k (by omega) hhi⟩
      rcases Nat.eq_or_lt_of_le hlo with rfl | hlt
      · exact hfree
      · exact hall k hlt hhi

/-- **When `msdos_add_cluster` comes to an end.** -/
theorem addTurn_halts_iff (h : s.phase = .begin) :
    Halts (addTurn d i es) s ↔
      i.ino = rootIno ∨ s.freeClusters = 0 ∨
        (∀ nr, InRange d.toSb nr → access d s.c nr ≠ some 0) ∨
        Acyclic (link d s.c) (walkFrom i es s.start).2 := by
  by_cases hroot : i.ino = rootIno
  · refine iff_of_true (.done (r := (s, -enospc)) ?_) (.inl hroot)
    rw [addTurn, h]
    exact if_pos hroot
  by_cases hfree : s.freeClusters = 0
  · refine iff_of_true (.done (r := (s, -enospc)) ?_) (.inr (.inl hfree))
    rw [addTurn, h]
    exact (if_neg hroot).trans (if_pos hfree)
  have hturn : addTurn d i es s = .inl { s with phase := .scan 0 } := by
    rw [addTurn, h]
    exact (if_neg hroot).trans (if_neg hfree)
  rw [Iteration.halts_next_iff hturn, or_iff_right hroot, or_iff_right hfree,
    scan_halts_iff (d.clusters - 1) (by have := d.clusters_pos; omega) rfl,
    Links.ends_iff_acyclic (link_finite d s.c)]
  refine or_congr_left ⟨fun hall nr hrange => ?_, fun hall k _ _ => ?_⟩
  · obtain ⟨k, hk, rfl⟩ := candidate_surj s.prevFree hrange
    exact hall k (Nat.zero_le k) hk
  · exact hall _ (candidate_inRange d s.prevFree k)

/-- The new cluster is one of the file system. -/
structure UsedOk (d : Super) (s : Adding) : Prop where
  used : ∀ x ∈ s.used, InRange d.toSb x
  nr : ∀ nr last cur, s.phase = .walk nr last cur → InRange d.toSb nr

theorem usedOk_addTurn (hs : UsedOk d s) :
    (∀ s', addTurn d i es s = .inl s' → UsedOk d s') ∧
      ∀ s' r, addTurn d i es s = .inr (s', r) → ∀ x ∈ s'.used, InRange d.toSb x := by
  have hused := hs.used
  cases hphase : s.phase with
  | begin =>
    unfold addTurn
    rw [hphase]
    constructor
    · intro s' h
      simp only at h
      split_ifs at h
      cases h
      exact ⟨hused, fun _ _ _ h => by cases h⟩
    · intro s' r h
      simp only at h
      split_ifs at h <;> cases h <;> exact hused
  | scan count =>
    unfold addTurn
    rw [hphase]
    constructor
    · intro s' h
      by_cases hfree : access d s.c (candidate d s.prevFree count) = some 0
      · simp only [if_pos hfree, Sum.inl.injEq] at h
        subst h
        refine ⟨hused, ?_⟩
        rintro _ _ _ ⟨⟩
        exact candidate_inRange d s.prevFree count
      · simp only [if_neg hfree] at h
        split_ifs at h
        cases h
        exact ⟨hused, fun _ _ _ h => by cases h⟩
    · intro s' r h
      simp only at h
      split_ifs at h
      cases h
      exact hused
  | walk nr last cur =>
    have hnr := hs.nr nr last cur hphase
    have happend : ∀ x ∈ s.used ++ [nr], InRange d.toSb x := by
      intro x hx
      rcases List.mem_append.mp hx with hx | hx
      · exact hused x hx
      · rwa [List.mem_singleton.mp hx]
    unfold addTurn
    rw [hphase]
    constructor
    · intro s' h
      simp only at h
      split_ifs at h
      split at h <;> cases h
      refine ⟨hused, ?_⟩
      rintro _ _ _ ⟨⟩
      exact hnr
    · intro s' r h
      simp only at h
      split_ifs at h
      · cases h
        exact happend
      · cases h
        exact happend
      · split at h <;> cases h
        exact hused

/-- **The clusters that `msdos_add_cluster` computes data sectors from.** -/
theorem addTurn_used {fuel : Nat} {r : Adding × Int} (hphase : s.phase = .begin) (hused : s.used = [])
    (h : iterate (addTurn d i es) fuel s = some r) : ∀ x ∈ r.1.used, InRange d.toSb x := by
  refine Iteration.iterate_result (I := UsedOk d) (Q := fun r => ∀ x ∈ r.1.used, InRange d.toSb x)
    (fun s s' hs => (usedOk_addTurn hs).1 s') (fun s r hs => (usedOk_addTurn hs).2 r.1 r.2) ?_ h
  refine ⟨fun x hx => ?_, fun nr last cur hwalk => ?_⟩
  · rw [hused] at hx
    cases hx
  · rw [hphase] at hwalk
    cases hwalk

end Add

end Proofs

/-- **The walks of a disk**, whatever its FAT says.  `get_cluster` and `fat_free` come to an end, and
`msdos_add_cluster` computes data sectors from the cluster that it has found only.  It comes to an end
exactly if it does not begin to look for the last cluster or the chain from there on has no cycle; the
scan of a directory, if the chain has none as far as nothing is found.  The clusters that a scan and the
look-ups for a file compute data sectors from are in the file system exactly if those of the chain are. -/
theorem walks_exact (d : Super) (c : Cache) :
    (∀ i n es, (getCluster d c i n es).isSome) ∧
    (∀ s, Halts (freeTurn d) s) ∧
    (∀ i es s, s.phase = .begin → s.used = [] →
      (Halts (addTurn d i es) s ↔
        i.ino = rootIno ∨ s.freeClusters = 0 ∨
          (∀ nr, InRange d.toSb nr → access d s.c nr ≠ some 0) ∨
          Acyclic (link d s.c) (walkFrom i es s.start).2) ∧
      ∀ fuel r, iterate (addTurn d i es) fuel s = some r → ∀ x ∈ r.1.used, InRange d.toSb x) ∧
    (∀ dir mode s,
      (Halts (scanTurn d c dir mode) s ↔ Acyclic (scanLink d c dir mode) s.start) ∧
      ((∀ s', Passes (scanTurn d c dir mode) s s' → InRange d.toSb s'.start) ↔
        ∀ b, Behind (scanLink d c dir mode) s.start b → InRange d.toSb b)) ∧
    ∀ file : Nat → Inode,
      (∀ f g, (file f).dev = (file g).dev → (file f).ino = (file g).ino → f = g) →
      (∀ f, (file f).dev ≠ 0) → ∀ es, Reach (lookup d c file) Transition.anyStep cacheInit es → ∀ f,
        ((∀ n r es', getCluster d c (file f) n es = some (r, es') → r ≠ 0 → InRange d.toSb r) ↔
          ((file f).start ≠ 0 → ∀ b, Behind (link d c) (file f).start b → InRange d.toSb b)) :=
  ⟨getCluster_returns d c, freeTurn_halts d,
    fun _ _ _ hphase hused => ⟨addTurn_halts_iff hphase, fun _ _ => addTurn_used hphase hused⟩,
    fun dir mode s => ⟨scanTurn_halts_iff d c dir mode s, scanTurn_passes d c dir mode s⟩,
    fun _ hkeys hdevs _ hes f => lookups_inRange hkeys hdevs hes f⟩

/-- A floppy disk. -/
def floppy : Super where
  toSb := FatAccess.floppy
  clusterSize := 2
  dataStart := 12
  clusters_pos := by decide

/-- Cluster 2 is linked to itself. -/
def cyclic : Cache := (fatAccess FatAccess.floppy FatAccess.blank 2 (some 2)).2

/-- The file begins there. -/
def adding : Adding where
  c := cyclic
  start := 2
  prevFree := 0
  freeClusters := -1
  used := []
  phase := .begin

/-- A search that finds no room ends; a scan in which nothing is found stays on the disk, and does not
end. -/
theorem walks_cyclic : (getCluster floppy cyclic ⟨1, 2, 2⟩ 5 cacheInit).isSome ∧
    Halts (addTurn floppy ⟨1, 2, 2⟩ cacheInit) { adding with freeClusters := 0 } ∧
    ¬ Halts (scanTurn floppy cyclic ⟨fun _ => none, fun _ _ => false⟩ .free) ⟨2, 0⟩ ∧
    ∀ s, Passes (scanTurn floppy cyclic ⟨fun _ => none, fun _ _ => false⟩ .free) ⟨2, 0⟩ s →
      InRange floppy.toSb s.start := by
  obtain ⟨hget, -, hadd, hscan, -⟩ := walks_exact floppy cyclic
  have hnext : follow (scanLink floppy cyclic ⟨fun _ => none, fun _ _ => false⟩ .free) 1 2 = some 2 := by
    decide
  refine ⟨hget _ _ _, (hadd _ _ _ rfl rfl).1.2 (.inr (.inl rfl)), fun hhalts => ?_,
    (hscan _ _ _).2.2 ?_⟩
  · exact (hscan _ _ _).1.1 hhalts 2 (Links.Behind.refl 2) 0 hnext
  · rintro b ⟨n, hn⟩
    have hround := Links.follow_cycle hnext n
    rw [Nat.one_mul] at hround
    obtain rfl : b = 2 := Option.some.inj (hn.symm.trans hround)
    decide

/-- The way to the last cluster of the file does not end. -/
theorem cycle_not_left : ¬ Halts (addTurn floppy ⟨1, 2, 2⟩ cacheInit) adding := by
  have hcycle : link floppy cyclic 2 = some 2 := by decide
  rw [addTurn_halts_iff rfl]
  rintro (h | h | h | h)
  · exact absurd h (by decide)
  · exact absurd h (by decide)
  · exact h 3 (by decide) (by decide)
  · have hfrom : (walkFrom ⟨1, 2, 2⟩ cacheInit 2).2 = 2 := by decide
    refine h 2 ⟨0, ?_⟩ 0 ?_
    · exact congrArg some hfrom
    · exact hcycle

end LinuxEvocation.Msdos.Walks
