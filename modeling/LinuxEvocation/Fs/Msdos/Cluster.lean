import LinuxEvocation.Fs.Msdos.Fat

/-!
# Cluster look-ups, and files that grow and shrink

`get_cluster` walks the chain of a file from a cluster that a small cache knows; `msdos_add_cluster`
allocates a cluster and links it behind the last one; `fat_free` cuts the chain and frees what is
behind the cut.  Each of them may sleep at every `fat_access`, which reads from the disk, and in
`lock_fat`.

* `CacheEntry`, `cacheLookup`, `cacheAdd`, `cacheInvalInode` — the cache.
* `Volume`, `Inode`, `Phase`, `State` — the file systems, the files, and where the calls are.
* `Event`, `step` — a call begins, goes on from one sleep to the next, and returns.
* `State.walk` — what a look-up without a cache returns.
-/

namespace LinuxEvocation.Msdos

/-! ## The cache -/

/-- `struct fat_cache`.  An entry with the device 0 is empty. -/
structure CacheEntry where
  device : Nat
  ino : Nat
  fileCluster : Nat
  diskCluster : Nat
  deriving DecidableEq

/-- What an inode has in memory: `i_dev`, `i_ino` and `i_start`. -/
structure Inode where
  dev : Nat
  ino : Nat
  start : Nat
  deriving DecidableEq

/-- The entry is one of the file. -/
def CacheEntry.isFor (e : CacheEntry) (i : Inode) : Bool := e.device == i.dev && e.ino == i.ino

/-- `cache_lookup`: from the pair `f_clu` and `d_clu` to the nearest entry that is not behind
`cluster`, if there is one; `none` stands for `INT_MAX`. -/
def cacheLookup (i : Inode) (cluster : Option Nat) : List CacheEntry → Nat × Nat → Nat × Nat
  | [], p => p
  | e :: es, p =>
    if e.isFor i ∧ (∀ n, cluster = some n → e.fileCluster ≤ n) ∧ p.1 < e.fileCluster then
      if cluster = some e.fileCluster then (e.fileCluster, e.diskCluster)
      else cacheLookup i cluster es (e.fileCluster, e.diskCluster)
    else cacheLookup i cluster es p

/-- `cache_inval_inode`. -/
def cacheInvalInode (i : Inode) (es : List CacheEntry) : List CacheEntry :=
  es.map fun e => if e.isFor i then { e with device := 0 } else e

/-- The entry of a cluster of the file, but not the last one, with the entries before and behind it. -/
def cacheFind (i : Inode) (fclu : Nat) :
    List CacheEntry → Option (List CacheEntry × CacheEntry × List CacheEntry)
  | [] => none
  | [_] => none
  | e :: e' :: es =>
    if e.isFor i ∧ e.fileCluster = fclu then some ([], e, e' :: es)
    else (cacheFind i fclu (e' :: es)).map fun (l₁, x, l₂) => (e :: l₁, x, l₂)

/-- `cache_add`. -/
def cacheAdd (i : Inode) (fclu dclu : Nat) (es : List CacheEntry) : List CacheEntry :=
  match cacheFind i fclu es with
  | some (l₁, e, l₂) =>
    if e.diskCluster ≠ dclu then cacheInvalInode i es else e :: (l₁ ++ l₂)
  | none => ⟨i.dev, i.ino, fclu, dclu⟩ :: es.dropLast

/-! ## The state -/

/-- A file system: its table, `prev_free`, `free_clusters` (-1 if it is not known), and the lock, with
the task that has it. -/
structure Volume where
  fat : Fat
  prevFree : Nat
  freeClusters : Int
  lock : Option Nat

inductive Op where
  /-- `get_cluster`. -/
  | get (cluster : Nat)
  /-- `msdos_add_cluster`. -/
  | add
  /-- `fat_free`. -/
  | free (skip : Nat)
  deriving DecidableEq

/-- Where a call is: before which sleep, and what it remembers. -/
inductive Phase where
  /-- Before the next link on the way to a cluster of the file. -/
  | getWalk (cluster count nr : Nat)
  /-- Before `lock_fat`. -/
  | addLock
  /-- With the lock, before the look at the next entry. -/
  | addScan (count : Nat)
  /-- With the lock, before the mark in the free entry `nr`. -/
  | addMark (nr : Nat)
  /-- With the lock, after that. -/
  | addCount (nr : Nat)
  /-- Before the next link on the way to the end of the chain. -/
  | addWalk (nr current : Nat)
  /-- Before the store of the link. -/
  | addLink (nr last : Nat)
  /-- Before the next link on the way to the cut. -/
  | freeSkip (skip nr : Nat)
  /-- Before the mark in the last cluster that stays. -/
  | freeCut (nr last : Nat)
  /-- Before `lock_fat`. -/
  | freeLock (nr : Nat)
  /-- With the lock, before the store to the next entry. -/
  | freeZero (nr : Nat)
  /-- With the lock, after that. -/
  | freeCount (next : Option Nat)
  /-- `get_cluster` has returned. -/
  | got (cluster nr : Nat)
  /-- One of the others has returned. -/
  | ret (r : Int)
  deriving DecidableEq

/-- A call for a file. -/
structure Call where
  file : Nat
  phase : Phase
  deriving DecidableEq

/-- The file systems by device, the files, the cache, and the calls by task. -/
structure State where
  vol : Nat → Volume
  file : Nat → Inode
  cache : List CacheEntry
  call : Nat → Option Call

/-- `MSDOS_ROOT_INO`. -/
def rootIno : Nat := 1

/-- The error numbers. -/
def enospc : Int := 28

def eio : Int := 5

namespace State

variable (s : State)

def setCall (t : Nat) (c : Option Call) : State := { s with call := Function.update s.call t c }

def setVol (d : Nat) (v : Volume) : State := { s with vol := Function.update s.vol d v }

/-- `i_start`. -/
def setStart (f nr : Nat) : State :=
  { s with file := Function.update s.file f { (s.file f) with start := nr } }

/-- The file system that the file is on. -/
def volOf (f : Nat) : Volume := s.vol (s.file f).dev

def setVolOf (f : Nat) (v : Volume) : State := s.setVol (s.file f).dev v

/-- The call goes on to the next sleep. -/
def goto (t f : Nat) (p : Phase) : State := s.setCall t (some ⟨f, p⟩)

/-- `fat_access`, for the table of the file. -/
def access (f nr : Nat) : Option Nat := (s.volOf f).fat.access nr

def store (f nr value : Nat) : State :=
  s.setVolOf f { (s.volOf f) with fat := (s.volOf f).fat.store nr value }

def setLock (f : Nat) (o : Option Nat) : State := s.setVolOf f { (s.volOf f) with lock := o }

def setPrevFree (f n : Nat) : State := s.setVolOf f { (s.volOf f) with prevFree := n }

def setFree (f : Nat) (n : Int) : State := s.setVolOf f { (s.volOf f) with freeClusters := n }

/-- The number of free clusters, if it is known, changes. -/
def addFree (f : Nat) (n : Int) : State :=
  if (s.volOf f).freeClusters = -1 then s else s.setFree f ((s.volOf f).freeClusters + n)

/-! ## `get_cluster` -/

/-- The loop of `get_cluster`, as far as the next sleep. -/
def getLoop (t f cluster count nr : Nat) : State :=
  if count < cluster then s.goto t f (.getWalk cluster count nr)
  else { s with cache := cacheAdd (s.file f) cluster nr s.cache }.goto t f (.got cluster nr)

def getBegin (t f cluster : Nat) : State :=
  if (s.file f).start = 0 then s.goto t f (.got cluster 0)
  else if cluster = 0 then s.goto t f (.got cluster (s.file f).start)
  else
    let p := cacheLookup (s.file f) (some cluster) s.cache (0, (s.file f).start)
    s.getLoop t f cluster p.1 p.2

/-! ## `msdos_add_cluster` -/

def addBegin (t f : Nat) : State :=
  if (s.file f).ino = rootIno then s.goto t f (.ret (-enospc))
  else if (s.volOf f).freeClusters = 0 then s.goto t f (.ret (-enospc))
  else s.goto t f .addLock

/-- The cluster that the search looks at. -/
def candidate (f count : Nat) : Nat := (count + (s.volOf f).prevFree) % (s.volOf f).fat.clusters + 2

/-- One round of the search for a free cluster. -/
def addScan (t f count : Nat) : State :=
  let limit := (s.volOf f).fat.clusters
  if s.access f (s.candidate f count) = some 0 then
    (s.setPrevFree f ((count + (s.volOf f).prevFree + 1) % limit)).goto t f
      (.addMark (s.candidate f count))
  else if count + 1 < limit then s.goto t f (.addScan (count + 1))
  else
    (((s.setPrevFree f ((limit + (s.volOf f).prevFree + 1) % limit)).setFree f 0).setLock f none).goto
      t f (.ret (-enospc))

/-- The new cluster goes behind `last`, or becomes the first one. -/
def addTail (t f nr last : Nat) : State :=
  if last = 0 then (s.setStart f nr).goto t f (.ret 0) else s.goto t f (.addLink nr last)

/-- The way to the last cluster begins. -/
def addFind (t f nr : Nat) : State :=
  if (s.file f).start = 0 then s.addTail t f nr 0
  else
    let p := cacheLookup (s.file f) none s.cache (0, (s.file f).start)
    if p.2 = 0 then s.addTail t f nr p.1 else s.goto t f (.addWalk nr p.2)

/-- One link of the way. -/
def addWalk (t f nr current : Nat) : State :=
  match s.access f current with
  | none => s.addTail t f nr current
  | some 0 => s.goto t f (.ret (-enospc))
  | some next => s.goto t f (.addWalk nr next)

/-! ## `fat_free` -/

/-- Between the cut and the lock. -/
def freeBegin (t f skip : Nat) : State :=
  if (s.file f).start = 0 then s.goto t f (.ret 0)
  else if skip = 0 then (s.setStart f 0).goto t f (.freeLock (s.file f).start)
  else s.goto t f (.freeSkip skip (s.file f).start)

/-- One link of the way to the cut. -/
def freeSkip (t f skip nr : Nat) : State :=
  match s.access f nr with
  | none => s.goto t f (.ret 0)
  | some 0 => s.goto t f (.ret (-eio))
  | some next => if skip = 1 then s.goto t f (.freeCut next nr)
      else s.goto t f (.freeSkip (skip - 1) next)

/-- The end of `fat_free`. -/
def freeEnd (t f : Nat) : State :=
  ({ s with cache := cacheInvalInode (s.file f) s.cache }.setLock f none).goto t f (.ret 0)

/-- One round of the loop that frees the clusters. -/
def freeZero (t f nr : Nat) : State :=
  match s.access f nr with
  | some 0 => (s.store f nr 0).freeEnd t f
  | next => (s.store f nr 0).goto t f (.freeCount next)

def freeCount (t f : Nat) (next : Option Nat) : State :=
  match next with
  | none => (s.addFree f 1).freeEnd t f
  | some nr => (s.addFree f 1).goto t f (.freeZero nr)

end State

/-! ## Steps -/

inductive Event where
  | call (t f : Nat) (op : Op)
  /-- The call goes on to the next sleep. -/
  | run (t : Nat)
  | leave (t : Nat)
  deriving DecidableEq

/-- A call goes on. -/
def resume (s : State) (t f : Nat) : Phase → Option State
  | .getWalk cluster count nr =>
    match s.access f nr with
    | none => some (s.goto t f (.got cluster 0))
    | some 0 => some (s.goto t f (.got cluster 0))
    | some next => some (s.getLoop t f cluster (count + 1) next)
  | .addLock =>
    if (s.volOf f).lock = none then some ((s.setLock f (some t)).goto t f (.addScan 0)) else none
  | .addScan count => some (s.addScan t f count)
  | .addMark nr => some ((s.store f nr (s.volOf f).fat.eofMark).goto t f (.addCount nr))
  | .addCount nr => some (((s.addFree f (-1)).setLock f none).addFind t f nr)
  | .addWalk nr current => some (s.addWalk t f nr current)
  | .addLink nr last => some ((s.store f last nr).goto t f (.ret 0))
  | .freeSkip skip nr => some (s.freeSkip t f skip nr)
  | .freeCut nr last =>
    some ((s.store f last (s.volOf f).fat.eofMark).goto t f (.freeLock nr))
  | .freeLock nr =>
    if (s.volOf f).lock = none then some ((s.setLock f (some t)).goto t f (.freeZero nr)) else none
  | .freeZero nr => some (s.freeZero t f nr)
  | .freeCount next => some (s.freeCount t f next)
  | .got _ _ => none
  | .ret _ => none

def step (s : State) : Event → Option State
  | .call t f op =>
    if s.call t = none then
      match op with
      | .get cluster => some (s.getBegin t f cluster)
      | .add => some (s.addBegin t f)
      | .free skip => some (s.freeBegin t f skip)
    else none
  | .run t =>
    match s.call t with
    | none => none
    | some c => resume s t c.file c.phase
  | .leave t =>
    match s.call t with
    | some ⟨_, .got _ _⟩ => some (s.setCall t none)
    | some ⟨_, .ret _⟩ => some (s.setCall t none)
    | _ => none

/-- **The walk without a cache**: `n` links from `i_start` on; 0 behind the end of the chain. -/
def State.walk (s : State) (f : Nat) : Nat → Nat
  | 0 => (s.file f).start
  | n + 1 =>
    match s.walk f n with
    | 0 => 0
    | nr => (s.access f nr).getD 0

end LinuxEvocation.Msdos
