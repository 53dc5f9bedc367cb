import LinuxEvocation.Fs.Buffer.Queues
import LinuxEvocation.Mm.PageAlloc.Basic

/-!
# The buffer cache shared by sleeping tasks

The functions of the buffer cache that may sleep, as a machine whose tasks run one at a time and
give up the processor only where the kernel sleeps: in `wait_on_buffer`, in `ll_rw_block`, in
`sync_buffers` and on `buffer_wait`.  The lists of the cache are lists here; the links that thread
them are in `Queues`.

* `Cache` — the buffers, `mem_map` and the block sizes.
* `Pc` — where a task is; `Sys` — the cache and the tasks.
* `run`, `wake`, `call` — what a task does, how it goes on after a sleep, how it starts.
* `Event`, `Sys.step`, `Sys.Allowed` — the steps, and what the rest of the kernel promises.
-/

namespace LinuxEvocation.Fs.Buffer

open Function (update)
open LinuxEvocation.Mm
open Mm.PageAlloc (mapPageReserved)

/-! ## The cache -/

/-- The buffers, with `free_list` and the hash queues as lists. -/
structure Cache where
  ring : List Nat
  queue : Nat → List Nat
  dev : Nat → Nat
  blocknr : Nat → Nat
  size : Nat → Nat
  data : Nat → Nat
  /-- `b_count` is an unsigned short; `CountsFit` says when this makes no difference. -/
  count : Nat → Nat
  dirt : Nat → Bool
  lock : Nat → Bool
  uptodate : Nat → Bool
  /-- By page number. -/
  memMap : Nat → Nat
  /-- `blksize_size[MAJOR(dev)]` is there. -/
  hasBlksize : Nat → Bool
  blksize : Nat → Nat

/-- `mem_map[nr]++`, in 16 bits. -/
def mapAgain (m : Nat) : Nat := (m + 1) % 2 ^ 16

/-- `mem_map` in `free_page`: a reserved page keeps its count. -/
def mapLess (m : Nat) : Nat := if mapPageReserved ≤ m then m else m - 1

namespace Cache

def hash (c : Cache) (bh : Nat) : Nat := hashfn (c.dev bh) (c.blocknr bh)

/-- `find_buffer(dev, block, size)`: a buffer of another size is the wrong one, and ends the
search. -/
def findBuffer (c : Cache) (dev block size : Nat) : Option Nat :=
  match (c.queue (hashfn dev block)).find? fun tmp => c.dev tmp = dev ∧ c.blocknr tmp = block with
  | some tmp => if c.size tmp = size then some tmp else none
  | none => none

def removeFromHashQueue (bh : Nat) (c : Cache) : Cache :=
  { c with queue := update c.queue (c.hash bh) ((c.queue (c.hash bh)).erase bh) }

def removeFromQueues (bh : Nat) (c : Cache) : Cache :=
  { removeFromHashQueue bh c with ring := c.ring.erase bh }

def putLastFree (bh : Nat) (c : Cache) : Cache := { c with ring := c.ring.erase bh ++ [bh] }

def insertIntoQueues (bh : Nat) (c : Cache) : Cache :=
  { c with
    ring := c.ring ++ [bh]
    queue := if c.dev bh = 0 then c.queue
      else update c.queue (c.hash bh) (bh :: c.queue (c.hash bh)) }

/-- The last part of `getblk`: the buffer `bh` is given to another block. -/
def reassign (bh dev block : Nat) (c : Cache) : Cache :=
  let c := removeFromQueues bh
    { c with
      count := update c.count bh 1
      dirt := update c.dirt bh false
      uptodate := update c.uptodate bh false }
  insertIntoQueues bh
    { c with dev := update c.dev bh dev, blocknr := update c.blocknr bh block }

/-- `put_unused_buffer_head` for each of the heads: their fields are cleared. -/
def clear (heads : List Nat) (c : Cache) : Cache :=
  { c with
    dev := fun x => if x ∈ heads then 0 else c.dev x
    blocknr := fun x => if x ∈ heads then 0 else c.blocknr x
    size := fun x => if x ∈ heads then 0 else c.size x
    data := fun x => if x ∈ heads then 0 else c.data x
    count := fun x => if x ∈ heads then 0 else c.count x
    dirt := fun x => if x ∈ heads then false else c.dirt x
    lock := fun x => if x ∈ heads then false else c.lock x
    uptodate := fun x => if x ∈ heads then false else c.uptodate x }

/-- `create_buffers(page, size)` with unused heads, the first of them for the lowest address. -/
def createBuffers (page size : Nat) (heads : List Nat) (c : Cache) : Cache :=
  let c := clear heads c
  { c with
    size := fun x => if x ∈ heads then size else c.size x
    data := fun x => if x ∈ heads then page + heads.idxOf x * size else c.data x }

/-- `grow_buffers(size)` with the page and the heads it gets; without enough heads it frees the
page. -/
def growBuffers (size page : Nat) (heads : Option (List Nat)) (c : Cache) : Cache :=
  if size % 512 ≠ 0 ∨ size > pageSize then c
  else if page = 0 then c
  else
    match heads with
    | none => c
    | some heads =>
      if heads.length * size = pageSize then
        let c := createBuffers page size heads c
        { c with
          ring := heads.reverse ++ c.ring
          memMap := update c.memMap (mapNr page) 1 }
      else c

/-- The second loop of `try_to_load_aligned`. -/
def insertAll (dev : Nat) : List (Nat × Nat) → Cache → Cache
  | [], c => c
  | (bh, block) :: l, c =>
    insertAll dev l (insertIntoQueues bh
      { c with
        count := update c.count bh 1
        dirt := update c.dirt bh false
        uptodate := update c.uptodate bh false
        dev := update c.dev bh dev
        blocknr := update c.blocknr bh block })

/-- `BADNESS(bh)`. -/
def badness (c : Cache) (bh : Nat) : Nat :=
  (if c.dirt bh then 2 else 0) + (if c.lock bh then 1 else 0)

/-- The loop of `getblk` that looks for a buffer to use. -/
def pickVictim (c : Cache) (size : Nat) : List Nat → Option Nat → Option Nat
  | [], bh => bh
  | tmp :: l, bh =>
    if c.count tmp ≠ 0 ∨ c.size tmp ≠ size then pickVictim c size l bh
    else if c.memMap (mapNr (c.data tmp)) ≠ 1 then pickVictim c size l bh
    else if bh.all fun bh => c.badness tmp < c.badness bh then
      if c.badness tmp = 0 then some tmp else pickVictim c size l (some tmp)
    else pickVictim c size l bh

/-- The heads of the page of `bh`. -/
def pageHeads (c : Cache) (bh : Nat) : List Nat :=
  c.ring.filter fun x => pageMask (c.data x) = pageMask (c.data bh)

/-- `try_to_free(bh, bhp)`. -/
def tryToFree (bh : Nat) (c : Cache) : Cache :=
  if (c.pageHeads bh).all fun x => c.count x = 0 ∧ c.dirt x = false ∧ c.lock x = false then
    let page := mapNr (c.data bh)
    let c := clear (c.pageHeads bh) ((c.pageHeads bh).foldl (fun c x => removeFromQueues x c) c)
    { c with memMap := update c.memMap page (mapLess (c.memMap page)) }
  else c

/-- The head behind `bh` on the free list. -/
def nextFree (c : Cache) (bh : Nat) : Nat :=
  c.ring.getD ((c.ring.idxOf bh + 1) % c.ring.length) 0

end Cache

/-! ## The tasks -/

/-- Who has called `get_hash_table`. -/
inductive Search where
  | getblk
  | share (address : Nat) (b : List Nat)
  /-- `check_aligned`, with the buffers it holds so far and the blocks that follow. -/
  | check (page address offset : Nat) (acc b : List Nat)
  /-- `try_to_load_aligned`, with the heads it has made, its blocks, and those that follow. -/
  | load (address : Nat) (heads b rest : List Nat)

/-- What follows when the buffers are released. -/
inductive Finish where
  | done
  | mapped (page address : Nat)
  | noGo (page : Nat)
  | notAligned (heads : List Nat)
  | loaded (address : Nat)

/-- What follows `wait_on_buffer(bh)`. -/
inductive After where
  | found (dev block size : Nat) (k : Search)
  | victim (dev block size : Nat)
  | unhash (dev size i bhnext : Nat)
  | read (todo all : List Nat) (f : Finish)
  | release (l : List Nat) (f : Finish)

/-- What follows `sync_buffers`. -/
inductive AfterSync where
  | getblk (dev block size : Nat)
  | setBlocksize (dev size : Nat)

/-- Where a task is. -/
inductive Pc where
  | idle
  /-- At the head of the loop of `get_hash_table`. -/
  | search (dev block size : Nat) (k : Search)
  /-- At the loop of `getblk` that looks for a buffer to use. -/
  | scan (dev block size : Nat)
  /-- Asleep in `wait_on_buffer(bh)`. -/
  | wait (bh : Nat) (k : After)
  /-- `wait_on_buffer(bh)` has returned. -/
  | after (bh : Nat) (k : After)
  /-- In `sync_buffers`. -/
  | sync (k : AfterSync)
  /-- In `sync_buffers`, asleep in `ll_rw_block` for `bh`. -/
  | io (bh : Nat) (k : AfterSync)
  /-- Asleep on `buffer_wait`. -/
  | sleepOn (dev block size : Nat)
  /-- In `read_buffers`, asleep in `ll_rw_block`. -/
  | reading (all : List Nat) (f : Finish)
  /-- In the loop of `read_buffers`. -/
  | read (todo all : List Nat) (f : Finish)
  /-- `set_blocksize` behind its `sync_buffers`. -/
  | setSize (dev size : Nat)
  /-- At the head of the loop of `set_blocksize`. -/
  | unhash (dev size i bh : Nat)

/-! ### What a task holds -/

/-- The buffers whose `b_count` the search has raised. -/
def Search.refs : Search → List Nat
  | .check _ _ _ acc _ => acc
  | _ => []

/-- The heads on no list. -/
def Search.heads : Search → List Nat
  | .load _ heads _ _ => heads
  | _ => []

/-- The page whose `mem_map` is raised. -/
def Search.hold : Search → Option Nat
  | .check page _ _ _ _ => some (mapNr page)
  | _ => none

/-- The page of the process. -/
def Search.address : Search → Option Nat
  | .getblk => none
  | .share address _ => some address
  | .check _ address _ _ _ => some address
  | .load address _ _ _ => some address

def Finish.heads : Finish → List Nat
  | .notAligned heads => heads
  | _ => []

def Finish.hold : Finish → Option Nat
  | .mapped page _ => some (mapNr page)
  | .noGo page => some (mapNr page)
  | .loaded address => some (mapNr address)
  | _ => none

def Finish.address : Finish → Option Nat
  | .mapped _ address => some address
  | _ => none

def After.refs (bh : Nat) : After → List Nat
  | .found _ _ _ k => bh :: k.refs
  | .victim _ _ _ => []
  | .unhash _ _ _ _ => []
  | .read _ all _ => all
  | .release l _ => bh :: l

def After.heads : After → List Nat
  | .found _ _ _ k => k.heads
  | .read _ _ f => f.heads
  | .release _ f => f.heads
  | _ => []

def After.hold : After → Option Nat
  | .found _ _ _ k => k.hold
  | .read _ _ f => f.hold
  | .release _ f => f.hold
  | _ => none

def After.address : After → Option Nat
  | .found _ _ _ k => k.address
  | .read _ _ f => f.address
  | .release _ f => f.address
  | _ => none

namespace Pc

def refs : Pc → List Nat
  | .search _ _ _ k => k.refs
  | .wait bh k => bh :: k.refs bh
  | .after bh k => k.refs bh
  | .io bh _ => [bh]
  | .reading all _ => all
  | .read _ all _ => all
  | _ => []

def heads : Pc → List Nat
  | .search _ _ _ k => k.heads
  | .wait _ k => k.heads
  | .after _ k => k.heads
  | .reading _ f => f.heads
  | .read _ _ f => f.heads
  | _ => []

def hold : Pc → Option Nat
  | .search _ _ _ k => k.hold
  | .wait _ k => k.hold
  | .after _ k => k.hold
  | .reading _ f => f.hold
  | .read _ _ f => f.hold
  | _ => none

def address : Pc → Option Nat
  | .search _ _ _ k => k.address
  | .wait _ k => k.address
  | .after _ k => k.address
  | .reading _ f => f.address
  | .read _ _ f => f.address
  | _ => none

/-- The task sleeps, or is outside the buffer cache. -/
def asleep : Pc → Bool
  | .idle => true
  | .wait _ _ => true
  | .sync _ => true
  | .io _ _ => true
  | .sleepOn _ _ _ => true
  | .reading _ _ => true
  | _ => false

end Pc

/-- A buffer that `getblk` has returned, and for which block. -/
structure Ref where
  bh : Nat
  dev : Nat
  block : Nat
  size : Nat
  deriving DecidableEq

/-- The cache and the tasks; `maps` counts the pages mapped into processes. -/
structure Sys (ι : Type) where
  cache : Cache
  pc : ι → Pc
  /-- The task that runs; the others sleep or are outside the buffer cache. -/
  cpu : Option ι
  /-- The buffers that a task has got and not released. -/
  own : ι → List Ref
  maps : Nat → Nat

/-- What a step finds: a page and heads for `grow_buffers` and `create_buffers`, whether there is
memory, a buffer that `sync_buffers` writes, and a stale `b_next_free`. -/
structure Env where
  page : Nat
  heads : Option (List Nat)
  grow : Bool
  more : Bool
  pick : Option Nat
  next : Nat

section Step

variable {ι : Type} [DecidableEq ι]

namespace Sys

/-- The task goes on at `pc`. -/
def goto (t : ι) (pc : Pc) (s : Sys ι) : Sys ι := { s with pc := update s.pc t pc }

/-- The task sleeps at `pc`, or has returned. -/
def block (t : ι) (pc : Pc) (s : Sys ι) : Sys ι :=
  { s with pc := update s.pc t pc, cpu := none }

def raise (bh : Nat) (s : Sys ι) : Sys ι :=
  { s with cache := { s.cache with
    count := update s.cache.count bh (s.cache.count bh + 1) } }

def drop (bh : Nat) (s : Sys ι) : Sys ι :=
  { s with cache := { s.cache with
    count := update s.cache.count bh (s.cache.count bh - 1) } }

/-- `wait_on_buffer(bh)`. -/
def waitOn (t : ι) (bh : Nat) (k : After) (s : Sys ι) : Sys ι :=
  if s.cache.lock bh then block t (.wait bh k) (raise bh s) else goto t (.after bh k) s

/-- `free_page(addr)`. -/
def freePage (addr : Nat) (s : Sys ι) : Sys ι :=
  { s with cache := { s.cache with
    memMap := update s.cache.memMap (mapNr addr) (mapLess (s.cache.memMap (mapNr addr))) } }

/-- What follows when all buffers are released. -/
def finish (t : ι) : Finish → Sys ι → Sys ι
  | .done, s => block t .idle s
  | .mapped page address, s =>
    block t .idle
      { freePage address s with
        maps := update s.maps (mapNr page) (s.maps (mapNr page) + 1) }
  | .noGo page, s => block t .idle (freePage page s)
  | .notAligned heads, s => block t .idle { s with cache := s.cache.clear heads }
  | .loaded address, s =>
    block t .idle
      { s with maps := update s.maps (mapNr address) (s.maps (mapNr address) + 1) }

/-- `brelse` for each of the buffers. -/
def release (t : ι) (f : Finish) : List Nat → Sys ι → Sys ι
  | [], s => finish t f s
  | bh :: l, s => waitOn t bh (.release l f) s

/-- `getblk` returns `bh`. -/
def gotBlock (t : ι) (r : Ref) (s : Sys ι) : Sys ι :=
  block t .idle { s with own := update s.own t (r :: s.own t) }

/-- The loop of `check_aligned` from `offset` on. -/
def checkNext (t : ι) (dev size page address offset : Nat) (acc b : List Nat) (s : Sys ι) : Sys ι :=
  if offset < pageSize then
    match b with
    | [] => release t (.noGo page) acc s
    | block :: b =>
      if block = 0 then release t (.noGo page) acc s
      else goto t (.search dev block size (.check page address offset acc b)) s
  else block t (.reading acc.reverse (.mapped page address)) s

/-- The first loop of `try_to_load_aligned`, and what follows it. -/
def loadNext (t : ι) (dev size address : Nat) (heads b : List Nat) : List Nat → Sys ι → Sys ι
  | block :: rest, s =>
    if block = 0 then finish t (.notAligned heads) s
    else goto t (.search dev block size (.load address heads b rest)) s
  | [], s =>
    let c := s.cache.insertAll dev (heads.zip b)
    block t (.reading ((heads.zip b).map Prod.fst) (.loaded address))
      { s with cache := { c with
        memMap := update c.memMap (mapNr address) (mapAgain (c.memMap (mapNr address))) } }

/-- `get_hash_table` has returned `r`. -/
def answer (t : ι) (env : Env) (dev block size : Nat) (r : Option Nat) :
    Search → Sys ι → Sys ι
  | .getblk, s =>
    match r with
    | some bh =>
      let cache := if s.cache.uptodate bh && !s.cache.dirt bh then s.cache.putLastFree bh
        else s.cache
      gotBlock t ⟨bh, dev, block, size⟩ { s with cache := cache }
    | none =>
      let cache := if env.grow then s.cache.growBuffers size env.page env.heads else s.cache
      goto t (.scan dev block size) { s with cache := cache }
  | .share address b, s =>
    match r with
    | some first =>
      let page := s.cache.data first
      if page % pageSize ≠ 0 then release t .done [first] s
      else
        checkNext t dev size page address size [first] b.tail
          { s with cache := { s.cache with
            memMap := update s.cache.memMap (mapNr page)
              (mapAgain (s.cache.memMap (mapNr page))) } }
    | none =>
      match env.heads with
      | none => Sys.block t .idle s
      | some heads =>
        if heads.length * size = pageSize then
          loadNext t dev size address heads b b
            { s with cache := s.cache.createBuffers address size heads }
        else Sys.block t .idle s
  | .check page address offset acc b, s =>
    match r with
    | some bh =>
      if page + offset ≠ s.cache.data bh then release t (.noGo page) (bh :: acc) s
      else checkNext t dev size page address (offset + size) (bh :: acc) b s
    | none => release t (.noGo page) acc s
  | .load address heads b rest, s =>
    match r with
    | some tmp => release t (.notAligned heads) [tmp] s
    | none => loadNext t dev size address heads b rest s

/-- A task that has slept, or need not sleep, in `wait_on_buffer(bh)`. -/
def resume (t : ι) (env : Env) (bh : Nat) : After → Sys ι → Sys ι
  | .found dev block size k, s =>
    if s.cache.dev bh = dev ∧ s.cache.blocknr bh = block ∧ s.cache.size bh = size then
      answer t env dev block size (some bh) k s
    else goto t (.search dev block size k) (drop bh s)
  | .victim dev block size, s =>
    if s.cache.count bh ≠ 0 ∨ s.cache.size bh ≠ size then
      goto t (.search dev block size .getblk) s
    else if s.cache.dirt bh then Sys.block t (.sync (.getblk dev block size)) s
    else if (s.cache.findBuffer dev block size).isSome then
      goto t (.search dev block size .getblk) s
    else
      gotBlock t ⟨bh, dev, block, size⟩ { s with cache := s.cache.reassign bh dev block }
  | .unhash dev size i bhnext, s =>
    let c := if s.cache.dev bh = dev ∧ s.cache.size bh ≠ size then
        { s.cache with
          uptodate := update s.cache.uptodate bh false
          dirt := update s.cache.dirt bh false }
      else s.cache
    goto t (.unhash dev size i bhnext) { s with cache := c.removeFromHashQueue bh }
  | .read todo all f, s => goto t (.read todo all f) s
  | .release l f, s => release t f l (drop bh s)

/-- What the running task does next. -/
def run (t : ι) (env : Env) (s : Sys ι) : Option (Sys ι) :=
  match s.pc t with
  | .search dev block size k =>
    match s.cache.findBuffer dev block size with
    | none => some (answer t env dev block size none k s)
    | some bh => some (waitOn t bh (.found dev block size k) (raise bh s))
  | .scan dev block size =>
    match s.cache.pickVictim size s.cache.ring none with
    | some bh => some (waitOn t bh (.victim dev block size) s)
    | none =>
      if env.more then
        some (goto t (.search dev block size .getblk)
          { s with cache := s.cache.growBuffers size env.page env.heads })
      else some (Sys.block t (.sleepOn dev block size) s)
  | .after bh k => some (resume t env bh k s)
  | .read todo all f =>
    match todo with
    | [] => some (release t f all.reverse s)
    | bh :: todo => some (waitOn t bh (.read todo all f) s)
  | .setSize dev size =>
    some (goto t (.unhash dev size (2 * s.cache.ring.length) (s.cache.ring.headD 0))
      { s with cache := { s.cache with blksize := update s.cache.blksize dev size } })
  | .unhash dev size i bh =>
    if i - 1 = 0 ∨ bh = 0 then some (Sys.block t .idle s)
    else
      let bhnext := if bh ∈ s.cache.ring then s.cache.nextFree bh else env.next
      if s.cache.dev bh ≠ dev ∨ s.cache.size bh = size then
        some (goto t (.unhash dev size (i - 1) bhnext) s)
      else some (waitOn t bh (.unhash dev size (i - 1) bhnext) s)
  | _ => none

/-- A task that sleeps is woken up. -/
def wake (t : ι) (env : Env) (s : Sys ι) : Option (Sys ι) :=
  match s.pc t with
  | .wait bh k =>
    if s.cache.lock bh then none
    else some (goto t (.after bh k) { drop bh s with cpu := some t })
  | .sleepOn dev block size =>
    some (goto t (.search dev block size .getblk) { s with cpu := some t })
  | .sync k =>
    match env.pick with
    | some bh => some (goto t (.io bh k) (raise bh s))
    | none =>
      match k with
      | .getblk dev block size =>
        some (goto t (.search dev block size .getblk) { s with cpu := some t })
      | .setBlocksize dev size => some (goto t (.setSize dev size) { s with cpu := some t })
  | .io bh k =>
    let s := drop bh s
    some (goto t (.sync k)
      { s with cache := { s.cache with
        lock := update s.cache.lock bh true
        dirt := update s.cache.dirt bh false } })
  | .reading all f => some (goto t (.read all all f) { s with cpu := some t })
  | _ => none

end Sys

/-! ## The steps of the system -/

/-- What a task outside the buffer cache may ask for. -/
inductive Call where
  | getblk (dev block size : Nat)
  | brelse (r : Ref)
  /-- `breada` gives up a buffer that it has only marked for reading. -/
  | forget (r : Ref)
  | breadPage (address dev : Nat) (b : List Nat) (size : Nat)
  | setBlocksize (dev size : Nat)
  | tryToFree (bh : Nat)

/-- A task enters the buffer cache. -/
def Sys.call (t : ι) (s : Sys ι) : Call → Sys ι
  | .getblk dev block size =>
    goto t (.search dev block size .getblk) { s with cpu := some t }
  | .brelse r =>
    release t .done [r.bh]
      { s with cpu := some t, own := update s.own t ((s.own t).erase r) }
  | .forget r => drop r.bh { s with own := update s.own t ((s.own t).erase r) }
  | .breadPage address dev b size =>
    if b.headD 0 = 0 then s
    else goto t (.search dev (b.headD 0) size (.share address b)) { s with cpu := some t }
  | .setBlocksize dev size =>
    if s.cache.hasBlksize dev = false then s
    else if s.cache.blksize dev = 0 ∧ size = 1024 then
      { s with cache := { s.cache with blksize := update s.cache.blksize dev size } }
    else if s.cache.blksize dev = size then s
    else goto t (.sync (.setBlocksize dev size)) s
  | .tryToFree bh => { s with cache := s.cache.tryToFree bh }

inductive SysEvent (ι : Type) where
  | call (t : ι) (c : Call)
  | run (t : ι) (env : Env)
  | wake (t : ι) (env : Env)
  /-- The request for the buffer is done. -/
  | unlock (bh : Nat) (uptodate : Bool)
  /-- A request for the buffer is made. -/
  | lock (bh : Nat)
  | dirty (bh : Nat)
  /-- A process gives up a page it has mapped. -/
  | unmap (page : Nat)

/-- One step of the system. -/
def Sys.step (s : Sys ι) : SysEvent ι → Option (Sys ι)
  | .call t c =>
    match s.cpu, s.pc t with
    | none, .idle => some (s.call t c)
    | _, _ => none
  | .run t env => if s.cpu = some t then s.run t env else none
  | .wake t env => if s.cpu = none then s.wake t env else none
  | .unlock bh uptodate =>
    some { s with cache := { s.cache with
      lock := update s.cache.lock bh false
      uptodate := update s.cache.uptodate bh uptodate } }
  | .lock bh =>
    if s.cpu = none then
      some { s with cache := { s.cache with
        lock := update s.cache.lock bh true
        dirt := update s.cache.dirt bh false } }
    else none
  | .dirty bh =>
    if s.cpu = none then
      some { s with cache := { s.cache with dirt := update s.cache.dirt bh true } }
    else none
  | .unmap page =>
    if s.cpu = none ∧ 0 < s.maps page then
      some { s with
        cache := { s.cache with
          memMap := update s.cache.memMap page (mapLess (s.cache.memMap page)) }
        maps := update s.maps page (s.maps page - 1) }
    else none

/-- The block size that callers use. -/
def Cache.blockSize (c : Cache) (dev : Nat) : Nat :=
  if c.hasBlksize dev = true ∧ c.blksize dev ≠ 0 then c.blksize dev else 1024

/-- Heads from `unused_list`. -/
def FreshUnused (s : Sys ι) (heads : List Nat) : Prop :=
  heads.Nodup ∧ ∀ x ∈ heads, x ≠ 0 ∧ x ∉ s.cache.ring ∧ ∀ t, x ∉ (s.pc t).heads

/-- No buffer is on the page. -/
def Unbuffered (s : Sys ι) (page : Nat) : Prop :=
  page % pageSize = 0 ∧ ∀ x ∈ s.cache.ring, mapNr (s.cache.data x) ≠ mapNr page

/-- The page that a process has passed to `bread_page` is its own. -/
def Private (s : Sys ι) (t : ι) (address : Nat) : Prop :=
  Unbuffered s address ∧ s.cache.memMap (mapNr address) = 1 ∧ s.maps (mapNr address) = 0 ∧
    ∀ u, u ≠ t → (s.pc u).hold ≠ some (mapNr address)

/-- What the rest of the kernel promises: callers use the block size of the device and release
what they hold, free pages and unused heads are that, and a process passes a page of its own. -/
def SysAllowed (s : Sys ι) : SysEvent ι → Prop
  | .call _ (.getblk dev _ size) => size = s.cache.blockSize dev
  | .call t (.brelse r) => r ∈ s.own t
  | .call t (.forget r) => r ∈ s.own t
  | .call _ (.breadPage _ dev b size) => size = s.cache.blockSize dev ∧ b.length * size = pageSize
  | .call _ (.setBlocksize dev size) => dev ≠ 0 ∧ size ∈ [512, 1024, 2048, 4096]
  | .call _ (.tryToFree bh) => bh ∈ s.cache.ring
  | .run t env =>
    (∀ heads, env.heads = some heads → FreshUnused s heads) ∧
      Unbuffered s env.page ∧ s.cache.memMap (mapNr env.page) = 0 ∧
      ∀ address, (s.pc t).address = some address → Private s t address
  | .wake _ env => ∀ bh, env.pick = some bh → bh ∈ s.cache.ring
  | .unlock _ _ => True
  | .lock bh => bh ∈ s.cache.ring
  | .dirty bh => bh ∈ s.cache.ring
  | .unmap _ => True

/-- No `b_count` of the cache can pass 65535 in the step, which raises it by two at most. -/
def Sys.CountsFit (s : Sys ι) : Prop := ∀ x ∈ s.cache.ring, s.cache.count x + 2 < 2 ^ 16

instance (s : Sys ι) : Decidable s.CountsFit := inferInstanceAs (Decidable (∀ x ∈ _, _))

/-- Before the first buffer. -/
def Sys.init (hasBlksize : Nat → Bool) (blksize : Nat → Nat) (memMap : Nat → Nat) : Sys ι :=
  { cache :=
      { ring := []
        queue := fun _ => []
        dev := fun _ => 0
        blocknr := fun _ => 0
        size := fun _ => 0
        data := fun _ => 0
        count := fun _ => 0
        dirt := fun _ => false
        lock := fun _ => false
        uptodate := fun _ => false
        memMap := memMap
        hasBlksize := hasBlksize
        blksize := blksize }
    pc := fun _ => .idle
    cpu := none
    own := fun _ => []
    maps := fun _ => 0 }

end Step

end LinuxEvocation.Fs.Buffer
