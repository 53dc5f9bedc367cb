import LinuxEvocation.Mm.Page
import LinuxEvocation.Lib.Circular
import LinuxEvocation.Lib.Transition

/-!
# The queues of the buffer cache

Every buffer head in use is on the circular list `free_list`, whether it is free or not, and, if
it belongs to a device, on the hash queue of its block.  The heads of one page of buffers are
linked through `b_this_page`; heads without a buffer are on `unused_list`.

* `FreeLinks`, `HashLinks`, `State` — the links and the buffer heads.
* `removeFromFreeList`, `addToBack`, `putLastFree` — `free_list`.
* `removeFromHashQueue`, `insertIntoHashQueue` — the hash queues.
* `createBuffers`, `growBuffers`, `makeAligned`, `loadAligned`, `tryToFree` — whole pages of
  buffers.
* `Event`, `step` — one step of the kernel.  Only `try_to_load_aligned` sleeps, while its heads are
  on no list.

A store through a null pointer, and the panic of `remove_from_free_list`, have no next state.
-/

namespace LinuxEvocation.Fs.Buffer

open Function (update)
open LinuxEvocation.Mm

/-! ## `free_list` -/

/-- `b_next_free`, `b_prev_free` and `free_list`. -/
structure FreeLinks where
  nextFree : Nat → Nat
  prevFree : Nat → Nat
  freeList : Nat

/-- `remove_from_free_list(bh)`; `none` for "VFS: Free block list corrupted". -/
def removeFromFreeList (bh : Nat) (f : FreeLinks) : Option FreeLinks :=
  if f.prevFree bh = 0 ∨ f.nextFree bh = 0 then none
  else
    some
      { nextFree := update
          (update f.nextFree (f.prevFree bh) (f.nextFree bh)) bh 0
        prevFree := update
          (update f.prevFree (f.nextFree bh) (f.prevFree bh)) bh 0
        freeList := if f.freeList = bh then f.nextFree bh else f.freeList }

/-- The stores that put `bh` at the end of the free list. -/
def linkBehind (bh : Nat) (f : FreeLinks) : FreeLinks :=
  { f with
    nextFree := update (update f.nextFree bh f.freeList)
      (f.prevFree f.freeList) bh
    prevFree := update (update f.prevFree bh (f.prevFree f.freeList))
      f.freeList bh }

/-- "put at end of free list": with an empty list this follows a null pointer. -/
def addToBack (bh : Nat) (f : FreeLinks) : Option FreeLinks :=
  if f.freeList = 0 ∨ f.prevFree f.freeList = 0 then none else some (linkBehind bh f)

/-- `put_last_free(bh)`. -/
def putLastFree (bh : Nat) (f : FreeLinks) : Option FreeLinks :=
  if bh = 0 then some f
  else if bh = f.freeList then some { f with freeList := f.nextFree bh }
  else (removeFromFreeList bh f).bind (addToBack bh)

/-- One head joins the list in `grow_buffers`, in front. -/
def spliceFirst (tmp : Nat) (f : FreeLinks) : Option FreeLinks :=
  if f.freeList ≠ 0 then
    (addToBack tmp f).map fun f => { f with freeList := tmp }
  else
    some
      { nextFree := update f.nextFree tmp tmp
        prevFree := update f.prevFree tmp tmp
        freeList := tmp }

/-! ## The hash queues -/

/-- `b_next`, `b_prev` and `hash_table`. -/
structure HashLinks where
  next : Nat → Nat
  prev : Nat → Nat
  table : Nat → Nat

/-- `_hashfn(dev, block)`. -/
def hashfn (dev block : Nat) : Nat := (dev ^^^ block) % 997

/-- `remove_from_hash_queue(bh)`, with `q` the queue of its block. -/
def removeFromHashQueue (q bh : Nat) (h : HashLinks) : HashLinks :=
  { prev := update
      (if h.next bh = 0 then h.prev else update h.prev (h.next bh) (h.prev bh)) bh 0
    next := update
      (if h.prev bh = 0 then h.next else update h.next (h.prev bh) (h.next bh)) bh 0
    table := if h.table q = bh then update h.table q (h.next bh) else h.table }

/-- "put the buffer in new hash-queue if it has a device". -/
def insertIntoHashQueue (dev q bh : Nat) (h : HashLinks) : HashLinks :=
  if dev = 0 then
    { h with next := update h.next bh 0, prev := update h.prev bh 0 }
  else
    { next := update h.next bh (h.table q)
      prev := if h.table q = 0 then update h.prev bh 0
        else update (update h.prev bh 0) (h.table q) bh
      table := update h.table q bh }

/-! ## The buffer heads -/

/-- The buffer heads, the lists they are on, and the counters. -/
structure State where
  free : FreeLinks
  hash : HashLinks
  thisPage : Nat → Nat
  data : Nat → Nat
  size : Nat → Nat
  blocknr : Nat → Nat
  dev : Nat → Nat
  count : Nat → Nat
  dirt : Nat → Bool
  lock : Nat → Bool
  unusedList : Nat
  nrBuffers : Int
  buffermem : Int
  /-- The heads obtained by `get_more_buffer_heads` so far. -/
  heads : List Nat
  /-- The first heads of the pages that `try_to_load_aligned` has made and not yet inserted. -/
  held : List Nat

namespace State

/-- `hash(bh->b_dev, bh->b_blocknr)`. -/
def queue (s : State) (bh : Nat) : Nat := hashfn (s.dev bh) (s.blocknr bh)

end State

/-- `remove_from_queues(bh)`. -/
def removeFromQueues (bh : Nat) (s : State) : Option State :=
  (removeFromFreeList bh s.free).map fun free =>
    { s with hash := removeFromHashQueue (s.queue bh) bh s.hash, free := free }

/-- `insert_into_queues(bh)`. -/
def insertIntoQueues (bh : Nat) (s : State) : Option State :=
  (addToBack bh s.free).map fun free =>
    { s with free := free, hash := insertIntoHashQueue (s.dev bh) (s.queue bh) bh s.hash }

/-- `put_unused_buffer_head(bh)`. -/
def putUnusedBufferHead (bh : Nat) (s : State) : State :=
  { s with
    free := { s.free with
      nextFree := update s.free.nextFree bh s.unusedList
      prevFree := update s.free.prevFree bh 0 }
    hash := { s.hash with
      next := update s.hash.next bh 0
      prev := update s.hash.prev bh 0 }
    thisPage := update s.thisPage bh 0
    data := update s.data bh 0
    size := update s.size bh 0
    blocknr := update s.blocknr bh 0
    dev := update s.dev bh 0
    count := update s.count bh 0
    dirt := update s.dirt bh false
    lock := update s.lock bh false
    unusedList := bh }

/-- The loop of `get_more_buffer_heads` over the heads of the new page, which is cleared. -/
def linkUnused : List Nat → State → State
  | [], s => s
  | bh :: l, s => linkUnused l { putUnusedBufferHead bh s with heads := bh :: s.heads }

/-- `get_more_buffer_heads`, with the heads of the page that `get_free_page(GFP_BUFFER)` would
return. -/
def getMoreBufferHeads (more : Option (List Nat)) (s : State) : State :=
  if s.unusedList ≠ 0 then s
  else
    match more with
    | none => s
    | some l => linkUnused l s

/-- `get_unused_buffer_head`. -/
def getUnusedBufferHead (more : Option (List Nat)) (s : State) : State × Option Nat :=
  let s := getMoreBufferHeads more s
  if s.unusedList = 0 then (s, none)
  else
    let bh := s.unusedList
    ({ s with
       unusedList := s.free.nextFree bh
       free := { s.free with nextFree := update s.free.nextFree bh 0 }
       data := update s.data bh 0
       size := update s.size bh 0 }, some bh)

/-- The label `no_grow`: the heads obtained so far go back. -/
def noGrow : Nat → Nat → State → State
  | 0, _, s => s
  | fuel + 1, bh, s =>
    if bh = 0 then s else noGrow fuel (s.thisPage bh) (putUnusedBufferHead bh s)

/-- The loop of `create_buffers`, `n` heads so far, the last of them `head`. -/
def createLoop (page size : Nat) (more : Nat → Option (List Nat)) :
    Nat → Nat → Nat → Nat → State → State × Option Nat
  | 0, _, _, head, s => (s, some head)
  | fuel + 1, n, offset, head, s =>
    if 0 < size ∧ size ≤ offset then
      match getUnusedBufferHead (more n) s with
      | (s, none) => (noGrow n head s, none)
      | (s, some bh) =>
        createLoop page size more fuel (n + 1) (offset - size) bh
          { s with
            thisPage := update s.thisPage bh head
            data := update s.data bh (page + (offset - size))
            size := update s.size bh size }
    else (s, some head)

/-- `create_buffers(page, size)`; the answer 0 is the null pointer. -/
def createBuffers (page size : Nat) (more : Nat → Option (List Nat)) (s : State) :
    State × Nat :=
  match createLoop page size more pageSize 0 pageSize 0 s with
  | (s, none) => (s, 0)
  | (s, some head) => (s, head)

/-- The loop of `grow_buffers` over the heads of the page, from `tmp` on. -/
def spliceLoop (bh : Nat) : Nat → Nat → State → Option State
  | 0, _, _ => none
  | fuel + 1, tmp, s =>
    (spliceFirst tmp s.free).bind fun free =>
      let s := { s with free := free, nrBuffers := s.nrBuffers + 1 }
      if s.thisPage tmp ≠ 0 then spliceLoop bh fuel (s.thisPage tmp) s
      else
        some { s with
          thisPage := update s.thisPage tmp bh
          buffermem := s.buffermem + pageSize }

/-- `grow_buffers(size)`, with the page `__get_free_page(GFP_BUFFER)` returns, 0 for none. -/
def growBuffers (size page : Nat) (more : Nat → Option (List Nat)) (s : State) : Option State :=
  if size % 512 ≠ 0 ∨ size > pageSize then some s
  else if page = 0 then some s
  else
    match createBuffers page size more s with
    | (s, bh) => if bh = 0 then some s else spliceLoop bh s.heads.length bh s

/-- The second loop of `try_to_load_aligned` over the heads of the page. -/
def loadLoop (first dev : Nat) : Nat → Nat → List Nat → State → Option State
  | 0, _, _, _ => none
  | fuel + 1, bh, p, s =>
    (insertIntoQueues bh
      { s with
        count := update s.count bh 1
        dirt := update s.dirt bh false
        dev := update s.dev bh dev
        blocknr := update s.blocknr bh (p.headD 0)
        nrBuffers := s.nrBuffers + 1 }).bind fun s =>
      if s.thisPage bh ≠ 0 then loadLoop first dev fuel (s.thisPage bh) p.tail s
      else
        some { s with
          buffermem := s.buffermem + pageSize
          thisPage := update s.thisPage bh first }

/-- `try_to_load_aligned` up to its first loop, which may sleep in `get_hash_table`. -/
def makeAligned (address size : Nat) (more : Nat → Option (List Nat)) (s : State) : State :=
  match createBuffers address size more s with
  | (s, bh) => if bh = 0 then s else { s with held := bh :: s.held }

/-- The rest of `try_to_load_aligned` when none of the blocks `b` is in the cache. -/
def loadAligned (bh dev : Nat) (b : List Nat) (s : State) : Option State :=
  loadLoop bh dev s.heads.length bh b { s with held := s.held.erase bh }

/-- The label `not_aligned`. -/
def notAligned (bh : Nat) (s : State) : State :=
  noGrow s.heads.length bh { s with held := s.held.erase bh }

/-- What `getblk` does to the buffer it has chosen. -/
def reassign (bh dev block : Nat) (s : State) : Option State :=
  (removeFromQueues bh
    { s with count := update s.count bh 1, dirt := update s.dirt bh false }).bind
    fun s => insertIntoQueues bh
      { s with
        dev := update s.dev bh dev
        blocknr := update s.blocknr bh block }

/-- The first loop of `try_to_free`: all buffers of the page are unused and clean. -/
def pageIdle (s : State) (bh : Nat) : Nat → Nat → Bool
  | 0, _ => false
  | fuel + 1, tmp =>
    if tmp = 0 then false
    else if s.count tmp ≠ 0 ∨ s.dirt tmp = true ∨ s.lock tmp = true then false
    else if s.thisPage tmp = bh then true
    else pageIdle s bh fuel (s.thisPage tmp)

/-- The second loop of `try_to_free`. -/
def freeLoop (bh : Nat) : Nat → Nat → State → Option State
  | 0, _, _ => none
  | fuel + 1, p, s =>
    let tmp := s.thisPage p
    (removeFromQueues p { s with nrBuffers := s.nrBuffers - 1 }).bind fun s =>
      let s := putUnusedBufferHead p s
      if tmp = bh then some { s with buffermem := s.buffermem - pageSize }
      else freeLoop bh fuel tmp s

/-- `try_to_free(bh, bhp)`. -/
def tryToFree (bh : Nat) (s : State) : Option State :=
  if pageIdle s bh s.heads.length bh then freeLoop bh s.heads.length bh s else some s

/-! ## The steps of the kernel -/

inductive Event where
  | growBuffers (size page : Nat) (more : Nat → Option (List Nat))
  | makeAligned (address size : Nat) (more : Nat → Option (List Nat))
  | loadAligned (bh dev : Nat) (b : List Nat)
  | notAligned (bh : Nat)
  /-- `getblk` gives the buffer to another block. -/
  | reassign (bh dev block : Nat)
  /-- `getblk` finds its block. -/
  | putLastFree (bh : Nat)
  /-- `set_blocksize` takes the buffer out of its hash queue. -/
  | removeFromHashQueue (bh : Nat)
  | tryToFree (bh : Nat)
  /-- A user of the buffer changes what is not a link. -/
  | touch (bh count : Nat) (dirt lock : Bool)

/-- One step. -/
def step (s : State) : Event → Option State
  | .growBuffers size page more => growBuffers size page more s
  | .makeAligned address size more => some (makeAligned address size more s)
  | .loadAligned bh dev b => loadAligned bh dev b s
  | .notAligned bh => some (notAligned bh s)
  | .reassign bh dev block => reassign bh dev block s
  | .putLastFree bh => (putLastFree bh s.free).map fun free => { s with free := free }
  | .removeFromHashQueue bh =>
    some { s with hash := removeFromHashQueue (s.queue bh) bh s.hash }
  | .tryToFree bh => tryToFree bh s
  | .touch bh count dirt lock =>
    some { s with
      count := update s.count bh count
      dirt := update s.dirt bh dirt
      lock := update s.lock bh lock }

/-- The heads on the free list, from `free_list` on, as long as the links lead on. -/
def walk (f : FreeLinks) : Nat → Nat → List Nat
  | 0, _ => []
  | n + 1, bh => bh :: walk f n (f.nextFree bh)

/-- A buffer head in use. -/
def InUse (s : State) (bh : Nat) : Prop := bh ∈ walk s.free s.nrBuffers.toNat s.free.freeList

/-- The page at `page` holds buffers. -/
def PageInUse (s : State) (page : Nat) : Prop := ∃ bh, InUse s bh ∧ pageMask (s.data bh) = page

/-- A page about to hold buffers. -/
def PageHeld (s : State) (page : Nat) : Prop := ∃ bh ∈ s.held, pageMask (s.data bh) = page

/-- The page allocator returns a page that nobody has. -/
def FreshPage (s : State) (page : Nat) : Prop :=
  page % pageSize = 0 ∧ ¬ PageInUse s page ∧ ¬ PageHeld s page

/-- The heads of the pages that `get_more_buffer_heads` may get are new, and all different. -/
def FreshHeads (s : State) (more : Nat → Option (List Nat)) : Prop :=
  (∀ n l, more n = some l → l.Nodup ∧ ∀ bh ∈ l, bh ≠ 0 ∧ bh ∉ s.heads) ∧
    ∀ n n' l l', n ≠ n' → more n = some l → more n' = some l' → ∀ bh ∈ l, bh ∉ l'

/-- What the rest of the kernel promises: the page allocator gives new pages, and the other
functions are called for buffers in use. -/
def Allowed (s : State) : Event → Prop
  | .growBuffers _ page more => FreshPage s page ∧ FreshHeads s more
  | .makeAligned address _ more => FreshPage s address ∧ FreshHeads s more
  | .loadAligned bh _ _ => bh ∈ s.held
  | .notAligned bh => bh ∈ s.held
  | .reassign bh _ _ => InUse s bh
  | .putLastFree bh => InUse s bh
  | .removeFromHashQueue bh => InUse s bh
  | .tryToFree bh => InUse s bh
  | .touch bh _ _ _ => InUse s bh

/-- `x` is reached from `p` along the links. -/
inductive OnList (next : Nat → Nat) : Nat → Nat → Prop
  | here {p : Nat} : p ≠ 0 → OnList next p p
  | there {p x : Nat} : p ≠ 0 → OnList next (next p) x → OnList next p x

/-- A head that has a buffer: it is not on `unused_list`, and its page is made. -/
def Existing (s : State) (bh : Nat) : Prop :=
  bh ∈ s.heads ∧ ¬ OnList s.free.nextFree s.unusedList bh ∧
    ∀ first ∈ s.held, ¬ OnList s.thisPage first bh

/-- The state before `buffer_init`; nothing is said about the contents of memory. -/
def State.init (free : FreeLinks) (hash : HashLinks) (fields : State) : State :=
  { fields with
    free := { free with freeList := 0 }
    hash := { hash with table := fun _ => 0 }
    unusedList := 0
    nrBuffers := 0
    buffermem := 0
    heads := []
    held := [] }

end LinuxEvocation.Fs.Buffer
