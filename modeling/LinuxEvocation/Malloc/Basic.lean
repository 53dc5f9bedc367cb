import LinuxEvocation.Lib.LinkedList
import LinuxEvocation.Lib.Transition

/-!
# The kernel memory allocator: `kmalloc` and `kfree_s`

Each page ("bucket") holds objects of one size.  Its control block, a bucket descriptor,
is on the chain of its size in `bucket_dir` or, when it has no page, on the list
`free_bucket_desc`; the free objects of the page are threaded through the objects
themselves.  `kmalloc` enables interrupts, and may sleep, while it asks for a page of
descriptors, while it initialises that page, while it asks for a page of objects and
while it threads the free list through that page.

* `BucketDesc`, `Call`, `State` — the data, and where each call of `kmalloc` stands.
* `kmalloc`, `getFreePage`, `proceed` — the code between two points where interrupts are
  enabled.
* `kfreeS` — `kfree_s`, which runs with interrupts disabled.
* `Event`, `stepOut` — one step of the kernel; the callers' stores are steps too.

The allocator is modelled as built without `CONFIG_DEBUG_MALLOC`.
-/

namespace LinuxEvocation.Malloc

open Function (update)
open LinkedList

/-! ## The data -/

/-- `struct bucket_desc`. -/
structure BucketDesc where
  page : Nat
  next : Nat
  freeptr : Nat
  refcnt : Nat
  bucketSize : Nat
  deriving DecidableEq

def pageSize : Nat := 4096

/-- `sizeof(struct bucket_desc)`. -/
def descSize : Nat := 16

/-- `PAGE_SIZE/sizeof(struct bucket_desc)`. -/
def descsPerPage : Nat := 256

/-- The sizes of `bucket_dir`, without the end marker.  An entry of `bucket_dir` is named by
its size. -/
def bucketSizes : List Nat := [16, 32, 64, 128, 256, 512, 1024, 2048, 4096]

/-- `(unsigned long) obj & PAGE_MASK`. -/
def pageOf (obj : Nat) : Nat := obj / pageSize * pageSize

/-- Where a call `kmalloc(len)` stands, `size` being the entry of `bucket_dir` it uses. -/
inductive Call where
  /-- No call in progress. -/
  | idle
  /-- In `__get_free_page`, for a page of descriptors. -/
  | needDescPage (len size : Nat)
  /-- In `init_bucket_desc(page)`, `k` descriptors linked. -/
  | initDesc (len size page k : Nat)
  /-- In `__get_free_page`, for a page of objects; the call holds `bdesc`. -/
  | needPage (len size bdesc : Nat)
  /-- "Set up the chain of free objects", `k` of them done. -/
  | setUp (len size bdesc page k : Nat)
  deriving DecidableEq

/-- The lists a descriptor can be on. -/
inductive Queue where
  | free
  | bucket (size : Nat)
  deriving DecidableEq

/-- The allocator, its callers and the memory. -/
structure State (ι : Type*) where
  /-- The bucket descriptors, by address. -/
  desc : Nat → BucketDesc
  /-- The `chain` of each entry of `bucket_dir`. -/
  chain : Nat → Nat
  freeBucketDesc : Nat
  /-- The words of memory outside the pages of descriptors. -/
  mem : Nat → Nat
  call : ι → Call
  /-- The objects handed out and not yet freed, with the length asked for. -/
  live : Nat → Option Nat
  /-- The pages obtained from `__get_free_page` and not yet given to `free_page`. -/
  outstanding : Nat → Bool
  /-- Those of them that became pages of descriptors. -/
  descPages : List Nat

variable {ι : Type*}

namespace State

/-- `bdesc->next`. -/
def next (s : State ι) (d : Nat) : Nat := (s.desc d).next

/-- `bdesc->next = v`. -/
def setNext (s : State ι) (d v : Nat) : State ι :=
  { s with desc := update s.desc d { s.desc d with next := v } }

/-- The first descriptor of a list. -/
def head (s : State ι) : Queue → Nat
  | .free => s.freeBucketDesc
  | .bucket size => s.chain size

/-- How many descriptors there are: no list is longer. -/
def descCount (s : State ι) : Nat := descsPerPage * s.descPages.length

/-- `d` is a bucket descriptor. -/
def IsDesc (s : State ι) (d : Nat) : Prop :=
  ∃ p ∈ s.descPages, ∃ k < descsPerPage, d = p + descSize * k

end State

/-- What a step does that its callers, or the rest of the kernel, see. -/
inductive Output (ι : Type*) where
  /-- `kmalloc` returns. -/
  | returns (c : ι) (retval : Nat)
  | freePage (page : Nat)
  /-- "kmalloc called with impossibly large argument (%d)". -/
  | tooLarge (len : Nat)
  /-- "Bad address passed to kernel kfree_s(%X, %d)". -/
  | badAddress (obj size : Nat)
  /-- "kmalloc bucket chains corrupted". -/
  | panic
  deriving DecidableEq

/-! ## `kmalloc` -/

/-- "First we search the bucket_dir to find the right bucket change for this request." -/
def findBucket (len : Nat) : List Nat → Option Nat
  | [] => none
  | size :: rest => if size < len then findBucket len rest else some size

section Code

variable [DecidableEq ι]

/-- From the label `found_bdesc` to the return. -/
def foundBdesc (c : ι) (len bdesc : Nat) (s : State ι) : State ι × List (Output ι) :=
  let retval := (s.desc bdesc).freeptr
  ({ s with
     desc := update s.desc bdesc
       { s.desc bdesc with
         freeptr := s.mem retval
         refcnt := (s.desc bdesc).refcnt + 1 }
     call := update s.call c .idle
     live := update s.live retval (some len) }, [.returns c retval])

/-- `bdesc = free_bucket_desc; free_bucket_desc = bdesc->next`. -/
def takeDesc (c : ι) (len size : Nat) (s : State ι) : State ι :=
  { s with
    freeBucketDesc := s.next s.freeBucketDesc
    call := update s.call c (.needPage len size s.freeBucketDesc) }

/-- `kmalloc`, up to the first point where interrupts are enabled. -/
def kmalloc (c : ι) (len : Nat) (s : State ι) : State ι × List (Output ι) :=
  match findBucket len bucketSizes with
  | none => (s, [.tooLarge len, .returns c 0])
  | some size =>
    -- "Now we search for a bucket descriptor which has free space"
    match findOn 0 s.next (fun d => (s.desc d).freeptr ≠ 0) s.descCount 0 (s.chain size) with
    | some (_, bdesc) => foundBdesc c len bdesc s
    | none =>
      if s.freeBucketDesc = 0 then
        ({ s with call := update s.call c (.needDescPage len size) }, [])
      else (takeDesc c len size s, [])

/-- `__get_free_page` returns `page` to a call that asked for one. -/
def getFreePage (c : ι) (page : Nat) (s : State ι) : Option (State ι × List (Output ι)) :=
  match s.call c with
  | .needDescPage len size =>
    if page = 0 then
      some ({ s with call := update s.call c .idle }, [.returns c 0])
    else
      some ({ s with
              call := update s.call c (.initDesc len size page 0)
              outstanding := update s.outstanding page true
              descPages := page :: s.descPages }, [])
  | .needPage len size bdesc =>
    if page = 0 then
      -- "Put the bucket descriptor back on the free list"
      let s := s.setNext bdesc s.freeBucketDesc
      some ({ s with
              freeBucketDesc := bdesc
              call := update s.call c .idle }, [.returns c 0])
    else
      some ({ s with
              desc := update s.desc bdesc
                { s.desc bdesc with
                  refcnt := 0
                  bucketSize := size
                  page := page
                  freeptr := page }
              call := update s.call c (.setUp len size bdesc page 0)
              outstanding := update s.outstanding page true }, [])
  | _ => none

/-- The next step of a call inside one of its two loops. -/
def proceed (c : ι) (s : State ι) : Option (State ι × List (Output ι)) :=
  match s.call c with
  | .initDesc len size page k =>
    if k + 1 < descsPerPage then
      let s := s.setNext (page + descSize * k) (page + descSize * (k + 1))
      some ({ s with call := update s.call c (.initDesc len size page (k + 1)) }, [])
    else
      -- interrupts are disabled from here until a descriptor is taken
      let s := s.setNext (page + descSize * k) s.freeBucketDesc
      some (takeDesc c len size { s with freeBucketDesc := page }, [])
  | .setUp len size bdesc page k =>
    if k < pageSize / size then
      some ({ s with
              mem := update s.mem (page + k * size)
                (if k + 1 = pageSize / size then 0 else page + k * size + size)
              call := update s.call c (.setUp len size bdesc page (k + 1)) }, [])
    else
      -- "OK, link it in!"
      let s := s.setNext bdesc (s.chain size)
      some (foundBdesc c len bdesc
        { s with chain := update s.chain size bdesc })
  | _ => none

end Code

/-! ## `kfree_s` -/

/-- "Now search the buckets looking for that page": the entry of `bucket_dir`, `prev` and
`bdesc`. -/
def findPage (s : State ι) (page size : Nat) : List Nat → Option (Nat × Nat × Nat)
  | [] => none
  | bsize :: rest =>
    if bsize ≥ size then
      match findOn 0 s.next (fun d => (s.desc d).page = page) s.descCount 0 (s.chain bsize) with
      | some (prev, bdesc) => some (bsize, prev, bdesc)
      | none => findPage s page size rest
    else findPage s page size rest

/-- "We need to make sure that prev is still accurate." -/
def checkPrev (bsize prev bdesc : Nat) (s : State ι) : Nat :=
  if (prev ≠ 0 ∧ s.next prev ≠ bdesc) ∨ (prev = 0 ∧ s.chain bsize ≠ bdesc) then
    match findOn 0 s.next (fun q => s.next q = bdesc) s.descCount 0 (s.chain bsize) with
    | some (_, q) => q
    | none => 0
  else prev

/-- The descriptor goes back on the free list and its page to the system. -/
def retire (bdesc : Nat) (s : State ι) : State ι × List (Output ι) :=
  let s := s.setNext bdesc s.freeBucketDesc
  ({ s with
     freeBucketDesc := bdesc
     outstanding := update s.outstanding (s.desc bdesc).page false },
   [.freePage (s.desc bdesc).page])

/-- `*((void **)obj) = bdesc->freeptr; bdesc->freeptr = obj; bdesc->refcnt--`. -/
def putObject (obj bdesc : Nat) (s : State ι) : State ι :=
  { s with
    mem := update s.mem obj (s.desc bdesc).freeptr
    desc := update s.desc bdesc
      { s.desc bdesc with
        freeptr := obj
        refcnt := (s.desc bdesc).refcnt - 1 }
    live := update s.live obj none }

/-- From the label `found` to the return. -/
def found (obj bsize prev bdesc : Nat) (s : State ι) : State ι × List (Output ι) :=
  let s := putObject obj bdesc s
  if (s.desc bdesc).refcnt = 0 then
    let prev := checkPrev bsize prev bdesc s
    if prev ≠ 0 then retire bdesc (s.setNext prev (s.next bdesc))
    else if s.chain bsize ≠ bdesc then (s, [.panic])
    else retire bdesc { s with chain := update s.chain bsize (s.next bdesc) }
  else (s, [])

/-- `kfree_s(obj, size)`. -/
def kfreeS (obj size : Nat) (s : State ι) : State ι × List (Output ι) :=
  if obj = 0 then (s, [])
  else
    match findPage s (pageOf obj) size bucketSizes with
    | none => (s, [.badAddress obj size])
    | some (bsize, prev, bdesc) => found obj bsize prev bdesc s

/-! ## The steps of the kernel -/

inductive Event (ι : Type*) where
  | kmalloc (c : ι) (len : Nat)
  /-- `__get_free_page` returns to a call of `kmalloc`; 0 means it found none. -/
  | getFreePage (c : ι) (page : Nat)
  /-- A call goes on in one of its loops. -/
  | proceed (c : ι)
  | kfreeS (obj size : Nat)
  /-- Somebody stores a word into an object he holds, or into a page that is not the
  allocator's. -/
  | store (a v : Nat)
  deriving DecidableEq

/-- The word at `a` belongs to a live object. -/
def InObject (s : State ι) (a : Nat) : Prop :=
  ∃ obj len, s.live obj = some len ∧ obj ≤ a ∧ a < obj + len

/-- What the rest of the kernel promises: `__get_free_page` returns fresh, page-aligned
pages; only live objects are freed, with the size 0 or at most the one asked for; nobody
stores outside his objects. -/
def Allowed (s : State ι) : Event ι → Prop
  | .kmalloc c _ => s.call c = .idle
  | .getFreePage _ page => page = 0 ∨ page % pageSize = 0 ∧ s.outstanding page = false
  | .proceed _ => True
  | .kfreeS obj size => obj = 0 ∨ ∃ len, s.live obj = some len ∧ size ≤ len
  | .store a _ => InObject s a ∨ s.outstanding (pageOf a) = false

/-- One step and what is seen of it. -/
def stepOut [DecidableEq ι] (s : State ι) : Event ι → Option (State ι × List (Output ι))
  | .kmalloc c len => some (kmalloc c len s)
  | .getFreePage c page => getFreePage c page s
  | .proceed c => proceed c s
  | .kfreeS obj size => some (kfreeS obj size s)
  | .store a v => some ({ s with mem := update s.mem a v }, [])

/-- One step. -/
def step [DecidableEq ι] (s : State ι) (e : Event ι) : Option (State ι) :=
  (stepOut s e).map Prod.fst

/-- The allocator before its first use; nothing is said about the contents of memory. -/
def State.init (desc : Nat → BucketDesc) (mem : Nat → Nat) : State ι where
  desc := desc
  chain _ := 0
  freeBucketDesc := 0
  mem := mem
  call _ := .idle
  live _ := none
  outstanding _ := false
  descPages := []

end LinuxEvocation.Malloc
