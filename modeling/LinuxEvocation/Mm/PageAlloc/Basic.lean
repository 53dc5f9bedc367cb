import LinuxEvocation.Mm.Page
import LinuxEvocation.Lib.LinkedList
import LinuxEvocation.Lib.Transition

/-!
# The page allocator: `__get_free_page`, `free_page` and `mem_init`

The free pages are on two lists, `free_page_list` and `secondary_page_list`, threaded through
the first word of the pages themselves; `mem_map` counts the references to each page.  Both
functions disable interrupts around the part that touches a list.  Everything else, and the
reclaim that `__get_free_page` asks for between its two lists, runs with interrupts enabled
and may sleep, so other calls come in between.

* `State` — the allocator's variables, the references the rest of the kernel holds, and where
  each call stands.
* `removeFromMemQueue`, `addMemQueue` — the two operations on a list.
* `getFreePage`, `freePage`, `proceed` — the code between two points where interrupts are
  enabled.
* `memInit` — the state the kernel boots with.
* `Event`, `stepOut` — one step of the kernel.
-/

namespace LinuxEvocation.Mm.PageAlloc

open Function (update)

/-! ## The data -/

/-- `MAP_PAGE_RESERVED`, the top bit of an entry of `mem_map`. -/
def mapPageReserved : Nat := 0x8000

def maxSecondaryPages : Nat := 10

/-- `GFP_BUFFER`. -/
def gfpBuffer : Int := 0

/-- `GFP_ATOMIC`. -/
def gfpAtomic : Int := 1

/-- The two lists. -/
inductive Queue where
  /-- `free_page_list`. -/
  | free
  /-- `secondary_page_list`. -/
  | secondary
  deriving DecidableEq

/-- Where a call stands whenever interrupts are enabled. -/
inductive Call where
  /-- No call in progress. -/
  | idle
  /-- `__get_free_page(priority)`, at the label `repeat`. -/
  | repeatGet (priority : Int)
  /-- `__get_free_page`, in `try_to_free_page`. -/
  | reclaim (priority : Int)
  /-- `__get_free_page`, in front of the second list. -/
  | second
  /-- `free_page(addr)`, past its tests of `mem_map`. -/
  | drop (addr : Nat)
  deriving DecidableEq

/-- Who answers for a reference: the rest of the kernel, or the call of `free_page` that is
about to drop it. -/
inductive Holder (ι : Type*) where
  | kernel
  | call (c : ι)
  deriving DecidableEq

/-- The allocator, its callers and the first words of the pages. -/
structure State (ι : Type*) where
  memMap : Nat → Nat
  /-- The word at the start of each page, by the page's address. -/
  word : Nat → Nat
  /-- `free_page_list` and `secondary_page_list`. -/
  list : Queue → Nat
  /-- `nr_free_pages` and `nr_secondary_pages`. -/
  nr : Queue → Int
  highMemory : Nat
  call : ι → Call
  /-- The references held to pages, each with who answers for it. -/
  refs : List (Nat × Holder ι)

/-- What a step does that its callers or the console see. -/
inductive Output (ι : Type*) where
  /-- `__get_free_page` returns. -/
  | returns (c : ι) (page : Nat)
  /-- "Trying to free free memory (%08x): memory probabably corrupted". -/
  | freeFree (addr : Nat)
  /-- "Free page %08x has mem_map = %d". -/
  | hasMemMap (page count : Nat)
  /-- "Result = 0x%08x - memory map destroyed". -/
  | destroyed (page : Nat)
  /-- "nr_free_pages is %d, but free_page_list is empty", and the same for the other list. -/
  | isEmpty (q : Queue) (nr : Int)
  deriving DecidableEq

variable {ι : Type*}

namespace State

/-- How many references to a page are held. -/
def holders (s : State ι) (page : Nat) : Nat := s.refs.countP fun r => r.1 = page

/-- A page of memory that is not reserved. -/
def IsPage (s : State ι) (page : Nat) : Prop :=
  page % pageSize = 0 ∧ page < s.highMemory ∧ s.memMap (mapNr page) < mapPageReserved

/-- `mem_map[MAP_NR(page)] = v`. -/
def setMap (s : State ι) (page v : Nat) : State ι :=
  { s with memMap := update s.memMap (mapNr page) v }

end State

/-! ## The two lists -/

/-- `add_mem_queue(addr, queue)`. -/
def addMemQueue (addr : Nat) (q : Queue) (s : State ι) : State ι :=
  { s with
    word := update s.word (pageMask addr) (s.list q)
    list := update s.list q (pageMask addr) }

/-- `REMOVE_FROM_MEM_QUEUE(queue, nr)`: the page it returns, if it does not fall through. -/
def removeFromMemQueue (q : Queue) (s : State ι) : State ι × List (Output ι) × Option Nat :=
  let result := s.list q
  if result ≠ 0 then
    if result % pageSize = 0 ∧ result < s.highMemory then
      let s := { s with list := update s.list q (s.word result) }
      if s.memMap (mapNr result) = 0 then
        let s := s.setMap result 1
        ({ s with nr := update s.nr q (s.nr q - 1) }, [], some result)
      else
        ({ s with list := update s.list q 0, nr := update s.nr q 0 },
          [.hasMemMap result (s.memMap (mapNr result))], none)
    else
      ({ s with list := update s.list q 0, nr := update s.nr q 0 },
        [.destroyed result], none)
  else if s.nr q ≠ 0 then
    ({ s with nr := update s.nr q 0 }, [.isEmpty q (s.nr q)], none)
  else (s, [], none)

/-! ## The calls -/

section Code

variable [DecidableEq ι]

/-- The call `c` now stands at `pc`. -/
def State.goto (s : State ι) (c : ι) (pc : Call) : State ι :=
  { s with call := update s.call c pc }

/-- `__get_free_page` returns `page`, and its caller holds it. -/
def returnPage (c : ι) (page : Nat) (s : State ι) : State ι :=
  { s.goto c .idle with refs := (page, .kernel) :: s.refs }

/-- `__get_free_page(priority)` up to the first list. -/
def getFreePage (c : ι) (priority : Int) (s : State ι) : State ι :=
  s.goto c (.repeatGet priority)

/-- The first list, and the choice of what to do when it is empty. -/
def firstQueue (c : ι) (priority : Int) (s : State ι) : State ι × List (Output ι) :=
  match removeFromMemQueue .free s with
  | (s, out, some page) => (returnPage c page s, out ++ [.returns c page])
  | (s, out, none) =>
    if priority = gfpBuffer then (s.goto c .idle, out ++ [.returns c 0])
    else if priority ≠ gfpAtomic then (s.goto c (.reclaim priority), out)
    else (s.goto c .second, out)

/-- The second list. -/
def secondQueue (c : ι) (s : State ι) : State ι × List (Output ι) :=
  match removeFromMemQueue .secondary s with
  | (s, out, some page) => (returnPage c page s, out ++ [.returns c page])
  | (s, out, none) => (s.goto c .idle, out ++ [.returns c 0])

/-- `free_page(addr)` up to the `cli`. -/
def freePage (c : ι) (addr : Nat) (s : State ι) : State ι × List (Output ι) :=
  if addr < s.highMemory then
    if s.memMap (mapNr addr) ≠ 0 then
      if s.memMap (mapNr addr) < mapPageReserved then (s.goto c (.drop addr), [])
      else (s, [])
    else (s, [.freeFree addr])
  else (s, [])

/-- The part of `free_page(addr)` that runs with interrupts disabled. -/
def dropPage (addr : Nat) (s : State ι) : State ι :=
  let s := s.setMap addr (s.memMap (mapNr addr) - 1)
  if s.memMap (mapNr addr) = 0 then
    if s.nr .secondary < maxSecondaryPages then
      let s := addMemQueue addr .secondary s
      { s with nr := update s.nr .secondary (s.nr .secondary + 1) }
    else
      let s := addMemQueue addr .free s
      { s with nr := update s.nr .free (s.nr .free + 1) }
  else s

/-- A call goes on from where it stands, except in `try_to_free_page`. -/
def proceed (c : ι) (s : State ι) : Option (State ι × List (Output ι)) :=
  match s.call c with
  | .repeatGet priority => some (firstQueue c priority s)
  | .second => some (secondQueue c s)
  | .drop addr =>
    let s := dropPage addr s
    some ({ s.goto c .idle with refs := s.refs.erase (pageMask addr, .call c) }, [])
  | _ => none

/-! ## The steps of the kernel -/

/-- What the rest of the kernel can do. -/
inductive Event (ι : Type*) where
  | getFreePage (c : ι) (priority : Int)
  | freePage (c : ι) (addr : Nat)
  /-- The call goes on to its next `cli`. -/
  | proceed (c : ι)
  /-- `try_to_free_page` returns to the call. -/
  | reclaimed (c : ι) (freed : Bool)
  /-- `mem_map[MAP_NR(page)]++` by one who has a reference to the page. -/
  | share (page : Nat)
  /-- Somebody stores a word at the start of a page. -/
  | store (page v : Nat)
  deriving DecidableEq

/-- The call of `free_page` answers for a reference the kernel held. -/
def State.handOver (s : State ι) (c : ι) (page : Nat) : State ι :=
  if s.call c = .idle then s
  else { s with refs := (page, .call c) :: s.refs.erase (page, .kernel) }

/-- One step and what is seen of it. -/
def stepOut (s : State ι) : Event ι → Option (State ι × List (Output ι))
  | .getFreePage c priority => some (getFreePage c priority s, [])
  | .freePage c addr =>
    let r := freePage c addr s
    some (r.1.handOver c (pageMask addr), r.2)
  | .proceed c => proceed c s
  | .reclaimed c freed =>
    match s.call c with
    | .reclaim priority =>
      some (s.goto c (if freed then .repeatGet priority else .second), [])
    | _ => none
  | .share page =>
    some ({ s.setMap page (s.memMap (mapNr page) + 1) with
            refs := (page, .kernel) :: s.refs }, [])
  | .store page v => some ({ s with word := update s.word page v }, [])

/-- One step. -/
def step (s : State ι) (e : Event ι) : Option (State ι) := (stepOut s e).map Prod.fst

end Code

/-- What the rest of the kernel promises: `free_page` of a page below `high_memory` that is not
reserved drops a reference that is held; a page is shared by one who has it, and the count
stays below the reserved bit; a store is to a page that is not free. -/
def Allowed (s : State ι) : Event ι → Prop
  | .getFreePage c _ => s.call c = .idle
  | .freePage c addr => s.call c = .idle ∧
      (s.IsPage (pageMask addr) → (pageMask addr, Holder.kernel) ∈ s.refs)
  | .proceed _ => True
  | .reclaimed _ _ => True
  | .share page => (page, Holder.kernel) ∈ s.refs ∧ s.memMap (mapNr page) + 1 < mapPageReserved
  | .store page _ => s.IsPage page → s.holders page ≠ 0

/-! ## Boot -/

/-- The arguments of `mem_init`, with what `start_kernel` gives it: low memory starts behind the
first page, the rest at 1 MB or above. -/
structure BootMemory where
  startLowMem : Nat
  startMem : Nat
  endMem : Nat
  pageSize_le : pageSize ≤ startLowMem
  mb_le_start : 0x100000 ≤ startMem

/-- `while (start < limit) { mem_map[MAP_NR(start)] = 0; start += PAGE_SIZE; }` for the
page-aligned addresses `start` and `limit`. -/
def clearPages (start limit : Nat) (memMap : Nat → Nat) : Nat → Nat :=
  (List.range' (mapNr start) (mapNr limit - mapNr start)).foldl
    (fun m nr => update m nr 0) memMap

namespace BootMemory

variable (b : BootMemory)

/-- `end_mem &= PAGE_MASK`. -/
def highMemory : Nat := pageMask b.endMem

/-- `start_mem` behind the array `mem_map`, which starts at `start_mem` rounded up to 16
bytes. -/
def afterMap : Nat := (b.startMem + 15) / 16 * 16 + 2 * mapNr b.highMemory

/-- `mem_map` as `mem_init` leaves it: everything is reserved but low memory below 640 kB and
what lies behind the array. -/
def memMap : Nat → Nat :=
  clearPages (pageAlign b.afterMap) b.highMemory
    (clearPages (pageAlign b.startLowMem) 0xA0000 fun _ => mapPageReserved)

/-- The loop that builds the free list, over the pages from 0 on: the first words of the pages,
`free_page_list` and `nr_free_pages`. -/
def buildList (memMap : Nat → Nat) (word : Nat → Nat) (pages : List Nat) :
    (Nat → Nat) × Nat × Int :=
  pages.foldl (fun r nr =>
    if memMap nr ≠ 0 then r
    else (update r.1 (nr * pageSize) r.2.1, nr * pageSize, r.2.2 + 1)) (word, 0, 0)

/-- The state `mem_init` builds; nothing is said about the contents of memory before. -/
def memInit (word : Nat → Nat) : State ι :=
  let r := buildList b.memMap word (List.range (mapNr b.highMemory))
  { memMap := b.memMap
    word := r.1
    list := fun q => match q with
      | .free => r.2.1
      | .secondary => 0
    nr := fun q => match q with
      | .free => r.2.2
      | .secondary => 0
    highMemory := b.highMemory
    call := fun _ => .idle
    refs := [] }

end BootMemory

end LinuxEvocation.Mm.PageAlloc
