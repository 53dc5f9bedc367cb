import LinuxEvocation.Kernel.Block.Basic
import LinuxEvocation.Lib.LinkedList

/-!
# Requests and their buffers

The requests of one device as they stand in memory: each with the numbers of its sectors in 32 bits,
and with its buffers threaded through `b_reqnext`, from `bh` to `bhtail`.

* `BlockSize`, `Device`, `Req`, `State` — the data.
* `merge`, `makeRequest` — a buffer is added to a request, or gets one of its own.
* `endRequest`, `transfer` — the driver is done with the first buffer of the request at the head.
* `llRwSwapFile` — the requests for the blocks of a page that is swapped to a file.
* `Event`, `step` — the calls of the tasks and the work of the driver, in any order.
-/

namespace LinuxEvocation.Requests

open Function (update)
open Block (Rw Key inOrder freeSlot slotLimit)

/-! ## The data -/

/-- The sizes that the blocks of a device may have. -/
inductive BlockSize where
  | b512
  | b1024
  | b2048
  | b4096
  deriving DecidableEq

namespace BlockSize

def bytes : BlockSize → Nat
  | b512 => 512
  | b1024 => 1024
  | b2048 => 2048
  | b4096 => 4096

/-- The sectors of a block: its size shifted by 9. -/
def count (z : BlockSize) : Nat := z.bytes / 512

end BlockSize

/-- What does not change of a buffer that is in use: `b_dev`, `b_blocknr`, `b_data`. -/
structure Bh where
  dev : Nat
  blocknr : BitVec 32
  data : Nat
  deriving DecidableEq

/-- The major number, the buffers by address, and the tables `blk_size` and `blksize_size` as far as
they have an entry.  A buffer has the block size of its device; `ll_rw_block` has seen to that. -/
structure Device where
  major : Nat
  bh : Nat → Bh
  blkSize : Nat → Option (BitVec 32)
  blksizeSize : Nat → Option BlockSize

namespace Device

variable (d : Device)

/-- The block size of a device; `BLOCK_SIZE` if the table has none. -/
def blockSize (dev : Nat) : BlockSize := (d.blksizeSize dev).getD .b1024

def size (b : Nat) : BlockSize := d.blockSize (d.bh b).dev

def count (b : Nat) : BitVec 32 := BitVec.ofNat 32 (d.size b).count

def sector (b : Nat) : BitVec 32 := (d.bh b).blocknr * d.count b

/-- The buffer is beyond the end of the device. -/
def tooBig (b : Nat) : Bool :=
  match d.blkSize (d.bh b).dev with
  | none => false
  | some n => decide (n < (d.sector b + d.count b) >>> 1)

/-- `SECTOR_MASK`. -/
def sectorMask (dev : Nat) : BitVec 32 := BitVec.ofNat 32 ((d.blockSize dev).count - 1)

end Device

/-- `struct request`, with its place in the table. -/
structure Req where
  slot : Nat
  dev : Nat
  cmd : Bool
  sector : BitVec 32
  nrSectors : BitVec 32
  currentNrSectors : BitVec 32
  buffer : Nat
  bh : Nat
  bhtail : Nat
  deriving DecidableEq

def Req.key (r : Req) : Key := ⟨r.cmd, r.dev, r.sector.toNat⟩

/-- Where a task sleeps in `make_request`. -/
inductive Phase where
  /-- In `lock_buffer`. -/
  | lockWait
  /-- In `sleep_on` for a slot; the buffer is locked. -/
  | slotWait
  deriving DecidableEq

structure Call where
  rw : Rw
  b : Nat
  phase : Phase
  deriving DecidableEq

/-- The buffers, the queue of the device, the table of the requests (`used` says that `dev` is not
negative), and the calls that sleep, by task.  `asked` is the direction in which a buffer that is
locked is to be transferred. -/
structure State where
  lock : Nat → Bool
  dirt : Nat → Bool
  uptodate : Nat → Bool
  reqnext : Nat → Nat
  asked : Nat → Bool
  plug : Option Key
  reqs : List Req
  used : Nat → Bool
  call : Nat → Option Call

/-! ## `make_request` -/

/-- The loop of `add_request`. -/
def insertAfter (tmp : Key) (req : Req) : List Req → List Req
  | [] => [req]
  | r :: rs =>
    if (inOrder tmp req.key || !inOrder tmp r.key) && inOrder req.key r.key then req :: r :: rs
    else r :: insertAfter r.key req rs

/-- `add_request`. -/
def addRequest (plug : Option Key) (reqs : List Req) (req : Req) : List Req :=
  match plug, reqs with
  | none, [] => [req]
  | none, r :: rs => r :: insertAfter r.key req rs
  | some k, rs => insertAfter k req rs

/-- The buffer is put behind the last buffer of the request, or before its first one. -/
def mergeOne (d : Device) (reqnext : Nat → Nat) (cmd : Bool) (b : Nat) (r : Req) :
    Option (Req × (Nat → Nat)) :=
  if r.dev = (d.bh b).dev ∧ r.cmd = cmd ∧ r.sector + r.nrSectors = d.sector b ∧
      r.nrSectors < 254 then
    some ({ r with bhtail := b, nrSectors := r.nrSectors + d.count b },
      update reqnext r.bhtail b)
  else if r.dev = (d.bh b).dev ∧ r.cmd = cmd ∧ r.sector - d.count b = d.sector b ∧
      r.nrSectors < 254 then
    some ({ r with
        nrSectors := r.nrSectors + d.count b
        buffer := (d.bh b).data
        currentNrSectors := d.count b
        sector := d.sector b
        bh := b },
      update reqnext b r.bh)
  else none

/-- The first request that the buffer fits to. -/
def mergeAny (d : Device) (reqnext : Nat → Nat) (cmd : Bool) (b : Nat) :
    List Req → Option (List Req × (Nat → Nat))
  | [] => none
  | r :: rs =>
    match mergeOne d reqnext cmd b r with
    | some (r', next) => some (r' :: rs, next)
    | none => (mergeAny d reqnext cmd b rs).map fun (rs, next) => (r :: rs, next)

/-- The request that the search leaves out: the driver of major 3 has begun with the head. -/
def untouched (d : Device) (s : State) : List Req :=
  if d.major = 3 ∧ s.plug.isNone then s.reqs.take 1 else []

/-- The requests that the search goes through. -/
def candidates (d : Device) (s : State) : List Req :=
  if d.major = 3 ∨ d.major = 8 ∨ d.major = 11 then
    if d.major = 3 ∧ s.plug.isNone then s.reqs.tail else s.reqs
  else []

/-- The search for a request to add the buffer to. -/
def merge (d : Device) (s : State) (cmd : Bool) (b : Nat) : Option State :=
  (mergeAny d s.reqnext cmd b (candidates d s)).map fun (rs, next) =>
    { s with
      reqs := untouched d s ++ rs
      reqnext := next
      dirt := update s.dirt b false }

namespace State

def unlock (s : State) (b : Nat) : State := { s with lock := update s.lock b false }

/-- The call of a task returns, or goes to sleep. -/
def setCall (s : State) (t : Nat) (c : Option Call) : State :=
  { s with call := update s.call t c }

end State

/-- The request that a buffer gets of its own. -/
def newReq (d : Device) (slot : Nat) (cmd : Bool) (b : Nat) : Req where
  slot := slot
  dev := (d.bh b).dev
  cmd := cmd
  sector := d.sector b
  nrSectors := d.count b
  currentNrSectors := d.count b
  buffer := (d.bh b).data
  bh := b
  bhtail := b

/-- From the label `repeat` on: the buffer is locked. -/
def takeSlot (d : Device) (s : State) (t : Nat) (rw : Rw) (b : Nat) : State :=
  match merge d s rw.isWrite b with
  | some s => s.setCall t none
  | none =>
    match freeSlot s.used (slotLimit rw.isWrite) with
    | some i =>
      { s.setCall t none with
        reqs := addRequest s.plug s.reqs (newReq d i rw.isWrite b)
        used := update s.used i true
        dirt := update s.dirt b false }
    | none => if rw.ahead then (s.unlock b).setCall t none else s.setCall t (some ⟨rw, b, .slotWait⟩)

/-- There is nothing to write, or the buffer has been read. -/
def clean (s : State) (rw : Rw) (b : Nat) : Bool := if rw.isWrite then !s.dirt b else s.uptodate b

/-- `lock_buffer` and what follows it. -/
def takeLock (d : Device) (s : State) (t : Nat) (rw : Rw) (b : Nat) : State :=
  if s.lock b then s.setCall t (some ⟨rw, b, .lockWait⟩)
  else if clean s rw b then (s.unlock b).setCall t none
  else
    takeSlot d
      { s with
        lock := update s.lock b true
        asked := update s.asked b rw.isWrite } t rw b

/-- `make_request`, as far as it comes without a sleep. -/
def makeRequest (d : Device) (s : State) (t : Nat) (rw : Rw) (b : Nat) : State :=
  if rw.ahead ∧ s.lock b then s
  else if d.tooBig b then
    { s with
      dirt := update s.dirt b false
      uptodate := update s.uptodate b false }
  else takeLock d s t rw b

/-- The rest of `make_request`, after a sleep. -/
def resume (d : Device) (s : State) (t : Nat) (c : Call) : State :=
  match c.phase with
  | .lockWait => takeLock d s t c.rw c.b
  | .slotWait => takeSlot d s t c.rw c.b

/-! ## `end_request` -/

/-- The block at which an error has occurred is skipped. -/
def skip (d : Device) (req : Req) : Req :=
  { req with
    nrSectors := (req.nrSectors - 1) &&& ~~~ d.sectorMask req.dev
    sector := (req.sector + 2) &&& ~~~ d.sectorMask req.dev }

/-- The request goes on with the buffer `bh`. -/
def advance (d : Device) (req : Req) (bh : Nat) : Req :=
  { req with
    bh := bh
    currentNrSectors := d.count bh
    nrSectors := if req.nrSectors < d.count bh then d.count bh else req.nrSectors
    buffer := (d.bh bh).data }

/-- The request at the head is complete. -/
def complete (s : State) (req : Req) (rs : List Req) : State :=
  { s with reqs := rs, used := update s.used req.slot false }

/-- `end_request`. -/
def endRequest (d : Device) (s : State) (uptodate : Bool) : State :=
  match s.reqs with
  | [] => s
  | req :: rs =>
    let req := if uptodate then req else skip d req
    if req.bh = 0 then complete s req rs
    else
      let bh := req.bh
      let next := s.reqnext bh
      let s := { s.unlock bh with
        reqnext := update s.reqnext bh 0
        uptodate := update s.uptodate bh uptodate }
      if next = 0 then complete s req rs else { s with reqs := advance d req next :: rs }

/-- The driver transfers the first buffer of the request at the head. -/
def transfer (d : Device) (s : State) : State :=
  match s.reqs with
  | [] => s
  | req :: rs =>
    endRequest d
      { s with
        reqs := { req with
          sector := req.sector + d.count req.bh
          nrSectors := req.nrSectors - d.count req.bh } :: rs } true

/-! ## `ll_rw_swap_file` -/

/-- The sectors of a request, and the address for them. -/
structure Span where
  sector : BitVec 32
  nrSectors : BitVec 32
  buffer : Nat
  deriving DecidableEq

/-- `ll_rw_swap_file`: what the requests are for, in their order.  `nb` is the length of the list;
the page begins at `buf`. -/
def llRwSwapFile (b : List (BitVec 32)) (buf : Nat) : List Span :=
  let buffersize := 4096 / b.length
  b.zipIdx.map fun (block, i) =>
    ⟨(block * BitVec.ofNat 32 buffersize) >>> 9, BitVec.ofNat 32 (buffersize / 512),
      buf + i * buffersize⟩

/-! ## The machine -/

inductive Event where
  | make (t : Nat) (rw : Rw) (b : Nat)
  /-- A task that sleeps in `make_request` goes on. -/
  | resume (t : Nat)
  | transfer
  | plug (k : Key)
  | unplug
  /-- The requests of the other devices come to stand in these slots. -/
  | slots (l : List Nat)
  /-- A buffer is changed, or its contents are made valid or invalid, by others. -/
  | touch (b : Nat) (dirt uptodate : Bool)
  deriving DecidableEq

def start : State where
  lock _ := false
  dirt _ := false
  uptodate _ := false
  reqnext _ := 0
  asked _ := false
  plug := none
  reqs := []
  used _ := false
  call _ := none

def step (d : Device) (s : State) : Event → Option State
  | .make t rw b => if s.call t = none ∧ b ≠ 0 then some (makeRequest d s t rw b) else none
  | .resume t => (s.call t).map (resume d s t)
  | .transfer => if s.plug = none ∧ s.reqs ≠ [] then some (transfer d s) else none
  | .plug k => if s.plug = none ∧ s.reqs = [] then some { s with plug := some k } else none
  | .unplug => if s.plug = none then none else some { s with plug := none }
  | .slots l =>
    some { s with used := fun i => decide (i ∈ l) || decide (i ∈ s.reqs.map Req.slot) }
  | .touch b dirt uptodate =>
    some { s with
      dirt := update s.dirt b dirt
      uptodate := update s.uptodate b uptodate }

end LinuxEvocation.Requests
