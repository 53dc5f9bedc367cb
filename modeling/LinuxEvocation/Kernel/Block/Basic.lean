import Mathlib.Algebra.Order.Ring.Int

/-!
# The queues of the block devices

`ll_rw_block` makes a request for each of a number of buffers.  A request takes a slot of a table that
all devices share and goes into the queue of its device, unless the buffer fits at an end of a
request that is there.  If the queue is empty and there is more than one buffer, `ll_rw_block` plugs
it: a dummy request at its head keeps the driver from starting until all of them are in.

A task may sleep in `make_request`, for a buffer that is locked and for a slot.

* `Disk` — the buffers and the devices, as far as they do not change.
* `Request`, `Queue`, `Call`, `State` — the data.
* `merge`, `insertAfter`, `addRequest` — how a buffer comes into a queue.
* `makeRequest` — one buffer.
* `Event`, `step` — a call begins, goes on with the next buffer or continues after a sleep, and the
  driver is done with a buffer.
-/

namespace LinuxEvocation.Block

open Function (update)

/-! ## The data -/

inductive Rw where
  | read
  | write
  | reada
  | writea
  deriving DecidableEq

namespace Rw

/-- `rw_ahead`. -/
def ahead : Rw → Bool
  | .reada => true
  | .writea => true
  | _ => false

/-- The direction. -/
def isWrite : Rw → Bool
  | .write => true
  | .writea => true
  | _ => false

end Rw

/-- What does not change of a buffer: `b_dev`, `b_blocknr`, `b_size`. -/
structure Bh where
  dev : Nat
  blocknr : Nat
  size : Nat
  deriving DecidableEq

/-- The buffers by number, and the tables of the devices: whether a major number has a driver
(`request_fn`), the size of a device in blocks of 1024 bytes if it is known (`blk_size`), the size of
its blocks (`blksize_size`), and whether it is write protected. -/
structure Disk where
  bh : Nat → Bh
  driver : Nat → Bool
  blkSize : Nat → Option Nat
  blksizeSize : Nat → Nat
  readOnly : Nat → Bool

def major (dev : Nat) : Nat := dev / 256

namespace Disk

variable (d : Disk)

def count (b : Nat) : Nat := (d.bh b).size / 512

/-- The first sector, in 32 bits. -/
def sector (b : Nat) : Nat := (d.bh b).blocknr * d.count b % 2 ^ 32

/-- The buffer is beyond the end of the device. -/
def tooBig (b : Nat) : Bool :=
  match d.blkSize (d.bh b).dev with
  | none => false
  | some n => n < (d.sector b + d.count b) % 2 ^ 32 / 2

end Disk

/-- A request: its place in the table and the buffers it is for. -/
structure Request where
  slot : Nat
  dev : Nat
  cmd : Bool
  sector : Nat
  nrSectors : Nat
  bhs : List Nat
  deriving DecidableEq

/-- What the order of the requests depends on: `cmd`, `dev` and `sector`. -/
structure Key where
  cmd : Bool
  dev : Int
  sector : Nat
  deriving DecidableEq

def Request.key (r : Request) : Key := ⟨r.cmd, r.dev, r.sector⟩

/-- The queue of a device.  A plug stands before the requests; it names the task it belongs to, and
what its fields happen to be. -/
structure Queue where
  plug : Option (Nat × Key)
  reqs : List Request

/-- `current_request` is `NULL`. -/
def Queue.idle (q : Queue) : Bool := q.plug.isNone && q.reqs.isEmpty

/-- Where a call of `ll_rw_block` is. -/
inductive Phase where
  /-- At the next buffer. -/
  | ready
  /-- In `lock_buffer`, for the next buffer. -/
  | lockWait
  /-- In `sleep_on` for a slot; the next buffer is locked. -/
  | slotWait
  deriving DecidableEq

/-- A call: the buffers that are left, and whether the task is asleep. -/
structure Call where
  rw : Rw
  major : Nat
  plugged : Bool
  todo : List (Option Nat)
  phase : Phase
  asleep : Bool
  deriving DecidableEq

/-- The buffers, the queues by major number, the table of the requests (`used` says that `dev` is not
negative), and the calls by task.  `running` is the task that has the processor, if it is in a
call. -/
structure State where
  lock : Nat → Bool
  dirt : Nat → Bool
  uptodate : Nat → Bool
  queue : Nat → Queue
  used : Nat → Bool
  task : Nat → Option Call
  running : Option Nat

/-- `NR_REQUEST`. -/
def nrRequest : Nat := 32

/-! ## The queues -/

/-- `IN_ORDER`. -/
def inOrder (a b : Key) : Bool :=
  (!a.cmd && b.cmd) ||
    (a.cmd == b.cmd && (decide (a.dev < b.dev) || (a.dev == b.dev && decide (a.sector < b.sector))))

/-- The request goes behind `tmp`, or further behind. -/
def insertAfter (tmp : Key) (req : Request) : List Request → List Request
  | [] => [req]
  | r :: rs =>
    if (inOrder tmp req.key || !inOrder tmp r.key) && inOrder req.key r.key then req :: r :: rs
    else r :: insertAfter r.key req rs

/-- `add_request`. -/
def addRequest (q : Queue) (req : Request) : Queue :=
  match q.plug, q.reqs with
  | none, [] => { q with reqs := [req] }
  | none, r :: rs => { q with reqs := r :: insertAfter r.key req rs }
  | some (_, k), rs => { q with reqs := insertAfter k req rs }

/-- The buffer fits behind the request, or before it. -/
def mergeOne (d : Disk) (cmd : Bool) (b : Nat) (r : Request) : Option Request :=
  if r.dev = (d.bh b).dev ∧ r.cmd = cmd ∧ (r.sector + r.nrSectors) % 2 ^ 32 = d.sector b ∧
      r.nrSectors < 254 then
    some { r with bhs := r.bhs ++ [b], nrSectors := r.nrSectors + d.count b }
  else if r.dev = (d.bh b).dev ∧ r.cmd = cmd ∧ r.sector = (d.sector b + d.count b) % 2 ^ 32 ∧
      r.nrSectors < 254 then
    some { r with bhs := b :: r.bhs, nrSectors := r.nrSectors + d.count b, sector := d.sector b }
  else none

/-- The first request that the buffer fits to. -/
def mergeAny (d : Disk) (cmd : Bool) (b : Nat) : List Request → Option (List Request)
  | [] => none
  | r :: rs =>
    match mergeOne d cmd b r with
    | some r' => some (r' :: rs)
    | none => (mergeAny d cmd b rs).map (r :: ·)

/-- The search for a request to add the buffer to.  Only three drivers allow it, and one of them has
begun with what is at the head. -/
def merge (d : Disk) (major : Nat) (cmd : Bool) (b : Nat) (q : Queue) : Option Queue :=
  if major = 3 ∨ major = 8 ∨ major = 11 then
    if major = 3 ∧ q.plug.isNone then
      match q.reqs with
      | [] => none
      | r :: rs => (mergeAny d cmd b rs).map fun rs => { q with reqs := r :: rs }
    else (mergeAny d cmd b q.reqs).map fun rs => { q with reqs := rs }
  else none

/-- How many of the slots a request may take. -/
def slotLimit (cmd : Bool) : Nat := if cmd then nrRequest / 2 else nrRequest

/-- The last slot that is free, of the first `n`. -/
def freeSlot (used : Nat → Bool) : Nat → Option Nat
  | 0 => none
  | n + 1 => if used n then freeSlot used n else some n

/-! ## `make_request` -/

/-- The tasks that wait for a buffer are woken. -/
def wakeLock (b : Nat) (task : Nat → Option Call) (t : Nat) : Option Call :=
  (task t).map fun c =>
    if c.phase = .lockWait ∧ c.todo.head? = some (some b) then { c with asleep := false } else c

/-- The tasks that wait for a slot are woken. -/
def wakeSlot (task : Nat → Option Call) (t : Nat) : Option Call :=
  (task t).map fun c => if c.phase = .slotWait then { c with asleep := false } else c

namespace State

def unlock (s : State) (b : Nat) : State :=
  { s with lock := update s.lock b false, task := wakeLock b s.task }

def setTask (s : State) (t : Nat) (c : Option Call) : State :=
  { s with task := update s.task t c }

def setQueue (s : State) (m : Nat) (q : Queue) : State :=
  { s with queue := update s.queue m q }

@[simp]
theorem setTask_self (s : State) (t : Nat) (c : Option Call) : (s.setTask t c).task t = c := by
  simp [setTask]

@[simp]
theorem setTask_of_ne (s : State) {t u : Nat} (h : u ≠ t) (c : Option Call) :
    (s.setTask t c).task u = s.task u := by
  simp [setTask, h]

@[simp]
theorem setQueue_self (s : State) (m : Nat) (q : Queue) : (s.setQueue m q).queue m = q := by
  simp [setQueue]

@[simp]
theorem setQueue_of_ne (s : State) {m n : Nat} (h : n ≠ m) (q : Queue) :
    (s.setQueue m q).queue n = s.queue n := by
  simp [setQueue, h]

/-- The task goes to sleep. -/
def sleep (s : State) (t : Nat) (c : Call) (p : Phase) : State :=
  { s.setTask t (some { c with phase := p, asleep := true }) with running := none }

/-- The call goes on with the buffers behind the first. -/
def next (s : State) (t : Nat) (c : Call) : State :=
  s.setTask t (some { c with todo := c.todo.tail, phase := .ready })

/-- From the label `repeat` on: the buffer `b` is locked. -/
def takeSlot (d : Disk) (s : State) (t : Nat) (c : Call) (b : Nat) : State :=
  match merge d c.major c.rw.isWrite b (s.queue c.major) with
  | some q => ({ s.setQueue c.major q with dirt := update s.dirt b false }).next t c
  | none =>
    match freeSlot s.used (slotLimit c.rw.isWrite) with
    | some i =>
      let req : Request := ⟨i, (d.bh b).dev, c.rw.isWrite, d.sector b, d.count b, [b]⟩
      ({ s.setQueue c.major (addRequest (s.queue c.major) req) with
        used := update s.used i true
        dirt := update s.dirt b false }).next t c
    | none => if c.rw.ahead then (s.unlock b).next t c else s.sleep t c .slotWait

/-- There is nothing to write, or the buffer has been read. -/
def clean (s : State) (c : Call) (b : Nat) : Bool :=
  if c.rw.isWrite then !s.dirt b else s.uptodate b

/-- `lock_buffer` and what follows it. -/
def takeLock (d : Disk) (s : State) (t : Nat) (c : Call) (b : Nat) : State :=
  if s.lock b then s.sleep t c .lockWait
  else if s.clean c b then (s.unlock b).next t c
  else ({ s with lock := update s.lock b true }).takeSlot d t c b

/-- `make_request`, as far as the next sleep. -/
def makeRequest (d : Disk) (s : State) (t : Nat) (c : Call) (b : Nat) : State :=
  match c.phase with
  | .ready =>
    if c.rw.ahead ∧ s.lock b then s.next t c
    else if d.tooBig b then
      ({ s with
        dirt := update s.dirt b false
        uptodate := update s.uptodate b false }).next t c
    else s.takeLock d t c b
  | .lockWait => s.takeLock d t c b
  | .slotWait => s.takeSlot d t c b

end State

/-! ## `ll_rw_block` -/

inductive Event where
  /-- A call begins; `k` is what the fields of its plug are. -/
  | call (t : Nat) (rw : Rw) (bhs : List (Option Nat)) (k : Key)
  /-- The next buffer of the running call. -/
  | next (t : Nat)
  /-- A task that has been woken goes on. -/
  | resume (t : Nat)
  /-- The driver is done with a buffer of the request at the head. -/
  | done (major : Nat) (uptodate : Bool)
  deriving DecidableEq

/-- An error is found: none of the buffers is written or read. -/
def State.fail (s : State) (bhs : List (Option Nat)) : State :=
  { s with
    dirt := fun b => s.dirt b && decide (some b ∉ bhs)
    uptodate := fun b => s.uptodate b && decide (some b ∉ bhs) }

/-- The beginning of `ll_rw_block`, from the first buffer on. -/
def begin (d : Disk) (s : State) (t : Nat) (rw : Rw) (b : Nat) (rest : List (Option Nat)) (k : Key) :
    State :=
  let bhs := some b :: rest
  let m := major (d.bh b).dev
  if d.driver m = false then s.fail bhs
  else if ∃ b' ∈ bhs.reduceOption, (d.bh b').size ≠ d.blksizeSize (d.bh b').dev then s.fail bhs
  else if rw.isWrite ∧ d.readOnly (d.bh b).dev then s.fail bhs
  else
    let plugged := (s.queue m).idle && decide (bhs.length > 1)
    let s := if plugged then s.setQueue m { (s.queue m) with plug := some (t, k) } else s
    { s.setTask t (some ⟨rw, m, plugged, bhs, .ready, false⟩) with running := some t }

/-- The end of `ll_rw_block`. -/
def State.finish (s : State) (t : Nat) (c : Call) : State :=
  let s := if c.plugged then s.setQueue c.major { (s.queue c.major) with plug := none } else s
  { s.setTask t none with running := none }

def step (d : Disk) (s : State) : Event → Option State
  | .call t rw bhs k =>
    if s.running = none ∧ s.task t = none then
      match bhs.dropWhile Option.isNone with
      | some b :: rest => some (begin d s t rw b rest k)
      | _ => some s
    else none
  | .next t =>
    if s.running = some t then
      match s.task t with
      | none => none
      | some c =>
        match c.todo with
        | [] => some (s.finish t c)
        | none :: _ => some (s.next t c)
        | some b :: _ => some (s.makeRequest d t c b)
    else none
  | .resume t =>
    if s.running = none then
      match s.task t with
      | none => none
      | some c => if c.asleep then none else some { s with running := some t }
    else none
  | .done m uptodate =>
    match (s.queue m).plug, (s.queue m).reqs with
    | none, r :: rs =>
      match r.bhs with
      | [] => none
      | b :: bs =>
        let s := { s.unlock b with uptodate := update s.uptodate b uptodate }
        if bs = [] then
          some { s.setQueue m { (s.queue m) with reqs := rs } with
            used := update s.used r.slot false
            task := wakeSlot s.task }
        else some (s.setQueue m { (s.queue m) with reqs := { r with bhs := bs } :: rs })
    | _, _ => none

end LinuxEvocation.Block
