import LinuxEvocation.Errno
import LinuxEvocation.Lib.LinkedList
import LinuxEvocation.Lib.Transition

/-!
# System V message queues: `sys_msgsnd`, `sys_msgrcv` and `msgctl(IPC_SET)`

The messages of a queue are a linked list with pointers to the first and the last one; the queue
counts its messages and their bytes in two `ushort`s.  A sender waits on `wwait` while there is no
space, and allocates the message, which may sleep, after it has found space.  A receiver waits on
`rwait` while there is no message for it.

The model is of one queue that is not removed.

* `Msg`, `Queue`, `Task`, `State` — the data.
* `trySend`, `enqueue` — `sys_msgsnd` up to the allocation, and after it.
* `find`, `unlinkMsg`, `tryRcv` — `sys_msgrcv`.
* `stepOut` — one step of the kernel, and what a call returns in it.
-/

namespace LinuxEvocation.Ipc.Message

open LinkedList

/-! ## The data -/

/-- `MSGMAX`. -/
def msgmax : Nat := 4080

/-- `MSGMNB`. -/
def msgmnb : Nat := 16384

/-- What the caller gives to `sys_msgsnd`, and what is kept of it in `struct msg`: `msg_ts` is the
length of the text. -/
structure Msg where
  mtype : Int
  text : List UInt8
  deriving DecidableEq

/-- `msg_ts`. -/
def Msg.ts (m : Msg) : Nat := m.text.length

/-- `struct msqid_ds`.  Messages are named by their addresses, 0 is `NULL`. -/
structure Queue where
  first : Nat
  last : Nat
  cbytes : UInt16
  qnum : UInt16
  qbytes : UInt16
  deriving DecidableEq

/-- The arguments of `sys_msgrcv`, with its two flags. -/
structure Rcv where
  msgsz : Nat
  msgtyp : Int
  /-- `MSG_EXCEPT`. -/
  except : Bool
  /-- `MSG_NOERROR`. -/
  noerror : Bool
  deriving DecidableEq

/-- Where a process stands. -/
inductive Task where
  | idle
  /-- Asleep on `wwait`. -/
  | wwait (m : Msg) (woken : Bool)
  /-- Has found space, and is in `kmalloc` or copies the text. -/
  | kmalloc (m : Msg)
  /-- Asleep on `rwait`. -/
  | rwait (r : Rcv) (woken : Bool)
  deriving DecidableEq

structure State (τ : Type*) where
  queue : Queue
  /-- `msg_next`, and the rest of the messages. -/
  next : Nat → Nat
  msg : Nat → Msg
  /-- The next address `kmalloc` returns. -/
  fresh : Nat
  task : τ → Task
  /-- `current->signal & ~current->blocked`. -/
  pending : τ → Bool

/-- What a call returns, and the message it has copied to the caller. -/
structure Return where
  val : Int
  msg : Option Msg
  deriving DecidableEq

variable {τ : Type*}

/-- `wake_up(&msq->wwait)`. -/
def State.wakeWwait (s : State τ) : State τ :=
  { s with
    task := fun t =>
      match s.task t with
      | .wwait m _ => .wwait m true
      | x => x }

/-- `wake_up(&msq->rwait)`. -/
def State.wakeRwait (s : State τ) : State τ :=
  { s with
    task := fun t =>
      match s.task t with
      | .rwait r _ => .rwait r true
      | x => x }

section Code

variable [DecidableEq τ]

def State.setTask (s : State τ) (t : τ) (x : Task) : State τ :=
  { s with task := Function.update s.task t x }

/-- A call returns an error. -/
def State.fail (s : State τ) (t : τ) (e : Int) : State τ × Option Return :=
  (s.setTask t .idle, some ⟨-e, none⟩)

/-! ## `sys_msgsnd` -/

/-- From the label `slept` to the allocation; `denied` is what `ipcperms` answers. -/
def trySend (t : τ) (m : Msg) (nowait denied : Bool) (s : State τ) : State τ × Option Return :=
  if denied then s.fail t Errno.eacces
  else if m.ts + s.queue.cbytes.toNat > s.queue.qbytes.toNat then
    if nowait then s.fail t Errno.eagain
    else if s.pending t then s.fail t Errno.eintr
    else (s.setTask t (.wwait m false), none)
  else (s.setTask t (.kmalloc m), none)

/-- `sys_msgsnd`. -/
def sysMsgsnd (t : τ) (m : Msg) (nowait denied : Bool) (s : State τ) : State τ × Option Return :=
  if m.ts > msgmax then s.fail t Errno.einval
  else if m.mtype < 1 then s.fail t Errno.einval
  else trySend t m nowait denied s

/-- The message is put behind the last one. -/
def linkMsg (a : Nat) (m : Msg) (s : State τ) : State τ :=
  let next := Function.update s.next a 0
  let q := s.queue
  { s with
    next := if q.first = 0 then next else Function.update next q.last a
    msg := Function.update s.msg a m
    fresh := a + 1
    queue :=
      { q with
        first := if q.first = 0 then a else q.first
        last := a
        cbytes := q.cbytes + UInt16.ofNat m.ts
        qnum := q.qnum + 1 } }

/-- `sys_msgsnd` goes on after the allocation and the copy. -/
def enqueue (t : τ) (m : Msg) (s : State τ) : State τ × Option Return :=
  (((linkMsg s.fresh m s).wakeRwait).setTask t .idle, some ⟨m.ts, none⟩)

/-! ## `sys_msgrcv` -/

/-- "find message of correct type". -/
def find (r : Rcv) (s : State τ) : Nat :=
  if r.msgtyp = 0 then s.queue.first
  else if r.msgtyp > 0 then
    let test := fun a =>
      if r.except then decide ((s.msg a).mtype ≠ r.msgtyp) else decide ((s.msg a).mtype = r.msgtyp)
    match findOn 0 s.next test s.fresh 0 s.queue.first with
    | some (_, tmsg) => tmsg
    | none => 0
  else
    let leastp :=
      leastOn 0 s.next (fun a => (s.msg a).mtype) s.fresh s.queue.first s.queue.first
    if leastp ≠ 0 ∧ (s.msg leastp).mtype ≤ -r.msgtyp then leastp else 0

/-- The message is taken out of the list. -/
def unlinkMsg (nmsg : Nat) (s : State τ) : State τ :=
  let q := s.queue
  let s :=
    if nmsg = q.first then { s with queue := { q with first := s.next nmsg } }
    else
      match findOn 0 s.next (fun a => s.next a = nmsg) s.fresh 0 q.first with
      | some (_, tmsg) =>
        { s with
          next := Function.update s.next tmsg (s.next nmsg)
          queue := { q with last := if nmsg = q.last then tmsg else q.last } }
      -- the message is on the list, so that the search does not fail
      | none => s
  let q := s.queue
  let qnum := q.qnum - 1
  { s with
    queue :=
      { q with
        first := if qnum = 0 then 0 else q.first
        last := if qnum = 0 then 0 else q.last
        qnum := qnum
        cbytes := q.cbytes - UInt16.ofNat (s.msg nmsg).ts } }

/-- The body of the loop of `sys_msgrcv`. -/
def tryRcv (t : τ) (r : Rcv) (nowait denied : Bool) (s : State τ) : State τ × Option Return :=
  if denied then s.fail t Errno.eacces
  else
    let nmsg := find r s
    if nmsg ≠ 0 then
      let m := s.msg nmsg
      if r.msgsz < m.ts ∧ ¬ r.noerror then s.fail t Errno.e2big
      else
        let msgsz := if r.msgsz > m.ts then m.ts else r.msgsz
        (((unlinkMsg nmsg s).wakeWwait).setTask t .idle,
          some ⟨msgsz, some ⟨m.mtype, m.text.take msgsz⟩⟩)
    else if nowait then s.fail t Errno.enomsg
    else if s.pending t then s.fail t Errno.eintr
    else (s.setTask t (.rwait r false), none)

/-- `sys_msgrcv`. -/
def sysMsgrcv (t : τ) (msgsz msgtyp : Int) (except noerror nowait denied : Bool) (s : State τ) :
    State τ × Option Return :=
  if msgsz < 0 then s.fail t Errno.einval
  else tryRcv t ⟨msgsz.toNat, msgtyp, except, noerror⟩ nowait denied s

/-! ## The steps of the kernel -/

inductive Event (τ : Type*) where
  | msgsnd (t : τ) (m : Msg) (nowait denied : Bool)
  /-- The allocation returns to `sys_msgsnd`, and the text is copied. -/
  | kmalloc (t : τ) (ok : Bool)
  | msgrcv (t : τ) (msgsz msgtyp : Int) (except noerror nowait denied : Bool)
  /-- A process runs again after a sleep. -/
  | run (t : τ) (denied : Bool)
  /-- `msgctl(IPC_SET)`. -/
  | set (qbytes : UInt16) (suser : Bool)
  | signal (t : τ) (pending : Bool)
  deriving DecidableEq

/-- One step, with what the call returns if it returns in it. -/
def stepOut (s : State τ) : Event τ → Option (State τ × Option Return)
  | .msgsnd t m nowait denied =>
    if s.task t = .idle then some (sysMsgsnd t m nowait denied s) else none
  | .kmalloc t ok =>
    match s.task t with
    | .kmalloc m => some (if ok then enqueue t m s else s.fail t Errno.enomem)
    | _ => none
  | .msgrcv t msgsz msgtyp except noerror nowait denied =>
    if s.task t = .idle then some (sysMsgrcv t msgsz msgtyp except noerror nowait denied s)
    else none
  | .run t denied =>
    match s.task t with
    | .wwait m woken =>
      if woken ∨ s.pending t then some (trySend t m false denied s) else none
    | .rwait r woken =>
      if woken ∨ s.pending t then some (tryRcv t r false denied s) else none
    | _ => none
  | .set qbytes suser =>
    if qbytes.toNat > msgmnb ∧ ¬ suser then some (s, some ⟨-Errno.eperm, none⟩)
    else some ({ s with queue := { s.queue with qbytes := qbytes } }, some ⟨0, none⟩)
  | .signal t pending => some ({ s with pending := Function.update s.pending t pending }, none)

def step (s : State τ) (e : Event τ) : Option (State τ) := (stepOut s e).map Prod.fst

end Code

/-- A queue as `newque` makes it. -/
def State.init : State τ where
  queue := ⟨0, 0, 0, 0, UInt16.ofNat msgmnb⟩
  next _ := 0
  msg _ := ⟨0, []⟩
  fresh := 1
  task _ := .idle
  pending _ := false

end LinuxEvocation.Ipc.Message
