import LinuxEvocation.Fs.Locks.Shape
import LinuxEvocation.Lib.Transition

/-!
# The record-lock calls as a state machine

`fcntl_setlk` and `fcntl_remove_locks` run one at a time, except that an `F_SETLKW`
call gives up the processor while it sleeps on the queue of a record that blocks it.
A step of the machine is therefore a whole call, or one stretch of an `F_SETLKW` call
between two sleeps.

* `State` — the lists of all inodes, the free list, who sleeps where.
* `fcntlSetlkArgs`, `scan`, `fcntlSetlk` — the call, up to its first sleep.
* `State.resume` — the same call after a sleep.
* `fcntlRemoveLocks` — what `close` does.
* `step` — the machine; `lockCall` is the call of `lock_it` a step makes, if any.

A signal may make a sleeping task runnable at any time; whether a call sees one
pending is decided by the event (`sig`).
-/

namespace LinuxEvocation.Locks

open Transition

variable {Task Inode : Type}

/-- Where a task sleeps in `F_SETLKW`, and what for. -/
structure Wait (Task Inode : Type) where
  inode : Inode
  slot : Slot
  request : FileLock Task

/-- The lock table, as lists, and the tasks inside a call of `F_SETLKW`. -/
structure State (Task Inode : Type) where
  iFlock : Inode → List (Entry Task)
  free : List (Entry Task)
  /-- The tasks inside `interruptible_sleep_on`. -/
  waiting : Task → Option (Wait Task Inode)
  /-- Those of them that have not been made runnable. -/
  asleep : Task → Bool
  panicked : Bool

/-- A record of the table before it is first used. -/
def FileLock.zero : FileLock Task :=
  { flOwner := none, flWait := [], flType := .rdlck, flWhence := 0, flStart := 0, flEnd := 0 }

/-- `fcntl_init_locks`. -/
def fcntlInitLocks : State Task Inode :=
  { iFlock := fun _ => []
    free := (List.finRange nrFileLocks).map fun a => ⟨a, .zero⟩
    waiting := fun _ => none
    asleep := fun _ => false
    panicked := false }

/-! ## `fcntl_setlk` -/

/-- `NR_OPEN`. -/
def nrOpen : Nat := 256

/-- `F_SETLK` and `F_SETLKW`. -/
def fSetlk : Nat := 6

def fSetlkw : Nat := 7

/-- "Get arguments and validate them": the record to set and its inode, or the error
returned.  `verify` is the result of `verify_area`. -/
def fcntlSetlkArgs (current : Task) (fd : Nat) (filp : Option (File Inode)) (verify : Int)
    (flock : Flock) : Except Int (Inode × FileLock Task) :=
  match filp with
  | none => .error (-Errno.ebadf)
  | some f =>
    if fd ≥ nrOpen then .error (-Errno.ebadf)
    else if verify ≠ 0 then .error verify
    else
      match copyFlock current f flock, f.fInode with
      | some fl, some inode =>
        match fl.flType with
        | .rdlck => if f.fMode &&& 1 = 0 then .error (-Errno.ebadf) else .ok (inode, fl)
        | .wrlck => if f.fMode &&& 2 = 0 then .error (-Errno.ebadf) else .ok (inode, fl)
        | .shlck =>
          if f.fMode &&& 3 = 0 then .error (-Errno.ebadf)
          else .ok (inode, { fl with flType := .rdlck })
        | .exlck =>
          if f.fMode &&& 3 = 0 then .error (-Errno.ebadf)
          else .ok (inode, { fl with flType := .wrlck })
        | .unlck => .ok (inode, fl)
      | _, _ => .error (-Errno.einval)

/-- How the scan for a conflicting lock ends. -/
inductive Verdict where
  /-- Return this value. -/
  | ret (value : Int)
  /-- Sleep on the queue of this record. -/
  | sleep (slot : Slot)
  /-- "Lock doesn't conflict with any other lock": call `lock_it`. -/
  | lock
  deriving DecidableEq

section

variable [DecidableEq Task]

/-- "Scan for a conflicting lock". -/
def scan (l : List (Entry Task)) (fl : FileLock Task) (cmd : Nat) (sig : Bool) : Verdict :=
  if fl.flType ≠ .unlck then
    match l.find? fun n => conflict fl n.fl with
    | none => .lock
    | some n =>
      if cmd = fSetlkw then
        if sig then .ret (-Errno.erestartsys) else .sleep n.addr
      else .ret (-Errno.eagain)
  else .lock

variable [DecidableEq Inode]

/-- Put a list in the place of an inode's. -/
def State.setFlock (s : State Task Inode) (i : Inode) (l : List (Entry Task)) :
    Inode → List (Entry Task) := fun j => if j = i then l else s.iFlock j

/-- `lock_it(filp, &file_lock)`. -/
def State.lock (s : State Task Inode) (current : Task) (i : Inode) (fl : FileLock Task) :
    Int × State Task Inode :=
  let o := lockIt current (s.iFlock i) s.free fl
  (o.ret, { s with
    iFlock := s.setFlock i o.list
    free := o.free
    asleep := fun t => s.asleep t && !decide (t ∈ o.woken)
    panicked := s.panicked || o.panicked })

/-- `interruptible_sleep_on(&fl->fl_wait)`, up to `schedule()`. -/
def State.sleepOn (s : State Task Inode) (current : Task) (i : Inode) (slot : Slot)
    (fl : FileLock Task) : State Task Inode :=
  { s with
    iFlock := s.setFlock i
      (modifyAt slot (fun n => { n with flWait := n.flWait ++ [current] }) (s.iFlock i))
    waiting := fun t => if t = current then some ⟨i, slot, fl⟩ else s.waiting t
    asleep := fun t => if t = current then true else s.asleep t }

/-- `interruptible_sleep_on` after `schedule()`: take the task off the queue it is on,
wherever the record has gone meanwhile. -/
def State.wokenUp (s : State Task Inode) (current : Task) (w : Wait Task Inode) :
    State Task Inode :=
  let unlink := modifyAt w.slot fun n => { n with flWait := n.flWait.erase current }
  { s with
    iFlock := fun i => unlink (s.iFlock i)
    free := unlink s.free
    waiting := fun t => if t = current then none else s.waiting t }

/-- The call from the scan on: what it returns, if it does, and the state it leaves. -/
def State.setlk (s : State Task Inode) (current : Task) (i : Inode) (fl : FileLock Task)
    (cmd : Nat) (sig : Bool) : Option Int × State Task Inode :=
  match scan (s.iFlock i) fl cmd sig with
  | .ret value => (some value, s)
  | .sleep slot => (none, s.sleepOn current i slot fl)
  | .lock => (some (s.lock current i fl).1, (s.lock current i fl).2)

/-- `fcntl_setlk`. -/
def fcntlSetlk (s : State Task Inode) (current : Task) (fd : Nat) (filp : Option (File Inode))
    (verify : Int) (cmd : Nat) (flock : Flock) (sig : Bool) : Option Int × State Task Inode :=
  match fcntlSetlkArgs current fd filp verify flock with
  | .error e => (some e, s)
  | .ok (i, fl) => s.setlk current i fl cmd sig

/-- `fcntl_setlk` from the point where it wakes up. -/
def State.resume (s : State Task Inode) (current : Task) (w : Wait Task Inode) (sig : Bool) :
    Option Int × State Task Inode :=
  if sig then (some (-Errno.erestartsys), s.wokenUp current w)
  else (s.wokenUp current w).setlk current w.inode w.request fSetlkw false

end

/-! ## `fcntl_remove_locks` -/

section

variable [DecidableEq Task]

/-- The second loop of `fcntl_remove_locks`: free records as long as they are the task's.
Returns what is left of the list, the free list and the tasks woken. -/
def removeLoop (task : Task) :
    List (Entry Task) → List (Entry Task) → List Task →
      List (Entry Task) × List (Entry Task) × List Task
  | [], free, woken => ([], free, woken)
  | n :: rest, free, woken =>
    if n.fl.flOwner = some task then
      removeLoop task rest (freedEntry n :: free) (woken ++ n.fl.flWait)
    else (n :: rest, free, woken)

variable [DecidableEq Inode]

/-- `fcntl_remove_locks`, called when the file is closed. -/
def fcntlRemoveLocks (s : State Task Inode) (task : Task) (i : Inode) : State Task Inode :=
  let skipped := (s.iFlock i).takeWhile fun n => decide (n.fl.flOwner ≠ some task)
  let r := removeLoop task ((s.iFlock i).dropWhile fun n => decide (n.fl.flOwner ≠ some task))
    s.free []
  { s with
    iFlock := s.setFlock i (skipped ++ r.1)
    free := r.2.1
    asleep := fun t => s.asleep t && !decide (t ∈ r.2.2) }

/-! ## The machine -/

/-- What can happen. -/
inductive Event (Task Inode : Type) where
  /-- A task calls `fcntl_setlk`. -/
  | setlk (task : Task) (fd : Nat) (filp : Option (File Inode)) (verify : Int) (cmd : Nat)
      (flock : Flock) (sig : Bool)
  /-- A runnable task goes on with its `F_SETLKW` call. -/
  | resume (task : Task) (sig : Bool)
  /-- A signal makes a task runnable. -/
  | signal (task : Task)
  /-- `fcntl_remove_locks`. -/
  | removeLocks (task : Task) (inode : Inode)

/-- One step.  A task inside a call makes no other one, and goes on with it only when
runnable. -/
def step (s : State Task Inode) : Event Task Inode → Option (State Task Inode)
  | .setlk t fd filp verify cmd flock sig =>
    match s.waiting t with
    | some _ => none
    | none => some (fcntlSetlk s t fd filp verify cmd flock sig).2
  | .resume t sig =>
    match s.waiting t with
    | none => none
    | some w => if s.asleep t then none else some (s.resume t w sig).2
  | .signal t => some { s with asleep := fun u => if u = t then false else s.asleep u }
  | .removeLocks t i => some (fcntlRemoveLocks s t i)

/-- The call of `lock_it` a step makes, if it makes one: the state it is made in, the
task, the inode and the record. -/
def lockCall (s : State Task Inode) :
    Event Task Inode → Option (State Task Inode × Task × Inode × FileLock Task)
  | .setlk t fd filp verify cmd flock sig =>
    match fcntlSetlkArgs t fd filp verify flock with
    | .error _ => none
    | .ok (i, fl) =>
      if scan (s.iFlock i) fl cmd sig = .lock then some (s, t, i, fl) else none
  | .resume t sig =>
    match s.waiting t with
    | none => none
    | some w =>
      if sig = false ∧
          scan ((s.wokenUp t w).iFlock w.inode) w.request fSetlkw false = .lock then
        some (s.wokenUp t w, t, w.inode, w.request)
      else none
  | .signal _ => none
  | .removeLocks _ _ => none

end

end LinuxEvocation.Locks
