import LinuxEvocation.Ipc.Table

/-!
# System V semaphores: `sys_semop`, `semctl` and `sem_exit`

`sys_semop` checks its operations one after the other against the values as they are, sleeps
at the first that cannot be done and begins again when it is woken, and only then performs
them all.  With `SEM_UNDO` the operations are recorded, with the opposite sign, in undo
records that are on a list of the process and on a list of the set; `sem_exit` adds them to
the values.

* `Sem`, `SemSet`, `Undo`, `Task`, `State` — the data, over the identifier table of the sets.
* `checkOps`, `applyOps`, `attempt`, `addUndos`, `semop` — `sys_semop`.
* `setvalBegin`, `setallBegin`, `ctlEnd` — `semctl` with `SETVAL` and `SETALL`, before and after the
  arguments are copied from user space.
* `adjust`, `exitStep` — `sem_exit`, one undo record a step.
* `stepOut` — one step of the kernel.
-/

namespace LinuxEvocation.Ipc.Semaphore

open Function (update)

/-! ## The data -/

/-- `SEMVMX`. -/
def semvmx : Int := 32767

/-- `SEMOPM`. -/
def semopm : Nat := 32

/-- Conversion to `ushort`. -/
def toUshort (x : Int) : UInt16 := UInt16.ofNat (x % 65536).toNat

/-- `struct sem`. -/
structure Sem where
  semval : UInt16
  semncnt : UInt16
  semzcnt : UInt16
  deriving DecidableEq

/-- `struct sembuf`, with the two flags. -/
structure Sembuf where
  semNum : UInt16
  semOp : Int16
  /-- `IPC_NOWAIT`. -/
  nowait : Bool
  /-- `SEM_UNDO`. -/
  undo : Bool
  deriving DecidableEq

/-- `struct sem_undo`. -/
structure Undo where
  semid : Nat
  semNum : UInt16
  semadj : Int16
  deriving DecidableEq

/-- What follows `struct semid_ds` and its list of undo records (`id_next`).  Its key, sequence
number and `sem_nsems` are in the table. -/
structure SemSet where
  /-- `sem_base`: the array, and the memory behind it. -/
  base : Nat → Sem
  undo : List Nat

inductive WaitQueue where
  | eventn
  | eventz
  deriving DecidableEq

/-- Where a process stands. -/
inductive Task where
  | running
  /-- Asleep in `sys_semop`, for the semaphore `num`. -/
  | opSleep (semid : Nat) (sops : List Sembuf) (sma : Nat) (q : WaitQueue) (num : Nat)
      (woken : Bool)
  /-- `semctl` copies its argument from user space. -/
  | setval (semid semnum sma : Nat) (val : Int)
  | setall (semid sma nsems : Nat) (semIo : List UInt16)
  /-- In the loop of `sem_exit`. -/
  | exiting
  /-- Asleep in `sem_exit`, for the record `u`. -/
  | exitSleep (sma u : Nat) (woken : Bool)
  | gone
  deriving DecidableEq

structure State (τ : Type*) where
  table : Table τ
  set : Nat → SemSet
  undo : Nat → Undo
  /-- The next undo record `kmalloc` returns. -/
  freshUndo : Nat
  /-- `current->semun` (`proc_next`). -/
  semun : τ → List Nat
  task : τ → Task
  /-- `current->signal & ~current->blocked`. -/
  pending : τ → Bool

variable {τ : Type*}

namespace State

/-- `sma->sem_nsems`. -/
def nsems (s : State τ) (sma : Nat) : Nat := (s.table.obj sma).arg

/-- `sma->sem_perm.seq`. -/
def seq (s : State τ) (sma : Nat) : Nat := (s.table.obj sma).seq.toNat

/-- `sma->sem_base[num].semval`. -/
def semval (s : State τ) (sma num : Nat) : UInt16 := ((s.set sma).base num).semval

/-- A store to `sma->sem_base[num]`. -/
def setSem (s : State τ) (sma num : Nat) (x : Sem) : State τ :=
  { s with
    set := update s.set sma
      { s.set sma with base := update (s.set sma).base num x } }

def setSemval (s : State τ) (sma num : Nat) (v : UInt16) : State τ :=
  s.setSem sma num { (s.set sma).base num with semval := v }

/-- `sma->undo = l`. -/
def setUndoList (s : State τ) (sma : Nat) (l : List Nat) : State τ :=
  { s with set := update s.set sma { s.set sma with undo := l } }

/-- `wake_up(&sma->eventn)` or `wake_up(&sma->eventz)`. -/
def wakeUp (s : State τ) (sma : Nat) (q : WaitQueue) : State τ :=
  { s with
    task := fun t =>
      match s.task t with
      | .opSleep semid sops sma' q' num woken =>
        .opSleep semid sops sma' q' num (woken || (sma' = sma && q' = q))
      | .exitSleep sma' u woken =>
        .exitSleep sma' u (woken || (sma' = sma && q = .eventn))
      | x => x }

/-- The semaphore counts one more process that waits. -/
def countUp (s : State τ) (sma num : Nat) : WaitQueue → State τ
  | .eventn => s.setSem sma num
      { (s.set sma).base num with semncnt := ((s.set sma).base num).semncnt + 1 }
  | .eventz => s.setSem sma num
      { (s.set sma).base num with semzcnt := ((s.set sma).base num).semzcnt + 1 }

def countDown (s : State τ) (sma num : Nat) : WaitQueue → State τ
  | .eventn => s.setSem sma num
      { (s.set sma).base num with semncnt := ((s.set sma).base num).semncnt - 1 }
  | .eventz => s.setSem sma num
      { (s.set sma).base num with semzcnt := ((s.set sma).base num).semzcnt - 1 }

/-- `un->semadj = 0` for the records of the set that pass the test. -/
def clearAdj (s : State τ) (sma : Nat) (test : Undo → Bool) : State τ :=
  { s with
    undo := fun u =>
      if u ∈ (s.set sma).undo ∧ test (s.undo u) then { s.undo u with semadj := 0 } else s.undo u }

/-- The search for the undo record of an operation. -/
def findUndo (s : State τ) (t : τ) (semid : Nat) (num : UInt16) : Option Nat :=
  (s.semun t).find? fun u => (s.undo u).semid = semid && (s.undo u).semNum = num

variable [DecidableEq τ]

def setTask (s : State τ) (t : τ) (x : Task) : State τ :=
  { s with task := update s.task t x }

end State

/-! ## `sys_semop` -/

inductive Check where
  | pass
  | fail (e : Int)
  | sleep (q : WaitQueue) (num : Nat)
  deriving DecidableEq

/-- The first loop after `slept`. -/
def checkOps (val : Nat → UInt16) (pending : Bool) : List Sembuf → Check
  | [] => .pass
  | sop :: rest =>
    let num := sop.semNum.toNat
    let sum := sop.semOp.toInt + (val num).toNat
    if sum > semvmx then .fail Errno.erange
    else if sop.semOp = 0 ∧ val num ≠ 0 then
      if sop.nowait then .fail Errno.eagain
      else if pending then .fail Errno.eintr
      else .sleep .eventz num
    else if sum < 0 then
      if sop.nowait then .fail Errno.eagain
      else if pending then .fail Errno.eintr
      else .sleep .eventn num
    else checkOps val pending rest

/-- One round of the second loop. -/
def applyOp (t : τ) (semid sma : Nat) (sop : Sembuf) (s : State τ) : State τ :=
  let num := sop.semNum.toNat
  let s := s.setSemval sma num (toUshort ((s.semval sma num).toNat + sop.semOp.toInt))
  if sop.undo then
    match s.findUndo t semid sop.semNum with
    | some u =>
      { s with
        undo := update s.undo u
          { s.undo u with semadj := (s.undo u).semadj - sop.semOp } }
    -- "semop : no undo for op %d"
    | none => s
  else s

/-- The second loop; the flag is `semzcnt`. -/
def applyOps (t : τ) (semid sma : Nat) : List Sembuf → State τ → Bool → State τ × Bool
  | [], s, semzcnt => (s, semzcnt)
  | sop :: rest, s, semzcnt =>
    let s := applyOp t semid sma sop s
    applyOps t semid sma rest s (semzcnt || s.semval sma sop.semNum.toNat = 0)

section Code

variable [DecidableEq τ]

/-- The second loop and the wake-ups after it. -/
def performed (t : τ) (semid : Nat) (sops : List Sembuf) (sma : Nat) (s : State τ) : State τ :=
  let (s, semzcnt) := applyOps t semid sma sops s false
  let s := if sops.any fun sop => sop.semOp > 0 then s.wakeUp sma .eventn else s
  let s := if semzcnt then s.wakeUp sma .eventz else s
  s.setTask t .running

/-- From the label `slept` on.  `none` when the call sleeps. -/
def attempt (t : τ) (semid : Nat) (sops : List Sembuf) (sma : Nat) (s : State τ) :
    State τ × Option Int :=
  if s.seq sma ≠ semid / mni then (s.setTask t .running, some (-Errno.eidrm))
  else
    match checkOps (s.semval sma) (s.pending t) sops with
    | .fail e => (s.setTask t .running, some (-e))
    | .sleep q num =>
      ((s.countUp sma num q).setTask t (.opSleep semid sops sma q num false), none)
    | .pass =>
      let s := performed t semid sops sma s
      (s, some ((sops.getLast?.map fun sop => (s.semval sma sop.semNum.toNat).toNat).getD 0 : Nat))

/-- "ensure every sop with undo gets an undo structure"; `allocs` allocations succeed. -/
def addUndos (t : τ) (semid sma : Nat) : Nat → List Sembuf → State τ → State τ × Bool
  | _, [], s => (s, true)
  | allocs, sop :: rest, s =>
    if ¬ sop.undo then addUndos t semid sma allocs rest s
    else if (s.findUndo t semid sop.semNum).isSome then addUndos t semid sma allocs rest s
    else
      match allocs with
      | 0 => (s, false)
      | allocs + 1 =>
        addUndos t semid sma allocs rest
          { s with
            undo := update s.undo s.freshUndo ⟨semid, sop.semNum, 0⟩
            freshUndo := s.freshUndo + 1
            semun := update s.semun t (s.freshUndo :: s.semun t)
            set := update s.set sma
              { s.set sma with undo := s.freshUndo :: (s.set sma).undo } }

/-- The set that `sys_semop` finds, when its arguments pass the checks. -/
def semopSet (s : State τ) (semid : Int) (sops : List Sembuf) (denied : Bool) : Except Int Nat :=
  if sops.length < 1 ∨ semid < 0 then .error Errno.einval
  else if sops.length > semopm then .error Errno.e2big
  else
    match s.table.slot (semid.toNat % mni) with
    | .used sma =>
      if sops.any fun sop => sop.semNum.toNat > s.nsems sma then .error Errno.efbig
      else if denied then .error Errno.eacces
      else .ok sma
    | _ => .error Errno.einval

/-- `sys_semop`. -/
def semop (t : τ) (semid : Int) (sops : List Sembuf) (denied : Bool) (allocs : Nat)
    (s : State τ) : State τ × Option Int :=
  match semopSet s semid sops denied with
  | .error e => (s, some (-e))
  | .ok sma =>
    match addUndos t semid.toNat sma allocs sops s with
    | (s, false) => (s, some (-Errno.enomem))
    | (s, true) => attempt t semid.toNat sops sma s

/-! ## `semctl` -/

/-- The checks of `semctl` before it copies anything. -/
def ctlSet (s : State τ) (semid semnum : Int) : Except Int Nat :=
  if semid < 0 ∨ semnum < 0 then .error Errno.einval
  else
    match s.table.slot (semid.toNat % mni) with
    | .used sma =>
      if s.seq sma ≠ semid.toNat / mni then .error Errno.eidrm
      else if semnum ≥ s.nsems sma then .error Errno.einval
      else .ok sma
    | _ => .error Errno.einval

/-- `semctl(semid, semnum, SETVAL, val)`, up to the copy. -/
def setvalBegin (t : τ) (semid semnum val : Int) (s : State τ) : State τ × Option Int :=
  match ctlSet s semid semnum with
  | .error e => (s, some (-e))
  | .ok sma => (s.setTask t (.setval semid.toNat semnum.toNat sma val), none)

/-- `semctl(semid, semnum, SETALL, array)`, up to the copy. -/
def setallBegin (t : τ) (semid semnum : Int) (array : Nat → UInt16) (s : State τ) :
    State τ × Option Int :=
  match ctlSet s semid semnum with
  | .error e => (s, some (-e))
  | .ok sma =>
    (s.setTask t (.setall semid.toNat sma (s.nsems sma) ((List.range (s.nsems sma)).map array)),
      none)

/-- The tests `semctl` makes again after the copy. -/
def ctlRecheck (semid sma : Nat) (denied : Bool) (s : State τ) : Option Int :=
  match s.table.slot (semid % mni) with
  | .used _ =>
    if s.seq sma ≠ semid / mni then some Errno.eidrm
    else if denied then some Errno.eacces
    else none
  | _ => some Errno.eidrm

/-- `SETVAL`. -/
def setvalEnd (semid semnum sma : Nat) (val : Int) (denied : Bool) (s : State τ) :
    State τ × Int :=
  if val > semvmx ∨ val < 0 then (s, -Errno.erange)
  else
    match ctlRecheck semid sma denied s with
    | some e => (s, -e)
    | none =>
      let s := s.clearAdj sma fun un => un.semNum.toNat = semnum
      let s := s.setSemval sma semnum (toUshort val)
      ((s.wakeUp sma .eventn).wakeUp sma .eventz, 0)

/-- `SETALL`. -/
def setallEnd (semid sma nsems : Nat) (semIo : List UInt16) (denied : Bool) (s : State τ) :
    State τ × Int :=
  if semIo.any fun v => v.toNat > semvmx then (s, -Errno.erange)
  else
    match ctlRecheck semid sma denied s with
    | some e => (s, -e)
    | none =>
      let s := { s with
        set := update s.set sma
          { s.set sma with
            base := fun i =>
              if i < nsems then { (s.set sma).base i with semval := semIo.getD i 0 }
              else (s.set sma).base i } }
      let s := s.clearAdj sma fun _ => true
      ((s.wakeUp sma .eventn).wakeUp sma .eventz, 0)

/-- `semctl` goes on after the copy. -/
def ctlEnd (t : τ) (denied : Bool) (s : State τ) : Option (State τ × Int) :=
  match s.task t with
  | .setval semid semnum sma val =>
    let r := setvalEnd semid semnum sma val denied s
    some (r.1.setTask t .running, r.2)
  | .setall semid sma nsems semIo =>
    let r := setallEnd semid sma nsems semIo denied s
    some (r.1.setTask t .running, r.2)
  | _ => none

/-! ## `sem_exit` -/

/-- `*up = u->proc_next, kfree(u)`. -/
def dropUndo (t : τ) (s : State τ) : State τ :=
  { s.setTask t .exiting with semun := update s.semun t (s.semun t).tail }

/-- The adjustment is added, and the wake-ups after it. -/
def adjusted (t : τ) (sma u : Nat) (s : State τ) : State τ :=
  let un := s.undo u
  let num := un.semNum.toNat
  let s := s.setSemval sma num (toUshort ((s.semval sma num).toNat + un.semadj.toInt))
  let s := if un.semadj > 0 then s.wakeUp sma .eventn else s
  let s := if s.semval sma num = 0 then s.wakeUp sma .eventz else s
  dropUndo t s

/-- One round of the inner loop of `sem_exit`. -/
def adjust (t : τ) (sma u : Nat) (s : State τ) : State τ :=
  let un := s.undo u
  let num := un.semNum.toNat
  if s.seq sma ≠ un.semid / mni then dropUndo t s
  else if (s.semval sma num).toNat + un.semadj.toInt ≥ 0 then adjusted t sma u s
  else if s.pending t then dropUndo t s
  else (s.countUp sma num .eventn).setTask t (.exitSleep sma u false)

/-- One round of the outer loop of `sem_exit`, up to the first sleep. -/
def exitStep (t : τ) (s : State τ) : State τ :=
  match s.semun t with
  | [] => s.setTask t .gone
  | u :: _ =>
    let un := s.undo u
    match s.table.slot (un.semid % mni) with
    | .used sma =>
      if s.seq sma ≠ un.semid / mni then dropUndo t s
      else if u ∈ (s.set sma).undo then
        let s := s.setUndoList sma ((s.set sma).undo.erase u)
        if un.semadj = 0 then dropUndo t s else adjust t sma u s
      else
        -- "sem_exit undo list error id=%d"
        { s.setTask t .gone with semun := update s.semun t [] }
    | _ => dropUndo t s

/-- A process runs again after a sleep, or goes on in `sem_exit`. -/
def run (t : τ) (s : State τ) : Option (State τ × Option Int) :=
  match s.task t with
  | .opSleep semid sops sma q num woken =>
    if woken ∨ s.pending t then some (attempt t semid sops sma (s.countDown sma num q)) else none
  | .exitSleep sma u woken =>
    if woken ∨ s.pending t then
      some (adjust t sma u (s.countDown sma (s.undo u).semNum.toNat .eventn), none)
    else none
  | .exiting => some (exitStep t s, none)
  | _ => none

/-! ## The steps of the kernel -/

inductive Event (τ : Type*) where
  /-- A step on the identifier table. -/
  | table (e : Ipc.Event τ)
  | semop (t : τ) (semid : Int) (sops : List Sembuf) (denied : Bool) (allocs : Nat)
  | setval (t : τ) (semid semnum val : Int)
  | setall (t : τ) (semid semnum : Int) (array : Nat → UInt16)
  | ctl (t : τ) (denied : Bool)
  | run (t : τ)
  | exit (t : τ)
  | signal (t : τ) (pending : Bool)

/-- `memset (sma, 0, size)`. -/
def zeroSet : SemSet := ⟨fun _ => ⟨0, 0, 0⟩, []⟩

/-- The table has changed, and a set that has been made is zeroed. -/
def State.withTable (s : State τ) (T : Table τ) : State τ :=
  { s with
    table := T
    set := if T.fresh = s.table.fresh then s.set
      else update s.set s.table.fresh zeroSet }

/-- What `freeary` does beside the table: the records of the set are void and everybody who
waits is woken. -/
def releaseSet (sma : Nat) (s : State τ) : State τ :=
  ((s.clearAdj sma fun _ => true).wakeUp sma .eventz).wakeUp sma .eventn

/-- A step on the table; a set that has been removed is released. -/
def tableStep (e : Ipc.Event τ) (s : State τ) : Option (State τ × Option Int) :=
  match Ipc.stepOut semKind s.table e with
  | none => none
  | some (T, out) =>
    match e with
    | .free id =>
      match s.table.slot id with
      | .used sma => some (releaseSet sma (s.withTable T), out)
      | _ => some (s.withTable T, out)
    | _ => some (s.withTable T, out)

/-- One step, with what the call returns if it returns in it. -/
def stepOut (s : State τ) : Event τ → Option (State τ × Option Int)
  | .table e => tableStep e s
  | .semop t semid sops denied allocs =>
    if s.task t = .running then some (semop t semid sops denied allocs s) else none
  | .setval t semid semnum val =>
    if s.task t = .running then some (setvalBegin t semid semnum val s) else none
  | .setall t semid semnum array =>
    if s.task t = .running then some (setallBegin t semid semnum array s) else none
  | .ctl t denied => (ctlEnd t denied s).map fun r => (r.1, some r.2)
  | .run t => run t s
  | .exit t => if s.task t = .running then some (s.setTask t .exiting, none) else none
  | .signal t pending => some ({ s with pending := update s.pending t pending }, none)

def step (s : State τ) (e : Event τ) : Option (State τ) := (stepOut s e).map Prod.fst

end Code

/-- `sem_init`. -/
def State.init : State τ where
  table := Table.init
  set _ := zeroSet
  undo _ := ⟨0, 0, 0⟩
  freshUndo := 0
  semun _ := []
  task _ := .running
  pending _ := false

end LinuxEvocation.Ipc.Semaphore
