import LinuxEvocation.Errno
import LinuxEvocation.Lib.Transition
import Mathlib.Tactic

/-!
# The identifier tables of System V IPC

Semaphore sets, message queues and shared segments are kept in three tables of the same
make: an array of slots, a bound on the slots in use, a sequence counter that goes into the
identifiers, and the functions `findkey`, `new*`, `*get` and `free*`.  They are modelled once,
over a `Kind` that says what differs; `semKind`, `msgKind` and `shmKind` are the three.

* `Slot`, `Obj`, `Table` — the data, with the calls of `*get` that sleep in `findkey` or in
  the allocations of `new*`.
* `scan`, `findkey` — the search for a key.
* `newObj`, `kmallocReturns`, `finish` — `newary`, `newque` and `newseg`.
* `freeObj` — `freeary`, `freeque` and `killseg`.
* `lookup` — the test of an identifier by the other calls.
* `stepOut` — one step of the kernel, and what a call returns in it.
-/

namespace LinuxEvocation.Ipc

open Function (update)

/-! ## The data -/

/-- `SEMMNI`, `MSGMNI` and `SHMMNI`. -/
def mni : Nat := 128

/-- `IPC_PRIVATE`. -/
def ipcPrivate : Int := 0

/-- An entry of `semary`, `msgque` or `shm_segs`. -/
inductive Slot where
  /-- `IPC_UNUSED`. -/
  | unused
  /-- `IPC_NOID`: being allocated. -/
  | noid
  /-- A pointer to the object. -/
  | used (r : Nat)
  deriving DecidableEq

/-- What the functions read of an object. -/
structure Obj where
  key : Int
  /-- `perm.seq`, a `ushort`. -/
  seq : UInt16
  /-- `sem_nsems` or `shm_segsz`. -/
  arg : Nat
  /-- `SHM_DEST`. -/
  dest : Bool
  /-- What the creating call returned, and how often the counter had been reset before. -/
  ident : Nat
  epoch : Nat
  deriving DecidableEq

/-- `IPC_CREAT` and `IPC_EXCL`. -/
structure Flags where
  creat : Bool
  excl : Bool
  deriving DecidableEq

/-- Where a call of `semget`, `msgget` or `shmget` stands. -/
inductive GetCall where
  | idle
  /-- Asleep in `findkey`, at the slot `id`. -/
  | searching (key : Int) (arg : Nat) (flg : Flags) (id : Nat)
  /-- In `kmalloc`, for the slot `id`; `left` allocations have not returned. -/
  | creating (key : Int) (arg : Nat) (flg : Flags) (id left : Nat)
  deriving DecidableEq

/-- A table and the calls of `*get` on it. -/
structure Table (τ : Type*) where
  slot : Nat → Slot
  obj : Nat → Obj
  /-- The next pointer `kmalloc` returns. -/
  fresh : Nat
  /-- `sem_seq`, `msg_seq` or `shm_seq`. -/
  seq : Nat
  /-- `max_semid`, `max_msqid` or `max_shmid`. -/
  maxId : Nat
  /-- `used_sems` or `shm_tot`. -/
  space : Nat
  call : τ → GetCall
  /-- How often the counter has been reset, and the identifiers issued since then whose
  objects have been removed. -/
  epoch : Nat
  gone : List Nat

/-- What differs between the three tables. -/
structure Kind where
  /-- How many allocations `new*` makes. -/
  kmallocs : Nat
  /-- The check of the size argument by `*get`. -/
  argOk : Int → Bool
  /-- The checks of `new*` before it looks for a slot: the space in use and the argument
  give the error, if any. -/
  refuses : Nat → Nat → Option Int
  /-- What an object takes of the space, and whether it is charged before the allocation. -/
  cost : Nat → Nat
  chargesFirst : Bool
  /-- A removal may be put off (`SHM_DEST`). -/
  marks : Bool

/-! ## `findkey` -/

inductive Search where
  | found (id : Nat)
  | asleep (id : Nat)
  | absent
  deriving DecidableEq

variable {τ : Type*}

/-- The loop of `findkey` from the slot `id` on, with `k` more slots up to the bound. -/
def scan (T : Table τ) (key : Int) : Nat → Nat → Search
  | k, id =>
    match T.slot id with
    | .noid => .asleep id
    | .unused =>
      match k with
      | 0 => .absent
      | k + 1 => scan T key k (id + 1)
    | .used r =>
      if key = (T.obj r).key then .found id
      else
        match k with
        | 0 => .absent
        | k + 1 => scan T key k (id + 1)

/-- `findkey`, from the slot `id` on.  The slot it slept at is looked at again even when the
bound has been lowered below it. -/
def findkey (T : Table τ) (key : Int) (id : Nat) : Search := scan T key (T.maxId - id) id

/-! ## Creation -/

section Code

variable [DecidableEq τ] (K : Kind)

/-- The call returns. -/
def Table.leave (T : Table τ) (t : τ) : Table τ :=
  { T with call := update T.call t .idle }

/-- `newary`, `newque` or `newseg`, up to the first allocation. -/
def newObj (t : τ) (key : Int) (arg : Nat) (flg : Flags) (T : Table τ) : Table τ × Option Int :=
  match K.refuses T.space arg with
  | some e => (T.leave t, some (-e))
  | none =>
    match (List.range mni).find? fun id => T.slot id = .unused with
    | none => (T.leave t, some (-Errno.enospc))
    | some id =>
      ({ T with
         slot := update T.slot id .noid
         space := if K.chargesFirst then T.space + K.cost arg else T.space
         call := update T.call t (.creating key arg flg id K.kmallocs) }, none)

/-- `kmalloc` has failed. -/
def abandon (t : τ) (arg id : Nat) (T : Table τ) : Table τ :=
  { T with
    slot := update T.slot id .unused
    space := if K.chargesFirst then T.space - K.cost arg else T.space
    call := update T.call t .idle }

/-- The last allocation has succeeded: the object is filled in and published. -/
def finish (t : τ) (key : Int) (arg id : Nat) (T : Table τ) : Table τ :=
  { T with
    slot := update T.slot id (.used T.fresh)
    obj := update T.obj T.fresh
      { key := key
        seq := UInt16.ofNat T.seq
        arg := arg
        dest := false
        ident := T.seq * mni + id
        epoch := T.epoch }
    fresh := T.fresh + 1
    maxId := if id > T.maxId then id else T.maxId
    space := if K.chargesFirst then T.space else T.space + K.cost arg
    call := update T.call t .idle }

/-- `kmalloc` returns to a call of `new*`. -/
def kmallocReturns (t : τ) (ok : Bool) (T : Table τ) : Option (Table τ × Option Int) :=
  match T.call t with
  | .creating key arg flg id left =>
    if ¬ ok then some (abandon K t arg id T, some (-Errno.enomem))
    else if left > 1 then
      some ({ T with call := update T.call t (.creating key arg flg id (left - 1)) }, none)
    else some (finish K t key arg id T, some (T.seq * mni + id : Nat))
  | _ => none

/-- `semget`, `msgget` or `shmget` on a key that is in use; `denied` is what `ipcperms`
answers. -/
def getExisting (arg : Nat) (flg : Flags) (denied : Bool) (id : Nat) (T : Table τ) : Int :=
  match T.slot id with
  | .used r =>
    if flg.creat ∧ flg.excl then -Errno.eexist
    else if (T.obj r).dest then -Errno.eidrm
    else if arg > (T.obj r).arg then -Errno.einval
    else if denied then -Errno.eacces
    else ((T.obj r).seq.toNat * mni + id : Nat)
  | _ => -Errno.eidrm

/-- The search goes on from the slot `id`. -/
def search (t : τ) (key : Int) (arg : Nat) (flg : Flags) (denied : Bool) (id : Nat)
    (T : Table τ) : Table τ × Option Int :=
  match findkey T key id with
  | .asleep id => ({ T with call := update T.call t (.searching key arg flg id) }, none)
  | .found id => (T.leave t, some (getExisting arg flg denied id T))
  | .absent =>
    if flg.creat then newObj K t key arg flg T
    else (T.leave t, some (-Errno.enoent))

/-- `sys_semget`, `sys_msgget` or `sys_shmget`. -/
def sysGet (t : τ) (key arg : Int) (flg : Flags) (denied : Bool) (T : Table τ) :
    Table τ × Option Int :=
  if ¬ K.argOk arg then (T, some (-Errno.einval))
  else if key = ipcPrivate then newObj K t key arg.toNat flg T
  else search K t key arg.toNat flg denied 0 T

/-- A call wakes up in `findkey`. -/
def resume (t : τ) (denied : Bool) (T : Table τ) : Option (Table τ × Option Int) :=
  match T.call t with
  | .searching key arg flg id => some (search K t key arg flg denied id T)
  | _ => none

end Code

/-! ## Removal -/

/-- `if ((int)((++sem_seq + 1) * SEMMNI) < 0) sem_seq = 0`. -/
def bumpSeq (seq : Nat) : Nat :=
  if (seq + 2) * mni % 2 ^ 32 ≥ 2 ^ 31 then 0 else seq + 1

/-- `while (max_semid && (semary[--max_semid] == IPC_UNUSED))`. -/
def lowerMax (slot : Nat → Slot) : Nat → Nat
  | 0 => 0
  | m + 1 => if slot m = .unused then lowerMax slot m else m

/-- `freeary`, `freeque` or `killseg` of the object `r` in the slot `id`. -/
def freeObj (K : Kind) (id r : Nat) (T : Table τ) : Table τ :=
  let seq := bumpSeq T.seq
  { T with
    obj := update T.obj r { T.obj r with seq := (T.obj r).seq + 1 }
    seq := seq
    space := T.space - K.cost (T.obj r).arg
    maxId := if id = T.maxId then lowerMax T.slot T.maxId else T.maxId
    slot := update T.slot id .unused
    epoch := if seq = 0 then T.epoch + 1 else T.epoch
    gone :=
      if seq = 0 then []
      else if (T.obj r).epoch = T.epoch then (T.obj r).ident :: T.gone
      else T.gone }

/-! ## The test of an identifier -/

/-- What `semctl`, `semop`, `msgsnd`, `msgrcv`, `msgctl`, `shmat` and `shmctl` make of an
identifier: the object, or `-EINVAL` or `-EIDRM`. -/
def lookup (T : Table τ) (ident : Int) : Except Int Nat :=
  if ident < 0 then .error (-Errno.einval)
  else
    match T.slot (ident.toNat % mni) with
    | .used r =>
      if (T.obj r).seq.toNat ≠ ident.toNat / mni then .error (-Errno.eidrm) else .ok r
    | _ => .error (-Errno.einval)

/-! ## The steps of the kernel -/

inductive Event (τ : Type*) where
  | get (t : τ) (key arg : Int) (flg : Flags) (denied : Bool)
  /-- A call wakes up in `findkey`, for whatever reason. -/
  | resume (t : τ) (denied : Bool)
  | kmalloc (t : τ) (ok : Bool)
  /-- Somebody removes the object in the slot. -/
  | free (id : Nat)
  /-- `shmctl(IPC_RMID)` on a segment that is still attached. -/
  | mark (id : Nat)
  deriving DecidableEq

/-- One step, with what the call returns if it returns in it. -/
def stepOut [DecidableEq τ] (K : Kind) (T : Table τ) :
    Event τ → Option (Table τ × Option Int)
  | .get t key arg flg denied =>
    if T.call t = .idle then some (sysGet K t key arg flg denied T) else none
  | .resume t denied => resume K t denied T
  | .kmalloc t ok => kmallocReturns K t ok T
  | .free id =>
    match T.slot id with
    | .used r => some (freeObj K id r T, none)
    | _ => none
  | .mark id =>
    match T.slot id with
    | .used r =>
      if K.marks then
        some ({ T with obj := update T.obj r { T.obj r with dest := true } }, none)
      else none
    | _ => none

def step [DecidableEq τ] (K : Kind) (T : Table τ) (e : Event τ) : Option (Table τ) :=
  (stepOut K T e).map Prod.fst

/-- `sem_init`, `msg_init` or `shm_init`. -/
def Table.init : Table τ where
  slot _ := .unused
  obj _ := ⟨0, 0, 0, false, 0, 0⟩
  fresh := 0
  seq := 0
  maxId := 0
  space := 0
  call _ := .idle
  epoch := 0
  gone := []

/-! ## The three tables -/

/-- Semaphore sets; the argument is `nsems`, at most `SEMMSL`, and there are at most `SEMMNS`
semaphores. -/
def semKind : Kind where
  kmallocs := 1
  argOk nsems := 0 ≤ nsems ∧ nsems ≤ 32
  refuses usedSems nsems :=
    if nsems = 0 then some Errno.einval
    else if usedSems + nsems > 4096 then some Errno.enospc
    else none
  cost nsems := nsems
  chargesFirst := true
  marks := false

/-- Message queues. -/
def msgKind : Kind where
  kmallocs := 1
  argOk _ := true
  refuses _ _ := none
  cost _ := 0
  chargesFirst := true
  marks := false

/-- `(size + PAGE_SIZE -1) >> PAGE_SHIFT`. -/
def numpages (size : Nat) : Nat := (size + 4095) / 4096

/-- Shared segments; the argument is `size`, from `SHMMIN` to `SHMMAX`, and there are fewer
than `SHMALL` pages. -/
def shmKind : Kind where
  kmallocs := 2
  argOk size := 0 ≤ size ∧ size ≤ 2 ^ 27
  refuses shmTot size :=
    if size < 1 then some Errno.einval
    else if shmTot + numpages size ≥ 2 ^ 22 then some Errno.enospc
    else none
  cost := numpages
  chargesFirst := false
  marks := true

/-- The three facilities. -/
inductive Facility where
  | sem
  | msg
  | shm
  deriving DecidableEq

def Facility.kind : Facility → Kind
  | .sem => semKind
  | .msg => msgKind
  | .shm => shmKind

section Members

variable [DecidableEq τ]

/-- `newary`. -/
def newary (t : τ) (key : Int) (nsems : Nat) (semflg : Flags) (T : Table τ) :
    Table τ × Option Int :=
  newObj semKind t key nsems semflg T

/-- `sys_semget`. -/
def sysSemget (t : τ) (key nsems : Int) (semflg : Flags) (denied : Bool) (T : Table τ) :
    Table τ × Option Int :=
  sysGet semKind t key nsems semflg denied T

/-- `freeary`. -/
def freeary (id sma : Nat) (T : Table τ) : Table τ := freeObj semKind id sma T

/-- `newque`. -/
def newque (t : τ) (key : Int) (msgflg : Flags) (T : Table τ) : Table τ × Option Int :=
  newObj msgKind t key 0 msgflg T

/-- `sys_msgget`. -/
def sysMsgget (t : τ) (key : Int) (msgflg : Flags) (denied : Bool) (T : Table τ) :
    Table τ × Option Int :=
  sysGet msgKind t key 0 msgflg denied T

/-- `freeque`. -/
def freeque (id msq : Nat) (T : Table τ) : Table τ := freeObj msgKind id msq T

/-- `newseg`. -/
def newseg (t : τ) (key : Int) (shmflg : Flags) (size : Nat) (T : Table τ) :
    Table τ × Option Int :=
  newObj shmKind t key size shmflg T

/-- `sys_shmget`. -/
def sysShmget (t : τ) (key size : Int) (shmflg : Flags) (denied : Bool) (T : Table τ) :
    Table τ × Option Int :=
  sysGet shmKind t key size shmflg denied T

/-- `killseg`. -/
def killseg (id shp : Nat) (T : Table τ) : Table τ := freeObj shmKind id shp T

end Members

end LinuxEvocation.Ipc
