import LinuxEvocation.Errno

/-!
# POSIX record locks: the data model and the code of `fs/locks.c`

The lock table is a fixed array of `NR_FILE_LOCKS` records.  Each record is, at
any time, either on the list of one inode (`i_flock`) or on the free list; the
lists are singly linked through the records themselves.  The model keeps a
linked list as the list of its nodes, an `Entry` being a table index together
with the contents of the record there, so that a node carries its address from
list to list as the source's records do.

* `copyFlock` — the user's `struct flock` checked and turned into a record.
* `conflict`, `overlap` — whether a record blocks a request.
* `allocEntry`, `freedEntry` — moving a record between the lists.
* `lockIt` — `lock_it`, with its scan (`lockItLoop`) and the two allocations
  after it; the arithmetic on offsets is 32-bit and signed (`offT`).

`wake_up` on a record's queue is recorded as the list of the tasks it wakes; the
state machine of `Fs/Locks/System.lean` puts them back among the runnable ones.
-/

namespace LinuxEvocation.Locks

/-! ## Offsets -/

/-- The value an `off_t` (a 32-bit signed integer) takes when `x` is stored in it. -/
def offT (x : Int) : Int := (x + 2147483648) % 4294967296 - 2147483648

/-- `OFFSET_MAX`. -/
def offsetMax : Int := 0x7fffffff

/-- Values in range are stored as they are. -/
theorem offT_of_mem {x : Int} (h1 : -2147483648 ≤ x) (h2 : x ≤ 2147483647) : offT x = x := by
  unfold offT
  omega

/-- The one sum `lock_it` forms that leaves the range. -/
theorem offT_offsetMax_add_one : offT (offsetMax + 1) = -2147483648 := by decide

/-! ## Records -/

/-- `F_RDLCK`, `F_WRLCK`, `F_UNLCK` of `fcntl`, and the two types of BSD `flock`. -/
inductive LockType where
  | rdlck
  | wrlck
  | unlck
  | exlck
  | shlck
  deriving DecidableEq

/-- The type a raw `l_type` names, if it names one. -/
def LockType.ofRaw (n : Int16) : Option LockType :=
  if n = 0 then some .rdlck
  else if n = 1 then some .wrlck
  else if n = 2 then some .unlck
  else if n = 4 then some .exlck
  else if n = 8 then some .shlck
  else none

/-- `NR_FILE_LOCKS`. -/
abbrev nrFileLocks : Nat := 64

/-- A place in `file_lock_table`. -/
abbrev Slot := Fin nrFileLocks

/-- `struct file_lock`, without the link. -/
structure FileLock (Task : Type) where
  /-- `NULL` on the free list. -/
  flOwner : Option Task
  /-- The tasks queued on `fl_wait`. -/
  flWait : List Task
  flType : LockType
  flWhence : Int
  flStart : Int
  flEnd : Int
  deriving DecidableEq

/-- A record of the table as a node of a linked list: where it is and what it holds. -/
structure Entry (Task : Type) where
  addr : Slot
  fl : FileLock Task
  deriving DecidableEq

variable {Task Inode : Type} [DecidableEq Task]

/-- Write through a pointer to the record at `a`, wherever it stands on the list. -/
def modifyAt (a : Slot) (f : FileLock Task → FileLock Task) (l : List (Entry Task)) :
    List (Entry Task) :=
  l.map fun n => if n.addr = a then { n with fl := f n.fl } else n

/-! ## The user's request -/

/-- `struct flock`. -/
structure Flock where
  lType : Int16
  lWhence : Int16
  lStart : Int32
  lLen : Int32
  deriving DecidableEq

/-- The fields of `struct file` and of its inode that the lock calls read. -/
structure File (Inode : Type) where
  fInode : Option Inode
  fMode : UInt16
  fPos : Int32
  /-- `S_ISREG(f_inode->i_mode)`. -/
  isReg : Bool
  iSize : Int32
  deriving Repr

/-- The start offset `copy_flock` computes from `l_whence`. -/
def flockBase (filp : File Inode) (l : Flock) : Option Int :=
  if l.lWhence = 0 then some 0
  else if l.lWhence = 1 then some filp.fPos.toInt
  else if l.lWhence = 2 then some filp.iSize.toInt
  else none

/-- `copy_flock`: verify a `struct flock` and copy it to a `struct file_lock`. -/
def copyFlock (current : Task) (filp : File Inode) (l : Flock) : Option (FileLock Task) :=
  match filp.fInode, LockType.ofRaw l.lType, flockBase filp l with
  | some _, some type, some base =>
    let start := offT (base + l.lStart.toInt)
    if ¬ filp.isReg ∨ start < 0 ∨ l.lLen.toInt < 0 then none
    else
      let fin := offT (start + l.lLen.toInt - 1)
      some { flOwner := some current, flWait := [], flType := type, flWhence := 0,
             flStart := start,
             flEnd := if l.lLen = 0 ∨ fin < 0 then offsetMax else fin }
  | _, _, _ => none

/-- `overlap`. -/
def overlap (fl1 fl2 : FileLock Task) : Bool :=
  fl1.flEnd ≥ fl2.flStart && fl2.flEnd ≥ fl1.flStart

/-- `conflict`: whether `sysFl` blocks `callerFl`. -/
def conflict (callerFl sysFl : FileLock Task) : Bool :=
  if callerFl.flOwner = sysFl.flOwner then false
  else if ¬ overlap callerFl sysFl then false
  else
    match callerFl.flType with
    | .rdlck => sysFl.flType ≠ .rdlck
    | .wrlck => true
    | _ => false

/-! ## Allocation -/

/-- `free_lock` pushes the record on the free list with its owner cleared. -/
def freedEntry (n : Entry Task) : Entry Task := { n with fl := { n.fl with flOwner := none } }

/-- What `alloc_lock` leaves in the record `tmp` it took from the free list. -/
def allocEntry (current : Task) (tmp : Entry Task) (fl : FileLock Task) : Entry Task :=
  { tmp with fl := { fl with flOwner := some current, flWait := [] } }

/-! ## `lock_it` -/

/-- The local variables of `lock_it` and what it has done so far.

`before` points between `passed` and the part of the list still to come.  The
pointer `caller` is kept as the record it points to, with the index of that
record once it is one of the list (`callerAt`), in which case every write through
it is made in `passed` too. -/
structure Scan (Task : Type) where
  passed : List (Entry Task)
  free : List (Entry Task)
  woken : List Task
  caller : FileLock Task
  callerAt : Option Slot
  left : Option Slot
  right : Option (Entry Task)
  added : Bool
  /-- `panic()` was called. -/
  panicked : Bool

/-- `before = &(*before)->fl_next` with `n` the record stepped over. -/
def Scan.next (c : Scan Task) (n : Entry Task) : Scan Task := { c with passed := c.passed ++ [n] }

/-- `wake_up(&fl->fl_wait)`. -/
def Scan.wakeUp (c : Scan Task) (n : Entry Task) : Scan Task :=
  { c with woken := c.woken ++ n.fl.flWait }

/-- `free_lock(before)` with `n` the record at `*before`. -/
def Scan.freeLock (c : Scan Task) (n : Entry Task) : Scan Task :=
  { c.wakeUp n with
    free := freedEntry n :: c.free
    panicked := c.panicked || n.fl.flOwner.isNone }

/-- A write through `caller`. -/
def Scan.writeCaller (c : Scan Task) (f : FileLock Task → FileLock Task) : Scan Task :=
  { c with
    caller := f c.caller
    passed := match c.callerAt with
      | none => c.passed
      | some a => modifyAt a f c.passed }

/-- `caller = fl; added = 1`, and on to the next record. -/
def Scan.adopt (c : Scan Task) (n : Entry Task) : Scan Task :=
  { c with
    passed := c.passed ++ [n]
    caller := n.fl
    callerAt := some n.addr
    added := true }

/-- The lower start address of `caller` and `fl`: written to `fl` when `fl` starts
higher, else to `caller`. -/
def mergeStart (caller fl : FileLock Task) : Int :=
  if fl.flStart > caller.flStart then caller.flStart else fl.flStart

/-- The higher end address of `caller` and `fl`. -/
def mergeEnd (caller fl : FileLock Task) : Int :=
  if fl.flEnd < caller.flEnd then caller.flEnd else fl.flEnd

/-- "Make one lock yielding from the lower start address of both locks to the higher
end address": what this leaves in `*caller`. -/
def Scan.mergeCaller (c : Scan Task) (n : Entry Task) : Scan Task :=
  c.writeCaller fun fl =>
    { fl with flStart := mergeStart c.caller n.fl, flEnd := mergeEnd c.caller n.fl }

/-- What it leaves in `*fl`. -/
def Scan.mergeEntry (c : Scan Task) (n : Entry Task) : Entry Task :=
  { n with fl := { n.fl with flStart := mergeStart c.caller n.fl,
                             flEnd := mergeEnd c.caller n.fl } }

/-- `if (caller->fl_type == F_UNLCK) added = 1`. -/
def Scan.mark (c : Scan Task) : Scan Task :=
  if c.caller.flType = .unlck then { c with added := true } else c

/-- `if (fl->fl_start < caller->fl_start) left = fl`. -/
def Scan.noteLeft (c : Scan Task) (n : Entry Task) : Scan Task :=
  if n.fl.flStart < c.caller.flStart then { c with left := some n.addr } else c

/-- `fl` with the range and the type of `caller` and nobody waiting. -/
def Scan.replaced (c : Scan Task) (n : Entry Task) : Entry Task :=
  { n with fl := { n.fl with flStart := c.caller.flStart, flEnd := c.caller.flEnd,
                             flType := c.caller.flType, flWait := [] } }

/-- How one iteration of the loop ends: `goto next_lock` or `continue`, with the record
behind us (`go`), or `break`, with `before` still pointing at it (`halt`). -/
inductive Turn (Task : Type) where
  | go (c : Scan Task)
  | halt (c : Scan Task)

/-- The body of the loop for a record `n` of the caller's owner. -/
def lockItBody (c : Scan Task) (n : Entry Task) : Turn Task :=
  if c.caller.flType = n.fl.flType then
    -- adjacent or overlapping regions of the same lock type
    if n.fl.flEnd < offT (c.caller.flStart - 1) then .go (c.next n)
    else if n.fl.flStart > offT (c.caller.flEnd + 1) then .halt c
    else if c.added then .go ((c.mergeCaller n).freeLock (c.mergeEntry n))
    else .go ((c.mergeCaller n).adopt (c.mergeEntry n))
  else if n.fl.flEnd < c.caller.flStart then .go (c.next n)
  else if n.fl.flStart > c.caller.flEnd then .halt c
  else if n.fl.flEnd > c.caller.flEnd then .halt { c.mark.noteLeft n with right := some n }
  else if n.fl.flStart ≥ c.caller.flStart then
    -- the new lock completely replaces an old one
    if c.mark.added then .go (c.mark.freeLock n)
    else .go ((c.wakeUp n).adopt (c.replaced n))
  else .go ((c.mark.noteLeft n).next n)

/-- The scan over the records of the caller's owner.  Returns the variables and the
part of the list from `*before` on. -/
def lockItLoop : Scan Task → List (Entry Task) → Scan Task × List (Entry Task)
  | c, [] => (c, [])
  | c, n :: rest =>
    if c.caller.flOwner ≠ n.fl.flOwner then (c, n :: rest)
    else
      match lockItBody c n with
      | .go c' => lockItLoop c' rest
      | .halt c' => (c', n :: rest)

/-- What a call of `lock_it` leaves behind. -/
structure Outcome (Task : Type) where
  ret : Int
  list : List (Entry Task)
  free : List (Entry Task)
  woken : List Task
  panicked : Bool

/-- Return with the list as it stands. -/
def Scan.outcome (c : Scan Task) (rest : List (Entry Task)) (ret : Int) : Outcome Task :=
  { ret := ret, list := c.passed ++ rest, free := c.free, woken := c.woken,
    panicked := c.panicked }

/-- The variables after `alloc_lock` took the head `tmp` of the free list. -/
def Scan.took (c : Scan Task) (tmp : Entry Task) (free : List (Entry Task)) : Scan Task :=
  { c with free := free, panicked := c.panicked || tmp.fl.flOwner.isSome }

/-- The variables after `caller = alloc_lock(before, caller)`. -/
def Scan.placed (current : Task) (c : Scan Task) (tmp : Entry Task) (free : List (Entry Task)) :
    Scan Task :=
  { c.took tmp free with
    caller := (allocEntry current tmp c.caller).fl, callerAt := some tmp.addr }

/-- `if (right) right->fl_start = caller->fl_end + 1`. -/
def cutRight (callerEnd : Int) (right : Option (Entry Task)) (l : List (Entry Task)) :
    List (Entry Task) :=
  match right with
  | none => l
  | some r => modifyAt r.addr (fun fl => { fl with flStart := offT (callerEnd + 1) }) l

/-- `if (left) left->fl_end = caller->fl_start - 1`. -/
def cutLeft (callerStart : Int) (left : Option Slot) (l : List (Entry Task)) :
    List (Entry Task) :=
  match left with
  | none => l
  | some a => modifyAt a (fun fl => { fl with flEnd := offT (callerStart - 1) }) l

/-- The last two statements: `right` loses what the new lock takes from below it,
`left` what it takes from above. -/
def Scan.cut (c : Scan Task) (left : Option Slot) (rest : List (Entry Task)) : Outcome Task :=
  { ret := 0
    list := cutLeft c.caller.flStart left (cutRight c.caller.flEnd c.right (c.passed ++ rest))
    free := c.free
    woken := c.woken
    panicked := c.panicked }

/-- From the allocation for `left == right` on; `rest` starts at `*before`. -/
def Scan.split (current : Task) (added : Bool) (c : Scan Task) (rest : List (Entry Task)) :
    Outcome Task :=
  match c.right with
  | some r =>
    if c.left = some r.addr then
      match c.free with
      | tmp :: free =>
        (c.took tmp free).cut (some tmp.addr) (allocEntry current tmp r.fl :: rest)
      | [] =>
        match added, rest with
        | false, n :: rest => (c.freeLock n).outcome rest (-Errno.enolck)
        | _, _ => c.outcome rest (-Errno.enolck)
    else c.cut c.left rest
  | none => c.cut c.left rest

/-- What `lock_it` does after its loop. -/
def Scan.finish (current : Task) (c : Scan Task) (rest : List (Entry Task)) : Outcome Task :=
  if c.added then c.split current true rest
  else if c.caller.flType = .unlck then c.outcome rest (-Errno.einval)
  else
    match c.free with
    | [] => c.outcome rest (-Errno.enolck)
    | tmp :: free =>
      (c.placed current tmp free).split current false (allocEntry current tmp c.caller :: rest)

/-- The variables when the loop starts: the records of other owners at the head of
the list have been stepped over. -/
def Scan.start (l free : List (Entry Task)) (caller : FileLock Task) : Scan Task :=
  { passed := l.takeWhile fun n => decide (caller.flOwner ≠ n.fl.flOwner)
    free := free
    woken := []
    caller := caller
    callerAt := none
    left := none
    right := none
    added := false
    panicked := false }

/-- `lock_it`: add a lock to a file, or remove a range of locks from it. -/
def lockIt (current : Task) (l free : List (Entry Task)) (caller : FileLock Task) :
    Outcome Task :=
  let r := lockItLoop (Scan.start l free caller)
    (l.dropWhile fun n => decide (caller.flOwner ≠ n.fl.flOwner))
  r.1.finish current r.2

end LinuxEvocation.Locks
