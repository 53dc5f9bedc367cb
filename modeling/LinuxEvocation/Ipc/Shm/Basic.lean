import LinuxEvocation.Ipc.Table
import LinuxEvocation.Mm.Page

/-!
# Attaching shared memory: `shmat`, `shmdt` and their descriptors

Every attach of a shared segment has a descriptor, which is on the list of its task and on the
list of its segment.  The page table entries of the attached range carry the signature of the
segment until the pages are faulted in; `shm_map` refuses a range with an entry that is not
empty, unless the caller asked for `SHM_REMAP`.

* `ShmDesc`, `Segment`, `Task`, `State` — the data.
* `shmMap` — the check of the range and the entries it writes.
* `attachAddr`, `overlapTest`, `sysShmat` — `sys_shmat`.
* `detach`, `sysShmdt`, `shmExit` — the ways to detach.
* `shmFork` — the descriptors of a child.
* `newseg`, `killseg`, `ipcRmid` — the segments.
* `Event`, `stepOut` — one step of the kernel; each call is one step.
-/

namespace LinuxEvocation.Ipc.Shm

open LinuxEvocation.Mm

/-! ## The data -/

/-- `SHMMAX`. -/
def shmMax : Nat := 2 ^ 27

/-- `SHMALL`. -/
def shmAll : Nat := 2 ^ 22

/-- `SHM_RANGE_START`. -/
def shmRangeStart : Nat := 0x40000000

/-- `SHM_RANGE_END`. -/
def shmRangeEnd : Nat := 0x60000000

/-- `SHM_IDX_SHIFT`. -/
def shmIdxShift : Nat := 15

/-- The value of a `short`. -/
def short (n : Int) : Int := n.bmod 65536

/-- `struct shm_desc`, with its address `ref`, by which descriptors are told apart. -/
structure ShmDesc where
  ref : Nat
  /-- The segment, from `shm_sgn`. -/
  id : Nat
  readOnly : Bool
  start : Nat
  /-- `end`. -/
  stop : Nat
  task : Nat
  deriving DecidableEq

/-- `shm_sgn`. -/
def ShmDesc.shmSgn (d : ShmDesc) : Nat :=
  0x82 + d.id * 2 ^ 8 + if d.readOnly then 2 ^ 31 else 0

/-- `struct shmid_ds`.  The size is what `shmget` lets through. -/
structure Segment where
  segsz : Nat
  segsz_pos : 0 < segsz
  segsz_le : segsz ≤ shmMax
  /-- `shm_perm.seq`, a `ushort`. -/
  seq : UInt16
  /-- `SHM_DEST`. -/
  dest : Bool
  /-- `shm_nattch`, a `short`. -/
  nattch : Int
  attaches : List ShmDesc

/-- `shm_npages`. -/
def Segment.npages (seg : Segment) : Nat := (seg.segsz + pageSize - 1) / pageSize

/-- Where the stack of a program can start: `exec` puts it, with the arguments, at the top of the
address space. -/
abbrev StackTop : Type := { p : Nat // 0xb0000000 ≤ p ∧ p ≤ taskSize }

/-- What the calls use of a task. -/
structure Task where
  shm : List ShmDesc
  startStack : StackTop
  /-- The directory entries that point to a page table. -/
  pageTable : Nat → Bool
  /-- The page table entries, by the number of the page. -/
  pte : Nat → Nat

/-- The tasks and the segments. -/
structure State where
  task : Nat → Option Task
  /-- `shm_segs`; `none` is `IPC_UNUSED`. -/
  seg : Nat → Option Segment
  /-- The next pointer `kmalloc` returns. -/
  fresh : Nat
  shmSeq : Nat
  shmTot : Nat

namespace State

def setTask (s : State) (t : Nat) (task : Task) : State :=
  { s with task := Function.update s.task t (some task) }

def setSeg (s : State) (id : Nat) (seg : Segment) : State :=
  { s with seg := Function.update s.seg id (some seg) }

end State

/-! ## Segments -/

/-- `newseg`, after the checks of `shmget`. -/
def newseg (size : Int) (kmallocOk : Bool) (s : State) : State × Except Int Nat :=
  if h : 0 < size.toNat ∧ size.toNat ≤ shmMax then
    let numpages := (size.toNat + pageSize - 1) / pageSize
    if s.shmTot + numpages ≥ shmAll then (s, .error (-Errno.enospc))
    else
      match (List.range mni).find? fun id => (s.seg id).isNone with
      | none => (s, .error (-Errno.enospc))
      | some id =>
        if kmallocOk then
          ({ s.setSeg id ⟨size.toNat, h.1, h.2, UInt16.ofNat s.shmSeq, false, 0, []⟩ with
             shmTot := s.shmTot + numpages }, .ok (id + s.shmSeq * mni))
        else (s, .error (-Errno.enomem))
  else (s, .error (-Errno.einval))

/-- `killseg(id)`. -/
def killseg (id : Nat) (s : State) : State :=
  match s.seg id with
  | none => s
  | some seg =>
    { s with
      seg := Function.update s.seg id none
      shmSeq := bumpSeq s.shmSeq
      shmTot := s.shmTot - seg.npages }

/-- The test of an identifier, as `shmctl` makes it. -/
def lookupSeg (shmid : Int) (s : State) : Except Int (Nat × Segment) :=
  if shmid < 0 then .error (-Errno.einval)
  else
    match s.seg (shmid.toNat % mni) with
    | none => .error (-Errno.einval)
    | some seg =>
      if seg.seq.toNat ≠ shmid.toNat / mni then .error (-Errno.eidrm)
      else .ok (shmid.toNat % mni, seg)

/-- `shmctl(shmid, IPC_RMID)`. -/
def ipcRmid (shmid : Int) (owner : Bool) (s : State) : State × Except Int Nat :=
  match lookupSeg shmid s with
  | .error e => (s, .error e)
  | .ok (id, seg) =>
    if owner then
      let s := s.setSeg id { seg with dest := true }
      (if seg.nattch ≤ 0 then killseg id s else s, .ok 0)
    else (s, .error (-Errno.eperm))

/-! ## The page tables -/

/-- The first loop of `shm_map`, from the page `tmp` on: the page tables, and the error.  A page
table that is allocated is empty, so the rest of it is skipped. -/
def checkRange (remap : Bool) (alloc : Nat → Bool) (pte : Nat → Nat) (last : Nat) :
    Nat → Nat → (Nat → Bool) → (Nat → Bool) × Option Int
  | 0, _, pageTable => (pageTable, none)
  | fuel + 1, tmp, pageTable =>
    if tmp < last then
      if pageTable (tmp / ptrsPerPage) then
        if pte tmp ≠ 0 ∧ remap = false then (pageTable, some (-Errno.einval))
        else checkRange remap alloc pte last fuel (tmp + 1) pageTable
      else if alloc (tmp / ptrsPerPage) then
        checkRange remap alloc pte last fuel ((tmp / ptrsPerPage + 1) * ptrsPerPage)
          (Function.update pageTable (tmp / ptrsPerPage) true)
      else (pageTable, some (-Errno.enomem))
    else (pageTable, none)

/-- The second loop of `shm_map`: `n` pages from `tmp` on. -/
def mapRange : Nat → Nat → Nat → (Nat → Nat) → Nat → Nat
  | 0, _, _, pte => pte
  | n + 1, tmp, shmSgn, pte =>
    mapRange n (tmp + 1) (shmSgn + 2 ^ shmIdxShift) (Function.update pte tmp shmSgn)

/-- `shm_map(shmd, remap)`. -/
def shmMap (d : ShmDesc) (remap : Bool) (alloc : Nat → Bool) (task : Task) :
    Task × Option Int :=
  let first := d.start / pageSize
  let last := d.stop / pageSize
  match checkRange remap alloc task.pte last (last - first) first task.pageTable with
  | (pageTable, some err) => ({ task with pageTable := pageTable }, some err)
  | (pageTable, none) =>
    ({ task with
       pageTable := pageTable
       pte := mapRange (last - first) first d.shmSgn task.pte }, none)

/-- `unmap_page_range(from, size)` inside the user's address space: the entries of the range are
cleared, and the page tables that lie in it are freed. -/
def unmapPageRange (start size : Nat) (task : Task) : Task :=
  let first := start / pageSize
  let last := first + (size + pageSize - 1) / pageSize
  { task with
    pte := fun p => if first ≤ p ∧ p < last then 0 else task.pte p
    pageTable := fun d =>
      task.pageTable d && !(decide (first ≤ d * ptrsPerPage ∧ (d + 1) * ptrsPerPage ≤ last)) }

/-! ## `shmat` -/

/-- The arguments of `shmat`, with the answers of `ipcperms`, `kmalloc` and `get_free_page`. -/
structure ShmatArgs where
  shmid : Int
  shmaddr : Nat
  rnd : Bool
  remap : Bool
  readOnly : Bool
  denied : Bool
  kmallocOk : Bool
  alloc : Nat → Bool

/-- "set addr below all current unspecified attaches". -/
def searchAddr (l : List ShmDesc) : Nat :=
  l.foldl (fun addr d =>
    if d.start < shmRangeStart then addr else if addr ≥ d.start then d.start else addr) shmRangeEnd

/-- The address of the attach. -/
def attachAddr (task : Task) (seg : Segment) (a : ShmatArgs) : Except Int Nat :=
  if a.shmaddr = 0 then
    if a.remap then .error (-Errno.einval)
    else .ok (pageMask (searchAddr task.shm - seg.segsz))
  else if a.shmaddr % pageSize ≠ 0 then
    if a.rnd then .ok (pageMask a.shmaddr) else .error (-Errno.einval)
  else .ok a.shmaddr

/-- The test for `SHM_REMAP`: an end of the new range lies in the range of the descriptor. -/
def hits (addr segsz : Nat) (d : ShmDesc) : Bool :=
  (decide (d.start ≤ addr) && decide (addr < d.stop)) ||
    (decide (d.start ≤ addr + segsz) && decide (addr + segsz < d.stop))

def overlapTest (task : Task) (seg : Segment) (addr : Nat) : Bool :=
  task.shm.any (hits addr seg.segsz)

/-- `shmat` once its tests are passed, and `kmalloc` has returned the descriptor. -/
def attach (t : Nat) (task : Task) (id : Nat) (seg : Segment) (addr : Nat) (a : ShmatArgs)
    (s : State) : State × Except Int Nat :=
  let d : ShmDesc := ⟨s.fresh, id, a.readOnly, addr, addr + seg.npages * pageSize, t⟩
  -- "prevent destruction"
  let seg := { seg with nattch := short (seg.nattch + 1) }
  match shmMap d a.remap a.alloc task with
  | (task, some err) =>
    let seg := { seg with nattch := short (seg.nattch - 1) }
    let s := (s.setTask t task).setSeg id seg
    (if seg.nattch ≤ 0 ∧ seg.dest then killseg id s else s, .error err)
  | (task, none) =>
    let s := s.setTask t { task with shm := d :: task.shm }
    ({ s.setSeg id { seg with attaches := d :: seg.attaches } with fresh := s.fresh + 1 },
      .ok addr)

/-- `sys_shmat`.  The sums and differences of addresses do not wrap, because the stack starts far
above the largest segment. -/
def sysShmat (t : Nat) (task : Task) (a : ShmatArgs) (s : State) : State × Except Int Nat :=
  if a.shmid < 0 then (s, .error (-Errno.einval))
  else
    match s.seg (a.shmid.toNat % mni) with
    | none => (s, .error (-Errno.einval))
    | some seg =>
      match attachAddr task seg a with
      | .error e => (s, .error e)
      | .ok addr =>
        if addr > task.startStack.1 - 16384 - pageSize * seg.npages then
          (s, .error (-Errno.einval))
        else if a.remap ∧ overlapTest task seg addr then (s, .error (-Errno.einval))
        else if a.denied then (s, .error (-Errno.eacces))
        else if seg.seq.toNat ≠ a.shmid.toNat / mni then (s, .error (-Errno.eidrm))
        else if a.kmallocOk then attach t task (a.shmid.toNat % mni) seg addr a s
        else (s, .error (-Errno.enomem))

/-! ## `shmdt`, `shm_exit` and `shm_fork` -/

/-- `detach`, for the descriptor `d` of `task`.  With no segment there the code would follow the
pointer `IPC_UNUSED`, and there is no next state. -/
def detach (t : Nat) (task : Task) (d : ShmDesc) (s : State) : Option State :=
  match s.seg d.id with
  | none => none
  | some seg =>
    let task := unmapPageRange d.start seg.segsz
      { task with shm := task.shm.erase d }
    let seg := { seg with
      attaches := seg.attaches.erase d
      nattch := short (seg.nattch - 1) }
    let s := (s.setTask t task).setSeg d.id seg
    some (if seg.nattch ≤ 0 ∧ seg.dest then killseg d.id s else s)

/-- `sys_shmdt`. -/
def sysShmdt (t : Nat) (task : Task) (shmaddr : Nat) (s : State) :
    Option (State × Except Int Nat) :=
  match task.shm.find? fun d => d.start = shmaddr with
  | none => some (s, .error (-Errno.einval))
  | some d => (detach t task d s).map fun s => (s, .ok 0)

/-- `shm_exit`, for a task whose list has `n` descriptors. -/
def shmExit (t : Nat) : Nat → State → Option State
  | 0, s => some s
  | n + 1, s =>
    match s.task t with
    | none => none
    | some task =>
      match task.shm with
      | [] => some s
      | d :: _ => (detach t task d s).bind (shmExit t n)

/-- The copies of the descriptors for the child `c`, the last one first. -/
def copyDescs (c : Nat) : Nat → List ShmDesc → List ShmDesc → List ShmDesc
  | _, [], acc => acc
  | fresh, d :: l, acc => copyDescs c (fresh + 1) l ({ d with ref := fresh, task := c } :: acc)

/-- The second loop of `shm_fork`; `none` for "shm_fork: unused id=%d PANIC". -/
def attachAll : List ShmDesc → State → State × Bool
  | [], s => (s, true)
  | d :: l, s =>
    match s.seg d.id with
    | none => (s, false)
    | some seg =>
      attachAll l (s.setSeg d.id
        { seg with attaches := d :: seg.attaches, nattch := short (seg.nattch + 1) })

/-- `fork`, with the answer of `copy_vm` and how many calls of `kmalloc` in `shm_fork` succeed. -/
def shmFork (task : Task) (c : Nat) (copyVm : Bool) (kmallocs : Nat) (s : State) :
    State × Except Int Nat :=
  if copyVm = false ∨ kmallocs < task.shm.length then (s, .error (-Errno.eagain))
  else
    let newDesc := copyDescs c s.fresh task.shm []
    match attachAll newDesc { s with fresh := s.fresh + task.shm.length } with
    | (s, true) => (s.setTask c { task with shm := newDesc }, .ok c)
    | (s, false) => (s, .error (-Errno.eagain))

/-! ## The steps of the kernel -/

inductive Event where
  | newseg (size : Int) (kmallocOk : Bool)
  | rmid (shmid : Int) (owner : Bool)
  | shmat (t : Nat) (a : ShmatArgs)
  | shmdt (t shmaddr : Nat)
  | fork (t c : Nat) (copyVm : Bool) (kmallocs : Nat)
  | exit (t : Nat)
  /-- `exec`, with the stack of the new program. -/
  | exec (t : Nat) (startStack : StackTop)
  /-- A page is faulted in, or swapped out: its entry changes. -/
  | paging (t page v : Nat)

/-- The attach holds the entry of the page. -/
def ShmDesc.Covers (d : ShmDesc) (page : Nat) : Prop :=
  d.start / pageSize ≤ page ∧ page < d.stop / pageSize

/-- What the rest of the kernel promises: a fault or a swap leaves no attached page without an
entry, and the page tables below it exist. -/
def Allowed (s : State) : Event → Prop
  | .paging t page v => ∀ task, s.task t = some task → task.pageTable (page / ptrsPerPage) = true ∧
      (v = 0 → ∀ d ∈ task.shm, ¬ d.Covers page)
  | _ => True

/-- One step and what the call returns. -/
def stepOut (s : State) : Event → Option (State × Except Int Nat)
  | .newseg size kmallocOk => some (newseg size kmallocOk s)
  | .rmid shmid owner => some (ipcRmid shmid owner s)
  | .shmat t a => (s.task t).map fun task => sysShmat t task a s
  | .shmdt t shmaddr => (s.task t).bind fun task => sysShmdt t task shmaddr s
  | .fork t c copyVm kmallocs =>
    if (s.task c).isNone then (s.task t).map fun task => shmFork task c copyVm kmallocs s
    else none
  | .exit t => (s.task t).bind fun task => (shmExit t task.shm.length s).map fun s =>
      ({ s with task := Function.update s.task t none }, .ok 0)
  | .exec t startStack => (s.task t).bind fun task => (shmExit t task.shm.length s).map fun s =>
      (s.setTask t ⟨[], startStack, fun _ => false, fun _ => 0⟩, .ok 0)
  | .paging t page v => (s.task t).map fun task =>
      (s.setTask t { task with pte := Function.update task.pte page v }, .ok 0)

/-- One step. -/
def step (s : State) (e : Event) : Option State := (stepOut s e).map Prod.fst

/-- The state at boot: no segment, and one task that has attached nothing. -/
def State.init (startStack : StackTop) : State where
  task := fun t => if t = 1 then some ⟨[], startStack, fun _ => false, fun _ => 0⟩ else none
  seg := fun _ => none
  fresh := 0
  shmSeq := 0
  shmTot := 0

end LinuxEvocation.Ipc.Shm
