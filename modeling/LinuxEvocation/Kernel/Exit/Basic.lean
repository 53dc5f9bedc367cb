import LinuxEvocation.Errno
import LinuxEvocation.Lib.Transition
import Mathlib.Algebra.Order.Ring.Int

/-!
# Signals, `do_exit` and `sys_wait4`

The tasks are records in memory, named by their addresses; they are linked in a ring of all tasks
and in the chains of the children of each task.  `exit_code` is one field for what a task has
stopped with, for what its tracer lets it go on with, and for what it has exited with.

The kernel is not preempted: a step is what a task does from one sleep to the next.  `do_exit` may
sleep while it gives its files and inodes back, and not after that.  `sys_wait4` may sleep wherever it
stores to its caller's memory, with the child it has found.

* `Task`, `State` — the data.
* `generate`, `sendSig`, `notifyParent` — signals.
* `killPg`, `killSl`, `killProc`, `sysKill` — signals for groups, sessions and processes.
* `removeLinks`, `setLinks`, `release` — the links of a task.
* `isOrphanedPgrp`, `hasStoppedJobs`, `forgetOriginalParent`, `exitChildren`, `doExit`.
* `scan`, `reap`, `sysWait4`.
* `stepOut` — one step of the kernel, and what a call returns in it.
-/

namespace LinuxEvocation.Exit

/-! ## The data -/

def sighup : Nat := 1
def sigkill : Nat := 9
def sigchld : Nat := 17
def sigcont : Nat := 18
def sigstop : Nat := 19
def sigtstp : Nat := 20
def sigttin : Nat := 21
def sigttou : Nat := 22
def sigwinch : Nat := 28

/-- `NR_TASKS`. -/
def nrTasks : Nat := 64

inductive TaskState where
  | running
  | interruptible
  | uninterruptible
  | stopped
  | zombie
  deriving DecidableEq

/-- `sa_handler`. -/
inductive Handler where
  | dfl
  | ign
  | user
  deriving DecidableEq

/-- `struct task_struct`.  Addresses are numbers, 0 is `NULL`. -/
structure Task where
  state : TaskState
  signal : BitVec 32
  blocked : BitVec 32
  exitCode : Int
  exitSignal : Nat
  /-- `PF_PTRACED` and `PF_TRACESYS`. -/
  ptraced : Bool
  tracesys : Bool
  pid : Int
  pgrp : Int
  session : Int
  leader : Bool
  tty : Int
  uid : Nat
  euid : Nat
  handler : Nat → Handler
  nextTask : Nat
  prevTask : Nat
  pPptr : Nat
  pOpptr : Nat
  pCptr : Nat
  pYsptr : Nat
  pOsptr : Nat

/-- What `do_exit` uses of `struct tty_struct`. -/
structure Tty where
  pgrp : Int
  session : Int
  deriving DecidableEq

/-- The arguments of `sys_wait4`: `stat` says that `stat_addr` is not `NULL`. -/
structure Wait where
  pid : Int
  stat : Bool
  nohang : Bool
  untraced : Bool
  clone : Bool
  deriving DecidableEq

/-- Where a task stands in the calls of the model. -/
inductive Pc where
  | user
  /-- In `do_exit(code)`, before the task is a zombie. -/
  | exiting (code : Int)
  /-- Asleep in `sys_wait4`. -/
  | waiting (w : Wait)
  /-- In `put_fs_long`, which stores what a child has stopped with. -/
  | clearing (p : Nat) (status : Option Int)
  /-- In `getrusage`, for a zombie that is found; `stat` as in `Wait`. -/
  | found (p : Nat) (stat : Bool)
  /-- In `put_fs_long`, which stores the status of a zombie. -/
  | reaping (p : Nat) (status : Option Int)
  | dead
  deriving DecidableEq

structure State where
  task : Nat → Task
  /-- `task[]`. -/
  slot : Nat → Nat
  /-- `TTY_TABLE`. -/
  tty : Nat → Option Tty
  pc : Nat → Pc
  /-- Not in the code: what a task has passed to `do_exit`. -/
  code : Nat → Int

/-- What `sys_wait4` has found, and the status it has stored. -/
inductive Report where
  | stopped (p : Nat) (status : Option Int)
  | zombie (p : Nat) (status : Option Int)
  deriving DecidableEq

structure Return where
  val : Int
  report : Option Report
  deriving DecidableEq

def State.modify (s : State) (p : Nat) (f : Task → Task) : State :=
  { s with task := Function.update s.task p (f (s.task p)) }

def State.setPc (s : State) (p : Nat) (x : Pc) : State :=
  { s with pc := Function.update s.pc p x }

/-- The nodes from `p` on, along `next`, up to the pointer `last`. -/
def walk (next : Nat → Nat) (last : Nat) : Nat → Nat → List Nat
  | 0, _ => []
  | fuel + 1, p => if p = last then [] else p :: walk next last fuel (next p)

/-- `for_each_task`: all tasks but `init_task`, which is `task[0]`. -/
def State.tasks (s : State) : List Nat :=
  walk (fun p => (s.task p).nextTask) (s.slot 0) nrTasks (s.task (s.slot 0)).nextTask

/-- The children of a task, from the youngest on. -/
def State.children (s : State) (t : Nat) : List Nat :=
  walk (fun p => (s.task p).pOsptr) 0 nrTasks (s.task t).pCptr

/-! ## Signals -/

def sigmask (sig : Nat) : BitVec 32 := 1#32 <<< (sig - 1)

/-- `generate`. -/
def generate (sig : Nat) (t : Task) : Task :=
  if t.ptraced then { t with signal := t.signal ||| sigmask sig }
  else if t.handler sig = .ign ∧ sig ≠ sigchld then t
  else if t.handler sig = .dfl ∧ (sig = sigcont ∨ sig = sigchld ∨ sig = sigwinch) then t
  else { t with signal := t.signal ||| sigmask sig }

/-- What `send_sig` does to a task it may send the signal to. -/
def deliver (sig : Nat) (t : Task) : Task :=
  let t :=
    if sig = sigkill ∨ sig = sigcont then
      { t with
        state := if t.state = .stopped then .running else t.state
        exitCode := 0
        signal := t.signal &&&
          ~~~ (sigmask sigstop ||| sigmask sigtstp ||| sigmask sigttin ||| sigmask sigttou) }
    else t
  let t :=
    if sig ≥ sigstop ∧ sig ≤ sigttou then { t with signal := t.signal &&& ~~~ sigmask sigcont }
    else t
  generate sig t

/-- `cur` may send the signal to `t`. -/
def permitted (sig : Nat) (cur t : Task) (priv : Bool) : Prop :=
  priv ∨ (sig = sigcont ∧ cur.session = t.session) ∨ cur.euid = t.euid ∨ cur.uid = t.uid ∨
    cur.euid = 0

instance (sig : Nat) (cur t : Task) (priv : Bool) : Decidable (permitted sig cur t priv) :=
  inferInstanceAs (Decidable (_ ∨ _))

/-- `send_sig`, with `cur` for `current`. -/
def sendSig (cur sig p : Nat) (priv : Bool) (s : State) : State × Int :=
  if p = 0 ∨ sig > 32 then (s, -Errno.einval)
  else if ¬ permitted sig (s.task cur) (s.task p) priv then (s, -Errno.eperm)
  else if sig = 0 then (s, 0)
  else (s.modify p (deliver sig), 0)

/-- `wake_up_interruptible(&p->wait_chldexit)`: `p` is the only one that sleeps there. -/
def wakeChldexit (p : Nat) (s : State) : State :=
  match s.pc p with
  | .waiting _ =>
    s.modify p fun t => if t.state = .interruptible then { t with state := .running } else t
  | _ => s

/-- The signal `notify_parent` sends. -/
def State.notifySignal (s : State) (p : Nat) : Nat :=
  if (s.task p).pPptr = s.slot 1 then sigchld else (s.task p).exitSignal

/-- `notify_parent`. -/
def notifyParent (p : Nat) (s : State) : State :=
  let sig := s.notifySignal p
  let s := s.modify p fun t => { t with exitSignal := sig }
  wakeChldexit (s.task p).pPptr (sendSig p sig (s.task p).pPptr true s).1

/-- `sig` as the `unsigned long` that `send_sig` takes. -/
def ulong (sig : Int) : Nat := (sig % 2 ^ 32).toNat

/-- A signal for each task that `sel` selects; the state, how many have got it, and the error of
the last one that has not. -/
def killEach (cur sig : Nat) (priv : Bool) (sel : Task → Bool) :
    List Nat → State × Nat × Int → State × Nat × Int
  | [], r => r
  | p :: ps, (s, found, retval) =>
    if sel (s.task p) then
      let (s, err) := sendSig cur sig p priv s
      killEach cur sig priv sel ps (if err ≠ 0 then (s, found, err) else (s, found + 1, retval))
    else killEach cur sig priv sel ps (s, found, retval)

/-- The common part of `kill_pg` and `kill_sl`; `id` is the number of the group or the session. -/
def killSelected (cur : Nat) (id : Int) (sel : Task → Bool) (sig : Int) (priv : Bool) (s : State) :
    State × Int :=
  if sig < 0 ∨ sig > 32 ∨ id ≤ 0 then (s, -Errno.einval)
  else
    let (s, found, retval) := killEach cur sig.toNat priv sel s.tasks (s, 0, -Errno.esrch)
    (s, if found ≠ 0 then 0 else retval)

/-- `kill_pg`. -/
def killPg (cur : Nat) (pgrp sig : Int) (priv : Bool) (s : State) : State × Int :=
  killSelected cur pgrp (fun t => t.pgrp = pgrp) sig priv s

/-- `kill_sl`. -/
def killSl (cur : Nat) (sess sig : Int) (priv : Bool) (s : State) : State × Int :=
  killSelected cur sess (fun t => t.session = sess ∧ t.leader) sig priv s

/-- `kill_proc`. -/
def killProc (cur : Nat) (pid sig : Int) (priv : Bool) (s : State) : State × Int :=
  if sig < 0 ∨ sig > 32 then (s, -Errno.einval)
  else
    match s.tasks.find? fun p => (s.task p).pid = pid with
    | some p => sendSig cur sig.toNat p priv s
    | none => (s, -Errno.esrch)

/-- The loop of `kill(-1, sig)`. -/
def killAll (cur sig : Nat) : List Nat → State × Nat × Int → State × Nat × Int
  | [], r => r
  | p :: ps, (s, count, retval) =>
    if (s.task p).pid > 1 ∧ p ≠ cur then
      let (s, err) := sendSig cur sig p false s
      killAll cur sig ps (s, count + 1, if err ≠ -Errno.eperm then err else retval)
    else killAll cur sig ps (s, count, retval)

/-- `sys_kill`. -/
def sysKill (cur : Nat) (pid sig : Int) (s : State) : State × Int :=
  if pid = 0 then killPg cur (s.task cur).pgrp sig false s
  else if pid = -1 then
    let (s, count, retval) := killAll cur (ulong sig) s.tasks (s, 0, 0)
    (s, if count ≠ 0 then retval else -Errno.esrch)
  else if pid < 0 then killPg cur (-pid) sig false s
  else killProc cur pid sig false s

/-! ## The links of a task -/

/-- `REMOVE_LINKS`. -/
def removeLinks (p : Nat) (s : State) : State :=
  let s := s.modify (s.task p).nextTask fun t => { t with prevTask := (s.task p).prevTask }
  let s := s.modify (s.task p).prevTask fun t => { t with nextTask := (s.task p).nextTask }
  let s :=
    if (s.task p).pOsptr ≠ 0 then
      s.modify (s.task p).pOsptr fun t => { t with pYsptr := (s.task p).pYsptr }
    else s
  if (s.task p).pYsptr ≠ 0 then
    s.modify (s.task p).pYsptr fun t => { t with pOsptr := (s.task p).pOsptr }
  else s.modify (s.task p).pPptr fun t => { t with pCptr := (s.task p).pOsptr }

/-- `SET_LINKS`. -/
def setLinks (p : Nat) (s : State) : State :=
  let init := s.slot 0
  let s := s.modify p fun t => { t with nextTask := init, prevTask := (s.task init).prevTask }
  let s := s.modify (s.task init).prevTask fun t => { t with nextTask := p }
  let s := s.modify init fun t => { t with prevTask := p }
  let s := s.modify p fun t => { t with pYsptr := 0, pOsptr := (s.task t.pPptr).pCptr }
  let s :=
    if (s.task p).pOsptr ≠ 0 then s.modify (s.task p).pOsptr fun t => { t with pYsptr := p } else s
  s.modify (s.task p).pPptr fun t => { t with pCptr := p }

/-- `release`: the place of the task in `task[]` is given up. -/
def release (p : Nat) (s : State) : State :=
  match (List.range' 1 (nrTasks - 1)).find? fun i => s.slot i = p with
  | some i => removeLinks p { s with slot := Function.update s.slot i 0 }
  | none => s

/-! ## `do_exit` -/

/-- `is_orphaned_pgrp`. -/
def isOrphanedPgrp (pgrp : Int) (s : State) : Bool :=
  s.tasks.all fun p =>
    let t := s.task p
    let parent := s.task t.pPptr
    decide (t.pgrp ≠ pgrp ∨ t.state = .zombie ∨ parent.pid = 1) ||
      decide (¬ (parent.pgrp ≠ pgrp ∧ parent.session = t.session))

/-- `has_stopped_jobs`. -/
def hasStoppedJobs (pgrp : Int) (s : State) : Bool :=
  s.tasks.any fun p => decide ((s.task p).pgrp = pgrp ∧ (s.task p).state = .stopped)

/-- The task that inherits children. -/
def State.reaper (s : State) : Nat := if s.slot 1 ≠ 0 then s.slot 1 else s.slot 0

/-- `forget_original_parent`. -/
def forgetOriginalParent (father : Nat) (s : State) : State :=
  s.tasks.foldl
    (fun s p => if (s.task p).pOpptr = father then
      s.modify p fun t => { t with pOpptr := s.reaper } else s) s

/-- The group is orphaned by the exit of the task `inner`, or by the exit of its parent `outer`. -/
def State.orphans (s : State) (inner outer : Nat) : Bool :=
  decide ((s.task outer).pgrp ≠ (s.task inner).pgrp) &&
    decide ((s.task outer).session = (s.task inner).session) &&
    isOrphanedPgrp (s.task inner).pgrp s && hasStoppedJobs (s.task inner).pgrp s

/-- The group of a task gets a `SIGHUP` and then a `SIGCONT`. -/
def hupCont (cur : Nat) (pgrp : Int) (s : State) : State :=
  (killPg cur pgrp sigcont true (killPg cur pgrp sighup true s).1).1

/-- A child is given to `init`. -/
def reparent (cur p : Nat) (s : State) : State :=
  let s := s.modify cur fun t => { t with pCptr := (s.task p).pOsptr }
  let s := s.modify p fun t => { t with pYsptr := 0, ptraced := false, tracesys := false }
  let s := s.modify p fun t => { t with pPptr := s.reaper }
  let s := s.modify p fun t => { t with pOsptr := (s.task t.pPptr).pCptr }
  let s := s.modify (s.task p).pOsptr fun t => { t with pYsptr := p }
  s.modify (s.task p).pPptr fun t => { t with pCptr := p }

/-- The body of the loop over the children. -/
def exitChild (cur p : Nat) (s : State) : State :=
  let s := reparent cur p s
  let s := if (s.task p).state = .zombie then notifyParent p s else s
  if s.orphans p cur then hupCont cur (s.task p).pgrp s else s

/-- The loop over the children. -/
def exitChildren (cur : Nat) : Nat → State → State
  | 0, s => s
  | fuel + 1, s =>
    let p := (s.task cur).pCptr
    if p = 0 then s else exitChildren cur fuel (exitChild cur p s)

/-- What a session leader does to its terminal. -/
def exitLeader (cur : Nat) (s : State) : State :=
  if (s.task cur).leader then
    let s :=
      if (s.task cur).tty ≥ 0 then
        match s.tty (s.task cur).tty.toNat with
        | some tty =>
          let s := if tty.pgrp > 0 then (killPg cur tty.pgrp sighup true s).1 else s
          { s with tty := Function.update s.tty (s.task cur).tty.toNat (some ⟨-1, 0⟩) }
        | none => s
      else s
    s.tasks.foldl
      (fun s p => if (s.task p).session = (s.task cur).session then
        s.modify p fun t => { t with tty := -1 } else s) s
  else s

/-- The task is a zombie, and `exit_code` is set. -/
def becomeZombie (cur : Nat) (code : Int) (s : State) : State :=
  { s.modify cur fun t => { t with state := .zombie, exitCode := code } with
    code := Function.update s.code cur code
    pc := Function.update s.pc cur .dead }

/-- Signals for the own group, if it is orphaned. -/
def exitGroup (cur : Nat) (s : State) : State :=
  if s.orphans cur (s.task cur).pPptr then hupCont cur (s.task cur).pgrp s else s

/-- `do_exit`, from where the task becomes a zombie. -/
def doExit (cur : Nat) (code : Int) (s : State) : State :=
  let s := becomeZombie cur code s
  let s := exitGroup cur s
  let s := notifyParent cur s
  let s := exitChildren cur nrTasks s
  exitLeader cur s

/-! ## `sys_wait4` -/

/-- The child is one that is waited for. -/
def Wait.selects (w : Wait) (cur t : Task) : Bool :=
  (if w.pid > 0 then decide (t.pid = w.pid)
    else if w.pid = 0 then decide (t.pgrp = cur.pgrp)
    else if w.pid ≠ -1 then decide (t.pgrp = -w.pid)
    else true) &&
  decide (t.exitSignal ≠ sigchld ↔ w.clone = true)

/-- Where the loop over the children ends; `none` has the `flag`. -/
inductive Scan where
  | stopped (p : Nat)
  | zombie (p : Nat)
  | none (flag : Bool)
  deriving DecidableEq

/-- The loop over the children. -/
def scan (w : Wait) (cur : Nat) (s : State) : Bool → List Nat → Scan
  | flag, [] => .none flag
  | flag, p :: ps =>
    if ¬ w.selects (s.task cur) (s.task p) then scan w cur s flag ps
    else
      match (s.task p).state with
      | .stopped =>
        if (s.task p).exitCode = 0 then scan w cur s true ps
        else if ¬ w.untraced ∧ ¬ (s.task p).ptraced then scan w cur s true ps
        else .stopped p
      | .zombie => .zombie p
      | _ => scan w cur s true ps

/-- A zombie goes back to its original parent, or is released. -/
def reap (p : Nat) (s : State) : State :=
  if (s.task p).pOpptr ≠ (s.task p).pPptr then
    let s := removeLinks p s
    let s := s.modify p fun t => { t with pPptr := t.pOpptr }
    notifyParent p (setLinks p s)
  else release p s

/-- From the label `repeat` on, to where a store may fault and sleep. -/
def tryWait (cur : Nat) (w : Wait) (s : State) : State × Option Return :=
  match scan w cur s false (s.children cur) with
  | .stopped p =>
    -- `(exit_code << 8) | 0x7f`
    (s.setPc cur (.clearing p (if w.stat then some ((s.task p).exitCode * 256 + 127) else none)),
      none)
  | .zombie p => (s.setPc cur (.found p w.stat), none)
  | .none flag =>
    if flag then
      if w.nohang then (s.setPc cur .user, some ⟨0, none⟩)
      else
        ((s.modify cur fun t => { t with state := .interruptible }).setPc cur (.waiting w), none)
    else (s.setPc cur .user, some ⟨-Errno.echild, none⟩)

/-- `p->exit_code = 0`, and the end of `sys_wait4`. -/
def clear (cur p : Nat) (s : State) : State :=
  (s.modify p fun t => { t with exitCode := 0 }).setPc cur .user

/-- `sys_wait4` goes on after `schedule()`. -/
def wakeWait (cur : Nat) (w : Wait) (s : State) : State × Option Return :=
  let s := s.modify cur fun t =>
    { t with state := .running, signal := t.signal &&& ~~~ sigmask sigchld }
  if (s.task cur).signal &&& ~~~ (s.task cur).blocked ≠ 0 then
    (s.setPc cur .user, some ⟨-Errno.erestartsys, none⟩)
  else tryWait cur w s

/-! ## The steps of the kernel -/

inductive Event where
  /-- A signal from within the kernel, in the context of the task `cur`. -/
  | sendSig (cur sig p : Nat) (priv : Bool)
  | killPg (cur : Nat) (pgrp sig : Int) (priv : Bool)
  | killSl (cur : Nat) (sess sig : Int) (priv : Bool)
  | killProc (cur : Nat) (pid sig : Int) (priv : Bool)
  | kill (cur : Nat) (pid sig : Int)
  /-- `do_exit` up to the last point at which it can sleep. -/
  | exit (cur : Nat) (code : Int)
  /-- `do_exit` to the end. -/
  | die (cur : Nat)
  | wait4 (cur : Nat) (w : Wait)
  /-- A task that sleeps in `sys_wait4` runs again. -/
  | run (cur : Nat)
  /-- `sys_wait4` goes on with a child that has stopped. -/
  | clear (cur : Nat)
  /-- `getrusage` has ended for a zombie. -/
  | store (cur : Nat)
  /-- The status of a zombie is stored. -/
  | reap (cur : Nat)
  /-- `do_signal` or `syscall_trace` stops the task; `notify` says whether its parent is told. -/
  | stop (cur : Nat) (sig : Nat) (notify : Bool)
  /-- A task that has been stopped while it was traced takes the signal its tracer has left. -/
  | resume (cur : Nat)
  deriving DecidableEq

/-- The task is in no call of the model and can run. -/
def State.ready (s : State) (t : Nat) : Prop := s.pc t = .user ∧ (s.task t).state = .running

instance (s : State) (t : Nat) : Decidable (s.ready t) := inferInstanceAs (Decidable (_ ∧ _))

/-- One step, with what the call returns if it returns in it. -/
def stepOut (s : State) : Event → Option (State × Option Return)
  | .sendSig cur sig p priv => some ((sendSig cur sig p priv s).1, none)
  | .killPg cur pgrp sig priv => some ((killPg cur pgrp sig priv s).1, none)
  | .killSl cur sess sig priv => some ((killSl cur sess sig priv s).1, none)
  | .killProc cur pid sig priv => some ((killProc cur pid sig priv s).1, none)
  | .kill cur pid sig =>
    if s.ready cur then
      let (s, err) := sysKill cur pid sig s
      some (s, some ⟨err, none⟩)
    else none
  | .exit cur code =>
    if s.ready cur then some ((forgetOriginalParent cur s).setPc cur (.exiting code), none)
    else none
  | .die cur =>
    match s.pc cur with
    | .exiting code => some (doExit cur code s, none)
    | _ => none
  | .wait4 cur w => if s.ready cur then some (tryWait cur w s) else none
  | .run cur =>
    match s.pc cur with
    | .waiting w =>
      if (s.task cur).state = .running ∨
          ((s.task cur).state = .interruptible ∧
            (s.task cur).signal &&& ~~~ (s.task cur).blocked ≠ 0) then
        some (wakeWait cur w s)
      else none
    | _ => none
  | .clear cur =>
    match s.pc cur with
    | .clearing p status => some (clear cur p s, some ⟨(s.task p).pid, some (.stopped p status)⟩)
    | _ => none
  | .store cur =>
    match s.pc cur with
    | .found p stat =>
      some (s.setPc cur (.reaping p (if stat then some (s.task p).exitCode else none)), none)
    | _ => none
  | .reap cur =>
    match s.pc cur with
    | .reaping p status =>
      some ((reap p s).setPc cur .user, some ⟨(s.task p).pid, some (.zombie p status)⟩)
    | _ => none
  | .stop cur sig notify =>
    if s.ready cur then
      let s := s.modify cur fun t => { t with state := .stopped, exitCode := sig }
      some (if notify then notifyParent cur s else s, none)
    else none
  | .resume cur =>
    if s.ready cur then some (s.modify cur fun t => { t with exitCode := 0 }, none) else none

def step (s : State) (e : Event) : Option State := (stepOut s e).map Prod.fst

end LinuxEvocation.Exit
