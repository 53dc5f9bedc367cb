import LinuxEvocation.Kernel.Exit.Forest

/-!
# `sys_ptrace`, `sys_fork` and the table of tasks

The machine of all calls that make a task, take one away or give it another parent.  `sys_wait4`
stores the status of a zombie with `put_fs_long`, which may fault and sleep; `sys_fork` sleeps when
it allocates, after the new task is in `task[]`.

* `sysPtrace` — the requests; `attaches`, `detaches` — when a request gives a child another parent.
* `forked`, `auditPtree`, `exitSafe` — the new task, the audit of the links, and the loop of
  `do_exit` on which no pointer is `NULL`.
* `Mode`, `Sys`, `Call`, `Sys.step` — the machine.
-/

namespace LinuxEvocation.Exit

open Function (update)

/-! ## `sys_ptrace` -/

inductive Request where
  | traceme
  /-- `PTRACE_PEEKTEXT`, `PTRACE_PEEKDATA`, `PTRACE_PEEKUSR`. -/
  | peek
  /-- `PTRACE_POKETEXT`, `PTRACE_POKEDATA`, `PTRACE_POKEUSR`. -/
  | poke
  | syscall
  | cont
  | kill
  | singlestep
  | attach
  | detach
  | other
  deriving DecidableEq

/-- The arguments of `sys_ptrace`.  `same` says that the child is dumpable and has the group of the
caller; `res` is what reading or writing the memory of the child returns. -/
structure Ptrace where
  request : Request
  pid : Int
  data : Int
  same : Bool
  res : Int
  deriving DecidableEq

/-- `get_task`. -/
def getTask (pid : Int) (s : State) : Option Nat :=
  ((List.range' 1 (nrTasks - 1)).map s.slot).find? fun p => decide (p ≠ 0 ∧ (s.task p).pid = pid)

/-- `NSIG`. -/
def nsig : Nat := 32

/-- `cur` may not attach to the child. -/
def refused (cur child : Nat) (same : Bool) (s : State) : Prop :=
  child = cur ∨
    ((same = false ∨ (s.task cur).uid ≠ (s.task child).euid) ∧ (s.task cur).euid ≠ 0) ∨
    (s.task child).ptraced = true

instance (cur child : Nat) (same : Bool) (s : State) : Decidable (refused cur child same s) :=
  inferInstanceAs (Decidable (_ ∨ _))

/-- `PTRACE_ATTACH`. -/
def ptraceAttach (cur child : Nat) (same : Bool) (s : State) : State × Int :=
  if refused cur child same s then (s, -Errno.eperm)
  else
    let s := s.modify child fun t => { t with ptraced := true }
    let s := if (s.task child).pPptr ≠ cur then relink child cur s else s
    ((sendSig cur sigstop child true s).1, 0)

/-- `PTRACE_SYSCALL`, `PTRACE_CONT` and `PTRACE_SINGLESTEP`. -/
def ptraceResume (child : Nat) (tracesys : Bool) (data : Int) (s : State) : State × Int :=
  if ulong data > nsig then (s, -Errno.eio)
  else
    (s.modify child fun t => { t with tracesys := tracesys, exitCode := data, state := .running }, 0)

/-- `PTRACE_DETACH`, whatever the state of the child. -/
def ptraceDetach (child : Nat) (data : Int) (s : State) : State × Int :=
  if ulong data > nsig then (s, -Errno.eio)
  else
    let s := s.modify child fun t =>
      { t with ptraced := false, tracesys := false, state := .running, exitCode := data }
    (relink child (s.task child).pOpptr s, 0)

/-- `sys_ptrace`. -/
def sysPtrace (cur : Nat) (a : Ptrace) (s : State) : State × Int :=
  if a.request = .traceme then
    if (s.task cur).ptraced then (s, -Errno.eperm)
    else (s.modify cur fun t => { t with ptraced := true }, 0)
  else if a.pid = 1 then (s, -Errno.eperm)
  else
    match getTask a.pid s with
    | none => (s, -Errno.esrch)
    | some child =>
      if a.request = .attach then ptraceAttach cur child a.same s
      else if (s.task child).ptraced = false then (s, -Errno.esrch)
      else if (s.task child).state ≠ .stopped ∧ a.request ≠ .detach then (s, -Errno.esrch)
      else if (s.task child).pPptr ≠ cur then (s, -Errno.esrch)
      else
        match a.request with
        | .peek => (s, a.res)
        | .poke => (s, a.res)
        | .syscall => ptraceResume child true a.data s
        | .cont => ptraceResume child false a.data s
        | .singlestep => ptraceResume child false a.data s
        | .kill => (s.modify child fun t => { t with state := .running, exitCode := sigkill }, 0)
        | .detach => ptraceDetach child a.data s
        | _ => (s, -Errno.eio)

/-- The request attaches `cur` to the child. -/
def attaches (cur : Nat) (a : Ptrace) (child : Nat) (s : State) : Prop :=
  a.request = .attach ∧ a.pid ≠ 1 ∧ getTask a.pid s = some child ∧ ¬ refused cur child a.same s

/-- The request detaches `cur` from the child. -/
def detaches (cur : Nat) (a : Ptrace) (child : Nat) (s : State) : Prop :=
  a.request = .detach ∧ a.pid ≠ 1 ∧ getTask a.pid s = some child ∧
    (s.task child).ptraced = true ∧ (s.task child).pPptr = cur ∧ ulong a.data ≤ nsig

/-! ## `sys_fork` -/

/-- The new task, when it is linked. -/
def forked (cur : Nat) (pid : Int) (s : State) : Task :=
  { s.task cur with
    state := .uninterruptible
    ptraced := false
    tracesys := false
    pid := pid
    pPptr := cur
    pOpptr := cur
    pCptr := 0
    signal := 0
    leader := false }

/-- What `__get_free_page` and `find_empty_process` have found: a page that is no task, a place in
`task[]`, and a number that no task and no group has. -/
def Vacant (nr p : Nat) (pid : Int) (s : State) : Prop :=
  0 < nr ∧ nr < nrTasks ∧ s.slot nr = 0 ∧ p ≠ 0 ∧
    ∀ i < nrTasks, s.slot i ≠ 0 → s.slot i ≠ p ∧ (s.task (s.slot i)).pid ≠ pid ∧
      (s.task (s.slot i)).pgrp ≠ pid

instance (nr p : Nat) (pid : Int) (s : State) : Decidable (Vacant nr p pid s) :=
  inferInstanceAs (Decidable (_ ∧ _ ∧ _ ∧ _ ∧ _))

theorem Vacant.not_live {nr p : Nat} {pid : Int} {s : State} (h : Vacant nr p pid s) :
    p ∉ s.live := by
  rintro ⟨hp, i, hi, heq⟩
  exact (h.2.2.2.2 i hi (by rwa [heq])).1 heq

/-! ## The audit of the links -/

/-- `bad_task_ptr`. -/
def badTaskPtr (p : Nat) (s : State) : Bool :=
  decide (p ≠ 0) && ((List.range nrTasks).all fun i => decide (s.slot i ≠ p))

inductive Warning where
  | parentBad
  | childBad
  | ysBad
  | osBad
  | parentSelf
  | childSelf
  | ysSelf
  | osSelf
  | olderParent
  | olderYs
  | youngerParent
  | youngerOs
  | childParent
  | childYs
  deriving DecidableEq

/-- What `audit_ptree` prints for one task. -/
def auditTask (p : Nat) (s : State) : List Warning :=
  let t := s.task p
  [(badTaskPtr t.pPptr s, Warning.parentBad),
    (badTaskPtr t.pCptr s, .childBad),
    (badTaskPtr t.pYsptr s, .ysBad),
    (badTaskPtr t.pOsptr s, .osBad),
    (decide (t.pPptr = p), .parentSelf),
    (decide (t.pCptr = p), .childSelf),
    (decide (t.pYsptr = p), .ysSelf),
    (decide (t.pOsptr = p), .osSelf),
    (decide (t.pOsptr ≠ 0 ∧ t.pPptr ≠ (s.task t.pOsptr).pPptr), .olderParent),
    (decide (t.pOsptr ≠ 0 ∧ (s.task t.pOsptr).pYsptr ≠ p), .olderYs),
    (decide (t.pYsptr ≠ 0 ∧ t.pPptr ≠ (s.task t.pYsptr).pPptr), .youngerParent),
    (decide (t.pYsptr ≠ 0 ∧ (s.task t.pYsptr).pOsptr ≠ p), .youngerOs),
    (decide (t.pCptr ≠ 0 ∧ (s.task t.pCptr).pPptr ≠ p), .childParent),
    (decide (t.pCptr ≠ 0 ∧ (s.task t.pCptr).pYsptr ≠ 0), .childYs)].filterMap fun w =>
      if w.1 then some w.2 else none

/-- `audit_ptree`: the warnings, with the numbers of the tasks they are about. -/
def auditPtree (s : State) : List (Int × Warning) :=
  (((List.range' 1 (nrTasks - 1)).map s.slot).filter (decide <| · ≠ 0)).flatMap fun p =>
    (auditTask p s).map fun w => ((s.task p).pid, w)

/-! ## The loop of `do_exit` -/

/-- The loop over the children follows no `NULL` pointer. -/
def childrenSafe (cur : Nat) : Nat → State → Bool
  | 0, _ => true
  | fuel + 1, s =>
    let p := (s.task cur).pCptr
    if p = 0 then true
    else
      -- `p->p_osptr->p_ysptr = p`, when `current->p_cptr` is the next child already
      let older := ((s.modify cur fun t => { t with pCptr := (s.task p).pOsptr }).task s.reaper).pCptr
      decide (older ≠ 0) && childrenSafe cur fuel (exitChild cur p s)

/-- What `do_exit` has done before the loop. -/
def exitNotified (cur : Nat) (code : Int) (s : State) : State :=
  notifyParent cur (exitGroup cur (becomeZombie cur code s))

def exitSafe (cur : Nat) (code : Int) (s : State) : Bool :=
  childrenSafe cur nrTasks (exitNotified cur code s)

/-! ## The machine -/

/-- Where a task sleeps in a call that has found or made another one. -/
inductive Mode where
  | none
  /-- In `sys_wait4`, with a zombie it has found. -/
  | reaping (p : Nat)
  /-- In `sys_fork`, with a task that is in `task[]`. -/
  | forking (nr p : Nat)
  /-- The task that is being made. -/
  | newborn
  deriving DecidableEq

structure Sys where
  s : State
  mode : Nat → Mode

inductive Call where
  /-- Signals, stops, `do_exit`, and the end of `sys_wait4` for a child that has stopped. -/
  | event (e : Event)
  | wait4 (cur : Nat) (w : Wait)
  /-- A task that sleeps in `sys_wait4` runs again. -/
  | run (cur : Nat)
  /-- `sys_wait4` goes on with the zombie it has found. -/
  | reap (cur : Nat)
  | fork (cur nr p : Nat) (pid : Int)
  | forkOk (cur sig : Nat)
  | forkFail (cur : Nat)
  /-- `schedule` returns in `do_exit`, which starts again. -/
  | again (cur : Nat)
  | ptrace (cur : Nat) (a : Ptrace)
  deriving DecidableEq

namespace Sys

/-- The task may run, and is not within `sys_wait4` or `sys_fork`.  `task[0]` only idles, and a task
that is being made has no segment to run on. -/
def Free (x : Sys) (cur : Nat) : Prop :=
  cur ≠ 0 ∧ (∃ i < nrTasks, x.s.slot i = cur) ∧ cur ≠ x.s.slot 0 ∧ x.mode cur = .none

instance (x : Sys) (cur : Nat) : Decidable (x.Free cur) :=
  inferInstanceAs (Decidable (_ ∧ _ ∧ _ ∧ _))

/-- `do_exit` comes to its end: it follows no `NULL` pointer, and `init` does not give its children
to itself for ever. -/
def ends (x : Sys) (cur : Nat) : Prop :=
  match x.s.pc cur with
  | .exiting code => exitSafe cur code x.s = true ∧
      (cur = x.s.slot 1 → (x.s.task cur).pCptr = 0)
  | _ => False

instance (x : Sys) (cur : Nat) : Decidable (x.ends cur) := by
  unfold ends
  split <;> infer_instance

/-- The event can happen. -/
def admits (x : Sys) : Event → Prop
  | .kill cur _ _ => x.Free cur
  | .exit cur _ => x.Free cur
  | .stop cur _ _ => x.Free cur
  | .resume cur => x.Free cur
  | .die cur => x.Free cur ∧ x.ends cur
  | .clear cur => x.Free cur
  | .wait4 .. | .run .. | .store .. | .reap .. => False
  | _ => True

instance (x : Sys) (e : Event) : Decidable (x.admits e) := by
  cases e <;> unfold admits <;> infer_instance

/-- `sys_wait4` from the label `repeat` on, up to where it stores a status. -/
def tryWait (cur : Nat) (w : Wait) (x : Sys) : Sys :=
  match scan w cur x.s false (x.s.children cur) with
  | .zombie p => ⟨x.s.setPc cur .user, update x.mode cur (.reaping p)⟩
  | _ => { x with s := (Exit.tryWait cur w x.s).1 }

/-- `sys_wait4` goes on after `schedule()`. -/
def wakeWait (cur : Nat) (w : Wait) (x : Sys) : Sys :=
  let s := awake cur x.s
  if (s.task cur).signal &&& ~~~ (s.task cur).blocked ≠ 0 then { x with s := s.setPc cur .user }
  else tryWait cur w { x with s := s }

/-- The task that sleeps in `sys_wait4` can run. -/
def woken (x : Sys) (cur : Nat) : Prop :=
  (x.s.task cur).state = .running ∨
    ((x.s.task cur).state = .interruptible ∧
      (x.s.task cur).signal &&& ~~~ (x.s.task cur).blocked ≠ 0)

instance (x : Sys) (cur : Nat) : Decidable (x.woken cur) := inferInstanceAs (Decidable (_ ∨ _))

def step (x : Sys) : Call → Option Sys
  | .event e => if x.admits e then (Exit.step x.s e).map fun s => { x with s := s } else none
  | .wait4 cur w => if x.Free cur ∧ x.s.ready cur then some (tryWait cur w x) else none
  | .run cur =>
    match x.s.pc cur with
    | .waiting w => if x.Free cur ∧ x.woken cur then some (wakeWait cur w x) else none
    | _ => none
  | .reap cur =>
    match x.mode cur with
    | .reaping p => some ⟨Exit.reap p x.s, update x.mode cur .none⟩
    | _ => none
  | .fork cur nr p pid =>
    if x.Free cur ∧ x.s.ready cur ∧ Vacant nr p pid x.s then
      some ⟨(enter nr p (forked cur pid x.s) x.s).setPc p .user,
        update (update x.mode p .newborn) cur (.forking nr p)⟩
    else none
  | .forkOk cur sig =>
    match x.mode cur with
    | .forking _ p =>
      some ⟨x.s.modify p fun t => { t with exitSignal := sig, state := .running },
        update (update x.mode p .none) cur .none⟩
    | _ => none
  | .forkFail cur =>
    match x.mode cur with
    | .forking nr p =>
      some ⟨vacate nr p x.s, update (update x.mode p .none) cur .none⟩
    | _ => none
  | .again cur =>
    if x.Free cur ∧ x.s.pc cur = .dead ∧ (x.s.task cur).state = .running then
      some { x with s := (forgetOriginalParent cur x.s).setPc cur (.exiting (x.s.code cur)) }
    else none
  | .ptrace cur a =>
    if x.Free cur ∧ x.s.ready cur then some { x with s := (sysPtrace cur a x.s).1 } else none

end Sys

/-! ## What the calls do -/

theorem getTask_spec {pid : Int} {s : State} {child : Nat} (h : getTask pid s = some child) :
    (s.task child).pid = pid ∧ child ≠ 0 ∧ ∃ i < nrTasks, i ≠ 0 ∧ s.slot i = child := by
  have hmem := List.mem_of_find?_eq_some h
  have hp := List.find?_some h
  obtain ⟨i, hi, hslot⟩ := List.mem_map.1 hmem
  rw [List.mem_range'] at hi
  obtain ⟨k, hk, rfl⟩ := hi
  rw [decide_eq_true_eq] at hp
  refine ⟨hp.2, hp.1, _, ?_, ?_, hslot⟩
  · unfold nrTasks at hk ⊢
    omega
  · omega

/-- The child runs, traced no more. -/
def letGo (child : Nat) (data : Int) (s : State) : State :=
  s.modify child fun t =>
    { t with ptraced := false, tracesys := false, state := .running, exitCode := data }

/-- **A request** attaches, or detaches, or leaves the links alone. -/
theorem sysPtrace_cases (cur : Nat) (a : Ptrace) (s : State) :
    (∃ child s₁, attaches cur a child s ∧ Calm s s₁ ∧
      (sysPtrace cur a s).1 = (sendSig cur sigstop child true
        (if (s.task child).pPptr ≠ cur then relink child cur s₁ else s₁)).1) ∨
    (∃ child, detaches cur a child s ∧
      (sysPtrace cur a s).1 = relink child (s.task child).pOpptr (letGo child a.data s)) ∨
    Calm s (sysPtrace cur a s).1 := by
  unfold sysPtrace
  split
  · refine .inr (.inr ?_)
    split
    · exact .refl s
    · dsimp only
      exact .modify ⟨rfl, rfl, rfl, rfl, rfl, rfl⟩ rfl rfl Iff.rfl
  split
  · exact .inr (.inr (.refl s))
  rename_i hpid
  split
  · exact .inr (.inr (.refl s))
  rename_i child hchild
  split
  · -- the request attaches, unless it is refused
    rename_i hreq
    unfold ptraceAttach
    split
    · exact .inr (.inr (.refl s))
    · rename_i href
      refine .inl ⟨child, s.modify child fun t => { t with ptraced := true },
        ⟨hreq, hpid, hchild, href⟩, ?_, ?_⟩
      · exact .modify ⟨rfl, rfl, rfl, rfl, rfl, rfl⟩ rfl rfl Iff.rfl
      · have hpp : ((s.modify child fun t => { t with ptraced := true }).task child).pPptr =
            (s.task child).pPptr := by
          rw [State.task_modify_self]
        dsimp only
        rw [hpp]
  split
  · exact .inr (.inr (.refl s))
  rename_i htraced
  split
  · exact .inr (.inr (.refl s))
  rename_i hstopped
  split
  · exact .inr (.inr (.refl s))
  rename_i hparent
  have hresume : ∀ tracesys, (s.task child).state ≠ .zombie →
      Calm s (ptraceResume child tracesys a.data s).1 := by
    intro tracesys hz
    unfold ptraceResume
    split
    · exact .refl s
    · dsimp only
      refine .modify ⟨rfl, rfl, rfl, rfl, rfl, rfl⟩ rfl rfl ⟨fun h => ?_, fun h => absurd h hz⟩
      cases h
  have hz : a.request ≠ .detach → (s.task child).state ≠ .zombie := by
    intro hreq hzombie
    exact hstopped ⟨by rw [hzombie]; simp, hreq⟩
  split
  · exact .inr (.inr (.refl s))
  · exact .inr (.inr (.refl s))
  · rename_i hreq
    exact .inr (.inr (hresume _ (hz (by rw [hreq]; simp))))
  · rename_i hreq
    exact .inr (.inr (hresume _ (hz (by rw [hreq]; simp))))
  · rename_i hreq
    exact .inr (.inr (hresume _ (hz (by rw [hreq]; simp))))
  · rename_i hreq
    refine .inr (.inr ?_)
    dsimp only
    refine .modify ⟨rfl, rfl, rfl, rfl, rfl, rfl⟩ rfl rfl ⟨fun h => ?_, fun h => ?_⟩
    · cases h
    · exact absurd h (hz (by rw [hreq]; simp))
  · -- the request detaches, unless its signal is none
    rename_i hreq
    unfold ptraceDetach
    split
    · exact .inr (.inr (.refl s))
    · rename_i hdata
      refine .inr (.inl ⟨child, ⟨hreq, hpid, hchild, by simpa using htraced, not_not.1 hparent,
        not_lt.1 hdata⟩, ?_⟩)
      have hop : ((letGo child a.data s).task child).pOpptr = (s.task child).pOpptr := by
        unfold letGo
        rw [State.task_modify_self]
      rw [← hop]
      rfl
  · exact .inr (.inr (.refl s))

/-- A zombie goes back to its original parent, or leaves. -/
theorem reap_eq (p : Nat) (s : State) :
    reap p s = if (s.task p).pOpptr ≠ (s.task p).pPptr then
      notifyParent p (relink p (s.task p).pOpptr s) else release p s := by
  unfold reap
  split
  · have hop : ((removeLinks p s).task p).pOpptr = (s.task p).pOpptr :=
      (removeLinks_steady p s).opptr p
    unfold relink
    rw [← hop]
    rfl
  · rfl

theorem scan_mem {w : Wait} {cur : Nat} {s : State} {flag : Bool} {ps : List Nat} {p : Nat}
    (h : scan w cur s flag ps = .zombie p) : p ∈ ps := by
  induction ps generalizing flag with
  | nil => cases h
  | cons y ps ih =>
    unfold scan at h
    have hrec : ∀ flag, scan w cur s flag ps = .zombie p → p ∈ y :: ps :=
      fun flag hs => List.mem_cons_of_mem y (ih hs)
    split at h
    · exact hrec _ h
    split at h
    · split at h
      · exact hrec _ h
      split at h
      · exact hrec _ h
      · cases h
    · cases h
      exact List.mem_cons_self
    · exact hrec _ h

end LinuxEvocation.Exit
