import LinuxEvocation.Errno
import LinuxEvocation.Lib.WordMemory

/-!
# Signals and their handlers

A process that is about to return to user mode looks at its pending signals twice: once for those that
the kernel deals with, and then all the frames of the handlers are built in one go, each of them
returning to the handler below.

* `Mask` — a set of signals that may be blocked.
* `turn`, `firstPass`, `buildFrame`, `secondPass`, `deliver`, `doSignal` — the code.
* `returnCode`, `Handled`, `Runs` — the process afterwards, which runs a handler and the code that its
  frame returns to, again and again.
-/

namespace LinuxEvocation.Signal

open WordMemory

/-! ## Signals -/

def sigquit : Nat := 3
def sigill : Nat := 4
def sigtrap : Nat := 5
def sigiot : Nat := 6
def sigfpe : Nat := 8
def sigkill : Nat := 9
def sigsegv : Nat := 11
def sigchld : Nat := 17
def sigcont : Nat := 18
def sigstop : Nat := 19
def sigtstp : Nat := 20
def sigttin : Nat := 21
def sigttou : Nat := 22
def sigwinch : Nat := 28

/-- `SIG_DFL`. -/
def sigDfl : BitVec 32 := 0

/-- `SIG_IGN`. -/
def sigIgn : BitVec 32 := 1

/-- `SA_RESTART`. -/
def saRestart : BitVec 32 := 0x10000000

/-- `SA_ONESHOT`. -/
def saOneshot : BitVec 32 := 0x80000000

/-- `_S(nr)`. -/
def sBit (nr : Nat) : BitVec 32 := 1#32 <<< (nr - 1)

/-- `_BLOCKABLE`. -/
def blockable : BitVec 32 := ~~~ (sBit sigkill ||| sBit sigstop)

/-- A set of signals that may be blocked, as `sys_ssetmask`, `sys_sigsuspend` and `sys_sigaction` see
to. -/
@[ext]
structure Mask where
  bits : BitVec 32
  allowed : bits &&& blockable = bits

namespace Mask

/-- The signals of a set that may be blocked. -/
def of (newmask : BitVec 32) : Mask :=
  ⟨newmask &&& blockable, by rw [BitVec.and_assoc, BitVec.and_self]⟩

def union (m m' : Mask) : Mask :=
  ⟨m.bits ||| m'.bits, by rw [BitVec.and_or_distrib_right, m.allowed, m'.allowed]⟩

/-- Whether a set contains another. -/
def Contains (m m' : Mask) : Prop := m'.bits &&& m.bits = m'.bits

theorem of_bits (m : Mask) : of m.bits = m :=
  Mask.ext m.allowed

theorem contains_union_left (m m' : Mask) : Contains (m.union m') m := by
  apply BitVec.eq_of_getLsbD_eq
  intro i _
  simp only [union, BitVec.getLsbD_and, BitVec.getLsbD_or]
  grind

theorem contains_union_right (m m' : Mask) : Contains (m.union m') m' := by
  apply BitVec.eq_of_getLsbD_eq
  intro i _
  simp only [union, BitVec.getLsbD_and, BitVec.getLsbD_or]
  grind

theorem Contains.trans {a b c : Mask} (h : b.Contains a) (h' : c.Contains b) : c.Contains a := by
  unfold Contains at *
  rw [← h, BitVec.and_assoc, h']

end Mask

structure Sigaction where
  handler : BitVec 32
  mask : Mask
  flags : BitVec 32

structure Task where
  signal : BitVec 32
  blocked : Mask
  sigaction : Nat → Sigaction
  ptraced : Bool
  pid : Nat
  exitCode : Nat

/-- The registers of a process. -/
@[ext]
structure Cpu where
  ebx : BitVec 32
  ecx : BitVec 32
  edx : BitVec 32
  esi : BitVec 32
  edi : BitVec 32
  ebp : BitVec 32
  eax : BitVec 32
  ds : BitVec 16
  es : BitVec 16
  fs : BitVec 16
  gs : BitVec 16
  eip : BitVec 32
  cs : BitVec 16
  eflags : BitVec 32
  esp : BitVec 32
  ss : BitVec 16

structure PtRegs extends Cpu where
  orig_eax : BitVec 32

/-- A call that returns an error. -/
def failure (e : Int) : BitVec 32 := BitVec.ofInt 32 (-e)

/-! ## The first pass -/

/-- What the other processes have done to this one: while it was stopped, and when it has waited for
its children; and whether its memory was dumped. -/
structure Others where
  stopped : Task → Task
  waited : Task → Task
  core_dump : Bool

/-- `do_exit`, with the status and the process. -/
structure Exited where
  signr : Nat
  task : Task

/-- The variables of the first pass. -/
structure Pass where
  task : Task
  regs : PtRegs
  mask : BitVec 32
  handler_signal : BitVec 32

/-- A system call that the handler interrupts. -/
def interrupt (sa : Sigaction) (regs : PtRegs) : PtRegs :=
  if 0 ≤ regs.orig_eax.toInt then
    if regs.eax = failure Errno.erestartnohand ∨
        regs.eax = failure Errno.erestartsys ∧ sa.flags &&& saRestart = 0 then
      { regs with eax := failure Errno.eintr }
    else regs
  else regs

/-- A handler that is invoked. -/
def invoke (p : Pass) (signr : Nat) : Pass :=
  let sa := p.task.sigaction (signr - 1)
  { p with
    regs := interrupt sa p.regs
    handler_signal := p.handler_signal ||| sBit signr
    mask := p.mask &&& ~~~ sa.mask.bits }

/-- What is done about a signal. -/
def dispatch (env : Others) (p : Pass) (signr : Nat) : Except Exited Pass :=
  let sa := p.task.sigaction (signr - 1)
  if sa.handler = sigIgn then
    if signr ≠ sigchld then .ok p
    else .ok { p with task := env.waited p.task }
  else if sa.handler = sigDfl then
    if p.task.pid = 1 then .ok p
    else if signr ∈ [sigcont, sigchld, sigwinch] then .ok p
    else if signr ∈ [sigstop, sigtstp, sigttin, sigttou] then
      .ok { p with task := env.stopped { p.task with exitCode := signr } }
    else
      let signr :=
        if signr ∈ [sigquit, sigill, sigtrap, sigiot, sigfpe, sigsegv] ∧ env.core_dump then
          signr ||| 0x80
        else signr
      .error ⟨signr, { p.task with signal := p.task.signal ||| sBit (signr &&& 0x7f) }⟩
  else .ok (invoke p signr)

/-- The body of the first loop.  A debugger chooses another signal, or none. -/
def turn (env : Others) (p : Pass) : Except Exited Pass :=
  let bit := (p.task.signal &&& p.mask).ctz.toNat
  let p := { p with task.signal := p.task.signal &&& ~~~ (1#32 <<< bit) }
  let signr := bit + 1
  if p.task.ptraced ∧ signr ≠ sigkill then
    let p := { p with task := env.stopped { p.task with exitCode := signr } }
    let signr := p.task.exitCode
    if signr = 0 then .ok p
    else
      let p := { p with task.exitCode := 0 }
      if signr = sigstop then .ok p
      else if sBit signr &&& p.task.blocked.bits ≠ 0 then
        .ok { p with task.signal := p.task.signal ||| sBit signr }
      else dispatch env p signr
  else dispatch env p signr

/-- The first loop, at most `fuel` times round. -/
def firstPass (env : Others) : Nat → Pass → Option (Except Exited Pass)
  | 0, _ => none
  | fuel + 1, p =>
    if p.task.signal &&& p.mask = 0 then some (.ok p)
    else
      match turn env p with
      | .error e => some (.error e)
      | .ok p => firstPass env fuel p

/-- A system call that is made again. -/
def restart (regs : PtRegs) : PtRegs :=
  if 0 ≤ regs.orig_eax.toInt ∧
      (regs.eax = failure Errno.erestartnohand ∨ regs.eax = failure Errno.erestartsys ∨
        regs.eax = failure Errno.erestartnointr) then
    { regs with eax := regs.orig_eax, eip := regs.eip - 2 }
  else regs

/-! ## The second pass -/

/-- `__NR_ssetmask`. -/
def nrSsetmask : BitVec 32 := 69

/-- Where the return code of a frame is. -/
def codeOffset : BitVec 32 := 4 * 24

/-- The stores of `setup_frame`, by their distances from the frame. -/
def frameWords (frame eip : BitVec 32) (regs : PtRegs) (signr oldmask : BitVec 32) :
    List (BitVec 32 × BitVec 32) :=
  [ (0, frame + codeOffset),
    (4, signr),
    (8, regs.gs.setWidth 32),
    (12, regs.fs.setWidth 32),
    (16, regs.es.setWidth 32),
    (20, regs.ds.setWidth 32),
    (24, regs.edi),
    (28, regs.esi),
    (32, regs.ebp),
    (36, regs.esp),
    (40, regs.ebx),
    (44, regs.edx),
    (48, regs.ecx),
    (52, regs.eax),
    (56, 0),
    (60, 0),
    (64, regs.eip),
    (68, regs.cs.setWidth 32),
    (72, regs.eflags),
    (76, regs.esp),
    (80, regs.ss.setWidth 32),
    (84, 0),
    (88, regs.eflags),
    (92, eip),
    (codeOffset + 0, 0x0000b858),
    (codeOffset + 4, 0x00bb0000),
    (codeOffset + 8, 0xcd000000),
    (codeOffset + 12, 0x0fa90f80),
    (codeOffset + 16, 0x611f07a1),
    (codeOffset + 20, 0x20c48390),
    (codeOffset + 24, 0x0020c29d),
    (codeOffset + 2, nrSsetmask),
    (codeOffset + 7, oldmask) ]

/-- `setup_frame`: the frame and the memory. -/
def setupFrame (fp eip : BitVec 32) (regs : PtRegs) (signr oldmask : BitVec 32) (mem : Mem) :
    BitVec 32 × Mem :=
  let frame := fp - 4 * 32
  (frame, putAll mem frame (frameWords frame eip regs signr oldmask))

/-- The variables of the second pass. -/
structure Build where
  frame : BitVec 32
  eip : BitVec 32
  oldmask : Mask
  task : Task
  mem : Mem

/-- The body of the second loop, for the signal `i + 1`. -/
def buildFrame (regs : PtRegs) (b : Build) (i : Nat) : Build :=
  let sa := b.task.sigaction i
  let sigaction :=
    if sa.flags &&& saOneshot ≠ 0 then
      Function.update b.task.sigaction i { sa with handler := sigDfl }
    else b.task.sigaction
  let (frame, mem) :=
    setupFrame b.frame b.eip regs (BitVec.ofNat 32 (i + 1)) b.oldmask.bits b.mem
  { frame
    eip := sa.handler
    oldmask := b.oldmask.union sa.mask
    task := { b.task with sigaction, blocked := b.task.blocked.union sa.mask }
    mem }

/-- The second loop, at most `fuel` times round. -/
def secondPass (regs : PtRegs) (handler_signal : BitVec 32) :
    Nat → BitVec 32 → Nat → Build → Option Build
  | 0, _, _, _ => none
  | fuel + 1, mask, i, b =>
    if mask = 0 then some b
    else if mask > handler_signal then some b
    else if mask &&& handler_signal = 0 then
      secondPass regs handler_signal fuel (mask + mask) (i + 1) b
    else secondPass regs handler_signal fuel (mask + mask) (i + 1) (buildFrame regs b i)

/-- What `do_signal` has done when it returns. -/
structure Delivered where
  value : Nat
  task : Task
  regs : PtRegs
  mem : Mem
  log : List String

/-- `USER_CS`. -/
def userCs : BitVec 16 := 0x23

/-- `USER_DS`. -/
def userDs : BitVec 16 := 0x2B

/-- What `do_signal` does once the handlers have been picked. -/
def deliver (fuel : Nat) (oldmask : Mask) (handler_signal : BitVec 32) (task : Task) (regs : PtRegs)
    (mem : Mem) : Option Delivered :=
  if handler_signal = 0 then some ⟨0, task, regs, mem, []⟩
  else
    let log :=
      if regs.cs ≠ userCs ∨ regs.ss ≠ userDs then
        ["Warning: signal handler with nonstandard code/stack segment\n"]
      else []
    match secondPass regs handler_signal fuel 1 0 ⟨regs.esp, regs.eip, oldmask, task, mem⟩ with
    | none => none
    | some b => some ⟨1, b.task, { regs with esp := b.frame, eip := b.eip }, b.mem, log⟩

/-- `do_signal`, with loops of at most `fuel` turns. -/
def doSignal (env : Others) (fuel : Nat) (oldmask : Mask) (task : Task) (regs : PtRegs) (mem : Mem) :
    Option (Except Exited Delivered) :=
  match firstPass env fuel ⟨task, regs, ~~~ task.blocked.bits, 0⟩ with
  | none => none
  | some (.error e) => some (.error e)
  | some (.ok p) =>
    (deliver fuel oldmask p.handler_signal p.task (restart p.regs) mem).map .ok

/-! ## The process afterwards -/

/-- What a process can see: its registers, its memory, and the signals that are blocked. -/
structure User where
  cpu : Cpu
  blocked : Mask
  mem : Mem

/-- The return code of a frame: `pop %eax`, `ssetmask` with the mask that is in the code, all registers
from the frame, `add $32,%esp`, `popf`, `ret $32`. -/
def returnCode (u : User) : User :=
  let word (o : BitVec 32) := get u.mem (u.cpu.esp + o)
  { cpu :=
      { gs := (word 4).setWidth 16
        fs := (word 8).setWidth 16
        es := (word 12).setWidth 16
        ds := (word 16).setWidth 16
        edi := word 20
        esi := word 24
        ebp := word 28
        ebx := word 36
        edx := word 40
        ecx := word 44
        eax := word 48
        eflags := word 84
        eip := word 88
        esp := u.cpu.esp + 92 + 32
        cs := u.cpu.cs
        ss := u.cpu.ss }
    blocked := Mask.of (get u.mem (u.cpu.eip + 7))
    mem := u.mem }

/-- A handler that has run and returned.  It may do as it likes with the registers, its argument and
the memory below; it leaves alone what is on the stack above, up to `top`. -/
structure Handled (top : BitVec 32) (u u' : User) : Prop where
  eip : u'.cpu.eip = get u.mem u.cpu.esp
  esp : u'.cpu.esp = u.cpu.esp + 4
  cs : u'.cpu.cs = u.cpu.cs
  ss : u'.cpu.ss = u.cpu.ss
  mem : ∀ a, a - (u.cpu.esp + 8) < top - (u.cpu.esp + 8) → u'.mem a = u.mem a

/-- A handler that has been called: where it is, its argument, and what was blocked. -/
structure Call where
  handler : BitVec 32
  signr : BitVec 32
  blocked : Mask

/-- The call that a process is about to make. -/
def User.call (u : User) : Call := ⟨u.cpu.eip, get u.mem (u.cpu.esp + 4), u.blocked⟩

/-- The handlers run, each followed by its return code. -/
inductive Runs (top : BitVec 32) : User → List Call → User → Prop
  | done (u : User) : Runs top u [] u
  | handler {u u₁ u₂ : User} {l : List Call} (h : Handled top u u₁)
      (rest : Runs top (returnCode u₁) l u₂) : Runs top u (u.call :: l) u₂

/-- The process that returns to user mode. -/
def Delivered.user (d : Delivered) : User := ⟨d.regs.toCpu, d.task.blocked, d.mem⟩

end LinuxEvocation.Signal
