import LinuxEvocation.Errno
import LinuxEvocation.Lib.Ring
import LinuxEvocation.Lib.Transition

/-!
# Pipes: `pipe_read` and `pipe_write`

A pipe is a page that is used as a ring.  The positions `PIPE_HEAD` and `PIPE_TAIL` are taken
modulo the page size and one byte is always left free, so that `PIPE_SIZE` can be computed from
them.  Processes sleep only where the ring is empty or too full; the copies in between are not
interrupted.

* `Inode`, `Inode.size` — the pipe part of the inode, and `PIPE_SIZE`.
* `copyOut`, `copyIn` — the copy loops of the two calls.
* `pipeRead`, `writeLoop`, `pipeWrite` — the calls, up to the next sleep.
* `State`, `stepOut` — processes that read and write, with the history of the bytes that have been
  accepted and returned.
-/

namespace LinuxEvocation.Pipe

/-- `PAGE_SIZE`. -/
def pageSize : Nat := 4096

/-- `struct pipe_inode_info`, without the wait queues. -/
structure Inode where
  base : Nat → UInt8
  head : Nat
  tail : Nat
  readers : Nat
  writers : Nat

/-- `PIPE_SIZE`. -/
def Inode.size (p : Inode) : Nat := (p.head + pageSize - p.tail) % pageSize

/-! ## The copy loops -/

/-- The copy loop of `pipe_read`; the bytes that have been copied. -/
def copyOut : Nat → Inode → Nat → Inode × List UInt8
  | 0, p, _ => (p, [])
  | fuel + 1, p, count =>
    if count > 0 ∧ p.size ≠ 0 then
      let chars := min (min (pageSize - p.tail) count) p.size
      let run := (List.range chars).map fun i => p.base (p.tail + i)
      let r := copyOut fuel { p with tail := (p.tail + chars) % pageSize } (count - chars)
      (r.1, run ++ r.2)
    else (p, [])

/-- The copy loop of `pipe_write`; how many bytes have been copied. -/
def copyIn : Nat → Inode → List UInt8 → Inode × Nat
  | 0, p, _ => (p, 0)
  | fuel + 1, p, buf =>
    let size := pageSize - 1 - p.size
    if buf ≠ [] ∧ size ≠ 0 then
      let chars := min (min (pageSize - p.head) buf.length) size
      let r := copyIn fuel
        { p with
          base := Ring.blit p.base p.head (buf.take chars)
          head := (p.head + chars) % pageSize }
        (buf.drop chars)
      (r.1, chars + r.2)
    else (p, 0)

/-! ## The calls -/

/-- `pipe_read`, from the beginning or after a sleep: the bytes it has copied, and what it returns
unless it sleeps. -/
def pipeRead (p : Inode) (count : Nat) (nonblock pending : Bool) :
    Inode × List UInt8 × Option Int :=
  if ¬ nonblock ∧ p.size = 0 then
    if p.writers = 0 then (p, [], some 0)
    else if pending then (p, [], some (-Errno.erestartsys))
    else (p, [], none)
  else
    let r := copyOut count p count
    if r.2.length ≠ 0 then (r.1, r.2, some r.2.length)
    else if r.1.writers ≠ 0 then (r.1, r.2, some (-Errno.eagain))
    else (r.1, r.2, some 0)

/-- The local variables of `pipe_write`; `id` is the number of the call. -/
structure Write where
  id : Nat
  /-- What has not been copied, from `buf` on. -/
  buf : List UInt8
  written : Nat
  size : Nat
  nonblock : Bool
  deriving DecidableEq

/-- What `pipe_write` returns when it cannot go on. -/
def Write.giveUp (w : Write) (e : Int) : Int := if w.written ≠ 0 then w.written else -e

/-- The loop of `pipe_write`, up to the next sleep. -/
def writeLoop (pending : Bool) : Nat → Inode → Write → Option (Inode × Write × Option Int)
  | 0, _, _ => none
  | fuel + 1, p, w =>
    if w.buf = [] then some (p, w, some w.written)
    else if p.size ≥ w.size then
      if p.readers = 0 then some (p, w, some (w.giveUp Errno.epipe))
      else if pending then some (p, w, some (w.giveUp Errno.erestartsys))
      else if w.nonblock then some (p, w, some (w.giveUp Errno.eagain))
      else some (p, w, none)
    else
      let r := copyIn w.buf.length p w.buf
      writeLoop pending fuel r.1
        { w with
          buf := w.buf.drop r.2
          written := w.written + r.2
          size := pageSize - 1 }

/-- The beginning of `pipe_write`: "if count < PAGE_SIZE, we have to make it atomic". -/
def writeStart (id : Nat) (buf : List UInt8) (nonblock : Bool) : Write where
  id := id
  buf := buf
  written := 0
  size := if buf.length < pageSize then pageSize - buf.length else pageSize - 1
  nonblock := nonblock

/-- `pipe_write`, from the beginning. -/
def pipeWrite (p : Inode) (id : Nat) (buf : List UInt8) (nonblock pending : Bool) :
    Option (Inode × Write × Option Int) :=
  let w := writeStart id buf nonblock
  if p.readers = 0 then some (p, w, some (-Errno.epipe))
  else writeLoop pending (buf.length + 1) p w

/-! ## Processes -/

inductive Task where
  | idle
  /-- Asleep in `pipe_read`. -/
  | reading (count : Nat)
  /-- Asleep in `pipe_write`. -/
  | writing (w : Write)
  deriving DecidableEq

structure State (τ : Type*) where
  pipe : Inode
  task : τ → Task
  /-- `current->signal & ~current->blocked`. -/
  pending : τ → Bool
  /-- The bytes that have been accepted, each with the number of the call, in the order of the
  copies. -/
  stream : List (Nat × UInt8)
  /-- The bytes that have been returned, in the order of the copies. -/
  out : List UInt8
  /-- The calls of `pipe_write`: how many, what they were given and what they have returned. -/
  ncalls : Nat
  call : Nat → List UInt8
  ret : Nat → Option Int

inductive Event (τ : Type*) where
  | read (t : τ) (count : Nat) (nonblock : Bool)
  | write (t : τ) (buf : List UInt8) (nonblock : Bool)
  /-- A process runs again after a sleep, for whatever reason. -/
  | run (t : τ)
  | signal (t : τ) (pending : Bool)
  /-- The ends of the pipe are opened and closed. -/
  | ends (readers writers : Nat)
  deriving DecidableEq

variable {τ : Type*} [DecidableEq τ]

/-- What a step of `pipe_read` leaves. -/
def State.afterRead (s : State τ) (t : τ) (count : Nat) (r : Inode × List UInt8 × Option Int) :
    State τ :=
  { s with
    pipe := r.1
    out := s.out ++ r.2.1
    task := Function.update s.task t (if r.2.2 = none then .reading count else .idle) }

/-- What a step of `pipe_write` leaves, which was at `w` before it. -/
def State.afterWrite (s : State τ) (t : τ) (w : Write) (r : Inode × Write × Option Int) :
    State τ :=
  { s with
    pipe := r.1
    stream := s.stream ++ (w.buf.take (r.2.1.written - w.written)).map fun b => (w.id, b)
    task := Function.update s.task t (if r.2.2 = none then .writing r.2.1 else .idle)
    ret := Function.update s.ret w.id r.2.2 }

/-- One step, with what the call returns if it returns in it. -/
def stepOut (s : State τ) : Event τ → Option (State τ × Option Int)
  | .read t count nonblock =>
    if s.task t = .idle then
      let r := pipeRead s.pipe count nonblock (s.pending t)
      some (s.afterRead t count r, r.2.2)
    else none
  | .write t buf nonblock =>
    if s.task t = .idle then
      let s' := { s with ncalls := s.ncalls + 1, call := Function.update s.call s.ncalls buf }
      (pipeWrite s.pipe s.ncalls buf nonblock (s.pending t)).map fun r =>
        (s'.afterWrite t (writeStart s.ncalls buf nonblock) r, r.2.2)
    else none
  | .run t =>
    match s.task t with
    | .reading count =>
      let r := pipeRead s.pipe count false (s.pending t)
      some (s.afterRead t count r, r.2.2)
    | .writing w =>
      (writeLoop (s.pending t) (w.buf.length + 1) s.pipe w).map fun r =>
        (s.afterWrite t w r, r.2.2)
    | .idle => none
  | .signal t pending => some ({ s with pending := Function.update s.pending t pending }, none)
  | .ends readers writers =>
    some ({ s with pipe := { s.pipe with readers := readers, writers := writers } }, none)

def step (s : State τ) (e : Event τ) : Option (State τ) := (stepOut s e).map Prod.fst

/-- A new pipe. -/
def State.init (base : Nat → UInt8) : State τ where
  pipe := ⟨base, 0, 0, 1, 1⟩
  task _ := .idle
  pending _ := false
  stream := []
  out := []
  ncalls := 0
  call _ := []
  ret _ := none

end LinuxEvocation.Pipe
