import LinuxEvocation.Kernel.Exit.Basic
import LinuxEvocation.Kernel.Itimer

/-!
# The scheduler

The clock takes a tick at a time from the `counter` of the current task, and `schedule` gives the
processor to the runnable task that has most left.  When none of them has any, every task, asleep or
not, keeps half of what it has and gets its priority on top.

* `schedule`, `doTimer`, `sysNice`, `setpriority`, `fork` — the code.
* `Sys`, `step` — a machine that keeps a record of the ticks that each task is granted and charged.
* `Ledger` — no tick is lost; `Ledger.step`.
* `sched_fair` — nobody starves, in every run.
-/

namespace LinuxEvocation.Sched

open Exit (TaskState)
open Function (update update_apply)
open Transition (Reach)

/-! ## The code -/

/-- The fields of `struct task_struct` that the scheduler reads. -/
structure Task where
  state : TaskState
  signal : BitVec 32
  blocked : BitVec 32
  timeout : BitVec 32
  counter : Int
  priority : Int

structure State where
  jiffies : BitVec 32
  /-- The tasks from `init_task.next_task` on, up to `init_task`. -/
  ring : List Nat
  task : Nat → Task
  /-- `init_task` is 0. -/
  current : Nat

/-- `for_each_task(p)`. -/
def State.forEachTask (f : Task → Task) (s : State) : State :=
  { s with task := fun p => if p ∈ s.ring then f (s.task p) else s.task p }

/-- The first loop of `schedule`: alarms, and signals for tasks that may be interrupted. -/
def wake (jiffies : BitVec 32) (p : Task) : Task :=
  if p.state ≠ .interruptible then p
  else if p.signal &&& ~~~p.blocked ≠ 0 then { p with state := .running }
  else if Itimer.expired p.timeout jiffies then { p with timeout := 0, state := .running }
  else p

/-- A turn of the loop that looks for the next task. -/
def scanTurn (task : Nat → Task) (best : Int × Nat) (p : Nat) : Int × Nat :=
  if (task p).state = .running ∧ (task p).counter > best.1 then ((task p).counter, p) else best

/-- `c` and `next`, "the scheduler proper". -/
def scan (s : State) : Int × Nat := s.ring.foldl (scanTurn s.task) (-1, 0)

/-- A number as a `long` or `int` has it. -/
def long (x : Int) : Int := x.bmod (2 ^ 32)

/-- `p->counter = (p->counter >> 1) + p->priority`. -/
def recharge (p : Task) : Task := { p with counter := long (p.counter / 2 + p.priority) }

def State.woken (s : State) : State := s.forEachTask (wake s.jiffies)

def schedule (s : State) : State :=
  let s := s.woken
  let (c, next) := scan s
  let s := if c = 0 then s.forEachTask recharge else s
  { s with current := next }

/-- What `do_timer` does about the current task. -/
def doTimer (s : State) : State :=
  let cur := s.task s.current
  let left := if s.current = 0 ∨ cur.counter - 1 ≤ 0 then 0 else cur.counter - 1
  { s with
    jiffies := s.jiffies + 1
    task := update s.task s.current { cur with counter := left } }

/-- The priority that `sys_nice` sets. -/
def niced (priority increment : Int) : Int :=
  let newprio := long (priority - increment)
  let newprio := if newprio < 1 then 1 else newprio
  if newprio > 35 then 35 else newprio

def State.setPriority (p : Nat) (priority : Int) (s : State) : State :=
  { s with task := update s.task p { s.task p with priority := priority } }

def sysNice (increment : Int) (s : State) : State :=
  s.setPriority s.current (niced (s.task s.current).priority increment)

/-- `PZERO`. -/
def pzero : Int := 15

/-- What `sys_setpriority` does to a task that it selects. -/
def setpriority (p : Nat) (niceval : Int) (s : State) : State :=
  let priority := long (pzero - niceval)
  s.setPriority p (if priority ≤ 0 then 1 else priority)

/-- The child of `sys_fork` comes last in the ring. -/
def fork (child : Nat) (s : State) : State :=
  let cur := s.task s.current
  { s with
    ring := s.ring ++ [child]
    task := update s.task child { cur with counter := cur.counter / 2, state := .running } }

/-! ## Runs -/

inductive Event where
  | tick
  | schedule
  /-- Other code puts a task to sleep, wakes or stops it, sends it a signal, sets its timeout. -/
  | set (p : Nat) (state : TaskState) (signal blocked timeout : BitVec 32)
  | nice (increment : Int)
  | setpriority (p : Nat) (niceval : Int)
  | fork (child : Nat)
  | release (p : Nat)

/-- The tasks, what each was granted when the counters were last recharged or when it was born, and
how many ticks it has been charged since. -/
structure Sys extends State where
  granted : Nat → Int
  charged : Nat → Int

def step (s : Sys) : Event → Option Sys
  | .tick => some
      { s with
        toState := doTimer s.toState
        charged := fun p =>
          if p = s.current ∧ 0 < (s.task p).counter then s.charged p + 1 else s.charged p }
  | .schedule =>
    let t := schedule s.toState
    if (scan s.woken).1 = 0 then some ⟨t, fun p => (t.task p).counter, fun _ => 0⟩
    else some { s with toState := t }
  | .set p state signal blocked timeout => some
      { s with
        task := update s.task p
          { s.task p with state := state, signal := signal, blocked := blocked, timeout := timeout } }
  | .nice increment => some { s with toState := sysNice increment s.toState }
  | .setpriority p niceval =>
    if p ∈ s.ring then some { s with toState := setpriority p niceval s.toState } else none
  | .fork child =>
    if child = 0 ∨ child ∈ s.ring then none
    else some
      { toState := fork child s.toState
        granted := update s.granted child ((s.task s.current).counter / 2)
        charged := update s.charged child 0 }
  | .release p =>
    if p ∈ s.ring ∧ p ≠ s.current then some { s with ring := s.ring.erase p } else none

/-- The super-user gives no task more than `B`. -/
def mild (B : Int) (_ : Sys) : Event → Bool
  | .setpriority _ niceval => long (pzero - niceval) ≤ B
  | _ => true

/-- `INIT_TASK`. -/
def boot : Sys where
  jiffies := 0
  ring := []
  task _ := ⟨.running, 0, 0, 0, 15, 15⟩
  current := 0
  granted _ := 0
  charged _ := 0

/-! ## Whom the scheduler picks -/

section Pick

variable {s : State} {B : Int}

/-- Nobody in `l` can run, or `best` is one of those who can and have most left. -/
def Picked (task : Nat → Task) (l : List Nat) (best : Int × Nat) : Prop :=
  best = (-1, 0) ∧ (∀ q ∈ l, (task q).state ≠ .running) ∨
    best.2 ∈ l ∧ (task best.2).state = .running ∧ best.1 = (task best.2).counter ∧
      ∀ q ∈ l, (task q).state = .running → (task q).counter ≤ best.1

theorem picked_scanTurn {task : Nat → Task} {l : List Nat} {best : Int × Nat} {p : Nat}
    (h : Picked task l best) (hp : 0 ≤ (task p).counter) :
    Picked task (l ++ [p]) (scanTurn task best p) := by
  simp only [Picked, List.mem_append, List.mem_singleton] at h ⊢
  unfold scanTurn
  split_ifs with hc
  · grind
  · grind

/-- **A runnable task with most ticks left**, or the idle task if there is none. -/
theorem scan_spec (hs : ∀ p ∈ s.ring, 0 ≤ (s.task p).counter) : Picked s.task s.ring (scan s) := by
  unfold scan
  generalize s.ring = l at hs ⊢
  induction l using List.reverseRecOn with
  | nil => exact .inl ⟨rfl, fun q hq => absurd hq List.not_mem_nil⟩
  | append_singleton l p ih =>
    rw [List.foldl_append]
    exact picked_scanTurn (ih fun q hq => hs q (List.mem_append_left _ hq))
      (hs p (List.mem_append_right _ (List.mem_singleton_self p)))

theorem woken_same (s : State) (p : Nat) : (s.woken.task p).counter = (s.task p).counter ∧
    (s.woken.task p).priority = (s.task p).priority := by
  unfold State.woken State.forEachTask wake
  simp only
  split_ifs <;> exact ⟨rfl, rfl⟩

end Pick

/-! ## No tick is lost -/

section Ledger

variable {s s' : Sys} {B : Int} {e : Event}

/-- What holds of the idle task, too. -/
@[mk_iff]
structure Sound (B : Int) (t : Task) : Prop where
  priority_pos : 1 ≤ t.priority
  priority_le : t.priority ≤ B
  counter_nonneg : 0 ≤ t.counter
  counter_le : t.counter ≤ 2 * B

/-- What a task was granted, it has been charged or still has. -/
@[mk_iff]
structure Ledger (B : Int) (s : Sys) : Prop where
  idle : 0 ∉ s.ring
  current : s.current = 0 ∨ s.current ∈ s.ring
  init : Sound B (s.task 0)
  sound : ∀ p ∈ s.ring, Sound B (s.task p)
  balance : ∀ p ∈ s.ring, (s.task p).counter + s.charged p = s.granted p
  charged : ∀ p ∈ s.ring, 0 ≤ s.charged p
  granted : ∀ p ∈ s.ring, s.granted p ≤ 2 * B

theorem long_eq {x : Int} (h : 0 ≤ x) (h' : x < 2 ^ 31) : long x = x :=
  Int.bmod_eq_of_le (by omega) (by omega)

theorem schedule_task (s : State) (p : Nat) : (schedule s).task p =
    if (scan s.woken).1 = 0 ∧ p ∈ s.ring then recharge (s.woken.task p) else s.woken.task p := by
  unfold schedule
  by_cases hc : (scan s.woken).1 = 0
  · simp only [hc, if_true, true_and]
    rfl
  · simp only [hc, if_false, false_and]

theorem schedule_ring (s : State) : (schedule s).ring = s.ring := by
  unfold schedule
  simp only
  split_ifs <;> rfl

theorem Ledger.scan (h : Ledger B s) : Picked s.woken.task s.ring (Sched.scan s.woken) :=
  scan_spec fun p hp => (woken_same s.toState p).1 ▸ (h.sound p hp).counter_nonneg

/-- The counters are recharged, or nothing happens to them. -/
theorem Ledger.schedule (h : Ledger B s) (hB : 2 * B < 2 ^ 31) (hs : step s .schedule = some s') : Ledger B s' := by
  have hring := schedule_ring s.toState
  have hcurrent : (Sched.schedule s.toState).current = (Sched.scan s.woken).2 := rfl
  have htask := schedule_task s.toState
  have hwoken := woken_same s.toState
  have hpicked := h.scan
  simp only [step] at hs
  simp only [ledger_iff, sound_iff] at h
  split_ifs at hs with hc <;> obtain rfl := Option.some.inj hs
  · simp only [ledger_iff, sound_iff, hring, hcurrent, htask]
    grind [recharge, Picked, long_eq]
  · simp only [ledger_iff, sound_iff, hring, hcurrent, htask]
    grind [Picked]

/-- **Every step keeps the accounts.** -/
theorem Ledger.step (h : Ledger B s) (hB : 35 ≤ B ∧ 2 * B < 2 ^ 31) (he : mild B s e = true)
    (hs : Sched.step s e = some s') : Ledger B s' := by
  cases e with
  | schedule => exact h.schedule hB.2 hs
  | tick | nice | set =>
    obtain rfl := Option.some.inj hs
    simp only [ledger_iff, sound_iff, doTimer, sysNice, niced, State.setPriority, update_apply] at h ⊢
    grind
  | setpriority p niceval =>
    simp only [Sched.step, Option.ite_none_right_eq_some, Option.some.injEq] at hs
    obtain ⟨-, rfl⟩ := hs
    simp only [mild, decide_eq_true_eq] at he
    simp only [ledger_iff, sound_iff, setpriority, State.setPriority, update_apply] at h ⊢
    grind
  | fork child =>
    simp only [Sched.step, Option.ite_none_left_eq_some, not_or, Option.some.injEq] at hs
    obtain ⟨⟨h0, hnew⟩, rfl⟩ := hs
    simp only [ledger_iff, sound_iff, fork, update_apply, List.mem_append, List.mem_singleton] at h ⊢
    grind
  | release p =>
    simp only [Sched.step, Option.ite_none_right_eq_some, Option.some.injEq] at hs
    obtain ⟨⟨-, hne⟩, rfl⟩ := hs
    have hsub {q : Nat} : q ∈ s.ring.erase p → q ∈ s.ring := List.mem_of_mem_erase
    have hkeep : s.current ∈ s.ring → s.current ∈ s.ring.erase p :=
      (List.mem_erase_of_ne (Ne.symm hne)).mpr
    simp only [ledger_iff] at h ⊢
    grind

end Ledger

/-! ## Every run -/

/-- **Nobody starves**, in any run.  The next task is one that can run and has most ticks left, or the
idle task if none can.  Each task is charged no more than it was granted, and that is at most `2 * B`.
The counters are recharged only when every task that can run has been charged all it was granted, and
then each of them gets at least its priority. -/
theorem sched_fair {B : Int} {s : Sys} (hB : 35 ≤ B ∧ 2 * B < 2 ^ 31)
    (h : Reach step (fun s e => mild B s e = true) boot s) :
    (((schedule s.toState).current = 0 ∧ ∀ q ∈ s.ring, (s.woken.task q).state ≠ .running) ∨
      (schedule s.toState).current ∈ s.ring ∧
      (s.woken.task (schedule s.toState).current).state = .running ∧
      ∀ q ∈ s.ring, (s.woken.task q).state = .running →
        (s.task q).counter ≤ (s.task (schedule s.toState).current).counter) ∧
    ∀ p ∈ s.ring, 0 ≤ s.charged p ∧ s.charged p ≤ s.granted p ∧ s.granted p ≤ 2 * B ∧
      (s.task p).counter = s.granted p - s.charged p ∧
      ((scan s.woken).1 = 0 → (s.woken.task p).state = .running →
        s.charged p = s.granted p ∧ 1 ≤ (s.task p).priority ∧
          ((schedule s.toState).task p).counter = (s.task p).priority) := by
  have hledger : Ledger B s := by
    refine h.invariant ?_ fun _ _ _ hl he hs => hl.step hB he hs
    simp only [ledger_iff, sound_iff, boot]
    grind
  have hcounter (p : Nat) := (woken_same s.toState p).1
  refine ⟨?_, fun p hp => ?_⟩
  · rcases hledger.scan with ⟨heq, hnone⟩ | ⟨hmem, hrun, hbest, hmost⟩
    · exact .inl ⟨congrArg Prod.snd heq, hnone⟩
    · refine .inr ⟨hmem, hrun, fun q hq hr => ?_⟩
      rw [← hcounter, ← hcounter]
      exact (hmost q hq hr).trans hbest.le
  · have hbalance := hledger.balance p hp
    have hnonneg := (hledger.sound p hp).counter_nonneg
    refine ⟨hledger.charged p hp, by omega, hledger.granted p hp, by omega, fun hc hr => ?_⟩
    have hzero : (s.task p).counter = 0 := by
      rcases hledger.scan with ⟨-, hnone⟩ | ⟨-, -, -, hmost⟩
      · exact absurd hr (hnone p hp)
      · have hle := hmost p hp hr
        rw [hcounter, hc] at hle
        omega
    refine ⟨by omega, (hledger.sound p hp).priority_pos, ?_⟩
    rw [schedule_task, if_pos ⟨hc, hp⟩]
    have hsound := hledger.sound p hp
    show long ((s.woken.task p).counter / 2 + (s.woken.task p).priority) = _
    rw [hcounter, hzero, (woken_same s.toState p).2]
    simp only [Int.zero_ediv, Int.zero_add]
    exact long_eq (by have := hsound.priority_pos; omega) (by have := hsound.priority_le; omega)

/-- Two tasks, one of which sleeps for a while. -/
def twoTasks : List Event :=
  [.fork 1, .schedule, .tick, .fork 2, .set 1 .interruptible 0 0 0, .schedule, .tick, .nice 5,
    .set 1 .running 0 0 0, .schedule]

theorem sched_fair_two :
    ∃ s, Transition.execOkFrom step (mild 35) boot twoTasks = some s ∧
      1 ∈ s.ring ∧ 0 ≤ s.charged 1 ∧ s.charged 1 ≤ s.granted 1 ∧ s.granted 1 ≤ 2 * 35 := by
  obtain ⟨s, hs, hmem⟩ : ∃ s, Transition.execOkFrom step (mild 35) boot twoTasks = some s ∧
      1 ∈ s.ring := ⟨_, rfl, by decide⟩
  obtain ⟨hnonneg, hle, hgranted, -⟩ :=
    (sched_fair ⟨by decide, by decide⟩ (.of_execOkFrom (fun _ _ he => he) .init hs)).2 1 hmem
  exact ⟨s, hs, hmem, hnonneg, hle, hgranted⟩

end LinuxEvocation.Sched
