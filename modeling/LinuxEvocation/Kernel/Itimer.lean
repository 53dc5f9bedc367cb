import LinuxEvocation.Errno
import Mathlib.Tactic

/-!
# Interval timers and the timeout of `select`

The kernel counts time in ticks of the clock, its callers in seconds and microseconds.  The
conversions are made in 32 bits.

* `Timeval`, `tvtojiffies`, `jiffiestotv` — the conversions of `kernel/itimer.c`.
* `getitimer`, `setitimer`, `sysAlarm` — the three timers of a task, and the call that sets one of
  them by the second.
* `selectTimeout` — the tick up to which `sys_select` waits.
* `conversions_exact` — for which arguments nothing comes early.
-/

namespace LinuxEvocation.Itimer

/-! ## The conversions -/

/-- `HZ`. -/
def hz : Nat := 100

/-- The microseconds of a tick, `1000000 / HZ`. -/
def tick : Nat := 1000000 / hz

/-- `struct timeval`. -/
structure Timeval where
  sec : BitVec 32
  usec : BitVec 32
  usec_lt : usec.toNat < 1000000

namespace Timeval

variable (tv : Timeval)

/-- The time in microseconds. -/
def micros : Nat := tv.sec.toNat * 1000000 + tv.usec.toNat

/-- The ticks that the time takes, the last one begun. -/
def ticks : Nat := tv.sec.toNat * hz + (tv.usec.toNat + (tick - 1)) / tick

theorem micros_le_ticks : tv.micros ≤ tv.ticks * tick := by
  have h : tv.usec.toNat ≤ (tv.usec.toNat + 9999) / 10000 * 10000 := by omega
  simp only [micros, ticks, hz, tick]
  omega

/-- One tick less is too short, unless no time is asked for. -/
theorem ticks_lt (h : tv.ticks ≠ 0) : (tv.ticks - 1) * tick < tv.micros := by
  simp only [micros, ticks, hz, tick] at h ⊢
  omega

theorem lt_micros {n : Nat} (h : n < tv.ticks) : n * tick < tv.micros := by
  have h1 : n * tick ≤ (tv.ticks - 1) * tick := Nat.mul_le_mul_right _ (by omega)
  exact lt_of_le_of_lt h1 (tv.ticks_lt (by omega))

/-- The ticks are the fewest that are long enough. -/
theorem ticks_le_iff {n : Nat} : tv.ticks ≤ n ↔ tv.micros ≤ n * tick := by
  constructor
  · intro h
    exact le_trans tv.micros_le_ticks (Nat.mul_le_mul_right _ h)
  · intro h
    by_contra hlt
    exact absurd h (Nat.not_le.mpr (tv.lt_micros (Nat.not_le.mp hlt)))

end Timeval

@[simp]
theorem toNat_hz : (BitVec.ofNat 32 hz).toNat = 100 := rfl

@[simp]
theorem toNat_tick : (BitVec.ofNat 32 (1000000 / hz)).toNat = 10000 := rfl

/-- `tvtojiffies`. -/
def tvtojiffies (value : Timeval) : BitVec 32 :=
  value.sec * BitVec.ofNat 32 hz +
    (value.usec + BitVec.ofNat 32 (1000000 / hz - 1)) / BitVec.ofNat 32 (1000000 / hz)

theorem toNat_usec (j : BitVec 32) :
    (j % BitVec.ofNat 32 hz * BitVec.ofNat 32 (1000000 / hz)).toNat = j.toNat % 100 * 10000 := by
  have h : j.toNat % 100 < 100 := Nat.mod_lt _ (by decide)
  rw [BitVec.toNat_mul, BitVec.toNat_umod, toNat_hz, toNat_tick]
  exact Nat.mod_eq_of_lt (by omega)

/-- `jiffiestotv`. -/
def jiffiestotv (jiffies : BitVec 32) : Timeval where
  sec := jiffies / BitVec.ofNat 32 hz
  usec := jiffies % BitVec.ofNat 32 hz * BitVec.ofNat 32 (1000000 / hz)
  usec_lt := by
    rw [toNat_usec]
    omega

/-- What is computed is the number of ticks, as far as 32 bits can hold it. -/
theorem toNat_tvtojiffies (tv : Timeval) : (tvtojiffies tv).toNat = tv.ticks % 2 ^ 32 := by
  have h := tv.usec_lt
  have hround : (BitVec.ofNat 32 (1000000 / hz - 1)).toNat = 9999 := rfl
  have hfrac : (tv.usec.toNat + 9999) % 2 ^ 32 = tv.usec.toNat + 9999 := by omega
  rw [tvtojiffies, BitVec.toNat_add, BitVec.toNat_mul, BitVec.toNat_udiv, BitVec.toNat_add,
    toNat_hz, toNat_tick, hround, hfrac, Nat.mod_add_mod]
  rfl

theorem micros_jiffiestotv (j : BitVec 32) : (jiffiestotv j).micros = j.toNat * tick := by
  have hsec : (jiffiestotv j).sec.toNat = j.toNat / 100 := BitVec.toNat_udiv
  have husec : (jiffiestotv j).usec.toNat = j.toNat % 100 * 10000 := toNat_usec j
  rw [Timeval.micros, hsec, husec]
  simp only [tick, hz]
  omega

/-- The count of ticks is long enough for the time. -/
def LongEnough (tv : Timeval) : Prop := tv.micros ≤ (tvtojiffies tv).toNat * tick

/-- Conversion there and back rounds the time up to the next tick. -/
def RoundsUp (tv : Timeval) : Prop :=
  IsLeast {n | tick ∣ n ∧ tv.micros ≤ n} (jiffiestotv (tvtojiffies tv)).micros

theorem toNat_tvtojiffies_of_lt {tv : Timeval} (h : tv.ticks < 2 ^ 32) :
    (tvtojiffies tv).toNat = tv.ticks := by
  rw [toNat_tvtojiffies, Nat.mod_eq_of_lt h]

theorem longEnough_iff (tv : Timeval) : LongEnough tv ↔ tv.ticks < 2 ^ 32 := by
  rw [LongEnough, ← tv.ticks_le_iff]
  constructor
  · intro h
    exact lt_of_le_of_lt h (tvtojiffies tv).isLt
  · intro h
    exact (toNat_tvtojiffies_of_lt h).ge

theorem roundsUp_iff (tv : Timeval) : RoundsUp tv ↔ tv.ticks < 2 ^ 32 := by
  rw [RoundsUp, micros_jiffiestotv, ← longEnough_iff]
  constructor
  · intro h
    exact h.1.2
  · intro h
    refine ⟨⟨Dvd.intro_left _ rfl, h⟩, ?_⟩
    rintro _ ⟨⟨n, rfl⟩, hn⟩
    rw [longEnough_iff] at h
    rw [Nat.mul_comm, ← tv.ticks_le_iff] at hn
    rw [toNat_tvtojiffies_of_lt h, Nat.mul_comm]
    exact Nat.mul_le_mul_left _ hn

/-! ## The timers of a task -/

/-- `ITIMER_REAL`, `ITIMER_VIRTUAL`, `ITIMER_PROF`. -/
inductive Which where
  | real
  | virt
  | prof
  deriving DecidableEq

def Which.ofInt : Int → Option Which
  | 0 => some .real
  | 1 => some .virt
  | 2 => some .prof
  | _ => none

/-- The ticks until a timer fires, 0 if it is not set, and what it is set to then: `it_real_value`
and `it_real_incr`, and the same for the other two. -/
structure Timer where
  value : BitVec 32
  incr : BitVec 32
  deriving DecidableEq

/-- `struct itimerval`. -/
structure Itimerval where
  interval : Timeval
  value : Timeval

/-- `_getitimer`. -/
def getitimer (current : Which → Timer) (which : Int) : Except Int Itimerval :=
  match Which.ofInt which with
  | some w => .ok ⟨jiffiestotv (current w).incr, jiffiestotv (current w).value⟩
  | none => .error (-Errno.einval)

/-- `_setitimer`, with the old setting. -/
def setitimer (current : Which → Timer) (which : Int) (value : Itimerval) :
    Except Int (Itimerval × (Which → Timer)) :=
  let i := tvtojiffies value.interval
  let j := tvtojiffies value.value
  match getitimer current which with
  | .error k => .error k
  | .ok ovalue =>
    match Which.ofInt which with
    | some w => .ok (ovalue, Function.update current w ⟨j, i⟩)
    | none => .error (-Errno.einval)

/-- The time of a number of seconds. -/
def Timeval.ofSec (seconds : BitVec 32) : Timeval := ⟨seconds, 0, by decide⟩

/-- `sys_alarm`: the value that is returned, and the timers. -/
def sysAlarm (current : Which → Timer) (seconds : BitVec 32) : BitVec 32 × (Which → Timer) :=
  match setitimer current 0 ⟨Timeval.ofSec 0, Timeval.ofSec seconds⟩ with
  | .ok (old, current) => (old.value.sec + old.value.usec / BitVec.ofNat 32 1000000, current)
  | .error _ => (0, current)

theorem setitimer_real (current : Which → Timer) (value : Itimerval) :
    setitimer current 0 value =
      .ok (⟨jiffiestotv (current .real).incr, jiffiestotv (current .real).value⟩,
        Function.update current .real ⟨tvtojiffies value.value, tvtojiffies value.interval⟩) :=
  rfl

theorem usec_div (tv : Timeval) : tv.usec / BitVec.ofNat 32 1000000 = 0 := by
  apply BitVec.eq_of_toNat_eq
  rw [BitVec.toNat_udiv]
  exact Nat.div_eq_of_lt tv.usec_lt

theorem sysAlarm_fst (current : Which → Timer) (seconds : BitVec 32) :
    (sysAlarm current seconds).1 = (current .real).value / BitVec.ofNat 32 hz := by
  simp only [sysAlarm, setitimer_real]
  rw [usec_div]
  exact BitVec.add_zero _

/-- The value returned tells whether an alarm was pending. -/
def Reports (current : Which → Timer) (seconds : BitVec 32) : Prop :=
  (sysAlarm current seconds).1 ≠ 0 ↔ (current .real).value ≠ 0

theorem reports_iff (current : Which → Timer) (seconds : BitVec 32) :
    Reports current seconds ↔
      (current .real).value = 0 ∨ hz ≤ (current .real).value.toNat := by
  have hdiv : ((current .real).value / BitVec.ofNat 32 hz ≠ 0) ↔
      hz ≤ (current .real).value.toNat := by
    rw [Ne, ← BitVec.toNat_inj, BitVec.toNat_udiv, toNat_hz, hz]
    show ¬ _ = 0 ↔ _
    omega
  rw [Reports, sysAlarm_fst, hdiv]
  constructor
  · intro h
    by_cases h0 : (current .real).value = 0
    · exact .inl h0
    · exact .inr (h.mpr h0)
  · rintro (h | h)
    · simp [h, hz]
    · have h0 : (current .real).value ≠ 0 := by
        intro h0
        simp [h0, hz] at h
      exact iff_of_true h h0

/-! ## `select` -/

/-- `ROUND_UP`. -/
def roundUp (x y : BitVec 32) : BitVec 32 := (x + y - 1) / y

/-- The timeout that `sys_select` computes at the tick `jiffies`; with 0 it does not wait. -/
def selectTimeout (jiffies : BitVec 32) (tv : Timeval) : BitVec 32 :=
  let timeout := jiffies
  let timeout := timeout + roundUp tv.usec (BitVec.ofNat 32 (1000000 / hz))
  let timeout := timeout + tv.sec * BitVec.ofNat 32 hz
  if timeout ≤ jiffies then 0 else timeout

/-- How many ticks after `jiffies` the timeout is. -/
def selectTicks (jiffies timeout : BitVec 32) : Nat :=
  if timeout = 0 then 0 else timeout.toNat - jiffies.toNat

/-- What `schedule` asks of a timeout. -/
def expired (timeout jiffies : BitVec 32) : Bool := decide (timeout ≠ 0) && decide (timeout < jiffies)

/-- The wait is as long as it should be. -/
def Waits (jiffies : BitVec 32) (tv : Timeval) : Prop :=
  tv.micros ≤ selectTicks jiffies (selectTimeout jiffies tv) * tick

theorem toNat_roundUp (tv : Timeval) :
    (roundUp tv.usec (BitVec.ofNat 32 (1000000 / hz))).toNat =
      (tv.usec.toNat + (tick - 1)) / tick := by
  have h := tv.usec_lt
  have h1 : BitVec.toNat (1 : BitVec 32) = 1 := rfl
  rw [roundUp, BitVec.toNat_udiv, BitVec.toNat_sub, BitVec.toNat_add, toNat_tick, h1]
  simp only [tick, hz]
  omega

/-- The tick before it is compared with the present one. -/
theorem toNat_deadline (jiffies : BitVec 32) (tv : Timeval) :
    (jiffies + roundUp tv.usec (BitVec.ofNat 32 (1000000 / hz)) +
      tv.sec * BitVec.ofNat 32 hz).toNat = (jiffies.toNat + tv.ticks) % 2 ^ 32 := by
  rw [BitVec.toNat_add, BitVec.toNat_add, toNat_roundUp, BitVec.toNat_mul]
  rw [toNat_hz, Timeval.ticks, hz]
  omega

theorem selectTicks_eq (jiffies : BitVec 32) (tv : Timeval) :
    selectTicks jiffies (selectTimeout jiffies tv) =
      (jiffies.toNat + tv.ticks) % 2 ^ 32 - jiffies.toNat := by
  have hd := toNat_deadline jiffies tv
  simp only [selectTimeout]
  split
  case isTrue hle =>
    rw [BitVec.le_def, hd] at hle
    simp only [selectTicks, if_true]
    omega
  case isFalse hlt =>
    rw [BitVec.le_def, hd] at hlt
    have hne : jiffies + roundUp tv.usec (BitVec.ofNat 32 (1000000 / hz)) +
        tv.sec * BitVec.ofNat 32 hz ≠ 0 := by
      intro h0
      rw [h0] at hd
      have hz0 : BitVec.toNat (0 : BitVec 32) = 0 := rfl
      omega
    rw [selectTicks, if_neg hne, hd]

theorem waits_iff (jiffies : BitVec 32) (tv : Timeval) :
    Waits jiffies tv ↔ jiffies.toNat + tv.ticks < 2 ^ 32 := by
  have hj := jiffies.isLt
  rw [Waits, selectTicks_eq, ← tv.ticks_le_iff]
  omega

/-! ## The conversions together -/

/-- **Exactly when nothing comes early.**  A time is converted to a count of ticks that is long
enough, and back to the time rounded up, if the count fits in 32 bits.  `alarm` tells of an alarm
that was pending if at least a second of it was left.  The timeout of `select` is not early if the
tick it falls on fits in 32 bits. -/
theorem conversions_exact (tv : Timeval) (current : Which → Timer) (seconds jiffies : BitVec 32) :
    ((LongEnough tv ∧ RoundsUp tv) ↔ tv.ticks < 2 ^ 32) ∧
    (Reports current seconds ↔ (current .real).value = 0 ∨ hz ≤ (current .real).value.toNat) ∧
    (Waits jiffies tv ↔ jiffies.toNat + tv.ticks < 2 ^ 32) := by
  refine ⟨?_, reports_iff current seconds, waits_iff jiffies tv⟩
  rw [longEnough_iff, roundsUp_iff, and_self]

/-- An alarm half a second away is reported as none, 42949673 seconds are converted to 4 ticks, and
three ticks before the counter wraps a `select` of one second does not wait. -/
theorem early_alarm_and_timeout :
    ¬ Reports (fun _ => ⟨50, 0⟩) 0 ∧
    ¬ LongEnough ⟨42949673, 0, by decide⟩ ∧ ¬ RoundsUp ⟨42949673, 0, by decide⟩ ∧
    ¬ Waits 4294967293 ⟨1, 0, by decide⟩ := by
  refine ⟨?_, ?_, ?_, ?_⟩
  · rw [Reports]
    decide
  · rw [LongEnough]
    decide
  · rintro ⟨⟨-, h⟩, -⟩
    revert h
    decide
  · rw [Waits]
    decide

end LinuxEvocation.Itimer
