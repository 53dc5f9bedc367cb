import LinuxEvocation.Errno
import LinuxEvocation.Lib.Ring

/-!
# The kernel log

`printk` puts its message into a ring of `LOG_BUF_LEN` characters and `sys_syslog` takes them out.
The reader masks `log_start` after each character; `printk` does not when it drops the oldest
character of a full ring, and the first character of the next read is taken from wherever
`log_start` points.

* `Log`, `step` — the variables of the log, and the calls.
* `Pending` — what the log is for: the characters that have not been read, as one list.
* `Rep` — the ring holds the last of them; `Rep.printk`, `Rep.read` — it does after each call.
* `log_ok_iff` — the calls do what they are for exactly when they find `log_start` in the ring.
-/

namespace LinuxEvocation.Printk

open Errno

/-- `LOG_BUF_LEN`. -/
def logBufLen : Nat := 4096

/-- Arithmetic on `unsigned long`. -/
def wrap (n : Nat) : Nat := n % 2 ^ 32

/-- The variables of `printk.c`; `console` is what the console driver has been given. -/
structure Log where
  /-- The memory at `log_buf`, by the offset from it. -/
  logBuf : Int → UInt8
  logStart : Nat
  loggedChars : Nat
  logSize : Nat
  logToConsole : Bool
  /-- `console_print_proc` is set. -/
  hasConsole : Bool
  console : List (List UInt8)

/-- What a call returns, `none` when it sleeps; the characters it has stored in the buffer of the
caller; and the offsets at which it has used `log_buf`. -/
structure Answer where
  ret : Option Int
  chars : List UInt8
  used : List Int

/-! ## The calls -/

/-- The offset at which `printk` puts the next character. -/
def Log.putAt (s : Log) : Nat := wrap (s.logStart + s.logSize) % logBufLen

/-- The loop of `printk`, for one character. -/
def Log.put (s : Log) (c : UInt8) : Log :=
  let s' := { s with
    logBuf := Function.update s.logBuf s.putAt c
    loggedChars := wrap (s.loggedChars + 1) }
  if s.logSize < logBufLen then { s' with logSize := s.logSize + 1 }
  else { s' with logStart := wrap (s.logStart + 1) }

/-- The loop of `printk`, and the offsets it uses. -/
def Log.putAll (s : Log) : List UInt8 → Log × List Int
  | [] => (s, [])
  | c :: msg =>
    let r := (s.put c).putAll msg
    (r.1, (s.putAt : Int) :: r.2)

/-- `printk`, with the message that `vsprintf` makes. -/
def printk (msg : List UInt8) (s : Log) : Log × Answer :=
  let r := s.putAll msg
  let s' := if r.1.logToConsole && r.1.hasConsole then
      { r.1 with console := r.1.console ++ [msg] }
    else r.1
  (s', ⟨some msg.length, [], r.2⟩)

/-- The loop of `sys_syslog(2, buf, len)`: the characters and the offsets it takes them from. -/
def Log.take (s : Log) : Nat → Log × List UInt8 × List Int
  | 0 => (s, [], [])
  | len + 1 =>
    if s.logSize = 0 then (s, [], [])
    else
      let r := Log.take
        { s with logStart := wrap (s.logStart + 1) % logBufLen, logSize := s.logSize - 1 } len
      (r.1, s.logBuf s.logStart :: r.2.1, (s.logStart : Int) :: r.2.2)

/-- The read of `sys_syslog(3)` and `sys_syslog(4)`. -/
def Log.last (s : Log) (len : Nat) : List Int :=
  let count := min (min len logBufLen) s.loggedChars
  let j := s.logStart + s.logSize + 2 ^ 32 - count
  (List.range count).map fun i => ((wrap (j + i) % logBufLen : Nat) : Int)

/-- `sys_syslog(type, buf, len)`; `isNull` says that `buf` is, and `signal` that a signal is
pending. -/
def syslog (type : Int) (suser isNull signal : Bool) (len : Int) (s : Log) : Log × Answer :=
  if type ≠ 3 ∧ suser = false then (s, ⟨some (-eperm), [], []⟩)
  else if type = 0 ∨ type = 1 then (s, ⟨some 0, [], []⟩)
  else if type = 2 then
    if isNull = true ∨ len < 0 then (s, ⟨some (-einval), [], []⟩)
    else if len = 0 then (s, ⟨some 0, [], []⟩)
    else if s.logSize = 0 then
      (s, ⟨if signal then some (-erestartsys) else none, [], []⟩)
    else
      let r := s.take len.toNat
      (r.1, ⟨some r.2.1.length, r.2.1, r.2.2⟩)
  else if type = 3 ∨ type = 4 then
    if isNull = true ∨ len < 0 then (s, ⟨some (-einval), [], []⟩)
    else if len = 0 then (s, ⟨some 0, [], []⟩)
    else
      let used := s.last len.toNat
      (if type = 4 then { s with loggedChars := 0 } else s,
        ⟨some used.length, used.map s.logBuf, used⟩)
  else if type = 5 then ({ s with loggedChars := 0 }, ⟨some 0, [], []⟩)
  else if type = 6 then ({ s with logToConsole := false }, ⟨some 0, [], []⟩)
  else if type = 7 then ({ s with logToConsole := true }, ⟨some 0, [], []⟩)
  else (s, ⟨some (-einval), [], []⟩)

/-- An `unsigned long` as an `int`. -/
def toInt (n : Nat) : Int := if n < 2 ^ 31 then n else n - 2 ^ 32

/-- The offsets that `register_console` goes through. -/
def walk (p : Int) : Nat → List Int
  | 0 => []
  | n + 1 => p :: walk ((p + 1) % logBufLen) n

/-- The strings that `register_console` passes on, 15 characters each. -/
def chunks (l : List UInt8) : List (List UInt8) :=
  (List.range (l.length / 15 + 1)).map fun i => (l.drop (15 * i)).take 15

/-- `register_console`. -/
def registerConsole (s : Log) : Log × Answer :=
  let used := walk (toInt s.logStart) s.logSize
  ({ s with
    hasConsole := true
    console := s.console ++ chunks (used.map s.logBuf) }, ⟨some 0, [], used⟩)

inductive Call where
  | printk (msg : List UInt8)
  | syslog (type : Int) (suser isNull signal : Bool) (len : Int)
  | registerConsole

def step (s : Log) : Call → Log × Answer
  | .printk msg => Printk.printk msg s
  | .syslog type suser isNull signal len => Printk.syslog type suser isNull signal len s
  | .registerConsole => Printk.registerConsole s

/-- The log at boot; what is in memory behind it does not matter. -/
def Log.init (logBuf : Int → UInt8) : Log :=
  { logBuf := logBuf
    logStart := 0
    loggedChars := 0
    logSize := 0
    logToConsole := true
    hasConsole := false
    console := [] }

/-! ## What the log is for -/

/-- The most recent `LOG_BUF_LEN` of the characters. -/
def recent (l : List UInt8) : List UInt8 := l.drop (l.length - logBufLen)

/-- The call reads: it is `sys_syslog(2, buf, len)` with a buffer, by the super-user. -/
def Call.reads : Call → Option Nat
  | .syslog type suser isNull _ len =>
    if type = 2 ∧ suser = true ∧ isNull = false ∧ 0 < len then some len.toNat else none
  | _ => none

/-- The characters that have not been read when the call has returned. -/
def Pending.step (unread : List UInt8) : Call → List UInt8
  | .printk msg => unread ++ msg
  | c =>
    match c.reads with
    | some len => (recent unread).drop len
    | none => unread

/-- The call uses the ring only, and a read returns the oldest of the recent unread characters. -/
def CallOk (unread : List UInt8) (c : Call) (a : Answer) : Prop :=
  (∀ i ∈ a.used, 0 ≤ i ∧ i < logBufLen) ∧
    ∀ len, c.reads = some len → a.chars = (recent unread).take len

/-- Every call of the sequence does. -/
def RunOk (s : Log) (unread : List UInt8) : List Call → Prop
  | [] => True
  | c :: cs => CallOk unread c (step s c).2 ∧ RunOk (step s c).1 (Pending.step unread c) cs

/-- The call looks at the ring from `log_start` on. -/
def Call.looks (s : Log) (c : Call) : Prop :=
  s.logSize ≠ 0 ∧ (c.reads ≠ none ∨ c = .registerConsole)

/-- Every call that looks at the ring from `log_start` on finds it in the ring. -/
def StartInRing (s : Log) : List Call → Prop
  | [] => True
  | c :: cs => (c.looks s → s.logStart < logBufLen) ∧ StartInRing (step s c).1 cs

/-! ## The ring holds the recent characters -/

/-- The memory of the ring. -/
def Log.ring (s : Log) (i : Nat) : UInt8 := s.logBuf i

/-- The ring holds the characters `w`, the oldest at `log_start`. -/
structure Holds (s : Log) (w : List UInt8) : Prop where
  size : s.logSize = w.length
  len : w.length ≤ logBufLen
  window : Ring.window logBufLen s.ring s.logStart w.length = w
  start : s.logStart < 2 ^ 32

/-- The ring holds the recent ones of the unread characters. -/
def Rep (s : Log) (unread : List UInt8) : Prop := Holds s (recent unread)

theorem wrap_mod (n : Nat) : wrap n % logBufLen = n % logBufLen :=
  Nat.mod_mod_of_dvd n (by decide)

theorem length_recent (l : List UInt8) : (recent l).length = min l.length logBufLen := by
  rw [recent, List.length_drop]
  omega

theorem recent_of_le {l : List UInt8} (h : l.length ≤ logBufLen) : recent l = l := by
  rw [recent, Nat.sub_eq_zero_of_le h, List.drop_zero]

theorem recent_concat (l : List UInt8) (c : UInt8) :
    recent (l ++ [c]) = if l.length < logBufLen then recent l ++ [c]
      else (recent l).drop 1 ++ [c] := by
  split
  · rename_i h
    rw [recent_of_le h.le, recent_of_le]
    rw [List.length_append, List.length_singleton]
    exact h
  · rename_i h
    have hlen : (l ++ [c]).length - logBufLen = l.length - logBufLen + 1 := by
      rw [List.length_append, List.length_singleton]
      omega
    have hle : l.length - logBufLen + 1 ≤ l.length := by
      unfold logBufLen at h ⊢
      omega
    rw [recent, hlen, List.drop_append_of_le_length hle, recent, List.drop_drop]

/-- The ring after a character has been stored at `printk`'s offset. -/
theorem ring_put (s : Log) (c : UInt8) :
    (s.put c).ring = Function.update s.ring ((s.logStart + s.logSize) % logBufLen) c := by
  have hbuf : (s.put c).logBuf = Function.update s.logBuf s.putAt c := by
    unfold Log.put
    split <;> rfl
  funext i
  rw [Log.ring, hbuf, Log.putAt, wrap_mod]
  by_cases hi : i = (s.logStart + s.logSize) % logBufLen
  · rw [hi, Function.update_self, Function.update_self]
  · have hi' : (i : Int) ≠ ((s.logStart + s.logSize) % logBufLen : Nat) := by exact_mod_cast hi
    rw [Function.update_of_ne hi, Function.update_of_ne hi']
    rfl

variable {s : Log} {unread : List UInt8}

/-- **`printk` puts one character.** -/
theorem Rep.put (h : Rep s unread) (c : UInt8) :
    Rep (s.put c) (unread ++ [c]) := by
  obtain ⟨hsize, hlen, hwin, hstart⟩ := h
  rw [length_recent] at hsize hwin
  unfold Rep
  rw [recent_concat]
  by_cases hfull : unread.length < logBufLen
  · -- there is room
    rw [if_pos hfull]
    rw [Nat.min_eq_left hfull.le] at hsize hwin
    have hput : (s.put c).logSize = s.logSize + 1 ∧ (s.put c).logStart = s.logStart := by
      rw [Log.put, if_pos (hsize ▸ hfull)]
      exact ⟨rfl, rfl⟩
    have hlen' : (recent unread ++ [c]).length = unread.length + 1 := by
      rw [List.length_append, length_recent, Nat.min_eq_left hfull.le, List.length_singleton]
    refine ⟨?_, ?_, ?_, hput.2 ▸ hstart⟩
    · rw [hput.1, hsize, hlen']
    · rw [hlen']
      exact hfull
    · rw [hput.2, hlen', ring_put, hsize, Ring.window_push c hfull, hwin]
  · -- the oldest character is dropped
    rw [if_neg hfull]
    rw [not_lt] at hfull
    rw [Nat.min_eq_right hfull] at hsize hwin
    have hput : (s.put c).logSize = s.logSize ∧ (s.put c).logStart = wrap (s.logStart + 1) := by
      rw [Log.put, if_neg (by rw [hsize]; exact lt_irrefl _)]
      exact ⟨rfl, rfl⟩
    have hdrop : (recent unread).drop 1 =
        Ring.window logBufLen s.ring (s.logStart + 1) (logBufLen - 1) := by
      rw [← hwin]
      show (Ring.window logBufLen s.ring s.logStart ((logBufLen - 1) + 1)).drop 1 = _
      rw [Ring.window_succ]
      rfl
    have hlen' : ((recent unread).drop 1 ++ [c]).length = logBufLen := by
      rw [hdrop, List.length_append, Ring.length_window]
      rfl
    refine ⟨?_, hlen'.le, ?_, hput.2 ▸ Nat.mod_lt _ (by decide)⟩
    · rw [hput.1, hsize, hlen']
    · have hat : (s.logStart + s.logSize) % logBufLen =
          (s.logStart + 1 + (logBufLen - 1)) % logBufLen := by
        rw [hsize]
        congr 1
      rw [hput.2, hlen', ring_put, ← Ring.window_mod, wrap_mod, Ring.window_mod, hat]
      show Ring.window logBufLen _ _ ((logBufLen - 1) + 1) = _
      rw [Ring.window_push c (by decide), hdrop]

theorem Rep.putAll (h : Rep s unread) (msg : List UInt8) :
    Rep (s.putAll msg).1 (unread ++ msg) ∧ ∀ i ∈ (s.putAll msg).2, 0 ≤ i ∧ i < (logBufLen : Int) := by
  induction msg generalizing s unread with
  | nil =>
    rw [List.append_nil]
    exact ⟨h, by simp [Log.putAll]⟩
  | cons c msg ih =>
    obtain ⟨h1, h2⟩ := ih (h.put c)
    rw [List.append_assoc, List.singleton_append] at h1
    refine ⟨h1, fun i hi => ?_⟩
    rcases List.mem_cons.1 hi with rfl | hi
    · refine ⟨Int.natCast_nonneg _, Int.ofNat_lt.2 ?_⟩
      exact Nat.mod_lt _ (by decide)
    · exact h2 i hi

/-- **The loop of the reader**, when it starts in the ring. -/
theorem Holds.take {w : List UInt8} (h : Holds s w) (hstart : s.logStart < logBufLen) (len : Nat) :
    (s.take len).2.1 = w.take len ∧ Holds (s.take len).1 (w.drop len) ∧
      ∀ i ∈ (s.take len).2.2, 0 ≤ i ∧ i < (logBufLen : Int) := by
  induction len generalizing s w with
  | zero => exact ⟨rfl, h, by simp [Log.take]⟩
  | succ len ih =>
    cases w with
    | nil =>
      have hzero : s.logSize = 0 := h.size
      rw [Log.take, if_pos hzero]
      exact ⟨rfl, h, by simp⟩
    | cons c w =>
      have hsize : s.logSize = w.length + 1 := h.size
      have hwin : Ring.window logBufLen s.ring s.logStart (w.length + 1) = c :: w := h.window
      rw [Ring.window_succ, List.cons.injEq, Nat.mod_eq_of_lt hstart] at hwin
      have hnext : Holds
          { s with logStart := wrap (s.logStart + 1) % logBufLen, logSize := s.logSize - 1 } w := by
        refine ⟨?_, ?_, ?_, ?_⟩
        · show s.logSize - 1 = w.length
          rw [hsize]
          rfl
        · exact (Nat.le_succ _).trans h.len
        · show Ring.window logBufLen s.ring (wrap (s.logStart + 1) % logBufLen) w.length = w
          rw [wrap_mod, Ring.window_mod]
          exact hwin.2
        · exact (Nat.mod_lt _ (by decide)).trans (by decide)
      obtain ⟨h1, h2, h3⟩ := ih hnext (Nat.mod_lt _ (by decide))
      rw [Log.take, if_neg (by rw [hsize]; exact Nat.succ_ne_zero _)]
      refine ⟨?_, h2, fun i hi => ?_⟩
      · show s.ring s.logStart :: _ = c :: w.take len
        rw [hwin.1, h1]
      · rcases List.mem_cons.1 hi with rfl | hi
        · exact ⟨Int.natCast_nonneg _, Int.ofNat_lt.2 hstart⟩
        · exact h3 i hi

/-! ## Whole runs -/

variable {n : Nat}

theorem mem_walk_lt {p : Int} (hp : 0 ≤ p ∧ p < logBufLen) :
    ∀ i ∈ walk p n, 0 ≤ i ∧ i < (logBufLen : Int) := by
  induction n generalizing p with
  | zero => simp [walk]
  | succ n ih =>
    intro i hi
    rcases List.mem_cons.1 hi with rfl | hi
    · exact hp
    · refine ih ⟨Int.emod_nonneg _ (by decide), Int.emod_lt_of_pos _ (by decide)⟩ i hi

theorem mem_last_lt (s : Log) (len : Nat) : ∀ i ∈ s.last len, 0 ≤ i ∧ i < (logBufLen : Int) := by
  intro i hi
  obtain ⟨j, -, rfl⟩ := List.mem_map.1 hi
  exact ⟨Int.natCast_nonneg _, Int.ofNat_lt.2 (Nat.mod_lt _ (by decide))⟩

/-- `sys_syslog` that is not a read leaves the ring alone. -/
theorem syslog_of_not_reads {type : Int} {suser isNull signal : Bool} {len : Int} (s : Log)
    (h : (Call.syslog type suser isNull signal len).reads = none) :
    ((syslog type suser isNull signal len s).1.logBuf = s.logBuf ∧
      (syslog type suser isNull signal len s).1.logStart = s.logStart ∧
      (syslog type suser isNull signal len s).1.logSize = s.logSize) ∧
      ∀ i ∈ (syslog type suser isNull signal len s).2.used, 0 ≤ i ∧ i < (logBufLen : Int) := by
  have hreads : ¬ (type = 2 ∧ suser = true ∧ isNull = false ∧ 0 < len) := by
    intro hc
    rw [Call.reads, if_pos hc] at h
    cases h
  generalize hr : syslog type suser isNull signal len s = r
  unfold syslog at hr
  split at hr
  · subst hr
    simp
  rename_i hsuser
  split at hr
  · subst hr
    simp
  split at hr
  · rename_i htype
    split at hr
    · subst hr
      simp
    rename_i hnull
    split at hr
    · subst hr
      simp
    · rename_i hlen
      rw [not_or, Bool.not_eq_true, not_lt] at hnull
      have hsu : suser = true := by
        by_contra hsu
        rw [Bool.not_eq_true] at hsu
        exact hsuser ⟨by rw [htype]; decide, hsu⟩
      exact absurd ⟨htype, hsu, hnull.1, lt_of_le_of_ne hnull.2 (Ne.symm hlen)⟩ hreads
  split at hr
  · split at hr
    · subst hr
      simp
    split at hr
    · subst hr
      simp
    · subst hr
      refine ⟨?_, mem_last_lt s len.toNat⟩
      dsimp only
      split <;> exact ⟨rfl, rfl, rfl⟩
  split_ifs at hr <;> subst hr <;> simp

theorem syslog_of_reads {type : Int} {suser isNull signal : Bool} {len : Int} (s : Log)
    (h : (Call.syslog type suser isNull signal len).reads = some n) :
    syslog type suser isNull signal len s =
      if s.logSize = 0 then (s, ⟨if signal then some (-erestartsys) else none, [], []⟩)
      else ((s.take n).1, ⟨some (s.take n).2.1.length, (s.take n).2.1, (s.take n).2.2⟩) := by
  unfold Call.reads at h
  dsimp only at h
  split at h
  · rename_i hc
    obtain ⟨rfl, rfl, rfl, hlen⟩ := hc
    cases h
    unfold syslog
    simp [hlen.not_gt, hlen.ne']
  · cases h

/-- The characters that have not been read after a call that is no `printk`. -/
theorem Pending.step_syslog (unread : List UInt8) (type : Int) (suser isNull signal : Bool)
    (len : Int) :
    Pending.step unread (.syslog type suser isNull signal len) =
      match (Call.syslog type suser isNull signal len).reads with
      | some n => (recent unread).drop n
      | none => unread := rfl

/-- **A call that finds `log_start` in the ring does what it is for.** -/
theorem Rep.step {s : Log} {unread : List UInt8} (h : Rep s unread) (c : Call)
    (hlook : c.looks s → s.logStart < logBufLen) :
    CallOk unread c (step s c).2 ∧ Rep (step s c).1 (Pending.step unread c) := by
  cases c with
  | printk msg =>
    obtain ⟨h1, h2⟩ := h.putAll msg
    refine ⟨⟨h2, fun len hlen => by cases hlen⟩, ?_⟩
    show Rep (printk msg s).1 (unread ++ msg)
    unfold Printk.printk
    dsimp only
    split
    · exact ⟨h1.size, h1.len, h1.window, h1.start⟩
    · exact h1
  | syslog type suser isNull signal len =>
    show CallOk unread _ (syslog type suser isNull signal len s).2 ∧
      Rep (syslog type suser isNull signal len s).1 _
    rw [Pending.step_syslog]
    cases hreads : (Call.syslog type suser isNull signal len).reads with
    | none =>
      obtain ⟨⟨h1, h2, h3⟩, h4⟩ := syslog_of_not_reads s hreads
      refine ⟨⟨h4, fun n hn => ?_⟩, ⟨?_, h.len, ?_, ?_⟩⟩
      · rw [hreads] at hn
        cases hn
      · rw [h3]
        exact h.size
      · have hring : (syslog type suser isNull signal len s).1.ring = s.ring := by
          funext i
          rw [Log.ring, h1, Log.ring]
        rw [hring, h2]
        exact h.window
      · rw [h2]
        exact h.start
    | some n =>
      rw [syslog_of_reads s hreads]
      dsimp only
      split
      · rename_i hzero
        have hnil : recent unread = [] := List.length_eq_zero_iff.1 (h.size.symm.trans hzero)
        refine ⟨⟨by simp, fun m _ => ?_⟩, ?_⟩
        · rw [hnil]
          simp
        · have hrep : recent ((recent unread).drop n) = recent unread := by
            rw [hnil, List.drop_nil]
            rfl
          rw [Rep, hrep]
          exact h
      · rename_i hsize
        have hstart := hlook ⟨hsize, .inl (by rw [hreads]; simp)⟩
        obtain ⟨h1, h2, h3⟩ := h.take hstart n
        refine ⟨⟨h3, fun m hm => ?_⟩, ?_⟩
        · rw [hreads] at hm
          cases hm
          exact h1
        · rw [Rep, recent_of_le]
          · exact h2
          · exact h2.len
  | registerConsole =>
    refine ⟨⟨?_, fun len hlen => by cases hlen⟩, ⟨h.size, h.len, h.window, h.start⟩⟩
    show ∀ i ∈ walk (toInt s.logStart) s.logSize, _
    by_cases hsize : s.logSize = 0
    · rw [hsize]
      simp [walk]
    · have hstart := hlook ⟨hsize, .inr rfl⟩
      have hint : toInt s.logStart = s.logStart := if_pos (hstart.trans (by decide))
      refine mem_walk_lt ?_
      rw [hint]
      exact ⟨Int.natCast_nonneg _, Int.ofNat_lt.2 hstart⟩

/-- **A call that looks at the ring from an offset outside it does not.** -/
theorem not_callOk_of_looks {c : Call} (h : Rep s unread)
    (hlook : c.looks s) (hstart : ¬ s.logStart < logBufLen) : ¬ CallOk unread c (step s c).2 := by
  intro hok
  obtain ⟨hsize, hkind⟩ := hlook
  obtain ⟨n, hn⟩ := Nat.exists_eq_succ_of_ne_zero hsize
  cases c with
  | printk msg =>
    rcases hkind with hreads | hreg
    · exact hreads rfl
    · cases hreg
  | syslog type suser isNull signal len =>
    rcases hkind with hreads | hreg
    · obtain ⟨m, hm⟩ := Option.ne_none_iff_exists'.1 hreads
      have hpos : 0 < m := by
        unfold Call.reads at hm
        dsimp only at hm
        split at hm
        · rename_i hc
          cases hm
          omega
        · cases hm
      obtain ⟨m, rfl⟩ := Nat.exists_eq_succ_of_ne_zero hpos.ne'
      have hused : ∀ i ∈ (syslog type suser isNull signal len s).2.used,
        0 ≤ i ∧ i < (logBufLen : Int) := hok.1
      rw [syslog_of_reads s hm, if_neg hsize] at hused
      dsimp only at hused
      rw [Log.take, if_neg hsize] at hused
      exact hstart (Int.ofNat_lt.1 (hused _ List.mem_cons_self).2)
    · cases hreg
  | registerConsole =>
    have hused : ∀ i ∈ walk (toInt s.logStart) s.logSize, 0 ≤ i ∧ i < (logBufLen : Int) := hok.1
    rw [hn, walk] at hused
    obtain ⟨h1, h2⟩ := hused _ List.mem_cons_self
    have hrange := h.start
    unfold toInt at h1 h2
    split at h1
    · rename_i hsmall
      rw [if_pos hsmall] at h2
      exact hstart (Int.ofNat_lt.1 h2)
    · omega

theorem runOk_iff (h : Rep s unread) (cs : List Call) :
    RunOk s unread cs ↔ StartInRing s cs := by
  induction cs generalizing s unread with
  | nil => exact Iff.rfl
  | cons c cs ih =>
    by_cases hlook : c.looks s → s.logStart < logBufLen
    · obtain ⟨hok, hrep⟩ := h.step c hlook
      exact ⟨fun hr => ⟨hlook, (ih hrep).1 hr.2⟩, fun hr => ⟨hok, (ih hrep).2 hr.2⟩⟩
    · refine ⟨fun hr => ?_, fun hr => absurd hr.1 hlook⟩
      rw [Classical.not_imp] at hlook
      exact absurd hr.1 (not_callOk_of_looks h hlook.1 hlook.2)

theorem Rep.init (logBuf : Int → UInt8) : Rep (Log.init logBuf) [] :=
  ⟨rfl, Nat.zero_le _, rfl, Nat.two_pow_pos 32⟩

/-- **The log does what it is for exactly when every call that looks at the ring from `log_start`
on finds it there.** -/
theorem log_ok_iff (logBuf : Int → UInt8) (cs : List Call) :
    RunOk (Log.init logBuf) [] cs ↔ StartInRing (Log.init logBuf) cs :=
  runOk_iff (Rep.init logBuf) cs

/-- The log after the calls. -/
def after (s : Log) (cs : List Call) : Log := cs.foldl (fun s c => (step s c).1) s

theorem StartInRing.last {cs : List Call} {c : Call} (h : StartInRing s (cs ++ [c]))
    (hlook : c.looks (after s cs)) : (after s cs).logStart < logBufLen := by
  induction cs generalizing s with
  | nil => exact h.1 hlook
  | cons c' cs ih => exact ih h.2 hlook

/-- What `n` more characters do to `log_start` and `log_size`. -/
def Moved (s s' : Log) (n : Nat) : Prop :=
  s'.logSize = min (s.logSize + n) logBufLen ∧
    s'.logStart = wrap (s.logStart + (s.logSize + n - logBufLen))

theorem Moved.trans {s' s'' : Log} {m : Nat} (h : Moved s s' m) (h' : Moved s' s'' n) :
    Moved s s'' (m + n) := by
  obtain ⟨h1, h2⟩ := h
  obtain ⟨h3, h4⟩ := h'
  rw [h1] at h3
  rw [h1, h2] at h4
  have hsum : s.logStart + (s.logSize + m - logBufLen) +
      (min (s.logSize + m) logBufLen + n - logBufLen) =
      s.logStart + (s.logSize + (m + n) - logBufLen) := by
    omega
  refine ⟨by omega, ?_⟩
  rw [h4, wrap, wrap, wrap, Nat.mod_add_mod, hsum]

theorem put_moved (hsize : s.logSize ≤ logBufLen) (hstart : s.logStart < 2 ^ 32)
    (c : UInt8) : Moved s (s.put c) 1 := by
  unfold Log.put
  dsimp only
  split
  · rename_i hlt
    refine ⟨(Nat.min_eq_left hlt).symm, ?_⟩
    rw [Nat.sub_eq_zero_of_le hlt]
    exact (Nat.mod_eq_of_lt hstart).symm
  · rename_i hlt
    have hfull : s.logSize = logBufLen := le_antisymm hsize (not_lt.1 hlt)
    refine ⟨?_, ?_⟩
    · rw [hfull, Nat.min_eq_right (Nat.le_succ _)]
    · rw [hfull, Nat.add_sub_cancel_left]

theorem Moved.bounds {s' : Log} (h : Moved s s' n) :
    s'.logSize ≤ logBufLen ∧ s'.logStart < 2 ^ 32 := by
  refine ⟨?_, ?_⟩
  · rw [h.1]
    exact Nat.min_le_right _ _
  · rw [h.2]
    exact Nat.mod_lt _ (Nat.two_pow_pos 32)

theorem putAll_moved (hsize : s.logSize ≤ logBufLen) (hstart : s.logStart < 2 ^ 32)
    (msg : List UInt8) : Moved s (s.putAll msg).1 msg.length := by
  induction msg generalizing s with
  | nil =>
    refine ⟨(Nat.min_eq_left hsize).symm, ?_⟩
    rw [List.length_nil, Nat.add_zero, Nat.sub_eq_zero_of_le hsize]
    exact (Nat.mod_eq_of_lt hstart).symm
  | cons c msg ih =>
    have hput := put_moved hsize hstart c
    rw [List.length_cons, Nat.add_comm]
    exact hput.trans (ih hput.bounds.1 hput.bounds.2)

theorem after_printk_moved (hsize : s.logSize ≤ logBufLen) (hstart : s.logStart < 2 ^ 32)
    (msg : List UInt8) (n : Nat) :
    Moved s (after s (List.replicate n (.printk msg))) (n * msg.length) := by
  induction n generalizing s with
  | zero =>
    rw [Nat.zero_mul]
    exact putAll_moved hsize hstart []
  | succ n ih =>
    have hone : Moved s (step s (.printk msg)).1 msg.length := by
      have hall := putAll_moved hsize hstart msg
      show Moved s (printk msg s).1 msg.length
      unfold Printk.printk
      dsimp only
      split
      · exact hall
      · exact hall
    rw [Nat.succ_mul, Nat.add_comm (n * msg.length)]
    exact hone.trans (ih hone.bounds.1 hone.bounds.2)

/-- Nine messages of 1000 characters. -/
def nineMessages : List Call := List.replicate 9 (.printk (List.replicate 1000 65))

/-- **Messages that fill the ring twice push `log_start` out of it.** -/
theorem log_read_outside :
    ¬ RunOk (Log.init fun _ => 0) [] (nineMessages ++ [Call.syslog 2 true false false 1]) := by
  obtain ⟨hsize, hstart⟩ := after_printk_moved (s := Log.init fun _ => 0) (Nat.zero_le _)
    (Nat.two_pow_pos 32) (List.replicate 1000 65) 9
  rw [List.length_replicate] at hsize hstart
  rw [runOk_iff (Rep.init _)]
  intro h
  have hlt := h.last ⟨?_, .inl (by decide)⟩
  · rw [nineMessages, hstart] at hlt
    exact absurd hlt (by decide)
  · rw [nineMessages, hsize]
    decide

end LinuxEvocation.Printk
