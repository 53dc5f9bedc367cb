import LinuxEvocation.Errno
import LinuxEvocation.Lib.Masks

/-!
# The number and the place of a new process

`find_empty_process` counts `last_pid` up until no task and no group has the number, and looks for a
free entry of `task[]`.

* `Task`, `Cred`, `Table` — the data.
* `nextPid`, `scan`, `search` — the numbers are tried one after the other.
* `slotLoop`, `pickSlot` — the place; one place is left for the superuser.
* `find_empty_process_fresh` — what the search gives.
-/

namespace LinuxEvocation.Fork

/-! ## The code -/

/-- `NR_TASKS`. -/
def nrTasks : Nat := 64

/-- `MAX_TASKS_PER_USER`. -/
def maxTasksPerUser : Nat := nrTasks / 2

/-- A task, as far as the search reads it. -/
structure Task where
  pid : BitVec 32
  pgrp : BitVec 32
  uid : Nat
  deriving DecidableEq

/-- `current->uid` and `current->euid`. -/
structure Cred where
  uid : Nat
  euid : Nat
  deriving DecidableEq

/-- `suser()`. -/
def Cred.suser (c : Cred) : Bool := decide (c.euid = 0)

/-- `task[]`. -/
abbrev Table := Fin nrTasks → Option Task

/-- `++last_pid`, and 1 after the last number. -/
def nextPid (lastPid : BitVec 32) : BitVec 32 :=
  if (lastPid + 1) &&& 0xffff8000 ≠ 0 then 1 else lastPid + 1

/-- The first loop, for the number `p`: how many tasks the user has, unless the number is taken. -/
def scan (task : Table) (uid : Nat) (p : BitVec 32) : List (Fin nrTasks) → Nat → Option Nat
  | [], n => some n
  | i :: l, n =>
    match task i with
    | none => scan task uid p l n
    | some t =>
      let n := if t.uid = uid then n + 1 else n
      if t.pid = p ∨ t.pgrp = p then none else scan task uid p l n

/-- From the label `repeat` on: the number, and how many tasks the user has. -/
def search (task : Table) (uid : Nat) : Nat → BitVec 32 → Option (BitVec 32 × Nat)
  | 0, _ => none
  | fuel + 1, lastPid =>
    match scan task uid (nextPid lastPid) (List.finRange nrTasks) 0 with
    | some n => some (nextPid lastPid, n)
    | none => search task uid fuel (nextPid lastPid)

/-- The second loop.  It returns at the second free entry (`inl`), or comes to its end. -/
def slotLoop (task : Table) : List (Fin nrTasks) → Nat → Nat ⊕ Nat
  | [], taskNr => .inr taskNr
  | i :: l, taskNr =>
    if (task i).isSome then slotLoop task l taskNr
    else if taskNr ≠ 0 then .inl taskNr
    else slotLoop task l i

/-- Only the superuser can fill the last entry. -/
def pickSlot (task : Table) (cur : Cred) : Int :=
  match slotLoop task (List.finRange nrTasks).tail 0 with
  | .inl taskNr => taskNr
  | .inr taskNr => if taskNr ≠ 0 ∧ cur.suser then taskNr else -Errno.eagain

/-- `find_empty_process`: `last_pid`, and the value returned. -/
def findEmptyProcess (fuel : Nat) (task : Table) (cur : Cred) (lastPid : BitVec 32) :
    Option (BitVec 32 × Int) :=
  (search task cur.uid fuel lastPid).map fun (p, thisUserTasks) =>
    (p, if thisUserTasks > maxTasksPerUser ∧ cur.uid ≠ 0 then -Errno.eagain else pickSlot task cur)

/-! ## What is looked for -/

/-- A task or a group has the number. -/
def Taken (task : Table) (p : BitVec 32) : Prop := ∃ i t, task i = some t ∧ (t.pid = p ∨ t.pgrp = p)

/-- How many tasks a user has. -/
def userTasks (task : Table) (uid : Nat) : Nat :=
  (List.finRange nrTasks).countP fun i => (task i).any fun t => decide (t.uid = uid)

/-- The entries that are free, but for the first of all. -/
def freeSlots (task : Table) : List (Fin nrTasks) :=
  (List.finRange nrTasks).tail.filter fun i => (task i).isNone

/-- The user has too many tasks, or there is no entry for the user. -/
def Refused (task : Table) (cur : Cred) : Prop :=
  maxTasksPerUser < userTasks task cur.uid ∧ cur.uid ≠ 0 ∨
    (freeSlots task).length = 0 ∨ (freeSlots task).length = 1 ∧ cur.euid ≠ 0

/-! ## The numbers -/

variable {p : BitVec 32}

theorem toNat_nextPid (h : p.toNat ≤ 32767) :
    (nextPid p).toNat = p.toNat % 32767 + 1 := by
  have hone : (1 : BitVec 32).toNat = 1 := rfl
  have hmask : (0xffff8000 : BitVec 32) = ~~~ BitVec.ofNat 32 (2 ^ 15 - 1) := by decide
  have hsucc : (p + 1).toNat = p.toNat + 1 := by
    rw [BitVec.toNat_add, hone, Nat.mod_eq_of_lt (by omega)]
  have hzero : ((p + 1) &&& 0xffff8000 ≠ 0) ↔ p.toNat = 32767 := by
    rw [Ne, ← BitVec.toNat_inj, hmask, Masks.toNat_and_not_mask, hsucc]
    have h0 : (0 : BitVec 32).toNat = 0 := rfl
    omega
  rw [nextPid]
  split
  case isTrue hlast =>
    rw [hone, hzero.mp hlast]
  case isFalse hnot =>
    rw [hzero] at hnot
    rw [hsucc]
    omega

theorem toNat_iterate_nextPid (h : p.toNat ≤ 32767) (k : Nat) :
    (nextPid^[k + 1] p).toNat = (p.toNat + k) % 32767 + 1 := by
  induction k with
  | zero => exact toNat_nextPid h
  | succ k ih =>
    rw [Function.iterate_succ_apply', toNat_nextPid (by omega), ih]
    omega

theorem iterate_nextPid_inj (h : p.toNat ≤ 32767) {j k : Nat} (hj : j < 32767)
    (hk : k < 32767) (heq : nextPid^[j + 1] p = nextPid^[k + 1] p) : j = k := by
  have hnat := congrArg BitVec.toNat heq
  rw [toNat_iterate_nextPid h, toNat_iterate_nextPid h] at hnat
  omega

/-! ## The search -/

/-- Some task among these has the number. -/
def TakenBy (task : Table) (p : BitVec 32) (l : List (Fin nrTasks)) : Prop :=
  ∃ i ∈ l, ∃ t, task i = some t ∧ (t.pid = p ∨ t.pgrp = p)

variable {task : Table} {n : Nat} {l : List (Fin nrTasks)}

theorem scan_eq_none {uid : Nat} (h : scan task uid p l n = none) : TakenBy task p l := by
  induction l generalizing n with
  | nil => cases h
  | cons i l ih =>
    rw [scan] at h
    split at h
    case _ =>
      obtain ⟨j, hj, hrest⟩ := ih h
      exact ⟨j, List.mem_cons_of_mem _ hj, hrest⟩
    case _ t ht =>
      simp only at h
      by_cases hp : t.pid = p ∨ t.pgrp = p
      · exact ⟨i, List.mem_cons_self .., t, ht, hp⟩
      · rw [if_neg hp] at h
        obtain ⟨j, hj, hrest⟩ := ih h
        exact ⟨j, List.mem_cons_of_mem _ hj, hrest⟩

theorem scan_eq_some {uid m : Nat} (h : scan task uid p l n = some m) :
    ¬ TakenBy task p l ∧
      m = n + l.countP fun i => (task i).any fun t => decide (t.uid = uid) := by
  induction l generalizing n with
  | nil =>
    obtain rfl := Option.some.inj h
    exact ⟨fun ⟨_, hi, _⟩ => absurd hi List.not_mem_nil, rfl⟩
  | cons i l ih =>
    rw [scan] at h
    split at h
    case _ hnone =>
      obtain ⟨hfree, rfl⟩ := ih h
      refine ⟨?_, by simp [hnone]⟩
      rintro ⟨j, hj, t, ht, hp⟩
      rcases List.mem_cons.mp hj with rfl | hj
      · simp [hnone] at ht
      · exact hfree ⟨j, hj, t, ht, hp⟩
    case _ t ht =>
      simp only at h
      by_cases hp : t.pid = p ∨ t.pgrp = p
      · rw [if_pos hp] at h
        cases h
      · rw [if_neg hp] at h
        obtain ⟨hfree, rfl⟩ := ih h
        refine ⟨?_, ?_⟩
        · rintro ⟨j, hj, t', ht', hp'⟩
          rcases List.mem_cons.mp hj with rfl | hj
          · rw [ht] at ht'
            obtain rfl := Option.some.inj ht'
            exact hp hp'
          · exact hfree ⟨j, hj, t', ht', hp'⟩
        · rw [List.countP_cons, ht]
          by_cases hu : t.uid = uid
          · simp [hu]
            omega
          · simp [hu]

theorem takenBy_finRange :
    TakenBy task p (List.finRange nrTasks) ↔ Taken task p := by
  simp [TakenBy, Taken]

/-- The search stops at the first number that is not taken. -/
theorem search_eq {uid k : Nat}
    (hfree : ¬ Taken task (nextPid^[k + 1] p)) (htaken : ∀ j < k, Taken task (nextPid^[j + 1] p))
    {fuel : Nat} (hfuel : k < fuel) :
    search task uid fuel p = some (nextPid^[k + 1] p, userTasks task uid) := by
  induction fuel generalizing p k with
  | zero => exact absurd hfuel (Nat.not_lt_zero _)
  | succ fuel ih =>
    rw [search]
    cases hscan : scan task uid (nextPid p) (List.finRange nrTasks) 0 with
    | some n =>
      obtain ⟨hnot, rfl⟩ := scan_eq_some hscan
      rw [takenBy_finRange] at hnot
      cases k with
      | zero => simp [userTasks]
      | succ k => exact absurd (htaken 0 (Nat.zero_lt_succ _)) hnot
    | none =>
      have hin := takenBy_finRange.mp (scan_eq_none hscan)
      cases k with
      | zero => exact absurd hin hfree
      | succ k =>
        exact ih hfree (fun j hj => htaken (j + 1) (Nat.succ_lt_succ hj)) (Nat.lt_of_succ_lt_succ hfuel)

/-- The tasks do not have more numbers than this. -/
theorem card_taken (task : Table) :
    ∃ s : Finset (BitVec 32), s.card ≤ 2 * nrTasks ∧ ∀ p, Taken task p → p ∈ s := by
  classical
  refine ⟨(Finset.univ.image fun i => ((task i).map Task.pid).getD 0) ∪
    Finset.univ.image fun i => ((task i).map Task.pgrp).getD 0, ?_, ?_⟩
  · have hpid := Finset.card_image_le (s := Finset.univ)
      (f := fun i => ((task i).map Task.pid).getD 0)
    have hpgrp := Finset.card_image_le (s := Finset.univ)
      (f := fun i => ((task i).map Task.pgrp).getD 0)
    rw [Finset.card_univ, Fintype.card_fin] at hpid hpgrp
    exact (Finset.card_union_le _ _).trans (by omega)
  · rintro p ⟨i, t, ht, rfl | rfl⟩
    · exact Finset.mem_union_left _ (Finset.mem_image.mpr ⟨i, Finset.mem_univ _, by simp [ht]⟩)
    · exact Finset.mem_union_right _ (Finset.mem_image.mpr ⟨i, Finset.mem_univ _, by simp [ht]⟩)

/-- Among more numbers than the tasks have there is one that is not taken. -/
theorem exists_free (task : Table) (h : p.toNat ≤ 32767) :
    ∃ k ≤ 2 * nrTasks, ¬ Taken task (nextPid^[k + 1] p) := by
  classical
  obtain ⟨s, hcard, hs⟩ := card_taken task
  by_contra hall
  push Not at hall
  have hinj : Set.InjOn (fun k => nextPid^[k + 1] p) (Finset.range (2 * nrTasks + 1)) := by
    intro j hj k hk heq
    rw [Finset.coe_range, Set.mem_Iio] at hj hk
    have hsmall : 2 * nrTasks + 1 < 32767 := by decide
    exact iterate_nextPid_inj h (by omega) (by omega) heq
  have hsub : (Finset.range (2 * nrTasks + 1)).image (fun k => nextPid^[k + 1] p) ⊆ s := by
    intro q hq
    obtain ⟨k, hk, rfl⟩ := Finset.mem_image.mp hq
    exact hs _ (hall k (Nat.le_of_lt_succ (Finset.mem_range.mp hk)))
  have hle := Finset.card_le_card hsub
  rw [Finset.card_image_of_injOn hinj, Finset.card_range] at hle
  omega

/-- The search stops, with a number that is not taken. -/
theorem search_stops (task : Table) (uid : Nat) (h : p.toNat ≤ 32767) :
    ∃ q, 1 ≤ q.toNat ∧ q.toNat ≤ 32767 ∧ ¬ Taken task q ∧
      ∀ fuel, 2 * nrTasks < fuel → search task uid fuel p = some (q, userTasks task uid) := by
  classical
  obtain ⟨k₀, hk₀, hfree₀⟩ := exists_free task h
  have hex : ∃ k, ¬ Taken task (nextPid^[k + 1] p) := ⟨k₀, hfree₀⟩
  refine ⟨nextPid^[Nat.find hex + 1] p, ?_, ?_, Nat.find_spec hex, ?_⟩
  · rw [toNat_iterate_nextPid h]
    omega
  · rw [toNat_iterate_nextPid h]
    omega
  · intro fuel hfuel
    have hle : Nat.find hex ≤ k₀ := Nat.find_min' hex hfree₀
    exact search_eq (Nat.find_spec hex) (fun j hj => not_not.mp (Nat.find_min hex hj)) (by omega)

/-! ## The place -/

theorem slotLoop_of_ne_zero (hn : n ≠ 0) :
    slotLoop task l n =
      if (l.filter fun i => (task i).isNone).length = 0 then .inr n else .inl n := by
  induction l with
  | nil => rfl
  | cons i l ih =>
    rw [slotLoop]
    cases hi : task i with
    | none => simp [hi, hn]
    | some t => simp [hi, ih]

/-- The loop finds the first free entry, and knows whether there is another one. -/
theorem slotLoop_zero {task : Table} {l : List (Fin nrTasks)} (hl : ∀ i ∈ l, i.val ≠ 0) :
    slotLoop task l 0 =
      match l.filter fun i => (task i).isNone with
      | [] => .inr 0
      | [i] => .inr i.val
      | i :: _ :: _ => .inl i.val := by
  induction l with
  | nil => rfl
  | cons i l ih =>
    have hi0 := hl i (List.mem_cons_self ..)
    rw [slotLoop]
    cases hi : task i with
    | some t =>
      have hfilter : ((i :: l).filter fun i => (task i).isNone) =
          l.filter fun i => (task i).isNone := by simp [hi]
      rw [hfilter, ← ih fun j hj => hl j (List.mem_cons_of_mem _ hj)]
      rfl
    | none =>
      have hfilter : ((i :: l).filter fun i => (task i).isNone) =
          i :: l.filter fun i => (task i).isNone := by simp [hi]
      rw [hfilter]
      simp only [Option.isSome_none, Bool.false_eq_true, if_false, ne_eq, not_true_eq_false]
      rw [slotLoop_of_ne_zero hi0]
      cases l.filter fun i => (task i).isNone <;> simp

theorem mem_tail_finRange (i : Fin (n + 1)) :
    i ∈ (List.finRange (n + 1)).tail ↔ 1 ≤ i.val := by
  rw [List.finRange_succ, List.tail_cons, List.mem_map]
  constructor
  · rintro ⟨k, -, rfl⟩
    exact Nat.succ_le_succ (Nat.zero_le _)
  · intro hi
    have hne : i ≠ 0 := by
      rintro rfl
      exact absurd hi (by simp)
    exact ⟨i.pred hne, List.mem_finRange _, Fin.succ_pred _ _⟩

theorem mem_freeSlots {task : Table} {i : Fin nrTasks} :
    i ∈ freeSlots task ↔ 1 ≤ i.val ∧ task i = none := by
  rw [freeSlots, List.mem_filter, Option.isNone_iff_eq_none]
  exact and_congr_left fun _ => mem_tail_finRange (n := 63) i

/-- An entry that is free, but for the first, unless there is none for the user. -/
theorem pickSlot_spec (task : Table) (cur : Cred) :
    (∃ i : Fin nrTasks, pickSlot task cur = i.val ∧ 1 ≤ i.val ∧ task i = none ∧
        ¬ ((freeSlots task).length = 0 ∨ (freeSlots task).length = 1 ∧ cur.euid ≠ 0)) ∨
      pickSlot task cur = -Errno.eagain ∧
        ((freeSlots task).length = 0 ∨ (freeSlots task).length = 1 ∧ cur.euid ≠ 0) := by
  have hne (i : Fin nrTasks) (hi : i ∈ (List.finRange nrTasks).tail) : i.val ≠ 0 :=
    Nat.one_le_iff_ne_zero.mp ((mem_tail_finRange (n := 63) i).mp hi)
  have hloop := @slotLoop_zero task _ hne
  have hmem := @mem_freeSlots task
  rw [pickSlot, hloop]
  rw [freeSlots] at hmem ⊢
  generalize (List.finRange nrTasks).tail.filter (fun i => (task i).isNone) = l at hmem
  match l with
  | [] => exact .inr ⟨by simp, .inl rfl⟩
  | [i] =>
    obtain ⟨hi, hfree⟩ := hmem.mp (List.mem_cons_self ..)
    have hi0 : i.val ≠ 0 := by omega
    by_cases hsu : cur.euid = 0
    · exact .inl ⟨i, by simp [Cred.suser, hsu, hi0], hi, hfree, by simp [hsu]⟩
    · exact .inr ⟨by simp [Cred.suser, hsu], .inr ⟨rfl, hsu⟩⟩
  | i :: k :: l =>
    obtain ⟨hi, hfree⟩ := hmem.mp (List.mem_cons_self ..)
    exact .inl ⟨i, rfl, hi, hfree, by simp⟩

/-! ## The search as a whole -/

/-- **A fresh number and a free place.**  For every table of tasks the search stops; it leaves in
`last_pid` a number that no task and no group has, and returns a free entry behind the first, or
`-EAGAIN` exactly if the user has too many tasks or there is no entry for the user. -/
theorem find_empty_process_fresh (task : Table) (cur : Cred) (lastPid : BitVec 32)
    (h : lastPid.toNat ≤ 32767) :
    ∃ pid value, (∀ fuel, 2 * nrTasks < fuel →
        findEmptyProcess fuel task cur lastPid = some (pid, value)) ∧
      1 ≤ pid.toNat ∧ pid.toNat ≤ 32767 ∧
      (∀ i t, task i = some t → t.pid ≠ pid ∧ t.pgrp ≠ pid) ∧
      ((∃ i : Fin nrTasks, value = i.val ∧ 1 ≤ i.val ∧ task i = none ∧ ¬ Refused task cur) ∨
        value = -Errno.eagain ∧ Refused task cur) := by
  obtain ⟨pid, hlo, hhi, hfree, hsearch⟩ := search_stops task cur.uid h
  refine ⟨pid, if maxTasksPerUser < userTasks task cur.uid ∧ cur.uid ≠ 0 then -Errno.eagain
    else pickSlot task cur, ?_, hlo, hhi, ?_, ?_⟩
  · intro fuel hfuel
    rw [findEmptyProcess, hsearch fuel hfuel]
    rfl
  · intro i t ht
    exact ⟨fun hp => hfree ⟨i, t, ht, .inl hp⟩, fun hp => hfree ⟨i, t, ht, .inr hp⟩⟩
  · by_cases hmany : maxTasksPerUser < userTasks task cur.uid ∧ cur.uid ≠ 0
    · rw [if_pos hmany]
      exact .inr ⟨rfl, .inl hmany⟩
    · rw [if_neg hmany]
      rcases pickSlot_spec task cur with ⟨i, hval, hi, hnone, hnot⟩ | ⟨hval, hnot⟩
      · refine .inl ⟨i, hval, hi, hnone, ?_⟩
        rintro (hr | hr)
        · exact hmany hr
        · exact hnot hr
      · exact .inr ⟨hval, .inr hnot⟩

/-- After the number 32767 the search begins again, and passes the numbers of the first tasks. -/
theorem find_empty_process_fresh_wraps :
    ∃ pid value, findEmptyProcess 129
      (fun i => if i.val < 3 then some ⟨BitVec.ofNat 32 i.val, 2, 0⟩ else none) ⟨0, 0⟩ 32767 =
        some (pid, value) ∧ 1 ≤ pid.toNat ∧ pid.toNat ≤ 32767 := by
  obtain ⟨pid, value, hfuel, hlo, hhi, -⟩ := find_empty_process_fresh
    (fun i => if i.val < 3 then some ⟨BitVec.ofNat 32 i.val, 2, 0⟩ else none) ⟨0, 0⟩
    32767 (by decide)
  exact ⟨pid, value, hfuel 129 (by decide), hlo, hhi⟩

end LinuxEvocation.Fork
