import LinuxEvocation.Fs.Locks.Basic
import Mathlib.Tactic

/-!
# `lock_it` on an arbitrary list

What can be said of `lock_it` without assuming anything about the order of the
records.

* `Move`, `Halt`, `lockItLoop_rule` — every way the loop can treat one record, and
  the induction rule that follows: a property kept by each `Move` and each `Halt`
  holds when the loop is left.
-/

namespace LinuxEvocation.Locks

variable {Task : Type}

/-! ## One iteration -/

@[simp] theorem Scan.mark_caller (c : Scan Task) : c.mark.caller = c.caller := by
  unfold Scan.mark; split <;> rfl

@[simp] theorem Scan.mark_passed (c : Scan Task) : c.mark.passed = c.passed := by
  unfold Scan.mark; split <;> rfl

@[simp] theorem Scan.mark_callerAt (c : Scan Task) : c.mark.callerAt = c.callerAt := by
  unfold Scan.mark; split <;> rfl

@[simp] theorem Scan.mark_free (c : Scan Task) : c.mark.free = c.free := by
  unfold Scan.mark; split <;> rfl

@[simp] theorem Scan.mark_woken (c : Scan Task) : c.mark.woken = c.woken := by
  unfold Scan.mark; split <;> rfl

@[simp] theorem Scan.mark_left (c : Scan Task) : c.mark.left = c.left := by
  unfold Scan.mark; split <;> rfl

@[simp] theorem Scan.mark_right (c : Scan Task) : c.mark.right = c.right := by
  unfold Scan.mark; split <;> rfl

@[simp] theorem Scan.mark_panicked (c : Scan Task) : c.mark.panicked = c.panicked := by
  unfold Scan.mark; split <;> rfl

theorem Scan.mark_added (c : Scan Task) :
    c.mark.added = (c.added || decide (c.caller.flType = .unlck)) := by
  unfold Scan.mark; split <;> simp_all

/-- The record overlaps the caller's range. -/
def Meets (c : Scan Task) (n : Entry Task) : Prop :=
  c.caller.flStart ≤ n.fl.flEnd ∧ n.fl.flStart ≤ c.caller.flEnd

/-- The iterations that go on with the next record: `Move c n c'` when treating the
record `n` takes the variables from `c` to `c'`. -/
inductive Move (c : Scan Task) (n : Entry Task) : Scan Task → Prop
  | skipSame : c.caller.flType = n.fl.flType → n.fl.flEnd < offT (c.caller.flStart - 1) →
      Move c n (c.next n)
  | mergeFree : c.caller.flType = n.fl.flType → offT (c.caller.flStart - 1) ≤ n.fl.flEnd →
      n.fl.flStart ≤ offT (c.caller.flEnd + 1) → c.added = true →
      Move c n ((c.mergeCaller n).freeLock (c.mergeEntry n))
  | mergeAdopt : c.caller.flType = n.fl.flType → offT (c.caller.flStart - 1) ≤ n.fl.flEnd →
      n.fl.flStart ≤ offT (c.caller.flEnd + 1) → c.added = false →
      Move c n ((c.mergeCaller n).adopt (c.mergeEntry n))
  | skipLow : c.caller.flType ≠ n.fl.flType → n.fl.flEnd < c.caller.flStart →
      Move c n (c.next n)
  | coverFree : c.caller.flType ≠ n.fl.flType → Meets c n → c.caller.flStart ≤ n.fl.flStart →
      n.fl.flEnd ≤ c.caller.flEnd → c.mark.added = true → Move c n (c.mark.freeLock n)
  | coverReplace : c.caller.flType ≠ n.fl.flType → Meets c n →
      c.caller.flStart ≤ n.fl.flStart → n.fl.flEnd ≤ c.caller.flEnd → c.mark.added = false →
      Move c n ((c.wakeUp n).adopt (c.replaced n))
  | clipLeft : c.caller.flType ≠ n.fl.flType → Meets c n → n.fl.flStart < c.caller.flStart →
      n.fl.flEnd ≤ c.caller.flEnd → Move c n ({ c.mark with left := some n.addr }.next n)

/-- The ways out of the loop at a record of the owner; `right` is set when the record
reaches beyond the caller's range. -/
inductive Halt (c : Scan Task) (n : Entry Task) : Scan Task → Prop
  | beyondSame : c.caller.flType = n.fl.flType → offT (c.caller.flStart - 1) ≤ n.fl.flEnd →
      offT (c.caller.flEnd + 1) < n.fl.flStart → Halt c n c
  | beyond : c.caller.flType ≠ n.fl.flType → c.caller.flStart ≤ n.fl.flEnd →
      c.caller.flEnd < n.fl.flStart → Halt c n c
  | clipRight : c.caller.flType ≠ n.fl.flType → Meets c n → c.caller.flEnd < n.fl.flEnd →
      c.caller.flStart ≤ n.fl.flStart → Halt c n { c.mark with right := some n }
  | clipBoth : c.caller.flType ≠ n.fl.flType → Meets c n → c.caller.flEnd < n.fl.flEnd →
      n.fl.flStart < c.caller.flStart →
      Halt c n { c.mark with left := some n.addr, right := some n }

variable {c : Scan Task} {n : Entry Task}

theorem Scan.noteLeft_of_lt
    (h : n.fl.flStart < c.caller.flStart) : c.mark.noteLeft n = { c.mark with left := some n.addr } := by
  rw [Scan.noteLeft, if_pos (by simpa using h)]

theorem Scan.noteLeft_of_le (h : c.caller.flStart ≤ n.fl.flStart) : c.mark.noteLeft n = c.mark := by
  rw [Scan.noteLeft, if_neg (by simpa using h)]

/-- Every iteration is a `Move` or a `Halt`. -/
theorem lockItBody_cases (c : Scan Task) (n : Entry Task) :
    (∃ c', lockItBody c n = .go c' ∧ Move c n c') ∨
      ∃ c', lockItBody c n = .halt c' ∧ Halt c n c' := by
  unfold lockItBody
  split_ifs with ht h1 h2 ha h1 h2 hr hl ha
  · exact .inl ⟨_, rfl, .skipSame ht h1⟩
  · exact .inr ⟨_, rfl, .beyondSame ht (not_lt.1 h1) h2⟩
  · exact .inl ⟨_, rfl, .mergeFree ht (not_lt.1 h1) (not_lt.1 h2) ha⟩
  · exact .inl ⟨_, rfl, .mergeAdopt ht (not_lt.1 h1) (not_lt.1 h2) (by simpa using ha)⟩
  · exact .inl ⟨_, rfl, .skipLow ht h1⟩
  · exact .inr ⟨_, rfl, .beyond ht (not_lt.1 h1) h2⟩
  · refine .inr ⟨_, rfl, ?_⟩
    have hm : Meets c n := ⟨not_lt.1 h1, not_lt.1 h2⟩
    by_cases hl : n.fl.flStart < c.caller.flStart
    · rw [Scan.noteLeft_of_lt hl]
      exact .clipBoth ht hm hr hl
    · rw [Scan.noteLeft_of_le (not_lt.1 hl)]
      exact .clipRight ht hm hr (not_lt.1 hl)
  · exact .inl ⟨_, rfl, .coverFree ht ⟨not_lt.1 h1, not_lt.1 h2⟩ hl (not_lt.1 hr) ha⟩
  · exact .inl ⟨_, rfl, .coverReplace ht ⟨not_lt.1 h1, not_lt.1 h2⟩ hl (not_lt.1 hr)
      (by simpa using ha)⟩
  · rw [Scan.noteLeft_of_lt (not_le.1 hl)]
    exact .inl ⟨_, rfl, .clipLeft ht ⟨not_lt.1 h1, not_lt.1 h2⟩ (not_le.1 hl) (not_lt.1 hr)⟩

section

variable [DecidableEq Task]

/-- **The induction rule of the loop.**  A property `P` kept by every `Move` holds at each
iteration; what it gives at each way out holds when the loop is left. -/
theorem lockItLoop_rule {P Q : Scan Task → List (Entry Task) → Prop}
    (hmove : ∀ c n rest c', P c (n :: rest) → c.caller.flOwner = n.fl.flOwner →
      Move c n c' → P c' rest)
    (hhalt : ∀ c n rest c', P c (n :: rest) → c.caller.flOwner = n.fl.flOwner →
      Halt c n c' → Q c' (n :: rest))
    (hend : ∀ c rest, P c rest → (∀ n ∈ rest.head?, c.caller.flOwner ≠ n.fl.flOwner) → Q c rest)
    (rest : List (Entry Task)) (c : Scan Task) (h : P c rest) :
    Q (lockItLoop c rest).1 (lockItLoop c rest).2 := by
  induction rest generalizing c with
  | nil => exact hend c [] h (by simp)
  | cons n rest ih =>
    simp only [lockItLoop]
    by_cases ho : c.caller.flOwner = n.fl.flOwner
    · rw [if_neg (not_not.2 ho)]
      rcases lockItBody_cases c n with ⟨c', hb, hm⟩ | ⟨c', hb, hh⟩
      · rw [hb]
        exact ih c' (hmove c n rest c' h ho hm)
      · rw [hb]
        exact hhalt c n rest c' h ho hh
    · rw [if_pos ho]
      exact hend c (n :: rest) h (by simpa using ho)

end

/-! ## Addresses -/

/-- The table indices of the records of a list. -/
def addrs (l : List (Entry Task)) : List Slot := l.map Entry.addr

@[simp] theorem addrs_nil : addrs ([] : List (Entry Task)) = [] := rfl

@[simp] theorem addrs_cons (n : Entry Task) (l : List (Entry Task)) :
    addrs (n :: l) = n.addr :: addrs l := rfl

@[simp] theorem addrs_append (l m : List (Entry Task)) : addrs (l ++ m) = addrs l ++ addrs m :=
  List.map_append

variable {l : List (Entry Task)}

theorem mem_addrs_of_mem (h : n ∈ l) :
    n.addr ∈ addrs l := List.mem_map_of_mem h

@[simp] theorem addrs_modifyAt (a : Slot) (f : FileLock Task → FileLock Task)
    (l : List (Entry Task)) : addrs (modifyAt a f l) = addrs l := by
  simp only [addrs, modifyAt, List.map_map]
  refine List.map_congr_left fun n _ => ?_
  by_cases h : n.addr = a <;> simp [h]

theorem modifyAt_append (a : Slot) (f : FileLock Task → FileLock Task)
    (l m : List (Entry Task)) : modifyAt a f (l ++ m) = modifyAt a f l ++ modifyAt a f m :=
  List.map_append

theorem modifyAt_of_notMem {a : Slot} (f : FileLock Task → FileLock Task)
    (h : a ∉ addrs l) : modifyAt a f l = l := by
  calc modifyAt a f l = l.map id := by
        refine List.map_congr_left fun n hn => if_neg ?_
        rintro rfl
        exact h (mem_addrs_of_mem hn)
    _ = l := List.map_id l

@[simp] theorem Scan.mergeCaller_addrs (c : Scan Task) (n : Entry Task) :
    addrs (c.mergeCaller n).passed = addrs c.passed := by
  unfold Scan.mergeCaller Scan.writeCaller
  cases c.callerAt <;> simp

/-! ## The block of the owner -/

/-- The same variables with more of the list behind them. -/
def Scan.after (A : List (Entry Task)) (c : Scan Task) : Scan Task :=
  { c with passed := A ++ c.passed }

/-- The same for the variables an iteration leaves. -/
def Turn.after (A : List (Entry Task)) : Turn Task → Turn Task
  | .go c => .go (c.after A)
  | .halt c => .halt (c.after A)

theorem Scan.after_next (A : List (Entry Task)) (c : Scan Task) (n : Entry Task) :
    (c.after A).next n = (c.next n).after A := by
  simp [Scan.after, Scan.next]

theorem Scan.after_adopt (A : List (Entry Task)) (c : Scan Task) (n : Entry Task) :
    (c.after A).adopt n = (c.adopt n).after A := by
  simp [Scan.after, Scan.adopt]

theorem Scan.after_wakeUp (A : List (Entry Task)) (c : Scan Task) (n : Entry Task) :
    (c.after A).wakeUp n = (c.wakeUp n).after A := rfl

theorem Scan.after_mark (A : List (Entry Task)) (c : Scan Task) :
    (c.after A).mark = c.mark.after A := by
  unfold Scan.mark Scan.after
  split_ifs <;> rfl

theorem Scan.after_noteLeft (A : List (Entry Task)) (c : Scan Task) (n : Entry Task) :
    (c.after A).noteLeft n = (c.noteLeft n).after A := by
  unfold Scan.noteLeft Scan.after
  split_ifs <;> rfl

variable {A : List (Entry Task)}

theorem Scan.after_mergeCaller (h : ∀ a ∈ c.callerAt, a ∉ addrs A) (n : Entry Task) :
    (c.after A).mergeCaller n = (c.mergeCaller n).after A := by
  unfold Scan.mergeCaller Scan.writeCaller Scan.after
  cases hc : c.callerAt with
  | none => rfl
  | some a => simp [modifyAt_append, modifyAt_of_notMem _ (h a hc)]

theorem lockItBody_after (h : ∀ a ∈ c.callerAt, a ∉ addrs A) (n : Entry Task) :
    lockItBody (c.after A) n = (lockItBody c n).after A := by
  have hcaller : (c.after A).caller = c.caller := rfl
  have hadded : (c.after A).added = c.added := rfl
  have hmark : (c.mark.after A).added = c.mark.added := rfl
  unfold lockItBody
  simp only [hcaller, hadded, Scan.after_mark, hmark, Scan.after_noteLeft,
    Scan.after_mergeCaller h, Scan.after_next, Scan.after_wakeUp, Scan.after_adopt]
  split_ifs <;> rfl

variable {c' : Scan Task}

/-- What an iteration leaves as `caller` is of the same owner, and is either the old
one or the record just treated. -/
theorem Move.caller_spec (h : Move c n c') :
    (c'.caller.flOwner = c.caller.flOwner ∧ c'.callerAt = c.callerAt) ∨
      (c'.caller.flOwner = n.fl.flOwner ∧ c'.callerAt = some n.addr) := by
  cases h with
  | skipSame | mergeFree => exact .inl ⟨rfl, rfl⟩
  | mergeAdopt => exact .inr ⟨rfl, rfl⟩
  | skipLow => exact .inl ⟨rfl, rfl⟩
  | coverFree =>
    exact .inl ⟨congrArg FileLock.flOwner c.mark_caller, c.mark_callerAt⟩
  | coverReplace => exact .inr ⟨rfl, rfl⟩
  | clipLeft => exact .inl ⟨congrArg FileLock.flOwner c.mark_caller, c.mark_callerAt⟩

section

variable [DecidableEq Task]

/-- The loop run on a block of its owner's records does the same when more of the
list stands before the block and records of other owners come after it. -/
theorem lockItLoop_frame {A B : List (Entry Task)} {o : Option Task}
    (hB : ∀ n ∈ B.head?, n.fl.flOwner ≠ o) (G : List (Entry Task)) (c : Scan Task)
    (hc : c.caller.flOwner = o) (hG : ∀ n ∈ G, n.fl.flOwner = o)
    (hA : ∀ n ∈ G, n.addr ∉ addrs A) (hat : ∀ a ∈ c.callerAt, a ∉ addrs A) :
    lockItLoop (c.after A) (G ++ B) =
      ((lockItLoop c G).1.after A, (lockItLoop c G).2 ++ B) := by
  have hcaller : ∀ c : Scan Task, (c.after A).caller = c.caller := fun _ => rfl
  induction G generalizing c with
  | nil =>
    cases B with
    | nil => rfl
    | cons n B =>
      have hn : c.caller.flOwner ≠ n.fl.flOwner := fun h => hB n rfl (h.symm.trans hc)
      simp only [List.nil_append, lockItLoop, hcaller]
      rw [if_pos hn]
  | cons n G ih =>
    have hn : c.caller.flOwner = n.fl.flOwner := hc.trans (hG n (by simp)).symm
    rw [List.cons_append]
    simp only [lockItLoop, hcaller]
    rw [if_neg (not_not.2 hn), if_neg (not_not.2 hn), lockItBody_after hat]
    rcases lockItBody_cases c n with ⟨c', hb, hm⟩ | ⟨c', hb, -⟩
    · rw [hb]
      refine ih c' ?_ (fun m hm => hG m (by simp [hm])) (fun m hm => hA m (by simp [hm])) ?_
      · rcases hm.caller_spec with h | h
        · exact h.1.trans hc
        · exact h.1.trans (hG n (by simp))
      · intro a ha
        rcases hm.caller_spec with h | h
        · exact hat a (h.2 ▸ ha)
        · rw [h.2, Option.mem_some_iff] at ha
          exact ha ▸ hA n (by simp)
    · rw [hb]
      rfl

end

/-! ## After the loop -/

/-- The new lock breaks an old one in two pieces. -/
def Scan.Breaks (c : Scan Task) (r : Entry Task) : Prop :=
  c.right = some r ∧ c.left = some r.addr

/-- Every way `lock_it` ends after its loop. -/
inductive Ending (current : Task) (c : Scan Task) (rest : List (Entry Task)) : Outcome Task → Prop
  | refused (ret : Int) : ret ≠ 0 → (c.added = false ∨ ∃ r, c.Breaks r) →
      Ending current c rest (c.outcome rest ret)
  | rolledBack (tmp : Entry Task) (free : List (Entry Task)) : c.added = false →
      c.free = tmp :: free → Ending current c rest
        (((c.placed current tmp free).freeLock (allocEntry current tmp c.caller)).outcome rest
          (-Errno.enolck))
  | cut : c.added = true → (∀ r, ¬ c.Breaks r) → Ending current c rest (c.cut c.left rest)
  | cutNew (tmp : Entry Task) (free : List (Entry Task)) : c.added = false →
      c.caller.flType ≠ .unlck → c.free = tmp :: free → (∀ r, ¬ c.Breaks r) →
      Ending current c rest ((c.placed current tmp free).cut c.left
        (allocEntry current tmp c.caller :: rest))
  | broken (r tmp : Entry Task) (free : List (Entry Task)) : c.added = true → c.Breaks r →
      c.free = tmp :: free → Ending current c rest
        ((c.took tmp free).cut (some tmp.addr) (allocEntry current tmp r.fl :: rest))
  | brokenNew (r tmp tmp' : Entry Task) (free : List (Entry Task)) : c.added = false →
      c.caller.flType ≠ .unlck → c.Breaks r → c.free = tmp :: tmp' :: free →
      Ending current c rest
        (((c.placed current tmp (tmp' :: free)).took tmp' free).cut (some tmp'.addr)
          (allocEntry current tmp' r.fl :: allocEntry current tmp c.caller :: rest))

theorem Scan.not_breaks_of_right_none (h : c.right = none) (r : Entry Task) :
    ¬ c.Breaks r := by
  rintro ⟨hr, -⟩
  rw [h] at hr
  cases hr

theorem Scan.not_breaks_of_left_ne {r : Entry Task} (hr : c.right = some r)
    (h : c.left ≠ some r.addr) (r' : Entry Task) : ¬ c.Breaks r' := by
  rintro ⟨hr', hl⟩
  rw [hr] at hr'
  cases hr'
  exact h hl

/-- **The code after the loop** does one of the things listed in `Ending`. -/
theorem Scan.finish_ending (current : Task) (c : Scan Task) (rest : List (Entry Task)) :
    Ending current c rest (c.finish current rest) := by
  have hret : -Errno.enolck ≠ 0 := by decide
  unfold Scan.finish
  cases hadd : c.added with
  | true =>
    simp only [if_true, Scan.split]
    cases hr : c.right with
    | none => exact .cut hadd (Scan.not_breaks_of_right_none hr)
    | some r =>
      simp only
      by_cases hl : c.left = some r.addr
      · rw [if_pos hl]
        cases hf : c.free with
        | nil => exact .refused _ hret (.inr ⟨r, hr, hl⟩)
        | cons tmp free => exact .broken r tmp free hadd ⟨hr, hl⟩ hf
      · rw [if_neg hl]
        exact .cut hadd (Scan.not_breaks_of_left_ne hr hl)
  | false =>
    simp only [Bool.false_eq_true, if_false]
    by_cases hu : c.caller.flType = .unlck
    · rw [if_pos hu]
      exact .refused _ (by decide) (.inl hadd)
    · rw [if_neg hu]
      cases hf : c.free with
      | nil => exact .refused _ hret (.inl hadd)
      | cons tmp free =>
        simp only [Scan.split]
        cases hr : (c.placed current tmp free).right with
        | none => exact .cutNew tmp free hadd hu hf (Scan.not_breaks_of_right_none hr)
        | some r =>
          simp only
          by_cases hl : (c.placed current tmp free).left = some r.addr
          · rw [if_pos hl]
            cases free with
            | nil => exact .rolledBack tmp [] hadd hf
            | cons tmp' free => exact .brokenNew r tmp tmp' free hadd hu ⟨hr, hl⟩ hf
          · rw [if_neg hl]
            exact .cutNew tmp free hadd hu hf (Scan.not_breaks_of_left_ne hr hl)

/-! ## The records a call holds -/

theorem mem_modifyAt {a : Slot} {f : FileLock Task → FileLock Task}
    {x : Entry Task} (h : x ∈ modifyAt a f l) :
    x ∈ l ∨ ∃ y ∈ l, y.addr = a ∧ x = { y with fl := f y.fl } := by
  obtain ⟨y, hy, rfl⟩ := List.mem_map.1 h
  by_cases ha : y.addr = a
  · exact .inr ⟨y, hy, ha, by simp [ha]⟩
  · exact .inl (by simpa [ha] using hy)

theorem Scan.mergeCaller_owner {o : Option Task}
    (h : ∀ n ∈ c.passed, n.fl.flOwner = o) (m : Entry Task) :
    ∀ n ∈ (c.mergeCaller m).passed, n.fl.flOwner = o := by
  unfold Scan.mergeCaller Scan.writeCaller
  cases c.callerAt with
  | none => exact h
  | some a =>
    intro n hn
    simp only at hn
    rcases mem_modifyAt hn with hn | ⟨y, hy, -, rfl⟩
    · exact h n hn
    · exact h y hy

/-- The loop of a call of `O` keeps the table entries `all` together: `rest` and what it
has passed hold records of `O`, the free list holds free ones, and `left` and `right`
point to records it still has. -/
structure Scan.Sound (O : Task) (all : List Slot) (c : Scan Task) (rest : List (Entry Task)) :
    Prop where
  caller : c.caller.flOwner = some O
  perm : (addrs c.passed ++ addrs rest ++ addrs c.free).Perm all
  own : ∀ n ∈ c.passed ++ rest, n.fl.flOwner = some O
  unowned : ∀ n ∈ c.free, n.fl.flOwner = none
  left : ∀ a ∈ c.left, a ∈ addrs (c.passed ++ rest)
  right : ∀ r ∈ c.right, r ∈ rest
  panicked : c.panicked = false

/-- While the loop runs, `right` is not set and `left` is behind us. -/
structure Scan.Going (O : Task) (all : List Slot) (c : Scan Task) (rest : List (Entry Task)) :
    Prop extends Scan.Sound O all c rest where
  right_none : c.right = none
  left_passed : ∀ a ∈ c.left, a ∈ addrs c.passed

variable {O : Task} {all : List Slot} {rest : List (Entry Task)}

theorem Scan.Going.of_parts (caller : c.caller.flOwner = some O)
    (perm : (addrs c.passed ++ addrs rest ++ addrs c.free).Perm all)
    (own : ∀ n ∈ c.passed ++ rest, n.fl.flOwner = some O)
    (unowned : ∀ n ∈ c.free, n.fl.flOwner = none) (panicked : c.panicked = false)
    (right : c.right = none) (left : ∀ a ∈ c.left, a ∈ addrs c.passed) :
    c.Going O all rest where
  caller := caller
  perm := perm
  own := own
  unowned := unowned
  panicked := panicked
  right_none := right
  left_passed := left
  left := fun a ha => by simp [left a ha]
  right := fun r hr => by rw [right] at hr; cases hr

/-- Stepping over a record, whatever is written to it on the way. -/
theorem Scan.Going.next {O : Task} {all : List Slot} {c c' : Scan Task} {n m : Entry Task}
    {rest : List (Entry Task)} (h : c.Going O all (n :: rest)) (hm : m.addr = n.addr)
    (ho : m.fl.flOwner = some O) {l : List (Entry Task)} (hl : addrs l = addrs c.passed)
    (hlo : ∀ x ∈ l, x.fl.flOwner = some O) (hpassed : c'.passed = l ++ [m])
    (hcaller : c'.caller.flOwner = some O) (hfree : c'.free = c.free)
    (hpan : c'.panicked = c.panicked) (hright : c'.right = c.right)
    (hleft : ∀ a ∈ c'.left, a ∈ c.left ∨ a = n.addr) : c'.Going O all rest := by
  have haddr : addrs c'.passed = addrs c.passed ++ [n.addr] := by
    rw [hpassed, addrs_append, hl, addrs_cons, addrs_nil, hm]
  apply Scan.Going.of_parts hcaller
  · refine List.Perm.trans ?_ h.perm
    rw [haddr, hfree, addrs_cons]
    simp
  · intro x hx
    rw [hpassed] at hx
    rcases List.mem_append.1 hx with hx | hx
    · rcases List.mem_append.1 hx with hx | hx
      · exact hlo x hx
      · rw [List.mem_singleton.1 hx, ho]
    · exact h.own x (by simp [hx])
  · rw [hfree]
    exact h.unowned
  · rw [hpan, h.panicked]
  · rw [hright, h.right_none]
  · intro a ha
    rw [haddr]
    rcases hleft a ha with ha | rfl
    · exact List.mem_append_left _ (h.left_passed a ha)
    · simp

theorem Scan.Going.freeLock {m : Entry Task} (h : c.Going O all (n :: rest)) (hm : m.addr = n.addr)
    (ho : m.fl.flOwner = some O) (hl : addrs c'.passed = addrs c.passed)
    (hlo : ∀ x ∈ c'.passed, x.fl.flOwner = some O)
    (hcaller : c'.caller.flOwner = some O) (hfree : c'.free = c.free)
    (hpan : c'.panicked = c.panicked) (hright : c'.right = c.right)
    (hleft : c'.left = c.left) : (c'.freeLock m).Going O all rest := by
  refine Scan.Going.of_parts hcaller ?_ ?_ ?_ ?_ ?_ ?_
  · refine List.Perm.trans ?_ h.perm
    simp only [Scan.freeLock, Scan.wakeUp, addrs_cons, freedEntry, hm, hl, hfree,
      List.append_assoc, List.cons_append]
    exact List.Perm.append_left _ List.perm_middle
  · intro x hx
    rcases List.mem_append.1 hx with hx | hx
    · exact hlo x hx
    · exact h.own x (by simp [hx])
  · intro x hx
    rcases List.mem_cons.1 hx with rfl | hx
    · rfl
    · rw [hfree] at hx
      exact h.unowned x hx
  · show (c'.panicked || m.fl.flOwner.isNone) = false
    rw [hpan, h.panicked, ho]
    rfl
  · exact hright.trans h.right_none
  · intro a ha
    show a ∈ addrs c'.passed
    rw [hl]
    exact h.left_passed a (hleft ▸ ha)

/-- Every iteration that goes on keeps the records together. -/
theorem Move.going (h : c.Going O all (n :: rest)) (hm : Move c n c') :
    c'.Going O all rest := by
  have hn : n.fl.flOwner = some O := h.own n (by simp)
  have hp : ∀ x ∈ c.passed, x.fl.flOwner = some O := fun x hx => h.own x (by simp [hx])
  cases hm with
  | skipSame | skipLow =>
    exact h.next rfl hn rfl hp rfl h.caller rfl rfl rfl fun a ha => .inl ha
  | mergeFree =>
    exact h.freeLock rfl hn (c.mergeCaller_addrs n) (Scan.mergeCaller_owner hp n) h.caller
      rfl rfl rfl rfl
  | mergeAdopt =>
    exact h.next (m := c.mergeEntry n) rfl hn (c.mergeCaller_addrs n) (Scan.mergeCaller_owner hp n) rfl hn
      rfl rfl rfl fun a ha => .inl ha
  | coverFree =>
    refine h.freeLock rfl hn ?_ ?_ ?_ ?_ ?_ ?_ ?_ <;> simp [h.caller]
    exact hp
  | coverReplace =>
    exact h.next (m := c.replaced n) rfl hn rfl hp rfl hn rfl rfl rfl fun a ha => .inl ha
  | clipLeft =>
    refine h.next rfl hn rfl hp ?_ ?_ ?_ ?_ ?_ ?_ <;> simp [h.caller, Scan.next]

theorem Halt.sound (h : c.Going O all (n :: rest)) (hh : Halt c n c') :
    c'.Sound O all (n :: rest) := by
  obtain ⟨⟨h1, h2, h3, h4, h5, h6, h7⟩, h8, h9⟩ := h
  cases hh with
  | beyondSame | beyond => exact ⟨h1, h2, h3, h4, h5, h6, h7⟩
  | clipRight | clipBoth => constructor <;> simp_all

/-- What a call has done with the table entries `all` it was given. -/
structure Outcome.Sound (O : Task) (all : List Slot) (o : Outcome Task) : Prop where
  perm : (addrs o.list ++ addrs o.free).Perm all
  own : ∀ n ∈ o.list, n.fl.flOwner = some O
  unowned : ∀ n ∈ o.free, n.fl.flOwner = none
  panicked : o.panicked = false

@[simp] theorem addrs_cutRight (e : Int) (right : Option (Entry Task)) (l : List (Entry Task)) :
    addrs (cutRight e right l) = addrs l := by
  unfold cutRight
  cases right <;> simp

@[simp] theorem addrs_cutLeft (s : Int) (left : Option Slot) (l : List (Entry Task)) :
    addrs (cutLeft s left l) = addrs l := by
  unfold cutLeft
  cases left <;> simp

theorem mem_cutRight {e : Int} {right : Option (Entry Task)}
    {x : Entry Task} (h : x ∈ cutRight e right l) :
    x ∈ l ∨ ∃ r y, right = some r ∧ y ∈ l ∧ y.addr = r.addr ∧
      x = { y with fl := { y.fl with flStart := offT (e + 1) } } := by
  cases right with
  | none => exact .inl h
  | some r =>
    simp only [cutRight] at h
    rcases mem_modifyAt h with h | ⟨y, hy, ha, rfl⟩
    · exact .inl h
    · exact .inr ⟨r, y, rfl, hy, ha, rfl⟩

theorem mem_cutLeft {s : Int} {left : Option Slot} {x : Entry Task} (h : x ∈ cutLeft s left l) :
    x ∈ l ∨ ∃ y ∈ l, left = some y.addr ∧
      x = { y with fl := { y.fl with flEnd := offT (s - 1) } } := by
  cases left with
  | none => exact .inl h
  | some a =>
    simp only [cutLeft] at h
    rcases mem_modifyAt h with h | ⟨y, hy, rfl, rfl⟩
    · exact .inl h
    · exact .inr ⟨y, hy, rfl, rfl⟩

/-- The two last writes change neither the owner of a record nor its type. -/
theorem Scan.mem_cut {left : Option Slot} {x : Entry Task} (h : x ∈ (c.cut left rest).list) :
    ∃ y ∈ c.passed ++ rest, y.fl.flOwner = x.fl.flOwner ∧ y.fl.flType = x.fl.flType := by
  obtain ⟨y, hy, howner, htype⟩ : ∃ y ∈ cutRight c.caller.flEnd c.right (c.passed ++ rest),
      y.fl.flOwner = x.fl.flOwner ∧ y.fl.flType = x.fl.flType := by
    rcases mem_cutLeft h with h | ⟨y, hy, -, rfl⟩
    · exact ⟨x, h, rfl, rfl⟩
    · exact ⟨y, hy, rfl, rfl⟩
  rcases mem_cutRight hy with hy | ⟨-, z, -, hz, -, rfl⟩
  · exact ⟨y, hy, howner, htype⟩
  · exact ⟨z, hz, howner, htype⟩

/-- Taking a free record and putting it on the list. -/
theorem Scan.Sound.took {tmp : Entry Task} {free : List (Entry Task)} (h : c.Sound O all rest)
    (hf : c.free = tmp :: free) (fl : FileLock Task) :
    (c.took tmp free).Sound O all (allocEntry O tmp fl :: rest) := by
  refine ⟨h.caller, ?_, ?_, ?_, ?_, ?_, ?_⟩
  · refine List.Perm.trans ?_ h.perm
    rw [hf]
    simp only [Scan.took, addrs_cons, allocEntry, List.append_assoc, List.cons_append]
    refine List.Perm.append_left _ ?_
    exact List.perm_middle.symm
  · intro n hn
    rcases List.mem_append.1 hn with hn | hn
    · exact h.own n (List.mem_append_left _ hn)
    · rcases List.mem_cons.1 hn with rfl | hn
      · rfl
      · exact h.own n (List.mem_append_right _ hn)
  · intro n hn
    exact h.unowned n (by rw [hf]; exact List.mem_cons_of_mem _ hn)
  · intro a ha
    have := h.left a ha
    simp only [addrs_append, addrs_cons, List.mem_append, List.mem_cons] at this ⊢
    exact this.imp_right .inr
  · intro r hr
    exact List.mem_cons_of_mem _ (h.right r hr)
  · have htmp : tmp.fl.flOwner = none := h.unowned tmp (by rw [hf]; simp)
    simp [Scan.took, h.panicked, htmp]

theorem Scan.Sound.placed {tmp : Entry Task} {free : List (Entry Task)} (h : c.Sound O all rest)
    (hf : c.free = tmp :: free) :
    (c.placed O tmp free).Sound O all (allocEntry O tmp c.caller :: rest) := by
  obtain ⟨-, h2, h3, h4, h5, h6, h7⟩ := h.took hf c.caller
  exact ⟨rfl, h2, h3, h4, h5, h6, h7⟩

theorem Scan.Sound.cut
    (h : c.Sound O all rest) (left : Option Slot) : (c.cut left rest).Sound O all := by
  refine ⟨?_, fun n hn => ?_, h.unowned, h.panicked⟩
  · simp only [Scan.cut, addrs_cutLeft, addrs_cutRight, addrs_append]
    exact h.perm
  · obtain ⟨y, hy, howner, -⟩ := Scan.mem_cut hn
    exact howner ▸ h.own y hy

theorem Scan.Sound.outcome (h : c.Sound O all rest) (ret : Int) :
    (c.outcome rest ret).Sound O all := by
  refine ⟨?_, h.own, h.unowned, h.panicked⟩
  simp only [Scan.outcome, addrs_append]
  exact h.perm

/-- Whatever happens after the loop, no record is lost or duplicated. -/
theorem Ending.sound
    {o : Outcome Task} (h : c.Sound O all rest) (he : Ending O c rest o) : o.Sound O all := by
  cases he with
  | refused ret => exact h.outcome ret
  | rolledBack tmp free hadd hf =>
    obtain ⟨-, h2, h3, h4, -, -, h7⟩ := h.placed hf
    refine ⟨?_, fun n hn => h3 n ?_, ?_, ?_⟩
    · refine List.Perm.trans ?_ h2
      simp only [Scan.outcome, Scan.freeLock, Scan.wakeUp, addrs_append, addrs_cons, freedEntry,
        List.append_assoc, List.cons_append]
      exact List.Perm.append_left _ List.perm_middle
    · exact (List.Sublist.append_left (List.sublist_cons_self _ _) _).subset hn
    · intro n hn
      rcases List.mem_cons.1 hn with rfl | hn
      · rfl
      · exact h4 n hn
    · exact (Bool.or_false _).trans h7
  | cut => exact h.cut _
  | cutNew tmp free _ _ hf => exact (h.placed hf).cut _
  | broken r tmp free _ _ hf => exact (h.took hf r.fl).cut _
  | brokenNew r tmp tmp' free _ _ _ hf => exact ((h.placed hf).took rfl r.fl).cut _

section

variable [DecidableEq Task]

variable {G free : List (Entry Task)}

/-- The variables at the start of the loop over a block of the owner's records. -/
theorem Scan.start_going {O : Task} {caller : FileLock Task}
    (hcaller : caller.flOwner = some O) (hG : ∀ n ∈ G, n.fl.flOwner = some O)
    (hfree : ∀ n ∈ free, n.fl.flOwner = none) :
    (Scan.start [] free caller).Going O (addrs G ++ addrs free) G :=
  Scan.Going.of_parts hcaller (.refl _) hG hfree rfl rfl (by simp [Scan.start])

theorem lockItLoop_sound {O : Task} {caller : FileLock Task}
    (hcaller : caller.flOwner = some O) (hG : ∀ n ∈ G, n.fl.flOwner = some O)
    (hfree : ∀ n ∈ free, n.fl.flOwner = none) :
    (lockItLoop (Scan.start [] free caller) G).1.Sound O (addrs G ++ addrs free)
      (lockItLoop (Scan.start [] free caller) G).2 := by
  refine lockItLoop_rule (P := Scan.Going O (addrs G ++ addrs free)) ?_ ?_ ?_ G _
    (Scan.start_going hcaller hG hfree)
  · intro c n rest c' h _ hm
    exact hm.going h
  · intro c n rest c' h _ hh
    exact hh.sound h
  · intro c rest h _
    exact h.toSound

/-- `lock_it` on the block of the owner alone. -/
def lockGroup (O : Task) (G free : List (Entry Task)) (caller : FileLock Task) : Outcome Task :=
  (lockItLoop (Scan.start [] free caller) G).1.finish O
    (lockItLoop (Scan.start [] free caller) G).2

/-- **No record is lost or duplicated** between the list and the free list, and neither
sanity check panics. -/
theorem lockGroup_sound {O : Task} {caller : FileLock Task}
    (hcaller : caller.flOwner = some O) (hG : ∀ n ∈ G, n.fl.flOwner = some O)
    (hfree : ∀ n ∈ free, n.fl.flOwner = none) :
    (lockGroup O G free caller).Sound O (addrs G ++ addrs free) :=
  Ending.sound (lockItLoop_sound hcaller hG hfree) (Scan.finish_ending O _ _)

end

/-! ## The frame -/

/-- The outcome of a call on a block, with the rest of the list around it. -/
def Outcome.within (A B : List (Entry Task)) (o : Outcome Task) : Outcome Task :=
  { o with list := A ++ o.list ++ B }

/-- None of the entries `all` stands on the list. -/
def Apart (all : List Slot) (l : List (Entry Task)) : Prop := ∀ a ∈ all, a ∉ addrs l

variable {B : List (Entry Task)}

theorem modifyAt_within {a : Slot} (hA : a ∉ addrs A)
    (hB : a ∉ addrs B) (f : FileLock Task → FileLock Task) (l : List (Entry Task)) :
    modifyAt a f (A ++ l ++ B) = A ++ modifyAt a f l ++ B := by
  rw [modifyAt_append, modifyAt_append, modifyAt_of_notMem f hA, modifyAt_of_notMem f hB]

theorem Scan.cut_within (hA : Apart all A)
    (hB : Apart all B) (hr : ∀ r ∈ c.right, r.addr ∈ all) {left : Option Slot}
    (hl : ∀ a ∈ left, a ∈ all) (rest : List (Entry Task)) :
    (c.after A).cut left (rest ++ B) = (c.cut left rest).within A B := by
  have hlist : (c.after A).passed ++ (rest ++ B) = A ++ (c.passed ++ rest) ++ B := by
    simp [Scan.after]
  have hright : cutRight c.caller.flEnd c.right (A ++ (c.passed ++ rest) ++ B) =
      A ++ cutRight c.caller.flEnd c.right (c.passed ++ rest) ++ B := by
    cases hc : c.right with
    | none => rfl
    | some r =>
      simp only [cutRight]
      exact modifyAt_within (hA _ (hr r hc)) (hB _ (hr r hc)) _ _
  have hleft : ∀ l, cutLeft c.caller.flStart left (A ++ l ++ B) =
      A ++ cutLeft c.caller.flStart left l ++ B := by
    intro l
    cases left with
    | none => rfl
    | some a =>
      simp only [cutLeft]
      exact modifyAt_within (hA _ (hl a rfl)) (hB _ (hl a rfl)) _ _
  unfold Scan.cut Outcome.within
  rw [hlist]
  show Outcome.mk 0 (cutLeft c.caller.flStart left
    (cutRight c.caller.flEnd c.right (A ++ (c.passed ++ rest) ++ B))) _ _ _ = _
  rw [hright, hleft]
  rfl

/-- The code after the loop, on a block and on the whole list. -/
theorem Scan.finish_within (hA : Apart all A) (hB : Apart all B) (h : c.Sound O all rest) :
    (c.after A).finish O (rest ++ B) = (c.finish O rest).within A B := by
  have hlist : ∀ a ∈ addrs (c.passed ++ rest), a ∈ all := fun a ha =>
    h.perm.subset (List.mem_append_left _ (by simpa using ha))
  have hfree : ∀ n ∈ c.free, n.addr ∈ all := fun n hn =>
    h.perm.subset (List.mem_append_right _ (mem_addrs_of_mem hn))
  have hright : ∀ r ∈ c.right, r.addr ∈ all := fun r hr =>
    hlist _ (mem_addrs_of_mem (List.mem_append_right _ (h.right r hr)))
  have hleft : ∀ a ∈ c.left, a ∈ all := fun a ha => hlist a (h.left a ha)
  have hout : ∀ (d : Scan Task) (m : List (Entry Task)) (ret : Int),
      (d.after A).outcome (m ++ B) ret = (d.outcome m ret).within A B := by
    intro d m ret
    simp [Scan.outcome, Scan.after, Outcome.within]
  -- the part after the first allocation, for the variables `d` it starts from
  have hsplit : ∀ (added : Bool) (d : Scan Task) (m : List (Entry Task)),
      d.right = c.right → d.left = c.left → (∀ n ∈ d.free, n ∈ c.free) →
      (added = false → m ≠ []) →
      (d.after A).split O added (m ++ B) = (d.split O added m).within A B := by
    intro added d m hdr hdl hdf hm
    have hcut : (d.after A).cut d.left (m ++ B) = (d.cut d.left m).within A B :=
      Scan.cut_within hA hB (hdr ▸ hright) (hdl ▸ hleft) m
    unfold Scan.split
    simp only [show (d.after A).right = d.right from rfl, show (d.after A).left = d.left from rfl,
      show (d.after A).free = d.free from rfl]
    cases hr : d.right with
    | none => exact hcut
    | some r =>
      simp only
      by_cases hl : d.left = some r.addr
      · rw [if_pos hl, if_pos hl]
        cases hf : d.free with
        | nil =>
          cases added with
          | true => exact hout d m _
          | false =>
            cases m with
            | nil => exact absurd rfl (hm rfl)
            | cons n m => exact hout (d.freeLock n) m _
        | cons tmp free =>
          refine Scan.cut_within (c := d.took tmp free) hA hB (fun r' hr' => ?_) (fun a ha => ?_)
            (allocEntry O tmp r.fl :: m)
          · exact hright r' (hdr ▸ hr')
          · rw [Option.mem_some_iff] at ha
            exact ha ▸ hfree tmp (hdf tmp (by simp [hf]))
      · rw [if_neg hl, if_neg hl]
        exact hcut
  unfold Scan.finish
  simp only [show (c.after A).added = c.added from rfl,
    show (c.after A).caller = c.caller from rfl, show (c.after A).free = c.free from rfl]
  cases hadd : c.added with
  | true => exact hsplit true c rest rfl rfl (fun n hn => hn) (by simp)
  | false =>
    simp only [Bool.false_eq_true, if_false]
    by_cases hu : c.caller.flType = .unlck
    · rw [if_pos hu, if_pos hu]
      exact hout c rest _
    · rw [if_neg hu, if_neg hu]
      cases hf : c.free with
      | nil => exact hout c rest _
      | cons tmp free =>
        refine hsplit false (c.placed O tmp free) (allocEntry O tmp c.caller :: rest) rfl rfl ?_
          (by simp)
        intro n hn
        rw [hf]
        exact List.mem_cons_of_mem _ hn

section

variable [DecidableEq Task]

/-- **`lock_it` touches the block of its owner only.** -/
theorem lockIt_frame {O : Task} {A G B free : List (Entry Task)} {caller : FileLock Task}
    (hcaller : caller.flOwner = some O) (hA : ∀ n ∈ A, n.fl.flOwner ≠ some O)
    (hG : ∀ n ∈ G, n.fl.flOwner = some O) (hB : ∀ n ∈ B, n.fl.flOwner ≠ some O)
    (hGB : G = [] → B = []) (hfree : ∀ n ∈ free, n.fl.flOwner = none)
    (hApart : Apart (addrs G ++ addrs free) A) (hBpart : Apart (addrs G ++ addrs free) B) :
    lockIt O (A ++ G ++ B) free caller = (lockGroup O G free caller).within A B := by
  have hskip : ∀ n ∈ A, decide (caller.flOwner ≠ n.fl.flOwner) = true := fun n hn => by
    rw [hcaller]
    exact decide_eq_true (hA n hn).symm
  have htake : (A ++ G ++ B).takeWhile (fun n => decide (caller.flOwner ≠ n.fl.flOwner)) = A := by
    rw [List.append_assoc, List.takeWhile_append_of_pos hskip]
    cases G with
    | nil => simp [hGB rfl]
    | cons n G => simp [hcaller, hG n]
  have hdrop : (A ++ G ++ B).dropWhile (fun n => decide (caller.flOwner ≠ n.fl.flOwner)) =
      G ++ B := by
    rw [List.append_assoc, List.dropWhile_append_of_pos hskip]
    cases G with
    | nil => simp [hGB rfl]
    | cons n G => simp [hcaller, hG n]
  have hstart : Scan.start (A ++ G ++ B) free caller = (Scan.start [] free caller).after A := by
    unfold Scan.start Scan.after
    rw [htake]
    simp
  unfold lockIt
  rw [hstart, hdrop]
  have hloop := lockItLoop_frame (A := A) (B := B) (o := some O)
    (fun n hn => hB n (List.mem_of_mem_head? hn)) G (Scan.start [] free caller) hcaller hG
    (fun n hn => hApart _ (List.mem_append_left _ (mem_addrs_of_mem hn))) (by simp [Scan.start])
  simp only [hloop]
  exact Scan.finish_within hApart hBpart (lockItLoop_sound hcaller hG hfree)

end

end LinuxEvocation.Locks
