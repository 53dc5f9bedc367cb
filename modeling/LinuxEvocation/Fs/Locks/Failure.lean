import LinuxEvocation.Fs.Locks.Invariant

/-!
# A call of `lock_it` that fails

`lock_it` edits and merges records before it knows whether it needs a second record for a
split.  What makes a failing call harmless is the order of the list: the first change of the loop
is made at a record that starts at or above the new lock, or that has been merged into it, so no
record behind it starts below the new lock, and only a record that does can be split.

* `LockList` — the list invariant, for one inode and the free list.
* `Scan.Untouched`, `Scan.Settled` — the loop has changed nothing, or can no longer fail.
* `lockIt_failure` — a call that returns an error leaves both lists as they were.
-/

namespace LinuxEvocation.Locks

variable {Task : Type}

/-- The invariant of the list `l` of one inode, next to the free list. -/
structure LockList (l free : List (Entry Task)) : Prop where
  /-- The records of each owner are contiguous, ... -/
  contiguous : Contiguous l
  /-- ... each with a range that is not empty, ... -/
  proper : ∀ x ∈ l, x.fl.flStart ≤ x.fl.flEnd
  /-- ... sorted by start, disjoint, and of different types where they touch. -/
  ordered : l.Pairwise fun x y => x.fl.flOwner = y.fl.flOwner →
    x.fl.flStart ≤ y.fl.flStart ∧ x.fl.flEnd < y.fl.flStart ∧
      (x.fl.flEnd + 1 = y.fl.flStart → x.fl.flType ≠ y.fl.flType)
  typed : ∀ x ∈ l, x.fl.flType = .rdlck ∨ x.fl.flType = .wrlck
  /-- No table entry is on both lists, or twice on one of them. -/
  once : (addrs l ++ addrs free).Nodup
  /-- `fl_owner` is `NULL` exactly on the free ones. -/
  owned : ∀ x ∈ l, x.fl.flOwner ≠ none
  unowned : ∀ x ∈ free, x.fl.flOwner = none

/-! ## The two phases of the loop -/

/-- The loop has changed nothing so far. -/
structure Scan.Untouched (G free : List (Entry Task)) (c : Scan Task) (rest : List (Entry Task)) :
    Prop where
  list : c.passed ++ rest = G
  free : c.free = free
  woken : c.woken = []
  panicked : c.panicked = false

/-- The new lock needs no record of its own, and no record to come starts below it. -/
structure Scan.Settled (c : Scan Task) (rest : List (Entry Task)) : Prop where
  added : c.added = true
  start_le : ∀ n ∈ rest, c.caller.flStart ≤ n.fl.flStart

/-- What holds at each iteration.  A call that unlocks sets `added` without a change. -/
structure Scan.Pending (G free : List (Entry Task)) (c : Scan Task) (rest : List (Entry Task)) :
    Prop where
  right : c.right = none
  left : ∀ a ∈ c.left, a ∉ addrs rest
  sorted : rest.Pairwise fun x y => x.fl.flStart ≤ y.fl.flStart
  typed : ∀ n ∈ rest, n.fl.flType ≠ .unlck
  nodup : (addrs rest).Nodup
  phase : (c.Untouched G free rest ∧ (c.added = true → c.caller.flType = .unlck)) ∨
    c.Settled rest

/-- What holds when the loop is left. -/
def Scan.Concluded (G free : List (Entry Task)) (c : Scan Task) (rest : List (Entry Task)) : Prop :=
  c.Untouched G free rest ∨ (c.added = true ∧ ∀ r, ¬ c.Breaks r)

/-- The loop goes on: the marks it has made are on records it has left behind. -/
theorem Scan.Pending.next {G free rest : List (Entry Task)} {c c' : Scan Task} {n : Entry Task}
    (h : c.Pending G free (n :: rest)) (hright : c'.right = none)
    (hleft : c'.left = c.left ∨ c'.left = some n.addr)
    (hphase : (c'.Untouched G free rest ∧ (c'.added = true → c'.caller.flType = .unlck)) ∨
      c'.Settled rest) : c'.Pending G free rest := by
  have hnodup := List.nodup_cons.1 h.nodup
  refine ⟨hright, fun a ha => ?_, (List.pairwise_cons.1 h.sorted).2,
    fun m hm => h.typed m (List.mem_cons_of_mem _ hm), hnodup.2, hphase⟩
  rcases hleft with hl | hl
  · rw [hl] at ha
    exact fun hmem => h.left a ha (List.mem_cons_of_mem _ hmem)
  · rw [hl, Option.mem_some_iff] at ha
    rw [← ha]
    exact hnodup.1

theorem Scan.Untouched.next {G free rest : List (Entry Task)} {c : Scan Task} {n : Entry Task}
    (h : c.Untouched G free (n :: rest)) : (c.next n).Untouched G free rest := by
  obtain ⟨h1, h2, h3, h4⟩ := h
  refine ⟨?_, h2, h3, h4⟩
  rw [← h1, Scan.next, List.append_assoc]
  rfl

theorem Scan.Untouched.mark {G free rest : List (Entry Task)} {c : Scan Task}
    (h : c.Untouched G free rest) : c.mark.Untouched G free rest := by
  obtain ⟨h1, h2, h3, h4⟩ := h
  exact ⟨by simpa using h1, by simpa using h2, by simpa using h3, by simpa using h4⟩

variable {G free rest : List (Entry Task)} {c : Scan Task}

/-- The record at `before` starts at or below those behind it. -/
theorem Scan.Pending.start_le {n : Entry Task}
    (h : c.Pending G free (n :: rest)) : ∀ m ∈ rest, n.fl.flStart ≤ m.fl.flStart :=
  (List.pairwise_cons.1 h.sorted).1

theorem Scan.mergeCaller_start_le (c : Scan Task) (n : Entry Task) :
    (c.mergeCaller n).caller.flStart ≤ n.fl.flStart := by
  show mergeStart c.caller n.fl ≤ n.fl.flStart
  unfold mergeStart
  split_ifs <;> omega

/-- **Each iteration that goes on** leaves everything as it was, or settles the call. -/
theorem Move.pending {c' : Scan Task} {n : Entry Task}
    (h : c.Pending G free (n :: rest)) (hm : Move c n c') : c'.Pending G free rest := by
  have hle := h.start_le
  have hskip : ∀ m ∈ rest, m ∈ n :: rest := fun m hm => List.mem_cons_of_mem _ hm
  -- stepping over a record keeps the phase
  have hnext : ((c.next n).Untouched G free rest ∧
      ((c.next n).added = true → (c.next n).caller.flType = .unlck)) ∨ (c.next n).Settled rest := by
    rcases h.phase with ⟨hun, hadd⟩ | hset
    · exact .inl ⟨hun.next, hadd⟩
    · exact .inr ⟨hset.added, fun m hm => hset.start_le m (hskip m hm)⟩
  cases hm with
  | skipSame | skipLow => exact h.next h.right (.inl rfl) hnext
  | mergeFree _ _ _ hadd =>
    refine h.next h.right (.inl rfl) (.inr ⟨hadd, fun m hm => ?_⟩)
    exact (c.mergeCaller_start_le n).trans (hle m hm)
  | mergeAdopt =>
    refine h.next h.right (.inl rfl) (.inr ⟨rfl, fun m hm => ?_⟩)
    exact (c.mergeCaller_start_le n).trans (hle m hm)
  | coverFree _ _ hstart _ hadd =>
    refine h.next ?_ (.inl ?_) (.inr ⟨hadd, fun m hm => ?_⟩)
    · exact (c.mark_right).trans h.right
    · exact c.mark_left
    · show c.mark.caller.flStart ≤ m.fl.flStart
      rw [Scan.mark_caller]
      exact hstart.trans (hle m hm)
  | coverReplace _ _ hstart =>
    refine h.next h.right (.inl rfl) (.inr ⟨rfl, fun m hm => ?_⟩)
    exact hstart.trans (hle m hm)
  | clipLeft _ _ hlow =>
    refine h.next ((c.mark_right).trans h.right) (.inr rfl) ?_
    rcases h.phase with ⟨hun, hadd⟩ | hset
    · -- `left = fl`, and `added = 1` when the call unlocks
      have hmark := hun.mark
      refine .inl ⟨Scan.Untouched.next (c := { c.mark with left := some n.addr })
        ⟨hmark.list, hmark.free, hmark.woken, hmark.panicked⟩, fun hadd' => ?_⟩
      have hcase : c.mark.added = true := hadd'
      rw [Scan.mark_added, Bool.or_eq_true, decide_eq_true_eq] at hcase
      show c.mark.caller.flType = .unlck
      rw [Scan.mark_caller]
      exact hcase.elim hadd id
    · have := hset.start_le n List.mem_cons_self
      omega

/-- **Each way out of the loop** leaves everything as it was, or leaves no record to split. -/
theorem Halt.concluded {c' : Scan Task} {n : Entry Task}
    (h : c.Pending G free (n :: rest)) (hh : Halt c n c') :
    c'.Concluded G free (n :: rest) := by
  have hstay : c.Concluded G free (n :: rest) := by
    rcases h.phase with ⟨hun, -⟩ | hset
    · exact .inl hun
    · exact .inr ⟨hset.added, Scan.not_breaks_of_right_none h.right⟩
  cases hh with
  | beyondSame => exact hstay
  | beyond => exact hstay
  | clipRight =>
    rcases h.phase with ⟨hun, -⟩ | hset
    · exact .inl ⟨hun.mark.list, hun.mark.free, hun.mark.woken, hun.mark.panicked⟩
    · refine .inr ⟨?_, ?_⟩
      · show c.mark.added = true
        rw [Scan.mark_added, hset.added]
        rfl
      · -- `left` is a record in front of `right`
        refine Scan.not_breaks_of_left_ne (r := n) rfl fun hleft => ?_
        have hl : c.left = some n.addr := (c.mark_left).symm.trans hleft
        exact h.left n.addr hl List.mem_cons_self
  | clipBoth _ _ _ hlow =>
    rcases h.phase with ⟨hun, -⟩ | hset
    · exact .inl ⟨hun.mark.list, hun.mark.free, hun.mark.woken, hun.mark.panicked⟩
    · have := hset.start_le n List.mem_cons_self
      omega

/-! ## The code after the loop -/

/-- An outcome that leaves both lists as they were, wakes nobody and does not panic. -/
structure Outcome.Same (l free : List (Entry Task)) (o : Outcome Task) : Prop where
  list : o.list = l
  free : addrs o.free = addrs free
  unowned : ∀ n ∈ o.free, n.fl.flOwner = none
  woken : o.woken = []
  panicked : o.panicked = false

/-- An ending that fails changes nothing, or takes back what it has done. -/
theorem Ending.same {O : Task}
    {o : Outcome Task} (hfree : ∀ n ∈ free, n.fl.flOwner = none) (h : c.Concluded G free rest)
    (he : Ending O c rest o) (hret : o.ret ≠ 0) : o.Same G free := by
  cases he with
  | refused ret _ hc =>
    rcases h with hun | ⟨hadd, hb⟩
    · refine ⟨hun.list, congrArg addrs hun.free, fun n hn => hfree n ?_, hun.woken, hun.panicked⟩
      rw [← hun.free]
      exact hn
    · rcases hc with hc | ⟨r, hr⟩
      · rw [hadd] at hc
        cases hc
      · exact absurd hr (hb r)
  | rolledBack tmp tail hadd hf =>
    rcases h with hun | ⟨hadd', -⟩
    · -- the record taken for the new lock goes back to the head of the free list
      have hsplit : free = tmp :: tail := hun.free.symm.trans hf
      have htmp : tmp.fl.flOwner = none := hfree tmp (by rw [hsplit]; exact List.mem_cons_self)
      refine ⟨hun.list, ?_, fun n hn => ?_, ?_, ?_⟩
      · rw [hsplit]
        rfl
      · rcases List.mem_cons.1 hn with rfl | hn
        · rfl
        · exact hfree n (by rw [hsplit]; exact List.mem_cons_of_mem _ hn)
      · show c.woken ++ [] = []
        rw [List.append_nil]
        exact hun.woken
      · show ((c.panicked || tmp.fl.flOwner.isSome) || false) = false
        rw [hun.panicked, htmp]
        rfl
    · rw [hadd'] at hadd
      cases hadd
  | cut | cutNew | broken | brokenNew => exact absurd rfl hret

section

variable [DecidableEq Task]

variable {free : List (Entry Task)}

theorem lockItLoop_concluded {G : List (Entry Task)} {fl : FileLock Task}
    (hsorted : G.Pairwise fun x y => x.fl.flStart ≤ y.fl.flStart)
    (htyped : ∀ n ∈ G, n.fl.flType ≠ .unlck) (hnodup : (addrs G).Nodup) :
    (lockItLoop (Scan.start [] free fl) G).1.Concluded G free
      (lockItLoop (Scan.start [] free fl) G).2 := by
  have hstart : (Scan.start [] free fl).Pending G free G := by
    refine ⟨rfl, fun a ha => ?_, hsorted, htyped, hnodup, .inl ⟨⟨rfl, rfl, rfl, rfl⟩, ?_⟩⟩
    · cases ha
    · intro hadd
      cases hadd
  refine lockItLoop_rule (P := fun c rest => c.Pending G free rest)
    (Q := fun c rest => c.Concluded G free rest) ?_ ?_ ?_ G _ hstart
  · intro c n rest c' h _ hm
    exact hm.pending h
  · intro c n rest c' h _ hh
    exact hh.concluded h
  · intro c rest h _
    rcases h.phase with ⟨hun, -⟩ | hset
    · exact .inl hun
    · exact .inr ⟨hset.added, Scan.not_breaks_of_right_none h.right⟩

/-- A record and the block of its owner start in the order of the list. -/
theorem LockList.block_sorted {l : List (Entry Task)} (h : LockList l free) (o : Task) :
    (block o l).Pairwise fun x y => x.fl.flStart ≤ y.fl.flStart := by
  refine List.Pairwise.imp_of_mem ?_ (h.ordered.sublist List.filter_sublist)
  intro x y hx hy hxy
  exact (hxy ((mem_block.1 hx).2.trans (mem_block.1 hy).2.symm)).1

/-- **A call of `lock_it` that fails changes nothing**: the list of the inode and the free list
are what they were, nobody is woken, and no sanity check panics. -/
theorem lockIt_failure {O : Task} {l : List (Entry Task)} {fl : FileLock Task}
    (hl : LockList l free) (howner : fl.flOwner = some O)
    (hret : (lockIt O l free fl).ret = -Errno.enolck ∨ (lockIt O l free fl).ret = -Errno.einval) :
    (lockIt O l free fl).Same l free := by
  obtain ⟨A, B, hfr, hframe, hnodup⟩ := hl.contiguous.lockIt_eq hl.once hl.unowned howner
  have hne : (lockGroup O (block O l) free fl).ret ≠ 0 := by
    have hret' : (lockIt O l free fl).ret ≠ 0 := by
      rcases hret with h | h <;> rw [h] <;> decide
    rwa [hframe] at hret'
  have htyped : ∀ n ∈ block O l, n.fl.flType ≠ .unlck := fun n hn => by
    rcases hl.typed n (mem_block.1 hn).1 with ht | ht <;> rw [ht] <;> decide
  have hsame : (lockGroup O (block O l) free fl).Same (block O l) free :=
    Ending.same hl.unowned (lockItLoop_concluded (hl.block_sorted O) htyped (List.nodup_append.1 hnodup).1)
      (Scan.finish_ending O _ _) hne
  rw [hframe]
  refine ⟨?_, hsame.free, hsame.unowned, hsame.woken, hsame.panicked⟩
  show A ++ (lockGroup O (block O l) free fl).list ++ B = l
  rw [hsame.list]
  exact hfr.eq.symm

end

/-- Removing the middle of the only lock of a task when the table is full: `F_UNLCK` fails. -/
theorem lockIt_failure_split :
    ∃ o : Outcome (Fin 2), o.ret = -Errno.enolck ∧ o.list.length = 1 ∧ o.woken = [] := by
  let fl : FileLock (Fin 2) :=
    { flOwner := some 0, flWait := [1], flType := .wrlck, flWhence := 0, flStart := 0, flEnd := 99 }
  let req : FileLock (Fin 2) :=
    { flOwner := some 0, flWait := [], flType := .unlck, flWhence := 0, flStart := 10, flEnd := 19 }
  have hl : LockList [(⟨0, fl⟩ : Entry (Fin 2))] [] := by
    refine ⟨?_, ?_, ?_, ?_, ?_, ?_, ?_⟩
    · intro x y z hsub
      have := hsub.length_le
      simp at this
    · simp [fl]
    · simp
    · simp [fl]
    · decide
    · simp [fl]
    · simp
  have hret : (lockIt 0 [⟨0, fl⟩] [] req).ret = -Errno.enolck := by decide
  have howner : req.flOwner = some 0 := rfl
  have hsame := lockIt_failure hl howner (.inl hret)
  exact ⟨_, hret, congrArg List.length hsame.list, hsame.woken⟩

end LinuxEvocation.Locks
