import LinuxEvocation.Fs.Locks.Invariant

/-!
# What record locking is for

Where no call forms the sum that wraps (`noWrapStep`), the lists keep their order and
`lock_it` is a write to the map from bytes to lock types:

* `lockTable_representation` — in every state of such a run the lists satisfy the
  representation invariant.
* `lockIt_law` — from every such state, a successful call sets the type on the bytes of
  its range, and nothing else.

A lock to the end of the file, requested while the owner has one of that type that it
meets, breaks both: `lockTable_unsorted`, `lockIt_law_fails`.
-/

namespace LinuxEvocation.Locks

open Transition IntervalMap

variable {Task Inode : Type}

/-! ## Tidy lists -/

theorem Tidy.of_map {G : List (Entry Task)} (h : Tidy G) (f : Entry Task → Entry Task)
    (hf : ∀ n, (f n).fl.flType = n.fl.flType ∧ (f n).fl.flStart = n.fl.flStart ∧
      (f n).fl.flEnd = n.fl.flEnd) : Tidy (G.map f) := by
  refine ⟨?_, ?_, ?_⟩
  · intro n hn
    obtain ⟨m, hm, rfl⟩ := List.mem_map.1 hn
    obtain ⟨h1, h2, h3⟩ := h.proper m hm
    refine ⟨?_, ?_, ?_⟩ <;> simpa [(hf m).2.1, (hf m).2.2]
  · intro n hn
    obtain ⟨m, hm, rfl⟩ := List.mem_map.1 hn
    rw [(hf m).1]
    exact h.typed m hm
  · refine List.pairwise_map.2 (h.ordered.imp fun {x y} hxy => ?_)
    rw [ahead_iff] at hxy ⊢
    rw [(hf x).1, (hf x).2.2, (hf y).1, (hf y).2.1]
    exact hxy

theorem Tidy.once {G : List (Entry Task)} (h : Tidy G) (b : Int) :
    (G.filter fun x => decide (x.fl.Has b)).length ≤ 1 := by
  have hord := h.ordered.filter fun x => decide (x.fl.Has b)
  have hmem : ∀ x ∈ G.filter fun x => decide (x.fl.Has b), x.fl.Has b := fun x hx => by
    simpa using (List.mem_filter.1 hx).2
  match hl : G.filter fun x => decide (x.fl.Has b) with
  | [] => simp [hl]
  | [_] => simp [hl]
  | x :: y :: l =>
    rw [hl] at hord hmem
    have hxy := (ahead_iff.1 ((List.pairwise_cons.1 hord).1 y (by simp))).1
    obtain ⟨-, hx⟩ := hmem x (by simp)
    obtain ⟨hy, -⟩ := hmem y (by simp)
    omega

section

variable [DecidableEq Task]

theorem block_append (o : Task) (l m : List (Entry Task)) :
    block o (l ++ m) = block o l ++ block o m := List.filter_append ..

variable {o : Task} {l : List (Entry Task)}

theorem block_of_owner (h : ∀ n ∈ l, n.fl.flOwner = some o) :
    block o l = l := List.filter_eq_self.2 fun n hn => decide_eq_true (h n hn)

theorem block_of_ne (h : ∀ n ∈ l, n.fl.flOwner ≠ some o) :
    block o l = [] := List.filter_eq_nil_iff.2 fun n hn => by simpa using h n hn

/-- Another owner's block does not see a change of this owner's. -/
theorem block_within {t : Task} (ho : o ≠ t) {A G B : List (Entry Task)}
    (hG : ∀ n ∈ G, n.fl.flOwner = some t) :
    block o (A ++ G ++ B) = block o A ++ block o B := by
  have hGo : block o G = [] := block_of_ne fun n hn => by
    rw [hG n hn]
    exact fun h => ho (Option.some.inj h).symm
  rw [block_append, block_append, hGo, List.append_nil]

/-- The blocks of a list after a write to a queue. -/
theorem Tidy.modifyWait (h : Tidy (block o l)) (a : Slot) (g : List Task → List Task) :
    Tidy (block o (modifyAt a (fun fl => { fl with flWait := g fl.flWait }) l)) := by
  have heq : block o (modifyAt a (fun fl => { fl with flWait := g fl.flWait }) l) =
      modifyAt a (fun fl => { fl with flWait := g fl.flWait }) (block o l) := by
    unfold block modifyAt
    rw [List.filter_map]
    congr 1
    refine List.filter_congr fun n _ => ?_
    simp only [Function.comp_apply]
    split_ifs <;> rfl
  rw [heq]
  refine h.of_map _ fun n => ?_
  split_ifs <;> simp

variable [DecidableEq Inode]

/-- Every owner's records are tidy, on every inode. -/
def AllTidy (s : State Task Inode) : Prop := ∀ i o, Tidy (block o (s.iFlock i))

/-- The calls of `lock_it` in which the sum `caller->fl_end + 1` does not wrap. -/
def noWrapCall (s : State Task Inode) (t : Task) (i : Inode) (fl : FileLock Task) : Prop :=
  NoWrap fl (block t (s.iFlock i))

/-- The steps that make no other call. -/
def noWrapStep (s : State Task Inode) (e : Event Task Inode) : Prop :=
  ∀ s₀ t i fl, lockCall s e = some (s₀, t, i, fl) → noWrapCall s₀ t i fl

variable {s : State Task Inode}

/-- **Every small step keeps every block tidy.** -/
theorem Small.tidy {s' : State Task Inode} (h : Table s) (ht : AllTidy s)
    (hs : Small noWrapCall s s') : AllTidy s' := by
  cases hs with
  | idle => exact ht
  | signal t => exact ht
  | wokenUp t w =>
    intro i o
    exact (ht i o).modifyWait w.slot fun l => l.erase t
  | sleepOn t i n fl =>
    intro j o
    simp only [State.sleepOn, State.setFlock]
    split_ifs with hj
    · exact (ht i o).modifyWait n.addr fun l => l ++ [t]
    · exact ht j o
  | lock t i fl hreq hconf hok =>
    obtain ⟨A, B, hfr, heq, hsound, hnodup⟩ := h.lockIt_eq hreq i
    have hown : ∀ n ∈ block t (s.iFlock i), n.fl.flOwner = some t := fun n hn => (mem_block.1 hn).2
    intro j o
    by_cases hj : j = i
    · subst hj
      have hlist : (s.lock t j fl).2.iFlock j =
          A ++ (lockGroup t (block t (s.iFlock j)) s.free fl).list ++ B := by
        simp [State.lock, heq, Outcome.within]
      rw [hlist]
      by_cases ho : o = t
      · subst ho
        rw [block_append, block_append, block_of_ne hfr.left, block_of_ne hfr.right,
          block_of_owner hsound.own, List.nil_append, List.append_nil]
        exact lockGroup_tidy hreq.owner hreq.proper (ht j o) hok hown h.unowned hnodup
      · rw [block_within ho hsound.own, ← block_within ho hown, ← hfr.eq]
        exact ht j o
    · have hlist : (s.lock t i fl).2.iFlock j = s.iFlock j := s.setFlock_of_ne hj _
      rw [hlist]
      exact ht j o
  | remove t i =>
    obtain ⟨A, B, hfr, heq⟩ := h.remove_eq t i
    have hown : ∀ n ∈ block t (s.iFlock i), n.fl.flOwner = some t := fun n hn => (mem_block.1 hn).2
    rw [heq]
    intro j o
    show Tidy (block o (s.setFlock i (A ++ B) j))
    by_cases hj : j = i
    · subst hj
      rw [State.setFlock_self, block_append]
      by_cases ho : o = t
      · subst ho
        rw [block_of_ne hfr.left, block_of_ne hfr.right]
        exact ⟨by simp, by simp, by simp⟩
      · rw [← block_within ho hown, ← hfr.eq]
        exact ht j o
    · rw [s.setFlock_of_ne hj]
      exact ht j o

/-- In a run without a wrap every block is tidy. -/
theorem AllTidy.of_reach (h : Reach step noWrapStep fcntlInitLocks s) :
    Table s ∧ AllTidy s :=
  reach_invariant (R := noWrapCall) (I := AllTidy)
    (fun i o => ⟨by simp [fcntlInitLocks, block], by simp [fcntlInitLocks, block],
      by simp [fcntlInitLocks, block]⟩) (fun _ _ ht hinv hs => hs.tidy ht hinv) h

/-! ## The representation invariant -/

/-- What the lists of all inodes and the free list satisfy. -/
structure Representation (s : State Task Inode) : Prop where
  /-- The records of each owner are contiguous, ... -/
  contiguous : ∀ i, Contiguous (s.iFlock i)
  /-- ... each with a range that is not empty, ... -/
  proper : ∀ i, ∀ x ∈ s.iFlock i, x.fl.flStart ≤ x.fl.flEnd
  /-- ... sorted by start, disjoint, and of different types where they touch. -/
  ordered : ∀ i, (s.iFlock i).Pairwise fun x y => x.fl.flOwner = y.fl.flOwner →
    x.fl.flStart ≤ y.fl.flStart ∧ x.fl.flEnd < y.fl.flStart ∧
      (x.fl.flEnd + 1 = y.fl.flStart → x.fl.flType ≠ y.fl.flType)
  /-- Every table entry is on exactly one list, ... -/
  cover : ∀ a : Slot, a ∈ addrs s.free ∨ ∃ i, a ∈ addrs (s.iFlock i)
  apart : ∀ i j, i ≠ j → ∀ a ∈ addrs (s.iFlock i), a ∉ addrs (s.iFlock j)
  /-- ... once. -/
  once : ∀ i, (addrs (s.iFlock i) ++ addrs s.free).Nodup
  /-- `fl_owner` is `NULL` exactly on the free ones. -/
  owned : ∀ i, ∀ x ∈ s.iFlock i, x.fl.flOwner ≠ none
  unowned : ∀ x ∈ s.free, x.fl.flOwner = none

theorem ordered_of_tidy (hown : ∀ x ∈ l, x.fl.flOwner ≠ none)
    (h : ∀ o, Tidy (block o l)) : l.Pairwise fun x y => x.fl.flOwner = y.fl.flOwner → Ahead x y := by
  refine List.pairwise_iff_forall_sublist.2 fun {x y} hsub hxy => ?_
  obtain ⟨o, ho⟩ := Option.ne_none_iff_exists'.1 (hown x (hsub.subset (by simp)))
  have hfil := hsub.filter fun n => decide (n.fl.flOwner = some o)
  have hkeep : [x, y].filter (fun n => decide (n.fl.flOwner = some o)) = [x, y] := by
    simp [ho, ← hxy]
  rw [hkeep] at hfil
  exact List.pairwise_iff_forall_sublist.1 (h o).ordered hfil

/-- **The representation invariant** holds in every state of a run none of whose calls
wraps. -/
theorem lockTable_representation
    (h : Reach step noWrapStep fcntlInitLocks s) : Representation s := by
  obtain ⟨ht, htidy⟩ := AllTidy.of_reach h
  have hproper : ∀ i, ∀ x ∈ s.iFlock i, x.fl.flStart ≤ x.fl.flEnd := by
    intro i x hx
    obtain ⟨o, ho⟩ := Option.ne_none_iff_exists'.1 ((ht.lists i).owned x hx)
    exact ((htidy i o).proper x (mem_block.2 ⟨hx, ho⟩)).start_le_end
  refine ⟨fun i => (ht.lists i).contiguous, hproper, fun i => ?_, ht.cover, ht.apart, ht.nodup,
    fun i => (ht.lists i).owned, ht.unowned⟩
  refine List.Pairwise.imp_of_mem ?_ (ordered_of_tidy (ht.lists i).owned (htidy i))
  intro x y hx hy hahead hxy
  obtain ⟨h1, h2⟩ := ahead_iff.1 (hahead hxy)
  have hx := hproper i x hx
  refine ⟨by omega, h1, fun htouch heq => ?_⟩
  have := h2 heq
  omega

/-! ## The law -/

/-- An owner's lock type on a byte, read off the list. -/
def typeAt (o : Task) (l : List (Entry Task)) (b : Int) : Option LockType :=
  (l.find? fun x => decide (x.fl.flOwner = some o ∧ x.fl.Has b)).map fun x => x.fl.flType

/-- What a call that sets the lock `fl` for `t` does to a list. -/
structure Law (t : Task) (fl : FileLock Task) (l l' : List (Entry Task)) : Prop where
  /-- The type is set on the bytes of the range and stays what it was on the others, ... -/
  bytes : ∀ b, 0 ≤ b → b ≤ offsetMax → typeAt t l' b =
    if fl.Has b then (if fl.flType = .unlck then none else some fl.flType) else typeAt t l b
  /-- ... where no byte is covered by two records of the owner, ... -/
  once : ∀ b, 0 ≤ b → b ≤ offsetMax →
    (l'.filter fun x => decide (x.fl.flOwner = some t ∧ x.fl.Has b)).length ≤ 1
  /-- ... and the records of the other owners are what they were. -/
  others : (l'.filter fun x => decide (x.fl.flOwner ≠ some t)) =
    l.filter fun x => decide (x.fl.flOwner ≠ some t)

/-- The type on a byte is what the map of the block says. -/
theorem typeAt_eq_tagAt (o : Task) (l : List (Entry Task)) (b : Int) :
    typeAt o l b = tagAt (pieces (block o l)) b := by
  unfold typeAt tagAt pieces block
  rw [List.find?_map, List.find?_filter, Option.map_map]
  congr 1
  refine congrArg (fun p => l.find? p) (funext fun x => ?_)
  simp only [Function.comp_apply, Bool.decide_and, Bool.decide_eq_true]
  rfl

/-- **The law of `lock_it`.**  From every state of a run none of whose calls wraps, a
request that conflicts with nothing and does not wrap either sets, if it succeeds, the
type on its range and changes nothing else. -/
theorem lockIt_law (h : Reach step noWrapStep fcntlInitLocks s) {t : Task}
    {fd : Nat} {filp : Option (File Inode)} {verify : Int} {flock : Flock} {i : Inode}
    {fl : FileLock Task} (hargs : fcntlSetlkArgs t fd filp verify flock = .ok (i, fl))
    (_hconf : ∀ n ∈ s.iFlock i, conflict fl n.fl = false) (hw : NoWrap fl (block t (s.iFlock i)))
    (hret : (lockIt t (s.iFlock i) s.free fl).ret = 0) :
    Law t fl (s.iFlock i) (lockIt t (s.iFlock i) s.free fl).list := by
  obtain ⟨ht, htidy⟩ := AllTidy.of_reach h
  have hreq := fcntlSetlkArgs_request hargs
  obtain ⟨A, B, hfr, heq, hsound, hnodup⟩ := ht.lockIt_eq hreq i
  have hown : ∀ n ∈ block t (s.iFlock i), n.fl.flOwner = some t := fun n hn => (mem_block.1 hn).2
  have hnormal := (htidy i t).normal
  have hle := hreq.proper.start_le_end
  have hblock : block t (lockIt t (s.iFlock i) s.free fl).list =
      (lockGroup t (block t (s.iFlock i)) s.free fl).list := by
    rw [heq]
    simp only [Outcome.within]
    rw [block_append, block_append, block_of_ne hfr.left, block_of_ne hfr.right,
      block_of_owner hsound.own, List.nil_append, List.append_nil]
  refine ⟨fun b _ _ => ?_, fun b _ _ => ?_, ?_⟩
  · rw [typeAt_eq_tagAt, typeAt_eq_tagAt, hblock]
    have hret' : (lockGroup t (block t (s.iFlock i)) s.free fl).ret = 0 := by
      rw [heq] at hret
      exact hret
    cases lockGroup_result hreq.owner hreq.proper (htidy i t) hw hown ht.unowned hnodup with
    | failed hne => exact absurd hret' hne
    | done _ hd =>
      rcases hd.map with ⟨hu, hm⟩ | ⟨hu, S, E, hst, hm⟩
      · rw [hm, tagAt_erase hle hnormal, if_pos hu]
        rfl
      · rw [hm, tagAt_place hle hnormal hst, if_neg hu]
        rfl
  · have htidy' := lockGroup_tidy hreq.owner hreq.proper (htidy i t) hw hown ht.unowned hnodup
    have := htidy'.once b
    rw [← hblock, block, List.filter_filter] at this
    simpa only [Bool.decide_and, Bool.and_comm] using this
  · have hG : ∀ G : List (Entry Task), (∀ n ∈ G, n.fl.flOwner = some t) →
        (A ++ G ++ B).filter (fun x => decide (x.fl.flOwner ≠ some t)) = A ++ B := by
      intro G hG
      rw [List.filter_append, List.filter_append,
        List.filter_eq_self.2 fun n hn => decide_eq_true (hfr.left n hn),
        List.filter_eq_nil_iff.2 fun n hn => by simp [hG n hn],
        List.filter_eq_self.2 fun n hn => decide_eq_true (hfr.right n hn), List.append_nil]
    rw [heq]
    simp only [Outcome.within]
    rw [hG _ hsound.own]
    nth_rewrite 1 [hfr.eq]
    exact (hG _ hown).symm

end

/-! ### A run, and the sum that wraps -/

/-- Whether a step makes no call that wraps, by computation. -/
def noWrapStepB (s : State (Fin 2) Unit) (e : Event (Fin 2) Unit) : Bool :=
  match lockCall s e with
  | none => true
  | some (s₀, t, i, fl) => decide (NoWrap fl (block t (s₀.iFlock i)))

theorem noWrapStep_of_noWrapStepB (s : State (Fin 2) Unit) (e : Event (Fin 2) Unit)
    (h : noWrapStepB s e = true) : noWrapStep s e := by
  intro s₀ t i fl hcall
  simp only [noWrapStepB, hcall] at h
  show NoWrap fl (block t (s₀.iFlock i))
  exact of_decide_eq_true h

/-- The state after some calls none of which wraps. -/
theorem reach_noWrap_after {es : List (Event (Fin 2) Unit)} {s : State (Fin 2) Unit}
    (h : execOkFrom step noWrapStepB fcntlInitLocks es = some s) :
    Reach step noWrapStep fcntlInitLocks s :=
  Reach.of_execOkFrom noWrapStep_of_noWrapStepB .init h

/-- A write lock over the middle of a read lock breaks it in two. -/
theorem lockTable_representation_split :
    let es := [setlkEvent 0 fSetlk 0 0 100, setlkEvent 0 fSetlk 1 40 10]
    ∃ s, execOkFrom step noWrapStepB fcntlInitLocks es = some s ∧ (s.iFlock ()).length = 3 ∧
      Representation s := by
  intro es
  have hsome : (execOkFrom step noWrapStepB fcntlInitLocks es).isSome = true := by decide +kernel
  obtain ⟨s, hs⟩ := Option.isSome_iff_exists.1 hsome
  have hlen : ((execOkFrom step noWrapStepB fcntlInitLocks es).map
      fun s => (s.iFlock ()).length) = some 3 := by decide +kernel
  rw [hs] at hlen
  exact ⟨s, hs, by simpa using hlen, lockTable_representation (reach_noWrap_after hs)⟩

/-- The same write lock as a request of its own. -/
theorem lockIt_law_split :
    let es := [setlkEvent 0 fSetlk 0 0 100]
    let fl : FileLock (Fin 2) := ⟨some 0, [], .wrlck, 0, 40, 49⟩
    ∃ s, execOkFrom step noWrapStepB fcntlInitLocks es = some s ∧
      Law 0 fl (s.iFlock ()) (lockIt 0 (s.iFlock ()) s.free fl).list := by
  intro es fl
  have hsome : (execOkFrom step noWrapStepB fcntlInitLocks es).isSome = true := by decide +kernel
  obtain ⟨s, hs⟩ := Option.isSome_iff_exists.1 hsome
  have hconf : ((execOkFrom step noWrapStepB fcntlInitLocks es).map fun s =>
      decide (∀ n ∈ s.iFlock (), conflict fl n.fl = false)) = some true := by decide +kernel
  have hwrap : ((execOkFrom step noWrapStepB fcntlInitLocks es).map fun s =>
      decide (NoWrap fl (block 0 (s.iFlock ())))) = some true := by decide +kernel
  have hret : ((execOkFrom step noWrapStepB fcntlInitLocks es).map fun s =>
      (lockIt 0 (s.iFlock ()) s.free fl).ret) = some 0 := by decide +kernel
  have hargs : fcntlSetlkArgs 0 0 (some openFile) 0 ⟨1, 0, 40, 10⟩ = .ok ((), fl) := by
    decide +kernel
  rw [hs] at hconf hwrap hret
  exact ⟨s, hs, lockIt_law (reach_noWrap_after hs) hargs (by simpa using hconf)
    (by simpa using hwrap) (by simpa using hret)⟩

/-- A read lock on the whole file, requested by a task that read-locks bytes 10 to 20,
leaves both records on the list, the longer one first. -/
theorem lockTable_unsorted :
    ∃ s : State (Fin 2) Unit, Reach step anyStep fcntlInitLocks s ∧ ¬ Representation s := by
  let es := [setlkEvent 0 fSetlk 0 10 11, setlkEvent 0 fSetlk 0 0 0]
  have hlist : (after es).iFlock () =
      [⟨1, ⟨some 0, [], .rdlck, 0, 0, offsetMax⟩⟩, ⟨0, ⟨some 0, [], .rdlck, 0, 10, 20⟩⟩] := by
    decide +kernel
  refine ⟨after es, reach_after (by decide +kernel), fun h => ?_⟩
  have hord := h.ordered ()
  rw [hlist] at hord
  have hlt : offsetMax < 10 :=
    ((List.pairwise_cons.1 hord).1 _ (List.mem_singleton.2 rfl) rfl).2.1
  exact absurd hlt (by decide)

/-- The request that does it: byte 15 is then covered twice. -/
theorem lockIt_law_fails :
    let s := after [setlkEvent 0 fSetlk 0 10 11]
    let fl : FileLock (Fin 2) := ⟨some 0, [], .rdlck, 0, 0, offsetMax⟩
    Reach step anyStep fcntlInitLocks s ∧
      fcntlSetlkArgs 0 0 (some openFile) 0 ⟨0, 0, 0, 0⟩ = .ok ((), fl) ∧
      (∀ n ∈ s.iFlock (), conflict fl n.fl = false) ∧
      (lockIt 0 (s.iFlock ()) s.free fl).ret = 0 ∧
      ¬ Law 0 fl (s.iFlock ()) (lockIt 0 (s.iFlock ()) s.free fl).list := by
  intro s fl
  refine ⟨reach_after (by decide +kernel), by decide +kernel, by decide +kernel,
    by decide +kernel, fun h => ?_⟩
  have hlist : (lockIt 0 (s.iFlock ()) s.free fl).list =
      [⟨1, ⟨some 0, [], .rdlck, 0, 0, offsetMax⟩⟩, ⟨0, ⟨some 0, [], .rdlck, 0, 10, 20⟩⟩] := by
    decide +kernel
  have hone := h.once 15 (by decide) (by decide)
  rw [hlist] at hone
  revert hone
  decide

end LinuxEvocation.Locks
