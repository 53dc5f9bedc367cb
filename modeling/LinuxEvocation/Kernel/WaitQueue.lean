import LinuxEvocation.Lib.Circular
import LinuxEvocation.Lib.Iteration
import LinuxEvocation.Lib.Transition

/-!
# Wait queues

The entries of a wait queue are on the stacks of the tasks that sleep.  They form a circle of single
links, and the queue points to one of them, or is NULL.  To take an entry out, the one in front of it
is found by going once around.

* `addWaitQueue`, `removeWaitQueue` — the code; `searchTurn` — a turn of its loop.
* `step` — a machine that keeps a record of who has been added and not been removed.
* `Holds` — a queue and its waiters; `holds_add`, `holds_remove`.
* `wait_queues_exact` — every queue holds exactly its waiters, in every run.
-/

namespace LinuxEvocation.WaitQueue

open Function (update update_of_ne update_self)
open Iteration (Halts iterate)
open LinkedList (Loop Seg)
open Transition (Reach)

variable {κ : Type*} [DecidableEq κ]

/-! ## The code -/

/-- What the queues point to, and the `next` fields of the entries.  NULL is 0. -/
structure Queues (κ : Type*) where
  head : κ → Nat
  next : Nat → Nat

/-- `add_wait_queue(p,wait)`. -/
def addWaitQueue (p : κ) (wait : Nat) (s : Queues κ) : Queues κ :=
  if s.head p = 0 then
    { head := update s.head p wait
      next := update s.next wait wait }
  else
    { s with next := update (update s.next wait (s.next (s.head p))) (s.head p) wait }

/-- `while (tmp->next != wait) tmp = tmp->next`. -/
def searchTurn (next : Nat → Nat) (wait tmp : Nat) : Nat ⊕ Nat :=
  if next tmp ≠ wait then .inl (next tmp) else .inr tmp

/-- `remove_wait_queue(p,wait)`, if `fuel` turns of the search are enough. -/
def removeWaitQueue (p : κ) (wait fuel : Nat) (s : Queues κ) : Option (Queues κ) :=
  if s.head p = wait ∧ s.next wait = wait then
    some { head := update s.head p 0
           next := update s.next wait 0 }
  else
    (iterate (searchTurn s.next wait) fuel wait).map fun tmp =>
      { head := if s.head p = wait then update s.head p (s.next wait) else s.head
        next := update (update s.next tmp (s.next wait)) wait 0 }

/-! ## Runs -/

inductive Event (κ : Type*) where
  | add (p : κ) (wait : Nat)
  | remove (p : κ) (wait fuel : Nat)

/-- The queues, and the queue that each entry was added to and not removed from. -/
structure State (κ : Type*) where
  queues : Queues κ
  on : Nat → Option κ

/-- An entry is added if it is on no queue, and removed from the queue it is on. -/
def step (s : State κ) : Event κ → Option (State κ)
  | .add p wait =>
    if wait ≠ 0 ∧ s.on wait = none then
      some ⟨addWaitQueue p wait s.queues, update s.on wait (some p)⟩
    else none
  | .remove p wait fuel =>
    if s.on wait = some p then
      (removeWaitQueue p wait fuel s.queues).map fun q => ⟨q, update s.on wait none⟩
    else none

/-- All queues are NULL; the entries may have anything in them. -/
def State.init (next : Nat → Nat) : State κ := ⟨⟨fun _ => 0, next⟩, fun _ => none⟩

/-! ## A queue and its waiters -/

/-- The queue is NULL and nobody waits, or it points into the circle of those who wait. -/
structure Holds (s : Queues κ) (p : κ) (l : List Nat) : Prop where
  nodup : l.Nodup
  ne_null : 0 ∉ l
  circle : l = [] ∧ s.head p = 0 ∨ Loop s.next l ∧ s.head p ∈ l

/-- The other queues are what they were, and so are the entries that are not in `l`. -/
structure Elsewhere (p : κ) (l : List Nat) (s s' : Queues κ) : Prop where
  head : ∀ q, q ≠ p → s'.head q = s.head q
  next : ∀ x, x ∉ l → s'.next x = s.next x

variable {s s' : Queues κ} {p q : κ} {l t : List Nat} {next : Nat → Nat} {wait a fuel : Nat}

omit [DecidableEq κ] in
/-- The stores are to entries of other queues. -/
theorem Holds.congr (h : Holds s p l) (hhead : s'.head p = s.head p)
    (hnext : ∀ x ∈ l, s'.next x = s.next x) : Holds s' p l := by
  refine ⟨h.nodup, h.ne_null, ?_⟩
  rw [hhead]
  exact h.circle.imp_right fun hc => ⟨hc.1.congr hnext, hc.2⟩

omit [DecidableEq κ] in
theorem Holds.head_eq_zero (h : Holds s p l) : s.head p = 0 ↔ l = [] := by
  rcases h.circle with ⟨hl, hhead⟩ | ⟨hloop, hmem⟩
  · exact iff_of_true hhead hl
  · exact iff_of_false (fun hzero => h.ne_null (hzero ▸ hmem)) hloop.1

omit [DecidableEq κ] in
/-- The circle from one of the waiters on. -/
theorem Holds.around (h : Holds s p l) (hwait : wait ∈ l) :
    ∃ t, Seg s.next (s.next wait) t wait ∧ (wait :: t).Perm l := by
  rcases h.circle with ⟨rfl, -⟩ | ⟨hloop, -⟩
  · cases hwait
  · obtain ⟨t, ht, hperm⟩ := hloop.2 wait hwait
    exact ⟨t, ht.2, hperm⟩

theorem search_next (h : next a ≠ wait) : searchTurn next wait a = .inl (next a) := if_pos h

theorem search_done (h : next a = wait) : searchTurn next wait a = .inr a := if_neg (not_not.mpr h)

theorem first_mem {z : Nat} (h : Seg next a (t ++ [z]) wait) : a ∈ t ++ [z] := by
  cases t with
  | nil => exact h.head_eq ▸ List.mem_singleton_self z
  | cons x t => exact h.head_eq ▸ List.mem_cons_self

/-- The search goes along the circle to its last entry. -/
theorem search_around {z : Nat} (h : Seg next a (t ++ [z]) wait) (hwait : wait ∉ t ++ [z]) :
    iterate (searchTurn next wait) (t.length + 1) a = some z := by
  induction t generalizing a with
  | nil =>
    obtain ⟨rfl, hlast⟩ := h
    exact Iteration.iterate_of_done (search_done hlast) 0
  | cons x t ih =>
    obtain ⟨rfl, hrest⟩ := h
    have hne : next a ≠ wait := fun heq =>
      hwait (List.mem_cons_of_mem a (heq ▸ first_mem hrest))
    rw [List.length_cons, Iteration.iterate_of_next (search_next hne)]
    exact ih hrest fun hmem => hwait (List.mem_cons_of_mem a hmem)

omit [DecidableEq κ] in
/-- **The search for the entry in front comes to an end.** -/
theorem Holds.search_halts (h : Holds s p l) (hwait : wait ∈ l) :
    Halts (searchTurn s.next wait) wait := by
  obtain ⟨t, ht, hperm⟩ := h.around hwait
  have hnodup := hperm.nodup_iff.mpr h.nodup
  rcases t.eq_nil_or_concat with rfl | ⟨t, z, rfl⟩
  · exact .done (search_done ht)
  · rw [List.concat_eq_append] at ht hnodup
    have hnot := (List.nodup_cons.mp hnodup).1
    have hfirst : s.next wait ≠ wait := fun heq => hnot (heq ▸ first_mem ht)
    exact .next (search_next hfirst) (Iteration.halts_iff.mpr ⟨_, z, search_around ht hnot⟩)

/-! ## The calls -/

/-- **An entry is added.** -/
theorem holds_add (h : Holds s p l) (hwait : wait ≠ 0) (hnew : wait ∉ l) :
    ∃ l', Holds (addWaitQueue p wait s) p l' ∧ l'.Perm (wait :: l) ∧
      Elsewhere p (wait :: l) s (addWaitQueue p wait s) := by
  unfold addWaitQueue
  by_cases hhead : s.head p = 0
  · obtain rfl := h.head_eq_zero.mp hhead
    rw [if_pos hhead]
    refine ⟨[wait], ⟨List.nodup_singleton wait, by simpa using hwait.symm, .inr ⟨?_, ?_⟩⟩, .refl _,
      fun q hq => update_of_ne hq _ _, fun x hx => update_of_ne (by simpa using hx) _ _⟩
    · exact .of_seg (p := wait) ⟨rfl, update_self _ _ _⟩ (List.cons_ne_nil _ _)
    · show update s.head p wait p ∈ [wait]
      rw [update_self]
      exact List.mem_singleton_self wait
  · rw [if_neg hhead]
    have hmem : s.head p ∈ l := by
      rcases h.circle with ⟨-, hzero⟩ | ⟨-, hmem⟩
      · exact absurd hzero hhead
      · exact hmem
    obtain ⟨t, ht, hperm⟩ := h.around hmem
    have hnodup := List.nodup_cons.mp (hperm.nodup_iff.mpr h.nodup)
    have hnewt : wait ∉ s.head p :: t := fun hin => hnew (hperm.mem_iff.mp hin)
    have hne : wait ≠ s.head p := fun heq => hnewt (heq ▸ List.mem_cons_self)
    have hperm' : (s.head p :: wait :: t).Perm (wait :: l) :=
      (List.Perm.swap wait (s.head p) t).trans (hperm.cons wait)
    refine ⟨s.head p :: wait :: t, ⟨?_, ?_, .inr ⟨?_, List.mem_cons_self⟩⟩, hperm', fun q _ => rfl,
      fun x hx => ?_⟩
    · exact hperm'.nodup_iff.mpr (List.nodup_cons.mpr ⟨hnew, h.nodup⟩)
    · rw [hperm'.mem_iff, List.mem_cons]
      exact not_or.mpr ⟨hwait.symm, h.ne_null⟩
    · -- the new entry comes behind the head
      refine .of_seg (p := s.head p) ⟨rfl, update_self _ _ _, ?_⟩ (List.cons_ne_nil _ _)
      show Seg (update (update s.next wait _) (s.head p) wait)
        (update (update s.next wait (s.next (s.head p))) (s.head p) wait wait) t (s.head p)
      rw [update_of_ne hne, update_self]
      refine ht.congr fun x hx => ?_
      rw [update_of_ne (ne_of_mem_of_not_mem hx hnodup.1),
        update_of_ne (ne_of_mem_of_not_mem (List.mem_cons_of_mem _ hx) hnewt)]
    · rw [List.mem_cons, not_or] at hx
      exact (update_of_ne (ne_of_mem_of_not_mem hmem hx.2).symm _ _).trans
        (update_of_ne hx.1 _ _)

/-- **An entry is removed.** -/
theorem holds_remove (h : Holds s p l) (hwait : wait ∈ l)
    (hs : removeWaitQueue p wait fuel s = some s') :
    ∃ l', Holds s' p l' ∧ (wait :: l').Perm l ∧ Elsewhere p l s s' := by
  obtain ⟨t, ht, hperm⟩ := h.around hwait
  have hnodup := List.nodup_cons.mp (hperm.nodup_iff.mpr h.nodup)
  have hhead : s.head p ∈ wait :: t := by
    rcases h.circle with ⟨rfl, -⟩ | ⟨-, hmem⟩
    · cases hwait
    · exact hperm.mem_iff.mpr hmem
  unfold removeWaitQueue at hs
  rcases t.eq_nil_or_concat with rfl | ⟨t, z, rfl⟩
  · -- it is the only one
    rw [if_pos ⟨List.mem_singleton.mp hhead, ht⟩, Option.some.injEq] at hs
    subst hs
    refine ⟨[], ⟨List.nodup_nil, List.not_mem_nil, .inl ⟨rfl, update_self _ _ _⟩⟩, hperm,
      fun q hq => update_of_ne hq _ _, fun x hx => ?_⟩
    exact update_of_ne (ne_of_mem_of_not_mem hwait hx).symm _ _
  · rw [List.concat_eq_append] at ht hnodup hhead hperm
    have hnextmem := first_mem ht
    have hnext : s.next wait ≠ wait := ne_of_mem_of_not_mem hnextmem hnodup.1
    rw [if_neg fun hc => hnext hc.2] at hs
    obtain ⟨tmp, htmp, rfl⟩ := Option.map_eq_some_iff.mp hs
    have hlast : tmp = z :=
      Iteration.iterate_unique htmp
        ((Iteration.iterate_of_next (search_next hnext) _).trans (search_around ht hnodup.1))
    subst hlast
    have hzero : (0 : Nat) ∉ t ++ [tmp] := fun hin =>
      h.ne_null (hperm.mem_iff.mp (List.mem_cons_of_mem wait hin))
    refine ⟨t ++ [tmp], ⟨hnodup.2, hzero, .inr ⟨?_, ?_⟩⟩, hperm, fun q hq => ?_, fun x hx => ?_⟩
    · -- the last entry now leads to the one behind `wait`
      refine .of_seg (p := s.next wait) ?_ (by simp)
      obtain ⟨m, hfront, hback⟩ := Seg.append.mp ht
      obtain rfl := hback.head_eq
      have hne : ∀ x ∈ t ++ [m], x ≠ wait := fun x hx => ne_of_mem_of_not_mem hx hnodup.1
      refine Seg.append.mpr ⟨m, hfront.congr fun x hx => ?_, rfl, ?_⟩
      · show update (update s.next m (s.next wait)) wait 0 x = s.next x
        rw [update_of_ne (hne x (List.mem_append_left _ hx)), update_of_ne]
        rintro rfl
        exact (List.nodup_append.mp hnodup.2).2.2 x hx x (List.mem_singleton_self x) rfl
      · show update (update s.next m (s.next wait)) wait 0 m = s.next wait
        rw [update_of_ne (hne m (by simp)), update_self]
    · show (if s.head p = wait then update s.head p (s.next wait) else s.head) p ∈ t ++ [tmp]
      by_cases heq : s.head p = wait
      · rw [if_pos heq, update_self]
        exact hnextmem
      · rw [if_neg heq]
        exact List.mem_of_ne_of_mem heq hhead
    · show (if s.head p = wait then update s.head p (s.next wait) else s.head) q = s.head q
      split
      · exact update_of_ne hq _ _
      · rfl
    · have htmp : tmp ∈ l := hperm.mem_iff.mp (List.mem_cons_of_mem wait (by simp))
      exact (update_of_ne (ne_of_mem_of_not_mem hwait hx).symm _ _).trans
        (update_of_ne (ne_of_mem_of_not_mem htmp hx).symm _ _)

/-! ## All queues -/

/-- Every queue holds those who were added to it and not removed. -/
def Exact (s : State κ) : Prop := ∀ p, ∃ l, Holds s.queues p l ∧ ∀ w, w ∈ l ↔ s.on w = some p

/-- A call for one queue, with an entry that is on no other. -/
theorem Exact.of_one {s : State κ} (h : Exact s) {queues : Queues κ} {o : Option κ} {l' : List Nat}
    (hp : Holds queues p l') (hl' : ∀ w, w ∈ l' ↔ update s.on wait o w = some p)
    (helse : Elsewhere p l s.queues queues)
    (hl : ∀ x ∈ l, ∀ q, q ≠ p → s.on x ≠ some q) (hwait : wait ∈ l) (ho : ∀ q, q ≠ p → o ≠ some q) :
    Exact ⟨queues, update s.on wait o⟩ := by
  intro q
  by_cases hq : q = p
  · subst hq
    exact ⟨l', hp, hl'⟩
  · obtain ⟨m, hm, hon⟩ := h q
    have hout : ∀ x ∈ m, x ∉ l := fun x hx hin => hl x hin q hq ((hon x).mp hx)
    refine ⟨m, hm.congr (helse.head q hq) fun x hx => helse.next x (hout x hx), fun w => ?_⟩
    by_cases hw : w = wait
    · subst hw
      refine iff_of_false (fun hmem => hout w hmem hwait) ?_
      show update s.on w o w ≠ some q
      rw [update_self]
      exact ho q hq
    · show w ∈ m ↔ update s.on wait o w = some q
      rw [update_of_ne hw]
      exact hon w

/-- **Every call keeps the queues.** -/
theorem Exact.step {s s' : State κ} (h : Exact s) {e : Event κ}
    (hs : WaitQueue.step s e = some s') : Exact s' := by
  cases e with
  | add p wait =>
    simp only [WaitQueue.step, Option.ite_none_right_eq_some, Option.some.injEq] at hs
    obtain ⟨⟨hwait, hnew⟩, rfl⟩ := hs
    obtain ⟨l, hl, hon⟩ := h p
    have hnot : wait ∉ l := by
      rw [hon, hnew]
      exact fun heq => nomatch heq
    obtain ⟨l', hp, hperm, helse⟩ := holds_add hl hwait hnot
    refine h.of_one hp (fun w => ?_) helse (fun x hx q hq => ?_) List.mem_cons_self fun q hq => ?_
    · rw [hperm.mem_iff, List.mem_cons, hon]
      by_cases hw : w = wait
      · simp [hw]
      · simp [hw]
    · rcases List.mem_cons.mp hx with rfl | hx
      · simp [hnew]
      · simpa [(hon x).mp hx] using hq.symm
    · simpa using hq.symm
  | remove p wait fuel =>
    simp only [WaitQueue.step, Option.ite_none_right_eq_some] at hs
    obtain ⟨hw, hs⟩ := hs
    obtain ⟨queues, hq, rfl⟩ := Option.map_eq_some_iff.mp hs
    obtain ⟨l, hl, hon⟩ := h p
    have hwait : wait ∈ l := (hon wait).mpr hw
    obtain ⟨l', hp, hperm, helse⟩ := holds_remove hl hwait hq
    have hnot : wait ∉ l' := (List.nodup_cons.mp (hperm.nodup_iff.mpr hl.nodup)).1
    refine h.of_one hp (fun w => ?_) helse (fun x hx q hq => ?_) hwait fun q _ => by simp
    · by_cases hw : w = wait
      · subst hw
        simpa using hnot
      · rw [update_of_ne hw, ← hon, ← hperm.mem_iff, List.mem_cons, or_iff_right hw]
    · simpa [(hon x).mp hx] using hq.symm

/-- **Every wait queue holds exactly those who were added and not removed**, in every run, and the
search of `remove_wait_queue` ends for each of them. -/
theorem wait_queues_exact {next : Nat → Nat} {s : State κ}
    (h : Reach step Transition.anyStep (State.init next) s) (p : κ) :
    ∃ l : List Nat, l.Nodup ∧ (∀ w, w ∈ l ↔ s.on w = some p) ∧ (s.queues.head p = 0 ↔ l = []) ∧
      (s.queues.head p ≠ 0 → s.queues.head p ∈ l ∧ Loop s.queues.next l) ∧
      ∀ w ∈ l, Halts (searchTurn s.queues.next w) w := by
  have hexact : Exact s := by
    refine h.invariant (fun p => ⟨[], ⟨List.nodup_nil, List.not_mem_nil, .inl ⟨rfl, rfl⟩⟩, ?_⟩)
      fun s e s' hs _ he => hs.step he
    simp [State.init]
  obtain ⟨l, hl, hon⟩ := hexact p
  refine ⟨l, hl.nodup, hon, hl.head_eq_zero, fun hne => ?_, fun w hw => hl.search_halts hw⟩
  rcases hl.circle with ⟨-, hzero⟩ | ⟨hloop, hmem⟩
  · exact absurd hzero hne
  · exact ⟨hmem, hloop⟩

/-- Three tasks wait, and the first one goes. -/
def threeWaiters : List (Event Unit) := [.add () 1, .add () 2, .add () 3, .remove () 1 3]

theorem wait_queues_exact_three :
    ∃ s : State Unit, Transition.execFrom step (State.init fun _ => 0) threeWaiters = some s ∧
      ∃ l : List Nat, l.Nodup ∧ (∀ w, w ∈ l ↔ s.on w = some ()) ∧ (s.queues.head () = 0 ↔ l = []) ∧
        (s.queues.head () ≠ 0 → s.queues.head () ∈ l ∧ Loop s.queues.next l) ∧
        ∀ w ∈ l, Halts (searchTurn s.queues.next w) w := by
  obtain ⟨s, hs⟩ : ∃ s : State Unit,
      Transition.execFrom step (State.init fun _ => 0) threeWaiters = some s := ⟨_, rfl⟩
  exact ⟨s, hs, wait_queues_exact (.of_execFrom .init hs) ()⟩

end LinuxEvocation.WaitQueue
