import LinuxEvocation.Kernel.Block.Basic
import LinuxEvocation.Lib.Transition
import LinuxEvocation.Lib.TwoRuns

/-!
# The order of the requests

`add_request` puts a request where it fits on the way of the head over the disk.  The request that
the driver works on stays in front; what is behind it are the requests that the head comes to on its
way up, and then those that it comes to once it has begun again at the bottom.

* `Key.rank`, `inOrder_iff` — `IN_ORDER` is a linear order of the keys.
* `Event`, `step` — requests are added and completed, the queue is plugged and unplugged.
* `Ordered` — the two runs.
* `elevator_order` — what holds of every run.
-/

namespace LinuxEvocation.Block

open TwoRuns Transition

/-! ## `IN_ORDER` -/

/-- The parts of a key in the order in which they are compared. -/
def Key.rank (k : Key) : Bool ×ₗ ℤ ×ₗ ℕ := toLex (k.cmd, toLex (k.dev, k.sector))

theorem Key.rank_injective : Function.Injective Key.rank := by
  rintro ⟨c, d, s⟩ ⟨c', d', s'⟩ h
  simpa [Key.rank, Prod.ext_iff] using h

theorem inOrder_iff (a b : Key) : inOrder a b = true ↔ a.rank < b.rank := by
  obtain ⟨c, d, s⟩ := a
  obtain ⟨c', d', s'⟩ := b
  cases c <;> cases c' <;> simp [inOrder, Key.rank, Prod.Lex.toLex_lt_toLex]

theorem insertAfter_eq (tmp : Key) (req : Request) (rs : List Request) :
    insertAfter tmp req rs = insertBehind (fun r => r.key.rank) tmp.rank req rs := by
  induction rs generalizing tmp with
  | nil => rfl
  | cons r rs ih =>
    rw [insertAfter, insertBehind, ih]
    simp only [Bool.and_eq_true, Bool.or_eq_true, Bool.not_eq_true', ← inOrder_iff,
      Bool.not_eq_true]

/-! ## The machine -/

namespace Elevator

inductive Event where
  | add (req : Request)
  /-- The driver is done with the request at the head. -/
  | complete
  /-- The fields of the plug are what `ll_rw_block` finds on its stack, but for `dev`. -/
  | plug (t : Nat) (cmd : Bool) (sector : Nat)
  | unplug
  deriving DecidableEq

/-- The queue of a device, and the requests that have been added and completed so far. -/
structure State where
  queue : Queue
  added : List Request
  completed : List Request

def start : State := ⟨⟨none, []⟩, [], []⟩

def step (s : State) : Event → Option State
  | .add req => some ⟨addRequest s.queue req, req :: s.added, s.completed⟩
  | .complete =>
    match s.queue.plug, s.queue.reqs with
    | none, r :: rs => some ⟨{ s.queue with reqs := rs }, s.added, r :: s.completed⟩
    | _, _ => none
  | .plug t cmd sector =>
    if s.queue.idle then some { s with queue := { s.queue with plug := some (t, ⟨cmd, -1, sector⟩) } }
    else none
  | .unplug =>
    if s.queue.plug.isSome then some { s with queue := { s.queue with plug := none } } else none

/-- No two requests have the same `cmd`, `dev` and `sector`. -/
def Distinct (s : State) (e : Event) : Prop :=
  ∀ req, e = .add req → req.key ∉ s.added.map Request.key

def distinctb (s : State) : Event → Bool
  | .add req => decide (req.key ∉ s.added.map Request.key)
  | _ => true

theorem distinctb_sound (s : State) (e : Event) (h : distinctb s e = true) : Distinct s e := by
  rintro req rfl
  exact of_decide_eq_true h

/-- The request that the driver works on. -/
def inProgress (q : Queue) : Option Request := if q.plug.isSome then none else q.reqs.head?

/-- The key at the head of the queue, and the requests behind it. -/
def fromHead (q : Queue) : Option (Key × List Request) :=
  match q.plug, q.reqs with
  | some (_, k), rs => some (k, rs)
  | none, r :: rs => some (r.key, rs)
  | none, [] => none

/-- Behind the head there are at most two runs, the first of which goes on from the head. -/
def Ordered (q : Queue) : Prop :=
  ∀ k rs, fromHead q = some (k, rs) → ∃ a b, rs = a ++ b ∧
    (k :: a.map Request.key).Pairwise (fun k k' => inOrder k k' = true) ∧
    (b.map Request.key).Pairwise (fun k k' => inOrder k k' = true)

/-! ## What a run keeps -/

/-- The order of the queue by ranks, and what has become of the requests. -/
structure Kept (s : State) : Prop where
  perm : s.added.Perm (s.completed ++ s.queue.reqs)
  runs : ∀ k rs, fromHead s.queue = some (k, rs) → TwoRuns (fun r => r.key.rank) k.rank rs
  plug_dev : ∀ t k, s.queue.plug = some (t, k) → k.dev = -1

theorem TwoRuns.ordered {k : Key} {rs : List Request}
    (h : TwoRuns (fun r => r.key.rank) k.rank rs) : ∃ a b, rs = a ++ b ∧
      (k :: a.map Request.key).Pairwise (fun k k' => inOrder k k' = true) ∧
      (b.map Request.key).Pairwise (fun k k' => inOrder k k' = true) := by
  have hrank (l : List Key) (h : (l.map Key.rank).Pairwise (· < ·)) :
      l.Pairwise (fun k k' => inOrder k k' = true) := by
    simp only [inOrder_iff]
    exact List.pairwise_map.mp h
  obtain ⟨a, b, hab, ha, hb⟩ := h
  refine ⟨a, b, hab, hrank _ ?_, hrank _ ?_⟩
  · rw [List.map_cons, List.map_map]
    exact ha
  · rw [List.map_map]
    exact hb

theorem kept_start : Kept start where
  perm := List.Perm.refl _
  runs := nofun
  plug_dev := nofun

/-- The requests of a queue after another one has been added. -/
theorem addRequest_perm (q : Queue) (req : Request) :
    (addRequest q req).reqs.Perm (req :: q.reqs) := by
  obtain ⟨_ | ⟨t, k⟩, _ | ⟨r, rs⟩⟩ := q
  · exact List.Perm.refl _
  · simp only [addRequest, insertAfter_eq]
    exact (insertBehind_perm.cons r).trans (List.Perm.swap req r rs)
  all_goals
    simp only [addRequest, insertAfter_eq]
    exact insertBehind_perm

theorem addRequest_plug (q : Queue) (req : Request) : (addRequest q req).plug = q.plug := by
  obtain ⟨_ | ⟨t, k⟩, _ | ⟨r, rs⟩⟩ := q <;> rfl

/-- A key that none of the requests has is not that of the head either. -/
theorem Kept.fresh {s : State} (h : Kept s) {req : Request}
    (hreq : req.key ∉ s.added.map Request.key) {k : Key} {rs : List Request}
    (hs : fromHead s.queue = some (k, rs)) :
    req.key.rank ≠ k.rank ∧ req.key.rank ∉ rs.map (fun r => r.key.rank) := by
  have hmem (r : Request) (hr : r ∈ s.queue.reqs) : req.key ≠ r.key := by
    intro heq
    apply hreq
    rw [heq]
    exact List.mem_map_of_mem (h.perm.mem_iff.mpr (List.mem_append_right _ hr))
  have hnot (l : List Request) (hl : ∀ r ∈ l, r ∈ s.queue.reqs) :
      req.key.rank ∉ l.map (fun r => r.key.rank) := by
    intro hin
    obtain ⟨r, hr, heq⟩ := List.mem_map.mp hin
    exact hmem r (hl r hr) (Key.rank_injective heq).symm
  obtain ⟨⟨_ | ⟨t, k'⟩, rs'⟩, added, completed⟩ := s
  · cases rs' with
    | nil => exact absurd hs (Option.some_ne_none _).symm
    | cons r rs' =>
      obtain ⟨rfl, rfl⟩ := Prod.mk.inj (Option.some.inj hs)
      refine ⟨fun heq => ?_, hnot _ fun r hr => List.mem_cons_of_mem _ hr⟩
      exact hmem r (List.mem_cons_self ..) (Key.rank_injective heq)
  · obtain ⟨rfl, rfl⟩ := Prod.mk.inj (Option.some.inj hs)
    refine ⟨fun heq => ?_, hnot _ fun r hr => hr⟩
    -- a plug has the device -1, a request has not
    have hdev : k'.dev = -1 := h.plug_dev t k' rfl
    rw [← Key.rank_injective heq] at hdev
    exact absurd hdev (by simp only [Request.key]; omega)

theorem Kept.add {s : State} (h : Kept s) {req : Request}
    (hreq : req.key ∉ s.added.map Request.key) :
    Kept ⟨addRequest s.queue req, req :: s.added, s.completed⟩ where
  perm := by
    have hq : (req :: s.added).Perm (req :: (s.completed ++ s.queue.reqs)) := h.perm.cons req
    refine hq.trans (List.perm_middle.symm.trans ?_)
    exact List.Perm.append_left _ (addRequest_perm s.queue req).symm
  runs := by
    have hruns := h.runs
    have hfresh := @Kept.fresh s h req hreq
    intro k rs hs
    obtain ⟨⟨_ | ⟨t, k'⟩, rs'⟩, added, completed⟩ := s
    · cases rs' with
      | nil =>
        obtain ⟨rfl, rfl⟩ := Prod.mk.inj (Option.some.inj hs)
        exact twoRuns_nil
      | cons r rs' =>
        obtain ⟨rfl, rfl⟩ := Prod.mk.inj (Option.some.inj hs)
        obtain ⟨hk, hrs⟩ := hfresh rfl
        rw [insertAfter_eq]
        exact (hruns _ _ rfl).insertBehind hk hrs
    · obtain ⟨rfl, rfl⟩ := Prod.mk.inj (Option.some.inj hs)
      obtain ⟨hk, hrs⟩ := hfresh rfl
      simp only [addRequest, insertAfter_eq]
      exact (hruns _ _ rfl).insertBehind hk hrs
  plug_dev := by
    intro t k hk
    rw [addRequest_plug] at hk
    exact h.plug_dev t k hk

/-- The head has gone, and what was behind it has a new one. -/
theorem Kept.complete {s : State} (h : Kept s) {r : Request} {rs : List Request}
    (hplug : s.queue.plug = none) (hreqs : s.queue.reqs = r :: rs) :
    Kept ⟨{ s.queue with reqs := rs }, s.added, r :: s.completed⟩ where
  perm := by
    have hp := h.perm
    rw [hreqs] at hp
    exact hp.trans List.perm_middle
  runs := by
    have hbehind : TwoRuns (fun r => r.key.rank) r.key.rank rs :=
      h.runs r.key rs (by rw [fromHead, hplug, hreqs])
    intro k rs' hs
    simp only [fromHead, hplug] at hs
    cases rs with
    | nil => exact absurd hs (Option.some_ne_none _).symm
    | cons r' rs =>
      obtain ⟨rfl, rfl⟩ := Prod.mk.inj (Option.some.inj hs)
      exact hbehind.of_cons
  plug_dev := h.plug_dev

theorem Kept.step {s s' : State} {e : Event} (h : Kept s) (hd : Distinct s e)
    (he : step s e = some s') : Kept s' := by
  cases e with
  | add req =>
    obtain rfl := Option.some.inj he
    exact h.add (hd req rfl)
  | complete =>
    simp only [Elevator.step] at he
    split at he
    · obtain rfl := Option.some.inj he
      apply h.complete <;> assumption
    · cases he
  | plug t cmd sector =>
    simp only [Elevator.step] at he
    split at he
    case isTrue hidle =>
      obtain rfl := Option.some.inj he
      simp only [Queue.idle, Bool.and_eq_true, List.isEmpty_iff] at hidle
      have hnil : s.queue.reqs = [] := hidle.2
      refine ⟨h.perm, ?_, ?_⟩
      · intro k rs hs
        obtain ⟨-, rfl⟩ := Prod.mk.inj (Option.some.inj hs)
        rw [hnil]
        exact twoRuns_nil
      · intro t k hk
        obtain ⟨-, rfl⟩ := Prod.mk.inj (Option.some.inj hk)
        rfl
    case isFalse => cases he
  | unplug =>
    simp only [Elevator.step] at he
    split at he
    case isTrue hplug =>
      obtain rfl := Option.some.inj he
      obtain ⟨⟨t, k⟩, hk⟩ := Option.isSome_iff_exists.mp hplug
      refine ⟨h.perm, ?_, nofun⟩
      have hall : TwoRuns (fun r => r.key.rank) k.rank s.queue.reqs :=
        h.runs k s.queue.reqs (by rw [fromHead, hk])
      intro k' rs hs
      simp only [fromHead] at hs
      split at hs
      · contradiction
      case _ hreqs =>
        obtain ⟨rfl, rfl⟩ := Prod.mk.inj (Option.some.inj hs)
        rw [hreqs] at hall
        exact hall.of_cons
      · cases hs
    case isFalse => cases he

theorem kept_of_reach {s : State} (h : Reach step Distinct start s) : Kept s :=
  h.invariant kept_start fun _ _ _ hk hd he => hk.step hd he

/-- Whatever happens but its completion, the request that the driver works on stays at the head. -/
theorem inProgress_stays {s s' : State} {e : Event} {r : Request} (he : step s e = some s')
    (hne : e ≠ .complete) (hr : inProgress s.queue = some r) : inProgress s'.queue = some r := by
  obtain ⟨⟨_ | ⟨t, k⟩, rs⟩, added, completed⟩ := s
  · cases rs with
    | nil => cases hr
    | cons r' rs =>
      obtain rfl := Option.some.inj hr
      cases e with
      | add req =>
        obtain rfl := Option.some.inj he
        rfl
      | complete => exact absurd rfl hne
      | plug t cmd sector => cases he
      | unplug => cases he
  · cases hr

/-- **The elevator.**  In every run in which no two requests have the same key, the queue holds the
requests that have been added and not completed; behind its head there are at most two ascending
runs, the first of which goes on from the head; and no step but a completion takes away the request
that the driver works on. -/
theorem elevator_order {s : State} (h : Reach step Distinct start s) :
    s.added.Perm (s.completed ++ s.queue.reqs) ∧ Ordered s.queue ∧
      ∀ e s' r, step s e = some s' → e ≠ .complete → inProgress s.queue = some r →
        inProgress s'.queue = some r :=
  ⟨(kept_of_reach h).perm, fun k rs hs => TwoRuns.ordered ((kept_of_reach h).runs k rs hs),
    fun _ _ _ he hne hr => inProgress_stays he hne hr⟩

/-- A read of one block of the disk 0x300. -/
def readAt (sector : Nat) : Request := ⟨0, 0x300, false, sector, 2, []⟩

/-- Six requests, of which the first two are done: the sweep goes up to 90 and then begins again. -/
def sweep : List Event :=
  [.plug 1 true 0, .add (readAt 50), .add (readAt 90), .unplug, .add (readAt 70), .complete,
    .add (readAt 20), .add (readAt 80), .complete, .add (readAt 40)]

theorem elevator_order_sweep :
    Ordered ⟨none, [readAt 80, readAt 90, readAt 20, readAt 40]⟩ := by
  have hrun : Reach step Distinct start
      ⟨⟨none, [readAt 80, readAt 90, readAt 20, readAt 40]⟩,
        [readAt 40, readAt 80, readAt 20, readAt 70, readAt 90, readAt 50],
        [readAt 70, readAt 50]⟩ := by
    have hexec : execOkFrom step distinctb start sweep = some
        ⟨⟨none, [readAt 80, readAt 90, readAt 20, readAt 40]⟩,
          [readAt 40, readAt 80, readAt 20, readAt 70, readAt 90, readAt 50],
          [readAt 70, readAt 50]⟩ := rfl
    exact Reach.of_execOkFrom distinctb_sound .init hexec
  exact (elevator_order hrun).2.1

end Elevator

end LinuxEvocation.Block
