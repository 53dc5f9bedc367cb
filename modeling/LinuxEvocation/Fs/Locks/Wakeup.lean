import LinuxEvocation.Fs.Locks.Law

/-!
# Waking the tasks that sleep on a record

A task in `F_SETLKW` sleeps on the queue of the first record that blocks it.  `lock_it`
wakes the queue of a record that it frees or replaces, and a record that it merges keeps
its queue; but `right->fl_start = ...` and `left->fl_end = ...` shrink a record without
waking anybody.

* `SafeCut` — no such write takes from a record the bytes a sleeper waits for.
* `setlkw_conflicts` — in a run whose calls are all of that kind, and do not wrap, every
  sleeping task is still blocked by a record of the list.
* `setlkw_lost_wakeup` — a run with another call, after which a task sleeps for nothing.
-/

namespace LinuxEvocation.Locks

open Transition

variable {Task Inode : Type}

/-- What is left of the record `x` when the request `fl` cuts it still overlaps the range
`r` that a task waits for: the part over `fl` if there is one, else the part under it. -/
def CutKeeps (fl x r : FileLock Task) : Prop :=
  x.flType ≠ fl.flType → fl.flStart ≤ x.flEnd → x.flStart ≤ fl.flEnd →
    (fl.flEnd < x.flEnd → fl.flEnd < r.flEnd) ∧
      (x.flEnd ≤ fl.flEnd → x.flStart < fl.flStart → r.flStart < fl.flStart)

instance (fl x r : FileLock Task) : Decidable (CutKeeps fl x r) :=
  inferInstanceAs (Decidable (_ → _ → _ → _))

/-- Every task asleep on a record of `t` waits for bytes that the request `fl` leaves
with that record. -/
def SafeCut (s : State Task Inode) (t : Task) (i : Inode) (fl : FileLock Task) : Prop :=
  ∀ u w, s.asleep u = true → s.waiting u = some w → w.inode = i →
    ∀ x ∈ s.iFlock i, x.addr = w.slot → x.fl.flOwner = some t → CutKeeps fl x.fl w.request

section

variable [DecidableEq Task]

/-- Every sleeping task is on the queue of a record that blocks its request. -/
def Blocked (s : State Task Inode) : Prop :=
  ∀ u, s.asleep u = true → ∃ w, s.waiting u = some w ∧ ∃ x ∈ s.iFlock w.inode,
    x.addr = w.slot ∧ u ∈ x.fl.flWait ∧ conflict w.request x.fl = true

/-- A record of the same owner and type that still overlaps the request still blocks it. -/
theorem conflict_of_overlap {r x x' : FileLock Task} (h : conflict r x = true)
    (ho : x'.flOwner = x.flOwner) (ht : x'.flType = x.flType) (hov : overlap r x' = true) :
    conflict r x' = true := by
  unfold conflict at h ⊢
  by_cases howner : r.flOwner = x.flOwner
  · simp [howner] at h
  · rw [if_neg howner] at h
    rw [ho, if_neg howner, if_neg (by simp [hov])]
    split_ifs at h
    rw [ht]
    exact h

theorem overlap_of_conflict {r x : FileLock Task} (h : conflict r x = true) :
    x.flStart ≤ r.flEnd ∧ r.flStart ≤ x.flEnd := by
  unfold conflict at h
  split_ifs at h with h1 h2
  simp only [overlap, Bool.and_eq_true, decide_eq_true_eq] at h2
  exact h2

/-- A record that keeps its queue through a call whose cuts are safe still blocks. -/
theorem Kept.conflict {fl r : FileLock Task} {x x' : Entry Task} (h : Kept fl x x')
    (ho : x'.fl.flOwner = x.fl.flOwner)
    (hc : conflict r x.fl = true) (hsafe : CutKeeps fl x.fl r) : conflict r x'.fl = true := by
  obtain ⟨h1, h2⟩ := overlap_of_conflict hc
  refine conflict_of_overlap hc ho h.type ?_
  simp only [overlap, Bool.and_eq_true, decide_eq_true_eq]
  rcases h.range with ⟨h3, h4⟩ | ⟨hne, h3, h4, hcut⟩
  · omega
  · obtain ⟨hhigh, hlow⟩ := hsafe hne h3 h4
    rcases hcut with ⟨h5, h6, h7⟩ | ⟨h5, h6, h7, h8⟩
    · have := hhigh h5
      omega
    · have := hlow h5 h6
      omega

variable {s : State Task Inode}

/-- A write to queues that takes no sleeper off leaves it blocked. -/
theorem Blocked.modifyWait (h : Blocked s) {u : Task}
    (hu : s.asleep u = true) {m : Inode → List (Entry Task)} {a : Slot}
    {g : List Task → List Task} (hg : ∀ l, u ∈ l → u ∈ g l)
    (hm : ∀ i, m i = s.iFlock i ∨
      m i = modifyAt a (fun fl => { fl with flWait := g fl.flWait }) (s.iFlock i)) :
    ∃ w, s.waiting u = some w ∧ ∃ x ∈ m w.inode,
      x.addr = w.slot ∧ u ∈ x.fl.flWait ∧ conflict w.request x.fl = true := by
  obtain ⟨w, hw, x, hx, hxa, hxu, hc⟩ := h u hu
  refine ⟨w, hw, ?_⟩
  rcases hm w.inode with heq | heq
  · rw [heq]
    exact ⟨x, hx, hxa, hxu, hc⟩
  · rw [heq]
    refine ⟨if x.addr = a then { x with fl := { x.fl with flWait := g x.fl.flWait } } else x,
      List.mem_map_of_mem (f := fun n : Entry Task =>
        if n.addr = a then { n with fl := { n.fl with flWait := g n.fl.flWait } } else n) hx, ?_⟩
    split_ifs
    · exact ⟨hxa, hg _ hxu, hc⟩
    · exact ⟨hxa, hxu, hc⟩

variable [DecidableEq Inode]

/-- The calls of `lock_it` that neither wrap nor cut a sleeper off. -/
def safeCall (s : State Task Inode) (t : Task) (i : Inode) (fl : FileLock Task) : Prop :=
  noWrapCall s t i fl ∧ SafeCut s t i fl

/-- The steps that make no other call. -/
def safeStep (s : State Task Inode) (e : Event Task Inode) : Prop :=
  ∀ s₀ t i fl, lockCall s e = some (s₀, t, i, fl) → safeCall s₀ t i fl

/-- A safe call of `lock_it` leaves every sleeper it does not wake blocked. -/
theorem Blocked.lock (ht : Table s) (htidy : AllTidy s) (h : Blocked s)
    {t : Task} {i : Inode} {fl : FileLock Task} (hreq : Request t fl) (hok : safeCall s t i fl) :
    Blocked (s.lock t i fl).2 := by
  obtain ⟨A, B, hfr, heq, hsound, hnodup⟩ := ht.lockIt_eq hreq i
  have hown : ∀ n ∈ block t (s.iFlock i), n.fl.flOwner = some t := fun n hn => (mem_block.1 hn).2
  intro u hu
  simp only [State.lock, Bool.and_eq_true, Bool.not_eq_true', decide_eq_false_iff_not] at hu
  obtain ⟨hu, hnw⟩ := hu
  rw [heq] at hnw
  obtain ⟨w, hw, x, hx, hxa, hxu, hc⟩ := h u hu
  refine ⟨w, hw, ?_⟩
  by_cases hi : w.inode = i
  · have hlist : (s.lock t i fl).2.iFlock w.inode =
        A ++ (lockGroup t (block t (s.iFlock i)) s.free fl).list ++ B := by
      simp [State.lock, heq, Outcome.within, hi]
    rw [hlist]
    rw [hi] at hx
    by_cases hxo : x.fl.flOwner = some t
    · have hxG : x ∈ block t (s.iFlock i) := mem_block.2 ⟨hx, hxo⟩
      cases lockGroup_result hreq.owner hreq.proper (htidy i t) hok.1 hown ht.unowned hnodup with
      | failed _ hl =>
        rw [hl]
        exact ⟨x, by simp [hxG], hxa, hxu, hc⟩
      | done _ hd =>
        rcases hd.fate x hxG with hwoken | ⟨x', hx', hk⟩
        · exact absurd (hwoken u hxu) hnw
        · have hx'o : x'.fl.flOwner = x.fl.flOwner := (hsound.own x' hx').trans hxo.symm
          exact ⟨x', by simp [hx'], hk.addr.trans hxa, hk.wait ▸ hxu,
            hk.conflict hx'o hc (hok.2 u w hu hw hi x hx hxa hxo)⟩
    · -- the record of another owner is where it was
      refine ⟨x, ?_, hxa, hxu, hc⟩
      rw [hfr.eq] at hx
      simp only [List.mem_append] at hx ⊢
      rcases hx with (hx | hx) | hx
      · exact .inl (.inl hx)
      · exact absurd (hown x hx) hxo
      · exact .inr hx
  · have hlist : (s.lock t i fl).2.iFlock w.inode = s.iFlock w.inode := s.setFlock_of_ne hi _
    rw [hlist]
    exact ⟨x, hx, hxa, hxu, hc⟩

theorem Blocked.remove (ht : Table s) (h : Blocked s) (t : Task)
    (i : Inode) : Blocked (fcntlRemoveLocks s t i) := by
  obtain ⟨A, B, hfr, heq⟩ := ht.remove_eq t i
  rw [heq]
  intro u hu
  simp only [Bool.and_eq_true, Bool.not_eq_true', decide_eq_false_iff_not] at hu
  obtain ⟨hu, hnw⟩ := hu
  obtain ⟨w, hw, x, hx, hxa, hxu, hc⟩ := h u hu
  refine ⟨w, hw, x, ?_, hxa, hxu, hc⟩
  show x ∈ s.setFlock i (A ++ B) w.inode
  by_cases hi : w.inode = i
  · rw [hi, State.setFlock_self]
    rw [hi] at hx
    have hxG : x ∉ block t (s.iFlock i) := fun hmem =>
      hnw (List.mem_flatMap.2 ⟨x, hmem, hxu⟩)
    rw [hfr.eq] at hx
    simp only [List.mem_append] at hx ⊢
    rcases hx with (hx | hx) | hx
    · exact .inl hx
    · exact absurd hx hxG
    · exact .inr hx
  · rw [s.setFlock_of_ne hi]
    exact hx

/-- **Every small step of a safe run keeps every sleeper blocked.** -/
theorem Small.blocked {s' : State Task Inode} (ht : Table s) (htidy : AllTidy s)
    (h : Blocked s) (hs : Small safeCall s s') : Blocked s' := by
  cases hs with
  | idle => exact h
  | signal t =>
    intro u hu
    simp only at hu
    split_ifs at hu
    exact h u hu
  | wokenUp t w hw hasleep =>
    intro u hu
    have hne : u ≠ t := fun heq => by
      rw [heq] at hu
      simp [State.wokenUp, hasleep] at hu
    obtain ⟨w', hw', hx⟩ := h.modifyWait (u := u) hu (m := (s.wokenUp t w).iFlock) (a := w.slot)
      (g := fun l => l.erase t) (fun l hl => (List.mem_erase_of_ne hne).2 hl) fun i => .inr rfl
    exact ⟨w', by simpa [State.wokenUp, hne] using hw', hx⟩
  | sleepOn t i n fl hwait hreq hn hc =>
    intro u hu
    by_cases hut : u = t
    · subst hut
      refine ⟨⟨i, n.addr, fl⟩, by simp [State.sleepOn], ?_⟩
      refine ⟨{ n with fl := { n.fl with flWait := n.fl.flWait ++ [u] } }, ?_, rfl, by simp, hc⟩
      simp only [State.sleepOn, State.setFlock_self]
      exact List.mem_map.2 ⟨n, hn, by simp⟩
    · have hu' : s.asleep u = true := by simpa [State.sleepOn, hut] using hu
      obtain ⟨w', hw', hx⟩ := h.modifyWait (u := u) hu' (m := (s.sleepOn t i n.addr fl).iFlock)
        (a := n.addr) (g := fun l => l ++ [t]) (fun l hl => List.mem_append_left _ hl) fun j => by
          simp only [State.sleepOn, State.setFlock]
          split_ifs with hj
          · exact .inr (by rw [hj])
          · exact .inl rfl
      exact ⟨w', by simpa [State.sleepOn, hut] using hw', hx⟩
  | lock t i fl hreq hconf hok => exact h.lock ht htidy hreq hok
  | remove t i => exact h.remove ht t i

theorem Small.mono {ok ok' : State Task Inode → Task → Inode → FileLock Task → Prop}
    (hmono : ∀ s t i fl, ok s t i fl → ok' s t i fl) {s' : State Task Inode}
    (h : Small ok s s') : Small ok' s s' := by
  cases h with
  | idle => exact .idle
  | signal t => exact .signal t
  | wokenUp t w h1 h2 => exact .wokenUp t w h1 h2
  | sleepOn t i n fl h1 h2 h3 h4 => exact .sleepOn t i n fl h1 h2 h3 h4
  | lock t i fl h1 h2 h3 => exact .lock t i fl h1 h2 (hmono s t i fl h3)
  | remove t i => exact .remove t i

/-- **No lost wake-up.**  In every state of a run whose calls of `lock_it` neither wrap
nor cut a sleeper off, every task asleep in `F_SETLKW` waits for a request that a record
of the inode's list conflicts with. -/
theorem setlkw_conflicts (h : Reach step safeStep fcntlInitLocks s)
    {u : Task} (hu : s.asleep u = true) :
    ∃ w, s.waiting u = some w ∧ ∃ x ∈ s.iFlock w.inode, conflict w.request x.fl = true := by
  have hinv := (reach_invariant (R := safeCall) (I := fun s => AllTidy s ∧ Blocked s) ?_ ?_ h).2
  · obtain ⟨w, hw, x, hx, -, -, hc⟩ := hinv.2 u hu
    exact ⟨w, hw, x, hx, hc⟩
  · refine ⟨(AllTidy.of_reach .init).2, ?_⟩
    intro u hu
    cases hu
  · intro s s' ht hinv hs
    exact ⟨(hs.mono fun _ _ _ _ hok => hok.1).tidy ht hinv.1, hs.blocked ht hinv.1 hinv.2⟩

end

/-! ### Two runs -/

/-- Whether a step makes no call that wraps or cuts a sleeper off, by computation. -/
def safeStepB (s : State (Fin 2) Unit) (e : Event (Fin 2) Unit) : Bool :=
  match lockCall s e with
  | none => true
  | some (s₀, t, i, fl) =>
    decide (NoWrap fl (block t (s₀.iFlock i))) &&
      decide (∀ u, s₀.asleep u = true → ∀ w ∈ s₀.waiting u, ∀ x ∈ s₀.iFlock i,
        x.addr = w.slot → x.fl.flOwner = some t → CutKeeps fl x.fl w.request)

theorem safeStep_of_safeStepB (s : State (Fin 2) Unit) (e : Event (Fin 2) Unit)
    (h : safeStepB s e = true) : safeStep s e := by
  intro s₀ t i fl hcall
  simp only [safeStepB, hcall, Bool.and_eq_true, decide_eq_true_eq] at h
  exact ⟨h.1, fun u w hu hw _ x hx hxa hxo => h.2 u hu w hw x hx hxa hxo⟩

/-- Task 1 waits for bytes 50 to 60 of a write lock of task 0, which gives up bytes 80
to 100 meanwhile. -/
theorem setlkw_conflicts_waiter :
    let es := [setlkEvent 0 fSetlk 1 0 101, setlkEvent 1 fSetlkw 1 50 11,
      setlkEvent 0 fSetlk 2 80 21]
    ∃ s, execOkFrom step safeStepB fcntlInitLocks es = some s ∧ s.asleep 1 = true ∧
      ∃ w, s.waiting 1 = some w ∧ ∃ x ∈ s.iFlock w.inode, conflict w.request x.fl = true := by
  intro es
  have hsome : (execOkFrom step safeStepB fcntlInitLocks es).isSome = true := by decide +kernel
  obtain ⟨s, hs⟩ := Option.isSome_iff_exists.1 hsome
  have hasleep : ((execOkFrom step safeStepB fcntlInitLocks es).map
      fun s => s.asleep 1) = some true := by decide +kernel
  rw [hs] at hasleep
  have hasleep : s.asleep 1 = true := by simpa using hasleep
  exact ⟨s, hs, hasleep,
    setlkw_conflicts (Reach.of_execOkFrom safeStep_of_safeStepB .init hs) hasleep⟩

/-- The same run, but task 0 gives up bytes 40 to 100: task 1 sleeps on, although nothing
on the list blocks it. -/
theorem setlkw_lost_wakeup :
    let s := after [setlkEvent 0 fSetlk 1 0 101, setlkEvent 1 fSetlkw 1 50 11,
      setlkEvent 0 fSetlk 2 40 61]
    Reach step anyStep fcntlInitLocks s ∧ s.asleep 1 = true ∧
      ¬ ∃ w, s.waiting 1 = some w ∧ ∃ x ∈ s.iFlock w.inode, conflict w.request x.fl = true := by
  intro s
  refine ⟨reach_after (by decide +kernel), by decide +kernel, ?_⟩
  rintro ⟨w, hw, x, hx, hc⟩
  have hreq : (s.waiting 1).map (·.request) = some ⟨some 1, [], .wrlck, 0, 50, 60⟩ := by
    decide +kernel
  have hlist : s.iFlock () = [⟨0, ⟨some 0, [1], .wrlck, 0, 0, 39⟩⟩] := by decide +kernel
  rw [hw, Option.map_some, Option.some.injEq] at hreq
  rw [show w.inode = () from rfl, hlist, List.mem_singleton] at hx
  rw [hreq, hx] at hc
  revert hc
  decide

end LinuxEvocation.Locks
