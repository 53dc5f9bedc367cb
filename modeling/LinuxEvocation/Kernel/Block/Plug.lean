import LinuxEvocation.Kernel.Block.Basic
import LinuxEvocation.Lib.Transition
import Mathlib.Tactic

/-!
# Tasks that sleep behind a plug

A plug is taken away only by the task that has put it there.  If that task goes to sleep in
`make_request`, for a buffer or for a slot, what it waits for may be behind its own plug.

* `Queued`, `Held`, `Waits` — where a locked buffer is, and what a task that is asleep waits for.
* `Inv` — the invariant: a locked buffer is in a queue or with a task that waits for a slot, a slot
  that is used is in a queue, and only the running task has a plug.
* `Room`, `noWait`, `Clear` — the condition on a step: a task with a plug finds its buffer unlocked and
  a slot, and no task waits for a buffer that is with a task that waits for a slot.
* `plug_no_deadlock` — in every run whose steps meet the condition, when a task is asleep and no other
  one runs, some queue without a plug has a request.
* `plug_deadlock` — a call that fills the table behind its own plug.
-/

namespace LinuxEvocation.Block

open Function (update update_of_ne update_self)
open Transition

/-! ## What a sleeping task waits for -/

/-- The buffer is in a request. -/
def Queued (s : State) (b : Nat) : Prop := ∃ m, ∃ r ∈ (s.queue m).reqs, b ∈ r.bhs

/-- The task has locked the buffer, and waits for a slot. -/
def Held (s : State) (t b : Nat) : Prop :=
  ∃ c, s.task t = some c ∧ c.phase = .slotWait ∧ c.todo.head? = some (some b)

/-- A queue without a plug has a request, for the buffer if there is one. -/
def Open (s : State) (o : Option Nat) : Prop :=
  ∃ m, (s.queue m).plug = none ∧ ∃ r ∈ (s.queue m).reqs, ∀ b, o = some b → b ∈ r.bhs

/-- What a call that is asleep waits for is in a queue without a plug. -/
def Waits (s : State) (c : Call) : Prop :=
  (c.phase = .lockWait ∧ ∃ b, c.todo.head? = some (some b) ∧ s.lock b = true ∧ Open s (some b)) ∨
    (c.phase = .slotWait ∧ Open s none)

/-- **The invariant**, without the task `t` and the buffer it has in hand. -/
structure Base (s : State) (t hand : Option Nat) : Prop where
  used : ∀ i, s.used i = true → ∃ m, ∃ r ∈ (s.queue m).reqs, r.slot = i
  locked : ∀ b, s.lock b = true → hand ≠ some b → Queued s b ∨ ∃ u, t ≠ some u ∧ Held s u b
  asleep : ∀ u c, t ≠ some u → s.task u = some c → c.asleep = true → Waits s c

/-- The buffer that a call has locked. -/
def Call.hand (c : Call) : Option Nat := if c.phase = .slotWait then c.todo.head?.join else none

theorem Call.hand_none {c : Call} (h : c.phase ≠ .slotWait) : c.hand = none :=
  if_neg h

/-- Only the running task has a plug, and it has not slept. -/
structure Plugs (s : State) : Prop where
  owner : ∀ m u k, (s.queue m).plug = some (u, k) →
    ∃ c, s.task u = some c ∧ c.plugged = true ∧ c.major = m
  ready : ∀ u c, s.task u = some c → c.plugged = true → s.running = some u ∧ c.phase = .ready

/-- **The invariant.** -/
structure Inv (s : State) : Prop where
  idle : s.running = none → Base s none none
  busy : ∀ t, s.running = some t → ∃ c, s.task t = some c ∧ c.asleep = false ∧
    Base s (some t) c.hand
  plugs : Plugs s

/-! ## The queues -/

theorem mem_insertAfter {k : Key} {req r : Request} {rs : List Request} :
    r ∈ insertAfter k req rs ↔ r = req ∨ r ∈ rs := by
  induction rs generalizing k with
  | nil => simp [insertAfter]
  | cons r' rs ih =>
    rw [insertAfter]
    split_ifs
    · rw [List.mem_cons, List.mem_cons]
    · rw [List.mem_cons, ih, List.mem_cons]
      tauto

theorem mem_addRequest {q : Queue} {req r : Request} :
    r ∈ (addRequest q req).reqs ↔ r = req ∨ r ∈ q.reqs := by
  obtain ⟨plug, reqs⟩ := q
  cases plug with
  | none =>
    cases reqs with
    | nil => simp [addRequest]
    | cons r' rs =>
      simp only [addRequest, List.mem_cons, mem_insertAfter]
      tauto
  | some p =>
    simp only [addRequest]
    exact mem_insertAfter

theorem addRequest_plug (q : Queue) (req : Request) : (addRequest q req).plug = q.plug := by
  obtain ⟨plug, reqs⟩ := q
  cases plug with
  | none => cases reqs <;> rfl
  | some p => rfl

/-- A queue that has grown: the requests are there with their slots and more buffers. -/
structure Grown (q q' : Queue) : Prop where
  plug : q'.plug = q.plug
  reqs : ∀ r ∈ q.reqs, ∃ r' ∈ q'.reqs, r'.slot = r.slot ∧ ∀ b ∈ r.bhs, b ∈ r'.bhs

theorem mergeOne_spec {d : Disk} {cmd : Bool} {b : Nat} {r r' : Request}
    (h : mergeOne d cmd b r = some r') :
    r'.slot = r.slot ∧ (∀ b' ∈ r.bhs, b' ∈ r'.bhs) ∧ b ∈ r'.bhs := by
  unfold mergeOne at h
  split_ifs at h
  · cases h
    exact ⟨rfl, fun b' hb' => List.mem_append_left _ hb', by simp⟩
  · cases h
    exact ⟨rfl, fun b' hb' => List.mem_cons_of_mem _ hb', List.mem_cons_self⟩

theorem mergeAny_spec {d : Disk} {cmd : Bool} {b : Nat} {rs rs' : List Request}
    (h : mergeAny d cmd b rs = some rs') :
    (∀ r ∈ rs, ∃ r' ∈ rs', r'.slot = r.slot ∧ ∀ b' ∈ r.bhs, b' ∈ r'.bhs) ∧
      ∃ r' ∈ rs', b ∈ r'.bhs := by
  induction rs generalizing rs' with
  | nil => cases h
  | cons r rs ih =>
    rw [mergeAny] at h
    cases hone : mergeOne d cmd b r with
    | some r' =>
      rw [hone] at h
      cases h
      obtain ⟨hslot, hbhs, hb⟩ := mergeOne_spec hone
      refine ⟨fun q hq => ?_, r', List.mem_cons_self, hb⟩
      rcases List.mem_cons.1 hq with rfl | hq
      · exact ⟨r', List.mem_cons_self, hslot, hbhs⟩
      · exact ⟨q, List.mem_cons_of_mem _ hq, rfl, fun _ hb' => hb'⟩
    | none =>
      rw [hone] at h
      obtain ⟨rs₁, hrs₁, rfl⟩ := Option.map_eq_some_iff.1 h
      obtain ⟨hgrown, r', hr', hb⟩ := ih hrs₁
      refine ⟨fun q hq => ?_, r', List.mem_cons_of_mem _ hr', hb⟩
      rcases List.mem_cons.1 hq with rfl | hq
      · exact ⟨q, List.mem_cons_self, rfl, fun _ hb' => hb'⟩
      · obtain ⟨q', hq', hspec⟩ := hgrown q hq
        exact ⟨q', List.mem_cons_of_mem _ hq', hspec⟩

theorem merge_spec {d : Disk} {m : Nat} {cmd : Bool} {b : Nat} {q q' : Queue}
    (h : merge d m cmd b q = some q') : Grown q q' ∧ ∃ r ∈ q'.reqs, b ∈ r.bhs := by
  unfold merge at h
  split_ifs at h with hmajor hhead
  · cases hreqs : q.reqs with
    | nil =>
      rw [hreqs] at h
      cases h
    | cons r rs =>
      rw [hreqs] at h
      obtain ⟨rs', hrs', rfl⟩ := Option.map_eq_some_iff.1 h
      obtain ⟨hgrown, r', hr', hb⟩ := mergeAny_spec hrs'
      refine ⟨⟨rfl, fun p hp => ?_⟩, r', List.mem_cons_of_mem _ hr', hb⟩
      rw [hreqs] at hp
      rcases List.mem_cons.1 hp with rfl | hp
      · exact ⟨p, List.mem_cons_self, rfl, fun _ hb' => hb'⟩
      · obtain ⟨p', hp', hspec⟩ := hgrown p hp
        exact ⟨p', List.mem_cons_of_mem _ hp', hspec⟩
  · obtain ⟨rs', hrs', rfl⟩ := Option.map_eq_some_iff.1 h
    obtain ⟨hgrown, hb⟩ := mergeAny_spec hrs'
    exact ⟨⟨rfl, hgrown⟩, hb⟩

theorem freeSlot_none {used : Nat → Bool} {n : Nat} (h : freeSlot used n = none) :
    ∀ i < n, used i = true := by
  induction n with
  | zero => exact fun i hi => absurd hi (Nat.not_lt_zero i)
  | succ n ih =>
    rw [freeSlot] at h
    split_ifs at h with hn
    intro i hi
    rcases Nat.lt_succ_iff_lt_or_eq.1 hi with hlt | rfl
    · exact ih h i hlt
    · exact hn

theorem slotLimit_pos (cmd : Bool) : 0 < slotLimit cmd := by
  cases cmd <;> decide

/-! ## What the steps keep -/

section Keep

variable {s s' : State} {t hand : Option Nat}

/-- A queue has grown: every request is there, with its slot and its buffers. -/
theorem Grown.mem {m m' : Nat} {q : Queue} {r : Request} (hq : Grown (s.queue m) q)
    (hr : r ∈ (s.queue m').reqs) : ∃ r' ∈ ((s.setQueue m q).queue m').reqs,
      r'.slot = r.slot ∧ ∀ b ∈ r.bhs, b ∈ r'.bhs := by
  by_cases hm : m' = m
  · subst hm
    rw [State.setQueue_self]
    exact hq.reqs r hr
  · rw [State.setQueue_of_ne s hm]
    exact ⟨r, hr, rfl, fun _ hb => hb⟩

theorem setQueue_plug {m : Nat} {q : Queue} (h : q.plug = (s.queue m).plug) (n : Nat) :
    ((s.setQueue m q).queue n).plug = (s.queue n).plug := by
  by_cases hn : n = m
  · rw [hn, State.setQueue_self, h]
  · rw [State.setQueue_of_ne s hn]

theorem setQueue_reqs {m : Nat} {q : Queue} (h : q.reqs = (s.queue m).reqs) (n : Nat) :
    ((s.setQueue m q).queue n).reqs = (s.queue n).reqs := by
  by_cases hn : n = m
  · rw [hn, State.setQueue_self, h]
  · rw [State.setQueue_of_ne s hn]

theorem Queued.setQueue {m b : Nat} {q : Queue} (hq : Grown (s.queue m) q) (h : Queued s b) :
    Queued (s.setQueue m q) b := by
  obtain ⟨m', r, hr, hb⟩ := h
  obtain ⟨r', hr', -, hbhs⟩ := hq.mem hr
  exact ⟨m', r', hr', hbhs b hb⟩

theorem used_setQueue {m i : Nat} {q : Queue} (hq : Grown (s.queue m) q)
    (h : ∃ m, ∃ r ∈ (s.queue m).reqs, r.slot = i) :
    ∃ m', ∃ r ∈ ((s.setQueue m q).queue m').reqs, r.slot = i := by
  obtain ⟨m', r, hr, hslot⟩ := h
  obtain ⟨r', hr', hslot', -⟩ := hq.mem hr
  exact ⟨m', r', hr', hslot'.trans hslot⟩

theorem Open.setQueue {m : Nat} {o : Option Nat} {q : Queue} (hq : Grown (s.queue m) q)
    (h : Open s o) : Open (s.setQueue m q) o := by
  obtain ⟨m', hplug, r, hr, hb⟩ := h
  obtain ⟨r', hr', -, hbhs⟩ := hq.mem hr
  exact ⟨m', (setQueue_plug hq.plug m').trans hplug, r', hr', fun b hob => hbhs b (hb b hob)⟩

theorem Waits.mono {c : Call} (h : Waits s c) (hopen : ∀ o, Open s o → Open s' o)
    (hlock : ∀ b, s.lock b = true → s'.lock b = true) : Waits s' c := by
  rcases h with ⟨hphase, b, hhead, hb, ho⟩ | ⟨hphase, ho⟩
  · exact .inl ⟨hphase, b, hhead, hlock b hb, hopen _ ho⟩
  · exact .inr ⟨hphase, hopen _ ho⟩

/-- The invariant does not depend on the task that is set apart. -/
theorem Base.setTask {u : Nat} (h : Base s (some u) hand) (c : Option Call) :
    Base (s.setTask u c) (some u) hand := by
  refine ⟨h.used, fun b hb hhand => ?_, fun v c' hv hc' hasleep => ?_⟩
  · rcases h.locked b hb hhand with hq | ⟨v, hv, c', hc', hheld⟩
    · exact .inl hq
    · refine .inr ⟨v, hv, c', ?_, hheld⟩
      have hne : v ≠ u := fun heq => hv (by rw [heq])
      rwa [State.setTask_of_ne s hne]
  · have hne : v ≠ u := fun heq => hv (by rw [heq])
    rw [State.setTask_of_ne s hne] at hc'
    exact h.asleep v c' hv hc' hasleep

theorem Base.join {u : Nat} (h : Base s (some u) hand)
    (hheld : ∀ b, hand = some b → s.lock b = true → Queued s b ∨ Held s u b)
    (hwaits : ∀ c, s.task u = some c → c.asleep = true → Waits s c) : Base s none none := by
  refine ⟨h.used, fun b hb _ => ?_, fun v c _ hc hasleep => ?_⟩
  · by_cases hhand : hand = some b
    · rcases hheld b hhand hb with hq | hheld
      · exact .inl hq
      · exact .inr ⟨u, by simp, hheld⟩
    · rcases h.locked b hb hhand with hq | ⟨v, -, hheld⟩
      · exact .inl hq
      · exact .inr ⟨v, by simp, hheld⟩
  · by_cases hv : v = u
    · subst hv
      exact hwaits c hc hasleep
    · exact h.asleep v c (fun heq => hv (Option.some.inj heq).symm) hc hasleep

theorem Base.split {u : Nat} {c : Call} (h : Base s none none) (hc : s.task u = some c) :
    Base s (some u) c.hand := by
  refine ⟨h.used, fun b hb hhand => ?_, fun v c' _ hc' hasleep =>
    h.asleep v c' (by simp) hc' hasleep⟩
  rcases h.locked b hb (by simp) with hq | ⟨v, -, c', hc', hphase, hhead⟩
  · exact .inl hq
  · refine .inr ⟨v, fun heq => ?_, c', hc', hphase, hhead⟩
    rw [← Option.some.inj heq, hc] at hc'
    cases hc'
    apply hhand
    rw [Call.hand, if_pos hphase, hhead]
    rfl

theorem Base.drop {b : Nat} (h : Base s t (some b)) (hb : s.lock b = false) : Base s t none := by
  refine ⟨h.used, fun b' hb' _ => h.locked b' hb' fun heq => ?_, h.asleep⟩
  rw [← Option.some.inj heq, hb] at hb'
  cases hb'

end Keep

/-! ## Woken tasks -/

section Wake

variable {task : Nat → Option Call} {b u : Nat} {c c' : Call}

/-- What waking a task leaves of its call. -/
theorem wake_some {P : Call → Prop} [DecidablePred P]
    (h : (task u).map (fun c => if P c then { c with asleep := false } else c) = some c') :
    ∃ c, task u = some c ∧ c' = { c with asleep := c'.asleep } ∧
      (c'.asleep = true → c' = c ∧ ¬ P c) := by
  obtain ⟨c, hc, rfl⟩ := Option.map_eq_some_iff.1 h
  refine ⟨c, hc, ?_, ?_⟩
  · split_ifs <;> rfl
  · split_ifs with hwoken
    · exact fun hasleep => absurd hasleep (by simp)
    · exact fun _ => ⟨rfl, hwoken⟩

theorem wakeLock_isSome (b : Nat) (h : task u = some c) : ∃ c', wakeLock b task u = some c' :=
  ⟨_, by rw [wakeLock, h, Option.map_some]⟩

theorem wakeSlot_isSome (h : task u = some c) : ∃ c', wakeSlot task u = some c' :=
  ⟨_, by rw [wakeSlot, h, Option.map_some]⟩

theorem wakeLock_awake (h : task u = some c) (hawake : c.asleep = false) :
    wakeLock b task u = some c := by
  rw [wakeLock, h, Option.map_some]
  split_ifs
  · rw [← hawake]
  · rfl

theorem wakeSlot_awake (h : task u = some c) (hawake : c.asleep = false) :
    wakeSlot task u = some c := by
  rw [wakeSlot, h, Option.map_some]
  split_ifs
  · rw [← hawake]
  · rfl

theorem held_wakeLock {s : State} {v : Nat} (h : Held s v u) :
    Held { s with task := wakeLock b s.task } v u := by
  obtain ⟨c, hc, hphase, hhead⟩ := h
  refine ⟨c, ?_, hphase, hhead⟩
  change wakeLock b s.task v = some c
  rw [wakeLock, hc, Option.map_some, if_neg]
  exact fun hlock => by rw [hphase] at hlock; exact absurd hlock.1 (by decide)

theorem held_wakeSlot {s : State} {v : Nat} (h : Held s v u) :
    Held { s with task := wakeSlot s.task } v u := by
  obtain ⟨c, hc, hphase, hhead⟩ := h
  refine ⟨{ c with asleep := false }, ?_, hphase, hhead⟩
  change wakeSlot s.task v = _
  rw [wakeSlot, hc, Option.map_some, if_pos hphase]

end Wake

section Keep

variable {s s' : State} {t hand : Option Nat}

/-- Only some of the fields count; a plug may go, or come into an empty queue. -/
theorem Base.congrPlug (h : Base s t hand) (hlock : s'.lock = s.lock) (hused : s'.used = s.used)
    (htask : s'.task = s.task) (hreqs : ∀ m, (s'.queue m).reqs = (s.queue m).reqs)
    (hplug : ∀ m, (s.queue m).plug = none → (s.queue m).reqs ≠ [] → (s'.queue m).plug = none) :
    Base s' t hand := by
  have hqueue : ∀ b, Queued s b → Queued s' b := by
    rintro b ⟨m, r, hr, hb⟩
    exact ⟨m, r, by rwa [hreqs m], hb⟩
  refine ⟨fun i hi => ?_, fun b hb hhand => ?_, fun u c hu hc hasleep => ?_⟩
  · rw [hused] at hi
    obtain ⟨m, r, hr, hslot⟩ := h.used i hi
    exact ⟨m, r, by rwa [hreqs m], hslot⟩
  · rw [hlock] at hb
    refine (h.locked b hb hhand).imp (hqueue b) ?_
    rintro ⟨u, hu, c, hc, hheld⟩
    exact ⟨u, hu, c, by rwa [htask], hheld⟩
  · rw [htask] at hc
    refine (h.asleep u c hu hc hasleep).mono ?_ fun b hb => by rwa [hlock]
    rintro o ⟨m, hnone, r, hr, ho⟩
    exact ⟨m, hplug m hnone (List.ne_nil_of_mem hr), r, by rwa [hreqs m], ho⟩

theorem Base.congr (h : Base s t hand) (hlock : s'.lock = s.lock) (hused : s'.used = s.used)
    (htask : s'.task = s.task) (hqueue : s'.queue = s.queue) : Base s' t hand :=
  h.congrPlug hlock hused htask (fun m => by rw [hqueue]) fun m hnone _ => by rw [hqueue, hnone]

theorem unlock_lock {b b' : Nat} (h : (s.unlock b).lock b' = true) : b' ≠ b ∧ s.lock b' = true := by
  change update s.lock b false b' = true at h
  by_cases heq : b' = b
  · rw [heq, update_self] at h
    cases h
  · rw [update_of_ne heq] at h
    exact ⟨heq, h⟩

theorem Base.unlock (h : Base s t hand) (b : Nat) : Base (s.unlock b) t hand := by
  refine ⟨h.used, fun b' hb' hhand => ?_, fun u c hu hc hasleep => ?_⟩
  · rcases h.locked b' (unlock_lock hb').2 hhand with hq | ⟨u, hu, hheld⟩
    · exact .inl hq
    · exact .inr ⟨u, hu, held_wakeLock hheld⟩
  · obtain ⟨c₁, hc₁, -, hsame⟩ := wake_some hc
    obtain ⟨rfl, hother⟩ := hsame hasleep
    rcases h.asleep u c hu hc₁ hasleep with ⟨hphase, b', hhead, hb', hq⟩ | hslot
    · have hne : b' ≠ b := fun heq => hother ⟨hphase, by rw [hhead, heq]⟩
      refine .inl ⟨hphase, b', hhead, ?_, hq⟩
      change update s.lock b false b' = true
      rw [update_of_ne hne]
      exact hb'
    · exact .inr hslot

theorem unlock_self (s : State) (b : Nat) : (s.unlock b).lock b = false := by
  simp [State.unlock]

theorem Base.enqueue {m b : Nat} {q : Queue} (h : Base s t (some b)) (hq : Grown (s.queue m) q)
    (hb : ∃ r ∈ q.reqs, b ∈ r.bhs) : Base (s.setQueue m q) t none := by
  refine ⟨fun i hi => used_setQueue hq (h.used i hi), fun b' hb' _ => ?_,
    fun u c hu hc hasleep => ?_⟩
  · by_cases heq : b' = b
    · obtain ⟨r, hr, hbr⟩ := hb
      refine .inl ⟨m, r, ?_, by rwa [heq]⟩
      rwa [State.setQueue_self]
    · rcases h.locked b' hb' (fun h' => heq (Option.some.inj h').symm) with hqueued | hheld
      · exact .inl (hqueued.setQueue hq)
      · exact .inr hheld
  · exact (h.asleep u c hu hc hasleep).mono (fun _ ho => ho.setQueue hq) fun _ hb' => hb'

/-- A slot is taken by a request that is in a queue. -/
theorem Base.setUsed {i : Nat} (h : Base s t hand) (hi : ∃ m, ∃ r ∈ (s.queue m).reqs, r.slot = i) :
    Base { s with used := update s.used i true } t hand := by
  refine ⟨fun j hj => ?_, h.locked, h.asleep⟩
  change update s.used i true j = true at hj
  by_cases hji : j = i
  · rw [hji]
    exact hi
  · rw [update_of_ne hji] at hj
    exact h.used j hj

theorem Base.setLock (h : Base s t none) (b : Nat) :
    Base { s with lock := update s.lock b true } t (some b) := by
  refine ⟨h.used, fun b' hb' hhand => ?_, fun u c hu hc hasleep => ?_⟩
  · have hne : b' ≠ b := fun heq => hhand (by rw [heq])
    change update s.lock b true b' = true at hb'
    rw [update_of_ne hne] at hb'
    exact h.locked b' hb' (by simp)
  · refine (h.asleep u c hu hc hasleep).mono (fun _ ho => ho) fun b' hb' => ?_
    change update s.lock b true b' = true
    by_cases heq : b' = b
    · rw [heq, update_self]
    · rwa [update_of_ne heq]

end Keep

/-! ## The condition -/

/-- The request finds its place without a sleep. -/
def Room (d : Disk) (s : State) (c : Call) (b : Nat) : Prop :=
  s.clean c b = true ∨ (merge d c.major c.rw.isWrite b (s.queue c.major)).isSome ∨
    (freeSlot s.used (slotLimit c.rw.isWrite)).isSome

/-- `make_request` does not sleep: the buffer is not locked, and there is a place for it; or it is
for a read-ahead, or beyond the end of the device. -/
def noWait (d : Disk) (s : State) (c : Call) (b : Nat) : Prop :=
  c.rw.ahead = true ∨ d.tooBig b = true ∨ (s.lock b = false ∧ Room d s c b)

/-- The call comes to `lock_buffer`. -/
def Asks (d : Disk) (c : Call) (b : Nat) : Prop :=
  c.phase = .lockWait ∨ (c.phase = .ready ∧ c.rw.ahead = false ∧ d.tooBig b = false)

/-- **The condition on a step**: a task that has put a plug in does not have to wait, and no task
waits for a buffer that is with a task that waits for a slot. -/
def Clear (d : Disk) (s : State) : Event → Prop
  | .next t => ∀ c b, s.task t = some c → c.todo.head? = some (some b) →
      (c.plugged = true → noWait d s c b) ∧
        (Asks d c b → s.lock b = true → ∀ u, ¬ Held s u b)
  | _ => True

/-! ## One step -/

section Step

variable {d : Disk} {s : State} {t b : Nat} {c : Call}

/-- What the running task knows of the plugs. -/
structure Owns (s : State) (t : Nat) (c : Call) : Prop where
  owner : ∀ m u k, (s.queue m).plug = some (u, k) → u = t ∧ c.plugged = true ∧ c.major = m
  others : ∀ u c', u ≠ t → s.task u = some c' → c'.plugged = false

theorem Plugs.owns (h : Plugs s) (hrun : s.running = some t) (hc : s.task t = some c) :
    Owns s t c := by
  refine ⟨fun m u k hplug => ?_, fun u c' hu hc' => ?_⟩
  · obtain ⟨c', hc', hplugged, hmajor⟩ := h.owner m u k hplug
    obtain ⟨hrun', -⟩ := h.ready u c' hc' hplugged
    rw [hrun] at hrun'
    cases hrun'
    rw [hc] at hc'
    cases hc'
    exact ⟨rfl, hplugged, hmajor⟩
  · by_contra hplugged
    obtain ⟨hrun', -⟩ := h.ready u c' hc' (by simpa using hplugged)
    rw [hrun] at hrun'
    exact hu (Option.some.inj hrun').symm

theorem Owns.congr {s' : State} (h : Owns s t c) (hplug : ∀ m, (s'.queue m).plug = (s.queue m).plug)
    (htask : s'.task = s.task) : Owns s' t c := by
  refine ⟨fun m u k hk => h.owner m u k (by rwa [← hplug m]), fun u c' hu hc' => ?_⟩
  rw [htask] at hc'
  exact h.others u c' hu hc'

/-- A running task that has no plug is behind none. -/
theorem Owns.noPlug (h : Owns s t c) (hplugged : c.plugged = false) (m : Nat) :
    (s.queue m).plug = none := by
  cases hplug : (s.queue m).plug with
  | none => rfl
  | some p =>
    obtain ⟨-, hp, -⟩ := h.owner m p.1 p.2 hplug
    rw [hplugged] at hp
    cases hp

theorem Owns.unlock (h : Owns s t c) (b : Nat) : Owns (s.unlock b) t c := by
  refine ⟨h.owner, fun u c' hu hc' => ?_⟩
  obtain ⟨c₁, hc₁, heq, -⟩ := wake_some hc'
  rw [heq]
  exact h.others u c₁ hu hc₁

theorem Owns.setTask {c' : Call} (h : Owns s t c) (hplugged : c'.plugged = c.plugged)
    (hmajor : c'.major = c.major) (o : Option Call) : Owns (s.setTask t o) t c' := by
  refine ⟨fun m u k hk => ?_, fun u c₁ hu hc₁ => ?_⟩
  · rw [hplugged, hmajor]
    exact h.owner m u k hk
  · rw [State.setTask_of_ne s hu] at hc₁
    exact h.others u c₁ hu hc₁

/-- The task runs, and is ready for its next buffer. -/
theorem Base.inv (h : Base s (some t) none) (hrun : s.running = some t) (hc : s.task t = some c)
    (hready : c.phase = .ready) (hawake : c.asleep = false) (howns : Owns s t c) : Inv s := by
  have hhand : c.hand = none := Call.hand_none (by rw [hready]; decide)
  refine ⟨fun hnone => ?_, fun u hu => ?_, fun m u k hplug => ?_, fun u c' hc' hplugged => ?_⟩
  · rw [hrun] at hnone
    cases hnone
  · rw [hrun] at hu
    cases hu
    exact ⟨c, hc, hawake, by rwa [hhand]⟩
  · obtain ⟨rfl, hplugged, hmajor⟩ := howns.owner m u k hplug
    exact ⟨c, hc, hplugged, hmajor⟩
  · by_cases hu : u = t
    · subst hu
      rw [hc] at hc'
      cases hc'
      exact ⟨hrun, hready⟩
    · rw [howns.others u c' hu hc'] at hplugged
      cases hplugged

theorem Base.invIdle (h : Base s none none) (hrun : s.running = none)
    (hplug : ∀ m, (s.queue m).plug = none) (hnone : ∀ u c, s.task u = some c → c.plugged = false) :
    Inv s := by
  refine ⟨fun _ => h, fun u hu => ?_, fun m u k hk => ?_, fun u c hc hp => ?_⟩
  · rw [hrun] at hu
    cases hu
  · rw [hplug m] at hk
    cases hk
  · rw [hnone u c hc] at hp
    cases hp

theorem inv_next (h : Base s (some t) none) (hrun : s.running = some t)
    (hawake : c.asleep = false) (howns : Owns s t c) : Inv (s.next t c) := by
  have howns' : Owns (s.next t c) t { c with todo := c.todo.tail, phase := .ready } := by
    refine howns.setTask ?_ ?_ (some _) <;> rfl
  exact (h.setTask _).inv hrun (State.setTask_self s t (some _)) rfl hawake howns'

/-- The task goes to sleep; it has no plug. -/
theorem inv_sleep {hand : Option Nat} {p : Phase} (h : Base s (some t) hand)
    (howns : Owns s t c) (hplugged : c.plugged = false)
    (hheld : ∀ b, hand = some b → p = .slotWait ∧ c.todo.head? = some (some b))
    (hwaits : Waits s { c with phase := p, asleep := true }) : Inv (s.sleep t c p) := by
  have htask : (s.sleep t c p).task t = some { c with phase := p, asleep := true } :=
    State.setTask_self s t _
  have hbase : Base (s.sleep t c p) (some t) hand :=
    (h.setTask (some { c with phase := p, asleep := true })).congr rfl rfl rfl rfl
  refine (hbase.join (fun b hb _ => ?_) fun c' hc' _ => ?_).invIdle rfl
    (howns.noPlug hplugged) fun u c' hc' => ?_
  · obtain ⟨hp, hhead⟩ := hheld b hb
    exact .inr ⟨_, htask, hp, hhead⟩
  · rw [htask] at hc'
    cases hc'
    exact hwaits
  · by_cases hu : u = t
    · subst hu
      rw [htask] at hc'
      cases hc'
      exact hplugged
    · exact (howns.setTask rfl rfl _).others u c' hu hc'

theorem inv_takeSlot (h : Base s (some t) (some b)) (hrun : s.running = some t)
    (hawake : c.asleep = false) (howns : Owns s t c) (hhead : c.todo.head? = some (some b))
    (hroom : c.plugged = true → c.rw.ahead = true ∨
      (merge d c.major c.rw.isWrite b (s.queue c.major)).isSome ∨
        (freeSlot s.used (slotLimit c.rw.isWrite)).isSome) :
    Inv (s.takeSlot d t c b) := by
  unfold State.takeSlot
  cases hmerge : merge d c.major c.rw.isWrite b (s.queue c.major) with
  | some q =>
    obtain ⟨hgrown, hb⟩ := merge_spec hmerge
    have hbase : Base { s.setQueue c.major q with dirt := update s.dirt b false }
        (some t) none := (h.enqueue hgrown hb).congr rfl rfl rfl rfl
    exact inv_next hbase hrun hawake (howns.congr (setQueue_plug hgrown.plug) rfl)
  | none =>
    cases hslot : freeSlot s.used (slotLimit c.rw.isWrite) with
    | some i =>
      simp only
      set req : Request := ⟨i, (d.bh b).dev, c.rw.isWrite, d.sector b, d.count b, [b]⟩ with hreq
      have hgrown : Grown (s.queue c.major) (addRequest (s.queue c.major) req) :=
        ⟨addRequest_plug _ _, fun r hr => ⟨r, mem_addRequest.2 (.inr hr), rfl, fun _ hb => hb⟩⟩
      have hmem : req ∈ (addRequest (s.queue c.major) req).reqs := mem_addRequest.2 (.inl rfl)
      have hin : ∃ m, ∃ r ∈ ((s.setQueue c.major (addRequest (s.queue c.major) req)).queue m).reqs,
          r.slot = i := by
        refine ⟨c.major, req, ?_, rfl⟩
        rwa [State.setQueue_self]
      have hbase : Base { s.setQueue c.major (addRequest (s.queue c.major) req) with
          used := update s.used i true
          dirt := update s.dirt b false } (some t) none :=
        ((h.enqueue hgrown ⟨req, hmem, List.mem_singleton_self b⟩).setUsed hin).congr
          rfl rfl rfl rfl
      exact inv_next hbase hrun hawake (howns.congr (setQueue_plug hgrown.plug) rfl)
    | none =>
      simp only
      by_cases hahead : c.rw.ahead = true
      · rw [if_pos hahead]
        exact inv_next ((h.unlock b).drop (unlock_self s b)) hrun hawake (howns.unlock b)
      · rw [if_neg hahead]
        have hplugged : c.plugged = false := by
          by_contra hp
          rcases hroom (by simpa using hp) with ha | hm | hf
          · exact hahead ha
          · rw [hmerge] at hm
            cases hm
          · rw [hslot] at hf
            cases hf
        have hopen : Open s none := by
          obtain ⟨m, r, hr, -⟩ := h.used 0 (freeSlot_none hslot 0 (slotLimit_pos _))
          exact ⟨m, howns.noPlug hplugged m, r, hr, fun b' hb' => (by cases hb')⟩
        refine inv_sleep h howns hplugged (fun b' hb' => ?_) (.inr ⟨rfl, hopen⟩)
        cases hb'
        exact ⟨rfl, hhead⟩

theorem inv_takeLock (h : Base s (some t) none) (hrun : s.running = some t)
    (hawake : c.asleep = false) (howns : Owns s t c) (hhead : c.todo.head? = some (some b))
    (hfree : s.lock b = true → c.plugged = false ∧ ∀ u, ¬ Held s u b)
    (hroom : c.plugged = true → c.rw.ahead = true ∨ Room d s c b) :
    Inv (s.takeLock d t c b) := by
  unfold State.takeLock
  by_cases hlock : s.lock b = true
  · rw [if_pos hlock]
    obtain ⟨hplugged, hheld⟩ := hfree hlock
    have hopen : Open s (some b) := by
      rcases h.locked b hlock (by simp) with ⟨m, r, hr, hb⟩ | ⟨u, -, hu⟩
      · refine ⟨m, howns.noPlug hplugged m, r, hr, fun b' hb' => ?_⟩
        rwa [← Option.some.inj hb']
      · exact absurd hu (hheld u)
    exact inv_sleep h howns hplugged (fun b' hb' => by cases hb')
      (.inl ⟨rfl, b, hhead, hlock, hopen⟩)
  · rw [if_neg hlock]
    by_cases hclean : s.clean c b = true
    · rw [if_pos hclean]
      exact inv_next (h.unlock b) hrun hawake (howns.unlock b)
    · rw [if_neg hclean]
      refine inv_takeSlot (h.setLock b) hrun hawake (howns.congr (fun _ => rfl) rfl) hhead
        fun hplugged => ?_
      rcases hroom hplugged with ha | hc | hm | hf
      · exact .inl ha
      · exact absurd hc hclean
      · exact .inr (.inl hm)
      · exact .inr (.inr hf)

theorem inv_makeRequest (h : Inv s) (hrun : s.running = some t) (hc : s.task t = some c)
    (hhead : c.todo.head? = some (some b)) (hclear : Clear d s (.next t)) :
    Inv (s.makeRequest d t c b) := by
  obtain ⟨c', hc', hawake, hbase⟩ := h.busy t hrun
  rw [hc] at hc'
  cases hc'
  have howns := h.plugs.owns hrun hc
  obtain ⟨hnowait, hheld⟩ := hclear c b hc hhead
  have hready : c.plugged = true → c.phase = .ready := fun hp => (h.plugs.ready t c hc hp).2
  unfold State.makeRequest
  cases hphase : c.phase with
  | ready =>
    rw [Call.hand_none (by rw [hphase]; decide)] at hbase
    simp only
    split_ifs with hskip hbig
    · exact inv_next hbase hrun hawake howns
    · exact inv_next (hbase.congr rfl rfl rfl rfl) hrun hawake
        (howns.congr (fun _ => rfl) rfl)
    · refine inv_takeLock hbase hrun hawake howns hhead (fun hlock => ?_) fun hp => ?_
      · have hnoahead : c.rw.ahead = false := by
          by_contra ha
          exact hskip ⟨by simpa using ha, hlock⟩
        refine ⟨?_, hheld (.inr ⟨hphase, hnoahead, by simpa using hbig⟩) hlock⟩
        by_contra hp
        rcases hnowait (by simpa using hp) with ha | hb | ⟨hl, -⟩
        · rw [hnoahead] at ha
          cases ha
        · exact hbig hb
        · rw [hl] at hlock
          cases hlock
      · rcases hnowait hp with ha | hb | ⟨-, hr⟩
        · exact .inl ha
        · exact absurd hb hbig
        · exact .inr hr
  | lockWait =>
    rw [Call.hand_none (by rw [hphase]; decide)] at hbase
    have hno : c.plugged = false := by
      by_contra hp
      have := hready (by simpa using hp)
      rw [hphase] at this
      cases this
    refine inv_takeLock hbase hrun hawake howns hhead
      (fun hlock => ⟨hno, hheld (.inl hphase) hlock⟩) fun hp => ?_
    rw [hno] at hp
    cases hp
  | slotWait =>
    have hhand : c.hand = some b := by
      rw [Call.hand, if_pos hphase, hhead]
      rfl
    rw [hhand] at hbase
    refine inv_takeSlot hbase hrun hawake howns hhead fun hp => ?_
    have := hready hp
    rw [hphase] at this
    cases this

end Step

/-! ## The other steps -/

section Others

variable {d : Disk} {s : State} {t : Nat}

/-- A task that is in no call is set apart. -/
theorem Base.apart (h : Base s none none) (ht : s.task t = none) : Base s (some t) none := by
  refine ⟨h.used, fun b hb _ => ?_, fun u c _ hc hasleep => h.asleep u c (by simp) hc hasleep⟩
  rcases h.locked b hb (by simp) with hq | ⟨u, -, c, hc, hheld⟩
  · exact .inl hq
  · refine .inr ⟨u, fun heq => ?_, c, hc, hheld⟩
    rw [← Option.some.inj heq, ht] at hc
    cases hc

/-- Nothing but the flags of the buffers has changed. -/
theorem Inv.flags (h : Inv s) (dirt uptodate : Nat → Bool) :
    Inv { s with dirt := dirt, uptodate := uptodate } := by
  refine ⟨fun hrun => (h.idle hrun).congr rfl rfl rfl rfl, fun u hu => ?_,
    h.plugs.owner, h.plugs.ready⟩
  obtain ⟨c, hc, hawake, hbase⟩ := h.busy u hu
  exact ⟨c, hc, hawake, hbase.congr rfl rfl rfl rfl⟩

theorem Inv.noPlug (h : Inv s) (hrun : s.running = none) (m : Nat) : (s.queue m).plug = none := by
  cases hplug : (s.queue m).plug with
  | none => rfl
  | some p =>
    obtain ⟨u, k⟩ := p
    obtain ⟨c, hc, hp, -⟩ := h.plugs.owner m u k hplug
    obtain ⟨hrun', -⟩ := h.plugs.ready u c hc hp
    rw [hrun] at hrun'
    cases hrun'

/-- The task is in a call, at its first buffer. -/
theorem inv_enter {c : Call} (h : Base s (some t) none) (howns : Owns s t c)
    (hready : c.phase = .ready) (hawake : c.asleep = false) :
    Inv { s.setTask t (some c) with running := some t } := by
  have hbase : Base { s.setTask t (some c) with running := some t } (some t) none :=
    (h.setTask (some c)).congr rfl rfl rfl rfl
  exact hbase.inv rfl (State.setTask_self s t _) hready hawake
    ((howns.setTask rfl rfl (some c)).congr (fun _ => rfl) rfl)

/-- While no task runs, no call has a plug. -/
theorem Inv.unplugged {u : Nat} {c : Call} (h : Inv s) (hrun : s.running = none)
    (hc : s.task u = some c) : c.plugged = false := by
  by_contra hp
  obtain ⟨hrun', -⟩ := h.plugs.ready u c hc (by simpa using hp)
  rw [hrun] at hrun'
  cases hrun'

theorem inv_begin (h : Inv s) (hrun : s.running = none) (ht : s.task t = none) (rw : Rw) (b : Nat)
    (rest : List (Option Nat)) (k : Key) : Inv (begin d s t rw b rest k) := by
  have hnoplug := h.noPlug hrun
  have hnone : ∀ u c, u ≠ t → s.task u = some c → c.plugged = false :=
    fun u c _ hc => h.unplugged hrun hc
  have hbase := (h.idle hrun).apart ht
  unfold begin
  dsimp only
  set m := major (d.bh b).dev
  split_ifs with hdriver hsize hro hplugged
  · exact h.flags _ _
  · exact h.flags _ _
  · exact h.flags _ _
  · -- the plug changes no request
    refine inv_enter (hbase.congrPlug rfl rfl rfl (setQueue_reqs rfl) fun n hnone' hne => ?_)
      ⟨fun n u k' hk' => ?_, hnone⟩ rfl rfl
    · have hn : n ≠ m := by
        rintro rfl
        simp only [Queue.idle, Bool.and_eq_true, List.isEmpty_iff] at hplugged
        exact hne hplugged.1.2
      rw [State.setQueue_of_ne s hn]
      exact hnone'
    · by_cases hn : n = m
      · rw [hn, State.setQueue_self] at hk'
        cases hk'
        exact ⟨rfl, hplugged, hn.symm⟩
      · rw [State.setQueue_of_ne s hn, hnoplug n] at hk'
        cases hk'
  · refine inv_enter hbase ⟨fun n u k' hk' => ?_, hnone⟩ rfl rfl
    rw [hnoplug n] at hk'
    cases hk'

/-- The end of a call takes the plug away. -/
theorem inv_finish {c : Call} (h : Inv s) (hrun : s.running = some t) (hc : s.task t = some c)
    (htodo : c.todo = []) : Inv (s.finish t c) := by
  obtain ⟨c', hc', -, hbase⟩ := h.busy t hrun
  rw [hc] at hc'
  cases hc'
  have howns := h.plugs.owns hrun hc
  have hhand : c.hand = none := by
    rw [Call.hand, htodo]
    split_ifs <;> rfl
  rw [hhand] at hbase
  have hreqs : ∀ n, ((if c.plugged = true then
      s.setQueue c.major { (s.queue c.major) with plug := none } else s).queue n).reqs =
      (s.queue n).reqs := by
    intro n
    split_ifs
    · exact setQueue_reqs (q := { s.queue c.major with plug := none }) rfl n
    · rfl
  have hplug : ∀ n, ((if c.plugged = true then
      s.setQueue c.major { (s.queue c.major) with plug := none } else s).queue n).plug = none := by
    intro n
    cases hk : (s.queue n).plug with
    | none =>
      split_ifs
      · by_cases hn : n = c.major
        · rw [hn, State.setQueue_self]
        · rw [State.setQueue_of_ne s hn, hk]
      · exact hk
    | some p =>
      obtain ⟨u, k⟩ := p
      obtain ⟨-, hp, hmajor⟩ := howns.owner n u k hk
      rw [if_pos hp, ← hmajor, State.setQueue_self]
  unfold State.finish
  dsimp only
  have htaskEq : (if c.plugged = true then
      s.setQueue c.major { (s.queue c.major) with plug := none } else s).task = s.task := by
    split_ifs <;> rfl
  have hbase₁ : Base (if c.plugged = true then
      s.setQueue c.major { (s.queue c.major) with plug := none } else s) (some t) none := by
    refine hbase.congrPlug ?_ ?_ htaskEq hreqs fun n _ _ => hplug n
    · split_ifs <;> rfl
    · split_ifs <;> rfl
  generalize (if c.plugged = true then
      s.setQueue c.major { (s.queue c.major) with plug := none } else s) = s₁ at *
  have htask : (s₁.setTask t none).task t = none := State.setTask_self s₁ t _
  have hended : Base { s₁.setTask t none with running := none } (some t) none :=
    (hbase₁.setTask none).congr rfl rfl rfl rfl
  refine (hended.join (fun b hb _ => (by cases hb)) fun c' hc' _ => ?_).invIdle rfl hplug
    fun u c' hc' => ?_
  · rw [show _ = none from htask] at hc'
    cases hc'
  · by_cases hu : u = t
    · rw [hu, show _ = none from htask] at hc'
      cases hc'
    · change (s₁.setTask t none).task u = some c' at hc'
      rw [State.setTask_of_ne s₁ hu, htaskEq] at hc'
      exact howns.others u c' hu hc'

theorem inv_resume {c : Call} (h : Inv s) (hrun : s.running = none) (hc : s.task t = some c)
    (hawake : c.asleep = false) : Inv { s with running := some t } := by
  refine ⟨fun hrun' => (by cases hrun'), fun u hu => ?_, fun n u k hk => ?_, fun u c' hc' hp => ?_⟩
  · cases hu
    exact ⟨c, hc, hawake, ((h.idle hrun).split hc).congr rfl rfl rfl rfl⟩
  · rw [h.noPlug hrun n] at hk
    cases hk
  · rw [h.unplugged hrun hc'] at hp
    cases hp

end Others

/-! ## The driver -/

section Done

variable {s : State} {m b : Nat} {r : Request} {rs : List Request} {bs : List Nat}

/-- What is left in the queues when the buffer `b` is done. -/
structure Left (s s' : State) (b : Nat) : Prop where
  plug : ∀ n, (s'.queue n).plug = (s.queue n).plug
  reqs : ∀ n, ∀ p ∈ (s.queue n).reqs, ∀ b' ∈ p.bhs, b' ≠ b →
    ∃ q ∈ (s'.queue n).reqs, b' ∈ q.bhs

theorem Left.mk' {s' : State} (hreqs : (s.queue m).reqs = r :: rs) (hbhs : r.bhs = b :: bs)
    (hplug : (s'.queue m).plug = (s.queue m).plug) (hother : ∀ n, n ≠ m → s'.queue n = s.queue n)
    (hrs : ∀ p ∈ rs, p ∈ (s'.queue m).reqs)
    (hbs : ∀ b' ∈ bs, ∃ p ∈ (s'.queue m).reqs, b' ∈ p.bhs) : Left s s' b := by
  refine ⟨fun n => ?_, fun n p hp b' hb' hne => ?_⟩
  · by_cases hn : n = m
    · rw [hn, hplug]
    · rw [hother n hn]
  · by_cases hn : n = m
    · subst hn
      rw [hreqs] at hp
      rcases List.mem_cons.1 hp with rfl | hp
      · rw [hbhs] at hb'
        rcases List.mem_cons.1 hb' with heq | hb'
        · exact absurd heq hne
        · exact hbs b' hb'
      · exact ⟨p, hrs p hp, hb'⟩
    · exact ⟨p, by rwa [hother n hn], hb'⟩

theorem Left.queued {s' : State} (h : Left s s' b) {b' : Nat} (hne : b' ≠ b) (hq : Queued s b') :
    Queued s' b' := by
  obtain ⟨n, p, hp, hb'⟩ := hq
  exact ⟨n, h.reqs n p hp b' hb' hne⟩

theorem Left.open {s' : State} (h : Left s s' b) {b' : Nat} (hne : b' ≠ b)
    (ho : Open s (some b')) : Open s' (some b') := by
  obtain ⟨n, hplug, p, hp, hb'⟩ := ho
  obtain ⟨q, hq, hbq⟩ := h.reqs n p hp b' (hb' b' rfl) hne
  refine ⟨n, by rwa [h.plug n], q, hq, fun b'' heq => ?_⟩
  rwa [← Option.some.inj heq]

/-- The request goes on with its other buffers. -/
theorem Base.doneOne {t hand : Option Nat} (h : Base s t hand)
    (hreqs : (s.queue m).reqs = r :: rs) (hbhs : r.bhs = b :: bs) (uptodate : Nat → Bool) :
    Base ({ s.unlock b with uptodate := uptodate }.setQueue m
      { (s.queue m) with reqs := { r with bhs := bs } :: rs }) t hand := by
  set s' := { s.unlock b with uptodate := uptodate }.setQueue m
      { (s.queue m) with reqs := { r with bhs := bs } :: rs } with hs'
  have hm : (s'.queue m).reqs = { r with bhs := bs } :: rs := by
    rw [hs', State.setQueue_self]
  have hother : ∀ n, n ≠ m → s'.queue n = s.queue n := by
    intro n hn
    rw [hs', State.setQueue_of_ne _ hn]
    rfl
  have hleft : Left s s' b := by
    refine Left.mk' hreqs hbhs ?_ hother (fun p hp => ?_) fun b'' hb'' => ?_
    · rw [hs', State.setQueue_self]
    · rw [hm]
      exact List.mem_cons_of_mem _ hp
    · rw [hm]
      exact ⟨_, List.mem_cons_self, hb''⟩
  have hunlock := h.unlock b
  have hlock : ∀ b', s'.lock b' = true → b' ≠ b := fun b' hb' => (unlock_lock (s := s) hb').1
  refine ⟨fun i hi => ?_, fun b' hb' hhand => ?_, fun u c hu hc hasleep => ?_⟩
  · obtain ⟨n, p, hp, hslot⟩ := h.used i hi
    by_cases hn : n = m
    · subst hn
      rw [hreqs] at hp
      rcases List.mem_cons.1 hp with rfl | hp
      · refine ⟨n, { p with bhs := bs }, ?_, hslot⟩
        rw [hm]
        exact List.mem_cons_self
      · refine ⟨n, p, ?_, hslot⟩
        rw [hm]
        exact List.mem_cons_of_mem _ hp
    · exact ⟨n, p, by rwa [hother n hn], hslot⟩
  · exact (hunlock.locked b' hb' hhand).imp (hleft.queued (hlock b' hb')) fun hheld => hheld
  · rcases hunlock.asleep u c hu hc hasleep with ⟨hphase, b', hhead, hb', ho⟩ | ⟨hphase, n, hn, hp⟩
    · exact .inl ⟨hphase, b', hhead, hb', hleft.open (hlock b' hb') ho⟩
    · refine .inr ⟨hphase, n, (hleft.plug n).trans hn, ?_⟩
      by_cases hnm : n = m
      · rw [hnm, hm]
        exact ⟨_, List.mem_cons_self, fun b' hb' => (by cases hb')⟩
      · rw [hother n hnm]
        exact hp

theorem Base.doneAll {t hand : Option Nat} (h : Base s t hand)
    (hreqs : (s.queue m).reqs = r :: rs) (hbhs : r.bhs = [b]) (uptodate : Nat → Bool) :
    Base { { s.unlock b with uptodate := uptodate }.setQueue m { (s.queue m) with reqs := rs } with
      used := update s.used r.slot false
      task := wakeSlot (s.unlock b).task } t hand := by
  set s' : State :=
    { { s.unlock b with uptodate := uptodate }.setQueue m { (s.queue m) with reqs := rs } with
      used := update s.used r.slot false
      task := wakeSlot (s.unlock b).task } with hs'
  have hm : (s'.queue m).reqs = rs := by
    change (({ s.unlock b with uptodate := uptodate }.setQueue m _).queue m).reqs = rs
    rw [State.setQueue_self]
  have hother : ∀ n, n ≠ m → s'.queue n = s.queue n := by
    intro n hn
    change ({ s.unlock b with uptodate := uptodate }.setQueue m _).queue n = _
    rw [State.setQueue_of_ne _ hn]
    rfl
  have hleft : Left s s' b := by
    refine Left.mk' hreqs hbhs ?_ hother (fun p hp => ?_) fun b'' hb'' => by cases hb''
    · change (({ s.unlock b with uptodate := uptodate }.setQueue m _).queue m).plug = _
      rw [State.setQueue_self]
    · rwa [hm]
  have hunlock := h.unlock b
  have hlock : ∀ b', (s.unlock b).lock b' = true → b' ≠ b := fun b' hb' => (unlock_lock hb').1
  refine ⟨fun i hi => ?_, fun b' hb' hhand => ?_, fun u c hu hc hasleep => ?_⟩
  · change update s.used r.slot false i = true at hi
    have hne : i ≠ r.slot := by
      rintro rfl
      rw [update_self] at hi
      cases hi
    rw [update_of_ne hne] at hi
    obtain ⟨n, p, hp, hslot⟩ := h.used i hi
    by_cases hn : n = m
    · subst hn
      rw [hreqs] at hp
      rcases List.mem_cons.1 hp with rfl | hp
      · exact absurd hslot.symm hne
      · exact ⟨n, p, by rwa [hm], hslot⟩
    · exact ⟨n, p, by rwa [hother n hn], hslot⟩
  · rcases hunlock.locked b' hb' hhand with hq | ⟨u, hu, hheld⟩
    · exact .inl (hleft.queued (hlock b' hb') hq)
    · obtain ⟨c, hc, hheld⟩ := held_wakeSlot hheld
      exact .inr ⟨u, hu, c, hc, hheld⟩
  · -- whoever waits for a slot has been woken
    obtain ⟨c₁, hc₁, -, hsame⟩ := wake_some hc
    obtain ⟨rfl, hphase⟩ := hsame hasleep
    rcases hunlock.asleep u c hu hc₁ hasleep with ⟨hwait, b', hhead, hb', hq⟩ | ⟨hwait, -⟩
    · exact .inl ⟨hwait, b', hhead, hb', hleft.open (hlock b' hb') hq⟩
    · exact absurd hwait hphase

/-- The plugs are where they were, and the calls are as they were but for being woken. -/
theorem Plugs.wake {s s' : State} (h : Plugs s) (hrun : s'.running = s.running)
    (hplug : ∀ n, (s'.queue n).plug = (s.queue n).plug)
    (htask : ∀ u c', s'.task u = some c' →
      ∃ c, s.task u = some c ∧ c' = { c with asleep := c'.asleep })
    (hsome : ∀ u c, s.task u = some c → ∃ c', s'.task u = some c') : Plugs s' := by
  refine ⟨fun n u k hk => ?_, fun u c' hc' hp => ?_⟩
  · rw [hplug n] at hk
    obtain ⟨c, hc, hp, hmajor⟩ := h.owner n u k hk
    obtain ⟨c', hc'⟩ := hsome u c hc
    obtain ⟨c₁, hc₁, heq⟩ := htask u c' hc'
    rw [hc] at hc₁
    cases hc₁
    refine ⟨c', hc', ?_, ?_⟩
    · rw [heq]
      exact hp
    · rw [heq]
      exact hmajor
  · obtain ⟨c, hc, heq⟩ := htask u c' hc'
    rw [heq] at hp
    obtain ⟨hrun', hphase⟩ := h.ready u c hc hp
    rw [heq, hrun]
    exact ⟨hrun', hphase⟩

theorem inv_done {d : Disk} {s' : State} {uptodate : Bool} (h : Inv s)
    (hstep : step d s (.done m uptodate) = some s') : Inv s' := by
  rw [step] at hstep
  cases hplug : (s.queue m).plug with
  | some p =>
    rw [hplug] at hstep
    cases hstep
  | none =>
    cases hreqs : (s.queue m).reqs with
    | nil =>
      rw [hplug, hreqs] at hstep
      cases hstep
    | cons r rs =>
      rw [hplug, hreqs] at hstep
      dsimp only at hstep
      cases hbhs : r.bhs with
      | nil =>
        rw [hbhs] at hstep
        cases hstep
      | cons b bs =>
        rw [hbhs] at hstep
        dsimp only at hstep
        have hqueue : (s.unlock b).queue = s.queue := rfl
        by_cases hbs : bs = []
        · rw [if_pos hbs] at hstep
          cases hstep
          rw [hbs] at hbhs
          refine ⟨fun hrun => (h.idle hrun).doneAll hreqs hbhs _, fun u hu => ?_, ?_⟩
          · obtain ⟨c, hc, hawake, hbase⟩ := h.busy u hu
            refine ⟨c, ?_, hawake, hbase.doneAll hreqs hbhs _⟩
            exact wakeSlot_awake (wakeLock_awake hc hawake) hawake
          · refine h.plugs.wake rfl (setQueue_plug rfl) (fun u c' hc' => ?_) fun u c hc => ?_
            · obtain ⟨c₁, hc₁, heq₁, -⟩ := wake_some hc'
              obtain ⟨c₂, hc₂, heq₂, -⟩ := wake_some hc₁
              refine ⟨c₂, hc₂, ?_⟩
              rw [heq₁, heq₂]
            · obtain ⟨c₁, hc₁⟩ := wakeLock_isSome b hc
              exact wakeSlot_isSome hc₁
        · rw [if_neg hbs] at hstep
          cases hstep
          refine ⟨fun hrun => (h.idle hrun).doneOne hreqs hbhs _, fun u hu => ?_, ?_⟩
          · obtain ⟨c, hc, hawake, hbase⟩ := h.busy u hu
            exact ⟨c, wakeLock_awake hc hawake, hawake, hbase.doneOne hreqs hbhs _⟩
          · refine h.plugs.wake rfl (setQueue_plug rfl) (fun u c' hc' => ?_) fun u c hc => ?_
            · obtain ⟨c₁, hc₁, heq₁, -⟩ := wake_some hc'
              exact ⟨c₁, hc₁, heq₁⟩
            · exact wakeLock_isSome b hc

end Done

/-! ## Runs -/

section Run

variable {d : Disk} {s s' : State}

/-- **One step.** -/
theorem inv_step {e : Event} (h : Inv s) (hclear : Clear d s e) (hstep : step d s e = some s') :
    Inv s' := by
  cases e with
  | call t rw bhs k =>
    simp only [step] at hstep
    split_ifs at hstep with hfree
    split at hstep
    · cases hstep
      exact inv_begin h hfree.1 hfree.2 rw _ _ k
    · cases hstep
      exact h
  | next t =>
    simp only [step] at hstep
    split_ifs at hstep with hrun
    cases hc : s.task t with
    | none =>
      rw [hc] at hstep
      cases hstep
    | some c =>
      rw [hc] at hstep
      dsimp only at hstep
      cases htodo : c.todo with
      | nil =>
        rw [htodo] at hstep
        cases hstep
        exact inv_finish h hrun hc htodo
      | cons o rest =>
        rw [htodo] at hstep
        cases o with
        | none =>
          cases hstep
          obtain ⟨c', hc', hawake, hbase⟩ := h.busy t hrun
          rw [hc] at hc'
          cases hc'
          have hhand : c.hand = none := by
            rw [Call.hand, htodo]
            split_ifs <;> rfl
          rw [hhand] at hbase
          exact inv_next hbase hrun hawake (h.plugs.owns hrun hc)
        | some b =>
          cases hstep
          exact inv_makeRequest h hrun hc (by rw [htodo]; rfl) hclear
  | resume t =>
    simp only [step] at hstep
    split_ifs at hstep with hrun
    cases hc : s.task t with
    | none =>
      rw [hc] at hstep
      cases hstep
    | some c =>
      rw [hc] at hstep
      dsimp only at hstep
      split_ifs at hstep with hasleep
      cases hstep
      exact inv_resume h hrun hc (by simpa using hasleep)
  | done m uptodate => exact inv_done h hstep

/-- Before the first call. -/
structure Start (s : State) : Prop where
  running : s.running = none
  task : ∀ t, s.task t = none
  lock : ∀ b, s.lock b = false
  used : ∀ i, s.used i = false
  queue : ∀ m, s.queue m = ⟨none, []⟩

theorem Start.inv (h : Start s) : Inv s := by
  refine ⟨fun _ => ⟨fun i hi => ?_, fun b hb _ => ?_, fun u c _ hc _ => ?_⟩, fun t ht => ?_,
    fun m u k hk => ?_, fun u c hc _ => ?_⟩
  · rw [h.used i] at hi
    cases hi
  · rw [h.lock b] at hb
    cases hb
  · rw [h.task u] at hc
    cases hc
  · rw [h.running] at ht
    cases ht
  · rw [h.queue m] at hk
    cases hk
  · rw [h.task u] at hc
    cases hc

theorem inv_reach {s₀ : State} (h0 : Start s₀) (h : Reach (step d) (Clear d) s₀ s) : Inv s :=
  h.invariant h0.inv fun _ _ _ hinv hclear hstep => inv_step hinv hclear hstep

/-- **No deadlock.**  In every run in which a task with a plug does not have to wait, and no task waits
for a buffer that is with a task that waits for a slot: while a task is asleep, a queue without a plug
has a request. -/
theorem plug_no_deadlock (d : Disk) {s₀ s : State} (h0 : Start s₀)
    (h : Reach (step d) (Clear d) s₀ s) {t : Nat} {c : Call} (hc : s.task t = some c)
    (hasleep : c.asleep = true) : ∃ m, (s.queue m).plug = none ∧ (s.queue m).reqs ≠ [] := by
  have hinv := inv_reach h0 h
  have hwaits : Waits s c := by
    cases hrun : s.running with
    | none => exact (hinv.idle hrun).asleep t c (by simp) hc hasleep
    | some u =>
      obtain ⟨c', hc', hawake, hbase⟩ := hinv.busy u hrun
      refine hbase.asleep t c (fun heq => ?_) hc hasleep
      rw [Option.some.inj heq, hc] at hc'
      cases hc'
      rw [hawake] at hasleep
      cases hasleep
  rcases hwaits with ⟨-, b, -, -, m, hplug, r, hr, -⟩ | ⟨-, m, hplug, r, hr, -⟩ <;>
    exact ⟨m, hplug, List.ne_nil_of_mem hr⟩

end Run

/-! ## A run with a sleep -/

/-- What `Clear` asks, where no buffer is locked. -/
def clearb (d : Disk) (s : State) : Event → Bool
  | .next t =>
    match s.task t with
    | none => true
    | some c =>
      match c.todo.head? with
      | some (some b) => !s.lock b && (!c.plugged || c.rw.ahead || d.tooBig b || s.clean c b ||
          (merge d c.major c.rw.isWrite b (s.queue c.major)).isSome ||
          (freeSlot s.used (slotLimit c.rw.isWrite)).isSome)
      | _ => true
  | _ => true

theorem clear_of_clearb {d : Disk} {s : State} {e : Event} (h : clearb d s e = true) :
    Clear d s e := by
  cases e with
  | next t =>
    intro c b hc hhead
    simp only [clearb, hc, hhead, Bool.and_eq_true, Bool.not_eq_true', Bool.or_eq_true] at h
    obtain ⟨hlock, hroom⟩ := h
    refine ⟨fun hplugged => ?_, fun _ hlock' => ?_⟩
    · rw [hplugged] at hroom
      simp only [noWait, Room, hlock]
      simpa [or_assoc] using hroom
    · rw [hlock] at hlock'
      cases hlock'
  | _ => trivial

/-- Buffers below 64 are on a hard disk, no two of them next to each other; the others are on a
floppy. -/
def twoDisks : Disk where
  bh b := if b < 64 then ⟨0x300, 2 * b, 1024⟩ else ⟨0x200, b, 1024⟩
  driver _ := true
  blkSize _ := none
  blksizeSize _ := 1024
  readOnly _ := false

def quiet : State where
  lock _ := false
  dirt _ := false
  uptodate _ := false
  queue _ := ⟨none, []⟩
  used _ := false
  task _ := none
  running := none

theorem start_quiet : Start quiet := ⟨rfl, fun _ => rfl, fun _ => rfl, fun _ => rfl, fun _ => rfl⟩

/-- A task reads the `n` buffers from `b` on, and does not have to wait. -/
def readAll (t b n : Nat) : List Event :=
  .call t .read ((List.range' b n).map some) ⟨false, 0, 0⟩ :: List.replicate (n + 1) (.next t)

/-- The table is full, and the next task waits for a slot. -/
def fullTable : List Event :=
  readAll 0 0 16 ++ readAll 0 16 16 ++ [.call 1 .read [some 64] ⟨false, 0, 0⟩, .next 1]

theorem plug_no_deadlock_full : ∃ s c, Start quiet ∧ Reach (step twoDisks) (Clear twoDisks) quiet s ∧
    s.task 1 = some c ∧ c.asleep = true ∧ ∃ m, (s.queue m).plug = none ∧ (s.queue m).reqs ≠ [] := by
  have hrun : ((execOkFrom (step twoDisks) (clearb twoDisks) quiet fullTable).bind
      fun s => (s.task 1).map Call.asleep) = some true := by
    decide +kernel
  obtain ⟨s, hs, htask⟩ := Option.bind_eq_some_iff.1 hrun
  obtain ⟨c, hc, hasleep⟩ := Option.map_eq_some_iff.1 htask
  have hreach : Reach (step twoDisks) (Clear twoDisks) quiet s :=
    Reach.of_execOkFrom (fun _ _ => clear_of_clearb) .init hs
  exact ⟨s, c, start_quiet, hreach, hc, hasleep,
    plug_no_deadlock twoDisks start_quiet hreach hc hasleep⟩

/-! ## A deadlock -/

/-- `MAX_BLKDEV`, the number of the queues. -/
def maxBlkdev : Nat := 32

/-- The hard disk has filled the table.  A task waits for a slot with a buffer of the floppy; another
one wants that buffer behind one of its own, and puts a plug in.  It gets a slot for its own buffer,
and sleeps until the other task has read.  When that one has got a slot, its request is behind the
plug. -/
def plugged : List Event :=
  readAll 0 0 16 ++ readAll 0 16 16 ++
    ([.call 1 .read [some 64] ⟨false, 0, 0⟩, .next 1,
      .call 2 .read [some 65, some 64] ⟨false, 0, 0⟩, .next 2,
      .done 3 true, .resume 2, .next 2, .next 2, .resume 1, .next 1,
      .done 3 true, .resume 1, .next 1, .next 1] : List Event) ++
    List.replicate 30 (Event.done 3 true)

theorem plug_deadlock : ∃ s, Start quiet ∧ Reach (step twoDisks) anyStep quiet s ∧
    (∃ c, s.task 2 = some c ∧ c.asleep = true) ∧
      ∀ m < maxBlkdev, (s.queue m).plug = none → (s.queue m).reqs = [] := by
  have hrun : ((execFrom (step twoDisks) quiet plugged).map fun s =>
      ((s.task 2).map Call.asleep, decide (∀ m < maxBlkdev, (s.queue m).plug = none →
        (s.queue m).reqs = []))) = some (some true, true) := by
    decide +kernel
  obtain ⟨s, hs, heq⟩ := Option.map_eq_some_iff.1 hrun
  obtain ⟨htask, hqueues⟩ := Prod.mk.inj heq
  exact ⟨s, start_quiet, Reach.of_execFrom .init hs, Option.map_eq_some_iff.1 htask,
    of_decide_eq_true hqueues⟩

end LinuxEvocation.Block
