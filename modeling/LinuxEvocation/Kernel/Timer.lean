import LinuxEvocation.Lib.LinkedList
import LinuxEvocation.Lib.StableOrder

/-!
# The timer list of `kernel/sched.c`

`next_timer` heads a list on which the `expires` of each timer counts from the expiry of the timer
in front of it, so that a clock tick has one number to lower.

* `Timers`, `addTimer`, `delTimer`, `runTimers` — the list and the code, down to the place `p`
  that is written through.
* `Entry`, `Queue.step` — what the list is for: timers with the ticks that remain, in the order
  in which they were added.
* `entries` — the timers of the list with their remaining ticks.
* `timer_list_refines` — a run of the list is a run of the queue.
-/

namespace LinuxEvocation.Timer

open Function (update update_of_ne update_self)
open LinkedList StableOrder

/-! ## The list and the code -/

/-- A place that holds a `struct timer_list *`. -/
inductive Link where
  /-- The variable `next_timer`. -/
  | nextTimer
  /-- The field `next` of a timer. -/
  | next (timer : Nat)
  deriving DecidableEq

theorem Link.next_ne_nextTimer (timer : Nat) : Link.next timer ≠ .nextTimer := nofun

/-- `struct timer_list` at every address, and `next_timer`; 0 is `NULL`. -/
structure Timers where
  link : Link → Nat
  expires : Nat → BitVec 32
  data : Nat → BitVec 32
  function : Nat → Nat

/-- `*p = timer`. -/
def Timers.store (s : Timers) (p : Link) (timer : Nat) : Timers :=
  { s with link := update s.link p timer }

/-- `timer->expires = e`. -/
def Timers.setExpires (s : Timers) (timer : Nat) (e : BitVec 32) : Timers :=
  { s with expires := update s.expires timer e }

section Stores

variable (s : Timers) (p : Link) (timer v : Nat) (e : BitVec 32)

@[simp] theorem link_store_self : (s.store p v).link p = v := update_self _ _ _

theorem link_store_of_ne {q : Link} (h : q ≠ p) : (s.store p v).link q = s.link q :=
  update_of_ne h _ _

@[simp] theorem expires_store : (s.store p v).expires = s.expires := rfl

@[simp] theorem link_setExpires : (s.setExpires timer e).link = s.link := rfl

@[simp] theorem expires_setExpires_self : (s.setExpires timer e).expires timer = e :=
  update_self _ _ _

end Stores

/-- The loop of `add_timer`, and the store behind it. -/
def addLoop (timer : Nat) : Nat → Timers → Link → Option Timers
  | 0, _, _ => none
  | fuel + 1, s, p =>
    if s.link p = 0 then some (s.store p timer)
    else if s.expires (s.link p) > s.expires timer then
      some (((s.setExpires (s.link p) (s.expires (s.link p) - s.expires timer)).store
        (.next timer) (s.link p)).store p timer)
    else
      addLoop timer fuel (s.setExpires timer (s.expires timer - s.expires (s.link p)))
        (.next (s.link p))

/-- `add_timer`. -/
def addTimer (fuel : Nat) (s : Timers) (timer : Nat) : Option Timers :=
  if timer = 0 then some s
  else addLoop timer fuel (s.store (.next timer) 0) .nextTimer

/-- `if ((*p = timer->next) != NULL) (*p)->expires += timer->expires`. -/
def Timers.unlink (s : Timers) (p : Link) (timer : Nat) : Timers :=
  let s' := s.store p (s.link (.next timer))
  if s'.link p ≠ 0 then s'.setExpires (s'.link p) (s'.expires (s'.link p) + s'.expires timer)
  else s'

/-- The loop of `del_timer`: what it returns, and the list. -/
def delLoop (timer : Nat) : Nat → Timers → Link → BitVec 32 → Option (Bool × Timers)
  | 0, _, _, _ => none
  | fuel + 1, s, p, expires =>
    if s.link p = 0 then some (false, s)
    else if s.link p = timer then
      some (true, (s.unlink p timer).setExpires timer ((s.unlink p timer).expires timer + expires))
    else delLoop timer fuel s (.next (s.link p)) (expires + s.expires (s.link p))

/-- `del_timer`. -/
def delTimer (fuel : Nat) (s : Timers) (timer : Nat) : Option (Bool × Timers) :=
  delLoop timer fuel s .nextTimer 0

/-- The part of `do_timer` that runs the list: the calls it makes, and the list. -/
def runLoop : Nat → Timers → List (Nat × BitVec 32) → Option (List (Nat × BitVec 32) × Timers)
  | 0, _, _ => none
  | fuel + 1, s, ran =>
    if s.link .nextTimer ≠ 0 ∧ s.expires (s.link .nextTimer) = 0 then
      runLoop fuel (s.store .nextTimer (s.link (.next (s.link .nextTimer))))
        (ran ++ [(s.function (s.link .nextTimer), s.data (s.link .nextTimer))])
    else if s.link .nextTimer ≠ 0 then
      some (ran, s.setExpires (s.link .nextTimer) (s.expires (s.link .nextTimer) - 1))
    else some (ran, s)

/-- A clock tick. -/
def runTimers (fuel : Nat) (s : Timers) : Option (List (Nat × BitVec 32) × Timers) :=
  runLoop fuel s []

/-! ## What the list is for -/

/-- A queued timer. -/
structure Entry where
  timer : Nat
  function : Nat
  data : BitVec 32
  /-- The ticks until it runs. -/
  remaining : Nat
  deriving DecidableEq

/-- What is done to the list. -/
inductive Event where
  /-- The fields of a timer are filled in and `add_timer` is called for it. -/
  | add (timer function : Nat) (data expires : BitVec 32)
  | del (timer : Nat)
  | tick
  deriving Repr

/-- What comes of it. -/
inductive Output where
  | added
  /-- The remaining ticks that `del_timer` writes back, if it finds the timer. -/
  | deleted (remaining : Option Nat)
  /-- The functions called, with their arguments. -/
  | ran (calls : List (Nat × BitVec 32))
  deriving DecidableEq

/-- One tick less. -/
def Entry.tick (x : Entry) : Entry := { x with remaining := x.remaining - 1 }

/-- The queue, in the order in which the timers were added. -/
def Queue.step (q : List Entry) : Event → List Entry × Output
  | .add timer function data expires =>
    (if timer = 0 then q else q ++ [⟨timer, function, data, expires.toNat⟩], .added)
  | .del timer =>
    (q.filter fun x => x.timer ≠ timer,
      .deleted ((q.find? fun x => x.timer = timer).map Entry.remaining))
  | .tick =>
    ((q.filter fun x => ¬ x.remaining = 0).map Entry.tick,
      .ran ((q.filter fun x => x.remaining = 0).map fun x => (x.function, x.data)))

/-- A timer is not added while it is queued. -/
def Allowed (q : List Entry) : Event → Prop
  | .add timer _ _ _ => ∀ x ∈ q, x.timer ≠ timer
  | .del _ => True
  | .tick => True

/-- The caller of `add_timer` fills in the timer. -/
def Timers.prepare (s : Timers) (timer function : Nat) (data expires : BitVec 32) : Timers :=
  { s with
    expires := update s.expires timer expires
    data := update s.data timer data
    function := update s.function timer function }

/-- One event on the list. -/
def step (fuel : Nat) (s : Timers) : Event → Option (Timers × Output)
  | .add timer function data expires =>
    (addTimer fuel (s.prepare timer function data expires) timer).map fun s' => (s', .added)
  | .del timer =>
    (delTimer fuel s timer).map fun r =>
      (r.2, .deleted (if r.1 then some (r.2.expires timer).toNat else none))
  | .tick => (runTimers fuel s).map fun r => (r.2, .ran r.1)

/-- A run of the list. -/
def run (fuel : Nat) (s : Timers) : List Event → Option (Timers × List Output)
  | [] => some (s, [])
  | e :: es =>
    (step fuel s e).bind fun r => (run fuel r.1 es).map fun r' => (r'.1, r.2 :: r'.2)

/-- The same run of the queue. -/
def Queue.run (q : List Entry) : List Event → List Entry × List Output
  | [] => (q, [])
  | e :: es => ((run (step q e).1 es).1, (step q e).2 :: (run (step q e).1 es).2)

/-- No step of the run adds a timer that is queued. -/
def Legal (q : List Entry) : List Event → Prop
  | [] => True
  | e :: es => Allowed q e ∧ Legal (Queue.step q e).1 es

/-! ## The entries of the list -/

/-- The place `p` leads to the timers of `l`, and then to `NULL`. -/
def Chain (link : Link → Nat) (p : Link) (l : List Nat) : Prop :=
  Threads 0 (fun a => link (.next a)) (link p) l

/-- The timers of `l` with their remaining ticks, when `acc` ticks pass before the first one
counts. -/
def entries (s : Timers) : Nat → List Nat → List Entry
  | _, [] => []
  | acc, a :: l =>
    ⟨a, s.function a, s.data a, acc + (s.expires a).toNat⟩ ::
      entries s (acc + (s.expires a).toNat) l

/-- The list stands for the queue `q`. -/
def Represents (s : Timers) (q : List Entry) : Prop :=
  ∃ l, Chain s.link .nextTimer l ∧ Sorts Entry.remaining (entries s 0 l) q ∧
    ∀ x ∈ q, x.remaining < 2 ^ 32

section Chain

variable {link link' : Link → Nat} {p : Link} {a : Nat} {l : List Nat}

@[simp]
theorem chain_nil : Chain link p [] ↔ link p = 0 := Iff.rfl

@[simp]
theorem chain_cons : Chain link p (a :: l) ↔ link p = a ∧ a ≠ 0 ∧ Chain link (.next a) l := Iff.rfl

/-- Only what leads to the timers, and what they hold, matters. -/
theorem Chain.congr {p' : Link} (h : Chain link p l) (hp : link' p' = link p)
    (hl : ∀ a ∈ l, link' (.next a) = link (.next a)) : Chain link' p' l := by
  unfold Chain at h ⊢
  rw [hp]
  exact Threads.congr h hl

theorem Chain.nodup (h : Chain link p l) : l.Nodup := Threads.nodup h

end Chain

section Entries

variable {s s' : Timers} {acc : Nat} {l : List Nat}

theorem entries_timer (s : Timers) (acc : Nat) (l : List Nat) :
    (entries s acc l).map Entry.timer = l := by
  induction l generalizing acc with
  | nil => rfl
  | cons a l ih =>
    rw [entries, List.map_cons, ih]

theorem mem_of_mem_entries {x : Entry} (h : x ∈ entries s acc l) : x.timer ∈ l := by
  have := List.mem_map_of_mem (f := Entry.timer) h
  rwa [entries_timer] at this

theorem entries_congr (hexp : ∀ a ∈ l, s'.expires a = s.expires a)
    (hfun : ∀ a ∈ l, s'.function a = s.function a) (hdata : ∀ a ∈ l, s'.data a = s.data a) :
    entries s' acc l = entries s acc l := by
  induction l generalizing acc with
  | nil => rfl
  | cons a l ih =>
    have ha : a ∈ a :: l := List.mem_cons_self
    rw [entries, entries, hexp a ha, hfun a ha, hdata a ha,
      ih (fun b hb => hexp b (List.mem_cons_of_mem _ hb))
        (fun b hb => hfun b (List.mem_cons_of_mem _ hb))
        fun b hb => hdata b (List.mem_cons_of_mem _ hb)]

/-- One tick less in front is one tick less for all. -/
theorem entries_tick : (entries s (acc + 1) l).map Entry.tick = entries s acc l := by
  induction l generalizing acc with
  | nil => rfl
  | cons a l ih =>
    have hacc : acc + 1 + (s.expires a).toNat = acc + (s.expires a).toNat + 1 := by omega
    rw [entries, entries, List.map_cons, hacc, ih]
    rfl

end Entries

/-! ## `add_timer` -/

/-- What a loop that starts at the place `p`, in front of the timers of `l`, leaves alone. -/
structure Frame (s s' : Timers) (p : Link) (l : List Nat) (timer : Nat) : Prop where
  link : ∀ q, q ≠ p → q ≠ .next timer → (∀ a ∈ l, q ≠ .next a) → s'.link q = s.link q
  expires : ∀ a, a ∉ l → a ≠ timer → s'.expires a = s.expires a
  function : s'.function = s.function
  data : s'.data = s.data

/-- **The loop of `add_timer`** puts the timer behind those that run no later, and changes no
other remaining time. -/
theorem addLoop_spec {timer : Nat} (h0 : timer ≠ 0) {e : Nat} {l : List Nat} {s : Timers}
    {p : Link} {acc fuel : Nat} (hl : Chain s.link p l) (ht : timer ∉ l) (hp : p ≠ .next timer)
    (hpl : ∀ a ∈ l, p ≠ .next a) (hnext : s.link (.next timer) = 0) (hacc : acc ≤ e)
    (he : (s.expires timer).toNat = e - acc) (hfuel : l.length < fuel) :
    ∃ s' l', addLoop timer fuel s p = some s' ∧ Chain s'.link p l' ∧
      entries s' acc l' = place Entry.remaining ⟨timer, s.function timer, s.data timer, e⟩
        (entries s acc l) ∧ Frame s s' p l timer := by
  induction l generalizing s p acc fuel with
  | nil =>
    obtain ⟨fuel, rfl⟩ : ∃ k, fuel = k + 1 := ⟨fuel - 1, by simp at hfuel; omega⟩
    refine ⟨s.store p timer, [timer], ?_, ?_, ?_, ?_⟩
    · rw [addLoop, if_pos (chain_nil.1 hl)]
    · refine ⟨update_self _ _ _, h0, ?_⟩
      show update s.link p timer (.next timer) = 0
      rw [update_of_ne hp.symm]
      exact hnext
    · have hsum : acc + (s.expires timer).toNat = e := by omega
      show [(⟨timer, s.function timer, s.data timer, acc + (s.expires timer).toNat⟩ : Entry)] = _
      rw [hsum]
      rfl
    · exact ⟨fun q hq _ _ => update_of_ne hq _ _, fun _ _ _ => rfl, rfl, rfl⟩
  | cons a l ih =>
    obtain ⟨fuel, rfl⟩ : ∃ k, fuel = k + 1 := ⟨fuel - 1, by simp at hfuel; omega⟩
    obtain ⟨hpa, ha0, hrest⟩ := chain_cons.1 hl
    have hnodup := List.nodup_cons.1 hl.nodup
    have hta : timer ≠ a := List.ne_of_not_mem_cons ht
    have htl : timer ∉ l := List.not_mem_of_not_mem_cons ht
    have hne : ∀ b ∈ l, b ≠ a ∧ b ≠ timer := fun b hb =>
      ⟨ne_of_mem_of_not_mem hb hnodup.1, ne_of_mem_of_not_mem hb htl⟩
    have hpa' : p ≠ .next a := hpl a List.mem_cons_self
    rw [addLoop, hpa, if_neg ha0]
    by_cases hgt : s.expires a > s.expires timer
    · -- the timer goes in front of `a`, whose `expires` counts from it now
      rw [if_pos hgt]
      have hlt : e - acc < (s.expires a).toNat := by
        rw [← he]
        exact hgt
      have hsub : (s.expires a - s.expires timer).toNat =
          (s.expires a).toNat - (s.expires timer).toNat :=
        BitVec.toNat_sub_of_le (BitVec.le_of_lt hgt)
      refine ⟨_, timer :: a :: l, rfl, ?_, ?_, ?_⟩
      · refine ⟨update_self _ _ _, h0, ?_, ha0, ?_⟩
        · show update (update s.link (.next timer) a) p timer (.next timer) = a
          rw [update_of_ne hp.symm, update_self]
        · refine Chain.congr hrest ?_ fun b hb => ?_
          · show update (update s.link (.next timer) a) p timer (.next a) = _
            rw [update_of_ne hpa'.symm, update_of_ne (by simpa using hta.symm)]
          · show update (update s.link (.next timer) a) p timer (.next b) = _
            rw [update_of_ne (hpl b (List.mem_cons_of_mem _ hb)).symm,
              update_of_ne (by simpa using (hne b hb).2)]
      · have htimer : update s.expires a (s.expires a - s.expires timer) timer =
            s.expires timer := update_of_ne hta _ _
        have hself : update s.expires a (s.expires a - s.expires timer) a =
            s.expires a - s.expires timer := update_self _ _ _
        have hsum : acc + (s.expires timer).toNat = e := by omega
        have hsum' : e + (s.expires a - s.expires timer).toNat = acc + (s.expires a).toNat := by
          omega
        have hrest' : ∀ b ∈ l, update s.expires a (s.expires a - s.expires timer) b =
            s.expires b := fun b hb => update_of_ne (hne b hb).1 _ _
        have hplace : e < acc + (s.expires a).toNat := by omega
        simp only [entries, place, if_pos hplace, Timers.store, Timers.setExpires]
        rw [htimer, hself, hsum, hsum']
        congr 2
        exact entries_congr hrest' (fun _ _ => rfl) fun _ _ => rfl
      · refine ⟨fun q hq hqt _ => ?_, fun b hb _ => ?_, rfl, rfl⟩
        · show update (update s.link (.next timer) a) p timer q = _
          rw [update_of_ne hq, update_of_ne hqt]
        · exact update_of_ne (List.ne_of_not_mem_cons hb) _ _
    · -- the timer counts from the expiry of `a`
      rw [if_neg hgt]
      have hle : (s.expires a).toNat ≤ e - acc := by
        rw [← he]
        exact BitVec.not_lt.1 hgt
      have hsub : (s.expires timer - s.expires a).toNat =
          (s.expires timer).toNat - (s.expires a).toNat :=
        BitVec.toNat_sub_of_le (BitVec.not_lt.1 hgt)
      have he' : ((s.setExpires timer (s.expires timer - s.expires a)).expires timer).toNat =
          e - (acc + (s.expires a).toNat) := by
        show (update s.expires timer _ timer).toNat = _
        rw [update_self, hsub]
        omega
      obtain ⟨s', l', hloop, hchain, hentries, hframe⟩ :=
        ih (s := s.setExpires timer (s.expires timer - s.expires a)) (p := .next a) hrest htl
          (by simpa using hta.symm) (fun b hb => by simpa using (hne b hb).1.symm) hnext
          (by omega) he' (Nat.lt_of_succ_lt_succ hfuel)
      have hexp : s'.expires a = s.expires a :=
        (hframe.expires a hnodup.1 hta.symm).trans (update_of_ne hta.symm _ _)
      refine ⟨s', a :: l', hloop, ?_, ?_, ?_⟩
      · refine ⟨?_, ha0, hchain⟩
        exact (hframe.link p hpa' hp fun b hb => hpl b (List.mem_cons_of_mem _ hb)).trans hpa
      · have hsame : entries (s.setExpires timer (s.expires timer - s.expires a))
            (acc + (s.expires a).toNat) l = entries s (acc + (s.expires a).toNat) l :=
          entries_congr (fun b hb => update_of_ne (hne b hb).2 _ _) (fun _ _ => rfl)
            fun _ _ => rfl
        have hplace : ¬ e < acc + (s.expires a).toNat := by omega
        simp only [entries, place, if_neg hplace]
        rw [hexp, hframe.function, hframe.data, hentries,
          hsame]
        rfl
      · refine ⟨fun q hq hqt hql => ?_, fun b hb hbt => ?_, hframe.function, hframe.data⟩
        · exact hframe.link q (hql a List.mem_cons_self) hqt fun b hb =>
            hql b (List.mem_cons_of_mem _ hb)
        · exact (hframe.expires b (fun h => hb (List.mem_cons_of_mem _ h)) hbt).trans
            (update_of_ne hbt _ _)

/-! ## `del_timer` -/

/-- What the stores of `del_timer` leave alone. -/
structure Unlinked (s s' : Timers) (p : Link) (l : List Nat) : Prop where
  link : ∀ q, q ≠ p → s'.link q = s.link q
  expires : ∀ a, a ∉ l → s'.expires a = s.expires a
  function : s'.function = s.function
  data : s'.data = s.data

/-- The timer behind the one that goes counts from where that one counted. -/
theorem unlink_spec {timer : Nat} {l : List Nat} {s : Timers} {p : Link} {acc : Nat}
    (hl : Chain s.link p (timer :: l)) (hpl : ∀ a ∈ timer :: l, p ≠ .next a)
    (hbound : ∀ x ∈ entries s acc (timer :: l), x.remaining < 2 ^ 32) (v : BitVec 32) :
    Chain ((s.unlink p timer).setExpires timer v).link p l ∧
      entries ((s.unlink p timer).setExpires timer v) acc l =
        entries s (acc + (s.expires timer).toNat) l ∧
      (s.unlink p timer).expires timer = s.expires timer ∧
      Unlinked s ((s.unlink p timer).setExpires timer v) p (timer :: l) := by
  obtain ⟨hpt, ht0, hrest⟩ := chain_cons.1 hl
  have hnodup := List.nodup_cons.1 hl.nodup
  cases l with
  | nil =>
    have hlast : s.link (.next timer) = 0 := hrest
    have hunlink : s.unlink p timer = s.store p 0 := by
      simp [Timers.unlink, hlast]
    rw [hunlink]
    refine ⟨update_self _ _ _, rfl, rfl, ⟨fun q hq => update_of_ne hq _ _,
      fun a ha => update_of_ne (List.ne_of_not_mem_cons ha) _ _, rfl, rfl⟩⟩
  | cons b l =>
    obtain ⟨hnb, hb0, htail⟩ := chain_cons.1 hrest
    have hunlink : s.unlink p timer =
        (s.store p b).setExpires b (s.expires b + s.expires timer) := by
      simp [Timers.unlink, hnb, hb0]
    have hbt : b ≠ timer := fun h => hnodup.1 (h ▸ List.mem_cons_self)
    have hne : ∀ c ∈ l, c ≠ b ∧ c ≠ timer := fun c hc =>
      ⟨ne_of_mem_of_not_mem hc (List.nodup_cons.1 hnodup.2).1,
        ne_of_mem_of_not_mem (List.mem_cons_of_mem _ hc) hnodup.1⟩
    -- the sum is the distance from the timer in front
    have hsum : (s.expires b + s.expires timer).toNat =
        (s.expires b).toNat + (s.expires timer).toNat := by
      have hb := hbound ⟨b, s.function b, s.data b, _⟩ (List.mem_cons_of_mem _ List.mem_cons_self)
      simp only at hb
      rw [BitVec.toNat_add, Nat.mod_eq_of_lt]
      omega
    have hexp : ∀ c, c ≠ b → c ≠ timer →
        ((s.unlink p timer).setExpires timer v).expires c = s.expires c := by
      intro c hc hct
      rw [hunlink]
      show update (update s.expires b _) timer v c = _
      rw [update_of_ne hct, update_of_ne hc]
    have hexpb : (((s.unlink p timer).setExpires timer v).expires b).toNat =
        (s.expires b).toNat + (s.expires timer).toNat := by
      rw [hunlink]
      show (update (update s.expires b _) timer v b).toNat = _
      rw [update_of_ne hbt, update_self, hsum]
    have hlink : ((s.unlink p timer).setExpires timer v).link =
        update s.link p b := by
      rw [hunlink]
      rfl
    have hfields : ((s.unlink p timer).setExpires timer v).function = s.function ∧
        ((s.unlink p timer).setExpires timer v).data = s.data := by
      rw [hunlink]
      exact ⟨rfl, rfl⟩
    refine ⟨?_, ?_, ?_, ⟨fun q hq => ?_, fun a ha => ?_, hfields.1, hfields.2⟩⟩
    · rw [hlink]
      refine ⟨update_self _ _ _, hb0, Chain.congr htail ?_ fun c hc => ?_⟩
      · exact update_of_ne (hpl b (by simp)).symm _ _
      · exact update_of_ne (hpl c (by simp [hc])).symm _ _
    · simp only [entries]
      rw [hexpb, hfields.1, hfields.2]
      have hacc : acc + ((s.expires b).toNat + (s.expires timer).toNat) =
          acc + (s.expires timer).toNat + (s.expires b).toNat := by omega
      rw [hacc]
      congr 1
      exact entries_congr (fun c hc => hexp c (hne c hc).1 (hne c hc).2)
        (fun c _ => congrFun hfields.1 c) fun c _ => congrFun hfields.2 c
    · rw [hunlink]
      exact update_of_ne hbt.symm _ _
    · rw [hlink]
      exact update_of_ne hq _ _
    · exact hexp a (fun h => ha (by simp [h])) (List.ne_of_not_mem_cons ha)

/-- **The loop of `del_timer`** takes the timer out, writes back its remaining time, and changes
no other. -/
theorem delLoop_spec {timer : Nat} {l : List Nat} {s : Timers} {p : Link} {acc fuel : Nat}
    (hl : Chain s.link p l) (hpl : ∀ a ∈ l, p ≠ .next a)
    (hbound : ∀ x ∈ entries s acc l, x.remaining < 2 ^ 32) (ht : timer ∈ l)
    (hfuel : l.length < fuel) :
    ∃ s' l', delLoop timer fuel s p (BitVec.ofNat 32 acc) = some (true, s') ∧
      Chain s'.link p l' ∧
      entries s' acc l' = (entries s acc l).filter (fun x => x.timer ≠ timer) ∧
      (∃ x ∈ entries s acc l, x.timer = timer ∧ (s'.expires timer).toNat = x.remaining) ∧
      (∀ q, q ≠ p → (∀ a ∈ l, q ≠ .next a) → s'.link q = s.link q) ∧
      (∀ a, a ∉ l → s'.expires a = s.expires a) ∧ s'.function = s.function ∧
      s'.data = s.data := by
  induction l generalizing s p acc fuel with
  | nil => cases ht
  | cons a l ih =>
    obtain ⟨fuel, rfl⟩ : ∃ k, fuel = k + 1 := ⟨fuel - 1, by simp at hfuel; omega⟩
    obtain ⟨hpa, ha0, hrest⟩ := chain_cons.1 hl
    have hnodup := List.nodup_cons.1 hl.nodup
    have hlt : acc + (s.expires a).toNat < 2 ^ 32 :=
      hbound ⟨a, s.function a, s.data a, acc + (s.expires a).toNat⟩ List.mem_cons_self
    have hsum : (s.expires a + BitVec.ofNat 32 acc).toNat = acc + (s.expires a).toNat := by
      rw [BitVec.toNat_add, BitVec.toNat_ofNat, Nat.mod_eq_of_lt (a := acc) (by omega),
        Nat.mod_eq_of_lt (by omega), Nat.add_comm]
    rw [delLoop, hpa, if_neg ha0]
    by_cases hat : a = timer
    · subst hat
      rw [if_pos rfl]
      obtain ⟨hchain, hentries, hexp, hframe⟩ := unlink_spec hl hpl hbound
        ((s.unlink p a).expires a + BitVec.ofNat 32 acc)
      refine ⟨_, l, rfl, hchain, ?_, ⟨_, List.mem_cons_self, rfl, ?_⟩, fun q hq _ => hframe.link q hq,
        hframe.expires, hframe.function, hframe.data⟩
      · rw [hentries, entries, List.filter_cons_of_neg (by simp)]
        refine (List.filter_eq_self.2 fun x hx => ?_).symm
        simpa using ne_of_mem_of_not_mem (mem_of_mem_entries hx) hnodup.1
      · rw [expires_setExpires_self, hexp, hsum]
    · rw [if_neg hat]
      have htl : timer ∈ l := (List.mem_cons.1 ht).resolve_left fun h => hat h.symm
      have hacc : BitVec.ofNat 32 acc + s.expires a = BitVec.ofNat 32 (acc + (s.expires a).toNat) := by
        rw [BitVec.ofNat_add, BitVec.ofNat_toNat, BitVec.setWidth_eq]
      rw [hacc]
      obtain ⟨s', l', hloop, hchain, hentries, ⟨x, hx, hxt, hrem⟩, hlink, hexp, hfun, hdata⟩ :=
        ih hrest (fun b hb => by simpa using (ne_of_mem_of_not_mem hb hnodup.1).symm)
          (fun x hx => hbound x (List.mem_cons_of_mem _ hx)) htl (by simpa using hfuel)
      refine ⟨s', a :: l', hloop, ?_, ?_, ⟨x, List.mem_cons_of_mem _ hx, hxt, hrem⟩,
        fun q _ hql => ?_, fun b hb => hexp b (List.not_mem_of_not_mem_cons hb), hfun, hdata⟩
      · refine ⟨?_, ha0, hchain⟩
        exact (hlink p (hpl a List.mem_cons_self) fun b hb => hpl b (List.mem_cons_of_mem _ hb)).trans
          hpa
      · rw [entries, entries, hexp a hnodup.1, hfun, hdata, hentries,
          List.filter_cons_of_pos (by simpa using hat)]
      · exact hlink q (hql a List.mem_cons_self) fun b hb => hql b (List.mem_cons_of_mem _ hb)

/-- It does nothing for a timer that is not queued. -/
theorem delLoop_absent {timer : Nat} {l : List Nat} {s : Timers} {p : Link} {fuel : Nat}
    {acc : BitVec 32} (hl : Chain s.link p l) (ht : timer ∉ l) (hfuel : l.length < fuel) :
    delLoop timer fuel s p acc = some (false, s) := by
  induction l generalizing p acc fuel with
  | nil =>
    obtain ⟨fuel, rfl⟩ : ∃ k, fuel = k + 1 := ⟨fuel - 1, by simp at hfuel; omega⟩
    rw [delLoop, if_pos (chain_nil.1 hl)]
  | cons a l ih =>
    obtain ⟨fuel, rfl⟩ : ∃ k, fuel = k + 1 := ⟨fuel - 1, by simp at hfuel; omega⟩
    obtain ⟨hpa, ha0, hrest⟩ := chain_cons.1 hl
    rw [delLoop, hpa, if_neg ha0, if_neg (List.ne_of_not_mem_cons ht).symm]
    exact ih hrest (List.not_mem_of_not_mem_cons ht) (by simpa using hfuel)

/-! ## The tick -/

/-- **The loop of `do_timer`** runs the timers in front with no ticks left, in their order. -/
theorem runLoop_spec {l : List Nat} {s : Timers} {fuel : Nat} (ran : List (Nat × BitVec 32))
    (hl : Chain s.link .nextTimer l) (hfuel : l.length < fuel) :
    ∃ s' l', runLoop fuel s ran =
        some (ran ++ ((entries s 0 l).takeWhile fun x => x.remaining = 0).map
          (fun x => (x.function, x.data)), s') ∧
      Chain s'.link .nextTimer l' ∧
      entries s' 0 l' = ((entries s 0 l).dropWhile fun x => x.remaining = 0).map Entry.tick := by
  induction l generalizing s ran fuel with
  | nil =>
    obtain ⟨fuel, rfl⟩ : ∃ k, fuel = k + 1 := ⟨fuel - 1, by simp at hfuel; omega⟩
    have h0 : s.link .nextTimer = 0 := hl
    refine ⟨s, [], ?_, hl, rfl⟩
    rw [runLoop, if_neg (fun h => h.1 h0), if_neg (not_not.2 h0)]
    simp [entries]
  | cons a l ih =>
    obtain ⟨fuel, rfl⟩ : ∃ k, fuel = k + 1 := ⟨fuel - 1, by simp at hfuel; omega⟩
    obtain ⟨hpa, ha0, hrest⟩ := chain_cons.1 hl
    have hnodup := List.nodup_cons.1 hl.nodup
    rw [runLoop, hpa]
    by_cases hzero : s.expires a = 0
    · -- the first timer runs, and the next one counts from now as well
      rw [if_pos ⟨ha0, hzero⟩]
      have hpop : Chain (s.store .nextTimer (s.link (.next a))).link .nextTimer l := by
        refine Chain.congr hrest (link_store_self _ _ _) fun b _ => ?_
        exact link_store_of_ne s .nextTimer _ (Link.next_ne_nextTimer b)
      have hnat : (s.expires a).toNat = 0 := by
        rw [hzero]
        rfl
      obtain ⟨s', l', hloop, hchain, hentries⟩ :=
        ih (ran ++ [(s.function a, s.data a)]) hpop (by simpa using hfuel)
      have hcons : entries s 0 (a :: l) = ⟨a, s.function a, s.data a, 0⟩ :: entries s 0 l := by
        rw [entries, hnat]
      have hsame : entries (s.store .nextTimer (s.link (.next a))) 0 l = entries s 0 l :=
        entries_congr (fun _ _ => rfl) (fun _ _ => rfl) fun _ _ => rfl
      refine ⟨s', l', ?_, hchain, ?_⟩
      · rw [hloop, hsame, hcons, List.takeWhile_cons_of_pos (by simp), List.map_cons,
          List.append_assoc]
        rfl
      · rw [hentries, hsame, hcons, List.dropWhile_cons_of_pos (by simp)]
    · rw [if_neg (fun h => hzero h.2), if_pos ha0]
      have hpos : 0 < (s.expires a).toNat := by
        refine Nat.pos_of_ne_zero fun h => hzero (BitVec.eq_of_toNat_eq ?_)
        rw [h]
        rfl
      have hsub : (s.expires a - 1).toNat = (s.expires a).toNat - 1 :=
        BitVec.toNat_sub_of_le (BitVec.le_def.2 hpos)
      have hcons : entries s 0 (a :: l) =
          ⟨a, s.function a, s.data a, (s.expires a).toNat⟩ :: entries s (s.expires a).toNat l := by
        rw [entries, Nat.zero_add]
      have hne : ¬ ((s.expires a).toNat = 0) := by omega
      have hfirst : ∃ k, (s.expires a).toNat = k + 1 := ⟨(s.expires a).toNat - 1, by omega⟩
      obtain ⟨k, hk⟩ := hfirst
      refine ⟨s.setExpires a (s.expires a - 1), a :: l, ?_, ?_, ?_⟩
      · rw [hcons, List.takeWhile_cons_of_neg (by simpa using hne), List.map_nil, List.append_nil]
      · exact ⟨hpa, ha0, hrest⟩
      · have hsame : entries (s.setExpires a (s.expires a - 1)) k l = entries s k l :=
          entries_congr (fun b hb => update_of_ne (ne_of_mem_of_not_mem hb hnodup.1) _ _)
            (fun _ _ => rfl) fun _ _ => rfl
        rw [hcons, List.dropWhile_cons_of_neg (by simpa using hne), List.map_cons, hk, entries_tick,
          entries, expires_setExpires_self, hsub, hk, Nat.zero_add, Nat.add_sub_cancel, hsame]
        rfl

/-! ## The refinement -/

theorem length_entries (s : Timers) (acc : Nat) (l : List Nat) :
    (entries s acc l).length = l.length := by
  rw [← List.length_map (f := Entry.timer), entries_timer]

section Step

variable {s : Timers} {q : List Entry} {fuel : Nat}

/-- `add_timer` for a timer that is not queued. -/
theorem add_refines (h : Represents s q) {timer : Nat} (ht : ∀ x ∈ q, x.timer ≠ timer)
    (function : Nat) (data expires : BitVec 32) (hfuel : q.length < fuel) :
    ∃ s', addTimer fuel (s.prepare timer function data expires) timer = some s' ∧
      Represents s' (Queue.step q (.add timer function data expires)).1 := by
  obtain ⟨l, hl, hsorts, hbound⟩ := h
  have htl : timer ∉ l := by
    intro hmem
    rw [← entries_timer s 0 l] at hmem
    obtain ⟨x, hx, rfl⟩ := List.mem_map.1 hmem
    exact ht x (hsorts.mem_iff.1 hx) rfl
  have hne : ∀ a ∈ l, a ≠ timer := fun a ha => ne_of_mem_of_not_mem ha htl
  have hsame : entries (s.prepare timer function data expires) 0 l = entries s 0 l :=
    entries_congr (fun a ha => update_of_ne (hne a ha) _ _)
      (fun a ha => update_of_ne (hne a ha) _ _)
      fun a ha => update_of_ne (hne a ha) _ _
  unfold addTimer
  simp only [Queue.step]
  by_cases h0 : timer = 0
  · rw [if_pos h0, if_pos h0]
    refine ⟨_, rfl, l, hl, ?_, hbound⟩
    rw [hsame]
    exact hsorts
  rw [if_neg h0, if_neg h0]
  have hl₁ : Chain ((s.prepare timer function data expires).store (.next timer) 0).link
      .nextTimer l := by
    refine Chain.congr hl ?_ fun a ha => ?_
    · exact link_store_of_ne _ _ _ (Link.next_ne_nextTimer timer).symm
    · exact link_store_of_ne _ _ _ fun h => hne a ha (Link.next.inj h)
  have hexp : ((s.prepare timer function data expires).expires timer).toNat =
      expires.toNat - 0 := by
    show (update s.expires timer expires timer).toNat = expires.toNat - 0
    rw [update_self, Nat.sub_zero]
  have hlen : l.length < fuel := by
    rw [← length_entries s 0 l, hsorts.perm.length_eq]
    exact hfuel
  obtain ⟨s', l', hloop, hchain, hentries, -⟩ := addLoop_spec h0 hl₁ htl
    (Link.next_ne_nextTimer timer).symm (fun a _ => (Link.next_ne_nextTimer a).symm)
    (link_store_self _ _ _) (Nat.zero_le _) hexp hlen
  refine ⟨s', hloop, l', hchain, ?_, ?_⟩
  · have hfunction : update s.function timer function timer = function :=
      update_self _ _ _
    have hdata : update s.data timer data timer = data := update_self _ _ _
    have hsame₁ : entries ((s.prepare timer function data expires).store (.next timer) 0) 0 l =
        entries (s.prepare timer function data expires) 0 l :=
      entries_congr (fun _ _ => rfl) (fun _ _ => rfl) fun _ _ => rfl
    rw [hentries, hsame₁, hsame]
    show Sorts Entry.remaining (place Entry.remaining ⟨timer, update s.function timer
      function timer, update s.data timer data timer, expires.toNat⟩ _) _
    rw [hfunction, hdata]
    exact hsorts.place _
  · intro x hx
    rcases List.mem_append.1 hx with hx | hx
    · exact hbound x hx
    · rw [List.mem_singleton.1 hx]
      exact expires.isLt

/-- `del_timer` finds the timer when it is queued, and only then. -/
theorem del_refines (h : Represents s q) (timer : Nat) (hfuel : q.length < fuel) :
    ∃ found s', delTimer fuel s timer = some (found, s') ∧
      Represents s' (Queue.step q (.del timer)).1 ∧
      (Queue.step q (.del timer)).2 =
        .deleted (if found then some (s'.expires timer).toNat else none) := by
  obtain ⟨l, hl, hsorts, hbound⟩ := h
  have hlen : l.length < fuel := by
    rw [← length_entries s 0 l, hsorts.perm.length_eq]
    exact hfuel
  have hbound' : ∀ x ∈ entries s 0 l, x.remaining < 2 ^ 32 :=
    fun x hx => hbound x (hsorts.mem_iff.1 hx)
  have hfilter : ∀ x ∈ q.filter (fun x => x.timer ≠ timer), x.remaining < 2 ^ 32 :=
    fun x hx => hbound x (List.mem_of_mem_filter hx)
  by_cases ht : timer ∈ l
  · obtain ⟨s', l', hloop, hchain, hentries, ⟨x, hx, hxt, hrem⟩, -⟩ :=
      delLoop_spec hl (fun a _ => (Link.next_ne_nextTimer a).symm) hbound' ht hlen
    refine ⟨true, s', hloop, ⟨l', hchain, ?_, hfilter⟩, ?_⟩
    · rw [hentries]
      exact hsorts.filter _
    · -- the timer is on the queue once
      have hfind : q.find? (fun y => y.timer = timer) = some x := by
        have hnodup : (q.map Entry.timer).Nodup := by
          have hmap := hsorts.perm.map Entry.timer
          rw [entries_timer] at hmap
          exact hmap.nodup_iff.1 hl.nodup
        have hxq : x ∈ q := hsorts.mem_iff.1 hx
        obtain ⟨y, hy⟩ := Option.isSome_iff_exists.1
          (List.find?_isSome.2 ⟨x, hxq, by simpa using hxt⟩ :
            (q.find? fun y => y.timer = timer).isSome = true)
        have hyt : y.timer = timer := by simpa using List.find?_some hy
        have hyx : y = x := List.inj_on_of_nodup_map hnodup (List.mem_of_find?_eq_some hy) hxq
          (hyt.trans hxt.symm)
        rw [hy, hyx]
      simp only [Queue.step]
      rw [hfind, hrem]
      rfl
  · have hnone : ∀ x ∈ q, x.timer ≠ timer := by
      intro x hx heq
      exact ht (heq ▸ mem_of_mem_entries (hsorts.mem_iff.2 hx))
    have hkeep : q.filter (fun x => x.timer ≠ timer) = q :=
      List.filter_eq_self.2 fun x hx => by simpa using hnone x hx
    have hfind : q.find? (fun x => x.timer = timer) = none :=
      List.find?_eq_none.2 fun x hx => by simpa using hnone x hx
    refine ⟨false, s, delLoop_absent hl ht hlen, ⟨l, hl, ?_, hfilter⟩, ?_⟩
    · show Sorts Entry.remaining (entries s 0 l) (q.filter fun x => x.timer ≠ timer)
      rw [hkeep]
      exact hsorts
    · simp only [Queue.step]
      rw [hfind]
      rfl

/-- A tick runs the timers with no ticks left, and lowers the others. -/
theorem tick_refines (h : Represents s q) (hfuel : q.length < fuel) :
    ∃ calls s', runTimers fuel s = some (calls, s') ∧
      Represents s' (Queue.step q .tick).1 ∧ (Queue.step q .tick).2 = .ran calls := by
  obtain ⟨l, hl, hsorts, hbound⟩ := h
  have hlen : l.length < fuel := by
    rw [← length_entries s 0 l, hsorts.perm.length_eq]
    exact hfuel
  obtain ⟨s', l', hloop, hchain, hentries⟩ := runLoop_spec [] hl hlen
  obtain ⟨htake, hdrop⟩ := dropWhile_least (r := 0) hsorts.sorted fun x _ => Nat.zero_le _
  rw [hdrop] at hentries
  rw [htake, hsorts.same 0, List.nil_append] at hloop
  refine ⟨_, s', hloop, ⟨l', hchain, ?_, fun x hx => ?_⟩, rfl⟩
  · rw [hentries]
    refine (hsorts.filter _).map Entry.tick fun x hx y hy => ?_
    have hx := of_decide_eq_true (List.mem_filter.1 hx).2
    have hy := of_decide_eq_true (List.mem_filter.1 hy).2
    show x.remaining - 1 ≤ y.remaining - 1 ↔ x.remaining ≤ y.remaining
    omega
  · obtain ⟨y, hy, rfl⟩ := List.mem_map.1 hx
    have := hbound y (List.mem_of_mem_filter hy)
    show y.remaining - 1 < 2 ^ 32
    omega

/-- **One event on the list is the event on the queue**, with the same outcome. -/
theorem step_refines (h : Represents s q) {e : Event} (he : Allowed q e) (hfuel : q.length < fuel) :
    ∃ s', step fuel s e = some (s', (Queue.step q e).2) ∧ Represents s' (Queue.step q e).1 := by
  cases e with
  | add timer function data expires =>
    obtain ⟨s', hadd, hrep⟩ := add_refines h he function data expires hfuel
    refine ⟨s', ?_, hrep⟩
    rw [step, hadd]
    rfl
  | del timer =>
    obtain ⟨found, s', hdel, hrep, hout⟩ := del_refines h timer hfuel
    refine ⟨s', ?_, hrep⟩
    rw [step, hdel, hout]
    rfl
  | tick =>
    obtain ⟨calls, s', hrun, hrep, hout⟩ := tick_refines h hfuel
    refine ⟨s', ?_, hrep⟩
    rw [step, hrun, hout]
    rfl

end Step

/-- An event makes the queue longer by one timer at most. -/
theorem Queue.length_step_le (q : List Entry) (e : Event) :
    (Queue.step q e).1.length ≤ q.length + 1 := by
  cases e with
  | add timer function data expires =>
    simp only [Queue.step]
    split_ifs
    · exact Nat.le_succ _
    · rw [List.length_append, List.length_singleton]
  | del timer => exact (List.length_filter_le _ _).trans (Nat.le_succ _)
  | tick =>
    rw [Queue.step, List.length_map]
    exact (List.length_filter_le _ _).trans (Nat.le_succ _)

theorem run_refines {es : List Event} {s : Timers} {q : List Entry} {fuel : Nat}
    (h : Represents s q) (hes : Legal q es) (hfuel : q.length + es.length < fuel) :
    ∃ s', run fuel s es = some (s', (Queue.run q es).2) ∧ Represents s' (Queue.run q es).1 := by
  induction es generalizing s q with
  | nil => exact ⟨s, rfl, h⟩
  | cons e es ih =>
    obtain ⟨he, hes⟩ := hes
    rw [List.length_cons] at hfuel
    have hlt : q.length < fuel := by omega
    obtain ⟨s₁, hstep, h₁⟩ := step_refines h he hlt
    have hle := Queue.length_step_le q e
    obtain ⟨s', hrun, h'⟩ := ih h₁ hes (by omega)
    refine ⟨s', ?_, h'⟩
    rw [run, hstep, Option.bind_some, hrun]
    rfl

/-- **The list of relative expiries represents the queue.**  For every run that adds no timer
while it is queued: the code terminates, `del_timer` and the ticks have the outcomes that they
have on the queue, and in the end the list is the queue sorted by the ticks that remain, timers
with equally many in the order in which they were added. -/
theorem timer_list_refines {s : Timers} (h0 : s.link .nextTimer = 0) {es : List Event}
    (hes : Legal [] es) {fuel : Nat} (hfuel : es.length < fuel) :
    ∃ s', run fuel s es = some (s', (Queue.run [] es).2) ∧ Represents s' (Queue.run [] es).1 := by
  have hinit : Represents s [] := ⟨[], h0, Sorts.nil, by simp⟩
  exact run_refines hinit hes (by simpa using hfuel)

/-- Two timers that become due in one tick, with a third one taken out between them. -/
theorem timer_list_refines_three :
    ∃ s', run 9 ⟨fun _ => 0, fun _ => 0, fun _ => 0, fun _ => 0⟩
        [.add 1 10 0 3, .tick, .add 2 20 0 1, .add 3 30 0 2, .del 2, .tick, .tick, .tick] =
      some (s', [.added, .ran [], .added, .added, .deleted (some 1), .ran [], .ran [],
        .ran [(10, 0), (30, 0)]]) ∧ s'.link .nextTimer = 0 := by
  have hes : Legal [] [.add 1 10 0 3, .tick, .add 2 20 0 1, .add 3 30 0 2, .del 2, .tick, .tick,
      .tick] := by
    simp [Legal, Allowed, Queue.step, Entry.tick]
  obtain ⟨s', hrun, l, hl, hsorts, -⟩ := timer_list_refines
    (s := ⟨fun _ => 0, fun _ => 0, fun _ => 0, fun _ => 0⟩) rfl hes (show _ < 9 by decide)
  refine ⟨s', hrun, ?_⟩
  have hempty : entries s' 0 l = [] := List.perm_nil.1 hsorts.perm
  cases l with
  | nil => exact hl
  | cons a l => cases hempty

end LinuxEvocation.Timer
