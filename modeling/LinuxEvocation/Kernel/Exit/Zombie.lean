import LinuxEvocation.Kernel.Exit.Steps

/-!
# Zombies stay dead

`PTRACE_DETACH` is the one request that does not look at the state of the child: it makes a zombie
run again.  Apart from that, and from an attach that takes a zombie away from a `sys_wait4` that has
found it, a zombie is a zombie until `release` takes it out of `task[]`.

* `releaseOf`, `makes` — the task that a step releases, and the one it makes.
* `Spares` — the condition on a step.
* `Keeps` — all zombies are zombies still; `step_keeps` — what a step does to `task[]`.
* `zombies_stay_dead` — the result over every run; `zombie_runs` — a zombie that is detached.
-/

namespace LinuxEvocation.Exit

open Transition

/-- The task that `sys_wait4` passes to `release`. -/
def releaseOf (x : Sys) : Call → Option Nat
  | .reap cur =>
    match x.mode cur with
    | .reaping p => if (x.s.task p).pOpptr = (x.s.task p).pPptr then some p else none
    | _ => none
  | _ => none

/-- The task that `sys_fork` puts into `task[]`. -/
def makes : Call → Option Nat
  | .fork _ _ p _ => some p
  | _ => none

/-- No request detaches from a zombie, or attaches to one that `sys_wait4` has found. -/
def Spares (x : Sys) : Call → Prop
  | .ptrace cur a =>
    (∀ child, detaches cur a child x.s → (x.s.task child).state ≠ .zombie) ∧
      ∀ child, attaches cur a child x.s → ∀ u, x.mode u ≠ .reaping child
  | _ => True

variable {c : Call}

theorem Spares.unfound {x : Sys} (h : Spares x c) : Unfound x c := by
  cases c with
  | ptrace cur a => exact h.2
  | _ => trivial

/-! ## What a step does to the zombies -/

/-- All tasks are where they were, and all zombies are zombies still. -/
structure Keeps (s s' : State) : Prop where
  slot : s'.slot = s.slot
  zombie : ∀ p, (s.task p).state = .zombie → (s'.task p).state = .zombie

namespace Keeps

variable {s s₁ s' : State} {cur : Nat}

theorem refl (s : State) : Keeps s s := ⟨rfl, fun _ h => h⟩

theorem trans (h : Keeps s s₁) (h' : Keeps s₁ s') : Keeps s s' :=
  ⟨h'.slot.trans h.slot, fun p hp => h'.zombie p (h.zombie p hp)⟩

theorem live_eq (h : Keeps s s') : s'.live = s.live := State.live_congr h.slot

theorem modify {p : Nat} {f : Task → Task} (hz : (s.task p).state ≠ .zombie) :
    Keeps s (s.modify p f) := by
  refine ⟨rfl, fun q hq => ?_⟩
  have hqp : q ≠ p := by
    rintro rfl
    exact hz hq
  rwa [State.task_modify_of_ne s f hqp]

theorem setPc (s : State) (p : Nat) (v : Pc) : Keeps s (s.setPc p v) := ⟨rfl, fun _ h => h⟩

end Keeps

theorem Steady.keeps {s s' : State} (h : Steady s s') : Keeps s s' :=
  ⟨h.slot, fun p => (h.zombie p).2⟩

theorem Calm.keeps {s s' : State} (h : Calm s s') : Keeps s s' := h.steady.keeps

theorem Forgot.keeps {s s' : State} {father : Nat} {ps : List Nat} (h : Forgot s s' father ps) :
    Keeps s s' :=
  ⟨h.slot, fun p hp => (h.state p).trans hp⟩

/-- The loop over the children finds a zombie, or the rest of `sys_wait4` keeps them all. -/
theorem tryWait_keeps {x : Sys} {cur : Nat} (hz : (x.s.task cur).state ≠ .zombie) (w : Wait) :
    Keeps x.s (Sys.tryWait cur w x).s := by
  unfold Sys.tryWait
  split
  · exact .setPc x.s cur .user
  · unfold tryWait
    split
    · exact .setPc _ _ _
    · rename_i hno _ p hscan
      exact absurd hscan (hno p)
    · split
      · split
        · exact .setPc x.s cur .user
        · exact Keeps.trans (.modify hz) (.setPc _ _ _)
      · exact .setPc x.s cur .user

theorem event_keeps {x : Sys} (h : Inv x) {e : Event} {s' : State} (hadm : x.admits e)
    (hs : step x.s e = some s') : Keeps x.s s' := by
  cases Sys.occurs hadm hs with
  | calm hc => exact hc.keeps
  | exit c code _ _ heq =>
    rw [heq]
    exact (forgetOriginalParent_forgot c x.s).keeps.trans (.setPc _ _ _)
  | die c code hfree _ hinit heq =>
    obtain ⟨_, kids, -, -, hd⟩ := h.doExit ⟨hfree.1, hfree.2.1⟩ code hinit
    rw [heq]
    exact ⟨hd.slot, fun p hp => (hd.zombie p).2 (.inr hp)⟩
  | clear c p _ _ heq =>
    have hcalm : Calm x.s (x.s.modify p fun t => { t with exitCode := 0 }) :=
      .modify ⟨rfl, rfl, rfl, rfl, rfl, rfl⟩ rfl rfl Iff.rfl
    rw [heq]
    exact hcalm.keeps.trans (.setPc _ _ _)
  | stop c sig hready hc => exact Keeps.trans (.modify (Inv.ready_not_zombie hready)) hc.keeps

theorem ptrace_keeps {x : Sys} {cur : Nat} {a : Ptrace} (hok : Spares x (.ptrace cur a)) :
    Keeps x.s (sysPtrace cur a x.s).1 := by
  rcases sysPtrace_cases cur a x.s with ⟨child, s₁, -, hcalm, heq⟩ | ⟨child, hdet, heq⟩ | hcalm
  · rw [heq]
    refine hcalm.keeps.trans (Keeps.trans ?_ (sendSig_calm _ _ _ _ _).keeps)
    split
    · exact (relink_steady child cur s₁).keeps
    · exact .refl s₁
  · rw [heq]
    have hgo : Keeps x.s (letGo child a.data x.s) := .modify (hok.1 child hdet)
    exact hgo.trans (relink_steady _ _ _).keeps
  · exact hcalm.keeps

/-- What a step does to `task[]`; the zombies that are there are zombies after it. -/
inductive Census (x : Sys) (c : Call) (x' : Sys) : Prop
  | same (hno : releaseOf x c = none) (hlive : x'.s.live = x.s.live)
  | made (p : Nat) (hno : releaseOf x c = none) (hmakes : makes c = some p)
      (hlive : x'.s.live = insert p x.s.live)
  | released (p : Nat) (hrel : releaseOf x c = some p) (hp : p ∈ x.s.live)
      (hz : (x.s.task p).state = .zombie) (hlive : x'.s.live = x.s.live \ {p})
  | undone (p : Nat) (hno : releaseOf x c = none) (hz : (x.s.task p).state ≠ .zombie)
      (hlive : x'.s.live = x.s.live \ {p})

/-- A zombie in `task[]` is a zombie after the step. -/
def StillDead (x x' : Sys) : Prop :=
  ∀ p ∈ x.s.live, (x.s.task p).state = .zombie → (x'.s.task p).state = .zombie

theorem Keeps.census {x x' : Sys} (h : Keeps x.s x'.s) (hno : releaseOf x c = none) :
    Census x c x' ∧ StillDead x x' :=
  ⟨.same hno h.live_eq, fun p _ => h.zombie p⟩

/-- **A step** spares the zombies, and `release` is for one that is in `task[]`. -/
theorem step_census {x x' : Sys} (h : Inv x) (hok : Spares x c)
    (hs : x.step c = some x') : Census x c x' ∧ StillDead x x' := by
  cases Sys.moves hs with
  | event e s' hadm hs' => exact Keeps.census (event_keeps h hadm hs') rfl
  | wait4 cur w hfree hready =>
    exact Keeps.census (tryWait_keeps (Inv.ready_not_zombie hready) w) rfl
  | interrupted cur hfree hz hrun =>
    have hawake : Keeps x.s (awake cur x.s) := .modify hz
    exact Keeps.census (hawake.trans (.setPc _ _ _)) rfl
  | woken cur w hfree hz hrun =>
    have hawake : Keeps x.s (awake cur x.s) := .modify hz
    have hwait : Keeps (awake cur x.s) (Sys.tryWait cur w { x with s := awake cur x.s }).s :=
      tryWait_keeps (x := { x with s := awake cur x.s }) hrun w
    exact Keeps.census (hawake.trans hwait) rfl
  | reap cur p hmode =>
    obtain ⟨hp, hroot, hz, -⟩ := h.reaping cur p hmode
    have hrel : releaseOf x (.reap cur) =
        if (x.s.task p).pOpptr = (x.s.task p).pPptr then some p else none := by
      simp only [releaseOf, hmode]
    by_cases hback : (x.s.task p).pOpptr = (x.s.task p).pPptr
    · -- `release`
      rw [if_pos hback] at hrel
      obtain ⟨i, hi, -, hslot, heq⟩ := release_eq hp hroot
      have hreap : Exit.reap p x.s = vacate i p x.s := by
        rw [reap_eq, if_neg (not_not.2 hback), heq]
      rw [hreap]
      refine ⟨.released p hrel hp hz (vacate_live h.distinct hi hslot hp.1), fun q _ hq => ?_⟩
      exact ((removeLinks_steady p _).zombie q).2 hq
    · rw [if_neg hback] at hrel
      have hreap : Exit.reap p x.s = notifyParent p (relink p (x.s.task p).pOpptr x.s) := by
        rw [reap_eq, if_pos hback]
      rw [hreap]
      refine Keeps.census ?_ hrel
      exact (relink_steady _ _ _).keeps.trans (notifyParent_calm _ _).keeps
  | fork cur nr p pid hfree hready hv =>
    refine ⟨.made p rfl rfl (enter_live hv.2.1 hv.2.2.1 hv.2.2.2.1), fun q hq hz => ?_⟩
    have hqp : q ≠ p := by
      rintro rfl
      exact hv.not_live hq
    refine ((setLinks_steady p _).zombie q).2 ?_
    dsimp only
    rw [Function.update_of_ne hqp]
    exact hz
  | forkOk cur sig nr p hmode =>
    have hborn : x.mode p ≠ .none := by
      rw [(h.forking cur nr p hmode).2.2.2.2]
      simp
    refine Keeps.census ?_ rfl
    dsimp only
    exact .modify (h.busy_not_zombie hborn)
  | forkFail cur nr p hmode =>
    obtain ⟨-, hnr, hslot, hp0, hborn⟩ := h.forking cur nr p hmode
    have hbusy : x.mode p ≠ .none := by
      rw [hborn]
      simp
    refine ⟨.undone p rfl (h.busy_not_zombie hbusy) (vacate_live h.distinct hnr hslot hp0),
      fun q _ hq => ?_⟩
    exact ((removeLinks_steady p _).zombie q).2 hq
  | again cur hfree hrun =>
    exact Keeps.census ((forgetOriginalParent_forgot cur x.s).keeps.trans (.setPc _ _ _)) rfl
  | ptrace cur a hfree hready => exact Keeps.census (ptrace_keeps hok) rfl

/-! ## Runs -/

/-- The releases of a task, and the times it has been made, in a run. -/
def releasesOf (p : Nat) (es : List (Sys × Call)) : Nat :=
  es.countP fun e => decide (releaseOf e.1 e.2 = some p)

def timesMade (p : Nat) (es : List (Sys × Call)) : Nat :=
  es.countP fun e => decide (makes e.2 = some p)

open Classical in
/-- One for a task in `task[]`. -/
noncomputable def present (p : Nat) (s : State) : Nat := if p ∈ s.live then 1 else 0

theorem present_le_one (p : Nat) (s : State) : present p s ≤ 1 := by
  unfold present
  split <;> omega

variable {p : Nat}

theorem present_of_mem {s : State} (h : p ∈ s.live) : present p s = 1 := if_pos h

theorem present_of_not_mem {s : State} (h : p ∉ s.live) : present p s = 0 := if_neg h

theorem present_mono {s s' : State} (h : p ∈ s.live → p ∈ s'.live) :
    present p s ≤ present p s' := by
  by_cases hp : p ∈ s.live
  · rw [present_of_mem hp, present_of_mem (h hp)]
  · rw [present_of_not_mem hp]
    exact Nat.zero_le _

/-- A release takes a task out of `task[]`, and only `sys_fork` puts one in. -/
theorem census_present {x x' : Sys} (h : Census x c x') (p : Nat) :
    (if releaseOf x c = some p then 1 else 0) + present p x'.s ≤
      (if makes c = some p then 1 else 0) + present p x.s := by
  cases h with
  | same hno hlive =>
    have hle : present p x'.s ≤ present p x.s := present_mono (by rw [hlive]; exact id)
    rw [hno, if_neg (by simp)]
    omega
  | made q hno hmakes hlive =>
    rw [hno, if_neg (by simp), hmakes]
    by_cases hqp : q = p
    · have hle := present_le_one p x'.s
      rw [if_pos (by rw [hqp])]
      omega
    · have hle : present p x'.s ≤ present p x.s := by
        refine present_mono fun hp => ?_
        rw [hlive] at hp
        exact hp.resolve_left fun heq => hqp heq.symm
      omega
  | released q hrel hq hz hlive =>
    rw [hrel]
    by_cases hqp : q = p
    · subst hqp
      have hgone : q ∉ x'.s.live := by
        rw [hlive]
        exact fun hmem => hmem.2 rfl
      rw [if_pos rfl, present_of_not_mem hgone, present_of_mem hq]
      omega
    · have hle : present p x'.s ≤ present p x.s := by
        refine present_mono fun hp => ?_
        rw [hlive] at hp
        exact hp.1
      rw [if_neg (by simpa using hqp)]
      omega
  | undone q hno hz hlive =>
    have hle : present p x'.s ≤ present p x.s := by
      refine present_mono fun hp => ?_
      rw [hlive] at hp
      exact hp.1
    rw [hno, if_neg (by simp)]
    omega

variable {x₀ x x' : Sys} {es : List (Sys × Call)}

theorem Spares.inv_of_reach (h0 : Boot x₀) (hx : Reach Sys.step Spares x₀ x) : Inv x :=
  hx.invariant h0.inv fun _ _ _ hI hok hs => hI.step hok.unfound hs

/-- A zombie is one to the end of a run that does not release it. -/
theorem zombie_of_trace (hI : Inv x) (hrun : Trace Sys.step Spares x es x')
    (hp : p ∈ x.s.live) (hz : (x.s.task p).state = .zombie) (hno : releasesOf p es = 0) :
    p ∈ x'.s.live ∧ (x'.s.task p).state = .zombie := by
  induction hrun with
  | nil => exact ⟨hp, hz⟩
  | @cons x x₁ x' c es hok hs _ ih =>
    obtain ⟨hc, hdead⟩ := step_census hI hok hs
    unfold releasesOf at hno
    rw [List.countP_cons, Nat.add_eq_zero_iff] at hno
    have hrel : releaseOf x c ≠ some p := by
      intro heq
      rw [if_pos (by simpa using heq)] at hno
      exact absurd hno.2 one_ne_zero
    have hp₁ : p ∈ x₁.s.live := by
      cases hc with
      | same _ hlive => rwa [hlive]
      | made q _ _ hlive =>
        rw [hlive]
        exact .inr hp
      | released q hq _ _ hlive =>
        rw [hlive]
        refine ⟨hp, ?_⟩
        rintro rfl
        exact hrel hq
      | undone q _ hzq hlive =>
        rw [hlive]
        refine ⟨hp, ?_⟩
        rintro rfl
        exact hzq hz
    exact ih (hI.step hok.unfound hs) hp₁ (hdead p hp hz) hno.1

/-- A task is released at most as often as it has been made. -/
theorem releases_of_trace (hI : Inv x) (hrun : Trace Sys.step Spares x es x') (p : Nat) :
    releasesOf p es + present p x'.s ≤ timesMade p es + present p x.s := by
  induction hrun with
  | nil => simp [releasesOf, timesMade]
  | @cons x x₁ x' c es hok hs _ ih =>
    obtain ⟨hc, -⟩ := step_census hI hok hs
    have hstep := census_present hc p
    have hrest := ih (hI.step hok.unfound hs)
    unfold releasesOf timesMade at hrest ⊢
    rw [List.countP_cons, List.countP_cons]
    simp only [decide_eq_true_eq]
    omega

/-- What is passed to `release` in a run is a zombie in `task[]`. -/
theorem released_of_trace (hI : Inv x) (hrun : Trace Sys.step Spares x es x') {e : Sys × Call}
    (he : e ∈ es) (hrel : releaseOf e.1 e.2 = some p) :
    p ∈ e.1.s.live ∧ (e.1.s.task p).state = .zombie := by
  induction hrun with
  | nil => exact absurd he List.not_mem_nil
  | @cons x x₁ x' c es hok hs _ ih =>
    rcases List.mem_cons.1 he with rfl | he
    · obtain ⟨hc, -⟩ := step_census hI hok hs
      cases hc with
      | same hno _ | made q hno _ _ => exact absurd (hno.symm.trans hrel) (by simp)
      | released q hq hp hz _ =>
        have hqp : q = p := Option.some.inj (hq.symm.trans hrel)
        exact hqp ▸ ⟨hp, hz⟩
      | undone q hno _ _ => exact absurd (hno.symm.trans hrel) (by simp)
    · exact ih (hI.step hok.unfound hs) he

/-- **Zombies stay dead.**  In every run whose requests neither detach from a zombie nor attach to
one that `sys_wait4` has found, a zombie is a zombie in `task[]` until it is released; only zombies
in `task[]` are released, and each of them once: a task that is released has been made again before
it is released again. -/
theorem zombies_stay_dead (h0 : Boot x₀) (hx : Reach Sys.step Spares x₀ x)
    (hrun : Trace Sys.step Spares x es x') (p : Nat) :
    (p ∈ x.s.live → (x.s.task p).state = .zombie → releasesOf p es = 0 →
      p ∈ x'.s.live ∧ (x'.s.task p).state = .zombie) ∧
    (∀ e ∈ es, releaseOf e.1 e.2 = some p → p ∈ e.1.s.live ∧ (e.1.s.task p).state = .zombie) ∧
    (timesMade p es = 0 → releasesOf p es ≤ 1) ∧
    (p ∉ x.s.live → timesMade p es = 0 → releasesOf p es = 0) := by
  have hI := Spares.inv_of_reach h0 hx
  have hcount := releases_of_trace hI hrun p
  have hle := present_le_one p x.s
  refine ⟨fun hp hz hno => zombie_of_trace hI hrun hp hz hno,
    fun e he hrel => released_of_trace hI hrun he hrel, fun hm => by omega, fun hp hm => ?_⟩
  have hgone := present_of_not_mem hp
  omega

/-! ## A zombie that is detached -/

def request (r : Request) (pid : Int) : Ptrace := ⟨r, pid, 0, true, 0⟩

/-- A child of `init` exits, and is waited for. -/
theorem zombies_stay_dead_child :
    ∃ x es x', Boot bootSys ∧ Reach Sys.step Spares bootSys x ∧
      es.map Prod.snd = [.wait4 2 ⟨-1, true, false, false, false⟩, .reap 2] ∧
      Trace Sys.step Spares x es x' ∧ 3 ∈ x.s.live ∧ (x.s.task 3).state = .zombie ∧
      3 ∉ x'.s.live ∧ releasesOf 3 es ≠ 0 := by
  -- no call of the run is a request
  have hok : ∀ (x : Sys) (c : Call), (match c with | .ptrace _ _ => false | _ => true) = true →
      Spares x c := by
    intro x c hc
    cases c with
    | ptrace cur a => cases hc
    | _ => trivial
  have hrun : (execOkFrom Sys.step (fun _ c => match c with | .ptrace _ _ => false | _ => true)
      bootSys (begets 2 2 3 2 ++ exits 3)).map (fun x => (decide ((x.s.task 3).state = .zombie ∧
        x.s.slot 2 = 3),
      (execOkFrom Sys.step (fun _ c => match c with | .ptrace _ _ => false | _ => true) x
        [.wait4 2 ⟨-1, true, false, false, false⟩, .reap 2]).map fun x' =>
          (List.range nrTasks).all fun i => decide (x'.s.slot i ≠ 3))) =
      some (true, some true) := by
    decide +kernel
  obtain ⟨x, hx, hval⟩ := Option.map_eq_some_iff.1 hrun
  obtain ⟨hz, hrest⟩ := Prod.mk.inj hval
  obtain ⟨x', hx', hgone⟩ := Option.map_eq_some_iff.1 hrest
  obtain ⟨es, hes, htrace⟩ := Trace.of_execOkFrom hok hx'
  have hreach := Reach.of_execOkFrom hok .init hx
  rw [decide_eq_true_eq] at hz
  have hlive : 3 ∈ x.s.live := ⟨by decide, 2, by decide, hz.2⟩
  have hdead : 3 ∉ x'.s.live := by
    rintro ⟨-, i, hi, heq⟩
    have hall := List.all_eq_true.1 hgone i (List.mem_range.2 hi)
    rw [decide_eq_true_eq] at hall
    exact hall heq
  refine ⟨x, es, x', bootSys_boot, hreach, hes, htrace, hlive, hz.1, hdead, fun hno => ?_⟩
  exact hdead ((zombies_stay_dead bootSys_boot hreach htrace 3).1 hlive hz.1 hno).1

/-- **A zombie runs again.**  A task attaches to its child; the child exits, and is detached. -/
theorem zombie_runs :
    ∃ x x', Boot bootSys ∧ Reach Sys.step anyStep bootSys x ∧
      x.step (.ptrace 3 (request .detach 3)) = some x' ∧
      4 ∈ x.s.live ∧ (x.s.task 4).state = .zombie ∧
      4 ∈ x'.s.live ∧ (x'.s.task 4).state = .running ∧
      (∃ x'', x'.step (.again 4) = some x'') := by
  have hrun : (execFrom Sys.step bootSys (begets 2 2 3 2 ++ begets 3 3 4 3 ++
      [.ptrace 3 (request .attach 3)] ++ exits 4)).map (fun x =>
        (decide ((x.s.task 4).state = .zombie ∧ x.s.slot 3 = 4),
        (x.step (.ptrace 3 (request .detach 3))).map fun x' =>
          (decide ((x'.s.task 4).state = .running ∧ x'.s.slot 3 = 4),
            (x'.step (.again 4)).isSome))) =
      some (true, some (true, true)) := by
    decide +kernel
  obtain ⟨x, hx, hval⟩ := Option.map_eq_some_iff.1 hrun
  obtain ⟨hz, hrest⟩ := Prod.mk.inj hval
  obtain ⟨x', hx', hval'⟩ := Option.map_eq_some_iff.1 hrest
  obtain ⟨hr, hagain⟩ := Prod.mk.inj hval'
  rw [decide_eq_true_eq] at hz hr
  exact ⟨x, x', bootSys_boot, .of_execFrom .init hx, hx', ⟨by decide, 3, by decide, hz.2⟩, hz.1,
    ⟨by decide, 3, by decide, hr.2⟩, hr.1, Option.isSome_iff_exists.1 hagain⟩

end LinuxEvocation.Exit
