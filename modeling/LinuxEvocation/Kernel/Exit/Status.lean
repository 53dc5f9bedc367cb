import LinuxEvocation.Kernel.Exit.Basic
import Mathlib.Tactic

/-!
# The status of a zombie

`send_sig` sets `exit_code` to 0 for a `SIGKILL` or a `SIGCONT`, whatever the state of the task: for
a stopped task this takes back what it has stopped with, for a zombie it takes back what it has
exited with.  `sys_wait4` does the same when it has told of a stop, and may have slept in between.

* `Kept` — a change that makes no zombie and leaves the zombies what they are; `Faithful` — zombies,
  and what `sys_wait4` has found, have the status they have exited with.
* `Clearable` — a zombie whose status can be lost; `sparesSend` and the other `spares…` — the
  condition on a signal, on a call and on a step.
* `exit_status` — in every run whose steps meet the condition, `sys_wait4` stores for a zombie what
  it has passed to `do_exit`.
* `exit_status_lost` — a signal for a zombie, the signal `do_exit` sends to its own group, and a stop
  that is told of late.
-/

namespace LinuxEvocation.Exit

/-! ## What keeps the zombies -/

theorem State.setPc_self (s : State) (p : Nat) (x : Pc) : (s.setPc p x).pc p = x := by
  simp [State.setPc]

/-- The zombies are those that were there, and nothing happens to them. -/
structure Kept (s s' : State) : Prop where
  zombie : ∀ p, (s'.task p).state = .zombie ↔ (s.task p).state = .zombie
  status : ∀ p, (s.task p).state = .zombie → (s'.task p).exitCode = (s.task p).exitCode
  code : s'.code = s.code
  pc : s'.pc = s.pc

/-- What a task may be at: a zombie no longer exits, and what `sys_wait4` has found is a zombie, and
its status what it has exited with. -/
def Fits (s : State) (u : Nat) : Pc → Prop
  | .exiting _ => (s.task u).state ≠ .zombie
  | .found p _ => (s.task p).state = .zombie
  | .reaping p status => (s.task p).state = .zombie ∧ ∀ v ∈ status, v = s.code p
  | _ => True

/-- Every zombie has the status it has exited with. -/
structure Faithful (s : State) : Prop where
  status : ∀ p, (s.task p).state = .zombie → (s.task p).exitCode = s.code p
  pc : ∀ u, Fits s u (s.pc u)

theorem Faithful.setPc {s : State} (h : Faithful s) {cur : Nat} {x : Pc} (hx : Fits s cur x) :
    Faithful (s.setPc cur x) := by
  refine ⟨h.status, fun u => ?_⟩
  change Fits s u (Function.update s.pc cur x u)
  by_cases hu : u = cur
  · rw [hu, Function.update_self]
    exact hx
  · rw [Function.update_of_ne hu]
    exact h.pc u

/-- A zombie whose status is not 0. -/
def Clearable (s : State) (p : Nat) : Prop := (s.task p).state = .zombie ∧ (s.task p).exitCode ≠ 0

namespace Kept

variable {s s₁ s' : State}

theorem refl (s : State) : Kept s s := ⟨fun _ => .rfl, fun _ _ => rfl, rfl, rfl⟩

theorem trans (h : Kept s s₁) (h' : Kept s₁ s') : Kept s s' :=
  ⟨fun p => (h'.zombie p).trans (h.zombie p),
    fun p hp => (h'.status p ((h.zombie p).2 hp)).trans (h.status p hp), h'.code.trans h.code,
    h'.pc.trans h.pc⟩

theorem fits (h : Kept s s') {u : Nat} {x : Pc} (hx : Fits s u x) : Fits s' u x := by
  cases x with
  | exiting => exact fun hz => hx ((h.zombie u).1 hz)
  | found p => exact (h.zombie p).2 hx
  | reaping p status => exact ⟨(h.zombie p).2 hx.1, by rw [h.code]; exact hx.2⟩
  | _ => trivial

theorem faithful (h : Kept s s') (hs : Faithful s) : Faithful s' := by
  refine ⟨fun p hp => ?_, fun u => by rw [h.pc]; exact h.fits (hs.pc u)⟩
  have hz := (h.zombie p).1 hp
  rw [h.status p hz, h.code]
  exact hs.status p hz

variable {p : Nat}

theorem clearable (h : Kept s s') (hp : Clearable s' p) : Clearable s p := by
  have hz := (h.zombie p).1 hp.1
  exact ⟨hz, by rw [← h.status p hz]; exact hp.2⟩

theorem modify {f : Task → Task} (hzombie : (f (s.task p)).state = .zombie ↔ (s.task p).state = .zombie)
    (hstatus : (s.task p).state = .zombie → (f (s.task p)).exitCode = (s.task p).exitCode) :
    Kept s (s.modify p f) := by
  refine ⟨fun q => ?_, fun q hq => ?_, rfl, rfl⟩ <;> simp only [State.modify]
  all_goals
    by_cases heq : q = p
    · subst heq
      rw [Function.update_self]
      first | exact hzombie | exact hstatus hq
    · rw [Function.update_of_ne heq]

/-- A store to a task that is no zombie and becomes none. -/
theorem alive {f : Task → Task} (hs : (s.task p).state ≠ .zombie)
    (hf : (f (s.task p)).state ≠ .zombie) : Kept s (s.modify p f) :=
  modify (iff_of_false hf hs) fun hz => absurd hz hs

theorem store {f : Task → Task} (hstate : (f (s.task p)).state = (s.task p).state)
    (hcode : (f (s.task p)).exitCode = (s.task p).exitCode) : Kept s (s.modify p f) :=
  modify (by rw [hstate]) fun _ => hcode

theorem andStore (h : Kept s s₁) {f : Task → Task} (hstate : ∀ t, (f t).state = t.state)
    (hcode : ∀ t, (f t).exitCode = t.exitCode) : Kept s (s₁.modify p f) :=
  h.trans (store (hstate _) (hcode _))

end Kept

/-! ## Signals -/

/-- The tasks differ in what a signal changes only. -/
def Alike (t t' : Task) : Prop :=
  t' = { t with state := t'.state, signal := t'.signal, exitCode := t'.exitCode }

theorem Alike.refl (t : Task) : Alike t t := rfl

theorem generate_alike (sig : Nat) (t : Task) :
    ∃ signal, generate sig t = { t with signal := signal } := by
  unfold generate
  split_ifs
  · exact ⟨_, rfl⟩
  · exact ⟨t.signal, rfl⟩
  · exact ⟨t.signal, rfl⟩
  · exact ⟨_, rfl⟩

/-- The signals that set `exit_code` to 0. -/
def Clears (sig : Nat) : Prop := sig = sigkill ∨ sig = sigcont

instance (sig : Nat) : Decidable (Clears sig) := inferInstanceAs (Decidable (_ ∨ _))

/-- **What a signal does to a task.** -/
theorem deliver_eq (sig : Nat) (t : Task) :
    ∃ state signal,
      deliver sig t =
        { t with
          state := state
          signal := signal
          exitCode := if Clears sig then 0 else t.exitCode } ∧
      (state = .zombie ↔ t.state = .zombie) := by
  have generated : ∀ t' state signal,
      t' = { t with
        state := state
        signal := signal
        exitCode := if Clears sig then 0 else t.exitCode } →
      (state = .zombie ↔ t.state = .zombie) →
      ∃ state signal,
        generate sig t' =
          { t with
            state := state
            signal := signal
            exitCode := if Clears sig then 0 else t.exitCode } ∧
        (state = .zombie ↔ t.state = .zombie) := by
    rintro _ state signal rfl hstate
    obtain ⟨signal', hg⟩ := generate_alike sig { t with
      state := state
      signal := signal
      exitCode := if Clears sig then 0 else t.exitCode }
    exact ⟨state, signal', hg, hstate⟩
  unfold deliver
  simp only
  by_cases hclears : Clears sig
  · have hstate : (if t.state = .stopped then TaskState.running else t.state) = .zombie ↔
        t.state = .zombie := by
      split_ifs with h
      · rw [h]
        decide
      · exact .rfl
    rw [if_pos (show sig = sigkill ∨ sig = sigcont from hclears)]
    by_cases hrange : sig ≥ sigstop ∧ sig ≤ sigttou
    · rw [if_pos hrange]
      exact generated _ _ _ (by rw [if_pos hclears]) hstate
    · rw [if_neg hrange]
      exact generated _ _ _ (by rw [if_pos hclears]) hstate
  · rw [if_neg (show ¬ (sig = sigkill ∨ sig = sigcont) from hclears)]
    by_cases hrange : sig ≥ sigstop ∧ sig ≤ sigttou
    · rw [if_pos hrange]
      exact generated _ _ _ (by rw [if_neg hclears]) .rfl
    · rw [if_neg hrange]
      exact generated _ t.state t.signal (by rw [if_neg hclears]) .rfl

theorem deliver_alike (sig : Nat) (t : Task) : Alike t (deliver sig t) := by
  obtain ⟨state, signal, heq, -⟩ := deliver_eq sig t
  rw [heq]
  rfl

/-- **The condition on a signal**: a `SIGKILL` or `SIGCONT` that may be sent is not for a zombie
whose status is not 0. -/
def sparesSend (s : State) (cur sig p : Nat) (priv : Bool) : Prop :=
  Clears sig → permitted sig (s.task cur) (s.task p) priv → ¬ Clearable s p

/-- `send_sig` does nothing, or it may send the signal and does. -/
theorem sendSig_cases (cur sig p : Nat) (priv : Bool) (s : State) :
    (sendSig cur sig p priv s).1 = s ∨ permitted sig (s.task cur) (s.task p) priv ∧
      (sendSig cur sig p priv s).1 = s.modify p (deliver sig) := by
  unfold sendSig
  by_cases hnull : p = 0 ∨ sig > 32
  · exact .inl (by rw [if_pos hnull])
  by_cases hperm : permitted sig (s.task cur) (s.task p) priv
  · by_cases hzero : sig = 0
    · exact .inl (by rw [if_neg hnull, if_neg (not_not.2 hperm), if_pos hzero])
    · exact .inr ⟨hperm, by rw [if_neg hnull, if_neg (not_not.2 hperm), if_neg hzero]⟩
  · exact .inl (by rw [if_neg hnull, if_pos hperm])

variable {cur sig p : Nat} {priv : Bool}

theorem sendSig_kept {s : State}
    (h : sparesSend s cur sig p priv) : Kept s (sendSig cur sig p priv s).1 := by
  obtain heq | ⟨hperm, heq⟩ := sendSig_cases cur sig p priv s
  · rw [heq]
    exact .refl s
  · rw [heq]
    obtain ⟨state, signal, heq, hstate⟩ := deliver_eq sig (s.task p)
    refine .modify (by rw [heq]; exact hstate) fun hz => ?_
    rw [heq]
    simp only
    split_ifs with hc
    · -- the status that is lost was 0
      by_contra hne
      exact h hc hperm ⟨hz, fun h0 => hne h0.symm⟩
    · rfl

theorem sendSig_alike (s : State) (cur sig p : Nat) (priv : Bool) (q : Nat) :
    Alike (s.task q) ((sendSig cur sig p priv s).1.task q) := by
  obtain heq | ⟨-, heq⟩ := sendSig_cases cur sig p priv s
  · rw [heq]
    exact .refl _
  · rw [heq, State.modify]
    simp only
    by_cases hq : q = p
    · subst hq
      rw [Function.update_self]
      exact deliver_alike sig (s.task q)
    · rw [Function.update_of_ne hq]
      exact .refl _

theorem Alike.permitted_iff {cur cur' t t' : Task} (hcur : Alike cur cur') (ht : Alike t t')
    (sig : Nat) (priv : Bool) : permitted sig cur' t' priv ↔ permitted sig cur t priv := by
  rw [hcur, ht]
  rfl

/-- A change that keeps the zombies, and of the rest of the tasks all that a signal keeps. -/
structure Signalled (s s' : State) : Prop where
  kept : Kept s s'
  alike : ∀ q, Alike (s.task q) (s'.task q)
  slot : s'.slot = s.slot

theorem Signalled.refl (s : State) : Signalled s s := ⟨.refl s, fun _ => rfl, rfl⟩

theorem Signalled.trans {s s₁ s' : State} (h : Signalled s s₁) (h' : Signalled s₁ s') :
    Signalled s s' := by
  refine ⟨h.kept.trans h'.kept, fun q => ?_, h'.slot.trans h.slot⟩
  have h1 := h.alike q
  have h2 := h'.alike q
  unfold Alike at *
  rw [h2, h1]

theorem Signalled.spares {s s' : State} (h : Signalled s s')
    (hs : sparesSend s cur sig p priv) : sparesSend s' cur sig p priv := by
  intro hc hperm hclear
  exact hs hc (((h.alike cur).permitted_iff (h.alike p) sig priv).1 hperm) (h.kept.clearable hclear)

theorem sendSig_slot (s : State) (cur sig p : Nat) (priv : Bool) :
    (sendSig cur sig p priv s).1.slot = s.slot := by
  obtain heq | ⟨-, heq⟩ := sendSig_cases cur sig p priv s
  · rw [heq]
  · rw [heq]
    rfl

theorem sendSig_signalled {s : State}
    (h : sparesSend s cur sig p priv) : Signalled s (sendSig cur sig p priv s).1 :=
  ⟨sendSig_kept h, sendSig_alike s cur sig p priv, sendSig_slot s cur sig p priv⟩

theorem Signalled.tasks_eq {s s' : State} (h : Signalled s s') : s'.tasks = s.tasks := by
  have hnext : (fun p => (s'.task p).nextTask) = fun p => (s.task p).nextTask := by
    funext p
    rw [h.alike p]
  unfold State.tasks
  rw [hnext, h.slot, congrFun hnext (s.slot 0)]

theorem killEach_signalled {sel : Task → Bool}
    (hsel : ∀ t t', Alike t t' → sel t' = sel t) (ps : List Nat) (s : State) (found : Nat)
    (retval : Int) (h : ∀ p ∈ ps, sel (s.task p) = true → sparesSend s cur sig p priv) :
    Signalled s (killEach cur sig priv sel ps (s, found, retval)).1 := by
  induction ps generalizing s found retval with
  | nil => exact .refl s
  | cons p ps ih =>
    rw [killEach]
    by_cases hp : sel (s.task p) = true
    · rw [if_pos hp]
      have hsent := sendSig_signalled (h p (by simp) hp)
      have hrest : ∀ q ∈ ps, sel ((sendSig cur sig p priv s).1.task q) = true →
          sparesSend (sendSig cur sig p priv s).1 cur sig q priv := by
        intro q hq hselq
        rw [hsel _ _ (hsent.alike q)] at hselq
        exact hsent.spares (h q (by simp [hq]) hselq)
      simp only
      split_ifs <;> exact hsent.trans (ih _ _ _ hrest)
    · rw [if_neg hp]
      exact ih _ _ _ fun q hq => h q (by simp [hq])

/-- The condition on a signal for the tasks that `sel` selects. -/
def sparesSelected (s : State) (cur sig : Nat) (sel : Task → Bool) (priv : Bool) : Prop :=
  ∀ p ∈ s.tasks, sel (s.task p) = true → sparesSend s cur sig p priv

theorem killSelected_signalled {s : State} {id : Int} {sel : Task → Bool} {sig : Int}
    (hsel : ∀ t t', Alike t t' → sel t' = sel t) (h : sparesSelected s cur sig.toNat sel priv) :
    Signalled s (killSelected cur id sel sig priv s).1 := by
  unfold killSelected
  split_ifs with hvalid
  · exact .refl s
  · exact killEach_signalled hsel s.tasks s 0 _ h

/-- The condition on a signal for a group. -/
def sparesPg (s : State) (cur : Nat) (pgrp : Int) (sig : Int) (priv : Bool) : Prop :=
  sparesSelected s cur sig.toNat (fun t => t.pgrp = pgrp) priv

theorem killPg_signalled {s : State} {pgrp sig : Int}
    (h : sparesPg s cur pgrp sig priv) : Signalled s (killPg cur pgrp sig priv s).1 := by
  refine killSelected_signalled (fun t t' ht => ?_) h
  rw [ht]

/-- The condition on a signal for a session leader. -/
def sparesSl (s : State) (cur : Nat) (sess : Int) (sig : Int) (priv : Bool) : Prop :=
  sparesSelected s cur sig.toNat (fun t => t.session = sess ∧ t.leader) priv

theorem killSl_signalled {s : State} {sess sig : Int}
    (h : sparesSl s cur sess sig priv) : Signalled s (killSl cur sess sig priv s).1 := by
  refine killSelected_signalled (fun t t' ht => ?_) h
  rw [ht]

/-- The condition on a signal for a process. -/
def sparesProc (s : State) (cur : Nat) (pid sig : Int) (priv : Bool) : Prop :=
  ∀ p, (s.tasks.find? fun p => (s.task p).pid = pid) = some p → sparesSend s cur sig.toNat p priv

theorem killProc_signalled {s : State} {pid sig : Int}
    (h : sparesProc s cur pid sig priv) : Signalled s (killProc cur pid sig priv s).1 := by
  unfold killProc
  split_ifs with hvalid
  · exact .refl s
  · split
    · rename_i p hp
      exact sendSig_signalled (h p hp)
    · exact .refl s

theorem killAll_signalled (ps : List Nat) (s : State) (count : Nat) (retval : Int)
    (h : ∀ p ∈ ps, (s.task p).pid > 1 → p ≠ cur → sparesSend s cur sig p false) :
    Signalled s (killAll cur sig ps (s, count, retval)).1 := by
  induction ps generalizing s count retval with
  | nil => exact .refl s
  | cons p ps ih =>
    rw [killAll]
    by_cases hp : (s.task p).pid > 1 ∧ p ≠ cur
    · rw [if_pos hp]
      have hsent := sendSig_signalled (h p (by simp) hp.1 hp.2)
      refine hsent.trans (ih _ _ _ fun q hq hpid hne => ?_)
      rw [hsent.alike q] at hpid
      exact hsent.spares (h q (by simp [hq]) hpid hne)
    · rw [if_neg hp]
      exact ih _ _ _ fun q hq => h q (by simp [hq])

/-- The condition on `sys_kill`. -/
def sparesKill (s : State) (cur : Nat) (pid sig : Int) : Prop :=
  if pid = 0 then sparesPg s cur (s.task cur).pgrp sig false
  else if pid = -1 then
    ∀ p ∈ s.tasks, (s.task p).pid > 1 → p ≠ cur → sparesSend s cur (ulong sig) p false
  else if pid < 0 then sparesPg s cur (-pid) sig false
  else sparesProc s cur pid sig false

theorem sysKill_signalled {s : State} {pid sig : Int} (h : sparesKill s cur pid sig) :
    Signalled s (sysKill cur pid sig s).1 := by
  unfold sysKill
  unfold sparesKill at h
  split_ifs at h ⊢ with h0 h1 h2
  · exact killPg_signalled h
  · exact killAll_signalled s.tasks s 0 0 h
  · exact killPg_signalled h
  · exact killProc_signalled h

/-! ## The parent is notified -/

theorem wakeChldexit_kept (p : Nat) (s : State) : Kept s (wakeChldexit p s) := by
  unfold wakeChldexit
  split
  · refine .modify ?_ fun hz => ?_
    · split_ifs with hi
      · rw [hi]
        decide
      · exact .rfl
    · split_ifs <;> rfl
  · exact .refl s

/-- The condition on `notify_parent`. -/
def sparesNotify (s : State) (p : Nat) : Prop :=
  sparesSend s p (s.notifySignal p) (s.task p).pPptr true

theorem notifyParent_kept {s : State} (h : sparesNotify s p) :
    Kept s (notifyParent p s) := by
  unfold notifyParent
  simp only
  set s₁ := s.modify p fun t => { t with exitSignal := s.notifySignal p } with hs₁
  have hstore : Kept s s₁ := .store rfl rfl
  have hparent : (s₁.task p).pPptr = (s.task p).pPptr := by
    simp only [hs₁, State.modify, Function.update_self]
  have hspares : sparesSend s₁ p (s.notifySignal p) (s₁.task p).pPptr true := by
    intro hc _ hclear
    rw [hparent] at hclear
    exact h hc (.inl rfl) (hstore.clearable hclear)
  exact hstore.trans ((sendSig_kept hspares).trans (wakeChldexit_kept _ _))

/-! ## Links -/

theorem removeLinks_kept (p : Nat) (s : State) : Kept s (removeLinks p s) := by
  unfold removeLinks
  simp only
  split_ifs
  all_goals
    repeat refine Kept.andStore ?_ (fun _ => rfl) fun _ => rfl
    exact .refl s

theorem setLinks_kept (p : Nat) (s : State) : Kept s (setLinks p s) := by
  unfold setLinks
  simp only
  refine Kept.andStore ?_ (fun _ => rfl) fun _ => rfl
  split_ifs
  all_goals
    repeat refine Kept.andStore ?_ (fun _ => rfl) fun _ => rfl
    exact .refl s

theorem release_kept (p : Nat) (s : State) : Kept s (release p s) := by
  unfold release
  split
  · have hslot : ∀ slot, Kept s { s with slot := slot } := fun _ =>
      ⟨fun _ => .rfl, fun _ _ => rfl, rfl, rfl⟩
    exact (hslot _).trans (removeLinks_kept p _)
  · exact .refl s

theorem reparent_kept (cur p : Nat) (s : State) : Kept s (reparent cur p s) := by
  unfold reparent
  simp only
  repeat refine Kept.andStore ?_ (fun _ => rfl) fun _ => rfl
  exact .refl s

theorem foldl_kept {f : State → Nat → State} (hf : ∀ s p, Kept s (f s p)) (ps : List Nat)
    (s : State) : Kept s (ps.foldl f s) := by
  induction ps generalizing s with
  | nil => exact .refl s
  | cons p ps ih => exact (hf s p).trans (ih (f s p))

theorem forgetOriginalParent_kept (father : Nat) (s : State) :
    Kept s (forgetOriginalParent father s) := by
  refine foldl_kept (fun s p => ?_) s.tasks s
  split_ifs
  · exact .store rfl rfl
  · exact .refl s

/-! ## `do_exit` -/

theorem not_clears_sighup : ¬ Clears sighup := by decide

theorem killPg_sighup (cur : Nat) (pgrp : Int) (s : State) :
    Signalled s (killPg cur pgrp sighup true s).1 :=
  killPg_signalled fun _ _ _ hc => absurd hc not_clears_sighup

/-- The condition on the signals for a group that is orphaned: there is no zombie in it whose status
is not 0. -/
def sparesGroup (s : State) (pgrp : Int) : Prop :=
  ∀ p ∈ s.tasks, (s.task p).pgrp = pgrp → ¬ Clearable s p

theorem hupCont_kept {s : State} {pgrp : Int} (h : sparesGroup s pgrp) :
    Kept s (hupCont cur pgrp s) := by
  have hhup := killPg_sighup cur pgrp s
  have hcont : sparesPg (killPg cur pgrp sighup true s).1 cur pgrp sigcont true := by
    intro p hp hpgrp _ _ hclear
    rw [hhup.tasks_eq] at hp
    have hpgrp := of_decide_eq_true hpgrp
    rw [hhup.alike p] at hpgrp
    exact h p hp hpgrp (hhup.kept.clearable hclear)
  exact hhup.kept.trans (killPg_signalled hcont).kept

/-- The condition on what `do_exit` does about one child. -/
def sparesChild (s : State) (cur p : Nat) : Prop :=
  let s := reparent cur p s
  ((s.task p).state = .zombie → sparesNotify s p) ∧
    let s := if (s.task p).state = .zombie then notifyParent p s else s
    s.orphans p cur = true → sparesGroup s (s.task p).pgrp

theorem exitChild_kept {s : State} (h : sparesChild s cur p) :
    Kept s (exitChild cur p s) := by
  obtain ⟨hnotify, hgroup⟩ := h
  unfold exitChild
  simp only at hnotify hgroup ⊢
  refine (reparent_kept cur p s).trans ?_
  have hmiddle : Kept (reparent cur p s)
      (if ((reparent cur p s).task p).state = .zombie then notifyParent p (reparent cur p s)
        else reparent cur p s) := by
    split_ifs with hz
    · exact notifyParent_kept (hnotify hz)
    · exact .refl _
  refine hmiddle.trans ?_
  split_ifs at hgroup ⊢ with h1 h2 h2
  · exact hupCont_kept (hgroup h2)
  · exact .refl _
  · exact hupCont_kept (hgroup h2)
  · exact .refl _

/-- The condition on what `do_exit` does about the children. -/
def sparesChildren (cur : Nat) : Nat → State → Prop
  | 0, _ => True
  | fuel + 1, s =>
    let p := (s.task cur).pCptr
    p = 0 ∨ (sparesChild s cur p ∧ sparesChildren cur fuel (exitChild cur p s))

theorem exitChildren_kept (fuel : Nat) {s : State} (h : sparesChildren cur fuel s) :
    Kept s (exitChildren cur fuel s) := by
  induction fuel generalizing s with
  | zero => exact .refl s
  | succ fuel ih =>
    rw [exitChildren]
    by_cases hp : (s.task cur).pCptr = 0
    · rw [if_pos hp]
      exact .refl s
    · rw [if_neg hp]
      obtain h0 | ⟨hchild, hrest⟩ := h
      · exact absurd h0 hp
      · exact (exitChild_kept hchild).trans (ih hrest)

theorem exitLeader_kept (cur : Nat) (s : State) : Kept s (exitLeader cur s) := by
  have hdetach : ∀ s : State, Kept s (s.tasks.foldl
      (fun s p => if (s.task p).session = (s.task cur).session then
        s.modify p fun t => { t with tty := -1 } else s) s) := by
    intro s
    refine foldl_kept (fun s p => ?_) s.tasks s
    split_ifs
    · exact .store rfl rfl
    · exact .refl s
  have htty : ∀ (s : State) tty, Kept s { s with tty := tty } :=
    fun _ _ => ⟨fun _ => .rfl, fun _ _ => rfl, rfl, rfl⟩
  unfold exitLeader
  by_cases hleader : (s.task cur).leader = true
  · rw [if_pos hleader]
    refine Kept.trans ?_ (hdetach _)
    split_ifs
    · split
      · refine Kept.trans ?_ (htty _ _)
        split_ifs
        · exact (killPg_sighup cur _ s).kept
        · exact .refl s
      · exact .refl s
    · exact .refl s
  · rw [if_neg hleader]
    exact .refl s

/-- The condition on what `do_exit` does about its own group. -/
def sparesOwnGroup (s : State) (cur : Nat) : Prop :=
  s.orphans cur (s.task cur).pPptr = true → sparesGroup s (s.task cur).pgrp

/-- **The condition on `do_exit`.** -/
def sparesExit (s : State) (cur : Nat) (code : Int) : Prop :=
  let s := becomeZombie cur code s
  sparesOwnGroup s cur ∧ sparesNotify (exitGroup cur s) cur ∧
    sparesChildren cur nrTasks (notifyParent cur (exitGroup cur s))

theorem exitGroup_kept {s : State} (h : sparesOwnGroup s cur) :
    Kept s (exitGroup cur s) := by
  unfold exitGroup
  split_ifs with horphans
  · exact hupCont_kept (h horphans)
  · exact .refl s

theorem becomeZombie_faithful {s : State} (h : Faithful s) {cur : Nat} {code : Int}
    (hpc : s.pc cur = .exiting code) : Faithful (becomeZombie cur code s) := by
  have hcur : (s.task cur).state ≠ .zombie := by
    have hfits := h.pc cur
    rwa [hpc] at hfits
  have hother : ∀ p, p ≠ cur → (becomeZombie cur code s).task p = s.task p :=
    fun p hp => Function.update_of_ne hp _ _
  have hself : (becomeZombie cur code s).task cur =
      { s.task cur with state := .zombie, exitCode := code } := Function.update_self _ _ _
  have hcode : ∀ p, p ≠ cur → (becomeZombie cur code s).code p = s.code p :=
    fun p hp => Function.update_of_ne hp _ _
  refine ⟨fun p hp => ?_, fun u => ?_⟩
  · by_cases heq : p = cur
    · rw [heq, hself]
      exact (Function.update_self cur code s.code).symm
    · rw [hother p heq] at hp ⊢
      rw [hcode p heq]
      exact h.status p hp
  · -- what is found is another task
    have hzombie : ∀ p, (s.task p).state = .zombie → p ≠ cur :=
      fun p hp heq => hcur (heq ▸ hp)
    change Fits _ u (Function.update s.pc cur .dead u)
    by_cases hu : u = cur
    · rw [hu, Function.update_self]
      trivial
    · rw [Function.update_of_ne hu]
      have hfits := h.pc u
      cases hx : s.pc u with
      | exiting =>
        rw [hx] at hfits
        change (Task.state _) ≠ _
        rw [hother u hu]
        exact hfits
      | found p =>
        rw [hx] at hfits
        change (Task.state _) = _
        rw [hother p (hzombie p hfits)]
        exact hfits
      | reaping p =>
        rw [hx] at hfits
        refine ⟨?_, fun v hv => ?_⟩
        · rw [hother p (hzombie p hfits.1)]
          exact hfits.1
        · rw [hcode p (hzombie p hfits.1)]
          exact hfits.2 v hv
      | _ => trivial

theorem doExit_faithful {s : State} {code : Int} (h : Faithful s) (hpc : s.pc cur = .exiting code)
    (hspares : sparesExit s cur code) : Faithful (doExit cur code s) := by
  obtain ⟨hgroup, hnotify, hchildren⟩ := hspares
  have hkept := (exitGroup_kept hgroup).trans ((notifyParent_kept hnotify).trans
    ((exitChildren_kept nrTasks hchildren).trans (exitLeader_kept cur _)))
  exact hkept.faithful (becomeZombie_faithful h hpc)

/-! ## `sys_wait4` -/

/-- The loop over the children ends at a task that is stopped or a zombie, as it says. -/
theorem scan_state (w : Wait) (cur : Nat) (s : State) (flag : Bool) (ps : List Nat) :
    (∀ p, scan w cur s flag ps = .stopped p → (s.task p).state = .stopped) ∧
      ∀ p, scan w cur s flag ps = .zombie p → (s.task p).state = .zombie := by
  induction ps generalizing flag with
  | nil => exact ⟨fun p h => (by cases h), fun p h => (by cases h)⟩
  | cons q ps ih =>
    rw [scan]
    by_cases hsel : w.selects (s.task cur) (s.task q) = true
    · rw [if_neg (not_not.2 hsel)]
      cases hstate : (s.task q).state with
      | stopped =>
        simp only
        split_ifs
        · exact ih true
        · exact ih true
        · refine ⟨fun p h => ?_, fun p h => by cases h⟩
          cases h
          exact hstate
      | zombie =>
        refine ⟨fun p h => (by cases h), fun p h => ?_⟩
        cases h
        exact hstate
      | _ => exact ih true
    · rw [if_pos hsel]
      exact ih flag

/-- The condition on what `sys_wait4` does to a zombie. -/
def sparesReap (s : State) (p : Nat) : Prop :=
  (s.task p).pOpptr ≠ (s.task p).pPptr →
    sparesNotify (setLinks p ((removeLinks p s).modify p fun t => { t with pPptr := t.pOpptr })) p

theorem reap_kept {s : State} (h : sparesReap s p) : Kept s (reap p s) := by
  unfold reap
  split_ifs with hparent
  · refine Kept.trans ?_ ((setLinks_kept p _).trans (notifyParent_kept (h hparent)))
    exact (removeLinks_kept p s).andStore (fun _ => rfl) fun _ => rfl
  · exact release_kept p s

theorem tryWait_faithful {s : State} (h : Faithful s) (hcur : (s.task cur).state ≠ .zombie)
    (w : Wait) : Faithful (tryWait cur w s).1 := by
  obtain ⟨-, hzombie⟩ := scan_state w cur s false (s.children cur)
  unfold tryWait
  cases hscan : scan w cur s false (s.children cur) with
  | stopped p => exact h.setPc trivial
  | zombie p => exact h.setPc (hzombie p hscan)
  | none flag =>
    have hsleeps : Kept s (s.modify cur fun t => { t with state := .interruptible }) :=
      .alive hcur (by simp)
    simp only
    split_ifs
    · exact h.setPc trivial
    · exact (hsleeps.faithful h).setPc trivial
    · exact h.setPc trivial

/-- A task that has slept in `sys_wait4`. -/
def awake (cur : Nat) (s : State) : State :=
  s.modify cur fun t => { t with state := .running, signal := t.signal &&& ~~~ sigmask sigchld }

theorem wakeWait_faithful {s : State} (h : Faithful s) (hcur : (s.task cur).state ≠ .zombie)
    (w : Wait) : Faithful (wakeWait cur w s).1 := by
  have hawake : Faithful (awake cur s) := (Kept.alive hcur (by simp)).faithful h
  have hrun : ((awake cur s).task cur).state ≠ .zombie := by simp [awake, State.modify]
  unfold wakeWait
  simp only
  split_ifs
  · exact hawake.setPc trivial
  · exact tryWait_faithful hawake hrun w

/-- The end of `sys_wait4` for a child that has stopped takes back what it has stopped with. -/
theorem clear_faithful {s : State} (h : Faithful s) (hp : ¬ Clearable s p) :
    Faithful (clear cur p s) := by
  have hkept : Kept s (s.modify p fun t => { t with exitCode := 0 }) :=
    .modify .rfl fun hz => by_contra fun hne => hp ⟨hz, fun h0 => hne h0.symm⟩
  exact (hkept.faithful h).setPc trivial

/-! ## Runs -/

/-- **The condition on a step**: no `SIGKILL` or `SIGCONT` it sends, and may send, is for a zombie
whose status is not 0, and neither is what `sys_wait4` takes back when it has told of a stop. -/
def spares (s : State) : Event → Prop
  | .sendSig cur sig p priv => sparesSend s cur sig p priv
  | .killPg cur pgrp sig priv => sparesPg s cur pgrp sig priv
  | .killSl cur sess sig priv => sparesSl s cur sess sig priv
  | .killProc cur pid sig priv => sparesProc s cur pid sig priv
  | .kill cur pid sig => sparesKill s cur pid sig
  | .die cur => ∀ code, s.pc cur = .exiting code → sparesExit s cur code
  | .clear cur => ∀ p status, s.pc cur = .clearing p status → ¬ Clearable s p
  | .reap cur => ∀ p status, s.pc cur = .reaping p status → sparesReap s p
  | .stop cur sig notify =>
    notify = true →
      sparesNotify (s.modify cur fun t => { t with state := .stopped, exitCode := sig }) cur
  | _ => True

theorem step_faithful {s s' : State} {e : Event} (h : Faithful s) (hspares : spares s e)
    (hstep : step s e = some s') : Faithful s' := by
  obtain ⟨⟨_, out⟩, hout, rfl⟩ := Option.map_eq_some_iff.1 hstep
  cases e with
  | sendSig cur sig p priv =>
    cases hout
    exact (sendSig_kept hspares).faithful h
  | killPg cur pgrp sig priv =>
    cases hout
    exact (killPg_signalled hspares).kept.faithful h
  | killSl cur sess sig priv =>
    cases hout
    exact (killSl_signalled hspares).kept.faithful h
  | killProc cur pid sig priv =>
    cases hout
    exact (killProc_signalled hspares).kept.faithful h
  | kill cur pid sig =>
    simp only [stepOut] at hout
    split_ifs at hout
    cases hout
    exact (sysKill_signalled hspares).kept.faithful h
  | exit cur code =>
    simp only [stepOut] at hout
    split_ifs at hout
    rename_i hready
    cases hout
    have hkept := forgetOriginalParent_kept cur s
    refine (hkept.faithful h).setPc fun hz => ?_
    rw [hkept.zombie cur, hready.2] at hz
    cases hz
  | die cur =>
    simp only [stepOut] at hout
    cases hpc : s.pc cur with
    | exiting code =>
      rw [hpc] at hout
      cases hout
      exact doExit_faithful h hpc (hspares code hpc)
    | _ =>
      rw [hpc] at hout
      cases hout
  | wait4 cur w =>
    simp only [stepOut] at hout
    split_ifs at hout with hready
    rw [← congrArg Prod.fst (Option.some.inj hout)]
    exact tryWait_faithful h (by simp [hready.2]) w
  | run cur =>
    simp only [stepOut] at hout
    cases hpc : s.pc cur with
    | waiting w =>
      rw [hpc] at hout
      simp only at hout
      split_ifs at hout with hwoken
      rw [← congrArg Prod.fst (Option.some.inj hout)]
      refine wakeWait_faithful h ?_ w
      rcases hwoken with hr | ⟨hr, -⟩ <;> simp [hr]
    | _ =>
      rw [hpc] at hout
      cases hout
  | clear cur =>
    simp only [stepOut] at hout
    cases hpc : s.pc cur with
    | clearing p status =>
      rw [hpc] at hout
      cases hout
      exact clear_faithful h (hspares p status hpc)
    | _ =>
      rw [hpc] at hout
      cases hout
  | store cur =>
    simp only [stepOut] at hout
    have hfits := h.pc cur
    cases hpc : s.pc cur with
    | found p stat =>
      rw [hpc] at hout hfits
      cases hout
      refine h.setPc ⟨hfits, fun v hv => ?_⟩
      rw [Option.mem_def, Option.ite_none_right_eq_some] at hv
      exact (Option.some.inj hv.2).symm.trans (h.status p hfits)
    | _ =>
      rw [hpc] at hout
      cases hout
  | reap cur =>
    simp only [stepOut] at hout
    cases hpc : s.pc cur with
    | reaping p status =>
      rw [hpc] at hout
      cases hout
      exact ((reap_kept (hspares p status hpc)).faithful h).setPc trivial
    | _ =>
      rw [hpc] at hout
      cases hout
  | stop cur sig notify =>
    simp only [stepOut] at hout
    rw [Option.ite_none_right_eq_some] at hout
    obtain ⟨hready, hout⟩ := hout
    have hstop : Kept s (s.modify cur fun t => { t with state := .stopped, exitCode := sig }) :=
      .alive (by simp [hready.2]) (by simp)
    split_ifs at hout with hnotify
    · cases hout
      exact (hstop.trans (notifyParent_kept (hspares hnotify))).faithful h
    · cases hout
      exact hstop.faithful h
  | resume cur =>
    simp only [stepOut] at hout
    split_ifs at hout with hready
    cases hout
    have hkept : Kept s (s.modify cur fun t => { t with exitCode := 0 }) :=
      .alive (by simp [hready.2]) (by simp [hready.2])
    exact hkept.faithful h

/-- **Exit status.**  In every run, from any table of tasks that are in no call and of which none is a
zombie, whose steps meet the condition: what `sys_wait4` stores for a zombie is what it has passed to
`do_exit`. -/
theorem exit_status {s₀ s s' : State} {e : Event} {val status : Int}
    (hinit : ∀ p, (s₀.task p).state ≠ .zombie ∧ s₀.pc p = .user)
    (h : Transition.Reach step spares s₀ s)
    (hstep : stepOut s e = some (s', some ⟨val, some (.zombie p (some status))⟩)) :
    status = s.code p := by
  have hboot : Faithful s₀ := by
    refine ⟨fun p hp => absurd hp (hinit p).1, fun u => ?_⟩
    rw [(hinit u).2]
    trivial
  have hfaithful : Faithful s :=
    h.invariant hboot fun _ _ _ hs hok hstep => step_faithful hs hok hstep
  cases e with
  | reap cur =>
    have hfits := hfaithful.pc cur
    simp only [stepOut] at hstep
    cases hpc : s.pc cur with
    | reaping q v =>
      rw [hpc] at hstep hfits
      simp only [Option.some.injEq, Prod.mk.injEq, Return.mk.injEq, Report.zombie.injEq] at hstep
      obtain ⟨-, -, rfl, rfl⟩ := hstep
      exact hfits.2 status rfl
    | _ =>
      rw [hpc] at hstep
      cases hstep
  | wait4 cur w | run cur =>
    simp only [stepOut, wakeWait, tryWait] at hstep
    grind
  | die cur | clear cur | store cur =>
    simp only [stepOut] at hstep
    split at hstep <;> cases hstep
  | kill cur pid sig | exit cur code | resume cur =>
    simp only [stepOut] at hstep
    split_ifs at hstep
    cases hstep
  | stop cur sig notify =>
    simp only [stepOut] at hstep
    split_ifs at hstep <;> cases hstep
  | _ => cases hstep

/-! ## A shell and a job of two processes -/

/-- A task that runs and ignores nothing. -/
def plainTask : Task where
  state := .running
  signal := 0
  blocked := 0
  exitCode := 0
  exitSignal := sigchld
  ptraced := false
  tracesys := false
  pid := 0
  pgrp := 0
  session := 0
  leader := false
  tty := -1
  uid := 0
  euid := 0
  handler _ := .dfl
  nextTask := 0
  prevTask := 0
  pPptr := 0
  pOpptr := 0
  pCptr := 0
  pYsptr := 0
  pOsptr := 0

/-- The idle task, `init`, a shell, and its job: a process and a child of it. -/
def jobTasks : Nat → Task
  | 1 => { plainTask with nextTask := 2, prevTask := 5, pPptr := 1, pOpptr := 1, pCptr := 2 }
  | 2 => { plainTask with
      pid := 1, pgrp := 1, session := 1, nextTask := 3, prevTask := 1, pPptr := 1, pOpptr := 1,
      pCptr := 3 }
  | 3 => { plainTask with
      pid := 2, pgrp := 2, session := 2, leader := true, uid := 100, euid := 100, nextTask := 4,
      prevTask := 2, pPptr := 2, pOpptr := 2, pCptr := 4 }
  | 4 => { plainTask with
      pid := 3, pgrp := 3, session := 2, uid := 100, euid := 100, nextTask := 5, prevTask := 3,
      pPptr := 3, pOpptr := 3, pCptr := 5 }
  | 5 => { plainTask with
      pid := 4, pgrp := 3, session := 2, uid := 100, euid := 100, nextTask := 1, prevTask := 4,
      pPptr := 4, pOpptr := 4 }
  | _ => plainTask

def jobTable : State where
  task := jobTasks
  slot i := if i < 5 then i + 1 else 0
  tty _ := none
  pc _ := .user
  code _ := 0

theorem jobTable_boots (p : Nat) : (jobTable.task p).state ≠ .zombie ∧ jobTable.pc p = .user := by
  refine ⟨?_, rfl⟩
  change (jobTasks p).state ≠ _
  unfold jobTasks
  split <;> decide

section Decide

variable (s : State)

instance (p : Nat) : Decidable (Clearable s p) := inferInstanceAs (Decidable (_ ∧ _))

instance (cur sig p : Nat) (priv : Bool) : Decidable (sparesSend s cur sig p priv) :=
  inferInstanceAs (Decidable (_ → _ → _))

instance (p : Nat) : Decidable (sparesNotify s p) :=
  inferInstanceAs (Decidable (sparesSend s p _ _ _))

instance (pgrp : Int) : Decidable (sparesGroup s pgrp) :=
  inferInstanceAs (Decidable (∀ p ∈ s.tasks, (s.task p).pgrp = pgrp → ¬ Clearable s p))

instance (cur : Nat) : Decidable (sparesOwnGroup s cur) := inferInstanceAs (Decidable (_ → _))

instance (cur p : Nat) : Decidable (sparesChild s cur p) :=
  inferInstanceAs (Decidable ((_ → sparesNotify _ _) ∧ (_ = true → sparesGroup _ _)))

instance decidableSparesChildren (cur : Nat) : ∀ fuel s, Decidable (sparesChildren cur fuel s)
  | 0, _ => isTrue trivial
  | fuel + 1, s =>
    have := decidableSparesChildren cur fuel (exitChild cur (s.task cur).pCptr s)
    inferInstanceAs (Decidable ((s.task cur).pCptr = 0 ∨ (sparesChild s cur (s.task cur).pCptr ∧
      sparesChildren cur fuel (exitChild cur (s.task cur).pCptr s))))

instance (cur : Nat) (code : Int) : Decidable (sparesExit s cur code) :=
  inferInstanceAs (Decidable (sparesOwnGroup _ _ ∧ sparesNotify _ _ ∧ sparesChildren _ _ _))

end Decide

/-- The shell waits for the process whose `pid` is 3, up to where it has stored its status. -/
def waitJob : List Event := [.wait4 3 ⟨3, true, false, false, false⟩, .store 3]

/-- The process of the job exits, and the shell gets its status. -/
theorem exit_status_of_job :
    ∃ s s' : State, Transition.Reach step spares jobTable s ∧
      stepOut s (.reap 3) = some (s', some ⟨3, some (.zombie 4 (some 1792))⟩) ∧
      (1792 : Int) = s.code 4 := by
  have hexit : step jobTable (.exit 4 1792) =
      some ((forgetOriginalParent 4 jobTable).setPc 4 (.exiting 1792)) := rfl
  set s₁ := (forgetOriginalParent 4 jobTable).setPc 4 (.exiting 1792) with hs₁
  have hpc : s₁.pc 4 = .exiting 1792 := State.setPc_self _ 4 _
  have hdie : step s₁ (.die 4) = some (doExit 4 1792 s₁) := by
    simp only [step, stepOut, hpc, Option.map_some]
  have hspares : spares s₁ (.die 4) := by
    intro code hcode
    rw [hpc] at hcode
    cases hcode
    decide +kernel
  have hwaits : ∀ s e, decide (e ∈ waitJob) = true → spares s e := by
    intro s e he
    have hmem : e ∈ waitJob := of_decide_eq_true he
    simp only [waitJob, List.mem_cons, List.not_mem_nil, or_false] at hmem
    rcases hmem with rfl | rfl <;> trivial
  have hrun : (Transition.execOkFrom step (fun _ e => decide (e ∈ waitJob)) (doExit 4 1792 s₁)
      waitJob).map (fun s => (stepOut s (.reap 3)).map Prod.snd) =
      some (some (some ⟨3, some (.zombie 4 (some 1792))⟩)) := by
    decide +kernel
  obtain ⟨s, hs, hout⟩ := Option.map_eq_some_iff.1 hrun
  obtain ⟨⟨s', out⟩, hstep, rfl⟩ := Option.map_eq_some_iff.1 hout
  have hreach : Transition.Reach step spares jobTable s :=
    .of_execOkFrom hwaits ((Transition.Reach.init.step _ trivial hexit).step _ hspares hdie) hs
  exact ⟨s, s', hreach, hstep, exit_status jobTable_boots hreach hstep⟩

/-- After `es` the shell waits, and is told that its child has exited with 0; it has exited with
1792. -/
def LosesStatus (es : List Event) : Prop :=
  ∃ s s' : State, Transition.Reach step Transition.anyStep jobTable s ∧
    Transition.execFrom step jobTable (es ++ waitJob) = some s ∧
    stepOut s (.reap 3) = some (s', some ⟨3, some (.zombie 4 (some 0))⟩) ∧ s.code 4 = 1792

theorem LosesStatus.of_exec {es : List Event}
    (h : (Transition.execFrom step jobTable (es ++ waitJob)).map
      (fun s => ((stepOut s (.reap 3)).map Prod.snd, s.code 4)) =
        some (some (some ⟨3, some (.zombie 4 (some 0))⟩), 1792)) : LosesStatus es := by
  obtain ⟨s, hs, hval⟩ := Option.map_eq_some_iff.1 h
  obtain ⟨hout, hcode⟩ := Prod.mk.inj hval
  obtain ⟨⟨s', out⟩, hstep, rfl⟩ := Option.map_eq_some_iff.1 hout
  exact ⟨s, s', Transition.Reach.of_execFrom .init hs, hs, hstep, hcode⟩

/-- **The status is lost.**  A signal is sent to the zombie by its parent; or the other process of
the job is stopped, so that `do_exit` sends a `SIGCONT` to its own group; or the process is continued
and exits while the shell stores that it has stopped. -/
theorem exit_status_lost :
    LosesStatus [.exit 4 1792, .die 4, .kill 3 3 sigcont] ∧
      LosesStatus [.stop 5 sigtstp true, .exit 4 1792, .die 4] ∧
      LosesStatus [.stop 4 sigtstp true, .wait4 3 ⟨3, true, false, true, false⟩, .kill 5 3 sigcont,
        .exit 4 1792, .die 4, .clear 3] := by
  refine ⟨?_, ?_, ?_⟩ <;>
  · apply LosesStatus.of_exec
    decide +kernel

end LinuxEvocation.Exit
