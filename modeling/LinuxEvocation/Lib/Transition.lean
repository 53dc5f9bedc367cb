import Mathlib.Logic.Relation

/-!
# Runs of a machine whose steps are labelled by events

A machine is a partial step function `σ → ε → Option σ`: an event either has no
effect to offer in a state (`none`) or takes it to exactly one next state.  A
*guard* `ok : σ → ε → Prop` singles out the steps a run is allowed to take, so
that one reachability predicate serves both for "every run" (the trivial guard)
and for "every run all of whose steps meet a condition".

* `Reach step ok s₀ s` — `s` is reached from `s₀` by steps that all meet `ok`.
* `Reach.invariant` — the induction rule: what holds at the start and is kept by
  every allowed step holds in every state reached.
* `Reach.mono` — a run under a stronger guard is a run under a weaker one.
* `Trace step ok s es s'` — a run from `s` to `s'`, with the steps it takes.
* `execFrom`, `Reach.of_execFrom` — a list of events replayed by computation is
  such a run, which is how a concrete run is exhibited.
-/

namespace Transition

variable {σ ε : Type*}

/-- The states reached from `s₀` by steps of the machine that all meet `ok`. -/
inductive Reach (step : σ → ε → Option σ) (ok : σ → ε → Prop) (s₀ : σ) : σ → Prop
  | init : Reach step ok s₀ s₀
  | step {s s' : σ} (e : ε) : Reach step ok s₀ s → ok s e → step s e = some s' →
      Reach step ok s₀ s'

/-- The guard every step meets. -/
def anyStep (_ : σ) (_ : ε) : Prop := True

variable {step : σ → ε → Option σ} {ok ok' : σ → ε → Prop} {s₀ : σ}

/-- **The invariant rule.**  What holds at the start and is kept by every allowed
step holds in every state reached. -/
theorem Reach.invariant {I : σ → Prop} (h0 : I s₀)
    (hstep : ∀ s e s', I s → ok s e → step s e = some s' → I s') {s : σ}
    (h : Reach step ok s₀ s) : I s := by
  induction h with
  | init => exact h0
  | step e _ hok he ih => exact hstep _ e _ ih hok he

/-- A run under a stronger guard is a run under a weaker one. -/
theorem Reach.mono (hmono : ∀ s e, ok s e → ok' s e) {s : σ} (h : Reach step ok s₀ s) :
    Reach step ok' s₀ s := by
  induction h with
  | init => exact .init
  | step e _ hok he ih => exact .step e ih (hmono _ _ hok) he

/-- A run from one state to another, with the steps it takes. -/
inductive Trace (step : σ → ε → Option σ) (ok : σ → ε → Prop) : σ → List (σ × ε) → σ → Prop
  | nil (s : σ) : Trace step ok s [] s
  | cons {s s₁ s' : σ} {e : ε} {es : List (σ × ε)} : ok s e → step s e = some s₁ →
      Trace step ok s₁ es s' → Trace step ok s ((s, e) :: es) s'

/-- Replay a list of events; `none` as soon as one of them has no effect to offer. -/
def execFrom (step : σ → ε → Option σ) (s : σ) : List ε → Option σ
  | [] => some s
  | e :: es => (step s e).bind fun s' => execFrom step s' es

/-- Replay a list of events, insisting that each meets a decidable guard. -/
def execOkFrom (step : σ → ε → Option σ) (okb : σ → ε → Bool) (s : σ) : List ε → Option σ
  | [] => some s
  | e :: es => if okb s e then (step s e).bind fun s' => execOkFrom step okb s' es else none

/-- A guarded replay is a guarded run. -/
theorem Reach.of_execOkFrom {okb : σ → ε → Bool} (hok : ∀ s e, okb s e = true → ok s e)
    {s t : σ} (hs : Reach step ok s₀ s) {es : List ε} (h : execOkFrom step okb s es = some t) :
    Reach step ok s₀ t := by
  induction es generalizing s with
  | nil => cases h; exact hs
  | cons e es ih =>
    rw [execOkFrom] at h
    by_cases he : okb s e = true
    · rw [if_pos he] at h
      obtain ⟨s', hs', ht⟩ := Option.bind_eq_some_iff.1 h
      exact ih (hs.step e (hok s e he) hs') ht
    · rw [if_neg he] at h
      exact absurd h (by simp)

/-- A guarded replay is a run with the steps it takes. -/
theorem Trace.of_execOkFrom {okb : σ → ε → Bool} (hok : ∀ s e, okb s e = true → ok s e)
    {s t : σ} {es : List ε} (h : execOkFrom step okb s es = some t) :
    ∃ tr : List (σ × ε), tr.map Prod.snd = es ∧ Trace step ok s tr t := by
  induction es generalizing s with
  | nil =>
    cases h
    exact ⟨[], rfl, .nil _⟩
  | cons e es ih =>
    rw [execOkFrom] at h
    by_cases he : okb s e = true
    · rw [if_pos he] at h
      obtain ⟨s', hs', ht⟩ := Option.bind_eq_some_iff.1 h
      obtain ⟨tr, hmap, htr⟩ := ih ht
      exact ⟨(s, e) :: tr, by rw [List.map_cons, hmap], .cons (hok s e he) hs' htr⟩
    · rw [if_neg he] at h
      exact absurd h (by simp)

/-- A replay of events that meet the guard in every state goes on with the run. -/
theorem Reach.of_quiet {s t : σ} (hs : Reach step ok s₀ s) {es : List ε}
    (hquiet : ∀ e ∈ es, ∀ s, ok s e) (h : execFrom step s es = some t) : Reach step ok s₀ t := by
  induction es generalizing s with
  | nil => cases h; exact hs
  | cons e es ih =>
    obtain ⟨s', hs', ht⟩ := Option.bind_eq_some_iff.1 h
    exact ih (hs.step e (hquiet e List.mem_cons_self s) hs')
      (fun e' he' => hquiet e' (List.mem_cons_of_mem _ he')) ht

theorem Reach.of_execFrom {s t : σ} (hs : Reach step anyStep s₀ s) {es : List ε}
    (h : execFrom step s es = some t) : Reach step anyStep s₀ t :=
  hs.of_quiet (fun _ _ _ => trivial) h

end Transition
