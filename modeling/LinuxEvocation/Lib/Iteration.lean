import Mathlib.Tactic

/-!
# Loops that end

A loop is a step function `σ → σ ⊕ ρ`: a turn either leads to another turn or ends the loop with
a result.  `Halts` says that the loop ends from a state on; it is the accessibility of the
state, so that a termination proof is an induction on whatever gets smaller, and two different
measures can be used for two parts of one loop.

* `iterate step fuel s` — at most `fuel` turns.
* `Halts step s` — the loop ends from `s` on.
* `halts_iff` — it does so exactly when some number of turns is enough.
* `halts_of_measure` — it does so when every turn makes a measure smaller.
* `not_halts_of_invariant` — a set of states that every turn stays in is never left.
* `iterate_result` — what every turn keeps, and every last turn turns into `Q`, gives `Q`.
-/

namespace Iteration

variable {σ ρ : Type*}

/-- At most `fuel` turns of the loop. -/
def iterate (step : σ → σ ⊕ ρ) : Nat → σ → Option ρ
  | 0, _ => none
  | fuel + 1, s =>
    match step s with
    | .inl s' => iterate step fuel s'
    | .inr r => some r

/-- The loop ends from `s` on. -/
inductive Halts (step : σ → σ ⊕ ρ) : σ → Prop
  | done {s : σ} {r : ρ} : step s = .inr r → Halts step s
  | next {s s' : σ} : step s = .inl s' → Halts step s' → Halts step s

variable {step : σ → σ ⊕ ρ}

theorem iterate_of_next {s s' : σ} (h : step s = .inl s') (fuel : Nat) :
    iterate step (fuel + 1) s = iterate step fuel s' := by
  rw [iterate, h]

theorem iterate_of_done {s : σ} {r : ρ} (h : step s = .inr r) (fuel : Nat) :
    iterate step (fuel + 1) s = some r := by
  rw [iterate, h]

/-- **The loop ends** exactly when some number of turns is enough. -/
theorem halts_iff {s : σ} : Halts step s ↔ ∃ fuel r, iterate step fuel s = some r := by
  constructor
  · intro h
    induction h with
    | done h => exact ⟨1, _, iterate_of_done h 0⟩
    | next h _ ih =>
      obtain ⟨fuel, r, hr⟩ := ih
      exact ⟨fuel + 1, r, by rw [iterate_of_next h, hr]⟩
  · rintro ⟨fuel, r, h⟩
    induction fuel generalizing s with
    | zero => cases h
    | succ fuel ih =>
      cases hs : step s with
      | inl s' =>
        rw [iterate_of_next hs] at h
        exact .next hs (ih h)
      | inr r' => exact .done hs

theorem halts_next_iff {s s' : σ} (h : step s = .inl s') : Halts step s ↔ Halts step s' := by
  refine ⟨fun hs => ?_, .next h⟩
  cases hs with
  | done hr =>
    rw [h] at hr
    cases hr
  | next hs' hrest =>
    rw [h] at hs'
    cases hs'
    exact hrest

/-- What a loop returns does not depend on how long it may take. -/
theorem iterate_unique {m n : Nat} {s : σ} {r r' : ρ} (h : iterate step m s = some r)
    (h' : iterate step n s = some r') : r = r' := by
  induction m generalizing n s with
  | zero => cases h
  | succ m ih =>
    cases n with
    | zero => cases h'
    | succ n =>
      cases hs : step s with
      | inl s₁ =>
        rw [iterate_of_next hs] at h h'
        exact ih h h'
      | inr r₁ =>
        rw [iterate_of_done hs] at h h'
        exact Option.some.inj (h.symm.trans h')

/-- **A loop that ends**: every turn makes the measure smaller. -/
theorem halts_of_measure {I : σ → Prop} (μ : σ → Nat)
    (hstep : ∀ s s', I s → step s = .inl s' → I s' ∧ μ s' < μ s) {s : σ} (hs : I s) :
    Halts step s := by
  induction hn : μ s using Nat.strong_induction_on generalizing s with
  | h n ih =>
    cases hnext : step s with
    | inr r => exact .done hnext
    | inl s' =>
      obtain ⟨hI, hlt⟩ := hstep s s' hs hnext
      exact .next hnext (ih (μ s') (hn ▸ hlt) hI rfl)

/-- **A loop that does not end**: every turn stays in the set. -/
theorem not_halts_of_invariant {I : σ → Prop}
    (hstep : ∀ s, I s → ∃ s', step s = .inl s' ∧ I s') {s : σ} (hs : I s) : ¬ Halts step s := by
  intro h
  induction h with
  | done h =>
    obtain ⟨s', hs', -⟩ := hstep _ hs
    rw [h] at hs'
    cases hs'
  | next h _ ih =>
    obtain ⟨s', hs', hI⟩ := hstep _ hs
    rw [h] at hs'
    cases hs'
    exact ih hI

/-- **What a loop returns**: `I` is kept by every turn, and the last turn makes `Q` of it. -/
theorem iterate_result {I : σ → Prop} {Q : ρ → Prop}
    (hnext : ∀ s s', I s → step s = .inl s' → I s') (hdone : ∀ s r, I s → step s = .inr r → Q r)
    {fuel : Nat} {s : σ} {r : ρ} (hs : I s) (h : iterate step fuel s = some r) : Q r := by
  induction fuel generalizing s with
  | zero => cases h
  | succ fuel ih =>
    cases hstep : step s with
    | inl s' =>
      rw [iterate_of_next hstep] at h
      exact ih (hnext s s' hs hstep) h
    | inr r' =>
      rw [iterate_of_done hstep] at h
      cases h
      exact hdone s r hs hstep

end Iteration
