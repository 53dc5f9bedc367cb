import LinuxEvocation.Lib.Iteration

/-!
# Walks along links

Each place has at most one link to another one.  A walk from a place on follows the links; if only
finitely many places have one, it comes to an end exactly if it does not come to a place again.

* `follow next n a` — the place that `n` links lead to.
* `Behind next a b` — `b` is on the walk from `a` on.
* `ends_iff_acyclic` — when a walk comes to an end.
* `halts_iff_ends`, `passes_iff_behind` — a loop that makes the walk.
-/

namespace Links

variable {α : Type*} (next : α → Option α)

def follow : Nat → α → Option α
  | 0, a => some a
  | n + 1, a => (next a).bind (follow n)

/-- The second place is on the walk from the first. -/
def Behind (a b : α) : Prop := ∃ n, follow next n a = some b

def Ends (a : α) : Prop := ∃ n, follow next n a = none

/-- No place on the walk is behind itself. -/
def Acyclic (a : α) : Prop := ∀ b, Behind next a b → ∀ n, follow next (n + 1) b ≠ some b

variable {next} {a b c : α} {m n : Nat}

theorem follow_add (m n : Nat) (a : α) :
    follow next (m + n) a = (follow next m a).bind (follow next n) := by
  induction m generalizing a with
  | zero =>
    rw [Nat.zero_add]
    rfl
  | succ m ih =>
    rw [Nat.succ_add, follow, follow]
    cases next a with
    | none => rfl
    | some b => exact ih b

theorem follow_succ (n : Nat) (a : α) : follow next (n + 1) a = (follow next n a).bind next := by
  rw [follow_add]
  congr 1
  funext b
  rw [follow]
  cases next b <;> rfl

theorem follow_none_mono (h : follow next m a = none) (hle : m ≤ n) : follow next n a = none := by
  obtain ⟨k, rfl⟩ := Nat.exists_eq_add_of_le hle
  rw [follow_add, h]
  rfl

theorem Behind.refl (a : α) : Behind next a a := ⟨0, rfl⟩

theorem Behind.trans (h : Behind next a b) (h' : Behind next b c) : Behind next a c := by
  obtain ⟨m, hm⟩ := h
  obtain ⟨n, hn⟩ := h'
  exact ⟨m + n, by rw [follow_add, hm, Option.bind_some, hn]⟩

theorem follow_cycle (h : follow next n b = some b) (k : Nat) : follow next (n * k) b = some b := by
  induction k with
  | zero => rfl
  | succ k ih => rw [Nat.mul_succ, follow_add, ih, Option.bind_some, h]

theorem Ends.acyclic (h : Ends next a) : Acyclic next a := by
  rintro b ⟨m, hm⟩ n hcycle
  obtain ⟨k, hk⟩ := h
  have hround : follow next (m + (n + 1) * k) a = some b := by
    rw [follow_add, hm, Option.bind_some, follow_cycle hcycle]
  have hle : k ≤ m + (n + 1) * k := (Nat.le_mul_of_pos_left k n.succ_pos).trans (Nat.le_add_left _ _)
  rw [follow_none_mono hk hle] at hround
  cases hround

theorem Acyclic.ends (hfin : {a | next a ≠ none}.Finite) (h : Acyclic next a) : Ends next a := by
  by_contra hnot
  have hsome : ∀ n, ∃ b, follow next n a = some b := by
    intro n
    rw [← Option.ne_none_iff_exists']
    exact fun hn => hnot ⟨n, hn⟩
  choose place hplace using hsome
  have hlink : ∀ n, place n ∈ {a | next a ≠ none} := by
    intro n
    have hnext : follow next (n + 1) a = (follow next n a).bind next := follow_succ n a
    rw [hplace n, hplace (n + 1), Option.bind_some] at hnext
    exact fun hnone => Option.some_ne_none _ (hnext.trans hnone)
  have := hfin.to_subtype
  -- two places of the walk are the same
  obtain ⟨m, n, hne, heq⟩ := Finite.exists_ne_map_eq_of_infinite
    fun n => (⟨place n, hlink n⟩ : {a | next a ≠ none})
  have hplaces : place m = place n := congrArg Subtype.val heq
  have hcycle (m n : Nat) (hlt : m < n) (heq : place m = place n) : False := by
    obtain ⟨k, rfl⟩ := Nat.exists_eq_add_of_lt hlt
    have hround := hplace (m + k + 1)
    rw [Nat.add_assoc, follow_add, hplace m, Option.bind_some, ← Nat.add_assoc, ← heq] at hround
    exact h (place m) ⟨m, hplace m⟩ k hround
  rcases Nat.lt_or_gt_of_ne hne with hlt | hlt
  · exact hcycle m n hlt hplaces
  · exact hcycle n m hlt hplaces.symm

/-- **When a walk comes to an end.** -/
theorem ends_iff_acyclic (hfin : {a | next a ≠ none}.Finite) : Ends next a ↔ Acyclic next a :=
  ⟨Ends.acyclic, Acyclic.ends hfin⟩

/-! ## Loops -/

section Loops

open Iteration

variable {σ ρ : Type*} {step : σ → σ ⊕ ρ} {view : σ → α} {I : σ → Prop} {s : σ}

/-- **A loop that makes the walk** ends exactly if the walk does. -/
theorem halts_iff_ends
    (hnext : ∀ s b, I s → next (view s) = some b → ∃ s', step s = .inl s' ∧ view s' = b ∧ I s')
    (hdone : ∀ s, I s → next (view s) = none → Halts step s) (hs : I s) :
    Halts step s ↔ Ends next (view s) := by
  constructor
  · intro h
    induction h with
    | @done s r hr =>
      refine ⟨1, ?_⟩
      cases hlink : next (view s) with
      | none => rw [follow, hlink, Option.bind_none]
      | some b =>
        obtain ⟨s', hs', -⟩ := hnext s b hs hlink
        rw [hr] at hs'
        cases hs'
    | @next s s' hs' _ ih =>
      cases hlink : next (view s) with
      | none => exact ⟨1, by rw [follow, hlink, Option.bind_none]⟩
      | some b =>
        obtain ⟨s'', hs'', hview, hI⟩ := hnext s b hs hlink
        rw [hs'] at hs''
        cases hs''
        obtain ⟨n, hn⟩ := ih hI
        exact ⟨n + 1, by rw [follow, hlink, Option.bind_some, ← hview, hn]⟩
  · rintro ⟨n, hn⟩
    induction n generalizing s with
    | zero => cases hn
    | succ n ih =>
      cases hlink : next (view s) with
      | none => exact hdone s hs hlink
      | some b =>
        obtain ⟨s', hs', hview, hI⟩ := hnext s b hs hlink
        rw [follow, hlink, Option.bind_some, ← hview] at hn
        exact .next hs' (ih hI hn)

/-- The loop comes from one state to the other. -/
def Passes (step : σ → σ ⊕ ρ) : σ → σ → Prop :=
  Relation.ReflTransGen fun s s' => step s = .inl s'

/-- **The places that it comes to** are those behind the first. -/
theorem passes_iff_behind (hnext : ∀ s b, next (view s) = some b → ∃ s', step s = .inl s' ∧ view s' = b)
    (hdone : ∀ s, next (view s) = none → ∃ r, step s = .inr r) :
    (∃ s', Passes step s s' ∧ view s' = b) ↔ Behind next (view s) b := by
  constructor
  · rintro ⟨s', hpass, rfl⟩
    induction hpass with
    | refl => exact .refl _
    | @tail s₁ s₂ _ hturn ih =>
      refine ih.trans ⟨1, ?_⟩
      cases hlink : next (view s₁) with
      | none =>
        obtain ⟨r, hr⟩ := hdone s₁ hlink
        rw [hr] at hturn
        cases hturn
      | some b =>
        obtain ⟨s₃, hs₃, hview⟩ := hnext s₁ b hlink
        rw [hturn] at hs₃
        cases hs₃
        rw [follow, hlink, Option.bind_some, ← hview]
        rfl
  · rintro ⟨n, hn⟩
    induction n generalizing b with
    | zero =>
      cases hn
      exact ⟨s, .refl, rfl⟩
    | succ n ih =>
      rw [follow_succ] at hn
      obtain ⟨a, ha, hab⟩ := Option.bind_eq_some_iff.mp hn
      obtain ⟨s', hpass, rfl⟩ := ih ha
      obtain ⟨s'', hs'', hview⟩ := hnext s' b hab
      exact ⟨s'', hpass.tail hs'', hview⟩

end Loops

end Links
