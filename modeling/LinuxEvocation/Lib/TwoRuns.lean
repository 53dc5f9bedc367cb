import Mathlib.Tactic

/-!
# Lists in two ascending runs

A sweep serves what lies above the present position in ascending order, and begins again at the
bottom.  What waits is then a list of two ascending runs, the first of which goes on from where the
sweep is.

* `Ascending key cur l` — the keys of `l` ascend, from `cur` on.
* `TwoRuns key cur l` — two runs, the first of which ascends from `cur` on.
* `insertBehind` — a new element goes before the first one where it fits into a run, or in front of
  the second run, or to the end.
* `TwoRuns.insertBehind`, `TwoRuns.of_cons` — an insertion, and a step of the sweep.
-/

namespace TwoRuns

variable {α κ : Type*} [LinearOrder κ] (key : α → κ)

/-- The keys of the list ascend, and they are above `cur`. -/
def Ascending (cur : κ) (l : List α) : Prop := (cur :: l.map key).Pairwise (· < ·)

/-- The list consists of two ascending runs; the first one is above `cur`. -/
def TwoRuns (cur : κ) (l : List α) : Prop :=
  ∃ a b, l = a ++ b ∧ Ascending key cur a ∧ (b.map key).Pairwise (· < ·)

def insertBehind (cur : κ) (x : α) : List α → List α
  | [] => [x]
  | y :: l =>
    if (cur < key x ∨ ¬ cur < key y) ∧ key x < key y then x :: y :: l
    else y :: insertBehind (key y) x l

variable {key} {cur : κ} {x y : α} {l : List α}

/-! ## Runs -/

@[simp]
theorem ascending_nil : Ascending key cur [] := List.pairwise_singleton _ _

theorem ascending_cons : Ascending key cur (y :: l) ↔ cur < key y ∧ Ascending key (key y) l := by
  rw [Ascending, Ascending, List.map_cons, ← List.isChain_iff_pairwise, ← List.isChain_iff_pairwise,
    List.isChain_cons_cons]

@[simp]
theorem twoRuns_nil : TwoRuns key cur [] := ⟨[], [], rfl, ascending_nil, List.Pairwise.nil⟩

theorem twoRuns_cons :
    TwoRuns key cur (y :: l) ↔
      cur < key y ∧ TwoRuns key (key y) l ∨ Ascending key (key y) l := by
  constructor
  · rintro ⟨a, b, hl, ha, hb⟩
    cases a with
    | nil =>
      cases b with
      | nil => exact absurd hl (List.cons_ne_nil _ _)
      | cons z b =>
        obtain ⟨rfl, rfl⟩ := List.cons.inj hl
        exact .inr hb
    | cons z a =>
      obtain ⟨rfl, rfl⟩ := List.cons.inj hl
      rw [ascending_cons] at ha
      exact .inl ⟨ha.1, a, b, rfl, ha.2, hb⟩
  · rintro (⟨hlt, a, b, rfl, ha, hb⟩ | h)
    · exact ⟨y :: a, b, rfl, ascending_cons.mpr ⟨hlt, ha⟩, hb⟩
    · exact ⟨[], y :: l, rfl, ascending_nil, h⟩

theorem Ascending.twoRuns (h : Ascending key cur l) : TwoRuns key cur l :=
  ⟨l, [], (List.append_nil l).symm, h, List.Pairwise.nil⟩

/-- The sweep comes to the next element. -/
theorem TwoRuns.of_cons (h : TwoRuns key cur (y :: l)) : TwoRuns key (key y) l := by
  rcases twoRuns_cons.mp h with ⟨-, h⟩ | h
  · exact h
  · exact h.twoRuns

/-! ## Insertion -/

theorem insertBehind_perm : (insertBehind key cur x l).Perm (x :: l) := by
  induction l generalizing cur with
  | nil => exact List.Perm.refl _
  | cons y l ih =>
    rw [insertBehind]
    split
    · exact List.Perm.refl _
    · exact (ih.cons y).trans (List.Perm.swap x y l)

/-- Above the present position the element finds its place in the run. -/
theorem Ascending.insertBehind (h : Ascending key cur l) (hcur : cur < key x)
    (hx : key x ∉ l.map key) : Ascending key cur (insertBehind key cur x l) := by
  induction l generalizing cur with
  | nil => exact ascending_cons.mpr ⟨hcur, ascending_nil⟩
  | cons y l ih =>
    rw [ascending_cons] at h
    rw [List.map_cons, List.mem_cons, not_or] at hx
    rw [TwoRuns.insertBehind]
    by_cases hlt : key x < key y
    · rw [if_pos ⟨.inl hcur, hlt⟩, ascending_cons, ascending_cons]
      exact ⟨hcur, hlt, h.2⟩
    · rw [if_neg fun hc => hlt hc.2, ascending_cons]
      have hgt : key y < key x := lt_of_le_of_ne (not_lt.mp hlt) (Ne.symm hx.1)
      exact ⟨h.1, ih h.2 hgt hx.2⟩

theorem TwoRuns.insertBehind (h : TwoRuns key cur l) (hcur : key x ≠ cur)
    (hx : key x ∉ l.map key) : TwoRuns key cur (insertBehind key cur x l) := by
  induction l generalizing cur with
  | nil => exact twoRuns_cons.mpr (.inr ascending_nil)
  | cons y l ih =>
    rw [List.map_cons, List.mem_cons, not_or] at hx
    rw [TwoRuns.insertBehind]
    by_cases hy : cur < key y
    · -- `y` goes on from `cur`; the element fits between the two or has to go behind `y`
      have hl : TwoRuns key (key y) l := h.of_cons
      by_cases hc : (cur < key x ∨ ¬ cur < key y) ∧ key x < key y
      · rw [if_pos hc]
        have hlt : cur < key x := hc.1.resolve_right (not_not.mpr hy)
        exact twoRuns_cons.mpr (.inl ⟨hlt, twoRuns_cons.mpr (.inl ⟨hc.2, hl⟩)⟩)
      · rw [if_neg hc]
        exact twoRuns_cons.mpr (.inl ⟨hy, ih hl hx.1 hx.2⟩)
    · -- `y` begins the second run
      have hl : Ascending key (key y) l := by
        rcases twoRuns_cons.mp h with ⟨hlt, -⟩ | h
        · exact absurd hlt hy
        · exact h
      by_cases hlt : key x < key y
      · rw [if_pos ⟨.inr hy, hlt⟩]
        exact twoRuns_cons.mpr (.inr (ascending_cons.mpr ⟨hlt, hl⟩))
      · rw [if_neg fun hc => hlt hc.2]
        have hgt : key y < key x := lt_of_le_of_ne (not_lt.mp hlt) (Ne.symm hx.1)
        exact twoRuns_cons.mpr (.inr (hl.insertBehind hgt hx.2))

end TwoRuns
