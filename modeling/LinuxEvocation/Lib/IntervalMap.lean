import Mathlib.Data.List.Pairwise
import Mathlib.Algebra.Order.Ring.Int

/-!
# Maps on the integers kept as a sorted list of tagged intervals

A finite list of closed intervals, each carrying a tag, stands for a partial
function from integers to tags.  A list in normal form (`Normal`) is sorted, its
intervals are non-empty and disjoint, and two intervals that touch carry
different tags, so equal functions have equal lists.

* `tagAt` — the function a list stands for; `tagAt_eq_some_iff` reads it off the
  members of a normal list.
* `below`, `above` — what is left of a list under a bound, over a bound.
* `erase s e` — clear the range `[s, e]`: `normal_erase`, `tagAt_erase`.
* `place t S E` — put one interval `[S, E]` tagged `t` in the place of whatever
  was there.  When `[S, E]` is the range `[s, e]` widened to swallow the
  `t`-intervals it touches (`Stretch`), the list stays normal (`normal_place`)
  and the function changes on `[s, e]` only (`tagAt_place`).
-/

namespace IntervalMap

variable {α : Type*}

/-- A closed interval with a tag. -/
structure Piece (α : Type*) where
  lo : ℤ
  hi : ℤ
  tag : α
  deriving DecidableEq

/-- The integers of a piece. -/
def Piece.Covers (p : Piece α) (b : ℤ) : Prop := p.lo ≤ b ∧ b ≤ p.hi

instance (p : Piece α) (b : ℤ) : Decidable (p.Covers b) := inferInstanceAs (Decidable (_ ∧ _))

/-- The function a list of pieces stands for: the tag of the first piece that
covers the point. -/
def tagAt (l : List (Piece α)) (b : ℤ) : Option α :=
  (l.find? fun p => decide (p.Covers b)).map Piece.tag

/-- `p` lies below `q`, and does not even touch it if the two carry one tag. -/
def Before (p q : Piece α) : Prop := p.hi < q.lo ∧ (p.tag = q.tag → p.hi + 1 < q.lo)

/-- Sorted, non-empty, disjoint, and no two touching pieces of one tag. -/
structure Normal (l : List (Piece α)) : Prop where
  proper : ∀ p ∈ l, p.lo ≤ p.hi
  ordered : l.Pairwise Before

variable {l : List (Piece α)} {q : Piece α} {b : ℤ}

/-- In a normal list at most one piece covers a point. -/
theorem Normal.unique (h : Normal l) {p : Piece α} (hp : p ∈ l)
    (hq : q ∈ l) (hpb : p.Covers b) (hqb : q.Covers b) : p = q := by
  obtain ⟨hproper, hordered⟩ := h
  induction l with
  | nil => cases hp
  | cons r l ih =>
    obtain ⟨hr, hl⟩ := List.pairwise_cons.1 hordered
    have hclash : ∀ x ∈ l, x.Covers b → r.Covers b → False := by
      intro x hx hxb hrb
      have h1 := (hr x hx).1
      have h2 := hrb.2
      have h3 := hxb.1
      omega
    rcases List.mem_cons.1 hp with rfl | hp' <;> rcases List.mem_cons.1 hq with rfl | hq'
    · rfl
    · exact (hclash q hq' hqb hpb).elim
    · exact (hclash p hp' hpb hqb).elim
    · exact ih hp' hq' (fun x hx => hproper x (List.mem_cons_of_mem _ hx)) hl

theorem tagAt_eq_none_iff :
    tagAt l b = none ↔ ∀ p ∈ l, ¬ p.Covers b := by
  simp [tagAt]

variable {t : α}

/-- In a normal list the tag at a point is the tag of any piece that covers it. -/
theorem tagAt_eq_some_iff (h : Normal l) :
    tagAt l b = some t ↔ ∃ p ∈ l, p.Covers b ∧ p.tag = t := by
  constructor
  · intro ht
    obtain ⟨p, hp, rfl⟩ := Option.map_eq_some_iff.1 ht
    exact ⟨p, List.mem_of_find?_eq_some hp, by simpa using List.find?_some hp, rfl⟩
  · rintro ⟨p, hp, hpb, rfl⟩
    cases hq : tagAt l b with
    | none => exact absurd hpb (tagAt_eq_none_iff.1 hq p hp)
    | some t =>
      obtain ⟨q, hq', rfl⟩ := Option.map_eq_some_iff.1 hq
      have hqb : q.Covers b := by simpa using List.find?_some hq'
      rw [h.unique (List.mem_of_find?_eq_some hq') hp hqb hpb]

/-- Two normal lists whose pieces carry the same tags at a point agree there. -/
theorem tagAt_congr {m : List (Piece α)} (hl : Normal l) (hm : Normal m)
    (h : ∀ t, (∃ p ∈ l, p.Covers b ∧ p.tag = t) ↔ ∃ p ∈ m, p.Covers b ∧ p.tag = t) :
    tagAt l b = tagAt m b := by
  apply Option.ext
  intro t
  rw [tagAt_eq_some_iff hl, tagAt_eq_some_iff hm, h t]

/-! ## Cutting at a bound -/

/-- What is left of the pieces strictly under `s`. -/
def below (s : ℤ) (l : List (Piece α)) : List (Piece α) :=
  l.filterMap fun p => if p.lo < s then some { p with hi := min p.hi (s - 1) } else none

/-- What is left of the pieces strictly over `e`. -/
def above (e : ℤ) (l : List (Piece α)) : List (Piece α) :=
  l.filterMap fun p => if e < p.hi then some { p with lo := max p.lo (e + 1) } else none

variable {s : ℤ}

theorem mem_below :
    q ∈ below s l ↔ ∃ p ∈ l, p.lo < s ∧ q = { p with hi := min p.hi (s - 1) } := by
  simp only [below, List.mem_filterMap]
  constructor
  · rintro ⟨p, hp, hq⟩
    by_cases hs : p.lo < s
    · rw [if_pos hs] at hq
      exact ⟨p, hp, hs, (Option.some.inj hq).symm⟩
    · simp [hs] at hq
  · rintro ⟨p, hp, hs, rfl⟩
    exact ⟨p, hp, by rw [if_pos hs]⟩

variable {e : ℤ}

theorem mem_above :
    q ∈ above e l ↔ ∃ p ∈ l, e < p.hi ∧ q = { p with lo := max p.lo (e + 1) } := by
  simp only [above, List.mem_filterMap]
  constructor
  · rintro ⟨p, hp, hq⟩
    by_cases hs : e < p.hi
    · rw [if_pos hs] at hq
      exact ⟨p, hp, hs, (Option.some.inj hq).symm⟩
    · simp [hs] at hq
  · rintro ⟨p, hp, hs, rfl⟩
    exact ⟨p, hp, by rw [if_pos hs]⟩

/-- A list that starts at the bound leaves nothing under it. -/
theorem below_of_le (h : ∀ p ∈ l, s ≤ p.lo) : below s l = [] := by
  rw [below, List.filterMap_eq_nil_iff]
  intro p hp
  rw [if_neg (not_lt.2 (h p hp))]

/-- A list that ends at the bound leaves nothing over it. -/
theorem above_of_le (h : ∀ p ∈ l, p.hi ≤ e) : above e l = [] := by
  rw [above, List.filterMap_eq_nil_iff]
  intro p hp
  rw [if_neg (not_lt.2 (h p hp))]

theorem below_append (s : ℤ) (l m : List (Piece α)) :
    below s (l ++ m) = below s l ++ below s m := List.filterMap_append

theorem above_append (e : ℤ) (l m : List (Piece α)) :
    above e (l ++ m) = above e l ++ above e m := List.filterMap_append

theorem Normal.below (h : Normal l) (s : ℤ) : Normal (below s l) := by
  constructor
  · intro q hq
    obtain ⟨p, hp, hs, rfl⟩ := mem_below.1 hq
    have := h.proper p hp
    show p.lo ≤ min p.hi (s - 1)
    omega
  · refine List.Pairwise.filterMap _ ?_ h.ordered
    intro p q hpq p' hp' q' hq'
    by_cases h1 : p.lo < s <;> by_cases h2 : q.lo < s <;> simp [h1, h2] at hp' hq'
    subst hp' hq'
    exact ⟨lt_of_le_of_lt (min_le_left _ _) hpq.1,
      fun ht => lt_of_le_of_lt (by simp) (hpq.2 ht)⟩

theorem Normal.above (h : Normal l) (e : ℤ) : Normal (above e l) := by
  constructor
  · intro q hq
    obtain ⟨p, hp, hs, rfl⟩ := mem_above.1 hq
    have := h.proper p hp
    show max p.lo (e + 1) ≤ p.hi
    omega
  · refine List.Pairwise.filterMap _ ?_ h.ordered
    intro p q hpq p' hp' q' hq'
    by_cases h1 : e < p.hi <;> by_cases h2 : e < q.hi <;> simp [h1, h2] at hp' hq'
    subst hp' hq'
    exact ⟨lt_of_lt_of_le hpq.1 (le_max_left _ _),
      fun ht => lt_of_lt_of_le (hpq.2 ht) (le_max_left _ _)⟩

theorem exists_below_covers :
    (∃ p ∈ below s l, p.Covers b ∧ p.tag = t) ↔ b < s ∧ ∃ p ∈ l, p.Covers b ∧ p.tag = t := by
  constructor
  · rintro ⟨q, hq, hb, rfl⟩
    obtain ⟨p, hp, hs, rfl⟩ := mem_below.1 hq
    obtain ⟨h1, h2⟩ := hb
    simp only at h1 h2
    exact ⟨by omega, p, hp, ⟨h1, by omega⟩, rfl⟩
  · rintro ⟨hbs, p, hp, ⟨h1, h2⟩, rfl⟩
    exact ⟨_, mem_below.2 ⟨p, hp, by omega, rfl⟩, ⟨h1, by simp only; omega⟩, rfl⟩

theorem exists_above_covers :
    (∃ p ∈ above e l, p.Covers b ∧ p.tag = t) ↔ e < b ∧ ∃ p ∈ l, p.Covers b ∧ p.tag = t := by
  constructor
  · rintro ⟨q, hq, hb, rfl⟩
    obtain ⟨p, hp, hs, rfl⟩ := mem_above.1 hq
    obtain ⟨h1, h2⟩ := hb
    simp only at h1 h2
    exact ⟨by omega, p, hp, ⟨by omega, h2⟩, rfl⟩
  · rintro ⟨hbs, p, hp, ⟨h1, h2⟩, rfl⟩
    exact ⟨_, mem_above.2 ⟨p, hp, by omega, rfl⟩, ⟨by simp only; omega, h2⟩, rfl⟩

/-- What is left under `s` lies before what is left over `e`. -/
theorem before_of_below_above (hse : s ≤ e) {p : Piece α}
    (hp : p ∈ below s l) (hq : q ∈ above e l) : Before p q := by
  obtain ⟨p, -, -, rfl⟩ := mem_below.1 hp
  obtain ⟨q, -, -, rfl⟩ := mem_above.1 hq
  constructor
  · show min p.hi (s - 1) < max q.lo (e + 1)
    omega
  · intro _
    show min p.hi (s - 1) + 1 < max q.lo (e + 1)
    omega

/-! ## Clearing a range -/

/-- Clear the range `[s, e]`. -/
def erase (s e : ℤ) (l : List (Piece α)) : List (Piece α) := below s l ++ above e l

theorem normal_erase (hse : s ≤ e) (h : Normal l) :
    Normal (erase s e l) := by
  constructor
  · intro p hp
    rcases List.mem_append.1 hp with hp | hp
    · exact (h.below s).proper p hp
    · exact (h.above e).proper p hp
  · exact List.pairwise_append.2 ⟨(h.below s).ordered, (h.above e).ordered,
      fun p hp q hq => before_of_below_above hse hp hq⟩

/-- **Clearing a range** changes the function on that range only. -/
theorem tagAt_erase (hse : s ≤ e) (h : Normal l) (b : ℤ) :
    tagAt (erase s e l) b = if s ≤ b ∧ b ≤ e then none else tagAt l b := by
  have hmem : ∀ t, (∃ p ∈ erase s e l, p.Covers b ∧ p.tag = t) ↔
      (b < s ∨ e < b) ∧ ∃ p ∈ l, p.Covers b ∧ p.tag = t := by
    intro t
    simp only [erase, List.mem_append, or_and_right, exists_or, exists_below_covers,
      exists_above_covers]
  by_cases hb : s ≤ b ∧ b ≤ e
  · rw [if_pos hb, Option.eq_none_iff_forall_ne_some]
    intro t ht
    rw [tagAt_eq_some_iff (normal_erase hse h), hmem] at ht
    omega
  · rw [if_neg hb]
    refine tagAt_congr (normal_erase hse h) h fun t => ?_
    rw [hmem]
    exact ⟨fun h => h.2, fun h => ⟨by omega, h⟩⟩

/-! ## Filling a range -/

/-- `[S, E]` is `[s, e]` widened over the pieces tagged `t` that it touches: the
added points all carry `t` already, and no piece tagged `t` touches it from
outside. -/
structure Stretch (t : α) (s e S E : ℤ) (l : List (Piece α)) : Prop where
  lo_le : S ≤ s
  le_hi : e ≤ E
  lo_tag : ∀ b, S ≤ b → b < s → ∃ p ∈ l, p.Covers b ∧ p.tag = t
  hi_tag : ∀ b, e < b → b ≤ E → ∃ p ∈ l, p.Covers b ∧ p.tag = t
  lo_far : ∀ p ∈ l, p.tag = t → p.lo < S → p.hi + 1 < S
  hi_far : ∀ p ∈ l, p.tag = t → E < p.hi → E + 1 < p.lo

/-- Put one piece in the place of whatever was there. -/
def place (t : α) (S E : ℤ) (l : List (Piece α)) : List (Piece α) :=
  below S l ++ ⟨S, E, t⟩ :: above E l

theorem normal_place {S E : ℤ} (hse : s ≤ e) (h : Normal l)
    (hst : Stretch t s e S E l) : Normal (place t S E l) := by
  have hSE : S ≤ E := le_trans hst.lo_le (le_trans hse hst.le_hi)
  constructor
  · intro p hp
    rcases List.mem_append.1 hp with hp | hp
    · exact (h.below S).proper p hp
    · rcases List.mem_cons.1 hp with rfl | hp
      · exact hSE
      · exact (h.above E).proper p hp
  · refine List.pairwise_append.2 ⟨(h.below S).ordered, List.pairwise_cons.2 ⟨?_,
      (h.above E).ordered⟩, ?_⟩
    · intro q hq
      obtain ⟨q, hql, hEq, rfl⟩ := mem_above.1 hq
      refine ⟨by show E < max q.lo (E + 1); omega, fun ht => ?_⟩
      have := hst.hi_far q hql ht.symm hEq
      show E + 1 < max q.lo (E + 1)
      omega
    · intro p hp q hq
      rcases List.mem_cons.1 hq with rfl | hq
      · obtain ⟨p, hpl, hpS, rfl⟩ := mem_below.1 hp
        refine ⟨by show min p.hi (S - 1) < S; omega, fun ht => ?_⟩
        have := hst.lo_far p hpl ht hpS
        show min p.hi (S - 1) + 1 < S
        omega
      · exact before_of_below_above hSE hp hq

/-- **Filling a range** changes the function on that range only, although the
piece put in may be wider than it. -/
theorem tagAt_place {S E : ℤ} (hse : s ≤ e) (h : Normal l) (hst : Stretch t s e S E l) (b : ℤ) :
    tagAt (place t S E l) b = if s ≤ b ∧ b ≤ e then some t else tagAt l b := by
  have hn := normal_place hse h hst
  have hlo := hst.lo_le
  have hhi := hst.le_hi
  have hcover : S ≤ b → b ≤ E → tagAt (place t S E l) b = some t := fun h1 h2 =>
    (tagAt_eq_some_iff hn).2 ⟨⟨S, E, t⟩, by simp [place], ⟨h1, h2⟩, rfl⟩
  by_cases hb : s ≤ b ∧ b ≤ e
  · rw [if_pos hb]
    exact hcover (by omega) (by omega)
  · rw [if_neg hb]
    by_cases hSb : S ≤ b ∧ b ≤ E
    · -- a point the piece was widened over carried `t` before
      rw [hcover hSb.1 hSb.2]
      refine ((tagAt_eq_some_iff h).2 ?_).symm
      by_cases hbs : b < s
      · exact hst.lo_tag b hSb.1 hbs
      · exact hst.hi_tag b (by omega) hSb.2
    · refine tagAt_congr hn h fun u => ?_
      constructor
      · rintro ⟨p, hp, hpb, rfl⟩
        rcases List.mem_append.1 hp with hp | hp
        · exact (exists_below_covers.1 ⟨p, hp, hpb, rfl⟩).2
        · rcases List.mem_cons.1 hp with rfl | hp
          · exact absurd hpb hSb
          · exact (exists_above_covers.1 ⟨p, hp, hpb, rfl⟩).2
      · intro hp
        by_cases hbS : b < S
        · obtain ⟨p, hp, hpb⟩ := exists_below_covers.2 ⟨hbS, hp⟩
          exact ⟨p, List.mem_append_left _ hp, hpb⟩
        · obtain ⟨p, hp, hpb⟩ := exists_above_covers.2 ⟨(show E < b by omega), hp⟩
          exact ⟨p, List.mem_append_right _ (List.mem_cons_of_mem _ hp), hpb⟩

end IntervalMap
