import Mathlib.Tactic

/-!
# Lists kept in a stable order

A queue whose elements have a key is kept sorted by the key, elements of one key in the order in
which they came.

* `Sorts key d q` — `d` is `q`, put in that order.
* `place` — the insertion behind the last element whose key is not greater.
* `Sorts.place`, `Sorts.filter`, `Sorts.map` — an element comes in, some go, all keys move.
* `dropWhile_least` — what has the least key is in front.
-/

namespace StableOrder

variable {α β : Type*} [LinearOrder β] {key : α → β} {d q : List α}

/-- **`d` holds the elements of `q` sorted by `key`**, those of one key in the order of `q`. -/
structure Sorts (key : α → β) (d q : List α) : Prop where
  sorted : d.Pairwise fun x y => key x ≤ key y
  same : ∀ r, (d.filter fun x => key x = r) = q.filter fun x => key x = r

/-- Insertion behind the last element whose key is not greater. -/
def place (key : α → β) (x : α) : List α → List α
  | [] => [x]
  | y :: l => if key x < key y then x :: y :: l else y :: place key x l

theorem mem_place {x y : α} : y ∈ place key x d ↔ y = x ∨ y ∈ d := by
  induction d with
  | nil => simp [place]
  | cons z d ih =>
    rw [place]
    split_ifs
    · rw [List.mem_cons]
    · rw [List.mem_cons, ih, List.mem_cons]
      tauto

theorem place_sorted (x : α) (h : d.Pairwise fun x y => key x ≤ key y) :
    (place key x d).Pairwise fun x y => key x ≤ key y := by
  induction d with
  | nil => simp [place]
  | cons z d ih =>
    obtain ⟨hz, hd⟩ := List.pairwise_cons.1 h
    rw [place]
    split_ifs with hlt
    · refine List.pairwise_cons.2 ⟨fun y hy => ?_, h⟩
      rcases List.mem_cons.1 hy with rfl | hy
      · exact hlt.le
      · exact hlt.le.trans (hz y hy)
    · refine List.pairwise_cons.2 ⟨fun y hy => ?_, ih hd⟩
      rcases mem_place.1 hy with rfl | hy
      · exact not_lt.1 hlt
      · exact hz y hy

/-- The new element is the last of its key. -/
theorem filter_place (x : α) (h : d.Pairwise fun x y => key x ≤ key y) (r : β) :
    ((place key x d).filter fun y => key y = r) =
      (d.filter fun y => key y = r) ++ if key x = r then [x] else [] := by
  induction d with
  | nil =>
    simp only [place, List.filter_nil, List.nil_append]
    split_ifs with hr <;> simp [hr]
  | cons z d ih =>
    obtain ⟨hz, hd⟩ := List.pairwise_cons.1 h
    rw [place]
    split_ifs with hlt hr hr
    · -- what is behind has a greater key
      have hnone : ((z :: d).filter fun y => key y = r) = [] := by
        refine List.filter_eq_nil_iff.2 fun y hy => ?_
        have hy : key x < key y := by
          rcases List.mem_cons.1 hy with rfl | hy
          · exact hlt
          · exact hlt.trans_le (hz y hy)
        rw [← hr]
        simpa using hy.ne'
      rw [List.filter_cons_of_pos (by simpa using hr), hnone]
      rfl
    · rw [List.filter_cons_of_neg (by simpa using hr), List.append_nil]
    · rw [List.filter_cons, List.filter_cons, ih hd, if_pos hr]
      split_ifs <;> rfl
    · rw [List.filter_cons, List.filter_cons, ih hd, if_neg hr]
      split_ifs <;> rfl

namespace Sorts

theorem nil : Sorts key ([] : List α) [] := ⟨List.Pairwise.nil, fun _ => rfl⟩

/-- The two lists have the same elements. -/
theorem mem_iff (h : Sorts key d q) {x : α} : x ∈ d ↔ x ∈ q := by
  have hd : x ∈ d ↔ x ∈ d.filter fun y => key y = key x := by simp
  have hq : x ∈ q ↔ x ∈ q.filter fun y => key y = key x := by simp
  rw [hd, hq, h.same]

theorem perm (h : Sorts key d q) : d.Perm q := by
  classical
  refine List.perm_iff_count.2 fun x => ?_
  have hcount : ∀ l : List α, l.count x = (l.filter fun y => key y = key x).count x := by
    intro l
    rw [List.count_filter]
    simp
  rw [hcount d, hcount q, h.same]

/-- **An element comes in.** -/
theorem place (h : Sorts key d q) (x : α) : Sorts key (place key x d) (q ++ [x]) := by
  refine ⟨place_sorted x h.sorted, fun r => ?_⟩
  rw [filter_place x h.sorted, h.same, List.filter_append, List.filter_cons]
  split_ifs with h1 h2 h2
  · rfl
  · exact absurd (by simpa using h1) h2
  · exact absurd (by simpa using h2) h1
  · rfl

/-- **Some elements go.** -/
theorem filter (h : Sorts key d q) (p : α → Bool) : Sorts key (d.filter p) (q.filter p) := by
  refine ⟨h.sorted.sublist List.filter_sublist, fun r => ?_⟩
  rw [List.filter_comm, h.same, List.filter_comm]

/-- **All keys move**, and keep their order. -/
theorem map (h : Sorts key d q) (f : α → α)
    (hf : ∀ x ∈ d, ∀ y ∈ d, key (f x) ≤ key (f y) ↔ key x ≤ key y) :
    Sorts key (d.map f) (q.map f) := by
  refine ⟨?_, fun r => ?_⟩
  · refine List.pairwise_map.2 (h.sorted.imp_of_mem fun {x y} hx hy hxy => ?_)
    exact (hf x hx y hy).2 hxy
  · rw [List.filter_map, List.filter_map]
    by_cases hr : ∃ x ∈ d, key (f x) = r
    · -- the elements with the new key `r` are those that had the old key of one of them
      obtain ⟨x, hx, rfl⟩ := hr
      have hiff : ∀ y ∈ d, (key (f y) = key (f x) ↔ key y = key x) := fun y hy => by
        rw [le_antisymm_iff, le_antisymm_iff, hf y hy x hx, hf x hx y hy]
      have hcongr : ∀ l : List α, (∀ y ∈ l, y ∈ d) →
          (l.filter fun y => decide (key (f y) = key (f x))) =
            l.filter fun y => decide (key y = key x) := by
        intro l hl
        refine List.filter_congr fun y hy => ?_
        exact decide_eq_decide.2 (hiff y (hl y hy))
      have hd := hcongr d fun y hy => hy
      have hq := hcongr q fun y hy => h.mem_iff.2 hy
      show (d.filter fun y => decide (key (f y) = key (f x))).map f =
        (q.filter fun y => decide (key (f y) = key (f x))).map f
      rw [hd, hq, h.same]
    · have hnone : ∀ l : List α, (∀ y ∈ l, y ∈ d) →
          (l.filter fun y => decide (key (f y) = r)) = [] := by
        intro l hl
        refine List.filter_eq_nil_iff.2 fun y hy hkey => hr ⟨y, hl y hy, ?_⟩
        exact of_decide_eq_true hkey
      show (d.filter fun y => decide (key (f y) = r)).map f =
        (q.filter fun y => decide (key (f y) = r)).map f
      rw [hnone d fun y hy => hy, hnone q fun y hy => h.mem_iff.2 hy]

end Sorts

/-- **What has the least key is in front**: dropping it from the front drops all of it. -/
theorem dropWhile_least {r : β} (h : d.Pairwise fun x y => key x ≤ key y)
    (hr : ∀ x ∈ d, r ≤ key x) :
    (d.takeWhile fun x => key x = r) = (d.filter fun x => key x = r) ∧
      (d.dropWhile fun x => key x = r) = d.filter fun x => ¬ key x = r := by
  induction d with
  | nil => exact ⟨rfl, rfl⟩
  | cons x d ih =>
    obtain ⟨hx, hd⟩ := List.pairwise_cons.1 h
    obtain ⟨ih1, ih2⟩ := ih hd fun y hy => hr y (List.mem_cons_of_mem _ hy)
    by_cases heq : key x = r
    · rw [List.takeWhile_cons_of_pos (by simpa using heq),
        List.dropWhile_cons_of_pos (by simpa using heq),
        List.filter_cons_of_pos (by simpa using heq),
        List.filter_cons_of_neg (by simpa using heq), ih1]
      exact ⟨rfl, ih2⟩
    · -- the keys behind are not less than one that is greater than `r`
      have hgt : ∀ y ∈ x :: d, ¬ key y = r := by
        intro y hy
        have hlt : r < key x := lt_of_le_of_ne (hr x List.mem_cons_self) (Ne.symm heq)
        rcases List.mem_cons.1 hy with rfl | hy
        · exact heq
        · exact (hlt.trans_le (hx y hy)).ne'
      rw [List.takeWhile_cons_of_neg (by simpa using heq),
        List.dropWhile_cons_of_neg (by simpa using heq)]
      refine ⟨(List.filter_eq_nil_iff.2 fun y hy => by simpa using hgt y hy).symm, ?_⟩
      exact (List.filter_eq_self.2 fun y hy => by simpa using hgt y hy).symm

end StableOrder
