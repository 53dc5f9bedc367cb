import Mathlib.Tactic

/-!
# Trees of tables

A table has `n` entries.  An entry is 0, or the number of a table of the level below; at the level 0
it is what is looked up.  The tables are in one heap, so that a tree is well formed only if no number
is in it twice.  Nothing is found in a table that is bad.

* `look` — what is found at an index, from an entry of a level.
* `nodes` — the numbers in the tree below an entry.
* `Cut` — the tree below an entry is cut: what is at an index from `c` on is gone, what is before is
  still found, and the numbers that have left the tree are given.
* `RowCut` — the same for the trees below the entries of a row, each of which may have its own level.
* `RowCut.step` — one more entry of a row is cut.
* `RowCut.table`, `RowCut.empty` — a row that is a table.
-/

namespace TableTree

open Function (update update_of_ne update_self)
open Finset

/-- What is found at the index `m` below the entry `x` of level `k`. -/
def look (n : Nat) (bad : Nat → Bool) (t : Nat → Nat → Nat) : Nat → Nat → Nat → Nat
  | 0, x, _ => x
  | k + 1, x, m =>
    if x = 0 ∨ bad x = true then 0 else look n bad t k (t x (m / n ^ k)) (m % n ^ k)

/-- The numbers in the tree below the entry `x` of level `k`. -/
def nodes (n : Nat) (t : Nat → Nat → Nat) : Nat → Nat → Multiset Nat
  | 0, x => if x = 0 then 0 else {x}
  | k + 1, x => if x = 0 then 0 else x ::ₘ ∑ i ∈ range n, nodes n t k (t x i)

section Basic

variable {n k m x y : Nat} {bad : Nat → Bool} {t t' : Nat → Nat → Nat}

@[simp]
theorem look_zero : look n bad t k 0 m = 0 := by
  cases k with
  | zero => rfl
  | succ k => rw [look, if_pos (.inl rfl)]

@[simp]
theorem nodes_zero : nodes n t k 0 = 0 := by
  cases k with
  | zero | succ k => rw [nodes, if_pos rfl]

/-- Only the tables in the tree count. -/
theorem nodes_congr (h : ∀ y ∈ nodes n t k x, t' y = t y) :
    nodes n t' k x = nodes n t k x := by
  induction k generalizing x with
  | zero => rfl
  | succ k ih =>
    by_cases hx : x = 0
    · rw [nodes, nodes, if_pos hx, if_pos hx]
    · rw [nodes, if_neg hx] at h
      rw [nodes, nodes, if_neg hx, if_neg hx, h x (Multiset.mem_cons_self x _)]
      refine congrArg _ (sum_congr rfl fun i hi => ih fun y hy => h y ?_)
      exact Multiset.mem_cons_of_mem (Multiset.mem_sum.2 ⟨i, hi, hy⟩)

/-- The entry of a table that an index leads to. -/
theorem index_bounds (hm : m < n ^ (k + 1)) : 0 < n ^ k ∧ m / n ^ k < n := by
  rw [Nat.pow_succ] at hm
  have hpos : 0 < n ^ k := by
    rcases Nat.eq_zero_or_pos (n ^ k) with hzero | hpos
    · rw [hzero, Nat.zero_mul] at hm
      omega
    · exact hpos
  refine ⟨hpos, ?_⟩
  rw [Nat.div_lt_iff_lt_mul hpos, Nat.mul_comm]
  exact hm

theorem look_congr (hm : m < n ^ k) (h : ∀ y ∈ nodes n t k x, t' y = t y) :
    look n bad t' k x m = look n bad t k x m := by
  induction k generalizing x m with
  | zero => rfl
  | succ k ih =>
    by_cases hx : x = 0 ∨ bad x = true
    · rw [look, look, if_pos hx, if_pos hx]
    · rw [nodes, if_neg fun h0 => hx (.inl h0)] at h
      rw [look, look, if_neg hx, if_neg hx, h x (Multiset.mem_cons_self x _)]
      obtain ⟨hpos, hi⟩ := index_bounds hm
      refine ih (Nat.mod_lt _ hpos) fun y hy => h y (Multiset.mem_cons_of_mem ?_)
      exact Multiset.mem_sum.2 ⟨_, mem_range.2 hi, hy⟩

end Basic

/-! ## Cutting one tree -/

/-- **A tree is cut**: `l` are the numbers that have left it. -/
structure Cut (n : Nat) (bad : Nat → Bool) (k : Nat) (c : Int) (t : Nat → Nat → Nat) (x : Nat)
    (t' : Nat → Nat → Nat) (x' : Nat) (l : Multiset Nat) : Prop where
  frame : ∀ y, y ∉ nodes n t k x → t' y = t y
  look : ∀ m < n ^ k, look n bad t' k x' m = if (m : Int) < c then look n bad t k x m else 0
  nodes : l + nodes n t' k x' = nodes n t k x

section Cut

variable {n k x : Nat} {bad : Nat → Bool} {c : Int} {t : Nat → Nat → Nat}

theorem Cut.nil : Cut n bad k c t 0 t 0 0 := by
  refine ⟨fun _ _ => rfl, fun m _ => ?_, by rw [zero_add]⟩
  simp

theorem Cut.leaf (hx : x ≠ 0) (hc : c ≤ 0) : Cut n bad 0 c t x t 0 {x} := by
  refine ⟨fun _ _ => rfl, fun m _ => ?_, ?_⟩
  · rw [look_zero, if_neg (by omega)]
  · rw [nodes_zero, add_zero, TableTree.nodes, if_neg hx]

/-- A bad table leaves with all that is below it. -/
theorem Cut.lost (hbad : bad x = true) :
    Cut n bad (k + 1) c t x t 0 (TableTree.nodes n t (k + 1) x) := by
  have hnone : x = 0 ∨ bad x = true := .inr hbad
  refine ⟨fun _ _ => rfl, fun m _ => ?_, by rw [nodes_zero, add_zero]⟩
  rw [look_zero, TableTree.look, if_pos hnone, ite_self]

/-- What is left of a tree was in it. -/
theorem Cut.le {t' : Nat → Nat → Nat} {x' : Nat} {l : Multiset Nat} (h : Cut n bad k c t x t' x' l) :
    TableTree.nodes n t' k x' ≤ TableTree.nodes n t k x := by
  rw [← h.nodes]
  exact Multiset.le_add_left _ _

end Cut

/-! ## Cutting a row of trees -/

/-- The numbers in the trees below the entries of a row. -/
def rowNodes (n : Nat) (t : Nat → Nat → Nat) (size : Nat) (lev r : Nat → Nat) : Multiset Nat :=
  ∑ i ∈ range size, nodes n t (lev i) (r i)

/-- **A row of trees is cut**, each one at its own index.  The tables that are `apart` are not in the
trees, and may change. -/
structure RowCut (n : Nat) (bad : Nat → Bool) (size : Nat) (apart : Nat → Prop) (lev : Nat → Nat)
    (c : Nat → Int)
    (t : Nat → Nat → Nat) (r : Nat → Nat) (t' : Nat → Nat → Nat) (r' : Nat → Nat)
    (l : Multiset Nat) : Prop where
  frame : ∀ y, ¬ apart y → y ∉ rowNodes n t size lev r → t' y = t y
  look : ∀ i < size, ∀ m < n ^ lev i,
    look n bad t' (lev i) (r' i) m = if (m : Int) < c i then look n bad t (lev i) (r i) m else 0
  nodes : l + rowNodes n t' size lev r' = rowNodes n t size lev r

section RowCut

variable {n size i : Nat} {bad : Nat → Bool} {apart : Nat → Prop} {lev : Nat → Nat} {c : Nat → Int}
  {t t' t₁ t₂ : Nat → Nat → Nat} {r r' : Nat → Nat} {l l₁ : Multiset Nat}

theorem RowCut.refl (hc : ∀ i < size, (n ^ lev i : Nat) ≤ c i) :
    RowCut n bad size apart lev c t r t r 0 := by
  refine ⟨fun _ _ _ => rfl, fun i hi m hm => ?_, by rw [zero_add]⟩
  have := hc i hi
  rw [if_pos (by omega)]

/-- Only where an index falls counts. -/
theorem RowCut.congr (h : RowCut n bad size apart lev c t r t' r' l) {c' : Nat → Int}
    (hc : ∀ i < size, ∀ m < n ^ lev i, (m : Int) < c i ↔ (m : Int) < c' i) :
    RowCut n bad size apart lev c' t r t' r' l := by
  refine ⟨h.frame, fun i hi m hm => ?_, h.nodes⟩
  rw [h.look i hi m hm]
  simp only [hc i hi m hm]

/-- Two trees of a row have no number in common. -/
theorem rowNodes_disjoint (hnodup : (rowNodes n t size lev r).Nodup) {i j y : Nat} (hi : i < size)
    (hj : j < size) (hij : i ≠ j) (hy : y ∈ nodes n t (lev i) (r i)) :
    y ∉ nodes n t (lev j) (r j) := by
  intro hy'
  have hcount := Multiset.nodup_iff_count_le_one.1 hnodup y
  rw [rowNodes, Multiset.count_sum', ← add_sum_erase _ _ (mem_range.2 hi)] at hcount
  have hmem : j ∈ (range size).erase i := mem_erase.2 ⟨hij.symm, mem_range.2 hj⟩
  have hle : Multiset.count y (nodes n t (lev j) (r j)) ≤
      ∑ a ∈ (range size).erase i, Multiset.count y (nodes n t (lev a) (r a)) :=
    single_le_sum (f := fun a => Multiset.count y (nodes n t (lev a) (r a)))
      (fun _ _ => Nat.zero_le _) hmem
  have h1 := Multiset.one_le_count_iff_mem.2 hy
  have h2 := Multiset.one_le_count_iff_mem.2 hy'
  omega

theorem nodes_le_rowNodes (hi : i < size) : nodes n t (lev i) (r i) ≤ rowNodes n t size lev r := by
  rw [rowNodes, ← add_sum_erase _ _ (mem_range.2 hi)]
  exact Multiset.le_add_right _ _

theorem RowCut.le (h : RowCut n bad size apart lev c t r t' r' l) :
    rowNodes n t' size lev r' ≤ rowNodes n t size lev r := by
  rw [← h.nodes]
  exact Multiset.le_add_left _ _

/-- **One more tree of the row is cut.**  The entry is stored where it may change a table that is
apart. -/
theorem RowCut.step (h : RowCut n bad size apart lev c t r t' r' l)
    (hnodup : (rowNodes n t size lev r).Nodup)
    (hapart : ∀ y ∈ rowNodes n t size lev r, ¬ apart y) (hi : i < size)
    (hfull : (n ^ lev i : Nat) ≤ c i) {ci : Int} {y : Nat}
    (hcut : Cut n bad (lev i) ci t' (r' i) t₁ y l₁) (hset : ∀ z, ¬ apart z → t₂ z = t₁ z) :
    RowCut n bad size apart lev (update c i ci) t r t₂ (update r' i y) (l + l₁) := by
  have hle := h.le
  have hnodup' : (rowNodes n t' size lev r').Nodup := Multiset.nodup_of_le hle hnodup
  have hapart' : ∀ z ∈ rowNodes n t' size lev r', ¬ apart z :=
    fun z hz => hapart z (Multiset.mem_of_le hle hz)
  -- the tables of the other trees have not changed
  have hother : ∀ j < size, j ≠ i → ∀ z ∈ TableTree.nodes n t' (lev j) (r' j), t₂ z = t' z := by
    intro j hj hji z hz
    have hz' := Multiset.mem_of_le (nodes_le_rowNodes hj) hz
    rw [hset z (hapart' z hz')]
    exact hcut.frame z (rowNodes_disjoint hnodup' hj hi hji hz)
  -- nor those that are left of this one
  have hthis : ∀ z ∈ TableTree.nodes n t₁ (lev i) y, t₂ z = t₁ z := by
    intro z hz
    refine hset z (hapart' z ?_)
    exact Multiset.mem_of_le (hcut.le.trans (nodes_le_rowNodes hi)) hz
  refine ⟨fun z hz hout => ?_, fun j hj m hm => ?_, ?_⟩
  · rw [hset z hz, hcut.frame z fun hmem => ?_]
    · exact h.frame z hz hout
    · exact hout (Multiset.mem_of_le ((nodes_le_rowNodes hi).trans hle) hmem)
  · by_cases hji : j = i
    · subst hji
      rw [update_self, update_self, look_congr hm hthis, hcut.look m hm,
        h.look j hj m hm]
      have hm' : (m : Int) < c j := by omega
      rw [if_pos hm']
    · rw [update_of_ne hji, update_of_ne hji,
        look_congr hm (hother j hj hji)]
      exact h.look j hj m hm
  · have hrow : l₁ + rowNodes n t₂ size lev (update r' i y) =
        rowNodes n t' size lev r' := by
      rw [rowNodes, rowNodes, ← add_sum_erase _ _ (mem_range.2 hi),
        ← add_sum_erase (range size) (fun j => TableTree.nodes n t' (lev j) (r' j))
          (mem_range.2 hi), update_self, nodes_congr hthis, ← add_assoc, hcut.nodes]
      congr 1
      refine sum_congr rfl fun j hj => ?_
      obtain ⟨hji, hj⟩ := mem_erase.1 hj
      rw [update_of_ne hji, nodes_congr (hother j (mem_range.1 hj) hji)]
    rw [add_assoc, hrow, h.nodes]

/-! ## A row that is a table -/

section Table

variable {k x : Nat} {cut : Int}

/-- The index below the entry `i` of a table. -/
theorem index_lt_iff {p m : Nat} : ((m % p : Nat) : Int) < cut - ((m / p : Nat) * p : Nat) ↔
    (m : Int) < cut := by
  have hdiv := Nat.div_add_mod' m p
  omega

theorem look_row (hx : x ≠ 0) (hbad : bad x = false)
    (h : RowCut n bad n apart (fun _ => k) (fun i => cut - (i * n ^ k : Nat)) t (t x) t' r' l) {m : Nat}
    (hm : m < n ^ (k + 1)) :
    look n bad t' k (r' (m / n ^ k)) (m % n ^ k) =
      if (m : Int) < cut then look n bad t (k + 1) x m else 0 := by
  obtain ⟨hpos, hi⟩ := index_bounds hm
  have hgood : ¬ (x = 0 ∨ bad x = true) := by simp [hx, hbad]
  rw [h.look _ hi _ (Nat.mod_lt _ hpos), TableTree.look, if_neg hgood]
  simp only [index_lt_iff]

/-- **The table stays.** -/
theorem RowCut.table (hx : x ≠ 0) (hbad : bad x = false)
    (h : RowCut n bad n (· = x) (fun _ => k) (fun i => cut - (i * n ^ k : Nat)) t (t x) t' (t' x) l) :
    Cut n bad (k + 1) cut t x t' x l := by
  refine ⟨fun y hy => ?_, fun m hm => ?_, ?_⟩
  · rw [TableTree.nodes, if_neg hx, Multiset.mem_cons, not_or] at hy
    exact h.frame y hy.1 hy.2
  · have hgood : ¬ (x = 0 ∨ bad x = true) := by simp [hx, hbad]
    rw [← look_row hx hbad h hm, TableTree.look, if_neg hgood]
  · rw [TableTree.nodes, TableTree.nodes, if_neg hx, if_neg hx, Multiset.add_cons]
    congr 1
    exact h.nodes

/-- **The table has become empty**, and leaves the tree too. -/
theorem RowCut.empty (hx : x ≠ 0) (hbad : bad x = false)
    (h : RowCut n bad n (· = x) (fun _ => k) (fun i => cut - (i * n ^ k : Nat)) t (t x) t' r' l)
    (hzero : ∀ i < n, r' i = 0) : Cut n bad (k + 1) cut t x t' 0 (l + {x}) := by
  refine ⟨fun y hy => ?_, fun m hm => ?_, ?_⟩
  · rw [TableTree.nodes, if_neg hx, Multiset.mem_cons, not_or] at hy
    exact h.frame y hy.1 hy.2
  · rw [← look_row hx hbad h hm, look_zero]
    rw [hzero _ (index_bounds hm).2, look_zero]
  · have hnone : rowNodes n t' n (fun _ => k) r' = 0 := by
      refine sum_eq_zero fun i hi => ?_
      rw [hzero i (mem_range.1 hi), nodes_zero]
    have hnodes := h.nodes
    rw [hnone, add_zero] at hnodes
    rw [nodes_zero, add_zero, TableTree.nodes, if_neg hx, hnodes, add_comm, Multiset.singleton_add]
    rfl

end Table

end RowCut

end TableTree
