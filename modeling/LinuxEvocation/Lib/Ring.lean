import Mathlib.Data.List.GetD
import Mathlib.Tactic

/-!
# Ring buffers

A ring of `N` cells is a function `base` from positions to values, read and written in straight
runs that do not go over the end.

* `window N base tail n` — the `n` values from the position `tail` on, around the ring.
* `blit` — storing a run of values.
* `window_add`, `window_straight` — a window in two parts, and one that does not go around.
* `window_blit` — a run stored behind a window makes it longer.
-/

namespace Ring

variable {α : Type*}

/-- The `n` values from the position `tail` on. -/
def window (N : Nat) (base : Nat → α) (tail n : Nat) : List α :=
  (List.range n).map fun i => base ((tail + i) % N)

/-- The run `l` is stored from the position `head` on. -/
def blit (base : Nat → α) (head : Nat) (l : List α) : Nat → α :=
  fun i => if head ≤ i then l.getD (i - head) (base i) else base i

variable {N : Nat} {base : Nat → α} {tail n : Nat}

@[simp]
theorem length_window : (window N base tail n).length = n := by
  simp [window]

@[simp]
theorem window_zero : window N base tail 0 = [] := rfl

theorem window_add (m : Nat) :
    window N base tail (m + n) = window N base tail m ++ window N base ((tail + m) % N) n := by
  unfold window
  rw [List.range_add, List.map_append, List.map_map]
  congr 1
  apply List.map_congr_left
  intro i _
  simp only [Function.comp_apply, Nat.mod_add_mod, Nat.add_assoc]

/-- A window that does not go around. -/
theorem window_straight (h : tail + n ≤ N) :
    window N base tail n = (List.range n).map fun i => base (tail + i) := by
  unfold window
  apply List.map_congr_left
  intro i hi
  rw [List.mem_range] at hi
  rw [Nat.mod_eq_of_lt (by omega)]

variable {head : Nat} {l : List α}

theorem blit_of_lt {i : Nat} (h : i < head) :
    blit base head l i = base i := by
  unfold blit
  rw [if_neg (by omega)]

theorem blit_of_ge {i : Nat} (h : head + l.length ≤ i) :
    blit base head l i = base i := by
  unfold blit
  rw [if_pos (by omega), List.getD_eq_default _ _ (by omega)]

theorem blit_add {i : Nat} (h : i < l.length) :
    blit base head l (head + i) = l[i] := by
  unfold blit
  rw [if_pos (by omega), Nat.add_sub_cancel_left, List.getD_eq_getElem _ _ h]

theorem window_blit_self (h : head + l.length ≤ N) :
    window N (blit base head l) head l.length = l := by
  rw [window_straight h]
  apply List.ext_getElem
  · simp
  · intro i h1 h2
    simp only [List.getElem_map, List.getElem_range]
    exact blit_add h2

/-- A window is not touched by a run that is stored in the free part of the ring. -/
theorem window_blit_free (htail : tail < N) (hhead : head = (tail + n) % N)
    (hl : head + l.length ≤ N) (hfree : n + l.length ≤ N) :
    window N (blit base head l) tail n = window N base tail n := by
  unfold window
  apply List.map_congr_left
  intro i hi
  rw [List.mem_range] at hi
  have hmod : ∀ j, j ≤ N → tail + j < N ∧ (tail + j) % N = tail + j ∨
      N ≤ tail + j ∧ (tail + j) % N = tail + j - N := by
    intro j hj
    rcases Nat.lt_or_ge (tail + j) N with hlt | hge
    · exact .inl ⟨hlt, Nat.mod_eq_of_lt hlt⟩
    · refine .inr ⟨hge, ?_⟩
      rw [Nat.mod_eq_sub_mod hge]
      rcases Nat.eq_or_lt_of_le hj with rfl | hlt <;> rw [Nat.mod_eq_of_lt (by omega)]
  -- the position is before the run, or behind it
  rcases hmod i (by omega) with ⟨h1, h2⟩ | ⟨h1, h2⟩ <;>
    rcases hmod n (by omega) with ⟨h3, h4⟩ | ⟨h3, h4⟩
  · exact blit_of_lt (by omega)
  · exact blit_of_ge (by omega)
  · omega
  · exact blit_of_lt (by omega)

/-- **A run that is stored behind a window makes it longer.** -/
theorem window_blit (htail : tail < N) (hhead : head = (tail + n) % N)
    (hl : head + l.length ≤ N) (hfree : n + l.length ≤ N) :
    window N (blit base head l) tail (n + l.length) = window N base tail n ++ l := by
  rw [window_add, window_blit_free htail hhead hl hfree, ← hhead, window_blit_self hl]

/-- Positions count around the ring. -/
theorem window_mod (N : Nat) (base : Nat → α) (tail n : Nat) :
    window N base (tail % N) n = window N base tail n := by
  unfold window
  apply List.map_congr_left
  intro i _
  rw [Nat.mod_add_mod]

theorem window_succ : window N base tail (n + 1) = base (tail % N) :: window N base (tail + 1) n := by
  rw [Nat.add_comm n 1, window_add, window_mod]
  simp [window]

theorem blit_singleton (head : Nat) (x : α) : blit base head [x] = Function.update base head x := by
  funext i
  by_cases hi : i = head
  · rw [hi, Function.update_self, blit, if_pos (le_refl head), Nat.sub_self]
    rfl
  · rw [Function.update_of_ne hi]
    rcases Nat.lt_or_gt_of_ne hi with hlt | hgt
    · exact blit_of_lt hlt
    · exact blit_of_ge (by simpa using hgt)

/-- **A value that is stored behind a window makes it longer.** -/
theorem window_push (x : α) (h : n < N) :
    window N (Function.update base ((tail + n) % N) x) tail (n + 1) = window N base tail n ++ [x] := by
  have hN : 0 < N := by omega
  rw [← window_mod N _ tail, ← window_mod N base tail, ← blit_singleton]
  exact window_blit (l := [x]) (Nat.mod_lt _ hN) (by rw [Nat.mod_add_mod])
    (Nat.succ_le_of_lt (Nat.mod_lt _ hN)) h

end Ring
