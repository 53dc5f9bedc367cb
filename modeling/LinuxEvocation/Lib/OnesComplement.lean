import Mathlib.Tactic

/-!
# One's-complement sums

Numbers up to `m` are added with the carry brought around to the low end, so that `m` is another zero:
a sum is 0 only if all of its numbers are, and it is the remainder by `m` in `1..m` otherwise.

* `addAround m a b` — the sum with the carry around.
* `residue m n` — the representative of `n`.
* `addAround_eq` — a sum is the representative of the sum of the numbers.
* `residue_add`, `residue_scale` — the representatives of sums, and of a number in two parts.
* `foldl_addAround` — the sum of a list.
-/

namespace OnesComplement

def addAround (m a b : Nat) : Nat := if a + b ≤ m then a + b else a + b - m

/-- The representative of a number: 0 of 0, and otherwise the one in `1..m`. -/
def residue (m n : Nat) : Nat := if n = 0 then 0 else (n - 1) % m + 1

variable {m a b c n : Nat}

@[simp]
theorem residue_zero (m : Nat) : residue m 0 = 0 := rfl

theorem residue_eq_zero : residue m n = 0 ↔ n = 0 := by
  unfold residue
  split <;> simp_all

theorem residue_of_le (h : n ≤ m) : residue m n = n := by
  unfold residue
  split
  next hn => exact hn.symm
  next hn =>
    rw [Nat.mod_eq_of_lt (by omega)]
    omega

theorem residue_le (hm : 0 < m) (n : Nat) : residue m n ≤ m := by
  unfold residue
  split
  · exact Nat.zero_le m
  · exact Nat.mod_lt _ hm

/-- The representative of a number that is not 0 does not change with a multiple of `m`. -/
theorem residue_add_mul (hn : n ≠ 0) (k : Nat) : residue m (n + m * k) = residue m n := by
  unfold residue
  rw [if_neg hn, if_neg (by omega), show n + m * k - 1 = n - 1 + m * k by omega,
    Nat.add_mul_mod_self_left]

/-- A number is its representative and a multiple of `m`. -/
theorem residue_add_div (m n : Nat) : residue m n + m * ((n - 1) / m) = n := by
  unfold residue
  split
  next hn =>
    subst hn
    simp
  next hn =>
    have := Nat.mod_add_div (n - 1) m
    omega

theorem residue_add (m a b : Nat) : residue m (residue m a + b) = residue m (a + b) := by
  by_cases hzero : residue m a + b = 0
  · have ha : a = 0 := residue_eq_zero.mp (Nat.add_eq_zero_iff.mp hzero).1
    rw [ha, residue_zero]
  · have hsum : a + b = residue m a + b + m * ((a - 1) / m) := by
      have := residue_add_div m a
      omega
    rw [hsum, residue_add_mul hzero]

/-- The representative of a number in two parts, the upper one of which counts as much. -/
theorem residue_scale (m d a b : Nat) : residue m (a + (m * d + 1) * b) = residue m (a + b) := by
  by_cases hzero : a + b = 0
  · have hb : b = 0 := by omega
    rw [hb, Nat.mul_zero]
  · rw [show a + (m * d + 1) * b = a + b + m * (d * b) by ring, residue_add_mul hzero]

theorem addAround_eq (ha : a ≤ m) (hb : b ≤ m) : addAround m a b = residue m (a + b) := by
  unfold addAround
  split
  next h => exact (residue_of_le h).symm
  next h =>
    have hsum := residue_add_mul (m := m) (n := a + b - m) (by omega) 1
    rw [Nat.mul_one, Nat.sub_add_cancel (by omega)] at hsum
    rw [hsum, residue_of_le (by omega)]

theorem foldl_addAround {l : List Nat} (hm : 0 < m) (ha : a ≤ m) (hl : ∀ x ∈ l, x ≤ m) :
    l.foldl (addAround m) a = residue m (a + l.sum) := by
  induction l generalizing a with
  | nil => exact (residue_of_le ha).symm
  | cons x l ih =>
    have hx := hl x List.mem_cons_self
    rw [List.foldl_cons, addAround_eq ha hx,
      ih (residue_le hm _) fun y hy => hl y (List.mem_cons_of_mem _ hy), residue_add,
      List.sum_cons, Nat.add_assoc]

end OnesComplement
