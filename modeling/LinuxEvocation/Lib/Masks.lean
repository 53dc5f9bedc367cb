import Mathlib.Tactic

/-!
# Masks

What the low and the high bits of a word are as a number.

* `toNat_and_mask`, `toNat_and_not_mask` — the remainder by a power of two, and the multiple below.
* `toNat_join`, `toNat_setHigh`, `toNat_setLow` — a word made of parts of two others.
-/

namespace Masks

variable {w : Nat}

theorem toNat_and_mask (x : BitVec w) (k : Nat) :
    (x &&& BitVec.ofNat w (2 ^ k - 1)).toNat = x.toNat % 2 ^ k := by
  have hx : x.toNat % 2 ^ w = x.toNat := Nat.mod_eq_of_lt x.isLt
  rw [BitVec.toNat_and, BitVec.toNat_ofNat, ← Nat.and_two_pow_sub_one_eq_mod x.toNat k]
  apply Nat.eq_of_testBit_eq
  intro i
  simp only [Nat.testBit_and, Nat.testBit_mod_two_pow, Nat.testBit_two_pow_sub_one]
  by_cases hi : i < w
  · simp [hi]
  · have hbit : x.toNat.testBit i = false :=
      Nat.testBit_lt_two_pow (lt_of_lt_of_le x.isLt (Nat.pow_le_pow_right two_pos (Nat.not_lt.mp hi)))
    simp [hbit]

/-- The high bits are the multiple of the power of two below the number. -/
theorem toNat_and_not_mask (x : BitVec w) (k : Nat) :
    (x &&& ~~~ BitVec.ofNat w (2 ^ k - 1)).toNat = x.toNat / 2 ^ k * 2 ^ k := by
  have hshift : x &&& ~~~ BitVec.ofNat w (2 ^ k - 1) = (x >>> k) <<< k := by
    apply BitVec.eq_of_getLsbD_eq
    intro i hi
    simp only [BitVec.getLsbD_and, BitVec.getLsbD_not, BitVec.getLsbD_ofNat,
      Nat.testBit_two_pow_sub_one, BitVec.getLsbD_shiftLeft, BitVec.getLsbD_ushiftRight, hi,
      decide_true, Bool.true_and]
    by_cases hk : i < k
    · simp [hk]
    · simp [hk, Nat.add_sub_cancel' (Nat.not_lt.mp hk)]
  have hlt : x.toNat / 2 ^ k * 2 ^ k < 2 ^ w := lt_of_le_of_lt (Nat.div_mul_le_self _ _) x.isLt
  rw [hshift, BitVec.toNat_shiftLeft, BitVec.toNat_ushiftRight, Nat.shiftLeft_eq,
    Nat.shiftRight_eq_div_pow, Nat.mod_eq_of_lt hlt]

/-! ## Words that are put together -/

/-- The lower of two numbers in one word. -/
theorem or_eq_add {a b k : Nat} (h : b < 2 ^ k) : a * 2 ^ k ||| b = a * 2 ^ k + b := by
  rw [Nat.mul_comm, Nat.two_pow_add_eq_or_of_lt h]

theorem toNat_shiftLeft_sub (x : BitVec w) {k : Nat} (h : k ≤ w) :
    (x <<< (w - k)).toNat = x.toNat % 2 ^ k * 2 ^ (w - k) := by
  have hw : 2 ^ w = 2 ^ k * 2 ^ (w - k) := by rw [← Nat.pow_add, Nat.add_sub_cancel' h]
  rw [BitVec.toNat_shiftLeft, Nat.shiftLeft_eq, hw, Nat.mul_mod_mul_right]

theorem toNat_ushiftRight_lt (x : BitVec w) {k : Nat} (h : k ≤ w) :
    x.toNat / 2 ^ k < 2 ^ (w - k) := by
  have hw : 2 ^ w = 2 ^ (w - k) * 2 ^ k := by rw [← Nat.pow_add, Nat.sub_add_cancel h]
  rw [Nat.div_lt_iff_lt_mul (Nat.two_pow_pos k), ← hw]
  exact x.isLt

/-- The high bits of one word below the low bits of another. -/
theorem toNat_join (x y : BitVec w) {k : Nat} (h : k ≤ w) :
    (x >>> k ||| y <<< (w - k)).toNat = y.toNat % 2 ^ k * 2 ^ (w - k) + x.toNat / 2 ^ k := by
  rw [BitVec.toNat_or, toNat_shiftLeft_sub y h, BitVec.toNat_ushiftRight, Nat.shiftRight_eq_div_pow,
    Nat.or_comm, or_eq_add (toNat_ushiftRight_lt x h)]

/-- The low bits of another word above the low bits of one. -/
theorem toNat_setHigh (x y : BitVec w) {k : Nat} (h : k ≤ w) :
    (x &&& BitVec.ofNat w (2 ^ k - 1) ||| y <<< k).toNat =
      y.toNat % 2 ^ (w - k) * 2 ^ k + x.toNat % 2 ^ k := by
  have hk : w - (w - k) = k := Nat.sub_sub_self h
  have hshift := toNat_shiftLeft_sub y (Nat.sub_le w k)
  rw [hk] at hshift
  rw [BitVec.toNat_or, hshift, toNat_and_mask, Nat.or_comm,
    or_eq_add (Nat.mod_lt _ (Nat.two_pow_pos k))]

/-- The high bits of another word below the high bits of one. -/
theorem toNat_setLow (x y : BitVec w) {k : Nat} (h : k ≤ w) :
    (x &&& ~~~ BitVec.ofNat w (2 ^ k - 1) ||| y >>> (w - k)).toNat =
      x.toNat / 2 ^ k * 2 ^ k + y.toNat / 2 ^ (w - k) := by
  have hlt := toNat_ushiftRight_lt y (Nat.sub_le w k)
  rw [Nat.sub_sub_self h] at hlt
  rw [BitVec.toNat_or, toNat_and_not_mask, BitVec.toNat_ushiftRight, Nat.shiftRight_eq_div_pow,
    or_eq_add hlt]

end Masks
