import Mathlib.Data.Nat.Digits.Lemmas

/-!
# Positional numerals

A numeral is read from its first digit on, with the value so far multiplied by the base before each
digit is added.

* `horner` — the value of a list of digits, after a value read before.
* `horner_digits` — the digits of a number, most significant first, have its value.
* `horner_zeros` — leading zeros change nothing.
* `head_digit_ne_zero` — the first digit of a positive number is not zero.
-/

namespace LinuxEvocation.Numeral

variable {b r n : Nat} {ds : List Nat}

/-- The value of the digits `ds` behind digits of value `r`. -/
def horner (b r : Nat) : List Nat → Nat
  | [] => r
  | d :: ds => horner b (r * b + d) ds

theorem horner_append (ds es : List Nat) : horner b r (ds ++ es) = horner b (horner b r ds) es := by
  induction ds generalizing r with
  | nil => rfl
  | cons d ds ih => exact ih

theorem horner_zeros (k : Nat) : horner b 0 (List.replicate k 0 ++ ds) = horner b 0 ds := by
  induction k with
  | zero => rfl
  | succ k ih => rw [List.replicate_succ, List.cons_append, horner, Nat.zero_mul, ih]

/-- The digits of a number have its value. -/
theorem horner_digits (b n : Nat) : horner b 0 (Nat.digits b n).reverse = n := by
  have hall : ∀ l : List Nat, horner b 0 l.reverse = Nat.ofDigits b l := by
    intro l
    induction l with
    | nil => rfl
    | cons d l ih =>
      rw [List.reverse_cons, horner_append, ih, Nat.ofDigits_cons, horner, horner,
        Nat.mul_comm, Nat.add_comm]
  rw [hall, Nat.ofDigits_digits]

/-- The first digit of a positive number is not zero. -/
theorem head_digit_ne_zero (hn : n ≠ 0) (hne : (Nat.digits b n).reverse ≠ []) :
    (Nat.digits b n).reverse.head hne ≠ 0 := by
  rw [List.head_reverse]
  exact Nat.getLast_digit_ne_zero b hn

end LinuxEvocation.Numeral
