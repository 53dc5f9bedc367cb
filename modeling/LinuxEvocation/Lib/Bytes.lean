import Mathlib.Tactic

/-!
# Bytes and the numbers stored in them

A memory is a function from addresses to bytes.

* `peek m o n` — the `n` bytes from the address `o` on.
* `poke m o l` — the memory once the bytes `l` are stored from `o` on.
* `getLE m o n`, `setLE m o n v` — a number of `n` bytes, the lowest one first.
* The lemmas `_self` read back what was stored, the lemmas `_of_apart` read what lies apart from it.
-/

namespace Bytes

/-- The bytes from an address on. -/
def peek (m : Nat → UInt8) : Nat → Nat → List UInt8
  | _, 0 => []
  | o, n + 1 => m o :: peek m (o + 1) n

/-- The memory with other bytes from an address on. -/
def poke (m : Nat → UInt8) (o : Nat) (l : List UInt8) : Nat → UInt8 := fun a =>
  if o ≤ a ∧ a < o + l.length then l.getD (a - o) 0 else m a

/-- The number whose bytes are given, the lowest one first. -/
def ofLE : List UInt8 → Nat
  | [] => 0
  | b :: l => b.toNat + 256 * ofLE l

/-- The lowest `n` bytes of a number. -/
def toLE : Nat → Nat → List UInt8
  | 0, _ => []
  | n + 1, v => UInt8.ofNat v :: toLE n (v / 256)

def getLE (m : Nat → UInt8) (o n : Nat) : Nat := ofLE (peek m o n)

def setLE (m : Nat → UInt8) (o n v : Nat) : Nat → UInt8 := poke m o (toLE n v)

variable {m m' : Nat → UInt8} {o p n k v : Nat} {l : List UInt8}

@[simp]
theorem length_toLE : (toLE n v).length = n := by
  induction n generalizing v with
  | zero => rfl
  | succ n ih => rw [toLE, List.length_cons, ih]

/-- Only the bytes that are read matter. -/
theorem peek_congr (h : ∀ a, o ≤ a → a < o + n → m' a = m a) : peek m' o n = peek m o n := by
  induction n generalizing o with
  | zero => rfl
  | succ n ih =>
    rw [peek, peek, h o le_rfl (by omega), ih fun a ha hlt => h a (by omega) (by omega)]

theorem peek_poke_self : peek (poke m o l) o l.length = l := by
  induction l generalizing o m with
  | nil => rfl
  | cons b l ih =>
    rw [List.length_cons, peek]
    have hrest : ∀ a, o + 1 ≤ a → a < o + 1 + l.length →
        poke m o (b :: l) a = poke m (o + 1) l a := by
      intro a ha hlt
      rw [poke, poke, if_pos (by rw [List.length_cons]; omega), if_pos ⟨ha, hlt⟩]
      rw [show a - o = a - (o + 1) + 1 by omega, List.getD_cons_succ]
    rw [peek_congr hrest, ih]
    simp [poke]

theorem ofLE_toLE (h : v < 256 ^ n) : ofLE (toLE n v) = v := by
  induction n generalizing v with
  | zero => rw [toLE, ofLE]; omega
  | succ n ih =>
    rw [toLE, ofLE, ih (by rw [pow_succ] at h; omega)]
    have : (UInt8.ofNat v).toNat = v % 256 := UInt8.toNat_ofNat'
    omega

theorem getLE_setLE_self (h : v < 256 ^ n) : getLE (setLE m o n v) o n = v := by
  have := peek_poke_self (m := m) (o := o) (l := toLE n v)
  rw [length_toLE] at this
  rw [getLE, setLE, this, ofLE_toLE h]

theorem getLE_congr (h : ∀ a, o ≤ a → a < o + n → m' a = m a) : getLE m' o n = getLE m o n := by
  rw [getLE, peek_congr h, getLE]

theorem setLE_of_apart {a : Nat} (h : a < o ∨ o + n ≤ a) : setLE m o n v a = m a := by
  refine if_neg ?_
  rw [length_toLE]
  omega

/-- The last of two stores to one place counts. -/
theorem setLE_setLE {w : Nat} : setLE (setLE m o n v) o n w = setLE m o n w := by
  funext a
  by_cases h : o ≤ a ∧ a < o + n
  · simp [setLE, poke, h]
  · rw [setLE_of_apart (by omega), setLE_of_apart (by omega), setLE_of_apart (by omega)]

theorem poke_of_apart {a : Nat} (h : a < o ∨ o + l.length ≤ a) : poke m o l a = m a :=
  if_neg (by omega)

/-! ## Single bytes of a number -/

theorem getD_toLE {i : Nat} (h : i < n) : (toLE n v).getD i 0 = UInt8.ofNat (v / 256 ^ i) := by
  induction n generalizing v i with
  | zero => exact absurd h (Nat.not_lt_zero i)
  | succ n ih =>
    cases i with
    | zero => simp [toLE]
    | succ i =>
      rw [toLE, List.getD_cons_succ, ih (Nat.lt_of_succ_lt_succ h), Nat.div_div_eq_div_mul,
        Nat.pow_succ']

/-- The bytes of a number that is stored. -/
theorem setLE_apply {i : Nat} (h : i < n) : setLE m o n v (o + i) = UInt8.ofNat (v / 256 ^ i) := by
  have hin : o ≤ o + i ∧ o + i < o + (toLE n v).length := by
    rw [length_toLE]
    omega
  rw [setLE, poke, if_pos hin, Nat.add_sub_cancel_left, getD_toLE h]

/-- A number is stored in two parts. -/
theorem getLE_add : getLE m o (n + k) = getLE m o n + 256 ^ n * getLE m (o + n) k := by
  induction n generalizing o with
  | zero => simp [getLE, peek, ofLE]
  | succ n ih =>
    have hsucc (j : Nat) : getLE m o (j + 1) = (m o).toNat + 256 * getLE m (o + 1) j := rfl
    have hshift : o + 1 + n = o + (n + 1) := by omega
    rw [Nat.add_right_comm, hsucc, hsucc, ih, hshift, Nat.pow_succ', Nat.mul_add, Nat.add_assoc,
      Nat.mul_assoc]

theorem getLE_lt : getLE m o n < 256 ^ n := by
  induction n generalizing o with
  | zero => simp [getLE, peek, ofLE]
  | succ n ih =>
    have hsucc : getLE m o (n + 1) = (m o).toNat + 256 * getLE m (o + 1) n := rfl
    have hbyte : (m o).toNat < 256 := UInt8.toNat_lt _
    have hrest := @ih (o + 1)
    rw [hsucc, Nat.pow_succ']
    omega

/-- The bytes of a number that is read. -/
theorem ofNat_getLE_div {i : Nat} (h : i < n) : UInt8.ofNat (getLE m o n / 256 ^ i) = m (o + i) := by
  obtain ⟨k, rfl⟩ : ∃ k, n = i + (1 + k) := ⟨n - i - 1, by omega⟩
  have hone : getLE m (o + i) 1 = (m (o + i)).toNat := by simp [getLE, peek, ofLE]
  have hpos : 0 < 256 ^ i := Nat.pow_pos (by decide)
  rw [getLE_add, Nat.add_mul_div_left _ _ hpos, Nat.div_eq_of_lt getLE_lt, Nat.zero_add, getLE_add,
    hone]
  apply UInt8.toNat_inj.mp
  have hbyte : (m (o + i)).toNat < 256 := UInt8.toNat_lt _
  rw [UInt8.toNat_ofNat', Nat.pow_one]
  omega

/-- The same bytes in another place are the same number. -/
theorem getLE_shift (h : ∀ i < n, m' (p + i) = m (o + i)) : getLE m' p n = getLE m o n := by
  induction n generalizing o p with
  | zero => rfl
  | succ n ih =>
    have hsucc (m : Nat → UInt8) (o : Nat) :
        getLE m o (n + 1) = (m o).toNat + 256 * getLE m (o + 1) n := rfl
    have hrest : getLE m' (p + 1) n = getLE m (o + 1) n := by
      refine ih fun i hi => ?_
      rw [Nat.add_assoc, Nat.add_assoc, Nat.add_comm 1 i]
      exact h (i + 1) (Nat.succ_lt_succ hi)
    have hfirst : m' p = m o := h 0 (Nat.succ_pos n)
    rw [hsucc, hsucc, hfirst, hrest]

end Bytes
