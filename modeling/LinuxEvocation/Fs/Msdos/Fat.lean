import Mathlib.Tactic

/-!
# The file allocation table

A cluster of an MS-DOS file system has an entry in the FAT: 0 for a free one, the number of the next
cluster of its file, or an end-of-file mark.  Entries have 16 bits, or 12 bits: then two entries share
three bytes.

* `Fat` — the bytes of the table.
* `Fat.raw`, `Fat.put` — an entry, and the store to it, byte by byte as in `fat_access`.
* `Fat.access` — what `fat_access` returns.
-/

namespace LinuxEvocation.Msdos

/-- The table of a file system: `fat_bits` is 16 or 12, `clusters` the number of clusters, which are
numbered from 2 on.  All their numbers are below the end-of-file marks, which `msdos_read_super` does
not check. -/
structure Fat where
  wide : Bool
  clusters : Nat
  byte : Nat → BitVec 8
  pos : 0 < clusters
  fits : clusters + 2 ≤ if wide then 0xfff7 else 0xff7

namespace Fat

/-! ## Bytes -/

/-- The entry as it is in the table. -/
def raw (v : Fat) (nr : Nat) : Nat :=
  if v.wide then (v.byte (nr * 2)).toNat + (v.byte (nr * 2 + 1)).toNat <<< 8
  else
    let first := nr * 3 / 2
    if nr % 2 = 1 then
      ((v.byte first).toNat >>> 4 ||| (v.byte (first + 1)).toNat <<< 4) &&& 0xfff
    else ((v.byte first).toNat + (v.byte (first + 1)).toNat <<< 8) &&& 0xfff

/-- The table with other bytes. -/
def setBytes (v : Fat) (byte : Nat → BitVec 8) : Fat := { v with byte := byte }

/-- Two bytes, one after the other. -/
def setPair (v : Fat) (first : Nat) (x y : BitVec 8) : Fat :=
  v.setBytes (Function.update (Function.update v.byte first x) (first + 1) y)

/-- The store to an entry. -/
def put (v : Fat) (nr : Nat) (value : Nat) : Fat :=
  if v.wide then v.setPair (nr * 2) (BitVec.ofNat 8 value) (BitVec.ofNat 8 (value >>> 8))
  else
    let first := nr * 3 / 2
    if nr % 2 = 1 then
      v.setPair first (BitVec.ofNat 8 (((v.byte first).toNat &&& 0xf) ||| value <<< 4))
        (BitVec.ofNat 8 (value >>> 4))
    else
      v.setPair first (BitVec.ofNat 8 (value &&& 0xff))
        (BitVec.ofNat 8 (((v.byte (first + 1)).toNat &&& 0xf0) ||| value >>> 8))

@[simp]
theorem setPair_first (v : Fat) (first : Nat) (x y : BitVec 8) :
    (v.setPair first x y).byte first = x := by
  simp [setPair, setBytes]

@[simp]
theorem setPair_second (v : Fat) (first : Nat) (x y : BitVec 8) :
    (v.setPair first x y).byte (first + 1) = y := by
  simp [setPair, setBytes]

theorem setPair_of_ne (v : Fat) {first i : Nat} (h : i ≠ first) (h' : i ≠ first + 1)
    (x y : BitVec 8) : (v.setPair first x y).byte i = v.byte i := by
  simp [setPair, setBytes, h, h']

@[simp]
theorem put_wide (v : Fat) (nr value : Nat) : (v.put nr value).wide = v.wide := by
  unfold put
  dsimp only
  split_ifs <;> rfl

@[simp]
theorem put_clusters (v : Fat) (nr value : Nat) : (v.put nr value).clusters = v.clusters := by
  unfold put
  dsimp only
  split_ifs <;> rfl

/-! ## The arithmetic of half bytes -/

theorem or_shiftLeft_four {a b : Nat} (ha : a < 16) : a ||| b <<< 4 = a + 16 * b := by
  rw [Nat.shiftLeft_eq, Nat.or_comm, Nat.mul_comm b, show (2 ^ 4 : Nat) * b = 2 ^ 4 * b from rfl,
    ← Nat.two_pow_add_eq_or_of_lt (by omega) b]
  omega

theorem and_high (a b : Nat) (hb : b < 16) : (a &&& 0xf0) ||| b = a / 16 % 16 * 16 + b := by
  have hand : a &&& 0xf0 = 2 ^ 4 * (a / 16 % 16) := by
    have hsplit : a = 2 ^ 4 * (a / 16) + a % 16 := by omega
    have hmask : (0xf0 : Nat) = 2 ^ 4 * 15 + 0 := by decide
    conv_lhs => rw [hsplit, hmask]
    rw [Nat.two_pow_add_eq_or_of_lt (by omega), Nat.two_pow_add_eq_or_of_lt (by omega)]
    apply Nat.eq_of_testBit_eq
    intro i
    simp only [Nat.testBit_and, Nat.testBit_or, Nat.testBit_two_pow_mul, Nat.zero_testBit,
      Bool.or_false]
    by_cases hi : 4 ≤ i
    · have hlt : a % 16 < 2 ^ 4 := by omega
      have hlow : (a % 16).testBit i = false :=
        Nat.testBit_lt_two_pow (lt_of_lt_of_le hlt (Nat.pow_le_pow_right (by decide) hi))
      have hmod : a / 16 % 16 = a / 16 &&& 15 :=
        (Nat.and_two_pow_sub_one_eq_mod (a / 16) 4).symm
      simp [hi, hlow, hmod, Nat.testBit_and]
    · simp [hi]
  rw [hand, ← Nat.two_pow_add_eq_or_of_lt (by omega)]
  omega

theorem and_fff (a : Nat) : a &&& 0xfff = a % 4096 := Nat.and_two_pow_sub_one_eq_mod a 12

theorem and_ff (a : Nat) : a &&& 0xff = a % 256 := Nat.and_two_pow_sub_one_eq_mod a 8

theorem and_f (a : Nat) : a &&& 0xf = a % 16 := Nat.and_two_pow_sub_one_eq_mod a 4

/-! ## A store and the entries -/

variable {v : Fat}

/-- The three ways to read an entry, without the bit operations. -/
theorem raw_wide (h : v.wide = true) (nr : Nat) :
    v.raw nr = (v.byte (nr * 2)).toNat + (v.byte (nr * 2 + 1)).toNat * 256 := by
  rw [raw, if_pos h, Nat.shiftLeft_eq]

variable {nr : Nat}

theorem raw_odd (h : v.wide = false) (hodd : nr % 2 = 1) :
    v.raw nr = (v.byte (nr * 3 / 2)).toNat / 16 + (v.byte (nr * 3 / 2 + 1)).toNat * 16 := by
  have hfirst := (v.byte (nr * 3 / 2)).isLt
  have hlast := (v.byte (nr * 3 / 2 + 1)).isLt
  simp only [raw, h, Bool.false_eq_true, if_false, hodd, if_true]
  rw [Nat.shiftRight_eq_div_pow, or_shiftLeft_four (by omega), and_fff]
  omega

theorem raw_even (h : v.wide = false) (heven : nr % 2 ≠ 1) :
    v.raw nr = (v.byte (nr * 3 / 2)).toNat + (v.byte (nr * 3 / 2 + 1)).toNat % 16 * 256 := by
  have hfirst := (v.byte (nr * 3 / 2)).isLt
  simp only [raw, h, Bool.false_eq_true, if_false, heven]
  rw [and_fff, Nat.shiftLeft_eq]
  omega

/-- The values an entry can have. -/
def bound (v : Fat) : Nat := if v.wide then 65536 else 4096

variable {value : Nat}

@[simp]
theorem raw_put_self (v : Fat) (nr : Nat) (hvalue : value < v.bound) :
    (v.put nr value).raw nr = value := by
  unfold bound at hvalue
  by_cases hwide : v.wide = true
  · rw [if_pos hwide] at hvalue
    rw [raw_wide (by rw [put_wide, hwide]), put, if_pos hwide, setPair_first, setPair_second,
      BitVec.toNat_ofNat, BitVec.toNat_ofNat, Nat.shiftRight_eq_div_pow]
    omega
  · rw [if_neg hwide] at hvalue
    have hnarrow : v.wide = false := by simpa using hwide
    have hput : (v.put nr value).wide = false := by rw [put_wide, hnarrow]
    by_cases hodd : nr % 2 = 1
    · rw [raw_odd hput hodd, put, if_neg hwide]
      simp only [hodd, if_true, setPair_first, setPair_second, BitVec.toNat_ofNat]
      rw [and_f, or_shiftLeft_four (by omega), Nat.shiftRight_eq_div_pow]
      omega
    · rw [raw_even hput hodd, put, if_neg hwide]
      simp only [hodd, if_false, setPair_first, setPair_second, BitVec.toNat_ofNat]
      rw [and_ff, Nat.shiftRight_eq_div_pow, and_high _ _ (by omega)]
      omega

theorem raw_put_of_ne (v : Fat) {m : Nat} (h : m ≠ nr)
    (hvalue : value < v.bound) : (v.put nr value).raw m = v.raw m := by
  unfold bound at hvalue
  by_cases hwide : v.wide = true
  · rw [raw_wide hwide, raw_wide (by rw [put_wide, hwide]), put, if_pos hwide,
      setPair_of_ne _ (by omega) (by omega), setPair_of_ne _ (by omega) (by omega)]
  · rw [if_neg hwide] at hvalue
    have hnarrow : v.wide = false := by simpa using hwide
    have hput : (v.put nr value).wide = false := by rw [put_wide, hnarrow]
    have hbyte := (v.byte (m * 3 / 2)).isLt
    -- entries next to each other share a byte, but no half of one
    by_cases hm : m % 2 = 1
    · rw [raw_odd hput hm, raw_odd hnarrow hm, put, if_neg hwide]
      by_cases hodd : nr % 2 = 1
      · simp only [hodd, if_true]
        rw [setPair_of_ne _ (by omega) (by omega), setPair_of_ne _ (by omega) (by omega)]
      · simp only [hodd, if_false]
        rw [setPair_of_ne _ (by omega : m * 3 / 2 + 1 ≠ nr * 3 / 2) (by omega)]
        by_cases hnext : m = nr + 1
        · have hbytes : m * 3 / 2 = nr * 3 / 2 + 1 := by omega
          rw [hbytes, setPair_second, BitVec.toNat_ofNat, Nat.shiftRight_eq_div_pow,
            and_high _ _ (by omega)]
          have hlast := (v.byte (nr * 3 / 2 + 1)).isLt
          omega
        · rw [setPair_of_ne _ (by omega) (by omega)]
    · rw [raw_even hput hm, raw_even hnarrow hm, put, if_neg hwide]
      by_cases hodd : nr % 2 = 1
      · simp only [hodd, if_true]
        rw [setPair_of_ne _ (by omega : m * 3 / 2 ≠ nr * 3 / 2) (by omega)]
        by_cases hnext : nr = m + 1
        · have hbytes : m * 3 / 2 + 1 = nr * 3 / 2 := by omega
          rw [hbytes, setPair_first, BitVec.toNat_ofNat, and_f, or_shiftLeft_four (by omega)]
          omega
        · rw [setPair_of_ne _ (by omega) (by omega)]
      · simp only [hodd, if_false]
        rw [setPair_of_ne _ (by omega) (by omega), setPair_of_ne _ (by omega) (by omega)]

/-! ## `fat_access` -/

/-- Entries from here on are end-of-file marks. -/
def eof (v : Fat) : Nat := if v.wide then 0xfff7 else 0xff7

/-- The mark that the kernel writes. -/
def eofMark (v : Fat) : Nat := if v.wide then 0xfff8 else 0xff8

/-- There is such a cluster. -/
def inRange (v : Fat) (nr : Nat) : Prop := 2 ≤ nr ∧ nr < v.clusters + 2

instance (v : Fat) (nr : Nat) : Decidable (v.inRange nr) := inferInstanceAs (Decidable (_ ∧ _))

/-- What `fat_access` returns: 0 for a free cluster, and where there is none; `none` stands for -1. -/
def access (v : Fat) (nr : Nat) : Option Nat :=
  if v.inRange nr then if v.eof ≤ v.raw nr then none else some (v.raw nr) else some 0

/-- `fat_access` with a new value. -/
def store (v : Fat) (nr value : Nat) : Fat := if v.inRange nr then v.put nr value else v

@[simp]
theorem store_clusters (v : Fat) (nr value : Nat) : (v.store nr value).clusters = v.clusters := by
  unfold store
  split_ifs <;> simp

theorem inRange_store (v : Fat) (nr value m : Nat) :
    (v.store nr value).inRange m ↔ v.inRange m := by
  unfold inRange
  rw [store_clusters]

theorem store_wide (v : Fat) (nr value : Nat) : (v.store nr value).wide = v.wide := by
  unfold store
  split_ifs <;> simp

theorem eof_lt_bound (v : Fat) : v.eof < v.bound := by
  unfold eof bound
  split_ifs <;> decide

theorem eofMark_lt_bound (v : Fat) : v.eofMark < v.bound := by
  unfold eofMark bound
  split_ifs <;> decide

theorem eof_le_eofMark (v : Fat) : v.eof ≤ v.eofMark := by
  unfold eofMark eof
  split_ifs <;> decide

/-- The number of a cluster is no end-of-file mark. -/
theorem inRange.lt_eof (h : v.inRange nr) : nr < v.eof :=
  lt_of_lt_of_le h.2 v.fits

theorem access_store_of_ne (v : Fat) {m : Nat} (h : m ≠ nr) (hvalue : value < v.bound) :
    (v.store nr value).access m = v.access m := by
  have heof : (v.store nr value).eof = v.eof := by rw [eof, store_wide, eof]
  have hraw : (v.store nr value).raw m = v.raw m := by
    unfold store
    split_ifs
    · exact raw_put_of_ne v h hvalue
    · rfl
  simp only [access, heof, hraw, inRange_store]

theorem access_store_self (v : Fat) (hnr : v.inRange nr) (hvalue : value < v.bound) :
    (v.store nr value).access nr = if v.eof ≤ value then none else some value := by
  have heof : (v.store nr value).eof = v.eof := by rw [eof, store_wide, eof]
  unfold access
  rw [heof, if_pos ((inRange_store ..).2 hnr), store, if_pos hnr, raw_put_self v nr hvalue]

theorem access_store_zero (v : Fat) (hnr : v.inRange nr) :
    (v.store nr 0).access nr = some 0 := by
  have hpos : 0 < v.eof := lt_of_le_of_lt (Nat.zero_le nr) hnr.lt_eof
  rw [access_store_self v hnr (lt_trans hpos v.eof_lt_bound), if_neg (by omega)]

theorem access_store_eofMark (v : Fat) (hnr : v.inRange nr) :
    (v.store nr v.eofMark).access nr = none := by
  rw [access_store_self v hnr v.eofMark_lt_bound, if_pos v.eof_le_eofMark]

theorem access_store_link (v : Fat) {next : Nat} (hnr : v.inRange nr) (hnext : v.inRange next) :
    (v.store nr next).access nr = some next := by
  have hlt := hnext.lt_eof
  rw [access_store_self v hnr (lt_trans hlt v.eof_lt_bound), if_neg (by omega)]

theorem inRange_of_access (h : v.access nr ≠ some 0) : v.inRange nr := by
  by_contra hnr
  exact h (if_neg hnr)

end Fat

end LinuxEvocation.Msdos
