import LinuxEvocation.Lib.Numeral
import LinuxEvocation.Kernel.Vsprintf.Basic

/-!
# Numbers printed and read

What `number` prints, `simple_strtoul` reads back.

* `number_strtoul` — printing and reading are inverse.
-/

namespace LinuxEvocation.Vsprintf

open Numeral

/-! ## Digits -/

section Digits

variable {type : Flags} {base d : Nat} {num : BitVec 32}

theorem isxdigit_digit (hd : d < 16) : isxdigit (digit type d) = true := by
  unfold digit digits
  split <;> interval_cases d <;> rfl

theorem digitValue_digit (hd : d < 16) : digitValue (digit type d) = d := by
  unfold digit digits
  split <;> interval_cases d <;> rfl

theorem digit_zero (type : Flags) : digit type 0 = '0' := by
  unfold digit digits
  split <;> rfl

/-- The digits of a number, from the last to the first. -/
def tmpDigits (num : BitVec 32) (base : Nat) : List Nat :=
  if num = 0 then [0] else Nat.digits base num.toNat

theorem tmp_eq (num : BitVec 32) (base : Nat) (type : Flags) :
    tmp num base type = (tmpDigits num base).map (digit type) := by
  unfold tmp tmpDigits
  split
  · rw [List.map_singleton, digit_zero]
  · rfl

theorem tmpDigits_lt (hbase : 2 ≤ base) (hd : d ∈ tmpDigits num base) : d < base := by
  unfold tmpDigits at hd
  split at hd
  · rw [List.mem_singleton.mp hd]
    omega
  · exact Nat.digits_lt_base hbase hd

theorem tmpDigits_ne_nil (num : BitVec 32) (base : Nat) : tmpDigits num base ≠ [] := by
  unfold tmpDigits
  split
  · exact List.cons_ne_nil _ _
  next hnum =>
    rw [Nat.digits_ne_nil_iff_ne_zero]
    intro h0
    exact hnum (BitVec.eq_of_toNat_eq h0)

theorem tmpDigits_length (hbase : 2 ≤ base) : (tmpDigits num base).length ≤ 32 := by
  unfold tmpDigits
  split
  · exact Nat.one_le_ofNat
  · rw [Nat.digits_length_le_iff hbase]
    exact num.isLt.trans_le (Nat.pow_le_pow_left hbase 32)

theorem horner_tmpDigits (num : BitVec 32) (base : Nat) :
    horner base 0 (tmpDigits num base).reverse = num.toNat := by
  unfold tmpDigits
  split
  next h =>
    rw [h, List.reverse_singleton, horner, horner, Nat.zero_mul]
    rfl
  next => exact horner_digits base num.toNat

end Digits

/-! ## The parser -/

section Parser

variable {type : Flags} {base r : Nat} {ds : List Nat}

theorem strtoulLoop_digits (hbase : base ≤ 16) (hds : ∀ d ∈ ds, d < base) (rest : List Char) :
    strtoulLoop base (BitVec.ofNat 32 r) (ds.map (digit type) ++ rest) =
      strtoulLoop base (BitVec.ofNat 32 (horner base r ds)) rest := by
  induction ds generalizing r with
  | nil => rfl
  | cons d ds ih =>
    have hd : d < base := hds d List.mem_cons_self
    have hd16 : d < 16 := hd.trans_le hbase
    have hvalue : (BitVec.ofNat 32 r * BitVec.ofNat 32 base + BitVec.ofNat 32 d : BitVec 32) =
        BitVec.ofNat 32 (r * base + d) := by
      rw [BitVec.ofNat_add, BitVec.ofNat_mul]
    rw [List.map_cons, List.cons_append, strtoulLoop, isxdigit_digit hd16, digitValue_digit hd16,
      Bool.true_and, if_pos (decide_eq_true hd), hvalue, horner]
    exact ih fun e he => hds e (List.mem_cons_of_mem _ he)

/-- It stops at a space, and at the end of the string. -/
theorem strtoulLoop_spaces (base : Nat) (r : BitVec 32) (k : Nat) :
    strtoulLoop base r (List.replicate k ' ') = (r, List.replicate k ' ') := by
  cases k with
  | zero => rfl
  | succ k =>
    rw [List.replicate_succ, strtoulLoop]
    exact if_neg Bool.false_ne_true

/-- Zeros, the digits of a number and spaces. -/
def numeral (zeros : Nat) (num : BitVec 32) (base : Nat) (type : Flags) (spaces : Nat) : List Char :=
  List.replicate zeros '0' ++ (tmp num base type).reverse ++ List.replicate spaces ' '

/-- **A numeral is read as the number it was printed for.** -/
theorem strtoul_numeral (hbase : 2 ≤ base) (hle : base ≤ 16) (zeros : Nat) (num : BitVec 32)
    (type : Flags) (spaces : Nat) :
    strtoulLoop base 0 (numeral zeros num base type spaces) = (num, List.replicate spaces ' ') := by
  have hdigits : List.replicate zeros '0' ++ (tmp num base type).reverse =
      (List.replicate zeros 0 ++ (tmpDigits num base).reverse).map (digit type) := by
    rw [tmp_eq, List.map_append, List.map_replicate, digit_zero, List.map_reverse]
  have hlt : ∀ d ∈ List.replicate zeros 0 ++ (tmpDigits num base).reverse, d < base := by
    intro d hd
    rcases List.mem_append.mp hd with hd | hd
    · rw [List.eq_of_mem_replicate hd]
      omega
    · exact tmpDigits_lt hbase (List.mem_reverse.mp hd)
  rw [numeral, hdigits]
  refine (strtoulLoop_digits (r := 0) hle hlt _).trans ?_
  rw [strtoulLoop_spaces, horner_zeros, horner_tmpDigits, BitVec.ofNat_toNat, BitVec.setWidth_eq]

end Parser

/-! ## The printer -/

section Printer

variable {type : Flags} {base : Nat} {size precision : Int}

theorem wrap_eq {n : Int} (hlow : -2 ^ 31 ≤ n) (hhigh : n < 2 ^ 31) : wrap n = n :=
  Int.bmod_eq_of_le (by omega) (by omega)

/-- The absolute value that is printed. -/
def magnitude (num : BitVec 32) (type : Flags) : BitVec 32 :=
  if type.sign && num.slt 0 then -num else num

/-- The padding of a number. -/
def paddingOf (num : BitVec 32) (base : Nat) (size precision : Int) (type : Flags) : Padding :=
  padding (wrap (wrap (size - (signOf num type).length) - (prefixOf base type).length)) precision
    (tmp (magnitude num type) base type).length type

/-- The character before the digits. -/
def fillChar (type : Flags) : Char := if type.zeropad && !type.left then '0' else ' '

theorem number_eq (hbase : 2 ≤ base) (hle : base ≤ 36) (num : BitVec 32) (size precision : Int)
    (type : Flags) :
    number num base size precision type =
      some (List.replicate (paddingOf num base size precision type).before ' ' ++ signOf num type ++
        prefixOf base type ++
        List.replicate (paddingOf num base size precision type).fill (fillChar type) ++
        List.replicate (paddingOf num base size precision type).zeros '0' ++
        (tmp (magnitude num type) base type).reverse ++
        List.replicate (paddingOf num base size precision type).after ' ') := by
  have hrange : (base < 2 || base > 36) = false := by
    rw [Bool.or_eq_false_iff, decide_eq_false_iff_not, decide_eq_false_iff_not]
    omega
  obtain ⟨zeropad, sign, plus, space, left, special, small⟩ := type
  unfold number
  rw [hrange]
  cases left <;> cases zeropad <;> rfl

/-- A number that is padded with zeros or on the right begins with its sign. -/
theorem number_padded (hbase : 2 ≤ base) (hle : base ≤ 36) (hpad : type.zeropad || type.left)
    (hspecial : type.special = false) (num : BitVec 32) (size precision : Int) :
    ∃ zeros spaces, number num base size precision type =
      some (signOf num type ++ numeral zeros (magnitude num type) base type spaces) := by
  have hbefore : (paddingOf num base size precision type).before = 0 := by
    simp only [paddingOf, padding, hpad, Bool.not_true, if_neg Bool.false_ne_true]
  have hfill : List.replicate (paddingOf num base size precision type).fill (fillChar type) =
      List.replicate (paddingOf num base size precision type).fill '0' := by
    cases hleft : type.left with
    | true =>
      have hnone : (paddingOf num base size precision type).fill = 0 := by
        simp only [paddingOf, padding, hleft, Bool.not_true, if_neg Bool.false_ne_true]
      rw [hnone]
      rfl
    | false =>
      rw [hleft, Bool.or_false] at hpad
      rw [fillChar, hpad, hleft]
      rfl
  have hprefix : prefixOf base type = [] := by
    rw [prefixOf, hspecial]
    rfl
  refine ⟨(paddingOf num base size precision type).fill +
    (paddingOf num base size precision type).zeros, (paddingOf num base size precision type).after, ?_⟩
  rw [number_eq hbase hle, hbefore, hfill, hprefix, numeral, ← List.replicate_append_replicate]
  simp only [List.replicate_zero, List.nil_append, List.append_nil, List.append_assoc]

/-- The loops that fill with spaces, or with zeros, fill the field together. -/
theorem padding_sum (size precision i : Int) (hi : 0 ≤ i) (hihigh : i < 2 ^ 30)
    (hlow : -2 ^ 29 ≤ size) (hhigh : size < 2 ^ 30) (hprec : precision < 2 ^ 30) (type : Flags) :
    (padding size precision i type).zeros = (max precision i - i).toNat ∧
      (padding size precision i type).before + (padding size precision i type).fill +
        (padding size precision i type).after = (size - max precision i).toNat := by
  have hmax : (if i > precision then i else precision) = max precision i := by
    rw [max_def]
    split_ifs <;> omega
  have hsize : wrap (size - max precision i) = size - max precision i :=
    wrap_eq (by omega) (by omega)
  unfold padding countdown
  simp only [hmax, hsize]
  generalize hs : size - max precision i = s
  have honce : wrap (min s 0 - 1) = min s 0 - 1 := wrap_eq (by omega) (by omega)
  have htwice : wrap (min (min s 0 - 1) 0 - 1) = min s 0 - 2 := by
    rw [min_eq_left (by omega : min s 0 - 1 ≤ 0), wrap_eq (by omega) (by omega)]
    omega
  cases hleft : type.left with
  | true =>
    simp only [Bool.or_true, Bool.not_true, if_neg Bool.false_ne_true]
    exact ⟨trivial, by omega⟩
  | false =>
    cases hzeropad : type.zeropad with
    | true =>
      simp only [Bool.or_false, Bool.not_true, if_neg Bool.false_ne_true, Bool.not_false, if_true,
        honce]
      exact ⟨trivial, by omega⟩
    | false =>
      simp only [Bool.or_false, Bool.not_false, if_true, honce, htwice]
      exact ⟨trivial, by omega⟩

theorem signOf_length (num : BitVec 32) (type : Flags) : (signOf num type).length ≤ 1 := by
  unfold signOf
  split_ifs <;> exact Nat.le_of_ble_eq_true rfl

theorem prefixOf_length (base : Nat) (type : Flags) : (prefixOf base type).length ≤ 2 := by
  unfold prefixOf
  split_ifs <;> exact Nat.le_of_ble_eq_true rfl

theorem tmp_length (hbase : 2 ≤ base) (num : BitVec 32) (type : Flags) :
    (tmp num base type).length ≤ 32 := by
  rw [tmp_eq, List.length_map]
  exact tmpDigits_length hbase

theorem tmp_length_pos (num : BitVec 32) (base : Nat) (type : Flags) :
    0 < (tmp num base type).length := by
  rw [tmp_eq, List.length_map]
  exact List.length_pos_of_ne_nil (tmpDigits_ne_nil num base)

/-- **A number fills its field**, or as much as the sign, the prefix and its digits need. -/
theorem number_length (hbase : 2 ≤ base) (hle : base ≤ 36) (num : BitVec 32) (type : Flags)
    (hlow : -1 ≤ size) (hhigh : size < 2 ^ 30) (hprec : precision < 2 ^ 30) :
    ∃ s, number num base size precision type = some s ∧
      (s.length : Int) = max size ((signOf num type).length + (prefixOf base type).length +
        max precision (tmp (magnitude num type) base type).length) := by
  have hsign := signOf_length num type
  have hprefix := prefixOf_length base type
  have hlen := tmp_length hbase (magnitude num type) type
  have hpos := tmp_length_pos (magnitude num type) base type
  have hwrap : wrap (wrap (size - (signOf num type).length) - (prefixOf base type).length) =
      size - (signOf num type).length - (prefixOf base type).length := by
    rw [wrap_eq (n := size - _) (by omega) (by omega), wrap_eq (by omega) (by omega)]
  obtain ⟨hzeros, hfill⟩ := padding_sum
    (size - (signOf num type).length - (prefixOf base type).length) precision
    (tmp (magnitude num type) base type).length (by omega) (by omega) (by omega) (by omega) hprec type
  refine ⟨_, number_eq hbase hle num size precision type, ?_⟩
  rw [paddingOf, hwrap]
  simp only [List.length_append, List.length_replicate, List.length_reverse, hzeros]
  omega

/-- Without a width and a precision there is no padding. -/
theorem number_plain (hbase : 2 ≤ base) (hle : base ≤ 36) (num : BitVec 32) (type : Flags) :
    number num base (-1) (-1) type =
      some (signOf num type ++ prefixOf base type ++ numeral 0 (magnitude num type) base type 0) := by
  have hsign := signOf_length num type
  have hprefix := prefixOf_length base type
  have hlen := tmp_length hbase (magnitude num type) type
  have hwrap : wrap (wrap (-1 - (signOf num type).length) - (prefixOf base type).length) =
      -1 - (signOf num type).length - (prefixOf base type).length := by
    rw [wrap_eq (n := -1 - _) (by omega) (by omega), wrap_eq (by omega) (by omega)]
  obtain ⟨hzeros, hfill⟩ := padding_sum
    (-1 - (signOf num type).length - (prefixOf base type).length) (-1)
    (tmp (magnitude num type) base type).length (by omega) (by omega) (by omega) (by omega)
    (by omega) type
  have hpadding : paddingOf num base (-1) (-1) type = ⟨0, 0, 0, 0⟩ := by
    rw [paddingOf, hwrap]
    ext <;> simp only [] <;> omega
  rw [number_eq hbase hle, hpadding, numeral]
  simp only [List.replicate_zero, List.nil_append, List.append_nil, List.append_assoc]

theorem dispatch_number (o : Output) {p : Spec} {c : Char} {fmt : List Char} {v : BitVec 32}
    {args : List Arg} {fieldWidth : Int} (hfmt : p.fmt = c :: fmt) (hargs : p.args = .num v :: args)
    (hcase : numberCase c p = some (base, fieldWidth, type)) :
    dispatch o p =
      (number v base fieldWidth p.precision type).map fun s => (o.put s, fmt, args) := by
  rw [dispatch, hfmt]
  simp only [hcase, hargs]

/-- A format that is one conversion of a number, without a width and a precision. -/
theorem vsprintf_number (c : Char) (fmt : List Char) (flags type : Flags) (n : BitVec 32)
    (hbase : 2 ≤ base) (hle : base ≤ 36)
    (hspec : parseSpec fmt [.num n] = some { flags := flags, fmt := [c], args := [.num n] })
    (hcase : numberCase c { flags := flags, fmt := [c], args := [.num n] } =
      some (base, -1, type)) :
    vsprintf ('%' :: fmt) [.num n] =
      some ({ str := signOf n type ++ prefixOf base type ++ (tmp (magnitude n type) base type).reverse },
        wrap (signOf n type ++ prefixOf base type ++
          (tmp (magnitude n type) base type).reverse).length) := by
  have hnumber : number n base (-1) (-1) type = some (signOf n type ++ prefixOf base type ++
      (tmp (magnitude n type) base type).reverse) := by
    rw [number_plain hbase hle, numeral, List.replicate_zero, List.nil_append, List.replicate_zero,
      List.append_nil]
  rw [vsprintf, loop_conversion, convert, hspec, Option.bind_some, dispatch_number _ rfl rfl hcase,
    hnumber]
  simp only [Option.map_some, Option.bind_some, loop_nil, Output.put, List.nil_append]

end Printer

/-! ## Printing and reading -/

section RoundTrip

variable {type : Flags} {base : Nat}

/-- The digits begin with one that is not zero, but for zero itself. -/
theorem tmp_reverse (num : BitVec 32) (hbase : 2 ≤ base) (type : Flags) :
    ∃ d ds, d < base ∧ (d = 0 → num = 0 ∧ ds = []) ∧
      (tmp num base type).reverse = digit type d :: ds := by
  have hne : (tmpDigits num base).reverse ≠ [] := by
    rw [Ne, List.reverse_eq_nil_iff]
    exact tmpDigits_ne_nil num base
  obtain ⟨d, ds, hds⟩ := List.exists_cons_of_ne_nil hne
  refine ⟨d, ds.map (digit type), ?_, ?_, ?_⟩
  · have hmem : d ∈ tmpDigits num base := by
      rw [← List.mem_reverse, hds]
      exact List.mem_cons_self
    exact tmpDigits_lt hbase hmem
  · intro hd
    by_cases hnum : num = 0
    · rw [tmpDigits, if_pos hnum, List.reverse_singleton] at hds
      cases hds
      exact ⟨hnum, rfl⟩
    · have hnat : num.toNat ≠ 0 := fun h0 => hnum (BitVec.eq_of_toNat_eq h0)
      rw [tmpDigits, if_neg hnum] at hne hds
      have hhead := head_digit_ne_zero hnat hne
      simp only [hds, List.head_cons] at hhead
      exact absurd hd hhead
  · rw [tmp_eq, ← List.map_reverse, hds, List.map_cons]

theorem strtoul_digits (hbase : 2 ≤ base) (hle : base ≤ 16) (num : BitVec 32) (type : Flags) :
    strtoulLoop base 0 (tmp num base type).reverse = (num, []) := by
  have hread := strtoul_numeral hbase hle 0 num type 0
  rwa [numeral, List.replicate_zero, List.nil_append, List.replicate_zero, List.append_nil] at hread

theorem digit_ne {d : Nat} {c : Char} (hd : d < 16) (hc : isxdigit c = false) : digit type d ≠ c := by
  intro heq
  rw [← heq, isxdigit_digit hd] at hc
  exact absurd hc Bool.true_eq_false.mp

theorem digit_ne_zero {d : Nat} (hd : d < 16) (hne : d ≠ 0) : digit type d ≠ '0' := by
  intro heq
  have hvalue : digitValue (digit type d) = d := digitValue_digit hd
  rw [heq] at hvalue
  exact hne hvalue.symm

/-- A numeral without a prefix is read as a decimal one. -/
theorem detect_decimal (num : BitVec 32) (type : Flags) :
    simpleStrtoul (tmp num 10 type).reverse 0 = (num, []) := by
  obtain ⟨d, ds, hd, hzero, htmp⟩ := tmp_reverse num (by decide : 2 ≤ 10) type
  rw [simpleStrtoul, if_pos rfl]
  by_cases h0 : d = 0
  · obtain ⟨rfl, rfl⟩ := hzero h0
    rw [htmp, h0, digit_zero]
    rfl
  · have hdetect : detectBase (tmp num 10 type).reverse = (10, (tmp num 10 type).reverse) := by
      rw [htmp, detectBase]
      · intro c cp heq
        exact digit_ne_zero (hd.trans (by decide)) h0 (List.cons.inj heq).1
      · intro cp heq
        exact digit_ne_zero (hd.trans (by decide)) h0 (List.cons.inj heq).1
    rw [hdetect]
    exact strtoul_digits (by decide) (by decide) num type

/-- One with the prefix of `%#o` as an octal one. -/
theorem detect_octal (num : BitVec 32) (type : Flags) :
    simpleStrtoul ('0' :: (tmp num 8 type).reverse) 0 = (num, []) := by
  obtain ⟨d, ds, hd, -, htmp⟩ := tmp_reverse num (by decide : 2 ≤ 8) type
  have hdetect : detectBase ('0' :: (tmp num 8 type).reverse) = (8, (tmp num 8 type).reverse) := by
    rw [htmp, detectBase]
    intro c cp heq
    exact digit_ne (hd.trans (by decide)) rfl (List.cons.inj heq).1
  rw [simpleStrtoul, if_pos rfl, hdetect]
  exact strtoul_digits (by decide) (by decide) num type

/-- One with the prefix of `%#x` as a hexadecimal one. -/
theorem detect_hexadecimal (num : BitVec 32) (type : Flags) :
    simpleStrtoul ('0' :: 'x' :: (tmp num 16 type).reverse) 0 = (num, []) := by
  obtain ⟨d, ds, hd, -, htmp⟩ := tmp_reverse num (by decide : 2 ≤ 16) type
  have hdetect : detectBase ('0' :: 'x' :: (tmp num 16 type).reverse) =
      (16, (tmp num 16 type).reverse) := by
    rw [htmp, detectBase, if_pos (isxdigit_digit hd)]
  rw [simpleStrtoul, if_pos rfl, hdetect]
  exact strtoul_digits (by decide) (le_refl 16) num type

/-- What is printed for `n` is read back as `n`. -/
structure ReadBack (n : BitVec 32) : Prop where
  /-- Without a sign and a prefix, padded with zeros or on the right: the parser stops behind the
  digits. -/
  padded : ∀ base ∈ [8, 10, 16], ∀ (size precision : Int) (type : Flags),
    type.sign = false → type.plus = false → type.space = false → type.special = false →
    (type.zeropad || type.left) = true →
    ∃ ds spaces, number n base size precision type = some (ds ++ List.replicate spaces ' ') ∧
      (∀ c ∈ ds, isxdigit c = true) ∧
      simpleStrtoul (ds ++ List.replicate spaces ' ') base = (n, List.replicate spaces ' ')
  /-- Without padding, and with the base found by the parser. -/
  plain : ∀ fmt ∈ [['%', 'u'], ['%', '#', 'o'], ['%', '#', 'x']],
    ∃ s, vsprintf fmt [.num n] = some ({ str := s }, s.length) ∧ simpleStrtoul s 0 = (n, [])
  /-- With a sign. -/
  signed : ∃ sign ds, vsprintf ['%', 'd'] [.num n] = some ({ str := sign ++ ds }, (sign ++ ds).length) ∧
    (∀ c ∈ ds, isxdigit c = true) ∧ (simpleStrtoul ds 10).2 = [] ∧
    (sign = ['-'] ∧ n.toInt < 0 ∧ -(simpleStrtoul ds 10).1 = n ∨
      sign = [] ∧ 0 ≤ n.toInt ∧ (simpleStrtoul ds 10).1 = n)

theorem isxdigit_tmp {num : BitVec 32} {c : Char} (hbase : 2 ≤ base) (hle : base ≤ 16)
    (hc : c ∈ (tmp num base type).reverse) : isxdigit c = true := by
  rw [List.mem_reverse, tmp_eq] at hc
  obtain ⟨d, hd, rfl⟩ := List.mem_map.mp hc
  exact isxdigit_digit ((tmpDigits_lt hbase hd).trans_le hle)

/-- What is returned for a string of a few characters. -/
theorem wrap_length {s : List Char} (h : s.length ≤ 64) : wrap s.length = s.length :=
  wrap_eq (by omega) (by omega)

theorem readBack_padded (n : BitVec 32) (hbase : 2 ≤ base) (hle : base ≤ 16)
    (hsign : type.sign = false) (hplus : type.plus = false) (hspace : type.space = false)
    (hspecial : type.special = false) (hpad : (type.zeropad || type.left) = true)
    (size precision : Int) :
    ∃ ds spaces, number n base size precision type = some (ds ++ List.replicate spaces ' ') ∧
      (∀ c ∈ ds, isxdigit c = true) ∧
      simpleStrtoul (ds ++ List.replicate spaces ' ') base = (n, List.replicate spaces ' ') := by
  obtain ⟨zeros, spaces, hnumber⟩ :=
    number_padded hbase (hle.trans (by decide)) hpad hspecial n size precision
  have hnosign : signOf n type = [] := by
    rw [signOf, hsign, hplus, hspace]
    rfl
  have hmagnitude : magnitude n type = n := by
    rw [magnitude, hsign]
    rfl
  rw [hnosign, hmagnitude, List.nil_append] at hnumber
  refine ⟨List.replicate zeros '0' ++ (tmp n base type).reverse, spaces, hnumber, ?_, ?_⟩
  · intro c hc
    rcases List.mem_append.mp hc with hc | hc
    · rw [List.eq_of_mem_replicate hc]
      rfl
    · exact isxdigit_tmp hbase hle hc
  · rw [simpleStrtoul, if_neg (by omega)]
    exact strtoul_numeral hbase hle zeros n type spaces

theorem readBack_plain (n : BitVec 32) {fmt : List Char}
    (hfmt : fmt ∈ [['%', 'u'], ['%', '#', 'o'], ['%', '#', 'x']]) :
    ∃ s, vsprintf fmt [.num n] = some ({ str := s }, s.length) ∧ simpleStrtoul s 0 = (n, []) := by
  have hlen : ∀ {base : Nat} {type : Flags} (pre : List Char), 2 ≤ base → pre.length ≤ 2 →
      (pre ++ (tmp n base type).reverse).length ≤ 64 := by
    intro base type pre hbase hpre
    have htmp := tmp_length hbase n type
    rw [List.length_append, List.length_reverse]
    omega
  simp only [List.mem_cons, List.not_mem_nil, or_false] at hfmt
  rcases hfmt with rfl | rfl | rfl
  · refine ⟨[] ++ (tmp n 10 {}).reverse, ?_, detect_decimal n {}⟩
    rw [← wrap_length (hlen [] (by decide) (by decide))]
    exact vsprintf_number 'u' ['u'] {} {} n (by decide) (by decide) rfl rfl
  · refine ⟨['0'] ++ (tmp n 8 { special := true }).reverse, ?_, detect_octal n { special := true }⟩
    rw [← wrap_length (hlen ['0'] (by decide) (by decide))]
    exact vsprintf_number 'o' ['#', 'o'] { special := true } { special := true } n
      (by decide) (by decide) rfl rfl
  · refine ⟨['0', 'x'] ++ (tmp n 16 { special := true, small := true }).reverse, ?_,
      detect_hexadecimal n { special := true, small := true }⟩
    rw [← wrap_length (hlen ['0', 'x'] (by decide) (by decide))]
    exact vsprintf_number 'x' ['#', 'x'] { special := true } { special := true, small := true } n
      (by decide) (by decide) rfl rfl

theorem readBack_signed (n : BitVec 32) :
    ∃ sign ds, vsprintf ['%', 'd'] [.num n] =
        some ({ str := sign ++ ds }, (sign ++ ds).length) ∧
      (∀ c ∈ ds, isxdigit c = true) ∧ (simpleStrtoul ds 10).2 = [] ∧
      (sign = ['-'] ∧ n.toInt < 0 ∧ -(simpleStrtoul ds 10).1 = n ∨
        sign = [] ∧ 0 ≤ n.toInt ∧ (simpleStrtoul ds 10).1 = n) := by
  have hvsprintf := vsprintf_number 'd' ['d'] {} { sign := true } n (by decide : 2 ≤ 10) (by decide)
    rfl rfl
  have hread : simpleStrtoul (tmp (magnitude n { sign := true }) 10 { sign := true }).reverse 10 =
      (magnitude n { sign := true }, []) := strtoul_digits (by decide) (by decide) _ _
  have hlen : (signOf n { sign := true } ++ (tmp (magnitude n { sign := true }) 10
      { sign := true }).reverse).length ≤ 64 := by
    have hsign := signOf_length n { sign := true }
    have htmp := tmp_length (by decide : 2 ≤ 10) (magnitude n { sign := true }) { sign := true }
    rw [List.length_append, List.length_reverse]
    omega
  rw [prefixOf, if_neg (by decide), List.append_nil, wrap_length hlen] at hvsprintf
  refine ⟨_, _, hvsprintf, fun c hc => isxdigit_tmp (by decide) (by decide) hc, ?_, ?_⟩
  · rw [hread]
  · rw [hread]
    by_cases hneg : n.toInt < 0
    · have hslt : n.slt 0 = true := decide_eq_true hneg
      refine .inl ⟨?_, hneg, ?_⟩
      · rw [signOf, hslt]
        rfl
      · rw [magnitude, hslt]
        exact BitVec.neg_neg
    · have hslt : n.slt 0 = false := decide_eq_false hneg
      refine .inr ⟨?_, not_lt.mp hneg, ?_⟩
      · rw [signOf, hslt]
        rfl
      · rw [magnitude, hslt]
        rfl

/-- **Numbers are printed and read back** without a change. -/
theorem number_strtoul (n : BitVec 32) : ReadBack n where
  padded := by
    intro base hbase size precision type hsign hplus hspace hspecial hpad
    have hrange : 2 ≤ base ∧ base ≤ 16 := by
      simp only [List.mem_cons, List.not_mem_nil, or_false] at hbase
      omega
    exact readBack_padded n hrange.1 hrange.2 hsign hplus hspace hspecial hpad size precision
  plain := fun fmt hfmt => readBack_plain n hfmt
  signed := readBack_signed n

end RoundTrip

end LinuxEvocation.Vsprintf
