import Mathlib.Data.Nat.Digits.Defs

/-!
# Formatted output

The functions of `vsprintf.c`.  A C string is a list of characters without its end, a pointer into a
string is the rest of the list, and an `int` is an integer that is wrapped after each operation.

* `simpleStrtoul` — reads a numeral.
* `number` — prints a number.
* `vsprintf` — the loop over the format; `none` is a call without the argument that the format asks for.
-/

namespace LinuxEvocation.Vsprintf

/-! ## Characters -/

/-- `isdigit`, as in the table `_ctype`. -/
def isdigit (c : Char) : Bool := '0' ≤ c && c ≤ '9'

/-- `islower`. -/
def islower (c : Char) : Bool := 'a' ≤ c && c ≤ 'z'

/-- `isxdigit`. -/
def isxdigit (c : Char) : Bool := isdigit c || ('A' ≤ c && c ≤ 'F') || ('a' ≤ c && c ≤ 'f')

/-- `toupper`. -/
def toupper (c : Char) : Char := if islower c then Char.ofNat (c.toNat - ('a'.toNat - 'A'.toNat)) else c

/-! ## Reading a number -/

/-- The value of a hexadecimal digit. -/
def digitValue (c : Char) : Nat :=
  if isdigit c then c.toNat - '0'.toNat
  else (if islower c then toupper c else c).toNat - 'A'.toNat + 10

/-- The loop of `simple_strtoul`; the rest of the string is where it stops. -/
def strtoulLoop (base : Nat) (result : BitVec 32) : List Char → BitVec 32 × List Char
  | [] => (result, [])
  | c :: cp =>
    if isxdigit c && digitValue c < base then
      strtoulLoop base (result * BitVec.ofNat 32 base + BitVec.ofNat 32 (digitValue c)) cp
    else (result, c :: cp)

/-- The base that a prefix asks for, and the numeral behind the prefix. -/
def detectBase : List Char → Nat × List Char
  | '0' :: 'x' :: c :: cp => if isxdigit c then (16, c :: cp) else (8, 'x' :: c :: cp)
  | '0' :: cp => (8, cp)
  | cp => (10, cp)

/-- `simple_strtoul`. -/
def simpleStrtoul (cp : List Char) (base : Nat) : BitVec 32 × List Char :=
  let (base, cp) := if base = 0 then detectBase cp else (base, cp)
  strtoulLoop base 0 cp

/-! ## Printing a number -/

/-- The flags of `number`. -/
structure Flags where
  zeropad : Bool := false
  sign : Bool := false
  plus : Bool := false
  space : Bool := false
  left : Bool := false
  special : Bool := false
  small : Bool := false

/-- The value of an `int` after an operation. -/
def wrap (n : Int) : Int := n.bmod (2 ^ 32)

/-- The loop `while (bound < size--)`: how often it turns, and what it leaves in `size`. -/
def countdown (bound size : Int) : Nat × Int := ((size - bound).toNat, wrap (min size bound - 1))

/-- The table `digits`. -/
def digits (type : Flags) : List Char :=
  if type.small then "0123456789abcdefghijklmnopqrstuvwxyz".toList
  else "0123456789ABCDEFGHIJKLMNOPQRSTUVWXYZ".toList

/-- `digits[i]`. -/
def digit (type : Flags) (i : Nat) : Char := (digits type).getD i '0'

/-- The array `tmp`, which has the last digit first.  `do_div` divides without a sign. -/
def tmp (num : BitVec 32) (base : Nat) (type : Flags) : List Char :=
  if num = 0 then ['0'] else (Nat.digits base num.toNat).map (digit type)

/-- The character of the sign, if one is printed. -/
def signOf (num : BitVec 32) (type : Flags) : List Char :=
  if type.sign && num.slt 0 then ['-']
  else if type.plus then ['+']
  else if type.space then [' ']
  else []

/-- The prefix of the alternate form. -/
def prefixOf (base : Nat) (type : Flags) : List Char :=
  if type.special then
    if base = 8 then ['0']
    else if base = 16 then ['0', digit type 33]
    else []
  else []

/-- How much is filled before the sign, before the digits and behind them. -/
@[ext] structure Padding where
  before : Nat
  fill : Nat
  zeros : Nat
  after : Nat

/-- The loops that fill, where `size` is what the sign and the prefix leave of the width and `i` is the
number of digits. -/
def padding (size precision i : Int) (type : Flags) : Padding :=
  let precision := if i > precision then i else precision
  let size := wrap (size - precision)
  let (before, size) := if !(type.zeropad || type.left) then countdown 0 size else (0, size)
  let (fill, size) := if !type.left then countdown 0 size else (0, size)
  let (zeros, _) := countdown i precision
  let (after, _) := countdown 0 size
  ⟨before, fill, zeros, after⟩

/-- `number`: the characters that are written, `none` where it returns `NULL`. -/
def number (num : BitVec 32) (base : Nat) (size precision : Int) (type : Flags) :
    Option (List Char) :=
  let type := if type.left then { type with zeropad := false } else type
  if base < 2 || base > 36 then none
  else
    let c := if type.zeropad then '0' else ' '
    let sign := signOf num type
    let num := if type.sign && num.slt 0 then -num else num
    let size := wrap (size - sign.length)
    let size := wrap (size - (prefixOf base type).length)
    let tmp := tmp num base type
    let p := padding size precision tmp.length type
    some (List.replicate p.before ' ' ++ sign ++ prefixOf base type ++ List.replicate p.fill c ++
      List.replicate p.zeros '0' ++ tmp.reverse ++ List.replicate p.after ' ')

/-! ## The format -/

/-- An argument: a number of 32 bits, a string, or the address that `%n` asks for. -/
inductive Arg where
  | num (v : BitVec 32)
  | str (s : List Char)
  | loc (ip : Nat)

/-- What has been written: the characters from `buf` on, and what `%n` has stored. -/
structure Output where
  str : List Char := []
  stored : List (Nat × Int) := []

/-- Characters are added. -/
def Output.put (o : Output) (s : List Char) : Output := { o with str := o.str ++ s }

/-- `skip_atoi`. -/
def skipAtoi (i : BitVec 32) : List Char → BitVec 32 × List Char
  | [] => (i, [])
  | c :: s =>
    if isdigit c then skipAtoi (i * 10 + BitVec.ofNat 32 (c.toNat - '0'.toNat)) s else (i, c :: s)

/-- The loop `repeat`. -/
def skipFlags (flags : Flags) : List Char → Flags × List Char
  | '-' :: fmt => skipFlags { flags with left := true } fmt
  | '+' :: fmt => skipFlags { flags with plus := true } fmt
  | ' ' :: fmt => skipFlags { flags with space := true } fmt
  | '#' :: fmt => skipFlags { flags with special := true } fmt
  | '0' :: fmt => skipFlags { flags with zeropad := true } fmt
  | fmt => (flags, fmt)

/-- What has been parsed of a conversion, with what is left of the format and of the arguments. -/
structure Spec where
  flags : Flags
  fieldWidth : Int := -1
  precision : Int := -1
  fmt : List Char
  args : List Arg

/-- The field width.  The pointer to the format is not moved past a `*`. -/
def getFieldWidth (p : Spec) : Option Spec :=
  match p.fmt with
  | [] => some p
  | c :: _ =>
    if isdigit c then
      let (w, fmt) := skipAtoi 0 p.fmt
      some { p with fieldWidth := w.toInt, fmt := fmt }
    else if c = '*' then
      match p.args with
      | .num w :: args =>
        if w.toInt < 0 then
          some { p with fieldWidth := wrap (-w.toInt), flags := { p.flags with left := true },
                        args := args }
        else some { p with fieldWidth := w.toInt, args := args }
      | _ => none
    else some p

/-- The number behind the `.` of a precision. -/
def precisionValue (p : Spec) : Option Spec :=
  match p.fmt with
  | [] => some p
  | c :: _ =>
    if isdigit c then
      let (w, fmt) := skipAtoi 0 p.fmt
      some { p with precision := w.toInt, fmt := fmt }
    else if c = '*' then
      match p.args with
      | .num w :: args => some { p with precision := w.toInt, args := args }
      | _ => none
    else some p

/-- The precision. -/
def getPrecision (p : Spec) : Option Spec :=
  match p.fmt with
  | '.' :: fmt =>
    (precisionValue { p with fmt := fmt }).map fun p =>
      if p.precision < 0 then { p with precision := 0 } else p
  | _ => some p

/-- The qualifier, which is not used. -/
def skipQualifier (p : Spec) : Spec :=
  match p.fmt with
  | 'h' :: fmt => { p with fmt := fmt }
  | 'l' :: fmt => { p with fmt := fmt }
  | 'L' :: fmt => { p with fmt := fmt }
  | _ => p

/-- `%c`, with the loops `while (--field_width > 0)`. -/
def putChar (v : BitVec 32) (fieldWidth : Int) (flags : Flags) : List Char :=
  let (before, fieldWidth) :=
    if !flags.left then ((wrap (fieldWidth - 1)).toNat, min (wrap (fieldWidth - 1)) 0)
    else (0, fieldWidth)
  List.replicate before ' ' ++ [Char.ofNat (v.toNat % 256)] ++
    List.replicate (wrap (fieldWidth - 1)).toNat ' '

/-- `%s`. -/
def putString (s : List Char) (fieldWidth precision : Int) (flags : Flags) : List Char :=
  let len := wrap s.length
  let len := if precision < 0 then len else if len > precision then precision else len
  let (before, fieldWidth) := if !flags.left then countdown len fieldWidth else (0, fieldWidth)
  let (after, _) := countdown len fieldWidth
  List.replicate before ' ' ++ s.take len.toNat ++ List.replicate after ' '

/-- The base that a letter stands for, the field width and the flags. -/
def numberCase (c : Char) (p : Spec) : Option (Nat × Int × Flags) :=
  if c = 'o' then some (8, p.fieldWidth, p.flags)
  else if c = 'p' then
    if p.fieldWidth = -1 then some (16, 8, { p.flags with zeropad := true })
    else some (16, p.fieldWidth, p.flags)
  else if c = 'x' then some (16, p.fieldWidth, { p.flags with small := true })
  else if c = 'X' then some (16, p.fieldWidth, p.flags)
  else if c = 'd' || c = 'i' then some (10, p.fieldWidth, { p.flags with sign := true })
  else if c = 'u' then some (10, p.fieldWidth, p.flags)
  else none

/-- The `switch` over the letter of a conversion. -/
def dispatch (o : Output) (p : Spec) : Option (Output × List Char × List Arg) :=
  match p.fmt with
  | [] => some (o.put ['%'], [], p.args)
  | c :: fmt =>
    match numberCase c p with
    | some (base, fieldWidth, flags) =>
      match p.args with
      | .num v :: args => (number v base fieldWidth p.precision flags).map fun s => (o.put s, fmt, args)
      | _ => none
    | none =>
      if c = 'c' then
        match p.args with
        | .num v :: args => some (o.put (putChar v p.fieldWidth p.flags), fmt, args)
        | _ => none
      else if c = 's' then
        match p.args with
        | .str s :: args => some (o.put (putString s p.fieldWidth p.precision p.flags), fmt, args)
        | _ => none
      else if c = 'n' then
        match p.args with
        | .loc ip :: args =>
          some ({ o with stored := (ip, wrap o.str.length) :: o.stored }, fmt, args)
        | _ => none
      else if c = '%' then some (o.put ['%'], fmt, p.args)
      else some (o.put ['%', c], fmt, p.args)

/-- The format behind a `%`. -/
def parseSpec (fmt : List Char) (args : List Arg) : Option Spec :=
  let (flags, fmt) := skipFlags {} fmt
  ((getFieldWidth { flags := flags, fmt := fmt, args := args }).bind getPrecision).map skipQualifier

/-- One conversion. -/
def convert (o : Output) (fmt : List Char) (args : List Arg) :
    Option (Output × List Char × List Arg) :=
  (parseSpec fmt args).bind (dispatch o)

/-! ## The loop over the format -/

section Shorter

variable {o o' : Output} {p p' : Spec} {fmt fmt' : List Char} {args args' : List Arg}

theorem skipAtoi_length (i : BitVec 32) (s : List Char) : (skipAtoi i s).2.length ≤ s.length := by
  induction s generalizing i with
  | nil => exact le_refl _
  | cons c s ih =>
    rw [skipAtoi]
    split
    · exact (ih _).trans (Nat.le_succ _)
    · exact le_refl _

theorem skipFlags_length (flags : Flags) (fmt : List Char) :
    (skipFlags flags fmt).2.length ≤ fmt.length := by
  fun_induction skipFlags flags fmt with
  | case1 flags fmt ih | case2 flags fmt ih | case3 flags fmt ih | case4 flags fmt ih
  | case5 flags fmt ih =>
    exact ih.trans (Nat.le_succ _)
  | case6 => exact le_refl _

theorem getFieldWidth_length (h : getFieldWidth p = some p') : p'.fmt.length ≤ p.fmt.length := by
  have hatoi := skipAtoi_length 0 p.fmt
  unfold getFieldWidth at h
  split at h
  · cases h
    exact le_refl _
  · split_ifs at h
    · cases h
      exact hatoi
    · split at h
      · split at h <;> cases h <;> exact le_refl _
      · cases h
    · cases h
      exact le_refl _

theorem precisionValue_length (h : precisionValue p = some p') : p'.fmt.length ≤ p.fmt.length := by
  have hatoi := skipAtoi_length 0 p.fmt
  unfold precisionValue at h
  split at h
  · cases h
    exact le_refl _
  · split_ifs at h
    · cases h
      exact hatoi
    · split at h <;> cases h
      exact le_refl _
    · cases h
      exact le_refl _

theorem getPrecision_length (h : getPrecision p = some p') : p'.fmt.length ≤ p.fmt.length := by
  unfold getPrecision at h
  split at h
  next fmt hfmt =>
    obtain ⟨q, hq, rfl⟩ := Option.map_eq_some_iff.mp h
    have hle : q.fmt.length ≤ p.fmt.length := by
      rw [hfmt]
      exact (precisionValue_length hq).trans (Nat.le_succ _)
    split <;> exact hle
  next => cases h; exact le_refl _

theorem skipQualifier_length (p : Spec) : (skipQualifier p).fmt.length ≤ p.fmt.length := by
  unfold skipQualifier
  split
  next h => rw [h]; exact Nat.le_succ _
  next h => rw [h]; exact Nat.le_succ _
  next h => rw [h]; exact Nat.le_succ _
  next => exact le_refl _

theorem parseSpec_length (h : parseSpec fmt args = some p) : p.fmt.length ≤ fmt.length := by
  obtain ⟨q, hq, rfl⟩ := Option.map_eq_some_iff.mp h
  obtain ⟨w, hw, hq⟩ := Option.bind_eq_some_iff.mp hq
  calc (skipQualifier q).fmt.length ≤ q.fmt.length := skipQualifier_length q
    _ ≤ w.fmt.length := getPrecision_length hq
    _ ≤ (skipFlags {} fmt).2.length := getFieldWidth_length hw
    _ ≤ fmt.length := skipFlags_length {} fmt

theorem dispatch_length (h : dispatch o p = some (o', fmt', args')) :
    fmt'.length ≤ p.fmt.length := by
  unfold dispatch at h
  split at h
  · cases h
    exact Nat.zero_le _
  next c fmt hfmt =>
    rw [hfmt]
    have hle : fmt.length ≤ (c :: fmt).length := Nat.le_succ _
    split at h
    · split at h
      · obtain ⟨s, -, hs⟩ := Option.map_eq_some_iff.mp h
        cases hs
        exact hle
      · cases h
    · split_ifs at h
      · split at h <;> cases h
        exact hle
      · split at h <;> cases h
        exact hle
      · split at h <;> cases h
        exact hle
      · cases h
        exact hle
      · cases h
        exact hle

/-- A conversion never goes back in the format. -/
theorem convert_length (h : convert o fmt args = some (o', fmt', args')) :
    fmt'.length ≤ fmt.length := by
  obtain ⟨p, hp, h⟩ := Option.bind_eq_some_iff.mp h
  exact (dispatch_length h).trans (parseSpec_length hp)

end Shorter

/-- The loop of `vsprintf`. -/
def loop (o : Output) : List Char → List Arg → Option Output
  | [], _ => some o
  | c :: fmt, args =>
    if c ≠ '%' then loop (o.put [c]) fmt args
    else
      match h : convert o fmt args with
      | none => none
      | some (o', fmt', args') => loop o' fmt' args'
termination_by fmt => fmt.length
decreasing_by
  · exact Nat.lt_succ_self _
  · exact Nat.lt_succ_of_le (convert_length h)

/-- `vsprintf`: what is written, and what is returned. -/
def vsprintf (fmt : List Char) (args : List Arg) : Option (Output × Int) :=
  (loop {} fmt args).map fun o => (o, wrap o.str.length)

theorem loop_nil (o : Output) (args : List Arg) : loop o [] args = some o := by
  rw [loop]

theorem loop_literal (o : Output) {c : Char} (hc : c ≠ '%') (fmt : List Char) (args : List Arg) :
    loop o (c :: fmt) args = loop (o.put [c]) fmt args := by
  rw [loop, if_pos hc]

theorem loop_conversion (o : Output) (fmt : List Char) (args : List Arg) :
    loop o ('%' :: fmt) args =
      (convert o fmt args).bind fun r => loop r.1 r.2.1 r.2.2 := by
  rw [loop, if_neg (not_not.mpr rfl)]
  split
  next h => rw [h]; rfl
  next h => rw [h]; rfl

end LinuxEvocation.Vsprintf
