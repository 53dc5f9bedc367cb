import LinuxEvocation.Kernel.Vsprintf.Numbers

/-!
# The formats

A format is a list of literal characters and of conversions.  A conversion has flags, a width and a
precision that are left out, written as a numeral or taken from an argument, and a letter.

* `Piece`, `Piece.text` — the pieces of a format, and what they look like.
* `Piece.Matches` — the arguments that a piece takes.
* `Piece.substitute` — a piece with each `*` replaced by the numeral of its argument.
* `Piece.written` — how many characters a piece is to write.
* `Piece.Cuts` — a string is cut, since its precision is too large for an `int`.
-/

namespace LinuxEvocation.Vsprintf

open Numeral

/-! ## Pieces -/

/-- The value of a string of decimal digits. -/
def valueOf (ds : List Char) : Nat := horner 10 0 (ds.map fun c => c.toNat - '0'.toNat)

/-- A numeral. -/
structure Literal where
  ds : List Char
  areDigits : ∀ c ∈ ds, isdigit c = true

/-- The `int` that `skip_atoi` makes of it. -/
def Literal.read (n : Literal) : Int := (BitVec.ofNat 32 (valueOf n.ds)).toInt

/-- A width or a precision: left out, a numeral, or the next argument. -/
inductive Field where
  | absent
  | literal (n : Literal)
  | star

/-- A width does not begin with a zero, which would be a flag. -/
def Field.IsWidth : Field → Prop
  | .literal n => ∃ d ds, n.ds = d :: ds ∧ d ≠ '0'
  | _ => True

/-- A flag of a conversion. -/
inductive Flag where
  | left | plus | space | special | zeropad

/-- The letter that ends a conversion. -/
inductive Letter where
  | d | i | u | o | x | X | c | s | p | percent

/-- A conversion. -/
structure Conversion where
  flags : List Flag
  width : Field
  precision : Field
  letter : Letter
  isWidth : width.IsWidth

/-- A piece of a format. -/
inductive Piece where
  | literal (c : Char) (hc : c ≠ '%')
  | conversion (v : Conversion)

/-- The character of a flag. -/
def Flag.char : Flag → Char
  | .left => '-'
  | .plus => '+'
  | .space => ' '
  | .special => '#'
  | .zeropad => '0'

/-- The character of a letter. -/
def Letter.char : Letter → Char
  | .d => 'd'
  | .i => 'i'
  | .u => 'u'
  | .o => 'o'
  | .x => 'x'
  | .X => 'X'
  | .c => 'c'
  | .s => 's'
  | .p => 'p'
  | .percent => '%'

/-- A width in the format. -/
def Field.text : Field → List Char
  | .absent => []
  | .literal n => n.ds
  | .star => ['*']

/-- A precision in the format. -/
def Field.dotText : Field → List Char
  | .absent => []
  | .literal n => '.' :: n.ds
  | .star => ['.', '*']

/-- A conversion in the format, behind the `%`. -/
def Conversion.text (v : Conversion) : List Char :=
  v.flags.map Flag.char ++ (v.width.text ++ (v.precision.dotText ++ [v.letter.char]))

/-- A piece in the format. -/
def Piece.text : Piece → List Char
  | .literal c _ => [c]
  | .conversion v => '%' :: v.text

/-- A piece takes an argument for its width or its precision. -/
def Piece.HasStar : Piece → Prop
  | .literal _ _ => False
  | .conversion v => v.width = .star ∨ v.precision = .star

/-! ## Arguments -/

/-- No object is larger than the memory of the kernel, which is behind `0xC0000000`. -/
def memory : Nat := 2 ^ 30

/-- What an argument is for. -/
inductive Kind where
  | number
  | string

/-- An argument of a kind. -/
def Kind.Fits : Kind → Arg → Prop
  | .number, a => ∃ v, a = .num v
  | .string, a => ∃ s, a = .str s ∧ s.length < memory

/-- The argument for a width or a precision. -/
def Field.kinds : Field → List Kind
  | .star => [.number]
  | _ => []

/-- The argument for a letter. -/
def Letter.kinds : Letter → List Kind
  | .percent => []
  | .s => [.string]
  | _ => [.number]

/-- The arguments for a piece. -/
def Piece.kinds : Piece → List Kind
  | .literal _ _ => []
  | .conversion v => v.width.kinds ++ v.precision.kinds ++ v.letter.kinds

/-- The arguments that a piece takes. -/
def Piece.Matches (p : Piece) (args : List Arg) : Prop := List.Forall₂ Kind.Fits p.kinds args

/-! ## What a format means -/

/-- The flags of `number` that a flag and a letter stand for. -/
def Flag.set (type : Flags) : Flag → Flags
  | .left => { type with left := true }
  | .plus => { type with plus := true }
  | .space => { type with space := true }
  | .special => { type with special := true }
  | .zeropad => { type with zeropad := true }

/-- The flags of a conversion. -/
def flagsOf (flags : List Flag) : Flags := flags.foldl Flag.set {}

/-- The base of a letter, and its flags, for the conversions of numbers. -/
def Letter.number : Letter → Flags → Option (Nat × Flags)
  | .d, type => some (10, { type with sign := true })
  | .i, type => some (10, { type with sign := true })
  | .u, type => some (10, type)
  | .o, type => some (8, type)
  | .x, type => some (16, { type with small := true })
  | .X, type => some (16, type)
  | .p, type => some (16, type)
  | _, _ => none

/-- The decimal numeral of a number without a sign. -/
def decimal (v : BitVec 32) : List Char := (tmp v 10 {}).reverse

/-- A width with its argument in place of the `*`: a negative one is the flag `-` and its absolute
value. -/
def Field.substitute (f : Field) (args : List Arg) : List Char × List Arg :=
  match f, args with
  | .star, .num v :: args =>
    ((if v.toInt < 0 then ['-'] else []) ++ decimal (magnitude v { sign := true }), args)
  | f, args => (f.text, args)

/-- A precision with its argument in place of the `*`: a negative one is 0. -/
def Field.dotSubstitute (f : Field) (args : List Arg) : List Char × List Arg :=
  match f, args with
  | .star, .num v :: args => ('.' :: decimal (if v.toInt < 0 then 0 else v), args)
  | f, args => (f.dotText, args)

/-- A piece with its arguments in place of each `*`, and the arguments that are left. -/
def Piece.substitute (p : Piece) (args : List Arg) : List Char × List Arg :=
  match p with
  | .literal c _ => ([c], args)
  | .conversion v =>
    let (width, args) := v.width.substitute args
    let (precision, args) := v.precision.dotSubstitute args
    ('%' :: (v.flags.map Flag.char ++ (width ++ (precision ++ [v.letter.char]))), args)

/-- The number of digits of a number. -/
def digitCount (base n : Nat) : Nat := max 1 (Nat.digits base n).length

/-- The width that is meant, the absolute value of an argument. -/
def Field.width (f : Field) (args : List Arg) : Nat × List Arg :=
  match f, args with
  | .star, .num v :: args => (v.toInt.natAbs, args)
  | .literal n, args => (valueOf n.ds, args)
  | _, args => (0, args)

/-- The precision that is meant, which is 0 for a negative argument. -/
def Field.limit (f : Field) (args : List Arg) : Option Nat × List Arg :=
  match f, args with
  | .star, .num v :: args => (some v.toInt.toNat, args)
  | .literal n, args => (some (valueOf n.ds), args)
  | _, args => (none, args)

/-- The number of characters of the value, within a width and a precision. -/
def Letter.written (l : Letter) (type : Flags) (width : Nat) (precision : Option Nat)
    (args : List Arg) : Nat :=
  match l, args with
  | .percent, _ => 1
  | .c, _ => max width 1
  | .s, .str w :: _ => max width (min w.length (precision.getD w.length))
  | l, .num v :: _ =>
    match l.number type with
    | some (base, type) =>
      max width ((signOf v type).length + (prefixOf base type).length +
        max (precision.getD 0) (digitCount base (magnitude v type).toNat))
    | none => 0
  | _, _ => 0

/-- The number of characters that a piece is to write.  A pointer without a width has one of 8. -/
def Piece.written (p : Piece) (args : List Arg) : Nat :=
  match p with
  | .literal _ _ => 1
  | .conversion v =>
    let (width, args) := v.width.width args
    let (precision, args) := v.precision.limit args
    let width :=
      match v.letter, v.width with
      | .p, .absent => 8
      | _, _ => width
    v.letter.written (flagsOf v.flags) width precision args

/-- **A string is cut** too early: `skip_atoi` has read its precision as less than the string has, and
the width does not make up for it. -/
def Piece.Cuts (p : Piece) (args : List Arg) : Prop :=
  ∃ flags width n hwidth s, p = .conversion ⟨flags, width, .literal n, .s, hwidth⟩ ∧
    args = [.str s] ∧ max (width.width args).1 n.read.toNat < min s.length (valueOf n.ds)

/-! ## Parsing a piece -/

section Parse

variable {type : Flags} {rest : List Char} {r : Nat}

/-- A string that does not go on with one of some characters. -/
def Stops (P : Char → Prop) (rest : List Char) : Prop := ∀ c s, rest = c :: s → ¬ P c

theorem stops_cons {P : Char → Prop} {c : Char} {s : List Char} (h : ¬ P c) : Stops P (c :: s) := by
  intro d t heq
  rw [← (List.cons.inj heq).1]
  exact h

theorem skipAtoi_digits {ds : List Char} (hds : ∀ c ∈ ds, isdigit c = true)
    (hrest : Stops (fun c => isdigit c = true) rest) :
    skipAtoi (BitVec.ofNat 32 r) (ds ++ rest) =
      (BitVec.ofNat 32 (horner 10 r (ds.map fun c => c.toNat - '0'.toNat)), rest) := by
  induction ds generalizing r with
  | nil =>
    cases rest with
    | nil => rfl
    | cons c s =>
      have hstop : ¬ isdigit c = true := hrest c s rfl
      rw [List.nil_append, skipAtoi, if_neg hstop]
      rfl
  | cons c ds ih =>
    have hvalue : (BitVec.ofNat 32 r * 10 + BitVec.ofNat 32 (c.toNat - '0'.toNat) : BitVec 32) =
        BitVec.ofNat 32 (r * 10 + (c.toNat - '0'.toNat)) := by
      rw [BitVec.ofNat_add, BitVec.ofNat_mul]
      rfl
    rw [List.cons_append, skipAtoi, if_pos (hds c List.mem_cons_self), hvalue, List.map_cons, horner]
    exact ih fun e he => hds e (List.mem_cons_of_mem _ he)

theorem skipAtoi_literal (n : Literal) (hrest : Stops (fun c => isdigit c = true) rest) :
    skipAtoi 0 (n.ds ++ rest) = (BitVec.ofNat 32 (valueOf n.ds), rest) :=
  skipAtoi_digits (r := 0) n.areDigits hrest

theorem Literal.read_le (n : Literal) : n.read ≤ valueOf n.ds := by
  rw [Literal.read, BitVec.toInt_eq_toNat_cond, BitVec.toNat_ofNat]
  have := Nat.mod_le (valueOf n.ds) (2 ^ 32)
  split_ifs <;> omega

theorem Literal.read_eq {n : Literal} (h : valueOf n.ds < 2 ^ 31) : n.read = valueOf n.ds := by
  rw [Literal.read, BitVec.toInt_eq_toNat_of_lt, BitVec.toNat_ofNat, Nat.mod_eq_of_lt (by omega)]
  rw [BitVec.toNat_ofNat, Nat.mod_eq_of_lt (by omega)]
  omega

/-- The characters of the flags. -/
def IsFlag (c : Char) : Prop := c ∈ ['-', '+', ' ', '#', '0']

theorem skipFlags_stop (hrest : Stops IsFlag rest) : skipFlags type rest = (type, rest) := by
  cases rest with
  | nil => rfl
  | cons c s =>
    have hstop : ¬ IsFlag c := hrest c s rfl
    rw [skipFlags]
    all_goals
      intro fmt heq
      apply hstop
      rw [(List.cons.inj heq).1, IsFlag]
      decide

theorem skipFlags_flags (flags : List Flag) (hrest : Stops IsFlag rest) :
    skipFlags type (flags.map Flag.char ++ rest) = (flags.foldl Flag.set type, rest) := by
  induction flags generalizing type with
  | nil => exact skipFlags_stop hrest
  | cons f flags ih =>
    cases f <;> exact ih

theorem letter_stops (l : Letter) : ¬ IsFlag l.char ∧ isdigit l.char = false ∧ l.char ≠ '*' ∧
    l.char ≠ '.' ∧ l.char ≠ 'h' ∧ l.char ≠ 'l' ∧ l.char ≠ 'L' := by
  unfold IsFlag
  cases l <;> decide

/-- The value of a numeral in the format. -/
def Field.meant : Field → Int
  | .literal n => valueOf n.ds
  | _ => -1

/-- A width as it is read. -/
def Field.value : Field → Int
  | .literal n => n.read
  | _ => -1

/-- A precision as it is read: a negative one is 0. -/
def Field.bound : Field → Int
  | .literal n => max n.read 0
  | _ => -1

section Numbers

variable {p : Spec}

theorem getFieldWidth_digit {c : Char} {s : List Char} {w : BitVec 32} (hfmt : p.fmt = c :: s)
    (hc : isdigit c = true) (hatoi : skipAtoi 0 p.fmt = (w, rest)) :
    getFieldWidth p = some { p with fieldWidth := w.toInt, fmt := rest } := by
  unfold getFieldWidth
  rw [hfmt] at hatoi ⊢
  simp only [if_pos hc, hatoi]

theorem getFieldWidth_other (hdigit : Stops (fun c => isdigit c = true) p.fmt)
    (hstar : Stops (fun c => c = '*') p.fmt) : getFieldWidth p = some p := by
  unfold getFieldWidth
  split
  next => rfl
  next c s hfmt => rw [if_neg (hdigit c s hfmt), if_neg (hstar c s hfmt)]

theorem precisionValue_digit {c : Char} {s : List Char} {w : BitVec 32} (hfmt : p.fmt = c :: s)
    (hc : isdigit c = true) (hatoi : skipAtoi 0 p.fmt = (w, rest)) :
    precisionValue p = some { p with precision := w.toInt, fmt := rest } := by
  unfold precisionValue
  rw [hfmt] at hatoi ⊢
  simp only [if_pos hc, hatoi]

theorem precisionValue_other (hdigit : Stops (fun c => isdigit c = true) p.fmt)
    (hstar : Stops (fun c => c = '*') p.fmt) : precisionValue p = some p := by
  unfold precisionValue
  split
  next => rfl
  next c s hfmt => rw [if_neg (hdigit c s hfmt), if_neg (hstar c s hfmt)]

theorem getPrecision_dot {q : Spec} {s : List Char} (hfmt : p.fmt = '.' :: s)
    (hvalue : precisionValue { p with fmt := s } = some q) :
    getPrecision p = some (if q.precision < 0 then { q with precision := 0 } else q) := by
  unfold getPrecision
  rw [hfmt]
  simp only [hvalue, Option.map_some]

theorem getPrecision_other (hdot : Stops (fun c => c = '.') p.fmt) : getPrecision p = some p := by
  unfold getPrecision
  split
  next s heq => exact absurd rfl (hdot '.' s heq)
  next => rfl

theorem getFieldWidth_text {f : Field} (hf : f ≠ .star) (hwidth : f.IsWidth)
    (hwas : p.fieldWidth = -1) (hfmt : p.fmt = f.text ++ rest)
    (hdigit : Stops (fun c => isdigit c = true) rest) (hstar : Stops (fun c => c = '*') rest) :
    getFieldWidth p = some { p with fieldWidth := f.value, fmt := rest } := by
  cases f with
  | star => exact absurd rfl hf
  | absent =>
    rw [Field.text, List.nil_append] at hfmt
    rw [← hfmt] at hdigit hstar
    have hvalue : Field.value .absent = p.fieldWidth := hwas.symm
    rw [getFieldWidth_other hdigit hstar, hvalue, ← hfmt]
  | literal n =>
    have hatoi := skipAtoi_literal n hdigit
    obtain ⟨d, ds, hds, -⟩ := hwidth
    have hd : isdigit d = true := n.areDigits d (by rw [hds]; exact List.mem_cons_self)
    rw [Field.text] at hfmt
    rw [← hfmt] at hatoi
    have hcons : p.fmt = d :: (ds ++ rest) := by rw [hfmt, hds, List.cons_append]
    rw [getFieldWidth_digit hcons hd hatoi]
    rfl

theorem getPrecision_text {f : Field} (hf : f ≠ .star) (hwas : p.precision = -1)
    (hfmt : p.fmt = f.dotText ++ rest) (hdigit : Stops (fun c => isdigit c = true) rest)
    (hstar : Stops (fun c => c = '*') rest) (hdot : Stops (fun c => c = '.') rest) :
    getPrecision p = some { p with precision := f.bound, fmt := rest } := by
  cases f with
  | star => exact absurd rfl hf
  | absent =>
    rw [Field.dotText, List.nil_append] at hfmt
    rw [← hfmt] at hdot
    have hvalue : Field.bound .absent = p.precision := hwas.symm
    rw [getPrecision_other hdot, hvalue, ← hfmt]
  | literal n =>
    have hatoi := skipAtoi_literal n hdigit
    rw [Field.dotText, List.cons_append] at hfmt
    cases hds : n.ds with
    | nil =>
      rw [hds, List.nil_append] at hfmt
      have hnumber : precisionValue { p with fmt := rest } = some { p with fmt := rest } :=
        precisionValue_other hdigit hstar
      rw [getPrecision_dot hfmt hnumber, hwas, if_pos (by decide), Field.bound, Literal.read, hds]
      rfl
    | cons d ds =>
      have hd : isdigit d = true := n.areDigits d (by rw [hds]; exact List.mem_cons_self)
      have hnumber : precisionValue { p with fmt := n.ds ++ rest } =
          some { p with precision := n.read, fmt := rest } := by
        have hcons : n.ds ++ rest = d :: (ds ++ rest) := by rw [hds, List.cons_append]
        exact precisionValue_digit hcons hd hatoi
      rw [getPrecision_dot hfmt hnumber, Field.bound]
      split_ifs with hneg
      · rw [max_eq_right hneg.le]
      · rw [max_eq_left (not_lt.mp hneg)]

end Numbers

theorem skipQualifier_letter {p : Spec} {l : Letter} (hfmt : p.fmt = l.char :: rest) :
    skipQualifier p = p := by
  unfold skipQualifier
  cases l <;> simp only [hfmt, Letter.char] <;> rfl

/-- What comes behind the width of a conversion. -/
theorem dotText_stops {P : Char → Prop} {f : Field} {l : Letter} (hdot : ¬ P '.') (hl : ¬ P l.char) :
    Stops P (f.dotText ++ l.char :: rest) := by
  cases f with
  | absent => exact stops_cons hl
  | literal n | star => exact stops_cons hdot

theorem isFlag_digit {c : Char} (hc : isdigit c = true) (hne : c ≠ '0') : ¬ IsFlag c := by
  intro hflag
  simp only [IsFlag, List.mem_cons, List.not_mem_nil, or_false] at hflag
  rcases hflag with rfl | rfl | rfl | rfl | rfl
  · exact absurd hc (by decide)
  · exact absurd hc (by decide)
  · exact absurd hc (by decide)
  · exact absurd hc (by decide)
  · exact hne rfl

/-- **A conversion is parsed as it is meant**, if it has no `*`. -/
theorem parseSpec_text {v : Conversion} (hwidth : v.width ≠ .star) (hprec : v.precision ≠ .star)
    (fmt : List Char) (args : List Arg) :
    parseSpec (v.text ++ fmt) args =
      some { flags := flagsOf v.flags, fieldWidth := v.width.value, precision := v.precision.bound,
             fmt := v.letter.char :: fmt, args := args } := by
  obtain ⟨hflag, hdigit, hstar, hdot, -⟩ := letter_stops v.letter
  have hdigit' : ¬ isdigit v.letter.char = true := by
    rw [hdigit]
    exact Bool.false_ne_true
  have hstart : Stops IsFlag
      (v.width.text ++ (v.precision.dotText ++ v.letter.char :: fmt)) := by
    cases hw : v.width with
    | absent => exact dotText_stops (by unfold IsFlag; decide) hflag
    | star => exact absurd hw hwidth
    | literal n =>
      have hhead := v.isWidth
      rw [hw] at hhead
      obtain ⟨d, ds, hds, hne⟩ := hhead
      rw [Field.text, hds]
      exact stops_cons (isFlag_digit (n.areDigits d (by rw [hds]; exact List.mem_cons_self)) hne)
  have htext : v.text ++ fmt = v.flags.map Flag.char ++
      (v.width.text ++ (v.precision.dotText ++ v.letter.char :: fmt)) := by
    simp only [Conversion.text, List.append_assoc, List.singleton_append]
  rw [parseSpec, htext, skipFlags_flags v.flags hstart]
  simp only []
  rw [getFieldWidth_text hwidth v.isWidth rfl rfl (dotText_stops (by decide) hdigit')
    (dotText_stops (by decide) hstar), Option.bind_some, getPrecision_text hprec rfl rfl
    (stops_cons hdigit') (stops_cons hstar) (stops_cons hdot), Option.map_some,
    skipQualifier_letter rfl]
  rfl

end Parse

/-! ## Writing a piece -/

section Write

variable {o : Output} {type : Flags} {base : Nat} {size precision : Int} {fmt : List Char}
  {args as : List Arg}

theorem tmp_length_eq (hbase : 2 ≤ base) (num : BitVec 32) (type : Flags) :
    (tmp num base type).length = digitCount base num.toNat := by
  rw [tmp_eq, List.length_map, tmpDigits, digitCount]
  split
  next h =>
    have hzero : num.toNat = 0 := by
      rw [h]
      rfl
    rw [hzero, Nat.digits_zero]
    rfl
  next h =>
    have hne : Nat.digits base num.toNat ≠ [] :=
      Nat.digits_ne_nil_iff_ne_zero.mpr fun h0 => h (BitVec.eq_of_toNat_eq h0)
    have hpos := List.length_pos_of_ne_nil hne
    omega

/-- A precision that is left out is -1. -/
def limitOf (precision : Int) : Option Nat := if precision < 0 then none else some precision.toNat

/-- The number of characters of a number. -/
def numberWritten (v : BitVec 32) (base : Nat) (type : Flags) (width precision : Nat) : Nat :=
  max width ((signOf v type).length + (prefixOf base type).length +
    max precision (digitCount base (magnitude v type).toNat))

theorem number_written (hbase : 2 ≤ base) (hle : base ≤ 36) (v : BitVec 32) (type : Flags)
    (hsize : -1 ≤ size) (hprec : -1 ≤ precision)
    (hfits : numberWritten v base type size.toNat ((limitOf precision).getD 0) < memory) :
    ∃ s, number v base size precision type = some s ∧
      s.length = numberWritten v base type size.toNat ((limitOf precision).getD 0) := by
  have hlimit : (limitOf precision).getD 0 = precision.toNat := by
    unfold limitOf
    split
    next h =>
      rw [Option.getD_none]
      omega
    next => rfl
  rw [hlimit, numberWritten, memory] at hfits
  rw [hlimit, numberWritten]
  obtain ⟨s, hs, hlen⟩ := number_length hbase hle v type hsize (by omega)
    (by omega : precision < 2 ^ 30)
  rw [tmp_length_eq hbase] at hlen
  refine ⟨s, hs, ?_⟩
  omega

theorem putChar_length (v : BitVec 32) (hlow : -1 ≤ size) (hhigh : size < 2 ^ 30) (type : Flags) :
    (putChar v size type).length = max size.toNat 1 := by
  have hfirst : wrap (size - 1) = size - 1 := wrap_eq (by omega) (by omega)
  have hsecond : wrap (min (size - 1) 0 - 1) = min (size - 1) 0 - 1 := wrap_eq (by omega) (by omega)
  unfold putChar
  cases type.left with
  | true =>
    simp only [Bool.not_true, if_neg Bool.false_ne_true, hfirst, List.length_append,
      List.length_replicate, List.length_singleton]
    omega
  | false =>
    simp only [Bool.not_false, if_true, hfirst, hsecond, List.length_append, List.length_replicate,
      List.length_singleton]
    omega

theorem putString_length {w : List Char} (hw : w.length < memory) (hlow : -1 ≤ size)
    (hhigh : size < 2 ^ 30) (type : Flags) :
    (putString w size precision type).length =
      max size.toNat (min w.length ((limitOf precision).getD w.length)) := by
  rw [memory] at hw
  have hstrlen : wrap w.length = w.length := wrap_eq (by omega) (by omega)
  obtain ⟨len, hlen, hcount, hle⟩ : ∃ len : Nat,
      (if precision < 0 then (w.length : Int)
        else if (w.length : Int) > precision then precision else w.length) = len ∧
      len = min w.length ((limitOf precision).getD w.length) ∧ len ≤ w.length := by
    unfold limitOf
    split_ifs with hneg hlong
    · refine ⟨w.length, rfl, ?_, le_refl _⟩
      rw [Option.getD_none, Nat.min_self]
    · refine ⟨precision.toNat, ?_, ?_, ?_⟩
      · omega
      · rw [Option.getD_some]
        omega
      · omega
    · refine ⟨w.length, rfl, ?_, le_refl _⟩
      rw [Option.getD_some]
      omega
  have hwrap : wrap (min size len - 1) = min size len - 1 := wrap_eq (by omega) (by omega)
  rw [← hcount]
  unfold putString countdown
  simp only [hstrlen, hlen]
  cases type.left with
  | true =>
    simp only [Bool.not_true, if_neg Bool.false_ne_true, List.length_append, List.length_replicate,
      List.length_take]
    omega
  | false =>
    simp only [Bool.not_false, if_true, hwrap, List.length_append, List.length_replicate,
      List.length_take]
    omega

/-- The argument of a letter that takes a number. -/
theorem fits_number (h : List.Forall₂ Kind.Fits [.number] as) : ∃ v, as = [.num v] := by
  obtain ⟨a, as', ⟨v, rfl⟩, hnil, rfl⟩ := List.forall₂_cons_left_iff.mp h
  rw [List.forall₂_nil_left_iff.mp hnil]
  exact ⟨v, rfl⟩

/-- The width that is meant by the field width of a conversion. -/
def meantWidth (l : Letter) (size : Int) : Nat :=
  match l with
  | .p => if size = -1 then 8 else size.toNat
  | _ => size.toNat

/-- A number is put behind what has been written. -/
theorem dispatch_numberCase {c : Char} {p : Spec} {v : BitVec 32} {width : Int} (hbase : 2 ≤ base)
    (hle : base ≤ 36) (hfmt : p.fmt = c :: fmt) (hargs : p.args = .num v :: args)
    (hcase : numberCase c p = some (base, width, type)) (hwidth : -1 ≤ width)
    (hprec : -1 ≤ p.precision)
    (hfits : numberWritten v base type width.toNat ((limitOf p.precision).getD 0) < memory) :
    ∃ s, dispatch o p = some (o.put s, fmt, args) ∧
      s.length = numberWritten v base type width.toNat ((limitOf p.precision).getD 0) := by
  obtain ⟨s, hs, hlen⟩ := number_written hbase hle v type hwidth hprec hfits
  refine ⟨s, ?_, hlen⟩
  rw [dispatch_number o hfmt hargs hcase, hs, Option.map_some]

/-- **Each letter writes as many characters as it is to write.** -/
theorem dispatch_letter (o : Output) (l : Letter) (p : Spec) (hfmt : p.fmt = l.char :: fmt)
    (hargs : p.args = as ++ args) (hkinds : List.Forall₂ Kind.Fits l.kinds as)
    (hsize : l ≠ .percent → -1 ≤ p.fieldWidth) (hprec : -1 ≤ p.precision)
    (hfits : l.written p.flags (meantWidth l p.fieldWidth) (limitOf p.precision) as < memory) :
    ∃ s, dispatch o p = some (o.put s, fmt, args) ∧
      s.length = l.written p.flags (meantWidth l p.fieldWidth) (limitOf p.precision) as := by
  cases l with
  | d | i | u | o | x | X =>
    obtain ⟨v, rfl⟩ := fits_number hkinds
    exact dispatch_numberCase (by decide) (by decide) hfmt hargs rfl (hsize (fun h => by cases h))
      hprec hfits
  | p =>
    have hsize := hsize fun h => by cases h
    obtain ⟨v, rfl⟩ := fits_number hkinds
    by_cases habsent : p.fieldWidth = -1
    · have hcase : numberCase 'p' p = some (16, 8, { p.flags with zeropad := true }) := by
        simp only [numberCase, habsent]
        rfl
      rw [meantWidth, if_pos habsent] at hfits ⊢
      exact dispatch_numberCase (by decide) (by decide) hfmt hargs hcase (by decide) hprec hfits
    · have hcase : numberCase 'p' p = some (16, p.fieldWidth, p.flags) := by
        simp only [numberCase, if_neg habsent]
        rfl
      rw [meantWidth, if_neg habsent] at hfits ⊢
      exact dispatch_numberCase (by decide) (by decide) hfmt hargs hcase hsize hprec hfits
  | c =>
    have hsize := hsize fun h => by cases h
    obtain ⟨v, rfl⟩ := fits_number hkinds
    have hlow : max p.fieldWidth.toNat 1 < memory := hfits
    rw [memory] at hlow
    refine ⟨putChar v p.fieldWidth p.flags, ?_, putChar_length v hsize (by omega) p.flags⟩
    rw [dispatch, hfmt]
    simp only [Letter.char]
    rw [hargs]
    rfl
  | s =>
    have hsize := hsize fun h => by cases h
    obtain ⟨a, as', ⟨w, rfl, hw⟩, hnil, rfl⟩ := List.forall₂_cons_left_iff.mp hkinds
    rw [List.forall₂_nil_left_iff.mp hnil] at hargs hfits ⊢
    have hlow : max p.fieldWidth.toNat (min w.length ((limitOf p.precision).getD w.length)) <
      memory := hfits
    rw [memory] at hlow
    refine ⟨putString w p.fieldWidth p.precision p.flags, ?_,
      putString_length hw hsize (by omega) p.flags⟩
    rw [dispatch, hfmt]
    simp only [Letter.char]
    rw [hargs]
    rfl
  | percent =>
    have hnil : as = [] := List.forall₂_nil_left_iff.mp hkinds
    rw [hnil] at hargs ⊢
    refine ⟨['%'], ?_, rfl⟩
    rw [dispatch, hfmt]
    simp only [Letter.char]
    rw [hargs]
    rfl

end Write

/-! ## The loop over the pieces -/

section Pieces

variable {o : Output} {fmt : List Char} {args as : List Arg} {f : Field}

theorem Field.bound_ge (f : Field) : -1 ≤ f.bound := by
  cases f with
  | absent => exact le_refl _
  | star => exact le_refl _
  | literal n => exact (by decide : (-1 : Int) ≤ 0).trans (le_max_right _ _)

theorem Field.kinds_eq (hf : f ≠ .star) : f.kinds = [] := by
  cases f with
  | star => exact absurd rfl hf
  | absent => rfl
  | literal n => rfl

theorem Field.width_eq (hf : f ≠ .star) (as : List Arg) : f.width as = (f.meant.toNat, as) := by
  cases f with
  | star => exact absurd rfl hf
  | absent => rfl
  | literal n => rfl

theorem Field.limit_eq (hf : f ≠ .star) (as : List Arg) : f.limit as = (limitOf f.meant, as) := by
  cases f with
  | star => exact absurd rfl hf
  | absent => rfl
  | literal n =>
    rw [limitOf, Field.meant, if_neg (Int.not_lt.mpr (Int.natCast_nonneg _)), Int.toNat_natCast]
    rfl

/-- A conversion without a `*` is to write what its letter is to write. -/
theorem written_conversion {v : Conversion} (hwidth : v.width ≠ .star) (hprec : v.precision ≠ .star)
    (as : List Arg) :
    (Piece.conversion v).written as = v.letter.written (flagsOf v.flags)
      (meantWidth v.letter v.width.meant) (limitOf v.precision.meant) as := by
  rw [Piece.written]
  simp only [Field.width_eq hwidth, Field.limit_eq hprec]
  congr 1
  cases v.letter with
  | p =>
    cases hw : v.width with
    | star => exact absurd hw hwidth
    | absent => rfl
    | literal n =>
      rw [meantWidth, if_neg]
      rw [Field.meant]
      omega
  | d | i | u | o | x | X | c | s | percent => rfl

theorem Field.meant_ge (f : Field) : -1 ≤ f.meant := by
  cases f with
  | absent | star => exact le_refl _
  | literal n =>
    rw [Field.meant]
    omega

theorem toNat_le_meantWidth (l : Letter) (size : Int) : size.toNat ≤ meantWidth l size := by
  cases l with
  | p =>
    rw [meantWidth]
    split_ifs <;> omega
  | d | i | u | o | x | X | c | s | percent => exact le_refl _

/-- A numeral for which there is room is read as it is meant. -/
theorem Field.meant_eq (h : f.meant < 2 ^ 31) : f.value = f.meant ∧ f.bound = f.meant := by
  cases f with
  | absent | star => exact ⟨rfl, rfl⟩
  | literal n =>
    rw [Field.meant] at h
    have hread : n.read = valueOf n.ds := Literal.read_eq (by omega)
    rw [Field.value, Field.bound, Field.meant, hread]
    omega

/-- Where the width and the precision count, there is room for them. -/
theorem written_ge {l : Letter} {type : Flags} {width : Nat} {precision : Option Nat}
    (h : List.Forall₂ Kind.Fits l.kinds as) : (l ≠ .percent → width ≤ l.written type width precision as) ∧
      (l ≠ .percent → l ≠ .c → l ≠ .s → precision.getD 0 ≤ l.written type width precision as) := by
  have hnumber : ∀ (v : BitVec 32) (base : Nat) (type : Flags),
      precision.getD 0 ≤ numberWritten v base type width (precision.getD 0) := by
    intro v base type
    unfold numberWritten
    omega
  cases l with
  | percent => exact ⟨fun h => absurd rfl h, fun h => absurd rfl h⟩
  | c => exact ⟨fun _ => le_max_left _ _, fun _ h => absurd rfl h⟩
  | s =>
    obtain ⟨a, as', ⟨s, rfl, -⟩, -, rfl⟩ := List.forall₂_cons_left_iff.mp h
    exact ⟨fun _ => le_max_left _ _, fun _ _ h => absurd rfl h⟩
  | d | i | u =>
    obtain ⟨v, rfl⟩ := fits_number h
    exact ⟨fun _ => le_max_left _ _, fun _ _ _ => hnumber v 10 _⟩
  | o =>
    obtain ⟨v, rfl⟩ := fits_number h
    exact ⟨fun _ => le_max_left _ _, fun _ _ _ => hnumber v 8 _⟩
  | x | X | p =>
    obtain ⟨v, rfl⟩ := fits_number h
    exact ⟨fun _ => le_max_left _ _, fun _ _ _ => hnumber v 16 _⟩

/-- **What is written** with the numerals as they are read: less where a string is cut, and what is to be
written elsewhere. -/
theorem written_read {v : Conversion} (hwidth : v.width ≠ .star) (hprec : v.precision ≠ .star)
    (hmatch : List.Forall₂ Kind.Fits v.letter.kinds as)
    (hfits : (Piece.conversion v).written as < memory) :
    (v.letter ≠ .percent → -1 ≤ v.width.value) ∧
      ∃ k, k = v.letter.written (flagsOf v.flags) (meantWidth v.letter v.width.value)
        (limitOf v.precision.bound) as ∧
      k ≤ (Piece.conversion v).written as ∧
      (k = (Piece.conversion v).written as ↔ ¬ (Piece.conversion v).Cuts as) := by
  obtain ⟨flags, width, precision, l, hw⟩ := v
  rw [written_conversion hwidth hprec, memory] at hfits
  rw [written_conversion hwidth hprec]
  dsimp only at *
  obtain ⟨hle, hlimit⟩ := written_ge hmatch
  have hsame : l ≠ .percent → width.value = width.meant := by
    intro hl
    have hroom := ((toNat_le_meantWidth l width.meant).trans (hle hl)).trans_lt hfits
    exact (Field.meant_eq (by omega)).1
  refine ⟨fun hl => ?_, _, rfl, ?_⟩
  · rw [hsame hl]
    exact width.meant_ge
  by_cases hs : l = .s
  · subst hs
    obtain ⟨a, as', ⟨s, rfl, -⟩, hnil, rfl⟩ := List.forall₂_cons_left_iff.mp hmatch
    obtain rfl := List.forall₂_nil_left_iff.mp hnil
    rw [hsame fun h => by cases h]
    cases precision with
    | star => exact absurd rfl hprec
    | absent =>
      refine ⟨le_refl _, iff_of_true rfl ?_⟩
      rintro ⟨_, _, n, _, _, heq, -⟩
      cases heq
    | literal n =>
      have hread := n.read_le
      have hcuts : (Piece.conversion ⟨flags, width, .literal n, .s, hw⟩).Cuts [.str s] ↔
          max width.meant.toNat n.read.toNat < min s.length (valueOf n.ds) := by
        have hmeant := Field.width_eq hwidth [.str s]
        constructor
        · rintro ⟨_, _, _, _, _, heq, hargs, hlt⟩
          cases heq
          cases hargs
          rwa [hmeant] at hlt
        · intro hlt
          refine ⟨flags, width, n, hw, s, rfl, rfl, ?_⟩
          rwa [hmeant]
      have hwritten : ∀ k, Letter.s.written (flagsOf flags) (meantWidth .s width.meant) (limitOf k)
          [.str s] = max width.meant.toNat (min s.length ((limitOf k).getD s.length)) := fun _ => rfl
      rw [hcuts, hwritten, hwritten, limitOf, limitOf, Field.bound, Field.meant, if_neg (by omega),
        if_neg (by omega), Option.getD_some, Option.getD_some]
      omega
  · have hnot : ¬ (Piece.conversion ⟨flags, width, precision, l, hw⟩).Cuts as := by
      rintro ⟨_, _, _, _, _, heq, -⟩
      cases heq
      exact hs rfl
    suffices heq : l.written (flagsOf flags) (meantWidth l width.value) (limitOf precision.bound) as =
        l.written (flagsOf flags) (meantWidth l width.meant) (limitOf precision.meant) as from
      ⟨heq.le, iff_of_true heq hnot⟩
    by_cases hp : l = .percent
    · subst hp
      rfl
    rw [hsame hp]
    by_cases hc : l = .c
    · subst hc
      rfl
    have hroom := (hlimit hp hc hs).trans_lt hfits
    rw [(Field.meant_eq (f := precision) _).2]
    unfold limitOf at hroom
    split_ifs at hroom with hneg
    · omega
    · rw [Option.getD_some] at hroom
      omega

/-- **The loop writes a piece** without a `*`, and takes its arguments. -/
theorem loop_piece {p : Piece} (hstar : ¬ p.HasStar) (hmatch : p.Matches as)
    (hfits : p.written as < memory) (o : Output) (fmt : List Char) (args : List Arg) :
    ∃ s, loop o (p.text ++ fmt) (as ++ args) = loop (o.put s) fmt args ∧
      s.length ≤ p.written as ∧ (s.length = p.written as ↔ ¬ p.Cuts as) := by
  cases p with
  | literal c hc =>
    have hnil : as = [] := List.forall₂_nil_left_iff.mp hmatch
    rw [hnil]
    refine ⟨[c], loop_literal o hc fmt args, le_refl _, iff_of_true rfl ?_⟩
    rintro ⟨_, _, _, _, _, heq, -⟩
    cases heq
  | conversion v =>
    obtain ⟨hwidth, hprec⟩ := not_or.mp hstar
    rw [Piece.Matches, Piece.kinds, Field.kinds_eq hwidth, Field.kinds_eq hprec] at hmatch
    obtain ⟨hsize, k, hk, hle, hcuts⟩ := written_read hwidth hprec hmatch hfits
    rw [hk] at hle hcuts
    obtain ⟨s, hs, hlen⟩ := dispatch_letter o v.letter
      { flags := flagsOf v.flags, fieldWidth := v.width.value, precision := v.precision.bound,
        fmt := v.letter.char :: fmt, args := as ++ args } rfl rfl hmatch hsize v.precision.bound_ge
      (hle.trans_lt hfits)
    refine ⟨s, ?_, hlen ▸ hle, hlen ▸ hcuts⟩
    rw [Piece.text, List.cons_append, loop_conversion, convert, parseSpec_text hwidth hprec,
      Option.bind_some, hs, Option.bind_some]

/-- A format. -/
def textOf (ps : List Piece) : List Char := (ps.map Piece.text).flatten

/-- The arguments that a format takes, piece by piece. -/
def Matches (ps : List Piece) (argss : List (List Arg)) : Prop := List.Forall₂ Piece.Matches ps argss

/-- The number of characters that each piece is to write. -/
def writtenOf (ps : List Piece) (argss : List (List Arg)) : List Nat :=
  List.zipWith Piece.written ps argss

theorem put_put (o : Output) (s t : List Char) : (o.put s).put t = o.put (s ++ t) := by
  rw [Output.put, Output.put, Output.put, List.append_assoc]

/-- **So it does with a whole format.** -/
theorem loop_format {ps : List Piece} {argss : List (List Arg)} (hstar : ∀ p ∈ ps, ¬ p.HasStar)
    (hmatch : Matches ps argss) (hfits : (writtenOf ps argss).sum < memory) (o : Output) :
    ∃ outs : List (List Char), loop o (textOf ps) argss.flatten = some (o.put outs.flatten) ∧
      outs.flatten.length ≤ (writtenOf ps argss).sum ∧
      (outs.flatten.length = (writtenOf ps argss).sum → ∀ q ∈ ps.zip argss, ¬ q.1.Cuts q.2) ∧
      ((∀ q ∈ ps.zip argss, ¬ q.1.Cuts q.2) → outs.map List.length = writtenOf ps argss) := by
  induction hmatch generalizing o with
  | nil =>
    refine ⟨[], ?_, le_refl _, fun _ _ h => absurd h List.not_mem_nil, fun _ => rfl⟩
    rw [textOf, List.map_nil, List.flatten_nil, loop_nil, Output.put, List.append_nil]
  | @cons p as ps argss hp hps ih =>
    have hsum : p.written as + (writtenOf ps argss).sum < memory := hfits
    obtain ⟨s, hs, hle, hcuts⟩ := loop_piece (hstar p List.mem_cons_self) hp (by omega) o (textOf ps)
      argss.flatten
    obtain ⟨outs, houts, hle', hcuts', hlens⟩ :=
      ih (fun q hq => hstar q (List.mem_cons_of_mem _ hq)) (by omega) (o.put s)
    have hwritten : writtenOf (p :: ps) (as :: argss) = p.written as :: writtenOf ps argss := rfl
    rw [hwritten, List.sum_cons]
    refine ⟨s :: outs, ?_, ?_, fun heq q hq => ?_, fun hnone => ?_⟩
    · rw [textOf, List.map_cons, List.flatten_cons, List.flatten_cons, List.flatten_cons, ← put_put,
        ← houts, ← hs]
      rfl
    · rw [List.flatten_cons, List.length_append]
      omega
    · rw [List.flatten_cons, List.length_append] at heq
      rcases List.mem_cons.mp hq with rfl | hq
      · exact hcuts.mp (by omega)
      · exact hcuts' (by omega) q hq
    · rw [List.map_cons, hlens fun q hq => hnone q (List.mem_cons_of_mem _ hq),
        hcuts.mpr (hnone (p, as) List.mem_cons_self)]

end Pieces

end LinuxEvocation.Vsprintf
