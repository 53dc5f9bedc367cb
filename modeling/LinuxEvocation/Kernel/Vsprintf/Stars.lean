import LinuxEvocation.Kernel.Vsprintf.Formats

/-!
# Widths and precisions from arguments

`vsprintf` takes the argument for a `*` but leaves its pointer at the `*`, which is then printed like an
unknown letter.  So each `*` of a format is printed.

* `Correct` — what a format is to print for its arguments.
* `stars_exact` — a format prints what it is to print exactly when it has no `*`, and cuts no string.
-/

namespace LinuxEvocation.Vsprintf

/-! ## Each star is printed -/

/-- How often a `*` occurs. -/
def stars (s : List Char) : Nat := s.count '*'

/-- An argument that prints no `*`. -/
def Arg.NoStar : Arg → Prop
  | .num v => Char.ofNat (v.toNat % 256) ≠ '*'
  | .str s => '*' ∉ s
  | .loc _ => True

section Counting

variable {o o' : Output} {p p' : Spec} {type : Flags} {base : Nat} {size precision : Int}
  {fmt fmt' s : List Char} {args args' : List Arg}

theorem stars_append (s t : List Char) : stars (s ++ t) = stars s + stars t := List.count_append

theorem stars_eq_zero (h : '*' ∉ s) : stars s = 0 := List.count_eq_zero.mpr h

theorem stars_replicate {c : Char} (hc : c ≠ '*') (k : Nat) : stars (List.replicate k c) = 0 :=
  stars_eq_zero fun h => hc (List.eq_of_mem_replicate h).symm

theorem stars_cons_ne {c : Char} (hc : c ≠ '*') (s : List Char) : stars (c :: s) = stars s :=
  List.count_cons_of_ne hc

theorem star_not_xdigit {c : Char} (hc : isxdigit c = true) : c ≠ '*' := by
  rintro rfl
  exact absurd hc (by decide)

theorem stars_signOf (num : BitVec 32) (type : Flags) : stars (signOf num type) = 0 := by
  unfold signOf
  split_ifs <;> rfl

theorem stars_prefixOf (base : Nat) (type : Flags) : stars (prefixOf base type) = 0 := by
  unfold prefixOf digit digits
  split_ifs <;> rfl

theorem stars_tmp (hbase : 2 ≤ base) (hle : base ≤ 16) (num : BitVec 32) (type : Flags) :
    stars (tmp num base type).reverse = 0 :=
  stars_eq_zero fun h => star_not_xdigit (isxdigit_tmp hbase hle h) rfl

theorem stars_number {num : BitVec 32} (hbase : 2 ≤ base) (hle : base ≤ 16)
    (h : number num base size precision type = some s) : stars s = 0 := by
  have hfill : fillChar type ≠ '*' := by
    unfold fillChar
    split_ifs <;> decide
  rw [number_eq hbase (hle.trans (by decide))] at h
  cases h
  simp only [stars_append, stars_replicate hfill, stars_replicate (show ' ' ≠ '*' by decide),
    stars_replicate (show '0' ≠ '*' by decide), stars_signOf, stars_prefixOf, stars_tmp hbase hle]

theorem stars_putChar {v : BitVec 32} (hv : (Arg.num v).NoStar) : stars (putChar v size type) = 0 := by
  have hone : stars [Char.ofNat (v.toNat % 256)] = 0 := stars_cons_ne hv []
  unfold putChar
  simp only [stars_append, stars_replicate (show ' ' ≠ '*' by decide), hone]

theorem stars_putString {w : List Char} (hw : (Arg.str w).NoStar) :
    stars (putString w size precision type) = 0 := by
  have htake : ∀ k, stars (w.take k) = 0 := fun k => stars_eq_zero fun h => hw (List.mem_of_mem_take h)
  unfold putString
  simp only [stars_append, stars_replicate (show ' ' ≠ '*' by decide), htake]

/-- A step of the parser: it passes over no `*`, and takes arguments from the list. -/
structure Parsed (p p' : Spec) : Prop where
  stars_eq : stars p'.fmt = stars p.fmt
  args_sub : ∀ a ∈ p'.args, a ∈ p.args

theorem Parsed.refl (p : Spec) : Parsed p p := ⟨rfl, fun _ ha => ha⟩

theorem Parsed.trans {q : Spec} (h : Parsed p p') (h' : Parsed p' q) : Parsed p q :=
  ⟨h'.stars_eq.trans h.stars_eq, fun a ha => h.args_sub a (h'.args_sub a ha)⟩

theorem stars_skipAtoi (i : BitVec 32) (s : List Char) : stars (skipAtoi i s).2 = stars s := by
  induction s generalizing i with
  | nil => rfl
  | cons c s ih =>
    rw [skipAtoi]
    split
    next hc =>
      have hne : c ≠ '*' := by
        rintro rfl
        exact absurd hc (by decide)
      rw [ih, stars_cons_ne hne]
    next => rfl

theorem stars_skipFlags (flags : Flags) (fmt : List Char) :
    stars (skipFlags flags fmt).2 = stars fmt := by
  fun_induction skipFlags flags fmt with
  | case1 flags fmt ih | case2 flags fmt ih | case3 flags fmt ih | case4 flags fmt ih
  | case5 flags fmt ih =>
    exact ih.trans (stars_cons_ne (by decide) fmt).symm
  | case6 => rfl

theorem parsed_getFieldWidth (h : getFieldWidth p = some p') : Parsed p p' := by
  have hatoi := stars_skipAtoi 0 p.fmt
  unfold getFieldWidth at h
  split at h
  · cases h
    exact .refl p
  · split_ifs at h
    · cases h
      exact ⟨hatoi, fun _ ha => ha⟩
    · split at h
      next w args hargs =>
        have hsub : ∀ a ∈ args, a ∈ p.args := by
          intro a ha
          rw [hargs]
          exact List.mem_cons_of_mem _ ha
        -- a `*` takes an argument and stays in the format
        split at h <;> cases h <;> exact ⟨rfl, hsub⟩
      next => cases h
    · cases h
      exact .refl p

theorem parsed_precisionValue (h : precisionValue p = some p') : Parsed p p' := by
  have hatoi := stars_skipAtoi 0 p.fmt
  unfold precisionValue at h
  split at h
  · cases h
    exact .refl p
  · split_ifs at h
    · cases h
      exact ⟨hatoi, fun _ ha => ha⟩
    · split at h
      next w args hargs =>
        cases h
        refine ⟨rfl, fun a ha => ?_⟩
        rw [hargs]
        exact List.mem_cons_of_mem _ ha
      next => cases h
    · cases h
      exact .refl p

theorem parsed_getPrecision (h : getPrecision p = some p') : Parsed p p' := by
  unfold getPrecision at h
  split at h
  next fmt hfmt =>
    obtain ⟨q, hq, rfl⟩ := Option.map_eq_some_iff.mp h
    have hdot : Parsed p { p with fmt := fmt } := by
      refine ⟨?_, fun _ ha => ha⟩
      rw [hfmt, stars_cons_ne (by decide)]
    have hparsed := hdot.trans (parsed_precisionValue hq)
    split
    · exact ⟨hparsed.stars_eq, hparsed.args_sub⟩
    · exact hparsed
  next =>
    cases h
    exact .refl p

theorem parsed_skipQualifier (p : Spec) : Parsed p (skipQualifier p) := by
  unfold skipQualifier
  split
  next fmt h => exact ⟨by rw [h, stars_cons_ne (by decide)], fun _ ha => ha⟩
  next fmt h => exact ⟨by rw [h, stars_cons_ne (by decide)], fun _ ha => ha⟩
  next fmt h => exact ⟨by rw [h, stars_cons_ne (by decide)], fun _ ha => ha⟩
  next => exact .refl p

theorem parsed_parseSpec (h : parseSpec fmt args = some p) :
    stars p.fmt = stars fmt ∧ ∀ a ∈ p.args, a ∈ args := by
  obtain ⟨q, hq, rfl⟩ := Option.map_eq_some_iff.mp h
  obtain ⟨w, hw, hq⟩ := Option.bind_eq_some_iff.mp hq
  have hparsed :=
    ((parsed_getFieldWidth hw).trans (parsed_getPrecision hq)).trans (parsed_skipQualifier q)
  exact ⟨hparsed.stars_eq.trans (stars_skipFlags {} fmt), hparsed.args_sub⟩

theorem numberCase_base {c : Char} {width : Int} (h : numberCase c p = some (base, width, type)) :
    2 ≤ base ∧ base ≤ 16 ∧ c ≠ '*' := by
  have hstar : c ≠ '*' := by
    rintro rfl
    exact absurd h (by simp [numberCase])
  unfold numberCase at h
  split_ifs at h <;> cases h <;> exact ⟨by decide, by decide, hstar⟩

/-- A conversion prints the `*` where it has stopped, and no other. -/
theorem stars_dispatch (hargs : ∀ a ∈ p.args, a.NoStar)
    (h : dispatch o p = some (o', fmt', args')) :
    stars o'.str + stars fmt' = stars o.str + stars p.fmt ∧ ∀ a ∈ args', a ∈ p.args := by
  unfold dispatch at h
  split at h
  next hfmt =>
    cases h
    rw [hfmt, Output.put, stars_append]
    exact ⟨rfl, fun _ ha => ha⟩
  next c fmt hfmt =>
    rw [hfmt]
    have htail : ∀ {a : Arg} {args : List Arg}, p.args = a :: args →
        a.NoStar ∧ ∀ b ∈ args, b ∈ p.args := by
      intro a args heq
      rw [heq] at hargs ⊢
      exact ⟨hargs a List.mem_cons_self, fun b hb => List.mem_cons_of_mem _ hb⟩
    have hput : ∀ {s : List Char}, c ≠ '*' → stars s = 0 →
        stars (o.put s).str + stars fmt = stars o.str + stars (c :: fmt) := by
      intro s hc hs
      rw [Output.put, stars_append, hs, stars_cons_ne hc, Nat.add_zero]
    split at h
    next base width flags hcase =>
      obtain ⟨hbase, hle, hc⟩ := numberCase_base hcase
      split at h
      next v args heq =>
        obtain ⟨s, hs, h⟩ := Option.map_eq_some_iff.mp h
        cases h
        exact ⟨hput hc (stars_number hbase hle hs), (htail heq).2⟩
      next => cases h
    next =>
      split_ifs at h with hc hs hn hp
      · split at h
        next v args heq =>
          cases h
          have hne : c ≠ '*' := by
            rw [hc]
            decide
          exact ⟨hput hne (stars_putChar (htail heq).1), (htail heq).2⟩
        next => cases h
      · split at h
        next w args heq =>
          cases h
          have hne : c ≠ '*' := by
            rw [hs]
            decide
          exact ⟨hput hne (stars_putString (htail heq).1), (htail heq).2⟩
        next => cases h
      · split at h
        next ip args heq =>
          cases h
          rw [hn, stars_cons_ne (by decide)]
          exact ⟨rfl, (htail heq).2⟩
        next => cases h
      · cases h
        have hne : c ≠ '*' := by
          rw [hp]
          decide
        exact ⟨hput hne rfl, fun _ ha => ha⟩
      · -- the letter is not known, or it is the `*`
        cases h
        refine ⟨?_, fun _ ha => ha⟩
        have hletter : stars ['%', c] + stars fmt' = stars (c :: fmt') := by
          rw [stars_cons_ne (by decide), ← stars_append]
          rfl
        rw [Output.put, stars_append, Nat.add_assoc, hletter]

/-- **Each `*` of the format is printed**, and no other. -/
theorem loop_stars (hargs : ∀ a ∈ args, a.NoStar) (h : loop o fmt args = some o') :
    stars o'.str = stars o.str + stars fmt := by
  fun_induction loop o fmt args with
  | case1 o args =>
    cases h
    rfl
  | case2 o c fmt args hc ih =>
    rw [ih hargs h, Output.put, stars_append, Nat.add_assoc]
    exact congrArg _ (stars_append [c] fmt).symm
  | case3 => cases h
  | case4 o c fmt args hc o₁ fmt₁ args₁ hconv ih =>
    obtain ⟨p, hp, hdispatch⟩ := Option.bind_eq_some_iff.mp hconv
    obtain ⟨hstars, hsub⟩ := parsed_parseSpec hp
    obtain ⟨hsame, hsub'⟩ := stars_dispatch (fun a ha => hargs a (hsub a ha)) hdispatch
    rw [ih (fun a ha => hargs a (hsub a (hsub' a ha))) h, hsame, hstars, not_not.mp hc,
      stars_cons_ne (by decide)]

end Counting

/-! ## Formats with a star -/

section Formats

variable {as : List Arg} {f : Field} {ks : List Kind}

/-- The least argument of a kind. -/
def Kind.plain : Kind → Arg
  | .number => .num 0
  | .string => .str []

/-- The least arguments of a piece. -/
def Piece.plain (p : Piece) : List Arg := p.kinds.map Kind.plain

theorem plain_noStar {a : Arg} (ha : a ∈ ks.map Kind.plain) : a.NoStar := by
  obtain ⟨k, -, rfl⟩ := List.mem_map.mp ha
  cases k with
  | number =>
    rw [Kind.plain, Arg.NoStar]
    decide
  | string => exact List.not_mem_nil

theorem plain_fits (ks : List Kind) : List.Forall₂ Kind.Fits ks (ks.map Kind.plain) := by
  induction ks with
  | nil => exact .nil
  | cons k ks ih =>
    refine .cons ?_ ih
    cases k with
    | number => exact ⟨0, rfl⟩
    | string => exact ⟨[], rfl, by rw [memory]; decide⟩

theorem width_plain (h : List.Forall₂ Kind.Fits (f.kinds ++ ks) as) :
    (f.width ((f.kinds ++ ks).map Kind.plain)).1 ≤ (f.width as).1 ∧
      (f.width ((f.kinds ++ ks).map Kind.plain)).2 = ks.map Kind.plain ∧
      List.Forall₂ Kind.Fits ks (f.width as).2 := by
  cases f with
  | absent | literal n => exact ⟨le_refl _, rfl, h⟩
  | star =>
    obtain ⟨a, as', ⟨v, rfl⟩, hrest, rfl⟩ := List.forall₂_cons_left_iff.mp h
    exact ⟨Nat.zero_le _, rfl, hrest⟩

theorem limit_plain (h : List.Forall₂ Kind.Fits (f.kinds ++ ks) as) :
    (f.limit ((f.kinds ++ ks).map Kind.plain)).1.getD 0 ≤ (f.limit as).1.getD 0 ∧
      (f.limit ((f.kinds ++ ks).map Kind.plain)).2 = ks.map Kind.plain ∧
      List.Forall₂ Kind.Fits ks (f.limit as).2 := by
  cases f with
  | absent | literal n => exact ⟨le_refl _, rfl, h⟩
  | star =>
    obtain ⟨a, as', ⟨v, rfl⟩, hrest, rfl⟩ := List.forall₂_cons_left_iff.mp h
    exact ⟨Nat.zero_le _, rfl, hrest⟩

theorem numberWritten_plain (v : BitVec 32) (base : Nat) (type : Flags) {w w' : Nat} {p p' : Nat}
    (hw : w ≤ w') (hp : p ≤ p') :
    numberWritten 0 base type w p ≤ numberWritten v base type w' p' := by
  have hsign : (signOf 0 type).length ≤ (signOf v type).length := by
    unfold signOf
    simp only [show BitVec.slt (0 : BitVec 32) 0 = false from rfl, Bool.and_false,
      if_neg Bool.false_ne_true]
    split_ifs <;> exact Nat.le_of_ble_eq_true rfl
  have hmagnitude : (magnitude 0 type).toNat = 0 := by
    unfold magnitude
    split_ifs <;> rfl
  have hdigits : digitCount base (magnitude 0 type).toNat ≤
      digitCount base (magnitude v type).toNat := by
    rw [hmagnitude, digitCount, Nat.digits_zero]
    exact Nat.le_max_left _ _
  unfold numberWritten
  omega

theorem letter_plain {l : Letter} {type : Flags} {w w' : Nat} {p p' : Option Nat}
    (h : List.Forall₂ Kind.Fits l.kinds as) (hw : w ≤ w') (hp : p.getD 0 ≤ p'.getD 0) :
    l.written type w p (l.kinds.map Kind.plain) ≤ l.written type w' p' as := by
  cases l with
  | percent => exact le_refl _
  | s =>
    obtain ⟨a, as', ⟨s, rfl, -⟩, hnil, rfl⟩ := List.forall₂_cons_left_iff.mp h
    exact max_le_max hw (Nat.min_le_left _ _ |>.trans (Nat.zero_le _))
  | c =>
    obtain ⟨v, rfl⟩ := fits_number h
    exact max_le_max hw (le_refl 1)
  | d | i | u =>
    obtain ⟨v, rfl⟩ := fits_number h
    exact numberWritten_plain v 10 _ hw hp
  | o =>
    obtain ⟨v, rfl⟩ := fits_number h
    exact numberWritten_plain v 8 _ hw hp
  | x | X | p =>
    obtain ⟨v, rfl⟩ := fits_number h
    exact numberWritten_plain v 16 _ hw hp

/-- **No arguments print less** than the least ones. -/
theorem plain_written {p : Piece} (h : p.Matches as) : p.written p.plain ≤ p.written as := by
  cases p with
  | literal c hc => exact le_refl 1
  | conversion v =>
    have hargs : List.Forall₂ Kind.Fits
        (v.width.kinds ++ (v.precision.kinds ++ v.letter.kinds)) as := by
      rw [← List.append_assoc]
      exact h
    obtain ⟨hw, hwrest, hargs⟩ := width_plain hargs
    obtain ⟨hp, hprest, hargs⟩ := limit_plain hargs
    have hplain : (Piece.conversion v).plain =
        (v.width.kinds ++ (v.precision.kinds ++ v.letter.kinds)).map Kind.plain := by
      rw [← List.append_assoc]
      rfl
    rw [hplain]
    unfold Piece.written
    simp only [hwrest, hprest]
    apply letter_plain hargs _ hp
    cases v.letter <;> cases hwidth : v.width <;> rw [hwidth] at hw <;> exact hw

end Formats

/-! ## What a format is to print -/

/-- A format with the arguments in place of each `*`, and the arguments that are left. -/
def substituteOf (ps : List Piece) (argss : List (List Arg)) : List Char × List Arg :=
  ((List.zipWith (fun p as => (p.substitute as).1) ps argss).flatten,
    (List.zipWith (fun p as => (p.substitute as).2) ps argss).flatten)

/-- What is to be written goes into the memory of the kernel. -/
def Fits (ps : List Piece) (argss : List (List Arg)) : Prop := (writtenOf ps argss).sum < memory

/-- An output, and the number of its characters. -/
def printed (s : List Char) : Output × Int := ({ str := s }, s.length)

/-- Each piece writes as many characters as it is to write, the number of all of them is returned, and
a numeral in place of a `*` makes no difference. -/
def Correct (ps : List Piece) (argss : List (List Arg)) : Prop :=
  ∃ outs : List (List Char), outs.map List.length = writtenOf ps argss ∧
    vsprintf (textOf ps) argss.flatten = some (printed outs.flatten) ∧
    vsprintf (substituteOf ps argss).1 (substituteOf ps argss).2 = some (printed outs.flatten)

section Correctness

variable {ps : List Piece} {argss : List (List Arg)} {p : Piece} {as : List Arg} {f : Field}
  {ks : List Kind}

theorem digits_noStar {s : List Char} (hs : ∀ c ∈ s, isdigit c = true) : stars s = 0 := by
  apply stars_eq_zero
  intro h
  exact absurd (hs '*' h) (by decide)

theorem stars_decimal (v : BitVec 32) : stars (decimal v) = 0 :=
  stars_tmp (by decide) (by decide) v {}

theorem substitute_width (h : List.Forall₂ Kind.Fits (f.kinds ++ ks) as) :
    stars (f.substitute as).1 = 0 ∧ stars f.text = f.kinds.length ∧
      List.Forall₂ Kind.Fits ks (f.substitute as).2 ∧ ∀ a ∈ (f.substitute as).2, a ∈ as := by
  cases f with
  | absent => exact ⟨rfl, rfl, h, fun _ ha => ha⟩
  | literal n => exact ⟨digits_noStar n.areDigits, digits_noStar n.areDigits, h, fun _ ha => ha⟩
  | star =>
    obtain ⟨a, as', ⟨v, rfl⟩, hrest, rfl⟩ := List.forall₂_cons_left_iff.mp h
    refine ⟨?_, rfl, hrest, fun a ha => List.mem_cons_of_mem _ ha⟩
    rw [Field.substitute, stars_append, stars_decimal]
    split_ifs <;> rfl

theorem substitute_precision (h : List.Forall₂ Kind.Fits (f.kinds ++ ks) as) :
    stars (f.dotSubstitute as).1 = 0 ∧ stars f.dotText = f.kinds.length ∧
      List.Forall₂ Kind.Fits ks (f.dotSubstitute as).2 ∧ ∀ a ∈ (f.dotSubstitute as).2, a ∈ as := by
  cases f with
  | absent => exact ⟨rfl, rfl, h, fun _ ha => ha⟩
  | literal n =>
    have hdot : stars ('.' :: n.ds) = 0 := by
      rw [stars_cons_ne (by decide), digits_noStar n.areDigits]
    exact ⟨hdot, hdot, h, fun _ ha => ha⟩
  | star =>
    obtain ⟨a, as', ⟨v, rfl⟩, hrest, rfl⟩ := List.forall₂_cons_left_iff.mp h
    refine ⟨?_, rfl, hrest, fun a ha => List.mem_cons_of_mem _ ha⟩
    rw [Field.dotSubstitute, stars_cons_ne (by decide), stars_decimal]

theorem letter_stars (l : Letter) : stars [l.char] = 0 := by
  cases l <;> rfl

theorem flags_stars (flags : List Flag) : stars (flags.map Flag.char) = 0 := by
  apply stars_eq_zero
  intro h
  obtain ⟨g, -, hg⟩ := List.mem_map.mp h
  cases g <;> exact absurd hg (by decide)

theorem substitute_piece (h : p.Matches as) :
    stars (p.substitute as).1 ≤ stars p.text ∧
      (p.HasStar → stars (p.substitute as).1 < stars p.text) ∧
      ∀ a ∈ (p.substitute as).2, a ∈ as := by
  cases p with
  | literal c hc => exact ⟨le_refl _, fun h => h.elim, fun _ ha => ha⟩
  | conversion v =>
    have hargs : List.Forall₂ Kind.Fits
        (v.width.kinds ++ (v.precision.kinds ++ v.letter.kinds)) as := by
      rw [← List.append_assoc]
      exact h
    obtain ⟨hw, hwtext, hargs, hwsub⟩ := substitute_width hargs
    obtain ⟨hp, hptext, -, hpsub⟩ := substitute_precision hargs
    have hnone : stars ((Piece.conversion v).substitute as).1 = 0 := by
      rw [Piece.substitute]
      simp only [stars_cons_ne (show '%' ≠ '*' by decide), stars_append, flags_stars, hw, hp,
        letter_stars]
    have htext : stars (Piece.conversion v).text =
        v.width.kinds.length + v.precision.kinds.length := by
      rw [Piece.text, Conversion.text]
      simp only [stars_cons_ne (show '%' ≠ '*' by decide), stars_append, flags_stars, hwtext, hptext,
        letter_stars]
      omega
    refine ⟨?_, ?_, fun a ha => hwsub a (hpsub a ha)⟩
    · rw [hnone]
      exact Nat.zero_le _
    · intro hstar
      rw [hnone, htext]
      rcases hstar with hstar | hstar
      · rw [hstar]
        exact Nat.add_pos_left Nat.one_pos _
      · rw [hstar]
        exact Nat.add_pos_right _ Nat.one_pos

theorem substitute_none (hstar : ¬ p.HasStar) (as : List Arg) : p.substitute as = (p.text, as) := by
  cases p with
  | literal c hc => rfl
  | conversion v =>
    obtain ⟨hwidth, hprec⟩ := not_or.mp hstar
    rw [Piece.substitute]
    have hw : v.width.substitute as = (v.width.text, as) := by
      cases hv : v.width with
      | star => exact absurd hv hwidth
      | absent => rfl
      | literal n => rfl
    have hp : v.precision.dotSubstitute as = (v.precision.dotText, as) := by
      cases hv : v.precision with
      | star => exact absurd hv hprec
      | absent => rfl
      | literal n => rfl
    simp only [hw, hp]
    rfl

theorem substitute_format (h : Matches ps argss) :
    stars (substituteOf ps argss).1 ≤ stars (textOf ps) ∧
      ((∃ p ∈ ps, p.HasStar) → stars (substituteOf ps argss).1 < stars (textOf ps)) ∧
      ∀ a ∈ (substituteOf ps argss).2, a ∈ argss.flatten := by
  induction h with
  | nil => exact ⟨le_refl _, fun ⟨_, hp, _⟩ => absurd hp List.not_mem_nil, fun _ ha => ha⟩
  | @cons p as ps argss hp hps ih =>
    obtain ⟨hle, hlt, hsub⟩ := substitute_piece hp
    obtain ⟨hle', hlt', hsub'⟩ := ih
    have hsubst : stars (substituteOf (p :: ps) (as :: argss)).1 =
        stars (p.substitute as).1 + stars (substituteOf ps argss).1 := stars_append _ _
    have htext : stars (textOf (p :: ps)) = stars p.text + stars (textOf ps) := stars_append _ _
    rw [hsubst, htext]
    refine ⟨Nat.add_le_add hle hle', ?_, ?_⟩
    · rintro ⟨q, hq, hstar⟩
      rcases List.mem_cons.mp hq with rfl | hq
      · exact Nat.add_lt_add_of_lt_of_le (hlt hstar) hle'
      · exact Nat.add_lt_add_of_le_of_lt hle (hlt' ⟨q, hq, hstar⟩)
    · intro a ha
      rw [List.flatten_cons, List.mem_append]
      rcases List.mem_append.mp ha with ha | ha
      · exact .inl (hsub a ha)
      · exact .inr (hsub' a ha)

theorem substitute_format_none (hstar : ∀ p ∈ ps, ¬ p.HasStar) (h : Matches ps argss) :
    substituteOf ps argss = (textOf ps, argss.flatten) := by
  induction h with
  | nil => rfl
  | @cons p as ps argss hp hps ih =>
    have hrest := ih fun q hq => hstar q (List.mem_cons_of_mem _ hq)
    have hpiece := substitute_none (hstar p List.mem_cons_self) as
    rw [substituteOf, Prod.mk.injEq] at hrest
    rw [substituteOf]
    simp only [List.zipWith_cons_cons, List.flatten_cons, hpiece, hrest.1, hrest.2]
    rfl

/-- The least arguments of a format. -/
def plainOf (ps : List Piece) : List (List Arg) := ps.map Piece.plain

theorem plain_format (h : Matches ps argss) :
    Matches ps (plainOf ps) ∧ (writtenOf ps (plainOf ps)).sum ≤ (writtenOf ps argss).sum := by
  induction h with
  | nil => exact ⟨.nil, le_refl _⟩
  | @cons p as ps argss hp hps ih =>
    exact ⟨.cons (plain_fits p.kinds) ih.1, Nat.add_le_add (plain_written hp) ih.2⟩

theorem plainOf_noStar {a : Arg} (ha : a ∈ (plainOf ps).flatten) : a.NoStar := by
  obtain ⟨as, has, ha⟩ := List.mem_flatten.mp ha
  obtain ⟨p, -, rfl⟩ := List.mem_map.mp has
  exact plain_noStar ha

/-- What is printed without a `*` among the arguments. -/
theorem stars_printed {fmt s : List Char} {args : List Arg} (hargs : ∀ a ∈ args, a.NoStar)
    (h : vsprintf fmt args = some (printed s)) : stars s = stars fmt := by
  obtain ⟨o, ho, hs⟩ := Option.map_eq_some_iff.mp h
  have hstr : o.str = s := congrArg (fun r => r.1.str) hs
  have hstars := loop_stars hargs ho
  rw [hstr] at hstars
  rw [hstars]
  exact Nat.zero_add _

/-- **A format without a `*` prints what it is to print**, where it cuts no string. -/
theorem correct_of_noStar (hstar : ∀ p ∈ ps, ¬ p.HasStar) (hmatch : Matches ps argss)
    (hfits : Fits ps argss) (hcuts : ∀ q ∈ ps.zip argss, ¬ q.1.Cuts q.2) : Correct ps argss := by
  obtain ⟨outs, hloop, -, -, hlens⟩ := loop_format hstar hmatch hfits {}
  have hlens := hlens hcuts
  have hlen : outs.flatten.length < memory := by
    rw [List.length_flatten, hlens]
    exact hfits
  rw [memory] at hlen
  have hprint : vsprintf (textOf ps) argss.flatten = some (printed outs.flatten) := by
    rw [vsprintf, hloop, Option.map_some]
    simp only [Output.put, List.nil_append, printed]
    rw [wrap_eq (by omega) (by omega)]
  refine ⟨outs, hlens, hprint, ?_⟩
  rw [substitute_format_none hstar hmatch]
  exact hprint

end Correctness

/-- **A format prints what it is to print**, for all arguments that it takes and that leave room for the
output, exactly when it has no `*`, and none of these arguments is a string that is cut. -/
theorem stars_exact {ps : List Piece} (hroom : ∃ argss, Matches ps argss ∧ Fits ps argss) :
    (∀ argss, Matches ps argss → Fits ps argss → Correct ps argss) ↔
      (∀ p ∈ ps, ¬ p.HasStar) ∧
        ∀ argss, Matches ps argss → Fits ps argss → ∀ q ∈ ps.zip argss, ¬ q.1.Cuts q.2 := by
  constructor
  · intro hcorrect
    have hnone : ∀ p ∈ ps, ¬ p.HasStar := by
      intro p hp hstar
      obtain ⟨argss, hmatch, hfits⟩ := hroom
      obtain ⟨hplain, hle⟩ := plain_format hmatch
      obtain ⟨outs, -, hprint, hprint'⟩ := hcorrect (plainOf ps) hplain (hle.trans_lt hfits)
      obtain ⟨-, hlt, hsub⟩ := substitute_format hplain
      -- with the least arguments, each output has the stars of its format
      have hstars := stars_printed (fun a ha => plainOf_noStar ha) hprint
      have hstars' := stars_printed (fun a ha => plainOf_noStar (hsub a ha)) hprint'
      have hfewer := hlt ⟨p, hp, hstar⟩
      omega
    refine ⟨hnone, fun argss hmatch hfits => ?_⟩
    obtain ⟨outs, hlens, hprint, -⟩ := hcorrect argss hmatch hfits
    obtain ⟨outs', hloop, -, hcuts, -⟩ := loop_format hnone hmatch hfits {}
    rw [vsprintf, hloop, Option.map_some] at hprint
    have hstr : outs'.flatten = outs.flatten := congrArg (fun r => r.1.str) (Option.some.inj hprint)
    refine hcuts ?_
    rw [hstr, List.length_flatten, hlens]
  · rintro ⟨hstar, hcuts⟩ argss hmatch hfits
    exact correct_of_noStar hstar hmatch hfits (hcuts argss hmatch hfits)

/-- The format `%u`. -/
def unsignedFormat : List Piece :=
  [.conversion { flags := [], width := .absent, precision := .absent, letter := .u,
                 isWidth := trivial }]

/-- The format `%*d`. -/
def starFormat : List Piece :=
  [.conversion { flags := [], width := .star, precision := .absent, letter := .d,
                 isWidth := trivial }]

/-- One conversion without a `*` prints what it is to print. -/
theorem stars_exact_unsigned : Matches unsignedFormat [[.num 7]] ∧
    ∀ argss, Matches unsignedFormat argss → Fits unsignedFormat argss →
      Correct unsignedFormat argss := by
  have hmatch : Matches unsignedFormat [[.num 7]] := .cons (.cons ⟨7, rfl⟩ .nil) .nil
  refine ⟨hmatch, (stars_exact ⟨_, hmatch, by rw [Fits, memory]; decide⟩).2
    ⟨fun p hp hstar => ?_, fun argss _ _ q hq hcuts => ?_⟩⟩
  · cases List.mem_singleton.mp hp
    rcases hstar with hstar | hstar <;> cases hstar
  · obtain ⟨_, _, _, _, _, heq, -⟩ := hcuts
    have hmem := (List.of_mem_zip hq).1
    rw [heq] at hmem
    cases List.mem_singleton.mp hmem

/-- The width 5 of `%*d` is not used, and the format is printed. -/
theorem star_is_printed : Matches starFormat [[.num 5, .num 7]] ∧ Fits starFormat [[.num 5, .num 7]] ∧
    ¬ Correct starFormat [[.num 5, .num 7]] := by
  refine ⟨.cons (.cons ⟨5, rfl⟩ (.cons ⟨7, rfl⟩ .nil)) .nil, by rw [Fits, memory]; decide, ?_⟩
  rintro ⟨outs, hlens, hprint, -⟩
  have hconvert : convert {} ['*', 'd'] [.num 5, .num 7] =
      some ({ str := ['%', '*'] }, ['d'], [.num 7]) := rfl
  have houtput : vsprintf ['%', '*', 'd'] [.num 5, .num 7] = some (printed ['%', '*', 'd']) := by
    rw [vsprintf, loop_conversion, hconvert, Option.bind_some, loop_literal _ (by decide), loop_nil,
      Option.map_some]
    have hthree : wrap 3 = 3 := wrap_eq (by omega) (by omega)
    simp [printed, Output.put, hthree]
  have hstr : ['%', '*', 'd'] = outs.flatten := by
    have hsame := houtput.symm.trans hprint
    exact congrArg (fun r => r.1.str) (Option.some.inj hsame)
  have hlen : outs.flatten.length = (writtenOf starFormat [[.num 5, .num 7]]).sum := by
    rw [List.length_flatten, hlens]
  rw [← hstr] at hlen
  exact absurd hlen (by decide)

end LinuxEvocation.Vsprintf
