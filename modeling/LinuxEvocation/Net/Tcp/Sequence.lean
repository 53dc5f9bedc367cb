import Mathlib.Tactic

/-!
# Sequence numbers

TCP numbers its bytes modulo 2³².  `before` is a plain comparison of numbers that are less than 65536
apart; where one of them has wrapped, it looks for a number less than 8192 and one within 8192 of the
end instead.

* `before`, `after`, `between` — the comparisons.
* `Seen` — that a step forward is recognised.
* `comparisons_exact` — the comparisons agree with distances exactly when the steps in question are
  recognised.
-/

namespace LinuxEvocation.Tcp

/-! ## The comparisons -/

def before (seq1 seq2 : BitVec 32) : Bool :=
  if seq1 = seq2 then false
  else if seq1 < seq2 then decide (seq2 - seq1 < 65536#32)
  else decide (seq2 < 8192#32) && decide (seq1 > 0xffffffff#32 - 8192#32)

def after (seq1 seq2 : BitVec 32) : Bool := before seq2 seq1

/-- Is `seq2 ≤ seq1 ≤ seq3`? -/
def between (seq1 seq2 seq3 : BitVec 32) : Bool := after (seq1 + 1) seq2 && before seq1 (seq3 + 1)

/-- A step of `d` from `a` that `before` recognises: it is less than 65536, and it does not wrap, or
it begins within 8192 of the end and goes to a number below 8192. -/
def Seen (a : BitVec 32) (d : Nat) : Prop :=
  d < 65536 ∧
    (a.toNat + d < 2 ^ 32 ∨ a.toNat + d - 2 ^ 32 < 8192 ∧ 2 ^ 32 - 1 - 8192 < a.toNat)

instance (a : BitVec 32) (d : Nat) : Decidable (Seen a d) := inferInstanceAs (Decidable (_ ∧ _))

/-! ## Distances -/

section Distances

variable {a s d : BitVec 32}

theorem before_iff (a b : BitVec 32) :
    before a b = true ↔
      a.toNat < b.toNat ∧ b.toNat - a.toNat < 65536 ∨
        b.toNat < a.toNat ∧ b.toNat < 8192 ∧ 2 ^ 32 - 1 - 8192 < a.toNat := by
  have ha := a.isLt
  have hb := b.isLt
  have hend : (0xffffffff#32 - 8192#32).toNat = 2 ^ 32 - 1 - 8192 := by decide
  rw [before]
  by_cases heq : a = b
  · rw [if_pos heq, heq]
    simp
  · have hne : a.toNat ≠ b.toNat := fun h => heq (BitVec.eq_of_toNat_eq h)
    rw [if_neg heq]
    by_cases hlt : a < b
    · have hlt' : a.toNat < b.toNat := hlt
      have hsub : (b - a).toNat = b.toNat - a.toNat := BitVec.toNat_sub_of_le (BitVec.le_of_lt hlt)
      rw [if_pos hlt, decide_eq_true_eq, BitVec.lt_def, hsub]
      change b.toNat - a.toNat < 65536 ↔ _
      omega
    · have hlt' : b.toNat < a.toNat := lt_of_le_of_ne (not_lt.mp hlt) hne.symm
      rw [if_neg hlt, Bool.and_eq_true, decide_eq_true_eq, decide_eq_true_eq, BitVec.lt_def,
        gt_iff_lt, BitVec.lt_def, hend]
      change b.toNat < 8192 ∧ _ ↔ _
      omega

/-- A step forward is seen exactly when it is one of the steps that are recognised. -/
theorem before_forward (hpos : 0 < d.toNat) (hle : d.toNat ≤ 65536) :
    before a (a + d) = true ↔ Seen a d.toNat := by
  have ha := a.isLt
  rw [before_iff, Seen, BitVec.toNat_add]
  omega

/-- A step back is never taken for one forward. -/
theorem not_before_backward (hle : d.toNat ≤ 65536) : before (a + d) a = false := by
  have ha := a.isLt
  rw [Bool.eq_false_iff, ne_eq, before_iff, BitVec.toNat_add]
  omega

/-! ## `between` -/

/-- A number in the interval is found there exactly when the steps to it and from it are seen. -/
theorem between_inside (hd : d.toNat < 65536) (h : (s - a).toNat ≤ d.toNat) :
    between s a (a + d) = true ↔
      Seen a ((s - a).toNat + 1) ∧ Seen s (d.toNat - (s - a).toNat + 1) := by
  have hlow : (s - a + 1).toNat = (s - a).toNat + 1 := by
    have hone : (1 : BitVec 32).toNat = 1 := by decide
    rw [BitVec.toNat_add, hone]
    omega
  have hhigh : (d - (s - a) + 1).toNat = d.toNat - (s - a).toNat + 1 := by
    have hone : (1 : BitVec 32).toNat = 1 := by decide
    rw [BitVec.toNat_add, BitVec.toNat_sub_of_le h, hone]
    omega
  have hs : s + 1 = a + (s - a + 1) := by grind
  have hend : a + d + 1 = s + (d - (s - a) + 1) := by grind
  rw [between, after, Bool.and_eq_true, hend, hs, before_forward (by omega) (by omega),
    before_forward (by omega) (by omega), hlow, hhigh]

/-- A number behind the interval is not taken for one in it. -/
theorem between_behind (h : d.toNat < (s - a).toNat) (hnear : (s - a).toNat ≤ 65535) :
    between s a (a + d) = false := by
  have hback : (s - a - d - 1).toNat ≤ 65536 := by
    have hone : (1 : BitVec 32).toNat = 1 := by decide
    have hsub : (s - a - d).toNat = (s - a).toNat - d.toNat :=
      BitVec.toNat_sub_of_le (BitVec.le_of_lt h)
    have hle : (1 : BitVec 32) ≤ s - a - d := by
      rw [BitVec.le_def, hone, hsub]
      omega
    rw [BitVec.toNat_sub_of_le hle, hsub]
    omega
  have hs : s = a + d + 1 + (s - a - d - 1) := by grind
  have hbefore := not_before_backward (a := a + d + 1) hback
  rw [← hs] at hbefore
  rw [between, hbefore, Bool.and_false]

theorem between_front (h : 0 < (a - s).toNat) (hnear : (a - s).toNat ≤ 65535) :
    between s a (a + d) = false := by
  have hback : (a - s - 1).toNat ≤ 65536 := by
    have hone : (1 : BitVec 32).toNat = 1 := by decide
    have hle : (1 : BitVec 32) ≤ a - s := by
      rw [BitVec.le_def, hone]
      omega
    rw [BitVec.toNat_sub_of_le hle]
    omega
  have ha : a = s + 1 + (a - s - 1) := by grind
  have hbefore := not_before_backward (a := s + 1) hback
  rw [← ha] at hbefore
  rw [between, after, hbefore, Bool.false_and]

end Distances

/-- The comparisons of `a` with `a + d`, and of a number near `a` with the interval between them, are
those of distances modulo 2³². -/
structure Modular (a d s : BitVec 32) : Prop where
  before_forward : before a (a + d) = true
  before_backward : before (a + d) a = false
  after_backward : after (a + d) a = true
  after_forward : after a (a + d) = false
  between_iff : (s - a).toNat ≤ 65535 ∨ (a - s).toNat ≤ 65535 →
    (between s a (a + d) = true ↔ (s - a).toNat ≤ d.toNat)

/-- **The comparisons are modular** exactly when the steps that they rest on are recognised: that of
`d` from `a`, and for a number in the interval those to its successor, and from it behind the end. -/
theorem comparisons_exact (a d s : BitVec 32) (hpos : 0 < d.toNat) (hd : d.toNat < 65536) :
    Modular a d s ↔
      Seen a d.toNat ∧ ((s - a).toNat ≤ d.toNat →
        Seen a ((s - a).toNat + 1) ∧ Seen s (d.toNat - (s - a).toNat + 1)) := by
  have hforward := before_forward (a := a) hpos (le_of_lt hd)
  have hbackward := not_before_backward (a := a) (d := d) (le_of_lt hd)
  constructor
  · intro h
    refine ⟨hforward.mp h.before_forward, ?_⟩
    intro hin
    exact (between_inside hd hin).mp ((h.between_iff (.inl (by omega))).mpr hin)
  · rintro ⟨hseen, hin⟩
    refine ⟨hforward.mpr hseen, hbackward, hforward.mpr hseen, hbackward, ?_⟩
    intro hnear
    by_cases hs : (s - a).toNat ≤ d.toNat
    · exact iff_of_true ((between_inside hd hs).mpr (hin hs)) hs
    · refine iff_of_false ?_ hs
      rw [Bool.not_eq_true]
      rcases hnear with hnear | hnear
      · exact between_behind (not_le.mp hs) hnear
      · apply between_front _ hnear
        -- a distance of 0 would make the other one 0, too
        apply Nat.pos_of_ne_zero
        intro hzero
        have hback : (s - a).toNat = 0 := by bv_omega
        rw [hback] at hs
        exact hs (Nat.zero_le _)

/-- A step far from the end, and a number in it. -/
theorem comparisons_at_start : Modular 1000 500 1200 ↔
    Seen 1000 (500 : BitVec 32).toNat ∧ (((1200 : BitVec 32) - 1000).toNat ≤ (500 : BitVec 32).toNat →
      Seen 1000 (((1200 : BitVec 32) - 1000).toNat + 1) ∧
      Seen 1200 ((500 : BitVec 32).toNat - ((1200 : BitVec 32) - 1000).toNat + 1)) :=
  comparisons_exact 1000 500 1200 (by decide) (by decide)

/-- A step of 10000 from the last number is not seen. -/
theorem wrap_not_seen : ¬ Modular 0xffffffff 10000 0xffffffff := by
  intro h
  have hnot : before 0xffffffff (0xffffffff + 10000) = false := by decide
  rw [h.before_forward] at hnot
  contradiction

end LinuxEvocation.Tcp
