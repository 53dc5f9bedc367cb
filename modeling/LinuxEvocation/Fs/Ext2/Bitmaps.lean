import LinuxEvocation.Fs.Ext2.Alloc

/-!
# The searches in a bitmap find what they look for

* `findFirstZeroBit_spec` — the first bit that is not set, when there is one within the size.
-/

namespace LinuxEvocation.Ext2

/-! ## Words -/

theorem getLsbD_wordFrom (bits : Nat → Bool) (base n i : Nat) :
    (wordFrom bits base n).getLsbD i = (decide (i < n) && bits (base + i)) := by
  induction n with
  | zero => simp [wordFrom]
  | succ n ih =>
    rw [wordFrom, BitVec.getLsbD_cons, ih]
    by_cases hi : i = n
    · simp [hi]
    · have hlt : i < n + 1 ↔ i < n := by omega
      simp [hi, hlt]

theorem getLsbD_word (bits : Nat → Bool) (w i : Nat) :
    (word bits w).getLsbD i = (decide (i < 32) && bits (32 * w + i)) :=
  getLsbD_wordFrom bits (32 * w) 32 i

variable {bits : Nat → Bool}

/-- A word that is not all ones has a bit that is not set. -/
theorem word_ne_allOnes_iff {w : Nat} :
    word bits w ≠ BitVec.allOnes 32 ↔ ∃ i < 32, bits (32 * w + i) = false := by
  constructor
  · intro hne
    by_contra hall
    simp only [not_exists, not_and, Bool.not_eq_false] at hall
    refine hne (BitVec.eq_of_getLsbD_eq fun i hi => ?_)
    rw [getLsbD_word, BitVec.getLsbD_allOnes]
    have := hall i hi
    simp [hi, this]
  · rintro ⟨i, hi, hfree⟩ heq
    have hbit := getLsbD_word bits w i
    rw [heq, BitVec.getLsbD_allOnes, hfree] at hbit
    simp [hi] at hbit

/-- **The lowest bit of a word.** -/
theorem bsf_eq {x : BitVec 32} {i : Nat} (hi : i < 32) (hx : x.getLsbD i = true) :
    bsf x ≤ i ∧ x.getLsbD (bsf x) = true ∧ ∀ j < bsf x, x.getLsbD j = false := by
  unfold bsf
  cases hfind : (List.range 32).find? fun i => x.getLsbD i with
  | none =>
    have hno := List.find?_eq_none.1 hfind i (List.mem_range.2 hi)
    exact absurd hx hno
  | some b =>
    rw [Option.getD_some]
    have hb := List.find?_some hfind
    have hbefore : ∀ j < b, x.getLsbD j = false := by
      intro j hj
      simpa using (List.find?_range_eq_some.1 hfind).2.2 j hj
    refine ⟨?_, hb, hbefore⟩
    by_contra hlt
    rw [hbefore i (by omega)] at hx
    cases hx

/-- The first bit of a word that is not set. -/
theorem bsf_not_word {w i : Nat} (hi : i < 32) (hfree : bits (32 * w + i) = false) :
    bsf (~~~ word bits w) ≤ i ∧ bits (32 * w + bsf (~~~ word bits w)) = false ∧
      ∀ j < bsf (~~~ word bits w), bits (32 * w + j) = true := by
  have hnot : ∀ j, (~~~ word bits w).getLsbD j = (decide (j < 32) && !bits (32 * w + j)) := by
    intro j
    rw [BitVec.getLsbD_not, getLsbD_word]
    by_cases hj : j < 32
    · simp [hj]
    · simp [hj]
  have hx : (~~~ word bits w).getLsbD i = true := by
    rw [hnot]
    simp [hi, hfree]
  obtain ⟨hle, hbit, hbefore⟩ := bsf_eq hi hx
  refine ⟨hle, ?_, fun j hj => ?_⟩
  · rw [hnot] at hbit
    simpa using (Bool.and_eq_true_iff.1 hbit).2
  · have hj32 : j < 32 := by omega
    have hno := hbefore j hj
    rw [hnot] at hno
    simpa [hj32] using hno

/-! ## `find_first_zero_bit` -/

/-- What the search returns is not set, if it is within the size. -/
theorem findFirstZeroBit_free {bits : Nat → Bool} {w size : Nat}
    (h : findFirstZeroBit bits w size < size) :
    bits (32 * w + findFirstZeroBit bits w size) = false := by
  unfold findFirstZeroBit at h ⊢
  by_cases hsize : size = 0
  · rw [if_pos hsize] at h
    omega
  · rw [if_neg hsize] at h ⊢
    dsimp only at h ⊢
    cases hfind : (List.range ((size + 31) / 32)).find? fun v =>
        decide (word bits (w + v) ≠ BitVec.allOnes 32) with
    | none =>
      rw [hfind] at h
      simp only at h
      omega
    | some v =>
      simp only
      have hne : word bits (w + v) ≠ BitVec.allOnes 32 := by simpa using List.find?_some hfind
      obtain ⟨i, hi, hfree⟩ := word_ne_allOnes_iff.1 hne
      have hbit := (bsf_not_word hi hfree).2.1
      rw [← hbit]
      congr 1
      omega

variable {size : Nat}

/-- **The first bit that is not set**, when there is one within the size. -/
theorem findFirstZeroBit_spec {b : Nat} (hb : b < size) (hfree : bits b = false) :
    findFirstZeroBit bits 0 size ≤ b ∧ bits (findFirstZeroBit bits 0 size) = false := by
  suffices hle : findFirstZeroBit bits 0 size ≤ b by
    refine ⟨hle, ?_⟩
    have hbit : bits (32 * 0 + findFirstZeroBit bits 0 size) = false :=
      findFirstZeroBit_free (lt_of_le_of_lt hle hb)
    rwa [Nat.mul_zero, Nat.zero_add] at hbit
  unfold findFirstZeroBit
  rw [if_neg (by omega)]
  dsimp only
  have hword : bits (32 * (b / 32) + b % 32) = false := by
    rw [Nat.div_add_mod]
    exact hfree
  have hmod : b % 32 < 32 := Nat.mod_lt _ (by decide)
  have hb32 : b / 32 < (size + 31) / 32 := by omega
  have hne : word bits (0 + b / 32) ≠ BitVec.allOnes 32 := by
    rw [Nat.zero_add]
    exact word_ne_allOnes_iff.2 ⟨b % 32, hmod, hword⟩
  cases hfind : (List.range ((size + 31) / 32)).find? fun v =>
      decide (word bits (0 + v) ≠ BitVec.allOnes 32) with
  | none =>
    have hno := List.find?_eq_none.1 hfind (b / 32) (List.mem_range.2 hb32)
    exact absurd (decide_eq_true hne) hno
  | some v =>
    simp only
    have hv : v ≤ b / 32 := by
      by_contra hlt
      have hno := (List.find?_range_eq_some.1 hfind).2.2 (b / 32) (by omega)
      rw [decide_eq_true hne] at hno
      cases hno
    have hne' : word bits (0 + v) ≠ BitVec.allOnes 32 := by simpa using List.find?_some hfind
    rcases Nat.eq_or_lt_of_le hv with rfl | hlt
    · rw [Nat.zero_add]
      have hle := (bsf_not_word hmod hword).1
      omega
    · obtain ⟨i, hi, hfree'⟩ := word_ne_allOnes_iff.1 hne'
      have hle := (bsf_not_word hi hfree').1
      omega

/-! ## The other searches -/

/-- Every bit of the byte that is found is not set. -/
theorem findFirstZeroByte_free {start : Nat}
    (h : findFirstZeroByte bits start size < start + size) :
    bits (findFirstZeroByte bits start size * 8) = false := by
  unfold findFirstZeroByte at h ⊢
  cases hfind : (List.range' start size).find? fun b => decide (wordFrom bits (8 * b) 8 = 0) with
  | none =>
    rw [hfind] at h
    simp only at h
    omega
  | some b =>
    simp only
    have hzero : wordFrom bits (8 * b) 8 = 0 := by simpa using List.find?_some hfind
    have hbit := getLsbD_wordFrom bits (8 * b) 8 0
    rw [hzero] at hbit
    simpa [Nat.mul_comm] using hbit.symm

theorem findNextZeroBit_free {offset stray : Nat}
    (h : findNextZeroBit bits size offset stray < size) :
    bits (findNextZeroBit bits size offset stray) = false := by
  have hrest : ∀ p, 32 * p +
      (if size < 32 * p then stray else findFirstZeroBit bits p (size - 32 * p)) < size →
      bits (32 * p + (if size < 32 * p then stray else findFirstZeroBit bits p (size - 32 * p))) =
        false := by
    intro p hp
    by_cases hout : size < 32 * p
    · omega
    · rw [if_neg hout] at hp ⊢
      exact findFirstZeroBit_free (by omega)
  unfold findNextZeroBit at h ⊢
  dsimp only at h ⊢
  by_cases hbit : offset % 32 = 0
  · -- the search begins with a whole word
    have hoff : offset = 32 * (offset / 32) := by omega
    rw [if_neg (not_not.2 hbit)] at h ⊢
    rw [show ∀ x, offset + x = 32 * (offset / 32) + x by omega] at h ⊢
    exact hrest _ h
  · rw [if_pos hbit] at h ⊢
    by_cases hset : bsf (~~~ shr (word bits (offset / 32)) (offset % 32)) < 32 - offset % 32
    · rw [if_pos hset] at h ⊢
      set x := ~~~ shr (word bits (offset / 32)) (offset % 32)
      -- the word shifted is not all ones, or `bsf` would be 32
      have hex : ∃ i < 32, x.getLsbD i = true := by
        by_contra hno
        simp only [not_exists, not_and, Bool.not_eq_true] at hno
        have hnone : (List.range 32).find? (fun i => x.getLsbD i) = none := by
          rw [List.find?_eq_none]
          intro i hi
          simp [hno i (List.mem_range.1 hi)]
        have h32 : bsf x = 32 := by
          rw [bsf, hnone, Option.getD_none]
        omega
      obtain ⟨i, hi, hx⟩ := hex
      have hlow := (bsf_eq hi hx).2.1
      generalize bsf x = b at *
      have hpos : 32 * (offset / 32) + (offset % 32 + b) = b + offset := by omega
      have hmod : offset % 32 % 32 = offset % 32 := by omega
      simp only [x, shr, BitVec.getLsbD_not, BitVec.getLsbD_ushiftRight, getLsbD_word, hmod,
        hpos] at hlow
      simpa [show b < 32 by omega, show offset % 32 + b < 32 by omega] using hlow
    · rw [if_neg hset] at h ⊢
      rw [show ∀ x, offset + (32 - offset % 32) + x = 32 * (offset / 32 + 1) + x by omega] at h ⊢
      exact hrest _ h

/-- What is found within the next 32 blocks is not set. -/
theorem nearGoal_free {j k : Nat} (h : nearGoal bits size j = some k) :
    bits k = false := by
  unfold nearGoal at h
  dsimp only at h
  set next : BitVec 32 :=
    if j + 32 < size ∨ size < 32 then word bits (j / 32 + 1) else BitVec.allOnes 32 with hnext
  have hlmap : (if j + 32 < size ∨ size < 32 then
      shr (word bits (j / 32)) (j % 32 + 1) ||| shl (word bits (j / 32 + 1)) (31 - j % 32)
      else shr (word bits (j / 32)) (j % 32 + 1) ||| shl (BitVec.allOnes 32) (31 - j % 32)) =
      shr (word bits (j / 32)) (j % 32 + 1) ||| shl next (31 - j % 32) := by
    rw [hnext]
    split_ifs <;> rfl
  rw [hlmap] at h
  set lmap := shr (word bits (j / 32)) (j % 32 + 1) ||| shl next (31 - j % 32)
  by_cases hne : lmap = BitVec.allOnes 32
  · rw [if_neg (not_not.2 hne)] at h
    cases h
  rw [if_pos hne] at h
  split_ifs at h with hsize
  cases h
  have hex : ∃ i < 32, (~~~ lmap).getLsbD i = true := by
    by_contra hno
    simp only [not_exists, not_and, Bool.not_eq_true] at hno
    refine hne (BitVec.eq_of_getLsbD_eq fun i hi => ?_)
    have hbit := hno i hi
    rw [BitVec.getLsbD_not] at hbit
    rw [BitVec.getLsbD_allOnes]
    simpa [hi] using hbit
  obtain ⟨i, hi, hx⟩ := hex
  obtain ⟨hle, hlow, -⟩ := bsf_eq hi hx
  generalize bsf (~~~ lmap) = b at *
  have hb : b < 32 := by omega
  simp only [lmap, shr, shl, BitVec.getLsbD_not, BitVec.getLsbD_or, BitVec.getLsbD_ushiftRight,
    BitVec.getLsbD_shiftLeft, getLsbD_word, hb, decide_true, Bool.true_and, Bool.not_eq_true',
    Bool.or_eq_false_iff] at hlow
  obtain ⟨hhere, hthere⟩ := hlow
  by_cases hword : b < 31 - j % 32
  · -- in the rest of the word
    have hmod : (j % 32 + 1) % 32 = j % 32 + 1 := by omega
    rw [hmod] at hhere
    have hpos : 32 * (j / 32) + (j % 32 + 1 + b) = j + (b + 1) := by omega
    rw [hpos] at hhere
    simpa [show j % 32 + 1 + b < 32 by omega] using hhere
  · -- in the next word, which is not the one of all ones
    have hmod : (31 - j % 32) % 32 = 31 - j % 32 := by omega
    rw [hmod] at hthere
    have hbit : next.getLsbD (b - (31 - j % 32)) = false := by simpa [hword] using hthere
    rw [hnext] at hbit
    split_ifs at hbit with hin
    · rw [getLsbD_word] at hbit
      have hpos : 32 * (j / 32 + 1) + (b - (31 - j % 32)) = j + (b + 1) := by omega
      rw [hpos] at hbit
      simpa [show b - (31 - j % 32) < 32 by omega] using hbit
    · rw [BitVec.getLsbD_allOnes] at hbit
      simp at hbit
      omega

/-! ## The choice of a bit -/

theorem findFirstZeroByte_mul_lt {start n : Nat}
    (hsize : size ≤ 8 * (start + n)) (h : findFirstZeroByte bits start n * 8 < size) :
    bits (findFirstZeroByte bits start n * 8) = false :=
  findFirstZeroByte_free (by omega)

/-- **What is found in the group of the goal is not in use.** -/
theorem searchGoal_free {j stray k : Nat} (hsize : 8 ∣ size)
    (hj : j < size) (h : searchGoal bits size j stray = some k) : bits k = false := by
  -- the searches behind the near one
  have hrest : (if findFirstZeroByte bits (j / 8) ((size - j + 7) / 8) * 8 < size then
      some (findFirstZeroByte bits (j / 8) ((size - j + 7) / 8) * 8)
      else if findNextZeroBit bits size j stray < size then
        some (findNextZeroBit bits size j stray) else none) = some k → bits k = false := by
    intro hk
    split_ifs at hk with hbyte hnext
    · cases hk
      exact findFirstZeroByte_mul_lt (by omega) hbyte
    · cases hk
      exact findNextZeroBit_free hnext
  unfold searchGoal at h
  cases hbit : bits j with
  | false =>
    rw [if_pos hbit] at h
    cases h
    exact hbit
  | true =>
    rw [if_neg (by simp [hbit])] at h
    cases hnear : (if j ≠ 0 then nearGoal bits size j else none) with
    | some k' =>
      rw [hnear] at h
      cases h
      split_ifs at hnear with hj0
      exact nearGoal_free hnear
    | none =>
      rw [hnear] at h
      exact hrest h

/-- **A group that is searched from the start**: some bit that is not in use, if there is one. -/
theorem searchGroup_free {b : Nat} (hsize : 8 ∣ size) (hb : b < size)
    (hfree : bits b = false) : ∃ k, searchGroup bits size = some k ∧ k < size ∧ bits k = false := by
  unfold searchGroup
  dsimp only
  by_cases hbyte : findFirstZeroByte bits 0 (size / 8) * 8 < size
  · rw [if_neg (not_le.2 hbyte), if_neg (not_le.2 hbyte)]
    exact ⟨_, rfl, hbyte, findFirstZeroByte_mul_lt (by omega) hbyte⟩
  · rw [if_pos (not_lt.1 hbyte)]
    obtain ⟨hle, hbit⟩ := findFirstZeroBit_spec hb hfree
    have hlt : findFirstZeroBit bits 0 size < size := lt_of_le_of_lt hle hb
    rw [if_neg (not_le.2 hlt)]
    exact ⟨_, rfl, hlt, hbit⟩

/-- **The groups behind the goal** are all looked at, its own as the last one. -/
theorem nextGroup_finds {groups i r n steps : Nat} {free : Nat → Nat} (hn : 0 < n)
    (hsteps : n ≤ steps) (hi : i < groups) (hr : r = (i + n) % groups) (hfree : free r > 0) :
    ∃ r', nextGroup groups free steps i = some r' ∧ r' < groups ∧ free r' > 0 := by
  induction steps generalizing i n with
  | zero => omega
  | succ steps ih =>
    rw [nextGroup]
    have hnext : (if i + 1 ≥ groups then 0 else i + 1) = (i + 1) % groups := by
      split_ifs with hge
      · rw [show i + 1 = groups by omega, Nat.mod_self]
      · exact (Nat.mod_eq_of_lt (by omega)).symm
    have hlt : (i + 1) % groups < groups := Nat.mod_lt _ (by omega)
    rw [hnext]
    by_cases hhere : free ((i + 1) % groups) > 0
    · rw [if_pos hhere]
      exact ⟨_, rfl, hlt, hhere⟩
    · rw [if_neg hhere]
      cases n with
      | zero => omega
      | succ n =>
        have hn' : 0 < n := by
          rcases Nat.eq_zero_or_pos n with rfl | hpos
          · rw [hr] at hfree
            exact absurd hfree hhere
          · exact hpos
        refine ih hn' (by omega) hlt ?_
        rw [hr, Nat.mod_add_mod]
        congr 1
        omega

end LinuxEvocation.Ext2
