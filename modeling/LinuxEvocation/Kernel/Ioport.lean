import LinuxEvocation.Errno
import Mathlib.Tactic

/-!
# `sys_ioperm`

The io bitmap of a task has a bit for each of the first 1024 ports; a port may be used when its bit is
0.  `sys_ioperm` stores to the bits of a range of ports: those in the word where the range begins, then
whole words, and then those in the word where it ends.

* `ioperm` — the call.
* `Sets` — one bitmap is another one with a range of its bits stored to.
* `ioperm_sets` — the call stores to the bits of the range, and to no other.
-/

namespace LinuxEvocation.Ioport

open Function (update update_of_ne update_self)

/-! ## The call -/

/-- `IO_BITMAP_SIZE`, in words. -/
def ioBitmapSize : Nat := 32

/-- The words of memory from `io_bitmap` on. -/
abbrev Words := Nat → BitVec 32

/-- `*iop &= ~mask` or `*iop |= mask`. -/
def setBits (turnOn : Bool) (iop : Nat) (mask : BitVec 32) (w : Words) : Words :=
  update w iop (if turnOn then w iop &&& ~~~mask else w iop ||| mask)

/-- `while (numl--) *iop++ = mask`. -/
def fillWords (mask : BitVec 32) : Nat → Nat → Words → Words
  | 0, _, w => w
  | numl + 1, iop, w => fillWords mask numl (iop + 1) (update w iop mask)

/-- The word where the range begins, if it does not begin with that word. -/
def headWord (turnOn : Bool) (iop : Nat) (lindex numl rindex : BitVec 32) (w : Words) :
    Words × Nat × BitVec 32 :=
  if lindex ≠ 0 then
    let mask := BitVec.allOnes 32 <<< lindex
    let numl := numl - 1
    let mask := if numl = 0 ∧ rindex ≠ 0 then mask &&& ~~~(BitVec.allOnes 32 <<< rindex) else mask
    (setBits turnOn iop mask w, iop + 1, numl)
  else (w, iop, numl)

/-- The words behind. -/
def otherWords (turnOn : Bool) (iop : Nat) (numl rindex : BitVec 32) (w : Words) : Words :=
  if numl ≠ 0 then
    let numl := if rindex ≠ 0 then numl - 1 else numl
    let mask := if turnOn then 0 else BitVec.allOnes 32
    let w := fillWords mask numl.toNat iop w
    let iop := iop + numl.toNat
    -- the last test of the loop has found 0, and counted below it
    let numl : BitVec 32 := 0 - 1
    if numl ≠ 0 ∧ rindex ≠ 0 then setBits turnOn iop (~~~(BitVec.allOnes 32 <<< rindex)) w else w
  else w

/-- `sys_ioperm` of the ports from `port` on: what it returns, and the words after it. -/
def ioperm (suser : Bool) (port num : BitVec 32) (turnOn : Bool) (w : Words) : Int × Words :=
  if port + num ≤ port then (-Errno.einval, w)
  else if port + num > BitVec.ofNat 32 (ioBitmapSize * 32) then (-Errno.einval, w)
  else if !suser then (-Errno.eperm, w)
  else
    let froml := port >>> 5
    let lindex := port &&& 0x1f
    let tnum := lindex + num
    let numl := (tnum + 0x1f) >>> 5
    let rindex := tnum &&& 0x1f
    if numl ≠ 0 then
      let (w, iop, numl) := headWord turnOn froml.toNat lindex numl rindex w
      (0, otherWords turnOn iop numl rindex w)
    else (0, w)

/-! ## Ranges of bits -/

/-- The bit of a port. -/
def bit (w : Words) (b : Nat) : Bool := (w (b / 32)).getLsbD (b % 32)

/-- `w'` is `w` with `v` stored to the bits from `lo` up to `hi`. -/
def Sets (v : Bool) (lo hi : Nat) (w w' : Words) : Prop :=
  ∀ b, bit w' b = if lo ≤ b ∧ b < hi then v else bit w b

section Proofs

variable {v turnOn : Bool} {lo mid hi iop l r n : Nat} {w w' w'' : Words} {mask : BitVec 32}

theorem Sets.refl (v : Bool) (lo : Nat) (w : Words) : Sets v lo lo w w := by
  intro b
  rw [if_neg (by omega)]

theorem Sets.trans (h : Sets v lo mid w w') (h' : Sets v mid hi w' w'') (hlo : lo ≤ mid)
    (hhi : mid ≤ hi) : Sets v lo hi w w'' := by
  intro b
  rw [h' b, h b]
  by_cases hb : b < mid
  · rw [if_neg (by omega)]
    by_cases hlb : lo ≤ b
    · rw [if_pos ⟨hlb, hb⟩, if_pos ⟨hlb, by omega⟩]
    · rw [if_neg fun hin => hlb hin.1, if_neg fun hin => hlb hin.1]
  · by_cases hbh : b < hi
    · rw [if_pos ⟨by omega, hbh⟩, if_pos ⟨by omega, hbh⟩]
    · rw [if_neg fun hin => hbh hin.2, if_neg fun hin => hb hin.2, if_neg fun hin => hbh hin.2]

theorem setBits_sets (hmask : ∀ j, j < 32 → (mask.getLsbD j = true ↔ l ≤ j ∧ j < r)) (hr : r ≤ 32) :
    Sets (!turnOn) (32 * iop + l) (32 * iop + r) w (setBits turnOn iop mask w) := by
  intro b
  have hj := Nat.mod_lt b (show 0 < 32 by decide)
  rw [bit, bit, setBits]
  by_cases hb : b / 32 = iop
  · have hrange : (32 * iop + l ≤ b ∧ b < 32 * iop + r) ↔ mask.getLsbD (b % 32) = true := by
      rw [hmask _ hj]
      omega
    rw [hb, update_self]
    by_cases hin : mask.getLsbD (b % 32) = true
    · rw [if_pos (hrange.mpr hin)]
      cases turnOn with
      | true => simp only [if_true, BitVec.getLsbD_and, BitVec.getLsbD_not, hin, Bool.not_true,
          Bool.and_false]
      | false => simp only [Bool.false_eq_true, if_false, BitVec.getLsbD_or, hin, Bool.or_true,
          Bool.not_false]
    · rw [if_neg (mt hrange.mp hin)]
      rw [Bool.not_eq_true] at hin
      cases turnOn with
      | true => simp only [if_true, BitVec.getLsbD_and, BitVec.getLsbD_not, hin, Bool.not_false,
          decide_eq_true hj, Bool.and_true]
      | false => simp only [Bool.false_eq_true, if_false, BitVec.getLsbD_or, hin, Bool.or_false]
  · rw [update_of_ne hb, if_neg (by omega)]

theorem fillWords_sets (hmask : mask = if turnOn then 0 else BitVec.allOnes 32) :
    Sets (!turnOn) (32 * iop) (32 * (iop + n)) w (fillWords mask n iop w) := by
  induction n generalizing iop w with
  | zero => exact Sets.refl _ _ _
  | succ n ih =>
    have hone : Sets (!turnOn) (32 * iop) (32 * (iop + 1)) w (update w iop mask) := by
      intro b
      have hj := Nat.mod_lt b (show 0 < 32 by decide)
      rw [bit, bit]
      by_cases hb : b / 32 = iop
      · rw [hb, update_self, if_pos (by omega), hmask]
        cases turnOn with
        | true => exact BitVec.getLsbD_zero
        | false => simp only [Bool.false_eq_true, if_false, BitVec.getLsbD_allOnes,
            decide_eq_true hj, Bool.not_false]
      · rw [update_of_ne hb, if_neg (by omega)]
    have hrest := @ih (iop + 1) (update w iop mask)
    rw [show iop + 1 + n = iop + (n + 1) by omega] at hrest
    exact hone.trans hrest (by omega) (by omega)

theorem low_mask (k : BitVec 32) {j : Nat} (hj : j < 32) :
    (BitVec.allOnes 32 <<< k).getLsbD j = true ↔ k.toNat ≤ j := by
  rw [BitVec.shiftLeft_eq', BitVec.getLsbD_shiftLeft, BitVec.getLsbD_allOnes, decide_eq_true hj,
    decide_eq_true (show j - k.toNat < 32 by omega), Bool.true_and, Bool.and_true,
    Bool.not_eq_true', decide_eq_false_iff_not, not_lt]

theorem high_mask (k : BitVec 32) {j : Nat} (hj : j < 32) :
    (~~~(BitVec.allOnes 32 <<< k)).getLsbD j = true ↔ j < k.toNat := by
  have hlow := low_mask k hj
  rw [BitVec.getLsbD_not, decide_eq_true hj, Bool.true_and, Bool.not_eq_true', ← not_le, ← hlow,
    Bool.not_eq_true]

/-! ## The call stores to the range -/

/-- The word where the range begins: the range up to its end, or up to the end of the word. -/
theorem headWord_sets (lindex rindex numl : BitVec 32) (num : Nat) (hlindex : lindex.toNat < 32)
    (hnumPos : 0 < num) (hnum : num < 2 ^ 30) (hnuml : numl.toNat = (lindex.toNat + num + 31) / 32)
    (hrindex : rindex.toNat = (lindex.toNat + num) % 32) :
    ∃ w' iop' numl', headWord turnOn iop lindex numl rindex w = (w', iop', numl') ∧
      Sets (!turnOn) (32 * iop + lindex.toNat) (min (32 * iop') (32 * iop + lindex.toNat + num)) w w' ∧
      32 * iop + lindex.toNat ≤ 32 * iop' ∧
      iop' + numl'.toNat = iop + numl.toNat := by
  have hzero (x : BitVec 32) : x = 0 ↔ x.toNat = 0 := by
    constructor
    · rintro rfl
      rfl
    · exact fun h => BitVec.eq_of_toNat_eq h
  rw [headWord]
  by_cases hl : lindex ≠ 0
  · rw [if_pos hl]
    have hlpos : lindex.toNat ≠ 0 := mt (hzero _).mpr hl
    have hnumlPred : (numl - 1).toNat = numl.toNat - 1 := by
      have hone : (1 : BitVec 32).toNat = 1 := by decide
      rw [BitVec.toNat_sub_of_le, hone]
      rw [BitVec.le_def, hone]
      omega
    refine ⟨_, _, _, rfl, ?_, by omega, by rw [hnumlPred]; omega⟩
    by_cases hlast : numl - 1 = 0 ∧ rindex ≠ 0
    · -- the range ends in the same word
      have hr : rindex.toNat ≠ 0 := mt (hzero _).mpr hlast.2
      have hn := (hzero _).mp hlast.1
      rw [hnumlPred] at hn
      have hend : min (32 * (iop + 1)) (32 * iop + lindex.toNat + num) =
          32 * iop + rindex.toNat := by omega
      rw [if_pos hlast, hend]
      apply setBits_sets _ (by omega)
      intro j hj
      rw [BitVec.getLsbD_and, Bool.and_eq_true, low_mask _ hj, high_mask _ hj]
    · have hend : min (32 * (iop + 1)) (32 * iop + lindex.toNat + num) = 32 * iop + 32 := by
        have hmore : ¬ ((numl - 1).toNat = 0 ∧ rindex.toNat ≠ 0) := by
          intro h
          exact hlast ⟨(hzero _).mpr h.1, mt (hzero _).mp h.2⟩
        rw [hnumlPred] at hmore
        omega
      rw [if_neg hlast, hend]
      apply setBits_sets _ (le_refl 32)
      intro j hj
      rw [low_mask _ hj]
      exact (and_iff_left hj).symm
  · rw [if_neg hl]
    have hlzero := (hzero _).mp (not_ne_iff.mp hl)
    refine ⟨w, iop, numl, rfl, ?_, by omega, rfl⟩
    rw [show min (32 * iop) (32 * iop + lindex.toNat + num) = 32 * iop + lindex.toNat by omega]
    exact Sets.refl _ _ _

/-- The words behind, up to the end of the range. -/
theorem otherWords_sets (numl rindex : BitVec 32) (hrindex : rindex.toNat < 32) :
    Sets (!turnOn) (32 * iop)
      (if numl = 0 then 32 * iop
        else if rindex = 0 then 32 * (iop + numl.toNat)
        else 32 * (iop + numl.toNat - 1) + rindex.toNat) w (otherWords turnOn iop numl rindex w) := by
  rw [otherWords]
  by_cases hn : numl = 0
  · rw [if_neg (not_not.mpr hn), if_pos hn]
    exact Sets.refl _ _ _
  · rw [if_pos hn, if_neg hn]
    by_cases hr : rindex = 0
    · rw [if_neg (not_not.mpr hr), if_pos hr, if_neg fun h => h.2 hr]
      exact fillWords_sets rfl
    · have hnpos : numl.toNat ≠ 0 := fun h => hn (BitVec.eq_of_toNat_eq h)
      have hpred : (numl - 1).toNat = numl.toNat - 1 := by
        have hone : (1 : BitVec 32).toNat = 1 := by decide
        rw [BitVec.toNat_sub_of_le, hone]
        rw [BitVec.le_def, hone]
        omega
      rw [if_pos hr, if_neg hr, if_pos ⟨by decide, hr⟩]
      refine (fillWords_sets (n := (numl - 1).toNat) rfl).trans ?_ ?_ ?_
      · rw [show 32 * (iop + numl.toNat - 1) + rindex.toNat =
          32 * (iop + (numl - 1).toNat) + rindex.toNat by omega]
        exact setBits_sets (l := 0) (fun j hj => by rw [high_mask _ hj]; omega) (by omega)
      · omega
      · omega

theorem range_iff (port num : BitVec 32) :
    (0 < num.toNat ∧ port.toNat + num.toNat ≤ ioBitmapSize * 32) ↔
      ¬ port + num ≤ port ∧ ¬ port + num > BitVec.ofNat 32 (ioBitmapSize * 32) := by
  have hport := port.isLt
  have hnum := num.isLt
  have hsize : (BitVec.ofNat 32 (ioBitmapSize * 32)).toNat = ioBitmapSize * 32 := by decide
  rw [gt_iff_lt, BitVec.le_def, BitVec.lt_def, hsize, BitVec.toNat_add]
  unfold ioBitmapSize
  omega

theorem ioperm_range (port num : BitVec 32)
    (h : 0 < num.toNat ∧ port.toNat + num.toNat ≤ ioBitmapSize * 32) :
    ∃ w', ioperm true port num turnOn w = (0, w') ∧
      Sets (!turnOn) port.toNat (port.toNat + num.toNat) w w' := by
  obtain ⟨hwrap, hsize⟩ := (range_iff port num).mp h
  unfold ioBitmapSize at h
  have hmask (x : BitVec 32) : (x &&& 0x1f).toNat = x.toNat % 32 := by
    rw [BitVec.toNat_and]
    exact Nat.and_two_pow_sub_one_eq_mod x.toNat 5
  have hshift (x : BitVec 32) : (x >>> 5).toNat = x.toNat / 32 := by
    rw [BitVec.toNat_ushiftRight, Nat.shiftRight_eq_div_pow]
  have htnum : ((port &&& 0x1f) + num).toNat = port.toNat % 32 + num.toNat := by
    rw [BitVec.toNat_add, hmask]
    omega
  have hnuml : (((port &&& 0x1f) + num + 0x1f) >>> 5).toNat =
      (port.toNat % 32 + num.toNat + 31) / 32 := by
    have hx : (0x1f : BitVec 32).toNat = 31 := by decide
    rw [hshift, BitVec.toNat_add, htnum, hx]
    omega
  have hrindex : (((port &&& 0x1f) + num) &&& 0x1f).toNat =
      (port.toNat % 32 + num.toNat) % 32 := by
    rw [hmask, htnum]
  have hne : ((port &&& 0x1f) + num + 0x1f) >>> 5 ≠ 0 := by
    intro hzero
    rw [hzero] at hnuml
    have : (0 : BitVec 32).toNat = 0 := by decide
    omega
  rw [ioperm, if_neg hwrap, if_neg hsize]
  simp only [Bool.not_true, Bool.false_eq_true, if_false, if_pos hne]
  generalize ((port &&& 0x1f) + num + 0x1f) >>> 5 = numl at hnuml hne ⊢
  generalize ((port &&& 0x1f) + num) &&& 0x1f = rindex at hrindex ⊢
  obtain ⟨w', iop', numl', hhead, hset, hle, hsum⟩ := @headWord_sets turnOn
    (port >>> 5).toNat w (port &&& 0x1f) rindex numl num.toNat (by rw [hmask]; omega) h.1
    (by omega) (by rw [hmask]; exact hnuml) (by rw [hmask]; exact hrindex)
  rw [hhead]
  refine ⟨_, rfl, ?_⟩
  have hrest := @otherWords_sets turnOn iop' w' numl' rindex (by omega)
  have hzero (x : BitVec 32) : x = 0 ↔ x.toNat = 0 := by
    constructor
    · rintro rfl
      rfl
    · exact fun h => BitVec.eq_of_toNat_eq h
  simp only [hzero] at hrest
  rw [hmask, hshift] at hset hle
  rw [hshift] at hsum
  have hport := Nat.div_add_mod port.toNat 32
  rw [hport] at hset hle
  -- the two ranges meet where the first one ends
  by_cases hn : numl'.toNat = 0
  · rw [if_pos hn] at hrest
    rw [show min (32 * iop') (port.toNat + num.toNat) = port.toNat + num.toNat by omega] at hset
    intro b
    rw [hrest b, if_neg (by omega), hset b]
  · rw [if_neg hn] at hrest
    have hmid : min (32 * iop') (port.toNat + num.toNat) = 32 * iop' := by omega
    rw [hmid] at hset
    have hend : (if rindex.toNat = 0 then 32 * (iop' + numl'.toNat)
        else 32 * (iop' + numl'.toNat - 1) + rindex.toNat) = port.toNat + num.toNat := by
      split <;> omega
    rw [hend] at hrest
    exact hset.trans hrest hle (by omega)

end Proofs

/-- **`sys_ioperm` changes the bits of the range**: it fails and changes nothing unless the range is one
of the bitmap, and without the rights of the superuser; otherwise it stores to the bits of the range and
no others, and to no word behind the bitmap. -/
theorem ioperm_sets (suser turnOn : Bool) (port num : BitVec 32) (w : Words) :
    if 0 < num.toNat ∧ port.toNat + num.toNat ≤ ioBitmapSize * 32 then
      if suser then
        ∃ w', ioperm suser port num turnOn w = (0, w') ∧
          (∀ b, bit w' b =
            if port.toNat ≤ b ∧ b < port.toNat + num.toNat then !turnOn else bit w b) ∧
          ∀ i, ioBitmapSize ≤ i → w' i = w i
      else ioperm suser port num turnOn w = (-Errno.eperm, w)
    else ioperm suser port num turnOn w = (-Errno.einval, w) := by
  split
  next h =>
    cases suser with
    | true =>
      obtain ⟨w', hrun, hset⟩ := @ioperm_range turnOn w port num h
      refine ⟨w', hrun, hset, ?_⟩
      intro i hi
      apply BitVec.eq_of_getLsbD_eq
      intro j hj
      have hbit := hset (32 * i + j)
      rw [if_neg (by unfold ioBitmapSize at hi h; omega), bit, bit,
        show (32 * i + j) / 32 = i by omega, show (32 * i + j) % 32 = j by omega] at hbit
      exact hbit
    | false =>
      obtain ⟨hwrap, hsize⟩ := (range_iff port num).mp h
      exact (if_neg hwrap).trans (if_neg hsize)
  next h =>
    rw [range_iff, not_and_or, not_not, not_not] at h
    rcases h with hwrap | hsize
    · exact if_pos hwrap
    · by_cases hwrap : port + num ≤ port
      · exact if_pos hwrap
      · exact (if_neg hwrap).trans (if_pos hsize)

/-- The ports 30 to 65, in an empty bitmap. -/
example : (ioperm true 30 36 false fun _ => 0).2 0 = 0xc0000000 ∧
    (ioperm true 30 36 false fun _ => 0).2 1 = 0xffffffff ∧
    (ioperm true 30 36 false fun _ => 0).2 2 = 3 := by decide

end LinuxEvocation.Ioport
