import LinuxEvocation.Fs.Ext2.Accounting
import LinuxEvocation.Fs.Ext2.Bitmaps

/-!
# The group of a new inode

`ext2_new_inode` looks for a group with a free inode: for a directory among all of them, for another
inode first in the group of the parent, then at distances that double, then one after the other.
The last search begins three groups behind the parent and makes two steps fewer than there are
groups, so that it misses the group two behind the parent; when the parent is in the last group its
start is beyond the end and it misses the last group but one.

* `missed` — the group that neither looks at; `fileGroup_none_iff` — the search fails when only that
  one has free inodes.
* `new_inode_finds_iff` — when `ext2_new_inode` returns an inode.
* `new_inode_misses` — a file system with free inodes where it does not.
-/

namespace LinuxEvocation.Ext2

/-! ## The two searches -/

section Search

variable {groups : Nat} {free : Nat → Nat}

theorem wrap_add {p j : Nat} (hj : j < groups) :
    (if p % groups + j ≥ groups then p % groups + j - groups else p % groups + j) =
      (p + j) % groups := by
  have hp : p % groups < groups := Nat.mod_lt _ (by omega)
  rw [← Nat.mod_add_mod p groups j]
  generalize p % groups = q at hp
  split_ifs with hge
  · rw [Nat.mod_eq_sub_mod hge, Nat.mod_eq_of_lt (by omega)]
  · exact (Nat.mod_eq_of_lt (by omega)).symm

theorem two_pow_succ_sub (p m : Nat) : p + (2 ^ m - 1) + 2 ^ m = p + (2 ^ (m + 1) - 1) := by
  have hpos := Nat.two_pow_pos m
  rw [Nat.pow_succ]
  omega

/-- The quadratic search from the distance `2 ^ m` on. -/
theorem quadratic_none_aux {p fuel m : Nat} (hfuel : groups ≤ 2 ^ (m + fuel)) :
    quadratic groups free fuel (2 ^ m) ((p + (2 ^ m - 1)) % groups) = none ↔
      ∀ k, m ≤ k → 2 ^ k < groups → free ((p + (2 ^ (k + 1) - 1)) % groups) = 0 := by
  induction fuel generalizing m with
  | zero =>
    refine iff_of_true rfl fun k hk hlt => absurd hlt (not_lt.2 (hfuel.trans ?_))
    exact Nat.pow_le_pow_right (by decide) hk
  | succ fuel ih =>
    rw [quadratic]
    by_cases hm : 2 ^ m < groups
    · rw [if_pos hm]
      dsimp only
      rw [wrap_add hm, two_pow_succ_sub]
      by_cases hzero : free ((p + (2 ^ (m + 1) - 1)) % groups) = 0
      · rw [if_neg (not_not.2 hzero), show 2 * 2 ^ m = 2 ^ (m + 1) by rw [Nat.pow_succ, mul_comm],
          ih (by rwa [Nat.add_right_comm, Nat.add_assoc] at *)]
        constructor
        · intro hall k hk hlt
          rcases Nat.eq_or_lt_of_le hk with rfl | hlt'
          · exact hzero
          · exact hall k hlt' hlt
        · exact fun hall k hk => hall k (by omega)
      · rw [if_pos hzero]
        exact iff_of_false (by simp) fun hall => hzero (hall m le_rfl hm)
    · rw [if_neg hm]
      refine iff_of_true rfl fun k hk hlt => absurd hlt (not_lt.2 ((not_lt.1 hm).trans ?_))
      exact Nat.pow_le_pow_right (by decide) hk

/-- **What the quadratic search looks at.** -/
theorem quadratic_none_iff {p : Nat} (hp : p < groups) :
    quadratic groups free groups 1 p = none ↔
      ∀ k, 2 ^ k < groups → free ((p + (2 ^ (k + 1) - 1)) % groups) = 0 := by
  have hfuel : groups ≤ 2 ^ (0 + groups) := by
    rw [Nat.zero_add]
    exact Nat.lt_two_pow_self.le
  have haux : quadratic groups free groups (2 ^ 0) ((p + (2 ^ 0 - 1)) % groups) = none ↔ _ :=
    quadratic_none_aux hfuel
  simpa [Nat.mod_eq_of_lt hp] using haux

theorem quadratic_some {fuel j i r : Nat} (h : quadratic groups free fuel j i = some r)
    (hi : i < groups) : r < groups ∧ free r ≠ 0 := by
  induction fuel generalizing j i with
  | zero => cases h
  | succ fuel ih =>
    rw [quadratic] at h
    by_cases hj : j < groups
    · rw [if_pos hj] at h
      dsimp only at h
      have hnext : (if i + j ≥ groups then i + j - groups else i + j) < groups := by
        split_ifs <;> omega
      generalize (if i + j ≥ groups then i + j - groups else i + j) = i' at h hnext
      split_ifs at h with hfree
      · cases h
        exact ⟨hnext, hfree⟩
      · exact ih h hnext
    · rw [if_neg hj] at h
      cases h

/-- **What the linear search looks at.** -/
theorem linear_none_iff {n i : Nat} (hg : 0 < groups) :
    linear groups free n i = none ↔
      ∀ t < n, free ((min i (groups - 1) + 1 + t) % groups) = 0 := by
  induction n generalizing i with
  | zero => exact iff_of_true rfl fun t ht => absurd ht (Nat.not_lt_zero t)
  | succ n ih =>
    rw [linear]
    have hnext : (if i + 1 ≥ groups then 0 else i + 1) = (min i (groups - 1) + 1) % groups := by
      split_ifs with hge
      · rw [Nat.min_eq_right (by omega), Nat.sub_add_cancel hg, Nat.mod_self]
      · rw [Nat.min_eq_left (by omega), Nat.mod_eq_of_lt (by omega)]
    rw [hnext]
    generalize min i (groups - 1) + 1 = m
    have hmin : min (m % groups) (groups - 1) = m % groups := by
      have := Nat.mod_lt m hg
      omega
    by_cases hzero : free (m % groups) = 0
    · rw [if_neg (not_not.2 hzero), ih, hmin]
      constructor
      · intro hall t ht
        cases t with
        | zero => exact hzero
        | succ t =>
          have := hall t (by omega)
          rwa [Nat.add_assoc, Nat.mod_add_mod, Nat.add_comm 1 t] at this
      · intro hall t ht
        rw [Nat.add_assoc, Nat.mod_add_mod, Nat.add_comm 1 t]
        exact hall (t + 1) (by omega)
    · rw [if_pos hzero]
      exact iff_of_false (by simp) fun hall => hzero (hall 0 (Nat.succ_pos _))

theorem linear_some {n i r : Nat} (h : linear groups free n i = some r) (hg : 0 < groups) :
    r < groups ∧ free r ≠ 0 := by
  induction n generalizing i with
  | zero => cases h
  | succ n ih =>
    rw [linear] at h
    have hnext : (if i + 1 ≥ groups then 0 else i + 1) < groups := by
      split_ifs <;> omega
    generalize (if i + 1 ≥ groups then 0 else i + 1) = i' at h hnext
    split_ifs at h with hfree
    · cases h
      exact ⟨hnext, hfree⟩
    · exact ih h

end Search

/-! ## The group that is missed -/

/-- The number is a power of two. -/
def isPow2 (n : Nat) : Prop := ∃ k ≤ n, n = 2 ^ k

instance (n : Nat) : Decidable (isPow2 n) := inferInstanceAs (Decidable (∃ k ≤ n, n = 2 ^ k))

theorem isPow2_two_pow (k : Nat) : isPow2 (2 ^ k) := ⟨k, Nat.lt_two_pow_self.le, rfl⟩

/-- The group that neither search looks at: two behind the parent, or the last but one when the
parent is in the last.  The quadratic search comes across it when the number of groups is right. -/
def missed (groups parent : Nat) : Option Nat :=
  if parent + 2 < groups then if isPow2 (groups + 3) then none else some (parent + 2)
  else if parent + 2 = groups ∨ isPow2 groups then none
  else some (groups - 2)

/-- One of the searches looks at the group. -/
def Visited (groups parent i : Nat) : Prop :=
  i = parent ∨ (∃ k, 2 ^ k < groups ∧ i = (parent + (2 ^ (k + 1) - 1)) % groups) ∨
    ∃ t < groups - 2, i = (min (parent + 2) (groups - 1) + 1 + t) % groups

section Missed

variable {groups parent i : Nat}

/-- Where a distance of less than twice the number of groups leads. -/
theorem mod_lt_three {x : Nat} (hx : x < 3 * groups) :
    x % groups = x ∧ x < groups ∨ x % groups = x - groups ∧ groups ≤ x ∧ x < 2 * groups ∨
      x % groups = x - 2 * groups ∧ 2 * groups ≤ x := by
  rcases Nat.lt_or_ge x groups with h1 | h1
  · exact .inl ⟨Nat.mod_eq_of_lt h1, h1⟩
  · rcases Nat.lt_or_ge x (2 * groups) with h2 | h2
    · refine .inr (.inl ⟨?_, h1, h2⟩)
      rw [Nat.mod_eq_sub_mod h1, Nat.mod_eq_of_lt (by omega)]
    · refine .inr (.inr ⟨?_, h2⟩)
      rw [Nat.mod_eq_sub_mod h1, Nat.mod_eq_sub_mod (by omega), Nat.mod_eq_of_lt (by omega)]
      omega

/-- The parent is not in one of the last two groups. -/
theorem visited_iff_of_lt (hp : parent + 2 < groups) (hi : i < groups) :
    Visited groups parent i ↔ (i = parent + 2 → isPow2 (groups + 3)) := by
  have hmin : min (parent + 2) (groups - 1) = parent + 2 := Nat.min_eq_left (by omega)
  unfold Visited
  rw [hmin]
  constructor
  · rintro (rfl | ⟨k, hk, heq⟩ | ⟨t, ht, heq⟩) hmiss
    · omega
    · -- the distance is odd, so it goes round once
      have hpow : 2 ^ (k + 1) = 2 * 2 ^ k := by rw [Nat.pow_succ, mul_comm]
      have hx : parent + (2 ^ (k + 1) - 1) < 3 * groups := by omega
      rcases mod_lt_three hx with ⟨h1, -⟩ | ⟨h1, -, -⟩ | ⟨h1, h2⟩
      · omega
      · have hthree : groups + 3 = 2 ^ (k + 1) := by omega
        rw [hthree]
        exact isPow2_two_pow _
      · omega
    · have hx : parent + 2 + 1 + t < 3 * groups := by omega
      rcases mod_lt_three hx with ⟨h1, -⟩ | ⟨h1, -, -⟩ | ⟨h1, h2⟩ <;> omega
  · intro hmiss
    by_cases h2 : i = parent + 2
    · obtain ⟨k, -, hk⟩ := hmiss h2
      right
      left
      cases k with
      | zero => omega
      | succ k =>
        have hpow : 2 ^ (k + 1) = 2 * 2 ^ k := by rw [Nat.pow_succ, mul_comm]
        refine ⟨k, ?_, ?_⟩
        · cases k with
          | zero => omega
          | succ k =>
            have hpow' : 2 ^ (k + 1) = 2 * 2 ^ k := by rw [Nat.pow_succ, mul_comm]
            omega
        · have hdist : parent + (2 ^ (k + 1) - 1) = parent + 2 + groups := by omega
          rw [hdist, Nat.add_mod_right, Nat.mod_eq_of_lt hp, h2]
    · rcases Nat.lt_trichotomy i parent with hlt | rfl | hgt
      · refine .inr (.inr ⟨i + groups - (parent + 3), by omega, ?_⟩)
        have hdist : parent + 2 + 1 + (i + groups - (parent + 3)) = i + groups := by omega
        rw [hdist, Nat.add_mod_right, Nat.mod_eq_of_lt hi]
      · exact .inl rfl
      · by_cases h1 : i = parent + 1
        · refine .inr (.inl ⟨0, by omega, ?_⟩)
          rw [h1]
          exact (Nat.mod_eq_of_lt (by omega)).symm
        · refine .inr (.inr ⟨i - (parent + 3), by omega, ?_⟩)
          have hdist : parent + 2 + 1 + (i - (parent + 3)) = i := by omega
          rw [hdist, Nat.mod_eq_of_lt hi]

/-- The start of the linear search is beyond the last group. -/
theorem visited_iff_of_ge (hp : groups ≤ parent + 2) (hparent : parent < groups) (hi : i < groups) :
    Visited groups parent i ↔
      (i + 2 = groups → parent + 2 = groups ∨ isPow2 groups) := by
  have hmin : min (parent + 2) (groups - 1) = groups - 1 := Nat.min_eq_right (by omega)
  have hlin : ∀ t, (groups - 1 + 1 + t) % groups = t % groups := by
    intro t
    rw [Nat.sub_add_cancel (by omega), Nat.add_mod_left]
  unfold Visited
  rw [hmin]
  simp only [hlin]
  constructor
  · rintro (rfl | ⟨k, hk, heq⟩ | ⟨t, ht, heq⟩) hmiss
    · exact .inl hmiss
    · by_cases hlast : parent + 2 = groups
      · exact .inl hlast
      · right
        have hpow : 2 ^ (k + 1) = 2 * 2 ^ k := by rw [Nat.pow_succ, mul_comm]
        have hpos := Nat.two_pow_pos k
        have hx : parent + (2 ^ (k + 1) - 1) < 3 * groups := by omega
        rcases mod_lt_three hx with ⟨h1, h2⟩ | ⟨h1, -, -⟩ | ⟨h1, h2⟩
        · omega
        · have hgroups : groups = 2 ^ (k + 1) := by omega
          rw [hgroups]
          exact isPow2_two_pow _
        · omega
    · rw [Nat.mod_eq_of_lt (by omega)] at heq
      omega
  · intro hmiss
    by_cases hlt : i < groups - 2
    · exact .inr (.inr ⟨i, hlt, (Nat.mod_eq_of_lt hi).symm⟩)
    · by_cases hself : i = parent
      · exact .inl hself
      · right
        left
        by_cases hlast : parent + 2 = groups
        · refine ⟨0, by omega, ?_⟩
          have hdist : parent + (2 ^ (0 + 1) - 1) = i := by omega
          rw [hdist, Nat.mod_eq_of_lt hi]
        · have hi2 : i + 2 = groups := by omega
          rcases hmiss hi2 with hf | ⟨k, -, hk⟩
          · exact absurd hf hlast
          · cases k with
            | zero => omega
            | succ k =>
              have hpow : 2 ^ (k + 1) = 2 * 2 ^ k := by rw [Nat.pow_succ, mul_comm]
              refine ⟨k, by omega, ?_⟩
              have hdist : parent + (2 ^ (k + 1) - 1) = i + groups := by omega
              rw [hdist, Nat.add_mod_right, Nat.mod_eq_of_lt hi]

/-- **The searches look at every group but the one that is missed.** -/
theorem visited_iff (hp : parent < groups) (hi : i < groups) :
    Visited groups parent i ↔ missed groups parent ≠ some i := by
  unfold missed
  by_cases hlt : parent + 2 < groups
  · rw [visited_iff_of_lt hlt hi, if_pos hlt]
    split_ifs with hpow
    · simp [hpow]
    · simp [hpow, eq_comm]
  · rw [visited_iff_of_ge (not_lt.1 hlt) hp hi, if_neg hlt]
    split_ifs with hor
    · simp [hor]
    · rw [ne_eq, Option.some.injEq]
      constructor
      · intro hmiss heq
        have hone : groups ≠ 1 := by
          rintro rfl
          exact hor (.inr (isPow2_two_pow 0))
        exact hor (hmiss (by omega))
      · intro hne heq
        exact absurd (show groups - 2 = i by omega) hne

/-- **The search for another inode fails** when no group has free inodes, the missed one apart. -/
theorem fileGroup_none_iff {free : Nat → Nat} (hp : parent < groups) :
    fileGroup groups parent free = none ↔
      ∀ i < groups, missed groups parent ≠ some i → free i = 0 := by
  have hg : 0 < groups := by omega
  have hvisit : fileGroup groups parent free = none ↔ ∀ i, Visited groups parent i → free i = 0 := by
    unfold fileGroup
    by_cases hself : free parent = 0
    · rw [if_neg (not_not.2 hself)]
      cases hquad : quadratic groups free groups 1 parent with
      | some r =>
        refine iff_of_false (by simp) fun hall => ?_
        have hno : quadratic groups free groups 1 parent = none :=
          (quadratic_none_iff hp).2 fun k hk => hall _ (.inr (.inl ⟨k, hk, rfl⟩))
        rw [hquad] at hno
        cases hno
      | none =>
        simp only
        have hquad' := (quadratic_none_iff hp).1 hquad
        rw [linear_none_iff hg]
        constructor
        · rintro hall i (rfl | ⟨k, hk, rfl⟩ | ⟨t, ht, rfl⟩)
          · exact hself
          · exact hquad' k hk
          · exact hall t ht
        · exact fun hall t ht => hall _ (.inr (.inr ⟨t, ht, rfl⟩))
    · rw [if_pos hself]
      exact iff_of_false (by simp) fun hall => hself (hall parent (.inl rfl))
  rw [hvisit]
  constructor
  · exact fun hall i hi hmiss => hall i ((visited_iff hp hi).2 hmiss)
  · intro hall i hv
    have hi : i < groups := by
      rcases hv with rfl | ⟨k, -, rfl⟩ | ⟨t, -, rfl⟩
      · exact hp
      · exact Nat.mod_lt _ hg
      · exact Nat.mod_lt _ hg
    exact hall i hi ((visited_iff hp hi).1 hv)

theorem fileGroup_some {free : Nat → Nat} {r : Nat} (hp : parent < groups)
    (h : fileGroup groups parent free = some r) : r < groups ∧ free r ≠ 0 := by
  unfold fileGroup at h
  split_ifs at h with hself
  · cases h
    exact ⟨hp, hself⟩
  · cases hquad : quadratic groups free groups 1 parent with
    | some r' =>
      rw [hquad] at h
      cases h
      exact quadratic_some hquad hp
    | none =>
      rw [hquad] at h
      exact linear_some h (by omega)

end Missed

/-! ## Directories -/

/-- The body of the loop over the groups: the group `j` against the best one so far. -/
def betterGroup (free : Nat → Nat) (ave : Nat) (best : Option Nat) (j : Nat) : Option Nat :=
  if free j ≠ 0 ∧ free j ≥ ave then
    match best with
    | none => some j
    | some i => if free j > free i then some j else some i
  else best

variable {ave : Nat} {best : Option Nat}

theorem betterGroup_some {free : Nat → Nat} {j r : Nat}
    (h : betterGroup free ave best j = some r) : best = some r ∨ r = j ∧ free j ≠ 0 := by
  unfold betterGroup at h
  split_ifs at h with hfit
  · cases best with
    | none =>
      cases h
      exact .inr ⟨rfl, hfit.1⟩
    | some i =>
      simp only at h
      split_ifs at h
      · cases h
        exact .inr ⟨rfl, hfit.1⟩
      · exact .inl h
  · exact .inl h

theorem betterGroup_isSome {free : Nat → Nat} {j : Nat}
    (h : best.isSome ∨ free j ≠ 0 ∧ free j ≥ ave) : (betterGroup free ave best j).isSome := by
  unfold betterGroup
  split_ifs with hfit
  · cases best with
    | none => rfl
    | some i =>
      simp only
      split_ifs <;> rfl
  · exact h.resolve_right hfit

/-- The loop has seen a group, or one that is left will do. -/
theorem betterGroup_fold_isSome {free : Nat → Nat} {l : List Nat}
    (h : best.isSome ∨ ∃ j ∈ l, free j ≠ 0 ∧ free j ≥ ave) :
    (l.foldl (betterGroup free ave) best).isSome := by
  induction l generalizing best with
  | nil =>
    rcases h with hsome | ⟨j, hj, -⟩
    · exact hsome
    · cases hj
  | cons j l ih =>
    apply ih
    rcases h with hsome | ⟨j', hj', hfit⟩
    · exact .inl (betterGroup_isSome (.inl hsome))
    · rcases List.mem_cons.1 hj' with rfl | hj'
      · exact .inl (betterGroup_isSome (.inr hfit))
      · exact .inr ⟨j', hj', hfit⟩

theorem betterGroup_fold_some {free : Nat → Nat} {r : Nat} {l : List Nat}
    (h : l.foldl (betterGroup free ave) best = some r) :
    best = some r ∨ r ∈ l ∧ free r ≠ 0 := by
  induction l generalizing best with
  | nil => exact .inl h
  | cons j l ih =>
    rcases ih h with hnext | ⟨hr, hfree⟩
    · rcases betterGroup_some hnext with hbest | ⟨rfl, hfree⟩
      · exact .inl hbest
      · exact .inr ⟨List.mem_cons_self, hfree⟩
    · exact .inr ⟨List.mem_cons_of_mem _ hr, hfree⟩

theorem dirGroup_eq (groups ave : Nat) (free : Nat → Nat) :
    dirGroup groups ave free = (List.range groups).foldl (betterGroup free ave) none := rfl

theorem dirGroup_some {groups r : Nat} {free : Nat → Nat}
    (h : dirGroup groups ave free = some r) : r < groups ∧ free r ≠ 0 := by
  rw [dirGroup_eq] at h
  rcases betterGroup_fold_some h with hnone | ⟨hr, hfree⟩
  · cases hnone
  · exact ⟨List.mem_range.1 hr, hfree⟩

/-- **Some group has at least the average**, and the search for that or less finds one. -/
theorem dirGroup_isSome {groups total : Nat} {free : Nat → Nat}
    (hsum : total = ∑ i ∈ Finset.range groups, free i) (htotal : total ≠ 0)
    (hle : ave ≤ total / groups) : (dirGroup groups ave free).isSome := by
  rw [dirGroup_eq]
  apply betterGroup_fold_isSome
  right
  by_contra hno
  simp only [List.mem_range, not_exists, not_and, ge_iff_le, not_le] at hno
  have hg : 0 < groups := by
    rcases Nat.eq_zero_or_pos groups with rfl | hpos
    · simp at hsum
      exact absurd hsum htotal
    · exact hpos
  by_cases have0 : total / groups = 0
  · -- with the average 0 any group with a free inode will do
    refine htotal (hsum.trans (Finset.sum_eq_zero fun i hi => ?_))
    by_contra hne
    have := hno i (Finset.mem_range.1 hi) hne
    omega
  · have hlt : total < groups * (total / groups) := by
      rw [hsum]
      calc ∑ i ∈ Finset.range groups, free i
          < ∑ _i ∈ Finset.range groups, (∑ i ∈ Finset.range groups, free i) / groups := by
            refine Finset.sum_lt_sum_of_nonempty ⟨0, Finset.mem_range.2 hg⟩ fun i hi => ?_
            rw [← hsum]
            by_cases hz : free i = 0
            · rw [hz]
              exact Nat.pos_of_ne_zero have0
            · exact (hno i (Finset.mem_range.1 hi) hz).trans_le hle
        _ = groups * ((∑ i ∈ Finset.range groups, free i) / groups) := by
            rw [Finset.sum_const, Finset.card_range, smul_eq_mul]
    exact absurd (Nat.mul_div_le total groups) (not_le.2 hlt)

/-! ## `ext2_new_inode` -/

/-- The inodes of a group are at the start of it. -/
theorem inodeValid_of_le {g : Geometry} {i j j' : Nat} (h : inodeValid g i j) (hle : j' ≤ j) :
    inodeValid g i j' := by
  unfold inodeValid Geometry.ino at *
  omega

theorem avefreei_le (g : Geometry) (s : State) : avefreei g s ≤ s.freeInodesCount / g.groupsCount := by
  rw [avefreei, BitVec.toInt_eq_toNat_cond, BitVec.toNat_ofNat]
  have hmod := Nat.mod_le (s.freeInodesCount / g.groupsCount) (2 ^ 32)
  split <;> omega

/-- **The pass, with the group chosen.**  The first bit that is not set stands for an inode. -/
theorem newInodePass_got {g : Geometry} {s : State} {parent i : Nat} {isDir : Bool}
    (h : Consistent g s) (hparent : parent < g.groupsCount) (hi : i < g.groupsCount)
    (hfree : s.bgFreeInodesCount i ≠ 0)
    (hchoice : chosenGroup g parent isDir s = some i) :
    ∃ s' j, newInodePass g parent isDir s = .got s' (g.ino i j) ∧ j < g.inodesPerGroup ∧
      inodeValid g i j ∧ s.inodeBitmap i j = false := by
  have hclear : 0 < Tally.clear g.inodesPerGroup (inodeValid g i) (s.inodeBitmap i) := by
    rw [← h.inodes.counts i hi]
    exact Nat.pos_of_ne_zero hfree
  obtain ⟨b, hb, hvalid, hbit⟩ := Tally.exists_of_clear_pos hclear
  obtain ⟨hle, hzero⟩ := findFirstZeroBit_spec hb hbit
  unfold newInodePass
  rw [if_neg (by omega), hchoice]
  obtain ⟨hge, -⟩ | ⟨-, c, nr, hload, -, hbuf⟩ := loadInodeBitmap_spec h.inodeCache i
  · omega
  · simp only [hload, hbuf]
    set j := findFirstZeroBit (s.inodeBitmap i) 0 g.inodesPerGroup
    have hj : j < g.inodesPerGroup := lt_of_le_of_lt hle hb
    have hjv : inodeValid g i j := inodeValid_of_le hvalid hle
    have hcount : ¬ g.ino i j > g.inodesCount := not_lt.2 hjv
    rw [if_pos hj, hzero, if_neg (by simp), if_neg hcount]
    exact ⟨_, j, rfl, hj, hjv, hzero⟩

/-- **When `ext2_new_inode` finds an inode.**  A directory always gets one; another inode gets one
unless only the group that the searches miss has free inodes, and then the call returns `NULL`. -/
theorem new_inode_finds_iff {g : Geometry} {s : State} (h : Consistent g s)
    (hfree : s.freeInodesCount ≠ 0) {parent : Nat} (hparent : parent < g.groupsCount)
    (isDir : Bool) (fuel : Nat) :
    (∃ s' i j, newInode g parent isDir true (fuel + 1) s = some (s', g.ino i j) ∧
      i < g.groupsCount ∧ s.bgFreeInodesCount i ≠ 0 ∧ j < g.inodesPerGroup ∧
        inodeValid g i j ∧ s.inodeBitmap i j = false) ↔
      (isDir = false → ∃ i < g.groupsCount, s.bgFreeInodesCount i ≠ 0 ∧
        missed g.groupsCount parent ≠ some i) := by
  have hcall : newInode g parent isDir true (fuel + 1) s =
      passes (newInodePass g parent isDir) (fuel + 1) s := by
    rw [newInode, if_neg (by simp)]
  have hfound : ∀ i, i < g.groupsCount → s.bgFreeInodesCount i ≠ 0 →
      chosenGroup g parent isDir s = some i →
      ∃ s' i j, newInode g parent isDir true (fuel + 1) s = some (s', g.ino i j) ∧
        i < g.groupsCount ∧ s.bgFreeInodesCount i ≠ 0 ∧ j < g.inodesPerGroup ∧
          inodeValid g i j ∧ s.inodeBitmap i j = false := by
    intro i hi hne hchoice
    obtain ⟨s', j, hpass, hj, hvalid, hbit⟩ := newInodePass_got h hparent hi hne hchoice
    refine ⟨s', i, j, ?_, hi, hne, hj, hvalid, hbit⟩
    rw [hcall, passes, hpass]
  cases isDir with
  | true =>
    refine iff_of_true ?_ (by simp)
    have hsome := dirGroup_isSome h.inodes.sum hfree (avefreei_le g s)
    obtain ⟨i, hchoice⟩ := Option.isSome_iff_exists.1 hsome
    obtain ⟨hi, hne⟩ := dirGroup_some hchoice
    exact hfound i hi hne (by rwa [chosenGroup, if_pos rfl])
  | false =>
    simp only [chosenGroup, Bool.false_eq_true, if_false] at hfound
    cases hchoice : fileGroup g.groupsCount parent s.bgFreeInodesCount with
    | some i =>
      obtain ⟨hi, hne⟩ := fileGroup_some hparent hchoice
      refine iff_of_true (hfound i hi hne hchoice) fun _ => ?_
      by_contra hno
      simp only [not_exists, not_and, ne_eq, not_not] at hno
      have hnone : fileGroup g.groupsCount parent s.bgFreeInodesCount = none := by
        refine (fileGroup_none_iff hparent).2 fun i hi hmiss => ?_
        by_contra hpos
        exact hmiss (hno i hi hpos)
      rw [hchoice] at hnone
      cases hnone
    | none =>
      refine iff_of_false ?_ fun hex => ?_
      · rintro ⟨s', i, j, hnew, -⟩
        have hpass : newInodePass g parent false s = .fail s := by
          unfold newInodePass
          rw [if_neg (by omega)]
          simp only [chosenGroup, Bool.false_eq_true, if_false, hchoice]
        rw [hcall, passes, hpass] at hnew
        simp only [Option.some.injEq, Prod.mk.injEq, Geometry.ino] at hnew
        omega
      · obtain ⟨i, hi, hpos, hmiss⟩ := hex rfl
        exact hpos ((fileGroup_none_iff hparent).1 hchoice i hi hmiss)

/-- Four groups of eight blocks and eight inodes. -/
def fourGroups : Geometry where
  firstDataBlock := 1
  blocksCount := 33
  rBlocksCount := 0
  blocksPerGroup := 8
  inodesCount := 32
  inodesPerGroup := 8
  descPerBlock := 32
  eight_dvd := eight_dvd_eight
  blocksPerGroup_pos := eight_pos
  inodesPerGroup_pos := eight_pos
  descPerBlock_pos := thirtyTwo_pos
  first_le := by decide

/-- The inodes of one group are free, and all others are in use. -/
def oneGroupFree (k : Nat) : State where
  freeBlocksCount := 32
  freeInodesCount := 8
  bgFreeBlocksCount _ := 8
  bgFreeInodesCount i := if i = k then 8 else 0
  bgUsedDirsCount _ := 0
  blockBitmap _ _ := false
  inodeBitmap i _ := i ≠ k
  blockCache := Cache.empty
  inodeCache := Cache.empty

theorem oneGroupFree_consistent : ∀ k < 4, Consistent fourGroups (oneGroupFree k) := by
  intro k hk
  have hall : ∀ k < 4, (∀ i < fourGroups.groupsCount, (oneGroupFree k).bgFreeInodesCount i =
      Tally.clear fourGroups.inodesPerGroup (inodeValid fourGroups i)
        ((oneGroupFree k).inodeBitmap i)) ∧ (oneGroupFree k).freeInodesCount =
      ∑ i ∈ Finset.range fourGroups.groupsCount, (oneGroupFree k).bgFreeInodesCount i := by
    decide +kernel
  have hblocks : Tally.Balanced fourGroups.groupsCount fourGroups.blocksPerGroup
      (blockValid fourGroups) (fun _ _ => false) (fun _ => 8) 32 :=
    ⟨by decide +kernel, by decide +kernel⟩
  exact ⟨hblocks, ⟨(hall k hk).1, (hall k hk).2⟩, Cache.valid_empty _, Cache.valid_empty _⟩

/-- The group before the one that is missed. -/
theorem new_inode_finds_next :
    (oneGroupFree 1).freeInodesCount ≠ 0 ∧
      ∃ s' i j, newInode fourGroups 0 false true 1 (oneGroupFree 1) =
          some (s', fourGroups.ino i j) ∧
        i < fourGroups.groupsCount ∧ (oneGroupFree 1).bgFreeInodesCount i ≠ 0 ∧
          j < fourGroups.inodesPerGroup ∧ inodeValid fourGroups i j ∧
            (oneGroupFree 1).inodeBitmap i j = false :=
  ⟨by decide, (new_inode_finds_iff (oneGroupFree_consistent 1 (by decide)) (by decide)
    (by decide) false 0).2 fun _ => ⟨1, by decide, by decide, by decide⟩⟩

/-- **A group is missed.**  The parent is in the group 0, and the eight inodes of the group 2 are
free: a file gets none of them. -/
theorem new_inode_misses :
    Consistent fourGroups (oneGroupFree 2) ∧ (oneGroupFree 2).freeInodesCount = 8 ∧
      (newInode fourGroups 0 false true 1 (oneGroupFree 2)).map
        (fun p => (p.1.freeInodesCount, p.2)) = some (8, 0) :=
  ⟨oneGroupFree_consistent 2 (by decide), rfl, by decide +kernel⟩

end LinuxEvocation.Ext2
