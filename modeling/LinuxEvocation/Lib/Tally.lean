import Mathlib.Tactic

/-!
# Places in groups, and three levels of counting them

Places are numbered within groups.  A map says which of them are used, a counter for each group says
how many of its places are free, and one more counter says how many there are in all.  Only some of
the numbers of a group stand for a place.

* `clear` — how many places of a group are free.
* `Balanced` — the counters agree with the map.
* `Balanced.take`, `Balanced.put` — a place is taken or given back, and the counters follow.
* `Balanced.mark` — a number that stands for no place does not count.
-/

namespace Tally

open Function (update update_eq_self update_of_ne update_self)

/-- How many of the places are free. -/
def clear (size : Nat) (valid : Nat → Prop) [DecidablePred valid] (used : Nat → Bool) : Nat :=
  ((Finset.range size).filter fun b => valid b ∧ used b = false).card

section Clear

variable {size b : Nat} {valid : Nat → Prop} [DecidablePred valid] {used : Nat → Bool}

theorem exists_of_clear_pos (h : 0 < clear size valid used) :
    ∃ b < size, valid b ∧ used b = false := by
  obtain ⟨b, hb⟩ := Finset.card_pos.1 h
  rw [Finset.mem_filter, Finset.mem_range] at hb
  exact ⟨b, hb.1, hb.2⟩

theorem clear_take (hb : b < size) (hvalid : valid b) (hfree : used b = false) :
    clear size valid (update used b true) + 1 = clear size valid used := by
  have hmem : b ∈ (Finset.range size).filter fun b => valid b ∧ used b = false := by
    simp [hb, hvalid, hfree]
  have herase : ((Finset.range size).filter fun c => valid c ∧ update used b true c = false)
      = ((Finset.range size).filter fun c => valid c ∧ used c = false).erase b := by
    ext c
    by_cases hc : c = b
    · simp [hc]
    · simp [hc]
  rw [clear, herase]
  exact Finset.card_erase_add_one hmem

theorem clear_put (hb : b < size) (hvalid : valid b) (hused : used b = true) :
    clear size valid (update used b false) = clear size valid used + 1 := by
  have h : clear size valid (update (update used b false) b true) + 1 =
      clear size valid (update used b false) :=
    clear_take hb hvalid (update_self _ _ _)
  rw [Function.update_idem, ← hused, update_eq_self] at h
  exact h.symm

theorem clear_mark (v : Bool) (hvalid : ¬ valid b) :
    clear size valid (update used b v) = clear size valid used := by
  unfold clear
  congr 1
  ext c
  by_cases hc : c = b
  · simp [hc, hvalid]
  · simp [hc]

end Clear

/-- **The counters agree with the map.** -/
structure Balanced (groups size : Nat) (valid : Nat → Nat → Prop) [∀ i, DecidablePred (valid i)]
    (used : Nat → Nat → Bool) (free : Nat → Nat) (total : Nat) : Prop where
  counts : ∀ i < groups, free i = clear size (valid i) (used i)
  sum : total = ∑ i ∈ Finset.range groups, free i

namespace Balanced

variable {groups size i b total : Nat} {valid : Nat → Nat → Prop} [∀ i, DecidablePred (valid i)]
  {used : Nat → Nat → Bool} {free : Nat → Nat}

/-- The sum, with one of its terms set apart. -/
theorem sum_update (free : Nat → Nat) (hi : i < groups) (v : Nat) :
    (∑ j ∈ Finset.range groups, update free i v j) + free i =
      (∑ j ∈ Finset.range groups, free j) + v := by
  have hmem := Finset.mem_range.2 hi
  rw [Finset.sum_update_of_mem hmem, Finset.sum_eq_add_sum_sdiff_singleton_of_mem hmem free]
  omega

/-- A map and a counter of one group change together. -/
theorem change (h : Balanced groups size valid used free total) (hi : i < groups)
    {bits : Nat → Bool} {v total' : Nat} (hv : v = clear size (valid i) bits)
    (htotal : total' + free i = total + v) :
    Balanced groups size valid (update used i bits) (update free i v) total' := by
  refine ⟨fun j hj => ?_, ?_⟩
  · by_cases hji : j = i
    · subst hji
      rw [update_self, update_self]
      exact hv
    · rw [update_of_ne hji, update_of_ne hji]
      exact h.counts j hj
  · have hsum := sum_update free hi v
    have := h.sum
    omega

theorem take (h : Balanced groups size valid used free total) (hi : i < groups) (hb : b < size)
    (hvalid : valid i b) (hfree : used i b = false) :
    Balanced groups size valid (update used i (update (used i) b true))
      (update free i (free i - 1)) (total - 1) := by
  have hcount := clear_take hb hvalid hfree
  have hi' := h.counts i hi
  have hle : free i ≤ total := by
    rw [h.sum]
    exact Finset.single_le_sum (fun _ _ => Nat.zero_le _) (Finset.mem_range.2 hi)
  exact h.change hi (by omega) (by omega)

theorem put (h : Balanced groups size valid used free total) (hi : i < groups) (hb : b < size)
    (hvalid : valid i b) (hused : used i b = true) :
    Balanced groups size valid (update used i (update (used i) b false))
      (update free i (free i + 1)) (total + 1) := by
  have hcount := clear_put hb hvalid hused
  have hi' := h.counts i hi
  exact h.change hi (by omega) (by omega)

/-- A number that stands for no place is marked. -/
theorem mark (h : Balanced groups size valid used free total) (v : Bool) (hvalid : ¬ valid i b) :
    Balanced groups size valid (update used i (update (used i) b v)) free
      total := by
  refine ⟨fun j hj => ?_, h.sum⟩
  by_cases hji : j = i
  · subst hji
    rw [update_self, clear_mark v hvalid]
    exact h.counts j hj
  · rw [update_of_ne hji]
    exact h.counts j hj

end Balanced

end Tally
