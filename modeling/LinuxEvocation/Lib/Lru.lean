import Mathlib.Tactic

/-!
# A cache that forgets what was not used for the longest time

The cache is a list of keys with their values, the one used last first, of a bounded length.

* `find`, `touch` — the value of a key, and the list once it was asked for.
* `insert` — a key gets a value; if the cache is full the last key is forgotten.
* `remove` — a key is forgotten.
* `Distinct` — no key is there twice, which all of them keep.
-/

namespace Lru

variable {κ α : Type*}

def Distinct (c : List (κ × α)) : Prop := (c.map Prod.fst).Nodup

theorem Distinct.eq_of_mem {c : List (κ × α)} (h : Distinct c) {k : κ} {v v' : α}
    (hv : (k, v) ∈ c) (hv' : (k, v') ∈ c) : v = v' :=
  (Prod.mk.inj (List.inj_on_of_nodup_map h hv hv' rfl)).2

variable [DecidableEq κ]

def find (c : List (κ × α)) (k : κ) : Option α := (c.find? fun e => e.1 = k).map Prod.snd

/-- The entry of the key comes to the front. -/
def touch (c : List (κ × α)) (k : κ) : List (κ × α) :=
  match c.find? fun e => e.1 = k with
  | some e => e :: c.eraseP fun e => e.1 = k
  | none => c

def remove (c : List (κ × α)) (k : κ) : List (κ × α) := c.eraseP fun e => e.1 = k

def insert (cap : Nat) (c : List (κ × α)) (k : κ) (v : α) : List (κ × α) :=
  if c.any fun e => e.1 = k then (k, v) :: remove c k
  else if c.length < cap then (k, v) :: c
  else (k, v) :: c.dropLast

variable {c : List (κ × α)} {k : κ} {v : α} {e : κ × α} {cap : Nat}

theorem mem_of_find_eq_some (h : find c k = some v) : (k, v) ∈ c := by
  obtain ⟨e, he, rfl⟩ := Option.map_eq_some_iff.1 h
  have hk := List.find?_some he
  simp only [decide_eq_true_eq] at hk
  rw [← hk]
  exact List.mem_of_find?_eq_some he

theorem Distinct.find_eq_some (h : Distinct c) : find c k = some v ↔ (k, v) ∈ c := by
  refine ⟨mem_of_find_eq_some, fun hv => ?_⟩
  cases hf : find c k with
  | some v' => rw [h.eq_of_mem hv (mem_of_find_eq_some hf)]
  | none =>
    rw [find, Option.map_eq_none_iff, List.find?_eq_none] at hf
    exact absurd (decide_eq_true rfl) (hf (k, v) hv)

theorem touch_perm (c : List (κ × α)) (k : κ) : (touch c k).Perm c := by
  induction c with
  | nil => rfl
  | cons x c ih =>
    rw [touch, List.find?_cons, List.eraseP_cons]
    by_cases hx : x.1 = k
    · simp [hx]
    · simp only [hx, decide_false, cond_false]
      rw [touch] at ih
      cases hf : c.find? fun e => e.1 = k with
      | none => exact .refl _
      | some e =>
        simp only [hf] at ih
        exact (List.Perm.swap x e _).trans (ih.cons x)

theorem mem_touch : e ∈ touch c k ↔ e ∈ c := (touch_perm c k).mem_iff

theorem Distinct.touch (h : Distinct c) (k : κ) : Distinct (touch c k) :=
  ((touch_perm c k).map Prod.fst).nodup_iff.2 h

theorem Distinct.mem_remove (h : Distinct c) : e ∈ remove c k ↔ e ∈ c ∧ e.1 ≠ k := by
  induction c with
  | nil => simp [remove]
  | cons x c ih =>
    obtain ⟨hx, hc⟩ := List.nodup_cons.1 h
    by_cases hxk : x.1 = k
    · have hrest : ∀ e ∈ c, e.1 ≠ k := fun e he hek =>
        hx (hxk.trans hek.symm ▸ List.mem_map_of_mem he)
      have hrem : remove (x :: c) k = c := List.eraseP_cons_of_pos (by simp [hxk])
      rw [hrem, List.mem_cons]
      constructor
      · exact fun he => ⟨.inr he, hrest e he⟩
      · rintro ⟨rfl | he, hne⟩
        · exact absurd hxk hne
        · exact he
    · have hrem : remove (x :: c) k = x :: remove c k := List.eraseP_cons_of_neg (by simp [hxk])
      rw [hrem, List.mem_cons, List.mem_cons, ih hc]
      constructor
      · rintro (rfl | he)
        · exact ⟨.inl rfl, hxk⟩
        · exact ⟨.inr he.1, he.2⟩
      · rintro ⟨rfl | he, hne⟩
        · exact .inl rfl
        · exact .inr ⟨he, hne⟩

theorem Distinct.remove (h : Distinct c) (k : κ) : Distinct (remove c k) :=
  (List.eraseP_sublist.map Prod.fst).nodup h

theorem ne_of_not_any (h : ¬ (c.any fun e => e.1 = k) = true) (he : e ∈ c) : e.1 ≠ k := by
  intro hek
  exact h (List.any_eq_true.2 ⟨e, he, decide_eq_true hek⟩)

/-- A key that gets a value has no other one. -/
theorem Distinct.mem_insert (h : Distinct c) (he : e ∈ insert cap c k v) :
    e = (k, v) ∨ e ∈ c ∧ e.1 ≠ k := by
  rw [Lru.insert] at he
  by_cases hin : (c.any fun e => e.1 = k) = true
  · rw [if_pos hin, List.mem_cons, h.mem_remove] at he
    exact he
  · have hne : ∀ e ∈ c, e.1 ≠ k := fun e he => ne_of_not_any hin he
    rw [if_neg hin] at he
    split at he <;> rcases List.mem_cons.1 he with rfl | he
    · exact .inl rfl
    · exact .inr ⟨he, hne e he⟩
    · exact .inl rfl
    · exact .inr ⟨List.mem_of_mem_dropLast he, hne e (List.mem_of_mem_dropLast he)⟩

theorem Distinct.insert (h : Distinct c) (cap : Nat) (k : κ) (v : α) :
    Distinct (insert cap c k v) := by
  rw [Lru.insert]
  by_cases hin : (c.any fun e => e.1 = k) = true
  · rw [if_pos hin]
    refine List.nodup_cons.2 ⟨?_, h.remove k⟩
    intro hc
    obtain ⟨e, he, hek⟩ := List.mem_map.1 hc
    exact (h.mem_remove.1 he).2 hek
  · have hne : k ∉ c.map Prod.fst := by
      intro hc
      obtain ⟨e, he, hek⟩ := List.mem_map.1 hc
      exact ne_of_not_any hin he hek
    rw [if_neg hin]
    split
    · exact List.nodup_cons.2 ⟨hne, h⟩
    · refine List.nodup_cons.2 ⟨?_, ((List.dropLast_sublist c).map _).nodup h⟩
      exact fun hc => hne (((List.dropLast_sublist c).map _).subset hc)

end Lru
