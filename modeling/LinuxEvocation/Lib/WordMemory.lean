import Mathlib.Data.BitVec
import Mathlib.Tactic

/-!
# A memory of bytes with addresses of 32 bits

Addresses wrap around, so every address is one.

* `get m a`, `put m a v` — a word, the lowest byte first.
* `putAll m f l` — words stored at distances from `f`, one after the other.
* `Apart` — two words that have no byte in common.
-/

namespace WordMemory

abbrev Mem := BitVec 32 → BitVec 8

/-- The word at an address. -/
def get (m : Mem) (a : BitVec 32) : BitVec 32 := m (a + 3) ++ m (a + 2) ++ m (a + 1) ++ m a

/-- The memory once a word is stored. -/
def put (m : Mem) (a v : BitVec 32) : Mem := fun b =>
  if b - a < 4 then (v >>> (8 * (b - a).toNat)).setWidth 8 else m b

/-- The memory once words are stored at distances from an address. -/
def putAll (m : Mem) (f : BitVec 32) (l : List (BitVec 32 × BitVec 32)) : Mem :=
  l.foldl (fun m x => put m (f + x.1) x.2) m

/-- Words at two distances have no byte in common. -/
def Apart (o p : BitVec 32) : Prop := 4 ≤ o - p ∧ 4 ≤ p - o

instance (o p : BitVec 32) : Decidable (Apart o p) := inferInstanceAs (Decidable (_ ∧ _))

variable {m m' : Mem} {f a b v o : BitVec 32} {l : List (BitVec 32 × BitVec 32)}

/-- Only the four bytes that are read matter. -/
theorem get_congr (h : ∀ b, b - a < 4 → m' b = m b) : get m' a = get m a := by
  have hbyte (k : BitVec 32) (hk : k < 4) : m' (a + k) = m (a + k) := by
    apply h
    rwa [add_sub_cancel_left]
  have hzero := hbyte 0 (by decide)
  rw [add_zero] at hzero
  rw [get, get, hbyte 3 (by decide), hbyte 2 (by decide), hbyte 1 (by decide), hzero]

theorem put_of_apart (h : ¬ b - a < 4) : put m a v b = m b :=
  if_neg h

theorem get_put_self : get (put m a v) a = v := by
  have hbyte (k : BitVec 32) (hk : k < 4) :
      put m a v (a + k) = (v >>> (8 * k.toNat)).setWidth 8 := by
    rw [put, add_sub_cancel_left, if_pos hk]
  have hzero := hbyte 0 (by decide)
  rw [add_zero] at hzero
  rw [get, hbyte 3 (by decide), hbyte 2 (by decide), hbyte 1 (by decide), hzero]
  apply BitVec.eq_of_getLsbD_eq
  intro i hi
  simp
  grind

theorem get_put_of_apart (h : Apart b a) : get (put m a v) b = get m b := by
  apply get_congr
  intro c hc
  apply put_of_apart
  obtain ⟨h₁, h₂⟩ := h
  simp only [BitVec.lt_def, BitVec.le_def, BitVec.toNat_sub] at *
  omega

theorem apart_add {p : BitVec 32} (h : Apart o p) : Apart (f + o) (f + p) := by
  rw [Apart, add_sub_add_left_eq_sub, add_sub_add_left_eq_sub]
  exact h

/-- The last store to a place counts, when none after it touches the place. -/
theorem get_putAll {n : Nat} (hn : l[n]? = some (o, v))
    (h : ∀ p ∈ (l.map Prod.fst).drop (n + 1), Apart o p) : get (putAll m f l) (f + o) = v := by
  induction l generalizing m n with
  | nil => exact absurd hn.symm (Option.some_ne_none _)
  | cons x l ih =>
    cases n with
    | succ n => exact ih hn h
    | zero =>
      obtain rfl : x = (o, v) := Option.some.inj hn
      have hlater (m : Mem) : get (putAll m f l) (f + o) = get m (f + o) := by
        clear ih hn
        induction l generalizing m with
        | nil => rfl
        | cons y l ih =>
          have hy := h y.1 List.mem_cons_self
          rw [putAll, List.foldl_cons]
          exact (ih (fun p hp => h p (List.mem_cons_of_mem _ hp)) _).trans
            (get_put_of_apart (apart_add hy))
      rw [putAll, List.foldl_cons]
      exact (hlater _).trans get_put_self

/-- What lies behind the last word is kept. -/
theorem putAll_of_outside {n : BitVec 32} (h : ∀ p ∈ l.map Prod.fst, p.toNat + 4 ≤ n.toNat)
    (hb : n ≤ b - f) : putAll m f l b = m b := by
  induction l generalizing m with
  | nil => rfl
  | cons x l ih =>
    have hle := h x.1 List.mem_cons_self
    rw [putAll, List.foldl_cons]
    refine (ih fun p hp => h p (List.mem_cons_of_mem _ hp)).trans (put_of_apart ?_)
    rw [sub_add_eq_sub_sub]
    generalize b - f = d at *
    have hfour : (4 : BitVec 32).toNat = 4 := rfl
    simp only [BitVec.lt_def, BitVec.le_def, BitVec.toNat_sub] at *
    omega

end WordMemory
