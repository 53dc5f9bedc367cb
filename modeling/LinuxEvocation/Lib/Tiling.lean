import Mathlib.Tactic

/-!
# Records that tile blocks

A file of `size` bytes is cut into blocks of `bs` bytes, and each block into records that lie one
behind the other without a gap; `len o` is the length written in the record at the offset `o`.

* `Rec bs size len o` — a record starts at `o`: blocks start with one, and where one ends within its
  block the next one starts.
* `Tiled` — every record has a length and ends within its block.
* `Rec.end_le` — records do not overlap.
* `Tiled.split`, `Tiled.merge`, `Tiled.grow` — a record is cut in two, is joined to the one before
  it, a block is put behind the last one.
* `scan`, `scanFrom` — the loops over the records of a block and of the file, and what they find.
* `offsets` — the records, as a list.
-/

namespace Tiling

/-! ## Blocks -/

/-- The offset of the block that an offset is in. -/
def blk (bs o : Nat) : Nat := bs * (o / bs)

section Blocks

variable {bs o m n : Nat}

theorem dvd_blk : bs ∣ blk bs o := Dvd.intro _ rfl

theorem blk_le : blk bs o ≤ o := Nat.mul_div_le o bs

theorem blk_add_mod (bs o : Nat) : blk bs o + o % bs = o := Nat.div_add_mod o bs

theorem lt_blk_add (h : 0 < bs) : o < blk bs o + bs := by
  have := Nat.mod_lt o h
  have := blk_add_mod bs o
  omega

/-- Two different multiples of the length of a block are at least a block apart. -/
theorem add_le_of_dvd (hm : bs ∣ m) (hn : bs ∣ n) (h : m < n) : m + bs ≤ n := by
  by_contra hc
  have := Nat.le_of_lt_add_of_dvd (not_le.1 hc) hn hm
  omega

/-- What is within a block of a multiple is in the block that starts there. -/
theorem blk_eq (hm : bs ∣ m) (hle : m ≤ o) (hlt : o < m + bs) : blk bs o = m := by
  have hbs : 0 < bs := by omega
  rcases Nat.lt_trichotomy (blk bs o) m with h | h | h
  · have := add_le_of_dvd dvd_blk hm h
    have := lt_blk_add (o := o) hbs
    omega
  · exact h
  · have := add_le_of_dvd hm dvd_blk h
    have : blk bs o ≤ o := blk_le
    omega

theorem blk_of_dvd (hbs : 0 < bs) (h : bs ∣ o) : blk bs o = o := blk_eq h le_rfl (by omega)

end Blocks

/-! ## Records -/

/-- A record starts at the offset. -/
inductive Rec (bs size : Nat) (len : Nat → Nat) : Nat → Prop
  | start {o : Nat} : bs ∣ o → o < size → Rec bs size len o
  | next {o : Nat} : Rec bs size len o → ¬ bs ∣ o + len o → Rec bs size len (o + len o)

/-- The file consists of whole blocks, and its records have a length and end within their block. -/
structure Tiled (bs size : Nat) (len : Nat → Nat) : Prop where
  bs_pos : 0 < bs
  dvd : bs ∣ size
  pos : ∀ {o}, Rec bs size len o → 0 < len o
  fits : ∀ {o}, Rec bs size len o → o % bs + len o ≤ bs

variable {bs size : Nat} {len len' : Nat → Nat} {o p q r : Nat}

theorem Rec.end_le_blk (ho : Rec bs size len o) (h : Tiled bs size len) :
    o + len o ≤ blk bs o + bs := by
  have := h.fits ho
  have := blk_add_mod bs o
  omega

/-- A record that is not the last one of its block ends before the block does. -/
theorem Rec.end_lt_blk (ho : Rec bs size len o) (h : Tiled bs size len)
    (hnext : ¬ bs ∣ o + len o) : o + len o < blk bs o + bs := by
  refine lt_of_le_of_ne (ho.end_le_blk h) fun heq => hnext ?_
  rw [heq]
  exact dvd_add dvd_blk dvd_rfl

theorem Rec.blk_next (ho : Rec bs size len o) (h : Tiled bs size len)
    (hnext : ¬ bs ∣ o + len o) : blk bs (o + len o) = blk bs o :=
  blk_eq dvd_blk (le_trans blk_le (Nat.le_add_right _ _)) (ho.end_lt_blk h hnext)

theorem Rec.lt_size (ho : Rec bs size len o) (h : Tiled bs size len) : o < size := by
  induction ho with
  | start _ hlt => exact hlt
  | next ho hnext ih =>
    have := ho.end_lt_blk h hnext
    have := add_le_of_dvd dvd_blk h.dvd (lt_of_le_of_lt blk_le ih)
    omega

theorem Rec.blk_add_le_size (ho : Rec bs size len o) (h : Tiled bs size len) :
    blk bs o + bs ≤ size :=
  add_le_of_dvd dvd_blk h.dvd (lt_of_le_of_lt blk_le (ho.lt_size h))

theorem Rec.blk_rec (ho : Rec bs size len o) (h : Tiled bs size len) :
    Rec bs size len (blk bs o) :=
  .start dvd_blk (lt_of_le_of_lt blk_le (ho.lt_size h))

/-- **Records do not overlap.** -/
theorem Rec.end_le (hp : Rec bs size len p) (hq : Rec bs size len q) (h : Tiled bs size len)
    (hlt : p < q) : p + len p ≤ q := by
  induction hq generalizing p with
  | start hdvd _ =>
    have := hp.end_le_blk h
    have := add_le_of_dvd dvd_blk hdvd (lt_of_le_of_lt blk_le hlt)
    omega
  | @next q₀ hq₀ hnext ih =>
    rcases Nat.lt_trichotomy p q₀ with hpq | rfl | hpq
    · have := ih hp hpq
      omega
    · exact le_rfl
    · -- no record starts within the one at `q₀`: an induction along the records from `p` down
      exfalso
      induction hp with
      | start hdvd _ =>
        have := hq₀.end_le_blk h
        have := add_le_of_dvd dvd_blk hdvd (lt_of_le_of_lt blk_le hpq)
        omega
      | @next p₀ hp₀ _ ihp =>
        rcases Nat.lt_trichotomy p₀ q₀ with hlt₀ | rfl | hlt₀
        · have := ih hp₀ hlt₀
          omega
        · omega
        · exact ihp (by omega) hlt₀

/-- Only the lengths of the records matter. -/
theorem Rec.congr (ho : Rec bs size len o) (heq : ∀ p, Rec bs size len p → len' p = len p) :
    Rec bs size len' o := by
  induction ho with
  | start hdvd hlt => exact .start hdvd hlt
  | next ho hnext ih =>
    rw [← heq _ ho] at hnext ⊢
    exact ih.next hnext

theorem rec_congr (heq : ∀ p, Rec bs size len p → len' p = len p) :
    Rec bs size len' o ↔ Rec bs size len o := by
  constructor
  · intro ho
    induction ho with
    | start hdvd hlt => exact .start hdvd hlt
    | next _ hnext ih =>
      rw [heq _ ih] at hnext ⊢
      exact ih.next hnext
  · exact fun ho => ho.congr heq

namespace Tiled

theorem congr (h : Tiled bs size len) (heq : ∀ p, Rec bs size len p → len' p = len p) :
    Tiled bs size len' where
  bs_pos := h.bs_pos
  dvd := h.dvd
  pos := by
    intro o ho
    have ho' := (rec_congr heq).1 ho
    rw [heq _ ho']
    exact h.pos ho'
  fits := by
    intro o ho
    have ho' := (rec_congr heq).1 ho
    rw [heq _ ho']
    exact h.fits ho'

/-! ## Cutting a record in two -/

theorem not_dvd_of_inside (h : Tiled bs size len) (ho : Rec bs size len o) (hr : 0 < r)
    (hlt : r < len o) : ¬ bs ∣ o + r := by
  intro hdvd
  have := ho.end_le_blk h
  have := add_le_of_dvd dvd_blk hdvd (lt_of_le_of_lt (blk_le (o := o)) (by omega))
  omega

theorem not_rec_of_inside (h : Tiled bs size len) (ho : Rec bs size len o) (hlo : o < p)
    (hhi : p < o + len o) : ¬ Rec bs size len p := by
  intro hp
  have := ho.end_le hp h hlo
  omega

/-- The records once the one at `o` is cut behind its first `r` bytes. -/
theorem rec_split (h : Tiled bs size len) (ho : Rec bs size len o) (hr : 0 < r) (hlt : r < len o)
    (hlen : len' o = r) (hrest : len' (o + r) = len o - r)
    (hother : ∀ p, Rec bs size len p → p ≠ o → len' p = len p) :
    Rec bs size len' p ↔ Rec bs size len p ∨ p = o + r := by
  have hcut : Rec bs size len' o → Rec bs size len' (o + r) := by
    intro ho'
    have hstep := ho'.next
    rw [hlen] at hstep
    exact hstep (h.not_dvd_of_inside ho hr hlt)
  have hend : o + r + (len o - r) = o + len o := by omega
  constructor
  · intro hp
    induction hp with
    | start hdvd hp => exact .inl (.start hdvd hp)
    | @next p₀ _ hnext ih =>
      rcases ih with ih | rfl
      · by_cases hpo : p₀ = o
        · subst hpo
          exact .inr (by rw [hlen])
        · rw [hother _ ih hpo] at hnext ⊢
          exact .inl (ih.next hnext)
      · rw [hrest, hend] at hnext ⊢
        exact .inl (ho.next hnext)
  · have hold : ∀ {p}, Rec bs size len p → Rec bs size len' p := by
      intro p hp
      induction hp with
      | start hdvd hp => exact .start hdvd hp
      | @next p₀ hp₀ hnext ih =>
        by_cases hpo : p₀ = o
        · subst hpo
          have hstep := (hcut ih).next
          rw [hrest, hend] at hstep
          exact hstep hnext
        · rw [← hother _ hp₀ hpo] at hnext ⊢
          exact ih.next hnext
    rintro (hp | rfl)
    · exact hold hp
    · exact hcut (hold ho)

theorem split (h : Tiled bs size len) (ho : Rec bs size len o) (hr : 0 < r) (hlt : r < len o)
    (hlen : len' o = r) (hrest : len' (o + r) = len o - r)
    (hother : ∀ p, Rec bs size len p → p ≠ o → len' p = len p) : Tiled bs size len' := by
  have hfits := h.fits ho
  -- the second part is in the block of the record it is cut from
  have hmod : (o + r) % bs = o % bs + r := by
    have hblk : blk bs (o + r) = blk bs o := by
      refine blk_eq dvd_blk (le_trans blk_le (Nat.le_add_right _ _)) ?_
      have := ho.end_le_blk h
      omega
    have := blk_add_mod bs o
    have := blk_add_mod bs (o + r)
    omega
  refine ⟨h.bs_pos, h.dvd, ?_, ?_⟩ <;>
  · intro p hp
    rcases (h.rec_split ho hr hlt hlen hrest hother).1 hp with hp | rfl
    · by_cases hpo : p = o
      · subst hpo
        rw [hlen]
        omega
      · rw [hother p hp hpo]
        first | exact h.pos hp | exact h.fits hp
    · rw [hrest]
      omega

/-! ## Joining a record to the one before it -/

/-- The records once the one at `o` belongs to the one before it, at `q`. -/
theorem rec_merge (h : Tiled bs size len) (hq : Rec bs size len q) (ho : Rec bs size len o)
    (hqo : q + len q = o) (hdvd : ¬ bs ∣ o) (hlen : len' q = len q + len o)
    (hother : ∀ p, Rec bs size len p → p ≠ q → p ≠ o → len' p = len p) :
    Rec bs size len' p ↔ Rec bs size len p ∧ p ≠ o := by
  have hqpos := h.pos hq
  have hopos := h.pos ho
  constructor
  · intro hp
    induction hp with
    | start hd hp =>
      refine ⟨.start hd hp, ?_⟩
      rintro rfl
      exact hdvd hd
    | @next p₀ _ hnext ih =>
      obtain ⟨hp₀, hne⟩ := ih
      by_cases hpq : p₀ = q
      · subst hpq
        rw [hlen, ← Nat.add_assoc, hqo] at hnext ⊢
        exact ⟨ho.next hnext, by omega⟩
      · rw [hother _ hp₀ hpq hne] at hnext ⊢
        refine ⟨hp₀.next hnext, ?_⟩
        rcases Nat.lt_or_gt_of_ne hpq with hlt | hgt
        · have := hp₀.end_le hq h hlt
          omega
        · have := hq.end_le hp₀ h hgt
          omega
  · rintro ⟨hp, hne⟩
    -- strong induction: behind the merged record the walk goes on from the one before it
    induction p using Nat.strong_induction_on with
    | _ p ih =>
      cases hp with
      | start hd hp => exact .start hd hp
      | @next p₀ hp₀ hnext =>
        have hpos := h.pos hp₀
        by_cases hpo : p₀ = o
        · subst hpo
          have hstep := (ih q (by omega) hq (by omega)).next
          rw [hlen, ← Nat.add_assoc, hqo] at hstep
          exact hstep hnext
        · have hpq : p₀ ≠ q := by
            rintro rfl
            exact hne hqo
          rw [← hother _ hp₀ hpq hpo] at hnext ⊢
          exact (ih p₀ (by omega) hp₀ hpo).next hnext

theorem merge (h : Tiled bs size len) (hq : Rec bs size len q) (ho : Rec bs size len o)
    (hqo : q + len q = o) (hdvd : ¬ bs ∣ o) (hlen : len' q = len q + len o)
    (hother : ∀ p, Rec bs size len p → p ≠ q → p ≠ o → len' p = len p) :
    Tiled bs size len' := by
  have hblk : blk bs o = blk bs q := by
    rw [← hqo] at hdvd ⊢
    exact hq.blk_next h hdvd
  have hend := ho.end_le_blk h
  have hmod := blk_add_mod bs q
  have hqpos := h.pos hq
  refine ⟨h.bs_pos, h.dvd, ?_, ?_⟩ <;>
  · intro p hp
    obtain ⟨hp, hne⟩ := (h.rec_merge hq ho hqo hdvd hlen hother).1 hp
    by_cases hpq : p = q
    · subst hpq
      rw [hlen]
      omega
    · rw [hother p hp hpq hne]
      first | exact h.pos hp | exact h.fits hp

/-! ## A block behind the last one -/

/-- The records once there is one more block, of one record. -/
theorem rec_grow (h : Tiled bs size len) (hlen : len' size = bs)
    (hother : ∀ p, Rec bs size len p → len' p = len p) :
    Rec bs (size + bs) len' p ↔ Rec bs size len p ∨ p = size := by
  constructor
  · intro hp
    induction hp with
    | @start p hd hp =>
      rcases Nat.lt_trichotomy p size with hlt | rfl | hgt
      · exact .inl (.start hd hlt)
      · exact .inr rfl
      · have := add_le_of_dvd h.dvd hd hgt
        omega
    | next _ hnext ih =>
      rcases ih with ih | rfl
      · rw [hother _ ih] at hnext ⊢
        exact .inl (ih.next hnext)
      · rw [hlen] at hnext
        exact absurd (dvd_add h.dvd dvd_rfl) hnext
  · rintro (hp | rfl)
    · induction hp with
      | start hd hp => exact .start hd (by omega)
      | next hp hnext ih =>
        rw [← hother _ hp] at hnext ⊢
        exact ih.next hnext
    · exact .start h.dvd (Nat.lt_add_of_pos_right h.bs_pos)

theorem grow (h : Tiled bs size len) (hlen : len' size = bs)
    (hother : ∀ p, Rec bs size len p → len' p = len p) : Tiled bs (size + bs) len' := by
  have hmod : size % bs = 0 := Nat.mod_eq_zero_of_dvd h.dvd
  refine ⟨h.bs_pos, dvd_add h.dvd dvd_rfl, ?_, ?_⟩ <;>
  · intro p hp
    rcases (h.rec_grow hlen hother).1 hp with hp | rfl
    · rw [hother p hp]
      first | exact h.pos hp | exact h.fits hp
    · have := h.bs_pos
      rw [hlen]
      omega

end Tiled

/-! ## The loops over the records -/

/-- How a loop over the records of a block ends: at a record, or behind the last one. -/
inductive Outcome (β : Type*)
  | stop (b : β)
  | next (o : Nat)
deriving DecidableEq

variable {β : Type*} {f : Nat → Option β} {b : β} {n e : Nat}

/-- Look at the records of a block, from `o` on, until `f` says to stop. -/
def scan (bs : Nat) (len : Nat → Nat) (f : Nat → Option β) : Nat → Nat → Outcome β
  | 0, o => .next o
  | n + 1, o =>
    match f o with
    | some b => .stop b
    | none => if bs ∣ o + len o then .next (o + len o) else scan bs len f n (o + len o)

/-- The loop stops at the first record, from `o` on, at which `f` does. -/
theorem scan_eq_stop (h : Tiled bs size len) (ho : Rec bs size len o)
    (hn : blk bs o + bs ≤ o + n) (hscan : scan bs len f n o = .stop b) :
    ∃ p, Rec bs size len p ∧ o ≤ p ∧ blk bs p = blk bs o ∧ f p = some b ∧
      ∀ q, Rec bs size len q → o ≤ q → q < p → f q = none := by
  induction n generalizing o with
  | zero => exact absurd hscan (by simp [scan])
  | succ n ih =>
    rw [scan] at hscan
    cases hf : f o with
    | some b' =>
      rw [hf] at hscan
      injection hscan with hb
      subst hb
      exact ⟨o, ho, le_rfl, rfl, hf, fun q _ hoq hqo => by omega⟩
    | none =>
      simp only [hf] at hscan
      split at hscan
      · cases hscan
      · rename_i hnext
        have hpos := h.pos ho
        obtain ⟨p, hp, hle, hblk, hfp, hfirst⟩ :=
          ih (ho.next hnext) (by rw [ho.blk_next h hnext]; omega) hscan
        refine ⟨p, hp, by omega, by rw [hblk, ho.blk_next h hnext], hfp, ?_⟩
        intro q hq hoq hqp
        rcases Nat.eq_or_lt_of_le hoq with rfl | hlt
        · exact hf
        · exact hfirst q hq (ho.end_le hq h hlt) hqp

/-- A loop that does not stop has looked at every record of the block, from `o` on. -/
theorem scan_eq_next (h : Tiled bs size len) (ho : Rec bs size len o)
    (hn : blk bs o + bs ≤ o + n) (hscan : scan bs len f n o = .next e) :
    e = blk bs o + bs ∧ ∀ q, Rec bs size len q → o ≤ q → q < e → f q = none := by
  have hlt := lt_blk_add (o := o) h.bs_pos
  induction n generalizing o with
  | zero => omega
  | succ n ih =>
    rw [scan] at hscan
    cases hf : f o with
    | some b' =>
      rw [hf] at hscan
      cases hscan
    | none =>
      simp only [hf] at hscan
      have hpos := h.pos ho
      split at hscan
      · rename_i hnext
        injection hscan with he
        subst he
        refine ⟨le_antisymm (ho.end_le_blk h) ?_, ?_⟩
        · exact add_le_of_dvd dvd_blk hnext (lt_of_le_of_lt (blk_le (o := o)) (by omega))
        · intro q hq hoq hqe
          rcases Nat.eq_or_lt_of_le hoq with rfl | hlt
          · exact hf
          · have := ho.end_le hq h hlt
            omega
      · rename_i hnext
        have hblk := ho.blk_next h hnext
        obtain ⟨he, hnone⟩ := ih (ho.next hnext) (by rw [hblk]; omega) hscan
          (lt_blk_add h.bs_pos)
        rw [hblk] at he
        refine ⟨he, ?_⟩
        intro q hq hoq hqe
        rcases Nat.eq_or_lt_of_le hoq with rfl | hlt
        · exact hf
        · exact hnone q hq (ho.end_le hq h hlt) hqe

/-- Look at the records of the file, from the block at `o` on, until `f` says to stop. -/
def scanFrom (bs size : Nat) (len : Nat → Nat) (f : Nat → Option β) : Nat → Nat → Outcome β
  | 0, o => .next o
  | n + 1, o =>
    match scan bs len f bs o with
    | .stop b => .stop b
    | .next e => if e < size then scanFrom bs size len f n e else .next e

/-- The loop over the file stops at the first record, from `o` on, at which `f` does. -/
theorem scanFrom_eq_stop (h : Tiled bs size len) (ho : Rec bs size len o)
    (hscan : scanFrom bs size len f n o = .stop b) :
    ∃ p, Rec bs size len p ∧ o ≤ p ∧ f p = some b ∧
      ∀ q, Rec bs size len q → o ≤ q → q < p → f q = none := by
  induction n generalizing o with
  | zero => exact absurd hscan (by simp [scanFrom])
  | succ n ih =>
    have hle : blk bs o ≤ o := blk_le
    rw [scanFrom] at hscan
    cases hs : scan bs len f bs o with
    | stop b' =>
      simp only [hs] at hscan
      injection hscan with hb
      subst hb
      obtain ⟨p, hp, hop, -, hfp, hfirst⟩ := scan_eq_stop h ho (by omega) hs
      exact ⟨p, hp, hop, hfp, hfirst⟩
    | next e =>
      simp only [hs] at hscan
      obtain ⟨rfl, hnone⟩ := scan_eq_next h ho (by omega) hs
      split at hscan
      · rename_i he
        have hlt := lt_blk_add (o := o) h.bs_pos
        obtain ⟨p, hp, hop, hfp, hfirst⟩ := ih (.start (dvd_add dvd_blk dvd_rfl) he) hscan
        refine ⟨p, hp, by omega, hfp, fun q hq hoq hqp => ?_⟩
        by_cases hqe : q < blk bs o + bs
        · exact hnone q hq hoq hqe
        · exact hfirst q hq (by omega) hqp
      · cases hscan

/-- A loop over the file that does not stop has looked at every record, from `o` on. -/
theorem scanFrom_eq_next (h : Tiled bs size len) (ho : Rec bs size len o)
    (hn : size ≤ o + n) (hscan : scanFrom bs size len f n o = .next e) :
    e = size ∧ ∀ q, Rec bs size len q → o ≤ q → f q = none := by
  have hlt := ho.lt_size h
  induction n generalizing o with
  | zero => omega
  | succ n ih =>
    have hle : blk bs o ≤ o := blk_le
    have hend := lt_blk_add (o := o) h.bs_pos
    rw [scanFrom] at hscan
    cases hs : scan bs len f bs o with
    | stop b' => simp [hs] at hscan
    | next e' =>
      simp only [hs] at hscan
      obtain ⟨rfl, hnone⟩ := scan_eq_next h ho (by omega) hs
      have hsize := ho.blk_add_le_size h
      split at hscan
      · rename_i he
        obtain ⟨rfl, hrest⟩ := ih (.start (dvd_add dvd_blk dvd_rfl) he) (by omega) hscan he
        refine ⟨rfl, fun q hq hoq => ?_⟩
        by_cases hqe : q < blk bs o + bs
        · exact hnone q hq hoq hqe
        · exact hrest q hq (by omega)
      · rename_i he
        injection hscan with he'
        refine ⟨by omega, fun q hq hoq => hnone q hq hoq ?_⟩
        have := hq.lt_size h
        omega

/-! ## The records as a list -/

/-- The records of a block, from `o` on. -/
def walk (bs : Nat) (len : Nat → Nat) : Nat → Nat → List Nat
  | 0, _ => []
  | n + 1, o => o :: if bs ∣ o + len o then [] else walk bs len n (o + len o)

/-- The records of the file. -/
def offsets (bs size : Nat) (len : Nat → Nat) : List Nat :=
  (List.range (size / bs)).flatMap fun k => walk bs len bs (bs * k)

theorem mem_walk (h : Tiled bs size len) (ho : Rec bs size len o) (hn : blk bs o + bs ≤ o + n) :
    p ∈ walk bs len n o ↔ Rec bs size len p ∧ o ≤ p ∧ p < blk bs o + bs := by
  have hlt := lt_blk_add (o := o) h.bs_pos
  induction n generalizing o with
  | zero => omega
  | succ n ih =>
    have hpos := h.pos ho
    rw [walk, List.mem_cons]
    constructor
    · rintro (rfl | hp)
      · exact ⟨ho, le_rfl, hlt⟩
      · split at hp
        · exact absurd hp (by simp)
        · rename_i hnext
          have hblk := ho.blk_next h hnext
          have hp' := (ih (ho.next hnext) (by rw [hblk]; omega) (lt_blk_add h.bs_pos)).1 hp
          rw [hblk] at hp'
          exact ⟨hp'.1, by omega, hp'.2.2⟩
    · rintro ⟨hp, hle, hend⟩
      rcases Nat.eq_or_lt_of_le hle with rfl | hop
      · exact .inl rfl
      · right
        have hle' := ho.end_le hp h hop
        split
        · rename_i hnext
          have := add_le_of_dvd dvd_blk hnext (lt_of_le_of_lt (blk_le (o := o)) (by omega))
          omega
        · rename_i hnext
          have hblk := ho.blk_next h hnext
          refine (ih (ho.next hnext) (by rw [hblk]; omega) (lt_blk_add h.bs_pos)).2 ?_
          rw [hblk]
          exact ⟨hp, hle', hend⟩

theorem pairwise_walk (h : Tiled bs size len) (ho : Rec bs size len o)
    (hn : blk bs o + bs ≤ o + n) : (walk bs len n o).Pairwise (· < ·) := by
  induction n generalizing o with
  | zero => exact .nil
  | succ n ih =>
    have hpos := h.pos ho
    rw [walk, List.pairwise_cons]
    split
    · simp
    · rename_i hnext
      have hblk := ho.blk_next h hnext
      have hfuel : blk bs (o + len o) + bs ≤ o + len o + n := by
        rw [hblk]
        omega
      refine ⟨fun p hp => ?_, ih (ho.next hnext) hfuel⟩
      have := (mem_walk h (ho.next hnext) hfuel).1 hp
      omega

/-- The lengths of the records add up to the rest of the block. -/
theorem sum_walk (h : Tiled bs size len) (ho : Rec bs size len o) (hn : blk bs o + bs ≤ o + n) :
    o + ((walk bs len n o).map len).sum = blk bs o + bs := by
  induction n generalizing o with
  | zero =>
    have := lt_blk_add (o := o) h.bs_pos
    omega
  | succ n ih =>
    have hpos := h.pos ho
    rw [walk, List.map_cons, List.sum_cons]
    split
    · rename_i hend
      have hle := ho.end_le_blk h
      have := add_le_of_dvd dvd_blk hend (lt_of_le_of_lt (blk_le (o := o)) (by omega))
      rw [List.map_nil, List.sum_nil]
      omega
    · rename_i hnext
      have hblk := ho.blk_next h hnext
      have hsum := ih (ho.next hnext) (by rw [hblk]; omega)
      rw [hblk] at hsum
      omega

theorem mem_walk_block (h : Tiled bs size len) (hdvd : bs ∣ o) (ho : o < size) :
    p ∈ walk bs len bs o ↔ Rec bs size len p ∧ o ≤ p ∧ p < o + bs := by
  have hblk := blk_of_dvd h.bs_pos hdvd
  have := mem_walk (p := p) h (.start hdvd ho) (n := bs) (by omega)
  rwa [hblk] at this

theorem mem_offsets (h : Tiled bs size len) : o ∈ offsets bs size len ↔ Rec bs size len o := by
  rw [offsets, List.mem_flatMap]
  constructor
  · rintro ⟨k, hk, hmem⟩
    have hlt := (Nat.lt_div_iff_mul_lt' h.dvd k).1 (List.mem_range.1 hk)
    exact ((mem_walk_block h (Dvd.intro _ rfl) hlt).1 hmem).1
  · intro ho
    have hlt : blk bs o < size := lt_of_le_of_lt blk_le (ho.lt_size h)
    refine ⟨o / bs, List.mem_range.2 ((Nat.lt_div_iff_mul_lt' h.dvd _).2 hlt), ?_⟩
    exact (mem_walk_block h dvd_blk hlt).2 ⟨ho, blk_le, lt_blk_add h.bs_pos⟩

theorem pairwise_offsets (h : Tiled bs size len) : (offsets bs size len).Pairwise (· < ·) := by
  have hlt : ∀ k ∈ List.range (size / bs), bs * k < size := fun k hk =>
    (Nat.lt_div_iff_mul_lt' h.dvd k).1 (List.mem_range.1 hk)
  have hmem : ∀ k ∈ List.range (size / bs), ∀ p ∈ walk bs len bs (bs * k),
      bs * k ≤ p ∧ p < bs * k + bs := fun k hk p hp =>
    ((mem_walk_block h (Dvd.intro _ rfl) (hlt k hk)).1 hp).2
  rw [offsets, List.pairwise_flatMap]
  constructor
  · intro k hk
    have hblk : blk bs (bs * k) = bs * k := blk_of_dvd h.bs_pos (Dvd.intro _ rfl)
    exact pairwise_walk h (.start (Dvd.intro _ rfl) (hlt k hk)) (by omega)
  · refine List.pairwise_lt_range.imp_of_mem ?_
    intro k l hk hl hkl p hp q hq
    have := hmem k hk p hp
    have := hmem l hl q hq
    have := Nat.mul_le_mul_left bs (show k + 1 ≤ l by omega)
    rw [Nat.mul_succ] at this
    omega

theorem nodup_offsets (h : Tiled bs size len) : (offsets bs size len).Nodup :=
  (pairwise_offsets h).imp Nat.ne_of_lt

end Tiling
