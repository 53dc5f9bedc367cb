import LinuxEvocation.Fs.Ext2.Read

/-!
# The ring of buffers of a read

The invariant of `ext2_file_read` speaks of the block `e` of the file that is next to be copied: the
ring holds the blocks from `e` on that have been looked up.  Between the loops there are at least one
and at most `NBUF` of them.  A read error leaves the inner loop with the block that failed still in the
ring, and when the ring is full then, the last loop takes it for empty.

* `Holds`, `Filling`, `Draining`, `Releasing` — the invariant, and what each loop adds to it.
* `file_read_exact` — reads are correct in any order exactly when the first block that cannot be read
  is not lost on the way to it, and fewer than `NBUF` blocks are asked for from it on.
-/

namespace LinuxEvocation.Ext2.Read

open Walk (addrPerBlock limit)

/-- The first block that is asked for, and the one behind the last. -/
def first (F : File) (c : Call) : Nat := c.pos / F.blockSize

def asked (F : File) (c : Call) : Nat := first F c + blocks F c

/-- A byte as the walk to its block finds it. -/
def seen (F : File) (i : Nat) : UInt8 :=
  match ext2Getblk F (i / F.blockSize) with
  | some bh => F.bytes bh.nr (i % F.blockSize)
  | none => 0

/-- The walk comes to a block that cannot be read. -/
def stops (F : File) (b : Nat) : Bool :=
  (ext2Getblk F b).any fun bh => F.fails bh.block bh.nr

/-- The buffers of `n` blocks, from the first one on. -/
def held (F : File) (c : Call) (n : Nat) : List Buffer :=
  (List.range' (first F c) n).filterMap (ext2Getblk F)

/-- What holds in every loop: the blocks from `e` up to `block` are in the ring, those before `e` have
been copied. -/
structure Holds (F : File) (c : Call) (e : Nat) (s : State) : Prop where
  first_le : first F c ≤ e
  le_block : e ≤ s.block
  window : s.block ≤ e + nbuf
  blocks : s.block + s.blocks = asked F c
  bhb : s.bhb = (s.block - first F c) % nbuf
  bhe : s.bhe = (e - first F c) % nbuf
  cells : ∀ i, e ≤ i → i < s.block → s.buflist ((i - first F c) % nbuf) = ext2Getblk F i
  got : s.got = held F c (s.block - first F c)
  released : s.released = held F c (e - first F c)
  read_le : s.read ≤ amount F c
  pos : s.pos = c.pos + s.read
  buf : s.buf = (List.range s.read).map fun i => seen F (c.pos + i)
  good : ∀ i, i < s.read → stops F ((c.pos + i) / F.blockSize) = false

/-- In the first two loops, `e` is the block at `f_pos`. -/
structure Running (F : File) (c : Call) (e : Nat) (s : State) : Prop extends Holds F c e s where
  left_pos : 0 < s.left
  left : s.read + s.left = amount F c
  place : c.pos + s.read = e * F.blockSize + s.offset
  offset_lt : s.offset < F.blockSize

structure Filling (F : File) (c : Call) (e : Nat) (s : State) : Prop extends Running F c e s where
  phase : s.phase = .fill
  room : s.block < e + nbuf

structure Draining (F : File) (c : Call) (e : Nat) (s : State) : Prop extends Running F c e s where
  phase : s.phase = .drain
  next : e < s.block

/-- In the last loop, the ring is full only if its first block could not be read. -/
structure Releasing (F : File) (c : Call) (e : Nat) (s : State) : Prop extends Holds F c e s where
  phase : s.phase = .release
  stop : s.read < amount F c → stops F ((c.pos + s.read) / F.blockSize) = true
  full : s.block = e + nbuf → s.read < amount F c ∧ e = (c.pos + s.read) / F.blockSize

def Inv (F : File) (c : Call) (e : Nat) (s : State) : Prop :=
  Filling F c e s ∨ Draining F c e s ∨ Releasing F c e s

section Proofs

variable {F : File} {o : Order} {c : Call} {s : State} {e i n : Nat}

/-! ## The ring -/

theorem advance_mod (i : Nat) : advance (i % nbuf) = (i + 1) % nbuf := by
  unfold advance nbuf
  split <;> omega

@[simp]
theorem held_zero (F : File) (c : Call) : held F c 0 = [] := rfl

theorem held_succ (F : File) (c : Call) (n : Nat) :
    held F c (n + 1) = held F c n ++ (ext2Getblk F (first F c + n)).toList := by
  rw [held, held, List.range'_concat, List.filterMap_append, Nat.one_mul]
  congr 1

/-- The positions of two blocks that are less than a ring apart are different. -/
theorem cell_ne (h : first F c ≤ e) (hi : e ≤ i) (hlt : i < n) (hn : n < e + nbuf) :
    (i - first F c) % nbuf ≠ (n - first F c) % nbuf := by
  unfold nbuf at hn ⊢
  omega

/-- The pointers meet when the ring is empty, and when it is full. -/
theorem Holds.meet (h : Holds F c e s) : s.bhe = s.bhb ↔ s.block = e ∨ s.block = e + nbuf := by
  have hfirst := h.first_le
  have hle := h.le_block
  have hwindow := h.window
  rw [h.bhe, h.bhb]
  unfold nbuf at hwindow ⊢
  omega

theorem Holds.cell (h : Holds F c e s) (hlt : e < s.block) : s.buflist s.bhe = ext2Getblk F e := by
  rw [h.bhe]
  exact h.cells e (le_refl e) hlt

theorem Holds.releases (h : Holds F c e s) (hlt : e < s.block) :
    s.released ++ (s.buflist s.bhe).toList = held F c (e + 1 - first F c) := by
  have hfirst := h.first_le
  rw [h.cell hlt, h.released, Nat.sub_add_comm hfirst, held_succ, Nat.add_sub_cancel' hfirst]

/-- Every block with a byte to read is asked for. -/
theorem lt_asked {b : Nat} (hamount : 0 < amount F c) (h : b * F.blockSize < c.pos + amount F c) :
    b < asked F c := by
  have hpos := blockSize_pos F
  have hle := amount_le F c hamount
  have hmod := Nat.div_add_mod' c.pos F.blockSize
  have hneed : b < first F c + (amount F c + c.pos % F.blockSize + F.blockSize - 1) / F.blockSize := by
    have hend : b + 1 ≤ (c.pos + amount F c + F.blockSize - 1) / F.blockSize := by
      rw [Nat.le_div_iff_mul_le hpos, Nat.add_mul]
      omega
    have hsum : c.pos + amount F c + F.blockSize - 1 =
        amount F c + c.pos % F.blockSize + F.blockSize - 1 + first F c * F.blockSize := by
      rw [first]
      omega
    rw [hsum, Nat.add_mul_div_right _ _ hpos] at hend
    omega
  have hsize : b < (F.size + F.blockSize - 1) / F.blockSize := by
    apply Nat.lt_of_lt_of_le (Nat.lt_succ_self b)
    rw [Nat.le_div_iff_mul_le hpos, Nat.succ_mul]
    omega
  rw [asked, blocks]
  simp only [left_toNat]
  rw [first] at hneed ⊢
  generalize c.ahead / 2 ^ (F.log + 1) = extra
  split_ifs <;> omega

/-! ## The turns -/

theorem Running.e_lt_asked (h : Running F c e s) : e < asked F c := by
  have hleft := h.left
  have hpos := h.left_pos
  have hplace := h.place
  apply lt_asked <;> omega

/-- The bytes that are left for the block at `e`. -/
theorem Running.div_block (h : Running F c e s) {j : Nat} (hj : j < chars F s) :
    (c.pos + (s.read + j)) / F.blockSize = e ∧
      (c.pos + (s.read + j)) % F.blockSize = s.offset + j := by
  have hoffset := h.offset_lt
  have hlt : s.offset + j < F.blockSize := by
    rw [chars] at hj
    split at hj <;> omega
  have hplace : c.pos + (s.read + j) = s.offset + j + e * F.blockSize := by
    have := h.place
    omega
  rw [hplace, Nat.add_mul_div_right _ _ (blockSize_pos F), Nat.add_mul_mod_self_right,
    Nat.div_eq_of_lt hlt, Nat.mod_eq_of_lt hlt]
  exact ⟨Nat.zero_add e, rfl⟩

/-- What is copied from a block, or stored for a hole. -/
theorem Running.copied_eq (h : Running F c e s) (hlt : e < s.block) :
    copied F s = (List.range (chars F s)).map fun j => seen F (c.pos + (s.read + j)) := by
  have hseen : ∀ j, j < chars F s → seen F (c.pos + (s.read + j)) =
      match ext2Getblk F e with
      | some bh => F.bytes bh.nr (s.offset + j)
      | none => 0 := by
    intro j hj
    obtain ⟨hdiv, hmod⟩ := h.div_block hj
    rw [seen, hdiv, hmod]
  rw [copied, h.cell hlt]
  cases hbh : ext2Getblk F e with
  | none =>
    rw [hbh] at hseen
    symm
    rw [List.eq_replicate_iff]
    refine ⟨by simp, ?_⟩
    intro x hx
    obtain ⟨j, hj, rfl⟩ := List.mem_map.mp hx
    exact hseen j (List.mem_range.mp hj)
  | some bh =>
    rw [hbh] at hseen
    apply List.map_congr_left
    intro j hj
    exact (hseen j (List.mem_range.mp hj)).symm

theorem Running.chars_pos (h : Running F c e s) : 0 < chars F s ∧ chars F s ≤ s.left := by
  have hpos := h.left_pos
  have hoffset := h.offset_lt
  rw [chars]
  split <;> omega

/-- A turn of the first loop looks up another block. -/
theorem fill_turn (h : Filling F c e s) (hblocks : s.blocks ≠ 0) :
    Holds F c e (fill F o s) ∧ Inv F c e (fill F o s) := by
  have hfirst := h.first_le
  have hle := h.le_block
  have hroom := h.room
  have hasked := h.blocks
  have hbhb : advance s.bhb = (s.block + 1 - first F c) % nbuf := by
    rw [h.bhb, advance_mod, ← Nat.sub_add_comm (hfirst.trans hle)]
  have hholds : Holds F c e (fill F o s) := { h with
    le_block := Nat.le_succ_of_le hle
    window := hroom
    blocks := by
      change s.block + 1 + (s.blocks - 1) = asked F c
      omega
    bhb := hbhb
    cells := by
      intro i hi hlt
      change Function.update s.buflist s.bhb (ext2Getblk F s.block) _ = _
      rw [h.bhb]
      rcases Nat.lt_succ_iff_lt_or_eq.mp hlt with hlt | rfl
      · rw [Function.update_of_ne (cell_ne hfirst hi hlt hroom)]
        exact h.cells i hi hlt
      · rw [Function.update_self]
    got := by
      change s.got ++ (ext2Getblk F s.block).toList = held F c (s.block + 1 - first F c)
      rw [h.got, Nat.sub_add_comm (hfirst.trans hle), held_succ,
        Nat.add_sub_cancel' (hfirst.trans hle)] }
  have hrunning : Running F c e (fill F o s) := { h with toHolds := hholds }
  refine ⟨hholds, ?_⟩
  have hnext : e < (fill F o s).block := Nat.lt_succ_of_le hle
  by_cases hphase : (fill F o s).phase = .drain
  · exact .inr (.inl { toRunning := hrunning, phase := hphase, next := hnext })
  · left
    have hkeep : (fill F o s).phase = .fill ∧ (fill F o s).bhe ≠ (fill F o s).bhb := by
      change (if _ then Phase.drain else if advance s.bhb = s.bhe then .drain else .fill) = .fill ∧
        s.bhe ≠ advance s.bhb
      change ¬ (if _ then Phase.drain else if advance s.bhb = s.bhe then .drain else .fill) = .drain
        at hphase
      split_ifs at hphase ⊢ with hup hmeet
      · exact absurd rfl hphase
      · exact absurd rfl hphase
      · exact ⟨rfl, fun heq => hmeet heq.symm⟩
    have hnot := (not_congr hholds.meet).mp hkeep.2
    refine { toRunning := hrunning, phase := hkeep.1, room := ?_ }
    have hwindow := hholds.window
    omega

/-- When no more blocks are to be asked for, there is one to wait for. -/
theorem fill_done (h : Filling F c e s) (hblocks : s.blocks = 0) :
    Draining F c e { s with phase := .drain } := by
  have hasked := h.blocks
  have hlt := h.e_lt_asked
  exact { h with
    phase := rfl
    next := by
      change e < s.block
      omega }

/-- The block that is waited for cannot be read. -/
theorem drain_fails (h : Draining F c e s) (hstop : stops F e = true) :
    drain F o s = { s with phase := .release, left := 0 } ∧
      Releasing F c e { s with phase := .release, left := 0 } := by
  have hplace := h.place
  have hleft := h.left
  have hleft_pos := h.left_pos
  have hdiv : (c.pos + s.read) / F.blockSize = e := by
    have hzero := h.div_block (h.chars_pos.1)
    exact hzero.1
  constructor
  · rw [drain, h.cell h.next, if_pos (by exact hstop)]
  · exact { h with
      phase := rfl
      stop := by
        intro _
        rw [hdiv]
        exact hstop
      full := by
        intro _
        refine ⟨?_, hdiv.symm⟩
        change s.read < amount F c
        omega }

theorem Holds.next (h : Holds F c e s) (hnext : e < s.block) : Holds F c (e + 1) (release s) := by
  have hfirst := h.first_le
  have hwindow := h.window
  exact { h with
    first_le := Nat.le_succ_of_le hfirst
    le_block := hnext
    window := by
      change s.block ≤ e + 1 + nbuf
      omega
    bhe := by
      change advance s.bhe = _
      rw [h.bhe, advance_mod, ← Nat.sub_add_comm hfirst]
    cells := fun i hi hlt => h.cells i (by omega) hlt
    released := h.releases hnext }

/-- What a block that has been copied leaves. -/
theorem copy_holds (h : Draining F c e s) (hstop : stops F e = false) :
    Holds F c (e + 1) (copy F o s) := by
  have hnext := h.next
  have hleft := h.left
  have hchars := h.chars_pos
  exact { h.toHolds.next hnext with
    read_le := by
      change s.read + chars F s ≤ _
      omega
    pos := by
      change s.pos + chars F s = c.pos + (s.read + chars F s)
      rw [h.pos, Nat.add_assoc]
    buf := by
      change s.buf ++ copied F s = (List.range (s.read + chars F s)).map _
      rw [h.buf, h.copied_eq hnext, List.range_add, List.map_append, List.map_map]
      rfl
    good := by
      intro i hi
      change i < s.read + chars F s at hi
      by_cases hold : i < s.read
      · exact h.good i hold
      · obtain ⟨j, rfl⟩ := Nat.exists_eq_add_of_le (not_lt.mp hold)
        rw [(h.div_block (by omega)).1]
        exact hstop }

/-- A turn of the second loop copies a block. -/
theorem drain_turn (h : Draining F c e s) (hstop : stops F e = false) :
    drain F o s = copy F o s ∧ Inv F c (e + 1) (copy F o s) := by
  have hholds : Holds F c (e + 1) (copy F o s) := copy_holds h hstop
  have hnext := h.next
  have hwindow := h.window
  have hleft := h.left
  have hchars := h.chars_pos
  refine ⟨?_, ?_⟩
  · rw [drain, h.cell hnext, if_neg (by exact Bool.eq_false_iff.mp hstop)]
  by_cases hmore : (copy F o s).left > 0
  · have hrunning : Running F c (e + 1) (copy F o s) := {
      toHolds := hholds
      left_pos := hmore
      left := by
        change s.read + chars F s + (s.left - chars F s) = amount F c
        omega
      place := by
        -- the block has been copied to its end
        have hoffset := h.offset_lt
        have hplace := h.place
        have hall : chars F s = F.blockSize - s.offset := by
          change s.left - chars F s > 0 at hmore
          rw [chars] at hmore ⊢
          split at hmore
          next => omega
          next hge => rw [if_neg hge]
        change c.pos + (s.read + chars F s) = (e + 1) * F.blockSize + 0
        rw [Nat.succ_mul]
        omega
      offset_lt := blockSize_pos F }
    by_cases hdrain : (copy F o s).bhe ≠ (copy F o s).bhb ∧
        (s.buflist (advance s.bhe)).all fun bh => !o.locked bh.block
    · refine .inr (.inl { toRunning := hrunning, phase := if_pos ⟨hmore, hdrain⟩, next := ?_ })
      have hnot := (not_congr hholds.meet).mp hdrain.1
      have hle := hholds.le_block
      omega
    · refine .inl { toRunning := hrunning, phase := ?_, room := ?_ }
      · exact (if_neg fun hall => hdrain hall.2).trans (if_pos hmore)
      · change s.block < e + 1 + nbuf
        omega
  · refine .inr (.inr { toHolds := hholds, phase := ?_, stop := ?_, full := ?_ })
    · exact (if_neg fun hall => hmore hall.1).trans (if_neg hmore)
    · intro hlt
      exfalso
      change s.read + chars F s < amount F c at hlt
      change ¬ s.left - chars F s > 0 at hmore
      omega
    · intro hfull
      change s.block = e + 1 + nbuf at hfull
      omega

/-- A turn of the last loop releases a buffer. -/
theorem release_turn (h : Releasing F c e s) (hne : s.bhe ≠ s.bhb) :
    Releasing F c (e + 1) (release s) := by
  have hle := h.le_block
  have hwindow := h.window
  have hnot := (not_congr h.meet).mp hne
  exact { h.toHolds.next (by omega : e < s.block) with
    phase := h.phase
    stop := h.stop
    full := by
      intro hfull
      change s.block = e + 1 + nbuf at hfull
      omega }

theorem inv_step {s' : State} (h : ∃ e, Inv F c e s) (hstep : step F o s = .inl s') :
    ∃ e, Inv F c e s' := by
  obtain ⟨e, h | h | h⟩ := h
  · rw [step, h.phase] at hstep
    cases hstep
    by_cases hblocks : s.blocks = 0
    · rw [if_pos hblocks]
      exact ⟨e, .inr (.inl (fill_done h hblocks))⟩
    · rw [if_neg hblocks]
      exact ⟨e, (fill_turn h hblocks).2⟩
  · rw [step, h.phase] at hstep
    cases hstep
    cases hstop : stops F e with
    | true =>
      rw [(drain_fails h hstop).1]
      exact ⟨e, .inr (.inr (drain_fails (o := o) h hstop).2)⟩
    | false =>
      rw [(drain_turn h hstop).1]
      exact ⟨e + 1, (drain_turn h hstop).2⟩
  · rw [step, h.phase] at hstep
    by_cases hne : s.bhe ≠ s.bhb
    · simp only [if_pos hne] at hstep
      cases hstep
      exact ⟨e + 1, .inr (.inr (release_turn h hne))⟩
    · simp only [if_neg hne] at hstep
      cases hstep

/-! ## The end of the loops -/

/-- The turns that are left. -/
def work (s : State) : Nat :=
  match s.phase with
  | .fill => nbuf + 2 * (s.blocks + s.left) + 1
  | .drain => nbuf + 2 * (s.blocks + s.left)
  | .release => (s.bhb + nbuf - s.bhe) % nbuf

theorem work_release (h : s.phase = .release) : work s < nbuf := by
  rw [work, h]
  exact Nat.mod_lt _ (by decide)

theorem work_le (s : State) : work s ≤ nbuf + 2 * (s.blocks + s.left) + 1 := by
  cases hphase : s.phase with
  | fill | drain => simp [work, hphase]
  | release =>
    have := work_release hphase
    omega

theorem work_step {s' : State} (h : ∃ e, Inv F c e s) (hstep : step F o s = .inl s') :
    work s' < work s := by
  obtain ⟨e, h | h | h⟩ := h
  · have hwork : work s = nbuf + 2 * (s.blocks + s.left) + 1 := by rw [work, h.phase]
    rw [step, h.phase] at hstep
    cases hstep
    rw [hwork]
    by_cases hblocks : s.blocks = 0
    · rw [if_pos hblocks]
      exact Nat.lt_succ_self _
    · rw [if_neg hblocks]
      apply (work_le _).trans_lt
      change nbuf + 2 * (s.blocks - 1 + s.left) + 1 < _
      omega
  · have hwork : work s = nbuf + 2 * (s.blocks + s.left) := by rw [work, h.phase]
    rw [step, h.phase] at hstep
    cases hstep
    rw [hwork]
    cases hstop : stops F e with
    | true =>
      rw [(drain_fails h hstop).1]
      have := work_release (s := { s with phase := .release, left := 0 }) rfl
      omega
    | false =>
      have hchars := h.chars_pos
      rw [(drain_turn h hstop).1]
      apply (work_le _).trans_lt
      change nbuf + 2 * (s.blocks + (s.left - chars F s)) + 1 < _
      omega
  · rw [step, h.phase] at hstep
    by_cases hne : s.bhe ≠ s.bhb
    · simp only [if_pos hne] at hstep
      cases hstep
      have hbhb := h.bhb
      have hbhe := h.bhe
      have hwork : work s = (s.bhb + nbuf - s.bhe) % nbuf := by rw [work, h.phase]
      have hwork' : work (release s) = (s.bhb + nbuf - advance s.bhe) % nbuf := by
        rw [work, release, h.phase]
      rw [hwork, hwork', advance]
      unfold nbuf at hbhb hbhe ⊢
      split <;> omega
    · simp only [if_neg hne] at hstep
      cases hstep

/-- The loops start with nothing in the ring. -/
theorem start_filling (hamount : 0 < amount F c) : Filling F c (first F c) (start F c) where
  first_le := le_refl _
  le_block := le_refl _
  window := Nat.le_add_right _ _
  blocks := rfl
  bhb := by
    change 0 = (first F c - first F c) % nbuf
    rw [Nat.sub_self]
    rfl
  bhe := by
    rw [Nat.sub_self]
    rfl
  cells := fun i hi hlt => absurd hlt (not_lt.mpr hi)
  got := by
    change [] = held F c (first F c - first F c)
    rw [Nat.sub_self, held_zero]
  released := by
    rw [Nat.sub_self, held_zero]
    rfl
  read_le := Nat.zero_le _
  pos := rfl
  buf := rfl
  good := fun i hi => absurd hi (Nat.not_lt_zero i)
  left_pos := by
    change 0 < (left F c).toNat
    rw [left_toNat]
    exact hamount
  left := by
    change 0 + (left F c).toNat = amount F c
    rw [left_toNat, Nat.zero_add]
  place := (Nat.div_add_mod' c.pos F.blockSize).symm
  offset_lt := Nat.mod_lt _ (blockSize_pos F)
  phase := rfl
  room := Nat.lt_add_of_pos_right (by decide)

/-- **A read ends.** -/
theorem file_read_ends (F : File) (o : Order) (c : Call) :
    ∃ fuel r, ext2FileRead F o c fuel = some r := by
  by_cases hleft : left F c ≤ 0
  · exact ⟨0, _, if_pos hleft⟩
  · have hhalts : Iteration.Halts (step F o) (start F c) := by
      apply Iteration.halts_of_measure (I := fun s => ∃ e, Inv F c e s) work
      · exact fun s s' h hstep => ⟨inv_step h hstep, work_step h hstep⟩
      · exact ⟨_, .inl (start_filling (left_pos.mp hleft))⟩
    obtain ⟨fuel, r, hr⟩ := Iteration.halts_iff.mp hhalts
    exact ⟨fuel, r, (if_neg hleft).trans hr⟩

/-- What a call returns: the bytes up to the block where a walk comes to a read error, with all buffers
released, unless the ring can be full there. -/
def Returned (F : File) (c : Call) (r : Result) : Prop :=
  ∃ len, Served (fun i => stops F ((c.pos + i) / F.blockSize)) (amount F c) len ∧
    r.ret = (if amount F c = 0 then 0 else if len = 0 then -Errno.eio else len) ∧
    r.buf = (List.range len).map (fun i => seen F (c.pos + i)) ∧
    r.pos = c.pos + len ∧
    (r.released = r.got ∨ len < amount F c ∧ (c.pos + len) / F.blockSize + nbuf ≤ asked F c)

theorem Releasing.returned (h : Releasing F c e s) (hamount : 0 < amount F c)
    (hmeet : s.bhe = s.bhb) :
    Returned F c {
      ret := if s.read = 0 then -Errno.eio else s.read
      pos := s.pos
      buf := s.buf
      got := s.got
      released := s.released } := by
  refine ⟨s.read, ⟨h.read_le, h.good, h.stop⟩, (if_neg hamount.ne').symm, h.buf, h.pos, ?_⟩
  rcases h.meet.mp hmeet with hempty | hfull
  · left
    change s.released = s.got
    rw [h.released, h.got, hempty]
  · right
    obtain ⟨hlt, he⟩ := h.full hfull
    have hasked := h.blocks
    refine ⟨hlt, ?_⟩
    rw [← he]
    omega

/-- **What a read returns.** -/
theorem file_read_returns {fuel : Nat} {r : Result} (h : ext2FileRead F o c fuel = some r) :
    Returned F c r := by
  rw [ext2FileRead] at h
  split at h
  next hleft =>
    have hzero : amount F c = 0 := by
      rw [← left_toNat]
      omega
    cases h
    refine ⟨0, ?_, (if_pos hzero).symm, rfl, rfl, .inl rfl⟩
    rw [hzero]
    exact ⟨le_refl 0, fun i hi => absurd hi (Nat.not_lt_zero i), fun h => absurd h (lt_irrefl 0)⟩
  next hleft =>
    have hamount := left_pos.mp hleft
    refine Iteration.iterate_result (I := fun s => ∃ e, Inv F c e s) (fun s s' => inv_step) ?_
      ⟨_, .inl (start_filling hamount)⟩ h
    rintro s r ⟨e, hinv⟩ hdone
    rw [step] at hdone
    rcases hinv with hinv | hinv | hinv
    · simp [hinv.phase] at hdone
    · simp [hinv.phase] at hdone
    · rw [hinv.phase] at hdone
      by_cases hne : s.bhe ≠ s.bhb
      · simp only [if_pos hne] at hdone
        cases hdone
      · simp only [if_neg hne] at hdone
        cases hdone
        exact hinv.returned hamount (not_ne_iff.mp hne)

/-! ## A full ring -/

/-- Every block before `k` is up to date when it is looked up, and `k` is not. -/
def late (k : Nat) : Order where
  uptodate b := b < k
  locked _ := true

/-- On the way to block `k`, the ring holds at most one block; from `k` on, it is filled up. -/
def Toward (k e : Nat) (s : State) : Prop :=
  match s.phase with
  | .fill => e ≤ k ∧ (s.block = e ∧ s.uptodate = true ∨
      e = k ∧ k < s.block ∧ s.uptodate = false)
  | .drain => e < k ∧ s.block = e + 1 ∨ e = k ∧ s.block = k + nbuf
  | .release => e = k ∧ s.block = k + nbuf

/-- A turn of the first loop, before and at block `k`. -/
theorem Toward.fill {k : Nat} (h : Filling F c e s) (hk : Toward k e s)
    (hstop : stops F k = true) (hmany : k + nbuf ≤ asked F c) :
    s.blocks ≠ 0 ∧ Toward k e (fill F (late k) s) := by
  have hroom := h.room
  have hasked := h.blocks
  rw [Toward, h.phase] at hk
  obtain ⟨hle, hk⟩ := hk
  have hne : s.blocks ≠ 0 := by
    unfold nbuf at hroom hmany
    omega
  refine ⟨hne, ?_⟩
  have hmeet := (fill_turn (o := late k) h hne).1.meet
  have hphase : (Ext2.Read.fill F (late k) s).phase =
      if (Ext2.Read.fill F (late k) s).uptodate then .drain
      else if (Ext2.Read.fill F (late k) s).bhb = (Ext2.Read.fill F (late k) s).bhe then .drain
      else .fill := rfl
  have hup : (Ext2.Read.fill F (late k) s).uptodate =
      (s.uptodate && (ext2Getblk F s.block).all fun _ => decide (s.block < k)) := rfl
  have hblock : (Ext2.Read.fill F (late k) s).block = s.block + 1 := rfl
  rcases hk with ⟨hempty, huptodate⟩ | ⟨rfl, hlt, huptodate⟩
  · rcases Nat.lt_or_eq_of_le hle with hlt | rfl
    · -- the block is up to date, or a hole
      have hup' : (Ext2.Read.fill F (late k) s).uptodate = true := by
        rw [hup, huptodate, hempty, decide_eq_true hlt]
        cases ext2Getblk F e <;> rfl
      rw [Toward, hphase, if_pos hup']
      exact .inl ⟨hlt, by rw [hblock, hempty]⟩
    · obtain ⟨bh, hbh⟩ : ∃ bh, ext2Getblk F e = some bh := by
        rw [stops] at hstop
        cases hget : ext2Getblk F e with
        | none =>
          rw [hget] at hstop
          contradiction
        | some bh => exact ⟨bh, rfl⟩
      have hup' : (Ext2.Read.fill F (late e) s).uptodate = false := by
        rw [hup, hempty, hbh]
        simp
      have hapart : ¬ (Ext2.Read.fill F (late e) s).bhb = (Ext2.Read.fill F (late e) s).bhe := by
        intro heq
        have hat := hmeet.mp heq.symm
        rw [hblock, hempty] at hat
        unfold nbuf at hat
        omega
      rw [Toward, hphase, if_neg (Bool.eq_false_iff.mp hup'), if_neg hapart]
      exact ⟨le_refl e, .inr ⟨rfl, by rw [hblock, hempty]; exact Nat.lt_succ_self e, hup'⟩⟩
  · have hup' : (Ext2.Read.fill F (late e) s).uptodate = false := by
      rw [hup, huptodate, Bool.false_and]
    by_cases heq : (Ext2.Read.fill F (late e) s).bhb = (Ext2.Read.fill F (late e) s).bhe
    · rw [Toward, hphase, if_neg (Bool.eq_false_iff.mp hup'), if_pos heq]
      have hat := hmeet.mp heq.symm
      exact .inr ⟨rfl, by omega⟩
    · rw [Toward, hphase, if_neg (Bool.eq_false_iff.mp hup'), if_neg heq]
      exact ⟨le_refl e, .inr ⟨rfl, by omega, hup'⟩⟩

/-- A block before `k` leaves the ring empty. -/
theorem Toward.copy {k : Nat} (h : Draining F c e s) (hk : e < k) (hblock : s.block = e + 1)
    (hstop : stops F e = false) (hin : k * F.blockSize < c.pos + amount F c) :
    Toward k (e + 1) (copy F o s) := by
  have hmeet := (copy_holds (o := o) h hstop).meet.mpr (.inl hblock)
  have hmore : (Ext2.Read.copy F o s).left > 0 := by
    have hplace := h.place
    have hleft := h.left
    have hchars : s.offset + chars F s ≤ F.blockSize := by
      have hoffset := h.offset_lt
      rw [chars]
      split <;> omega
    have hnext : (e + 1) * F.blockSize ≤ k * F.blockSize := Nat.mul_le_mul_right _ hk
    rw [Nat.succ_mul] at hnext
    change s.left - chars F s > 0
    omega
  have hphase : (Ext2.Read.copy F o s).phase = .fill :=
    (if_neg fun hall => hall.2.1 hmeet).trans (if_pos hmore)
  rw [Toward, hphase]
  exact ⟨hk, .inl ⟨hblock, rfl⟩⟩

theorem Toward.step {k : Nat} {s' : State} (hgood : ∀ j, first F c ≤ j → j < k → stops F j = false)
    (hstop : stops F k = true) (hin : k * F.blockSize < c.pos + amount F c)
    (hmany : k + nbuf ≤ asked F c) (h : ∃ e, Inv F c e s ∧ Toward k e s)
    (hstep : step F (late k) s = .inl s') : ∃ e, Inv F c e s' ∧ Toward k e s' := by
  obtain ⟨e, h | h | h, hk⟩ := h
  · obtain ⟨hne, hk'⟩ := hk.fill h hstop hmany
    rw [Ext2.Read.step, h.phase] at hstep
    simp only [if_neg hne] at hstep
    cases hstep
    exact ⟨e, (fill_turn h hne).2, hk'⟩
  · rw [Ext2.Read.step, h.phase] at hstep
    cases hstep
    rw [Toward, h.phase] at hk
    rcases hk with ⟨hlt, hblock⟩ | ⟨rfl, hblock⟩
    · have hgo := hgood e h.first_le hlt
      rw [(drain_turn h hgo).1]
      exact ⟨e + 1, (drain_turn h hgo).2, Toward.copy h hlt hblock hgo hin⟩
    · rw [(drain_fails h hstop).1]
      exact ⟨e, .inr (.inr (drain_fails (o := late e) h hstop).2), rfl, hblock⟩
  · rw [Toward, h.phase] at hk
    obtain ⟨rfl, hblock⟩ := hk
    rw [Ext2.Read.step, h.phase] at hstep
    have hmeet : ¬ s.bhe ≠ s.bhb := not_not.mpr (h.meet.mpr (.inr hblock))
    simp only [if_neg hmeet] at hstep
    cases hstep

theorem length_held_le {m : Nat} (h : m ≤ n) : (held F c m).length ≤ (held F c n).length := by
  obtain ⟨d, rfl⟩ := Nat.exists_eq_add_of_le h
  rw [held, held, ← List.range'_append_1, List.filterMap_append, List.length_append]
  exact Nat.le_add_right _ _

/-- **A read that leaks**: the blocks in a full ring are not released. -/
theorem file_read_leaks {k fuel : Nat} {r : Result}
    (hgood : ∀ j, first F c ≤ j → j < k → stops F j = false) (hfirst : first F c ≤ k)
    (hstop : stops F k = true) (hin : k * F.blockSize < c.pos + amount F c)
    (hamount : 0 < amount F c) (hmany : k + nbuf ≤ asked F c)
    (h : ext2FileRead F (late k) c fuel = some r) : r.released.length < r.got.length := by
  rw [ext2FileRead, if_neg (left_pos.mpr hamount)] at h
  refine Iteration.iterate_result (I := fun s => ∃ e, Inv F c e s ∧ Toward k e s)
    (Q := fun r => r.released.length < r.got.length) (fun s s' => Toward.step hgood hstop hin hmany) ?_
    ⟨_, .inl (start_filling hamount), hfirst, .inl ⟨rfl, rfl⟩⟩ h
  rintro s r ⟨e, hinv, hk⟩ hdone
  rw [step] at hdone
  rcases hinv with hinv | hinv | hinv
  · simp [hinv.phase] at hdone
  · simp [hinv.phase] at hdone
  · rw [Toward, hinv.phase] at hk
    obtain ⟨rfl, hblock⟩ := hk
    have hmeet : ¬ s.bhe ≠ s.bhb := not_not.mpr (hinv.meet.mpr (.inr hblock))
    rw [hinv.phase] at hdone
    simp only [if_neg hmeet] at hdone
    cases hdone
    change s.released.length < s.got.length
    rw [hinv.released, hinv.got, hblock]
    have hone : (held F c (e - first F c)).length < (held F c (e - first F c + 1)).length := by
      rw [held_succ, Nat.add_sub_cancel' hfirst, List.length_append]
      rw [stops] at hstop
      cases hget : ext2Getblk F e with
      | none =>
        rw [hget] at hstop
        contradiction
      | some bh => exact Nat.lt_succ_self _
    apply hone.trans_le
    apply length_held_le
    unfold nbuf
    omega

/-! ## Reads that are correct -/

theorem unread_of_stops {b : Nat} (hb : b < limit (addrPerBlock F.log)) (h : stops F b = true) :
    unread F b = true := by
  rw [stops] at h
  rcases ext2Getblk_cases hb with ⟨n, hget, -, -, hunread⟩ | ⟨hget, -⟩ | ⟨hget, -⟩
  · rw [hget] at h
    rw [hunread]
    exact h
  · rw [hget] at h
    contradiction
  · rw [hget] at h
    contradiction

theorem stops_of_unread {b : Nat} (hb : b < limit (addrPerBlock F.log)) (h : unread F b = true)
    (hsome : (ext2Getblk F b).isSome) : stops F b = true := by
  rcases ext2Getblk_cases hb with ⟨n, hget, -, -, hunread⟩ | ⟨hget, -⟩ | ⟨hget, -⟩
  · rw [stops, hget]
    exact hunread.symm.trans h
  · rw [hget] at hsome
    contradiction
  · rw [hget] at hsome
    contradiction

/-- A walk without read errors finds the byte of the file. -/
theorem seen_eq_byte (hi : i < F.size) (h : unread F (i / F.blockSize) = false) :
    seen F i = F.byte i := by
  rw [seen, File.byte]
  rcases ext2Getblk_cases (block_lt F hi) with ⟨n, hget, hentry, hn, -⟩ | ⟨hget, hentry, -⟩ | ⟨-, hbad⟩
  · rw [hget, hentry, if_neg hn]
  · rw [hget, if_pos hentry]
  · rw [h] at hbad
    contradiction

/-- Every block before that of the byte `len` has a byte before `len`. -/
theorem byte_before {len j : Nat} (hj : first F c ≤ j) (hlt : j < (c.pos + len) / F.blockSize) :
    j * F.blockSize - c.pos < len ∧ (c.pos + (j * F.blockSize - c.pos)) / F.blockSize = j := by
  have hpos := blockSize_pos F
  have hdiv : (c.pos + (j * F.blockSize - c.pos)) / F.blockSize = j := by
    rcases Nat.lt_or_ge (j * F.blockSize) c.pos with hbefore | hbefore
    · rw [Nat.sub_eq_zero_of_le hbefore.le, Nat.add_zero]
      exact le_antisymm hj ((Nat.le_div_iff_mul_le hpos).mpr hbefore.le)
    · rw [Nat.add_sub_cancel' hbefore, Nat.mul_div_cancel _ hpos]
  refine ⟨?_, hdiv⟩
  rw [← hdiv] at hlt
  have := Nat.lt_of_div_lt_div hlt
  omega

end Proofs

/-- **Reads return the file**, in every order in which the buffers come to be up to date, exactly when
the first block that cannot be read is not lost on the way to it, and fewer than `NBUF` blocks are
asked for from it on. -/
theorem file_read_exact (F : File) (c : Call) :
    (∀ o, ∃ fuel r, ext2FileRead F o c fuel = some r ∧ Correct F c r) ↔
      ∀ len, Served (fun i => unread F ((c.pos + i) / F.blockSize)) (amount F c) len →
        len < amount F c → (ext2Getblk F ((c.pos + len) / F.blockSize)).isSome ∧
          asked F c < (c.pos + len) / F.blockSize + nbuf := by
  have hin : ∀ i, i < amount F c → (c.pos + i) / F.blockSize < limit (addrPerBlock F.log) := by
    intro i hi
    apply block_lt
    have := amount_le F c (by omega)
    omega
  constructor
  · intro hall len hserved hlt
    have hsome : (ext2Getblk F ((c.pos + len) / F.blockSize)).isSome := by
      -- a block that is lost is returned as zeros
      by_contra hnone
      obtain ⟨fuel, r, hr, len', hserved', hret, -⟩ := hall ⟨fun _ => true, fun _ => true⟩
      obtain ⟨stop, hstop, hret', -⟩ := file_read_returns hr
      obtain rfl := hserved'.unique hserved
      have hpass : len' < stop := by
        by_contra hge
        have hat := hstop.stop (by omega)
        rcases Nat.lt_or_eq_of_le (not_lt.mp hge) with hbefore | rfl
        · have hbad := unread_of_stops (hin stop (by omega)) hat
          rw [hserved.good stop hbefore] at hbad
          contradiction
        · rw [stops, Option.not_isSome_iff_eq_none.mp hnone] at hat
          contradiction
      rw [hret', if_neg (by omega), if_neg (by omega), if_neg (by omega)] at hret
      split at hret
      · rw [Errno.eio] at hret
        omega
      · omega
    refine ⟨hsome, ?_⟩
    by_contra hmany
    obtain ⟨fuel, r, hr, -, -, -, -, -, hperm⟩ := hall (late ((c.pos + len) / F.blockSize))
    apply absurd hperm.length_eq (Nat.ne_of_lt _)
    refine file_read_leaks ?_ (Nat.div_le_div_right (Nat.le_add_right _ _))
      (stops_of_unread (hin len hlt) (hserved.stop hlt) hsome) ?_ (by omega) (not_lt.mp hmany) hr
    · intro j hj hjlt
      obtain ⟨hbefore, hdiv⟩ := byte_before hj hjlt
      have hgood := hserved.good _ hbefore
      rw [hdiv] at hgood
      apply Bool.eq_false_iff.mpr
      intro hat
      have hj' := hin _ (hbefore.trans hlt)
      rw [hdiv] at hj'
      rw [unread_of_stops hj' hat] at hgood
      contradiction
    · have := Nat.div_mul_le_self (c.pos + len) F.blockSize
      omega
  · intro hcond o
    obtain ⟨fuel, r, hr⟩ := file_read_ends F o c
    refine ⟨fuel, r, hr, ?_⟩
    obtain ⟨len, hserved, hret, hbuf, hpos, hrel⟩ := file_read_returns hr
    obtain ⟨len', hserved'⟩ :=
      Served.exists (fun i => unread F ((c.pos + i) / F.blockSize)) (amount F c)
    have hle := hserved.le
    have hle' := hserved'.le
    obtain rfl : len' = len := by
      rcases lt_trichotomy len' len with hlt | heq | hlt
      · have hat := stops_of_unread (hin len' (by omega)) (hserved'.stop (by omega))
          (hcond len' hserved' (by omega)).1
        rw [hserved.good len' hlt] at hat
        contradiction
      · exact heq
      · have hbad := unread_of_stops (hin len (by omega)) (hserved.stop (by omega))
        rw [hserved'.good len hlt] at hbad
        contradiction
    refine ⟨len', hserved', hret, ?_, hpos, ?_⟩
    · rw [hbuf]
      apply List.map_congr_left
      intro i hi
      rw [List.mem_range] at hi
      apply seen_eq_byte
      · have := amount_le F c (by omega)
        omega
      · exact hserved'.good i hi
    · rcases hrel with heq | ⟨hlt, hmany⟩
      · rw [heq]
      · exact absurd (hcond len' hserved' hlt).2 (not_lt.mpr hmany)

/-- A file of 16 blocks of 1024 bytes whose first block cannot be read. -/
def brokenFile : File where
  log := 0
  map := {
    data := fun n => n + 100
    table := fun _ i => i + 200
    iBlocks := 34
    freed := []
    retry := false }
  bytes := fun _ _ => 0
  fails := fun _ n => n = 100
  size := 16384
  size_lt := by decide

/-- Its buffers are lost when all of it is read. -/
theorem read_leaks_buffers :
    ¬ ∀ o, ∃ fuel r, ext2FileRead brokenFile o ⟨0, 16384, false, 0⟩ fuel = some r ∧
      Correct brokenFile ⟨0, 16384, false, 0⟩ r := by
  intro hall
  obtain ⟨fuel, r, hr, -, -, -, -, -, hperm⟩ := hall (late 0)
  apply absurd hperm.length_eq (Nat.ne_of_lt _)
  exact file_read_leaks (fun j _ hj => absurd hj (Nat.not_lt_zero j)) (by decide) (by decide)
    (by decide) (by decide) (by decide) hr

end LinuxEvocation.Ext2.Read
