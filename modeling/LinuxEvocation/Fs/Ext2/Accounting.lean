import LinuxEvocation.Fs.Ext2.Alloc
import LinuxEvocation.Lib.Tally
import LinuxEvocation.Lib.Transition

/-!
# The free blocks and inodes of ext2 are counted right

* `Consistent` — the counters of the groups and of the super block agree with the bitmaps, within
  the number of the blocks and inodes there are.
* `Pass.Sound` — what a pass of an allocation keeps, however it ends.
* `blockHeld`, `inodeHeld` — a block or an inode that is freed is in use.
* `ext2_accounting` — the counters agree in every run in which only what is in use is freed, and
  what an allocation returns was free.
* `ext2_free_inode_twice` — an inode that is not in use is freed.
-/

namespace LinuxEvocation.Ext2

open Tally

/-! ## Consistent file systems -/

/-- There is a block with this number. -/
def blockValid (g : Geometry) (i j : Nat) : Prop := g.block i j < g.blocksCount

/-- There is an inode with this number. -/
def inodeValid (g : Geometry) (i j : Nat) : Prop := g.ino i j ≤ g.inodesCount

instance (g : Geometry) (i : Nat) : DecidablePred (blockValid g i) :=
  fun j => inferInstanceAs (Decidable (g.block i j < g.blocksCount))

instance (g : Geometry) (i : Nat) : DecidablePred (inodeValid g i) :=
  fun j => inferInstanceAs (Decidable (g.ino i j ≤ g.inodesCount))

/-- **The counters agree with the bitmaps**, and the slots hold the bitmaps they are for. -/
structure Consistent (g : Geometry) (s : State) : Prop where
  blocks : Balanced g.groupsCount g.blocksPerGroup (blockValid g) s.blockBitmap
    s.bgFreeBlocksCount s.freeBlocksCount
  inodes : Balanced g.groupsCount g.inodesPerGroup (inodeValid g) s.inodeBitmap
    s.bgFreeInodesCount s.freeInodesCount
  blockCache : s.blockCache.Valid g.groupsCount
  inodeCache : s.inodeCache.Valid g.groupsCount

/-- The block is there and not in use. -/
def BlockFree (g : Geometry) (s : State) (x : Nat) : Prop :=
  ∃ i j, i < g.groupsCount ∧ j < g.blocksPerGroup ∧ x = g.block i j ∧ blockValid g i j ∧
    s.blockBitmap i j = false

/-- The inode is there and not in use. -/
def InodeFree (g : Geometry) (s : State) (x : Nat) : Prop :=
  ∃ i j, i < g.groupsCount ∧ j < g.inodesPerGroup ∧ x = g.ino i j ∧ inodeValid g i j ∧
    s.inodeBitmap i j = false

variable {g : Geometry} {s : State}

theorem Consistent.setBlockCache (h : Consistent g s) {c : Cache}
    (hc : c.Valid g.groupsCount) : Consistent g { s with blockCache := c } :=
  ⟨h.blocks, h.inodes, hc, h.inodeCache⟩

theorem Consistent.setInodeCache (h : Consistent g s) {c : Cache}
    (hc : c.Valid g.groupsCount) : Consistent g { s with inodeCache := c } :=
  ⟨h.blocks, h.inodes, h.blockCache, hc⟩

/-- What a pass from a state keeps, however it ends; `free` says what may be returned. -/
def Pass.Sound (g : Geometry) (free : State → Nat → Prop) (s : State) : Pass → Prop
  | .crash => True
  | .fail s' => Consistent g s'
  | .again s' => Consistent g s' ∧ ∀ x, free s' x → free s x
  | .got s' x => Consistent g s' ∧ free s x

variable {s' : State} {x : Nat}

theorem passes_sound {free : State → Nat → Prop} {pass : State → Pass}
    (hpass : ∀ s, Consistent g s → Pass.Sound g free s (pass s)) {fuel : Nat}
    (hs : Consistent g s) (h : passes pass fuel s = some (s', x)) :
    Consistent g s' ∧ (x = 0 ∨ free s x) := by
  induction fuel generalizing s with
  | zero => cases h
  | succ fuel ih =>
    have hsound := hpass s hs
    rw [passes] at h
    cases hp : pass s with
    | crash =>
      rw [hp] at h
      cases h
    | fail s₁ =>
      rw [hp] at h hsound
      cases h
      exact ⟨hsound, .inl rfl⟩
    | again s₁ =>
      rw [hp] at h hsound
      obtain ⟨hs', hx⟩ := ih hsound.1 h
      exact ⟨hs', hx.imp_right (hsound.2 x)⟩
    | got s₁ y =>
      rw [hp] at h hsound
      cases h
      exact ⟨hsound.1, .inr hsound.2⟩

/-! ## Blocks -/

/-- From `got_block` on, with the bitmap of the group. -/
theorem gotBlock_sound {i j : Nat} (h : Consistent g s)
    (hi : i < g.groupsCount) (hj : j < g.blocksPerGroup) :
    Pass.Sound g (BlockFree g) s (gotBlock g s i i j) := by
  unfold gotBlock
  cases hbit : s.blockBitmap i j with
  | true =>
    rw [if_pos rfl]
    exact ⟨h, fun _ hx => hx⟩
  | false =>
    rw [if_neg (by simp)]
    simp only
    split_ifs with hvalid
    · -- the bit is set, and stands for no block
      exact ⟨h.blocks.mark true (not_lt.2 hvalid), h.inodes, h.blockCache, h.inodeCache⟩
    · have hvalid : blockValid g i j := not_le.1 hvalid
      exact ⟨⟨h.blocks.take hi hj hvalid hbit, h.inodes, h.blockCache, h.inodeCache⟩,
        i, j, hi, hj, rfl, hvalid, hbit⟩

theorem searchGoal_lt {bits : Nat → Bool} {size j stray k : Nat} (hj : j < size)
    (h : searchGoal bits size j stray = some k) : k < size := by
  have hnear : ∀ {k}, nearGoal bits size j = some k → k < size := by
    intro k hk
    unfold nearGoal at hk
    simp only at hk
    split_ifs at hk with h1 h2 h3 h2 h3
    · cases hk
      exact h3
    · cases hk
      exact h3
  unfold searchGoal at h
  split_ifs at h with hbit hj0
  · cases h
    exact hj
  · cases hk : nearGoal bits size j with
    | some k' =>
      rw [hk] at h
      cases h
      exact hnear hk
    | none =>
      rw [hk] at h
      simp only at h
      split_ifs at h with h1 h2
      · cases h
        exact h1
      · cases h
        exact h2
  · simp only at h
    split_ifs at h with h1 h2
    · cases h
      exact h1
    · cases h
      exact h2

theorem searchGroup_lt {bits : Nat → Bool} {size k : Nat}
    (h : searchGroup bits size = some k) : k < size := by
  unfold searchGroup at h
  simp only at h
  split_ifs at h with h1 h2
  all_goals
    cases h
    omega

theorem searchRest_sound (h : Consistent g s) (i : Nat) :
    Pass.Sound g (BlockFree g) s (searchRest g s i) := by
  unfold searchRest
  cases nextGroup g.groupsCount s.bgFreeBlocksCount g.groupsCount i with
  | none => exact h
  | some i =>
    simp only
    obtain ⟨-, hnone⟩ | ⟨hi, c, nr, hload, hc, hbuf⟩ := loadBlockBitmap_spec h.blockCache i
    · rw [hnone]
      trivial
    · rw [hload]
      simp only [hbuf]
      have hs := h.setBlockCache hc
      cases hsearch : searchGroup (s.blockBitmap i) g.blocksPerGroup with
      | none => exact hs
      | some j => exact gotBlock_sound hs hi (searchGroup_lt hsearch)

theorem newBlockPass_sound (h : Consistent g s) (goal stray : Nat) :
    Pass.Sound g (BlockFree g) s (newBlockPass g goal stray s) := by
  unfold newBlockPass
  simp only
  set off := (goal + 2 ^ 32 - g.firstDataBlock) % 2 ^ 32
  by_cases hloaded : g.descLoaded (off / g.blocksPerGroup)
  · rw [if_neg (not_not.2 hloaded)]
    by_cases hfree : s.bgFreeBlocksCount (off / g.blocksPerGroup) > 0
    · rw [if_pos hfree]
      obtain ⟨-, hnone⟩ | ⟨hi, c, nr, hload, hc, hbuf⟩ :=
        loadBlockBitmap_spec h.blockCache (off / g.blocksPerGroup)
      · rw [hnone]
        trivial
      · rw [hload]
        simp only [hbuf]
        have hs := h.setBlockCache hc
        cases hsearch : searchGoal (s.blockBitmap (off / g.blocksPerGroup)) g.blocksPerGroup
            (off % g.blocksPerGroup) stray with
        | none => exact searchRest_sound hs _
        | some j =>
          have hj : off % g.blocksPerGroup < g.blocksPerGroup :=
            Nat.mod_lt _ g.blocksPerGroup_pos
          exact gotBlock_sound hs hi (searchGoal_lt hj hsearch)
    · rw [if_neg hfree]
      exact searchRest_sound h _
  · rw [if_pos hloaded]
    trivial

theorem newBlock_sound {goal stray fuel : Nat} {suser : Bool}
    (h : Consistent g s) (hnew : newBlock g goal stray suser fuel s = some (s', x)) :
    Consistent g s' ∧ (x = 0 ∨ BlockFree g s x) := by
  unfold newBlock at hnew
  split_ifs at hnew
  · cases hnew
    exact ⟨h, .inl rfl⟩
  · exact passes_sound (fun s hs => newBlockPass_sound hs goal stray) h hnew

/-- The bit of a block is the one its number is made of. -/
theorem block_of_number (hfirst : g.firstDataBlock ≤ x) (hcount : x < g.blocksCount) :
    g.block ((x - g.firstDataBlock) / g.blocksPerGroup)
        ((x - g.firstDataBlock) % g.blocksPerGroup) = x ∧
      (x - g.firstDataBlock) / g.blocksPerGroup < g.groupsCount := by
  have hdiv := Nat.div_add_mod (x - g.firstDataBlock) g.blocksPerGroup
  constructor
  · rw [Geometry.block, Nat.mul_comm]
    omega
  · rw [Geometry.groupsCount, Nat.div_lt_iff_lt_mul g.blocksPerGroup_pos]
    have hpos := g.blocksPerGroup_pos
    -- the last group may be short
    have hlast : g.blocksCount - g.firstDataBlock + g.blocksPerGroup - 1 < _ :=
      Nat.lt_div_mul_add hpos
    omega

/-- The bit of a block. -/
def blockBit (g : Geometry) (s : State) (x : Nat) : Bool :=
  s.blockBitmap ((x - g.firstDataBlock) / g.blocksPerGroup)
    ((x - g.firstDataBlock) % g.blocksPerGroup)

/-- The bit of an inode. -/
def inodeBit (g : Geometry) (s : State) (x : Nat) : Bool :=
  s.inodeBitmap ((x - 1) / g.inodesPerGroup) ((x - 1) % g.inodesPerGroup)

theorem freeBlock_consistent (h : Consistent g s)
    (hheld : g.firstDataBlock ≤ x → x < g.blocksCount → blockBit g s x = true)
    (hfree : freeBlock g x s = some s') : Consistent g s' := by
  unfold freeBlock at hfree
  by_cases hout : x < g.firstDataBlock ∨ x ≥ g.blocksCount
  · rw [if_pos hout] at hfree
    cases hfree
    exact h
  · rw [if_neg hout] at hfree
    simp only at hfree
    have hbit := hheld (by omega) (by omega)
    obtain ⟨hblock, hi⟩ := block_of_number (by omega : g.firstDataBlock ≤ x) (by omega)
    unfold blockBit at hbit
    set i := (x - g.firstDataBlock) / g.blocksPerGroup
    set j := (x - g.firstDataBlock) % g.blocksPerGroup
    have hj : j < g.blocksPerGroup := Nat.mod_lt _ g.blocksPerGroup_pos
    have hvalid : blockValid g i j := by
      rw [blockValid, hblock]
      omega
    obtain ⟨hge, -⟩ | ⟨-, c, nr, hload, hc, hbuf⟩ := loadBlockBitmap_spec h.blockCache i
    · omega
    · rw [hload] at hfree
      simp only [hbuf, hbit, Bool.true_eq_false, if_false] at hfree
      cases hfree
      exact ⟨h.blocks.put hi hj hvalid hbit, h.inodes, hc, h.inodeCache⟩

/-! ## Inodes -/

theorem newInodePass_sound (h : Consistent g s) (parent : Nat)
    (isDir : Bool) : Pass.Sound g (InodeFree g) s (newInodePass g parent isDir s) := by
  unfold newInodePass
  by_cases hpanic : ¬ isDir = true ∧ parent ≥ g.groupsCount
  · rw [if_pos hpanic]
    trivial
  rw [if_neg hpanic]
  -- however the group is chosen
  generalize chosenGroup g parent isDir s = choice
  cases choice with
  | none => exact h
  | some i =>
    simp only
    obtain ⟨-, hnone⟩ | ⟨hi, c, nr, hload, hc, hbuf⟩ := loadInodeBitmap_spec h.inodeCache i
    · rw [hnone]
      trivial
    · rw [hload]
      simp only [hbuf]
      set j := findFirstZeroBit (s.inodeBitmap i) 0 g.inodesPerGroup
      have hs := h.setInodeCache hc
      by_cases hj : j < g.inodesPerGroup
      · rw [if_pos hj]
        cases hbit : s.inodeBitmap i j with
        | true =>
          rw [if_pos rfl]
          exact ⟨hs, fun _ hx => hx⟩
        | false =>
          rw [if_neg (by simp)]
          by_cases hcount : g.ino i j > g.inodesCount
          · -- the bit is set, and stands for no inode
            rw [if_pos hcount]
            exact ⟨h.blocks, h.inodes.mark true (not_le.2 hcount), h.blockCache, hc⟩
          · rw [if_neg hcount]
            have hvalid : inodeValid g i j := not_lt.1 hcount
            exact ⟨⟨h.blocks, h.inodes.take hi hj hvalid hbit, h.blockCache, hc⟩,
              i, j, hi, hj, rfl, hvalid, hbit⟩
      · rw [if_neg hj]
        exact ⟨hs, fun _ hx => hx⟩

theorem newInode_sound {parent fuel : Nat} {isDir empty : Bool}
    (h : Consistent g s) (hnew : newInode g parent isDir empty fuel s = some (s', x)) :
    Consistent g s' ∧ (x = 0 ∨ InodeFree g s x) := by
  unfold newInode at hnew
  split_ifs at hnew
  · exact passes_sound (fun s hs => newInodePass_sound hs parent isDir) h hnew
  · cases hnew
    exact ⟨h, .inl rfl⟩

/-- **An inode is freed**: the counters still agree exactly when it was in use. -/
theorem freeInode_consistent {n : Inode} (h : Consistent g s) (hfree : freeInode g n s = some s') :
    Consistent g s' ↔ (n.freeable g → inodeBit g s n.ino = true) := by
  unfold freeInode at hfree
  by_cases hpass : n.freeable g
  · rw [if_neg (not_not.2 hpass)] at hfree
    simp only at hfree
    have hino : g.ino ((n.ino - 1) / g.inodesPerGroup) ((n.ino - 1) % g.inodesPerGroup) =
        n.ino := by
      have hdiv := Nat.div_add_mod (n.ino - 1) g.inodesPerGroup
      have := hpass.2.2.2.1
      rw [Geometry.ino, Nat.mul_comm]
      omega
    unfold inodeBit
    set i := (n.ino - 1) / g.inodesPerGroup
    set j := (n.ino - 1) % g.inodesPerGroup
    have hj : j < g.inodesPerGroup := Nat.mod_lt _ g.inodesPerGroup_pos
    have hvalid : inodeValid g i j := by
      rw [inodeValid, hino]
      exact hpass.2.2.2.2
    obtain ⟨-, hnone⟩ | ⟨hi, c, nr, hload, hc, hbuf⟩ := loadInodeBitmap_spec h.inodeCache i
    · rw [hnone] at hfree
      cases hfree
    · rw [hload] at hfree
      simp only [hbuf] at hfree
      cases hbit : s.inodeBitmap i j with
      | true =>
        rw [hbit, if_neg (by simp)] at hfree
        cases hfree
        exact iff_of_true ⟨h.blocks, h.inodes.put hi hj hvalid hbit, h.blockCache, hc⟩
          fun _ => rfl
      | false =>
        rw [hbit, if_pos rfl] at hfree
        cases hfree
        refine iff_of_false (fun h' => ?_) fun hin => absurd (hin hpass) (by simp)
        -- the counter of the super block alone has moved
        have hsum := h.inodes.sum
        have hsum' : s.freeInodesCount + 1 = _ := h'.inodes.sum
        simp only at hsum'
        omega
  · rw [if_pos hpass] at hfree
    cases hfree
    exact iff_of_true h fun hin => absurd hin hpass

/-! ## Runs -/

/-- A block that is freed is in use. -/
def blockHeld (g : Geometry) (s : State) : Call → Prop
  | .freeBlock x => g.firstDataBlock ≤ x → x < g.blocksCount → blockBit g s x = true
  | _ => True

/-- **The condition on a call**: an inode that is freed is in use. -/
def inodeHeld (g : Geometry) (s : State) : Call → Prop
  | .freeInode n => n.freeable g → inodeBit g s n.ino = true
  | _ => True

/-- What a call returns was free. -/
def returnedFree (g : Geometry) (s : State) (x : Nat) : Call → Prop
  | .newBlock _ _ _ _ => x = 0 ∨ BlockFree g s x
  | .newInode _ _ _ _ => x = 0 ∨ InodeFree g s x
  | _ => True

/-- **One call**, from a consistent file system. -/
theorem stepOut_consistent {e : Call}
    (h : Consistent g s) (hblock : blockHeld g s e) (hstep : stepOut g s e = some (s', x)) :
    returnedFree g s x e ∧ (Consistent g s' ↔ inodeHeld g s e) := by
  cases e with
  | newBlock goal stray suser fuel =>
    obtain ⟨hs', hx⟩ := newBlock_sound h hstep
    exact ⟨hx, iff_of_true hs' trivial⟩
  | freeBlock b =>
    obtain ⟨s₁, hfree, heq⟩ := Option.map_eq_some_iff.1 hstep
    cases heq
    exact ⟨trivial, iff_of_true (freeBlock_consistent h hblock hfree) trivial⟩
  | newInode parent isDir empty fuel =>
    obtain ⟨hs', hx⟩ := newInode_sound h hstep
    exact ⟨hx, iff_of_true hs' trivial⟩
  | freeInode n =>
    obtain ⟨s₁, hfree, heq⟩ := Option.map_eq_some_iff.1 hstep
    cases heq
    exact ⟨trivial, freeInode_consistent h hfree⟩

/-- **Accounting.**  In every run, from a consistent file system, in which blocks and inodes are
freed only while they are in use: the counters agree with the bitmaps, what a call returns was free,
and the counters agree after the next call exactly when it meets the condition. -/
theorem ext2_accounting {s₀ : State} (hinit : Consistent g s₀)
    (h : Transition.Reach (step g) (fun s e => blockHeld g s e ∧ inodeHeld g s e) s₀ s) :
    Consistent g s ∧ ∀ e s' x, blockHeld g s e → stepOut g s e = some (s', x) →
      returnedFree g s x e ∧ (Consistent g s' ↔ inodeHeld g s e) := by
  have hs : Consistent g s := by
    refine h.invariant (I := Consistent g) hinit ?_
    intro s e s' hs hheld hstep
    obtain ⟨⟨_, x⟩, hout, rfl⟩ := Option.map_eq_some_iff.1 hstep
    exact (stepOut_consistent hs hheld.1 hout).2.2 hheld.2
  exact ⟨hs, fun e s' x hblock hstep => stepOut_consistent hs hblock hstep⟩

/-! ## A file system of two groups -/

/-- Forty blocks in two groups, and eight inodes in each of them. -/
def twoGroups : Geometry where
  firstDataBlock := 1
  blocksCount := 41
  rBlocksCount := 2
  blocksPerGroup := 32
  inodesCount := 16
  inodesPerGroup := 8
  descPerBlock := 32
  eight_dvd := by decide
  blocksPerGroup_pos := by decide
  inodesPerGroup_pos := by decide
  descPerBlock_pos := by decide
  first_le := by decide

/-- Nothing is in use. -/
def twoGroupsEmpty : State where
  freeBlocksCount := 40
  freeInodesCount := 16
  bgFreeBlocksCount i := if i = 0 then 32 else 8
  bgFreeInodesCount _ := 8
  bgUsedDirsCount _ := 0
  blockBitmap _ _ := false
  inodeBitmap _ _ := false
  blockCache := Cache.empty
  inodeCache := Cache.empty

theorem twoGroupsEmpty_consistent : Consistent twoGroups twoGroupsEmpty where
  blocks := ⟨by decide +kernel, by decide +kernel⟩
  inodes := ⟨by decide +kernel, by decide +kernel⟩
  blockCache := Cache.valid_empty _
  inodeCache := Cache.valid_empty _

/-- A call that allocates. -/
def Call.allocates : Call → Bool
  | .newBlock _ _ _ _ => true
  | .newInode _ _ _ _ => true
  | _ => false

theorem held_of_allocates {e : Call} (h : e.allocates = true) :
    blockHeld g s e ∧ inodeHeld g s e := by
  cases e with
  | newBlock | newInode => exact ⟨trivial, trivial⟩
  | freeBlock => cases h
  | freeInode => cases h

/-- A block near the end of the first group and a directory are allocated. -/
theorem ext2_accounting_two_groups :
    ∃ s, s.freeBlocksCount = 39 ∧ s.freeInodesCount = 15 ∧ s.bgUsedDirsCount 0 = 1 ∧
      Consistent twoGroups s ∧ ∀ e s' x, blockHeld twoGroups s e →
        stepOut twoGroups s e = some (s', x) →
          returnedFree twoGroups s x e ∧ (Consistent twoGroups s' ↔ inodeHeld twoGroups s e) := by
  have hrun : (Transition.execOkFrom (step twoGroups) (fun _ e => e.allocates) twoGroupsEmpty
      [.newBlock 31 0 false 1, .newInode 0 true true 1]).map
      (fun s => (s.freeBlocksCount, s.freeInodesCount, s.bgUsedDirsCount 0)) =
      some (39, 15, 1) := by
    decide +kernel
  obtain ⟨s, hs, hval⟩ := Option.map_eq_some_iff.1 hrun
  simp only [Prod.mk.injEq] at hval
  obtain ⟨h1, h2, h3⟩ := hval
  exact ⟨s, h1, h2, h3, ext2_accounting twoGroupsEmpty_consistent
    (Transition.Reach.of_execOkFrom (fun _ _ => held_of_allocates) .init hs)⟩

def Call.freesBlock : Call → Bool
  | .freeBlock _ => true
  | _ => false

theorem blockHeld_of_freesBlock {e : Call} (h : (!e.freesBlock) = true) : blockHeld g s e := by
  cases e with
  | freeBlock => cases h
  | _ => trivial

/-- **An inode is freed twice**: the second call finds the bit clear, and counts the inode again. -/
theorem ext2_free_inode_twice :
    ∃ s, Transition.Reach (step twoGroups) (blockHeld twoGroups) twoGroupsEmpty s ∧
      s.freeInodesCount = 17 ∧ ¬ Consistent twoGroups s := by
  have hrun : (Transition.execOkFrom (step twoGroups) (fun _ e => !e.freesBlock)
      twoGroupsEmpty
      [.newInode 0 false true 1, .freeInode ⟨true, 1, 0, 1, false⟩,
        .freeInode ⟨true, 1, 0, 1, false⟩]).map
      (fun s => (s.freeInodesCount, s.bgFreeInodesCount 0, s.bgFreeInodesCount 1)) =
      some (17, 8, 8) := by
    decide +kernel
  obtain ⟨s, hs, hval⟩ := Option.map_eq_some_iff.1 hrun
  simp only [Prod.mk.injEq] at hval
  obtain ⟨h1, h2, h3⟩ := hval
  refine ⟨s, Transition.Reach.of_execOkFrom (fun _ _ => blockHeld_of_freesBlock) .init hs, h1,
    fun hs => ?_⟩
  have hsum := hs.inodes.sum
  have hgroups : twoGroups.groupsCount = 2 := by decide
  rw [h1, hgroups, Finset.sum_range_succ, Finset.sum_range_one, h2, h3] at hsum
  omega

end LinuxEvocation.Ext2
