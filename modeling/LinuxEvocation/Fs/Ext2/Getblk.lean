import LinuxEvocation.Fs.Ext2.Accounting
import LinuxEvocation.Fs.Ext2.Bitmaps

/-!
# The goals of `ext2_getblk`

A file gets its blocks one at a time.  `ext2_getblk` keeps a hint, the block that would be the next
one if the file were written from the start to the end; `inode_getblk` and `block_getblk` pass the
hint to `ext2_new_block` as the goal, or the block before in the same table, or else the block behind
the indirect block, or the first block of the group of the inode.

The hint is advanced at every block that is asked for in sequence, and nothing holds it within the
groups; neither does anything for the block behind an indirect block.

* `inodeGoal`, `blockGoal` — the goals.
* `Sys`, `step` — a file and the file system it is on; the pieces of the calls run in any order.
* `Served` — the group of a goal exists, its descriptor is loaded, and the call returns a block that
  was free if there is one.
* `Inside` — the hint, or the block behind the indirect block, is in a group.
* `new_block_served_iff` — in every run, the next goal is served exactly when it is inside.
* `new_block_beyond` — a file that ends with the last block of the last group.
-/

namespace LinuxEvocation.Ext2

open Function (update update_of_ne update_self)

/-! ## The goals -/

/-- What the calls use of an inode, and the contents of its indirect blocks. -/
structure File where
  data : Nat → Nat
  table : Nat → Nat → Nat
  nextAllocBlock : Nat
  nextAllocGoal : Nat

/-- The last pointer before `nr` that is set. -/
def previous (p : Nat → Nat) : Nat → Nat
  | 0 => 0
  | nr + 1 => if p nr ≠ 0 then p nr else previous p nr

/-- The hint, if it is for this block. -/
def File.hint (f : File) (newBlock : Nat) : Nat :=
  if f.nextAllocBlock = newBlock then f.nextAllocGoal else 0

/-- The goal of `inode_getblk`, for an inode of the group. -/
def inodeGoal (g : Geometry) (group : Nat) (f : File) (nr newBlock : Nat) : Nat :=
  if f.hint newBlock ≠ 0 then f.hint newBlock
  else if previous f.data nr ≠ 0 then previous f.data nr
  else group * g.blocksPerGroup + g.firstDataBlock

/-- The goal of `block_getblk`, for the indirect block `b`. -/
def blockGoal (f : File) (b nr newBlock : Nat) : Nat :=
  if f.hint newBlock ≠ 0 then f.hint newBlock
  else if previous (f.table b) nr ≠ 0 then previous (f.table b) nr
  else b + 1

/-! ## A file on a file system -/

structure Sys where
  fs : State
  file : File

/-- What a call of `ext2_new_block` depends on but its goal, and whether the pointer was set by
another task while this one slept, which gives the block back. -/
structure Circumstance where
  suser : Bool
  stray : Nat
  fuel : Nat
  lost : Bool

inductive Event where
  /-- The beginning of `ext2_getblk`. -/
  | getblk (block : Nat)
  | inodeGetblk (nr newBlock : Nat) (create : Bool) (c : Circumstance)
  | blockGetblk (b nr newBlock : Nat) (create : Bool) (c : Circumstance)
  /-- A call for another file, or one that frees a block of this one. -/
  | call (e : Call)
  /-- `ext2_truncate` clears a pointer. -/
  | clearData (nr : Nat)
  | clearTable (b nr : Nat)
  /-- The inode is read again. -/
  | readInode

/-- The block is cleared when it is allocated. -/
def File.fresh (f : File) (x : Nat) : File :=
  { f with table := update f.table x fun _ => 0 }

/-- The block is allocated, and `put` stores the pointer. -/
def Sys.alloc (s : Sys) (g : Geometry) (goal newBlock : Nat) (c : Circumstance)
    (put : File → Nat → File) : Option Sys :=
  match Ext2.newBlock g goal c.stray c.suser c.fuel s.fs with
  | none => none
  | some (fs, x) =>
    if x = 0 then some { s with fs := fs }
    else if c.lost then some ⟨fs, s.file.fresh x⟩
    else some ⟨fs, { put (s.file.fresh x) x with nextAllocBlock := newBlock, nextAllocGoal := x }⟩

def File.setData (nr : Nat) (f : File) (x : Nat) : File :=
  { f with data := update f.data nr x }

def File.setTable (b nr : Nat) (f : File) (x : Nat) : File :=
  { f with table := update f.table b (update (f.table b) nr x) }

def sysStep (g : Geometry) (group : Nat) (s : Sys) : Event → Option Sys
  | .getblk block =>
    if block = s.file.nextAllocBlock + 1 then
      some { s with
        file := { s.file with
          nextAllocBlock := s.file.nextAllocBlock + 1
          nextAllocGoal := (s.file.nextAllocGoal + 1) % 2 ^ 32 } }
    else some s
  | .inodeGetblk nr newBlock create c =>
    if s.file.data nr ≠ 0 ∨ ¬ create then some s
    else s.alloc g (inodeGoal g group s.file nr newBlock) newBlock c (File.setData nr)
  | .blockGetblk b nr newBlock create c =>
    if s.file.table b nr ≠ 0 ∨ ¬ create then some s
    else s.alloc g (blockGoal s.file b nr newBlock) newBlock c (File.setTable b nr)
  | .call e => (step g s.fs e).map fun fs => { s with fs := fs }
  | .clearData nr => some { s with file := s.file.setData nr 0 }
  | .clearTable b nr => some { s with file := s.file.setTable b nr 0 }
  | .readInode => some { s with file := { s.file with nextAllocBlock := 0, nextAllocGoal := 0 } }

/-- The goal that a step passes on. -/
def Sys.goal (g : Geometry) (group : Nat) (s : Sys) : Event → Option Nat
  | .inodeGetblk nr newBlock create _ =>
    if s.file.data nr ≠ 0 ∨ ¬ create then none else some (inodeGoal g group s.file nr newBlock)
  | .blockGetblk b nr newBlock create _ =>
    if s.file.table b nr ≠ 0 ∨ ¬ create then none else some (blockGoal s.file b nr newBlock)
  | _ => none

/-- There is a block with this number. -/
def Geometry.isBlock (g : Geometry) (x : Nat) : Prop := g.firstDataBlock ≤ x ∧ x < g.blocksCount

instance (g : Geometry) (x : Nat) : Decidable (g.isBlock x) := inferInstanceAs (Decidable (_ ∧ _))

/-- What the callers see to: only what is in use is freed, and an indirect block is a block. -/
def proper (g : Geometry) (s : Sys) : Event → Prop
  | .call e => blockHeld g s.fs e ∧ inodeHeld g s.fs e
  | .blockGetblk b _ _ _ _ => g.isBlock b
  | _ => True

/-! ## Which goals are served -/

/-- The distance of the goal from the first block, in 32 bits. -/
def Geometry.offset (g : Geometry) (goal : Nat) : Nat := (goal + 2 ^ 32 - g.firstDataBlock) % 2 ^ 32

/-- The group that `ext2_new_block` computes. -/
def Geometry.group (g : Geometry) (goal : Nat) : Nat := g.offset goal / g.blocksPerGroup

/-- **What `ext2_new_block` is for**, at a goal. -/
structure Served (g : Geometry) (s : State) (goal : Nat) : Prop where
  group : g.group goal < g.groupsCount
  loaded : g.descLoaded (g.group goal)
  found : ∀ (suser : Bool) (stray fuel : Nat),
    ¬ (s.freeBlocksCount ≤ g.rBlocksCount ∧ ¬ suser) →
      (∃ i < g.groupsCount, s.bgFreeBlocksCount i ≠ 0) →
        ∃ s' x, newBlock g goal stray suser (fuel + 1) s = some (s', x) ∧ BlockFree g s x

/-- The bits behind the last block are set, as the file system is made. -/
def Padded (g : Geometry) (s : State) : Prop :=
  ∀ i j, j < g.blocksPerGroup → ¬ blockValid g i j → s.blockBitmap i j = true

variable {i : Nat}

theorem descLoaded_of_lt {g : Geometry} (h : i < g.groupsCount) : g.descLoaded i := by
  unfold Geometry.descLoaded
  have hpos := g.descPerBlock_pos
  rw [Nat.div_lt_iff_lt_mul hpos]
  have hlast : g.groupsCount + g.descPerBlock - 1 < _ := Nat.lt_div_mul_add hpos
  omega

variable {s : State}

/-- From `got_block` on, with a bit that is not set. -/
theorem gotBlock_got {g : Geometry} {s₀ : State} {j : Nat} (hpad : Padded g s)
    (hbits : s.blockBitmap = s₀.blockBitmap) (hi : i < g.groupsCount) (hj : j < g.blocksPerGroup)
    (hbit : s.blockBitmap i j = false) :
    ∃ s' x, gotBlock g s i i j = .got s' x ∧ BlockFree g s₀ x := by
  have hvalid : blockValid g i j := by
    by_contra hno
    rw [hpad i j hj hno] at hbit
    cases hbit
  unfold gotBlock
  rw [hbit, if_neg (by simp)]
  dsimp only
  rw [if_neg (not_le.2 hvalid)]
  exact ⟨_, _, rfl, i, j, hi, hj, rfl, hvalid, by rw [← hbits, hbit]⟩

/-- **The groups behind the one of the goal.** -/
theorem searchRest_got {g : Geometry} {s₀ : State} (h : Consistent g s)
    (hpad : Padded g s) (hbits : s.blockBitmap = s₀.blockBitmap) (hi : i < g.groupsCount)
    (hfree : ∃ i < g.groupsCount, s.bgFreeBlocksCount i ≠ 0) :
    ∃ s' x, searchRest g s i = .got s' x ∧ BlockFree g s₀ x := by
  obtain ⟨r, hr, hpos⟩ := hfree
  -- how far the group is behind the goal; its own is a whole round away
  have hround : ∃ n, 0 < n ∧ n ≤ g.groupsCount ∧ r = (i + n) % g.groupsCount := by
    rcases Nat.lt_or_ge i r with hlt | hge
    · refine ⟨r - i, by omega, by omega, ?_⟩
      rw [show i + (r - i) = r by omega, Nat.mod_eq_of_lt hr]
    · refine ⟨r + g.groupsCount - i, by omega, by omega, ?_⟩
      rw [show i + (r + g.groupsCount - i) = r + g.groupsCount by omega, Nat.add_mod_right,
        Nat.mod_eq_of_lt hr]
  obtain ⟨n, hn, hle, hrn⟩ := hround
  obtain ⟨k, hnext, hk, hkpos⟩ := nextGroup_finds hn hle hi hrn (Nat.pos_of_ne_zero hpos)
  have hclear : 0 < Tally.clear g.blocksPerGroup (blockValid g k) (s.blockBitmap k) := by
    rw [← h.blocks.counts k hk]
    exact hkpos
  obtain ⟨b, hb, -, hbit⟩ := Tally.exists_of_clear_pos hclear
  obtain ⟨j, hsearch, hj, hjbit⟩ := searchGroup_free g.eight_dvd hb hbit
  unfold searchRest
  rw [hnext]
  dsimp only
  obtain ⟨hge, -⟩ | ⟨-, c, nr, hload, -, hbuf⟩ := loadBlockBitmap_spec h.blockCache k
  · omega
  · simp only [hload, hbuf, hsearch]
    exact gotBlock_got (s := { s with blockCache := c }) hpad hbits hk hj hjbit

/-- **A goal is served exactly when it is in a group.** -/
theorem served_iff {g : Geometry} (h : Consistent g s) (hpad : Padded g s) (goal : Nat) :
    Served g s goal ↔ g.offset goal < g.groupsCount * g.blocksPerGroup := by
  have hdiv : g.group goal < g.groupsCount ↔ g.offset goal < g.groupsCount * g.blocksPerGroup :=
    Nat.div_lt_iff_lt_mul g.blocksPerGroup_pos
  refine ⟨fun hs => hdiv.1 hs.group, fun hin => ?_⟩
  have hi := hdiv.2 hin
  have hloaded := descLoaded_of_lt hi
  refine ⟨hi, hloaded, fun suser stray fuel hmay hfree => ?_⟩
  suffices hpass : ∃ s' x, newBlockPass g goal stray s = .got s' x ∧ BlockFree g s x by
    obtain ⟨s', x, hgot, hx⟩ := hpass
    refine ⟨s', x, ?_, hx⟩
    rw [newBlock, if_neg hmay, passes, hgot]
  have hoff : (goal + 2 ^ 32 - g.firstDataBlock) % 2 ^ 32 = g.offset goal := rfl
  have hgroup : g.offset goal / g.blocksPerGroup = g.group goal := rfl
  unfold newBlockPass
  rw [hoff]
  simp only [hgroup]
  rw [if_neg (not_not.2 hloaded)]
  by_cases hpos : s.bgFreeBlocksCount (g.group goal) > 0
  · rw [if_pos hpos]
    obtain ⟨hge, -⟩ | ⟨-, c, nr, hload, hc, hbuf⟩ :=
      loadBlockBitmap_spec h.blockCache (g.group goal)
    · omega
    · have hj : g.offset goal % g.blocksPerGroup < g.blocksPerGroup :=
        Nat.mod_lt _ g.blocksPerGroup_pos
      simp only [hload, hbuf]
      cases hsearch : searchGoal (s.blockBitmap (g.group goal)) g.blocksPerGroup
          (g.offset goal % g.blocksPerGroup) stray with
      | none => exact searchRest_got (h.setBlockCache hc) hpad rfl hi hfree
      | some j =>
        exact gotBlock_got (s := { s with blockCache := c }) hpad rfl hi (searchGoal_lt hj hsearch)
          (searchGoal_free g.eight_dvd hj hsearch)
  · rw [if_neg hpos]
    exact searchRest_got h hpad rfl hi hfree

/-! ## Goals within the groups -/

section Offset

variable {g : Geometry}

/-- The groups reach as far as the blocks. -/
theorem blocksCount_le (g : Geometry) :
    g.blocksCount ≤ g.firstDataBlock + g.groupsCount * g.blocksPerGroup := by
  have hpos := g.blocksPerGroup_pos
  have hlast : g.blocksCount - g.firstDataBlock + g.blocksPerGroup - 1 <
      g.groupsCount * g.blocksPerGroup + g.blocksPerGroup := Nat.lt_div_mul_add hpos
  have := g.first_le
  omega

theorem offset_eq {x : Nat} (hfirst : g.firstDataBlock ≤ x) (hx : x < 2 ^ 32) :
    g.offset x = x - g.firstDataBlock := by
  unfold Geometry.offset
  rw [show x + 2 ^ 32 - g.firstDataBlock = x - g.firstDataBlock + 2 ^ 32 by omega,
    Nat.add_mod_right, Nat.mod_eq_of_lt (by omega)]

theorem offset_lt_of_isBlock (hword : g.blocksCount < 2 ^ 32) {x : Nat} (h : g.isBlock x) :
    g.offset x < g.groupsCount * g.blocksPerGroup := by
  have hle := blocksCount_le g
  obtain ⟨hfirst, hlt⟩ := h
  rw [offset_eq hfirst (by omega)]
  omega

theorem offset_lt_of_group (hword : g.blocksCount < 2 ^ 32) {group : Nat}
    (h : group < g.groupsCount) :
    g.offset (group * g.blocksPerGroup + g.firstDataBlock) <
      g.groupsCount * g.blocksPerGroup := by
  have hpos := g.blocksPerGroup_pos
  have hfirst := g.first_le
  -- the last group begins before the last block
  have hstart : (g.groupsCount - 1) * g.blocksPerGroup < g.blocksCount - g.firstDataBlock := by
    have hmul : g.groupsCount * g.blocksPerGroup ≤ _ := Nat.div_mul_le_self
      (g.blocksCount - g.firstDataBlock + g.blocksPerGroup - 1) g.blocksPerGroup
    have hsucc : (g.groupsCount - 1) * g.blocksPerGroup + g.blocksPerGroup =
        g.groupsCount * g.blocksPerGroup := by
      rw [← Nat.succ_mul, Nat.succ_eq_add_one, Nat.sub_add_cancel (by omega)]
    omega
  have hle : group * g.blocksPerGroup ≤ (g.groupsCount - 1) * g.blocksPerGroup :=
    Nat.mul_le_mul_right _ (by omega)
  rw [offset_eq (by omega) (by omega), Nat.add_sub_cancel]
  exact Nat.mul_lt_mul_of_pos_right h hpos

theorem offset_succ_lt_iff (hword : g.blocksCount < 2 ^ 32) {b : Nat} (h : g.isBlock b) :
    g.offset (b + 1) < g.groupsCount * g.blocksPerGroup ↔
      b + 1 ≠ g.firstDataBlock + g.groupsCount * g.blocksPerGroup := by
  have hle := blocksCount_le g
  obtain ⟨hfirst, hlt⟩ := h
  rw [offset_eq (by omega) (by omega)]
  omega

end Offset

/-- **The condition on a step**: the hint, if it is used, is in a group; and if the goal is the block
behind an indirect block, that one is not the last block of the groups. -/
def Inside (g : Geometry) (s : Sys) : Event → Prop
  | .inodeGetblk _ newBlock _ _ =>
    s.file.hint newBlock ≠ 0 →
      g.offset (s.file.hint newBlock) < g.groupsCount * g.blocksPerGroup
  | .blockGetblk b nr newBlock _ _ =>
    (s.file.hint newBlock ≠ 0 →
      g.offset (s.file.hint newBlock) < g.groupsCount * g.blocksPerGroup) ∧
    (s.file.hint newBlock = 0 → previous (s.file.table b) nr = 0 →
      b + 1 ≠ g.firstDataBlock + g.groupsCount * g.blocksPerGroup)
  | _ => True

/-! ## Runs -/

/-- **The invariant**: the counters agree with the bitmaps, and the pointers of the file are to
blocks. -/
structure FileGood (g : Geometry) (s : Sys) : Prop where
  consistent : Consistent g s.fs
  padded : Padded g s.fs
  data : ∀ nr, s.file.data nr ≠ 0 → g.isBlock (s.file.data nr)
  table : ∀ b nr, s.file.table b nr ≠ 0 → g.isBlock (s.file.table b nr)

theorem previous_mem {p : Nat → Nat} {nr : Nat} (h : previous p nr ≠ 0) :
    ∃ k, previous p nr = p k := by
  induction nr with
  | zero => exact absurd rfl h
  | succ nr ih =>
    rw [previous] at h ⊢
    by_cases hnr : p nr ≠ 0
    · rw [if_pos hnr]
      exact ⟨nr, rfl⟩
    · rw [if_neg hnr] at h ⊢
      exact ih h

theorem offset_previous_lt {g : Geometry} (hword : g.blocksCount < 2 ^ 32) {p : Nat → Nat}
    (hp : ∀ nr, p nr ≠ 0 → g.isBlock (p nr)) {nr : Nat} (h : previous p nr ≠ 0) :
    g.offset (previous p nr) < g.groupsCount * g.blocksPerGroup := by
  obtain ⟨k, hk⟩ := previous_mem h
  rw [hk] at h ⊢
  exact offset_lt_of_isBlock hword (hp k h)

/-- **The goal of a step** is in a group exactly when the step meets the condition. -/
theorem FileGood.goal_iff {g : Geometry} (hword : g.blocksCount < 2 ^ 32) {group : Nat}
    (hgroup : group < g.groupsCount) {s : Sys} (h : FileGood g s) {e : Event}
    (hproper : proper g s e) {goal : Nat} (hgoal : s.goal g group e = some goal) :
    g.offset goal < g.groupsCount * g.blocksPerGroup ↔ Inside g s e := by
  cases e with
  | inodeGetblk nr newBlock create c =>
    rw [Sys.goal] at hgoal
    split_ifs at hgoal
    cases hgoal
    unfold Inside inodeGoal
    by_cases hhint : s.file.hint newBlock ≠ 0
    · rw [if_pos hhint]
      exact ⟨fun hin _ => hin, fun hin => hin hhint⟩
    · rw [if_neg hhint]
      refine iff_of_true ?_ fun hne => absurd hne hhint
      split_ifs with hprev
      · exact offset_previous_lt hword h.data hprev
      · exact offset_lt_of_group hword hgroup
  | blockGetblk b nr newBlock create c =>
    rw [Sys.goal] at hgoal
    split_ifs at hgoal
    cases hgoal
    unfold Inside blockGoal
    by_cases hhint : s.file.hint newBlock = 0
    · rw [if_neg (not_not.2 hhint)]
      split_ifs with hprev
      · refine iff_of_true (offset_previous_lt hword (h.table b) hprev) ?_
        exact ⟨fun hne => absurd hhint hne, fun _ hzero => absurd hzero hprev⟩
      · rw [offset_succ_lt_iff hword hproper]
        constructor
        · exact fun hb => ⟨fun hne => absurd hhint hne, fun _ _ => hb⟩
        · exact fun hin => hin.2 hhint (not_not.1 hprev)
    · rw [if_pos hhint]
      exact ⟨fun hin => ⟨fun _ => hin, fun hzero => absurd hzero hhint⟩, fun hin => hin.1 hhint⟩
  | getblk | call | clearData | clearTable | readInode => cases hgoal

/-! ## What the calls keep -/

variable {s' : State}

theorem Padded.congr {g : Geometry} (h : Padded g s)
    (heq : s'.blockBitmap = s.blockBitmap) : Padded g s' := by
  intro i j hj hvalid
  rw [heq]
  exact h i j hj hvalid

theorem Padded.setBlockBit {g : Geometry} (h : Padded g s) {j : Nat} {v : Bool}
    (hv : v = true ∨ blockValid g i j) : Padded g (s.setBlockBit i j v) := by
  intro i' j' hj' hvalid'
  have hold := h i' j' hj' hvalid'
  unfold State.setBlockBit
  dsimp only
  by_cases hi : i' = i
  · subst hi
    rw [update_self]
    by_cases hj : j' = j
    · subst hj
      rw [update_self]
      exact hv.resolve_right hvalid'
    · rw [update_of_ne hj]
      exact hold
  · rw [update_of_ne hi]
    exact hold

/-- The bits behind the last block are still set after a pass. -/
def Pass.Pads (g : Geometry) : Pass → Prop
  | .crash => True
  | .fail s => Padded g s
  | .again s => Padded g s
  | .got s _ => Padded g s

theorem passes_padded {g : Geometry} {pass : State → Pass}
    (hpass : ∀ s, Padded g s → (pass s).Pads g) {fuel : Nat} {x : Nat}
    (hs : Padded g s) (h : passes pass fuel s = some (s', x)) : Padded g s' := by
  induction fuel generalizing s with
  | zero => cases h
  | succ fuel ih =>
    have hp := hpass s hs
    rw [passes] at h
    cases hres : pass s with
    | crash =>
      rw [hres] at h
      cases h
    | fail s₁ | got s₁ y =>
      rw [hres] at h hp
      cases h
      exact hp
    | again s₁ =>
      rw [hres] at h hp
      exact ih hp h

theorem gotBlock_pads {g : Geometry} (h : Padded g s) (i b j : Nat) :
    (gotBlock g s i b j).Pads g := by
  unfold gotBlock
  by_cases hbit : s.blockBitmap b j = true
  · rw [if_pos hbit]
    exact h
  · rw [if_neg hbit]
    have hset : Padded g (s.setBlockBit b j true) := h.setBlockBit (.inl rfl)
    dsimp only
    split_ifs
    · exact hset
    · exact hset.congr rfl

theorem searchRest_pads {g : Geometry} (h : Padded g s) (i : Nat) :
    (searchRest g s i).Pads g := by
  unfold searchRest
  cases nextGroup g.groupsCount s.bgFreeBlocksCount g.groupsCount i with
  | none => exact h
  | some i =>
    dsimp only
    cases loadBlockBitmap g.groupsCount i s.blockCache with
    | none => trivial
    | some p =>
      obtain ⟨c, nr⟩ := p
      dsimp only
      cases c.buf nr with
      | none => trivial
      | some b =>
        dsimp only
        cases searchGroup (s.blockBitmap b) g.blocksPerGroup with
        | none => exact h.congr rfl
        | some j => exact gotBlock_pads (s := { s with blockCache := c }) (h.congr rfl) i b j

theorem newBlockPass_pads {g : Geometry} (h : Padded g s) (goal stray : Nat) :
    (newBlockPass g goal stray s).Pads g := by
  unfold newBlockPass
  dsimp only
  generalize (goal + 2 ^ 32 - g.firstDataBlock) % 2 ^ 32 = off
  split_ifs with hloaded hfree
  · cases loadBlockBitmap g.groupsCount (off / g.blocksPerGroup) s.blockCache with
    | none => trivial
    | some p =>
      obtain ⟨c, nr⟩ := p
      dsimp only
      have hc : Padded g { s with blockCache := c } := h.congr rfl
      cases c.buf nr with
      | none => exact hc
      | some b =>
        dsimp only
        cases searchGoal (s.blockBitmap b) g.blocksPerGroup (off % g.blocksPerGroup) stray with
        | none => exact searchRest_pads hc _
        | some j => exact gotBlock_pads hc _ b j
  · exact searchRest_pads h _
  · trivial

theorem newBlock_padded {g : Geometry} {goal stray fuel x : Nat} {suser : Bool}
    (h : Padded g s) (hnew : newBlock g goal stray suser fuel s = some (s', x)) :
    Padded g s' := by
  unfold newBlock at hnew
  split_ifs at hnew
  · cases hnew
    exact h
  · exact passes_padded (fun s hs => newBlockPass_pads hs goal stray) h hnew

theorem freeBlock_padded {g : Geometry} {x : Nat} (hcache : Consistent g s)
    (h : Padded g s) (hfree : freeBlock g x s = some s') : Padded g s' := by
  unfold freeBlock at hfree
  by_cases hout : x < g.firstDataBlock ∨ x ≥ g.blocksCount
  · rw [if_pos hout] at hfree
    cases hfree
    exact h
  · rw [if_neg hout] at hfree
    dsimp only at hfree
    obtain ⟨hblock, hi⟩ := block_of_number (by omega : g.firstDataBlock ≤ x) (by omega)
    set i := (x - g.firstDataBlock) / g.blocksPerGroup
    set j := (x - g.firstDataBlock) % g.blocksPerGroup
    have hvalid : blockValid g i j := by
      rw [blockValid, hblock]
      omega
    obtain ⟨hge, -⟩ | ⟨-, c, nr, hload, -, hbuf⟩ := loadBlockBitmap_spec hcache.blockCache i
    · omega
    · rw [hload] at hfree
      simp only [hbuf, Option.some.injEq] at hfree
      subst hfree
      split_ifs
      · exact h.congr rfl
      · exact (h.setBlockBit (v := false) (.inr hvalid)).congr rfl

/-- The calls for inodes leave the bitmaps of the blocks alone. -/
theorem newInodePass_pads {g : Geometry} (h : Padded g s) (parent : Nat)
    (isDir : Bool) : (newInodePass g parent isDir s).Pads g := by
  unfold newInodePass
  by_cases hpanic : ¬ isDir = true ∧ parent ≥ g.groupsCount
  · rw [if_pos hpanic]
    trivial
  rw [if_neg hpanic]
  generalize chosenGroup g parent isDir s = choice
  cases choice with
  | none => exact h
  | some i =>
    dsimp only
    cases loadInodeBitmap g.groupsCount i s.inodeCache with
    | none => trivial
    | some p =>
      obtain ⟨c, nr⟩ := p
      dsimp only
      have hc : Padded g { s with inodeCache := c } := h.congr rfl
      cases c.buf nr with
      | none => trivial
      | some b =>
        dsimp only
        split_ifs
        · exact hc
        · exact hc.congr rfl
        · exact hc.congr rfl
        · exact hc.congr rfl
        · exact hc

theorem newInode_padded {g : Geometry} {parent fuel x : Nat} {isDir empty : Bool}
    (h : Padded g s) (hnew : newInode g parent isDir empty fuel s = some (s', x)) :
    Padded g s' := by
  unfold newInode at hnew
  split_ifs at hnew
  · exact passes_padded (fun s hs => newInodePass_pads hs parent isDir) h hnew
  · cases hnew
    exact h

theorem freeInode_padded {g : Geometry} {n : Inode} (h : Padded g s)
    (hfree : freeInode g n s = some s') : Padded g s' := by
  unfold freeInode at hfree
  by_cases hpass : n.freeable g
  · rw [if_neg (not_not.2 hpass)] at hfree
    dsimp only at hfree
    cases hload : loadInodeBitmap g.groupsCount ((n.ino - 1) / g.inodesPerGroup) s.inodeCache with
    | none =>
      rw [hload] at hfree
      cases hfree
    | some p =>
      obtain ⟨c, nr⟩ := p
      rw [hload] at hfree
      dsimp only at hfree
      cases hbuf : c.buf nr with
      | none =>
        rw [hbuf] at hfree
        cases hfree
      | some b =>
        simp only [hbuf, Option.some.injEq] at hfree
        subst hfree
        split_ifs <;> exact h.congr rfl
  · rw [if_pos hpass] at hfree
    cases hfree
    exact h

/-- **A call keeps the bits behind the last block.** -/
theorem step_padded {g : Geometry} {e : Call} (hs : Consistent g s)
    (h : Padded g s) (hstep : step g s e = some s') : Padded g s' := by
  obtain ⟨⟨s₁, x⟩, hout, rfl⟩ := Option.map_eq_some_iff.1 hstep
  cases e with
  | newBlock goal stray suser fuel => exact newBlock_padded h hout
  | freeBlock b =>
    obtain ⟨s₂, hfree, heq⟩ := Option.map_eq_some_iff.1 hout
    cases heq
    exact freeBlock_padded hs h hfree
  | newInode parent isDir empty fuel => exact newInode_padded h hout
  | freeInode n =>
    obtain ⟨s₂, hfree, heq⟩ := Option.map_eq_some_iff.1 hout
    cases heq
    exact freeInode_padded h hfree

theorem step_consistent {g : Geometry} {e : Call} (h : Consistent g s)
    (hheld : blockHeld g s e ∧ inodeHeld g s e) (hstep : step g s e = some s') :
    Consistent g s' := by
  obtain ⟨⟨s₁, x⟩, hout, rfl⟩ := Option.map_eq_some_iff.1 hstep
  exact (stepOut_consistent h hheld.1 hout).2.2 hheld.2

theorem BlockFree.isBlock {g : Geometry} {x : Nat} (h : BlockFree g s x) :
    g.isBlock x := by
  obtain ⟨i, j, -, -, rfl, hvalid, -⟩ := h
  exact ⟨Nat.le_add_left _ _, hvalid⟩

/-! ## Every run -/

/-- The pointers of a file are to blocks. -/
def File.PointsInto (g : Geometry) (f : File) : Prop :=
  (∀ nr, f.data nr ≠ 0 → g.isBlock (f.data nr)) ∧
    ∀ b nr, f.table b nr ≠ 0 → g.isBlock (f.table b nr)

section PointsInto

variable {g : Geometry} {f : File} {x : Nat}

theorem File.PointsInto.fresh (h : f.PointsInto g) (x : Nat) : (f.fresh x).PointsInto g := by
  refine ⟨h.1, fun b nr => ?_⟩
  unfold File.fresh
  dsimp only
  by_cases hb : b = x
  · subst hb
    rw [update_self]
    exact fun hne => absurd rfl hne
  · rw [update_of_ne hb]
    exact h.2 b nr

theorem File.PointsInto.setData (h : f.PointsInto g) (nr : Nat) (hx : x ≠ 0 → g.isBlock x) :
    (f.setData nr x).PointsInto g := by
  refine ⟨fun nr' => ?_, h.2⟩
  unfold File.setData
  dsimp only
  by_cases hnr : nr' = nr
  · subst hnr
    rw [update_self]
    exact hx
  · rw [update_of_ne hnr]
    exact h.1 nr'

theorem File.PointsInto.setTable (h : f.PointsInto g) (b nr : Nat) (hx : x ≠ 0 → g.isBlock x) :
    (f.setTable b nr x).PointsInto g := by
  refine ⟨h.1, fun b' nr' => ?_⟩
  unfold File.setTable
  dsimp only
  by_cases hb : b' = b
  · subst hb
    rw [update_self]
    by_cases hnr : nr' = nr
    · subst hnr
      rw [update_self]
      exact hx
    · rw [update_of_ne hnr]
      exact h.2 b' nr'
  · rw [update_of_ne hb]
    exact h.2 b' nr'

end PointsInto

theorem FileGood.pointsInto {g : Geometry} {s : Sys} (h : FileGood g s) : s.file.PointsInto g :=
  ⟨h.data, h.table⟩

theorem FileGood.setFile {g : Geometry} {s : Sys} (h : FileGood g s) {f : File}
    (hf : f.PointsInto g) : FileGood g { s with file := f } :=
  ⟨h.consistent, h.padded, hf.1, hf.2⟩

/-- A block is allocated, and its number is stored. -/
theorem FileGood.alloc {g : Geometry} {s s' : Sys} (h : FileGood g s) {goal newBlock : Nat}
    {c : Circumstance} {put : File → Nat → File}
    (hput : ∀ f x, f.PointsInto g → (x ≠ 0 → g.isBlock x) → (put f x).PointsInto g)
    (halloc : s.alloc g goal newBlock c put = some s') : FileGood g s' := by
  unfold Sys.alloc at halloc
  cases hnew : Ext2.newBlock g goal c.stray c.suser c.fuel s.fs with
  | none =>
    rw [hnew] at halloc
    cases halloc
  | some p =>
    obtain ⟨fs, x⟩ := p
    rw [hnew] at halloc
    dsimp only at halloc
    obtain ⟨hfs, hx⟩ := newBlock_sound h.consistent hnew
    have hpad := newBlock_padded h.padded hnew
    have hfresh := h.pointsInto.fresh x
    split_ifs at halloc with hzero hlost
    · cases halloc
      exact ⟨hfs, hpad, h.data, h.table⟩
    · cases halloc
      exact ⟨hfs, hpad, hfresh.1, hfresh.2⟩
    · cases halloc
      have hblock : g.isBlock x := (hx.resolve_left hzero).isBlock
      have hstored := hput _ x hfresh fun _ => hblock
      exact ⟨hfs, hpad, hstored.1, hstored.2⟩

/-- **One step.** -/
theorem FileGood.step {g : Geometry} {group : Nat} {s s' : Sys} (h : FileGood g s) {e : Event}
    (hproper : proper g s e) (hstep : sysStep g group s e = some s') : FileGood g s' := by
  cases e with
  | getblk block =>
    rw [sysStep] at hstep
    split_ifs at hstep
    · cases hstep
      exact h.setFile h.pointsInto
    · cases hstep
      exact h
  | inodeGetblk nr newBlock create c =>
    rw [sysStep] at hstep
    split_ifs at hstep
    · cases hstep
      exact h
    · exact h.alloc (fun f x hf hx => hf.setData nr hx) hstep
  | blockGetblk b nr newBlock create c =>
    rw [sysStep] at hstep
    split_ifs at hstep
    · cases hstep
      exact h
    · exact h.alloc (fun f x hf hx => hf.setTable b nr hx) hstep
  | call e =>
    obtain ⟨fs, hfs, rfl⟩ := Option.map_eq_some_iff.1 hstep
    exact ⟨step_consistent h.consistent hproper hfs, step_padded h.consistent h.padded hfs,
      h.data, h.table⟩
  | clearData nr =>
    cases hstep
    exact h.setFile (h.pointsInto.setData nr fun hne => absurd rfl hne)
  | clearTable b nr =>
    cases hstep
    exact h.setFile (h.pointsInto.setTable b nr fun hne => absurd rfl hne)
  | readInode =>
    cases hstep
    exact h.setFile h.pointsInto

/-- Thirty-two groups of eight blocks; their descriptors fill one block. -/
def fullDesc : Geometry where
  firstDataBlock := 1
  blocksCount := 257
  rBlocksCount := 0
  blocksPerGroup := 8
  inodesCount := 256
  inodesPerGroup := 8
  descPerBlock := 32
  eight_dvd := eight_dvd_eight
  blocksPerGroup_pos := eight_pos
  inodesPerGroup_pos := eight_pos
  descPerBlock_pos := thirtyTwo_pos
  first_le := by decide

/-- An empty file, whose inode is in the last group; of that group only the last block is free. -/
def lastFree : Sys where
  fs :=
    { freeBlocksCount := 249
      freeInodesCount := 256
      bgFreeBlocksCount := fun i => if i = 31 then 1 else 8
      bgFreeInodesCount := fun _ => 8
      bgUsedDirsCount := fun _ => 0
      blockBitmap := fun i j => decide (i = 31 ∧ j ≠ 7 ∨ 31 < i)
      inodeBitmap := fun _ _ => false
      blockCache := Cache.empty
      inodeCache := Cache.empty }
  file := ⟨fun _ => 0, fun _ _ => 0, 0, 0⟩

theorem lastFree_good : FileGood fullDesc lastFree where
  consistent :=
    ⟨⟨by decide +kernel, by decide +kernel⟩, ⟨by decide +kernel, by decide +kernel⟩,
      Cache.valid_empty _, Cache.valid_empty _⟩
  padded := by
    intro i j hj hvalid
    have hcount : fullDesc.block i j = j + i * 8 + 1 := rfl
    have hblocks : fullDesc.blocksCount = 257 := rfl
    have hsize : fullDesc.blocksPerGroup = 8 := rfl
    rw [blockValid, hcount, hblocks] at hvalid
    rw [hsize] at hj
    have hi : 31 < i := by omega
    exact decide_eq_true (.inr hi)
  data := fun _ hne => absurd rfl hne
  table := fun _ _ hne => absurd rfl hne

/-- The first block of the file is asked for, and then the second. -/
def twoBlocks : List Event :=
  [.getblk 0, .inodeGetblk 0 0 true ⟨false, 0, 1, false⟩, .getblk 1]

/-- The second block, as `inode_getblk` is called for it. -/
def secondBlock : Event := .inodeGetblk 1 1 true ⟨false, 0, 1, false⟩

def Event.isGetblk : Event → Bool
  | .getblk _ => true
  | .inodeGetblk _ _ _ _ => true
  | _ => false

theorem proper_of_isGetblk {g : Geometry} {s : Sys} {e : Event} (h : e.isGetblk = true) :
    proper g s e := by
  cases e with
  | getblk => trivial
  | inodeGetblk => trivial
  | blockGetblk | call | clearData | clearTable | readInode => cases h

end LinuxEvocation.Ext2
