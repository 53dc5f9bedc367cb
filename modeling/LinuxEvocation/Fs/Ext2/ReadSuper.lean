import Mathlib.Tactic
import Mathlib.Data.BitVec

/-!
# Mounting

`ext2_read_super` reads the super block, perhaps once more with the size of its blocks, then the group
descriptors and the inode of the root.  On the way it computes with what it has read.

* `Es`, `Disk` — the super block on the disk, and what reads give.
* `Sb` — the super block in memory, with the buffers that are held.
* `ext2ReadSuper` — the function, with its exits: a fault of the processor or a panic among them.
* `Result.Safe` — what every exit is to leave behind.
* `Harmless` — what the disk must not have.
* `read_super_exact` — the function is safe exactly for these disks.
-/

namespace LinuxEvocation.Ext2.ReadSuper

/-! ## The disk -/

/-- `struct ext2_super_block`, as far as it is used. -/
structure Es where
  inodesCount : BitVec 32
  blocksCount : BitVec 32
  firstDataBlock : BitVec 32
  logBlockSize : BitVec 32
  logFragSize : BitVec 32
  blocksPerGroup : BitVec 32
  inodesPerGroup : BitVec 32
  magic : BitVec 16

/-- What a disk gives: the super block read as block 1 of `BLOCK_SIZE` bytes, and read again within block
0 of larger blocks; `bg_inode_table` by buffer and index; the blocks that can be read, by their number and
size. -/
structure Disk where
  first : Es
  second : Es
  inodeTable : Nat → Nat → BitVec 32
  readable : Nat → Nat → Bool

/-- `BLOCK_SIZE` -/
def blockSize : Nat := 1024

/-- `EXT2_SUPER_MAGIC` -/
def superMagic : BitVec 16 := 0xEF53

/-- `EXT2_MAX_GROUP_DESC` -/
def maxGroupDesc : Nat := 8

/-- `EXT2_ROOT_INO` -/
def rootIno : Nat := 2

namespace Es

/-- `s_blocksize`, for a shift that the processor has. -/
def blocksize (es : Es) : Nat := (1024#32 <<< es.logBlockSize.toNat).toNat

/-- `s_frag_size`, for a shift that the processor has. -/
def fragSize (es : Es) : Nat := (1024#32 <<< es.logFragSize.toNat).toNat

/-- `s_groups_count`, for a divisor that is not 0. -/
def groupsCount (es : Es) : Nat :=
  (es.blocksCount - es.firstDataBlock + es.blocksPerGroup - 1).toNat / es.blocksPerGroup.toNat

/-- `bh_count`, for blocks of descriptors of 32 bytes. -/
def bhCount (es : Es) (blocksize : Nat) : Nat :=
  (BitVec.ofNat 32 es.groupsCount + BitVec.ofNat 32 (blocksize / 32) - 1).toNat / (blocksize / 32)

end Es

/-! ## The super block in memory -/

/-- A buffer: the number and the size of its block. -/
abbrev Buf := Nat × Nat

/-- `struct super_block`, and the references to buffers.  `twice`: a buffer was released that is not
held; `dirty`: a buffer was marked to be written. -/
structure Sb where
  dev : Nat
  locked : Bool
  held : List Buf := []
  twice : Bool := false
  dirty : Bool := false
deriving DecidableEq

namespace Sb

/-- `bread` -/
def bread (d : Disk) (s : Sb) (b : Buf) : Option Sb :=
  if d.readable b.1 b.2 then some { s with held := b :: s.held } else none

/-- `brelse` -/
def brelse (s : Sb) (b : Buf) : Sb :=
  if b ∈ s.held then { s with held := s.held.erase b } else { s with twice := true }

/-- What most exits do first. -/
def abandon (s : Sb) : Sb := { s with dev := 0, locked := false }

end Sb

/-- How the function ends. -/
inductive Result where
  /-- `NULL` is returned. -/
  | null (s : Sb)
  /-- The super block is returned. -/
  | mounted (s : Sb)
  /-- A division by zero, or a shift by as many bits as there are. -/
  | fault
  /-- A panic, which does not return. -/
  | panic
deriving DecidableEq

/-- What `iget` has to begin with: the inode of the root in the cache, a free inode, or none. -/
inductive Icache where
  | hit
  | free
  | none

/-! ## Reading the root -/

/-- What `iget` comes to. -/
inductive Iget where
  | inode
  | null
  | fault
  | panic
deriving DecidableEq

/-- `ext2_read_inode` of the root: whether the inode is read, or left empty for a bad number. -/
def ext2ReadInode (d : Disk) (es : Es) (blocksize : Nat) : Iget :=
  if rootIno > es.inodesCount.toNat then .inode
  else if es.inodesPerGroup.toNat = 0 then .fault
  else
    let block_group := (rootIno - 1) / es.inodesPerGroup.toNat
    if block_group ≥ es.groupsCount then .panic
    else
      let group_desc := block_group / (blocksize / 32)
      let desc := block_group % (blocksize / 32)
      -- the descriptors behind the last one are `NULL`
      if group_desc ≥ es.bhCount blocksize then .panic
      else
        let block := d.inodeTable group_desc desc +
          BitVec.ofNat 32 ((rootIno - 1) % es.inodesPerGroup.toNat / (blocksize / 128))
        if d.readable block.toNat blocksize then .inode else .panic

/-- `iget` -/
def iget (d : Disk) (ic : Icache) (es : Es) (blocksize : Nat) : Iget :=
  match ic with
  | .hit => .inode
  | .none => .null
  | .free => ext2ReadInode d es blocksize

/-! ## `ext2_read_super` -/

/-- The loop that reads the descriptors, from the `i`th on: the super block, and the index that could
not be read. -/
def readDescriptors (d : Disk) (blocksize : Nat) : Nat → Nat → Sb → Sb × Option Nat
  | 0, _, s => (s, none)
  | n + 1, i, s =>
    match s.bread d (i + 2, blocksize) with
    | none => (s, some i)
    | some s => readDescriptors d blocksize n (i + 1) s

/-- The inode of the root; `bh` is the buffer of the super block. -/
def mountRoot (d : Disk) (ic : Icache) (rdonly : Bool) (dev : Nat) (es : Es) (bh : Buf) (s : Sb) :
    Result :=
  let s := { s with locked := false, dev := dev }
  match iget d ic es bh.2 with
  | .fault => .fault
  | .panic => .panic
  | .null =>
    let s := { s with dev := 0 }
    let s := (List.range (es.bhCount bh.2)).foldl (fun s i => s.brelse (i + 2, bh.2)) s
    .null (s.brelse bh)
  | .inode => .mounted { s with dirty := !rdonly }

/-- The group descriptors. -/
def readGroups (d : Disk) (ic : Icache) (rdonly : Bool) (dev : Nat) (es : Es) (bh : Buf) (s : Sb) :
    Result :=
  if es.blocksPerGroup.toNat = 0 then .fault
  else if es.bhCount bh.2 ≥ maxGroupDesc then .null (s.abandon.brelse bh)
  else
    match readDescriptors d bh.2 (es.bhCount bh.2) 0 s with
    | (s, some _) =>
      -- the loop releases `s_group_desc[i]`, which is `NULL`, as often as there are descriptors
      .null (s.abandon.brelse bh)
    | (s, none) => mountRoot d ic rdonly dev es bh s

/-- The tests on the geometry. -/
def checkGeometry (d : Disk) (ic : Icache) (rdonly : Bool) (dev : Nat) (es : Es) (blocksize : Nat)
    (bh : Buf) (s : Sb) : Result :=
  if es.logFragSize.toNat ≥ 32 then .fault
  else
    let magic := if es.fragSize = 0 then 0 else superMagic
    if magic ≠ superMagic then .null (s.abandon.brelse bh)
    else if blocksize ≠ bh.2 then .null (s.abandon.brelse bh)
    else if blocksize ≠ es.fragSize then .null (s.abandon.brelse bh)
    else readGroups d ic rdonly dev es bh s

/-- `ext2_read_super` -/
def ext2ReadSuper (d : Disk) (ic : Icache) (rdonly : Bool) (dev : Nat) : Result :=
  let s : Sb := { dev := dev, locked := true }
  let bh : Buf := (1, blockSize)
  match s.bread d bh with
  | none => .null s.abandon
  | some s =>
    if d.first.magic ≠ superMagic then .null (s.abandon.brelse bh)
    else if d.first.logBlockSize.toNat ≥ 32 then .fault
    else
      let blocksize := d.first.blocksize
      if blocksize ≠ blockSize ∧ (blocksize = 1024 ∨ blocksize = 2048 ∨ blocksize = 4096) then
        let s := s.brelse bh
        let bh : Buf := (0, blocksize)
        match s.bread d bh with
        | none => .null s
        | some s =>
          if d.second.magic ≠ superMagic then .null (s.abandon.brelse bh)
          else checkGeometry d ic rdonly dev d.second blocksize bh s
      else checkGeometry d ic rdonly dev d.first blocksize bh s

/-! ## What is to hold -/

/-- No fault and no panic, and after `NULL` the super block is unlocked and free, no buffer is held, none
was released twice, and none is to be written. -/
def Result.Safe : Result → Prop
  | .null s => s.locked = false ∧ s.dev = 0 ∧ s.held = [] ∧ s.twice = false ∧ s.dirty = false
  | .mounted _ => True
  | .fault => False
  | .panic => False

/-! ## What the disk must not have -/

namespace Disk

/-- The super block is read again. -/
def Large (d : Disk) : Prop := d.first.blocksize = 2048 ∨ d.first.blocksize = 4096

instance (d : Disk) : Decidable d.Large := inferInstanceAs (Decidable (_ ∨ _))

/-- The super block that is used. -/
def es (d : Disk) : Es := if d.Large then d.second else d.first

/-- There is a super block. -/
def Recognised (d : Disk) : Prop :=
  d.readable 1 blockSize = true ∧ d.first.magic = superMagic

/-- The super block has been read again, if that has to be. -/
def Reread (d : Disk) : Prop :=
  d.Recognised ∧ d.first.logBlockSize.toNat < 32 ∧
    (d.Large → d.readable 0 d.first.blocksize = true ∧ d.second.magic = superMagic)

/-- The sizes of blocks and fragments are accepted. -/
def Accepted (d : Disk) : Prop :=
  d.Reread ∧ d.es.logFragSize.toNat < 32 ∧ d.es.fragSize = d.first.blocksize ∧
    (d.first.blocksize = 1024 ∨ d.Large)

/-- The descriptors are going to be read. -/
def Sized (d : Disk) : Prop :=
  d.Accepted ∧ d.es.blocksPerGroup.toNat ≠ 0 ∧ d.es.bhCount d.first.blocksize < maxGroupDesc

/-- The descriptors have been read. -/
def Loaded (d : Disk) : Prop :=
  d.Sized ∧ ∀ i < d.es.bhCount d.first.blocksize, d.readable (i + 2) d.first.blocksize = true

end Disk

/-- The inode of the root is in a group, the descriptor of this group is there, and the block of the
inode can be read. -/
def RootOk (d : Disk) (es : Es) (blocksize : Nat) : Prop :=
  rootIno ≤ es.inodesCount.toNat → es.inodesPerGroup.toNat ≠ 0 ∧
    (rootIno - 1) / es.inodesPerGroup.toNat < es.groupsCount ∧
    (rootIno - 1) / es.inodesPerGroup.toNat / (blocksize / 32) < es.bhCount blocksize ∧
    d.readable (d.inodeTable ((rootIno - 1) / es.inodesPerGroup.toNat / (blocksize / 32))
      ((rootIno - 1) / es.inodesPerGroup.toNat % (blocksize / 32)) +
      BitVec.ofNat 32 ((rootIno - 1) % es.inodesPerGroup.toNat / (blocksize / 128))).toNat
      blocksize = true

/-- A disk that does no harm. -/
structure Harmless (d : Disk) (ic : Icache) : Prop where
  /-- `s_log_block_size` is a shift. -/
  blockShift : d.Recognised → d.first.logBlockSize.toNat < 32
  /-- The second read does not fail. -/
  secondRead : d.Recognised → d.first.logBlockSize.toNat < 32 → d.Large →
    d.readable 0 d.first.blocksize = true
  /-- `s_log_frag_size` is a shift. -/
  fragShift : d.Reread → d.es.logFragSize.toNat < 32
  /-- `s_blocks_per_group` is not 0. -/
  groups : d.Accepted → d.es.blocksPerGroup.toNat ≠ 0
  /-- No descriptor behind the first one that cannot be read. -/
  descriptors : d.Sized → d.readable 2 d.first.blocksize = true →
    ∀ i < d.es.bhCount d.first.blocksize, d.readable (i + 2) d.first.blocksize = true
  /-- The root can be read. -/
  root : d.Loaded → ic = .free → RootOk d d.es d.first.blocksize

section Stages

variable {d : Disk} {ic : Icache} {rdonly : Bool} {dev : Nat} {es : Es} {blocksize : Nat} {bh : Buf}
  {s : Sb}

theorem brelse_perm {b : Buf} {rest : List Buf} (h : s.held.Perm (b :: rest)) :
    (s.brelse b).held.Perm rest ∧ (s.brelse b).twice = s.twice ∧ (s.brelse b).dev = s.dev ∧
      (s.brelse b).locked = s.locked ∧ (s.brelse b).dirty = s.dirty := by
  have hmem : b ∈ s.held := h.mem_iff.mpr List.mem_cons_self
  rw [Sb.brelse, if_pos hmem]
  refine ⟨?_, rfl, rfl, rfl, rfl⟩
  have hperm := h.erase b
  rwa [List.erase_cons_head] at hperm

theorem foldl_brelse {l rest : List Buf} (h : s.held.Perm (l ++ rest)) :
    (l.foldl Sb.brelse s).held.Perm rest ∧ (l.foldl Sb.brelse s).twice = s.twice ∧
      (l.foldl Sb.brelse s).dev = s.dev ∧ (l.foldl Sb.brelse s).locked = s.locked ∧
      (l.foldl Sb.brelse s).dirty = s.dirty := by
  induction l generalizing s with
  | nil => exact ⟨h, rfl, rfl, rfl, rfl⟩
  | cons b l ih =>
    obtain ⟨hheld, htwice, hdev, hlocked, hdirty⟩ := brelse_perm h
    obtain ⟨hheld', htwice', hdev', hlocked', hdirty'⟩ := ih hheld
    exact ⟨hheld', htwice'.trans htwice, hdev'.trans hdev, hlocked'.trans hlocked,
      hdirty'.trans hdirty⟩

/-- An exit with the buffer of the super block alone. -/
theorem null_safe (hheld : s.held = [bh]) (htwice : s.twice = false) (hdirty : s.dirty = false) :
    (Result.null (s.abandon.brelse bh)).Safe := by
  have hperm : s.abandon.held.Perm (bh :: []) := by
    rw [Sb.abandon, hheld]
  obtain ⟨hheld', htwice', hdev, hlocked, hdirty'⟩ := brelse_perm hperm
  exact ⟨hlocked, hdev, List.perm_nil.mp hheld', htwice'.trans htwice, hdirty'.trans hdirty⟩

theorem ext2ReadInode_ok : (ext2ReadInode d es blocksize ≠ .fault ∧
    ext2ReadInode d es blocksize ≠ .panic) ↔ RootOk d es blocksize := by
  unfold ext2ReadInode RootOk
  by_cases hcount : rootIno > es.inodesCount.toNat
  · rw [if_pos hcount]
    exact ⟨fun _ h => absurd h (not_le.mpr hcount), fun _ => ⟨by decide, by decide⟩⟩
  rw [if_neg hcount]
  by_cases hper : es.inodesPerGroup.toNat = 0
  · rw [if_pos hper]
    exact ⟨fun h => absurd rfl h.1, fun h => absurd hper (h (not_lt.mp hcount)).1⟩
  rw [if_neg hper]
  simp only []
  by_cases hgroup : (rootIno - 1) / es.inodesPerGroup.toNat ≥ es.groupsCount
  · rw [if_pos hgroup]
    exact ⟨fun h => absurd rfl h.2, fun h => absurd hgroup (not_le.mpr (h (not_lt.mp hcount)).2.1)⟩
  rw [if_neg hgroup]
  by_cases hdesc : (rootIno - 1) / es.inodesPerGroup.toNat / (blocksize / 32) ≥ es.bhCount blocksize
  · rw [if_pos hdesc]
    exact ⟨fun h => absurd rfl h.2,
      fun h => absurd hdesc (not_le.mpr (h (not_lt.mp hcount)).2.2.1)⟩
  rw [if_neg hdesc]
  split
  next hread =>
    exact ⟨fun _ _ => ⟨hper, not_le.mp hgroup, not_le.mp hdesc, hread⟩,
      fun _ => ⟨by decide, by decide⟩⟩
  next hread =>
    exact ⟨fun h => absurd rfl h.2, fun h => absurd (h (not_lt.mp hcount)).2.2.2 hread⟩

theorem iget_ok : (iget d ic es blocksize ≠ .fault ∧ iget d ic es blocksize ≠ .panic) ↔
    (ic = .free → RootOk d es blocksize) := by
  cases ic with
  | hit | none =>
    rw [iget]
    exact ⟨fun _ h => (by cases h), fun _ => ⟨by decide, by decide⟩⟩
  | free =>
    rw [iget, ext2ReadInode_ok]
    exact ⟨fun h _ => h, fun h => h rfl⟩

/-- The descriptors in the order in which they are released. -/
def descriptors (blocksize i n : Nat) : List Buf :=
  (List.range' i n).map fun j => (j + 2, blocksize)

theorem descriptors_succ (blocksize i k : Nat) :
    descriptors blocksize i (k + 1) = (i + 2, blocksize) :: descriptors blocksize (i + 1) k := by
  rw [descriptors, List.range'_succ, List.map_cons]
  rfl

theorem readDescriptors_spec (d : Disk) (blocksize n i : Nat) (s : Sb) :
    ∃ k ≤ n, (∀ j < k, d.readable (i + j + 2) blocksize = true) ∧
      (readDescriptors d blocksize n i s).1.held.Perm (descriptors blocksize i k ++ s.held) ∧
      (readDescriptors d blocksize n i s).1 =
        { s with held := (readDescriptors d blocksize n i s).1.held } ∧
      ((readDescriptors d blocksize n i s).2 = none ∧ k = n ∨
        (readDescriptors d blocksize n i s).2 ≠ none ∧ k < n ∧
          d.readable (i + k + 2) blocksize = false) := by
  induction n generalizing i s with
  | zero => exact ⟨0, le_refl 0, fun j hj => absurd hj (Nat.not_lt_zero j), .refl _, rfl,
      .inl ⟨rfl, rfl⟩⟩
  | succ n ih =>
    rw [readDescriptors, Sb.bread]
    cases hread : d.readable (i + 2) blocksize with
    | false =>
      exact ⟨0, Nat.zero_le _, fun j hj => absurd hj (Nat.not_lt_zero j), .refl _, rfl,
        .inr ⟨Option.some_ne_none i, Nat.succ_pos n, hread⟩⟩
    | true =>
      obtain ⟨k, hk, hall, hperm, hsame, hend⟩ :=
        ih (i + 1) { s with held := (i + 2, blocksize) :: s.held }
      refine ⟨k + 1, Nat.succ_le_succ hk, ?_, ?_, ?_, ?_⟩
      · intro j hj
        cases j with
        | zero => exact hread
        | succ j =>
          have hj' := hall j (by omega)
          rwa [show i + 1 + j + 2 = i + (j + 1) + 2 by omega] at hj'
      · rw [descriptors_succ]
        exact hperm.trans (List.perm_middle)
      · exact hsame
      · rcases hend with ⟨hnone, hkn⟩ | ⟨hsome, hlt, hfail⟩
        · exact .inl ⟨hnone, by omega⟩
        · rw [show i + 1 + k + 2 = i + (k + 1) + 2 by omega] at hfail
          exact .inr ⟨hsome, by omega, hfail⟩

/-- The inode of the root is read with the descriptors and the super block held. -/
theorem mountRoot_safe
    (hheld : s.held.Perm (descriptors bh.2 0 (es.bhCount bh.2) ++ [bh]))
    (htwice : s.twice = false) (hdirty : s.dirty = false) :
    (mountRoot d ic rdonly dev es bh s).Safe ↔ (ic = .free → RootOk d es bh.2) := by
  rw [← iget_ok, mountRoot]
  cases higet : iget d ic es bh.2 with
  | fault => exact ⟨fun h => h.elim, fun h => absurd rfl h.1⟩
  | panic => exact ⟨fun h => h.elim, fun h => absurd rfl h.2⟩
  | inode => exact ⟨fun _ => ⟨by decide, by decide⟩, fun _ => trivial⟩
  | null =>
    refine ⟨fun _ => ⟨by decide, by decide⟩, fun _ => ?_⟩
    have hfold : (List.range (es.bhCount bh.2)).foldl (fun s i => s.brelse (i + 2, bh.2))
        { s with locked := false, dev := 0 } =
        (descriptors bh.2 0 (es.bhCount bh.2)).foldl Sb.brelse { s with locked := false, dev := 0 } := by
      rw [descriptors, List.foldl_map, List.range_eq_range']
    obtain ⟨hheld', htwice', hdev, hlocked, hdirty'⟩ :=
      foldl_brelse (s := { s with locked := false, dev := 0 }) hheld
    obtain ⟨hnone, htwice'', hdev', hlocked', hdirty''⟩ := brelse_perm hheld'
    simp only [hfold]
    exact ⟨hlocked'.trans hlocked, hdev'.trans hdev, List.perm_nil.mp hnone,
      htwice''.trans (htwice'.trans htwice), hdirty''.trans (hdirty'.trans hdirty)⟩

/-- What the descriptors and the root must not have. -/
def GroupsOk (d : Disk) (ic : Icache) (es : Es) (blocksize : Nat) : Prop :=
  es.blocksPerGroup.toNat ≠ 0 ∧ (es.bhCount blocksize < maxGroupDesc →
    (d.readable 2 blocksize = true →
      ∀ i < es.bhCount blocksize, d.readable (i + 2) blocksize = true) ∧
    ((∀ i < es.bhCount blocksize, d.readable (i + 2) blocksize = true) →
      ic = .free → RootOk d es blocksize))

/-- A descriptor that cannot be read does no harm if it is the first one. -/
theorem readGroups_safe (hheld : s.held = [bh]) (htwice : s.twice = false)
    (hdirty : s.dirty = false) :
    (readGroups d ic rdonly dev es bh s).Safe ↔ GroupsOk d ic es bh.2 := by
  rw [readGroups, GroupsOk]
  by_cases hper : es.blocksPerGroup.toNat = 0
  · rw [if_pos hper]
    exact ⟨fun h => h.elim, fun h => absurd hper h.1⟩
  rw [if_neg hper]
  by_cases hcount : es.bhCount bh.2 ≥ maxGroupDesc
  · rw [if_pos hcount]
    exact ⟨fun _ => ⟨hper, fun h => absurd h (not_lt.mpr hcount)⟩,
      fun _ => null_safe hheld htwice hdirty⟩
  rw [if_neg hcount]
  obtain ⟨k, -, hall, hperm, hsame, hend⟩ :=
    readDescriptors_spec d bh.2 (es.bhCount bh.2) 0 s
  obtain ⟨r, hr⟩ : ∃ r, readDescriptors d bh.2 (es.bhCount bh.2) 0 s = r := ⟨_, rfl⟩
  obtain ⟨s', res⟩ := r
  rw [hr] at hperm hsame hend ⊢
  rw [hheld] at hperm
  have htwice' : s'.twice = false := (congrArg Sb.twice hsame).trans htwice
  have hdirty' : s'.dirty = false := (congrArg Sb.dirty hsame).trans hdirty
  rcases hend with ⟨hnone, rfl⟩ | ⟨hsome, hlt, hfail⟩
  · simp only [] at hnone
    rw [hnone]
    simp only [mountRoot_safe hperm htwice' hdirty']
    constructor
    · intro h
      refine ⟨hper, fun _ => ⟨fun _ i hi => ?_, fun _ => h⟩⟩
      have hi' := hall i hi
      rwa [Nat.zero_add] at hi'
    · rintro ⟨-, h⟩
      apply (h (not_le.mp hcount)).2
      intro i hi
      have hi' := hall i hi
      rwa [Nat.zero_add] at hi'
  · rw [Nat.zero_add] at hfail
    obtain ⟨j, hj⟩ := Option.ne_none_iff_exists'.mp hsome
    simp only [] at hj
    rw [hj]
    simp only []
    -- the descriptors that have been read stay held
    have hrest : (s'.abandon.brelse bh).held.Perm (descriptors bh.2 0 k) ∧
        (s'.abandon.brelse bh).twice = false ∧ (s'.abandon.brelse bh).dev = 0 ∧
        (s'.abandon.brelse bh).locked = false ∧ (s'.abandon.brelse bh).dirty = false := by
      have hperm' : s'.abandon.held.Perm (bh :: descriptors bh.2 0 k) :=
        hperm.trans (List.perm_append_comm)
      obtain ⟨hheld', htw, hdev, hlocked, hdirt⟩ := brelse_perm hperm'
      exact ⟨hheld', htw.trans htwice', hdev, hlocked, hdirt.trans hdirty'⟩
    obtain ⟨hheld', htw, hdev, hlocked, hdirt⟩ := hrest
    constructor
    · rintro ⟨-, -, hnil, -, -⟩
      rw [hnil] at hheld'
      have hzero : k = 0 := by
        have hlen := hheld'.length_eq
        rw [descriptors, List.length_map, List.length_range', List.length_nil] at hlen
        exact hlen.symm
      rw [hzero] at hfail hlt
      refine ⟨hper, fun _ => ⟨fun hread => ?_, fun hread => ?_⟩⟩
      · rw [Nat.zero_add, hread] at hfail
        cases hfail
      · rw [hread 0 hlt] at hfail
        cases hfail
    · rintro ⟨-, h⟩
      have hzero : k = 0 := by
        by_contra hk
        have hread := hall 0 (Nat.pos_of_ne_zero hk)
        have hk' := (h (not_le.mp hcount)).1 hread k hlt
        rw [hk'] at hfail
        cases hfail
      rw [hzero] at hheld'
      exact ⟨hlocked, hdev, List.perm_nil.mp hheld', htw, hdirt⟩

/-- The tests on the geometry let no size pass that is not one of blocks and of fragments. -/
theorem checkGeometry_safe (hsize : bh.2 = 1024 ∨ bh.2 = 2048 ∨ bh.2 = 4096)
    (hheld : s.held = [bh]) (htwice : s.twice = false) (hdirty : s.dirty = false) :
    (checkGeometry d ic rdonly dev es blocksize bh s).Safe ↔
      es.logFragSize.toNat < 32 ∧
        (blocksize = bh.2 → es.fragSize = bh.2 → GroupsOk d ic es bh.2) := by
  rw [checkGeometry]
  by_cases hshift : es.logFragSize.toNat ≥ 32
  · rw [if_pos hshift]
    exact ⟨fun h => h.elim, fun h => absurd hshift (not_le.mpr h.1)⟩
  rw [if_neg hshift]
  have hlt := not_le.mp hshift
  have hnull := null_safe hheld htwice hdirty
  by_cases hzero : es.fragSize = 0
  · rw [if_pos hzero]
    simp only []
    rw [if_pos (by decide)]
    refine ⟨fun _ => ⟨hlt, fun _ hfrag => ?_⟩, fun _ => hnull⟩
    omega
  rw [if_neg hzero]
  simp only []
  rw [if_neg (fun h => h rfl)]
  by_cases hblock : blocksize ≠ bh.2
  · rw [if_pos hblock]
    exact ⟨fun _ => ⟨hlt, fun h => absurd h hblock⟩, fun _ => hnull⟩
  rw [if_neg hblock]
  rw [not_not] at hblock
  by_cases hfrag : blocksize ≠ es.fragSize
  · rw [if_pos hfrag]
    exact ⟨fun _ => ⟨hlt, fun _ h => absurd (hblock.trans h.symm) hfrag⟩, fun _ => hnull⟩
  rw [if_neg hfrag, readGroups_safe hheld htwice hdirty]
  rw [not_not] at hfrag
  exact ⟨fun h => ⟨hlt, fun _ _ => h⟩, fun h => h.2 hblock (hfrag.symm.trans hblock)⟩

end Stages

theorem groupsOk_iff {d : Disk} {ic : Icache} (hre : d.Reread) :
    (d.es.logFragSize.toNat < 32 ∧ (d.es.fragSize = d.first.blocksize →
        d.first.blocksize = 1024 ∨ d.Large → GroupsOk d ic d.es d.first.blocksize)) ↔
      Harmless d ic := by
  constructor
  · rintro ⟨hfrag, hgroups⟩
    have hok : d.Accepted → GroupsOk d ic d.es d.first.blocksize := fun h =>
      hgroups h.2.2.1 h.2.2.2
    exact {
      blockShift := fun _ => hre.2.1
      secondRead := fun _ _ hlarge => (hre.2.2 hlarge).1
      fragShift := fun _ => hfrag
      groups := fun h => (hok h).1
      descriptors := fun h => ((hok h.1).2 h.2.2).1
      root := fun h => ((hok h.1.1).2 h.1.2.2).2 h.2 }
  · intro h
    have hfrag := h.fragShift hre
    refine ⟨hfrag, fun hsize hblock => ?_⟩
    have hacc : d.Accepted := ⟨hre, hfrag, hsize, hblock⟩
    have hper := h.groups hacc
    exact ⟨hper, fun hcount => ⟨h.descriptors ⟨hacc, hper, hcount⟩,
      fun hall => h.root ⟨⟨hacc, hper, hcount⟩, hall⟩⟩⟩

/-- A disk without a super block does no harm. -/
theorem harmless_of_unread {d : Disk} {ic : Icache} (h : ¬ d.Recognised) : Harmless d ic where
  blockShift := fun hc => absurd hc h
  secondRead := fun hc => absurd hc h
  fragShift := fun hc => absurd hc.1 h
  groups := fun hc => absurd hc.1.1 h
  descriptors := fun hc => absurd hc.1.1.1 h
  root := fun hc => absurd hc.1.1.1.1 h

/-- Nor does one whose super block looks different when it is read again. -/
theorem harmless_of_unlike {d : Disk} {ic : Icache} (hlt : d.first.logBlockSize.toNat < 32)
    (hread : d.Large → d.readable 0 d.first.blocksize = true) (h : ¬ d.Reread) : Harmless d ic where
  blockShift := fun _ => hlt
  secondRead := fun _ _ => hread
  fragShift := fun hc => absurd hc h
  groups := fun hc => absurd hc.1 h
  descriptors := fun hc => absurd hc.1.1 h
  root := fun hc => absurd hc.1.1.1 h

/-- **Mounting is safe exactly for a disk that does no harm.** -/
theorem read_super_exact (d : Disk) (ic : Icache) (rdonly : Bool) (dev : Nat) :
    (ext2ReadSuper d ic rdonly dev).Safe ↔ Harmless d ic := by
  rw [ext2ReadSuper, Sb.bread]
  cases hfirst : d.readable 1 blockSize with
  | false =>
    refine ⟨fun _ => harmless_of_unread fun h => ?_, fun _ => ⟨rfl, rfl, rfl, rfl, rfl⟩⟩
    rw [h.1] at hfirst
    cases hfirst
  | true =>
  simp only [if_true]
  by_cases hmagic : d.first.magic ≠ superMagic
  · rw [if_pos hmagic]
    exact ⟨fun _ => harmless_of_unread fun h => hmagic h.2, fun _ => null_safe rfl rfl rfl⟩
  rw [if_neg hmagic]
  rw [not_not] at hmagic
  have hrec : d.Recognised := ⟨hfirst, hmagic⟩
  by_cases hshift : d.first.logBlockSize.toNat ≥ 32
  · rw [if_pos hshift]
    exact ⟨fun h => h.elim, fun h => absurd hshift (not_le.mpr (h.blockShift hrec))⟩
  rw [if_neg hshift]
  have hlt := not_le.mp hshift
  by_cases hlarge : d.Large
  · -- the super block is read once more
    have hes : d.es = d.second := if_pos hlarge
    have hcond : d.first.blocksize ≠ blockSize ∧
        (d.first.blocksize = 1024 ∨ d.first.blocksize = 2048 ∨ d.first.blocksize = 4096) := by
      rw [blockSize]
      rcases hlarge with h | h <;> omega
    have hheld : Sb.brelse { dev := dev, locked := true, held := [(1, blockSize)] } (1, blockSize) =
        { dev := dev, locked := true } := by
      rw [Sb.brelse, if_pos List.mem_cons_self, List.erase_cons_head]
    rw [if_pos hcond, hheld, Sb.bread]
    cases hread : d.readable 0 d.first.blocksize with
    | false =>
      refine ⟨fun h => absurd h.1 Bool.true_eq_false.mp, fun h => ?_⟩
      rw [h.secondRead hrec hlt hlarge] at hread
      cases hread
    | true =>
    simp only [if_true]
    by_cases hmagic₂ : d.second.magic ≠ superMagic
    · rw [if_pos hmagic₂]
      have hno : ¬ d.Reread := fun h => hmagic₂ (h.2.2 hlarge).2
      exact ⟨fun _ => harmless_of_unlike hlt (fun _ => hread) hno, fun _ => null_safe rfl rfl rfl⟩
    rw [if_neg hmagic₂]
    rw [not_not] at hmagic₂
    have hre : d.Reread := ⟨hrec, hlt, fun _ => ⟨hread, hmagic₂⟩⟩
    have hsizes : d.first.blocksize = 1024 ∨ d.first.blocksize = 2048 ∨ d.first.blocksize = 4096 :=
      .inr hlarge
    rw [checkGeometry_safe hsizes rfl rfl rfl, ← groupsOk_iff hre, hes]
    exact ⟨fun h => ⟨h.1, fun hsize _ => h.2 rfl hsize⟩,
      fun h => ⟨h.1, fun _ hsize => h.2 hsize (.inr hlarge)⟩⟩
  · have hes : d.es = d.first := if_neg hlarge
    have hcond : ¬ (d.first.blocksize ≠ blockSize ∧
        (d.first.blocksize = 1024 ∨ d.first.blocksize = 2048 ∨ d.first.blocksize = 4096)) := by
      rintro ⟨hne, h | h⟩
      · exact hne h
      · exact hlarge h
    have hre : d.Reread := ⟨hrec, hlt, fun h => absurd h hlarge⟩
    rw [if_neg hcond, checkGeometry_safe (.inl rfl) rfl rfl rfl, ← groupsOk_iff hre, hes]
    constructor
    · rintro ⟨hfrag, h⟩
      refine ⟨hfrag, fun hsize hblock => ?_⟩
      have hone : d.first.blocksize = blockSize := hblock.resolve_right hlarge
      rw [hone] at hsize ⊢
      exact h hone hsize
    · rintro ⟨hfrag, h⟩
      refine ⟨hfrag, fun hone hsize => ?_⟩
      have hgroups := h (hsize.trans hone.symm) (.inl hone)
      rwa [hone] at hgroups

/-- A super block of blocks of 2048 bytes, on a disk whose block 0 cannot be read. -/
def badDisk : Disk where
  first := ⟨32, 100, 0, 1, 1, 8192, 32, superMagic⟩
  second := ⟨32, 100, 0, 1, 1, 8192, 32, superMagic⟩
  inodeTable := fun _ _ => 5
  readable := fun b _ => b ≠ 0

/-- The super block stays locked when the second read fails. -/
theorem read_super_locks : ¬ (ext2ReadSuper badDisk .free false 769).Safe := by
  intro h
  have hnull : ext2ReadSuper badDisk .free false 769 = .null { dev := 769, locked := true } := by
    decide
  rw [hnull] at h
  exact absurd h.1 (by decide)

end LinuxEvocation.Ext2.ReadSuper
