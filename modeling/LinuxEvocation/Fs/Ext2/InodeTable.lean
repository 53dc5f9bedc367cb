import Mathlib.Tactic
import Mathlib.Data.BitVec

/-!
# Where an inode is on disk

Each group has a table of inodes, some of them to a block.  Four functions compute the block and the
place in it of an inode: two take the place from the number of the inode itself, the two others from its
number within the group.

* `Super`, `Place` — the numbers in the super block and the descriptors, and a block with a slot.
* `ext2ReadInode`, `ext2UpdateInode`, `setInodeDtime`, `incInodeVersion` — the places they compute.
* `Super.Aligned` — the groups begin with a whole block of inodes.
* `Super.Apart` — no two groups use the same slot.
* `inode_places_exact` — the four agree, and no two inodes are in one place, exactly then.
* `inode_places_differ` — a group that does not fill its last block.
-/

namespace LinuxEvocation.Ext2.InodeTable

/-- What `ext2_read_super` has put into the super block, and `bg_inode_table` of the descriptors, by
the buffer and the index in it. -/
structure Super where
  blocksize : Nat
  inodesCount : Nat
  inodesPerGroup : Nat
  groupsCount : Nat
  bgInodeTable : Nat → Nat → BitVec 32
  blocksize_ok : blocksize = 1024 ∨ blocksize = 2048 ∨ blocksize = 4096
  inodesPerGroup_pos : 0 < inodesPerGroup
  inodesPerGroup_lt : inodesPerGroup < 2 ^ 32

namespace Super

/-- `s_inodes_per_block`: an inode has 128 bytes. -/
def inodesPerBlock (sb : Super) : Nat := sb.blocksize / 128

/-- `s_desc_per_block`: a descriptor has 32 bytes. -/
def descPerBlock (sb : Super) : Nat := sb.blocksize / 32

end Super

/-- A block, and the number of an inode in it. -/
abbrev Place := BitVec 32 × Nat

/-! ## The four functions -/

def rootIno : Nat := 2
def aclIdxIno : Nat := 3
def aclDataIno : Nat := 4
def firstIno : Nat := 11

/-- `get_group_desc`, and the same written out: the table of the group. -/
def getGroupDesc (sb : Super) (group : Nat) : BitVec 32 :=
  sb.bgInodeTable (group / sb.descPerBlock) (group % sb.descPerBlock)

/-- The place in `ext2_read_inode`; `none` for a number that is refused, and for a panic. -/
def ext2ReadInode (sb : Super) (ino : Nat) : Option Place :=
  if ino ≠ rootIno ∧ ino ≠ aclIdxIno ∧ ino ≠ aclDataIno ∧ ino < firstIno ∨ ino > sb.inodesCount then
    none
  else
    let block_group := (ino - 1) / sb.inodesPerGroup
    if block_group ≥ sb.groupsCount then none
    else
      let block := getGroupDesc sb block_group +
        BitVec.ofNat 32 ((ino - 1) % sb.inodesPerGroup / sb.inodesPerBlock)
      some (block, (ino - 1) % sb.inodesPerBlock)

/-- The place in `ext2_update_inode`. -/
def ext2UpdateInode (sb : Super) (ino : Nat) : Option Place :=
  if ino ≠ rootIno ∧ ino < firstIno ∨ ino > sb.inodesCount then none
  else
    let block_group := (ino - 1) / sb.inodesPerGroup
    if block_group ≥ sb.groupsCount then none
    else
      let block := getGroupDesc sb block_group +
        BitVec.ofNat 32 ((ino - 1) % sb.inodesPerGroup / sb.inodesPerBlock)
      some (block, (ino - 1) % sb.inodesPerBlock)

/-- The place in `set_inode_dtime`, as `ext2_free_inode` calls it. -/
def setInodeDtime (sb : Super) (ino : Nat) : Place :=
  let inode_block := getGroupDesc sb ((ino - 1) / sb.inodesPerGroup) +
    BitVec.ofNat 32 ((ino - 1) % sb.inodesPerGroup / sb.inodesPerBlock)
  (inode_block, (ino - 1) % sb.inodesPerGroup % sb.inodesPerBlock)

/-- The place in `inc_inode_version`, as `ext2_new_inode` calls it for a bit of the group `i`. -/
def incInodeVersion (sb : Super) (i ino : Nat) : Place :=
  let inode_block := getGroupDesc sb i +
    BitVec.ofNat 32 ((ino - 1) % sb.inodesPerGroup / sb.inodesPerBlock)
  (inode_block, (ino - 1) % sb.inodesPerGroup % sb.inodesPerBlock)

/-- The number that `ext2_new_inode` gives to a bit of a group, if the sum does not wrap. -/
def newIno (sb : Super) (i j : Nat) : Nat := j + i * sb.inodesPerGroup + 1

/-! ## What the disk has to be like -/

namespace Super

/-- An inode that is read. -/
def Allows (sb : Super) (ino : Nat) : Prop := (ext2ReadInode sb ino).isSome

/-- The group of an inode begins with a whole block of inodes. -/
def Aligned (sb : Super) : Prop :=
  ∀ ino, sb.Allows ino → sb.inodesPerBlock ∣ sb.inodesPerGroup * ((ino - 1) / sb.inodesPerGroup)

/-- An inode of the group `g` is in the slot `s` of the block `k` of its table. -/
def Uses (sb : Super) (g k s : Nat) : Prop :=
  s < sb.inodesPerBlock ∧ sb.inodesPerBlock * k + s < sb.inodesPerGroup ∧
    sb.Allows (sb.inodesPerGroup * g + (sb.inodesPerBlock * k + s) + 1)

/-- The tables of two groups have no slot in common that both use. -/
def Apart (sb : Super) : Prop :=
  ∀ g h k l s, g ≠ h → sb.Uses g k s → sb.Uses h l s →
    getGroupDesc sb g + BitVec.ofNat 32 k ≠ getGroupDesc sb h + BitVec.ofNat 32 l

end Super

/-- All functions compute the same place for an inode, and another one for another inode. -/
structure Agree (sb : Super) : Prop where
  injective : ∀ a b, sb.Allows a → ext2ReadInode sb a = ext2ReadInode sb b → a = b
  update : ∀ a, (ext2UpdateInode sb a).isSome → ext2UpdateInode sb a = ext2ReadInode sb a
  dtime : ∀ a, sb.Allows a → ext2ReadInode sb a = some (setInodeDtime sb a)
  version : ∀ i j, j < sb.inodesPerGroup → sb.Allows (newIno sb i j) →
    ext2ReadInode sb (newIno sb i j) = some (incInodeVersion sb i (newIno sb i j))

section Proofs

variable {sb : Super}

theorem inodesPerBlock_pos (sb : Super) : 0 < sb.inodesPerBlock := by
  rcases sb.blocksize_ok with h | h | h <;> rw [Super.inodesPerBlock, h] <;> decide

theorem ext2ReadInode_eq {ino : Nat} (h : sb.Allows ino) :
    0 < ino ∧ ext2ReadInode sb ino =
      some ((setInodeDtime sb ino).1, (ino - 1) % sb.inodesPerBlock) := by
  rw [Super.Allows, ext2ReadInode] at h
  rw [ext2ReadInode]
  split at h
  next => exact absurd h (by decide)
  next hgood =>
    simp only at h
    split at h
    next => exact absurd h (by decide)
    next hgroup =>
      rw [if_neg hgood]
      simp only
      rw [if_neg hgroup]
      refine ⟨?_, rfl⟩
      unfold rootIno aclIdxIno aclDataIno firstIno at hgood
      omega

theorem update_eq_read {ino : Nat} (h : (ext2UpdateInode sb ino).isSome) :
    ext2UpdateInode sb ino = ext2ReadInode sb ino := by
  rw [ext2UpdateInode] at h ⊢
  rw [ext2ReadInode]
  split at h
  next => exact absurd h (by decide)
  next hgood =>
    have hread : ¬ (ino ≠ rootIno ∧ ino ≠ aclIdxIno ∧ ino ≠ aclDataIno ∧ ino < firstIno ∨
        ino > sb.inodesCount) := by
      omega
    rw [if_neg hgood, if_neg hread]

/-- The slot from the number and the slot from the number within the group. -/
theorem slots_eq_iff (x p q : Nat) : x % p = x % q % p ↔ p ∣ q * (x / q) := by
  have hle : x % q ≤ x := Nat.mod_le x q
  have hsub : x - x % q = q * (x / q) := by
    have := Nat.div_add_mod x q
    omega
  rw [← hsub, ← Nat.modEq_iff_dvd' hle]
  exact eq_comm

/-- The functions agree on an inode if its group begins with a whole block. -/
theorem dtime_iff {ino : Nat} (h : sb.Allows ino) :
    ext2ReadInode sb ino = some (setInodeDtime sb ino) ↔
      sb.inodesPerBlock ∣ sb.inodesPerGroup * ((ino - 1) / sb.inodesPerGroup) := by
  rw [(ext2ReadInode_eq h).2, ← slots_eq_iff, Option.some_inj]
  exact ⟨fun heq => (Prod.mk.inj heq).2, fun heq => Prod.ext rfl heq⟩

theorem newIno_group {i j : Nat} (hj : j < sb.inodesPerGroup) :
    (newIno sb i j - 1) / sb.inodesPerGroup = i ∧ (newIno sb i j - 1) % sb.inodesPerGroup = j := by
  rw [newIno, Nat.add_sub_cancel, Nat.add_mul_div_right _ _ sb.inodesPerGroup_pos,
    Nat.div_eq_of_lt hj, Nat.zero_add, Nat.add_mul_mod_self_right, Nat.mod_eq_of_lt hj]
  exact ⟨rfl, rfl⟩

theorem version_eq_dtime {i j : Nat} (hj : j < sb.inodesPerGroup) :
    incInodeVersion sb i (newIno sb i j) = setInodeDtime sb (newIno sb i j) := by
  rw [incInodeVersion, setInodeDtime, (newIno_group hj).1]

theorem uses_of_allows {ino : Nat} (h : sb.Allows ino) :
    sb.Uses ((ino - 1) / sb.inodesPerGroup) ((ino - 1) % sb.inodesPerGroup / sb.inodesPerBlock)
      ((ino - 1) % sb.inodesPerGroup % sb.inodesPerBlock) := by
  have hpos := (ext2ReadInode_eq h).1
  have hsplit : sb.inodesPerGroup * ((ino - 1) / sb.inodesPerGroup) +
      (ino - 1) % sb.inodesPerGroup + 1 = ino := by
    rw [Nat.div_add_mod]
    omega
  refine ⟨Nat.mod_lt _ (inodesPerBlock_pos sb), ?_, ?_⟩
  · rw [Nat.div_add_mod]
    exact Nat.mod_lt _ sb.inodesPerGroup_pos
  · rw [Nat.div_add_mod, hsplit]
    exact h

/-- The place of an inode that uses a slot. -/
theorem dtime_of_uses {g k s : Nat} (h : sb.Uses g k s) :
    setInodeDtime sb (sb.inodesPerGroup * g + (sb.inodesPerBlock * k + s) + 1) =
      (getGroupDesc sb g + BitVec.ofNat 32 k, s) := by
  obtain ⟨hs, hr, -⟩ := h
  have hpos := inodesPerBlock_pos sb
  rw [setInodeDtime, Nat.add_sub_cancel, Nat.mul_add_div sb.inodesPerGroup_pos,
    Nat.div_eq_of_lt hr, Nat.add_zero, Nat.mul_add_mod, Nat.mod_eq_of_lt hr, Nat.mul_add_div hpos,
    Nat.div_eq_of_lt hs, Nat.add_zero, Nat.mul_add_mod, Nat.mod_eq_of_lt hs]

/-- Inodes in one place are in one group, or their tables are not apart. -/
theorem dtime_injective (hapart : sb.Apart) {a b : Nat} (ha : sb.Allows a) (hb : sb.Allows b)
    (h : setInodeDtime sb a = setInodeDtime sb b) : a = b := by
  obtain ⟨hblock, hslot⟩ := Prod.mk.inj h
  have huse := uses_of_allows ha
  by_cases hg : (a - 1) / sb.inodesPerGroup = (b - 1) / sb.inodesPerGroup
  · rw [hg, add_right_inj] at hblock
    have hlt (x : Nat) : x % sb.inodesPerGroup / sb.inodesPerBlock < 2 ^ 32 :=
      lt_of_le_of_lt (Nat.div_le_self _ _)
        ((Nat.mod_lt _ sb.inodesPerGroup_pos).trans sb.inodesPerGroup_lt)
    have hk := congrArg BitVec.toNat hblock
    rw [BitVec.toNat_ofNat, BitVec.toNat_ofNat, Nat.mod_eq_of_lt (hlt _),
      Nat.mod_eq_of_lt (hlt _)] at hk
    have hr : (a - 1) % sb.inodesPerGroup = (b - 1) % sb.inodesPerGroup := by
      rw [← Nat.div_add_mod ((a - 1) % sb.inodesPerGroup) sb.inodesPerBlock, hk, hslot,
        Nat.div_add_mod]
    have hx : a - 1 = b - 1 := by
      rw [← Nat.div_add_mod (a - 1) sb.inodesPerGroup, hg, hr, Nat.div_add_mod]
    have hapos := (ext2ReadInode_eq ha).1
    have hbpos := (ext2ReadInode_eq hb).1
    omega
  · rw [hslot] at huse
    exact absurd hblock (hapart _ _ _ _ _ hg huse (uses_of_allows hb))

end Proofs

/-- **The functions agree where an inode is**, and every inode has a place of its own, exactly when
every group begins with a whole block of inodes and no two groups use the same slot. -/
theorem inode_places_exact (sb : Super) : Agree sb ↔ sb.Aligned ∧ sb.Apart := by
  constructor
  · intro h
    refine ⟨fun ino hino => (dtime_iff hino).mp (h.dtime ino hino), ?_⟩
    intro g i k l s hne hg hi heq
    have hplace : ext2ReadInode sb (sb.inodesPerGroup * g + (sb.inodesPerBlock * k + s) + 1) =
        ext2ReadInode sb (sb.inodesPerGroup * i + (sb.inodesPerBlock * l + s) + 1) := by
      rw [h.dtime _ hg.2.2, h.dtime _ hi.2.2, dtime_of_uses hg, dtime_of_uses hi, heq]
    have hsame := h.injective _ _ hg.2.2 hplace
    apply hne
    have hgroup := congrArg (fun x => (x - 1) / sb.inodesPerGroup) hsame
    simp only [Nat.add_sub_cancel, Nat.mul_add_div sb.inodesPerGroup_pos,
      Nat.div_eq_of_lt hg.2.1, Nat.div_eq_of_lt hi.2.1, Nat.add_zero] at hgroup
    exact hgroup
  · rintro ⟨haligned, hapart⟩
    have hdtime (a : Nat) (ha : sb.Allows a) : ext2ReadInode sb a = some (setInodeDtime sb a) :=
      (dtime_iff ha).mpr (haligned a ha)
    refine ⟨?_, fun a ha => update_eq_read ha, hdtime, ?_⟩
    · intro a b ha heq
      have hb : sb.Allows b := by
        rw [Super.Allows, ← heq]
        exact ha
      rw [hdtime a ha, hdtime b hb] at heq
      exact dtime_injective hapart ha hb (Option.some.inj heq)
    · intro i j hj hij
      rw [version_eq_dtime hj]
      exact hdtime _ hij

/-- Two groups of twelve inodes, and eight inodes to a block. -/
def twelve : Super where
  blocksize := 1024
  inodesCount := 24
  inodesPerGroup := 12
  groupsCount := 2
  bgInodeTable _ desc := if desc = 0 then 5 else 37
  blocksize_ok := by decide
  inodesPerGroup_pos := by decide
  inodesPerGroup_lt := by decide

/-- The first inode of the second group is in the fifth slot of a block, or in the first. -/
theorem inode_places_differ :
    ext2ReadInode twelve 13 = some (37, 4) ∧ setInodeDtime twelve 13 = (37, 0) ∧
      incInodeVersion twelve 1 (newIno twelve 1 0) = (37, 0) ∧ ¬ Agree twelve := by
  refine ⟨by decide, by decide, by decide, fun h => ?_⟩
  exact absurd (h.dtime 13 rfl) (by decide)

end LinuxEvocation.Ext2.InodeTable
