import LinuxEvocation.Fs.Ext2.BitmapCache

/-!
# Allocation of blocks and inodes in ext2

The blocks and the inodes of a file system are in groups.  Each group has a bitmap of its blocks and
a bitmap of its inodes, and a descriptor that counts the free ones; the super block counts all of
them.  The calls run under the lock of the super block, one after the other.

* `Geometry`, `State` — the data.
* `word`, `bsf`, `findFirstZeroBit`, `findNextZeroBit`, `findFirstZeroByte` — searches in a bitmap.
* `nearGoal`, `searchGoal`, `searchGroup`, `nextGroup` — how `ext2_new_block` chooses.
* `newBlock`, `freeBlock`, `newInode`, `freeInode` — the calls.
* `step` — one call.
-/

namespace LinuxEvocation.Ext2

open Function (update)

/-! ## The data -/

/-- What of the super block does not change.  `ext2_read_super` does not check `eight_dvd` and
`first_le`. -/
structure Geometry where
  firstDataBlock : Nat
  blocksCount : Nat
  rBlocksCount : Nat
  blocksPerGroup : Nat
  inodesCount : Nat
  inodesPerGroup : Nat
  descPerBlock : Nat
  /-- The bits of a bitmap are in bytes. -/
  eight_dvd : 8 ∣ blocksPerGroup
  blocksPerGroup_pos : 0 < blocksPerGroup
  inodesPerGroup_pos : 0 < inodesPerGroup
  descPerBlock_pos : 0 < descPerBlock
  first_le : firstDataBlock ≤ blocksCount

theorem eight_dvd_eight : 8 ∣ 8 := by decide

theorem eight_pos : 0 < 8 := by decide

theorem thirtyTwo_pos : 0 < 32 := by decide

namespace Geometry

/-- `s_groups_count`, as `ext2_read_super` computes it. -/
def groupsCount (g : Geometry) : Nat :=
  (g.blocksCount - g.firstDataBlock + g.blocksPerGroup - 1) / g.blocksPerGroup

/-- The block with the descriptor of the group is one that `ext2_read_super` has read. -/
def descLoaded (g : Geometry) (i : Nat) : Prop :=
  i / g.descPerBlock < (g.groupsCount + g.descPerBlock - 1) / g.descPerBlock

instance (g : Geometry) (i : Nat) : Decidable (g.descLoaded i) := inferInstanceAs (Decidable (_ < _))

/-- The number of a block, from its group and its bit. -/
def block (g : Geometry) (i j : Nat) : Nat := j + i * g.blocksPerGroup + g.firstDataBlock

/-- The number of an inode, from its group and its bit. -/
def ino (g : Geometry) (i j : Nat) : Nat := j + (i * g.inodesPerGroup + 1)

end Geometry

/-- The counters of the super block and of the descriptors, the bitmaps by group, and the slots for
them.  The counters of a descriptor are shorts; a bitmap is one block, of 32768 bits at most. -/
structure State where
  freeBlocksCount : Nat
  freeInodesCount : Nat
  bgFreeBlocksCount : Nat → Nat
  bgFreeInodesCount : Nat → Nat
  bgUsedDirsCount : Nat → Nat
  blockBitmap : Nat → Nat → Bool
  inodeBitmap : Nat → Nat → Bool
  blockCache : Cache
  inodeCache : Cache

def State.setBlockBit (s : State) (i j : Nat) (v : Bool) : State :=
  { s with blockBitmap := update s.blockBitmap i (update (s.blockBitmap i) j v) }

def State.setInodeBit (s : State) (i j : Nat) (v : Bool) : State :=
  { s with inodeBitmap := update s.inodeBitmap i (update (s.inodeBitmap i) j v) }

/-! ## Searches in a bitmap -/

/-- The lowest `n` bits from the bit `base` on. -/
def wordFrom (bits : Nat → Bool) (base : Nat) : (n : Nat) → BitVec n
  | 0 => BitVec.nil
  | n + 1 => BitVec.cons (bits (base + n)) (wordFrom bits base n)

/-- The word at an index. -/
def word (bits : Nat → Bool) (w : Nat) : BitVec 32 := wordFrom bits (32 * w) 32

/-- The shifts take the lowest 5 bits of their count. -/
def shr (x : BitVec 32) (n : Nat) : BitVec 32 := x >>> (n % 32)

def shl (x : BitVec 32) (n : Nat) : BitVec 32 := x <<< (n % 32)

/-- `bsfl`, with 32 for the word 0. -/
def bsf (x : BitVec 32) : Nat := ((List.range 32).find? fun i => x.getLsbD i).getD 32

/-- `find_first_zero_bit`, from the word `w` on: the number of the bit, counted from there. -/
def findFirstZeroBit (bits : Nat → Bool) (w size : Nat) : Nat :=
  if size = 0 then 0
  else
    let n := (size + 31) / 32
    match (List.range n).find? fun v => word bits (w + v) ≠ BitVec.allOnes 32 with
    | some v => 32 * v + bsf (~~~ word bits (w + v))
    | none => 32 * n

/-- `find_next_zero_bit`.  If the word that is left is only partly within `size`, what remains of
`size` is a negative number taken as unsigned, and the search leaves the bitmap: `stray` is what it
finds there. -/
def findNextZeroBit (bits : Nat → Bool) (size offset stray : Nat) : Nat :=
  let p := offset / 32
  let bit := offset % 32
  let rest := fun p => if size < 32 * p then stray else findFirstZeroBit bits p (size - 32 * p)
  if bit ≠ 0 then
    let set := bsf (~~~ shr (word bits p) bit)
    if set < 32 - bit then set + offset else offset + (32 - bit) + rest (p + 1)
  else offset + rest p

/-- `find_first_zero_byte`: the index of the byte, or of the one behind the last. -/
def findFirstZeroByte (bits : Nat → Bool) (start size : Nat) : Nat :=
  match (List.range' start size).find? fun b => wordFrom bits (8 * b) 8 = 0 with
  | some b => b
  | none => start + size

/-! ## `ext2_new_block` -/

/-- "search forward for a free block within the next 32 blocks". -/
def nearGoal (bits : Nat → Bool) (size j : Nat) : Option Nat :=
  let lmap := shr (word bits (j / 32)) (j % 32 + 1)
  let lmap :=
    -- `EXT2_BLOCKS_PER_GROUP(sb) - 32` is unsigned
    if j + 32 < size ∨ size < 32 then lmap ||| shl (word bits (j / 32 + 1)) (31 - j % 32)
    else lmap ||| shl (BitVec.allOnes 32) (31 - j % 32)
  if lmap ≠ BitVec.allOnes 32 then
    let k := bsf (~~~ lmap) + 1
    if j + k < size then some (j + k) else none
  else none

/-- A bit in the group of the goal, which is the bit `j`. -/
def searchGoal (bits : Nat → Bool) (size j stray : Nat) : Option Nat :=
  if bits j = false then some j
  else
    match if j ≠ 0 then nearGoal bits size j else none with
    | some k => some k
    | none =>
      let k := findFirstZeroByte bits (j / 8) ((size - j + 7) / 8) * 8
      if k < size then some k
      else
        let k := findNextZeroBit bits size j stray
        if k < size then some k else none

/-- A bit in another group. -/
def searchGroup (bits : Nat → Bool) (size : Nat) : Option Nat :=
  let j := findFirstZeroByte bits 0 (size / 8) * 8
  let j := if j ≥ size then findFirstZeroBit bits 0 size else j
  if j ≥ size then none else some j

/-- "search the rest of the groups". -/
def nextGroup (groups : Nat) (free : Nat → Nat) : Nat → Nat → Option Nat
  | 0, _ => none
  | k + 1, i =>
    let i := if i + 1 ≥ groups then 0 else i + 1
    if free i > 0 then some i else nextGroup groups free k i

/-- How one pass from the label `repeat` ends. -/
inductive Pass where
  /-- A panic, or an access through a pointer that is `NULL`. -/
  | crash
  /-- The call returns 0 or `NULL`. -/
  | fail (s : State)
  /-- `goto repeat`. -/
  | again (s : State)
  | got (s : State) (x : Nat)

/-- From the label `got_block` on: `i` is the group, and `b` the one whose bitmap is in the
buffer. -/
def gotBlock (g : Geometry) (s : State) (i b j : Nat) : Pass :=
  if s.blockBitmap b j then .again s
  else
    let s := s.setBlockBit b j true
    if g.block i j ≥ g.blocksCount then .fail s
    else
      .got
        { s with
          bgFreeBlocksCount :=
            update s.bgFreeBlocksCount i (s.bgFreeBlocksCount i - 1)
          freeBlocksCount := s.freeBlocksCount - 1 }
        (g.block i j)

/-- The search in the groups behind `i`. -/
def searchRest (g : Geometry) (s : State) (i : Nat) : Pass :=
  match nextGroup g.groupsCount s.bgFreeBlocksCount g.groupsCount i with
  | none => .fail s
  | some i =>
    match loadBlockBitmap g.groupsCount i s.blockCache with
    | none => .crash
    | some (c, nr) =>
      let s := { s with blockCache := c }
      match c.buf nr with
      | none => .crash
      | some b =>
        match searchGroup (s.blockBitmap b) g.blocksPerGroup with
        | none => .fail s
        | some j => gotBlock g s i b j

/-- One pass of `ext2_new_block`. -/
def newBlockPass (g : Geometry) (goal stray : Nat) (s : State) : Pass :=
  let off := (goal + 2 ^ 32 - g.firstDataBlock) % 2 ^ 32
  let i := off / g.blocksPerGroup
  if ¬ g.descLoaded i then .crash
  else if s.bgFreeBlocksCount i > 0 then
    match loadBlockBitmap g.groupsCount i s.blockCache with
    | none => .crash
    | some (c, nr) =>
      let s := { s with blockCache := c }
      match c.buf nr with
      | none => .fail s
      | some b =>
        match searchGoal (s.blockBitmap b) g.blocksPerGroup (off % g.blocksPerGroup) stray with
        | some j => gotBlock g s i b j
        | none => searchRest g s i
  else searchRest g s i

/-- The passes of a call; 0 is `NULL` or the block 0, and `none` is a crash or no end. -/
def passes (pass : State → Pass) : Nat → State → Option (State × Nat)
  | 0, _ => none
  | fuel + 1, s =>
    match pass s with
    | .crash => none
    | .fail s => some (s, 0)
    | .again s => passes pass fuel s
    | .got s x => some (s, x)

/-- `ext2_new_block`. -/
def newBlock (g : Geometry) (goal stray : Nat) (suser : Bool) (fuel : Nat) (s : State) :
    Option (State × Nat) :=
  if s.freeBlocksCount ≤ g.rBlocksCount ∧ ¬ suser then some (s, 0)
  else passes (newBlockPass g goal stray) fuel s

/-- `ext2_free_block`. -/
def freeBlock (g : Geometry) (block : Nat) (s : State) : Option State :=
  if block < g.firstDataBlock ∨ block ≥ g.blocksCount then some s
  else
    let i := (block - g.firstDataBlock) / g.blocksPerGroup
    let j := (block - g.firstDataBlock) % g.blocksPerGroup
    match loadBlockBitmap g.groupsCount i s.blockCache with
    | none => none
    | some (c, nr) =>
      let s := { s with blockCache := c }
      match c.buf nr with
      | none => none
      | some b =>
        let s :=
          if s.blockBitmap b j = false then s
          else
            { s.setBlockBit b j false with
              bgFreeBlocksCount :=
                update s.bgFreeBlocksCount i (s.bgFreeBlocksCount i + 1) }
        some { s with freeBlocksCount := s.freeBlocksCount + 1 }

/-! ## `ext2_new_inode` -/

/-- The group for a directory: the first one of those with the most free inodes. -/
def dirGroup (groups avefreei : Nat) (free : Nat → Nat) : Option Nat :=
  (List.range groups).foldl
    (fun best j =>
      if free j ≠ 0 ∧ free j ≥ avefreei then
        match best with
        | none => some j
        | some i => if free j > free i then some j else some i
      else best)
    none

/-- "Use a quadratic hash". -/
def quadratic (groups : Nat) (free : Nat → Nat) : Nat → Nat → Nat → Option Nat
  | 0, _, _ => none
  | fuel + 1, j, i =>
    if j < groups then
      let i := if i + j ≥ groups then i + j - groups else i + j
      if free i ≠ 0 then some i else quadratic groups free fuel (2 * j) i
    else none

/-- "try linear search": `n` more groups, the first one is behind `i`. -/
def linear (groups : Nat) (free : Nat → Nat) : Nat → Nat → Option Nat
  | 0, _ => none
  | n + 1, i =>
    let i := if i + 1 ≥ groups then 0 else i + 1
    if free i ≠ 0 then some i else linear groups free n i

/-- The group for another inode. -/
def fileGroup (groups parent : Nat) (free : Nat → Nat) : Option Nat :=
  if free parent ≠ 0 then some parent
  else
    match quadratic groups free groups 1 parent with
    | some i => some i
    | none => linear groups free (groups - 2) (parent + 2)

/-- `avefreei`, an `int`; where it is negative, no counter is less. -/
def avefreei (g : Geometry) (s : State) : Nat :=
  (BitVec.ofNat 32 (s.freeInodesCount / g.groupsCount)).toInt.toNat

/-- The group that the counters lead to. -/
def chosenGroup (g : Geometry) (parent : Nat) (isDir : Bool) (s : State) : Option Nat :=
  if isDir = true then dirGroup g.groupsCount (avefreei g s) s.bgFreeInodesCount
  else fileGroup g.groupsCount parent s.bgFreeInodesCount

/-- One pass of `ext2_new_inode`; `parent` is the group of the directory. -/
def newInodePass (g : Geometry) (parent : Nat) (isDir : Bool) (s : State) : Pass :=
  if ¬ isDir ∧ parent ≥ g.groupsCount then .crash
  else
    match chosenGroup g parent isDir s with
    | none => .fail s
    | some i =>
      match loadInodeBitmap g.groupsCount i s.inodeCache with
      | none => .crash
      | some (c, nr) =>
        let s := { s with inodeCache := c }
        match c.buf nr with
        | none => .crash
        | some b =>
          let j := findFirstZeroBit (s.inodeBitmap b) 0 g.inodesPerGroup
          if j < g.inodesPerGroup then
            if s.inodeBitmap b j then .again s
            else
              let s := s.setInodeBit b j true
              if g.ino i j > g.inodesCount then .fail s
              else
                .got
                  { s with
                    bgFreeInodesCount :=
                      update s.bgFreeInodesCount i (s.bgFreeInodesCount i - 1)
                    bgUsedDirsCount :=
                      if isDir then
                        update s.bgUsedDirsCount i (s.bgUsedDirsCount i + 1)
                      else s.bgUsedDirsCount
                    freeInodesCount := s.freeInodesCount - 1 }
                  (g.ino i j)
          else .again s

/-- `ext2_new_inode`; `empty` says that `get_empty_inode` has found an inode. -/
def newInode (g : Geometry) (parent : Nat) (isDir empty : Bool) (fuel : Nat) (s : State) :
    Option (State × Nat) :=
  if ¬ empty then some (s, 0) else passes (newInodePass g parent isDir) fuel s

/-- What `ext2_free_inode` uses of an inode; `dev` says that `i_dev` and `i_sb` are set. -/
structure Inode where
  dev : Bool
  count : Nat
  nlink : Nat
  ino : Nat
  isDir : Bool
  deriving DecidableEq

/-- The call comes to the bitmap. -/
def Inode.freeable (n : Inode) (g : Geometry) : Prop :=
  n.dev ∧ n.count ≤ 1 ∧ n.nlink = 0 ∧ 1 ≤ n.ino ∧ n.ino ≤ g.inodesCount

instance (n : Inode) (g : Geometry) : Decidable (n.freeable g) := inferInstanceAs (Decidable (_ ∧ _))

/-- `ext2_free_inode`. -/
def freeInode (g : Geometry) (n : Inode) (s : State) : Option State :=
  if ¬ n.freeable g then some s
  else
    let i := (n.ino - 1) / g.inodesPerGroup
    let j := (n.ino - 1) % g.inodesPerGroup
    match loadInodeBitmap g.groupsCount i s.inodeCache with
    | none => none
    | some (c, nr) =>
      let s := { s with inodeCache := c }
      match c.buf nr with
      | none => none
      | some b =>
        let s :=
          if s.inodeBitmap b j = false then s
          else
            { s.setInodeBit b j false with
              bgFreeInodesCount :=
                update s.bgFreeInodesCount i (s.bgFreeInodesCount i + 1)
              bgUsedDirsCount :=
                if n.isDir then update s.bgUsedDirsCount i (s.bgUsedDirsCount i - 1)
                else s.bgUsedDirsCount }
        some { s with freeInodesCount := s.freeInodesCount + 1 }

/-! ## Calls -/

inductive Call where
  | newBlock (goal stray : Nat) (suser : Bool) (fuel : Nat)
  | freeBlock (block : Nat)
  | newInode (parent : Nat) (isDir empty : Bool) (fuel : Nat)
  | freeInode (n : Inode)
  deriving DecidableEq

/-- One call, with what it returns; `none` if it does not return. -/
def stepOut (g : Geometry) (s : State) : Call → Option (State × Nat)
  | .newBlock goal stray suser fuel => newBlock g goal stray suser fuel s
  | .freeBlock block => (freeBlock g block s).map fun s => (s, 0)
  | .newInode parent isDir empty fuel => newInode g parent isDir empty fuel s
  | .freeInode n => (freeInode g n s).map fun s => (s, 0)

def step (g : Geometry) (s : State) (e : Call) : Option State := (stepOut g s e).map Prod.fst

end LinuxEvocation.Ext2
