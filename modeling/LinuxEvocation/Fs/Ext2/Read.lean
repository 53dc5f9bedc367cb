import LinuxEvocation.Errno
import LinuxEvocation.Fs.Ext2.Walk
import LinuxEvocation.Lib.Iteration

/-!
# `ext2_file_read`

A read asks for several blocks before it waits for the first one.  The buffers that it holds are in a
ring of `NBUF` cells, which one loop fills and another drains; the ring is full, and it is empty, when
the two pointers into it are the same.

* `File`, `Call`, `Order` — the blocks of the file and which of them cannot be read, the arguments, and
  which buffers are up to date or locked when the loops look at them.
* `ext2Getblk` — the walk to a block, which a read error on an indirect block ends.
* `step`, `ext2FileRead` — the loops.
* `File.byte`, `unread`, `Correct` — the bytes of the file, which blocks cannot be read, and what the
  call is for.
-/

namespace LinuxEvocation.Ext2.Read

open Walk (addrPerBlock ext2Bmap indices limit)

/-! ## The call -/

/-- `NBUF`. -/
def nbuf : Nat := 16

/-- The file.  `fails b n` says that block `n` cannot be read when block `b` of the file is wanted. -/
structure File where
  log : Nat
  map : BlockMap
  bytes : Nat → Nat → UInt8
  fails : Nat → Nat → Bool
  size : Nat
  size_lt : size < 2 ^ 31

/-- `s_blocksize`. -/
def File.blockSize (F : File) : Nat := 1024 * 2 ^ F.log

/-- `f_pos`, `count`, `f_reada` and the entry of `read_ahead`, in sectors. -/
structure Call where
  pos : Nat
  count : Int
  reada : Bool
  ahead : Nat

/-- What the loops find of the buffer of a block: whether it is up to date when it has been looked up,
and whether its read still goes on when the block before has been copied. -/
structure Order where
  uptodate : Nat → Bool
  locked : Nat → Bool

/-- A buffer, with the block of the file that it was looked up for. -/
structure Buffer where
  block : Nat
  nr : Nat
  deriving DecidableEq

/-- `inode_getblk` without `create`; 0 is `NULL`. -/
def inodeGetblk (F : File) (nr : Nat) : Nat := F.map.data nr

/-- `block_getblk` without `create`, on the way to block `b`. -/
def blockGetblk (F : File) (b bh nr : Nat) : Nat :=
  if bh = 0 then 0 else if F.fails b bh then 0 else F.map.table bh nr

/-- The number of the block that `ext2_getblk` looks up without `create`, or 0. -/
def getblkNr (F : File) (b : Nat) : Nat :=
  let a := addrPerBlock F.log
  if b > limit a then 0
  else if b < ndirBlocks then inodeGetblk F b
  else
    let block := b - ndirBlocks
    if block < a then
      let bh := inodeGetblk F ndirBlocks
      blockGetblk F b bh block
    else
      let block := block - a
      if block < a * a then
        let bh := inodeGetblk F (ndirBlocks + 1)
        let bh := blockGetblk F b bh (block / a)
        blockGetblk F b bh (block &&& (a - 1))
      else
        let block := block - a * a
        let bh := inodeGetblk F (ndirBlocks + 2)
        let bh := blockGetblk F b bh (block / (a * a))
        let bh := blockGetblk F b bh ((block / a) &&& (a - 1))
        blockGetblk F b bh (block &&& (a - 1))

/-- `ext2_getblk` without `create`. -/
def ext2Getblk (F : File) (b : Nat) : Option Buffer :=
  if getblkNr F b = 0 then none else some ⟨b, getblkNr F b⟩

/-- Which loop the call is in. -/
inductive Phase where
  | fill
  | drain
  | release
  deriving DecidableEq

/-- The variables: `buf` is what has been stored for the user, `got` the buffers that `ext2_getblk`
returned, `released` those passed to `brelse`. -/
structure State where
  phase : Phase
  uptodate : Bool
  blocks : Nat
  block : Nat
  buflist : Nat → Option Buffer
  bhb : Nat
  bhe : Nat
  left : Nat
  offset : Nat
  read : Nat
  pos : Nat
  buf : List UInt8
  got : List Buffer
  released : List Buffer

structure Result where
  ret : Int
  pos : Nat
  buf : List UInt8
  got : List Buffer
  released : List Buffer

/-- `++bhb`, around the ring. -/
def advance (i : Nat) : Nat := if i + 1 = nbuf then 0 else i + 1

/-- A turn of `while (blocks)`. -/
def fill (F : File) (o : Order) (s : State) : State :=
  let bh := ext2Getblk F s.block
  let uptodate := s.uptodate && bh.all fun _ => o.uptodate s.block
  let bhb := advance s.bhb
  { s with
    phase := if uptodate then .drain else if bhb = s.bhe then .drain else .fill
    uptodate := uptodate
    blocks := s.blocks - 1
    block := s.block + 1
    buflist := Function.update s.buflist s.bhb bh
    bhb := bhb
    got := s.got ++ bh.toList }

/-- The number of bytes that are taken from the block at `bhe`. -/
def chars (F : File) (s : State) : Nat :=
  if s.left < F.blockSize - s.offset then s.left else F.blockSize - s.offset

/-- The bytes of a block, or zeros for a hole. -/
def copied (F : File) (s : State) : List UInt8 :=
  match s.buflist s.bhe with
  | some bh => (List.range (chars F s)).map fun i => F.bytes bh.nr (s.offset + i)
  | none => List.replicate (chars F s) 0

/-- The rest of a turn of the inner loop, and which loop is next. -/
def copy (F : File) (o : Order) (s : State) : State :=
  let left := s.left - chars F s
  let bhe := advance s.bhe
  { s with
    phase :=
      if left > 0 ∧ bhe ≠ s.bhb ∧ (s.buflist bhe).all fun bh => !o.locked bh.block then .drain
      else if left > 0 then .fill
      else .release
    uptodate := true
    left := left
    offset := 0
    read := s.read + chars F s
    pos := s.pos + chars F s
    buf := s.buf ++ copied F s
    bhe := bhe
    released := s.released ++ (s.buflist s.bhe).toList }

/-- A turn of the inner loop: the block at `bhe` is waited for. -/
def drain (F : File) (o : Order) (s : State) : State :=
  if (s.buflist s.bhe).any fun bh => F.fails bh.block bh.nr then
    { s with phase := .release, left := 0 }
  else copy F o s

/-- A turn of the loop over the read-ahead blocks. -/
def release (s : State) : State :=
  { s with bhe := advance s.bhe, released := s.released ++ (s.buflist s.bhe).toList }

/-- One turn of the loop the call is in. -/
def step (F : File) (o : Order) (s : State) : State ⊕ Result :=
  match s.phase with
  | .fill => .inl (if s.blocks = 0 then { s with phase := .drain } else fill F o s)
  | .drain => .inl (drain F o s)
  | .release =>
    if s.bhe ≠ s.bhb then .inl (release s)
    else .inr {
      ret := if s.read = 0 then -Errno.eio else s.read
      pos := s.pos
      buf := s.buf
      got := s.got
      released := s.released }

/-- The bytes to read, at most 0 when there are none. -/
def left (F : File) (c : Call) : Int :=
  let left : Int := if c.pos > F.size then 0 else F.size - c.pos
  if left > c.count then c.count else left

/-- The number of blocks to ask for. -/
def blocks (F : File) (c : Call) : Nat :=
  let block := c.pos / F.blockSize
  let size := (F.size + F.blockSize - 1) / F.blockSize
  let blocks := ((left F c).toNat + c.pos % F.blockSize + F.blockSize - 1) / F.blockSize
  if c.reada then
    let blocks := blocks + c.ahead / 2 ^ (F.log + 1)
    if block + blocks > size then size - block else blocks
  else blocks

def start (F : File) (c : Call) : State where
  phase := .fill
  uptodate := true
  blocks := blocks F c
  block := c.pos / F.blockSize
  buflist := fun _ => none
  bhb := 0
  bhe := 0
  left := (left F c).toNat
  offset := c.pos % F.blockSize
  read := 0
  pos := c.pos
  buf := []
  got := []
  released := []

/-- `ext2_file_read` of a regular file or a directory, with at most `fuel` turns of its loops. -/
def ext2FileRead (F : File) (o : Order) (c : Call) (fuel : Nat) : Option Result :=
  if left F c ≤ 0 then some ⟨0, c.pos, [], [], []⟩
  else Iteration.iterate (step F o) fuel (start F c)

/-! ## What the call is for -/

/-- The device block of a block of the file, or 0. -/
def File.entry (F : File) (b : Nat) : Nat := (ext2Bmap (addrPerBlock F.log) F.map b).1

/-- A byte of the file. -/
def File.byte (F : File) (i : Nat) : UInt8 :=
  if F.entry (i / F.blockSize) = 0 then 0
  else F.bytes (F.entry (i / F.blockSize)) (i % F.blockSize)

/-- A block on the walk along the indices cannot be read. -/
def unreadAlong (F : File) (b : Nat) : Nat → List Nat → Bool
  | bh, [] => bh ≠ 0 && F.fails b bh
  | bh, i :: is => bh ≠ 0 && (F.fails b bh || unreadAlong F b (F.map.table bh i) is)

/-- One of the blocks that are read for block `b` of the file cannot be. -/
def unread (F : File) (b : Nat) : Bool :=
  unreadAlong F b (F.map.data (indices (addrPerBlock F.log) b).1)
    (indices (addrPerBlock F.log) b).2

/-- The number of bytes that there are to read. -/
def amount (F : File) (c : Call) : Nat := (min c.count (F.size - c.pos)).toNat

/-- Of `n` bytes, `len` are before the first bad one. -/
structure Served (bad : Nat → Bool) (n len : Nat) : Prop where
  le : len ≤ n
  good : ∀ i, i < len → bad i = false
  stop : len < n → bad len = true

/-- The bytes of the file up to the first block that cannot be read are returned, `f_pos` advances by
their number, and each buffer is released once. -/
def Correct (F : File) (c : Call) (r : Result) : Prop :=
  ∃ len, Served (fun i => unread F ((c.pos + i) / F.blockSize)) (amount F c) len ∧
    r.ret = (if amount F c = 0 then 0 else if len = 0 then -Errno.eio else len) ∧
    r.buf = (List.range len).map (fun i => F.byte (c.pos + i)) ∧
    r.pos = c.pos + len ∧
    r.released.Perm r.got

section Proofs

variable {F : File} {c : Call} {b : Nat} {bad : Nat → Bool} {n len len' : Nat}

/-- Only one number of bytes is before the first bad one. -/
theorem Served.unique (h : Served bad n len) (h' : Served bad n len') : len = len' := by
  have hle := h.le
  have hle' := h'.le
  rcases lt_trichotomy len len' with hlt | heq | hlt
  · have hbad := h.stop (by omega)
    rw [h'.good len hlt] at hbad
    contradiction
  · exact heq
  · have hbad := h'.stop (by omega)
    rw [h.good len' hlt] at hbad
    contradiction

theorem Served.exists (bad : Nat → Bool) (n : Nat) : ∃ len, Served bad n len := by
  induction n with
  | zero =>
    exact ⟨0, le_refl 0, fun i hi => absurd hi (Nat.not_lt_zero i), fun h => absurd h (lt_irrefl 0)⟩
  | succ n ih =>
    obtain ⟨len, hle, hgood, hstop⟩ := ih
    by_cases hlt : len < n
    · exact ⟨len, Nat.le_succ_of_le hle, hgood, fun _ => hstop hlt⟩
    · obtain rfl : len = n := by omega
      cases hbad : bad len with
      | true => exact ⟨len, Nat.le_succ len, hgood, fun _ => hbad⟩
      | false =>
        refine ⟨len + 1, le_refl _, ?_, fun h => absurd h (lt_irrefl _)⟩
        intro i hi
        rcases Nat.lt_succ_iff_lt_or_eq.mp hi with hi | rfl
        · exact hgood i hi
        · exact hbad

theorem blockSize_pos (F : File) : 0 < F.blockSize :=
  Nat.mul_pos (by decide) (Nat.two_pow_pos _)

/-- The call computes what there is to read. -/
theorem left_toNat (F : File) (c : Call) : (left F c).toNat = amount F c := by
  unfold left amount
  simp only []
  split_ifs <;> omega

theorem left_pos : ¬ left F c ≤ 0 ↔ 0 < amount F c := by
  rw [← left_toNat]
  omega

theorem amount_le (F : File) (c : Call) (h : 0 < amount F c) : c.pos + amount F c ≤ F.size := by
  unfold amount at h ⊢
  omega

/-! ## The walk to a block -/

/-- A walk that a read error ends. -/
def readAlong (F : File) (b : Nat) : Nat → List Nat → Nat
  | bh, [] => bh
  | bh, i :: is => readAlong F b (blockGetblk F b bh i) is

theorem readAlong_zero (F : File) (b : Nat) (is : List Nat) : readAlong F b 0 is = 0 := by
  induction is with
  | nil => rfl
  | cons i is ih => exact ih

/-- `ext2_getblk` goes along the indices of the block. -/
theorem getblkNr_eq (h : ¬ b > limit (addrPerBlock F.log)) :
    getblkNr F b = readAlong F b (F.map.data (indices (addrPerBlock F.log) b).1)
      (indices (addrPerBlock F.log) b).2 := by
  rw [getblkNr, if_neg h, indices]
  simp only []
  split_ifs <;> rfl

theorem readAlong_cases (F : File) (b bh : Nat) (used is : List Nat) :
    (readAlong F b bh is = (Walk.descend F.map (bh, used) is).1 ∧
      unreadAlong F b bh is = (readAlong F b bh is ≠ 0 && F.fails b (readAlong F b bh is))) ∨
    (readAlong F b bh is = 0 ∧ unreadAlong F b bh is = true) := by
  induction is generalizing bh used with
  | nil => exact .inl ⟨rfl, rfl⟩
  | cons i is ih =>
    rw [readAlong, unreadAlong, Walk.descend, blockGetblk]
    by_cases hbh : bh = 0
    · left
      rw [if_pos hbh, if_pos hbh, readAlong_zero]
      simp [hbh]
    · rw [if_neg hbh, if_neg hbh]
      cases hfails : F.fails b bh with
      | true =>
        right
        simp [hbh, readAlong_zero]
      | false =>
        rcases ih (F.map.table bh i) (used ++ [i]) with h | h
        · left
          simpa [hbh, Walk.blockBmap] using h
        · right
          simpa [hbh] using h

theorem block_lt {i : Nat} (F : File) (h : i < F.size) :
    i / F.blockSize < limit (addrPerBlock F.log) := by
  have hsize := F.size_lt
  have hblock : i / F.blockSize ≤ i / 1024 := by
    apply Nat.div_le_div_left _ (by decide)
    rw [File.blockSize]
    exact Nat.le_mul_of_pos_right _ (Nat.two_pow_pos _)
  have haddr : 256 ≤ addrPerBlock F.log := by
    rw [addrPerBlock]
    have := Nat.two_pow_pos F.log
    omega
  have hcube : 256 * 256 * 256 ≤ addrPerBlock F.log * addrPerBlock F.log * addrPerBlock F.log :=
    Nat.mul_le_mul (Nat.mul_le_mul haddr haddr) haddr
  rw [limit]
  omega

/-- **What `ext2_getblk` returns**: the buffer of the block, `NULL` for a hole, or `NULL` because an
indirect block cannot be read. -/
theorem ext2Getblk_cases (h : b < limit (addrPerBlock F.log)) :
    (∃ n, ext2Getblk F b = some ⟨b, n⟩ ∧ F.entry b = n ∧ n ≠ 0 ∧ unread F b = F.fails b n) ∨
    (ext2Getblk F b = none ∧ F.entry b = 0 ∧ unread F b = false) ∨
    (ext2Getblk F b = none ∧ unread F b = true) := by
  have hentry : F.entry b = (Walk.descend F.map (Walk.inodeBmap F.map
      (indices (addrPerBlock F.log) b).1) (indices (addrPerBlock F.log) b).2).1 := by
    rw [File.entry, Walk.bmap_eq (by omega) (by omega), Int.toNat_natCast]
  have hcases := readAlong_cases F b (F.map.data (indices (addrPerBlock F.log) b).1)
    [(indices (addrPerBlock F.log) b).1] (indices (addrPerBlock F.log) b).2
  rw [← getblkNr_eq (by omega)] at hcases
  rw [Walk.inodeBmap] at hentry
  rw [ext2Getblk, unread]
  rcases hcases with ⟨hnr, hunread⟩ | ⟨hnr, hunread⟩
  · by_cases hzero : getblkNr F b = 0
    · right; left
      rw [if_pos hzero, hunread, hentry, ← hnr]
      exact ⟨rfl, hzero, by simp [hzero]⟩
    · left
      refine ⟨getblkNr F b, if_neg hzero, by rw [hentry, hnr], hzero, ?_⟩
      rw [hunread]
      simp [hzero]
  · right; right
    exact ⟨if_pos hnr, hunread⟩

end Proofs

end LinuxEvocation.Ext2.Read
