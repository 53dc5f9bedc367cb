import LinuxEvocation.Fs.Ext2.Truncate

/-!
# The two walks to a block of a file

`ext2_bmap` and `ext2_getblk` go from the inode over indirect blocks to the pointer to a block.  Both
first compare the number of the block with that of the last one there can be, and `ext2_getblk` lets one
more pass.

* `addrPerBlock`, `limit` — the entries of an indirect block, and the number of blocks of a file.
* `ext2Bmap`, `ext2Getblk` — the walks: the block that is found, and the indices used on the way.
* `blockNumber` — the number of a block, from the indices of a walk to its end.
* `block_maps_exact` — the walks agree for every block but the one behind the last, and for this
  exactly when the file has no triple indirect block.
-/

namespace LinuxEvocation.Ext2.Walk

/-- `EXT2_ADDR_PER_BLOCK`, for blocks of `1024 << log` bytes. -/
def addrPerBlock (log : Nat) : Nat := 1024 * 2 ^ log / 4

/-- The number of blocks that a file can have. -/
def limit (a : Nat) : Nat := ndirBlocks + a + a * a + a * a * a

/-! ## The walks -/

/-- `inode_bmap`, and `inode_getblk` without `create`: the block, and the index. -/
def inodeBmap (s : BlockMap) (nr : Nat) : Nat × List Nat := (s.data nr, [nr])

/-- `block_bmap` of a buffer that has been read, with the indices used before. -/
def blockBmap (s : BlockMap) (bh : Nat) (used : List Nat) (nr : Nat) : Nat × List Nat :=
  (s.table bh nr, used ++ [nr])

/-- `ext2_bmap`, for tables of `a` entries. -/
def ext2Bmap (a : Nat) (s : BlockMap) (block : Int) : Nat × List Nat :=
  if block < 0 then (0, [])
  else if block ≥ limit a then (0, [])
  else
    let block := block.toNat
    if block < ndirBlocks then inodeBmap s block
    else
      let block := block - ndirBlocks
      if block < a then
        let (i, used) := inodeBmap s ndirBlocks
        if i = 0 then (0, used) else blockBmap s i used block
      else
        let block := block - a
        if block < a * a then
          let (i, used) := inodeBmap s (ndirBlocks + 1)
          if i = 0 then (0, used)
          else
            let (i, used) := blockBmap s i used (block / a)
            if i = 0 then (0, used) else blockBmap s i used (block &&& (a - 1))
        else
          let block := block - a * a
          let (i, used) := inodeBmap s (ndirBlocks + 2)
          if i = 0 then (0, used)
          else
            let (i, used) := blockBmap s i used (block / (a * a))
            if i = 0 then (0, used)
            else
              let (i, used) := blockBmap s i used ((block / a) &&& (a - 1))
              if i = 0 then (0, used) else blockBmap s i used (block &&& (a - 1))

/-- `block_getblk` without `create`; 0 is `NULL`. -/
def blockGetblk (s : BlockMap) (bh : Nat × List Nat) (nr : Nat) : Nat × List Nat :=
  if bh.1 = 0 then bh else (s.table bh.1 nr, bh.2 ++ [nr])

/-- `ext2_getblk` without `create`: the number of the block whose buffer is returned, or 0. -/
def ext2Getblk (a : Nat) (s : BlockMap) (block : Int) : Nat × List Nat :=
  if block < 0 then (0, [])
  else if block > limit a then (0, [])
  else
    let block := block.toNat
    if block < ndirBlocks then inodeBmap s block
    else
      let block := block - ndirBlocks
      if block < a then
        let bh := inodeBmap s ndirBlocks
        blockGetblk s bh block
      else
        let block := block - a
        if block < a * a then
          let bh := inodeBmap s (ndirBlocks + 1)
          let bh := blockGetblk s bh (block / a)
          blockGetblk s bh (block &&& (a - 1))
        else
          let block := block - a * a
          let bh := inodeBmap s (ndirBlocks + 2)
          let bh := blockGetblk s bh (block / (a * a))
          let bh := blockGetblk s bh ((block / a) &&& (a - 1))
          blockGetblk s bh (block &&& (a - 1))

theorem limit_lt {log : Nat} (hlog : log < 3) : limit (addrPerBlock log) < 2 ^ 31 := by
  have hcases : log = 0 ∨ log = 1 ∨ log = 2 := by omega
  rcases hcases with rfl | rfl | rfl <;> decide

theorem addrPerBlock_eq (log : Nat) : addrPerBlock log = 2 ^ (8 + log) := by
  rw [addrPerBlock, Nat.pow_add]
  omega

/-! ## Where a walk leads -/

/-- The pointer of the inode and the indices on the way to a block. -/
def indices (a b : Nat) : Nat × List Nat :=
  if b < ndirBlocks then (b, [])
  else if b - ndirBlocks < a then (ndirBlocks, [b - ndirBlocks])
  else if b - ndirBlocks - a < a * a then
    (ndirBlocks + 1, [(b - ndirBlocks - a) / a, (b - ndirBlocks - a) &&& (a - 1)])
  else
    (ndirBlocks + 2, [(b - ndirBlocks - a - a * a) / (a * a),
      ((b - ndirBlocks - a - a * a) / a) &&& (a - 1), (b - ndirBlocks - a - a * a) &&& (a - 1)])

/-- The walk along given indices, which ends at a pointer that is 0. -/
def descend (s : BlockMap) : Nat × List Nat → List Nat → Nat × List Nat
  | bh, [] => bh
  | bh, i :: is => if bh.1 = 0 then (0, bh.2) else descend s (blockBmap s bh.1 bh.2 i) is

/-- The number of the block at the end of a walk. -/
def blockNumber (a : Nat) : List Nat → Nat
  | [nr] => nr
  | [_, i] => ndirBlocks + i
  | [_, i, j] => ndirBlocks + a + (i * a + j)
  | [_, i, j, k] => ndirBlocks + a + a * a + (i * (a * a) + j * a + k)
  | _ => 0

/-- What holds of the walks to one block. -/
structure Agree (a : Nat) (s : BlockMap) (block : Int) : Prop where
  same : (ext2Getblk a s block).1 = (ext2Bmap a s block).1
  bmap_bound : ∀ i ∈ (ext2Bmap a s block).2.tail, i < a
  getblk_bound : ∀ i ∈ (ext2Getblk a s block).2.tail, i < a
  bmap_slot : ∀ block', (ext2Bmap a s block).1 ≠ 0 → (ext2Bmap a s block').1 ≠ 0 →
    (ext2Bmap a s block).2 = (ext2Bmap a s block').2 → block = block'
  getblk_slot : ∀ block', (ext2Getblk a s block).1 ≠ 0 → (ext2Getblk a s block').1 ≠ 0 →
    (ext2Getblk a s block).2 = (ext2Getblk a s block').2 → block = block'

section Proofs

variable {a j : Nat} {s : BlockMap} {bh : Nat × List Nat} {is : List Nat}

/-- A walk that comes to its end has used all indices. -/
theorem descend_used (h : (descend s bh is).1 ≠ 0) : (descend s bh is).2 = bh.2 ++ is := by
  induction is generalizing bh with
  | nil => exact (List.append_nil _).symm
  | cons i is ih =>
    rw [descend] at h ⊢
    split at h
    next => exact absurd rfl h
    next hbh =>
      rw [if_neg hbh, ih h, blockBmap, List.append_assoc]
      rfl

/-- No walk uses another index behind its first. -/
theorem descend_tail {i : Nat} (hne : bh.2 ≠ []) (h : i ∈ (descend s bh is).2.tail) :
    i ∈ bh.2.tail ∨ i ∈ is := by
  induction is generalizing bh with
  | nil => exact .inl h
  | cons k is ih =>
    rw [descend] at h
    split at h
    next => exact .inl h
    next =>
      have hmore : (blockBmap s bh.1 bh.2 k).2 ≠ [] := List.append_ne_nil_of_right_ne_nil _ (by simp)
      rcases ih hmore h with h | h
      · rw [blockBmap, List.tail_append_of_ne_nil hne] at h
        rcases List.mem_append.mp h with h | h
        · exact .inl h
        · exact .inr (List.mem_cons.mpr (.inl (List.mem_singleton.mp h)))
      · exact .inr (List.mem_cons_of_mem _ h)

/-- A walk from the inode uses the indices of the indirect blocks it was given. -/
theorem walk_tail {i nr : Nat} (h : i ∈ (descend s (inodeBmap s nr) is).2.tail) : i ∈ is := by
  rcases descend_tail (List.cons_ne_nil nr []) h with h | h
  · exact absurd h List.not_mem_nil
  · exact h

theorem blockGetblk_eq (s : BlockMap) (bh : Nat × List Nat) (nr : Nat) :
    blockGetblk s bh nr = descend s bh [nr] := by
  rw [blockGetblk, descend, descend, blockBmap]
  split
  next h => rw [← h]
  next => rfl

theorem descend_append (s : BlockMap) (bh : Nat × List Nat) (is ks : List Nat) :
    descend s (descend s bh is) ks = descend s bh (is ++ ks) := by
  induction is generalizing bh with
  | nil => rfl
  | cons i is ih =>
    rw [List.cons_append, descend, descend]
    split
    next =>
      cases ks with
      | nil => rfl
      | cons k ks => rw [descend, if_pos rfl]
    next => exact ih _

variable {block : Int}

/-- `ext2_getblk` goes along the indices of the block, up to and including the limit. -/
theorem getblk_eq (hneg : ¬ block < 0) (hle : ¬ block > limit a) :
    ext2Getblk a s block = descend s (inodeBmap s (indices a block.toNat).1)
      (indices a block.toNat).2 := by
  rw [ext2Getblk, if_neg hneg, if_neg hle, indices]
  simp only [blockGetblk_eq, descend_append, List.cons_append, List.nil_append]
  split_ifs <;> rfl

theorem bmap_eq (hneg : ¬ block < 0) (hlt : ¬ block ≥ limit a) :
    ext2Bmap a s block = descend s (inodeBmap s (indices a block.toNat).1)
      (indices a block.toNat).2 := by
  rw [ext2Bmap, if_neg hneg, if_neg hlt, indices]
  simp only []
  split_ifs <;> simp only [descend] <;> split_ifs <;> rfl

/-- Three indices lead back to what they were taken from. -/
theorem indices_three (m : Nat) : m / (a * a) * (a * a) + m / a % a * a + m % a = m := by
  have houter := Nat.div_add_mod (m / a) a
  have hinner := Nat.div_add_mod m a
  rw [Nat.div_div_eq_div_mul] at houter
  calc m / (a * a) * (a * a) + m / a % a * a + m % a
      = a * (a * (m / (a * a)) + m / a % a) + m % a := by ring
    _ = m := by rw [houter, hinner]

theorem blockNumber_indices (ha : a = 2 ^ j) (b : Nat) :
    blockNumber a ((indices a b).1 :: (indices a b).2) = b := by
  rw [indices]
  split_ifs with hdirect hind hdind
  · rfl
  · rw [blockNumber]
    omega
  · have hm := Nat.div_add_mod' (b - ndirBlocks - a) a
    rw [blockNumber, and_sub_one ha]
    omega
  · have hm := @indices_three a (b - ndirBlocks - a - a * a)
    rw [blockNumber, and_sub_one ha, and_sub_one ha]
    omega

/-- The indices of the blocks that a file can have. -/
theorem indices_lt (ha : a = 2 ^ j) {b : Nat} (hb : b < limit a) : ∀ i ∈ (indices a b).2, i < a := by
  have hpos : 0 < a := by
    rw [ha]
    exact Nat.two_pow_pos j
  rw [limit] at hb
  intro i hi
  rw [indices] at hi
  split_ifs at hi with hdirect hind hdind
  · exact absurd hi List.not_mem_nil
  · rw [List.mem_singleton.mp hi]
    exact hind
  · rw [and_sub_one ha] at hi
    rcases List.mem_cons.mp hi with rfl | hi
    · exact Nat.div_lt_of_lt_mul hdind
    · rw [List.mem_singleton.mp hi]
      exact Nat.mod_lt _ hpos
  · rw [and_sub_one ha, and_sub_one ha] at hi
    rcases List.mem_cons.mp hi with rfl | hi
    · apply Nat.div_lt_of_lt_mul
      omega
    · rcases List.mem_cons.mp hi with rfl | hi
      · exact Nat.mod_lt _ hpos
      · rw [List.mem_singleton.mp hi]
        exact Nat.mod_lt _ hpos

/-- The first index behind the last block is outside the triple indirect block. -/
theorem indices_limit (ha : a = 2 ^ j) : indices a (limit a) = (ndirBlocks + 2, [a, 0, 0]) := by
  have hpos : 0 < a := by
    rw [ha]
    exact Nat.two_pow_pos j
  have hrest : limit a - ndirBlocks - a - a * a = a * a * a := by
    rw [limit]
    omega
  have hsquare : 0 < a * a := Nat.mul_pos hpos hpos
  rw [indices, if_neg (by rw [limit]; omega), if_neg (by rw [limit]; omega),
    if_neg (by rw [limit]; omega), hrest, and_sub_one ha, and_sub_one ha,
    Nat.mul_div_cancel_left _ hsquare, Nat.mul_div_cancel _ hpos, Nat.mul_mod_left,
    Nat.mul_mod_left]

/-! ## The walks compared -/

/-- A walk of `ext2_getblk` to its end leads to the block. -/
theorem blockNumber_getblk (ha : a = 2 ^ j) (h : (ext2Getblk a s block).1 ≠ 0) :
    (blockNumber a (ext2Getblk a s block).2 : Int) = block := by
  by_cases hneg : block < 0
  · rw [ext2Getblk, if_pos hneg] at h
    exact absurd rfl h
  · by_cases hbig : block > limit a
    · rw [ext2Getblk, if_neg hneg, if_pos hbig] at h
      exact absurd rfl h
    · rw [getblk_eq hneg hbig] at h ⊢
      rw [descend_used h]
      refine (congrArg Nat.cast (blockNumber_indices ha block.toNat)).trans ?_
      omega

theorem blockNumber_bmap (ha : a = 2 ^ j) (h : (ext2Bmap a s block).1 ≠ 0) :
    (blockNumber a (ext2Bmap a s block).2 : Int) = block := by
  by_cases hneg : block < 0
  · rw [ext2Bmap, if_pos hneg] at h
    exact absurd rfl h
  · by_cases hbig : block ≥ limit a
    · rw [ext2Bmap, if_neg hneg, if_pos hbig] at h
      exact absurd rfl h
    · rw [bmap_eq hneg hbig] at h ⊢
      rw [descend_used h]
      refine (congrArg Nat.cast (blockNumber_indices ha block.toNat)).trans ?_
      omega

/-- `ext2_bmap` stays inside the indirect blocks. -/
theorem bmap_bound (ha : a = 2 ^ j) (block : Int) : ∀ i ∈ (ext2Bmap a s block).2.tail, i < a := by
  by_cases hneg : block < 0
  · rw [ext2Bmap, if_pos hneg]
    intro i hi
    exact absurd hi List.not_mem_nil
  · by_cases hbig : block ≥ limit a
    · rw [ext2Bmap, if_neg hneg, if_pos hbig]
      intro i hi
      exact absurd hi List.not_mem_nil
    · rw [bmap_eq hneg hbig]
      intro i hi
      apply indices_lt ha _ i (walk_tail hi)
      omega

theorem bmap_limit (a : Nat) (s : BlockMap) : ext2Bmap a s (limit a) = (0, []) := by
  rw [ext2Bmap, if_neg (Int.not_lt.mpr (Int.natCast_nonneg _)), if_pos (le_refl _)]

/-- `ext2_getblk` takes the entry behind the triple indirect block for it. -/
theorem getblk_limit (ha : a = 2 ^ j) (s : BlockMap) :
    ext2Getblk a s (limit a) = descend s (inodeBmap s (ndirBlocks + 2)) [a, 0, 0] := by
  rw [getblk_eq (Int.not_lt.mpr (Int.natCast_nonneg _)) (lt_irrefl _), Int.toNat_natCast,
    indices_limit ha]

theorem getblk_limit_bound (ha : a = 2 ^ j) (h : s.data (ndirBlocks + 2) ≠ 0) :
    a ∈ (ext2Getblk a s (limit a)).2.tail := by
  rw [getblk_limit ha, descend, inodeBmap, if_neg h, blockBmap, descend]
  split
  next => exact List.mem_singleton.mpr rfl
  next =>
    rw [blockBmap, descend]
    split
    next => exact List.mem_cons_self
    next => exact List.mem_cons_self

/-- But for the limit, the walks are the same. -/
theorem getblk_eq_bmap (h : block ≠ limit a) :
    ext2Getblk a s block = ext2Bmap a s block := by
  by_cases hneg : block < 0
  · rw [ext2Getblk, ext2Bmap, if_pos hneg, if_pos hneg]
  · by_cases hbig : block > limit a
    · rw [ext2Getblk, ext2Bmap, if_neg hneg, if_neg hneg, if_pos hbig, if_pos hbig.le]
    · have hlt : ¬ block ≥ limit a := fun hge => h (le_antisymm (not_lt.mp hbig) hge)
      rw [getblk_eq hneg hbig, bmap_eq hneg hlt]

/-- **Two blocks have slots of their own**, in each of the walks. -/
theorem slots_distinct {walk : Int → Nat × List Nat}
    (hnumber : ∀ {block}, (walk block).1 ≠ 0 → (blockNumber a (walk block).2 : Int) = block)
    {block' : Int} (h : (walk block).1 ≠ 0) (h' : (walk block').1 ≠ 0)
    (heq : (walk block).2 = (walk block').2) : block = block' := by
  rw [← hnumber h, ← hnumber h', heq]

end Proofs

/-- **The two block maps agree**, without an overflow, use only indices within an indirect block and
lead to a block of their own, for every block but the first behind the last, and for that exactly
when the file has no triple indirect block. -/
theorem block_maps_exact {log : Nat} (hlog : log < 3) (s : BlockMap) (block : Int) :
    limit (addrPerBlock log) < 2 ^ 31 ∧
      (Agree (addrPerBlock log) s block ↔
        block ≠ limit (addrPerBlock log) ∨ s.data (ndirBlocks + 2) = 0) := by
  have ha := addrPerBlock_eq log
  refine ⟨limit_lt hlog, ?_⟩
  constructor
  · intro hagree
    by_contra hno
    obtain ⟨hblock, hdata⟩ := not_or.mp hno
    have hin := getblk_limit_bound ha hdata
    rw [not_not] at hblock
    rw [← hblock] at hin
    exact absurd (hagree.getblk_bound _ hin) (lt_irrefl _)
  · intro h
    have hsame : (ext2Getblk (addrPerBlock log) s block).1 = (ext2Bmap (addrPerBlock log) s block).1
        ∧ ∀ i ∈ (ext2Getblk (addrPerBlock log) s block).2.tail, i < addrPerBlock log := by
      by_cases hblock : block = limit (addrPerBlock log)
      · -- the triple indirect block is missing, and both walks end at it
        have hdata : s.data (ndirBlocks + 2) = 0 := h.resolve_left (not_not.mpr hblock)
        rw [hblock, bmap_limit, getblk_limit ha, descend, inodeBmap, if_pos hdata]
        exact ⟨rfl, fun i hi => absurd hi List.not_mem_nil⟩
      · rw [getblk_eq_bmap hblock]
        exact ⟨rfl, bmap_bound ha block⟩
    exact {
      same := hsame.1
      bmap_bound := bmap_bound ha block
      getblk_bound := hsame.2
      bmap_slot := fun block' h h' => slots_distinct (blockNumber_bmap ha) h h'
      getblk_slot := fun block' h h' => slots_distinct (blockNumber_getblk ha) h h' }

/-- A file of 1024-byte blocks whose triple indirect block is block 7, with block 10 behind it. -/
def tripleFile : BlockMap where
  data := fun n => if n = ndirBlocks + 2 then 7 else 0
  table := fun b i =>
    if b = 7 ∧ i = 0 then 8 else if b = 8 ∧ i = 1 then 9 else if b = 9 ∧ i = 2 then 10 else 0
  iBlocks := 8
  freed := []
  retry := false

/-- Both find the block that is behind three tables. -/
theorem block_maps_triple : (ext2Bmap (addrPerBlock 0) tripleFile 66062).1 = 10 ∧
    Agree (addrPerBlock 0) tripleFile 66062 :=
  ⟨by decide, (block_maps_exact (by decide) tripleFile 66062).2.2 (.inl (by decide))⟩

/-- Behind the last block, `ext2_getblk` reads an entry that does not exist. -/
theorem block_maps_differ : ¬ Agree (addrPerBlock 0) tripleFile 16843020 := by
  intro hagree
  have hin : addrPerBlock 0 ∈
      (ext2Getblk (addrPerBlock 0) tripleFile (limit (addrPerBlock 0))).2.tail :=
    getblk_limit_bound (addrPerBlock_eq 0) (by decide)
  exact absurd (hagree.getblk_bound _ hin) (lt_irrefl _)

end LinuxEvocation.Ext2.Walk
