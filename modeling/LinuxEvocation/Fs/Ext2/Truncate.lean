import LinuxEvocation.Lib.TableTree

/-!
# `ext2_truncate`

The first twelve blocks of a file are in the inode.  The next three pointers of the inode are to an
indirect block, a block of indirect blocks and a block of these.  `ext2_truncate` frees what is from
the end of the file on: each of its functions computes, from the number of blocks that are kept, the
first entry of its table that has something to free, and frees the table itself when it has become
empty.  The pointer to a table that cannot be read is cleared, and nothing is freed.

* `BlockMap`, `Loc` — the pointers, where a pointer is, and the blocks freed so far.
* `bmap` — `ext2_bmap`.
* `truncDirect`, `truncIndirect`, `truncDindirect`, `truncTindirect`, `ext2Truncate` — the functions.
* `BlockMap.blocks` — the blocks of a file, its indirect blocks among them.
* `Reads` — the tables that are read for a tree can be read.
* `Cuts` — what one of the functions does to the tree below a pointer; `truncTable_cuts` — a function
  of one level, from that of the level below.
* `truncate_frees_tail` — when what is before the end of the file is kept, and every other block is
  freed once.
-/

namespace LinuxEvocation.Ext2

open Function (update update_of_ne update_self)
open TableTree

/-! ## The functions -/

/-- What the functions read and write: the pointers of the inode, the contents of the indirect
blocks, `i_blocks`, the blocks passed to `ext2_free_block`, and whether to try again. -/
structure BlockMap where
  data : Nat → Nat
  table : Nat → Nat → Nat
  iBlocks : BitVec 32
  freed : List Nat
  retry : Bool

/-- Where a pointer is: in the inode, or in an indirect block. -/
inductive Loc where
  | data (nr : Nat)
  | entry (b i : Nat)
  deriving DecidableEq

namespace BlockMap

def get (s : BlockMap) : Loc → Nat
  | .data nr => s.data nr
  | .entry b i => s.table b i

def set (s : BlockMap) (p : Loc) (x : Nat) : BlockMap :=
  match p with
  | .data nr => { s with data := update s.data nr x }
  | .entry b i =>
    { s with table := update s.table b (update (s.table b) i x) }

end BlockMap

/-- `EXT2_NDIR_BLOCKS`, which is also `EXT2_IND_BLOCK`. -/
def ndirBlocks : Nat := 12

/-- What stays as it is while a file is truncated: `s_log_block_size` and `i_size`; `busy` says of a
block that another task holds its buffer, `bad` that `bread` fails. -/
structure Trunc where
  log : Nat
  iSize : BitVec 32
  busy : Nat → Bool
  bad : Nat → Bool

namespace Trunc

variable (g : Trunc)

def blocksize : Nat := 1024 * 2 ^ g.log

/-- `EXT2_ADDR_PER_BLOCK`. -/
def addrPerBlock : Nat := g.blocksize / 4

/-- What a block counts in `i_blocks`. -/
def blocks : Nat := g.blocksize / 512

/-- How many blocks are before the end of the file. -/
def fileBlocks : Nat := (g.iSize.toNat + g.blocksize - 1) / g.blocksize

/-- `DIRECT_BLOCK`: how many blocks are kept.  The sum has 32 bits. -/
def directBlock : Nat := (g.iSize.toNat + g.blocksize - 1) % 2 ^ 32 / g.blocksize

/-- The pointer is cleared, and the block is freed. -/
def release (p : Loc) (s : BlockMap) : BlockMap :=
  { s.set p 0 with
    iBlocks := s.iBlocks - BitVec.ofNat 32 g.blocks
    freed := s.freed ++ [s.get p] }

/-- A block of data. -/
def truncData (p : Loc) (s : BlockMap) : BlockMap :=
  if s.get p = 0 then s
  else if g.busy (s.get p) then { s with retry := true }
  else g.release p s

end Trunc

/-- A loop from `start` on. -/
def forFrom {σ : Type} (start stop : Nat) (body : Nat → σ → σ) (s : σ) : σ :=
  (List.range' start (stop - start)).foldl (fun s i => body i s) s

namespace Trunc

variable (g : Trunc)

/-- `trunc_direct`. -/
def truncDirect (s : BlockMap) : BlockMap :=
  forFrom g.directBlock ndirBlocks (fun i => g.truncData (.data i)) s

/-- A table, from the entry `start` on, which may be negative; `body` is for one entry. -/
def truncTable (start : Int) (body : Nat → Loc → BlockMap → BlockMap) (p : Loc) (s : BlockMap) :
    BlockMap :=
  let tmp := s.get p
  if tmp = 0 then s
  else if g.bad tmp then s.set p 0
  else
    let s := forFrom start.toNat g.addrPerBlock (fun i => body i (.entry tmp i)) s
    if ∀ i < g.addrPerBlock, s.table tmp i = 0 then
      if g.busy tmp then { s with retry := true } else g.release p s
    else s

/-- `trunc_indirect`. -/
def truncIndirect (offset : Nat) (p : Loc) (s : BlockMap) : BlockMap :=
  g.truncTable (g.directBlock - offset : Int) (fun _ => g.truncData) p s

/-- `trunc_dindirect`.  The division is towards 0. -/
def truncDindirect (offset : Nat) (p : Loc) (s : BlockMap) : BlockMap :=
  g.truncTable ((g.directBlock - offset : Int).tdiv g.addrPerBlock)
    (fun i q s =>
      if s.get q = 0 then s else g.truncIndirect (offset + i * g.addrPerBlock) q s)
    p s

/-- `trunc_tindirect`. -/
def truncTindirect (s : BlockMap) : BlockMap :=
  g.truncTable
    ((g.directBlock -
      (g.addrPerBlock * g.addrPerBlock + g.addrPerBlock + ndirBlocks : Nat) : Int).tdiv
        (g.addrPerBlock * g.addrPerBlock : Nat))
    (fun i =>
      g.truncDindirect
        (ndirBlocks + g.addrPerBlock + (i + 1) * g.addrPerBlock * g.addrPerBlock))
    (.data (ndirBlocks + 2)) s

/-- The body of the loop of `ext2_truncate`. -/
def pass (s : BlockMap) : BlockMap :=
  g.truncTindirect
    (g.truncDindirect (ndirBlocks + g.addrPerBlock) (.data (ndirBlocks + 1))
      (g.truncIndirect ndirBlocks (.data ndirBlocks)
        (g.truncDirect { s with retry := false })))

end Trunc

/-- The kind of a file, as far as `ext2_truncate` asks. -/
inductive FileKind where
  | regular
  | directory
  | link
  | other
  deriving DecidableEq

/-- `ext2_truncate`, with as many passes as there are circumstances given. -/
def ext2Truncate (kind : FileKind) : List Trunc → BlockMap → Option BlockMap
  | [], s => if kind = .other then some s else none
  | g :: gs, s =>
    if kind = .other then some s
    else
      let s := g.pass s
      if s.retry then ext2Truncate kind gs s else some s

/-- `block_bmap` of the buffer that `bread` returns, which is `NULL` for a bad block. -/
def BlockMap.entry (bad : Nat → Bool) (s : BlockMap) (i nr : Nat) : Nat :=
  if i = 0 ∨ bad i = true then 0 else s.table i nr

/-- `ext2_bmap`, for tables of `a` entries. -/
def bmap (a : Nat) (bad : Nat → Bool) (s : BlockMap) (block : Int) : Nat :=
  if block < 0 then 0
  else if block ≥ (ndirBlocks + a + a * a + a * a * a : Nat) then 0
  else
    let block := block.toNat
    if block < ndirBlocks then s.data block
    else
      let block := block - ndirBlocks
      if block < a then s.entry bad (s.data ndirBlocks) block
      else
        let block := block - a
        if block < a * a then
          let i := s.entry bad (s.data (ndirBlocks + 1)) (block / a)
          s.entry bad i (block &&& (a - 1))
        else
          let block := block - a * a
          let i := s.entry bad (s.data (ndirBlocks + 2)) (block / (a * a))
          let i := s.entry bad i ((block / a) &&& (a - 1))
          s.entry bad i (block &&& (a - 1))

/-! ## Rows of pointers -/

/-- The levels of the pointers of an inode. -/
def level (nr : Nat) : Nat := nr - (ndirBlocks - 1)

theorem level_of_lt {nr : Nat} (h : nr < ndirBlocks) : level nr = 0 := by
  unfold level ndirBlocks at *
  omega

/-- **The blocks of a file**, its indirect blocks among them. -/
def BlockMap.blocks (a : Nat) (s : BlockMap) : Multiset Nat :=
  rowNodes a s.table (ndirBlocks + 3) level s.data

/-- A row of pointers: those of the inode, or those of a table. -/
inductive Row where
  | inode
  | table (x : Nat)

namespace Row

def slot : Row → Nat → Loc
  | .inode, i => .data i
  | .table x, i => .entry x i

/-- The table that the row is in. -/
def apart : Row → Nat → Prop
  | .inode, _ => False
  | .table x, y => y = x

def pointers : Row → BlockMap → Nat → Nat
  | .inode, s => s.data
  | .table x, s => s.table x

/-- What a change of the row leaves alone. -/
def Keeps : Row → BlockMap → BlockMap → Prop
  | .inode, _, _ => True
  | .table _, s, s' => s'.data = s.data

end Row

/-- Some blocks have been freed, and the tables are `t'`. -/
def BlockMap.after (g : Trunc) (s : BlockMap) (t' : Nat → Nat → Nat) (l : List Nat) : BlockMap :=
  { s with
    table := t'
    iBlocks := s.iBlocks - BitVec.ofNat 32 (l.length * g.blocks)
    freed := s.freed ++ l }

section Rows

variable {g : Trunc} {s s' : BlockMap} {R : Row} {i y : Nat} {p : Loc}

theorem BlockMap.after_nil (g : Trunc) (s : BlockMap) : s.after g s.table [] = s := by
  simp [BlockMap.after]

theorem BlockMap.set_get (s : BlockMap) (p : Loc) : s.set p (s.get p) = s := by
  cases p with
  | data nr | entry b i => simp [BlockMap.set, BlockMap.get]

theorem Row.get_slot (R : Row) (s : BlockMap) (i : Nat) : s.get (R.slot i) = R.pointers s i := by
  cases R <;> rfl

theorem Row.table_set {z : Nat} (hz : ¬ R.apart z) : (s.set (R.slot i) y).table z = s.table z := by
  cases R with
  | inode => rfl
  | table x => exact update_of_ne hz _ _

theorem Row.pointers_set : R.pointers (s.set (R.slot i) y) = update (R.pointers s) i y := by
  cases R with
  | inode => rfl
  | table x => exact update_self x _ _

theorem Row.pointers_after {t' : Nat → Nat → Nat} {l : List Nat}
    (h : ∀ z, R.apart z → t' z = s.table z) :
    R.pointers (s.after g t' l) = R.pointers s := by
  cases R with
  | inode => rfl
  | table x => exact h x rfl

theorem Row.keeps_set (h : R.Keeps s s') {t' : Nat → Nat → Nat} {l : List Nat} :
    R.Keeps s ((s'.after g t' l).set (R.slot i) y) := by
  cases R with
  | inode => trivial
  | table x => exact h

@[simp]
theorem BlockMap.set_freed : (s.set p y).freed = s.freed := by cases p <;> rfl

@[simp]
theorem BlockMap.set_iBlocks : (s.set p y).iBlocks = s.iBlocks := by cases p <;> rfl

@[simp]
theorem BlockMap.set_retry : (s.set p y).retry = s.retry := by cases p <;> rfl

end Rows

/-! ## What the functions do -/

/-- The pointer is not in the tree below it. -/
def Loc.Outside (a k : Nat) (s : BlockMap) : Loc → Prop
  | .data _ => True
  | .entry b i => b ∉ nodes a s.table k (s.table b i)

/-- **The tables that are read can be read**, below the entry `x` of the level `k` that is cut at `c`. -/
def Trunc.Reads (g : Trunc) (t : Nat → Nat → Nat) : Nat → Int → Nat → Prop
  | 0, _, _ => True
  | k + 1, c, x => x = 0 ∨ g.bad x = false ∧
      ∀ i < g.addrPerBlock, (c.tdiv (g.addrPerBlock ^ k : Nat)).toNat ≤ i →
        Trunc.Reads g t k (c - (i * g.addrPerBlock ^ k : Nat)) (t x i)

theorem Trunc.reads_congr {g : Trunc} {t t' : Nat → Nat → Nat} {k x : Nat} {c : Int}
    (h : ∀ y ∈ nodes g.addrPerBlock t k x, t' y = t y) : g.Reads t' k c x ↔ g.Reads t k c x := by
  induction k generalizing x c with
  | zero => rfl
  | succ k ih =>
    by_cases hx : x = 0
    · exact iff_of_true (.inl hx) (.inl hx)
    · rw [nodes, if_neg hx] at h
      rw [Trunc.Reads, Trunc.Reads, h x (Multiset.mem_cons_self x _)]
      refine or_congr_right (and_congr_right fun _ => forall₃_congr fun i hi _ => ih fun y hy => ?_)
      exact h y (Multiset.mem_cons_of_mem (Multiset.mem_sum.2 ⟨i, Finset.mem_range.2 hi, hy⟩))

/-- **The function cuts the tree** below the pointer, which is of the level `k`, at the index `c`.  Of
the blocks that leave it some may be lost: where a table cannot be read. -/
def Cuts (g : Trunc) (k : Nat) (c : Int) (p : Loc) (f : BlockMap → BlockMap) : Prop :=
  ∀ s : BlockMap, p.Outside g.addrPerBlock k s → (nodes g.addrPerBlock s.table k (s.get p)).Nodup →
    ∃ t' y, ∃ (l : List Nat) (lost : Multiset Nat), f s = (s.after g t' l).set p y ∧
      Cut g.addrPerBlock g.bad k c s.table (s.get p) t' y (l + lost) ∧
      (lost = 0 ↔ g.Reads s.table k c (s.get p))

/-- How far a row has been cut: an entry at its index `c`, or not yet. -/
def Progress (g : Trunc) (R : Row) (size : Nat) (lev : Nat → Nat) (c : Nat → Option Int)
    (s₀ s : BlockMap) : Prop :=
  ∃ (l : List Nat) (lost : Multiset Nat), s.freed = s₀.freed ++ l ∧
    s.iBlocks = s₀.iBlocks - BitVec.ofNat 32 (l.length * g.blocks) ∧ s.retry = s₀.retry ∧
    R.Keeps s₀ s ∧ RowCut g.addrPerBlock g.bad size R.apart lev
      (fun i => (c i).getD (g.addrPerBlock ^ lev i : Nat)) s₀.table (R.pointers s₀) s.table
      (R.pointers s) (l + lost) ∧
    (lost = 0 ↔ ∀ i < size, ∀ ci ∈ c i, g.Reads s₀.table (lev i) ci (R.pointers s₀ i)) ∧
    ∀ i < size, c i = none → R.pointers s i = R.pointers s₀ i ∧
      ∀ y ∈ nodes g.addrPerBlock s₀.table (lev i) (R.pointers s₀ i), s.table y = s₀.table y

/-- The trees of a row are well formed, and the row is not in them. -/
structure RowOk (g : Trunc) (R : Row) (size : Nat) (lev : Nat → Nat) (s : BlockMap) : Prop where
  nodup : (rowNodes g.addrPerBlock s.table size lev (R.pointers s)).Nodup
  apart : ∀ y ∈ rowNodes g.addrPerBlock s.table size lev (R.pointers s), ¬ R.apart y

section Progress

variable {g : Trunc} {R : Row} {size : Nat} {lev : Nat → Nat} {c : Nat → Option Int}
  {s₀ s : BlockMap}

theorem Progress.refl (g : Trunc) (R : Row) (size : Nat) (lev : Nat → Nat) (s : BlockMap) :
    Progress g R size lev (fun _ => none) s s := by
  refine ⟨[], 0, by simp, by simp, rfl, ?_, RowCut.refl fun _ _ => le_rfl, ?_,
    fun _ _ _ => ⟨rfl, fun _ _ => rfl⟩⟩
  · cases R with
    | inode => trivial
    | table x => exact rfl
  · exact iff_of_true rfl fun _ _ _ hc => by cases hc

theorem BitVec.sub_ofNat_add (x : BitVec 32) (m n : Nat) :
    x - BitVec.ofNat 32 m - BitVec.ofNat 32 n = x - BitVec.ofNat 32 (m + n) := by
  rw [BitVec.ofNat_add, BitVec.sub_sub]

/-- **One more pointer of the row.** -/
theorem Progress.step (h : Progress g R size lev c s₀ s) (hok : RowOk g R size lev s₀) {i : Nat}
    (hi : i < size) (hnone : c i = none) {ci : Int} {f : BlockMap → BlockMap}
    (hf : Cuts g (lev i) ci (R.slot i) f) :
    Progress g R size lev (update c i (some ci)) s₀ (f s) := by
  obtain ⟨l, lost, hfreed, hblocks, hretry, hkeeps, hcut, hlost, hrest⟩ := h
  -- the tree has not changed yet
  obtain ⟨hpointer, htable⟩ := hrest i hi hnone
  have hnodes : nodes g.addrPerBlock s.table (lev i) (R.pointers s i) =
      nodes g.addrPerBlock s₀.table (lev i) (R.pointers s₀ i) := by
    rw [hpointer, nodes_congr htable]
  have hapart : ∀ j < size, ∀ y ∈ nodes g.addrPerBlock s₀.table (lev j) (R.pointers s₀ j),
      ¬ R.apart y :=
    fun j hj y hy => hok.apart y (Multiset.mem_of_le (nodes_le_rowNodes hj) hy)
  have hout : (R.slot i).Outside g.addrPerBlock (lev i) s := by
    cases R with
    | inode => trivial
    | table x =>
      intro hmem
      exact hapart i hi x (by rw [← hnodes]; exact hmem) rfl
  obtain ⟨t', y, l', lost', heq, hcut', hlost'⟩ := hf s hout (by
    rw [R.get_slot, hnodes]
    exact Multiset.nodup_of_le (nodes_le_rowNodes hi) hok.nodup)
  rw [R.get_slot] at hcut' hlost'
  rw [hpointer, Trunc.reads_congr htable] at hlost'
  -- the table that the row is in has not changed in its other entries
  have hsame : ∀ z, R.apart z → t' z = s.table z := by
    intro z hz
    refine hcut'.frame z fun hmem => hapart i hi z ?_ hz
    rw [← hnodes]
    exact hmem
  have hrow : R.pointers (f s) = update (R.pointers s) i y := by
    rw [heq, Row.pointers_set, Row.pointers_after hsame]
  have hset : ∀ z, ¬ R.apart z → (f s).table z = t' z := by
    intro z hz
    rw [heq, Row.table_set hz]
    rfl
  have hindex : (fun k => (update c i (some ci) k).getD (g.addrPerBlock ^ lev k : Nat)) =
      update (fun k => (c k).getD (g.addrPerBlock ^ lev k : Nat)) i ci := by
    funext k
    by_cases hk : k = i
    · rw [hk, update_self, update_self, Option.getD_some]
    · rw [update_of_ne hk, update_of_ne hk]
  refine ⟨l ++ l', lost + lost', ?_, ?_, ?_, ?_, ?_, ?_, fun k hk hck => ?_⟩
  · simp [heq, BlockMap.after, hfreed]
  · rw [heq, BlockMap.set_iBlocks, BlockMap.after, hblocks, BitVec.sub_ofNat_add,
      List.length_append, Nat.add_mul]
  · simp [heq, BlockMap.after, hretry]
  · rw [heq]
    exact Row.keeps_set hkeeps
  · rw [hrow, hindex, ← Multiset.coe_add, add_add_add_comm]
    exact hcut.step hok.nodup hok.apart hi (by rw [hnone]; exact le_rfl) hcut' hset
  · rw [add_eq_zero, hlost, hlost', and_comm, Function.forall_update_iff c fun k o =>
      k < size → ∀ ck ∈ o, g.Reads s₀.table (lev k) ck (R.pointers s₀ k)]
    refine and_congr ⟨fun h _ ck hck => Option.some.inj hck ▸ h, fun h => h hi ci rfl⟩
      ⟨fun h k _ => h k, fun h k hk ck hck => h k ?_ hk ck hck⟩
    rintro rfl
    rw [hnone] at hck
    cases hck
  · have hki : k ≠ i := by
      rintro rfl
      rw [update_self] at hck
      cases hck
    rw [update_of_ne hki] at hck
    obtain ⟨hpk, htk⟩ := hrest k hk hck
    refine ⟨by rw [hrow, update_of_ne hki, hpk], fun z hz => ?_⟩
    rw [hset z (hapart k hk z hz), hcut'.frame z, htk z hz]
    rw [hnodes]
    exact rowNodes_disjoint hok.nodup hk hi hki hz

/-- **The loop over the pointers of a row.** -/
theorem Progress.loop (hok : RowOk g R size lev s) {start stop : Nat} (hstop : stop ≤ size)
    (c' : Nat → Int) (body : Nat → BlockMap → BlockMap)
    (hbody : ∀ i, start ≤ i → i < stop → Cuts g (lev i) (c' i) (R.slot i) (body i)) :
    Progress g R size lev (fun i => if start ≤ i ∧ i < stop then some (c' i) else none) s
      (forFrom start stop body s) := by
  suffices hprefix : ∀ m ≤ stop - start,
      Progress g R size lev (fun i => if start ≤ i ∧ i < start + m then some (c' i) else none) s
        ((List.range' start m).foldl (fun s i => body i s) s) by
    have hall := hprefix (stop - start) le_rfl
    have hcongr : (fun i => if start ≤ i ∧ i < start + (stop - start) then some (c' i) else none) =
        fun i => if start ≤ i ∧ i < stop then some (c' i) else none := by
      funext i
      have hiff : start ≤ i ∧ i < start + (stop - start) ↔ start ≤ i ∧ i < stop := by omega
      simp only [hiff]
    rw [hcongr] at hall
    exact hall
  intro m hm
  induction m with
  | zero =>
    have hcongr : (fun i => if start ≤ i ∧ i < start + 0 then some (c' i) else none) =
        fun _ => none := by
      funext i
      rw [if_neg (by omega)]
    rw [hcongr]
    exact .refl g R size lev s
  | succ m ih =>
    rw [List.range'_concat, List.foldl_append, Nat.one_mul]
    have hnext := (ih (by omega)).step hok (i := start + m) (by omega) (if_neg (by omega))
      (hbody (start + m) (by omega) (by omega))
    have hcongr : update (fun i => if start ≤ i ∧ i < start + m then some (c' i) else none)
        (start + m) (some (c' (start + m))) =
        fun i => if start ≤ i ∧ i < start + (m + 1) then some (c' i) else none := by
      funext i
      by_cases hi : i = start + m
      · subst hi
        rw [update_self, if_pos (by omega)]
      · rw [update_of_ne hi]
        have hiff : start ≤ i ∧ i < start + (m + 1) ↔ start ≤ i ∧ i < start + m := by omega
        simp only [hiff]
    rw [hcongr] at hnext
    exact hnext

end Progress

/-- The entries before the first one have nothing to free. -/
theorem start_le {c : Int} {p i : Nat} (hi : i < (c.tdiv p).toNat) :
    (p : Int) ≤ c - (i * p : Nat) := by
  rcases lt_or_ge c 0 with hneg | hpos
  · have : c.tdiv p ≤ 0 := by
      rw [show c = -(-c) by omega, Int.neg_tdiv]
      have := Int.tdiv_nonneg (by omega : 0 ≤ -c) (Int.natCast_nonneg p)
      omega
    omega
  · have hle : c.tdiv p * p ≤ c := by
      rw [Int.tdiv_eq_ediv_of_nonneg hpos]
      rcases Nat.eq_zero_or_pos p with rfl | hp
      · simpa using hpos
      · exact Int.ediv_mul_le c (by omega)
    have hmul : ((i + 1 : Nat) : Int) * p ≤ c.tdiv p * p :=
      Int.mul_le_mul_of_nonneg_right (by omega) (Int.natCast_nonneg p)
    push_cast at hmul ⊢
    rw [Int.add_mul, Int.one_mul] at hmul
    omega

/-- The loop over the entries of a table. -/
theorem Progress.table {g : Trunc} {k x : Nat} {c : Int} {s s' : BlockMap}
    (h : Progress g (.table x) g.addrPerBlock (fun _ => k)
      (fun i => if (c.tdiv (g.addrPerBlock ^ k : Nat)).toNat ≤ i ∧ i < g.addrPerBlock then
        some (c - (i * g.addrPerBlock ^ k : Nat)) else none) s s') (hzero : x ≠ 0)
    (hbad : g.bad x = false) :
    ∃ (l : List Nat) (lost : Multiset Nat), s' = s.after g s'.table l ∧
      RowCut g.addrPerBlock g.bad g.addrPerBlock (· = x) (fun _ => k)
        (fun i => c - (i * g.addrPerBlock ^ k : Nat)) s.table (s.table x) s'.table (s'.table x)
        (l + lost) ∧ (lost = 0 ↔ g.Reads s.table (k + 1) c x) := by
  obtain ⟨l, lost, hfreed, hblocks, hretry, hdata, hcut, hlost, -⟩ := h
  refine ⟨l, lost, ?_, hcut.congr fun i hi m hm => ?_, ?_⟩
  · have hdata' : s'.data = s.data := hdata
    cases hs : s' with
    | mk data table iBlocks freed retry =>
      rw [hs] at hfreed hblocks hretry hdata'
      simp only at hfreed hblocks hretry hdata'
      simp [BlockMap.after, hfreed, hblocks, hretry, hdata']
  · dsimp only
    by_cases hstart : (c.tdiv (g.addrPerBlock ^ k : Nat)).toNat ≤ i
    · rw [if_pos ⟨hstart, hi⟩, Option.getD_some]
    · rw [if_neg (fun h => hstart h.1), Option.getD_none]
      have := start_le (not_le.1 hstart)
      omega
  · rw [hlost, Trunc.Reads, or_iff_right hzero, and_iff_right hbad]
    refine forall₂_congr fun i hi => ⟨fun h hstart => h _ (if_pos ⟨hstart, hi⟩), fun h ci hci => ?_⟩
    obtain ⟨⟨hstart, -⟩, hci⟩ := Option.ite_none_right_eq_some.1 hci
    rw [← Option.some.inj hci]
    exact h hstart

section Functions

variable {g : Trunc} (hidle : ∀ x, g.busy x = false)
include hidle

theorem truncData_cuts {c : Int} (hc : c ≤ 0) (p : Loc) : Cuts g 0 c p (g.truncData p) := by
  intro s _ _
  unfold Trunc.truncData
  by_cases hzero : s.get p = 0
  · refine ⟨s.table, 0, [], 0, ?_, ?_, iff_of_true rfl trivial⟩
    · rw [if_pos hzero, BlockMap.after_nil, ← hzero, BlockMap.set_get]
    · rw [hzero]
      exact Cut.nil
  · rw [if_neg hzero, hidle, if_neg (by simp)]
    refine ⟨s.table, 0, [s.get p], 0, ?_, ?_, iff_of_true rfl trivial⟩
    · unfold Trunc.release BlockMap.after
      cases p with
      | data nr => simp [BlockMap.set]
      | entry b i => simp [BlockMap.set]
    · rw [add_zero]
      exact Cut.leaf hzero hc

/-- **A table**, from what is done with its entries. -/
theorem truncTable_cuts {k : Nat} {c : Int} (body : Nat → Loc → BlockMap → BlockMap)
    (hbody : ∀ x i, (c.tdiv (g.addrPerBlock ^ k : Nat)).toNat ≤ i → i < g.addrPerBlock →
      Cuts g k (c - (i * g.addrPerBlock ^ k : Nat)) (.entry x i) (body i (.entry x i))) (p : Loc) :
    Cuts g (k + 1) c p (g.truncTable (c.tdiv (g.addrPerBlock ^ k : Nat)) body p) := by
  intro s hout hnodup
  unfold Trunc.truncTable
  dsimp only
  set x := s.get p with hx
  by_cases hzero : x = 0
  · rw [if_pos hzero]
    refine ⟨s.table, 0, [], 0, ?_, ?_, iff_of_true rfl (.inl hzero)⟩
    · rw [BlockMap.after_nil, ← hzero, hx, BlockMap.set_get]
    · rw [hzero]
      exact Cut.nil
  rw [if_neg hzero]
  cases hbad : g.bad x with
  | true =>
    rw [if_pos rfl]
    refine ⟨s.table, 0, [], nodes g.addrPerBlock s.table (k + 1) x, by rw [BlockMap.after_nil], ?_,
      iff_of_false ?_ ?_⟩
    · rw [Multiset.coe_nil, zero_add]
      exact Cut.lost hbad
    · rw [nodes, if_neg hzero]
      exact Multiset.cons_ne_zero
    · rintro (h0 | ⟨hgood, -⟩)
      · exact hzero h0
      · rw [hbad] at hgood
        cases hgood
  | false =>
  rw [if_neg (by decide)]
  rw [nodes, if_neg hzero, Multiset.nodup_cons] at hnodup
  have hok : RowOk g (.table x) g.addrPerBlock (fun _ => k) s := by
    refine ⟨hnodup.2, fun y hy heq => hnodup.1 ?_⟩
    have heq : y = x := heq
    rwa [heq] at hy
  have hloop := Progress.loop hok le_rfl _ _ (hbody x)
  change Progress g (.table x) g.addrPerBlock (fun _ => k) _ s
    (forFrom _ g.addrPerBlock (fun i => body i (.entry x i)) s) at hloop
  set s' := forFrom (c.tdiv (g.addrPerBlock ^ k : Nat)).toNat g.addrPerBlock
    (fun i => body i (.entry x i)) s
  obtain ⟨l, lost, hshape, hcut, hreads⟩ := hloop.table hzero hbad
  -- the pointer itself is in none of the tables that have changed
  have hget : s'.get p = x := by
    cases p with
    | data nr =>
      rw [hshape]
      rfl
    | entry b i =>
      have hb : b ∉ nodes g.addrPerBlock s.table (k + 1) x := hout
      rw [nodes, if_neg hzero, Multiset.mem_cons, not_or] at hb
      rw [hx, BlockMap.get, BlockMap.get, hcut.frame b hb.1 hb.2]
  by_cases hempty : ∀ i < g.addrPerBlock, s'.table x i = 0
  · rw [if_pos hempty, hidle, if_neg (by simp)]
    refine ⟨s'.table, 0, l ++ [x], lost, ?_, ?_, hreads⟩
    · unfold Trunc.release
      rw [hget]
      have hsum := BitVec.sub_ofNat_add s.iBlocks (l.length * g.blocks) g.blocks
      rw [show l.length * g.blocks + g.blocks = (l ++ [x]).length * g.blocks by
        rw [List.length_append, List.length_singleton, Nat.add_mul, Nat.one_mul]] at hsum
      rw [hshape, BlockMap.after, hsum]
      cases p with
      | data nr | entry b i => simp [BlockMap.set, BlockMap.after]
    · rw [← Multiset.coe_add, add_right_comm]
      exact hcut.empty hzero hbad hempty
  · rw [if_neg hempty]
    refine ⟨s'.table, x, l, lost, ?_, hcut.table hzero hbad, hreads⟩
    have hset := BlockMap.set_get s' p
    rw [hget] at hset
    rw [← hshape, hset]

theorem truncIndirect_cuts (offset : Nat) (p : Loc) :
    Cuts g 1 (g.directBlock - offset : Int) p (g.truncIndirect offset p) := by
  have hcuts := truncTable_cuts hidle (k := 0) (c := (g.directBlock - offset : Int))
    (fun _ => g.truncData) (fun x i hi _ => by
      rw [Nat.pow_zero, Nat.cast_one, Int.tdiv_one] at hi
      exact truncData_cuts hidle (by simp only [Nat.pow_zero]; omega) (.entry x i)) p
  rw [Nat.pow_zero, Nat.cast_one, Int.tdiv_one] at hcuts
  exact hcuts

theorem truncDindirect_cuts (offset : Nat) (p : Loc) :
    Cuts g 2 (g.directBlock - offset : Int) p (g.truncDindirect offset p) := by
  have hcuts := truncTable_cuts hidle (k := 1) (c := (g.directBlock - offset : Int))
    (fun i q s =>
      if s.get q = 0 then s else g.truncIndirect (offset + i * g.addrPerBlock) q s)
    (fun x i _ _ => by
      have hind := truncIndirect_cuts hidle (offset + i * g.addrPerBlock) (.entry x i)
      have hc : (g.directBlock - (offset + i * g.addrPerBlock : Nat) : Int) =
          (g.directBlock - offset : Int) - (i * g.addrPerBlock ^ 1 : Nat) := by
        rw [Nat.pow_one]
        omega
      rw [hc] at hind
      intro s hout hnodup
      obtain ⟨t', y, l, lost, heq, hcut⟩ := hind s hout hnodup
      refine ⟨t', y, l, lost, ?_, hcut⟩
      -- `trunc_indirect` returns at once, too
      by_cases hzero : s.get (.entry x i) = 0
      · rw [← heq, Trunc.truncIndirect, Trunc.truncTable]
        simp only [hzero, if_true]
      · simp only [hzero, if_false, heq]) p
  rw [Nat.pow_one] at hcuts
  exact hcuts

theorem truncTindirect_cuts :
    Cuts g 3 (g.directBlock -
      (g.addrPerBlock * g.addrPerBlock + g.addrPerBlock + ndirBlocks : Nat) : Int)
      (.data (ndirBlocks + 2)) g.truncTindirect := by
  have hcuts := truncTable_cuts hidle (k := 2) (c := (g.directBlock -
      (g.addrPerBlock * g.addrPerBlock + g.addrPerBlock + ndirBlocks : Nat) : Int))
    (fun i => g.truncDindirect
      (ndirBlocks + g.addrPerBlock + (i + 1) * g.addrPerBlock * g.addrPerBlock))
    (fun x i _ _ => by
      have hdind := truncDindirect_cuts hidle
        (ndirBlocks + g.addrPerBlock + (i + 1) * g.addrPerBlock * g.addrPerBlock) (.entry x i)
      have hc : (g.directBlock - (ndirBlocks + g.addrPerBlock +
          (i + 1) * g.addrPerBlock * g.addrPerBlock : Nat) : Int) =
          (g.directBlock - (g.addrPerBlock * g.addrPerBlock + g.addrPerBlock + ndirBlocks : Nat) :
            Int) - (i * g.addrPerBlock ^ 2 : Nat) := by
        push_cast
        ring
      rwa [hc] at hdind) (.data (ndirBlocks + 2))
  rw [Nat.pow_two] at hcuts
  exact hcuts

end Functions

/-! ## The whole file -/

section Bmap

variable {a m : Nat} {bad : Nat → Bool} {s : BlockMap}

/-- The first block of a file that is below a pointer of the inode. -/
def firstBelow (a nr : Nat) : Nat :=
  if nr ≤ ndirBlocks then nr
  else if nr = ndirBlocks + 1 then ndirBlocks + a
  else ndirBlocks + a + a * a

theorem and_sub_one {j : Nat} (ha : a = 2 ^ j) (x : Nat) : x &&& (a - 1) = x % a := by
  rw [ha]
  exact Nat.and_two_pow_sub_one_eq_mod x j

theorem bmap_direct (hm : m < ndirBlocks) : bmap a bad s (m : Int) = s.data m := by
  unfold bmap
  rw [if_neg (by omega), if_neg (by omega)]
  simp only [Int.toNat_natCast, hm, if_true]

/-- A look-up goes to an entry of a table, and on from there. -/
theorem look_entry {k x : Nat} : look a bad s.table (k + 1) x m =
    look a bad s.table k (s.entry bad x (m / a ^ k)) (m % a ^ k) := by
  rw [look, BlockMap.entry]
  split_ifs
  · rw [look_zero]
  · rfl

theorem bmap_single (hm : m < a) :
    bmap a bad s ((ndirBlocks + m : Nat) : Int) = look a bad s.table 1 (s.data ndirBlocks) m := by
  unfold bmap
  rw [if_neg (by omega), if_neg (by omega)]
  simp only [Int.toNat_natCast]
  rw [if_neg (by omega), Nat.add_sub_cancel_left, if_pos hm]
  simp only [look_entry, Nat.pow_zero, Nat.div_one]
  rfl

theorem bmap_double {j : Nat} (ha : a = 2 ^ j) (hm : m < a * a) :
    bmap a bad s ((ndirBlocks + a + m : Nat) : Int) =
      look a bad s.table 2 (s.data (ndirBlocks + 1)) m := by
  unfold bmap
  rw [if_neg (by omega), if_neg (by omega)]
  simp only [Int.toNat_natCast]
  rw [if_neg (by omega), if_neg (by omega), show ndirBlocks + a + m - ndirBlocks - a = m by omega,
    if_pos hm]
  simp only [look_entry, Nat.pow_zero, Nat.pow_one, Nat.div_one, and_sub_one ha]
  rfl

theorem bmap_triple {j : Nat} (ha : a = 2 ^ j) (hm : m < a * a * a) :
    bmap a bad s ((ndirBlocks + a + a * a + m : Nat) : Int) =
      look a bad s.table 3 (s.data (ndirBlocks + 2)) m := by
  unfold bmap
  rw [if_neg (by omega), if_neg (by omega)]
  simp only [Int.toNat_natCast]
  rw [if_neg (by omega), if_neg (by omega), if_neg (by omega),
    show ndirBlocks + a + a * a + m - ndirBlocks - a - a * a = m by omega]
  simp only [look_entry, Nat.pow_zero, Nat.pow_one, Nat.pow_two, Nat.div_one, and_sub_one ha]
  -- the two ways to the entry in the middle
  have hmid : m % (a * a) / a = m / a % a := Nat.mod_mul_right_div_self m a a
  have hlow : m % (a * a) % a = m % a := Nat.mod_mul_left_mod m a a
  rw [hmid, hlow]
  rfl

/-- **`ext2_bmap` looks up the trees** below the pointers of the inode. -/
theorem bmap_below {j nr : Nat} (ha : a = 2 ^ j) (hnr : nr < ndirBlocks + 3)
    (hm : m < a ^ level nr) :
    bmap a bad s ((firstBelow a nr + m : Nat) : Int) =
      look a bad s.table (level nr) (s.data nr) m := by
  have h3 : a ^ 3 = a * a * a := by ring
  have h2 : a ^ 2 = a * a := Nat.pow_two a
  have hcases : nr < ndirBlocks ∨ nr = ndirBlocks ∨ nr = ndirBlocks + 1 ∨ nr = ndirBlocks + 2 := by
    omega
  rcases hcases with hlt | rfl | rfl | rfl
  · rw [level_of_lt hlt, Nat.pow_zero] at hm
    have hm0 : m = 0 := by omega
    rw [level_of_lt hlt, hm0, Nat.add_zero, firstBelow, if_pos hlt.le, bmap_direct hlt, look]
  · change m < a ^ 1 at hm
    rw [Nat.pow_one] at hm
    exact bmap_single hm
  · change m < a ^ 2 at hm
    rw [h2] at hm
    exact bmap_double ha hm
  · change m < a ^ 3 at hm
    rw [h3] at hm
    exact bmap_triple ha hm

/-- Every block of a file is below a pointer of the inode. -/
theorem exists_below {b : Nat} (hb : b < ndirBlocks + a + a * a + a * a * a) :
    ∃ nr m, nr < ndirBlocks + 3 ∧ m < a ^ level nr ∧ b = firstBelow a nr + m := by
  have h3 : a ^ 3 = a * a * a := by ring
  by_cases h₁ : b < ndirBlocks
  · refine ⟨b, 0, by omega, ?_, ?_⟩
    · rw [level_of_lt h₁, Nat.pow_zero]
      exact Nat.one_pos
    · rw [firstBelow, if_pos h₁.le, Nat.add_zero]
  by_cases h₂ : b < ndirBlocks + a
  · refine ⟨ndirBlocks, b - ndirBlocks, by omega, ?_, ?_⟩
    · change _ < a ^ 1
      rw [Nat.pow_one]
      omega
    · change b = ndirBlocks + _
      omega
  by_cases h₄ : b < ndirBlocks + a + a * a
  · refine ⟨ndirBlocks + 1, b - (ndirBlocks + a), by omega, ?_, ?_⟩
    · change _ < a ^ 2
      rw [Nat.pow_two]
      omega
    · change b = ndirBlocks + a + _
      omega
  · refine ⟨ndirBlocks + 2, b - (ndirBlocks + a + a * a), by omega, ?_, ?_⟩
    · change _ < a ^ 3
      omega
    · change b = ndirBlocks + a + a * a + _
      omega

end Bmap

/-- **`ext2_truncate` frees exactly the tail**: `ext2_bmap` finds what it found before the end of the
file and nothing from there on, the blocks that have left the file are the ones that were freed, each of
them once, and `i_blocks` has counted them. -/
def FreesTail (kind : FileKind) (g : Trunc) (gs : List Trunc) (s : BlockMap) : Prop :=
  ∃ s' l, ext2Truncate kind (g :: gs) s = some s' ∧
    (∀ b : Int, bmap g.addrPerBlock g.bad s' b =
      if b < g.fileBlocks then bmap g.addrPerBlock g.bad s b else 0) ∧
    s'.freed = s.freed ++ l ∧ l.Nodup ∧
    (∀ x, x ∈ l ↔ x ∈ s.blocks g.addrPerBlock ∧ x ∉ s'.blocks g.addrPerBlock) ∧
    s'.blocks g.addrPerBlock ≤ s.blocks g.addrPerBlock ∧
    s'.iBlocks = s.iBlocks - BitVec.ofNat 32 (l.length * (g.blocksize / 512))

/-- Every table that a pass reads can be read. -/
def Trunc.ReadsAll (g : Trunc) (s : BlockMap) : Prop :=
  ∀ nr < ndirBlocks + 3,
    g.Reads s.table (level nr) (g.directBlock - (firstBelow g.addrPerBlock nr : Int)) (s.data nr)

/-- One pass cuts every tree of the inode at the end of the file. -/
theorem pass_cut {g : Trunc} (hidle : ∀ x, g.busy x = false) {s : BlockMap}
    (hnodup : (s.blocks g.addrPerBlock).Nodup) :
    ∃ (l : List Nat) (lost : Multiset Nat), (g.pass s).freed = s.freed ++ l ∧
      (g.pass s).iBlocks = s.iBlocks - BitVec.ofNat 32 (l.length * g.blocks) ∧
      (g.pass s).retry = false ∧ RowCut g.addrPerBlock g.bad (ndirBlocks + 3) (fun _ => False) level
        (fun nr => g.directBlock - (firstBelow g.addrPerBlock nr : Int)) s.table s.data
        (g.pass s).table (g.pass s).data (l + lost) ∧ (lost = 0 ↔ g.ReadsAll s) := by
  set a := g.addrPerBlock with ha
  set s₀ : BlockMap := { s with retry := false }
  have hok : RowOk g .inode (ndirBlocks + 3) level s₀ := ⟨hnodup, fun _ _ h => h⟩
  have hdata : ∀ i, g.directBlock ≤ i → i < ndirBlocks →
      Cuts g (level i) ((g.directBlock : Int) - i) (.data i) (g.truncData (.data i)) := by
    intro i hi hlt
    rw [level_of_lt hlt]
    exact truncData_cuts hidle (by omega) (.data i)
  have hdirect := Progress.loop hok (by omega) (fun nr => (g.directBlock : Int) - nr)
    (fun i => g.truncData (.data i)) hdata
  have hind := hdirect.step hok (i := ndirBlocks) (by omega) (if_neg (by omega))
    (truncIndirect_cuts hidle ndirBlocks (.data ndirBlocks))
  have hdind := hind.step hok (i := ndirBlocks + 1) (by omega) (by
    rw [update_of_ne (by omega), if_neg (by omega)])
    (truncDindirect_cuts hidle (ndirBlocks + a) (.data (ndirBlocks + 1)))
  have htind := hdind.step hok (i := ndirBlocks + 2) (by omega) (by
    rw [update_of_ne (by omega), update_of_ne (by omega), if_neg (by omega)])
    (truncTindirect_cuts hidle)
  obtain ⟨l, lost, hfreed, hblocks, hretry, -, hcut, hlost, -⟩ := htind
  set c : Nat → Option Int := update _ (ndirBlocks + 2) _ with hc
  have hcomm : a * a + a + ndirBlocks = ndirBlocks + a + a * a := by ring
  -- the trees that have tables are cut at the end of the file
  have hcut' : ∀ i, ndirBlocks ≤ i → i < ndirBlocks + 3 →
      c i = some ((g.directBlock : Int) - (firstBelow a i : Int)) := by
    intro i hi hlt
    have hcases : i = ndirBlocks ∨ i = ndirBlocks + 1 ∨ i = ndirBlocks + 2 := by omega
    rcases hcases with rfl | rfl | rfl
    · rw [hc, update_of_ne (by omega), update_of_ne (by omega), update_self, firstBelow,
        if_pos le_rfl]
    · rw [hc, update_of_ne (by omega), update_self, firstBelow, if_neg (by omega), if_pos rfl]
    · rw [hc, update_self, firstBelow, if_neg (by omega), if_neg (by omega), hcomm]
  refine ⟨l, lost, hfreed, hblocks, hretry, hcut.congr fun i hi m hm => ?_, hlost.trans ?_⟩
  · by_cases hlt : i < ndirBlocks
    · rw [level_of_lt hlt, Nat.pow_zero] at hm
      rw [hc, update_of_ne (by omega), update_of_ne (by omega), update_of_ne (by omega), firstBelow,
        if_pos hlt.le]
      by_cases hstart : g.directBlock ≤ i
      · rw [if_pos ⟨hstart, hlt⟩, Option.getD_some]
      · rw [if_neg (fun h => hstart h.1), Option.getD_none, level_of_lt hlt, Nat.pow_zero]
        omega
    · rw [hcut' i (not_lt.1 hlt) hi, Option.getD_some]
  · refine forall₂_congr fun i hi => ?_
    by_cases hlt : i < ndirBlocks
    · rw [level_of_lt hlt]
      exact iff_of_true (fun _ _ => trivial) trivial
    · rw [hcut' i (not_lt.1 hlt) hi]
      exact ⟨fun h => h _ rfl, fun h ci hci => Option.some.inj hci ▸ h⟩

/-- One pass is enough: what is before `DIRECT_BLOCK` is found as before, and nothing from there on. -/
theorem bmap_pass {g : Trunc} {s s' : BlockMap} {l : Multiset Nat}
    (hcut : RowCut g.addrPerBlock g.bad (ndirBlocks + 3) (fun _ => False) level
      (fun nr => g.directBlock - (firstBelow g.addrPerBlock nr : Int)) s.table s.data
      s'.table s'.data l) (b : Int) :
    bmap g.addrPerBlock g.bad s' b =
      if b < g.directBlock then bmap g.addrPerBlock g.bad s b else 0 := by
  have hpow : g.addrPerBlock = 2 ^ (8 + g.log) := by
    rw [Trunc.addrPerBlock, Trunc.blocksize, Nat.pow_add]
    omega
  by_cases hneg : b < 0
  · rw [bmap, bmap, if_pos hneg, if_pos hneg, ite_self]
  by_cases hbig : b ≥ (ndirBlocks + g.addrPerBlock + g.addrPerBlock * g.addrPerBlock +
      g.addrPerBlock * g.addrPerBlock * g.addrPerBlock : Nat)
  · rw [bmap, bmap, if_neg hneg, if_neg hneg, if_pos hbig, if_pos hbig, ite_self]
  · obtain ⟨n, rfl⟩ := Int.eq_ofNat_of_zero_le (not_lt.1 hneg)
    obtain ⟨nr, m, hnr, hm, rfl⟩ := exists_below (a := g.addrPerBlock) (b := n) (by omega)
    rw [bmap_below hpow hnr hm, bmap_below hpow hnr hm]
    have hlook := hcut.look nr hnr m hm
    have hiff : (m : Int) < g.directBlock - (firstBelow g.addrPerBlock nr : Int) ↔
        ((firstBelow g.addrPerBlock nr + m : Nat) : Int) < g.directBlock := by omega
    simp only [hiff] at hlook
    exact hlook

/-- **When it does so**, if no other task holds a buffer of the file, and no block is in the file twice:
exactly when each table that it reads can be read, and no block of the file is between the end that it
computes with 32 bits and the end of the file. -/
theorem truncate_frees_tail {g : Trunc} (hidle : ∀ x, g.busy x = false) {kind : FileKind}
    (hkind : kind ≠ .other) {s : BlockMap} (hnodup : (s.blocks g.addrPerBlock).Nodup)
    (gs : List Trunc) : FreesTail kind g gs s ↔
      g.ReadsAll s ∧ ∀ b : Int, g.directBlock ≤ b → b < g.fileBlocks →
        bmap g.addrPerBlock g.bad s b = 0 := by
  obtain ⟨l, lost, hfreed, hblocks, hretry, hcut, hlost⟩ := pass_cut hidle hnodup
  have hrun : ext2Truncate kind (g :: gs) s = some (g.pass s) := by
    rw [ext2Truncate, if_neg hkind]
    dsimp only
    rw [hretry, if_neg (by simp)]
  have hbmap := bmap_pass hcut
  have hsum : (l + lost : Multiset Nat) + (g.pass s).blocks g.addrPerBlock =
      s.blocks g.addrPerBlock := hcut.nodes
  have hnodup' := hnodup
  rw [← hsum] at hnodup'
  obtain ⟨hleft, -, hdisj⟩ := Multiset.nodup_add.1 hnodup'
  obtain ⟨hl, -, hfreedOnly⟩ := Multiset.nodup_add.1 hleft
  rw [FreesTail, hrun, ← hlost]
  constructor
  · rintro ⟨s', l', hs', hspec, hfreed', -, hmem, -, -⟩
    obtain rfl : g.pass s = s' := Option.some.inj hs'
    obtain rfl : l = l' := List.append_cancel_left (hfreed.symm.trans hfreed')
    refine ⟨Multiset.eq_zero_of_forall_notMem fun x hx => ?_, fun b hle hlt => ?_⟩
    · -- what is lost has left the file, and is not freed
      have hx' : x ∈ (l + lost : Multiset Nat) := Multiset.mem_add.2 (.inr hx)
      have hin : x ∈ s.blocks g.addrPerBlock := by
        rw [← hsum]
        exact Multiset.mem_add.2 (.inl hx')
      have hfree := (hmem x).2 ⟨hin, Multiset.disjoint_left.1 hdisj hx'⟩
      exact Multiset.disjoint_left.1 hfreedOnly (Multiset.mem_coe.2 hfree) hx
    · have hb := hspec b
      rw [hbmap, if_neg (not_lt.2 hle), if_pos hlt] at hb
      exact hb.symm
  · rintro ⟨rfl, hgap⟩
    rw [add_zero] at hsum hdisj
    refine ⟨g.pass s, l, rfl, fun b => ?_, hfreed, Multiset.coe_nodup.1 hl, fun x => ?_, hcut.le,
      hblocks⟩
    · have hle : g.directBlock ≤ g.fileBlocks := Nat.div_le_div_right (Nat.mod_le _ _)
      rw [hbmap]
      split_ifs with h1 h2 h2
      · rfl
      · omega
      · exact (hgap b (not_lt.1 h1) h2).symm
      · rfl
    · rw [← hsum, Multiset.mem_add, Multiset.mem_coe]
      constructor
      · exact fun hx => ⟨.inl hx, Multiset.disjoint_left.1 hdisj (Multiset.mem_coe.2 hx)⟩
      · rintro ⟨hx | hx, hno⟩
        · exact hx
        · exact absurd hx hno

theorem Trunc.reads_of_good {g : Trunc} (h : ∀ x, g.bad x = false) {t : Nat → Nat → Nat} {k x : Nat}
    {c : Int} : g.Reads t k c x := by
  induction k generalizing x c with
  | zero => trivial
  | succ k ih => exact .inr ⟨h x, fun _ _ _ => ih⟩

/-- A file of fourteen blocks, with a hole in the middle, is cut after the thirteenth. -/
def cutOne : Trunc := ⟨0, 13 * 1024 - 5, fun _ => false, fun _ => false⟩

def fourteenBlocks : BlockMap where
  data nr := if nr = 5 then 0 else if nr ≤ ndirBlocks then 100 + nr else 0
  table b i := if b = 112 then (if i < 2 then 200 + i else 0) else 0
  iBlocks := 28
  freed := []
  retry := false

/-- The last block leaves the file, and the indirect block stays. -/
theorem truncate_frees_last : FreesTail .regular cutOne [] fourteenBlocks ∧
    (ext2Truncate .regular [cutOne] fourteenBlocks).map BlockMap.freed = some [201] := by
  have hkind : FileKind.regular ≠ .other := by decide
  have hends : cutOne.directBlock = cutOne.fileBlocks := by decide
  refine ⟨(truncate_frees_tail (fun _ => rfl) hkind (by decide +kernel) []).2
    ⟨fun _ _ => Trunc.reads_of_good fun _ => rfl, fun b hle hlt => by omega⟩, by decide +kernel⟩

/-- The file grows, but the sum with `i_size` wraps. -/
def cutWrapped : Trunc := { cutOne with iSize := 0xffffffff }

/-- The indirect block 112 cannot be read. -/
def cutBad : Trunc := { cutOne with bad := fun x => x = 112 }

/-- **Too much is freed**, or too little: all the blocks of a file that should keep them, and not the
indirect block that the file has no more. -/
theorem truncate_misses_tail : ¬ FreesTail .regular cutWrapped [] fourteenBlocks ∧
    ¬ FreesTail .regular cutBad [] fourteenBlocks := by
  constructor
  · rintro ⟨s', l, hs, hbmap, -⟩
    have hrun : (ext2Truncate .regular [cutWrapped] fourteenBlocks).map (fun s =>
        bmap cutWrapped.addrPerBlock cutWrapped.bad s 0) = some 0 := by
      decide +kernel
    rw [hs, Option.map_some, Option.some.injEq, hbmap] at hrun
    exact absurd hrun (by decide +kernel)
  · rintro ⟨s', l, hs, -, hfreed, -, hmem, -⟩
    have hrun : (ext2Truncate .regular [cutBad] fourteenBlocks).map (fun s =>
        (s.freed, decide (112 ∈ s.blocks cutBad.addrPerBlock))) = some ([], false) := by
      decide +kernel
    rw [hs, Option.map_some, Option.some.injEq, Prod.mk.injEq, hfreed] at hrun
    have hlost := (hmem 112).2 ⟨by decide +kernel, of_decide_eq_false hrun.2⟩
    rw [show l = [] from hrun.1] at hlost
    cases hlost

end LinuxEvocation.Ext2
