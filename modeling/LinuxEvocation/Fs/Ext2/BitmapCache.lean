import Mathlib.Tactic

/-!
# The bitmaps a mounted ext2 file system keeps at hand

A super block has a few slots for the bitmaps of its block groups.  If there are no more groups than
slots, each group has its own; otherwise the slots are in the order of their last use.  The number
of a group and its buffer are in two arrays, which are moved in parallel.

* `Cache` — the slots; a buffer is named by the group whose bitmap it holds.
* `loadBlockBitmap`, `loadInodeBitmap` — `load_block_bitmap` and `load_inode_bitmap`.
* `Cache.Valid` — the invariant.
-/

namespace LinuxEvocation.Ext2

open Function (update update_of_ne update_self)

/-- `EXT2_MAX_GROUP_LOADED`. -/
def maxGroupLoaded : Nat := 8

/-- `s_loaded_…_bitmaps`, `s_…_bitmap_number` and `s_…_bitmap`. -/
structure Cache where
  loaded : Nat
  number : Nat → Nat
  /-- The group whose bitmap the buffer holds; `none` is `NULL`. -/
  buf : Nat → Option Nat
  /-- How often the bitmap of a group has been read and not been released. -/
  held : Nat → Nat

/-- `for (j = k; j > 0; j--) a[j] = a[j - 1]`. -/
def shift {α : Type*} (a : Nat → α) : Nat → Nat → α
  | 0 => a
  | k + 1 => shift (update a (k + 1) (a k)) k

/-- `read_block_bitmap` and `read_inode_bitmap`. -/
def Cache.read (c : Cache) (group nr : Nat) : Cache :=
  { c with
    number := update c.number nr group
    buf := update c.buf nr (some group)
    held := update c.held group (c.held group + 1) }

/-- `brelse` of the buffer in the last slot. -/
def Cache.release (c : Cache) : Cache :=
  match c.buf (maxGroupLoaded - 1) with
  | some group => { c with held := update c.held group (c.held group - 1) }
  | none => c

/-- The search for a group among the loaded ones, and what follows from it. -/
def Cache.loadLru (c : Cache) (group : Nat) : Cache :=
  match (List.range c.loaded).find? fun i => c.number i = group with
  | some i =>
    { c with
      number := update (shift c.number i) 0 (c.number i)
      buf := update (shift c.buf i) 0 (c.buf i) }
  | none =>
    let c := if c.loaded < maxGroupLoaded then { c with loaded := c.loaded + 1 } else c.release
    { c with
      number := shift c.number (c.loaded - 1)
      buf := shift c.buf (c.loaded - 1) }.read group 0

/-- The common part of `load__block_bitmap` and `load_inode_bitmap`: the slot, or `none` for a
panic. -/
def Cache.load (groups group : Nat) (c : Cache) : Option (Cache × Nat) :=
  if groups ≤ maxGroupLoaded then
    match c.buf group with
    | some _ => if c.number group ≠ group then none else some (c, group)
    | none => some (c.read group group, group)
  else some (c.loadLru group, 0)

/-- `load_block_bitmap`. -/
def loadBlockBitmap (groups group : Nat) (c : Cache) : Option (Cache × Nat) :=
  if c.loaded > 0 ∧ c.number 0 = group then some (c, 0)
  else if groups ≤ maxGroupLoaded ∧ c.number group = group ∧ c.buf group ≠ none then
    some (c, group)
  -- `load__block_bitmap`
  else if group ≥ groups then none
  else c.load groups group

/-- `load_inode_bitmap`. -/
def loadInodeBitmap (groups group : Nat) (c : Cache) : Option (Cache × Nat) :=
  if group ≥ groups then none
  else if c.loaded > 0 ∧ c.number 0 = group then some (c, 0)
  else c.load groups group

/-! ## The invariant -/

/-- **The slots hold what their numbers say.** -/
structure Cache.Valid (groups : Nat) (c : Cache) : Prop where
  few : groups ≤ maxGroupLoaded →
    c.loaded = 0 ∧ ∀ i, c.buf i = none ∨ c.buf i = some i ∧ c.number i = i ∧ i < groups
  many : maxGroupLoaded < groups →
    ∀ i < c.loaded, c.buf i = some (c.number i) ∧ c.number i < groups
  loaded_le : c.loaded ≤ maxGroupLoaded

/-- The slots after `ext2_read_super`. -/
def Cache.empty : Cache := ⟨0, fun _ => 0, fun _ => none, fun _ => 0⟩

theorem Cache.valid_empty (groups : Nat) : Cache.empty.Valid groups :=
  ⟨fun _ => ⟨rfl, fun _ => .inl rfl⟩, fun _ i hi => absurd hi (Nat.not_lt_zero i), Nat.zero_le _⟩

theorem shift_apply {α : Type*} (a : Nat → α) (k j : Nat) :
    shift a k j = if 0 < j ∧ j ≤ k then a (j - 1) else a j := by
  induction k generalizing a with
  | zero =>
    rw [shift, if_neg (by omega)]
  | succ k ih =>
    rw [shift, ih]
    by_cases hj : j = k + 1
    · subst hj
      rw [if_neg (by omega), if_pos (by omega), update_self]
      rfl
    · by_cases hle : 0 < j ∧ j ≤ k
      · rw [if_pos hle, if_pos (by omega), update_of_ne (by omega)]
      · rw [if_neg hle, if_neg (by omega), update_of_ne hj]

variable {groups : Nat}

theorem shift_parallel {number : Nat → Nat} {buf : Nat → Option Nat} {n k : Nat}
    (h : ∀ i < n, buf i = some (number i) ∧ number i < groups) (hk : k ≤ n) :
    ∀ j, 0 < j → j ≤ k ∨ j < n →
      shift buf k j = some (shift number k j) ∧ shift number k j < groups := by
  intro j hj hjn
  rw [shift_apply, shift_apply]
  by_cases hle : 0 < j ∧ j ≤ k
  · rw [if_pos hle, if_pos hle]
    exact h (j - 1) (by omega)
  · rw [if_neg hle, if_neg hle]
    exact h j (by omega)

variable {c : Cache}

theorem Cache.loadLru_spec {group : Nat} (h : c.Valid groups)
    (hmany : maxGroupLoaded < groups) (hgroup : group < groups) :
    (c.loadLru group).Valid groups ∧ (c.loadLru group).buf 0 = some group := by
  have hheld := h.many hmany
  unfold Cache.loadLru
  cases hfind : (List.range c.loaded).find? fun i => c.number i = group with
  | some i =>
    have hnumber : c.number i = group := by simpa using List.find?_some hfind
    have hi : i < c.loaded := List.mem_range.1 (List.mem_of_find?_eq_some hfind)
    refine ⟨⟨fun hfew => absurd hfew (not_le.2 hmany), fun _ j hj => ?_, h.loaded_le⟩, ?_⟩
    · by_cases hj0 : j = 0
      · subst hj0
        simp only [update_self]
        exact hheld i hi
      · simp only [update_of_ne hj0]
        exact shift_parallel hheld hi.le j (by omega) (.inr hj)
    · simp only [update_self, ← hnumber]
      exact (hheld i hi).1
  | none =>
    -- one more slot is used, or the last one is given up; either way slot 0 becomes free
    simp only
    set c₁ := if c.loaded < maxGroupLoaded then { c with loaded := c.loaded + 1 } else c.release
      with hc₁
    have hnumber : c₁.number = c.number := by
      rw [hc₁]
      split_ifs
      · rfl
      · unfold Cache.release
        split <;> rfl
    have hbuf : c₁.buf = c.buf := by
      rw [hc₁]
      split_ifs
      · rfl
      · unfold Cache.release
        split <;> rfl
    have hloaded : c₁.loaded ≤ maxGroupLoaded ∧ c₁.loaded - 1 ≤ c.loaded := by
      have := h.loaded_le
      rw [hc₁]
      split_ifs with hlt
      · exact ⟨hlt, by simp⟩
      · unfold Cache.release
        split <;> exact ⟨this, Nat.sub_le _ _⟩
    refine ⟨⟨fun hfew => absurd hfew (not_le.2 hmany), fun _ j hj => ?_, hloaded.1⟩, ?_⟩
    · have hj : j < c₁.loaded := hj
      by_cases hj0 : j = 0
      · subst hj0
        simp only [Cache.read, update_self, true_and]
        exact hgroup
      · simp only [Cache.read, update_of_ne hj0, hnumber, hbuf]
        exact shift_parallel hheld hloaded.2 j (by omega) (.inl (by omega))
    · simp only [Cache.read, update_self]

theorem Cache.load_spec {group : Nat} (h : c.Valid groups) (hgroup : group < groups) :
    ∃ c' nr, c.load groups group = some (c', nr) ∧ c'.Valid groups ∧ c'.buf nr = some group := by
  unfold Cache.load
  by_cases hfew : groups ≤ maxGroupLoaded
  · rw [if_pos hfew]
    obtain ⟨hloaded, hslots⟩ := h.few hfew
    rcases hslots group with hnone | ⟨hsome, hnumber, -⟩
    · simp only [hnone]
      refine ⟨_, _, rfl, ⟨fun _ => ⟨hloaded, fun i => ?_⟩, fun hmany => ?_, h.loaded_le⟩, ?_⟩
      · simp only [Cache.read]
        by_cases heq : i = group
        · subst heq
          exact .inr ⟨update_self _ _ _, update_self _ _ _, hgroup⟩
        · rw [update_of_ne heq, update_of_ne heq]
          exact hslots i
      · exact absurd hfew (not_le.2 hmany)
      · exact update_self _ _ _
    · simp only [hsome, if_neg (not_not.2 hnumber)]
      exact ⟨_, _, rfl, h, hsome⟩
  · rw [if_neg hfew]
    obtain ⟨hvalid, hbuf⟩ := Cache.loadLru_spec h (not_le.1 hfew) hgroup
    exact ⟨_, _, rfl, hvalid, hbuf⟩

/-- The shortcut for the slot that was used last. -/
theorem Cache.Valid.head {group : Nat} (h : c.Valid groups)
    (hhead : c.loaded > 0 ∧ c.number 0 = group) : c.buf 0 = some group ∧ group < groups := by
  have hmany : maxGroupLoaded < groups := by
    by_contra hfew
    have := (h.few (not_lt.1 hfew)).1
    omega
  rw [← hhead.2]
  exact h.many hmany 0 hhead.1

/-- **A block bitmap** is found for every group, in a slot that holds it. -/
theorem loadBlockBitmap_spec (h : c.Valid groups) (group : Nat) :
    groups ≤ group ∧ loadBlockBitmap groups group c = none ∨
      group < groups ∧ ∃ c' nr, loadBlockBitmap groups group c = some (c', nr) ∧ c'.Valid groups ∧
        c'.buf nr = some group := by
  unfold loadBlockBitmap
  split_ifs with hhead hown hge
  · obtain ⟨hbuf, hgroup⟩ := h.head hhead
    exact .inr ⟨hgroup, _, _, rfl, h, hbuf⟩
  · obtain ⟨hfew, hnumber, hne⟩ := hown
    rcases (h.few hfew).2 group with hnone | ⟨hsome, -, hgroup⟩
    · exact absurd hnone hne
    · exact .inr ⟨hgroup, _, _, rfl, h, hsome⟩
  · exact .inl ⟨hge, rfl⟩
  · exact .inr ⟨not_le.1 hge, Cache.load_spec h (not_le.1 hge)⟩

/-- **An inode bitmap** is found for every group, in a slot that holds it. -/
theorem loadInodeBitmap_spec (h : c.Valid groups) (group : Nat) :
    groups ≤ group ∧ loadInodeBitmap groups group c = none ∨
      group < groups ∧ ∃ c' nr, loadInodeBitmap groups group c = some (c', nr) ∧ c'.Valid groups ∧
        c'.buf nr = some group := by
  unfold loadInodeBitmap
  split_ifs with hge hhead
  · exact .inl ⟨hge, rfl⟩
  · exact .inr ⟨not_le.1 hge, _, _, rfl, h, (h.head hhead).1⟩
  · exact .inr ⟨not_le.1 hge, Cache.load_spec h (not_le.1 hge)⟩

end LinuxEvocation.Ext2
