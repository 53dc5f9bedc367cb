import LinuxEvocation.Fs.Ext2.Groups

/-!
# When `ext2_new_inode` returns

`ext2_new_inode` goes by the counters of the groups and then by the bitmap of the group it has chosen.
Where the two do not agree it starts again, and chooses the same group; and it finds out that a bit
stands for no inode only when it has set it.

* `newInodeLocked` — the call with the lock of the super block, on a disk with bitmaps that cannot be
  read.
* `Usable` — what the bitmap of the group that the counters lead to has to be like.
* `Untouched` — no bitmap and no counter is changed.
* `new_inode_returns_iff` — when the call returns, with nothing changed if it returns `NULL`.
* `new_inode_never_returns` — a group without a free inode that is said to have one.
-/

namespace LinuxEvocation.Ext2

/-- The bitmap of the group is in a slot, or `read_inode_bitmap` can read it. -/
def loadable (g : Geometry) (readable : Nat → Bool) (s : State) (i : Nat) : Bool :=
  readable i ||
    if g.groupsCount ≤ maxGroupLoaded then (s.inodeCache.buf i).isSome
    else (List.range s.inodeCache.loaded).any fun k => s.inodeCache.number k = i

/-- One pass: `read_inode_bitmap` panics if it cannot read. -/
def readPass (g : Geometry) (readable : Nat → Bool) (parent : Nat) (isDir : Bool) (s : State) : Pass :=
  if ∃ i ∈ chosenGroup g parent isDir s, loadable g readable s i = false then .crash
  else newInodePass g parent isDir s

/-- `ext2_new_inode` with the lock of the super block, which is released at every exit but the first:
the file system, the number of the inode or 0, and whether the super block is locked. -/
def newInodeLocked (g : Geometry) (readable : Nat → Bool) (parent : Nat) (isDir empty : Bool)
    (fuel : Nat) (s : State) (locked : Bool) : Option (State × Nat × Bool) :=
  if ¬ empty then some (s, 0, locked)
  else (passes (readPass g readable parent isDir) fuel s).map fun r => (r.1, r.2, false)

/-- The first bit of a group that is not set stands for an inode. -/
def Usable (g : Geometry) (s : State) (i : Nat) : Prop :=
  ∃ j < g.inodesPerGroup, s.inodeBitmap i j = false ∧ (∀ k < j, s.inodeBitmap i k = true) ∧
    inodeValid g i j

/-- No bitmap and no counter is changed. -/
def Untouched (s s' : State) : Prop := ∃ c, s' = { s with inodeCache := c }

section Pass

variable {g : Geometry} {readable : Nat → Bool} {s : State} {parent i : Nat} {isDir : Bool}

theorem chosenGroup_some (hparent : parent < g.groupsCount)
    (h : chosenGroup g parent isDir s = some i) : i < g.groupsCount := by
  rw [chosenGroup] at h
  split at h
  · exact (dirGroup_some h).1
  · exact (fileGroup_some hparent h).1

/-- The pass, once the bitmap of the chosen group is there. -/
theorem newInodePass_chosen (hcache : s.inodeCache.Valid g.groupsCount)
    (hparent : parent < g.groupsCount) (h : chosenGroup g parent isDir s = some i) :
    ∃ c, c.Valid g.groupsCount ∧ newInodePass g parent isDir s =
      (let s := { s with inodeCache := c }
      let j := findFirstZeroBit (s.inodeBitmap i) 0 g.inodesPerGroup
      if j < g.inodesPerGroup then
        if s.inodeBitmap i j then .again s
        else
          let s := s.setInodeBit i j true
          if g.ino i j > g.inodesCount then .fail s
          else
            .got
              { s with
                bgFreeInodesCount :=
                  Function.update s.bgFreeInodesCount i (s.bgFreeInodesCount i - 1)
                bgUsedDirsCount :=
                  if isDir then Function.update s.bgUsedDirsCount i (s.bgUsedDirsCount i + 1)
                  else s.bgUsedDirsCount
                freeInodesCount := s.freeInodesCount - 1 }
              (g.ino i j)
      else .again s) := by
  have hi := chosenGroup_some hparent h
  obtain ⟨hge, -⟩ | ⟨-, c, nr, hload, hvalid, hbuf⟩ := loadInodeBitmap_spec hcache i
  · omega
  · refine ⟨c, hvalid, ?_⟩
    unfold newInodePass
    rw [if_neg (by omega), h]
    simp only [hload, hbuf]

theorem newInodePass_none (hparent : parent < g.groupsCount)
    (h : chosenGroup g parent isDir s = none) : newInodePass g parent isDir s = .fail s := by
  unfold newInodePass
  rw [if_neg (by omega), h]

/-- The first bit that is not set, if there is one. -/
theorem first_free {j : Nat} (hj : j < g.inodesPerGroup) (hfree : s.inodeBitmap i j = false)
    (hall : ∀ k < j, s.inodeBitmap i k = true) :
    findFirstZeroBit (s.inodeBitmap i) 0 g.inodesPerGroup = j := by
  obtain ⟨hle, hbit⟩ := findFirstZeroBit_spec hj hfree
  by_contra hne
  have hset := hall _ (lt_of_le_of_ne hle hne)
  rw [hbit] at hset
  exact absurd hset (by decide)

theorem found_free (hlt : findFirstZeroBit (s.inodeBitmap i) 0 g.inodesPerGroup < g.inodesPerGroup) :
    s.inodeBitmap i (findFirstZeroBit (s.inodeBitmap i) 0 g.inodesPerGroup) = false ∧
      ∀ k < findFirstZeroBit (s.inodeBitmap i) 0 g.inodesPerGroup, s.inodeBitmap i k = true := by
  constructor
  · have hbit := @findFirstZeroBit_free (s.inodeBitmap i) 0 g.inodesPerGroup hlt
    rwa [Nat.mul_zero, Nat.zero_add] at hbit
  · intro k hk
    by_contra hfree
    have hle := (findFirstZeroBit_spec (hk.trans hlt) (Bool.eq_false_iff.mpr hfree)).1
    omega

/-- A group whose bitmap is right gives an inode. -/
theorem newInodePass_usable (hcache : s.inodeCache.Valid g.groupsCount)
    (hparent : parent < g.groupsCount) (h : chosenGroup g parent isDir s = some i)
    (hu : Usable g s i) : ∃ s' x, newInodePass g parent isDir s = .got s' x ∧ x ≠ 0 := by
  obtain ⟨c, -, hpass⟩ := newInodePass_chosen hcache hparent h
  obtain ⟨j, hj, hfree, hall, hvalid⟩ := hu
  have hcount : ¬ g.ino i j > g.inodesCount := not_lt.2 hvalid
  simp only [first_free hj hfree hall] at hpass
  rw [if_pos hj, hfree, if_neg (by decide), if_neg hcount] at hpass
  exact ⟨_, _, hpass, Nat.succ_ne_zero _⟩

/-- If the first bit stands for no inode, the call has set it when it finds out. -/
theorem newInodePass_beyond (hcache : s.inodeCache.Valid g.groupsCount)
    (hparent : parent < g.groupsCount) (h : chosenGroup g parent isDir s = some i) {j : Nat}
    (hj : j < g.inodesPerGroup) (hfree : s.inodeBitmap i j = false)
    (hall : ∀ k < j, s.inodeBitmap i k = true) (hbeyond : ¬ inodeValid g i j) :
    ∃ s', newInodePass g parent isDir s = .fail s' ∧ ¬ Untouched s s' := by
  obtain ⟨c, -, hpass⟩ := newInodePass_chosen hcache hparent h
  simp only [first_free hj hfree hall] at hpass
  rw [if_pos hj, hfree, if_neg (by decide), if_pos (not_le.mp hbeyond)] at hpass
  refine ⟨_, hpass, ?_⟩
  rintro ⟨c', heq⟩
  have hbit := congrArg (fun s => s.inodeBitmap i j) heq
  simp only [State.setInodeBit, Function.update_self, hfree] at hbit
  exact absurd hbit (by decide)

/-- If all bits are set the call starts again. -/
theorem newInodePass_full (hcache : s.inodeCache.Valid g.groupsCount)
    (hparent : parent < g.groupsCount) (h : chosenGroup g parent isDir s = some i)
    (hfull : ∀ j < g.inodesPerGroup, s.inodeBitmap i j = true) :
    ∃ c, c.Valid g.groupsCount ∧
      newInodePass g parent isDir s = .again { s with inodeCache := c } := by
  obtain ⟨c, hvalid, hpass⟩ := newInodePass_chosen hcache hparent h
  refine ⟨c, hvalid, hpass.trans (if_neg fun hlt => ?_)⟩
  have hfree := (found_free hlt).1
  rw [hfull _ hlt] at hfree
  exact absurd hfree (by decide)

theorem readPass_loadable (h : chosenGroup g parent isDir s = some i)
    (hload : loadable g readable s i = true) :
    readPass g readable parent isDir s = newInodePass g parent isDir s := by
  refine if_neg ?_
  rintro ⟨k, hk, hno⟩
  obtain rfl : i = k := Option.some.inj (h.symm.trans hk)
  rw [hload] at hno
  cases hno

theorem readPass_crash (h : chosenGroup g parent isDir s = some i)
    (hload : loadable g readable s i = false) : readPass g readable parent isDir s = .crash :=
  if_pos ⟨i, h, hload⟩

/-- It chooses the same group again, and so for ever. -/
theorem passes_full (hparent : parent < g.groupsCount) (fuel : Nat)
    (hcache : s.inodeCache.Valid g.groupsCount) (h : chosenGroup g parent isDir s = some i)
    (hfull : ∀ j < g.inodesPerGroup, s.inodeBitmap i j = true) :
    passes (readPass g readable parent isDir) fuel s = none := by
  induction fuel generalizing s with
  | zero => rfl
  | succ fuel ih =>
    rw [passes]
    cases hload : loadable g readable s i with
    | false => rw [readPass_crash h hload]
    | true =>
      obtain ⟨c, hvalid, hpass⟩ := newInodePass_full hcache hparent h hfull
      rw [readPass_loadable h hload, hpass]
      exact @ih { s with inodeCache := c } hvalid h hfull

theorem usable_cases (g : Geometry) (s : State) (i : Nat) :
    Usable g s i ∨ (∀ j < g.inodesPerGroup, s.inodeBitmap i j = true) ∨
      ∃ j < g.inodesPerGroup, s.inodeBitmap i j = false ∧ (∀ k < j, s.inodeBitmap i k = true) ∧
        ¬ inodeValid g i j := by
  by_cases hlt : findFirstZeroBit (s.inodeBitmap i) 0 g.inodesPerGroup < g.inodesPerGroup
  · obtain ⟨hfree, hall⟩ := found_free hlt
    by_cases hvalid : inodeValid g i (findFirstZeroBit (s.inodeBitmap i) 0 g.inodesPerGroup)
    · exact .inl ⟨_, hlt, hfree, hall, hvalid⟩
    · exact .inr (.inr ⟨_, hlt, hfree, hall, hvalid⟩)
  · refine .inr (.inl fun j hj => ?_)
    by_contra hfree
    have hle := (findFirstZeroBit_spec hj (Bool.eq_false_iff.mpr hfree)).1
    omega

end Pass

/-- **When `ext2_new_inode` returns** with the super block unlocked, and with nothing changed if it
returns `NULL`: exactly when the bitmap of the group that the counters lead to can be read, and has a
bit that is not set, and the first one stands for an inode. -/
theorem new_inode_returns_iff {g : Geometry} {s : State} (hcache : s.inodeCache.Valid g.groupsCount)
    {parent : Nat} (hparent : parent < g.groupsCount) (readable : Nat → Bool) (isDir empty : Bool) :
    (∃ fuel s' x, newInodeLocked g readable parent isDir empty fuel s false = some (s', x, false) ∧
      (x = 0 → Untouched s s')) ↔
      (empty = true → ∀ i, chosenGroup g parent isDir s = some i →
        loadable g readable s i = true ∧ Usable g s i) := by
  cases empty with
  | false =>
    refine iff_of_true ⟨0, s, 0, ?_, fun _ => ⟨s.inodeCache, rfl⟩⟩ fun h => absurd h (by decide)
    rw [newInodeLocked, if_pos (by decide)]
  | true =>
    have hcall (fuel : Nat) : newInodeLocked g readable parent isDir true fuel s false =
        (passes (readPass g readable parent isDir) fuel s).map fun r => (r.1, r.2, false) := by
      rw [newInodeLocked, if_neg (by decide)]
    simp only [hcall, forall_const]
    cases h : chosenGroup g parent isDir s with
    | none =>
      refine iff_of_true ⟨1, s, 0, ?_, fun _ => ⟨s.inodeCache, rfl⟩⟩ fun i hi => ?_
      · have hpass : readPass g readable parent isDir s = newInodePass g parent isDir s := by
          refine if_neg ?_
          rintro ⟨i, hi, -⟩
          rw [h] at hi
          cases hi
        rw [passes, hpass, newInodePass_none hparent h]
        rfl
      · exact absurd hi.symm (Option.some_ne_none i)
    | some i =>
      have hchosen : (∀ k, some i = some k → loadable g readable s k = true ∧ Usable g s k) ↔
          loadable g readable s i = true ∧ Usable g s i :=
        ⟨fun hk => hk i rfl, fun hu k hk => Option.some.inj hk ▸ hu⟩
      rw [hchosen]
      cases hload : loadable g readable s i with
      | false =>
        refine iff_of_false ?_ fun hu => absurd hu.1 (by decide)
        rintro ⟨fuel, s', x, hsome, -⟩
        cases fuel with
        | zero => cases hsome
        | succ fuel =>
          rw [passes, readPass_crash h hload] at hsome
          cases hsome
      | true =>
        have hread := readPass_loadable h hload
        rw [eq_self, true_and]
        obtain hu | hfull | ⟨j, hj, hfree, hall, hbeyond⟩ := usable_cases g s i
        · obtain ⟨s', x, hpass, hx⟩ := newInodePass_usable hcache hparent h hu
          refine iff_of_true ⟨1, s', x, ?_, fun hzero => absurd hzero hx⟩ hu
          rw [passes, hread, hpass]
          rfl
        · refine iff_of_false ?_ ?_
          · rintro ⟨fuel, s', x, hsome, -⟩
            rw [passes_full hparent fuel hcache h hfull] at hsome
            cases hsome
          · rintro ⟨j, hj, hfree, -⟩
            rw [hfull j hj] at hfree
            exact absurd hfree (by decide)
        · refine iff_of_false ?_ ?_
          · obtain ⟨s', hpass, htouched⟩ :=
              newInodePass_beyond hcache hparent h hj hfree hall hbeyond
            rintro ⟨fuel, s₁, x, hsome, hnull⟩
            cases fuel with
            | zero => cases hsome
            | succ fuel =>
              rw [passes, hread, hpass] at hsome
              obtain ⟨rfl, rfl⟩ : s' = s₁ ∧ 0 = x := by simpa using hsome
              exact htouched (hnull rfl)
          · rintro ⟨k, hk, hkfree, hkall, hvalid⟩
            have hkj : k = j := (first_free hk hkfree hkall).symm.trans (first_free hj hfree hall)
            exact hbeyond (hkj ▸ hvalid)

/-- The group 1 has free inodes, in the bitmap too. -/
theorem new_inode_returns_next :
    ∃ fuel s' x, newInodeLocked fourGroups (fun i => i = 1) 0 false true fuel (oneGroupFree 1) false =
      some (s', x, false) ∧ (x = 0 → Untouched (oneGroupFree 1) s') := by
  refine (new_inode_returns_iff (Cache.valid_empty _) (by decide) _ false true).2 fun _ i hi => ?_
  have hchosen : chosenGroup fourGroups 0 false (oneGroupFree 1) = some 1 := by decide
  obtain rfl : 1 = i := Option.some.inj (hchosen.symm.trans hi)
  exact ⟨by decide, 0, by decide, by decide, fun k hk => absurd hk (Nat.not_lt_zero k), by decide⟩

/-- All inodes of the group 1 are in use, and its counter says that there are free ones. -/
def promised : State := { oneGroupFree 1 with inodeBitmap := fun _ _ => true }

theorem new_inode_never_returns :
    ¬ ∃ fuel, newInodeLocked fourGroups (fun _ => true) 0 false true fuel promised false ≠ none := by
  rintro ⟨fuel, hsome⟩
  apply hsome
  rw [newInodeLocked, if_neg (by decide),
    @passes_full fourGroups _ promised 0 1 false (by decide) fuel (Cache.valid_empty _) (by decide)
      fun _ _ => rfl]
  rfl

end LinuxEvocation.Ext2
