import LinuxEvocation.Mm.Page

/-!
# Swap slots: `get_swap_page` and `swap_free`

A swap entry, as it stands in a page table, names a swap area (its type) and a page of the area
(its offset).  Each area counts the references to its pages in `swap_map`, and keeps bounds
between which a free page may be found.  The type `SHM_SWP_TYPE` is not an area: such an entry is
the signature of a shared segment, and is counted elsewhere.

* `swpType`, `swpOffset`, `swpEntry` — the format of an entry.
* `SwapInfo`, `Swap` — the areas.
* `getSwapPage`, `swapDuplicate`, `swapFree` — the code.
* `Swap.Names`, `swapFree_count` — when `swap_free` drops a reference.
-/

namespace LinuxEvocation.Mm

/-! ## Entries -/

/-- `SHM_SWP_TYPE`. -/
def shmSwpType : Nat := 0x41

/-- `SWAP_BITS`: the pages of an area that its header has a bit for. -/
def swapBits : Nat := pageSize

/-- `MAX_SWAPFILES`. -/
def maxSwapfiles : Nat := 8

/-- `SWP_TYPE(entry)`. -/
def swpType (entry : Nat) : Nat := entry / 2 % 128

/-- `SWP_OFFSET(entry)`. -/
def swpOffset (entry : Nat) : Nat := entry / pageSize

/-- `SWP_ENTRY(type,offset)`. -/
def swpEntry (type offset : Nat) : Nat := type * 2 + offset * pageSize

theorem swpType_swpEntry {type : Nat} (h : type < 128) (offset : Nat) :
    swpType (swpEntry type offset) = type := by
  unfold swpType swpEntry pageSize
  omega

theorem swpOffset_swpEntry {type : Nat} (h : type < 128) (offset : Nat) :
    swpOffset (swpEntry type offset) = offset := by
  unfold swpOffset swpEntry pageSize
  omega

/-! ## The areas -/

/-- `struct swap_info_struct`. -/
structure SwapInfo where
  flags : Nat
  /-- The references to each page, in an `unsigned char`. -/
  swapMap : Nat → Nat
  lowestBit : Nat
  highestBit : Nat

/-- `SWP_USED`. -/
def SwapInfo.used (p : SwapInfo) : Bool := p.flags % 2 = 1

/-- `(p->flags & SWP_WRITEOK) == SWP_WRITEOK`. -/
def SwapInfo.writeOk (p : SwapInfo) : Bool := p.flags % 4 = 3

/-- `swap_info`, up to `nr_swapfiles`, and the number of free pages. -/
structure Swap where
  info : List SwapInfo
  nrSwapPages : Int

/-- What `swapon` sets up: the page 0 of an area is its header and never free, and the header has
a bit for each page. -/
structure Swap.Ok (s : Swap) : Prop where
  length_le : s.info.length ≤ maxSwapfiles
  lowest_pos : ∀ p ∈ s.info, p.writeOk = true → 0 < p.lowestBit
  highest_lt : ∀ p ∈ s.info, p.writeOk = true → p.highestBit < swapBits

/-- The references to the page `offset` of the area `type`. -/
def Swap.count (s : Swap) (type offset : Nat) : Nat :=
  match s.info[type]? with
  | none => 0
  | some p => p.swapMap offset

/-! ## The code -/

/-- The first page of the area that is free, between its bounds. -/
def SwapInfo.freeOffset (p : SwapInfo) : Option Nat :=
  (List.range' p.lowestBit (p.highestBit + 1 - p.lowestBit)).find? fun offset =>
    p.swapMap offset = 0

/-- The free page `offset` is taken. -/
def SwapInfo.take (p : SwapInfo) (offset : Nat) : SwapInfo :=
  { p with
    swapMap := Function.update p.swapMap offset 1
    highestBit := if offset = p.highestBit then p.highestBit - 1 else p.highestBit
    lowestBit := offset }

/-- The loop of `get_swap_page`, from the area `type` on. -/
def takeFrom : Nat → List SwapInfo → Option (Nat × List SwapInfo)
  | _, [] => none
  | type, p :: rest =>
    match if p.writeOk then p.freeOffset else none with
    | some offset => some (swpEntry type offset, p.take offset :: rest)
    | none => (takeFrom (type + 1) rest).map fun r => (r.1, p :: r.2)

/-- `get_swap_page`; `none` is 0. -/
def getSwapPage (s : Swap) : Option (Nat × Swap) :=
  (takeFrom 0 s.info).map fun r => (r.1, ⟨r.2, s.nrSwapPages - 1⟩)

/-- `swap_duplicate(entry)`: the entry for the copy. -/
def swapDuplicate (entry : Nat) (s : Swap) : Nat × Swap :=
  if entry = 0 then (0, s)
  else if swpType entry = shmSwpType then (entry, s)
  else
    match s.info[swpType entry]? with
    -- "Trying to duplicate nonexistent swap-page"
    | none => (0, s)
    | some p =>
      if swpOffset entry ≥ swapBits then (0, s)
      -- "swap_duplicate: trying to duplicate unused page"
      else if p.swapMap (swpOffset entry) = 0 then (0, s)
      else
        (entry,
          ⟨s.info.set (swpType entry)
            { p with
              swapMap := Function.update p.swapMap (swpOffset entry)
                ((p.swapMap (swpOffset entry) + 1) % 256) }, s.nrSwapPages⟩)

/-- A reference to the page `offset` is dropped. -/
def SwapInfo.drop (p : SwapInfo) (offset : Nat) : SwapInfo :=
  { p with
    lowestBit := if offset < p.lowestBit then offset else p.lowestBit
    highestBit := if offset > p.highestBit then offset else p.highestBit
    swapMap := Function.update p.swapMap offset (p.swapMap offset - 1) }

/-- `swap_free(entry)`. -/
def swapFree (entry : Nat) (s : Swap) : Swap :=
  if entry = 0 ∨ swpType entry = shmSwpType then s
  else
    match s.info[swpType entry]? with
    -- "Trying to free nonexistent swap-page"
    | none => s
    | some p =>
      if swpOffset entry ≥ swapBits ∨ p.used = false then s
      else
        ⟨s.info.set (swpType entry) (p.drop (swpOffset entry)),
          if p.swapMap (swpOffset entry) = 1 then s.nrSwapPages + 1 else s.nrSwapPages⟩

/-! ## A slot reserved and freed -/

section Reserve

theorem SwapInfo.used_of_writeOk {p : SwapInfo} (h : p.writeOk = true) : p.used = true := by
  simp only [SwapInfo.writeOk, SwapInfo.used, decide_eq_true_eq] at h ⊢
  omega

/-- What `get_swap_page` finds: a free page of an area that may be written. -/
theorem takeFrom_spec {type entry : Nat} {l l' : List SwapInfo}
    (h : takeFrom type l = some (entry, l')) :
    ∃ i p offset, l[i]? = some p ∧ p.writeOk = true ∧ p.lowestBit ≤ offset ∧
      offset ≤ p.highestBit ∧ p.swapMap offset = 0 ∧ entry = swpEntry (type + i) offset ∧
      l' = l.set i (p.take offset) := by
  induction l generalizing type entry l' with
  | nil => cases h
  | cons p rest ih =>
    rw [takeFrom] at h
    split at h
    · rename_i offset hfree
      cases h
      obtain ⟨hw, hfree⟩ : p.writeOk = true ∧ p.freeOffset = some offset := by
        by_cases hw : p.writeOk = true
        · exact ⟨hw, by rwa [if_pos hw] at hfree⟩
        · rw [if_neg hw] at hfree
          cases hfree
      have hmem := List.mem_of_find?_eq_some hfree
      have hzero := List.find?_some hfree
      rw [List.mem_range'_1] at hmem
      exact ⟨0, p, offset, rfl, hw, hmem.1, by omega, by simpa using hzero, rfl, rfl⟩
    · obtain ⟨r, hr, heq⟩ := Option.map_eq_some_iff.1 h
      cases heq
      obtain ⟨i, q, offset, hq, hw, hlo, hhi, hzero, hentry, hl⟩ := @ih _ r.1 r.2 hr
      refine ⟨i + 1, q, offset, hq, hw, hlo, hhi, hzero, ?_, ?_⟩
      · rw [hentry, Nat.add_assoc, Nat.add_comm 1 i]
      · rw [hl, List.set_cons_succ]

/-- The counts of all swap pages, and the number of those that are free, are the same. -/
def SameSlots (s s' : Swap) : Prop :=
  (∀ type offset, s'.count type offset = s.count type offset) ∧ s'.nrSwapPages = s.nrSwapPages

/-- **A slot that is reserved and freed** is as it was. -/
theorem swapFree_getSwapPage {s s' : Swap} (hs : s.Ok) {entry : Nat}
    (h : getSwapPage s = some (entry, s')) : SameSlots s (swapFree entry s') := by
  obtain ⟨r, hr, heq⟩ := Option.map_eq_some_iff.1 h
  cases heq
  obtain ⟨i, p, offset, hp, hw, hlo, hhi, hzero, hentry, hl⟩ :=
    @takeFrom_spec 0 r.1 s.info r.2 hr
  have hmem := List.mem_of_getElem? hp
  have hpos := hs.lowest_pos p hmem hw
  have hlt := hs.highest_lt p hmem hw
  obtain ⟨hi, hpi⟩ := List.getElem?_eq_some_iff.1 hp
  have hlen : i < maxSwapfiles := lt_of_lt_of_le hi hs.length_le
  have hi' : i < 128 := by
    unfold maxSwapfiles at hlen
    omega
  rw [Nat.zero_add] at hentry
  have htype : swpType r.1 = i := by rw [hentry, swpType_swpEntry hi']
  have hoff : swpOffset r.1 = offset := by rw [hentry, swpOffset_swpEntry hi']
  have hne : ¬ (r.1 = 0 ∨ swpType r.1 = shmSwpType) := by
    rintro (h0 | h0)
    · rw [hentry] at h0
      unfold swpEntry pageSize at h0
      omega
    · rw [htype] at h0
      unfold shmSwpType maxSwapfiles at *
      omega
  have hget : r.2[i]? = some (p.take offset) := by
    rw [hl, List.getElem?_set_self hi]
  have hok : ¬ (offset ≥ swapBits ∨ (p.take offset).used = false) := by
    rintro (h0 | h0)
    · omega
    · have hused : (p.take offset).used = true := SwapInfo.used_of_writeOk hw
      rw [hused] at h0
      cases h0
  have hone : (p.take offset).swapMap offset = 1 := by simp [SwapInfo.take]
  unfold swapFree
  rw [if_neg hne]
  simp only [htype, hoff, hget, if_neg hok, if_pos hone]
  refine ⟨fun type off => ?_, by simp⟩
  unfold Swap.count
  simp only [hl, List.set_set]
  by_cases ht : i = type
  · subst ht
    rw [List.getElem?_set_self hi, hp]
    by_cases ho : off = offset
    · subst ho
      simp [SwapInfo.drop, SwapInfo.take, hzero]
    · simp [SwapInfo.drop, SwapInfo.take, ho]
  · rw [List.getElem?_set_ne ht]

end Reserve

/-! ## A reference dropped -/

/-- `swap_free` finds a page to give back: the entry names one of an area in use. -/
def Swap.Names (s : Swap) (entry : Nat) : Prop :=
  entry ≠ 0 ∧ swpType entry ≠ shmSwpType ∧
    ∃ p, s.info[swpType entry]? = some p ∧ swpOffset entry < swapBits ∧ p.used = true

section Drop

variable {s : Swap} {entry : Nat}

theorem swapFree_of_not_names (h : ¬ s.Names entry) : swapFree entry s = s := by
  unfold swapFree
  split_ifs with h0
  · rfl
  · rw [not_or] at h0
    split
    · rfl
    · rename_i p hp
      by_cases hbad : swpOffset entry ≥ swapBits ∨ p.used = false
      · rw [if_pos hbad]
      · rw [not_or] at hbad
        exact absurd ⟨h0.1, h0.2, p, hp, not_le.1 hbad.1, by simpa using hbad.2⟩ h

theorem swapFree_count (h : s.Names entry) (type offset : Nat) :
    (swapFree entry s).count type offset =
      if type = swpType entry ∧ offset = swpOffset entry then s.count type offset - 1
      else s.count type offset := by
  obtain ⟨h0, hshm, p, hp, hoff, hused⟩ := h
  have hlt : swpType entry < s.info.length := (List.getElem?_eq_some_iff.1 hp).1
  unfold swapFree
  rw [if_neg (not_or.2 ⟨h0, hshm⟩)]
  simp only [hp]
  rw [if_neg (not_or.2 ⟨not_le.2 hoff, by simp [hused]⟩)]
  unfold Swap.count
  simp only
  by_cases ht : type = swpType entry
  · subst ht
    rw [List.getElem?_set_self hlt, hp]
    by_cases ho : offset = swpOffset entry
    · subst ho
      simp [SwapInfo.drop]
    · simp [SwapInfo.drop, ho]
  · rw [List.getElem?_set_ne (Ne.symm ht), if_neg fun h => ht h.1]

theorem swapFree_count_le (type offset : Nat) :
    (swapFree entry s).count type offset ≤ s.count type offset := by
  by_cases h : s.Names entry
  · rw [swapFree_count h]
    split_ifs
    · exact Nat.sub_le _ _
    · exact le_rfl
  · rw [swapFree_of_not_names h]

theorem swapFree_length : (swapFree entry s).info.length = s.info.length := by
  unfold swapFree
  split
  · rfl
  · split
    · rfl
    · split
      · rfl
      · exact List.length_set

end Drop

end LinuxEvocation.Mm
