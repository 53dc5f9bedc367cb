import LinuxEvocation.Mm.Unmap

/-!
# `sys_munmap` is all or nothing

The scan of `sys_munmap` moves the areas inside the range to a temporary list while it is still
looking for an area that the range cuts; when it finds one, it puts them back.

* `Covers`, `Cuts` — what the range may do to an area.
* `closes` — the areas that have been closed, one entry for each call.
* `sysMunmap_all_or_nothing` — the call refuses and changes nothing, or removes the areas inside
  the range and unmaps no page of another one.
-/

namespace LinuxEvocation.Mm

/-! ## The range and an area -/

/-- The range contains the area. -/
def Covers (addr len : UInt32) (a : VmArea) : Prop :=
  addr.toNat ≤ a.vmStart ∧ a.vmEnd ≤ (addr + len).toNat

instance (addr len : UInt32) (a : VmArea) : Decidable (Covers addr len a) :=
  inferInstanceAs (Decidable (_ ∧ _))

/-- The range and the area have an address in common. -/
def Meets (addr len : UInt32) (a : VmArea) : Prop :=
  ∃ x, addr.toNat ≤ x ∧ x < (addr + len).toNat ∧ a.vmStart ≤ x ∧ x < a.vmEnd

/-- **The range cuts the area**: it overlaps it without containing it. -/
def Cuts (addr len : UInt32) (a : VmArea) : Prop := Meets addr len a ∧ ¬ Covers addr len a

/-- The address lies inside the area, and not at its start. -/
def Within (addr : UInt32) (a : VmArea) : Prop := a.vmStart < addr.toNat ∧ addr.toNat < a.vmEnd

/-- An area as they are set up: not empty, and from the start of a page on. -/
structure VmArea.Proper (a : VmArea) : Prop where
  start_lt_end : a.vmStart < a.vmEnd
  aligned : a.vmStart % pageSize = 0

section Range

variable {addr len : UInt32} {a : VmArea}

theorem toNat_add_of_lt (h : addr.toNat + len.toNat < 2 ^ 32) :
    (addr + len).toNat = addr.toNat + len.toNat := by
  rw [UInt32.toNat_add]
  exact Nat.mod_eq_of_lt h

theorem meets_iff (h : addr.toNat + len.toNat < 2 ^ 32) (ha : a.Proper) :
    Meets addr len a ↔ 0 < len.toNat ∧ addr.toNat < a.vmEnd ∧ a.vmStart < (addr + len).toNat := by
  have hsum := toNat_add_of_lt h
  have hlt := ha.start_lt_end
  constructor
  · rintro ⟨x, h1, h2, h3, h4⟩
    omega
  · rintro ⟨h1, h2, h3⟩
    exact ⟨max addr.toNat a.vmStart, by omega, by omega, by omega, by omega⟩

/-- **The test of the scan**, in terms of addresses: an empty range is refused inside an area. -/
theorem straddles_iff (h : addr.toNat + len.toNat < 2 ^ 32) (ha : a.Proper) :
    straddles addr len a = true ↔ Cuts addr len a ∨ len = 0 ∧ Within addr a := by
  have hsum := toNat_add_of_lt h
  have hlt := ha.start_lt_end
  have hzero : len = 0 ↔ len.toNat = 0 := by
    rw [← UInt32.toNat_inj]
    rfl
  rw [Cuts, meets_iff h ha, hzero]
  simp only [straddles, Covers, Within, Bool.or_eq_true, Bool.and_eq_true, decide_eq_true_eq]
  omega

/-- An area that is neither cut nor contained lies outside the range, and outside the pages that
are unmapped for it. -/
theorem outside_of_kept (h : addr.toNat + len.toNat < 2 ^ 32) (ha : a.Proper)
    (hs : straddles addr len a = false) (hc : ¬ Covers addr len a)
    (haddr : addr.toNat % pageSize = 0) :
    a.vmEnd ≤ addr.toNat ∨ requestEnd addr len ≤ a.vmStart := by
  have hsum := toNat_add_of_lt h
  have hlt := ha.start_lt_end
  have halign := ha.aligned
  simp only [straddles, Bool.or_eq_false_iff, Bool.and_eq_false_iff, decide_eq_false_iff_not] at hs
  rw [Covers, hsum] at hc
  unfold requestEnd pageSize at *
  omega

end Range

/-! ## The scan -/

section Scan

variable {addr len : UInt32} {l kept free : List VmArea}

/-- **The scan that refuses nothing** keeps the areas outside the range, in their order, and takes
the others. -/
theorem munmapScan_kept {kept' free' : List VmArea}
    (h : munmapScan addr len kept free l = .ok (kept', free')) :
    kept' = kept ++ l.filter (fun a => ¬ Covers addr len a) ∧
      free' = (l.filter fun a => Covers addr len a).reverse ++ free := by
  induction l generalizing kept free with
  | nil =>
    rw [munmapScan] at h
    cases h
    simp
  | cons a l ih =>
    rw [munmapScan] at h
    split_ifs at h with hs hin
    · obtain ⟨h1, h2⟩ := ih h
      have hcov : Covers addr len a := hin
      refine ⟨?_, ?_⟩
      · rw [h1, List.filter_cons_of_neg (by simpa using hcov)]
      · rw [h2, List.filter_cons_of_pos (by simpa using hcov), List.reverse_cons,
          List.append_assoc]
        rfl
    · obtain ⟨h1, h2⟩ := ih h
      have hcov : ¬ Covers addr len a := hin
      refine ⟨?_, ?_⟩
      · rw [h1, List.filter_cons_of_pos (by simpa using hcov), List.append_assoc]
        rfl
      · rw [h2, List.filter_cons_of_neg (by simpa using hcov)]

/-- **The scan that refuses** puts back all that it has taken. -/
theorem munmapScan_restored {m : List VmArea} (h : munmapScan addr len kept free l = .error m) :
    m.Perm (kept ++ free ++ l) := by
  induction l generalizing kept free with
  | nil => cases h
  | cons a l ih =>
    rw [munmapScan] at h
    split_ifs at h with hs hin
    · cases h
      refine (free.reverse_perm.append_right _).trans ?_
      rw [← List.append_assoc]
      exact List.perm_append_comm.append_right _
    · refine (ih h).trans ?_
      rw [List.append_assoc, List.append_assoc]
      exact List.Perm.append_left kept List.perm_middle.symm
    · refine (ih h).trans ?_
      rw [List.append_assoc, List.append_assoc, List.append_assoc]
      refine List.Perm.append_left kept ?_
      rw [List.singleton_append]
      exact List.perm_middle.symm

end Scan

/-! ## The areas that are closed -/

/-- The areas that have been closed. -/
def closes (log : List Effect) : List VmArea :=
  log.filterMap fun e => match e with
    | .close a => some a
    | _ => none

theorem closes_append (l m : List Effect) : closes (l ++ m) = closes l ++ closes m :=
  List.filterMap_append

theorem closes_close (l : List VmArea) : closes (l.map Effect.close) = l := by
  induction l with
  | nil => rfl
  | cons a l ih => exact congrArg (a :: ·) ih

variable (reserved : Nat → Bool)

theorem clearEntry_closes (dir frame idx : Nat) (s : Memory) :
    closes (clearEntry reserved dir frame idx s).log = closes s.log := by
  unfold clearEntry
  simp only
  by_cases h0 : s.pageTable frame idx ≠ 0
  · rw [if_pos h0, closes_append]
    -- neither of the two effects is a call of `close`
    split_ifs <;> exact List.append_nil _
  · rw [if_neg h0]

theorem clearEntries_closes (dir frame pc idx : Nat) (s : Memory) :
    closes (clearEntries reserved dir frame pc idx s).log = closes s.log := by
  induction pc generalizing idx s with
  | zero => rfl
  | succ pc ih => exact (ih _ _).trans (clearEntry_closes reserved dir frame idx s)

theorem unmapRound_closes (s : Memory) (dir poff pcnt : Nat) :
    closes (unmapRound reserved s dir poff pcnt).1.log = closes s.log := by
  unfold unmapRound
  simp only
  split_ifs
  · rfl
  · show closes (_ ++ _) = _
    rw [closes_append, clearEntries_closes]
    exact List.append_nil _
  · exact clearEntries_closes reserved _ _ _ _ _
  · rfl

theorem unmapLoop_closes (fuel : Nat) (s : Memory) (dir poff pcnt size : Nat) :
    closes (unmapLoop reserved fuel s dir poff pcnt size).log = closes s.log := by
  induction fuel generalizing s dir poff pcnt size with
  | zero => rfl
  | succ fuel ih =>
    rw [unmapLoop_succ]
    split_ifs
    · rfl
    · exact (ih _ _ _ _ _).trans (unmapRound_closes reserved s dir poff pcnt)

theorem unmapLoop_mmap (fuel : Nat) (s : Memory) (dir poff pcnt size : Nat) :
    (unmapLoop reserved fuel s dir poff pcnt size).mmap = s.mmap := by
  induction fuel generalizing s dir poff pcnt size with
  | zero => rfl
  | succ fuel ih =>
    rw [unmapLoop_succ]
    split_ifs
    · rfl
    · exact (ih _ _ _ _ _).trans (unmapRound_mmap reserved s dir poff pcnt)

/-! ## The call -/

/-- What a call of `sys_munmap` that returns `ret` makes of `s`. -/
structure AllOrNothing (s s' : Memory) (ret : Int) (addr len : UInt32) : Prop where
  /-- It is refused when the check of its arguments fails, or the range cuts an area, or is an
  empty one inside an area; ... -/
  einval_iff : ret = -Errno.einval ↔ ¬ munmapAccepts addr len ∨
    (∃ a ∈ s.mmap, Cuts addr len a) ∨ len = 0 ∧ ∃ a ∈ s.mmap, Within addr a
  /-- ... then the areas are those there were, and nothing else has changed. -/
  refused : ret = -Errno.einval → s'.mmap.Perm s.mmap ∧ s' = { s with mmap := s'.mmap }
  /-- Otherwise the areas in the range go, the others stay, ... -/
  removed : ret ≠ -Errno.einval → ret = 0 ∧ s'.mmap = s.mmap.filter fun a => ¬ Covers addr len a
  /-- ... each of the former is closed once, ... -/
  closed : ret ≠ -Errno.einval →
    (closes s'.log).Perm (s.mmap.filter fun a => Covers addr len a)
  /-- ... and no page that is unmapped has an address of one of the latter. -/
  unmapped : ret ≠ -Errno.einval → ∀ dir idx page, .clearPte dir idx page ∈ s'.log →
    ∀ a ∈ s'.mmap, a.vmEnd ≤ (dir * ptrsPerPage + idx) * pageSize ∨
      (dir * ptrsPerPage + idx + 1) * pageSize ≤ a.vmStart

/-- **`sys_munmap` is all or nothing**, for every list of proper areas and every range that does
not wrap. -/
theorem sysMunmap_all_or_nothing (s : AddressSpace) {addr len : UInt32}
    (hareas : ∀ a ∈ s.mmap, a.Proper) (hwrap : addr.toNat + len.toNat < 2 ^ 32) :
    AllOrNothing s.toMemory (sysMunmap reserved s.toMemory addr len).2
      (sysMunmap reserved s.toMemory addr len).1 addr len := by
  have hstraddles : ((∃ a ∈ s.mmap, straddles addr len a = true) ↔
      (∃ a ∈ s.mmap, Cuts addr len a) ∨ len = 0 ∧ ∃ a ∈ s.mmap, Within addr a) := by
    constructor
    · rintro ⟨a, ha, hs⟩
      rcases (straddles_iff hwrap (hareas a ha)).1 hs with hc | ⟨h0, hw⟩
      · exact .inl ⟨a, ha, hc⟩
      · exact .inr ⟨h0, a, ha, hw⟩
    · rintro (⟨a, ha, hc⟩ | ⟨h0, a, ha, hw⟩)
      · exact ⟨a, ha, (straddles_iff hwrap (hareas a ha)).2 (.inl hc)⟩
      · exact ⟨a, ha, (straddles_iff hwrap (hareas a ha)).2 (.inr ⟨h0, hw⟩)⟩
  by_cases hacc : munmapAccepts addr len
  · cases hscan : munmapScan addr len [] [] s.mmap with
    | error m =>
      have hcall : sysMunmap reserved s.toMemory addr len =
          (-Errno.einval, { s.toMemory with mmap := m }) := by
        rw [sysMunmap, if_neg (not_not.2 hacc), hscan]
      rw [hcall]
      have hperm : m.Perm s.mmap := munmapScan_restored hscan
      refine ⟨iff_of_true rfl (.inr (hstraddles.1 (munmapScan_error hscan))),
        fun _ => ⟨hperm, rfl⟩, fun h => absurd rfl h, fun h => absurd rfl h,
        fun h => absurd rfl h⟩
    | ok p =>
      obtain ⟨kept, free⟩ := p
      obtain ⟨hkept, hfree⟩ := munmapScan_kept hscan
      obtain ⟨-, hnone⟩ := munmapScan_free hscan
      rw [List.nil_append] at hkept
      rw [List.append_nil] at hfree
      obtain ⟨halign, -, -, -⟩ := id hacc
      have hcall : sysMunmap reserved s.toMemory addr len = (0, unmapLoop reserved (pageCount len)
          (s.closed kept free) (addr.toNat / (pageSize * ptrsPerPage))
          (addr.toNat / pageSize % ptrsPerPage)
          (min (ptrsPerPage - addr.toNat / pageSize % ptrsPerPage) (pageCount len))
          (pageCount len)) := by
        rw [sysMunmap, if_neg (not_not.2 hacc), hscan]
        simp only [unmapPageRange, halign, ne_eq, not_true_eq_false, if_false]
        rfl
      have hmmap : (sysMunmap reserved s.toMemory addr len).2.mmap = kept := by
        rw [hcall]
        exact unmapLoop_mmap reserved _ _ _ _ _ _
      have hret : (sysMunmap reserved s.toMemory addr len).1 = 0 := by rw [hcall]
      have hne : (0 : Int) ≠ -Errno.einval := by decide
      refine ⟨?_, fun h => ?_, fun _ => ⟨hret, hmmap.trans hkept⟩, fun _ => ?_, fun _ => ?_⟩
      · rw [hret]
        refine iff_of_false hne ?_
        rintro (h | h)
        · exact h hacc
        · obtain ⟨a, ha, hs⟩ := hstraddles.2 h
          rw [hnone a ha] at hs
          cases hs
      · rw [hret] at h
        exact absurd h hne
      · rw [hcall]
        show (closes (unmapLoop reserved _ _ _ _ _ _).log).Perm _
        rw [unmapLoop_closes, Memory.closed, s.log_nil, List.nil_append, closes_close, hfree]
        exact List.reverse_perm _
      · -- the walk stays between `addr` and the end of the range rounded up
        intro dir idx page he a ha
        rw [hmmap, hkept] at ha
        obtain ⟨hmem, hcov⟩ := List.mem_filter.1 ha
        have hout := outside_of_kept hwrap (hareas a hmem) (hnone a hmem) (of_decide_eq_true hcov)
          halign
        rw [hcall] at he
        have hwalk := s.walk (m := s.closed kept free) rfl addr (pageCount len)
        rcases unmapLoop_log reserved hwalk _ he with he | ⟨hlo, hhi⟩
        · -- the log held the areas closed, and nothing else
          rw [Memory.closed, s.log_nil, List.nil_append] at he
          obtain ⟨b, -, hb⟩ := List.mem_map.1 he
          cases hb
        · rw [walk_start halign] at hlo
          rw [Nat.add_mul (_ + _) (pageCount len), walk_start halign] at hhi
          have hbound : addr.toNat + pageCount len * pageSize ≤ requestEnd addr len := by
            unfold requestEnd pageCount pageSize at *
            omega
          omega
  · have hcall : sysMunmap reserved s.toMemory addr len = (-Errno.einval, s.toMemory) := by
      rw [sysMunmap, if_pos hacc]
    rw [hcall]
    exact ⟨iff_of_true rfl (.inl hacc), fun _ => ⟨List.Perm.refl _, rfl⟩, fun h => absurd rfl h,
      fun h => absurd rfl h, fun h => absurd rfl h⟩

/-- The area goes with a request for its pages. -/
theorem sysMunmap_all_or_nothing_two_pages :
    (sysMunmap (fun _ => false) twoPages.toMemory 0x1000 0x2000).2.mmap = [] := by
  have hareas : ∀ a ∈ twoPages.mmap, a.Proper := by
    intro a ha
    rw [List.mem_singleton.1 ha]
    exact ⟨by decide, by decide⟩
  have hwrap : (0x1000 : UInt32).toNat + (0x2000 : UInt32).toNat < 2 ^ 32 := by decide
  have hall := sysMunmap_all_or_nothing (fun _ => false) twoPages hareas hwrap
  have hret : (sysMunmap (fun _ => false) twoPages.toMemory 0x1000 0x2000).1 ≠ -Errno.einval := by
    decide +kernel
  rw [(hall.removed hret).2]
  decide

/-- **An empty range is refused** when it lies inside an area, which it does not overlap. -/
theorem sysMunmap_refuses_empty :
    munmapAccepts 0x2000 0 ∧
      (sysMunmap (fun _ => false) twoPages.toMemory 0x2000 0).1 = -Errno.einval ∧
      ¬ ∃ a ∈ twoPages.mmap, Cuts 0x2000 0 a := by
  refine ⟨by decide, by decide, ?_⟩
  rintro ⟨a, -, ⟨x, h1, h2, -⟩, -⟩
  exact absurd (h1.trans_lt h2) (by decide)

end LinuxEvocation.Mm
