import LinuxEvocation.Fs.Locks.Scan

/-!
# What a call of `lock_it` can add

For an arbitrary list, sorted or not, a call of `lock_it` gives its owner nothing
but the range it asked for: a byte that a record of the owner covers afterwards was
covered by a record of the same type before, or lies in the requested range and the
record has the requested type (`lockGroup_extent`).  Merging does not widen a record
over bytes nobody asked for, and cutting only takes bytes away.

This is what keeps the locks of different owners apart (`Fs/Locks/System.lean`), and
it holds even where the sum `caller->fl_end + 1` wraps.
-/

namespace LinuxEvocation.Locks

variable {Task : Type}

/-- The bytes a record covers. -/
def FileLock.Has (fl : FileLock Task) (b : Int) : Prop := fl.flStart ≤ b ∧ b ≤ fl.flEnd

instance (fl : FileLock Task) (b : Int) : Decidable (fl.Has b) :=
  inferInstanceAs (Decidable (_ ∧ _))

/-- The values the offsets of a record can take.  A record cut to nothing from below the
first byte ends at `-1`. -/
structure FileLock.InRange (fl : FileLock Task) : Prop where
  start_nonneg : 0 ≤ fl.flStart
  start_le : fl.flStart ≤ offsetMax
  le_end : -1 ≤ fl.flEnd
  end_le : fl.flEnd ≤ offsetMax

/-- A request as `copy_flock` makes them. -/
structure FileLock.Proper (fl : FileLock Task) : Prop where
  start_nonneg : 0 ≤ fl.flStart
  start_le_end : fl.flStart ≤ fl.flEnd
  end_le : fl.flEnd ≤ offsetMax

variable {fl : FileLock Task}

theorem FileLock.Proper.inRange (h : fl.Proper) : fl.InRange := by
  obtain ⟨h1, h2, h3⟩ := h
  exact ⟨h1, by omega, by omega, h3⟩

/-- The byte `b` was covered by a record of type `t` of the list `G`, or the request `r`
is for it. -/
def Allowed (G : List (Entry Task)) (r : FileLock Task) (t : LockType) (b : Int) : Prop :=
  (t = r.flType ∧ r.Has b) ∨ ∃ y ∈ G, y.fl.flType = t ∧ y.fl.Has b

/-- A record that covers allowed bytes only. -/
structure Legit (G : List (Entry Task)) (r fl : FileLock Task) : Prop where
  inRange : fl.InRange
  allowed : ∀ b, fl.Has b → Allowed G r fl.flType b

variable {G : List (Entry Task)} {r : FileLock Task} {x : Entry Task}

theorem Legit.of_mem (h : x ∈ G) (hx : x.fl.InRange) : Legit G r x.fl :=
  ⟨hx, fun _ hb => .inr ⟨x, h, rfl, hb⟩⟩

/-- A record with a smaller range of the same type. -/
theorem Legit.mono {fl' : FileLock Task} (h : Legit G r fl)
    (hr : fl'.InRange) (ht : fl'.flType = fl.flType) (h1 : fl.flStart ≤ fl'.flStart)
    (h2 : fl'.flEnd ≤ fl.flEnd) : Legit G r fl' := by
  refine ⟨hr, fun b hb => ?_⟩
  rw [ht]
  exact h.allowed b ⟨le_trans h1 hb.1, le_trans hb.2 h2⟩

/-- A copy of a record made by `alloc_lock`. -/
theorem Legit.alloc {G : List (Entry Task)} {r fl : FileLock Task} (h : Legit G r fl) (O : Task)
    (tmp : Entry Task) : Legit G r (allocEntry O tmp fl).fl := by
  obtain ⟨⟨h1, h2, h3, h4⟩, ha⟩ := h
  exact ⟨⟨h1, h2, h3, h4⟩, ha⟩

/-- Offsets of one record below those of another stay in range when one is increased or
decreased by one. -/
theorem offT_succ {e : Int} (h0 : -1 ≤ e) (h : e < fl.flEnd)
    (hfl : fl.InRange) : offT (e + 1) = e + 1 := by
  have := hfl.end_le
  unfold offsetMax at this
  exact offT_of_mem (by omega) (by omega)

theorem offT_pred {s : Int} (h0 : 0 ≤ s) (h : s ≤ offsetMax) : offT (s - 1) = s - 1 := by
  unfold offsetMax at h
  exact offT_of_mem (by omega) (by omega)

/-- One record made of two of the same type that overlap or touch. -/
theorem Legit.merge {caller fl' : FileLock Task}
    (hc : Legit G r caller) (hf : Legit G r fl) (ht : caller.flType = fl.flType)
    (h1 : offT (caller.flStart - 1) ≤ fl.flEnd) (h2 : fl.flStart ≤ offT (caller.flEnd + 1)) (ht' : fl'.flType = fl.flType)
    (hs' : fl'.flStart = mergeStart caller fl) (he' : fl'.flEnd = mergeEnd caller fl) :
    Legit G r fl' := by
  obtain ⟨⟨c1, c2, c3, c4⟩, hca⟩ := hc
  obtain ⟨⟨f1, f2, f3, f4⟩, hfa⟩ := hf
  rw [offT_pred c1 c2] at h1
  have hwrap : caller.flEnd < offsetMax := by
    by_contra hge
    have hmax : caller.flEnd = offsetMax := by omega
    rw [hmax, offT_offsetMax_add_one] at h2
    omega
  rw [offT_of_mem (by omega) (by unfold offsetMax at hwrap; omega)] at h2
  have hS : fl'.flStart = min caller.flStart fl.flStart := by
    rw [hs', mergeStart]
    split <;> omega
  have hE : fl'.flEnd = max caller.flEnd fl.flEnd := by
    rw [he', mergeEnd]
    split <;> omega
  refine ⟨⟨by omega, by omega, by omega, by omega⟩, fun b hb => ?_⟩
  obtain ⟨hb1, hb2⟩ := hb
  rw [ht']
  by_cases hcb : caller.flStart ≤ b ∧ b ≤ caller.flEnd
  · exact ht ▸ hca b hcb
  · exact hfa b ⟨by omega, by omega⟩

/-- What the loop keeps: the caller and every record are legitimate, the caller still
contains the request, and `left` and `right` reach into the caller's range. -/
structure Scan.Extent (G : List (Entry Task)) (r : FileLock Task) (c : Scan Task)
    (rest : List (Entry Task)) : Prop where
  type : c.caller.flType = r.flType
  start_le : c.caller.flStart ≤ r.flStart
  le_end : r.flEnd ≤ c.caller.flEnd
  caller : Legit G r c.caller
  listed : ∀ x ∈ c.passed ++ rest, Legit G r x.fl
  callerAt : ∀ a ∈ c.callerAt, a ∈ addrs c.passed
  aliased : ∀ x ∈ c.passed, c.callerAt = some x.addr → x.fl.flType = r.flType
  left : ∀ x ∈ c.passed ++ rest, c.left = some x.addr → c.caller.flStart ≤ x.fl.flEnd
  right : ∀ x ∈ c.passed ++ rest, ∀ y ∈ c.right, y.addr = x.addr →
    x.fl.flStart ≤ c.caller.flEnd ∧ c.caller.flEnd < x.fl.flEnd

/-- Stepping over a record that is left as it is. -/
theorem Scan.Extent.next {G : List (Entry Task)} {r : FileLock Task} {c : Scan Task}
    {n : Entry Task} {rest : List (Entry Task)} (h : c.Extent G r (n :: rest))
    (hfresh : n.addr ∉ addrs c.passed) : (c.next n).Extent G r rest := by
  have happ : (c.next n).passed ++ rest = c.passed ++ n :: rest := by simp [Scan.next]
  obtain ⟨h1, h2, h3, h4, h5, h6, h7, h8, h9⟩ := h
  rw [← happ] at h5 h8 h9
  refine ⟨h1, h2, h3, h4, h5, fun a ha => ?_, fun x hx hxa => ?_, h8, h9⟩
  · simp only [Scan.next, addrs_append]
    exact List.mem_append_left _ (h6 a ha)
  rcases List.mem_append.1 hx with hx | hx
  · exact h7 x hx hxa
  · rw [List.mem_singleton.1 hx] at hxa
    exact absurd (h6 _ hxa) hfresh

variable {c : Scan Task} {n : Entry Task}

/-- What the records of the list are after a write through `caller`. -/
theorem Scan.mem_mergeCaller (h : x ∈ (c.mergeCaller n).passed) :
    x ∈ c.passed ∨ ∃ y ∈ c.passed, c.callerAt = some y.addr ∧
      x = { y with fl := { y.fl with flStart := mergeStart c.caller n.fl,
                                     flEnd := mergeEnd c.caller n.fl } } := by
  unfold Scan.mergeCaller Scan.writeCaller at h
  cases hc : c.callerAt with
  | none => exact .inl (by simpa [hc] using h)
  | some a =>
    simp only [hc] at h
    rcases mem_modifyAt h with h | ⟨y, hy, rfl, rfl⟩
    · exact .inl h
    · exact .inr ⟨y, hy, rfl, rfl⟩

theorem mergeStart_le (caller fl : FileLock Task) : mergeStart caller fl ≤ caller.flStart := by
  unfold mergeStart
  split <;> omega

theorem le_mergeEnd (caller fl : FileLock Task) : caller.flEnd ≤ mergeEnd caller fl := by
  unfold mergeEnd
  split <;> omega

variable {rest : List (Entry Task)}

/-- Merging the caller with the record `n`: the records behind us and the caller. -/
theorem Scan.Extent.mergeCaller (hr : r.Proper) (h : c.Extent G r (n :: rest))
    (hright : c.right = none) (ht : c.caller.flType = n.fl.flType)
    (h1 : offT (c.caller.flStart - 1) ≤ n.fl.flEnd)
    (h2 : n.fl.flStart ≤ offT (c.caller.flEnd + 1)) : (c.mergeCaller n).Extent G r rest := by
  have hn : Legit G r n.fl := h.listed n (by simp)
  have hlo := mergeStart_le c.caller n.fl
  have hhi := le_mergeEnd c.caller n.fl
  have hre := hr.start_le_end
  have hmerge : ∀ fl : FileLock Task, fl.flType = n.fl.flType →
      fl.flStart = mergeStart c.caller n.fl → fl.flEnd = mergeEnd c.caller n.fl →
      Legit G r fl := fun fl hft hfs hfe => h.caller.merge hn ht h1 h2 hft hfs hfe
  have htn : r.flType = n.fl.flType := h.type.symm.trans ht
  refine ⟨h.type, le_trans hlo h.start_le, le_trans h.le_end hhi, hmerge _ ht rfl rfl, ?_, ?_,
    ?_, ?_, ?_⟩
  · intro x hx
    rcases List.mem_append.1 hx with hx | hx
    · rcases Scan.mem_mergeCaller hx with hx | ⟨y, hy, hat, rfl⟩
      · exact h.listed x (by simp [hx])
      · exact hmerge _ ((h.aliased y hy hat).trans htn) rfl rfl
    · exact h.listed x (by simp [hx])
  · intro a ha
    rw [Scan.mergeCaller_addrs]
    exact h.callerAt a ha
  · intro x hx hat
    rcases Scan.mem_mergeCaller hx with hx | ⟨y, hy, -, rfl⟩
    · exact h.aliased x hx hat
    · exact h.aliased y hy hat
  · intro x hx hl
    show mergeStart c.caller n.fl ≤ x.fl.flEnd
    rcases List.mem_append.1 hx with hx | hx
    · rcases Scan.mem_mergeCaller hx with hx | ⟨y, hy, -, rfl⟩
      · exact le_trans hlo (h.left x (by simp [hx]) hl)
      · have := h.start_le
        have := h.le_end
        show mergeStart c.caller n.fl ≤ mergeEnd c.caller n.fl
        omega
    · exact le_trans hlo (h.left x (by simp [hx]) hl)
  · intro x _ y hy
    have : c.right = some y := hy
    rw [hright] at this
    cases this

theorem mem_insert {m : Entry Task} {l : List (Entry Task)} :
    x ∈ l ++ m :: rest ↔ x = m ∨ x ∈ l ++ rest :=
  List.perm_middle.mem_iff.trans List.mem_cons

theorem Scan.mem_adopt {m : Entry Task} :
    x ∈ (c.adopt m).passed ++ rest ↔ x = m ∨ x ∈ c.passed ++ rest := by
  rw [← mem_insert, List.append_cons]
  rfl

theorem Scan.Extent.adopt {m : Entry Task} (h : c.Extent G r rest)
    (hright : c.right = none) (hm : m.fl.flType = r.flType)
    (hs : m.fl.flStart = c.caller.flStart) (he : m.fl.flEnd = c.caller.flEnd)
    (hleft : c.left ≠ some m.addr) (hfresh : m.addr ∉ addrs c.passed) :
    (c.adopt m).Extent G r rest := by
  have hml : Legit G r m.fl :=
    h.caller.mono ⟨hs ▸ h.caller.inRange.1, hs ▸ h.caller.inRange.2, he ▸ h.caller.inRange.3,
      he ▸ h.caller.inRange.4⟩ (hm.trans h.type.symm) hs.ge he.le
  refine ⟨hm, hs.le.trans h.start_le, h.le_end.trans he.ge, hml, ?_, ?_, ?_, ?_, ?_⟩
  · intro x hx
    rcases Scan.mem_adopt.1 hx with rfl | hx
    · exact hml
    · exact h.listed x hx
  · intro a ha
    rw [← Option.some.inj ha]
    simp [Scan.adopt]
  · intro x hx hat
    rcases List.mem_append.1 hx with hx | hx
    · have hxm : m.addr = x.addr := Option.some.inj hat
      exact absurd (hxm ▸ mem_addrs_of_mem hx) hfresh
    · rw [List.mem_singleton.1 hx, hm]
  · intro x hx hl
    rcases Scan.mem_adopt.1 hx with rfl | hx
    · exact absurd hl hleft
    · exact hs.le.trans (h.left x hx hl)
  · intro x _ y hy
    have : c.right = some y := hy
    rw [hright] at this
    cases this

variable {O : Task} {all : List Slot}

theorem Scan.Sound.nodup (h : c.Sound O all rest) (hall : all.Nodup) :
    (addrs c.passed ++ addrs rest ++ addrs c.free).Nodup := h.perm.nodup_iff.2 hall

/-- The record at `*before` is none of those behind us. -/
theorem Scan.Sound.head_fresh (h : c.Sound O all (n :: rest)) (hall : all.Nodup) :
    n.addr ∉ addrs c.passed := by
  have hnd := (List.nodup_append.1 (h.nodup hall)).1
  intro hmem
  exact (List.nodup_append.1 hnd).2.2 _ hmem _ (by simp) rfl

theorem addr_inj_of_nodup {l : List (Entry Task)} (h : (addrs l).Nodup) {y : Entry Task}
    (hx : x ∈ l) (hy : y ∈ l) (ha : x.addr = y.addr) : x = y :=
  List.inj_on_of_nodup_map h hx hy ha

theorem Scan.Sound.addr_inj (h : c.Sound O all rest) (hall : all.Nodup) {y : Entry Task}
    (hx : x ∈ c.passed ++ rest) (hy : y ∈ c.passed ++ rest) (ha : x.addr = y.addr) : x = y := by
  refine addr_inj_of_nodup ?_ hx hy ha
  rw [addrs_append]
  exact (List.nodup_append.1 (h.nodup hall)).1

/-- The extent does not depend on the other variables, and records may be dropped. -/
theorem Scan.Extent.mono {c' : Scan Task} {rest' : List (Entry Task)} (h : c.Extent G r rest)
    (hcaller : c'.caller = c.caller) (hpassed : c'.passed = c.passed)
    (hat : c'.callerAt = c.callerAt) (hleft : c'.left = c.left) (hright : c'.right = c.right)
    (hrest : rest' ⊆ rest) : c'.Extent G r rest' := by
  have hsub : ∀ x ∈ c'.passed ++ rest', x ∈ c.passed ++ rest := fun x hx => by
    rw [hpassed] at hx
    exact (List.mem_append.1 hx).elim (List.mem_append_left _) fun hx =>
      List.mem_append_right _ (hrest hx)
  refine ⟨?_, ?_, ?_, ?_, fun x hx => h.listed x (hsub x hx), ?_, ?_, fun x hx => ?_,
    fun x hx => ?_⟩
  · exact hcaller ▸ h.type
  · exact hcaller ▸ h.start_le
  · exact hcaller ▸ h.le_end
  · exact hcaller ▸ h.caller
  · exact hat ▸ hpassed ▸ h.callerAt
  · exact hat ▸ hpassed ▸ h.aliased
  · exact hcaller ▸ hleft ▸ h.left x (hsub x hx)
  · exact hcaller ▸ hright ▸ h.right x (hsub x hx)

/-- Meeting a record of another type sets `left` or `right`. -/
theorem Scan.Extent.marked (h : c.Extent G r rest) {left : Option Slot}
    {right : Option (Entry Task)}
    (hleft : ∀ x ∈ c.passed ++ rest, left = some x.addr → c.caller.flStart ≤ x.fl.flEnd)
    (hright : ∀ x ∈ c.passed ++ rest, ∀ y ∈ right, y.addr = x.addr →
      x.fl.flStart ≤ c.caller.flEnd ∧ c.caller.flEnd < x.fl.flEnd) :
    ({ c.mark with left := left, right := right } : Scan Task).Extent G r rest := by
  obtain ⟨h1, h2, h3, h4, h5, h6, h7, -, -⟩ := h
  unfold Scan.mark
  split <;> exact ⟨h1, h2, h3, h4, h5, h6, h7, hleft, hright⟩

/-- Every iteration that goes on keeps the extent. -/
theorem Move.extent (hall : all.Nodup) (hr : r.Proper) {c' : Scan Task}
    (hg : c.Going O all (n :: rest)) (h : c.Extent G r (n :: rest))
    (hm : Move c n c') : c'.Extent G r rest := by
  have hfresh := hg.head_fresh hall
  have hleft : c.left ≠ some n.addr := fun hl => hfresh (hg.left_passed _ hl)
  cases hm with
  | skipSame | skipLow => exact h.next hfresh
  | mergeFree ht h1 h2 =>
    exact (h.mergeCaller hr hg.right_none ht h1 h2).mono rfl rfl rfl rfl rfl (List.Subset.refl _)
  | mergeAdopt ht h1 h2 =>
    have hmc := h.mergeCaller hr hg.right_none ht h1 h2
    refine hmc.adopt hg.right_none ?_ rfl rfl hleft ?_
    · exact ht.symm.trans h.type
    · rw [Scan.mergeCaller_addrs]
      exact hfresh
  | coverFree =>
    exact h.mono c.mark_caller c.mark_passed c.mark_callerAt c.mark_left c.mark_right
      (List.subset_cons_self n rest)
  | coverReplace =>
    have hwoken : (c.wakeUp n).Extent G r rest :=
      h.mono rfl rfl rfl rfl rfl (List.subset_cons_self n rest)
    exact hwoken.adopt hg.right_none h.type rfl rfl hleft hfresh
  | clipLeft _ hmeets =>
    have hmarked : ({ c.mark with left := some n.addr } : Scan Task).Extent G r (n :: rest) := by
      refine h.marked (fun x hx hl => ?_) (by simp [hg.right_none])
      exact hg.addr_inj hall (by simp) hx (Option.some.inj hl) ▸ hmeets.1
    exact hmarked.next (by simpa using hfresh)

theorem Halt.extent (hall : all.Nodup) {c' : Scan Task}
    (hg : c.Going O all (n :: rest)) (h : c.Extent G r (n :: rest)) (hh : Halt c n c') :
    c'.Extent G r (n :: rest) := by
  have hsame : ∀ x ∈ c.passed ++ n :: rest, n.addr = x.addr → n = x := fun x hx ha =>
    hg.addr_inj hall (by simp) hx ha
  have hclip : n.fl.flStart ≤ c.caller.flEnd → c.caller.flEnd < n.fl.flEnd →
      ∀ x ∈ c.passed ++ n :: rest, ∀ y ∈ some n, y.addr = x.addr →
        x.fl.flStart ≤ c.caller.flEnd ∧ c.caller.flEnd < x.fl.flEnd := by
    rintro hlo hhi x hx y ⟨⟩ ha
    exact hsame x hx ha ▸ ⟨hlo, hhi⟩
  cases hh with
  | beyondSame | beyond => exact h
  | clipRight _ hmeets hhi hlo => exact h.marked (c.mark_left ▸ h.left) (hclip hmeets.2 hhi)
  | clipBoth _ hmeets hhi hlo =>
    refine h.marked (fun x hx hl => ?_) (hclip hmeets.2 hhi)
    exact hsame x hx (Option.some.inj hl) ▸ hmeets.1

/-- The list the two last writes are made to: legitimate records, and `left` and `right`
reach into the caller's range. -/
structure Cuttable (G : List (Entry Task)) (r : FileLock Task) (s e : Int) (left : Option Slot)
    (right : Option (Entry Task)) (l : List (Entry Task)) : Prop where
  start_nonneg : 0 ≤ s
  start_le : s ≤ r.flStart
  le_end : r.flEnd ≤ e
  listed : ∀ x ∈ l, Legit G r x.fl
  left : ∀ x ∈ l, left = some x.addr → s ≤ x.fl.flEnd
  right : ∀ x ∈ l, ∀ y ∈ right, y.addr = x.addr → x.fl.flStart ≤ e ∧ e < x.fl.flEnd

theorem Scan.Extent.cuttable (h : c.Extent G r rest) :
    Cuttable G r c.caller.flStart c.caller.flEnd c.left c.right (c.passed ++ rest) :=
  ⟨h.caller.inRange.start_nonneg, h.start_le, h.le_end, h.listed, h.left, h.right⟩

/-- A record is put in the list; `left` may point to it. -/
theorem Cuttable.insert {s e : Int} {left left' : Option Slot}
    {right : Option (Entry Task)} {l : List (Entry Task)} {m : Entry Task}
    (h : Cuttable G r s e left right (l ++ rest)) (hm : Legit G r m.fl)
    (hleft : ∀ x ∈ l ++ rest, left' = some x.addr → left = some x.addr)
    (hleftm : left' = some m.addr → s ≤ m.fl.flEnd)
    (hrightm : ∀ y ∈ right, y.addr ≠ m.addr) :
    Cuttable G r s e left' right (l ++ m :: rest) := by
  refine ⟨h.start_nonneg, h.start_le, h.le_end, ?_, ?_, ?_⟩ <;>
    intro x hx <;> rcases mem_insert.1 hx with rfl | hx
  · exact hm
  · exact h.listed x hx
  · exact hleftm
  · exact fun hl => h.left x hx (hleft x hx hl)
  · exact fun y hy ha => absurd ha (hrightm y hy)
  · exact h.right x hx

/-- The two last writes only take bytes away. -/
theorem Cuttable.cut (hr : r.Proper) {left : Option Slot}
    (h : Cuttable G r c.caller.flStart c.caller.flEnd left c.right (c.passed ++ rest)) :
    ∀ x ∈ (c.cut left rest).list, Legit G r x.fl := by
  obtain ⟨r1, r2, r3⟩ := hr
  obtain ⟨hs2, hs1, hend, listed, hleft, hright⟩ := h
  have hpred : offT (c.caller.flStart - 1) = c.caller.flStart - 1 := offT_pred hs2 (by omega)
  have hcut : ∀ x ∈ cutRight c.caller.flEnd c.right (c.passed ++ rest), Legit G r x.fl ∧
      (left = some x.addr → c.caller.flStart ≤ x.fl.flEnd) := by
    intro x hx
    rcases mem_cutRight hx with hx | ⟨y, z, hy, hz, ha, rfl⟩
    · exact ⟨listed x hx, hleft x hx⟩
    · obtain ⟨h1, h2⟩ := hright z hz y hy ha.symm
      have hxl := listed z hz
      have hsucc := offT_succ (by omega) h2 hxl.inRange
      obtain ⟨i1, i2, i3, i4⟩ := hxl.inRange
      refine ⟨hxl.mono ⟨?_, ?_, i3, i4⟩ rfl ?_ le_rfl, hleft z hz⟩
      all_goals simp only [hsucc]; omega
  intro x hx
  rcases mem_cutLeft hx with hx | ⟨z, hz, hl, rfl⟩
  · exact (hcut x hx).1
  · obtain ⟨hxl, hle⟩ := hcut z hz
    have hle := hle hl
    obtain ⟨i1, i2, i3, i4⟩ := hxl.inRange
    refine hxl.mono ⟨i1, i2, ?_, ?_⟩ rfl le_rfl ?_
    all_goals simp only [hpred]; omega

/-- Whatever happens after the loop, the owner is left with legitimate records. -/
theorem Ending.extent (hall : all.Nodup) (hr : r.Proper)
    {o : Outcome Task} (hs : c.Sound O all rest) (h : c.Extent G r rest)
    (he : Ending O c rest o) : ∀ x ∈ o.list, Legit G r x.fl := by
  -- the records taken from the free list are none of those on the list
  have hnew : ∀ tmp ∈ c.free, ∀ x ∈ c.passed ++ rest, x.addr ≠ tmp.addr := by
    intro tmp htmp x hx ha
    have hnd := List.nodup_append.1 (hs.nodup hall)
    refine hnd.2.2 x.addr ?_ _ (mem_addrs_of_mem htmp) ha
    rw [← addrs_append]
    exact mem_addrs_of_mem hx
  have hright : ∀ tmp ∈ c.free, ∀ y ∈ c.right, y.addr ≠ tmp.addr := fun tmp htmp y hy =>
    hnew tmp htmp y (List.mem_append_right _ (hs.right y hy))
  have hplaced : ∀ tmp ∈ c.free, Cuttable G r c.caller.flStart c.caller.flEnd c.left c.right
      (c.passed ++ allocEntry O tmp c.caller :: rest) := fun tmp htmp =>
    h.cuttable.insert (h.caller.alloc O tmp) (fun _ _ hl => hl)
      (fun hl => by
        obtain ⟨y, hy, hya⟩ := List.mem_map.1 (hs.left _ hl)
        exact absurd hya (hnew tmp htmp y hy))
      (hright tmp htmp)
  cases he with
  | refused => exact h.listed
  | rolledBack => exact h.listed
  | cut => exact h.cuttable.cut hr
  | cutNew tmp free hadd hu hf =>
    exact Cuttable.cut (c := c.placed O tmp free) hr (hplaced tmp (by simp [hf]))
  | broken r' tmp free hadd hb hf =>
    have htmp : tmp ∈ c.free := by simp [hf]
    have hr' : r' ∈ c.passed ++ rest := List.mem_append_right _ (hs.right r' hb.1)
    refine Cuttable.cut (c := c.took tmp free) hr (h.cuttable.insert
      ((h.listed r' hr').alloc O tmp) (fun x hx hl => ?_) (fun _ => h.left r' hr' hb.2)
      (hright tmp htmp))
    exact absurd (Option.some.inj hl).symm (hnew tmp htmp x hx)
  | brokenNew r' tmp tmp' free hadd hu hb hf =>
    have htmp' : tmp' ∈ c.free := by simp [hf]
    have hne : tmp.addr ≠ tmp'.addr := by
      have hnd := (List.nodup_append.1 (hs.nodup hall)).2.1
      rw [hf] at hnd
      simp only [addrs_cons, List.nodup_cons, List.mem_cons, not_or] at hnd
      exact hnd.1.1
    have hr' : r' ∈ c.passed ++ rest := List.mem_append_right _ (hs.right r' hb.1)
    refine Cuttable.cut (c := (c.placed O tmp (tmp' :: free)).took tmp' free) hr
      ((hplaced tmp (by simp [hf])).insert ((h.listed r' hr').alloc O tmp') (fun x hx hl => ?_)
        (fun _ => h.left r' hr' hb.2) (hright tmp' htmp'))
    rcases mem_insert.1 hx with rfl | hx
    · exact absurd (Option.some.inj hl).symm hne
    · exact absurd (Option.some.inj hl).symm (hnew tmp' htmp' x hx)

section

variable [DecidableEq Task]

/-- **What a call can add.**  Every record the owner has afterwards covers allowed bytes
only. -/
theorem lockGroup_extent {O : Task} {G free : List (Entry Task)} {caller : FileLock Task}
    (hcaller : caller.flOwner = some O) (hproper : caller.Proper)
    (hG : ∀ n ∈ G, n.fl.flOwner = some O) (hrange : ∀ n ∈ G, n.fl.InRange)
    (hfree : ∀ n ∈ free, n.fl.flOwner = none) (hnodup : (addrs G ++ addrs free).Nodup) :
    ∀ x ∈ (lockGroup O G free caller).list, Legit G caller x.fl := by
  have hstart : (Scan.start [] free caller).Extent G caller G := by
    refine ⟨rfl, le_rfl, le_rfl, ⟨hproper.inRange, fun b hb => .inl ⟨rfl, hb⟩⟩, ?_, ?_, ?_, ?_, ?_⟩
    · intro x hx
      exact Legit.of_mem hx (hrange x hx)
    all_goals simp [Scan.start]
  have hloop := lockItLoop_rule
    (P := fun c rest => c.Going O (addrs G ++ addrs free) rest ∧ c.Extent G caller rest)
    (Q := fun c rest => c.Sound O (addrs G ++ addrs free) rest ∧ c.Extent G caller rest)
    (fun c n rest c' h _ hm => ⟨hm.going h.1, hm.extent hnodup hproper h.1 h.2⟩)
    (fun c n rest c' h _ hh => ⟨hh.sound h.1, hh.extent hnodup h.1 h.2⟩)
    (fun c rest h _ => ⟨h.1.toSound, h.2⟩) G _ ⟨Scan.start_going hcaller hG hfree, hstart⟩
  exact Ending.extent hnodup hproper hloop.1 hloop.2 (Scan.finish_ending O _ _)

end

/-! ## Types -/

/-- A type the owner had on the list before, or the requested one if that is a lock. -/
def TypeAllowed (G : List (Entry Task)) (r : FileLock Task) (t : LockType) : Prop :=
  (t = r.flType ∧ r.flType ≠ .unlck) ∨ ∃ y ∈ G, y.fl.flType = t

/-- The caller keeps the requested type and every record has an allowed one. -/
def Scan.Typed (G : List (Entry Task)) (r : FileLock Task) (c : Scan Task)
    (rest : List (Entry Task)) : Prop :=
  c.caller.flType = r.flType ∧ ∀ x ∈ c.passed ++ rest, TypeAllowed G r x.fl.flType

theorem Move.typed {c' : Scan Task} (h : c.Typed G r (n :: rest)) (hm : Move c n c') :
    c'.Typed G r rest := by
  obtain ⟨hc, hl⟩ := h
  have hp : ∀ x ∈ c.passed, TypeAllowed G r x.fl.flType := fun x hx => hl x (by simp [hx])
  have hn : TypeAllowed G r n.fl.flType := hl n (by simp)
  have hrest : ∀ x ∈ rest, TypeAllowed G r x.fl.flType := fun x hx => hl x (by simp [hx])
  have hmc : ∀ x ∈ (c.mergeCaller n).passed, TypeAllowed G r x.fl.flType := by
    intro x hx
    rcases Scan.mem_mergeCaller hx with hx | ⟨y, hy, -, rfl⟩
    · exact hp x hx
    · exact hp y hy
  cases hm with
  | skipSame | skipLow => exact ⟨hc, by simpa [Scan.next] using hl⟩
  | mergeFree =>
    exact ⟨hc, fun x hx => (List.mem_append.1 hx).elim (hmc x) (hrest x)⟩
  | mergeAdopt ht =>
    refine ⟨ht.symm.trans hc, fun x hx => ?_⟩
    rcases Scan.mem_adopt.1 hx with rfl | hx
    · exact hn
    · exact (List.mem_append.1 hx).elim (hmc x) (hrest x)
  | coverFree =>
    refine ⟨by simpa [Scan.freeLock, Scan.wakeUp] using hc, fun x hx => hl x ?_⟩
    simp only [Scan.freeLock, Scan.wakeUp, Scan.mark_passed, List.mem_append] at hx
    simp only [List.mem_append, List.mem_cons]
    exact hx.imp_right .inr
  | coverReplace _ _ _ _ hadd =>
    have hu : r.flType ≠ .unlck := by
      rw [Scan.mark_added, Bool.or_eq_false_iff] at hadd
      simpa [hc] using hadd.2
    refine ⟨hc, fun x hx => ?_⟩
    rcases Scan.mem_adopt.1 hx with rfl | hx
    · exact .inl ⟨hc, hu⟩
    · exact (List.mem_append.1 hx).elim (hp x) (hrest x)
  | clipLeft => exact ⟨by simpa [Scan.next] using hc, by simpa [Scan.next] using hl⟩

theorem Ending.typed {o : Outcome Task} (hs : c.Sound O all rest)
    (h : c.Typed G r rest) (he : Ending O c rest o) :
    ∀ x ∈ o.list, TypeAllowed G r x.fl.flType := by
  obtain ⟨hc, hl⟩ := h
  have hcut : ∀ {c' : Scan Task} {left : Option Slot} {l : List (Entry Task)},
      (∀ x ∈ c'.passed ++ l, TypeAllowed G r x.fl.flType) →
        ∀ x ∈ (c'.cut left l).list, TypeAllowed G r x.fl.flType := by
    intro c' left l hl x hx
    obtain ⟨y, hy, -, htype⟩ := Scan.mem_cut hx
    exact htype ▸ hl y hy
  have hins : ∀ {n : Entry Task} {l : List (Entry Task)}, TypeAllowed G r n.fl.flType →
      (∀ x ∈ c.passed ++ l, TypeAllowed G r x.fl.flType) →
        ∀ x ∈ c.passed ++ n :: l, TypeAllowed G r x.fl.flType := by
    intro n l hn hl x hx
    rcases mem_insert.1 hx with rfl | hx
    · exact hn
    · exact hl x hx
  have hr : ∀ y ∈ c.right, TypeAllowed G r y.fl.flType := fun y hy =>
    hl y (List.mem_append_right _ (hs.right y hy))
  cases he with
  | refused | rolledBack => exact hl
  | cut => exact hcut hl
  | cutNew tmp free hadd hu => exact hcut (hins (.inl ⟨hc, hc ▸ hu⟩) hl)
  | broken y tmp free hadd hb => exact hcut (hins (hr y hb.1) hl)
  | brokenNew y tmp tmp' free hadd hu hb =>
    exact hcut (hins (hr y hb.1) (hins (.inl ⟨hc, hc ▸ hu⟩) hl))

section

variable [DecidableEq Task]

/-- Every record the owner has afterwards has the requested type or an old one. -/
theorem lockGroup_typed {O : Task} {G free : List (Entry Task)} {caller : FileLock Task}
    (hcaller : caller.flOwner = some O) (hG : ∀ n ∈ G, n.fl.flOwner = some O)
    (hfree : ∀ n ∈ free, n.fl.flOwner = none) :
    ∀ x ∈ (lockGroup O G free caller).list, TypeAllowed G caller x.fl.flType := by
  have hloop := lockItLoop_rule (P := Scan.Typed G caller) (Q := Scan.Typed G caller)
    (fun c n rest c' h _ hm => hm.typed h)
    (fun c n rest c' h _ hh => by
      cases hh with
      | beyondSame | beyond => exact h
      | clipRight | clipBoth => exact ⟨by simpa using h.1, by simpa using h.2⟩)
    (fun c rest h _ => h) G (Scan.start [] free caller)
    ⟨rfl, fun x hx => .inr ⟨x, hx, rfl⟩⟩
  exact Ending.typed (lockItLoop_sound hcaller hG hfree) hloop (Scan.finish_ending O _ _)

end

end LinuxEvocation.Locks
