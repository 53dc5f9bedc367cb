import LinuxEvocation.Mm.Paging.Exact
import LinuxEvocation.Mm.Paging.Fork

/-!
# Where `mem_map` is indexed: one call

`mem_map` has a count for each page of memory.  A call keeps within it unless it comes to an entry
for a page of a device.

* `RangeOp.Meets`, `RangeOp.call_looks` — a call on a range.
-/

namespace LinuxEvocation.Mm.Paging

open PageAlloc (mapPageReserved)

/-! ## One page of a range -/

section Page

variable {ram zeroPage : Nat} {alloc : Allocator ram} {op : RangeOp} {first i : Nat} {s s' : Vm}

/-- The operation maps a page of a device in a range of `n` pages. -/
def RangeOp.MapsDevice (ram : Nat) (op : RangeOp) (n : Nat) : Prop :=
  match op with
  | .unmap => False
  | .zeromap _ => False
  | .remap dest mask => mask ≠ 0 ∧ ∃ i < n, highMemory ram ≤ target dest i

theorem clearPte_bounds (dir frame idx : Nat) :
    (InBounds ram (clearPte ram dir frame idx s) ↔
      InBounds ram s ∧ ¬ Device ram (s.pageTable frame idx)) := by
  by_cases hpres : present (s.pageTable frame idx) = true
  · rw [not_device_iff hpres]
    apply inBounds_append
    simp only [clearPte, hpres, if_true]
  · rw [and_iff_left fun h => hpres h.1]
    apply inBounds_congr
    simp only [clearPte, if_neg hpres]

theorem clearPte_device (dir frame idx : Nat) {f j : Nat}
    (h : Device ram ((clearPte ram dir frame idx s).pageTable f j)) :
    Device ram (s.pageTable f j) := by
  rw [clearPte_pageTable] at h
  split_ifs at h
  · cases h.1
  · exact h

theorem setPte_device {frame idx word : Nat} (hword : ¬ Device ram word) {f j : Nat}
    (h : Device ram ((setPte frame idx word s).pageTable f j)) : Device ram (s.pageTable f j) := by
  rw [setPte_pageTable] at h
  split_ifs at h
  · exact absurd h hword
  · exact h

/-- What is done with one page, as far as devices go. -/
structure PageBounds (ram first i : Nat) (clean : Prop) (s s' : Vm) : Prop where
  bounds : InBounds ram s' ↔ InBounds ram s ∧ ¬ Device ram (s.pte (first + i))
  kernel : ∀ d, userDirs ≤ d → s'.pageDir d = s.pageDir d
  device : clean → (∀ f j, ¬ Device ram (s.pageTable f j)) →
    ∀ f j, ¬ Device ram (s'.pageTable f j)

theorem unmapPage_bounds (hp : first + i < userPages) (h : unmapPage ram first i s = .ok s')
    (clean : Prop) : PageBounds ram first i clean s s' := by
  have hdir := dir_lt hp
  unfold unmapPage at h
  simp only at h
  by_cases htable : present (s.pageDir ((first + i) / ptrsPerPage)) = true
  · rw [if_pos htable] at h
    have hpte : s.pageTable (mapNr (s.pageDir ((first + i) / ptrsPerPage)))
        ((first + i) % ptrsPerPage) = s.pte (first + i) := (pte_of_hasTable htable).symm
    have hbounds := @clearPte_bounds ram s ((first + i) / ptrsPerPage)
      (mapNr (s.pageDir ((first + i) / ptrsPerPage))) ((first + i) % ptrsPerPage)
    rw [hpte] at hbounds
    split_ifs at h
    · cases h
      refine ⟨hbounds, fun d hd => ?_, fun _ hclean f j hdev =>
        hclean f j (clearPte_device _ _ _ hdev)⟩
      simp only [freeTable, if_neg (show d ≠ (first + i) / ptrsPerPage by omega),
        clearPte_pageDir]
    · cases h
      exact ⟨hbounds, fun d _ => by rw [clearPte_pageDir], fun _ hclean f j hdev =>
        hclean f j (clearPte_device _ _ _ hdev)⟩
  · rw [if_neg htable] at h
    cases h
    refine ⟨(and_iff_left ?_).symm, fun _ _ => rfl, fun _ h => h⟩
    rw [show s.pte (first + i) = 0 from if_neg htable]
    rintro ⟨hpres, -⟩
    cases hpres

/-- A page table is allocated if it is missing. -/
theorem ensureTable_quiet {dir : Nat} (hs : WellFormed ram s) (hdir : dir < userDirs)
    (h : ensureTable ram alloc dir s = .ok s') :
    s'.looked = s.looked ∧ (∀ d, userDirs ≤ d → s'.pageDir d = s.pageDir d) ∧
      ∀ f j, Device ram (s'.pageTable f j) → Device ram (s.pageTable f j) := by
  unfold ensureTable at h
  split_ifs at h
  · cases h
    exact ⟨rfl, fun _ _ => rfl, fun _ _ h => h⟩
  · split at h
    · cases h
    · rename_i nr hget
      cases h
      refine ⟨rfl, fun d hd => ?_, fun f j hdev => ?_⟩
      · exact Function.update_of_ne (by omega) _ _
      · by_cases hf : f = nr
        · subst hf
          simp only [Function.update_self] at hdev
          cases hdev.1
        · simpa only [Function.update_of_ne hf] using hdev

theorem not_device_zeroWord {mask : Nat} (hz : ZeroPage ram zeroPage s)
    (hlow : zeroPage < highMemory ram) (hmask : maskOk mask = true) :
    ¬ Device ram (zeroWord zeroPage mask) := by
  unfold zeroWord
  split_ifs with h0
  · rintro ⟨hpres, -⟩
    cases hpres
  · have hlt : mask < pageSize := by
      simp only [maskOk, h0, decide_false, Bool.false_or, Bool.and_eq_true,
        decide_eq_true_eq] at hmask
      exact hmask.1
    rintro ⟨-, hle⟩
    rw [Nat.or_comm] at hle
    exact absurd ((page_or_lt_iff hz.aligned hlt).2 hlow) (not_lt.2 hle)

/-- The entry that `remap_page_range` writes. -/
theorem remapPte_quiet {dest mask : Nat} (hmask : maskOk mask = true) (hdest : dest % pageSize = 0)
    (dir frame idx : Nat) :
    (InBounds ram (remapPte ram dest mask i dir frame idx s) ↔
        InBounds ram (clearPte ram dir frame idx s)) ∧
      (remapPte ram dest mask i dir frame idx s).pageDir = s.pageDir ∧
      (¬ (mask ≠ 0 ∧ highMemory ram ≤ target dest i) →
        ∀ f j, Device ram ((remapPte ram dest mask i dir frame idx s).pageTable f j) →
          Device ram (s.pageTable f j)) := by
  have hpage : target dest i % pageSize = 0 := by
    unfold target pageSize at *
    omega
  have hdir := @clearPte_pageDir ram s dir frame idx
  have hzero : ¬ Device ram 0 := fun h => by cases h.1
  unfold remapPte
  simp only
  by_cases h0 : mask = 0
  · rw [if_pos h0]
    exact ⟨Iff.rfl, hdir, fun _ f j hdev =>
      clearPte_device _ _ _ (setPte_device hzero hdev)⟩
  · rw [if_neg h0]
    have hlt : mask < pageSize := by
      simp only [maskOk, h0, decide_false, Bool.false_or, Bool.and_eq_true,
        decide_eq_true_eq] at hmask
      exact hmask.1
    by_cases hhigh : target dest i ≥ highMemory ram
    · rw [if_pos hhigh]
      exact ⟨Iff.rfl, hdir, fun hno => absurd ⟨h0, hhigh⟩ hno⟩
    · rw [if_neg hhigh]
      have hnr : mapNr (target dest i) < ram := lt_highMemory_iff.1 (not_le.1 hhigh)
      have hword : ¬ Device ram (target dest i ||| mask) := by
        rintro ⟨-, hle⟩
        exact absurd ((page_or_lt_iff hpage hlt).2 (not_le.1 hhigh)) (not_lt.2 hle)
      have hlook : ∀ t : Vm,
          t.looked = (clearPte ram dir frame idx s).looked ++ [mapNr (target dest i)] →
          (InBounds ram t ↔ InBounds ram (clearPte ram dir frame idx s)) :=
        fun t ht => (inBounds_append ht).trans (and_iff_left hnr)
      split_ifs
      · exact ⟨hlook _ rfl, hdir, fun _ f j hdev =>
          clearPte_device _ _ _ (setPte_device hzero hdev)⟩
      · exact ⟨hlook _ rfl, hdir, fun _ f j hdev =>
          clearPte_device _ _ _ (setPte_device hword hdev)⟩
      · exact ⟨hlook _ rfl, hdir, fun _ f j hdev =>
          clearPte_device _ _ _ (setPte_device hword hdev)⟩

/-- **One page.** -/
theorem RangeOp.page_bounds (hop : op.Ok) (hs : WellFormed ram s) (hz : ZeroPage ram zeroPage s)
    (hlow : zeroPage < highMemory ram) (hp : first + i < userPages)
    (h : op.page ram zeroPage alloc first i s = .ok s') {n : Nat} (hi : i < n) :
    PageBounds ram first i (¬ op.MapsDevice ram n) s s' := by
  -- a page table is there or is allocated, and `body` writes the entry
  have hmap : ∀ body : Nat → Nat → Nat → Nat → Vm → Vm,
      mapPage ram alloc body first i s = .ok s' →
      (∀ dir frame idx (t : Vm),
        (InBounds ram (body dir frame i idx t) ↔ InBounds ram (clearPte ram dir frame idx t)) ∧
          (body dir frame i idx t).pageDir = t.pageDir ∧
          (¬ op.MapsDevice ram n → ∀ f j, Device ram ((body dir frame i idx t).pageTable f j) →
            Device ram (t.pageTable f j))) →
      PageBounds ram first i (¬ op.MapsDevice ram n) s s' := by
    intro body hbody hquiet
    obtain ⟨s₁, hens, hens', -, rfl⟩ := mapPage_cleared hs hp hbody
    obtain ⟨hlooked, hkernel, hdevice⟩ := ensureTable_quiet hs (dir_lt hp) hens
    obtain ⟨hbounds, hdir, hdev⟩ := hquiet ((first + i) / ptrsPerPage) (s₁.frame (first + i))
      ((first + i) % ptrsPerPage) s₁
    refine ⟨hbounds.trans ?_, fun d hd => ?_, fun hclean hnone f j hd => ?_⟩
    · rw [clearPte_bounds, inBounds_congr hlooked, ← hens'.pte _ hp,
        pte_of_hasTable hens'.present]
    · rw [hdir, hkernel d hd]
    · exact hnone f j (hdevice f j (hdev hclean f j hd))
  cases op with
  | unmap => exact unmapPage_bounds hp h _
  | zeromap mask =>
    refine hmap (fun dir frame i => zeroPte ram (zeroWord zeroPage mask) i dir frame) h
      fun dir frame idx t => ⟨Iff.rfl, clearPte_pageDir _ _ _, fun _ f j hd => ?_⟩
    exact clearPte_device _ _ _ (setPte_device (not_device_zeroWord hz hlow hop) hd)
  | remap dest mask =>
    refine hmap (fun dir frame i => remapPte ram dest mask i dir frame) h fun dir frame idx t => ?_
    obtain ⟨hbounds, hdir, hdev⟩ := @remapPte_quiet ram i t dest mask hop.1 hop.2 dir frame idx
    exact ⟨hbounds, hdir, fun hno => hdev fun hmaps => hno ⟨hmaps.1, i, hi, hmaps.2⟩⟩

/-- A page that is given up on has no page table. -/
theorem RangeOp.page_error (hs : WellFormed ram s) (hp : first + i < userPages)
    (h : op.page ram zeroPage alloc first i s = .error s') : s' = s ∧ s.pte (first + i) = 0 := by
  have hmap : ∀ body : Nat → Nat → Nat → Nat → Vm → Vm,
      mapPage ram alloc body first i s = .error s' → s' = s ∧ s.pte (first + i) = 0 := by
    intro body h
    unfold mapPage ensureTable at h
    simp only at h
    split at h
    · rename_i heq
      split at heq
      · cases heq
      · rename_i habs
        split at heq
        · cases heq
          cases h
          exact ⟨rfl, if_neg habs⟩
        · cases heq
    · cases h
  cases op with
  | unmap =>
    unfold RangeOp.page unmapPage at h
    simp only at h
    split at h <;> cases h
  | zeromap mask =>
    exact hmap (fun dir frame i => zeroPte ram (zeroWord zeroPage mask) i dir frame) h
  | remap dest mask => exact hmap (fun dir frame i => remapPte ram dest mask i dir frame) h

end Page

/-! ## A range -/

section Range

variable {ram zeroPage : Nat} {alloc : Allocator ram} {op : RangeOp} {first : Nat} {s : Vm}

/-- The flat loop gets as far as the page `i`. -/
def RangeOp.Gets (zeroPage : Nat) {ram : Nat} (alloc : Allocator ram) (op : RangeOp) (first : Nat)
    (s : Vm) (i : Nat) : Prop :=
  ∃ sᵢ, eachPage (op.page ram zeroPage alloc first) i 0 s = .ok sᵢ

/-- What is left of a loop that gives up is what some of its pages have made. -/
theorem outcome_eachPage (hop : op.Ok) (hs : WellFormed ram s) (hz : ZeroPage ram zeroPage s)
    (n : Nat) (hp : first + n ≤ userPages) :
    ∃ k ≤ n, eachPage (op.page ram zeroPage alloc first) k 0 s =
      .ok (outcome (eachPage (op.page ram zeroPage alloc first) n 0 s)) := by
  induction n with
  | zero => exact ⟨0, le_rfl, rfl⟩
  | succ n ih =>
    obtain ⟨k, hk, heq⟩ := ih (by omega)
    rw [eachPage_last]
    cases hn : eachPage (op.page ram zeroPage alloc first) n 0 s with
    | error s' =>
      rw [hn] at heq
      exact ⟨k, by omega, heq⟩
    | ok s' =>
      simp only
      cases hlast : op.page ram zeroPage alloc first n s' with
      | error t =>
        have hwf := (Done.of_eachPage hop hs hz n (by omega) hn).1.wf
        obtain ⟨rfl, -⟩ := op.page_error hwf (by omega) hlast
        exact ⟨n, by omega, hn⟩
      | ok t =>
        refine ⟨n + 1, le_rfl, ?_⟩
        rw [eachPage_last, hn]
        exact hlast

/-- **The flat loop.** -/
theorem RangeOp.outcome_bounds (hop : op.Ok) (hs : WellFormed ram s)
    (hz : ZeroPage ram zeroPage s) (hlow : zeroPage < highMemory ram) (n : Nat)
    (hp : first + n ≤ userPages) :
    InBounds ram (outcome (eachPage (op.page ram zeroPage alloc first) n 0 s)) ↔
      InBounds ram s ∧ ∀ i < n, op.Gets zeroPage alloc first s i →
        ¬ Device ram (s.pte (first + i)) := by
  induction n with
  | zero => exact (and_iff_left fun i hi => absurd hi (Nat.not_lt_zero i)).symm
  | succ n ih =>
    have hsplit : (∀ i < n + 1, op.Gets zeroPage alloc first s i →
        ¬ Device ram (s.pte (first + i))) ↔
        (∀ i < n, op.Gets zeroPage alloc first s i → ¬ Device ram (s.pte (first + i))) ∧
          (op.Gets zeroPage alloc first s n → ¬ Device ram (s.pte (first + n))) := by
      constructor
      · intro h
        exact ⟨fun i hi => h i (by omega), h n (Nat.lt_succ_self n)⟩
      · rintro ⟨h1, h2⟩ i hi
        rcases Nat.lt_succ_iff_lt_or_eq.1 hi with hlt | rfl
        · exact h1 i hlt
        · exact h2
    have hbefore := ih (by omega)
    rw [hsplit, ← and_assoc, ← hbefore, eachPage_last]
    cases hn : eachPage (op.page ram zeroPage alloc first) n 0 s with
    | error s' =>
      refine (and_iff_left ?_).symm
      rintro ⟨sᵢ, hsᵢ⟩
      rw [hn] at hsᵢ
      cases hsᵢ
    | ok s' =>
      obtain ⟨hdone, -, -⟩ := Done.of_eachPage hop hs hz n (by omega) hn
      have hlast : s'.pte (first + n) = s.pte (first + n) :=
        hdone.outside _ (by omega) (.inr le_rfl)
      have hgets : op.Gets zeroPage alloc first s n := ⟨s', hn⟩
      have hz' : ZeroPage ram zeroPage s' := ⟨hz.aligned, hdone.reserved_mono _ hz.reserved⟩
      simp only [hgets, true_implies]
      rw [← hlast]
      cases hpage : op.page ram zeroPage alloc first n s' with
      | error t =>
        obtain ⟨rfl, hzero⟩ := op.page_error hdone.wf (by omega) hpage
        refine (and_iff_left ?_).symm
        rw [hzero]
        rintro ⟨hpres, -⟩
        cases hpres
      | ok t =>
        exact (RangeOp.page_bounds hop hdone.wf hz' hlow (by omega) hpage (Nat.lt_succ_self n)).bounds

/-- The tables of the kernel and the entries for devices, over the pages of a range. -/
theorem RangeOp.eachPage_frame (hop : op.Ok) (hs : WellFormed ram s)
    (hz : ZeroPage ram zeroPage s) (hlow : zeroPage < highMemory ram) {n k : Nat} (hk : k ≤ n)
    (hp : first + n ≤ userPages) {s' : Vm}
    (h : eachPage (op.page ram zeroPage alloc first) k 0 s = .ok s') :
    (∀ d, userDirs ≤ d → s'.pageDir d = s.pageDir d) ∧
      (¬ op.MapsDevice ram n → (∀ f j, ¬ Device ram (s.pageTable f j)) →
        ∀ f j, ¬ Device ram (s'.pageTable f j)) := by
  induction k generalizing s' with
  | zero =>
    cases h
    exact ⟨fun _ _ => rfl, fun _ h => h⟩
  | succ k ih =>
    rw [eachPage_last] at h
    cases hb : eachPage (op.page ram zeroPage alloc first) k 0 s with
    | error t =>
      rw [hb] at h
      cases h
    | ok t =>
      rw [hb] at h
      obtain ⟨hkernel, hdevice⟩ := ih (by omega) hb
      obtain ⟨hdone, -, -⟩ := Done.of_eachPage hop hs hz k (by omega) hb
      have hz' : ZeroPage ram zeroPage t := ⟨hz.aligned, hdone.reserved_mono _ hz.reserved⟩
      have hpage := RangeOp.page_bounds hop hdone.wf hz' hlow (by omega) h (show k < n by omega)
      exact ⟨fun d hd => (hpage.kernel d hd).trans (hkernel d hd), fun hno hclean =>
        hpage.device hno (hdevice hno hclean)⟩

end Range

/-! ## A call -/

/-- What holds of the page tables between the calls. -/
structure Space (ram zeroPage : Nat) (s : Vm) : Prop extends WellFormed ram s where
  kernel : KernelTables ram s
  zero : ZeroPage ram zeroPage s

/-- What a call does about devices.  It `meets` an entry for one; it is `clean` if it does not map
one itself. -/
structure Looks (ram zeroPage : Nat) (meets clean : Prop) (s s' : Vm) : Prop where
  space : Space ram zeroPage s'
  reserved : ∀ nr, s.reserved nr = true → s'.reserved nr = true
  bounds : InBounds ram s' ↔ InBounds ram s ∧ ¬ meets
  device : clean → (∀ f i, ¬ Device ram (s.pageTable f i)) → ∀ f i, ¬ Device ram (s'.pageTable f i)

/-- A call on a range comes to an entry for a page of a device. -/
def RangeOp.Meets (zeroPage : Nat) {ram : Nat} (alloc : Allocator ram) (op : RangeOp) (s : Vm)
    (start size : Nat) : Prop :=
  op.Ok ∧ start % pageSize = 0 ∧ ∃ i < pages size,
    op.Gets zeroPage alloc (start / pageSize) s i ∧ Device ram (s.pte (start / pageSize + i))

section Call

variable {ram zeroPage : Nat} {alloc : Allocator ram} {op : RangeOp} {s s' : Vm}

theorem Space.of_pageDir (h : Space ram zeroPage s) (hdir : s'.pageDir = s.pageDir)
    (hres : ∀ nr, s.reserved nr = true → s'.reserved nr = true) : Space ram zeroPage s' := by
  refine ⟨⟨?_, ?_⟩, fun d hd hd' => ?_, ⟨h.zero.aligned, hres _ h.zero.reserved⟩⟩
  · rw [hdir]
    exact h.table
  · rw [hdir]
    exact h.distinct
  · rw [hdir]
    exact (h.kernel d hd hd').imp_right (And.imp_right (hres _))

/-- A call whose arguments are not let through. -/
theorem RangeOp.call_refused {start size : Nat} (h : ¬ (op.Ok ∧ start % pageSize = 0)) :
    (op.call ram zeroPage alloc s start size).2 = s := by
  cases op with
  | unmap =>
    have hstart : start % pageSize ≠ 0 := fun h0 => h ⟨trivial, h0⟩
    simp only [RangeOp.call, unmapPageRange, if_pos hstart]
  | zeromap mask =>
    simp only [RangeOp.call, zeromapPageRange]
    by_cases hmask : maskOk mask = true
    · have hstart : start % pageSize ≠ 0 := fun h0 => h ⟨hmask, h0⟩
      rw [if_neg (not_not.2 hmask), if_pos hstart]
    · rw [if_pos hmask]
  | remap dest mask =>
    simp only [RangeOp.call, remapPageRange]
    by_cases hmask : maskOk mask = true
    · have hpages : start % pageSize ≠ 0 ∨ dest % pageSize ≠ 0 := by
        by_contra hno
        rw [not_or, not_not, not_not] at hno
        exact h ⟨⟨hmask, hno.2⟩, hno.1⟩
      rw [if_neg (not_not.2 hmask), if_pos hpages]
    · rw [if_pos hmask]

/-- A call whose arguments are let through is the flat loop, as far as it gets. -/
theorem RangeOp.call_outcome (hs : WellFormed ram s) {start size : Nat} (hop : op.Ok)
    (hstart : start % pageSize = 0) (hend : start + size ≤ taskSize) :
    (op.call ram zeroPage alloc s start size).2 =
      outcome (eachPage (op.page ram zeroPage alloc (start / pageSize)) (pages size) 0 s) := by
  have hmap : ∀ (body : Nat → Nat → Nat → Nat → Vm → Vm) (err : Int),
      (∀ dir frame i idx s, (body dir frame i idx s).pageDir = s.pageDir) →
      (mapResult err (mapRange ram alloc body s start size)).2 =
        outcome (eachPage (mapPage ram alloc body (start / pageSize)) (pages size) 0 s) := by
    intro body err hbody
    rw [mapRange_eq hbody]
    cases eachPage (mapPage ram alloc body (start / pageSize)) (pages size) 0 s <;> rfl
  cases op with
  | unmap =>
    have hflat : eachPage (unmapPage ram (start / pageSize)) (pages size) 0 s = .ok _ :=
      unmapLoop_eq (pages size) (fun d _ hd => (hs.table d hd).imp_right IsTable.present) le_rfl rfl
        (Nat.mod_lt _ (by decide)) (start_page start) (.inl rfl) (by
          unfold pages userPages userDirs taskSize pageSize ptrsPerPage at *
          omega)
    simp only [RangeOp.call, unmapPageRange, hstart, ne_eq, not_true_eq_false, if_false,
      RangeOp.page, hflat, outcome]
  | zeromap mask =>
    have hmask : ¬ ¬ maskOk mask = true := not_not.2 hop
    simp only [RangeOp.call, zeromapPageRange, if_neg hmask, hstart, ne_eq, not_true_eq_false,
      if_false]
    exact hmap _ _ fun dir frame i idx t => by simp [zeroPte]
  | remap dest mask =>
    have hmask : ¬ ¬ maskOk mask = true := not_not.2 hop.1
    have hdest : ¬ (start % pageSize ≠ 0 ∨ dest % pageSize ≠ 0) := by
      rintro (h | h)
      · exact h hstart
      · exact h hop.2
    simp only [RangeOp.call, remapPageRange, if_neg hmask, if_neg hdest]
    exact hmap _ _ fun dir frame i idx t => (remapPte_quiet hop.1 hop.2 dir frame idx).2.1

/-- **A call on a range.** -/
theorem RangeOp.call_looks (h : Space ram zeroPage s) (hlow : zeroPage < highMemory ram)
    {start size : Nat} (hend : start + size ≤ taskSize) :
    Looks ram zeroPage (op.Meets zeroPage alloc s start size) (¬ op.MapsDevice ram (pages size)) s
      (op.call ram zeroPage alloc s start size).2 := by
  by_cases hargs : op.Ok ∧ start % pageSize = 0
  · obtain ⟨hop, hstart⟩ := hargs
    have hpages : start / pageSize + pages size ≤ userPages := by
      unfold pages userPages userDirs taskSize pageSize ptrsPerPage at *
      omega
    rw [op.call_outcome h.toWellFormed hop hstart hend]
    obtain ⟨k, hk, heq⟩ := @outcome_eachPage ram zeroPage alloc op _ s hop h.toWellFormed h.zero
      (pages size) hpages
    have hbounds := @RangeOp.outcome_bounds ram zeroPage alloc op _ s hop h.toWellFormed h.zero hlow
      (pages size) hpages
    obtain ⟨hdone, -, -⟩ := Done.of_eachPage hop h.toWellFormed h.zero k (by omega) heq
    obtain ⟨hkernel, hdevice⟩ :=
      RangeOp.eachPage_frame hop h.toWellFormed h.zero hlow hk hpages heq
    refine ⟨⟨hdone.wf, fun d hd hd' => ?_, ⟨h.zero.aligned, hdone.reserved_mono _ h.zero.reserved⟩⟩,
      hdone.reserved_mono, hbounds.trans (and_congr_right fun _ => ?_), hdevice⟩
    · rw [hkernel d hd]
      exact (h.kernel d hd hd').imp_right (And.imp_right (hdone.reserved_mono _))
    · constructor
      · rintro hall ⟨-, -, i, hi, hgets, hdev⟩
        exact hall i hi hgets hdev
      · intro hno i hi hgets hdev
        exact hno ⟨hop, hstart, i, hi, hgets, hdev⟩
  · rw [RangeOp.call_refused hargs]
    exact ⟨h, fun _ h => h, (and_iff_left fun hm => hargs ⟨hm.1, hm.2.1⟩).symm, fun _ h => h⟩

end Call

/-! ## `do_wp_page` -/

/-- `BAD_PAGE` is a page of memory. -/
structure BadPages.Low (ram : Nat) (bad : BadPages) : Prop where
  aligned : bad.page % pageSize = 0
  low : bad.page < highMemory ram

section WriteFault

variable {ram zeroPage : Nat} {alloc : Allocator ram} {bad : BadPages} {user : Bool} {p : Nat}
  {s s' : Vm}

theorem setPte_quiet {frame idx word : Nat} (hword : ¬ Device ram word) :
    Quiet ram s (setPte frame idx word s) :=
  ⟨rfl, fun _ _ h => setPte_device hword h, fun _ h => h, Iff.rfl⟩

/-- Other flags in an entry are for the same page. -/
theorem setPte_or_quiet (frame idx : Nat) {flags : Nat} (hflags : flags < pageSize)
    (hpres : present flags = false) :
    Quiet ram s (setPte frame idx (s.pageTable frame idx ||| flags) s) := by
  refine ⟨rfl, fun f j hd => ?_, fun _ h => h, Iff.rfl⟩
  rw [setPte_pageTable] at hd
  split_ifs at hd with hfj
  · obtain ⟨rfl, rfl⟩ := hfj
    have hp : present (s.pageTable f j) = true := by
      have := hd.1
      rw [present_or, hpres, Bool.or_false] at this
      exact this
    by_contra hno
    rw [not_device_iff hp, ← mapNr_or_flags hflags] at hno
    exact (not_device_iff hd.1).2 hno hd
  · exact hd

theorem getNew_quiet : Quiet ram s (getNew ram alloc p s).2 ∧
    (getNew ram alloc p s).2.pageTable = s.pageTable ∧
      ∀ nr, (getNew ram alloc p s).1 = some nr → nr < ram := by
  unfold getNew
  cases hget : alloc.get p s with
  | none => exact ⟨.refl, rfl, nofun⟩
  | some nr =>
    refine ⟨⟨rfl, fun _ _ h => h, fun n hn => ?_, Iff.rfl⟩, rfl, fun n hn => ?_⟩
    · have hne : n ≠ nr := by
        rintro rfl
        simp [Vm.reserved, alloc.free _ _ _ hget, mapPageReserved] at hn
      simpa [Vm.reserved, Function.update_of_ne hne] using hn
    · cases hn
      exact alloc.lt _ _ _ hget

theorem freeNew_quiet (newPage : Option Nat) : Quiet ram s (s.freeNew ram newPage) := by
  cases newPage with
  | none => exact .refl
  | some nr => exact free_quiet _

/-- A page of memory with some flags is no page of a device. -/
theorem not_device_or {page flags : Nat} (hpage : page % pageSize = 0) (hflags : flags < pageSize)
    (hlow : page < highMemory ram) : ¬ Device ram (page ||| flags) := by
  rintro ⟨-, hle⟩
  exact absurd ((page_or_lt_iff hpage hflags).2 hlow) (not_lt.2 hle)

/-- `__do_wp_page` makes its check before it looks. -/
theorem dowp_quiet (hs : WellFormed ram s) (hbad : bad.Low ram) (hp : p < userPages) :
    Quiet ram s (dowp ram alloc bad p s).1 := by
  obtain ⟨hnew, htable, hnr⟩ := @getNew_quiet ram alloc p s
  unfold dowp
  generalize getNew ram alloc p s = r at hnew htable hnr
  obtain ⟨newPage, s₁⟩ := r
  simp only at hnew htable hnr ⊢
  have hback : ∀ t : Vm, Quiet ram s t → Quiet ram s (t.freeNew ram newPage) :=
    fun t ht => ht.trans (freeNew_quiet newPage)
  have hdir : s₁.pageDir = s.pageDir := hnew.pageDir
  rw [hdir]
  by_cases hpres : present (s.pageDir (p / ptrsPerPage)) = true
  · have hword := (hs.table _ (dir_lt hp)).resolve_left ((hs.present_iff (dir_lt hp)).1 hpres)
    have hbits : ¬ (s.pageDir (p / ptrsPerPage) &&& pageTableBits ≠ pageTableBits ∨
        s.pageDir (p / ptrsPerPage) ≥ highMemory ram) := by
      rintro (h | h)
      · exact h (and_pageTableBits hword)
      · exact absurd (lt_highMemory_iff.2 hword.2) (not_lt.2 h)
    rw [if_neg (not_not.2 hpres), if_neg hbits]
    generalize hpage : s₁.pageTable (mapNr (s.pageDir (p / ptrsPerPage))) (p % ptrsPerPage) = page
    have hprot := prot_lt page
    by_cases habs : ¬ present page = true
    · rw [if_pos habs]
      exact hback _ hnew
    · rw [if_neg habs]
      by_cases hhigh : page ≥ highMemory ram
      · rw [if_pos hhigh]
        have hflags : pageShared < pageSize := by decide
        exact hback _ (hnew.trans (setPte_quiet (not_device_or hbad.aligned hflags hbad.low)))
      · rw [if_neg hhigh]
        have hin : mapNr page < ram := lt_highMemory_iff.1 (not_le.1 hhigh)
        have hlook : Quiet ram s (s₁.look (mapNr page)) :=
          hnew.trans
            ⟨rfl, fun _ _ h => h, fun _ h => h, (inBounds_append rfl).trans (and_iff_left hin)⟩
        by_cases hrw : rw page = true
        · rw [if_pos hrw]
          exact hback _ hnew
        · rw [if_neg hrw]
          by_cases hone : (s₁.look (mapNr page)).memMap (mapNr page) ≠ 1
          · rw [if_pos hone]
            cases newPage with
            | none =>
              exact (hlook.trans (free_quiet _)).trans
                (setPte_quiet (not_device_or hbad.aligned hprot hbad.low))
            | some nr =>
              have hcopy : ¬ Device ram (nr * pageSize ||| (page % pageSize ||| pageRw)) := by
                apply not_device_or (Nat.mul_mod_left _ _) hprot
                rw [lt_highMemory_iff, mapNr_mul]
                exact hnr nr rfl
              have hrss : ∀ rss, Quiet ram (s₁.look (mapNr page))
                  { s₁.look (mapNr page) with rss := rss } :=
                fun _ => ⟨rfl, fun _ _ h => h, fun _ h => h, Iff.rfl⟩
              exact ((hlook.trans (hrss _)).trans (setPte_quiet hcopy)).trans (free_quiet _)
          · rw [if_neg hone]
            subst hpage
            exact hback _ (hlook.trans (setPte_or_quiet _ _ (by decide) rfl))
  · rw [if_pos hpres]
    exact hback _ hnew

/-- **`do_wp_page`** looks before it makes the check. -/
theorem doWpPage_looks (h : Space ram zeroPage s) (hbad : bad.Low ram) (hp : p < userPages) :
    Looks ram zeroPage (Asks user (s.pte p) ∧ Device ram (s.pte p)) True s
      (doWpPage ram alloc bad user p s).1 := by
  have hs := h.toWellFormed
  by_cases hasks : Asks user (s.pte p)
  · have hlook : InBounds ram (s.look (mapNr (s.pte p))) ↔
        InBounds ram s ∧ ¬ (Asks user (s.pte p) ∧ Device ram (s.pte p)) := by
      rw [inBounds_append rfl, ← not_device_iff hasks.present]
      simp only [hasks, true_and]
    have hquiet : ∀ t, Quiet ram (s.look (mapNr (s.pte p))) t →
        Looks ram zeroPage (Asks user (s.pte p) ∧ Device ram (s.pte p)) True s t := by
      intro t ht
      exact ⟨h.of_pageDir ht.pageDir ht.reserved, ht.reserved, ht.bounds.trans hlook,
        fun _ hclean f i hd => hclean f i (ht.device f i hd)⟩
    rw [doWpPage_of_asks hs hp hasks]
    split_ifs
    · apply hquiet
      rw [pte_of_hasTable hasks.hasTable]
      exact setPte_or_quiet _ _ (by decide) rfl
    · exact hquiet _ (dowp_quiet ⟨hs.table, hs.distinct⟩ hbad hp)
  · rw [doWpPage_of_not_asks hs hp hasks]
    exact ⟨h, fun _ h => h, (and_iff_left fun hm => hasks hm.1).symm, fun _ h => h⟩

end WriteFault

end LinuxEvocation.Mm.Paging
