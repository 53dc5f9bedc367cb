import LinuxEvocation.Mm.Paging.Range

/-!
# What a range operation does with one page

For one page of the flat loop, `PageEffect` says what becomes of the entries, of the references
that are given back and of the page tables, and `RssEffect` what becomes of `rss`.

* `Vm.counted`, `Vm.lost`, `Vm.Stray`, `reference` — what an entry stands for.
* `Cleared`, `Ensured` — an entry is cleared, a page table allocated.
* `RangeOp` — the three operations, with the entries they write.
-/

namespace LinuxEvocation.Mm.Paging

open Function (update update_of_ne update_self)
open PageAlloc (mapPageReserved)

/-! ## Entries and what they stand for -/

section Words

/-- The entry names a page of memory that is not reserved: a resident page. -/
def Vm.counted (s : Vm) (ram word : Nat) : Bool :=
  present word && decide (word < highMemory ram) && !s.reserved (mapNr word)

/-- The entry takes one off `rss` when it is cleared. -/
def Vm.lost (s : Vm) (word : Nat) : Bool := present word && !s.reserved (mapNr word)

/-- The entry names a page of a device, and the word that is read for it behind the end of
`mem_map` does not look reserved. -/
def Vm.Stray (s : Vm) (ram word : Nat) : Prop :=
  present word = true ∧ highMemory ram ≤ word ∧ s.reserved (mapNr word) = false

/-- The reference that an entry holds: a page or a swap slot. -/
def reference (word : Nat) : Option Nat :=
  if word = 0 then none else some (if present word then pageMask word else word)

/-- The references that have been given back. -/
def drops (log : List Effect) : List Nat :=
  log.filterMap fun e =>
    match e with
    | .freePage addr => some addr
    | .swapFree entry => some entry
    | _ => none

variable {page mask : Nat}

theorem page_or (hpage : page % pageSize = 0) (hmask : mask < pageSize) :
    page ||| mask = page + mask := by
  obtain ⟨k, rfl⟩ := Nat.dvd_of_mod_eq_zero hpage
  exact (Nat.two_pow_add_eq_or_of_lt (i := 12) hmask k).symm

theorem mapNr_page_or (hpage : page % pageSize = 0) (hmask : mask < pageSize) :
    mapNr (page ||| mask) = mapNr page := by
  rw [page_or hpage hmask]
  unfold mapNr pageSize at *
  omega

theorem present_page_or (hpage : page % pageSize = 0)
    (hmask : mask < pageSize) : present (page ||| mask) = present mask := by
  rw [page_or hpage hmask]
  unfold present pageSize at *
  exact decide_eq_decide.2 (by omega)

theorem page_or_lt_iff {ram : Nat} (hpage : page % pageSize = 0)
    (hmask : mask < pageSize) : page ||| mask < highMemory ram ↔ page < highMemory ram := by
  rw [page_or hpage hmask]
  unfold highMemory pageSize at *
  omega

end Words

/-! ## One entry -/

section Entry

variable {ram : Nat} {s : Vm}

/-- There is a page table for the page. -/
def Vm.HasTable (s : Vm) (p : Nat) : Prop := present (s.pageDir (p / ptrsPerPage)) = true

/-- The page it is in. -/
def Vm.frame (s : Vm) (p : Nat) : Nat := mapNr (s.pageDir (p / ptrsPerPage))

variable {p : Nat}

theorem pte_of_hasTable (h : s.HasTable p) :
    s.pte p = s.pageTable (s.frame p) (p % ptrsPerPage) := if_pos h

/-- One entry of the tables is changed: it is the entry for one page. -/
theorem WellFormed.pte_update (hs : WellFormed ram s) (hp : p < userPages)
    (htable : s.HasTable p) {t : Vm} {w : Nat} (hdir : t.pageDir = s.pageDir)
    (hword : ∀ f i, t.pageTable f i =
      if f = s.frame p ∧ i = p % ptrsPerPage then w else s.pageTable f i) {q : Nat}
    (hq : q < userPages) : t.pte q = if q = p then w else s.pte q := by
  unfold Vm.pte
  rw [hdir]
  by_cases hqd : present (s.pageDir (q / ptrsPerPage)) = true
  · rw [if_pos hqd, hword]
    by_cases hqp : q = p
    · subst hqp
      rw [if_pos ⟨rfl, rfl⟩, if_pos rfl]
    · rw [if_neg hqp, if_neg]
      · rw [if_pos hqd]
      · rintro ⟨hframe, hidx⟩
        exact hqp (hs.page_inj hq hp hqd htable hframe hidx)
  · rw [if_neg hqd, if_neg]
    · rw [if_neg hqd]
    · rintro rfl
      exact hqd htable

theorem WellFormed.clearPte (hs : WellFormed ram s) (dir frame idx : Nat) :
    WellFormed ram (clearPte ram dir frame idx s) :=
  ⟨by rw [clearPte_pageDir]; exact hs.table, by rw [clearPte_pageDir]; exact hs.distinct⟩

theorem WellFormed.pte_clearPte (hs : WellFormed ram s) (hp : p < userPages)
    (htable : s.HasTable p) (dir : Nat) {q : Nat} (hq : q < userPages) :
    (Paging.clearPte ram dir (s.frame p) (p % ptrsPerPage) s).pte q = if q = p then 0 else s.pte q :=
  hs.pte_update hp htable (clearPte_pageDir _ _ _) (fun f i => clearPte_pageTable _ _ _ f i) hq

theorem drops_clearPte (dir frame idx : Nat) :
    drops (clearPte ram dir frame idx s).log =
      drops s.log ++ (reference (s.pageTable frame idx)).toList := by
  simp only [clearPte, clearEntry, reference]
  by_cases h0 : s.pageTable frame idx = 0
  · rw [if_neg (not_not.2 h0), if_pos h0]
    simp
  · rw [if_pos h0, if_neg h0]
    by_cases hp : present (s.pageTable frame idx) = true
    · simp [drops, hp, pageMask]
    · simp [drops, hp]

theorem rss_clearPte (dir frame idx : Nat) :
    (clearPte ram dir frame idx s).rss =
      s.rss - (if s.lost (s.pageTable frame idx) then 1 else 0) := by
  simp only [clearPte, clearEntry, Vm.lost, mapNr]
  by_cases h0 : s.pageTable frame idx = 0
  · rw [if_neg (not_not.2 h0), h0]
    simp [present]
  · rw [if_pos h0]
    simp only [Bool.and_eq_true, Bool.not_eq_true', Bool.not_eq_true]
    split_ifs <;> simp

/-- What clearing the entry for a page changes. -/
structure Cleared (ram p : Nat) (s s' : Vm) : Prop where
  wf : WellFormed ram s'
  pageDir : s'.pageDir = s.pageDir
  pte : ∀ q < userPages, s'.pte q = if q = p then 0 else s.pte q
  drops : drops s'.log = drops s.log ++ (reference (s.pte p)).toList
  rss : s'.rss = s.rss - (if s.lost (s.pte p) then 1 else 0)
  reserved : ∀ nr, s'.reserved nr = s.reserved nr

theorem WellFormed.cleared (hs : WellFormed ram s) (hp : p < userPages)
    (htable : s.HasTable p) (dir : Nat) :
    Cleared ram p s (Paging.clearPte ram dir (s.frame p) (p % ptrsPerPage) s) := by
  refine ⟨hs.clearPte _ _ _, clearPte_pageDir _ _ _, fun q hq => hs.pte_clearPte hp htable _ hq,
    ?_, ?_, fun nr => clearPte_reserved _ _ _ nr⟩
  · rw [drops_clearPte, ← pte_of_hasTable htable]
  · rw [rss_clearPte, ← pte_of_hasTable htable]

end Entry

/-! ## Page tables -/

section Tables

variable {ram : Nat} {alloc : Allocator ram} {s s' : Vm} {dir : Nat}

/-- What allocating a page table changes. -/
structure Ensured (ram dir : Nat) (s s' : Vm) : Prop where
  wf : WellFormed ram s'
  present : present (s'.pageDir dir) = true
  pte : ∀ p < userPages, s'.pte p = s.pte p
  tables : ∀ d < userDirs, s.pageDir d ≠ 0 → s'.pageDir d = s.pageDir d
  log : s'.log = s.log
  rss : s'.rss = s.rss
  reserved : ∀ nr, s'.reserved nr = s.reserved nr

theorem WellFormed.ensureTable (hs : WellFormed ram s) (hdir : dir < userDirs)
    (h : ensureTable ram alloc dir s = .ok s') : Ensured ram dir s s' := by
  have hpres := ensureTable_present h
  unfold Paging.ensureTable at h
  split at h
  · cases h
    exact ⟨hs, hpres, fun _ _ => rfl, fun _ _ _ => rfl, rfl, rfl, fun _ => rfl⟩
  · rename_i habs
    have hzero : s.pageDir dir = 0 := by
      by_contra hne
      exact habs ((hs.present_iff hdir).2 hne)
    split at h
    · cases h
    · rename_i nr hget
      cases h
      have hnr := alloc.lt _ _ _ hget
      have hnot := alloc.not_table _ _ _ hget
      have hword : mapNr (nr * pageSize + pageTableBits) = nr := by
        unfold mapNr pageSize pageTableBits
        omega
      refine ⟨⟨?_, ?_⟩, hpres, ?_, ?_, rfl, rfl, ?_⟩
      · intro d hd
        by_cases hdd : d = dir
        · subst hdd
          right
          simp only [update_self]
          refine ⟨?_, by rw [hword]; exact hnr⟩
          unfold pageSize pageTableBits
          omega
        · simp only [update_of_ne hdd]
          exact hs.table d hd
      · intro d hd d' hd' hne hne' heq
        by_cases h1 : d = dir
        · by_cases h2 : d' = dir
          · rw [h1, h2]
          · simp only [h1, update_self, update_of_ne h2, hword] at heq hne'
            exact absurd heq.symm (hnot d' hd' hne')
        · by_cases h2 : d' = dir
          · simp only [h2, update_self, update_of_ne h1, hword] at heq hne
            exact absurd heq (hnot d hd hne)
          · simp only [update_of_ne h1, update_of_ne h2] at heq hne hne'
            exact hs.distinct d hd d' hd' hne hne' heq
      · intro p hp
        unfold Vm.pte
        simp only
        by_cases hpd : p / ptrsPerPage = dir
        · -- the new table is empty, as the missing one was
          rw [hpd, hzero, update_self, hword, update_self]
          simp [Mm.present]
        · rw [update_of_ne hpd]
          by_cases hpp : Mm.present (s.pageDir (p / ptrsPerPage)) = true
          · rw [if_pos hpp, if_pos hpp, update_of_ne]
            exact hnot _ (dir_lt hp) ((hs.present_iff (dir_lt hp)).1 hpp)
          · rw [if_neg hpp, if_neg hpp]
      · intro d _ hne
        have hdd : d ≠ dir := by
          rintro rfl
          exact hne hzero
        simp only [update_of_ne hdd]
      · intro q
        unfold Vm.reserved
        apply decide_eq_decide.2
        by_cases hq : q = nr
        · subst hq
          simp only [update_self, alloc.free _ _ _ hget]
          decide
        · simp only [update_of_ne hq]

/-- What freeing a page table changes, when its entries are empty. -/
theorem WellFormed.freeTable (hs : WellFormed ram s)
    (hempty : ∀ p < userPages, p / ptrsPerPage = dir → s.pte p = 0) :
    WellFormed ram (freeTable ram dir s) ∧
      ∀ p < userPages, (Paging.freeTable ram dir s).pte p = s.pte p := by
  refine ⟨⟨fun d hd => ?_, fun d hd d' hd' hne hne' heq => ?_⟩, fun p hp => ?_⟩
  · simp only [Paging.freeTable]
    split_ifs with hdd
    · exact .inl rfl
    · exact hs.table d hd
  · simp only [Paging.freeTable] at hne hne' heq
    have h1 : d ≠ dir := fun h => hne (if_pos h)
    have h2 : d' ≠ dir := fun h => hne' (if_pos h)
    rw [if_neg h1] at hne heq
    rw [if_neg h2] at hne' heq
    exact hs.distinct d hd d' hd' hne hne' heq
  · by_cases hpd : p / ptrsPerPage = dir
    · rw [hempty p hp hpd]
      simp [Vm.pte, Paging.freeTable, hpd, present]
    · simp [Vm.pte, Paging.freeTable, hpd]

end Tables

/-! ## The operations -/

inductive RangeOp where
  | unmap
  | zeromap (mask : Nat)
  | remap (dest mask : Nat)

section Ops

variable (ram zeroPage : Nat) (alloc : Allocator ram)

/-- The call. -/
def RangeOp.call (op : RangeOp) (s : Vm) (start size : Nat) : Int × Vm :=
  match op with
  | .unmap => unmapPageRange ram s start size
  | .zeromap mask => zeromapPageRange ram alloc zeroPage s start size mask
  | .remap dest mask => remapPageRange ram alloc s start dest size mask

/-- The entry that `zeromap_page_range` writes. -/
def zeroWord (mask : Nat) : Nat := if mask = 0 then 0 else mask ||| zeroPage

/-- The flat loop's treatment of the page `i` of a range that starts with the page `first`. -/
def RangeOp.page (op : RangeOp) (first : Nat) : Nat → Vm → Except Vm Vm :=
  match op with
  | .unmap => unmapPage ram first
  | .zeromap mask =>
    mapPage ram alloc
      (fun dir frame i => zeroPte ram (zeroWord zeroPage mask) i dir frame) first
  | .remap dest mask =>
    mapPage ram alloc (fun dir frame i => remapPte ram dest mask i dir frame) first

/-- What the entry for the page `i` of the range may be afterwards: 0, the zero page, or the page
`to + i`.  A page that is not there is not mapped. -/
def RangeOp.word (op : RangeOp) (i word : Nat) : Prop :=
  match op with
  | .unmap => word = 0
  | .zeromap mask => word = zeroWord zeroPage mask
  | .remap dest mask =>
    if mask = 0 then word = 0
    else if target dest i ≥ highMemory ram then word = target dest i ||| mask
    else word = 0 ∨ word = target dest i ||| mask

/-- The count of the page that is to be mapped has reached its limit: one more would be
`MAP_PAGE_RESERVED`. -/
def RangeOp.Full (op : RangeOp) (first i : Nat) (s : Vm) : Prop :=
  match op with
  | .unmap => False
  | .zeromap _ => False
  | .remap dest mask =>
    ∃ s', ensureTable ram alloc ((first + i) / ptrsPerPage) s = .ok s' ∧ mask ≠ 0 ∧
      target dest i < highMemory ram ∧
      (clearPte ram ((first + i) / ptrsPerPage) (s'.frame (first + i)) ((first + i) % ptrsPerPage)
        s').memMap (mapNr (target dest i)) + 1 = mapPageReserved

/-- The arguments that the calls let through. -/
def RangeOp.Ok (op : RangeOp) : Prop :=
  match op with
  | .unmap => True
  | .zeromap mask => maskOk mask = true
  | .remap dest mask => maskOk mask = true ∧ dest % pageSize = 0

end Ops

/-- The zero page of the kernel: `mem_init` has reserved it. -/
structure ZeroPage (ram zeroPage : Nat) (s : Vm) : Prop where
  aligned : zeroPage % pageSize = 0
  reserved : s.reserved (mapNr zeroPage) = true

/-- **What is done with one page**: `s'` is what `s` becomes. -/
structure PageEffect (ram first i : Nat) (word : Nat → Nat → Prop) (s s' : Vm) : Prop where
  wf : WellFormed ram s'
  entry : word i (s'.pte (first + i))
  outside : ∀ p < userPages, p < first ∨ first + i < p → s'.pte p = s.pte p
  earlier : ∀ j < i, word j (s.pte (first + j)) → s'.pte (first + j) = s.pte (first + j)
  drops : drops s'.log = drops s.log ++ (reference (s.pte (first + i))).toList
  tables : ∀ d < userDirs, s.pageDir d ≠ 0 → s'.pageDir d = 0 →
    first ≤ d * ptrsPerPage ∧ (d + 1) * ptrsPerPage ≤ first + i + 1
  reserved_mono : ∀ nr, s.reserved nr = true → s'.reserved nr = true

/-- What is done with `rss`, unless a count has reached its limit. -/
structure RssEffect (ram first i : Nat) (s s' : Vm) : Prop where
  reserved : ∀ nr, s'.reserved nr = s.reserved nr
  rss : s'.rss + (if s.lost (s.pte (first + i)) then 1 else 0) =
    s.rss + (if s.counted ram (s'.pte (first + i)) then 1 else 0)

section Effects

variable {ram first i : Nat} {s s' : Vm}

variable {s₁ : Vm}

theorem unmapPage_of_hasTable (htable : s.HasTable (first + i))
    (hs₁ : clearPte ram ((first + i) / ptrsPerPage) (s.frame (first + i))
      ((first + i) % ptrsPerPage) s = s₁) :
    unmapPage ram first i s =
      .ok (if (first + i) % ptrsPerPage = ptrsPerPage - 1 ∧ ptrsPerPage ≤ i + 1 then
        freeTable ram ((first + i) / ptrsPerPage) s₁ else s₁) := by
  subst hs₁
  exact if_pos htable

theorem unmapPage_effect {zeroPage : Nat} (hs : WellFormed ram s) (hp : first + i < userPages)
    (hbefore : ∀ j < i, s.pte (first + j) = 0) (h : unmapPage ram first i s = .ok s') :
    PageEffect ram first i (RangeOp.unmap.word ram zeroPage) s s' ∧ RssEffect ram first i s s' := by
  by_cases htable : s.HasTable (first + i)
  · have hclear := hs.cleared hp htable ((first + i) / ptrsPerPage)
    generalize hs₁ : clearPte ram ((first + i) / ptrsPerPage) (s.frame (first + i))
      ((first + i) % ptrsPerPage) s = s₁ at hclear
    rw [unmapPage_of_hasTable htable hs₁] at h
    have hrss : s₁.rss + (if s.lost (s.pte (first + i)) then 1 else 0) =
        s.rss + (if s.counted ram 0 then 1 else 0) := by
      rw [hclear.rss]
      simp [Vm.counted, present]
    split at h
    · rename_i hlast
      cases h
      -- the whole table is empty by now
      have hempty : ∀ p < userPages, p / ptrsPerPage = (first + i) / ptrsPerPage →
          s₁.pte p = 0 := by
        intro p hpu hpd
        rw [hclear.pte p hpu]
        split_ifs with hpe
        · rfl
        · have hpi : p = first + (p - first) ∧ p - first < i := by
            unfold ptrsPerPage at *
            omega
          rw [hpi.1]
          exact hbefore _ hpi.2
      obtain ⟨hwf, hsame⟩ := hclear.wf.freeTable hempty
      have hpages : ∀ p < userPages, (freeTable ram ((first + i) / ptrsPerPage) s₁).pte p =
          if p = first + i then 0 else s.pte p :=
        fun p hpu => (hsame p hpu).trans (hclear.pte p hpu)
      refine ⟨⟨hwf, ?_, ?_, ?_, ?_, ?_, ?_⟩, ⟨?_, ?_⟩⟩
      · exact (hpages _ hp).trans (if_pos rfl)
      · intro p hpu hout
        exact (hpages p hpu).trans (if_neg (by omega))
      · intro j hj _
        exact (hpages _ (by omega)).trans (if_neg (by omega))
      · rw [← hclear.drops]
        simp [drops, freeTable]
      · intro d hd hne hzero
        simp only [freeTable, hclear.pageDir] at hzero
        split_ifs at hzero with hdd
        · subst hdd
          unfold ptrsPerPage at *
          omega
        · exact absurd hzero hne
      · intro nr hnr
        rw [freeTable_reserved, hclear.reserved]
        exact hnr
      · intro nr
        rw [freeTable_reserved, hclear.reserved]
      · rw [hpages _ hp, if_pos rfl]
        exact hrss
    · cases h
      refine ⟨⟨hclear.wf, ?_, ?_, ?_, hclear.drops, ?_, ?_⟩, ⟨hclear.reserved, ?_⟩⟩
      · exact (hclear.pte _ hp).trans (if_pos rfl)
      · intro p hpu hout
        exact (hclear.pte p hpu).trans (if_neg (by omega))
      · intro j hj _
        exact (hclear.pte _ (by omega)).trans (if_neg (by omega))
      · intro d _ hne hzero
        rw [hclear.pageDir] at hzero
        exact absurd hzero hne
      · intro nr hnr
        rw [hclear.reserved]
        exact hnr
      · rw [hclear.pte _ hp, if_pos rfl]
        exact hrss
  · have hpte : s.pte (first + i) = 0 := if_neg htable
    have habs : unmapPage ram first i s = .ok s := if_neg htable
    rw [habs] at h
    cases h
    refine ⟨⟨hs, hpte, fun _ _ _ => rfl, fun _ _ _ => rfl, ?_, ?_, fun _ h => h⟩, ⟨fun _ => rfl, ?_⟩⟩
    · simp [hpte, reference]
    · intro d _ hne hzero
      exact absurd hzero hne
    · simp [hpte, Vm.lost, Vm.counted, present]

/-- An entry is written: the page table is there or has been allocated (`s₁`), the entry has been
cleared (`s₂`). -/
theorem written_effect {s₂ : Vm} (hp : first + i < userPages)
    (hens : Ensured ram ((first + i) / ptrsPerPage) s s₁) (hclear : Cleared ram (first + i) s₁ s₂)
    {w : Nat} {K : Nat → Nat → Prop} {t : Vm} (hdir : t.pageDir = s₂.pageDir)
    (htable : t.pageTable =
      (setPte (s₁.frame (first + i)) ((first + i) % ptrsPerPage) w s₂).pageTable)
    (hlog : t.log = s₂.log) (hword : K i w)
    (hmono : ∀ nr, s₂.reserved nr = true → t.reserved nr = true) :
    PageEffect ram first i K s t ∧ t.pte (first + i) = w := by
  have hhas : s₂.HasTable (first + i) := by
    unfold Vm.HasTable
    rw [hclear.pageDir]
    exact hens.present
  have hframe : s₂.frame (first + i) = s₁.frame (first + i) := by
    unfold Vm.frame
    rw [hclear.pageDir]
  have hpages : ∀ p < userPages, t.pte p = if p = first + i then w else s.pte p := by
    intro p hpu
    have hupd := hclear.wf.pte_update hp hhas hdir (w := w)
      (fun f j => by rw [htable, hframe]; rfl) hpu
    rw [hupd]
    split_ifs with hpe
    · rfl
    · rw [hclear.pte p hpu, if_neg hpe, hens.pte p hpu]
  have hpte : t.pte (first + i) = w := (hpages _ hp).trans (if_pos rfl)
  refine ⟨⟨⟨?_, ?_⟩, ?_, ?_, ?_, ?_, ?_, ?_⟩, hpte⟩
  · rw [hdir]
    exact hclear.wf.table
  · rw [hdir]
    exact hclear.wf.distinct
  · rw [hpte]
    exact hword
  · intro p hpu hout
    exact (hpages p hpu).trans (if_neg (by omega))
  · intro j hj _
    exact (hpages _ (by omega)).trans (if_neg (by omega))
  · rw [hlog, hclear.drops, hens.log, hens.pte _ hp]
  · intro d hd hne hzero
    rw [hdir, hclear.pageDir, hens.tables d hd hne] at hzero
    exact absurd hzero hne
  · intro nr hnr
    apply hmono
    rw [hclear.reserved, hens.reserved]
    exact hnr

/-- `rss` up to the point where the entry has been cleared. -/
theorem rss_cleared {s₂ : Vm} (hp : first + i < userPages)
    (hens : Ensured ram ((first + i) / ptrsPerPage) s s₁) (hclear : Cleared ram (first + i) s₁ s₂) :
    s₂.rss + (if s.lost (s.pte (first + i)) then 1 else 0) = s.rss := by
  have hlost : s₁.lost (s₁.pte (first + i)) = s.lost (s.pte (first + i)) := by
    rw [hens.pte _ hp]
    unfold Vm.lost
    rw [hens.reserved]
  rw [hclear.rss, hlost, hens.rss]
  omega

/-- The pages that have been reserved are the same. -/
theorem reserved_cleared {s₂ : Vm} {dir p : Nat} (hens : Ensured ram dir s s₁)
    (hclear : Cleared ram p s₁ s₂) (nr : Nat) : s₂.reserved nr = s.reserved nr :=
  (hclear.reserved nr).trans (hens.reserved nr)

theorem counted_zeroWord {zeroPage mask : Nat} (hz : ZeroPage ram zeroPage s)
    (hmask : maskOk mask = true) : s.counted ram (zeroWord zeroPage mask) = false := by
  unfold zeroWord
  split_ifs with h0
  · rfl
  · have hlt : mask < pageSize := by
      simp only [maskOk, h0, decide_false, Bool.false_or, Bool.and_eq_true,
        decide_eq_true_eq] at hmask
      exact hmask.1
    rw [Nat.or_comm, Vm.counted, mapNr_page_or hz.aligned hlt, hz.reserved]
    simp

variable {alloc : Allocator ram}

/-- The page table that is there or is allocated, and the entry cleared. -/
theorem mapPage_cleared {body : Nat → Nat → Nat → Nat → Vm → Vm} (hs : WellFormed ram s)
    (hp : first + i < userPages) (h : mapPage ram alloc body first i s = .ok s') :
    ∃ s₁, ensureTable ram alloc ((first + i) / ptrsPerPage) s = .ok s₁ ∧
      Ensured ram ((first + i) / ptrsPerPage) s s₁ ∧
      Cleared ram (first + i) s₁
        (clearPte ram ((first + i) / ptrsPerPage) (s₁.frame (first + i))
          ((first + i) % ptrsPerPage) s₁) ∧
      s' = body ((first + i) / ptrsPerPage) (s₁.frame (first + i)) i
        ((first + i) % ptrsPerPage) s₁ := by
  unfold mapPage at h
  simp only at h
  cases hens : ensureTable ram alloc ((first + i) / ptrsPerPage) s with
  | error s₁ =>
    rw [hens] at h
    cases h
  | ok s₁ =>
    rw [hens] at h
    cases h
    have hens' := hs.ensureTable (dir_lt hp) hens
    exact ⟨s₁, rfl, hens', hens'.wf.cleared hp hens'.present _, rfl⟩

theorem zeroPage_effect {zeroPage mask : Nat} (hs : WellFormed ram s)
    (hz : ZeroPage ram zeroPage s) (hmask : maskOk mask = true) (hp : first + i < userPages)
    (h : (RangeOp.zeromap mask).page ram zeroPage alloc first i s = .ok s') :
    PageEffect ram first i ((RangeOp.zeromap mask).word ram zeroPage) s s' ∧
      RssEffect ram first i s s' := by
  have hpage : mapPage ram alloc
      (fun dir frame i => zeroPte ram (zeroWord zeroPage mask) i dir frame) first i s = .ok s' := h
  obtain ⟨s₁, -, hens, hclear, rfl⟩ := mapPage_cleared hs hp hpage
  have hres := reserved_cleared hens hclear
  obtain ⟨heffect, hpte⟩ := written_effect
    (t := zeroPte ram (zeroWord zeroPage mask) i ((first + i) / ptrsPerPage)
      (s₁.frame (first + i)) ((first + i) % ptrsPerPage) s₁)
    (K := (RangeOp.zeromap mask).word ram zeroPage) hp hens hclear rfl rfl rfl rfl fun _ h => h
  refine ⟨heffect, hres, ?_⟩
  rw [hpte, counted_zeroWord hz hmask]
  have hrss := rss_cleared hp hens hclear
  simpa [zeroPte, setPte] using hrss

/-- One page is mapped to a page of the machine. -/
theorem remapPage_effect {zeroPage dest mask : Nat} (hs : WellFormed ram s)
    (hmask : maskOk mask = true) (hdest : dest % pageSize = 0) (hp : first + i < userPages)
    (h : (RangeOp.remap dest mask).page ram zeroPage alloc first i s = .ok s') :
    PageEffect ram first i ((RangeOp.remap dest mask).word ram zeroPage) s s' ∧
      (¬ (RangeOp.remap dest mask).Full ram alloc first i s → RssEffect ram first i s s') ∧
      ((RangeOp.remap dest mask).Full ram alloc first i s →
        ∃ nr, s.reserved nr = false ∧ s'.reserved nr = true) := by
  have hmap : mapPage ram alloc (fun dir frame i => remapPte ram dest mask i dir frame) first i s =
      .ok s' := h
  obtain ⟨s₁, hens₁, hens, hclear, hs'⟩ := mapPage_cleared hs hp hmap
  have hres := reserved_cleared hens hclear
  have hrss := rss_cleared hp hens hclear
  have hpage : target dest i % pageSize = 0 := by
    unfold target pageSize at *
    omega
  have hfull : (RangeOp.remap dest mask).Full ram alloc first i s ↔ mask ≠ 0 ∧
      target dest i < highMemory ram ∧
      (clearPte ram ((first + i) / ptrsPerPage) (s₁.frame (first + i))
        ((first + i) % ptrsPerPage) s₁).memMap (mapNr (target dest i)) + 1 = mapPageReserved := by
    simp only [RangeOp.Full, hens₁, Except.ok.injEq, exists_eq_left']
  rw [hfull]
  unfold remapPte at hs'
  simp only at hs'
  generalize hs₂ : clearPte ram ((first + i) / ptrsPerPage) (s₁.frame (first + i))
    ((first + i) % ptrsPerPage) s₁ = s₂ at hs' hclear hres hrss
  -- an entry that does not count is written, and nothing else is changed
  have hplain : ∀ (looked : List Nat) (word : Nat),
      (RangeOp.remap dest mask).word ram zeroPage i word → s₂.counted ram word = false →
      s' = setPte (s₁.frame (first + i)) ((first + i) % ptrsPerPage) word
        { s₂ with looked := looked } →
      PageEffect ram first i ((RangeOp.remap dest mask).word ram zeroPage) s s' ∧
        RssEffect ram first i s s' := by
    rintro looked word hword hcount rfl
    obtain ⟨heffect, hpte⟩ := written_effect
      (t := setPte (s₁.frame (first + i)) ((first + i) % ptrsPerPage) word
        { s₂ with looked := looked })
      hp hens hclear rfl rfl rfl hword fun _ h => h
    refine ⟨heffect, hres, ?_⟩
    rw [hpte]
    have hcount' : s.counted ram word = false := by
      rw [← hcount]
      unfold Vm.counted
      rw [hres]
    rw [hcount']
    simpa [setPte] using hrss
  by_cases h0 : mask = 0
  · rw [if_pos h0] at hs'
    obtain ⟨h1, h2⟩ := hplain s₂.looked 0 (by simp [RangeOp.word, h0]) rfl hs'
    exact ⟨h1, fun _ => h2, fun hf => absurd h0 hf.1⟩
  · rw [if_neg h0] at hs'
    have hlt : mask < pageSize ∧ present mask = true := by
      simp only [maskOk, h0, decide_false, Bool.false_or, Bool.and_eq_true,
        decide_eq_true_eq] at hmask
      exact hmask
    by_cases hhigh : target dest i ≥ highMemory ram
    · rw [if_pos hhigh] at hs'
      have hcount : s₂.counted ram (target dest i ||| mask) = false := by
        have hnot : ¬ target dest i ||| mask < highMemory ram := by
          rw [page_or_lt_iff hpage hlt.1]
          omega
        simp [Vm.counted, hnot]
      obtain ⟨h1, h2⟩ := hplain s₂.looked _ (by simp [RangeOp.word, h0, hhigh]) hcount hs'
      exact ⟨h1, fun _ => h2, fun hf => absurd hf.2.1 (by omega)⟩
    · rw [if_neg hhigh] at hs'
      by_cases hnone : s₂.memMap (mapNr (target dest i)) = 0
      · rw [if_pos hnone] at hs'
        obtain ⟨h1, h2⟩ := hplain _ 0 (by simp [RangeOp.word, h0, hhigh]) rfl hs'
        refine ⟨h1, fun _ => h2, fun hf => ?_⟩
        have := hf.2.2
        rw [hnone] at this
        exact absurd this (by decide)
      · rw [if_neg hnone] at hs'
        by_cases hreserved : s₂.reserved (mapNr (target dest i)) = true
        · have hcount : s₂.counted ram (target dest i ||| mask) = false := by
            simp [Vm.counted, mapNr_page_or hpage hlt.1, hreserved]
          have hs'' : s' = setPte (s₁.frame (first + i)) ((first + i) % ptrsPerPage)
              (target dest i ||| mask)
              { s₂ with looked := s₂.looked ++ [mapNr (target dest i)] } := by
            rw [hs']
            exact if_pos hreserved
          obtain ⟨h1, h2⟩ := hplain _ _ (by simp [RangeOp.word, h0, hhigh]) hcount hs''
          refine ⟨h1, fun _ => h2, fun hf => ?_⟩
          have hle : mapPageReserved ≤ s₂.memMap (mapNr (target dest i)) := by
            simpa [Vm.reserved] using hreserved
          have := hf.2.2
          omega
        · -- the page is mapped once more
          obtain ⟨hdir, htable, hlog, hrss', hmem⟩ : s'.pageDir = s₂.pageDir ∧
              s'.pageTable = (setPte (s₁.frame (first + i)) ((first + i) % ptrsPerPage)
                (target dest i ||| mask) s₂).pageTable ∧
              s'.log = s₂.log ∧ s'.rss = s₂.rss + 1 ∧ s'.memMap = update s₂.memMap
                (mapNr (target dest i)) (s₂.memMap (mapNr (target dest i)) + 1) := by
            rw [hs'.trans (if_neg hreserved)]
            exact ⟨rfl, rfl, rfl, rfl, rfl⟩
          have hle : ¬ mapPageReserved ≤ s₂.memMap (mapNr (target dest i)) := by
            simpa [Vm.reserved] using hreserved
          have hsame : ∀ nr, s₂.memMap (mapNr (target dest i)) + 1 ≠ mapPageReserved ∨
              nr ≠ mapNr (target dest i) → s'.reserved nr = s₂.reserved nr := by
            intro nr hnr
            unfold Vm.reserved
            rw [hmem]
            apply decide_eq_decide.2
            by_cases hq : nr = mapNr (target dest i)
            · subst hq
              simp only [update_self]
              have := hnr.resolve_right (not_not.2 rfl)
              omega
            · simp only [update_of_ne hq]
          obtain ⟨heffect, hpte⟩ := written_effect
            (K := (RangeOp.remap dest mask).word ram zeroPage) hp hens hclear hdir htable hlog
            (by simp [RangeOp.word, h0, hhigh]) (by
              intro nr hnr
              rw [hsame]
              · exact hnr
              · right
                rintro rfl
                exact hreserved hnr)
          refine ⟨heffect, fun hf => ⟨fun nr => ?_, ?_⟩, fun hf => ⟨mapNr (target dest i), ?_, ?_⟩⟩
          · have hne : s₂.memMap (mapNr (target dest i)) + 1 ≠ mapPageReserved :=
              fun h => hf ⟨h0, not_le.1 hhigh, h⟩
            exact (hsame nr (.inl hne)).trans (hres nr)
          · rw [hpte]
            have hcount : s.counted ram (target dest i ||| mask) = true := by
              have hin : target dest i ||| mask < highMemory ram :=
                (page_or_lt_iff hpage hlt.1).2 (not_le.1 hhigh)
              unfold Vm.counted
              rw [present_page_or hpage hlt.1, hlt.2, mapNr_page_or hpage hlt.1, ← hres]
              simpa [hin] using hreserved
            rw [hcount]
            simp only [if_true]
            omega
          · rw [← hres]
            simpa using hreserved
          · have hval := hf.2.2
            simp only [Vm.reserved, hmem, update_self, decide_eq_true_eq]
            exact hval.ge

end Effects

end LinuxEvocation.Mm.Paging
