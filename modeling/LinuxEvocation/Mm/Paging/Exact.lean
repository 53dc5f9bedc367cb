import LinuxEvocation.Mm.Paging.Effect

/-!
# What a range operation does

* `Done`, `RssDone` — what has become of the first pages of the range.
* `Exact`, `range_op_exact_iff` — when an operation does exactly what it should.
-/

namespace LinuxEvocation.Mm.Paging

open PageAlloc (mapPageReserved)

/-! ## A run of the flat loop -/

/-- **What has become of the first `n` pages of a range**, and of the rest. -/
structure Done (ram first n : Nat) (word : Nat → Nat → Prop) (s s' : Vm) : Prop where
  wf : WellFormed ram s'
  entries : ∀ i < n, word i (s'.pte (first + i))
  outside : ∀ p < userPages, p < first ∨ first + n ≤ p → s'.pte p = s.pte p
  drops : drops s'.log =
    drops s.log ++ (List.range n).filterMap fun i => reference (s.pte (first + i))
  tables : ∀ d < userDirs, s.pageDir d ≠ 0 → s'.pageDir d = 0 →
    first ≤ d * ptrsPerPage ∧ (d + 1) * ptrsPerPage ≤ first + n
  reserved_mono : ∀ nr, s.reserved nr = true → s'.reserved nr = true

/-- What has become of `rss`. -/
structure RssDone (ram first n : Nat) (s s' : Vm) : Prop where
  reserved : ∀ nr, s'.reserved nr = s.reserved nr
  rss : s'.rss + ∑ i ∈ Finset.range n, (if s.lost (s.pte (first + i)) then 1 else 0 : Int) =
    s.rss + ∑ i ∈ Finset.range n, (if s.counted ram (s'.pte (first + i)) then 1 else 0 : Int)

section Run

variable {ram first n : Nat} {word : Nat → Nat → Prop} {s₀ s s' : Vm}

theorem Done.zero (hs : WellFormed ram s) : Done ram first 0 word s s :=
  ⟨hs, nofun, fun _ _ _ => rfl, by simp, fun _ _ hne h0 => absurd h0 hne, fun _ h => h⟩

theorem Done.succ (h : Done ram first n word s₀ s) (hp : first + n < userPages)
    (heffect : PageEffect ram first n word s s') : Done ram first (n + 1) word s₀ s' := by
  have hlast : s.pte (first + n) = s₀.pte (first + n) := h.outside _ hp (.inr le_rfl)
  refine ⟨heffect.wf, fun i hi => ?_, fun p hpu hout => ?_, ?_, fun d hd hne hzero => ?_,
    fun nr hnr => heffect.reserved_mono nr (h.reserved_mono nr hnr)⟩
  · rcases Nat.lt_succ_iff_lt_or_eq.1 hi with hlt | rfl
    · rw [heffect.earlier i hlt (h.entries i hlt)]
      exact h.entries i hlt
    · exact heffect.entry
  · rw [heffect.outside p hpu (by omega)]
    exact h.outside p hpu (by omega)
  · rw [heffect.drops, h.drops, hlast, List.range_succ, List.filterMap_append, List.append_assoc]
    congr 2
  · by_cases hmid : s.pageDir d = 0
    · have := h.tables d hd hne hmid
      omega
    · have := heffect.tables d hd hmid hzero
      omega

theorem RssDone.succ (hrss : RssDone ram first n s₀ s) (h : Done ram first n word s₀ s)
    (hp : first + n < userPages) (heffect : PageEffect ram first n word s s')
    (hstep : RssEffect ram first n s s') : RssDone ram first (n + 1) s₀ s' := by
  have hlast : s.pte (first + n) = s₀.pte (first + n) := h.outside _ hp (.inr le_rfl)
  have hlost : s.lost (s.pte (first + n)) = s₀.lost (s₀.pte (first + n)) := by
    rw [hlast]
    unfold Vm.lost
    rw [hrss.reserved]
  have hcount : s.counted ram (s'.pte (first + n)) = s₀.counted ram (s'.pte (first + n)) := by
    unfold Vm.counted
    rw [hrss.reserved]
  have hsame : ∀ i ∈ Finset.range n, (if s₀.counted ram (s'.pte (first + i)) then 1 else 0 : Int) =
      if s₀.counted ram (s.pte (first + i)) then 1 else 0 := by
    intro i hi
    have hlt := Finset.mem_range.1 hi
    rw [heffect.earlier i hlt (h.entries i hlt)]
  have h1 := hrss.rss
  have h2 := hstep.rss
  rw [hlost, hcount] at h2
  refine ⟨fun nr => (hstep.reserved nr).trans (hrss.reserved nr), ?_⟩
  rw [Finset.sum_range_succ, Finset.sum_range_succ, Finset.sum_congr rfl hsame]
  omega

end Run

section Main

variable {ram zeroPage : Nat} {alloc : Allocator ram} {op : RangeOp} {first : Nat} {s s' : Vm}

theorem RangeOp.effect (hop : op.Ok) (hs : WellFormed ram s) (hz : ZeroPage ram zeroPage s) {i : Nat}
    (hp : first + i < userPages)
    (hbefore : ∀ j < i, op.word ram zeroPage j (s.pte (first + j)))
    (h : op.page ram zeroPage alloc first i s = .ok s') :
    PageEffect ram first i (op.word ram zeroPage) s s' ∧
      (¬ op.Full ram alloc first i s → RssEffect ram first i s s') ∧
      (op.Full ram alloc first i s → ∃ nr, s.reserved nr = false ∧ s'.reserved nr = true) := by
  cases op with
  | unmap =>
    obtain ⟨h1, h2⟩ := unmapPage_effect hs hp hbefore h
    exact ⟨h1, fun _ => h2, fun hf => hf.elim⟩
  | zeromap mask =>
    obtain ⟨h1, h2⟩ := zeroPage_effect hs hz hop hp h
    exact ⟨h1, fun _ => h2, fun hf => hf.elim⟩
  | remap dest mask => exact remapPage_effect hs hop.1 hop.2 hp h

/-- No count reaches its limit while the first `n` pages are mapped. -/
def RangeOp.NotFull (ram zeroPage : Nat) (alloc : Allocator ram) (op : RangeOp) (first n : Nat)
    (s : Vm) : Prop :=
  ∀ i < n, ∀ sᵢ, eachPage (op.page ram zeroPage alloc first) i 0 s = .ok sᵢ →
    ¬ op.Full ram alloc first i sᵢ

/-- **A run of the flat loop.** -/
theorem Done.of_eachPage (hop : op.Ok) (hs : WellFormed ram s) (hz : ZeroPage ram zeroPage s)
    (n : Nat) (hp : first + n ≤ userPages) {s' : Vm}
    (h : eachPage (op.page ram zeroPage alloc first) n 0 s = .ok s') :
    Done ram first n (op.word ram zeroPage) s s' ∧
      (op.NotFull ram zeroPage alloc first n s → RssDone ram first n s s') ∧
      (¬ op.NotFull ram zeroPage alloc first n s →
        ∃ nr, s.reserved nr = false ∧ s'.reserved nr = true) := by
  induction n generalizing s' with
  | zero =>
    cases h
    exact ⟨.zero hs, fun _ => ⟨fun _ => rfl, by simp⟩, fun hno => absurd (fun _ hi => by omega) hno⟩
  | succ n ih =>
    rw [eachPage_last] at h
    cases hn : eachPage (op.page ram zeroPage alloc first) n 0 s with
    | error sₙ =>
      rw [hn] at h
      cases h
    | ok sₙ =>
      rw [hn] at h
      obtain ⟨hdone, hrss, hlimit⟩ := ih (by omega) hn
      have hz' : ZeroPage ram zeroPage sₙ := ⟨hz.aligned, hdone.reserved_mono _ hz.reserved⟩
      obtain ⟨heffect, hstep, hfull⟩ :=
        RangeOp.effect hop hdone.wf hz' (by omega) hdone.entries h
      refine ⟨hdone.succ (by omega) heffect, fun hnot => ?_, fun hno => ?_⟩
      · apply (hrss fun i hi => hnot i (by omega)).succ hdone (by omega) heffect
        exact hstep (hnot n (by omega) sₙ hn)
      · by_cases hbefore : op.NotFull ram zeroPage alloc first n s
        · -- the limit is reached at this page
          have hlast : op.Full ram alloc first n sₙ := by
            by_contra hlast
            apply hno
            intro i hi sᵢ hsᵢ
            rcases Nat.lt_succ_iff_lt_or_eq.1 hi with hlt | rfl
            · exact hbefore i hlt sᵢ hsᵢ
            · rw [hn] at hsᵢ
              cases hsᵢ
              exact hlast
          obtain ⟨nr, hfalse, htrue⟩ := hfull hlast
          refine ⟨nr, ?_, htrue⟩
          rw [← (hrss hbefore).reserved]
          exact hfalse
        · obtain ⟨nr, hfalse, htrue⟩ := hlimit hbefore
          exact ⟨nr, hfalse, heffect.reserved_mono nr htrue⟩

/-- A call that returns 0 is a run of the flat loop. -/
theorem RangeOp.call_eq (hs : WellFormed ram s) {start size : Nat} (hstart : start % pageSize = 0)
    (hend : start + size ≤ taskSize) (h : op.call ram zeroPage alloc s start size = (0, s')) :
    op.Ok ∧ eachPage (op.page ram zeroPage alloc (start / pageSize)) (pages size) 0 s = .ok s' := by
  have hpoff : start / pageSize % ptrsPerPage < ptrsPerPage := Nat.mod_lt _ (by decide)
  have hmap : ∀ {body : Nat → Nat → Nat → Nat → Vm → Vm} {err : Int},
      (∀ dir frame i idx s, (body dir frame i idx s).pageDir = s.pageDir) → err ≠ 0 →
      mapResult err (mapRange ram alloc body s start size) = (0, s') →
      eachPage (mapPage ram alloc body (start / pageSize)) (pages size) 0 s = .ok s' := by
    intro body err hbody herr h
    rw [mapRange_eq hbody] at h
    unfold mapResult at h
    split at h
    · rename_i heq
      cases h
      exact heq
    · cases h
      exact absurd rfl herr
  cases op with
  | unmap =>
    unfold RangeOp.call unmapPageRange at h
    simp only [hstart, ne_eq, not_true_eq_false, if_false] at h
    cases h
    refine ⟨trivial, unmapLoop_eq (pages size) ?_ le_rfl rfl hpoff (start_page start) (.inl rfl) ?_⟩
    · intro d _ hd
      exact (hs.table d hd).imp_right IsTable.present
    · unfold pages userPages userDirs taskSize pageSize ptrsPerPage at *
      omega
  | zeromap mask =>
    unfold RangeOp.call zeromapPageRange at h
    simp only [hstart, ne_eq, not_true_eq_false, if_false] at h
    split at h
    · cases h
    · rename_i hmask
      refine ⟨by simpa [RangeOp.Ok] using hmask, hmap (fun _ _ _ _ _ => ?_) (by decide) h⟩
      simp [zeroPte]
  | remap dest mask =>
    unfold RangeOp.call remapPageRange at h
    simp only [hstart, ne_eq, not_true_eq_false, false_or] at h
    split at h
    · cases h
    · rename_i hmask
      split at h
      · cases h
      · rename_i hdest
        refine ⟨⟨by simpa using hmask, by simpa using hdest⟩, hmap (fun _ _ _ _ _ => ?_)
          (by decide) h⟩
        simp only [remapPte]
        split_ifs <;> simp

/-- **What a range operation should do**: it is the flat loop over the pages `first + i`.  Their
entries are what it writes and the others are as they were; each reference that was there is given
back once; a page table is freed only if all its pages are in the range; no count runs into the
flag next to it, and `rss` changes by the resident pages that are there more or less. -/
structure Exact (ram first n : Nat) (page : Nat → Vm → Except Vm Vm) (word : Nat → Nat → Prop)
    (s s' : Vm) : Prop where
  flat : eachPage page n 0 s = .ok s'
  entries : ∀ i < n, word i (s'.pte (first + i))
  outside : ∀ p < userPages, p < first ∨ first + n ≤ p → s'.pte p = s.pte p
  drops : drops s'.log =
    drops s.log ++ (List.range n).filterMap fun i => reference (s.pte (first + i))
  tables : ∀ d < userDirs, s.pageDir d ≠ 0 → s'.pageDir d = 0 →
    first ≤ d * ptrsPerPage ∧ (d + 1) * ptrsPerPage ≤ first + n
  reserved : ∀ nr, s'.reserved nr = s.reserved nr
  rss : s'.rss - s.rss = ∑ i ∈ Finset.range n,
    ((if s'.counted ram (s'.pte (first + i)) then 1 else 0 : Int) -
      if s.counted ram (s.pte (first + i)) then 1 else 0)

/-- What is taken off `rss` and does not count is a stray entry. -/
theorem lost_eq (s : Vm) (ram word : Nat) :
    (if s.lost word then 1 else 0 : Int) =
      (if s.counted ram word then 1 else 0) +
        if present word && decide (highMemory ram ≤ word) && !s.reserved (mapNr word) then 1
        else 0 := by
  unfold Vm.lost Vm.counted
  by_cases hlt : word < highMemory ram
  · have hnot : ¬ highMemory ram ≤ word := not_le.2 hlt
    simp [hlt, hnot]
  · have hle : highMemory ram ≤ word := not_lt.1 hlt
    simp [hlt, hle]

theorem RssDone.exact_iff {n : Nat} (h : RssDone ram first n s s') :
    (s'.rss - s.rss = ∑ i ∈ Finset.range n,
      ((if s'.counted ram (s'.pte (first + i)) then 1 else 0 : Int) -
        if s.counted ram (s.pte (first + i)) then 1 else 0)) ↔
      ∀ i < n, ¬ s.Stray ram (s.pte (first + i)) := by
  have hcount : ∀ word, s'.counted ram word = s.counted ram word := by
    intro word
    unfold Vm.counted
    rw [h.reserved]
  have hrss := h.rss
  simp only [lost_eq s ram, Finset.sum_add_distrib] at hrss
  simp only [hcount, Finset.sum_sub_distrib]
  have hzero : (∑ i ∈ Finset.range n, (if present (s.pte (first + i)) &&
      decide (highMemory ram ≤ s.pte (first + i)) && !s.reserved (mapNr (s.pte (first + i))) then 1
      else 0 : Int)) = 0 ↔ ∀ i < n, ¬ s.Stray ram (s.pte (first + i)) := by
    rw [Finset.sum_eq_zero_iff_of_nonneg (fun i _ => by split <;> decide)]
    simp [Vm.Stray]
  rw [← hzero]
  omega

/-- **When a range operation does what it should**: no entry of the range names a page of a device
for which the word behind the end of `mem_map` does not look reserved, and no page is mapped more
often than can be counted. -/
theorem range_op_exact_iff (op : RangeOp) (hs : WellFormed ram s) (hz : ZeroPage ram zeroPage s)
    {start size : Nat} (hstart : start % pageSize = 0) (hend : start + size ≤ taskSize)
    (hret : op.call ram zeroPage alloc s start size = (0, s')) :
    Exact ram (start / pageSize) (pages size) (op.page ram zeroPage alloc (start / pageSize))
        (op.word ram zeroPage) s s' ↔
      (∀ i < pages size, ¬ s.Stray ram (s.pte (start / pageSize + i))) ∧
        op.NotFull ram zeroPage alloc (start / pageSize) (pages size) s := by
  obtain ⟨hop, hflat⟩ := op.call_eq hs hstart hend hret
  have hpages : start / pageSize + pages size ≤ userPages := by
    unfold pages userPages userDirs taskSize pageSize ptrsPerPage at *
    omega
  obtain ⟨hdone, hrss, hlimit⟩ := Done.of_eachPage hop hs hz (pages size) hpages hflat
  constructor
  · intro hexact
    have hnot : op.NotFull ram zeroPage alloc (start / pageSize) (pages size) s := by
      by_contra hno
      obtain ⟨nr, hfalse, htrue⟩ := hlimit hno
      rw [hexact.reserved, hfalse] at htrue
      cases htrue
    exact ⟨(hrss hnot).exact_iff.1 hexact.rss, hnot⟩
  · rintro ⟨hstray, hnot⟩
    exact ⟨hflat, hdone.entries, hdone.outside, hdone.drops, hdone.tables, (hrss hnot).reserved,
      (hrss hnot).exact_iff.2 hstray⟩

end Main

/-! ## One page -/

/-- An allocator that has no pages left. -/
def noPages (ram : Nat) : Allocator ram := ⟨fun _ _ => none, nofun, nofun, nofun⟩

/-- A task on a machine of 16 pages, with one entry at `SHM_RANGE_START`.  The page 0 is
reserved. -/
def oneEntry (word : Nat) : Vm where
  pageDir d := if d = 256 then 0x5027 else 0
  pageTable frame idx := if frame = 5 ∧ idx = 0 then word else 0
  rss := 1
  mmap := []
  log := []
  memMap nr := if nr = 0 then mapPageReserved else if nr < 16 then 1 else 0
  swap := ⟨[], 0⟩
  looked := []

theorem oneEntry_wellFormed (word : Nat) : WellFormed 16 (oneEntry word) := by
  refine ⟨fun d _ => ?_, fun d _ d' _ hne hne' _ => ?_⟩
  · by_cases hd : d = 256
    · subst hd
      exact .inr (⟨rfl, by decide⟩ : IsTable 16 0x5027)
    · exact .inl (if_neg hd)
  · have h1 : d = 256 := by
      by_contra h
      exact hne (if_neg h)
    have h2 : d' = 256 := by
      by_contra h
      exact hne' (if_neg h)
    rw [h1, h2]

/-- A page of memory is unmapped. -/
theorem range_op_exact_iff_page :
    Exact 16 (0x40000000 / pageSize) (pages 0x1000)
      (RangeOp.unmap.page 16 0 (noPages 16) (0x40000000 / pageSize)) (RangeOp.unmap.word 16 0)
      (oneEntry 0x6027) (unmapPageRange 16 (oneEntry 0x6027) 0x40000000 0x1000).2 := by
  have hiff := @range_op_exact_iff 16 0 (noPages 16) (oneEntry 0x6027)
    (unmapPageRange 16 (oneEntry 0x6027) 0x40000000 0x1000).2 .unmap (oneEntry_wellFormed 0x6027)
    ⟨rfl, rfl⟩ 0x40000000 0x1000 rfl (by decide) rfl
  refine hiff.2 ⟨fun i hi hstray => ?_, fun _ _ _ _ h => h.elim⟩
  have hi0 : i = 0 := by
    have hn : pages 0x1000 = 1 := rfl
    omega
  subst hi0
  exact absurd hstray.2.1 (by decide)

/-- A page of a device is unmapped, and `rss` goes down although it had not counted. -/
theorem unmap_page_range_counts_device :
    ¬ Exact 16 (0x40000000 / pageSize) (pages 0x1000)
      (RangeOp.unmap.page 16 0 (noPages 16) (0x40000000 / pageSize)) (RangeOp.unmap.word 16 0)
      (oneEntry 0xa0000027) (unmapPageRange 16 (oneEntry 0xa0000027) 0x40000000 0x1000).2 := by
  intro h
  have hrss := h.rss
  revert hrss
  decide +kernel

end LinuxEvocation.Mm.Paging
