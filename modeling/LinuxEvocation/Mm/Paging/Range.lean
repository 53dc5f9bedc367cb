import LinuxEvocation.Mm.Paging.Basic

/-!
# Ranges of pages: `unmap_page_range`, `zeromap_page_range` and `remap_page_range`

The three functions go through the page tables of a range table by table.  The first table may be
entered in the middle and the last one left early; where there is no table the first function
goes on and the other two allocate one.

* `walk` — the loop over the entries of one table.
* `unmapPageRange`, `zeromapPageRange`, `remapPageRange` — the code.
* `eachPage` — the flat loop over the pages of the range; `unmapPage`, `zeromapPage`,
  `remapPage` are what it does for one page.
-/

namespace LinuxEvocation.Mm.Paging

/-! ## The code -/

section Code

variable (ram : Nat)

/-- The loop over `n` entries of a table from `idx` on; the first of them is the page `i` of the
range. -/
def walk (body : Nat → Nat → Vm → Vm) : Nat → Nat → Nat → Vm → Vm
  | 0, _, _, s => s
  | n + 1, i, idx, s => walk body n (i + 1) (idx + 1) (body i idx s)

/-- `(size + ~PAGE_MASK) >> PAGE_SHIFT`. -/
def pages (size : Nat) : Nat := (size + (pageSize - 1)) / pageSize

/-- One round of `unmap_page_range`: what it leaves and the new `poff`. -/
def unmapRound (s : Vm) (dir poff pcnt i : Nat) : Vm × Nat :=
  let pageDir := s.pageDir dir
  if pageDir = 0 then (s, 0)
  -- "unmap_page_range: bad page directory."
  else if ¬ present pageDir then (s, poff)
  else
    let s := walk (fun _ idx s => clearPte ram dir (mapNr pageDir) idx s) pcnt i poff s
    (if pcnt = ptrsPerPage then freeTable ram dir s else s, 0)

/-- The loop of `unmap_page_range`; every round uses up some of `size`. -/
def unmapLoop : Nat → Vm → Nat → Nat → Nat → Nat → Nat → Vm
  | 0, s, _, _, _, _, _ => s
  | fuel + 1, s, dir, poff, pcnt, size, i =>
    if size = 0 then s
    else
      let r := unmapRound ram s dir poff pcnt i
      unmapLoop fuel r.1 (dir + 1) r.2 (min (size - pcnt) ptrsPerPage) (size - pcnt) (i + pcnt)

/-- `unmap_page_range(from, size)`. -/
def unmapPageRange (s : Vm) (start size : Nat) : Int × Vm :=
  if start % pageSize ≠ 0 then (-Errno.einval, s)
  else
    let poff := start / pageSize % ptrsPerPage
    (0, unmapLoop ram (pages size) s (start / (pageSize * ptrsPerPage)) poff
      (min (ptrsPerPage - poff) (pages size)) (pages size) 0)

variable (alloc : Allocator ram)

/-- The loop of `zeromap_page_range` and of `remap_page_range`.  `body` is what is done with an
entry, given the directory entry and the table. -/
def mapLoop (body : Nat → Nat → Nat → Nat → Vm → Vm) :
    Nat → Vm → Nat → Nat → Nat → Nat → Nat → Except Vm Vm
  | 0, s, _, _, _, _, _ => .ok s
  | fuel + 1, s, dir, poff, pcnt, size, i =>
    if size = 0 then .ok s
    else
      match ensureTable ram alloc dir s with
      | .error s => .error s
      | .ok s =>
        mapLoop body fuel (walk (body dir (mapNr (s.pageDir dir))) pcnt i poff s) (dir + 1) 0
          (min (size - pcnt) ptrsPerPage) (size - pcnt) (i + pcnt)

/-- The start of the loop. -/
def mapRange (body : Nat → Nat → Nat → Nat → Vm → Vm) (s : Vm) (start size : Nat) :
    Except Vm Vm :=
  let poff := start / pageSize % ptrsPerPage
  mapLoop ram alloc body (pages size) s (start / (pageSize * ptrsPerPage)) poff
    (min (ptrsPerPage - poff) (pages size)) (pages size) 0

/-- What is returned, with the error for a page table that cannot be allocated. -/
def mapResult (err : Int) : Except Vm Vm → Int × Vm
  | .ok s => (0, s)
  | .error s => (err, s)

/-- `(mask & (PAGE_MASK|PAGE_PRESENT)) == PAGE_PRESENT`, or `mask` is 0. -/
def maskOk (mask : Nat) : Bool := mask = 0 || (mask < pageSize && present mask)

/-- The body of the loop of `zeromap_page_range`. -/
def zeroPte (mask : Nat) (_ dir frame idx : Nat) (s : Vm) : Vm :=
  setPte frame idx mask (clearPte ram dir frame idx s)

/-- `zeromap_page_range(from, size, mask)`, with `ZERO_PAGE`.  The test of the directory entry
after `get_free_page` makes a difference only if somebody else has set it in the meantime. -/
def zeromapPageRange (zeroPage : Nat) (s : Vm) (start size mask : Nat) : Int × Vm :=
  if ¬ maskOk mask then (-Errno.einval, s)
  else if start % pageSize ≠ 0 then (-Errno.einval, s)
  else
    let mask := if mask = 0 then 0 else mask ||| zeroPage
    mapResult (-Errno.enomem)
      (mapRange ram alloc (fun dir frame i => zeroPte ram mask i dir frame) s start size)

/-- The page that `remap_page_range` maps as the page `i` of the range; `to` has 32 bits. -/
def target (dest i : Nat) : Nat := (dest + i * pageSize) % 2 ^ 32

/-- The body of the loop of `remap_page_range`. -/
def remapPte (dest mask i dir frame idx : Nat) (s : Vm) : Vm :=
  let s := clearPte ram dir frame idx s
  let page := target dest i
  if mask = 0 then setPte frame idx 0 s
  else if page ≥ highMemory ram then setPte frame idx (page ||| mask) s
  else
    let s := { s with looked := s.looked ++ [mapNr page] }
    if s.memMap (mapNr page) = 0 then setPte frame idx 0 s
    else
      let s := setPte frame idx (page ||| mask) s
      if s.reserved (mapNr page) then s
      else
        { s with
          rss := s.rss + 1
          memMap := Function.update s.memMap (mapNr page) (s.memMap (mapNr page) + 1) }

/-- `remap_page_range(from, to, size, mask)`. -/
def remapPageRange (s : Vm) (start dest size mask : Nat) : Int × Vm :=
  if ¬ maskOk mask then (-Errno.einval, s)
  else if start % pageSize ≠ 0 ∨ dest % pageSize ≠ 0 then (-Errno.einval, s)
  else
    mapResult (-1)
      (mapRange ram alloc (fun dir frame i => remapPte ram dest mask i dir frame) s start size)

/-! ## The flat loop -/

/-- The flat loop: `n` pages of the range, from the page `i` on. -/
def eachPage (page : Nat → Vm → Except Vm Vm) : Nat → Nat → Vm → Except Vm Vm
  | 0, _, s => .ok s
  | n + 1, i, s =>
    match page i s with
    | .error s => .error s
    | .ok s => eachPage page n (i + 1) s

/-- What is left when a function that goes on or gives up is done. -/
def outcome {α : Type*} : Except α α → α
  | .ok a => a
  | .error a => a

/-- One page of `unmap_page_range`: the entry is cleared.  After the last page of a table all of
whose pages were in the range, the table is freed. -/
def unmapPage (first i : Nat) (s : Vm) : Except Vm Vm :=
  let p := first + i
  let dir := p / ptrsPerPage
  if present (s.pageDir dir) then
    let s := clearPte ram dir (mapNr (s.pageDir dir)) (p % ptrsPerPage) s
    .ok (if p % ptrsPerPage = ptrsPerPage - 1 ∧ ptrsPerPage ≤ i + 1 then freeTable ram dir s else s)
  else .ok s

/-- One page of the other two: the page table is there or is allocated, and the entry is
written. -/
def mapPage (body : Nat → Nat → Nat → Nat → Vm → Vm) (first i : Nat) (s : Vm) : Except Vm Vm :=
  let p := first + i
  let dir := p / ptrsPerPage
  match ensureTable ram alloc dir s with
  | .error s => .error s
  | .ok s => .ok (body dir (mapNr (s.pageDir dir)) i (p % ptrsPerPage) s)

end Code

/-! ## The code is the flat loop -/

section Flat

variable {ram : Nat}

theorem eachPage_add (page : Nat → Vm → Except Vm Vm) (m n i : Nat) (s : Vm) :
    eachPage page (m + n) i s =
      match eachPage page m i s with
      | .error s => .error s
      | .ok s => eachPage page n (i + m) s := by
  induction m generalizing i s with
  | zero => rw [Nat.zero_add]; rfl
  | succ m ih =>
    rw [Nat.succ_add, eachPage, eachPage]
    cases page i s with
    | error s => rfl
    | ok s =>
      simp only
      rw [ih, Nat.add_right_comm, Nat.add_assoc]

theorem eachPage_last (page : Nat → Vm → Except Vm Vm) (n : Nat) (s : Vm) :
    eachPage page (n + 1) 0 s =
      match eachPage page n 0 s with
      | .error s => .error s
      | .ok s => page n s := by
  rw [eachPage_add]
  cases eachPage page n 0 s with
  | error s => rfl
  | ok s =>
    simp only [eachPage, Nat.zero_add]
    cases page n s <;> rfl

variable {dir idx : Nat}

/-- The page behind another one in the same table. -/
theorem next_page {p : Nat} (hdir : p / ptrsPerPage = dir) (hidx : p % ptrsPerPage = idx)
    (hlt : idx + 1 < ptrsPerPage) :
    (p + 1) / ptrsPerPage = dir ∧ (p + 1) % ptrsPerPage = idx + 1 := by
  unfold ptrsPerPage at *
  omega

/-! ### Unmapping -/

variable {first i : Nat} {s : Vm}

/-- The pages of a table that is not there. -/
theorem eachPage_unmap_absent (habs : s.pageDir dir = 0) (n : Nat)
    (hdir : (first + i) / ptrsPerPage = dir)
    (hidx : (first + i) % ptrsPerPage = idx) (hn : idx + n ≤ ptrsPerPage) :
    eachPage (unmapPage ram first) n i s = .ok s := by
  induction n generalizing i idx with
  | zero => rfl
  | succ n ih =>
    have hpage : unmapPage ram first i s = .ok s := by
      simp only [unmapPage, hdir, habs]
      rfl
    rw [eachPage, hpage]
    simp only
    rcases Nat.eq_zero_or_pos n with rfl | hpos
    · rfl
    · obtain ⟨hdir', hidx'⟩ := next_page hdir hidx (by omega)
      exact ih hdir' hidx' (by omega)

theorem eachPage_unmap_present (n : Nat)
    (hpres : present (s.pageDir dir) = true) (hdir : (first + i) / ptrsPerPage = dir)
    (hidx : (first + i) % ptrsPerPage = idx) (hn : idx + (n + 1) ≤ ptrsPerPage) :
    eachPage (unmapPage ram first) (n + 1) i s =
      .ok
        (if idx + (n + 1) = ptrsPerPage ∧ ptrsPerPage ≤ i + (n + 1) then
          freeTable ram dir
            (walk (fun _ idx s => clearPte ram dir (mapNr (s.pageDir dir)) idx s) (n + 1) i idx s)
        else walk (fun _ idx s => clearPte ram dir (mapNr (s.pageDir dir)) idx s) (n + 1) i idx s) := by
  induction n generalizing i idx s with
  | zero =>
    rw [eachPage]
    simp only [unmapPage, hdir, hidx, hpres, if_true, eachPage, walk]
    have hiff : (idx = ptrsPerPage - 1 ∧ ptrsPerPage ≤ i + 1) ↔
        (idx + (0 + 1) = ptrsPerPage ∧ ptrsPerPage ≤ i + (0 + 1)) := by
      unfold ptrsPerPage
      omega
    rw [if_congr hiff rfl rfl]
  | succ n ih =>
    rw [eachPage]
    have hpage : unmapPage ram first i s =
        .ok (clearPte ram dir (mapNr (s.pageDir dir)) idx s) := by
      simp only [unmapPage, hdir, hidx, hpres, if_true]
      rw [if_neg]
      unfold ptrsPerPage at *
      omega
    rw [hpage]
    obtain ⟨hdir', hidx'⟩ := next_page hdir hidx (by omega)
    have hpres' : present ((clearPte ram dir (mapNr (s.pageDir dir)) idx s).pageDir dir) = true := by
      rw [clearPte_pageDir]
      exact hpres
    have hrest := ih (i := i + 1) hpres' hdir' hidx' (by omega)
    simp only [hrest, walk]
    have hiff : (idx + 1 + (n + 1) = ptrsPerPage ∧ ptrsPerPage ≤ i + 1 + (n + 1)) ↔
        (idx + (n + 1 + 1) = ptrsPerPage ∧ ptrsPerPage ≤ i + (n + 1 + 1)) := by
      omega
    rw [if_congr hiff rfl rfl]

/-- The entry of the directory stays the same while its table is walked. -/
theorem walk_clear (dir frame n i idx : Nat) (s : Vm) (hframe : mapNr (s.pageDir dir) = frame) :
    walk (fun _ idx s => clearPte ram dir (mapNr (s.pageDir dir)) idx s) n i idx s =
      walk (fun _ idx s => clearPte ram dir frame idx s) n i idx s := by
  induction n generalizing i idx s with
  | zero => rfl
  | succ n ih =>
    rw [walk, walk, hframe]
    exact ih _ _ _ (by rw [clearPte_pageDir]; exact hframe)

theorem walk_pageDir {body : Nat → Nat → Vm → Vm}
    (hbody : ∀ i idx s, (body i idx s).pageDir = s.pageDir) (n i idx : Nat) (s : Vm) : (walk body n i idx s).pageDir = s.pageDir := by
  induction n generalizing i idx s with
  | zero => rfl
  | succ n ih => rw [walk, ih, hbody]

/-- **`unmap_page_range` is the flat loop.** -/
theorem unmapLoop_eq (fuel : Nat) {poff pcnt size : Nat}
    (htable : ∀ d, dir ≤ d → d < userDirs → s.pageDir d = 0 ∨ present (s.pageDir d) = true)
    (hfuel : size ≤ fuel) (hpcnt : pcnt = min (ptrsPerPage - poff) size)
    (hpoff : poff < ptrsPerPage) (hpage : first + i = dir * ptrsPerPage + poff)
    (hstart : i = 0 ∨ poff = 0) (hend : first + i + size ≤ userPages) :
    eachPage (unmapPage ram first) size i s = .ok (unmapLoop ram fuel s dir poff pcnt size i) := by
  induction fuel generalizing i dir poff pcnt size s with
  | zero =>
    obtain rfl : size = 0 := by omega
    rfl
  | succ fuel ih =>
    rw [unmapLoop]
    by_cases hsize : size = 0
    · rw [if_pos hsize, hsize]
      rfl
    · rw [if_neg hsize]
      have hdir : (first + i) / ptrsPerPage = dir := by
        unfold ptrsPerPage at *
        omega
      have hidx : (first + i) % ptrsPerPage = poff := by
        unfold ptrsPerPage at *
        omega
      have hdirs : dir < userDirs := by
        unfold userPages userDirs ptrsPerPage at *
        omega
      -- one round is the pages of one table
      have hround : eachPage (unmapPage ram first) pcnt i s =
          .ok (unmapRound ram s dir poff pcnt i).1 ∧ (unmapRound ram s dir poff pcnt i).2 = 0 := by
        unfold unmapRound
        simp only
        rcases htable dir le_rfl hdirs with habs | hpres
        · rw [if_pos habs]
          exact ⟨eachPage_unmap_absent habs pcnt hdir hidx (by omega), rfl⟩
        · have hne : s.pageDir dir ≠ 0 := by
            intro h0
            rw [h0] at hpres
            cases hpres
          rw [if_neg hne, if_neg (not_not.2 hpres)]
          obtain ⟨n, rfl⟩ : ∃ n, pcnt = n + 1 := ⟨pcnt - 1, by omega⟩
          rw [eachPage_unmap_present n hpres hdir hidx (by omega), walk_clear _ _ _ _ _ _ rfl]
          have hiff : (poff + (n + 1) = ptrsPerPage ∧ ptrsPerPage ≤ i + (n + 1)) ↔
              n + 1 = ptrsPerPage := by
            omega
          rw [if_congr hiff rfl rfl]
          exact ⟨rfl, rfl⟩
      have hother : ∀ d, dir < d → (unmapRound ram s dir poff pcnt i).1.pageDir d = s.pageDir d := by
        intro d hd
        have hwalk : (walk (fun _ idx s => clearPte ram dir (mapNr (s.pageDir dir)) idx s) pcnt i
            poff s).pageDir = s.pageDir := walk_pageDir (fun _ _ _ => clearPte_pageDir _ _ _) _ _ _ _
        rw [walk_clear _ _ _ _ _ _ rfl] at hwalk
        unfold unmapRound
        simp only
        split_ifs
        · rfl
        · simp only [freeTable]
          rw [if_neg (by omega), hwalk]
        · rw [hwalk]
        · rfl
      have hsplit : size = pcnt + (size - pcnt) := by omega
      have hle : pcnt ≤ size := by omega
      simp only [hround.2]
      conv_lhs => rw [hsplit]
      rw [eachPage_add, hround.1]
      simp only
      by_cases hlast : size - pcnt = 0
      · rw [hlast]
        cases fuel with
        | zero => rfl
        | succ fuel => rw [unmapLoop, if_pos rfl]; rfl
      · apply ih
        · intro d hd hd'
          rw [hother d (by omega)]
          exact htable d (by omega) hd'
        · omega
        · rw [Nat.sub_zero, Nat.min_comm]
        · decide
        · unfold ptrsPerPage at *
          omega
        · exact .inr rfl
        · omega

/-! ### Mapping -/

variable {alloc : Allocator ram} {body : Nat → Nat → Nat → Nat → Vm → Vm}

/-- A page table that has been allocated is there. -/
theorem ensureTable_present {s' : Vm} (h : ensureTable ram alloc dir s = .ok s') :
    present (s'.pageDir dir) = true := by
  unfold ensureTable at h
  split at h
  · cases h
    assumption
  · split at h
    · cases h
    · cases h
      simp only [Function.update_self, present, decide_eq_true_eq, pageSize, pageTableBits]
      omega

theorem ensureTable_of_present (h : present (s.pageDir dir) = true) :
    ensureTable ram alloc dir s = .ok s := by
  unfold ensureTable
  rw [if_pos h]

theorem eachPage_map_present
    (hbody : ∀ dir frame i idx s, (body dir frame i idx s).pageDir = s.pageDir)
    {frame : Nat} (n : Nat) (hpres : present (s.pageDir dir) = true)
    (hframe : mapNr (s.pageDir dir) = frame) (hdir : (first + i) / ptrsPerPage = dir)
    (hidx : (first + i) % ptrsPerPage = idx) (hn : idx + n ≤ ptrsPerPage) :
    eachPage (mapPage ram alloc body first) n i s = .ok (walk (body dir frame) n i idx s) := by
  induction n generalizing i idx s with
  | zero => rfl
  | succ n ih =>
    have hpage : mapPage ram alloc body first i s = .ok (body dir frame i idx s) := by
      simp only [mapPage, hdir, hidx, ensureTable_of_present hpres, hframe]
    rw [eachPage, hpage, walk]
    simp only
    rcases Nat.eq_zero_or_pos n with rfl | hpos
    · rfl
    · obtain ⟨hdir', hidx'⟩ := next_page hdir hidx (by omega)
      exact ih (by rw [hbody]; exact hpres) (by rw [hbody]; exact hframe) hdir' hidx' (by omega)

/-- **The other two functions are the flat loop.** -/
theorem mapLoop_eq (hbody : ∀ dir frame i idx s, (body dir frame i idx s).pageDir = s.pageDir)
    (fuel : Nat) {poff pcnt size : Nat} (hfuel : size ≤ fuel)
    (hpcnt : pcnt = min (ptrsPerPage - poff) size) (hpoff : poff < ptrsPerPage)
    (hpage : first + i = dir * ptrsPerPage + poff) :
    eachPage (mapPage ram alloc body first) size i s =
      mapLoop ram alloc body fuel s dir poff pcnt size i := by
  induction fuel generalizing i dir poff pcnt size s with
  | zero =>
    obtain rfl : size = 0 := by omega
    rfl
  | succ fuel ih =>
    rw [mapLoop]
    by_cases hsize : size = 0
    · rw [if_pos hsize, hsize]
      rfl
    · rw [if_neg hsize]
      have hdir : (first + i) / ptrsPerPage = dir := by
        unfold ptrsPerPage at *
        omega
      have hidx : (first + i) % ptrsPerPage = poff := by
        unfold ptrsPerPage at *
        omega
      have hsplit : size = pcnt + (size - pcnt) := by omega
      conv_lhs => rw [hsplit]
      rw [eachPage_add]
      obtain ⟨n, hn⟩ : ∃ n, pcnt = n + 1 := ⟨pcnt - 1, by omega⟩
      cases hens : ensureTable ram alloc dir s with
      | error s' =>
        rw [hn, eachPage]
        simp only [mapPage, hdir, hens]
      | ok s' =>
        have hpres := ensureTable_present hens
        -- once the table is there, the first page finds it
        have hfirst : eachPage (mapPage ram alloc body first) pcnt i s =
            eachPage (mapPage ram alloc body first) pcnt i s' := by
          rw [hn, eachPage, eachPage]
          simp only [mapPage, hdir, hens, ensureTable_of_present hpres]
        rw [hfirst, eachPage_map_present hbody pcnt hpres rfl hdir hidx (by omega)]
        simp only
        by_cases hlast : size - pcnt = 0
        · rw [hlast]
          cases fuel with
          | zero => rfl
          | succ fuel => rw [mapLoop, if_pos rfl]; rfl
        · apply ih
          · omega
          · rw [Nat.sub_zero, Nat.min_comm]
          · decide
          · unfold ptrsPerPage at *
            omega

theorem start_page (start : Nat) : start / pageSize + 0 =
    start / (pageSize * ptrsPerPage) * ptrsPerPage + start / pageSize % ptrsPerPage := by
  rw [← Nat.div_div_eq_div_mul, Nat.add_zero, Nat.div_add_mod']

theorem mapRange_eq (hbody : ∀ dir frame i idx s, (body dir frame i idx s).pageDir = s.pageDir)
    (s : Vm) (start size : Nat) :
    mapRange ram alloc body s start size =
      eachPage (mapPage ram alloc body (start / pageSize)) (pages size) 0 s :=
  (mapLoop_eq hbody (pages size) le_rfl rfl (Nat.mod_lt _ (by decide)) (start_page start)).symm

end Flat

end LinuxEvocation.Mm.Paging
