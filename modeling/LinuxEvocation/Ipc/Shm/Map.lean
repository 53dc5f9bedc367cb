import LinuxEvocation.Ipc.Shm.Basic
import LinuxEvocation.Mm.Paging.Books
import LinuxEvocation.Mm.Paging.Exact

/-!
# `shm_map` on the page tables

`shm_map` goes over the range of an attach twice.  The first loop refuses a range that is in use;
with `SHM_REMAP` it drops what the entries name instead, but leaves them as they are.  Where there
is no page table it allocates one, and gives up if it cannot.  The second loop writes the entries.

* `release`, `checkRange`, `mapRange`, `shmMap` — the code.
* `checkPage`, `checkRange_flat` — the first loop, page by page.
* `Decays` — what any number of pages of the first loop does.
* `failed_shm_map_iff` — when a call that fails leaves everything with its owner.
-/

namespace LinuxEvocation.Ipc.Shm.PageTables

open LinuxEvocation.Mm LinuxEvocation.Mm.Paging

/-! ## The code -/

section Code

variable (ram : Nat) (alloc : Allocator ram)

/-- What the entry names is given back. -/
def release (pte : Nat) (s : Vm) : Vm :=
  if present pte then
    { s with rss := s.rss - 1, memMap := freePage ram (pageMask pte) s.memMap }
  else { s with swap := swapFree pte s.swap }

/-- The first loop of `shm_map`, from the page `tmp` on: an error, or none. -/
def checkRange (remap : Bool) (last : Nat) : Nat → Nat → Vm → Vm × Option Int
  | 0, _, s => (s, none)
  | fuel + 1, tmp, s =>
    if tmp < last then
      let dir := tmp / ptrsPerPage
      if present (s.pageDir dir) then
        let pte := s.pageTable (mapNr (s.pageDir dir)) (tmp % ptrsPerPage)
        if pte ≠ 0 then
          if ¬ remap then (s, some (-Errno.einval))
          else checkRange remap last fuel (tmp + 1) (release ram pte s)
        else checkRange remap last fuel (tmp + 1) s
      else
        match ensureTable ram alloc dir s with
        | .error s => (s, some (-Errno.enomem))
        | .ok s => checkRange remap last fuel ((dir + 1) * ptrsPerPage) s
    else (s, none)

/-- The second loop: `n` pages from `tmp` on. -/
def mapRange : Nat → Nat → Nat → Vm → Vm
  | 0, _, _, s => s
  | n + 1, tmp, shmSgn, s =>
    mapRange n (tmp + 1) (shmSgn + 2 ^ shmIdxShift)
      (setPte (s.frame tmp) (tmp % ptrsPerPage) shmSgn s)

/-- `shm_map(shmd, remap)`.  The range starts and ends at a page. -/
def shmMap (d : ShmDesc) (remap : Bool) (s : Vm) : Vm × Option Int :=
  let first := d.start / pageSize
  let last := d.stop / pageSize
  match checkRange ram alloc remap last (last - first) first s with
  | (s, some err) => (s, some err)
  | (s, none) => (mapRange (last - first) first d.shmSgn s, none)

/-! ## Page by page -/

/-- The page `i` of a range that starts with the page `first`. -/
def checkPage (remap : Bool) (first i : Nat) (s : Vm) : Except Vm Vm :=
  let dir := (first + i) / ptrsPerPage
  if present (s.pageDir dir) then
    let pte := s.pageTable (mapNr (s.pageDir dir)) ((first + i) % ptrsPerPage)
    if pte ≠ 0 then if ¬ remap then .error s else .ok (release ram pte s) else .ok s
  else ensureTable ram alloc dir s

/-- The page table of the page `i` is there or is allocated. -/
def tablePage (first i : Nat) (s : Vm) : Except Vm Vm :=
  ensureTable ram alloc ((first + i) / ptrsPerPage) s

end Code

section Flat

variable {ram : Nat} {alloc : Allocator ram} {remap : Bool} {first last : Nat} {s s' : Vm}

/-- The result of the loop as that of a flat loop. -/
def flatResult : Vm × Option Int → Except Vm Vm
  | (s, none) => .ok s
  | (s, some _) => .error s

theorem checkRange_done (fuel : Nat) {tmp : Nat} (h : last ≤ tmp) :
    checkRange ram alloc remap last fuel tmp s = (s, none) := by
  cases fuel with
  | zero => rfl
  | succ fuel => rw [checkRange, if_neg (not_lt.2 h)]

theorem eachPage_empty {dir : Nat} (hpres : present (s.pageDir dir) = true)
    (hempty : ∀ j, s.pageTable (mapNr (s.pageDir dir)) j = 0) (n i : Nat)
    (hdir : ∀ k < n, (first + (i + k)) / ptrsPerPage = dir) :
    eachPage (checkPage ram alloc remap first) n i s = .ok s := by
  induction n generalizing i with
  | zero => rfl
  | succ n ih =>
    have hpage : checkPage ram alloc remap first i s = .ok s := by
      have hd := hdir 0 (Nat.succ_pos n)
      rw [Nat.add_zero] at hd
      simp only [checkPage, hd, if_pos hpres, hempty, ne_eq, not_true_eq_false, if_false]
    rw [eachPage, hpage]
    apply ih
    intro k hk
    rw [Nat.add_assoc i 1 k, Nat.add_comm 1 k]
    exact hdir (k + 1) (by omega)

/-- A table that has just been allocated is empty. -/
theorem ensureTable_empty {dir : Nat} (habs : ¬ present (s.pageDir dir) = true)
    (h : ensureTable ram alloc dir s = .ok s') :
    ∀ j, s'.pageTable (mapNr (s'.pageDir dir)) j = 0 := by
  unfold ensureTable at h
  rw [if_neg habs] at h
  split at h
  · cases h
  · rename_i nr hget
    cases h
    intro j
    have hword : mapNr (nr * pageSize + pageTableBits) = nr := by
      unfold mapNr pageSize pageTableBits
      omega
    simp only [Function.update_self, hword]

/-- **The first loop** is a flat loop. -/
theorem checkRange_flat (fuel : Nat) {tmp i : Nat} (hfuel : last - tmp ≤ fuel)
    (htmp : first + i = tmp) :
    eachPage (checkPage ram alloc remap first) (last - tmp) i s =
      flatResult (checkRange ram alloc remap last fuel tmp s) := by
  induction fuel generalizing tmp i s with
  | zero =>
    have h0 : last - tmp = 0 := by omega
    rw [h0]
    rfl
  | succ fuel ih =>
    rw [checkRange]
    by_cases hlt : tmp < last
    · rw [if_pos hlt]
      obtain ⟨n, hn⟩ : ∃ n, last - tmp = n + 1 := ⟨last - tmp - 1, by omega⟩
      have hn' : last - (tmp + 1) = n := by omega
      have hnext := fun t : Vm => @ih t (tmp + 1) (i + 1) (by omega) (by omega)
      rw [hn'] at hnext
      rw [hn, eachPage, checkPage]
      simp only [htmp]
      split_ifs
      · exact hnext _
      · rfl
      · exact hnext _
      · rename_i habs
        cases hens : ensureTable ram alloc (tmp / ptrsPerPage) s with
        | error s' => rfl
        | ok s' =>
          have hpres := ensureTable_present hens
          have hempty := ensureTable_empty habs hens
          -- the other pages of the table have empty entries
          obtain ⟨k, hk⟩ : ∃ k, k = min ((tmp / ptrsPerPage + 1) * ptrsPerPage) last - (tmp + 1) :=
            ⟨_, rfl⟩
          have hkn : n = k + (n - k) := by omega
          simp only
          rw [hkn, eachPage_add, eachPage_empty hpres hempty k (i + 1) (by
            intro j hj
            unfold ptrsPerPage at *
            omega)]
          simp only
          by_cases hinside : (tmp / ptrsPerPage + 1) * ptrsPerPage ≤ last
          · have hrest : n - k = last - (tmp / ptrsPerPage + 1) * ptrsPerPage := by
              unfold ptrsPerPage at *
              omega
            rw [hrest]
            apply ih
            · unfold ptrsPerPage at *
              omega
            · unfold ptrsPerPage at *
              omega
          · have hrest : n - k = 0 := by
              unfold ptrsPerPage at *
              omega
            rw [hrest, checkRange_done fuel (by omega)]
            rfl
    · rw [if_neg hlt]
      have h0 : last - tmp = 0 := by omega
      rw [h0]
      rfl

end Flat

/-! ## What the first loop does -/

/-- The entry holds a reference that the first loop drops: to a page, or to a page of a swap area in
use. -/
def Held (s : Vm) (word : Nat) : Prop := present word = true ∨ s.swap.Names word

/-- The page tables of the first `i` pages are there or can be allocated. -/
def Gets {ram : Nat} (alloc : Allocator ram) (first : Nat) (s : Vm) (i : Nat) : Prop :=
  ∃ t, eachPage (tablePage ram alloc first) i 0 s = .ok t

/-- **What any number of pages of the first loop does**: the entries stay as they are, and nothing
is counted up. -/
structure Decays (ram : Nat) (s s' : Vm) : Prop where
  wf : WellFormed ram s'
  pte : ∀ p < userPages, s'.pte p = s.pte p
  rss : s'.rss ≤ s.rss
  reserved : ∀ nr, s'.reserved nr = s.reserved nr
  count : ∀ type offset, s'.swap.count type offset ≤ s.swap.count type offset
  length : s'.swap.info.length = s.swap.info.length

section Loop

variable {ram : Nat} {alloc : Allocator ram} {others : Others} {remap : Bool} {first : Nat}
  {s s' s'' : Vm}

theorem Decays.refl (hs : WellFormed ram s) : Decays ram s s :=
  ⟨hs, fun _ _ => rfl, le_rfl, fun _ => rfl, fun _ _ => le_rfl, rfl⟩

theorem Decays.trans (h : Decays ram s s') (h' : Decays ram s' s'') : Decays ram s s'' :=
  ⟨h'.wf, fun p hp => (h'.pte p hp).trans (h.pte p hp), h'.rss.trans h.rss,
    fun nr => (h'.reserved nr).trans (h.reserved nr),
    fun type offset => (h'.count type offset).trans (h.count type offset),
    h'.length.trans h.length⟩

theorem release_decays (hs : WellFormed ram s) (pte : Nat) : Decays ram s (release ram pte s) := by
  unfold release
  split_ifs
  · refine ⟨⟨hs.table, hs.distinct⟩, fun _ _ => rfl, ?_, fun nr => ?_, fun _ _ => le_rfl, rfl⟩
    · exact sub_le_self s.rss zero_le_one
    · exact decide_eq_decide.2 (freePage_reserved _ _ _)
  · exact ⟨⟨hs.table, hs.distinct⟩, fun _ _ => rfl, le_rfl, fun _ => rfl,
      fun _ _ => swapFree_count_le _ _, swapFree_length⟩

theorem release_of_not_held {pte : Nat} (h : ¬ Held s pte) : release ram pte s = s := by
  have h1 : ¬ present pte = true := fun hp => h (.inl hp)
  have h2 : ¬ s.swap.Names pte := fun hn => h (.inr hn)
  unfold release
  rw [if_neg h1, swapFree_of_not_names h2]

theorem ensureTable_swap {dir : Nat} (h : ensureTable ram alloc dir s = .ok s') :
    s'.swap = s.swap := by
  unfold ensureTable at h
  split at h
  · cases h
    rfl
  · split at h
    · cases h
    · cases h
      rfl

theorem ensureTable_error {dir : Nat} (h : ensureTable ram alloc dir s = .error s') : s' = s := by
  unfold ensureTable at h
  split at h
  · cases h
  · split at h
    · cases h
      rfl
    · cases h

theorem ensureTable_decays {dir : Nat} (hs : WellFormed ram s) (hdir : dir < userDirs) :
    Decays ram s (outcome (ensureTable ram alloc dir s)) := by
  cases hens : ensureTable ram alloc dir s with
  | error t =>
    obtain rfl := ensureTable_error hens
    exact .refl hs
  | ok t =>
    have hensured := hs.ensureTable hdir hens
    have hswap := ensureTable_swap hens
    refine ⟨hensured.wf, hensured.pte, hensured.rss.le, hensured.reserved, fun _ _ => ?_, ?_⟩
    · exact le_of_eq (by rw [show (outcome (.ok t) : Vm).swap = s.swap from hswap])
    · rw [show (outcome (.ok t) : Vm).swap = s.swap from hswap]

theorem checkPage_decays (hs : WellFormed ram s) {i : Nat} (hp : first + i < userPages) :
    Decays ram s (outcome (checkPage ram alloc remap first i s)) := by
  unfold checkPage
  simp only
  split_ifs
  · exact release_decays hs _
  · exact .refl hs
  · exact .refl hs
  · exact ensureTable_decays hs (dir_lt hp)

theorem eachPage_decays (hs : WellFormed ram s) (n i : Nat) (hp : first + i + n ≤ userPages) :
    Decays ram s (outcome (eachPage (checkPage ram alloc remap first) n i s)) := by
  induction n generalizing i s with
  | zero => exact .refl hs
  | succ n ih =>
    have hfirst := @checkPage_decays ram alloc remap first s hs i (by omega)
    rw [eachPage]
    cases hpage : checkPage ram alloc remap first i s with
    | error t =>
      rw [hpage] at hfirst
      exact hfirst
    | ok t =>
      rw [hpage] at hfirst
      exact hfirst.trans (ih hfirst.wf (i + 1) (by omega))

/-! ### Nothing is dropped -/

/-- The page tables of the first `n` pages are allocated. -/
theorem tables_allocated (hs : WellFormed ram s) (n : Nat) (hp : first + n ≤ userPages) :
    (Books ram others s →
        Books ram others (outcome (eachPage (tablePage ram alloc first) n 0 s))) ∧
      ∀ t, eachPage (tablePage ram alloc first) n 0 s = .ok t →
        Decays ram s t ∧ t.swap = s.swap ∧ t.rss = s.rss := by
  induction n with
  | zero =>
    refine ⟨fun h => h, fun t ht => ?_⟩
    cases ht
    exact ⟨.refl hs, rfl, rfl⟩
  | succ n ih =>
    obtain ⟨hbooks, hok⟩ := ih (by omega)
    rw [eachPage_last]
    cases hn : eachPage (tablePage ram alloc first) n 0 s with
    | error t =>
      rw [hn] at hbooks
      exact ⟨hbooks, nofun⟩
    | ok t =>
      rw [hn] at hbooks
      obtain ⟨hdecays, hswap, hrss⟩ := hok t hn
      have hdir : (first + n) / ptrsPerPage < userDirs := dir_lt (by omega)
      simp only
      cases hlast : tablePage ram alloc first n t with
      | error u =>
        obtain rfl := ensureTable_error hlast
        exact ⟨hbooks, nofun⟩
      | ok u =>
        refine ⟨fun h => (hbooks h).ensureTable hdecays.wf hdir hlast, fun v hv => ?_⟩
        cases hv
        have hstep := @ensureTable_decays ram alloc t _ hdecays.wf hdir
        rw [show ensureTable ram alloc ((first + n) / ptrsPerPage) t = .ok u from hlast] at hstep
        exact ⟨hdecays.trans hstep, (ensureTable_swap hlast).trans hswap,
          (hdecays.wf.ensureTable hdir hlast).rss.trans hrss⟩

theorem checkPage_of_not_held {i : Nat} (h : ¬ Held s (s.pte (first + i))) :
    checkPage ram alloc true first i s = tablePage ram alloc first i s := by
  unfold checkPage tablePage
  simp only
  by_cases htable : present (s.pageDir ((first + i) / ptrsPerPage)) = true
  · have hpte : s.pageTable (mapNr (s.pageDir ((first + i) / ptrsPerPage)))
        ((first + i) % ptrsPerPage) = s.pte (first + i) := (pte_of_hasTable htable).symm
    rw [if_pos htable, ensureTable_of_present htable, hpte, release_of_not_held h]
    simp
  · rw [if_neg htable]

theorem checkPage_of_held {i : Nat} {t : Vm} (hpte : t.pte (first + i) = s.pte (first + i))
    (h : Held s (s.pte (first + i))) :
    checkPage ram alloc true first i t = .ok (release ram (s.pte (first + i)) t) := by
  have hne : s.pte (first + i) ≠ 0 := by
    intro h0
    rw [h0] at h
    rcases h with hpres | hnames
    · cases hpres
    · exact hnames.1 rfl
  have htable : present (t.pageDir ((first + i) / ptrsPerPage)) = true := by
    by_contra habs
    rw [← hpte] at hne
    exact hne (if_neg habs)
  have hentry : t.pageTable (mapNr (t.pageDir ((first + i) / ptrsPerPage)))
      ((first + i) % ptrsPerPage) = s.pte (first + i) := (pte_of_hasTable htable).symm.trans hpte
  unfold checkPage
  simp only [htable, if_true, hentry, if_pos hne, not_true_eq_false, if_false]

/-- As long as no entry holds anything, page tables are allocated and that is all. -/
theorem eachPage_of_not_held (hs : WellFormed ram s) (n : Nat) (hp : first + n ≤ userPages)
    (h : ∀ k < n, Gets alloc first s k → ¬ Held s (s.pte (first + k))) :
    eachPage (checkPage ram alloc true first) n 0 s =
      eachPage (tablePage ram alloc first) n 0 s := by
  induction n with
  | zero => rfl
  | succ n ih =>
    rw [eachPage_last, eachPage_last, ih (by omega) fun k hk => h k (by omega)]
    cases hn : eachPage (tablePage ram alloc first) n 0 s with
    | error t => rfl
    | ok t =>
      obtain ⟨hdecays, hswap, -⟩ := (@tables_allocated ram alloc ⟨fun _ => 0, fun _ _ => 0⟩ first s
        hs n (by omega)).2 t hn
      apply checkPage_of_not_held
      unfold Held
      rw [hdecays.pte _ (by omega), hswap]
      exact h n (Nat.lt_succ_self n) ⟨t, hn⟩

/-- Without `SHM_REMAP` nothing is dropped. -/
theorem books_of_not_remap (hs : WellFormed ram s) (hbooks : Books ram others s) (n : Nat)
    (hp : first + n ≤ userPages) :
    Books ram others (outcome (eachPage (checkPage ram alloc false first) n 0 s)) := by
  induction n with
  | zero => exact hbooks
  | succ n ih =>
    have hbefore := ih (by omega)
    have hdecays := @eachPage_decays ram alloc false first s hs n 0 (by omega)
    rw [eachPage_last]
    cases hn : eachPage (checkPage ram alloc false first) n 0 s with
    | error t =>
      rw [hn] at hbefore
      exact hbefore
    | ok t =>
      rw [hn] at hbefore hdecays
      have hdir : (first + n) / ptrsPerPage < userDirs := dir_lt (by omega)
      simp only [checkPage, Bool.false_eq_true, not_false_eq_true, if_true]
      split_ifs
      · exact hbefore
      · exact hbefore
      · cases hens : ensureTable ram alloc ((first + n) / ptrsPerPage) t with
        | error u =>
          obtain rfl := ensureTable_error hens
          exact hbefore
        | ok u => exact Books.ensureTable hbefore hdecays.wf hdir hens

/-! ### Something is dropped -/

/-- What an entry holds is dropped, but the entry stays. -/
theorem not_books_of_held (hbooks : Books ram others s) {p : Nat} (hp : p < userPages)
    (hheld : Held s (s.pte p)) {t : Vm} (htpte : ∀ q < userPages, t.pte q = s.pte q)
    (hswap : t.swap = s.swap) (hrss : t.rss = s.rss) (hres : ∀ nr, t.reserved nr = s.reserved nr)
    (h : Decays ram (release ram (s.pte p) t) s') : ¬ Books ram others s' := by
  intro hbooks'
  have hpte : ∀ q < userPages, s'.pte q = s.pte q := by
    intro q hq
    rw [h.pte q hq, ← htpte q hq]
    unfold release
    split_ifs <;> rfl
  by_cases hpres : present (s.pte p) = true
  · -- `rss` is one less, and the same pages are resident
    have hresident : s'.resident ram = s.resident ram := by
      apply resident_congr hpte
      intro nr
      rw [h.reserved, ← hres]
      unfold release
      rw [if_pos hpres]
      exact decide_eq_decide.2 (freePage_reserved _ _ _)
    have hle : s'.rss ≤ t.rss - 1 := by
      have := h.rss
      unfold release at this
      rw [if_pos hpres] at this
      exact this
    have h1 := hbooks.rss
    have h2 := hbooks'.rss
    rw [hresident] at h2
    omega
  · -- the slot has one reference less, and the same entries name it
    have hnames := hheld.resolve_left hpres
    have hne := hnames.1
    obtain ⟨q, hq, -, -⟩ := hnames.2.2
    have hlt : swpType (s.pte p) < s.swap.info.length := (List.getElem?_eq_some_iff.1 hq).1
    have hrelease : (release ram (s.pte p) t).swap = swapFree (s.pte p) s.swap := by
      unfold release
      rw [if_neg hpres, hswap]
    have hlength : s'.swap.info.length = s.swap.info.length := by
      rw [h.length, hrelease, swapFree_length]
    have hbefore := hbooks.slots _ hlt (swpOffset (s.pte p))
    have hafter := hbooks'.slots _ (hlength.symm ▸ hlt) (swpOffset (s.pte p))
    rw [slotRefs_congr hpte] at hafter
    have hle := h.count (swpType (s.pte p)) (swpOffset (s.pte p))
    rw [hrelease, swapFree_count hnames, if_pos ⟨rfl, rfl⟩] at hle
    have hpos : 0 < s.slotRefs (swpType (s.pte p)) (swpOffset (s.pte p)) := by
      apply Finset.card_pos.2
      refine ⟨p, Finset.mem_filter.2 ⟨Finset.mem_range.2 hp, hne, by simpa using hpres, rfl, rfl⟩⟩
    omega

end Loop

/-! ## A call that fails -/

section Fails

variable {ram : Nat} {alloc : Allocator ram} {others : Others} {remap : Bool} {d : ShmDesc} {s : Vm}

/-- A call that fails has failed in the first loop. -/
theorem shmMap_error (herr : (shmMap ram alloc d remap s).2 ≠ none) :
    eachPage (checkPage ram alloc remap (d.start / pageSize))
      (d.stop / pageSize - d.start / pageSize) 0 s = .error (shmMap ram alloc d remap s).1 := by
  have hflat := @checkRange_flat ram alloc remap (d.start / pageSize) (d.stop / pageSize) s
    (d.stop / pageSize - d.start / pageSize) (d.start / pageSize) 0 le_rfl rfl
  rw [hflat]
  unfold shmMap at herr ⊢
  simp only at herr ⊢
  generalize checkRange ram alloc remap (d.stop / pageSize)
    (d.stop / pageSize - d.start / pageSize) (d.start / pageSize) s = r at herr ⊢
  obtain ⟨t, _ | err⟩ := r
  · exact absurd rfl herr
  · rfl

/-- **A call of `shm_map` that fails** leaves the counts in agreement with the references, and
without `SHM_REMAP` the entries as they were, if and only if with `SHM_REMAP` it does not come to
an entry that holds something. -/
theorem failed_shm_map_iff (hs : WellFormed ram s) (hbooks : Books ram others s)
    (hend : d.stop ≤ taskSize) (herr : (shmMap ram alloc d remap s).2 ≠ none) :
    (Books ram others (shmMap ram alloc d remap s).1 ∧
        (remap = false → ∀ p < userPages, (shmMap ram alloc d remap s).1.pte p = s.pte p)) ↔
      (remap = true → ∀ i < d.stop / pageSize - d.start / pageSize,
        Gets alloc (d.start / pageSize) s i → ¬ Held s (s.pte (d.start / pageSize + i))) := by
  have hflat := shmMap_error herr
  have hpages : d.start / pageSize + (d.stop / pageSize - d.start / pageSize) ≤ userPages := by
    rcases Nat.lt_or_ge d.start d.stop with hlt | hge
    · unfold userPages userDirs taskSize pageSize ptrsPerPage at *
      omega
    · have h0 : d.stop / pageSize - d.start / pageSize = 0 :=
        Nat.sub_eq_zero_of_le (Nat.div_le_div_right hge)
      rw [h0] at hflat
      cases hflat
  generalize (shmMap ram alloc d remap s).1 = s' at hflat ⊢
  generalize d.stop / pageSize - d.start / pageSize = n at hflat hpages ⊢
  generalize d.start / pageSize = first at hflat hpages ⊢
  cases remap with
  | false =>
    have hdecays := @eachPage_decays ram alloc false first s hs n 0 (by omega)
    have hafter := @books_of_not_remap ram alloc others first s hs hbooks n hpages
    rw [hflat] at hdecays hafter
    exact ⟨fun _ h => absurd h (by decide), fun _ => ⟨hafter, fun _ => hdecays.pte⟩⟩
  | true =>
    constructor
    · rintro ⟨hafter, -⟩ - i
      -- the pages before hold nothing, so that the first one that does is dropped
      induction i using Nat.strong_induction_on with
      | _ i ih =>
        intro hi hgets hheld
        have heq := @eachPage_of_not_held ram alloc first s hs i (by omega) fun k hk hk' =>
          ih k hk (by omega) hk'
        obtain ⟨t, ht⟩ := hgets
        obtain ⟨hdecays, hswap, hrss⟩ :=
          (@tables_allocated ram alloc others first s hs i (by omega)).2 t ht
        have hpage := @checkPage_of_held ram alloc first s i t (hdecays.pte _ (by omega)) hheld
        have hsplit : n = (i + 1) + (n - (i + 1)) := by omega
        rw [hsplit, eachPage_add, eachPage_last, heq, ht] at hflat
        simp only [hpage] at hflat
        have hrest := @eachPage_decays ram alloc true first (release ram (s.pte (first + i)) t)
          (release_decays hdecays.wf _).wf (n - (i + 1)) (0 + (i + 1)) (by omega)
        rw [hflat] at hrest
        exact not_books_of_held hbooks (by omega) hheld hdecays.pte hswap hrss hdecays.reserved
          hrest hafter
    · intro hnone
      have heq := @eachPage_of_not_held ram alloc first s hs n hpages (hnone rfl)
      have hafter := (@tables_allocated ram alloc others first s hs n hpages).1 hbooks
      rw [← heq, hflat] at hafter
      exact ⟨hafter, fun h => absurd h (by decide)⟩

end Fails

/-! ## Two page tables -/

/-- A range of two page tables, of which the task with one entry has the first. -/
def twoTables : ShmDesc := ⟨0, 0, false, 0x40000000, 0x40800000, 0⟩

/-- Everybody else has the other pages. -/
def oneEntryOthers : Others := ⟨fun nr => if nr = 5 ∨ nr = 6 then 0 else 1, fun _ _ => 0⟩

theorem oneEntry_pte (word p : Nat) :
    (oneEntry word).pte p = if p = 0x40000 then word else 0 := by
  have hiff : p = 0x40000 ↔ p / ptrsPerPage = 256 ∧ p % ptrsPerPage = 0 := by
    unfold ptrsPerPage
    omega
  unfold Vm.pte
  by_cases hdir : p / ptrsPerPage = 256
  · have hpde : (oneEntry word).pageDir 256 = 0x5027 := rfl
    have hword : ∀ j, (oneEntry word).pageTable (mapNr 0x5027) j = if j = 0 then word else 0 := by
      intro j
      simp [oneEntry, mapNr, pageSize]
    rw [hdir, hpde, if_pos (by decide), hword]
    simp only [hiff, hdir, true_and]
  · have hpde : (oneEntry word).pageDir (p / ptrsPerPage) = 0 := if_neg hdir
    rw [hpde, if_neg (by decide), if_neg fun h => hdir (hiff.1 h).1]

theorem card_filter_one {n a : Nat} {q : Nat → Prop} [DecidablePred q] {c : Prop} [Decidable c]
    (ha : a < n) (h : ∀ p, q p ↔ p = a ∧ c) :
    ((Finset.range n).filter q).card = if c then 1 else 0 := by
  split_ifs with hc
  · rw [Finset.card_eq_one]
    refine ⟨a, Finset.ext fun p => ?_⟩
    simp only [Finset.mem_filter, Finset.mem_range, Finset.mem_singleton, h, hc, and_true]
    constructor
    · exact fun hp => hp.2
    · rintro rfl
      exact ⟨ha, rfl⟩
  · rw [Finset.card_eq_zero, Finset.filter_eq_empty_iff]
    intro p _ hp
    exact hc ((h p).1 hp).2

theorem oneEntry_books : Books 16 oneEntryOthers (oneEntry 0x6027) := by
  have hpage : (0x40000 : Nat) < userPages := by decide
  have hpde : ∀ d, (oneEntry 0x6027).pageDir d = if d = 256 then 0x5027 else 0 := fun _ => rfl
  refine ⟨fun nr hnr hres => ?_, fun type htype => absurd htype (Nat.not_lt_zero type), ?_⟩
  · have hne : nr ≠ 0 := by
      rintro rfl
      exact absurd hres (by decide)
    have hpages : ∀ p, (present ((oneEntry 0x6027).pte p) = true ∧
        mapNr ((oneEntry 0x6027).pte p) = nr) ↔ p = 0x40000 ∧ nr = 6 := by
      intro p
      rw [oneEntry_pte]
      split_ifs with hp
      · simp [hp, present, mapNr, pageSize, eq_comm]
      · simp [hp, present]
    have hdirs : ∀ d, ((oneEntry 0x6027).pageDir d ≠ 0 ∧
        mapNr ((oneEntry 0x6027).pageDir d) = nr) ↔ d = 256 ∧ nr = 5 := by
      intro d
      rw [hpde]
      split_ifs with hd
      · simp [hd, mapNr, pageSize, eq_comm]
      · simp [hd]
    have hmem : (oneEntry 0x6027).memMap nr = 1 := by
      simp [oneEntry, hne, hnr]
    unfold Vm.refs
    rw [hmem, card_filter_one hpage hpages, card_filter_one (by decide) hdirs]
    simp only [oneEntryOthers]
    split_ifs <;> omega
  · have hcounted : ∀ p, (oneEntry 0x6027).counted 16 ((oneEntry 0x6027).pte p) = true ↔
        p = 0x40000 ∧ True := by
      intro p
      rw [oneEntry_pte, and_true]
      split_ifs with hp
      · exact iff_of_true rfl hp
      · exact iff_of_false (by decide) hp
    unfold Vm.resident
    rw [card_filter_one hpage hcounted]
    rfl

/-- The range is in use, and `SHM_REMAP` is not given. -/
theorem failed_shm_map_iff_in_use :
    Books 16 oneEntryOthers (shmMap 16 (noPages 16) twoTables false (oneEntry 0x6027)).1 ∧
      ∀ p < userPages, (shmMap 16 (noPages 16) twoTables false (oneEntry 0x6027)).1.pte p =
        (oneEntry 0x6027).pte p := by
  have herr : (shmMap 16 (noPages 16) twoTables false (oneEntry 0x6027)).2 ≠ none := by
    decide +kernel
  have hiff := failed_shm_map_iff (oneEntry_wellFormed 0x6027) oneEntry_books (by decide) herr
  obtain ⟨h1, h2⟩ := hiff.2 fun h => absurd h (by decide)
  exact ⟨h1, h2 rfl⟩

/-- With `SHM_REMAP` there is no memory for the second page table. -/
theorem failed_shm_map_drops_page :
    Books 16 oneEntryOthers (oneEntry 0x6027) ∧
      (shmMap 16 (noPages 16) twoTables true (oneEntry 0x6027)).2 = some (-Errno.enomem) ∧
      ¬ Books 16 oneEntryOthers (shmMap 16 (noPages 16) twoTables true (oneEntry 0x6027)).1 := by
  refine ⟨oneEntry_books, by decide +kernel, fun h => ?_⟩
  have hrss : (shmMap 16 (noPages 16) twoTables true (oneEntry 0x6027)).1.rss = 0 := by
    decide +kernel
  have hcounted : (shmMap 16 (noPages 16) twoTables true (oneEntry 0x6027)).1.counted 16
      ((shmMap 16 (noPages 16) twoTables true (oneEntry 0x6027)).1.pte 0x40000) = true := by
    decide +kernel
  have hpos : 0 < (shmMap 16 (noPages 16) twoTables true (oneEntry 0x6027)).1.resident 16 :=
    Finset.card_pos.2 ⟨0x40000, Finset.mem_filter.2 ⟨Finset.mem_range.2 (by decide), hcounted⟩⟩
  have := h.rss
  rw [hrss] at this
  omega

end LinuxEvocation.Ipc.Shm.PageTables
