import LinuxEvocation.Errno
import LinuxEvocation.Mm.Page

/-!
# Unmapping a range of addresses: `sys_munmap` and `unmap_page_range`

`sys_munmap` takes the vm areas inside the requested range off the task's list and
hands the range to `unmap_page_range`, which walks the page directory by words from
the entry of the first page on, as many pages as it was told, with no bound of its
own.  All arithmetic on addresses is 32-bit.

* `Memory` — the page directory and page tables of a task, its vm areas, and what the two
  functions give back (`Effect`).  `AddressSpace` carries what the kernel relies on.
* `clearEntries`, `unmapLoop`, `unmapPageRange`, `sysMunmap` — the code.
* `sysMunmap_inside_iff` — a call stays inside its request exactly when `addr + len`
  does not wrap, or nothing is unmapped at all.
-/

namespace LinuxEvocation.Mm

/-! ## The data -/

/-- The range of a `struct vm_area_struct`. -/
structure VmArea where
  vmStart : Nat
  vmEnd : Nat
  deriving DecidableEq

/-- What the two functions do beside writing page tables. -/
inductive Effect where
  /-- The entry `idx` of the page table of directory entry `dir` held `page` and was
  cleared. -/
  | clearPte (dir idx page : Nat)
  /-- `free_page(PAGE_MASK & page)`. -/
  | freePage (addr : Nat)
  /-- `swap_free(page)`. -/
  | swapFree (entry : Nat)
  /-- `*dir = 0; free_page(PAGE_MASK & page_dir)`. -/
  | freeTable (dir addr : Nat)
  /-- The area was taken off the list, closed and freed. -/
  | close (area : VmArea)
  deriving DecidableEq

/-- The memory management of a task. -/
structure Memory where
  /-- The words from `current->tss.cr3` on.  The first 1024 are the page directory; the
  walk does not stop there. -/
  pageDir : Nat → Nat
  /-- The page tables, by the page they are in. -/
  pageTable : Nat → Nat → Nat
  rss : Int
  mmap : List VmArea
  /-- What has been done, oldest first. -/
  log : List Effect

/-- What holds of every task between system calls: a directory entry is empty or points
to a page table, and the kernel is mapped at `TASK_SIZE`. -/
structure AddressSpace extends Memory where
  dir_present : ∀ d < 1024, pageDir d = 0 ∨ present (pageDir d) = true
  kernel_present : present (pageDir 768) = true
  log_nil : log = []

def longMax : Nat := 0x7fffffff

/-! ## The code -/

variable (reserved : Nat → Bool)

/-- The body of the inner loop of `unmap_page_range`: clear the entry `idx` of the table in
page `frame`.  `reserved` is `mem_map[..] & MAP_PAGE_RESERVED`. -/
def clearEntry (dir frame idx : Nat) (s : Memory) : Memory :=
  let page := s.pageTable frame idx
  if page ≠ 0 then
    { s with
      pageTable := fun f i => if f = frame ∧ i = idx then 0 else s.pageTable f i
      rss := if present page ∧ ¬ reserved (page / pageSize) then s.rss - 1 else s.rss
      log := s.log ++ [Effect.clearPte dir idx page,
        if present page then Effect.freePage (page / pageSize * pageSize)
        else Effect.swapFree page] }
  else s

/-- The inner loop: `pc` entries from `idx` on. -/
def clearEntries (dir frame : Nat) : Nat → Nat → Memory → Memory
  | 0, _, s => s
  | pc + 1, idx, s => clearEntries dir frame pc (idx + 1) (clearEntry reserved dir frame idx s)

/-- One round of the outer loop of `unmap_page_range`: the memory it leaves and the new
`poff`. -/
def unmapRound (s : Memory) (dir poff pcnt : Nat) : Memory × Nat :=
  let pageDir := s.pageDir dir
  if pageDir = 0 then (s, 0)
  -- "bad page directory": on to the next entry with `poff` as it is
  else if ¬ present pageDir then (s, poff)
  else
    let s := clearEntries reserved dir (pageDir / pageSize) pcnt poff s
    if pcnt = ptrsPerPage then
      ({ s with
         pageDir := fun d => if d = dir then 0 else s.pageDir d
         log := s.log ++ [Effect.freeTable dir (pageDir / pageSize * pageSize)] }, 0)
    else (s, 0)

/-- The outer loop.  It ends when `size` is used up, which takes at most `size` rounds
(`unmapLoop_fuel`). -/
def unmapLoop : Nat → Memory → Nat → Nat → Nat → Nat → Memory
  | 0, s, _, _, _, _ => s
  | fuel + 1, s, dir, poff, pcnt, size =>
    if size = 0 then s
    else
      let r := unmapRound reserved s dir poff pcnt
      unmapLoop fuel r.1 (dir + 1) r.2 (min (size - pcnt) ptrsPerPage) (size - pcnt)

/-- `size = (size + ~PAGE_MASK) >> PAGE_SHIFT`. -/
def pageCount (size : UInt32) : Nat := (size.toNat + (pageSize - 1)) % 2 ^ 32 / pageSize

/-- `unmap_page_range`. -/
def unmapPageRange (s : Memory) (start size : UInt32) : Int × Memory :=
  if start.toNat % pageSize ≠ 0 then (-Errno.einval, s)
  else
    let poff := start.toNat / pageSize % ptrsPerPage
    let count := pageCount size
    (0, unmapLoop reserved count s (start.toNat / (pageSize * ptrsPerPage)) poff
      (min (ptrsPerPage - poff) count) count)

/-- The argument check of `sys_munmap`. -/
def munmapAccepts (addr len : UInt32) : Prop :=
  addr.toNat % pageSize = 0 ∧ addr.toNat ≤ longMax ∧ addr.toNat ≠ 0 ∧
    (addr + len).toNat ≤ taskSize

instance (addr len : UInt32) : Decidable (munmapAccepts addr len) :=
  inferInstanceAs (Decidable (_ ∧ _))

/-- The area contains `addr` or the end of the range without being contained in it. -/
def straddles (addr len : UInt32) (a : VmArea) : Bool :=
  (addr.toNat > a.vmStart && addr.toNat < a.vmEnd) ||
    ((addr + len).toNat > a.vmStart && (addr + len).toNat < a.vmEnd)

/-- "Check if this memory area is ok - put it on the temporary list if so": the areas kept
and those put on the temporary list `free`, or the list with the areas put back. -/
def munmapScan (addr len : UInt32) :
    List VmArea → List VmArea → List VmArea → Except (List VmArea) (List VmArea × List VmArea)
  | kept, free, [] => .ok (kept, free)
  | kept, free, a :: rest =>
    if straddles addr len a then .error (free.reverse ++ (kept ++ a :: rest))
    else if addr.toNat ≤ a.vmStart ∧ (addr + len).toNat ≥ a.vmEnd then
      munmapScan addr len kept (a :: free) rest
    else munmapScan addr len (kept ++ [a]) free rest

/-- `sys_munmap`. -/
def sysMunmap (s : Memory) (addr len : UInt32) : Int × Memory :=
  if ¬ munmapAccepts addr len then (-Errno.einval, s)
  else
    match munmapScan addr len [] [] s.mmap with
    | .error mmap => (-Errno.einval, { s with mmap := mmap })
    | .ok (kept, free) =>
      let s := { s with mmap := kept, log := s.log ++ free.map Effect.close }
      (0, (unmapPageRange reserved s addr len).2)

/-! ## What is touched -/

/-- What an effect concerns lies in the addresses from `lo` up to `hi`. -/
def Effect.Inside (lo hi : Nat) : Effect → Prop
  | .clearPte dir idx _ =>
    lo ≤ (dir * ptrsPerPage + idx) * pageSize ∧ (dir * ptrsPerPage + idx + 1) * pageSize ≤ hi
  | .freeTable dir _ =>
    lo ≤ dir * ptrsPerPage * pageSize ∧ (dir + 1) * ptrsPerPage * pageSize ≤ hi
  | .close a => lo ≤ a.vmStart ∧ a.vmEnd ≤ hi
  | .freePage _ => True
  | .swapFree _ => True

theorem Effect.Inside.mono {lo hi lo' hi' : Nat} {e : Effect} (h : e.Inside lo hi)
    (hlo : lo' ≤ lo) (hhi : hi ≤ hi') : e.Inside lo' hi' := by
  cases e with
  | clearPte | freeTable | close => exact ⟨le_trans hlo h.1, le_trans h.2 hhi⟩
  | freePage | swapFree => trivial

theorem clearEntry_frame (dir frame idx : Nat) (s : Memory) :
    (clearEntry reserved dir frame idx s).pageDir = s.pageDir ∧
      (clearEntry reserved dir frame idx s).mmap = s.mmap := by
  unfold clearEntry
  simp only
  split <;> exact ⟨rfl, rfl⟩

theorem clearEntry_log (dir frame idx : Nat) (s : Memory) :
    ∀ e ∈ (clearEntry reserved dir frame idx s).log, e ∈ s.log ∨
      e.Inside ((dir * ptrsPerPage + idx) * pageSize)
        ((dir * ptrsPerPage + idx + 1) * pageSize) := by
  intro e he
  unfold clearEntry at he
  simp only at he
  split at he
  · simp only [List.mem_append, List.mem_cons, List.not_mem_nil, or_false] at he
    rcases he with he | rfl | rfl
    · exact .inl he
    · exact .inr ⟨le_rfl, le_rfl⟩
    · right
      split <;> trivial
  · exact .inl he

theorem clearEntries_frame (dir frame pc idx : Nat) (s : Memory) :
    (clearEntries reserved dir frame pc idx s).pageDir = s.pageDir ∧
      (clearEntries reserved dir frame pc idx s).mmap = s.mmap := by
  induction pc generalizing idx s with
  | zero => exact ⟨rfl, rfl⟩
  | succ pc ih =>
    obtain ⟨h1, h2⟩ := ih (idx + 1) (clearEntry reserved dir frame idx s)
    obtain ⟨h3, h4⟩ := clearEntry_frame reserved dir frame idx s
    exact ⟨h1.trans h3, h2.trans h4⟩

/-- The inner loop clears entries of its own stretch of the table only. -/
theorem clearEntries_log (dir frame pc idx : Nat) (s : Memory) :
    ∀ e ∈ (clearEntries reserved dir frame pc idx s).log, e ∈ s.log ∨
      e.Inside ((dir * ptrsPerPage + idx) * pageSize)
        ((dir * ptrsPerPage + idx + pc) * pageSize) := by
  induction pc generalizing idx s with
  | zero => exact fun e he => .inl he
  | succ pc ih =>
    intro e he
    rcases ih (idx + 1) (clearEntry reserved dir frame idx s) e he with he | he
    · refine (clearEntry_log reserved dir frame idx s e he).imp_right fun h => h.mono le_rfl ?_
      unfold pageSize
      omega
    · right
      refine he.mono ?_ ?_ <;> unfold pageSize <;> omega

theorem unmapLoop_succ (fuel : Nat) (s : Memory) (dir poff pcnt size : Nat) :
    unmapLoop reserved (fuel + 1) s dir poff pcnt size =
      if size = 0 then s
      else unmapLoop reserved fuel (unmapRound reserved s dir poff pcnt).1 (dir + 1)
        (unmapRound reserved s dir poff pcnt).2 (min (size - pcnt) ptrsPerPage)
        (size - pcnt) := rfl

theorem unmapLoop_zero_size (fuel : Nat) (s : Memory) (dir poff pcnt : Nat) :
    unmapLoop reserved fuel s dir poff pcnt 0 = s := by
  cases fuel <;> rfl

/-- The entry the walk starts at is one it can treat, or it starts at the first page of
the table. -/
def StartOk (s : Memory) (dir poff : Nat) : Prop :=
  poff = 0 ∨ s.pageDir dir = 0 ∨ present (s.pageDir dir) = true

variable {s : Memory} {dir poff : Nat}

theorem unmapRound_poff (h : StartOk s dir poff) (pcnt : Nat) :
    (unmapRound reserved s dir poff pcnt).2 = 0 := by
  unfold unmapRound
  simp only
  by_cases h0 : s.pageDir dir = 0
  · simp [h0]
  · rw [if_neg h0]
    by_cases hp : present (s.pageDir dir) = true
    · simp only [hp, not_true_eq_false, if_false]
      split_ifs <;> rfl
    · rw [if_pos hp]
      rcases h with h | h | h
      · exact h
      · exact absurd h h0
      · exact absurd h hp

theorem unmapRound_mmap (s : Memory) (dir poff pcnt : Nat) :
    (unmapRound reserved s dir poff pcnt).1.mmap = s.mmap := by
  unfold unmapRound
  simp only
  split_ifs
  · rfl
  · exact (clearEntries_frame reserved _ _ _ _ _).2
  · exact (clearEntries_frame reserved _ _ _ _ _).2
  · rfl

/-- A round clears the directory entry if it points to a table and the whole table is in
the range. -/
theorem unmapRound_pageDir (s : Memory) (dir poff pcnt d : Nat) :
    (unmapRound reserved s dir poff pcnt).1.pageDir d =
      if d = dir ∧ pcnt = ptrsPerPage ∧ present (s.pageDir dir) = true then 0
      else s.pageDir d := by
  have hzero : present 0 = false := rfl
  unfold unmapRound
  simp only [(clearEntries_frame reserved _ _ _ _ _).1]
  by_cases h0 : s.pageDir dir = 0
  · simp [h0, hzero]
  · rw [if_neg h0]
    by_cases hp : present (s.pageDir dir) = true
    · simp only [hp, not_true_eq_false, if_false, and_true]
      by_cases hc : pcnt = ptrsPerPage
      · simp only [hc, if_true, and_true]
      · simp only [hc, if_false, and_false]
        rw [(clearEntries_frame reserved _ _ _ _ _).1]
    · simp [hp]

variable {pcnt size : Nat}

/-- A round touches its own stretch of addresses only. -/
theorem unmapRound_log (s : Memory) (dir : Nat)
    (hpcnt : pcnt = min (ptrsPerPage - poff) size) (hpoff : poff < ptrsPerPage) :
    ∀ e ∈ (unmapRound reserved s dir poff pcnt).1.log, e ∈ s.log ∨
      e.Inside ((dir * ptrsPerPage + poff) * pageSize)
        ((dir * ptrsPerPage + poff + size) * pageSize) := by
  have hclear : ∀ e ∈ (clearEntries reserved dir (s.pageDir dir / pageSize) pcnt poff s).log,
      e ∈ s.log ∨ e.Inside ((dir * ptrsPerPage + poff) * pageSize)
        ((dir * ptrsPerPage + poff + size) * pageSize) := by
    intro e he
    refine (clearEntries_log reserved _ _ _ _ _ e he).imp_right fun h => h.mono le_rfl ?_
    unfold pageSize
    omega
  intro e he
  unfold unmapRound at he
  simp only at he
  split_ifs at he with h0 hp hc
  · exact .inl he
  · simp only [List.mem_append, List.mem_singleton] at he
    rcases he with he | rfl
    · exact hclear e he
    · right
      unfold ptrsPerPage at *
      refine ⟨?_, ?_⟩ <;> unfold pageSize ptrsPerPage <;> omega
  · exact hclear e he
  · exact .inl he

/-- The variables of the outer loop at the start of a round. -/
structure Walk (s : Memory) (dir poff pcnt size : Nat) : Prop where
  poff_lt : poff < ptrsPerPage
  pcnt_eq : pcnt = min (ptrsPerPage - poff) size
  start : StartOk s dir poff

/-- The variables at the start of the next round. -/
theorem Walk.next {s : Memory} {dir poff pcnt size : Nat} (h : Walk s dir poff pcnt size) :
    Walk (unmapRound reserved s dir poff pcnt).1 (dir + 1)
      (unmapRound reserved s dir poff pcnt).2 (min (size - pcnt) ptrsPerPage) (size - pcnt) := by
  rw [unmapRound_poff reserved h.start]
  exact ⟨by decide, by rw [Nat.sub_zero, min_comm], .inl rfl⟩

theorem Walk.pcnt_pos (h : Walk s dir poff pcnt size) (hsize : size ≠ 0) : 0 < pcnt := by
  have h1 := h.poff_lt
  have h2 := h.pcnt_eq
  omega

/-- Once there are `size` rounds, more of them change nothing. -/
theorem unmapLoop_fuel {fuel : Nat}
    (h : Walk s dir poff pcnt size) (hfuel : size ≤ fuel) (more : Nat) :
    unmapLoop reserved (fuel + more) s dir poff pcnt size =
      unmapLoop reserved fuel s dir poff pcnt size := by
  induction fuel generalizing s dir poff pcnt size with
  | zero =>
    have hsize : size = 0 := by omega
    subst hsize
    rw [unmapLoop_zero_size, unmapLoop_zero_size]
  | succ fuel ih =>
    rw [Nat.succ_add, unmapLoop_succ, unmapLoop_succ]
    by_cases hsize : size = 0
    · rw [if_pos hsize, if_pos hsize]
    · rw [if_neg hsize, if_neg hsize]
      have := h.pcnt_pos hsize
      exact ih (h.next reserved) (by omega)

/-- The walk touches its own stretch of addresses only. -/
theorem unmapLoop_log {fuel : Nat} (h : Walk s dir poff pcnt size) :
    ∀ e ∈ (unmapLoop reserved fuel s dir poff pcnt size).log, e ∈ s.log ∨
      e.Inside ((dir * ptrsPerPage + poff) * pageSize)
        ((dir * ptrsPerPage + poff + size) * pageSize) := by
  induction fuel generalizing s dir poff pcnt size with
  | zero => exact fun e he => .inl he
  | succ fuel ih =>
    intro e he
    have hround := unmapRound_log reserved s dir h.pcnt_eq h.poff_lt
    have hnext : Walk _ _ _ _ _ := h.next reserved
    rw [unmapLoop_succ] at he
    split_ifs at he with hsize
    · exact .inl he
    · by_cases hrest : size - pcnt = 0
      · rw [hrest, unmapLoop_zero_size] at he
        exact hround e he
      · rcases ih hnext e he with he | he
        · exact hround e he
        · -- the table was used up, so the next one starts where the stretch goes on
          right
          have h1 := h.pcnt_eq
          have h2 := h.poff_lt
          rw [unmapRound_poff reserved h.start] at he
          unfold ptrsPerPage at *
          refine he.mono ?_ ?_ <;> unfold pageSize <;> omega

/-- **What the walk does to the page directory.**  It clears exactly the entries that point
to a table all of whose addresses are in the stretch. -/
theorem unmapLoop_pageDir {fuel : Nat}
    (h : Walk s dir poff pcnt size) (hfuel : size ≤ fuel) (d : Nat) :
    (unmapLoop reserved fuel s dir poff pcnt size).pageDir d =
      if dir * ptrsPerPage + poff ≤ d * ptrsPerPage ∧
          (d + 1) * ptrsPerPage ≤ dir * ptrsPerPage + poff + size ∧
          present (s.pageDir d) = true then 0
      else s.pageDir d := by
  induction fuel generalizing s dir poff pcnt size with
  | zero =>
    have hsize : size = 0 := by omega
    subst hsize
    rw [unmapLoop_zero_size, if_neg]
    unfold ptrsPerPage
    omega
  | succ fuel ih =>
    have h1 := h.pcnt_eq
    have h2 := h.poff_lt
    rw [unmapLoop_succ]
    by_cases hsize : size = 0
    · rw [if_pos hsize, if_neg]
      unfold ptrsPerPage
      omega
    · rw [if_neg hsize]
      have hpos := h.pcnt_pos hsize
      rw [ih (h.next reserved) (by omega), unmapRound_poff reserved h.start,
        unmapRound_pageDir reserved]
      unfold ptrsPerPage at *
      by_cases hd : d = dir
      · -- the entry of this round
        subst hd
        have hlow : ¬ ((d + 1) * 1024 + 0 ≤ d * 1024) := by omega
        rw [if_neg fun hc => hlow hc.1]
        by_cases hp : present (s.pageDir d) = true
        · refine if_congr ?_ rfl rfl
          simp only [hp, and_true, true_and]
          omega
        · rw [if_neg (by simp [hp]), if_neg (by simp [hp])]
      · -- the entries of the other rounds
        have hkeep : ¬ (d = dir ∧ pcnt = 1024 ∧ present (s.pageDir dir) = true) :=
          fun hc => hd hc.1
        rw [if_neg hkeep]
        have hrange : ((dir + 1) * 1024 + 0 ≤ d * 1024 ∧
            (d + 1) * 1024 ≤ (dir + 1) * 1024 + 0 + (size - pcnt)) ↔
            (dir * 1024 + poff ≤ d * 1024 ∧ (d + 1) * 1024 ≤ dir * 1024 + poff + size) := by
          omega
        refine if_congr ?_ rfl rfl
        rw [← and_assoc, hrange, and_assoc]

/-! ## `sys_munmap` -/

/-- The end of the request, rounded up to a page, as an unbounded number. -/
def requestEnd (addr len : UInt32) : Nat :=
  (addr.toNat + len.toNat + (pageSize - 1)) / pageSize * pageSize

/-- A call stays inside its request: what it clears, frees and removes lies in the range
rounded up to a page, and the directory entries from `TASK_SIZE` on are as they were. -/
structure StaysInside (s s' : Memory) (addr len : UInt32) : Prop where
  effects : ∀ e ∈ s'.log, e.Inside addr.toNat (requestEnd addr len)
  kernel : ∀ d, 768 ≤ d → s'.pageDir d = s.pageDir d

variable {addr len : UInt32}

/-- The areas put on the temporary list are inside the range, whose end may have
wrapped. -/
theorem munmapScan_free {l kept free kept' free' : List VmArea}
    (h : munmapScan addr len kept free l = .ok (kept', free')) :
    (∀ a ∈ free', a ∈ free ∨ addr.toNat ≤ a.vmStart ∧ a.vmEnd ≤ (addr + len).toNat) ∧
      ∀ a ∈ l, straddles addr len a = false := by
  induction l generalizing kept free with
  | nil =>
    rw [munmapScan] at h
    cases h
    exact ⟨fun a ha => .inl ha, by simp⟩
  | cons a l ih =>
    rw [munmapScan] at h
    split_ifs at h with hs hin
    · obtain ⟨h1, h2⟩ := ih h
      refine ⟨fun b hb => ?_, ?_⟩
      · rcases h1 b hb with hb | hb
        · rcases List.mem_cons.1 hb with rfl | hb
          · exact .inr hin
          · exact .inl hb
        · exact .inr hb
      · intro b hb
        rcases List.mem_cons.1 hb with rfl | hb
        · simpa using hs
        · exact h2 b hb
    · obtain ⟨h1, h2⟩ := ih h
      refine ⟨h1, ?_⟩
      intro b hb
      rcases List.mem_cons.1 hb with rfl | hb
      · simpa using hs
      · exact h2 b hb

theorem munmapScan_error {l kept free m : List VmArea}
    (h : munmapScan addr len kept free l = .error m) : ∃ a ∈ l, straddles addr len a = true := by
  induction l generalizing kept free with
  | nil => cases h
  | cons a l ih =>
    rw [munmapScan] at h
    split_ifs at h with hs hin
    · exact ⟨a, by simp, hs⟩
    · obtain ⟨b, hb, hbs⟩ := ih h
      exact ⟨b, by simp [hb], hbs⟩
    · obtain ⟨b, hb, hbs⟩ := ih h
      exact ⟨b, by simp [hb], hbs⟩

theorem AddressSpace.walk (s : AddressSpace) {m : Memory} (hm : m.pageDir = s.pageDir)
    (addr : UInt32) (count : Nat) :
    Walk m (addr.toNat / (pageSize * ptrsPerPage)) (addr.toNat / pageSize % ptrsPerPage)
      (min (ptrsPerPage - addr.toNat / pageSize % ptrsPerPage) count) count := by
  have hlt := addr.toNat_lt
  refine ⟨Nat.mod_lt _ (by decide), rfl, .inr ?_⟩
  rw [hm]
  exact s.dir_present _ (by unfold pageSize ptrsPerPage; omega)

/-- The first page of the walk is the first page of the request. -/
theorem walk_start (h : addr.toNat % pageSize = 0) :
    (addr.toNat / (pageSize * ptrsPerPage) * ptrsPerPage + addr.toNat / pageSize % ptrsPerPage) *
      pageSize = addr.toNat := by
  unfold pageSize ptrsPerPage at *
  omega

/-- The memory after the areas in the range have been taken off the list. -/
def Memory.closed (s : Memory) (kept free : List VmArea) : Memory :=
  { s with mmap := kept, log := s.log ++ free.map Effect.close }

/-- What `sys_munmap` does with arguments it accepts. -/
theorem sysMunmap_cases (s : Memory) (h : munmapAccepts addr len) :
    (∃ a ∈ s.mmap, straddles addr len a = true) ∧
        (∃ m, sysMunmap reserved s addr len = (-Errno.einval, { s with mmap := m })) ∨
      (∀ a ∈ s.mmap, straddles addr len a = false) ∧
        ∃ kept free, (∀ a ∈ free, addr.toNat ≤ a.vmStart ∧ a.vmEnd ≤ (addr + len).toNat) ∧
          sysMunmap reserved s addr len = (0, unmapLoop reserved (pageCount len)
            (s.closed kept free) (addr.toNat / (pageSize * ptrsPerPage))
            (addr.toNat / pageSize % ptrsPerPage)
            (min (ptrsPerPage - addr.toNat / pageSize % ptrsPerPage) (pageCount len))
            (pageCount len)) := by
  unfold sysMunmap
  rw [if_neg (not_not.2 h)]
  cases hscan : munmapScan addr len [] [] s.mmap with
  | error m => exact .inl ⟨munmapScan_error hscan, m, rfl⟩
  | ok p =>
    obtain ⟨kept, free⟩ := p
    obtain ⟨h1, h2⟩ := munmapScan_free hscan
    refine .inr ⟨h2, kept, free, fun a ha => (h1 a ha).resolve_left (by simp), ?_⟩
    simp only [unmapPageRange, h.1, ne_eq, not_true_eq_false, if_false]
    rfl

theorem toNat_add_le (addr len : UInt32) : (addr + len).toNat ≤ addr.toNat + len.toNat := by
  rw [UInt32.toNat_add]
  exact Nat.mod_le _ _

/-- When the sum wraps and the page count does not, the walk reaches the kernel's first
directory entry and clears it. -/
theorem sysMunmap_clears_kernel (s : AddressSpace)
    (h : munmapAccepts addr len) (hwrap : 2 ^ 32 ≤ addr.toNat + len.toNat)
    (hcount : len.toNat ≤ 0xfffff000) (hstr : ∀ a ∈ s.mmap, straddles addr len a = false) :
    (sysMunmap reserved s.toMemory addr len).2.pageDir 768 = 0 := by
  obtain ⟨halign, hlong, -, -⟩ := id h
  rcases sysMunmap_cases reserved s.toMemory h with ⟨⟨a, ha, hs⟩, -⟩ | ⟨-, kept, free, -, heq⟩
  · rw [hstr a ha] at hs
    cases hs
  · have hwalk := s.walk (m := s.closed kept free) rfl addr (pageCount len)
    have hpages : pageCount len * pageSize ≥ len.toNat := by
      unfold pageCount pageSize
      omega
    rw [heq, unmapLoop_pageDir reserved hwalk le_rfl, if_pos]
    refine ⟨?_, ?_, s.kernel_present⟩
    · unfold longMax pageSize ptrsPerPage at *
      omega
    · unfold pageSize ptrsPerPage at *
      omega

/-- **A call stays inside its request** exactly when the sum `addr + len` does not wrap,
or the page count does (and is 0), or an area straddles a bound of the range (and the
call returns an error). -/
theorem sysMunmap_inside_iff (s : AddressSpace) (h : munmapAccepts addr len) :
    StaysInside s.toMemory (sysMunmap reserved s.toMemory addr len).2 addr len ↔
      addr.toNat + len.toNat < 2 ^ 32 ∨ 0xfffff000 < len.toNat ∨
        ∃ a ∈ s.mmap, straddles addr len a = true := by
  obtain ⟨halign, hlong, hne, htask⟩ := id h
  have hstart := walk_start halign
  have hlen := len.toNat_lt
  have hend : (addr + len).toNat ≤ requestEnd addr len := by
    refine le_trans (toNat_add_le addr len) ?_
    unfold requestEnd pageSize
    omega
  rcases sysMunmap_cases reserved s.toMemory h with ⟨hstr, m, heq⟩ | ⟨hstr, kept, free, hfree, heq⟩
  · rw [heq]
    refine ⟨fun _ => .inr (.inr hstr), fun _ => ⟨fun e he => ?_, fun d _ => rfl⟩⟩
    simp only [s.log_nil] at he
    cases he
  · have hwalk := s.walk (m := s.closed kept free) rfl addr (pageCount len)
    have hclosed : ∀ e ∈ (s.closed kept free).log, e.Inside addr.toNat (requestEnd addr len) := by
      intro e he
      simp only [Memory.closed, s.log_nil, List.nil_append] at he
      obtain ⟨a, ha, rfl⟩ := List.mem_map.1 he
      exact ⟨(hfree a ha).1, le_trans (hfree a ha).2 hend⟩
    constructor
    · intro hin
      by_contra hcond
      push Not at hcond
      obtain ⟨hwrap, hcount, -⟩ := hcond
      have hkernel := hin.kernel 768 le_rfl
      rw [sysMunmap_clears_kernel reserved s h hwrap hcount hstr] at hkernel
      have hp := s.kernel_present
      rw [← hkernel] at hp
      cases hp
    · intro hcond
      rw [heq]
      have hbound : addr.toNat + pageCount len * pageSize ≤ requestEnd addr len := by
        unfold requestEnd pageCount pageSize at *
        omega
      have htop : pageCount len * pageSize + addr.toNat ≤ taskSize := by
        rcases hcond with hcond | hcond | ⟨a, ha, hs⟩
        · have hsum : (addr + len).toNat = addr.toNat + len.toNat := by
            rw [UInt32.toNat_add]
            exact Nat.mod_eq_of_lt hcond
          rw [hsum] at htask
          unfold pageCount taskSize pageSize at *
          omega
        · unfold pageCount taskSize longMax pageSize at *
          omega
        · rw [hstr a ha] at hs
          cases hs
      refine ⟨fun e he => ?_, fun d hd => ?_⟩
      · rcases unmapLoop_log reserved hwalk e he with he | he
        · exact hclosed e he
        · refine he.mono hstart.ge ?_
          rw [Nat.add_mul, hstart]
          exact hbound
      · rw [unmapLoop_pageDir reserved hwalk le_rfl, if_neg]
        · rfl
        · unfold taskSize pageSize ptrsPerPage at *
          omega

/-- A task with an area of two pages, and a page behind it. -/
def twoPages : AddressSpace where
  pageDir d := if d = 768 then 0x1003 else if d = 0 then 0x2007 else 0
  pageTable _ i := if i = 0 ∨ 3 < i then 0 else 0x5007
  rss := 3
  mmap := [⟨0x1000, 0x3000⟩]
  log := []
  dir_present d _ := by
    by_cases hd : d = 768
    · subst hd
      right
      rfl
    · by_cases h0 : d = 0
      · subst h0
        right
        rfl
      · left
        simp only [if_neg hd, if_neg h0]
  kernel_present := rfl
  log_nil := rfl

/-- The two pages are unmapped, and nothing else. -/
theorem sysMunmap_inside_two_pages :
    let m := (sysMunmap (fun _ => false) twoPages.toMemory 0x1000 0x2000).2
    StaysInside twoPages.toMemory m 0x1000 0x2000 ∧
      m.pageTable 2 2 = 0 ∧ m.pageTable 2 3 = 0x5007 :=
  ⟨(sysMunmap_inside_iff (fun _ => false) twoPages (by decide)).2 (.inl (by decide)),
    by decide +kernel, by decide +kernel⟩

/-- **The sum may wrap.**  The length passes the check because `addr + len` is 0, and the
kernel's directory entry is cleared. -/
theorem sysMunmap_leaves_request :
    ¬ ∀ addr len : UInt32, munmapAccepts addr len → StaysInside twoPages.toMemory
      (sysMunmap (fun _ => false) twoPages.toMemory addr len).2 addr len := by
  intro hall
  have hacc : munmapAccepts 0x1000 0xfffff000 := by decide
  have hkernel := (hall 0x1000 0xfffff000 hacc).kernel 768 le_rfl
  rw [sysMunmap_clears_kernel _ twoPages hacc (by decide) (by decide)
    (fun a ha => by rw [List.mem_singleton.1 ha]; decide)] at hkernel
  cases hkernel

end LinuxEvocation.Mm
