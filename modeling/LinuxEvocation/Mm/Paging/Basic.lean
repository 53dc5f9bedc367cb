import LinuxEvocation.Mm.PageAlloc.Basic
import LinuxEvocation.Mm.Swap
import LinuxEvocation.Mm.Unmap

/-!
# Page tables, `mem_map` and the pages they name

The functions of `mm/memory.c` read and write the page tables of a task together with what the
tasks share: the counts of the pages of memory in `mem_map`, and the swap areas.  A present entry
names a page of memory, or a page of a device at or above `high_memory`, for which `mem_map` has
no count.

* `Vm` — the page tables of a task with the counts; `Vm.pte` is the entry for a page.
* `freePage`, `clearPte`, `setPte`, `freeTable`, `ensureTable` — the parts that the functions are
  made of.
* `Allocator` — the answers of `get_free_page`.
* `WellFormed` — what holds between the calls; the parts keep it.
-/

namespace LinuxEvocation.Mm.Paging

open PageAlloc (mapPageReserved)

/-! ## The data -/

/-- The directory entries below `TASK_SIZE`. -/
def userDirs : Nat := 768

/-- The pages below `TASK_SIZE`. -/
def userPages : Nat := userDirs * ptrsPerPage

/-- `PAGE_TABLE`. -/
def pageTableBits : Nat := 0x27

/-- The page tables of a task, with `mem_map` by the number of the page and the swap areas.
`looked` are the numbers that `mem_map` has been indexed with by way of an entry. -/
structure Vm extends Memory where
  memMap : Nat → Nat
  swap : Swap
  looked : List Nat

/-- `mem_map[nr] & MAP_PAGE_RESERVED`. -/
def Vm.reserved (s : Vm) (nr : Nat) : Bool := mapPageReserved ≤ s.memMap nr

/-- The page table entry for the page `p`, 0 if there is no page table. -/
def Vm.pte (s : Vm) (p : Nat) : Nat :=
  if present (s.pageDir (p / ptrsPerPage)) then
    s.pageTable (mapNr (s.pageDir (p / ptrsPerPage))) (p % ptrsPerPage)
  else 0

/-- `high_memory` is the end of the last of `ram` pages. -/
def highMemory (ram : Nat) : Nat := ram * pageSize

/-! ## The parts of the code -/

section Code

variable (ram : Nat)

/-- `free_page(addr)`, as far as `mem_map` goes. -/
def freePage (addr : Nat) (memMap : Nat → Nat) : Nat → Nat :=
  if addr < highMemory ram ∧ memMap (mapNr addr) ≠ 0 ∧ memMap (mapNr addr) < mapPageReserved then
    Function.update memMap (mapNr addr) (memMap (mapNr addr) - 1)
  else memMap

/-- What the loops do with an entry before they write it: it is cleared, and the page or the swap
slot is given back. -/
def clearPte (dir frame idx : Nat) (s : Vm) : Vm :=
  let page := s.pageTable frame idx
  { toMemory := clearEntry s.reserved dir frame idx s.toMemory
    memMap := if present page then freePage ram (pageMask page) s.memMap else s.memMap
    swap := if present page then s.swap else swapFree page s.swap
    looked := if present page then s.looked ++ [mapNr page] else s.looked }

/-- `*page_table = word`. -/
def setPte (frame idx word : Nat) (s : Vm) : Vm :=
  { s with
    pageTable := fun f i => if f = frame ∧ i = idx then word else s.pageTable f i }

/-- `*dir = 0; free_page(PAGE_MASK & page_dir)`. -/
def freeTable (dir : Nat) (s : Vm) : Vm :=
  { s with
    pageDir := fun d => if d = dir then 0 else s.pageDir d
    log := s.log ++ [Effect.freeTable dir (pageMask (s.pageDir dir))]
    memMap := freePage ram (pageMask (s.pageDir dir)) s.memMap }

/-- The directory entry is one that the code makes: a page table in memory. -/
def IsTable (word : Nat) : Prop := word % pageSize = pageTableBits ∧ mapNr word < ram

/-- The answers of `get_free_page` for a page table.  It hands out a page that nobody uses. -/
structure Allocator where
  get : Nat → Vm → Option Nat
  free : ∀ dir s nr, get dir s = some nr → s.memMap nr = 0
  lt : ∀ dir s nr, get dir s = some nr → nr < ram
  not_table : ∀ dir s nr, get dir s = some nr →
    ∀ d < userDirs, s.pageDir d ≠ 0 → mapNr (s.pageDir d) ≠ nr

/-- The directory entry, when the page table is allocated if it is missing. -/
def ensureTable (alloc : Allocator ram) (dir : Nat) (s : Vm) : Except Vm Vm :=
  if present (s.pageDir dir) then .ok s
  else
    match alloc.get dir s with
    | none => .error s
    | some nr =>
      .ok
        { s with
          pageDir := Function.update s.pageDir dir (nr * pageSize + pageTableBits)
          pageTable := Function.update s.pageTable nr fun _ => 0
          memMap := Function.update s.memMap nr 1 }

end Code

/-! ## What holds between the calls -/

/-- Every directory entry below `TASK_SIZE` is empty or points to a page table in memory, and no
two of them to the same. -/
structure WellFormed (ram : Nat) (s : Vm) : Prop where
  table : ∀ d < userDirs, s.pageDir d = 0 ∨ IsTable ram (s.pageDir d)
  distinct : ∀ d < userDirs, ∀ d' < userDirs, s.pageDir d ≠ 0 → s.pageDir d' ≠ 0 →
    mapNr (s.pageDir d) = mapNr (s.pageDir d') → d = d'

theorem IsTable.present {ram word : Nat} (h : IsTable ram word) : present word = true := by
  have h1 := h.1
  unfold pageSize pageTableBits at h1
  simp only [Mm.present, decide_eq_true_eq]
  omega

section Parts

variable {ram : Nat} {s : Vm}

theorem WellFormed.present_iff (h : WellFormed ram s) {d : Nat} (hd : d < userDirs) :
    present (s.pageDir d) = true ↔ s.pageDir d ≠ 0 := by
  constructor
  · intro hp h0
    rw [h0] at hp
    cases hp
  · intro h0
    exact ((h.table d hd).resolve_left h0).present

theorem dir_lt {p : Nat} (hp : p < userPages) : p / ptrsPerPage < userDirs := by
  apply Nat.div_lt_of_lt_mul
  rw [Nat.mul_comm]
  exact hp

/-- Two pages have the same entry only if they are the same page. -/
theorem WellFormed.page_inj (h : WellFormed ram s) {p q : Nat} (hp : p < userPages)
    (hq : q < userPages) (hpd : present (s.pageDir (p / ptrsPerPage)) = true)
    (hqd : present (s.pageDir (q / ptrsPerPage)) = true)
    (hframe : mapNr (s.pageDir (p / ptrsPerPage)) = mapNr (s.pageDir (q / ptrsPerPage)))
    (hidx : p % ptrsPerPage = q % ptrsPerPage) : p = q := by
  have hdir : p / ptrsPerPage = q / ptrsPerPage :=
    h.distinct _ (dir_lt hp) _ (dir_lt hq) ((h.present_iff (dir_lt hp)).1 hpd)
      ((h.present_iff (dir_lt hq)).1 hqd) hframe
  rw [← Nat.div_add_mod p ptrsPerPage, ← Nat.div_add_mod q ptrsPerPage, hdir, hidx]

/-! ### `clearPte` -/

@[simp]
theorem clearPte_pageDir (dir frame idx : Nat) :
    (clearPte ram dir frame idx s).pageDir = s.pageDir :=
  (clearEntry_frame s.reserved dir frame idx s.toMemory).1

theorem clearPte_pageTable (dir frame idx f i : Nat) :
    (clearPte ram dir frame idx s).pageTable f i =
      if f = frame ∧ i = idx then 0 else s.pageTable f i := by
  simp only [clearPte, clearEntry]
  by_cases h0 : s.pageTable frame idx = 0
  · rw [if_neg (not_not.2 h0)]
    by_cases hfi : f = frame ∧ i = idx
    · rw [if_pos hfi, hfi.1, hfi.2, h0]
    · rw [if_neg hfi]
  · rw [if_pos h0]

/-! ### `setPte` -/

@[simp]
theorem setPte_pageDir (frame idx word : Nat) : (setPte frame idx word s).pageDir = s.pageDir :=
  rfl

@[simp]
theorem setPte_memMap (frame idx word : Nat) : (setPte frame idx word s).memMap = s.memMap := rfl

theorem setPte_pageTable (frame idx word f i : Nat) :
    (setPte frame idx word s).pageTable f i =
      if f = frame ∧ i = idx then word else s.pageTable f i := rfl

/-! ### Reserved pages -/

/-- `free_page` takes no page out of the reserved ones and puts none in. -/
theorem freePage_reserved (addr nr : Nat) (memMap : Nat → Nat) :
    mapPageReserved ≤ freePage ram addr memMap nr ↔ mapPageReserved ≤ memMap nr := by
  unfold freePage
  split_ifs with h
  · by_cases hnr : nr = mapNr addr
    · subst hnr
      rw [Function.update_self]
      omega
    · rw [Function.update_of_ne hnr]
  · rfl

@[simp]
theorem clearPte_reserved (dir frame idx nr : Nat) :
    (clearPte ram dir frame idx s).reserved nr = s.reserved nr := by
  simp only [Vm.reserved, clearPte]
  split
  · exact decide_eq_decide.2 (freePage_reserved _ _ _)
  · rfl

@[simp]
theorem freeTable_reserved (dir nr : Nat) : (freeTable ram dir s).reserved nr = s.reserved nr :=
  decide_eq_decide.2 (freePage_reserved _ _ _)

end Parts

end LinuxEvocation.Mm.Paging
