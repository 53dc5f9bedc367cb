import LinuxEvocation.Mm.Paging.Effect

/-!
# Write permission: `do_wp_page`

A write to a page whose entry lacks `PAGE_RW` ends in `do_wp_page`.  A page that is copied on write
has `PAGE_COW` in its entry; other pages without `PAGE_RW` are read-only, but only a program that
has tried the write itself is told so.

* `dowp`, `doWpPage` — `__do_wp_page` and `do_wp_page`.
* `WpTurn`, `doWpPage_turn` — what a call does.
* `Legit` — a call gives nobody more than he has.
-/

namespace LinuxEvocation.Mm.Paging

open Function (update update_eq_self update_of_ne update_self)
open PageAlloc (mapPageReserved)

/-! ## The bits -/

/-- `PAGE_RW`, `PAGE_DIRTY`. -/
def pageRw : Nat := 0x2
def pageDirty : Nat := 0x40

/-- `PAGE_SHARED`. -/
def pageShared : Nat := 0x27

/-- `PAGE_RW` is set. -/
def rw (word : Nat) : Bool := word.testBit 1

/-- `PAGE_COW` is set. -/
def cow (word : Nat) : Bool := word.testBit 9

/-! ## The code -/

/-- What is sent to the task. -/
inductive Signal where
  | segv
  | kill
  deriving DecidableEq

/-- The pages of the kernel that stand in for others: `BAD_PAGE` and `BAD_PAGETABLE`. -/
structure BadPages where
  page : Nat
  table : Nat

section Code

variable (ram : Nat) (alloc : Allocator ram) (bad : BadPages)

/-- `mem_map[nr]` is read. -/
def Vm.look (s : Vm) (nr : Nat) : Vm := { s with looked := s.looked ++ [nr] }

/-- `free_page(addr)`. -/
def Vm.free (s : Vm) (addr : Nat) : Vm := { s with memMap := freePage ram addr s.memMap }

/-- `if (new_page) free_page(new_page)`. -/
def Vm.freeNew (s : Vm) : Option Nat → Vm
  | none => s
  | some nr => s.free ram (nr * pageSize)

/-- `__get_free_page`, for the page `p`. -/
def getNew (p : Nat) (s : Vm) : Option Nat × Vm :=
  match alloc.get p s with
  | none => (none, s)
  | some nr => (some nr, { s with memMap := update s.memMap nr 1 })

/-- `__do_wp_page`, for the page `p`.  The answer of `__get_free_page` comes at once. -/
def dowp (p : Nat) (s : Vm) : Vm × Option Signal :=
  let (newPage, s) := getNew ram alloc p s
  let pde := s.pageDir (p / ptrsPerPage)
  if ¬ present pde then (s.freeNew ram newPage, none)
  else if pde &&& pageTableBits ≠ pageTableBits ∨ pde ≥ highMemory ram then
    ({ s with
       pageDir := update s.pageDir (p / ptrsPerPage) (bad.table ||| pageTableBits) }.freeNew
      ram newPage, some .kill)
  else
    let set (word : Nat) (s : Vm) : Vm := setPte (mapNr pde) (p % ptrsPerPage) word s
    let oldPage := s.pageTable (mapNr pde) (p % ptrsPerPage)
    if ¬ present oldPage then (s.freeNew ram newPage, none)
    -- "do_wp_page: bogus page"
    else if oldPage ≥ highMemory ram then
      ((set (bad.page ||| pageShared) s).freeNew ram newPage, some .kill)
    else if rw oldPage then (s.freeNew ram newPage, none)
    else
      let prot := oldPage % pageSize ||| pageRw
      let s := s.look (mapNr oldPage)
      if s.memMap (mapNr oldPage) ≠ 1 then
        match newPage with
        | some nr =>
          let s := { s with rss := if s.reserved (mapNr oldPage) then s.rss + 1 else s.rss }
          ((set (nr * pageSize ||| prot) s).free ram (pageMask oldPage), none)
        | none => (set (bad.page ||| prot) (s.free ram (pageMask oldPage)), some .kill)
      else ((set (oldPage ||| pageRw) s).freeNew ram newPage, none)

/-- `do_wp_page`, for the page `p`.  `user` is `user_esp && tsk == current`. -/
def doWpPage (user : Bool) (p : Nat) (s : Vm) : Vm × Option Signal :=
  let pde := s.pageDir (p / ptrsPerPage)
  if pde = 0 then (s, none)
  else if present pde ∧ pde < highMemory ram then
    let page := s.pageTable (mapNr pde) (p % ptrsPerPage)
    if ¬ present page then (s, none)
    else if rw page then (s, none)
    else if ¬ cow page ∧ user then (s, some .segv)
    else
      let s := s.look (mapNr page)
      if s.memMap (mapNr page) = 1 then
        (setPte (mapNr pde) (p % ptrsPerPage) (page ||| (pageRw ||| pageDirty)) s, none)
      else dowp ram alloc bad p s
  -- "bad page directory entry"
  else ({ s with pageDir := update s.pageDir (p / ptrsPerPage) 0 }, none)

end Code

/-! ## Words -/

section Words

theorem mapNr_or (a b : Nat) : mapNr (a ||| b) = mapNr a ||| mapNr b := by
  have h : ∀ n : Nat, mapNr n = n >>> 12 := fun n => (Nat.shiftRight_eq_div_pow n 12).symm
  rw [h, h, h, Nat.shiftRight_or_distrib]

theorem mapNr_or_flags {a b : Nat} (hb : b < pageSize) : mapNr (a ||| b) = mapNr a := by
  have h0 : mapNr b = 0 := Nat.div_eq_of_lt hb
  rw [mapNr_or, h0, Nat.or_zero]

theorem rw_or (a b : Nat) : rw (a ||| b) = (rw a || rw b) := Nat.testBit_or a b 1

theorem rw_pageRw : rw pageRw = true := rfl

theorem rw_pageShared : rw pageShared = true := rfl

theorem present_eq_testBit (word : Nat) : present word = word.testBit 0 := by
  rw [Nat.testBit_zero]
  rfl

theorem present_or (a b : Nat) : present (a ||| b) = (present a || present b) := by
  rw [present_eq_testBit, present_eq_testBit, present_eq_testBit, Nat.testBit_or]

theorem lt_highMemory_iff {ram word : Nat} : word < highMemory ram ↔ mapNr word < ram := by
  unfold highMemory mapNr pageSize
  omega

theorem prot_lt (word : Nat) : word % pageSize ||| pageRw < pageSize := by
  apply Nat.or_lt_two_pow (n := 12)
  · exact Nat.mod_lt _ (by decide)
  · decide

theorem and_pageTableBits {ram word : Nat} (h : IsTable ram word) :
    word &&& pageTableBits = pageTableBits := by
  have hsplit : word = word / pageSize * pageSize ||| pageTableBits := by
    rw [page_or (Nat.mul_mod_left _ _) (by decide), ← h.1, Nat.div_add_mod']
  rw [hsplit]
  apply Nat.eq_of_testBit_eq
  intro i
  simp only [Nat.testBit_and, Nat.testBit_or]
  cases pageTableBits.testBit i <;> simp

end Words

/-! ## What a call does -/

/-- What holds between the calls: the pages that are mapped are counted. -/
structure Mapped (ram : Nat) (s : Vm) : Prop extends WellFormed ram s where
  mapped : ∀ p < userPages, present (s.pte p) = true → s.pte p < highMemory ram →
    s.memMap (mapNr (s.pte p)) ≠ 0

/-- `BAD_PAGE` belongs to the kernel. -/
structure BadPages.Ok (bad : BadPages) (s : Vm) : Prop where
  aligned : bad.page % pageSize = 0
  reserved : s.reserved (mapNr bad.page) = true

/-- One entry is changed. -/
structure Updated (p w : Nat) (s s' : Vm) : Prop where
  pageDir : s'.pageDir = s.pageDir
  pte : ∀ q < userPages, s'.pte q = if q = p then w else s.pte q

/-- The call goes past its checks. -/
structure Asks (user : Bool) (word : Nat) : Prop where
  present : present word = true
  not_rw : rw word = false
  allowed : cow word = true ∨ user = false

section Turn

variable {ram : Nat} {alloc : Allocator ram} {bad : BadPages} {user : Bool} {p : Nat} {s s' : Vm}

/-- What a call of `do_wp_page` does. -/
inductive WpTurn (ram : Nat) (alloc : Allocator ram) (bad : BadPages) (user : Bool) (p : Nat)
    (s : Vm) : Vm → Prop
  /-- There is nothing to do, or the program gets a signal. -/
  | same : ¬ Asks user (s.pte p) → WpTurn ram alloc bad user p s s
  /-- The page has one user. -/
  | turnOn {s' : Vm} : Asks user (s.pte p) → s.memMap (mapNr (s.pte p)) = 1 →
      Updated p (s.pte p ||| (pageRw ||| pageDirty)) s s' → s'.memMap = s.memMap →
      WpTurn ram alloc bad user p s s'
  /-- The page is not memory. -/
  | bogus {s' : Vm} : Asks user (s.pte p) → s.memMap (mapNr (s.pte p)) ≠ 1 →
      highMemory ram ≤ s.pte p → Updated p (bad.page ||| pageShared) s s' →
      s'.memMap = s.memMap → WpTurn ram alloc bad user p s s'
  /-- The page is copied. -/
  | copy {s' : Vm} {nr : Nat} : Asks user (s.pte p) → s.memMap (mapNr (s.pte p)) ≠ 1 →
      s.pte p < highMemory ram → s.memMap nr = 0 → nr < ram →
      Updated p (nr * pageSize ||| (s.pte p % pageSize ||| pageRw)) s s' →
      s'.memMap = freePage ram (pageMask (s.pte p)) (update s.memMap nr 1) →
      WpTurn ram alloc bad user p s s'
  /-- There is no memory for a copy. -/
  | outOfMemory {s' : Vm} : Asks user (s.pte p) → s.memMap (mapNr (s.pte p)) ≠ 1 →
      s.pte p < highMemory ram → alloc.get p (s.look (mapNr (s.pte p))) = none →
      Updated p (bad.page ||| (s.pte p % pageSize ||| pageRw)) s s' →
      s'.memMap = freePage ram (pageMask (s.pte p)) s.memMap → WpTurn ram alloc bad user p s s'

theorem WellFormed.updated (hs : WellFormed ram s) (hp : p < userPages) (htable : s.HasTable p)
    {t : Vm} {w : Nat} (hdir : t.pageDir = s.pageDir)
    (hword : t.pageTable = (Paging.setPte (s.frame p) (p % ptrsPerPage) w s).pageTable) :
    Updated p w s t :=
  ⟨hdir, fun _ hq => hs.pte_update hp htable hdir (fun f i => by rw [hword]; rfl) hq⟩

/-- A page that has been allocated and is freed again is as it was. -/
theorem free_update {memMap : Nat → Nat} {nr : Nat} (hzero : memMap nr = 0) (hlt : nr < ram) :
    freePage ram (nr * pageSize) (update memMap nr 1) = memMap := by
  have hcond : nr * pageSize < highMemory ram ∧
      update memMap nr 1 (mapNr (nr * pageSize)) ≠ 0 ∧
      update memMap nr 1 (mapNr (nr * pageSize)) < mapPageReserved := by
    rw [mapNr_mul, update_self]
    refine ⟨?_, by decide, by decide⟩
    rw [lt_highMemory_iff, mapNr_mul]
    exact hlt
  unfold freePage
  rw [if_pos hcond, mapNr_mul, update_self, Function.update_idem]
  simpa [hzero] using update_eq_self nr memMap

theorem setPte_congr {t : Vm} (h : t.pageTable = s.pageTable) (frame idx word : Nat) :
    (setPte frame idx word t).pageTable = (setPte frame idx word s).pageTable := by
  simp only [setPte, h]

theorem Asks.hasTable (hasks : Asks user (s.pte p)) : s.HasTable p := by
  by_contra habs
  have hpres := hasks.present
  rw [show s.pte p = 0 from if_neg habs] at hpres
  cases hpres

/-- The entry of the directory, for a page that has a table. -/
theorem WellFormed.dir_of_hasTable (hs : WellFormed ram s) (hp : p < userPages)
    (htable : s.HasTable p) :
    s.pageDir (p / ptrsPerPage) ≠ 0 ∧ (present (s.pageDir (p / ptrsPerPage)) = true ∧
        s.pageDir (p / ptrsPerPage) < highMemory ram) ∧
      s.pageTable (mapNr (s.pageDir (p / ptrsPerPage))) (p % ptrsPerPage) = s.pte p := by
  have hne := (hs.present_iff (dir_lt hp)).1 htable
  have hdir := (hs.table _ (dir_lt hp)).resolve_left hne
  exact ⟨hne, ⟨htable, lt_highMemory_iff.2 hdir.2⟩, (pte_of_hasTable htable).symm⟩

/-- **`__do_wp_page`**, when the checks in front of it have been passed. -/
theorem dowp_turn (hs : WellFormed ram s) (hp : p < userPages) (hasks : Asks user (s.pte p))
    (hcount : s.memMap (mapNr (s.pte p)) ≠ 1)
    (hmapped : s.pte p < highMemory ram → s.memMap (mapNr (s.pte p)) ≠ 0) :
    WpTurn ram alloc bad user p s (dowp ram alloc bad p (s.look (mapNr (s.pte p)))).1 := by
  have htable := hasks.hasTable
  have hpte : s.pageTable (mapNr (s.pageDir (p / ptrsPerPage))) (p % ptrsPerPage) = s.pte p :=
    (pte_of_hasTable htable).symm
  have hdir := (hs.table _ (dir_lt hp)).resolve_left ((hs.present_iff (dir_lt hp)).1 htable)
  have hbits : ¬ (s.pageDir (p / ptrsPerPage) &&& pageTableBits ≠ pageTableBits ∨
      s.pageDir (p / ptrsPerPage) ≥ highMemory ram) := by
    rintro (h | h)
    · exact h (and_pageTableBits hdir)
    · exact absurd (lt_highMemory_iff.2 hdir.2) (not_lt.2 h)
  have hrw : ¬ rw (s.pte p) = true := by
    rw [hasks.not_rw]
    decide
  have hpde : ∀ t : Vm, t.pageDir = s.pageDir →
      ¬ ¬ present (t.pageDir (p / ptrsPerPage)) = true := by
    intro t ht
    rw [ht]
    exact not_not.2 htable
  unfold dowp
  cases hget : alloc.get p (s.look (mapNr (s.pte p))) with
  | none =>
    simp only [getNew, hget]
    have hlook : (s.look (mapNr (s.pte p))).pageDir = s.pageDir := rfl
    have hlook' : (s.look (mapNr (s.pte p))).pageTable = s.pageTable := rfl
    have hlook'' : (s.look (mapNr (s.pte p))).memMap = s.memMap := rfl
    rw [if_neg (hpde _ hlook)]
    simp only [hlook, hlook', hpte]
    rw [if_neg hbits, if_neg (not_not.2 hasks.present)]
    by_cases hhigh : s.pte p ≥ highMemory ram
    · rw [if_pos hhigh]
      exact .bogus hasks hcount hhigh (hs.updated hp htable rfl rfl) rfl
    · rw [if_neg hhigh, if_neg hrw]
      have hne : ((s.look (mapNr (s.pte p))).look (mapNr (s.pte p))).memMap (mapNr (s.pte p)) ≠ 1 :=
        hcount
      rw [if_pos hne]
      exact .outOfMemory hasks hcount (not_le.1 hhigh) hget (hs.updated hp htable rfl rfl) rfl
  | some nr =>
    have hfree := alloc.free _ _ _ hget
    have hzero : s.memMap nr = 0 := hfree
    have hnr := alloc.lt _ _ _ hget
    obtain ⟨t, hnew, hdir', htab', hmap'⟩ : ∃ t,
        getNew ram alloc p (s.look (mapNr (s.pte p))) = (some nr, t) ∧ t.pageDir = s.pageDir ∧
          t.pageTable = s.pageTable ∧ t.memMap = update s.memMap nr 1 :=
      ⟨{ s.look (mapNr (s.pte p)) with memMap := update s.memMap nr 1 },
        by simp only [getNew, hget]; rfl, rfl, rfl, rfl⟩
    simp only [hnew]
    rw [if_neg (hpde _ hdir')]
    simp only [hdir', htab', hpte]
    rw [if_neg hbits, if_neg (not_not.2 hasks.present)]
    by_cases hhigh : s.pte p ≥ highMemory ram
    · rw [if_pos hhigh]
      refine .bogus hasks hcount hhigh (hs.updated hp htable hdir' ?_) ?_
      · exact setPte_congr htab' _ _ _
      · simp only [Vm.freeNew, Vm.free, setPte_memMap, hmap']
        exact free_update hzero hnr
    · rw [if_neg hhigh, if_neg hrw]
      have hother : mapNr (s.pte p) ≠ nr := by
        rintro rfl
        exact hmapped (not_le.1 hhigh) hzero
      have hne : (t.look (mapNr (s.pte p))).memMap (mapNr (s.pte p)) ≠ 1 := by
        change t.memMap (mapNr (s.pte p)) ≠ 1
        rw [hmap', update_of_ne hother]
        exact hcount
      rw [if_pos hne]
      refine .copy hasks hcount (not_le.1 hhigh) hzero hnr
        (hs.updated hp htable hdir' ?_) ?_
      · exact setPte_congr htab' _ _ _
      · change freePage ram _ t.memMap = _
        rw [hmap']

/-- The checks of `do_wp_page` are those of `Asks`. -/
theorem doWpPage_of_not_asks (hs : WellFormed ram s) (hp : p < userPages)
    (hno : ¬ Asks user (s.pte p)) : (doWpPage ram alloc bad user p s).1 = s := by
  unfold doWpPage
  simp only
  by_cases htable : s.HasTable p
  · obtain ⟨hne, hlow, hpte⟩ := hs.dir_of_hasTable hp htable
    simp only [if_neg hne, if_pos hlow, hpte]
    by_cases hpres : present (s.pte p) = true
    · rw [if_neg (not_not.2 hpres)]
      by_cases hrw : rw (s.pte p) = true
      · rw [if_pos hrw]
      · rw [if_neg hrw, if_pos]
        have hallowed : ¬ (cow (s.pte p) = true ∨ user = false) :=
          fun hor => hno ⟨hpres, by simpa using hrw, hor⟩
        simpa [not_or] using hallowed
    · rw [if_pos hpres]
  · have hzero : s.pageDir (p / ptrsPerPage) = 0 := by
      by_contra hne
      exact htable ((hs.present_iff (dir_lt hp)).2 hne)
    rw [if_pos hzero]

theorem doWpPage_of_asks (hs : WellFormed ram s) (hp : p < userPages)
    (hasks : Asks user (s.pte p)) :
    (doWpPage ram alloc bad user p s).1 =
      if s.memMap (mapNr (s.pte p)) = 1 then
        setPte (s.frame p) (p % ptrsPerPage) (s.pte p ||| (pageRw ||| pageDirty))
          (s.look (mapNr (s.pte p)))
      else (dowp ram alloc bad p (s.look (mapNr (s.pte p)))).1 := by
  have htable := hasks.hasTable
  obtain ⟨hne, hlow, hpte⟩ := hs.dir_of_hasTable hp htable
  have hrw : ¬ rw (s.pte p) = true := by
    rw [hasks.not_rw]
    decide
  have hsig : ¬ (¬ cow (s.pte p) = true ∧ user = true) := by
    rintro ⟨hc, hu⟩
    rcases hasks.allowed with h | h
    · exact hc h
    · rw [h] at hu
      cases hu
  unfold doWpPage
  simp only [if_neg hne, if_pos hlow, hpte]
  rw [if_neg (not_not.2 hasks.present), if_neg hrw, if_neg hsig]
  by_cases hone : s.memMap (mapNr (s.pte p)) = 1
  · have hone' : (s.look (mapNr (s.pte p))).memMap (mapNr (s.pte p)) = 1 := hone
    rw [if_pos hone', if_pos hone]
    rfl
  · have hone' : ¬ (s.look (mapNr (s.pte p))).memMap (mapNr (s.pte p)) = 1 := hone
    rw [if_neg hone', if_neg hone]

/-- **What a call of `do_wp_page` does** is one of these. -/
theorem doWpPage_turn (hs : Mapped ram s) (hp : p < userPages) :
    WpTurn ram alloc bad user p s (doWpPage ram alloc bad user p s).1 := by
  by_cases hasks : Asks user (s.pte p)
  · rw [doWpPage_of_asks hs.toWellFormed hp hasks]
    split_ifs with hone
    · exact .turnOn hasks hone (hs.updated hp hasks.hasTable rfl rfl) rfl
    · exact dowp_turn hs.toWellFormed hp hasks hone (hs.mapped p hp hasks.present)
  · rw [doWpPage_of_not_asks hs.toWellFormed hp hasks]
    exact .same hasks

end Turn

/-! ## What a call may do -/

/-- **A call of `do_wp_page` gives nobody more than he has**: `PAGE_RW` is turned on only in an
entry with `PAGE_COW`, and only for a page with one user; `BAD_PAGE` may stand for the page if
there was no memory for it. -/
def Legit (ram : Nat) (alloc : Allocator ram) (bad : BadPages) (call : Vm × Vm) : Prop :=
  ∀ p < userPages, rw (call.2.pte p) = true → rw (call.1.pte p) = false →
    cow (call.1.pte p) = true ∧
      (call.2.memMap (mapNr (call.2.pte p)) = 1 ∨
        call.1.pte p < highMemory ram ∧
          alloc.get p (call.1.look (mapNr (call.1.pte p))) = none ∧
          mapNr (call.2.pte p) = mapNr bad.page)

/-- Nothing that a write must not have is asked for the page: it is not mapped read-only, unless
the program itself asks; and it is not a page of a device that is to be copied. -/
def Safe (ram : Nat) (user : Bool) (p : Nat) (s : Vm) : Prop :=
  ¬ (present (s.pte p) = true ∧ rw (s.pte p) = false ∧
    (cow (s.pte p) = false ∧ user = false ∨
      cow (s.pte p) = true ∧ highMemory ram ≤ s.pte p ∧ s.memMap (mapNr (s.pte p)) ≠ 1))

section LegitCall

variable {ram : Nat} {alloc : Allocator ram} {bad : BadPages} {user : Bool} {p : Nat} {s s' : Vm}

/-- A call does nothing, or it turns on `PAGE_RW` in the entry that it writes. -/
theorem WpTurn.updated (h : WpTurn ram alloc bad user p s s') :
    (¬ Asks user (s.pte p) ∧ s' = s) ∨
      Asks user (s.pte p) ∧ ∃ w, Paging.rw w = true ∧ Updated p w s s' := by
  cases h with
  | same hno => exact .inl ⟨hno, rfl⟩
  | turnOn hasks _ hupd => exact .inr ⟨hasks, _, by simp [rw_or, rw_pageRw], hupd⟩
  | bogus hasks _ _ hupd => exact .inr ⟨hasks, _, by simp [rw_or, rw_pageShared], hupd⟩
  | copy hasks _ _ _ _ hupd | outOfMemory hasks _ _ _ hupd =>
    exact .inr ⟨hasks, _, by simp [rw_or, rw_pageRw], hupd⟩

theorem WpTurn.rw (h : WpTurn ram alloc bad user p s s') (hp : p < userPages)
    (hasks : Asks user (s.pte p)) : rw (s'.pte p) = true := by
  obtain ⟨hno, -⟩ | ⟨-, w, hw, hupd⟩ := h.updated
  · exact absurd hasks hno
  · rwa [hupd.pte p hp, if_pos rfl]

theorem WpTurn.other (h : WpTurn ram alloc bad user p s s') {q : Nat} (hq : q < userPages)
    (hne : q ≠ p) : s'.pte q = s.pte q := by
  obtain ⟨-, rfl⟩ | ⟨-, w, -, hupd⟩ := h.updated
  · rfl
  · rw [hupd.pte q hq, if_neg hne]

/-- `free_page` of a page leaves the counts of the others. -/
theorem freePage_of_ne {addr nr : Nat} (memMap : Nat → Nat) (h : nr ≠ mapNr addr) :
    freePage ram addr memMap nr = memMap nr := by
  unfold freePage
  split_ifs
  · rw [update_of_ne h]
  · rfl

theorem copy_count (hs : Mapped ram s) (hp : p < userPages) (hpres : present (s.pte p) = true)
    {nr : Nat} (hlow : s.pte p < highMemory ram) (hzero : s.memMap nr = 0)
    (hupd : Updated p (nr * pageSize ||| (s.pte p % pageSize ||| pageRw)) s s')
    (hmap : s'.memMap = freePage ram (pageMask (s.pte p)) (update s.memMap nr 1)) :
    s'.memMap (mapNr (s'.pte p)) = 1 := by
  have hother : nr ≠ mapNr (pageMask (s.pte p)) := by
    rw [mapNr_pageMask]
    rintro rfl
    exact hs.mapped p hp hpres hlow hzero
  rw [hmap, hupd.pte p hp, if_pos rfl, mapNr_or_flags (prot_lt _), mapNr_mul,
    freePage_of_ne _ hother, update_self]

/-- **When a call keeps to it.** -/
theorem WpTurn.legit_iff (h : WpTurn ram alloc bad user p s s') (hs : Mapped ram s)
    (hbad : bad.Ok s) (hp : p < userPages) : Legit ram alloc bad (s, s') ↔ Safe ram user p s := by
  by_cases hasks : Asks user (s.pte p)
  · have hrw := h.rw hp hasks
    constructor
    · intro hlegit ⟨_, _, hbadly⟩
      obtain ⟨hcow, hcount⟩ := hlegit p hp hrw hasks.not_rw
      simp only at hcow hcount
      rcases hbadly with ⟨hc, -⟩ | ⟨-, hhigh, hone⟩
      · rw [hc] at hcow
        cases hcow
      · -- a page of a device has been replaced by `BAD_PAGE`
        rcases hcount with hcount | ⟨hlow, -⟩
        · cases h with
          | same hno => exact hno hasks
          | turnOn _ h1 => exact hone h1
          | bogus _ _ _ hupd hmap =>
            rw [hmap, hupd.pte p hp, if_pos rfl, mapNr_or_flags (by decide)] at hcount
            have hres := hbad.reserved
            simp only [Vm.reserved, hcount] at hres
            exact absurd hres (by decide)
          | copy _ _ hlow => omega
          | outOfMemory _ _ hlow => omega
        · omega
    · intro hsafe q hq hq1 hq2
      simp only at hq1 hq2 ⊢
      by_cases hqp : q = p
      · subst hqp
        have hcow : cow (s.pte q) = true := by
          by_contra hc
          have hc' : cow (s.pte q) = false := by simpa using hc
          apply hsafe
          refine ⟨hasks.present, hasks.not_rw, .inl ⟨hc', ?_⟩⟩
          exact hasks.allowed.resolve_left hc
        refine ⟨hcow, ?_⟩
        cases h with
        | same hno => exact absurd hasks hno
        | turnOn _ hone hupd hmap =>
          left
          rw [hmap, hupd.pte q hq, if_pos rfl, mapNr_or_flags (by decide)]
          exact hone
        | bogus _ hone hhigh =>
          exact absurd ⟨hasks.present, hasks.not_rw, .inr ⟨hcow, hhigh, hone⟩⟩ hsafe
        | copy _ _ hlow hzero _ hupd hmap =>
          exact .inl (copy_count hs hq hasks.present hlow hzero hupd hmap)
        | outOfMemory _ _ hlow hget hupd =>
          right
          refine ⟨hlow, hget, ?_⟩
          rw [hupd.pte q hq, if_pos rfl, mapNr_or_flags (prot_lt _)]
      · rw [h.other hq hqp, hq2] at hq1
        cases hq1
  · obtain ⟨-, rfl⟩ := h.updated.resolve_right fun hdone => hasks hdone.1
    refine iff_of_true (fun q _ h1 h2 => ?_) ?_
    · simp only at h1 h2
      rw [h1] at h2
      cases h2
    · rintro ⟨hpres, hrw, hc⟩
      apply hasks
      refine ⟨hpres, hrw, ?_⟩
      rcases hc with ⟨-, hu⟩ | ⟨hc, -⟩
      · exact .inr hu
      · exact .inl hc

/-- The counts after a call: nothing that is counted stops to be, unless a page loses one of
several users. -/
theorem WpTurn.memMap_ne (h : WpTurn ram alloc bad user p s s') {nr : Nat}
    (hnr : s.memMap nr ≠ 0) : s'.memMap nr ≠ 0 := by
  have hfree : ∀ memMap : Nat → Nat, memMap nr ≠ 0 → memMap (mapNr (s.pte p)) ≠ 1 →
      freePage ram (pageMask (s.pte p)) memMap nr ≠ 0 := by
    intro memMap hne hone
    by_cases heq : nr = mapNr (pageMask (s.pte p))
    · subst heq
      rw [mapNr_pageMask] at hne ⊢
      unfold freePage
      split_ifs
      · rw [mapNr_pageMask, update_self]
        omega
      · exact hne
    · rw [freePage_of_ne _ heq]
      exact hne
  cases h with
  | same => exact hnr
  | turnOn _ _ _ hmap | bogus _ _ _ _ hmap => rw [hmap]; exact hnr
  | @copy _ fresh _ hone _ hzero _ _ hmap =>
    rw [hmap]
    by_cases hq : mapNr (s.pte p) = fresh
    · -- the page of the entry would be a free one
      subst hq
      by_cases heq : nr = mapNr (s.pte p)
      · subst heq
        exact absurd hzero hnr
      · rw [freePage_of_ne _ (by rw [mapNr_pageMask]; exact heq), update_of_ne heq]
        exact hnr
    · apply hfree
      · by_cases heq : nr = fresh
        · rw [heq, update_self]
          decide
        · rw [update_of_ne heq]
          exact hnr
      · rw [update_of_ne hq]
        exact hone
  | outOfMemory _ hone _ _ _ hmap =>
    rw [hmap]
    exact hfree _ hnr hone

theorem WpTurn.reserved (h : WpTurn ram alloc bad user p s s') {nr : Nat}
    (hnr : s.reserved nr = true) : s'.reserved nr = true := by
  have hle : mapPageReserved ≤ s.memMap nr := by simpa [Vm.reserved] using hnr
  suffices hsuff : mapPageReserved ≤ s'.memMap nr by simpa [Vm.reserved] using hsuff
  cases h with
  | same => exact hle
  | turnOn _ _ _ hmap | bogus _ _ _ _ hmap => rw [hmap]; exact hle
  | @copy _ fresh _ _ _ hzero _ _ hmap =>
    rw [hmap, freePage_reserved, update_of_ne]
    · exact hle
    · rintro rfl
      rw [hzero] at hle
      exact absurd hle (by decide)
  | outOfMemory _ _ _ _ _ hmap =>
    rw [hmap, freePage_reserved]
    exact hle

/-- Beyond the end of memory the counts stay as they are. -/
theorem WpTurn.memMap_high (h : WpTurn ram alloc bad user p s s') {nr : Nat} (hnr : ram ≤ nr) :
    s'.memMap nr = s.memMap nr := by
  have hfree : ∀ memMap : Nat → Nat, s.pte p < highMemory ram →
      freePage ram (pageMask (s.pte p)) memMap nr = memMap nr := by
    intro memMap hlow
    apply freePage_of_ne
    rw [mapNr_pageMask]
    have hlt := lt_highMemory_iff.1 hlow
    omega
  cases h with
  | same => rfl
  | turnOn _ _ _ hmap => rw [hmap]
  | bogus _ _ _ _ hmap => rw [hmap]
  | @copy _ fresh _ _ hlow _ hlt _ hmap =>
    rw [hmap, hfree _ hlow, update_of_ne]
    omega
  | outOfMemory _ _ hlow _ _ hmap => rw [hmap, hfree _ hlow]

theorem WpTurn.pageDir (h : WpTurn ram alloc bad user p s s') : s'.pageDir = s.pageDir := by
  obtain ⟨-, rfl⟩ | ⟨-, w, -, hupd⟩ := h.updated
  · rfl
  · exact hupd.pageDir

theorem WpTurn.bad_ok (h : WpTurn ram alloc bad user p s s') (hbad : bad.Ok s) : bad.Ok s' :=
  ⟨hbad.aligned, h.reserved hbad.reserved⟩

/-- The pages that are mapped stay counted. -/
theorem WpTurn.mapped (h : WpTurn ram alloc bad user p s s') (hs : Mapped ram s) (hbad : bad.Ok s)
    (hp : p < userPages) : Mapped ram s' := by
  have hwf : WellFormed ram s' := by
    refine ⟨?_, ?_⟩ <;> rw [h.pageDir]
    · exact hs.table
    · exact hs.distinct
  refine ⟨hwf, fun q hq hpres hlow => ?_⟩
  have hbadpage : s.memMap (mapNr bad.page) ≠ 0 := by
    have hle : mapPageReserved ≤ s.memMap (mapNr bad.page) := by
      simpa [Vm.reserved] using hbad.reserved
    intro h0
    rw [h0] at hle
    exact absurd hle (by decide)
  by_cases hqp : q = p
  · subst hqp
    have hkeep : ∀ nr, s.memMap nr ≠ 0 → s'.memMap nr ≠ 0 := fun nr hnr => h.memMap_ne hnr
    cases h with
    | same => exact hs.mapped q hq hpres hlow
    | turnOn _ hone hupd hmap =>
      rw [hmap, hupd.pte q hq, if_pos rfl, mapNr_or_flags (by decide), hone]
      decide
    | bogus _ _ _ hupd =>
      rw [hupd.pte q hq, if_pos rfl, mapNr_or_flags (by decide)]
      exact hkeep _ hbadpage
    | copy hasks _ hlow' hzero _ hupd hmap =>
      rw [copy_count hs hq hasks.present hlow' hzero hupd hmap]
      decide
    | outOfMemory _ _ _ _ hupd =>
      rw [hupd.pte q hq, if_pos rfl, mapNr_or_flags (prot_lt _)]
      exact hkeep _ hbadpage
  · rw [h.other hq hqp] at hpres hlow ⊢
    exact h.memMap_ne (hs.mapped q hq hpres hlow)

/-- For the other pages it makes no difference. -/
theorem WpTurn.safe_iff (h : WpTurn ram alloc bad user p s s') {q : Nat} (hq : q < userPages)
    (hne : q ≠ p) (u : Bool) : Safe ram u q s' ↔ Safe ram u q s := by
  unfold Safe
  rw [h.other hq hne]
  by_cases hhigh : highMemory ram ≤ s.pte q
  · have hnr : ram ≤ mapNr (s.pte q) := by
      by_contra hlt
      exact absurd (lt_highMemory_iff.2 (not_le.1 hlt)) (not_lt.2 hhigh)
    rw [h.memMap_high hnr]
  · simp [hhigh]

end LegitCall

end LinuxEvocation.Mm.Paging
