import LinuxEvocation.Mm.Paging.WriteProtect

/-!
# `copy_page_tables`

A fork copies the page tables of the parent, one after the other.  A table in a reserved page is
shared instead.  A page that is copied on write loses `PAGE_RW` in both tables, and every page that
is not reserved is counted once more.

* `copyPte`, `copyTable`, `freeOneTable`, `copyPageTables` — the code.
* `Keeps` — what the copy of a table leaves of the other tables.
* `Copying.Ok` — what holds while the tables are copied.
* `Forked`, `copyPageTables_forked` — what a fork does.
-/

namespace LinuxEvocation.Mm.Paging

open Function (update update_of_ne update_self)
open PageAlloc (mapPageReserved)

/-! ## The code -/

/-- The copy of an entry: a page that may be written and is copied on write loses `PAGE_RW`. -/
def copiedPte (pg : Nat) : Nat := if rw pg ∧ cow pg then pg - pageRw else pg

/-- A fork on its way: what it works on, and the page directory of the child. -/
structure Copying where
  vm : Vm
  child : Nat → Nat

/-- `get_free_page` has handed out the page `nr`, for a page table. -/
def Vm.emptyTable (s : Vm) (nr : Nat) : Vm :=
  { s with
    pageTable := update s.pageTable nr fun _ => 0
    memMap := update s.memMap nr 1 }

section Code

variable (ram : Nat) (alloc : Allocator ram)

/-- The entry `j` of the table in the page `old` is copied to the one in the page `new`. -/
def copyPte (old new j : Nat) (s : Vm) : Vm :=
  let pg := s.pageTable old j
  if pg = 0 then s
  else if ¬ present pg then
    setPte new j (swapDuplicate pg s.swap).1 { s with swap := (swapDuplicate pg s.swap).2 }
  else
    let pg := copiedPte pg
    let s := (setPte new j pg s).look (mapNr pg)
    if s.reserved (mapNr pg) then s
    else
      { setPte old j pg s with
        memMap := update s.memMap (mapNr pg) (s.memMap (mapNr pg) + 1) }

/-- All entries of the table. -/
def copyPtes (old new : Nat) (s : Vm) : Vm :=
  walk (fun _ j s => copyPte old new j s) ptrsPerPage 0 0 s

/-- The directory entry `i`. -/
def copyTable (i : Nat) (c : Copying) : Except Copying Copying :=
  let oldTable := c.vm.pageDir i
  if oldTable = 0 then .ok c
  -- "copy_page_tables: bad page table: probable memory corruption"
  else if oldTable ≥ highMemory ram ∨ ¬ present oldTable then
    .ok { c with vm := { c.vm with pageDir := update c.vm.pageDir i 0 } }
  else
    let s := c.vm.look (mapNr oldTable)
    if s.reserved (mapNr oldTable) then .ok ⟨s, update c.child i oldTable⟩
    else
      match alloc.get i s with
      | none => .error ⟨s, c.child⟩
      | some nr =>
        .ok
          ⟨copyPtes (mapNr oldTable) nr (s.emptyTable nr),
            update c.child i (nr * pageSize + pageTableBits)⟩

/-- `n` directory entries from `i` on. -/
def copyTables : Nat → Nat → Copying → Except Copying Copying
  | 0, _, c => .ok c
  | n + 1, i, c =>
    match copyTable ram alloc i c with
    | .error c => .error c
    | .ok c => copyTables n (i + 1) c

/-- The entry `j` of a table that is given back. -/
def dropPte (frame j : Nat) (s : Vm) : Vm :=
  let pg := s.pageTable frame j
  if pg = 0 then s
  else
    setPte frame j 0
      { s with
        memMap := if present pg then freePage ram (pageMask pg) s.memMap else s.memMap
        swap := if present pg then s.swap else swapFree pg s.swap }

/-- `free_one_table`, for the directory entry `i` of the child. -/
def freeOneTable (i : Nat) (c : Copying) : Copying :=
  let pgTable := c.child i
  let child := update c.child i 0
  if pgTable = 0 then c
  -- "Bad page table"
  else if pgTable ≥ highMemory ram ∨ ¬ present pgTable then ⟨c.vm, child⟩
  else
    let s := c.vm.look (mapNr pgTable)
    if s.reserved (mapNr pgTable) then ⟨s, child⟩
    else
      ⟨(walk (fun _ j s => dropPte ram (mapNr pgTable) j s) ptrsPerPage 0 0 s).free ram
        (pageMask pgTable), child⟩

/-- The loop of `free_page_tables`. -/
def freeTables : Nat → Nat → Copying → Copying
  | 0, _, c => c
  | n + 1, i, c => freeTables n (i + 1) (freeOneTable ram i c)

/-- `free_page_tables`, for the child.  Its page directory is the page `pgDir`. -/
def freePageTables (pgDir : Nat) (c : Copying) : Copying :=
  if c.vm.memMap pgDir > 1 then ⟨c.vm.free ram (pgDir * pageSize), c.child⟩
  else
    let c := freeTables ram ptrsPerPage 0 c
    ⟨c.vm.free ram (pgDir * pageSize), c.child⟩

/-- The state in which the tables are copied: the page `pgDir` is the page directory of the
child. -/
def Copying.start (s : Vm) (pgDir : Nat) : Copying :=
  ⟨{ s with memMap := update s.memMap pgDir 1 }, fun _ => 0⟩

/-- `copy_page_tables`, with the page tables of the parent: what is returned, and what is left.  The
first page that is allocated is the page directory. -/
def copyPageTables (s : Vm) : Int × Copying :=
  match alloc.get ptrsPerPage s with
  | none => (-Errno.enomem, ⟨s, fun _ => 0⟩)
  | some pgDir =>
    match copyTables ram alloc ptrsPerPage 0 (.start s pgDir) with
    | .error c => (-Errno.enomem, freePageTables ram pgDir c)
    | .ok c => (0, c)

end Code

/-! ## Entries of devices -/

/-- The entry names a page of a device, at or above `high_memory`. -/
def Device (ram word : Nat) : Prop := present word = true ∧ highMemory ram ≤ word

instance (ram word : Nat) : Decidable (Device ram word) := inferInstanceAs (Decidable (_ ∧ _))

/-- Every number that `mem_map` has been indexed with is one of a page of memory. -/
def InBounds (ram : Nat) (s : Vm) : Prop := ∀ nr ∈ s.looked, nr < ram

section Words

variable {ram word : Nat} {s s' : Vm}

theorem not_device_iff (hpres : present word = true) : ¬ Device ram word ↔ mapNr word < ram := by
  unfold Device
  rw [← lt_highMemory_iff]
  constructor
  · intro h
    by_contra hle
    exact h ⟨hpres, not_lt.1 hle⟩
  · rintro hlt ⟨-, hle⟩
    exact absurd hlt (not_lt.2 hle)

theorem inBounds_congr (h : s'.looked = s.looked) : InBounds ram s' ↔ InBounds ram s := by
  unfold InBounds
  rw [h]

theorem inBounds_append {nr : Nat} (h : s'.looked = s.looked ++ [nr]) :
    InBounds ram s' ↔ InBounds ram s ∧ nr < ram := by
  unfold InBounds
  rw [h]
  simp only [List.mem_append, List.mem_singleton, or_imp, forall_and, forall_eq]

@[simp]
theorem look_reserved (nr n : Nat) : (s.look nr).reserved n = s.reserved n := rfl

@[simp]
theorem look_memMap (nr : Nat) : (s.look nr).memMap = s.memMap := rfl

theorem rw_iff (pg : Nat) : rw pg = true ↔ pg / 2 % 2 = 1 := by
  unfold rw
  rw [Nat.testBit_eq_decide_div_mod_eq]
  simp

theorem copiedPte_spec (pg : Nat) :
    mapNr (copiedPte pg) = mapNr pg ∧ present (copiedPte pg) = present pg := by
  unfold copiedPte
  split_ifs with h
  · have hbit := (rw_iff pg).1 h.1
    unfold mapNr present pageRw pageSize
    exact ⟨by omega, decide_eq_decide.2 (by omega)⟩
  · exact ⟨rfl, rfl⟩

theorem device_copiedPte (pg : Nat) : Device ram (copiedPte pg) ↔ Device ram pg := by
  obtain ⟨hnr, hpres⟩ := copiedPte_spec pg
  by_cases hp : present pg = true
  · rw [← not_iff_not, not_device_iff hp, not_device_iff (hpres.trans hp), hnr]
  · exact iff_of_false (fun h => hp (hpres ▸ h.1)) fun h => hp h.1

end Words

/-! ## One table -/

/-- What is left while the table in the page `new` is filled from the one in the page `old`. -/
structure Keeps (ram old new : Nat) (s s' : Vm) : Prop where
  pageDir : s'.pageDir = s.pageDir
  device : ∀ f ≠ new, ∀ i, Device ram (s'.pageTable f i) ↔ Device ram (s.pageTable f i)
  copied : ∀ i, Device ram (s'.pageTable new i) →
    Device ram (s.pageTable new i) ∨ Device ram (s.pageTable old i)
  counted : ∀ nr, s.memMap nr ≠ 0 → s'.memMap nr ≠ 0
  reserved : ∀ nr, s.reserved nr = true → s'.reserved nr = true

section Table

variable {ram old new : Nat} {s s' s'' : Vm}

theorem Keeps.refl : Keeps ram old new s s :=
  ⟨rfl, fun _ _ _ => Iff.rfl, fun _ h => .inl h, fun _ h => h, fun _ h => h⟩

theorem Keeps.trans (hne : old ≠ new) (h : Keeps ram old new s s')
    (h' : Keeps ram old new s' s'') : Keeps ram old new s s'' := by
  refine ⟨h'.pageDir.trans h.pageDir, fun f hf i => ?_, fun i hi => ?_,
    fun nr hnr => h'.counted nr (h.counted nr hnr), fun nr hnr => h'.reserved nr (h.reserved nr hnr)⟩
  · exact (h'.device f hf i).trans (h.device f hf i)
  · rcases h'.copied i hi with hnew | hold
    · exact h.copied i hnew
    · exact .inr ((h.device old hne i).1 hold)

theorem swapDuplicate_fst (entry : Nat) (sw : Swap) :
    (swapDuplicate entry sw).1 = entry ∨ (swapDuplicate entry sw).1 = 0 := by
  unfold swapDuplicate
  split
  · exact .inr rfl
  · split
    · exact .inl rfl
    · split
      · exact .inr rfl
      · split_ifs
        · exact .inr rfl
        · exact .inr rfl
        · exact .inl rfl

theorem copyPte_keeps (hne : old ≠ new) (j : Nat) :
    Keeps ram old new s (copyPte old new j s) ∧
      (InBounds ram (copyPte old new j s) ↔
        InBounds ram s ∧ ¬ Device ram (s.pageTable old j)) := by
  unfold copyPte
  simp only
  by_cases h0 : s.pageTable old j = 0
  · rw [if_pos h0]
    refine ⟨.refl, (and_iff_left ?_).symm⟩
    rw [h0]
    rintro ⟨hpres, -⟩
    cases hpres
  · rw [if_neg h0]
    by_cases hpres : present (s.pageTable old j) = true
    · rw [if_neg (not_not.2 hpres)]
      obtain ⟨hnr, -⟩ := copiedPte_spec (s.pageTable old j)
      have hdevice := @device_copiedPte ram (s.pageTable old j)
      generalize hword : copiedPte (s.pageTable old j) = word at hnr hdevice
      have hbounds : ∀ t : Vm, t.looked = s.looked ++ [mapNr word] →
          (InBounds ram t ↔ InBounds ram s ∧ ¬ Device ram (s.pageTable old j)) := by
        intro t ht
        rw [inBounds_append ht, not_device_iff hpres, hnr]
      -- the copy is an entry for the same page
      have hcopied : ∀ t : Vm, (∀ i, t.pageTable new i = if i = j then word else s.pageTable new i) →
          ∀ i, Device ram (t.pageTable new i) →
            Device ram (s.pageTable new i) ∨ Device ram (s.pageTable old i) := by
        intro t ht i hi
        rw [ht] at hi
        split_ifs at hi with hij
        · subst hij
          exact .inr (hdevice.1 hi)
        · exact .inl hi
      split_ifs with hres
      · refine ⟨⟨rfl, fun f hf i => ?_, hcopied _ fun i => ?_, fun _ h => h, fun _ h => h⟩,
          hbounds _ rfl⟩
        · simp only [Vm.look, setPte, if_neg (fun h : f = new ∧ i = j => hf h.1)]
        · simp [Vm.look, setPte]
      · refine ⟨⟨rfl, fun f hf i => ?_, hcopied _ fun i => ?_, fun nr hnr => ?_, fun nr hnr => ?_⟩,
          hbounds _ rfl⟩
        · simp only [Vm.look, setPte, if_neg (fun h : f = new ∧ i = j => hf h.1)]
          split_ifs with hfi
          · obtain ⟨rfl, rfl⟩ := hfi
            exact hdevice
          · exact Iff.rfl
        · simp [Vm.look, setPte, Ne.symm hne]
        · by_cases hq : nr = mapNr word
          · simp [hq]
          · simpa [Vm.look, update_of_ne hq] using hnr
        · simp only [Vm.reserved, decide_eq_true_eq, Vm.look, setPte_memMap] at hnr ⊢
          by_cases hq : nr = mapNr word
          · subst hq
            simp only [update_self, decide_eq_true_eq]
            exact Nat.le_succ_of_le hnr
          · simpa [update_of_ne hq] using hnr
    · rw [if_pos hpres]
      have hword : ¬ present (swapDuplicate (s.pageTable old j) s.swap).1 = true := by
        rcases swapDuplicate_fst (s.pageTable old j) s.swap with h | h
        · rw [h]
          exact hpres
        · rw [h]
          decide
      refine ⟨⟨rfl, fun f hf i => ?_, fun i hi => ?_, fun _ h => h, fun _ h => h⟩, ?_⟩
      · simp only [setPte, if_neg (fun h : f = new ∧ i = j => hf h.1)]
      · simp only [setPte, true_and] at hi
        split_ifs at hi with hij
        · exact absurd hi.1 hword
        · exact .inl hi
      · rw [inBounds_congr (s := s) rfl]
        exact (and_iff_left fun h => hpres h.1).symm

theorem walk_copyPte (hne : old ≠ new) (n i idx : Nat) (s : Vm) :
    Keeps ram old new s (walk (fun _ j s => copyPte old new j s) n i idx s) ∧
      (InBounds ram (walk (fun _ j s => copyPte old new j s) n i idx s) ↔
        InBounds ram s ∧ ∀ j, idx ≤ j → j < idx + n → ¬ Device ram (s.pageTable old j)) := by
  induction n generalizing i idx s with
  | zero =>
    refine ⟨.refl, (and_iff_left fun j hj hj' => ?_).symm⟩
    omega
  | succ n ih =>
    obtain ⟨hkeep, hbound⟩ := @copyPte_keeps ram old new s hne idx
    obtain ⟨hrest, hbounds⟩ := ih (i + 1) (idx + 1) (copyPte old new idx s)
    rw [walk]
    refine ⟨hkeep.trans hne hrest, ?_⟩
    rw [hbounds, hbound]
    simp only [hkeep.device old hne]
    constructor
    · rintro ⟨⟨hs, hfirst⟩, hlater⟩
      refine ⟨hs, fun j hj hj' => ?_⟩
      rcases Nat.eq_or_lt_of_le hj with rfl | hlt
      · exact hfirst
      · exact hlater j hlt (by omega)
    · rintro ⟨hs, hall⟩
      exact ⟨⟨hs, hall idx le_rfl (by omega)⟩, fun j hj hj' => hall j (by omega) (by omega)⟩

theorem copyPtes_keeps (hne : old ≠ new) (s : Vm) :
    Keeps ram old new s (copyPtes old new s) ∧
      (InBounds ram (copyPtes old new s) ↔
        InBounds ram s ∧ ∀ j < ptrsPerPage, ¬ Device ram (s.pageTable old j)) := by
  obtain ⟨hkeep, hbounds⟩ := @walk_copyPte ram old new hne ptrsPerPage 0 0 s
  simp only [Nat.zero_le, Nat.zero_add, true_implies] at hbounds
  exact ⟨hkeep, hbounds⟩

end Table

/-! ## All tables -/

/-- The tables of the kernel, behind those of the task, are in reserved pages. -/
def KernelTables (ram : Nat) (s : Vm) : Prop :=
  ∀ d, userDirs ≤ d → d < ptrsPerPage → s.pageDir d = 0 ∨
    IsTable ram (s.pageDir d) ∧ s.reserved (mapNr (s.pageDir d)) = true

/-- What holds while the tables are copied from the parent, who had `s`: each table of the child is
the one of the parent, or one that nobody has. -/
structure Copying.Ok (ram : Nat) (s : Vm) (c : Copying) : Prop where
  pageDir : c.vm.pageDir = s.pageDir
  device : ∀ d < ptrsPerPage, s.pageDir d ≠ 0 → ∀ i,
    Device ram (c.vm.pageTable (mapNr (s.pageDir d)) i) ↔
      Device ram (s.pageTable (mapNr (s.pageDir d)) i)
  clean : (∀ f i, ¬ Device ram (s.pageTable f i)) → ∀ f i, ¬ Device ram (c.vm.pageTable f i)
  reserved : ∀ nr, s.reserved nr = true → c.vm.reserved nr = true
  table : ∀ d < userDirs, c.child d = 0 ∨ IsTable ram (c.child d)
  kernel : ∀ d, userDirs ≤ d → d < ptrsPerPage →
    c.child d = 0 ∨ IsTable ram (c.child d) ∧ c.vm.reserved (mapNr (c.child d)) = true
  counted : ∀ d < ptrsPerPage, c.child d ≠ 0 → c.vm.memMap (mapNr (c.child d)) ≠ 0
  origin : ∀ d < userDirs, c.child d ≠ 0 → c.child d = s.pageDir d ∨
    ∀ e < userDirs, s.pageDir e ≠ 0 → mapNr (s.pageDir e) ≠ mapNr (c.child d)
  distinct : ∀ d < userDirs, ∀ e < userDirs, c.child d ≠ 0 → c.child e ≠ 0 →
    mapNr (c.child d) = mapNr (c.child e) → d = e

/-- The table of the directory entry `i` is copied: it is not shared, and there is memory for the
copy. -/
def Copying.Copies {ram : Nat} (alloc : Allocator ram) (i : Nat) (c : Copying) : Prop :=
  c.vm.pageDir i ≠ 0 ∧ c.vm.reserved (mapNr (c.vm.pageDir i)) = false ∧
    (alloc.get i (c.vm.look (mapNr (c.vm.pageDir i)))).isSome

section Tables

variable {ram : Nat} {alloc : Allocator ram} {s : Vm} {c c' : Copying} {i : Nat}

theorem Copying.Ok.share (h : c.Ok ram s) (hs : WellFormed ram s) (hk : KernelTables ram s)
    (hi : i < ptrsPerPage) (hne : s.pageDir i ≠ 0)
    (hres : c.vm.reserved (mapNr (s.pageDir i)) = true) :
    Copying.Ok ram s
      ⟨c.vm.look (mapNr (s.pageDir i)), update c.child i (s.pageDir i)⟩ := by
  have hcount : c.vm.memMap (mapNr (s.pageDir i)) ≠ 0 := by
    intro h0
    simp [Vm.reserved, h0, mapPageReserved] at hres
  refine ⟨h.pageDir, h.device, h.clean, h.reserved, fun d hd => ?_, fun d hd hd' => ?_,
    fun d hd hdne => ?_, fun d hd hdne => ?_, fun d hd e he hdne hene heq => ?_⟩
  · by_cases hdi : d = i
    · subst hdi
      simpa using hs.table d hd
    · simpa [update_of_ne hdi] using h.table d hd
  · by_cases hdi : d = i
    · subst hdi
      exact .inr ⟨by simpa using ((hk d hd hd').resolve_left hne).1, by simpa using hres⟩
    · simpa [update_of_ne hdi] using h.kernel d hd hd'
  · by_cases hdi : d = i
    · subst hdi
      simpa using hcount
    · simp only [update_of_ne hdi] at hdne ⊢
      exact h.counted d hd hdne
  · by_cases hdi : d = i
    · subst hdi
      exact .inl (update_self _ _ _)
    · simp only [update_of_ne hdi] at hdne ⊢
      exact h.origin d hd hdne
  · -- another table of the child is the parent's own, or is none of his
    have hother : ∀ e < userDirs, i < userDirs → c.child e ≠ 0 →
        mapNr (c.child e) = mapNr (s.pageDir i) → e = i := by
      intro e he hi hene heq
      rcases h.origin e he hene with hsame | hnew
      · rw [hsame] at hene heq
        exact hs.distinct e he i hi hene hne heq
      · exact absurd heq.symm (hnew i hi hne)
    by_cases hdi : d = i
    · by_cases hei : e = i
      · rw [hdi, hei]
      · subst hdi
        simp only [update_self, update_of_ne hei] at hene heq
        exact (hother e he hd hene heq.symm).symm
    · by_cases hei : e = i
      · subst hei
        simp only [update_self, update_of_ne hdi] at hdne heq
        exact hother d hd he hdne heq
      · simp only [update_of_ne hdi, update_of_ne hei] at hdne hene heq
        exact h.distinct d hd e he hdne hene heq

/-- The page that is allocated for a copy is none of the parent's tables. -/
theorem Copying.Ok.fresh (h : c.Ok ram s) (hk : KernelTables ram s) {nr : Nat}
    (hget : alloc.get i (c.vm.look (mapNr (s.pageDir i))) = some nr) {d : Nat}
    (hd : d < ptrsPerPage) (hne : s.pageDir d ≠ 0) : mapNr (s.pageDir d) ≠ nr := by
  by_cases huser : d < userDirs
  · have hnot := alloc.not_table i _ nr hget d huser
    simp only [Vm.look, h.pageDir] at hnot
    exact hnot hne
  · rintro rfl
    have hres := h.reserved _ ((hk d (not_lt.1 huser) hd).resolve_left hne).2
    have hfree := alloc.free i _ _ hget
    rw [look_memMap] at hfree
    simp [Vm.reserved, hfree, mapPageReserved] at hres

theorem Copying.Ok.copy (h : c.Ok ram s) (hk : KernelTables ram s) (hi : i < ptrsPerPage)
    (hne : s.pageDir i ≠ 0) (hres : c.vm.reserved (mapNr (s.pageDir i)) = false) {nr : Nat}
    (hget : alloc.get i (c.vm.look (mapNr (s.pageDir i))) = some nr) {t : Vm}
    (hkeep : Keeps ram (mapNr (s.pageDir i)) nr
      ((c.vm.look (mapNr (s.pageDir i))).emptyTable nr) t) :
    Copying.Ok ram s ⟨t, update c.child i (nr * pageSize + pageTableBits)⟩ := by
  have hfree : c.vm.memMap nr = 0 := alloc.free i (c.vm.look (mapNr (s.pageDir i))) nr hget
  have hlt : nr < ram := alloc.lt i _ _ hget
  have hword : mapNr (nr * pageSize + pageTableBits) = nr := by
    unfold mapNr pageSize pageTableBits
    omega
  have hzero : nr * pageSize + pageTableBits ≠ 0 := by
    unfold pageTableBits
    omega
  have huser : i < userDirs := by
    by_contra hle
    have := h.reserved _ ((hk i (not_lt.1 hle) hi).resolve_left hne).2
    rw [hres] at this
    cases this
  have hreserved : ∀ n, c.vm.reserved n = true → t.reserved n = true := by
    intro n hn
    apply hkeep.reserved
    have hnn : n ≠ nr := by
      rintro rfl
      simp [Vm.reserved, hfree, mapPageReserved] at hn
    simpa [Vm.reserved, Vm.emptyTable, update_of_ne hnn] using hn
  have hcounted : ∀ n, c.vm.memMap n ≠ 0 → t.memMap n ≠ 0 := by
    intro n hn
    apply hkeep.counted
    have hnn : n ≠ nr := by
      rintro rfl
      exact hn hfree
    simpa [Vm.emptyTable, update_of_ne hnn] using hn
  -- no table of the child is in the new page
  have hother : ∀ d < ptrsPerPage, c.child d ≠ 0 → mapNr (c.child d) ≠ nr := by
    intro d hd hdne heq
    exact h.counted d hd hdne (by rw [heq]; exact hfree)
  refine ⟨hkeep.pageDir.trans h.pageDir, fun d hd hdne j => ?_, fun hclean f j => ?_,
    fun n hn => hreserved n (h.reserved n hn), fun d hd => ?_, fun d hd hd' => ?_, fun d hd hdne => ?_,
    fun d hd hdne => ?_, fun d hd e he hdne hene heq => ?_⟩
  · have hdnr := h.fresh hk hget hd hdne
    rw [hkeep.device _ hdnr, ← h.device d hd hdne]
    simp only [Vm.emptyTable, Vm.look, update_of_ne hdnr]
  · have hempty : ∀ f j, ¬ Device ram
        (((c.vm.look (mapNr (s.pageDir i))).emptyTable nr).pageTable f j) := by
      intro f j
      by_cases hf : f = nr
      · subst hf
        simp [Vm.emptyTable, Device, present]
      · simp only [Vm.emptyTable, Vm.look, update_of_ne hf]
        exact h.clean hclean f j
    intro hd
    by_cases hf : f = nr
    · subst hf
      rcases hkeep.copied j hd with hnew | hold
      · exact hempty _ _ hnew
      · exact hempty _ _ hold
    · exact hempty f j ((hkeep.device f hf j).1 hd)
  · by_cases hdi : d = i
    · subst hdi
      simp only [update_self]
      right
      refine ⟨?_, by rw [hword]; exact hlt⟩
      unfold pageSize pageTableBits
      omega
    · simpa [update_of_ne hdi] using h.table d hd
  · have hdi : d ≠ i := by omega
    simp only [update_of_ne hdi]
    exact (h.kernel d hd hd').imp_right (And.imp_right (hreserved _))
  · by_cases hdi : d = i
    · subst hdi
      simp only [update_self, hword]
      apply hkeep.counted
      simp [Vm.emptyTable]
    · simp only [update_of_ne hdi] at hdne ⊢
      exact hcounted _ (h.counted d hd hdne)
  · by_cases hdi : d = i
    · subst hdi
      right
      intro e he hene
      simp only [update_self, hword]
      have he' : e < ptrsPerPage := by
        unfold userDirs ptrsPerPage at *
        omega
      exact h.fresh hk hget he' hene
    · simp only [update_of_ne hdi] at hdne ⊢
      exact h.origin d hd hdne
  · have hsize : userDirs ≤ ptrsPerPage := by decide
    by_cases hdi : d = i
    · by_cases hei : e = i
      · rw [hdi, hei]
      · subst hdi
        simp only [update_self, update_of_ne hei, hword] at hene heq
        exact absurd heq.symm (hother e (by omega) hene)
    · by_cases hei : e = i
      · subst hei
        simp only [update_self, update_of_ne hdi, hword] at hdne heq
        exact absurd heq (hother d (by omega) hdne)
      · simp only [update_of_ne hdi, update_of_ne hei] at hdne hene heq
        exact h.distinct d hd e he hdne hene heq

/-- **One directory entry.** -/
theorem Copying.Ok.copyTable (h : c.Ok ram s) (hs : WellFormed ram s) (hk : KernelTables ram s)
    (hi : i < ptrsPerPage) :
    (outcome (copyTable ram alloc i c)).Ok ram s ∧
      (InBounds ram (outcome (Paging.copyTable ram alloc i c)).vm ↔ InBounds ram c.vm ∧
        (c.Copies alloc i → ∀ j < ptrsPerPage,
          ¬ Device ram (s.pageTable (mapNr (s.pageDir i)) j))) := by
  -- the table is not copied
  have hplain : ∀ c' : Copying, (InBounds ram c'.vm ↔ InBounds ram c.vm) → ¬ c.Copies alloc i →
      (InBounds ram c'.vm ↔ InBounds ram c.vm ∧ (c.Copies alloc i → ∀ j < ptrsPerPage,
        ¬ Device ram (s.pageTable (mapNr (s.pageDir i)) j))) :=
    fun c' hc' hnot => hc'.trans (and_iff_left fun hcopies => absurd hcopies hnot).symm
  unfold Paging.copyTable
  simp only [h.pageDir]
  by_cases h0 : s.pageDir i = 0
  · rw [if_pos h0]
    exact ⟨h, hplain c Iff.rfl fun hcopies => hcopies.1 (by rw [h.pageDir]; exact h0)⟩
  · have htable : IsTable ram (s.pageDir i) := by
      rcases Nat.lt_or_ge i userDirs with huser | hkernel
      · exact (hs.table i huser).resolve_left h0
      · exact ((hk i hkernel hi).resolve_left h0).1
    have hlow : ¬ (s.pageDir i ≥ highMemory ram ∨ ¬ present (s.pageDir i) = true) := by
      rintro (hge | habs)
      · exact absurd (lt_highMemory_iff.2 htable.2) (not_lt.2 hge)
      · exact habs htable.present
    have hlook : InBounds ram (c.vm.look (mapNr (s.pageDir i))) ↔ InBounds ram c.vm :=
      (inBounds_append rfl).trans (and_iff_left htable.2)
    rw [if_neg h0, if_neg hlow]
    by_cases hres : c.vm.reserved (mapNr (s.pageDir i)) = true
    · rw [if_pos (by simpa using hres)]
      refine ⟨h.share hs hk hi h0 hres, hplain _ hlook fun hcopies => ?_⟩
      have := hcopies.2.1
      rw [h.pageDir, hres] at this
      cases this
    · rw [if_neg (by simpa using hres)]
      have hres' : c.vm.reserved (mapNr (s.pageDir i)) = false := by simpa using hres
      cases hget : alloc.get i (c.vm.look (mapNr (s.pageDir i))) with
      | none =>
        refine ⟨⟨h.pageDir, h.device, h.clean, h.reserved, h.table, h.kernel, h.counted, h.origin,
          h.distinct⟩, hplain _ hlook fun hcopies => ?_⟩
        have := hcopies.2.2
        rw [h.pageDir, hget] at this
        cases this
      | some nr =>
        have hne := h.fresh hk hget hi h0
        obtain ⟨hkeep, hbounds⟩ := @copyPtes_keeps ram (mapNr (s.pageDir i)) nr hne
          ((c.vm.look (mapNr (s.pageDir i))).emptyTable nr)
        refine ⟨h.copy hk hi h0 hres' hget hkeep, ?_⟩
        simp only [outcome]
        rw [hbounds]
        have hcopies : c.Copies alloc i := by
          refine ⟨?_, ?_, ?_⟩
          · rw [h.pageDir]
            exact h0
          · rw [h.pageDir]
            exact hres'
          · rw [h.pageDir, hget]
            rfl
        have hentry : ∀ j, Device ram (((c.vm.look (mapNr (s.pageDir i))).emptyTable nr).pageTable
            (mapNr (s.pageDir i)) j) ↔ Device ram (s.pageTable (mapNr (s.pageDir i)) j) := by
          intro j
          rw [← h.device i hi h0]
          simp only [Vm.emptyTable, Vm.look, update_of_ne hne]
        have hstart : InBounds ram ((c.vm.look (mapNr (s.pageDir i))).emptyTable nr) ↔
            InBounds ram c.vm := hlook
        rw [hstart]
        simp only [hentry, hcopies, true_implies]

/-- **The directory entries** from `i` on. -/
theorem Copying.Ok.copyTables (h : c.Ok ram s) (hs : WellFormed ram s) (hk : KernelTables ram s)
    (n : Nat) (hi : i + n ≤ ptrsPerPage) :
    (outcome (copyTables ram alloc n i c)).Ok ram s ∧
      (InBounds ram (outcome (Paging.copyTables ram alloc n i c)).vm ↔ InBounds ram c.vm ∧
        ∀ k < n, ∀ c', Paging.copyTables ram alloc k i c = .ok c' → c'.Copies alloc (i + k) →
          ∀ j < ptrsPerPage, ¬ Device ram (s.pageTable (mapNr (s.pageDir (i + k))) j)) := by
  induction n generalizing i c with
  | zero => exact ⟨h, (and_iff_left fun k hk => absurd hk (Nat.not_lt_zero k)).symm⟩
  | succ n ih =>
    obtain ⟨hfirst, hbound⟩ := @h.copyTable ram alloc s c i hs hk (by omega)
    simp only [Paging.copyTables]
    cases hc : Paging.copyTable ram alloc i c with
    | error c₁ =>
      rw [hc] at hfirst hbound
      refine ⟨hfirst, hbound.trans (and_congr_right fun _ => ?_)⟩
      constructor
      · intro hfine k _ c' hc'
        cases k with
        | zero =>
          cases hc'
          exact hfine
        | succ k =>
          simp only [Paging.copyTables, hc] at hc'
          cases hc'
      · intro hall
        exact hall 0 (Nat.succ_pos n) c rfl
    | ok c₁ =>
      rw [hc] at hfirst hbound
      obtain ⟨hrest, hbounds⟩ := @ih c₁ (i + 1) hfirst (by omega)
      refine ⟨hrest, hbounds.trans ?_⟩
      rw [show InBounds ram c₁.vm ↔ _ from hbound, and_assoc]
      refine and_congr_right fun _ => ?_
      constructor
      · rintro ⟨hfine, hlater⟩ k hkn c' hc'
        cases k with
        | zero =>
          cases hc'
          exact hfine
        | succ k =>
          simp only [Paging.copyTables, hc] at hc'
          rw [Nat.add_comm k 1, ← Nat.add_assoc]
          exact hlater k (by omega) c' hc'
      · intro hall
        refine ⟨hall 0 (Nat.succ_pos n) c rfl, fun k hkn c' hc' => ?_⟩
        rw [Nat.add_assoc, Nat.add_comm 1 k]
        exact hall (k + 1) (by omega) c' (by simp only [Paging.copyTables, hc]; exact hc')

end Tables

/-! ## Giving up -/

/-- The page directory is left alone, no entry for a device is made, and `mem_map` is indexed with
pages of memory only. -/
structure Quiet (ram : Nat) (s s' : Vm) : Prop where
  pageDir : s'.pageDir = s.pageDir
  device : ∀ f i, Device ram (s'.pageTable f i) → Device ram (s.pageTable f i)
  reserved : ∀ nr, s.reserved nr = true → s'.reserved nr = true
  bounds : InBounds ram s' ↔ InBounds ram s

section Back

variable {ram : Nat} {s s' s'' : Vm}

theorem Quiet.refl : Quiet ram s s := ⟨rfl, fun _ _ h => h, fun _ h => h, Iff.rfl⟩

theorem Quiet.trans (h : Quiet ram s s') (h' : Quiet ram s' s'') :
    Quiet ram s s'' :=
  ⟨h'.pageDir.trans h.pageDir, fun f i hd => h.device f i (h'.device f i hd),
    fun nr hnr => h'.reserved nr (h.reserved nr hnr), h'.bounds.trans h.bounds⟩

theorem free_quiet (addr : Nat) : Quiet ram s (s.free ram addr) := by
  refine ⟨rfl, fun _ _ h => h, fun nr hnr => ?_, Iff.rfl⟩
  simp only [Vm.reserved, Vm.free, decide_eq_true_eq, freePage_reserved] at hnr ⊢
  exact hnr

theorem dropPte_quiet (frame j : Nat) : Quiet ram s (dropPte ram frame j s) := by
  unfold dropPte
  simp only
  split_ifs with h0 hpres
  · exact .refl
  · refine ⟨rfl, fun f i hd => ?_, fun nr hnr => ?_, Iff.rfl⟩
    · simp only [setPte] at hd
      split_ifs at hd with hfi
      · cases hd.1
      · exact hd
    · simp only [Vm.reserved, setPte_memMap, decide_eq_true_eq, freePage_reserved] at hnr ⊢
      exact hnr
  · refine ⟨rfl, fun f i hd => ?_, fun nr hnr => hnr, Iff.rfl⟩
    simp only [setPte] at hd
    split_ifs at hd with hfi
    · cases hd.1
    · exact hd

theorem walk_quiet (frame n i idx : Nat) :
    Quiet ram s (walk (fun _ j s => dropPte ram frame j s) n i idx s) := by
  induction n generalizing i idx s with
  | zero => exact .refl
  | succ n ih => exact (dropPte_quiet frame idx).trans (ih (i + 1) (idx + 1))

theorem freeOneTable_quiet (i : Nat) (c : Copying) :
    Quiet ram c.vm (freeOneTable ram i c).vm := by
  unfold freeOneTable
  simp only
  split_ifs with h0 hbad hres
  · exact .refl
  · exact .refl
  · have hlt : mapNr (c.child i) < ram := lt_highMemory_iff.1 (by omega)
    exact ⟨rfl, fun _ _ h => h, fun _ h => h, (inBounds_append rfl).trans (and_iff_left hlt)⟩
  · have hlt : mapNr (c.child i) < ram := lt_highMemory_iff.1 (by omega)
    have hlook : Quiet ram c.vm (c.vm.look (mapNr (c.child i))) :=
      ⟨rfl, fun _ _ h => h, fun _ h => h, (inBounds_append rfl).trans (and_iff_left hlt)⟩
    exact (hlook.trans (walk_quiet _ _ _ _)).trans (free_quiet _)

theorem freeTables_quiet (n i : Nat) (c : Copying) :
    Quiet ram c.vm (freeTables ram n i c).vm := by
  induction n generalizing i c with
  | zero => exact .refl
  | succ n ih => exact (freeOneTable_quiet i c).trans (ih (i + 1) (freeOneTable ram i c))

theorem freePageTables_quiet (pgDir : Nat) (c : Copying) :
    Quiet ram c.vm (freePageTables ram pgDir c).vm := by
  unfold freePageTables
  split_ifs
  · exact free_quiet _
  · exact (freeTables_quiet _ _ c).trans (free_quiet _)

end Back

/-! ## The whole call -/

/-- A fork gets as far as the table `i`, and copies it. -/
def Copied {ram : Nat} (alloc : Allocator ram) (s : Vm) (i : Nat) : Prop :=
  ∃ pgDir c, alloc.get ptrsPerPage s = some pgDir ∧
    copyTables ram alloc i 0 (.start s pgDir) = .ok c ∧ c.Copies alloc i

section Call

variable {ram : Nat} {alloc : Allocator ram} {s : Vm}

theorem Copying.Ok.start (hs : WellFormed ram s) (hk : KernelTables ram s) {pgDir : Nat}
    (hget : alloc.get ptrsPerPage s = some pgDir) :
    (Copying.start s pgDir).Ok ram s := by
  have hfree := alloc.free _ _ _ hget
  refine ⟨rfl, fun _ _ _ _ => Iff.rfl, fun h => h, fun nr hnr => ?_, fun _ _ => .inl rfl,
    fun _ _ _ => .inl rfl, fun _ _ hne => absurd rfl hne, fun _ _ hne => absurd rfl hne,
    fun _ _ _ _ hne => absurd rfl hne⟩
  have hne : nr ≠ pgDir := by
    rintro rfl
    simp [Vm.reserved, hfree, mapPageReserved] at hnr
  simpa [Copying.start, Vm.reserved, update_of_ne hne] using hnr

/-- What a fork does. -/
structure Forked (ram : Nat) (alloc : Allocator ram) (s : Vm) (r : Int × Copying) : Prop where
  pageDir : r.2.vm.pageDir = s.pageDir
  reserved : ∀ nr, s.reserved nr = true → r.2.vm.reserved nr = true
  device : (∀ f i, ¬ Device ram (s.pageTable f i)) → ∀ f i, ¬ Device ram (r.2.vm.pageTable f i)
  bounds : InBounds ram r.2.vm ↔ InBounds ram s ∧
    ∀ p < userPages, Copied alloc s (p / ptrsPerPage) → ¬ Device ram (s.pte p)
  child : r.1 = 0 → WellFormed ram { r.2.vm with pageDir := r.2.child } ∧
    KernelTables ram { r.2.vm with pageDir := r.2.child }

/-- **`copy_page_tables`.** -/
theorem copyPageTables_forked (hs : WellFormed ram s) (hk : KernelTables ram s) :
    Forked ram alloc s (copyPageTables ram alloc s) := by
  unfold copyPageTables
  cases hget : alloc.get ptrsPerPage s with
  | none =>
    refine ⟨rfl, fun _ h => h, fun h => h, (and_iff_left ?_).symm, fun h0 => ?_⟩
    · rintro p - ⟨pgDir, c, hsome, -⟩
      rw [hget] at hsome
      cases hsome
    · exact absurd (show -Errno.enomem = 0 from h0) (by decide)
  | some pgDir =>
    obtain ⟨hok, hbounds⟩ := @Copying.Ok.copyTables ram alloc s _ 0 (.start hs hk hget) hs hk
      ptrsPerPage (by omega)
    -- the tables that are copied are those of the task
    have hpages : (InBounds ram (outcome (copyTables ram alloc ptrsPerPage 0
        (.start s pgDir))).vm ↔ InBounds ram s ∧
          ∀ p < userPages, Copied alloc s (p / ptrsPerPage) → ¬ Device ram (s.pte p)) := by
      refine hbounds.trans (and_congr Iff.rfl ?_)
      constructor
      · rintro hall p hp ⟨pgDir', c, hget', hc, hcopies⟩
        rw [hget] at hget'
        cases hget'
        have hdir := dir_lt hp
        have hsize : userDirs ≤ ptrsPerPage := by decide
        have hentry := hall _ (lt_of_lt_of_le hdir hsize) c hc (by rw [Nat.zero_add]; exact hcopies)
          (p % ptrsPerPage) (Nat.mod_lt _ (by decide))
        rw [Nat.zero_add] at hentry
        unfold Vm.pte
        split_ifs
        · exact hentry
        · rintro ⟨hpres, -⟩
          cases hpres
      · intro hall k hk' c hc hcopies j hj
        rw [Nat.zero_add] at hcopies ⊢
        have hokc := (@Copying.Ok.copyTables ram alloc s _ 0 (.start hs hk hget) hs hk k
          (by omega)).1
        rw [hc] at hokc
        have hne : s.pageDir k ≠ 0 := by
          rw [← hokc.pageDir]
          exact hcopies.1
        have huser : k < userDirs := by
          by_contra hle
          have hres := hokc.reserved _ ((hk k (not_lt.1 hle) hk').resolve_left hne).2
          have hnot := hcopies.2.1
          rw [show c.vm.pageDir = s.pageDir from hokc.pageDir] at hnot
          exact absurd (hres.symm.trans hnot) (by decide)
        have hdiv : (k * ptrsPerPage + j) / ptrsPerPage = k := by
          unfold ptrsPerPage at *
          omega
        have hmod : (k * ptrsPerPage + j) % ptrsPerPage = j := by
          unfold ptrsPerPage at *
          omega
        have hp : k * ptrsPerPage + j < userPages := by
          unfold userPages userDirs ptrsPerPage at *
          omega
        have hentry := hall _ hp (by rw [hdiv]; exact ⟨pgDir, c, hget, hc, hcopies⟩)
        unfold Vm.pte at hentry
        rw [hdiv, hmod, if_pos ((hs.table k huser).resolve_left hne).present] at hentry
        exact hentry
    simp only
    cases hc : copyTables ram alloc ptrsPerPage 0 (.start s pgDir) with
    | error c =>
      rw [hc] at hok hpages
      have hback := @freePageTables_quiet ram pgDir c
      refine ⟨hback.pageDir.trans hok.pageDir, fun nr hnr => hback.reserved nr (hok.reserved nr hnr),
        fun hclean f i hd => hok.clean hclean f i (hback.device f i hd), hback.bounds.trans hpages,
        fun h0 => absurd (show -Errno.enomem = 0 from h0) (by decide)⟩
    | ok c =>
      rw [hc] at hok hpages
      exact ⟨hok.pageDir, hok.reserved, hok.clean, hpages, fun _ =>
        ⟨⟨hok.table, hok.distinct⟩, hok.kernel⟩⟩

end Call

end LinuxEvocation.Mm.Paging
