import LinuxEvocation.Mm.Paging.Lookups

/-!
# Where `mem_map` is indexed: every run

The tasks of the machine unmap and map ranges of their pages, write to them and fork.  All of them
share `mem_map` and the pages their tables are in.

* `Tasks`, `Event`, `step` — the machine.
* `Event.Meets` — a step comes to an entry for a page of a device.
* `mem_map_in_bounds_iff` — when every number is one of a page of memory.
* `mem_map_in_bounds_of_no_device` — entries for devices are made by `remap_page_range` only.
-/

namespace LinuxEvocation.Mm.Paging

open Function (update update_of_ne update_self)
open Transition

/-! ## The machine -/

/-- The tasks, and what they share. -/
structure Tasks where
  live : Nat → Bool
  pageDir : Nat → Nat → Nat
  rss : Nat → Int
  pageTable : Nat → Nat → Nat
  log : List Effect
  memMap : Nat → Nat
  swap : Swap
  looked : List Nat

/-- What the task `t` works on.  No function here reads its vm areas. -/
def Tasks.view (s : Tasks) (t : Nat) : Vm where
  pageDir := s.pageDir t
  pageTable := s.pageTable
  rss := s.rss t
  mmap := []
  log := s.log
  memMap := s.memMap
  swap := s.swap
  looked := s.looked

/-- What the task `t` has left. -/
def Tasks.put (s : Tasks) (t : Nat) (vm : Vm) : Tasks where
  live := s.live
  pageDir := update s.pageDir t vm.pageDir
  rss := update s.rss t vm.rss
  pageTable := vm.pageTable
  log := vm.log
  memMap := vm.memMap
  swap := vm.swap
  looked := vm.looked

inductive Event where
  | range (t : Nat) (op : RangeOp) (start size : Nat)
  | writeFault (t : Nat) (user : Bool) (p : Nat)
  | fork (t child : Nat)

section Machine

variable (ram zeroPage : Nat) (bad : BadPages) (alloc : Tasks → Event → Allocator ram)

/-- One step.  The callers see to it that a range ends below `TASK_SIZE`. -/
def step (s : Tasks) (e : Event) : Option Tasks :=
  match e with
  | .range t op start size =>
    if s.live t ∧ start + size ≤ taskSize then
      some (s.put t (op.call ram zeroPage (alloc s e) (s.view t) start size).2)
    else none
  | .writeFault t user p =>
    if s.live t ∧ p < userPages then
      some (s.put t (doWpPage ram (alloc s e) bad user p (s.view t)).1)
    else none
  | .fork t child =>
    if s.live t ∧ ¬ s.live child then
      let r := copyPageTables ram (alloc s e) (s.view t)
      let s := s.put t r.2.vm
      some
        (if r.1 = 0 then
          { s with
            live := update s.live child true
            pageDir := update s.pageDir child r.2.child
            rss := update s.rss child (s.rss t) }
        else s)
    else none

/-- The step comes to an entry for a page of a device. -/
def Event.Meets (s : Tasks) (e : Event) : Prop :=
  match e with
  | .range t op start size => op.Meets zeroPage (alloc s e) (s.view t) start size
  | .writeFault t user p => Asks user ((s.view t).pte p) ∧ Device ram ((s.view t).pte p)
  | .fork t _ =>
    ∃ p < userPages, Copied (alloc s e) (s.view t) (p / ptrsPerPage) ∧
      Device ram ((s.view t).pte p)

/-- The step is a call of `remap_page_range` for a page of a device. -/
def Event.MapsDevice (e : Event) : Prop :=
  match e with
  | .range _ op _ size => op.MapsDevice ram (pages size)
  | _ => False

/-- What holds between the steps. -/
def Tasks.Ok (s : Tasks) : Prop := ∀ t, s.live t = true → Space ram zeroPage (s.view t)

end Machine

/-! ## One step -/

section Step

variable {ram zeroPage : Nat} {bad : BadPages} {alloc : Tasks → Event → Allocator ram}
  {s s' : Tasks} {t : Nat} {e : Event}

theorem put_view_self (vm : Vm) : ((s.put t vm).view t).pageDir = vm.pageDir := by
  simp [Tasks.put, Tasks.view]

theorem put_view_other (vm : Vm) {u : Nat} (h : u ≠ t) :
    ((s.put t vm).view u).pageDir = (s.view u).pageDir := by
  simp [Tasks.put, Tasks.view, update_of_ne h]

/-- What one task does leaves the others what they need. -/
theorem Tasks.Ok.put (h : s.Ok ram zeroPage) {vm : Vm} (hvm : Space ram zeroPage vm)
    (hres : ∀ nr, (s.view t).reserved nr = true → vm.reserved nr = true) :
    (s.put t vm).Ok ram zeroPage := by
  intro u hu
  by_cases hut : u = t
  · subst hut
    exact hvm.of_pageDir (put_view_self vm) fun _ h => h
  · exact (h u hu).of_pageDir (put_view_other vm hut) hres

/-- What a step does about devices. -/
structure StepLooks (ram zeroPage : Nat) (meets clean : Prop) (s s' : Tasks) : Prop where
  ok : s'.Ok ram zeroPage
  bounds : (∀ nr ∈ s'.looked, nr < ram) ↔ (∀ nr ∈ s.looked, nr < ram) ∧ ¬ meets
  device : clean → (∀ f i, ¬ Device ram (s.pageTable f i)) → ∀ f i, ¬ Device ram (s'.pageTable f i)

theorem Looks.put {meets clean : Prop} {vm : Vm} (h : s.Ok ram zeroPage)
    (hlooks : Looks ram zeroPage meets clean (s.view t) vm) :
    StepLooks ram zeroPage meets clean s (s.put t vm) :=
  ⟨h.put hlooks.space hlooks.reserved, hlooks.bounds, hlooks.device⟩

/-- **One step.** -/
theorem step_looks (hlow : zeroPage < highMemory ram) (hbad : bad.Low ram)
    (h : s.Ok ram zeroPage) (hstep : step ram zeroPage bad alloc s e = some s') :
    StepLooks ram zeroPage (e.Meets ram zeroPage alloc s) (¬ e.MapsDevice ram) s s' := by
  unfold step at hstep
  cases e with
  | range t op start size =>
    simp only [Option.ite_none_right_eq_some, Option.some.injEq] at hstep
    obtain ⟨⟨hlive, hend⟩, rfl⟩ := hstep
    exact (RangeOp.call_looks (h t hlive) hlow hend).put h
  | writeFault t user p =>
    simp only [Option.ite_none_right_eq_some, Option.some.injEq] at hstep
    obtain ⟨⟨hlive, hp⟩, rfl⟩ := hstep
    have hlooks := (@doWpPage_looks ram zeroPage (alloc s (.writeFault t user p)) bad user p _
      (h t hlive) hbad hp).put h
    exact ⟨hlooks.ok, hlooks.bounds, fun _ => hlooks.device trivial⟩
  | fork t child =>
    simp only [Option.ite_none_right_eq_some, Option.some.injEq] at hstep
    obtain ⟨⟨hlive, hchild⟩, rfl⟩ := hstep
    have hspace := h t hlive
    have hforked := @copyPageTables_forked ram (alloc s (.fork t child)) (s.view t)
      hspace.toWellFormed hspace.kernel
    generalize copyPageTables ram (alloc s (.fork t child)) (s.view t) = r at hforked
    have hput : (s.put t r.2.vm).Ok ram zeroPage :=
      h.put (hspace.of_pageDir hforked.pageDir hforked.reserved) hforked.reserved
    have hbounds : (∀ nr ∈ r.2.vm.looked, nr < ram) ↔ (∀ nr ∈ s.looked, nr < ram) ∧
        ¬ (Event.fork t child).Meets ram zeroPage alloc s := by
      refine hforked.bounds.trans (and_congr_right fun _ => ?_)
      simp only [Event.Meets, not_exists, not_and]
    split_ifs with h0
    · refine ⟨fun u hu => ?_, hbounds, fun _ => hforked.device⟩
      obtain ⟨hwf, hkernel⟩ := hforked.child h0
      by_cases huc : u = child
      · subst huc
        have hdir : ∀ vm : Vm, (update (s.put t vm).pageDir u r.2.child) u = r.2.child :=
          fun vm => update_self _ _ _
        have hzero : ZeroPage ram zeroPage r.2.vm :=
          ⟨hspace.zero.aligned, hforked.reserved _ hspace.zero.reserved⟩
        have hnew : Space ram zeroPage { r.2.vm with pageDir := r.2.child } :=
          ⟨hwf, hkernel, ⟨hzero.aligned, hzero.reserved⟩⟩
        exact hnew.of_pageDir (hdir r.2.vm) fun _ h => h
      · have hlive' : (s.put t r.2.vm).live u = true := by
          simpa [update_of_ne huc] using hu
        exact (hput u hlive').of_pageDir (update_of_ne huc _ _) fun _ h => h
    · exact ⟨hput, hbounds, fun _ => hforked.device⟩

end Step

/-! ## Every run -/

section Run

variable {ram zeroPage : Nat} {bad : BadPages} {alloc : Tasks → Event → Allocator ram}
  {s s' : Tasks} {es : List (Tasks × Event)}

/-- What the steps of a run do about devices. -/
theorem run_bounds (hlow : zeroPage < highMemory ram) (hbad : bad.Low ram)
    (hs : s.Ok ram zeroPage) (h : Trace (step ram zeroPage bad alloc) anyStep s es s') :
    (∀ nr ∈ s'.looked, nr < ram) ↔
      (∀ nr ∈ s.looked, nr < ram) ∧ ∀ x ∈ es, ¬ x.2.Meets ram zeroPage alloc x.1 := by
  induction h with
  | nil s => simp
  | cons _ hstep _ ih =>
    have hlooks := step_looks hlow hbad hs hstep
    rw [ih hlooks.ok, hlooks.bounds, List.forall_mem_cons, and_assoc]

/-- **`mem_map` is indexed with pages of memory only**, in every run no step of which comes to an
entry for a page of a device, and in no other. -/
theorem mem_map_in_bounds_iff (hlow : zeroPage < highMemory ram) (hbad : bad.Low ram)
    (hs : s.Ok ram zeroPage) (hlooked : s.looked = [])
    (h : Trace (step ram zeroPage bad alloc) anyStep s es s') :
    (∀ nr ∈ s'.looked, nr < ram) ↔ ∀ x ∈ es, ¬ x.2.Meets ram zeroPage alloc x.1 := by
  rw [run_bounds hlow hbad hs h, hlooked]
  exact and_iff_right fun nr hnr => absurd hnr List.not_mem_nil

/-- An entry for a page of a device is needed. -/
theorem Event.Meets.device {e : Event} (h : e.Meets ram zeroPage alloc s) :
    ∃ f i, Device ram (s.pageTable f i) := by
  have hpte : ∀ t p, Device ram ((s.view t).pte p) → ∃ f i, Device ram (s.pageTable f i) := by
    intro t p hd
    unfold Vm.pte at hd
    split_ifs at hd
    · exact ⟨_, _, hd⟩
    · cases hd.1
  cases e with
  | range t op start size =>
    obtain ⟨-, -, i, -, -, hd⟩ := h
    exact hpte t _ hd
  | writeFault t user p => exact hpte t p h.2
  | fork t child =>
    obtain ⟨p, -, -, hd⟩ := h
    exact hpte t p hd

/-- **Entries for devices are made by `remap_page_range` only**: without them, and without such
calls, `mem_map` is indexed with pages of memory. -/
theorem mem_map_in_bounds_of_no_device (hlow : zeroPage < highMemory ram) (hbad : bad.Low ram)
    (hs : s.Ok ram zeroPage) (hlooked : s.looked = [])
    (hclean : ∀ f i, ¬ Device ram (s.pageTable f i))
    (h : Trace (step ram zeroPage bad alloc) anyStep s es s')
    (hes : ∀ x ∈ es, ¬ x.2.MapsDevice ram) : ∀ nr ∈ s'.looked, nr < ram := by
  rw [run_bounds hlow hbad hs h, hlooked]
  refine ⟨fun nr hnr => absurd hnr List.not_mem_nil, ?_⟩
  clear hlooked
  induction h with
  | nil s => simp
  | cons _ hstep _ ih =>
    rw [List.forall_mem_cons] at hes ⊢
    have hlooks := step_looks hlow hbad hs hstep
    refine ⟨fun hmeets => ?_, ih hlooks.ok (hlooks.device hes.1 hclean) hes.2⟩
    obtain ⟨f, i, hd⟩ := hmeets.device
    exact hclean f i hd

end Run

/-! ## A page of a device -/

/-- One task on a machine of 16 pages, with one entry at `SHM_RANGE_START`. -/
def oneTask (word : Nat) : Tasks where
  live t := t = 0
  pageDir _ := (oneEntry word).pageDir
  rss _ := 1
  pageTable := (oneEntry word).pageTable
  log := []
  memMap := (oneEntry word).memMap
  swap := ⟨[], 0⟩
  looked := []

theorem oneTask_ok (word : Nat) : (oneTask word).Ok 16 0 := by
  intro t _
  refine ⟨⟨(oneEntry_wellFormed word).table, (oneEntry_wellFormed word).distinct⟩,
    fun d hd _ => .inl ?_, ⟨rfl, rfl⟩⟩
  have hne : d ≠ 256 := by
    unfold userDirs at hd
    omega
  exact if_neg hne

/-- The step without memory for more. -/
def oneStep : Tasks → Event → Option Tasks := step 16 0 ⟨0, 0x1000⟩ fun _ _ => noPages 16

/-- A page of memory is unmapped. -/
theorem mem_map_in_bounds_iff_page : ∃ s',
    Trace oneStep anyStep (oneTask 0x6027)
      [(oneTask 0x6027, .range 0 .unmap 0x40000000 0x1000)] s' ∧ ∀ nr ∈ s'.looked, nr < 16 := by
  have hrun : Trace oneStep anyStep (oneTask 0x6027)
      [(oneTask 0x6027, .range 0 .unmap 0x40000000 0x1000)] _ := .cons trivial rfl (.nil _)
  refine ⟨_, hrun, (mem_map_in_bounds_iff (by decide) ⟨rfl, by decide⟩ (oneTask_ok 0x6027) rfl
    hrun).2 fun x hx => ?_⟩
  rw [List.mem_singleton] at hx
  subst hx
  rintro ⟨-, -, i, hi, -, hd⟩
  have hi0 : i = 0 := by
    have hn : pages 0x1000 = 1 := rfl
    omega
  subst hi0
  exact absurd hd (by decide +kernel)

theorem mem_map_in_bounds_of_no_device_page : ∃ s',
    Trace oneStep anyStep (oneTask 0x6027)
      [(oneTask 0x6027, .range 0 .unmap 0x40000000 0x1000)] s' ∧ ∀ nr ∈ s'.looked, nr < 16 := by
  have hrun : Trace oneStep anyStep (oneTask 0x6027)
      [(oneTask 0x6027, .range 0 .unmap 0x40000000 0x1000)] _ := .cons trivial rfl (.nil _)
  refine ⟨_, hrun, mem_map_in_bounds_of_no_device (by decide) ⟨rfl, by decide⟩ (oneTask_ok 0x6027)
    rfl (fun f i hd => ?_) hrun fun x hx => ?_⟩
  · have hlt : highMemory 16 ≤ if f = 5 ∧ i = 0 then 0x6027 else 0 := hd.2
    split_ifs at hlt <;> exact absurd hlt (by decide)
  · rw [List.mem_singleton.1 hx]
    exact id

/-- A page of a device is mapped and unmapped. -/
theorem unmap_page_range_looks_behind_mem_map : ∃ es s',
    Trace oneStep anyStep (oneTask 0) es s' ∧ (oneTask 0).Ok 16 0 ∧
      ¬ ∀ nr ∈ s'.looked, nr < 16 := by
  have hrun : ∃ s', execOkFrom oneStep (fun _ _ => true) (oneTask 0)
      [.range 0 (.remap 0xa0000000 0x27) 0x40000000 0x1000, .range 0 .unmap 0x40000000 0x1000] =
        some s' ∧ 0xa0000 ∈ s'.looked := by
    have hsome : ((execOkFrom oneStep (fun _ _ => true) (oneTask 0)
      [.range 0 (.remap 0xa0000000 0x27) 0x40000000 0x1000,
        .range 0 .unmap 0x40000000 0x1000]).map Tasks.looked) = some [0xa0000] := by
      decide +kernel
    obtain ⟨s', hs', hlooked⟩ := Option.map_eq_some_iff.1 hsome
    exact ⟨s', hs', by rw [hlooked]; simp⟩
  obtain ⟨s', hexec, hmem⟩ := hrun
  obtain ⟨es, -, htrace⟩ := Trace.of_execOkFrom (fun _ _ _ => trivial) hexec
  exact ⟨es, s', htrace, oneTask_ok 0, fun hall => absurd (hall _ hmem) (by decide)⟩

end LinuxEvocation.Mm.Paging
