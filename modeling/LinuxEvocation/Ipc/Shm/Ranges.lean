import LinuxEvocation.Ipc.Shm.Basic

/-!
# Do the attaches of a task overlap?

Without `SHM_REMAP` an attach is refused as soon as one page of its range has an entry, and
every page of an attached range has one.  With `SHM_REMAP` the entries do not count, and
`shmat` compares the ranges instead; but it looks only at the two ends of the new range, so that
a range which covers a whole older one goes through.

* `AttachInv` — the invariant of a task.
* `ranges_disjoint_of_reach` — the attaches do not overlap as long as no attach with `SHM_REMAP`
  covers a whole older one.
* `ranges_overlap` — a run in which one does.
-/

namespace LinuxEvocation.Ipc.Shm

open Function (update_eq_self update_of_ne update_self)
open LinuxEvocation.Mm Transition

/-! ## The two loops of `shm_map` -/

theorem mapRange_apply (n tmp sgn : Nat) (pte : Nat → Nat) (p : Nat) :
    mapRange n tmp sgn pte p =
      if tmp ≤ p ∧ p < tmp + n then sgn + (p - tmp) * 2 ^ shmIdxShift else pte p := by
  induction n generalizing tmp sgn pte with
  | zero =>
    rw [mapRange, if_neg (by omega)]
  | succ n ih =>
    rw [mapRange, ih]
    by_cases hlater : tmp + 1 ≤ p ∧ p < tmp + 1 + n
    · have hsub : p - tmp = p - (tmp + 1) + 1 := by omega
      rw [if_pos hlater, if_pos (by omega), hsub]
      ring
    · rw [if_neg hlater]
      by_cases hp : p = tmp
      · subst hp
        rw [update_self, if_pos (by omega)]
        simp
      · rw [update_of_ne hp, if_neg (by omega)]

theorem shmSgn_pos (d : ShmDesc) : 0 < d.shmSgn := by
  unfold ShmDesc.shmSgn
  omega

section CheckRange

variable (remap : Bool) (alloc : Nat → Bool) (pte : Nat → Nat) (last : Nat)

theorem checkRange_mono (fuel tmp : Nat) {pageTable : Nat → Bool} {d : Nat}
    (h : pageTable d = true) :
    (checkRange remap alloc pte last fuel tmp pageTable).1 d = true := by
  induction fuel generalizing tmp pageTable with
  | zero => exact h
  | succ fuel ih =>
    rw [checkRange]
    split
    · split
      · split
        · exact h
        · exact ih _ h
      · split
        · apply ih
          by_cases hd : d = tmp / ptrsPerPage
          · rw [hd, update_self]
          · rw [update_of_ne hd, h]
        · exact h
    · exact h

variable {remap alloc pte last}

theorem checkRange_absent {fuel tmp : Nat} {pageTable pageTable' : Nat → Bool} {r : Option Int}
    (h : checkRange remap alloc pte last fuel tmp pageTable = (pageTable', r)) {d : Nat}
    (hd : pageTable' d = false) : pageTable d = false := by
  by_contra hne
  have hmono := checkRange_mono remap alloc pte last fuel tmp (Bool.eq_true_of_not_eq_false hne)
  rw [h] at hmono
  exact absurd hmono (by simp [hd])

/-- **A check that passes**: every page of the range has a page table, and without `SHM_REMAP`
none has an entry. -/
theorem checkRange_spec {fuel tmp : Nat} {pageTable pageTable' : Nat → Bool}
    (hfuel : last - tmp ≤ fuel)
    (hempty : ∀ p, pageTable (p / ptrsPerPage) = false → pte p = 0)
    (h : checkRange remap alloc pte last fuel tmp pageTable = (pageTable', none)) :
    ∀ p, tmp ≤ p → p < last →
      pageTable' (p / ptrsPerPage) = true ∧ (remap = false → pte p = 0) := by
  induction fuel generalizing tmp pageTable with
  | zero =>
    intro p h1 h2
    omega
  | succ fuel ih =>
    intro p h1 h2
    rw [checkRange, if_pos (by omega)] at h
    by_cases htable : pageTable (tmp / ptrsPerPage) = true
    · rw [if_pos htable] at h
      by_cases hbad : pte tmp ≠ 0 ∧ remap = false
      · rw [if_pos hbad] at h
        exact absurd (congrArg Prod.snd h) (by simp)
      · rw [if_neg hbad] at h
        by_cases hp : p = tmp
        · subst hp
          refine ⟨?_, fun hr => ?_⟩
          · have := checkRange_mono remap alloc pte last fuel (p + 1) htable
            rwa [h] at this
          · by_contra hne
            exact hbad ⟨hne, hr⟩
        · exact ih (by omega) hempty h p (by omega) h2
    · rw [if_neg htable] at h
      by_cases halloc : alloc (tmp / ptrsPerPage) = true
      · rw [if_pos halloc] at h
        by_cases hp : p / ptrsPerPage = tmp / ptrsPerPage
        · refine ⟨?_, fun _ => ?_⟩
          · have hnew : Function.update pageTable (tmp / ptrsPerPage) true (p / ptrsPerPage) =
                true := by rw [hp, update_self]
            have := checkRange_mono remap alloc pte last fuel
              ((tmp / ptrsPerPage + 1) * ptrsPerPage) hnew
            rwa [h] at this
          · apply hempty
            rw [hp]
            simpa using htable
        · have hnext : (tmp / ptrsPerPage + 1) * ptrsPerPage ≤ p := by
            unfold ptrsPerPage at hp ⊢
            omega
          refine ih ?_ (fun q hq => hempty q ?_) h p hnext h2
          · unfold ptrsPerPage
            omega
          · by_cases hq' : q / ptrsPerPage = tmp / ptrsPerPage
            · rw [hq', update_self] at hq
              exact absurd hq (by simp)
            · rwa [update_of_ne hq'] at hq
      · rw [if_neg halloc] at h
        exact absurd (congrArg Prod.snd h) (by simp)

end CheckRange

/-! ## The invariant of a task -/

/-- Two ranges have no address in common. -/
def Apart (d d' : ShmDesc) : Prop := d.stop ≤ d'.start ∨ d'.stop ≤ d.start

theorem Apart.symm {d d' : ShmDesc} (h : Apart d d') : Apart d' d := Or.symm h

instance : Std.Symm Apart := ⟨fun _ _ => Apart.symm⟩

/-- A range of whole pages below `TASK_SIZE`. -/
structure WellPlaced (d : ShmDesc) : Prop where
  start_mod : d.start % pageSize = 0
  stop_mod : d.stop % pageSize = 0
  start_lt : d.start < d.stop
  stop_le : d.stop ≤ taskSize

/-- The descriptor has the size of its segment. -/
def Sized (seg : Nat → Option Segment) (d : ShmDesc) : Prop :=
  ∀ sg, seg d.id = some sg → d.stop = d.start + sg.npages * pageSize

/-- The invariant of a task, over the segments there are. -/
structure AttachInv (seg : Nat → Option Segment) (task : Task) : Prop where
  placed : ∀ d ∈ task.shm, WellPlaced d
  sized : ∀ d ∈ task.shm, Sized seg d
  apart : task.shm.Pairwise Apart
  marked : ∀ d ∈ task.shm, ∀ p, d.Covers p → task.pte p ≠ 0
  table : ∀ p, task.pageTable (p / ptrsPerPage) = false → task.pte p = 0

/-- The segments are still there, of the same size, or gone. -/
def Fewer (seg seg' : Nat → Option Segment) : Prop :=
  ∀ id sg', seg' id = some sg' → ∃ sg, seg id = some sg ∧ sg'.segsz = sg.segsz

theorem Fewer.refl (seg : Nat → Option Segment) : Fewer seg seg := fun _ sg h => ⟨sg, h, rfl⟩

theorem Fewer.trans {seg₁ seg₂ seg₃ : Nat → Option Segment} (h : Fewer seg₁ seg₂)
    (h' : Fewer seg₂ seg₃) : Fewer seg₁ seg₃ := by
  intro id sg hsg
  obtain ⟨sg₂, h₂, heq₂⟩ := h' id sg hsg
  obtain ⟨sg₁, h₁, heq₁⟩ := h id sg₂ h₂
  exact ⟨sg₁, h₁, heq₂.trans heq₁⟩

theorem Fewer.update {seg : Nat → Option Segment} {id : Nat} {sg sg' : Segment}
    (h : seg id = some sg) (hsz : sg'.segsz = sg.segsz) :
    Fewer seg (Function.update seg id (some sg')) := by
  intro id' sg'' hsg
  by_cases hid : id' = id
  · subst hid
    rw [update_self] at hsg
    cases hsg
    exact ⟨sg, h, hsz⟩
  · rw [update_of_ne hid] at hsg
    exact ⟨sg'', hsg, rfl⟩

@[simp]
theorem killseg_task (id : Nat) (s : State) : (killseg id s).task = s.task := by
  unfold killseg
  split <;> rfl

@[simp]
theorem killseg_seg (id : Nat) (s : State) :
    (killseg id s).seg = Function.update s.seg id none := by
  unfold killseg
  split
  · rename_i hnone
    rw [← hnone, update_eq_self]
  · rfl

theorem fewer_killseg (id : Nat) (s : State) : Fewer s.seg (killseg id s).seg := by
  intro id' sg hsg
  rw [killseg_seg] at hsg
  by_cases hid : id' = id
  · subst hid
    exact absurd hsg (by simp)
  · rw [update_of_ne hid] at hsg
    exact ⟨sg, hsg, rfl⟩

theorem Sized.of_fewer {seg seg' : Nat → Option Segment} {d : ShmDesc} (h : Sized seg d)
    (hfewer : Fewer seg seg') : Sized seg' d := by
  intro sg' hsg'
  obtain ⟨sg, hsg, hsz⟩ := hfewer d.id sg' hsg'
  rw [h sg hsg, Segment.npages, Segment.npages, hsz]

namespace AttachInv

variable {seg seg' : Nat → Option Segment} {task : Task}

theorem of_fewer (h : AttachInv seg task) (hfewer : Fewer seg seg') : AttachInv seg' task :=
  ⟨h.placed, fun d hd => (h.sized d hd).of_fewer hfewer, h.apart, h.marked, h.table⟩

/-- A task that has attached nothing and whose page tables are in order. -/
theorem of_nil (hshm : task.shm = [])
    (htable : ∀ p, task.pageTable (p / ptrsPerPage) = false → task.pte p = 0) :
    AttachInv seg task := by
  refine ⟨?_, ?_, ?_, ?_, htable⟩ <;> rw [hshm] <;> simp

end AttachInv

/-! ## The ends of the ranges -/

theorem Segment.npages_bounds (seg : Segment) :
    0 < seg.npages ∧ seg.npages ≤ 32768 ∧ seg.segsz ≤ seg.npages * pageSize ∧
      seg.npages * pageSize < seg.segsz + pageSize := by
  have h1 := seg.segsz_pos
  have h2 := seg.segsz_le
  unfold Segment.npages shmMax pageSize at *
  omega

/-- **What the test of `SHM_REMAP` excludes**: a range whose ends lie in no older one is apart
from it, unless it covers it. -/
theorem apart_of_not_hits {seg : Segment} {d d' : ShmDesc} (hd : WellPlaced d)
    (hstop : d'.stop = d'.start + seg.npages * pageSize) (haddr : d'.start % pageSize = 0)
    (hhits : hits d'.start seg.segsz d = false)
    (hcover : ¬ (d'.start < d.start ∧ d.stop ≤ d'.start + seg.segsz)) : Apart d' d := by
  have hpages := seg.npages_bounds
  have hstart := hd.start_mod
  simp only [hits, Bool.or_eq_false_iff, Bool.and_eq_false_iff, decide_eq_false_iff_not] at hhits
  unfold Apart
  by_cases hbehind : d.stop ≤ d'.start
  · exact .inr hbehind
  · left
    -- the new range starts in front of the old one and ends there
    have hfront : d'.start + seg.segsz < d.start := by omega
    rw [hstop]
    unfold pageSize at *
    omega

/-- Two ranges of pages are apart when no page is in both. -/
theorem apart_of_pages {d d' : ShmDesc} (hd : WellPlaced d) (hd' : WellPlaced d')
    (h : ∀ p, d.Covers p → ¬ d'.Covers p) : Apart d d' := by
  have h1 := hd.start_mod
  have h2 := hd.stop_mod
  have h3 := hd'.start_mod
  have h4 := hd'.stop_mod
  have h5 := hd.start_lt
  have h6 := hd'.start_lt
  unfold ShmDesc.Covers pageSize at *
  by_contra hover
  simp only [Apart, not_or, not_le] at hover
  refine h (max (d.start / 4096) (d'.start / 4096)) ?_ ?_ <;> omega

/-! ## Attaching -/

section Attach

variable {seg : Nat → Option Segment} {task task' : Task} {d : ShmDesc} {remap : Bool}
  {alloc : Nat → Bool} {err : Int}

/-- A failing `shm_map` leaves only page tables behind. -/
theorem AttachInv.shmMap_error (h : AttachInv seg task)
    (hmap : shmMap d remap alloc task = (task', some err)) :
    AttachInv seg task' ∧ task'.shm = task.shm := by
  unfold shmMap at hmap
  dsimp only at hmap
  split at hmap
  · rename_i pageTable e hcheck
    simp only [Prod.mk.injEq] at hmap
    obtain ⟨rfl, -⟩ := hmap
    refine ⟨⟨h.placed, h.sized, h.apart, h.marked, fun p hp => h.table p ?_⟩, rfl⟩
    exact checkRange_absent hcheck hp
  · exact absurd (congrArg Prod.snd hmap) (by simp)

/-- **An attach that succeeds** writes an entry for every page of its range. -/
theorem AttachInv.shmMap_ok (h : AttachInv seg task) (hplaced : WellPlaced d)
    (hsized : Sized seg d) (hremap : remap = true → ∀ d' ∈ task.shm, Apart d d')
    (hmap : shmMap d remap alloc task = (task', none)) :
    AttachInv seg { task' with shm := d :: task'.shm } := by
  unfold shmMap at hmap
  dsimp only at hmap
  split at hmap
  · exact absurd (congrArg Prod.snd hmap) (by simp)
  rename_i pageTable hcheck
  simp only [Prod.mk.injEq, and_true] at hmap
  obtain rfl := hmap
  have hspec := checkRange_spec le_rfl h.table hcheck
  have hle : d.start / pageSize ≤ d.stop / pageSize := Nat.div_le_div_right hplaced.start_lt.le
  have hpte : ∀ p, mapRange (d.stop / pageSize - d.start / pageSize) (d.start / pageSize) d.shmSgn
      task.pte p = 0 → task.pte p = 0 ∧ ¬ d.Covers p := by
    intro p hp
    have hsgn := shmSgn_pos d
    rw [mapRange_apply] at hp
    by_cases hin : d.start / pageSize ≤ p ∧
        p < d.start / pageSize + (d.stop / pageSize - d.start / pageSize)
    · rw [if_pos hin] at hp
      omega
    · rw [if_neg hin] at hp
      refine ⟨hp, fun hcov => hin ?_⟩
      have := hcov.2
      exact ⟨hcov.1, by omega⟩
  have hapart : ∀ d' ∈ task.shm, Apart d d' := by
    intro d' hd'
    by_cases hr : remap = true
    · exact hremap hr d' hd'
    · refine apart_of_pages hplaced (h.placed d' hd') fun p hp hp' => ?_
      exact h.marked d' hd' p hp' ((hspec p hp.1 hp.2).2 (by simpa using hr))
  refine ⟨?_, ?_, ?_, ?_, fun p hp => ?_⟩
  · simpa using ⟨hplaced, h.placed⟩
  · simpa using ⟨hsized, h.sized⟩
  · exact List.pairwise_cons.2 ⟨hapart, h.apart⟩
  · intro d' hd' p hp hzero
    obtain ⟨hold, hnot⟩ := hpte p hzero
    rcases List.mem_cons.1 hd' with rfl | hd'
    · exact hnot hp
    · exact h.marked d' hd' p hp hold
  · replace hp : pageTable (p / ptrsPerPage) = false := hp
    have hold : task.pageTable (p / ptrsPerPage) = false := checkRange_absent hcheck hp
    have hout : ¬ d.Covers p := by
      intro hcov
      have := (hspec p hcov.1 hcov.2).1
      exact absurd hp (by simp [this])
    show mapRange _ _ _ _ p = 0
    rw [mapRange_apply, if_neg, h.table p hold]
    intro hin
    exact hout ⟨hin.1, by omega⟩

end Attach

/-- The invariant of all tasks. -/
def Inv (s : State) : Prop := ∀ t task, s.task t = some task → AttachInv s.seg task

namespace Inv

variable {s s' : State}

theorem of_fewer (h : Inv s) (htask : s'.task = s.task) (hfewer : Fewer s.seg s'.seg) :
    Inv s' := by
  intro t task ht
  rw [htask] at ht
  exact (h t task ht).of_fewer hfewer

theorem setTask (h : Inv s) (t : Nat) {task : Task} (htask : AttachInv s.seg task) :
    Inv (s.setTask t task) := by
  intro t' task' ht'
  by_cases ht : t' = t
  · subst ht
    rw [show (s.setTask t' task).task t' = some task from update_self _ _ _] at ht'
    cases ht'
    exact htask
  · rw [show (s.setTask t task).task t' = s.task t' from update_of_ne ht _ _] at ht'
    exact h t' task' ht'

theorem setSeg (h : Inv s) {id : Nat} {seg : Segment} (hseg : s.seg id = some seg)
    (seg' : Segment) (hsz : seg'.segsz = seg.segsz) : Inv (s.setSeg id seg') :=
  h.of_fewer rfl (Fewer.update hseg hsz)

theorem kill (h : Inv s) (id : Nat) : Inv (killseg id s) :=
  h.of_fewer (killseg_task id s) (fewer_killseg id s)

end Inv

/-! ## `shmat` -/

theorem attachAddr_mod {task : Task} {seg : Segment} {a : ShmatArgs} {addr : Nat}
    (h : attachAddr task seg a = .ok addr) : addr % pageSize = 0 := by
  unfold attachAddr at h
  split at h
  · split at h
    · cases h
    · cases h
      exact pageMask_mod _
  · split at h
    · split at h
      · cases h
        exact pageMask_mod _
      · cases h
    · rename_i hmod
      cases h
      simpa using hmod

/-- **The attach that goes wrong**: with `SHM_REMAP`, to a range that covers the whole range of an
older attach. -/
def RemapCovers (s : State) (t : Nat) (a : ShmatArgs) : Prop :=
  a.remap = true ∧ ∃ task seg addr, s.task t = some task ∧
    s.seg (a.shmid.toNat % mni) = some seg ∧ attachAddr task seg a = .ok addr ∧
    ∃ d ∈ task.shm, addr < d.start ∧ d.stop ≤ addr + seg.segsz

section Shmat

variable {s : State} {t : Nat} {task : Task} {a : ShmatArgs}

theorem Inv.attach (h : Inv s) (ht : s.task t = some task) {id : Nat} {seg : Segment} {addr : Nat}
    (hseg : s.seg id = some seg)
    (hplaced : addr % pageSize = 0 ∧ addr + seg.npages * pageSize ≤ taskSize)
    (hapart : a.remap = true → ∀ d ∈ task.shm, ∀ r ro,
      Apart ⟨r, id, ro, addr, addr + seg.npages * pageSize, t⟩ d) :
    Inv (attach t task id seg addr a s).1 := by
  have htask := h t task ht
  have hpages := seg.npages_bounds
  unfold Shm.attach
  dsimp only
  cases hmap : shmMap ⟨s.fresh, id, a.readOnly, addr, addr + seg.npages * pageSize, t⟩ a.remap
    a.alloc task with
  | mk task' r =>
    cases r with
    | some err =>
      have hset : Inv ((s.setTask t task').setSeg id
          { seg with nattch := short (short (seg.nattch + 1) - 1) }) :=
        (h.setTask t (htask.shmMap_error hmap).1).setSeg hseg _ rfl
      dsimp only
      split
      · exact hset.kill id
      · exact hset
    | none =>
      have hnew : WellPlaced ⟨s.fresh, id, a.readOnly, addr, addr + seg.npages * pageSize, t⟩ := by
        refine ⟨hplaced.1, ?_, ?_, hplaced.2⟩
        · show (addr + seg.npages * pageSize) % pageSize = 0
          rw [Nat.add_mul_mod_self_right]
          exact hplaced.1
        · show addr < addr + seg.npages * pageSize
          unfold pageSize
          omega
      have hsized : Sized s.seg
          ⟨s.fresh, id, a.readOnly, addr, addr + seg.npages * pageSize, t⟩ := by
        intro sg hsg
        rw [show s.seg id = some sg from hsg] at hseg
        cases hseg
        rfl
      have hok := htask.shmMap_ok hnew hsized (fun hr d hd => hapart hr d hd _ _) hmap
      have hset := (h.setTask t hok).setSeg hseg { seg with
          nattch := short (seg.nattch + 1)
          attaches := ⟨s.fresh, id, a.readOnly, addr, addr + seg.npages * pageSize, t⟩ ::
            seg.attaches } rfl
      exact hset.of_fewer rfl (Fewer.refl _)

/-- `shmat` keeps the invariant, whatever it returns, unless its range covers an older one. -/
theorem Inv.sysShmat (h : Inv s) (ht : s.task t = some task) (hcover : ¬ RemapCovers s t a) :
    Inv (sysShmat t task a s).1 := by
  unfold Shm.sysShmat
  split
  · exact h
  split
  · exact h
  rename_i seg hseg
  split
  · exact h
  rename_i addr haddr
  split
  · exact h
  rename_i hstack
  split
  · exact h
  rename_i htest
  split
  · exact h
  split
  · exact h
  split
  · have hmod := attachAddr_mod haddr
    have hpages := seg.npages_bounds
    have htop := task.startStack.2
    refine h.attach ht hseg ⟨hmod, ?_⟩ ?_
    · unfold pageSize taskSize at *
      omega
    · intro hr d hd r ro
      have hhits : hits addr seg.segsz d = false := by
        by_contra hne
        exact htest ⟨hr, List.any_eq_true.2 ⟨d, hd, by simpa using hne⟩⟩
      refine apart_of_not_hits ((h t task ht).placed d hd) rfl hmod hhits fun hc => ?_
      exact hcover ⟨hr, task, seg, addr, ht, hseg, haddr, d, hd, hc⟩
  · exact h

end Shmat

/-! ## Detaching -/

namespace AttachInv

variable {seg : Nat → Option Segment} {task : Task} {d : ShmDesc}

theorem nodup (h : AttachInv seg task) : task.shm.Nodup := by
  refine List.Pairwise.imp_of_mem ?_ h.apart
  rintro d d' hd - hap rfl
  have := (h.placed d hd).start_lt
  unfold Apart at hap
  omega

theorem apart_of_ne (h : AttachInv seg task) {d d' : ShmDesc} (hd : d ∈ task.shm)
    (hd' : d' ∈ task.shm) (hne : d ≠ d') : Apart d d' :=
  h.apart.forall hd hd' hne

/-- The range of a detached descriptor is unmapped, and no other. -/
theorem detach (h : AttachInv seg task) (hd : d ∈ task.shm) {sg : Segment}
    (hsg : seg d.id = some sg) :
    AttachInv seg (unmapPageRange d.start sg.segsz { task with shm := task.shm.erase d }) := by
  have hmem : ∀ d' ∈ task.shm.erase d, d' ∈ task.shm ∧ d ≠ d' := by
    intro d' hd'
    have := h.nodup.mem_erase_iff.1 hd'
    exact ⟨this.2, this.1.symm⟩
  have hlast : d.start / pageSize + (sg.segsz + pageSize - 1) / pageSize = d.stop / pageSize := by
    rw [h.sized d hd sg hsg, Nat.add_mul_div_right _ _ (by decide)]
    rfl
  refine ⟨fun d' hd' => h.placed d' (hmem d' hd').1, fun d' hd' => h.sized d' (hmem d' hd').1,
    h.apart.sublist List.erase_sublist, fun d' hd' p hp => ?_, fun p hp => ?_⟩
  · obtain ⟨hd'', hne⟩ := hmem d' hd'
    have hap := h.apart_of_ne hd hd'' hne
    have h1 := (h.placed d hd).stop_mod
    have h2 := (h.placed d' hd'').stop_mod
    have hnot : ¬ (d.start / pageSize ≤ p ∧ p < d.stop / pageSize) := by
      unfold ShmDesc.Covers Apart pageSize at *
      omega
    simp only [unmapPageRange, hlast, hnot, if_false]
    exact h.marked d' hd'' p hp
  · simp only [unmapPageRange, hlast] at hp ⊢
    by_cases hin : d.start / pageSize ≤ p ∧ p < d.stop / pageSize
    · rw [if_pos hin]
    · rw [if_neg hin]
      apply h.table
      have hpart : ¬ (d.start / pageSize ≤ p / ptrsPerPage * ptrsPerPage ∧
          (p / ptrsPerPage + 1) * ptrsPerPage ≤ d.stop / pageSize) := by
        unfold ptrsPerPage
        omega
      simpa [hpart] using hp

end AttachInv

section Detach

variable {s s' : State} {t : Nat} {task : Task} {d : ShmDesc}

theorem Inv.detach (h : Inv s) (ht : s.task t = some task) (hd : d ∈ task.shm)
    (hdetach : detach t task d s = some s') : Inv s' := by
  unfold Shm.detach at hdetach
  split at hdetach
  · cases hdetach
  rename_i seg hseg
  simp only [Option.some.injEq] at hdetach
  subst hdetach
  have hset := (h.setTask t ((h t task ht).detach hd hseg)).setSeg hseg
    { seg with attaches := seg.attaches.erase d, nattch := short (seg.nattch - 1) } rfl
  split
  · exact hset.kill d.id
  · exact hset

theorem Inv.sysShmdt (h : Inv s) (ht : s.task t = some task) {shmaddr : Nat}
    {r : Except Int Nat} (hdt : sysShmdt t task shmaddr s = some (s', r)) : Inv s' := by
  unfold Shm.sysShmdt at hdt
  split at hdt
  · cases hdt
    exact h
  · rename_i d hfind
    obtain ⟨s'', hdetach, heq⟩ := Option.map_eq_some_iff.1 hdt
    cases heq
    exact h.detach ht (List.mem_of_find?_eq_some hfind) hdetach

theorem Inv.shmExit (h : Inv s) {n : Nat} (hexit : shmExit t n s = some s') : Inv s' := by
  induction n generalizing s with
  | zero =>
    cases hexit
    exact h
  | succ n ih =>
    rw [Shm.shmExit] at hexit
    split at hexit
    · cases hexit
    rename_i task ht
    split at hexit
    · cases hexit
      exact h
    · rename_i d l hl
      obtain ⟨s'', hdetach, hrest⟩ := Option.bind_eq_some_iff.1 hexit
      exact ih (h.detach ht (by simp [hl]) hdetach) hrest

end Detach

/-! ## `fork` -/

theorem mem_copyDescs {c fresh : Nat} {l acc : List ShmDesc} {x : ShmDesc}
    (hx : x ∈ copyDescs c fresh l acc) :
    x ∈ acc ∨ ∃ d ∈ l, ∃ r, x = { d with ref := r, task := c } := by
  induction l generalizing fresh acc with
  | nil => exact .inl hx
  | cons d l ih =>
    rcases ih hx with hacc | ⟨d', hd', r, rfl⟩
    · rcases List.mem_cons.1 hacc with rfl | hacc
      · exact .inr ⟨d, List.mem_cons_self, fresh, rfl⟩
      · exact .inl hacc
    · exact .inr ⟨d', List.mem_cons_of_mem d hd', r, rfl⟩

theorem copyDescs_apart {c fresh : Nat} {l acc : List ShmDesc} (hl : l.Pairwise Apart)
    (hacc : acc.Pairwise Apart) (hcross : ∀ a ∈ acc, ∀ d ∈ l, Apart a d) :
    (copyDescs c fresh l acc).Pairwise Apart := by
  induction l generalizing fresh acc with
  | nil => exact hacc
  | cons d l ih =>
    rw [List.pairwise_cons] at hl
    refine ih hl.2 (List.pairwise_cons.2 ⟨fun a ha => ?_, hacc⟩) fun a ha d' hd' => ?_
    · exact (hcross a ha d List.mem_cons_self).symm
    · rcases List.mem_cons.1 ha with rfl | ha
      · exact hl.1 d' hd'
      · exact hcross a ha d' (List.mem_cons_of_mem d hd')

theorem attachAll_frame (l : List ShmDesc) (s : State) :
    (attachAll l s).1.task = s.task ∧ Fewer s.seg (attachAll l s).1.seg := by
  induction l generalizing s with
  | nil => exact ⟨rfl, Fewer.refl _⟩
  | cons d l ih =>
    rw [attachAll]
    split
    · exact ⟨rfl, Fewer.refl _⟩
    · rename_i seg hseg
      obtain ⟨htask, hfewer⟩ := ih (s.setSeg d.id
        { seg with attaches := d :: seg.attaches, nattch := short (seg.nattch + 1) })
      refine ⟨htask, Fewer.trans ?_ hfewer⟩
      exact Fewer.update hseg rfl

/-- The child has the ranges of its parent, and the same entries. -/
theorem AttachInv.child {seg : Nat → Option Segment} {task : Task} (h : AttachInv seg task)
    (c fresh : Nat) : AttachInv seg { task with shm := copyDescs c fresh task.shm [] } := by
  have hmem : ∀ x ∈ copyDescs c fresh task.shm [],
      ∃ d ∈ task.shm, ∃ r, x = { d with ref := r, task := c } := by
    intro x hx
    exact (mem_copyDescs hx).resolve_left (by simp)
  refine ⟨fun x hx => ?_, fun x hx => ?_, ?_, fun x hx p hp => ?_, h.table⟩
  · obtain ⟨d, hd, r, rfl⟩ := hmem x hx
    exact ⟨(h.placed d hd).1, (h.placed d hd).2, (h.placed d hd).3, (h.placed d hd).4⟩
  · obtain ⟨d, hd, r, rfl⟩ := hmem x hx
    exact h.sized d hd
  · exact copyDescs_apart h.apart List.Pairwise.nil (by simp)
  · obtain ⟨d, hd, r, rfl⟩ := hmem x hx
    exact h.marked d hd p hp

theorem Inv.shmFork {s : State} {t : Nat} {task : Task} (h : Inv s) (ht : s.task t = some task)
    (c : Nat) (copyVm : Bool) (kmallocs : Nat) : Inv (shmFork task c copyVm kmallocs s).1 := by
  unfold Shm.shmFork
  split
  · exact h
  · obtain ⟨htask, hfewer⟩ := attachAll_frame (copyDescs c s.fresh task.shm [])
      { s with fresh := s.fresh + task.shm.length }
    dsimp only
    split
    · rename_i s' heq
      rw [heq] at htask hfewer
      exact (h.of_fewer htask hfewer).setTask c (((h t task ht).child c s.fresh).of_fewer hfewer)
    · rename_i s' heq
      rw [heq] at htask hfewer
      exact h.of_fewer htask hfewer

/-! ## Any run -/

/-- A step that no defect of the code is in: no attach with `SHM_REMAP` covers a whole older one.
A slot is given to a new segment only when no attached descriptor names it, which the count of
attaches is there for. -/
def RangesOk (s : State) (e : Event) : Prop :=
  Allowed s e ∧
    match e with
    | .shmat t a => ¬ RemapCovers s t a
    | .newseg _ _ => ∀ t task, s.task t = some task → ∀ d ∈ task.shm, (s.seg d.id).isSome
    | _ => True

theorem Inv.newseg {s : State} (h : Inv s) (size : Int) (kmallocOk : Bool)
    (hthere : ∀ t task, s.task t = some task → ∀ d ∈ task.shm, (s.seg d.id).isSome) :
    Inv (newseg size kmallocOk s).1 := by
  unfold Shm.newseg
  split
  · rename_i hsize
    dsimp only
    split
    · exact h
    split
    · exact h
    rename_i id hfind
    split
    · have hfree : s.seg id = none := by simpa using List.find?_some hfind
      intro t task ht
      have hold := h t task ht
      refine ⟨hold.placed, fun d hd sg hsg => ?_, hold.apart, hold.marked, hold.table⟩
      have hne : d.id ≠ id := by
        intro heq
        have := hthere t task ht d hd
        rw [heq, hfree] at this
        exact absurd this (by simp)
      refine hold.sized d hd sg ?_
      rw [← hsg]
      exact (update_of_ne hne _ _).symm
    · exact h
  · exact h

theorem Inv.ipcRmid {s : State} (h : Inv s) (shmid : Int) (owner : Bool) :
    Inv (ipcRmid shmid owner s).1 := by
  unfold Shm.ipcRmid
  split
  · exact h
  · rename_i id seg hlookup
    have hseg : s.seg id = some seg := by
      unfold lookupSeg at hlookup
      split at hlookup
      · cases hlookup
      · split at hlookup
        · cases hlookup
        · rename_i seg' hseg'
          split at hlookup
          · cases hlookup
          · cases hlookup
            exact hseg'
    split
    · have hset := h.setSeg hseg { seg with dest := true } rfl
      dsimp only
      split
      · exact hset.kill id
      · exact hset
    · exact h

/-- **One step** keeps the ranges of every task apart. -/
theorem Inv.step {s s' : State} {e : Event} (h : Inv s) (hok : RangesOk s e)
    (he : step s e = some s') : Inv s' := by
  obtain ⟨⟨s'', r⟩, hout, rfl⟩ := Option.map_eq_some_iff.1 he
  cases e with
  | newseg size kmallocOk =>
    have := h.newseg size kmallocOk hok.2
    rwa [show Shm.newseg size kmallocOk s = (s'', r) from Option.some.inj hout] at this
  | rmid shmid owner =>
    have := h.ipcRmid shmid owner
    rwa [show Shm.ipcRmid shmid owner s = (s'', r) from Option.some.inj hout] at this
  | shmat t a =>
    obtain ⟨task, ht, heq⟩ := Option.map_eq_some_iff.1 hout
    have := h.sysShmat ht hok.2
    rwa [heq] at this
  | shmdt t shmaddr =>
    obtain ⟨task, ht, hdt⟩ := Option.bind_eq_some_iff.1 hout
    exact h.sysShmdt ht hdt
  | fork t c copyVm kmallocs =>
    simp only [stepOut] at hout
    split at hout
    · obtain ⟨task, ht, heq⟩ := Option.map_eq_some_iff.1 hout
      have := h.shmFork ht c copyVm kmallocs
      rwa [heq] at this
    · cases hout
  | exit t =>
    obtain ⟨task, ht, hexit⟩ := Option.bind_eq_some_iff.1 hout
    obtain ⟨s₁, hs₁, heq⟩ := Option.map_eq_some_iff.1 hexit
    cases heq
    intro t' task' ht'
    have hne : t' ≠ t := by
      rintro rfl
      exact absurd ht' (by simp)
    refine h.shmExit hs₁ t' task' ?_
    rw [← ht']
    exact (update_of_ne hne _ _).symm
  | exec t startStack =>
    obtain ⟨task, ht, hexit⟩ := Option.bind_eq_some_iff.1 hout
    obtain ⟨s₁, hs₁, heq⟩ := Option.map_eq_some_iff.1 hexit
    cases heq
    exact (h.shmExit hs₁).setTask t (.of_nil rfl fun _ _ => rfl)
  | paging t page v =>
    obtain ⟨task, ht, heq⟩ := Option.map_eq_some_iff.1 hout
    cases heq
    obtain ⟨htable, hzero⟩ := hok.1 task ht
    have hold := h t task ht
    refine h.setTask t ⟨hold.placed, hold.sized, hold.apart, fun d hd p hp => ?_, fun p hp => ?_⟩
    · show Function.update task.pte page v p ≠ 0
      by_cases hpage : p = page
      · subst hpage
        rw [update_self]
        exact fun hv => hzero hv d hd hp
      · rw [update_of_ne hpage]
        exact hold.marked d hd p hp
    · show Function.update task.pte page v p = 0
      have hpage : p ≠ page := by
        rintro rfl
        exact absurd (show task.pageTable (p / ptrsPerPage) = false from hp) (by simp [htable])
      rw [update_of_ne hpage]
      exact hold.table p hp

/-- The ranges of the attaches of every task are disjoint and lie below `TASK_SIZE`. -/
def RangesDisjoint (s : State) : Prop :=
  ∀ t task, s.task t = some task →
    task.shm.Pairwise Apart ∧ ∀ d ∈ task.shm, d.start ≤ d.stop ∧ d.stop ≤ taskSize

/-- Nothing is attached yet, and no entry is in a page table that does not exist. -/
def Unattached (s : State) : Prop :=
  ∀ t task, s.task t = some task → task.shm = [] ∧
    ∀ p, task.pageTable (p / ptrsPerPage) = false → task.pte p = 0

/-- **Attaches do not overlap** in any run in which no attach with `SHM_REMAP` covers a whole older
one. -/
theorem ranges_disjoint_of_reach {s₀ s : State} (h₀ : Unattached s₀)
    (h : Reach step RangesOk s₀ s) : RangesDisjoint s := by
  have hinv : Inv s := by
    refine h.invariant (fun t task ht => ?_) fun s e s' hs hok he => hs.step hok he
    exact .of_nil (h₀ t task ht).1 (h₀ t task ht).2
  intro t task ht
  have htask := hinv t task ht
  exact ⟨htask.apart, fun d hd => ⟨(htask.placed d hd).start_lt.le, (htask.placed d hd).stop_le⟩⟩

/-- A machine on which task 1 runs, with a full stack. -/
def exampleState : State := State.init ⟨taskSize, by decide⟩

/-- An attach that is allowed and finds enough memory. -/
def exampleAttach (shmid : Int) (shmaddr : Nat) (remap : Bool) : ShmatArgs :=
  ⟨shmid, shmaddr, false, remap, false, false, true, fun _ => true⟩

theorem exampleState_unattached : Unattached exampleState := by
  intro t task ht
  simp only [exampleState, State.init] at ht
  split at ht
  · cases ht
    exact ⟨rfl, fun _ _ => rfl⟩
  · cases ht

/-- The theorem at a run with an attach. -/
theorem ranges_disjoint_example :
    ∃ s, Reach step RangesOk exampleState s ∧
      ((s.task 1).map fun task => task.shm.length) = some 1 ∧ RangesDisjoint s := by
  have hnone : ∀ t task, exampleState.task t = some task →
      ∀ d ∈ task.shm, (exampleState.seg d.id).isSome := by
    intro t task ht d hd
    rw [(exampleState_unattached t task ht).1] at hd
    exact absurd hd (by simp)
  have hseg : Reach step RangesOk exampleState (newseg 4096 true exampleState).1 :=
    Reach.init.step (.newseg 4096 true) ⟨trivial, hnone⟩ rfl
  have hattach := hseg.step (Event.shmat 1 (exampleAttach 0 0x50000000 false))
    ⟨trivial, fun h => absurd h.1 (by decide)⟩ rfl
  exact ⟨_, hattach, by decide +kernel, ranges_disjoint_of_reach exampleState_unattached hattach⟩

/-- The step is a call, not a fault or a swap. -/
def isCall : Event → Bool
  | .paging _ _ _ => false
  | _ => true

theorem allowed_of_isCall {s : State} {e : Event} (h : isCall e = true) : Allowed s e := by
  cases e <;> first | exact trivial | exact absurd h (by simp [isCall])

/-- The attaches of a task overlap, as a test. -/
def overlapping (s : State) : Bool :=
  match s.task 1 with
  | none => false
  | some task => task.shm.any fun d => task.shm.any fun d' =>
      decide (d.ref ≠ d'.ref ∧ d.start < d'.stop ∧ d'.start < d.stop)

/-- **Attaches that overlap**: a segment of three pages is attached with `SHM_REMAP` over one page
that is attached already. -/
theorem ranges_overlap :
    ∃ s, Reach step Allowed exampleState s ∧ Unattached exampleState ∧ ¬ RangesDisjoint s := by
  have hrun : ∃ s, execOkFrom step (fun _ e => isCall e) exampleState
      [.newseg 4096 true, .newseg 12288 true, .shmat 1 (exampleAttach 0 0x50001000 false),
        .shmat 1 (exampleAttach 1 0x50000000 true)] = some s ∧ overlapping s = true :=
    ⟨_, rfl, by decide +kernel⟩
  obtain ⟨s, hs, hover⟩ := hrun
  refine ⟨s, Reach.init.of_execOkFrom (fun s e he => allowed_of_isCall he) hs,
    exampleState_unattached, fun hdisj => ?_⟩
  unfold overlapping at hover
  split at hover
  · cases hover
  · rename_i task ht
    obtain ⟨d, hd, hany⟩ := List.any_eq_true.1 hover
    obtain ⟨d', hd', hboth⟩ := List.any_eq_true.1 hany
    rw [decide_eq_true_eq] at hboth
    have hap := (hdisj 1 task ht).1.forall hd hd' fun heq => hboth.1 (by rw [heq])
    unfold Apart at hap
    omega

end LinuxEvocation.Ipc.Shm
