import LinuxEvocation.Ipc.Shm.Basic
import LinuxEvocation.Lib.Iteration
import LinuxEvocation.Mm.Swap

/-!
# Swapping out shared pages: `shm_swap`

`shm_swap` goes round the pages of all segments, from where the last call stopped, until it has
swapped one out or has looked at `shm_rss >> prio` of them.  Only pages that it looks at count:
segments that are locked, slots that are empty and pages that are not in memory are passed by
without counting.

* `SwapSegment`, `SegSlot`, `SwapState` — the data; `SwapTable` carries what the calls keep.
* `dropMapping` — one attach is made to fault; `swapStep` — from one label to the next;
  `shmSwap` — the call.
* `Swappable` — there is a page that counts.
* `shm_swap_returns_iff` — the call returns exactly when it has nothing to do or there is one.
-/

namespace LinuxEvocation.Ipc.Shm

open Function (update)
open LinuxEvocation.Mm
open Iteration (iterate Halts)

/-! ## The data -/

/-- What `shm_swap` uses of a `struct shmid_ds`. -/
structure SwapSegment where
  npages : Nat
  /-- `shm_pages`: a page in memory, a swap entry or 0. -/
  pages : Nat → Nat
  /-- `SHM_LOCKED`. -/
  locked : Bool
  attaches : List ShmDesc

/-- An entry of `shm_segs`. -/
inductive SegSlot where
  /-- `IPC_UNUSED`. -/
  | unused
  /-- `IPC_NOID`. -/
  | noid
  | used (shp : SwapSegment)

/-- What `shm_swap` reads and writes. -/
structure SwapState where
  seg : Nat → SegSlot
  maxShmid : Nat
  shmRss : Nat
  shmSwp : Nat
  /-- "currently being swapped" -/
  swapId : Nat
  /-- "next to swap" -/
  swapIdx : Nat
  swapAttempts : Nat
  swapSuccesses : Nat
  /-- `mem_map`, by the number of the page. -/
  memMap : Nat → Nat
  /-- The page directories, by the task. -/
  pageDir : Nat → Nat → Nat
  /-- The page tables, by the page they are in. -/
  pageTable : Nat → Nat → Nat
  rss : Nat → Int
  swap : Swap

/-- What holds between the calls: the slots above `max_shmid` are not in use. -/
structure SwapTable extends SwapState where
  used_le : ∀ id shp, seg id = .used shp → id ≤ maxShmid
  swap_ok : swap.Ok

/-! ## The code -/

/-- `PAGE_ACCESSED` is set. -/
def accessed (word : Nat) : Bool := word / 0x20 % 2 = 1

/-- The body of the loop over the attaches, for the page `page` at `idx` of the segment `id`. -/
def dropMapping (id idx page : Nat) (s : SwapState) (shmd : ShmDesc) : SwapState :=
  if shmd.shmSgn / 2 ^ 8 % mni ≠ id then s
  else
    let tmp := shmd.start + idx * pageSize
    if tmp ≥ shmd.stop then s
    else
      let dir := tmp / (pageSize * ptrsPerPage)
      let pde := s.pageDir shmd.task dir
      -- "bad pgtbl!"
      if ¬ present pde then
        { s with
          pageDir := update s.pageDir shmd.task
            (update (s.pageDir shmd.task) dir 0) }
      else
        let table := s.pageTable (mapNr pde)
        let i := tmp / pageSize % ptrsPerPage
        let setPte (word : Nat) : Nat → Nat → Nat :=
          update s.pageTable (mapNr pde) (update table i word)
        if ¬ present (table i) then s
        else if accessed (table i) then { s with pageTable := setPte (table i - 0x20) }
        else
          { s with
            pageTable := setPte (shmd.shmSgn + idx * 2 ^ shmIdxShift)
            memMap := update s.memMap (mapNr page) (s.memMap (mapNr page) - 1)
            rss := update s.rss shmd.task (s.rss shmd.task - 1) }

/-- `if (++swap_id > max_shmid) swap_id = 0`. -/
def nextId (maxShmid id : Nat) : Nat := if id + 1 > maxShmid then 0 else id + 1

/-- The first page of the next segment. -/
def SwapState.nextSegment (s : SwapState) : SwapState :=
  { s with swapIdx := 0, swapId := nextId s.maxShmid s.swapId }

/-- The two labels. -/
inductive Label where
  | checkId
  /-- `check_table`, for the segment `shp` in the slot `id`. -/
  | checkTable (id : Nat) (shp : SwapSegment)

/-- A visit to a label. -/
structure Visit where
  label : Label
  counter : Nat
  state : SwapState

/-- The page at `idx` of the segment is moved to the swap entry `swapNr`. -/
def SwapState.swapOut (s : SwapState) (swapNr id idx page : Nat) (shp : SwapSegment) :
    SwapState :=
  { s with
    seg := update s.seg id (.used { shp with pages := update shp.pages idx swapNr })
    memMap := update s.memMap (mapNr page) 0
    swapSuccesses := s.swapSuccesses + 1
    shmSwp := s.shmSwp + 1
    shmRss := s.shmRss - 1 }

/-- From one label to the next, or to the end of the call. -/
def swapStep (swapNr : Nat) (v : Visit) : Visit ⊕ (Nat × SwapState) :=
  let s := v.state
  match v.label with
  | .checkId =>
    match s.seg s.swapId with
    | .used shp =>
      if shp.locked then .inl ⟨.checkId, v.counter, s.nextSegment⟩
      else .inl ⟨.checkTable s.swapId shp, v.counter, s⟩
    | _ => .inl ⟨.checkId, v.counter, s.nextSegment⟩
  | .checkTable id shp =>
    let idx := s.swapIdx
    let s := { s with swapIdx := idx + 1 }
    if idx ≥ shp.npages then .inl ⟨.checkId, v.counter, s.nextSegment⟩
    else
      let page := shp.pages idx
      if ¬ present page then .inl ⟨.checkTable id shp, v.counter, s⟩
      else
        let s := { s with swapAttempts := s.swapAttempts + 1 }
        if v.counter = 0 then .inr (0, { s with swap := swapFree swapNr s.swap })
        else
          let s := shp.attaches.foldl (dropMapping id idx page) s
          if s.memMap (mapNr page) ≠ 1 then .inl ⟨.checkTable id shp, v.counter - 1, s⟩
          else .inr (1, s.swapOut swapNr id idx page shp)

/-- `shm_swap(prio)`; `none` when `fuel` visits to the labels are not enough. -/
def shmSwap (s : SwapState) (prio fuel : Nat) : Option (Nat × SwapState) :=
  let counter := s.shmRss / 2 ^ prio
  if counter = 0 then some (0, s)
  else
    match getSwapPage s.swap with
    | none => some (0, s)
    | some (swapNr, swap) =>
      iterate (swapStep swapNr) fuel ⟨.checkId, counter, { s with swap := swap }⟩

/-! ## What a visit leaves as it is -/

/-- The segments, the cursor and the swap areas are the same. -/
structure SwapState.Same (s s' : SwapState) : Prop where
  seg : s'.seg = s.seg
  maxShmid : s'.maxShmid = s.maxShmid
  swapId : s'.swapId = s.swapId
  swapIdx : s'.swapIdx = s.swapIdx
  swap : s'.swap = s.swap

theorem SwapState.Same.refl (s : SwapState) : s.Same s := ⟨rfl, rfl, rfl, rfl, rfl⟩

theorem SwapState.Same.trans {s s' s'' : SwapState} (h : s.Same s') (h' : s'.Same s'') :
    s.Same s'' :=
  ⟨h'.seg.trans h.seg, h'.maxShmid.trans h.maxShmid, h'.swapId.trans h.swapId,
    h'.swapIdx.trans h.swapIdx, h'.swap.trans h.swap⟩

theorem dropMapping_same (id idx page : Nat) (s : SwapState) (shmd : ShmDesc) :
    s.Same (dropMapping id idx page s shmd) := by
  unfold dropMapping
  simp only
  split_ifs <;> exact ⟨rfl, rfl, rfl, rfl, rfl⟩

theorem foldl_dropMapping_same (id idx page : Nat) (l : List ShmDesc) (s : SwapState) :
    s.Same (l.foldl (dropMapping id idx page) s) := by
  induction l generalizing s with
  | nil => exact .refl s
  | cons d l ih => exact (dropMapping_same id idx page s d).trans (ih _)

/-- A segment with pages that may be swapped out. -/
def Unlocked (seg : Nat → SegSlot) (id : Nat) (shp : SwapSegment) : Prop :=
  seg id = .used shp ∧ shp.locked = false

/-- There is a page that counts. -/
def Swappable (s : SwapState) : Prop :=
  ∃ id shp idx, Unlocked s.seg id shp ∧ idx < shp.npages ∧ present (shp.pages idx) = true

/-- The label belongs to the segment of the cursor. -/
def Label.Ok (s : SwapState) : Label → Prop
  | .checkId => True
  | .checkTable id shp => Unlocked s.seg id shp ∧ s.swapId = id

/-- What a visit does. -/
inductive Turn (swapNr : Nat) : Visit → Visit ⊕ (Nat × SwapState) → Prop
  /-- A segment that is not locked. -/
  | enter {counter : Nat} {s : SwapState} {shp : SwapSegment} : Unlocked s.seg s.swapId shp →
      Turn swapNr ⟨.checkId, counter, s⟩ (.inl ⟨.checkTable s.swapId shp, counter, s⟩)
  /-- No segment, or one that is locked. -/
  | pass {counter : Nat} {s : SwapState} : (∀ shp, ¬ Unlocked s.seg s.swapId shp) →
      Turn swapNr ⟨.checkId, counter, s⟩ (.inl ⟨.checkId, counter, s.nextSegment⟩)
  /-- The end of the table. -/
  | leave {counter id : Nat} {s : SwapState} {shp : SwapSegment} : s.swapIdx ≥ shp.npages →
      Turn swapNr ⟨.checkTable id shp, counter, s⟩ (.inl ⟨.checkId, counter, s.nextSegment⟩)
  /-- A page that is not in memory. -/
  | skip {counter id : Nat} {s : SwapState} {shp : SwapSegment} : s.swapIdx < shp.npages →
      present (shp.pages s.swapIdx) = false →
      Turn swapNr ⟨.checkTable id shp, counter, s⟩
        (.inl ⟨.checkTable id shp, counter, { s with swapIdx := s.swapIdx + 1 }⟩)
  /-- A page that somebody still uses. -/
  | keep {counter id : Nat} {s s' : SwapState} {shp : SwapSegment} : s.swapIdx < shp.npages →
      present (shp.pages s.swapIdx) = true → 0 < counter →
      { s with swapIdx := s.swapIdx + 1 }.Same s' →
      Turn swapNr ⟨.checkTable id shp, counter, s⟩ (.inl ⟨.checkTable id shp, counter - 1, s'⟩)
  /-- One page too many. -/
  | fail {id : Nat} {s s' : SwapState} {shp : SwapSegment} : s.swapIdx < shp.npages →
      present (shp.pages s.swapIdx) = true → s'.swap = swapFree swapNr s.swap →
      Turn swapNr ⟨.checkTable id shp, 0, s⟩ (.inr (0, s'))
  /-- A page is swapped out. -/
  | out {counter id : Nat} {s s' : SwapState} {shp : SwapSegment} : s.swapIdx < shp.npages →
      present (shp.pages s.swapIdx) = true →
      Turn swapNr ⟨.checkTable id shp, counter, s⟩ (.inr (1, s'))

/-- **What a visit does** is one of these. -/
theorem swapStep_turn (swapNr : Nat) {v : Visit} (hv : v.label.Ok v.state) :
    Turn swapNr v (swapStep swapNr v) := by
  obtain ⟨label, counter, s⟩ := v
  cases label with
  | checkId =>
    simp only [swapStep]
    split
    · rename_i shp hseg
      split
      · rename_i hlock
        apply Turn.pass
        intro shp' h
        rw [h.1] at hseg
        cases hseg
        rw [h.2] at hlock
        cases hlock
      · rename_i hlock
        apply Turn.enter
        exact ⟨hseg, by simpa using hlock⟩
    · rename_i hseg
      apply Turn.pass
      intro shp h
      exact hseg shp h.1
  | checkTable id shp =>
    simp only [swapStep]
    by_cases hend : s.swapIdx ≥ shp.npages
    · rw [if_pos hend]
      exact .leave hend
    · rw [if_neg hend]
      by_cases hpres : present (shp.pages s.swapIdx) = true
      · rw [if_neg (not_not.2 hpres)]
        by_cases hzero : counter = 0
        · rw [if_pos hzero]
          subst hzero
          exact .fail (not_le.1 hend) hpres rfl
        · rw [if_neg hzero]
          split
          · apply Turn.keep (not_le.1 hend) hpres (by omega)
            have hsame : { s with swapIdx := s.swapIdx + 1 }.Same
                { s with swapIdx := s.swapIdx + 1, swapAttempts := s.swapAttempts + 1 } :=
              ⟨rfl, rfl, rfl, rfl, rfl⟩
            exact hsame.trans (foldl_dropMapping_same _ _ _ _ _)
          · exact .out (not_le.1 hend) hpres
      · rw [if_pos hpres]
        exact .skip (not_le.1 hend) (by simpa using hpres)

/-! ## The call ends -/

section Ends

variable {swapNr counter maxShmid : Nat} {seg : Nat → SegSlot}

/-- The visits that have fewer pages to look at end. -/
def FewerHalt (swapNr : Nat) (seg : Nat → SegSlot) (maxShmid counter : Nat) : Prop :=
  ∀ v : Visit, v.counter < counter → v.state.seg = seg → v.state.maxShmid = maxShmid →
    v.label.Ok v.state → Halts (swapStep swapNr) v

/-- The visits to `check_id` at the first page of the segment `id` end. -/
def StartHalts (swapNr : Nat) (seg : Nat → SegSlot) (maxShmid counter id : Nat) : Prop :=
  ∀ s : SwapState, s.seg = seg → s.maxShmid = maxShmid → s.swapId = id → s.swapIdx = 0 →
    Halts (swapStep swapNr) ⟨.checkId, counter, s⟩

variable {s : SwapState} {id : Nat} {shp : SwapSegment}

/-- A visit to `check_table` ends if leaving the table and skipping a page do. -/
theorem halts_checkTable (hfewer : FewerHalt swapNr seg maxShmid counter)
    (hseg : s.seg = seg) (hmax : s.maxShmid = maxShmid)
    (hshp : Unlocked seg id shp) (hid : s.swapId = id)
    (hleave : s.swapIdx ≥ shp.npages →
      Halts (swapStep swapNr) ⟨.checkId, counter, s.nextSegment⟩)
    (hskip : s.swapIdx < shp.npages → present (shp.pages s.swapIdx) = false →
      Halts (swapStep swapNr)
        ⟨.checkTable id shp, counter, { s with swapIdx := s.swapIdx + 1 }⟩) :
    Halts (swapStep swapNr) ⟨.checkTable id shp, counter, s⟩ := by
  have hok : Label.Ok s (.checkTable id shp) := ⟨by rw [hseg]; exact hshp, hid⟩
  have hturn : Turn swapNr ⟨.checkTable id shp, counter, s⟩ _ := swapStep_turn swapNr hok
  generalize hstep : swapStep swapNr ⟨.checkTable id shp, counter, s⟩ = o at hturn
  cases hturn with
  | leave hend => exact .next hstep (hleave hend)
  | skip hlt habs => exact .next hstep (hskip hlt habs)
  | keep _ _ hpos hsame =>
    -- a page in memory has been counted
    refine .next hstep (hfewer _ (Nat.sub_lt hpos Nat.one_pos) (hsame.seg.trans hseg)
      (hsame.maxShmid.trans hmax) ⟨?_, hsame.swapId.trans hid⟩)
    rw [hsame.seg]
    exact hok.1
  | fail => exact .done hstep
  | out => exact .done hstep

/-- The pages of a table are looked at one after the other, up to the end of the table. -/
theorem halts_to_end (hfewer : FewerHalt swapNr seg maxShmid counter) (hshp : Unlocked seg id shp)
    (hnext : StartHalts swapNr seg maxShmid counter (nextId maxShmid id)) (n : Nat)
    (hn : shp.npages - s.swapIdx = n) (hseg : s.seg = seg)
    (hmax : s.maxShmid = maxShmid) (hid : s.swapId = id) :
    Halts (swapStep swapNr) ⟨.checkTable id shp, counter, s⟩ := by
  induction n generalizing s with
  | zero =>
    refine halts_checkTable hfewer hseg hmax hshp hid (fun _ => ?_) fun hlt => by omega
    exact hnext _ hseg hmax (by simp [SwapState.nextSegment, hmax, hid]) rfl
  | succ n ih =>
    refine halts_checkTable hfewer hseg hmax hshp hid (fun hend => by omega) fun hlt _ => ?_
    exact ih (by simp only; omega) hseg hmax hid

/-- The pages of a table are looked at one after the other, up to one that is in memory. -/
theorem halts_to_page (hfewer : FewerHalt swapNr seg maxShmid counter) {idx : Nat}
    (hshp : Unlocked seg id shp) (hidx : idx < shp.npages)
    (hpres : present (shp.pages idx) = true) (n : Nat)
    (hn : s.swapIdx + n = idx) (hseg : s.seg = seg) (hmax : s.maxShmid = maxShmid)
    (hid : s.swapId = id) : Halts (swapStep swapNr) ⟨.checkTable id shp, counter, s⟩ := by
  induction n generalizing s with
  | zero =>
    refine halts_checkTable hfewer hseg hmax hshp hid (fun hend => by omega) fun _ habs => ?_
    rw [Nat.add_zero] at hn
    rw [hn, hpres] at habs
    cases habs
  | succ n ih =>
    refine halts_checkTable hfewer hseg hmax hshp hid (fun hend => by omega) fun _ _ => ?_
    exact ih (by simp only; omega) hseg hmax hid

/-- A visit to `check_id` ends if the visits to the next segment do. -/
theorem halts_checkId (hfewer : FewerHalt swapNr seg maxShmid counter)
    (hseg : s.seg = seg) (hmax : s.maxShmid = maxShmid)
    (hnext : StartHalts swapNr seg maxShmid counter (nextId maxShmid s.swapId)) :
    Halts (swapStep swapNr) ⟨.checkId, counter, s⟩ := by
  have hturn : Turn swapNr ⟨.checkId, counter, s⟩ _ := swapStep_turn swapNr trivial
  generalize hstep : swapStep swapNr ⟨.checkId, counter, s⟩ = o at hturn
  cases hturn with
  | enter hshp =>
    rw [hseg] at hshp
    exact .next hstep (halts_to_end hfewer hshp hnext _ rfl hseg hmax rfl)
  | pass =>
    apply Halts.next hstep
    exact hnext _ hseg hmax (by simp [SwapState.nextSegment, hmax]) rfl

/-- From a segment up to the one with a page in memory. -/
theorem startHalts_below (hfewer : FewerHalt swapNr seg maxShmid counter) {idx : Nat}
    (hshp : Unlocked seg id shp) (hidx : idx < shp.npages)
    (hpres : present (shp.pages idx) = true) (hle : id ≤ maxShmid) (n : Nat) {id' : Nat}
    (hn : id' + n = id) : StartHalts swapNr seg maxShmid counter id' := by
  induction n generalizing id' with
  | zero =>
    intro s hseg hmax hid hzero
    rw [Nat.add_zero] at hn
    subst hn
    have hturn : Turn swapNr ⟨.checkId, counter, s⟩ _ := swapStep_turn swapNr trivial
    generalize hstep : swapStep swapNr ⟨.checkId, counter, s⟩ = o at hturn
    cases hturn with
    | @enter _ _ shp' hshp' =>
      have heq : shp' = shp := by
        have h := hshp'.1
        simp only [hseg, hid, hshp.1, SegSlot.used.injEq] at h
        exact h.symm
      subst heq
      simp only [hid] at hstep
      exact .next hstep (halts_to_page hfewer hshp hidx hpres idx (by omega) hseg hmax hid)
    | pass hnone =>
      simp only [hseg, hid] at hnone
      exact absurd hshp (hnone shp)
  | succ n ih =>
    intro s hseg hmax hid _
    refine halts_checkId hfewer hseg hmax ?_
    have hnext : nextId maxShmid s.swapId = id' + 1 := by
      unfold nextId
      rw [hid, if_neg (by omega)]
    rw [hnext]
    exact ih (by omega)

/-- From any segment on: past `max_shmid` the search goes on with the segment 0. -/
theorem startHalts_all (hfewer : FewerHalt swapNr seg maxShmid counter)
    (hzero : StartHalts swapNr seg maxShmid counter 0) (n : Nat)
    (hn : maxShmid - id = n) : StartHalts swapNr seg maxShmid counter (nextId maxShmid id) := by
  induction n generalizing id with
  | zero =>
    have hnext : nextId maxShmid id = 0 := if_pos (by omega)
    rw [hnext]
    exact hzero
  | succ n ih =>
    have hnext : nextId maxShmid id = id + 1 := if_neg (by omega)
    rw [hnext]
    intro s hseg hmax hid _
    refine halts_checkId hfewer hseg hmax ?_
    rw [hid]
    exact ih (by omega)

/-- **The search ends** if there is a page that counts: the counter bounds the rounds. -/
theorem halts_of_swappable (hused : ∀ id shp, seg id = .used shp → id ≤ maxShmid)
    {idx : Nat} (hshp : Unlocked seg id shp) (hidx : idx < shp.npages)
    (hpres : present (shp.pages idx) = true) (v : Visit) (hseg : v.state.seg = seg)
    (hmax : v.state.maxShmid = maxShmid) (hok : v.label.Ok v.state) :
    Halts (swapStep swapNr) v := by
  obtain ⟨label, counter, s⟩ := v
  induction counter using Nat.strong_induction_on generalizing label s with
  | _ counter ih =>
    have hfewer : FewerHalt swapNr seg maxShmid counter := fun v hlt hseg hmax hok =>
      ih v.counter hlt v.label v.state hseg hmax hok
    have hstart : StartHalts swapNr seg maxShmid counter 0 :=
      startHalts_below hfewer hshp hidx hpres (hused _ _ hshp.1) id (Nat.zero_add id)
    cases label with
    | checkId => exact halts_checkId hfewer hseg hmax (startHalts_all hfewer hstart _ rfl)
    | checkTable id' shp' =>
      obtain ⟨hshp', hid'⟩ := hok
      simp only at hseg
      rw [hseg] at hshp'
      exact halts_to_end hfewer hshp' (startHalts_all hfewer hstart _ rfl) _ rfl hseg hmax hid'

end Ends

/-! ## The call does not end -/

/-- With no page that counts, the search goes on for ever. -/
theorem not_halts_of_not_swappable {swapNr : Nat} {v : Visit} (hok : v.label.Ok v.state)
    (hno : ¬ Swappable v.state) : ¬ Halts (swapStep swapNr) v := by
  apply Iteration.not_halts_of_invariant (I := fun v => v.label.Ok v.state ∧ ¬ Swappable v.state)
  · rintro v ⟨hok, hno⟩
    have hturn := swapStep_turn swapNr hok
    generalize swapStep swapNr v = o at hturn
    cases hturn with
    | enter hshp => exact ⟨_, rfl, ⟨hshp, rfl⟩, hno⟩
    | pass | leave => exact ⟨_, rfl, trivial, hno⟩
    | skip => exact ⟨_, rfl, hok, hno⟩
    | keep hlt hpres | fail hlt hpres | out hlt hpres =>
      exact absurd ⟨_, _, _, hok.1, hlt, hpres⟩ hno
  · exact ⟨hok, hno⟩

/-! ## The slot that was reserved -/

/-- A search that returns 0 has freed the slot. -/
theorem swapStep_result {swapNr : Nat} {swap : Swap} {fuel : Nat} {v : Visit}
    (hok : v.label.Ok v.state) (hswap : v.state.swap = swap) {r : Nat × SwapState}
    (h : iterate (swapStep swapNr) fuel v = some r) :
    r.1 = 0 → r.2.swap = swapFree swapNr swap := by
  refine Iteration.iterate_result (I := fun v => v.label.Ok v.state ∧ v.state.swap = swap)
    (Q := fun r => r.1 = 0 → r.2.swap = swapFree swapNr swap) ?_ ?_ ⟨hok, hswap⟩ h
  · rintro v v' ⟨hok, hswap⟩ hstep
    have hturn := swapStep_turn swapNr hok
    rw [hstep] at hturn
    cases hturn with
    | enter hshp => exact ⟨⟨hshp, rfl⟩, hswap⟩
    | pass | leave => exact ⟨trivial, hswap⟩
    | skip => exact ⟨hok, hswap⟩
    | keep _ _ _ hsame =>
      refine ⟨⟨?_, hsame.swapId.trans hok.2⟩, hsame.swap.trans hswap⟩
      rw [hsame.seg]
      exact hok.1
  · rintro v r ⟨hok, hswap⟩ hstep
    have hturn := swapStep_turn swapNr hok
    rw [hstep] at hturn
    cases hturn with
    | fail _ _ hfree =>
      intro _
      rw [hfree, ← hswap]
    | out =>
      intro h
      cases h

/-! ## When the call returns -/

/-- What is expected of `shm_swap`: it returns, and if it returns 0 the swap areas are as they
were. -/
def Returns (s : SwapState) (prio : Nat) : Prop :=
  ∃ fuel r s', shmSwap s prio fuel = some (r, s') ∧ (r = 0 → SameSlots s.swap s'.swap)

/-- A call that has something to do and a slot for it returns only if there is a page that
counts. -/
theorem swappable_of_returns {s : SwapState} {prio : Nat} (hcounter : s.shmRss / 2 ^ prio ≠ 0)
    {slot : Nat × Swap} (hget : getSwapPage s.swap = some slot) (h : Returns s prio) :
    Swappable s := by
  obtain ⟨fuel, r, s', hrun, -⟩ := h
  unfold shmSwap at hrun
  simp only [hcounter, if_false, hget] at hrun
  by_contra hno
  have hok : Label.Ok { s with swap := slot.2 } .checkId := trivial
  apply not_halts_of_not_swappable (v := ⟨.checkId, _, _⟩) hok hno
  exact Iteration.halts_iff.2 ⟨fuel, _, hrun⟩

/-- **When `shm_swap` returns**: there is nothing to do, there is no swap slot, or a segment that
is not locked has a page in memory. -/
theorem shm_swap_returns_iff (s : SwapTable) (prio : Nat) :
    Returns s.toSwapState prio ↔
      s.shmRss / 2 ^ prio = 0 ∨ getSwapPage s.swap = none ∨ Swappable s.toSwapState := by
  by_cases hcounter : s.shmRss / 2 ^ prio = 0
  · refine iff_of_true ⟨0, 0, s.toSwapState, ?_, fun _ => ⟨fun _ _ => rfl, rfl⟩⟩ (.inl hcounter)
    simp [shmSwap, hcounter]
  · cases hget : getSwapPage s.swap with
    | none =>
      refine iff_of_true ⟨0, 0, s.toSwapState, ?_, fun _ => ⟨fun _ _ => rfl, rfl⟩⟩
        (.inr (.inl rfl))
      simp [shmSwap, hcounter, hget]
    | some slot =>
      obtain ⟨swapNr, swap⟩ := slot
      simp only [hcounter, reduceCtorEq, false_or]
      constructor
      · exact swappable_of_returns hcounter hget
      · rintro ⟨id, shp, idx, hshp, hidx, hpres⟩
        have hhalts : Halts (swapStep swapNr) ⟨.checkId, s.shmRss / 2 ^ prio,
            { s.toSwapState with swap := swap }⟩ :=
          halts_of_swappable s.used_le hshp hidx hpres _ rfl rfl trivial
        obtain ⟨fuel, r, hrun⟩ := Iteration.halts_iff.1 hhalts
        refine ⟨fuel, r.1, r.2, by simp [shmSwap, hcounter, hget, hrun], fun hr => ?_⟩
        have hok : Label.Ok { s.toSwapState with swap := swap } .checkId := trivial
        rw [swapStep_result (v := ⟨.checkId, _, _⟩) hok rfl hrun hr]
        exact swapFree_getSwapPage s.swap_ok hget

/-- One segment of one page, which is in memory, and a swap area with one free page. -/
def onePage (locked : Bool) : SwapTable where
  seg id := if id = 0 then .used ⟨1, fun _ => 0x5027, locked, []⟩ else .unused
  maxShmid := 0
  shmRss := 1
  shmSwp := 0
  swapId := 0
  swapIdx := 0
  swapAttempts := 0
  swapSuccesses := 0
  memMap _ := 1
  pageDir _ _ := 0
  pageTable _ _ := 0
  rss _ := 0
  swap := ⟨[⟨3, fun _ => 0, 1, 1⟩], 1⟩
  used_le id shp h := by
    by_cases hid : id = 0
    · omega
    · rw [if_neg hid] at h
      cases h
  swap_ok := by
    refine ⟨by decide, ?_, ?_⟩ <;> simp [swapBits, pageSize]

/-- The page is swapped out. -/
example : (shmSwap (onePage false).toSwapState 0 2).map Prod.fst = some 1 := rfl

/-- **If all pages in memory belong to locked segments**, the call does not return. -/
theorem shm_swap_locked_never_returns : ¬ Returns (onePage true).toSwapState 0 := by
  intro h
  obtain ⟨id, shp, _, ⟨hseg, hlock⟩, -⟩ := swappable_of_returns (by decide) rfl h
  by_cases hid : id = 0
  · subst hid
    cases hseg
    cases hlock
  · have hnone : (onePage true).seg id = .unused := if_neg hid
    rw [hnone] at hseg
    cases hseg

end LinuxEvocation.Ipc.Shm
