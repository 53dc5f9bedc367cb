import LinuxEvocation.Ipc.Shm.Ranges

/-!
# Does `shm_nattch` count the attaches?

`shmat` and `fork` count an attach up and `detach` counts it down, and a segment that is marked
`SHM_DEST` goes with its last attach.  The counter is a `short` and nothing limits the number of
attaches (`SHMSEG` is never looked at), so that the attach number 32768 makes it negative.

* `SegsOk` — the lists and counters of the segments agree with a set of attached descriptors.
* `SegsOk.add`, `SegsOk.remove`, `SegsOk.kill` — one descriptor comes or goes.
* `Counted` — they agree with the descriptors on the lists of the tasks.
* `attaches_counted_of_reach` — it stays so as long as no segment gets more than 32767 attaches.
* `attaches_miscounted` — a task attaches one page 32768 times.
-/

namespace LinuxEvocation.Ipc.Shm

open Function (update update_of_ne update_self)
open LinuxEvocation.Mm Transition

/-! ## The counter -/

/-- `SHRT_MAX`. -/
def shortMax : Nat := 32767

theorem short_eq {n : Int} (h1 : -32768 ≤ n) (h2 : n ≤ 32767) : short n = n :=
  Int.bmod_eq_of_le (by simpa using h1) (by omega)

/-! ## Segments and a set of descriptors -/

/-- The segment `id` has exactly the descriptors of `On` that name it. -/
structure SegOk (On : ShmDesc → Prop) (id : Nat) (sg : Segment) : Prop where
  nattch_eq : sg.nattch = sg.attaches.length
  nodup : sg.attaches.Nodup
  mem_iff : ∀ d, d ∈ sg.attaches ↔ On d ∧ d.id = id
  length_le : sg.attaches.length ≤ shortMax

/-- Every segment has exactly the descriptors of `On` that name it, and each of these names a
segment. -/
structure SegsOk (seg : Nat → Option Segment) (On : ShmDesc → Prop) : Prop where
  ok : ∀ id sg, seg id = some sg → SegOk On id sg
  live : ∀ d, On d → ∃ sg, seg d.id = some sg

namespace SegsOk

variable {seg : Nat → Option Segment} {On On' : ShmDesc → Prop} {id : Nat} {sg : Segment}
  {d : ShmDesc}

theorem congr (h : SegsOk seg On) (hiff : ∀ d, On' d ↔ On d) : SegsOk seg On' := by
  refine ⟨fun id sg hsg => ?_, fun d hd => h.live d ((hiff d).1 hd)⟩
  obtain ⟨h1, h2, h3, h4⟩ := h.ok id sg hsg
  exact ⟨h1, h2, fun d => by rw [h3, hiff], h4⟩

/-- A change to a segment that touches neither its list nor its counter. -/
theorem touch (h : SegsOk seg On) (hsg : seg id = some sg) (sg' : Segment)
    (hn : sg'.nattch = sg.nattch) (hl : sg'.attaches = sg.attaches) :
    SegsOk (update seg id (some sg')) On := by
  refine ⟨fun id' sg'' h'' => ?_, fun d hd => ?_⟩
  · by_cases hid : id' = id
    · subst hid
      rw [update_self] at h''
      cases h''
      obtain ⟨h1, h2, h3, h4⟩ := h.ok id' sg hsg
      exact ⟨by rw [hn, hl, h1], by rw [hl]; exact h2, by rw [hl]; exact h3, by rw [hl]; exact h4⟩
    · rw [update_of_ne hid] at h''
      exact h.ok id' sg'' h''
  · by_cases hid : d.id = id
    · exact ⟨sg', by rw [hid, update_self]⟩
    · rw [update_of_ne hid]
      exact h.live d hd

/-- **A descriptor is attached.** -/
theorem add (h : SegsOk seg On) (hsg : seg d.id = some sg) (hnew : ¬ On d)
    (hroom : sg.attaches.length < shortMax) :
    SegsOk (update seg d.id (some { sg with
      nattch := short (sg.nattch + 1), attaches := d :: sg.attaches }))
      (fun x => x = d ∨ On x) := by
  obtain ⟨h1, h2, h3, h4⟩ := h.ok d.id sg hsg
  refine ⟨fun id' sg' hsg' => ?_, fun x hx => ?_⟩
  · by_cases hid : id' = d.id
    · subst hid
      rw [update_self] at hsg'
      cases hsg'
      refine ⟨?_, List.nodup_cons.2 ⟨fun hmem => hnew ((h3 d).1 hmem).1, h2⟩, fun x => ?_, hroom⟩
      · unfold shortMax at hroom
        simp only [List.length_cons, h1]
        rw [short_eq (by omega) (by omega)]
        push_cast
        rfl
      · simp only [List.mem_cons, h3]
        constructor
        · rintro (rfl | hx)
          · exact ⟨.inl rfl, rfl⟩
          · exact ⟨.inr hx.1, hx.2⟩
        · rintro ⟨rfl | hx, hid⟩
          · exact .inl rfl
          · exact .inr ⟨hx, hid⟩
    · rw [update_of_ne hid] at hsg'
      obtain ⟨h1', h2', h3', h4'⟩ := h.ok id' sg' hsg'
      refine ⟨h1', h2', fun x => ?_, h4'⟩
      rw [h3']
      constructor
      · exact fun hx => ⟨.inr hx.1, hx.2⟩
      · rintro ⟨rfl | hx, hx'⟩
        · exact absurd hx'.symm hid
        · exact ⟨hx, hx'⟩
  · by_cases hid : x.id = d.id
    · rw [hid, update_self]
      exact ⟨_, rfl⟩
    · rw [update_of_ne hid]
      rcases hx with rfl | hx
      · exact absurd rfl hid
      · exact h.live x hx

/-- **A descriptor is detached.** -/
theorem remove (h : SegsOk seg On) (hsg : seg d.id = some sg) (hd : On d) :
    SegsOk (update seg d.id (some { sg with
      attaches := sg.attaches.erase d, nattch := short (sg.nattch - 1) }))
      (fun x => x ≠ d ∧ On x) := by
  obtain ⟨h1, h2, h3, h4⟩ := h.ok d.id sg hsg
  have hmem : d ∈ sg.attaches := (h3 d).2 ⟨hd, rfl⟩
  refine ⟨fun id' sg' hsg' => ?_, fun x hx => ?_⟩
  · by_cases hid : id' = d.id
    · subst hid
      rw [update_self] at hsg'
      cases hsg'
      refine ⟨?_, h2.erase d, fun x => ?_, List.erase_sublist.length_le.trans h4⟩
      · have hpos := List.length_pos_of_mem hmem
        unfold shortMax at h4
        simp only [List.length_erase_of_mem hmem, h1]
        rw [short_eq (by omega) (by omega)]
        push_cast [hpos]
        omega
      · simp only [h2.mem_erase_iff, h3, and_assoc]
    · rw [update_of_ne hid] at hsg'
      obtain ⟨h1', h2', h3', h4'⟩ := h.ok id' sg' hsg'
      refine ⟨h1', h2', fun x => ?_, h4'⟩
      rw [h3']
      constructor
      · rintro ⟨hx, hx'⟩
        exact ⟨⟨fun heq => hid (by rw [← hx', heq]), hx⟩, hx'⟩
      · exact fun hx => ⟨hx.1.2, hx.2⟩
  · by_cases hid : x.id = d.id
    · rw [hid, update_self]
      exact ⟨_, rfl⟩
    · rw [update_of_ne hid]
      exact h.live x hx.2

/-- A segment that no descriptor names goes. -/
theorem kill (h : SegsOk seg On) (hnone : ∀ d, On d → d.id ≠ id) :
    SegsOk (update seg id none) On := by
  refine ⟨fun id' sg hsg => ?_, fun d hd => ?_⟩
  · by_cases hid : id' = id
    · subst hid
      exact absurd hsg (by simp)
    · rw [update_of_ne hid] at hsg
      exact h.ok id' sg hsg
  · rw [update_of_ne (hnone d hd)]
    exact h.live d hd

theorem create (h : SegsOk seg On) (hfree : seg id = none) (hn : sg.nattch = 0)
    (hl : sg.attaches = []) : SegsOk (update seg id (some sg)) On := by
  have hnone : ∀ d, On d → d.id ≠ id := by
    intro d hd heq
    obtain ⟨sg', hsg'⟩ := h.live d hd
    rw [heq, hfree] at hsg'
    cases hsg'
  refine ⟨fun id' sg' hsg' => ?_, fun d hd => ?_⟩
  · by_cases hid : id' = id
    · subst hid
      rw [update_self] at hsg'
      cases hsg'
      refine ⟨by rw [hn, hl]; rfl, by rw [hl]; exact List.nodup_nil, fun d => ?_, by simp [hl]⟩
      rw [hl]
      simp only [List.not_mem_nil, false_iff]
      exact fun hd => hnone d hd.1 hd.2
    · rw [update_of_ne hid] at hsg'
      exact h.ok id' sg' hsg'
  · rw [update_of_ne (hnone d hd)]
    exact h.live d hd

theorem not_on_of_nattch (h : SegsOk seg On) (hsg : seg id = some sg) (hn : sg.nattch ≤ 0) :
    ∀ d, On d → d.id ≠ id := by
  intro d hd hid
  obtain ⟨h1, -, h3, -⟩ := h.ok id sg hsg
  have := List.length_pos_of_mem ((h3 d).2 ⟨hd, hid⟩)
  omega

end SegsOk

/-! ## The tasks -/

/-- The descriptor is on the list of a task. -/
def OnTask (s : State) (d : ShmDesc) : Prop := ∃ t task, s.task t = some task ∧ d ∈ task.shm

/-- The lists of the tasks: each descriptor knows its task and is older than the next one. -/
structure TasksOk (s : State) : Prop where
  owner : ∀ t task, s.task t = some task → ∀ d ∈ task.shm, d.task = t ∧ d.ref < s.fresh
  nodup : ∀ t task, s.task t = some task → task.shm.Nodup

/-- **The lists of the tasks and of the segments agree**, and so do the counters. -/
structure Counted (s : State) : Prop where
  tasks : TasksOk s
  segs : SegsOk s.seg (OnTask s)

/-- A segment that is marked has an attach, except possibly the one named. -/
def DestOkBut (s : State) (id : Nat) : Prop :=
  ∀ id' sg, id' ≠ id → s.seg id' = some sg → sg.dest = true → 0 < sg.nattch

/-- A segment that is marked has an attach. -/
def DestOk (s : State) : Prop := ∀ id sg, s.seg id = some sg → sg.dest = true → 0 < sg.nattch

theorem onTask_setTask {s : State} {t : Nat} {task task' : Task} (ht : s.task t = some task)
    (howner : ∀ t task, s.task t = some task → ∀ d ∈ task.shm, d.task = t)
    (hnew : ∀ d ∈ task'.shm, d.task = t) (d : ShmDesc) :
    OnTask (s.setTask t task') d ↔ d ∈ task'.shm ∨ d ∉ task.shm ∧ OnTask s d := by
  constructor
  · rintro ⟨t', task'', ht', hd⟩
    by_cases htt : t' = t
    · subst htt
      rw [show (s.setTask t' task').task t' = some task' from update_self _ _ _] at ht'
      cases ht'
      exact .inl hd
    · rw [show (s.setTask t task').task t' = s.task t' from update_of_ne htt _ _] at ht'
      refine .inr ⟨fun hmem => htt ?_, t', task'', ht', hd⟩
      rw [← howner t task ht d hmem, howner t' task'' ht' d hd]
  · rintro (hd | ⟨hnot, t', task'', ht', hd⟩)
    · exact ⟨t, task', update_self _ _ _, hd⟩
    · refine ⟨t', task'', ?_, hd⟩
      have htt : t' ≠ t := by
        rintro rfl
        rw [ht] at ht'
        cases ht'
        exact hnot hd
      rw [← ht']
      exact update_of_ne htt _ _

section Tasks

variable {s : State} {t : Nat} {task task' : Task}

theorem TasksOk.setTask (h : TasksOk s)
    (howner : ∀ d ∈ task'.shm, d.task = t ∧ d.ref < s.fresh) (hnodup : task'.shm.Nodup) :
    TasksOk (s.setTask t task') := by
  refine ⟨fun t' task'' ht' => ?_, fun t' task'' ht' => ?_⟩
  all_goals
    by_cases htt : t' = t
    · subst htt
      rw [show (s.setTask t' task').task t' = some task' from update_self _ _ _] at ht'
      cases ht'
      first
        | exact howner
        | exact hnodup
    · rw [show (s.setTask t task').task t' = s.task t' from update_of_ne htt _ _] at ht'
      first
        | exact h.owner t' task'' ht'
        | exact h.nodup t' task'' ht'

theorem Counted.setTask (h : Counted s) (ht : s.task t = some task)
    (hshm : task'.shm = task.shm) : Counted (s.setTask t task') := by
  have howner := fun t task ht d hd => (h.tasks.owner t task ht d hd).1
  refine ⟨h.tasks.setTask ?_ ?_, h.segs.congr fun d => ?_⟩
  · rw [hshm]
    exact h.tasks.owner t task ht
  · rw [hshm]
    exact h.tasks.nodup t task ht
  · rw [onTask_setTask ht howner (by rw [hshm]; exact howner t task ht), hshm]
    constructor
    · rintro (hd | ⟨-, hd⟩)
      · exact ⟨t, task, ht, hd⟩
      · exact hd
    · intro hd
      by_cases hmem : d ∈ task.shm
      · exact .inl hmem
      · exact .inr ⟨hmem, hd⟩

/-- The tasks and the lists of the segments stay. -/
theorem Counted.setSeg (h : Counted s) {id : Nat} {sg : Segment} (hsg : s.seg id = some sg)
    (sg' : Segment) (hn : sg'.nattch = sg.nattch) (hl : sg'.attaches = sg.attaches) :
    Counted (s.setSeg id sg') :=
  ⟨⟨h.tasks.owner, h.tasks.nodup⟩, h.segs.touch hsg sg' hn hl⟩

/-- **The end of `detach`, of a failing `shmat` and of `IPC_RMID`**: the segment goes if it is
marked and has no attach. -/
theorem Counted.settle (h : Counted s) {id : Nat} (hdest : DestOkBut s id) {sg : Segment}
    (hsg : s.seg id = some sg) :
    Counted (if sg.nattch ≤ 0 ∧ sg.dest = true then killseg id s else s) ∧
      DestOk (if sg.nattch ≤ 0 ∧ sg.dest = true then killseg id s else s) := by
  by_cases hkill : sg.nattch ≤ 0 ∧ sg.dest = true
  · rw [if_pos hkill]
    have hon : OnTask (killseg id s) = OnTask s := by
      unfold OnTask
      rw [killseg_task]
    have hfresh : (killseg id s).fresh = s.fresh := by
      unfold killseg
      split <;> rfl
    refine ⟨⟨⟨?_, ?_⟩, ?_⟩, fun id' sg' hsg' hd => ?_⟩
    · rw [killseg_task, hfresh]
      exact h.tasks.owner
    · rw [killseg_task]
      exact h.tasks.nodup
    · rw [hon, killseg_seg]
      exact h.segs.kill (h.segs.not_on_of_nattch hsg hkill.1)
    · rw [killseg_seg] at hsg'
      by_cases hid : id' = id
      · subst hid
        exact absurd hsg' (by simp)
      · rw [update_of_ne hid] at hsg'
        exact hdest id' sg' hid hsg' hd
  · rw [if_neg hkill]
    refine ⟨h, fun id' sg' hsg' hd => ?_⟩
    by_cases hid : id' = id
    · subst hid
      rw [hsg] at hsg'
      cases hsg'
      by_contra hn
      exact hkill ⟨by omega, hd⟩
    · exact hdest id' sg' hid hsg' hd

end Tasks

theorem DestOk.but {s s' : State} (h : DestOk s) {id : Nat}
    (hseg : ∀ id' ≠ id, s'.seg id' = s.seg id') : DestOkBut s' id := by
  intro id' sg hid hsg
  rw [hseg id' hid] at hsg
  exact h id' sg hsg

/-! ## The marks -/

/-- Segments come to be marked only through `m`, stay marked, and only marked ones go. -/
structure MarksKept (m : Nat → Prop) (s s' : State) : Prop where
  kept : ∀ id sg, s.seg id = some sg →
    (∃ sg', s'.seg id = some sg' ∧ (sg'.dest = true ↔ sg.dest = true ∨ m id)) ∨
      s'.seg id = none ∧ (sg.dest = true ∨ m id)
  unused : ∀ id, s.seg id = none → s'.seg id = none

/-- Nothing is marked. -/
def noMark (_ : Nat) : Prop := False

namespace MarksKept

variable {m : Nat → Prop} {s s₁ s₂ : State} {id : Nat} {sg : Segment}

theorem of_eq (h : s₁.seg = s.seg) : MarksKept noMark s s₁ := by
  refine ⟨fun id sg hsg => .inl ⟨sg, by rw [h, hsg], by simp [noMark]⟩, fun id hid => ?_⟩
  rw [h, hid]

theorem trans (h : MarksKept m s s₁) (h' : MarksKept noMark s₁ s₂) : MarksKept m s s₂ := by
  refine ⟨fun id sg hsg => ?_, fun id hid => h'.unused id (h.unused id hid)⟩
  rcases h.kept id sg hsg with ⟨sg₁, h₁, hd₁⟩ | ⟨h₁, hd₁⟩
  · rcases h'.kept id sg₁ h₁ with ⟨sg₂, h₂, hd₂⟩ | ⟨h₂, hd₂⟩
    · exact .inl ⟨sg₂, h₂, by rw [hd₂, hd₁]; simp [noMark]⟩
    · exact .inr ⟨h₂, hd₁.1 (by simpa [noMark] using hd₂)⟩
  · exact .inr ⟨h'.unused id h₁, hd₁⟩

/-- One segment is rewritten, and marked if `m` says so. -/
theorem setSeg (hsg : s.seg id = some sg) (sg' : Segment) (hseg : s₁.seg = s.seg)
    (hm : ∀ id', m id' → id' = id) (hd : sg'.dest = true ↔ sg.dest = true ∨ m id) :
    MarksKept m s (s₁.setSeg id sg') := by
  have hupd : (s₁.setSeg id sg').seg = update s.seg id (some sg') := by
    rw [← hseg]
    rfl
  refine ⟨fun id' sg'' h'' => ?_, fun id' h' => ?_⟩
  · rw [hupd]
    by_cases hid : id' = id
    · subst hid
      rw [hsg] at h''
      cases h''
      exact .inl ⟨sg', update_self _ _ _, hd⟩
    · refine .inl ⟨sg'', by rw [update_of_ne hid, h''], ?_⟩
      have : ¬ m id' := fun hmid => hid (hm id' hmid)
      simp [this]
  · rw [hupd]
    by_cases hid : id' = id
    · subst hid
      rw [hsg] at h'
      cases h'
    · rw [update_of_ne hid, h']

theorem settle (hsg : s.seg id = some sg) :
    MarksKept noMark s (if sg.nattch ≤ 0 ∧ sg.dest = true then killseg id s else s) := by
  by_cases hkill : sg.nattch ≤ 0 ∧ sg.dest = true
  · rw [if_pos hkill]
    refine ⟨fun id' sg' h' => ?_, fun id' h' => ?_⟩
    · rw [killseg_seg]
      by_cases hid : id' = id
      · subst hid
        rw [hsg] at h'
        cases h'
        exact .inr ⟨update_self _ _ _, .inl hkill.2⟩
      · exact .inl ⟨sg', by rw [update_of_ne hid, h'], by simp [noMark]⟩
    · rw [killseg_seg]
      by_cases hid : id' = id
      · rw [hid, update_self]
      · rw [update_of_ne hid, h']
  · rw [if_neg hkill]
    exact of_eq rfl

end MarksKept

/-! ## Attaching and detaching -/

/-- What every operation has to keep. -/
structure Good (s : State) : Prop where
  counted : Counted s
  dest : DestOk s

theorem shmMap_shm {d : ShmDesc} {remap : Bool} {alloc : Nat → Bool} {task task' : Task}
    {r : Option Int} (h : shmMap d remap alloc task = (task', r)) : task'.shm = task.shm := by
  unfold shmMap at h
  dsimp only at h
  split at h <;> (cases h; rfl)

section Operations

variable {s s' : State} {t : Nat} {task : Task} {d : ShmDesc}

/-- A descriptor that `kmalloc` has just returned is on no list. -/
theorem TasksOk.not_onTask (h : TasksOk s) (hd : d.ref = s.fresh) : ¬ OnTask s d := by
  rintro ⟨t, task, ht, hmem⟩
  have := (h.owner t task ht d hmem).2
  omega

theorem onTask_congr (h : s'.task = s.task) (x : ShmDesc) : OnTask s' x ↔ OnTask s x := by
  unfold OnTask
  rw [h]

/-- A descriptor that `kmalloc` has just returned joins the list of a task and of a segment. -/
theorem Counted.added (h : Counted s) (ht : s.task t = some task) {sg : Segment}
    (hsg : s.seg d.id = some sg) (hroom : sg.attaches.length < shortMax) (hdt : d.task = t)
    (href : d.ref = s.fresh) {task' : Task} (hshm : task'.shm = d :: task.shm)
    (htask : s'.task = (s.setTask t task').task) (hfresh : s'.fresh = s.fresh + 1)
    (hseg : s'.seg = update s.seg d.id (some { sg with
      nattch := short (sg.nattch + 1), attaches := d :: sg.attaches })) : Counted s' := by
  have hnew : ¬ OnTask s d := h.tasks.not_onTask href
  have howner := fun t task ht d hd => (h.tasks.owner t task ht d hd).1
  have hlt : ∀ x ∈ task'.shm, x.task = t ∧ x.ref < s.fresh + 1 := by
    intro x hx
    rw [hshm] at hx
    rcases List.mem_cons.1 hx with rfl | hx
    · exact ⟨hdt, by omega⟩
    · have := h.tasks.owner t task ht x hx
      exact ⟨this.1, by omega⟩
  have holder : TasksOk { s with fresh := s.fresh + 1 } :=
    ⟨fun t task ht x hx => ⟨(h.tasks.owner t task ht x hx).1,
      (h.tasks.owner t task ht x hx).2.trans (Nat.lt_succ_self _)⟩, h.tasks.nodup⟩
  have hnodup : task'.shm.Nodup := by
    rw [hshm]
    exact List.nodup_cons.2 ⟨fun hmem => hnew ⟨t, task, ht, hmem⟩, h.tasks.nodup t task ht⟩
  have hset := holder.setTask hlt hnodup
  refine ⟨⟨?_, ?_⟩, ?_⟩
  · rw [htask, hfresh]
    exact hset.owner
  · rw [htask]
    exact hset.nodup
  · rw [hseg]
    refine (h.segs.add hsg hnew hroom).congr fun x => ?_
    rw [onTask_congr htask, onTask_setTask ht howner fun x hx => (hlt x hx).1, hshm, List.mem_cons]
    constructor
    · rintro ((rfl | hx) | ⟨-, hx⟩)
      · exact .inl rfl
      · exact .inr ⟨t, task, ht, hx⟩
      · exact .inr hx
    · rintro (rfl | hx)
      · exact .inl (.inl rfl)
      · by_cases hmem : x ∈ task.shm
        · exact .inl (.inr hmem)
        · exact .inr ⟨hmem, hx⟩

/-- A descriptor leaves the list of its task and of its segment. -/
theorem Counted.removed (h : Counted s) (ht : s.task t = some task) (hd : d ∈ task.shm)
    {sg : Segment} (hsg : s.seg d.id = some sg) (task' : Task)
    (hshm : task'.shm = task.shm.erase d) :
    Counted ((s.setTask t task').setSeg d.id { sg with
      attaches := sg.attaches.erase d, nattch := short (sg.nattch - 1) }) := by
  have howner := fun t task ht d hd => (h.tasks.owner t task ht d hd).1
  have hnodup := h.tasks.nodup t task ht
  have hlt : ∀ x ∈ task'.shm, x.task = t ∧ x.ref < s.fresh := by
    intro x hx
    rw [hshm] at hx
    exact h.tasks.owner t task ht x (List.mem_of_mem_erase hx)
  have hset := h.tasks.setTask hlt (by rw [hshm]; exact hnodup.erase d)
  refine ⟨⟨hset.owner, hset.nodup⟩, (h.segs.remove hsg ⟨t, task, ht, hd⟩).congr fun x => ?_⟩
  have hstep : OnTask ((s.setTask t task').setSeg d.id { sg with
      attaches := sg.attaches.erase d, nattch := short (sg.nattch - 1) }) x ↔
      OnTask (s.setTask t task') x := Iff.rfl
  rw [hstep, onTask_setTask ht howner fun x hx => (hlt x hx).1, hshm, hnodup.mem_erase_iff]
  constructor
  · rintro (⟨hne, hx⟩ | ⟨hnot, hx⟩)
    · exact ⟨hne, t, task, ht, hx⟩
    · refine ⟨?_, hx⟩
      rintro rfl
      exact hnot hd
  · rintro ⟨hne, hx⟩
    by_cases hmem : x ∈ task.shm
    · exact .inl ⟨hne, hmem⟩
    · exact .inr ⟨hmem, hx⟩

/-- **`shmat`** past its tests. -/
theorem Good.attach (h : Good s) (ht : s.task t = some task) {id : Nat} {sg : Segment}
    (hsg : s.seg id = some sg) (hroom : sg.attaches.length < shortMax) (addr : Nat)
    (a : ShmatArgs) :
    Good (attach t task id sg addr a s).1 ∧ MarksKept noMark s (attach t task id sg addr a s).1 := by
  have hok := h.counted.segs.ok id sg hsg
  have hn : short (sg.nattch + 1) = sg.nattch + 1 := by
    have := hok.nattch_eq
    unfold shortMax at hroom
    exact short_eq (by omega) (by omega)
  unfold Shm.attach
  dsimp only
  cases hmap : shmMap ⟨s.fresh, id, a.readOnly, addr, addr + sg.npages * pageSize, t⟩ a.remap
    a.alloc task with
  | mk task' r =>
    have hshm := shmMap_shm hmap
    cases r with
    | some err =>
      have hback : short (short (sg.nattch + 1) - 1) = sg.nattch := by
        have := hok.nattch_eq
        unfold shortMax at hroom
        rw [hn]
        exact (short_eq (by omega) (by omega)).trans (by omega)
      have hset : Counted ((s.setTask t task').setSeg id
          { sg with nattch := short (short (sg.nattch + 1) - 1) }) :=
        (h.counted.setTask ht hshm).setSeg hsg _ hback rfl
      have hbut : DestOkBut ((s.setTask t task').setSeg id
          { sg with nattch := short (short (sg.nattch + 1) - 1) }) id :=
        h.dest.but fun id' hid => update_of_ne hid _ _
      have hself : ((s.setTask t task').setSeg id
          { sg with nattch := short (short (sg.nattch + 1) - 1) }).seg id =
          some { sg with nattch := short (short (sg.nattch + 1) - 1) } := update_self _ _ _
      obtain ⟨hc, hd⟩ := hset.settle hbut hself
      refine ⟨⟨hc, hd⟩, MarksKept.trans ?_ (MarksKept.settle hself)⟩
      exact MarksKept.setSeg hsg _ rfl (fun _ h => h.elim) (by simp [noMark])
    | none =>
      dsimp only
      generalize hdesc : (⟨s.fresh, id, a.readOnly, addr, addr + sg.npages * pageSize, t⟩ : ShmDesc)
        = d
      have hid : d.id = id := by rw [← hdesc]
      have href : d.ref = s.fresh := by rw [← hdesc]
      have hdt : d.task = t := by rw [← hdesc]
      subst hid
      refine ⟨⟨h.counted.added ht hsg hroom hdt href (by rw [hshm]) rfl rfl rfl, ?_⟩, ?_⟩
      · intro id' sg' hsg' hdest
        replace hsg' : update s.seg d.id (some { sg with
          nattch := short (sg.nattch + 1), attaches := d :: sg.attaches }) id' = some sg' := hsg'
        by_cases hid : id' = d.id
        · subst hid
          rw [update_self] at hsg'
          cases hsg'
          have := hok.nattch_eq
          show 0 < short (sg.nattch + 1)
          omega
        · rw [update_of_ne hid] at hsg'
          exact h.dest id' sg' hsg' hdest
      · have hset : MarksKept noMark s (s.setSeg d.id { sg with
            nattch := short (sg.nattch + 1), attaches := d :: sg.attaches }) :=
          MarksKept.setSeg hsg _ rfl (fun _ h => h.elim) (by simp [noMark])
        exact hset.trans (MarksKept.of_eq rfl)

/-- **`detach`** of a descriptor on the list of its task. -/
theorem Good.detach (h : Good s) (ht : s.task t = some task) (hd : d ∈ task.shm)
    (hdetach : detach t task d s = some s') :
    Good s' ∧ MarksKept noMark s s' ∧
      ∃ task', s'.task t = some task' ∧ task'.shm = task.shm.erase d := by
  unfold Shm.detach at hdetach
  split at hdetach
  · cases hdetach
  rename_i sg hsg
  simp only [Option.some.injEq] at hdetach
  subst hdetach
  have hrem := h.counted.removed ht hd hsg
    (unmapPageRange d.start sg.segsz { task with shm := task.shm.erase d }) rfl
  have hself := show ((s.setTask t (unmapPageRange d.start sg.segsz
      { task with shm := task.shm.erase d })).setSeg d.id { sg with
        attaches := sg.attaches.erase d, nattch := short (sg.nattch - 1) }).seg d.id =
      some { sg with attaches := sg.attaches.erase d, nattch := short (sg.nattch - 1) }
    from update_self _ _ _
  obtain ⟨hc, hdest⟩ := hrem.settle (h.dest.but fun id' hid => update_of_ne hid _ _) hself
  refine ⟨⟨hc, hdest⟩, MarksKept.trans ?_ (MarksKept.settle hself), ?_⟩
  · exact MarksKept.setSeg hsg _ rfl (fun _ h => h.elim) (by simp [noMark])
  · refine ⟨unmapPageRange d.start sg.segsz { task with shm := task.shm.erase d }, ?_, rfl⟩
    have htask : ((s.setTask t (unmapPageRange d.start sg.segsz
        { task with shm := task.shm.erase d })).setSeg d.id { sg with
          attaches := sg.attaches.erase d, nattch := short (sg.nattch - 1) }).task t =
        some (unmapPageRange d.start sg.segsz { task with shm := task.shm.erase d }) :=
      update_self _ _ _
    split
    · rw [killseg_task]
      exact htask
    · exact htask

end Operations

section Calls

variable {s s' : State} {t : Nat} {task : Task}

/-- **`shm_exit`** leaves the task without attaches. -/
theorem Good.shmExit (h : Good s) (ht : s.task t = some task)
    (hexit : shmExit t task.shm.length s = some s') :
    Good s' ∧ MarksKept noMark s s' ∧ ∃ task', s'.task t = some task' ∧ task'.shm = [] := by
  generalize hn : task.shm.length = n at hexit
  induction n generalizing s task with
  | zero =>
    cases hexit
    exact ⟨h, .of_eq rfl, task, ht, List.length_eq_zero_iff.1 hn⟩
  | succ n ih =>
    rw [Shm.shmExit, ht] at hexit
    dsimp only at hexit
    cases hl : task.shm with
    | nil =>
      rw [hl] at hn
      cases hn
    | cons d l =>
      rw [hl] at hexit hn
      obtain ⟨s₁, hdetach, hrest⟩ := Option.bind_eq_some_iff.1 hexit
      obtain ⟨hgood, hmarks, task₁, ht₁, hshm₁⟩ := h.detach ht (by simp [hl]) hdetach
      rw [hl, List.erase_cons_head] at hshm₁
      obtain ⟨hgood', hmarks', hdone⟩ :=
        ih hgood ht₁ (by rw [hshm₁]; simpa using hn) hrest
      exact ⟨hgood', hmarks.trans hmarks', hdone⟩

/-- **`shmat`**, successful or not. -/
theorem Good.sysShmat (h : Good s) (ht : s.task t = some task) (a : ShmatArgs)
    (hroom : ∀ sg, s.seg (a.shmid.toNat % mni) = some sg → sg.attaches.length < shortMax) :
    Good (sysShmat t task a s).1 ∧ MarksKept noMark s (sysShmat t task a s).1 := by
  have hsame : Good s ∧ MarksKept noMark s s := ⟨h, .of_eq rfl⟩
  unfold Shm.sysShmat
  split
  · exact hsame
  split
  · exact hsame
  rename_i sg hsg
  split
  · exact hsame
  split
  · exact hsame
  split
  · exact hsame
  split
  · exact hsame
  split
  · exact hsame
  split
  · exact h.attach ht hsg (hroom sg hsg) _ a
  · exact hsame

theorem Good.sysShmdt (h : Good s) (ht : s.task t = some task) {shmaddr : Nat}
    {r : Except Int Nat} (hdt : sysShmdt t task shmaddr s = some (s', r)) :
    Good s' ∧ MarksKept noMark s s' := by
  unfold Shm.sysShmdt at hdt
  split at hdt
  · cases hdt
    exact ⟨h, .of_eq rfl⟩
  · rename_i d hfind
    obtain ⟨s₁, hdetach, heq⟩ := Option.map_eq_some_iff.1 hdt
    cases heq
    obtain ⟨hgood, hmarks, -⟩ := h.detach ht (List.mem_of_find?_eq_some hfind) hdetach
    exact ⟨hgood, hmarks⟩

end Calls

/-! ## `fork` -/

/-- The descriptors of a child are new, and name the segments of the parent's. -/
theorem copyDescs_new {c fresh : Nat} {l acc : List ShmDesc} {x : ShmDesc}
    (hx : x ∈ copyDescs c fresh l acc) :
    x ∈ acc ∨ x.task = c ∧ fresh ≤ x.ref ∧ x.ref < fresh + l.length ∧ ∃ d ∈ l, x.id = d.id := by
  induction l generalizing fresh acc with
  | nil => exact .inl hx
  | cons d l ih =>
    rcases ih hx with hacc | ⟨h1, h2, h3, d', hd', hid⟩
    · rcases List.mem_cons.1 hacc with rfl | hacc
      · refine .inr ⟨rfl, le_rfl, ?_, d, List.mem_cons_self, rfl⟩
        simp
      · exact .inl hacc
    · refine .inr ⟨h1, by omega, ?_, d', List.mem_cons_of_mem d hd', hid⟩
      rw [List.length_cons]
      omega

theorem copyDescs_nodup {c fresh : Nat} {l acc : List ShmDesc} (hacc : acc.Nodup)
    (hold : ∀ x ∈ acc, x.ref < fresh) : (copyDescs c fresh l acc).Nodup := by
  induction l generalizing fresh acc with
  | nil => exact hacc
  | cons d l ih =>
    refine ih (List.nodup_cons.2 ⟨fun hmem => ?_, hacc⟩) fun x hx => ?_
    · exact absurd (hold _ hmem) (by simp)
    · rcases List.mem_cons.1 hx with rfl | hx
      · simp
      · exact (hold x hx).trans (Nat.lt_succ_self _)

theorem copyDescs_count {c fresh : Nat} {l acc : List ShmDesc} (id : Nat) :
    (copyDescs c fresh l acc).countP (fun d => d.id = id) =
      l.countP (fun d => d.id = id) + acc.countP (fun d => d.id = id) := by
  induction l generalizing fresh acc with
  | nil => simp [copyDescs]
  | cons d l ih =>
    rw [copyDescs, ih, List.countP_cons, List.countP_cons]
    dsimp only
    omega

/-- **The second loop of `shm_fork`** attaches all descriptors. -/
theorem attachAll_ok {On : ShmDesc → Prop} (l : List ShmDesc) (s : State) (h : SegsOk s.seg On)
    (hdest : DestOk s) (hnew : ∀ d ∈ l, ¬ On d) (hnodup : l.Nodup)
    (hlive : ∀ d ∈ l, ∃ sg, s.seg d.id = some sg)
    (hroom : ∀ id sg, s.seg id = some sg →
      sg.attaches.length + l.countP (fun d => d.id = id) ≤ shortMax) :
    (attachAll l s).2 = true ∧ SegsOk (attachAll l s).1.seg (fun d => d ∈ l ∨ On d) ∧
      DestOk (attachAll l s).1 ∧ MarksKept noMark s (attachAll l s).1 ∧
      (attachAll l s).1.fresh = s.fresh := by
  induction l generalizing s On with
  | nil =>
    refine ⟨rfl, h.congr fun d => by simp, hdest, .of_eq rfl, rfl⟩
  | cons d l ih =>
    obtain ⟨sg, hsg⟩ := hlive d List.mem_cons_self
    have hok := h.ok d.id sg hsg
    have hcount := hroom d.id sg hsg
    rw [List.countP_cons_of_pos (by simp)] at hcount
    rw [List.nodup_cons] at hnodup
    have hadd := h.add hsg (hnew d List.mem_cons_self) (by omega)
    rw [attachAll, hsg]
    dsimp only
    have hdest' : DestOk (s.setSeg d.id
        { sg with attaches := d :: sg.attaches, nattch := short (sg.nattch + 1) }) := by
      intro id sg' hsg' hd
      replace hsg' : update s.seg d.id (some { sg with
        attaches := d :: sg.attaches, nattch := short (sg.nattch + 1) }) id = some sg' := hsg'
      by_cases hid : id = d.id
      · subst hid
        rw [update_self] at hsg'
        cases hsg'
        have hn := (hadd.ok d.id _ (update_self _ _ _)).nattch_eq
        rw [hn, List.length_cons]
        omega
      · rw [update_of_ne hid] at hsg'
        exact hdest id sg' hsg' hd
    have hnew' : ∀ x ∈ l, ¬ (x = d ∨ On x) := by
      rintro x hx (rfl | hon)
      · exact hnodup.1 hx
      · exact hnew x (List.mem_cons_of_mem d hx) hon
    have hlive' : ∀ x ∈ l, ∃ sg', (s.setSeg d.id
        { sg with attaches := d :: sg.attaches, nattch := short (sg.nattch + 1) }).seg x.id =
          some sg' := by
      intro x hx
      by_cases hid : x.id = d.id
      · rw [hid]
        exact ⟨_, update_self _ _ _⟩
      · obtain ⟨sg', hsg'⟩ := hlive x (List.mem_cons_of_mem d hx)
        exact ⟨sg', by rw [← hsg']; exact update_of_ne hid _ _⟩
    have hroom' : ∀ id sg', (s.setSeg d.id
        { sg with attaches := d :: sg.attaches, nattch := short (sg.nattch + 1) }).seg id =
          some sg' → sg'.attaches.length + l.countP (fun d => d.id = id) ≤ shortMax := by
      intro id sg' hsg'
      replace hsg' : update s.seg d.id (some { sg with
        attaches := d :: sg.attaches, nattch := short (sg.nattch + 1) }) id = some sg' := hsg'
      by_cases hid : id = d.id
      · subst hid
        rw [update_self] at hsg'
        cases hsg'
        rw [List.length_cons]
        omega
      · rw [update_of_ne hid] at hsg'
        have := hroom id sg' hsg'
        rw [List.countP_cons] at this
        omega
    obtain ⟨h1, h2, h3, h4, h5⟩ := ih _ hadd hdest' hnew' hnodup.2 hlive' hroom'
    refine ⟨h1, h2.congr fun x => ?_, h3, MarksKept.trans ?_ h4, h5⟩
    · rw [List.mem_cons]
      tauto
    · exact MarksKept.setSeg hsg _ rfl (fun _ h => h.elim) (by simp [noMark])

theorem onTask_setTask_none {s : State} {c : Nat} {task : Task} (hc : s.task c = none)
    (d : ShmDesc) : OnTask (s.setTask c task) d ↔ d ∈ task.shm ∨ OnTask s d := by
  constructor
  · rintro ⟨t, task', ht, hd⟩
    by_cases htc : t = c
    · subst htc
      rw [show (s.setTask t task).task t = some task from update_self _ _ _] at ht
      cases ht
      exact .inl hd
    · rw [show (s.setTask c task).task t = s.task t from update_of_ne htc _ _] at ht
      exact .inr ⟨t, task', ht, hd⟩
  · rintro (hd | ⟨t, task', ht, hd⟩)
    · exact ⟨c, task, update_self _ _ _, hd⟩
    · refine ⟨t, task', ?_, hd⟩
      rw [← ht]
      refine update_of_ne ?_ _ _
      rintro rfl
      rw [hc] at ht
      cases ht

/-- **`fork`**, successful or not. -/
theorem Good.shmFork {s : State} {t : Nat} {task : Task} (h : Good s) (ht : s.task t = some task)
    {c : Nat} (hc : s.task c = none) (copyVm : Bool) (kmallocs : Nat)
    (hroom : ∀ id sg, s.seg id = some sg →
      sg.attaches.length + task.shm.countP (fun d => d.id = id) ≤ shortMax) :
    Good (shmFork task c copyVm kmallocs s).1 ∧
      MarksKept noMark s (shmFork task c copyVm kmallocs s).1 := by
  unfold Shm.shmFork
  split
  · exact ⟨h, .of_eq rfl⟩
  have hmem : ∀ x ∈ copyDescs c s.fresh task.shm [], x.task = c ∧ s.fresh ≤ x.ref ∧
      x.ref < s.fresh + task.shm.length ∧ ∃ d ∈ task.shm, x.id = d.id := by
    intro x hx
    exact (copyDescs_new hx).resolve_left (by simp)
  have hnodup : (copyDescs c s.fresh task.shm []).Nodup :=
    copyDescs_nodup List.nodup_nil (by simp)
  have hnew : ∀ x ∈ copyDescs c s.fresh task.shm [], ¬ OnTask s x := by
    rintro x hx ⟨t', task', ht', hx'⟩
    have h1 := (hmem x hx).2.1
    have h2 := (h.counted.tasks.owner t' task' ht' x hx').2
    omega
  have hlive : ∀ x ∈ copyDescs c s.fresh task.shm [], ∃ sg, s.seg x.id = some sg := by
    intro x hx
    obtain ⟨-, -, -, d, hd, hid⟩ := hmem x hx
    rw [hid]
    exact h.counted.segs.live d ⟨t, task, ht, hd⟩
  have hspace : ∀ id sg, s.seg id = some sg → sg.attaches.length +
      (copyDescs c s.fresh task.shm []).countP (fun d => d.id = id) ≤ shortMax := by
    intro id sg hsg
    rw [copyDescs_count, List.countP_nil, Nat.add_zero]
    exact hroom id sg hsg
  obtain ⟨hdone, hsegs, hdest, hmarks, hfresh⟩ :=
    attachAll_ok (copyDescs c s.fresh task.shm []) { s with fresh := s.fresh + task.shm.length }
      h.counted.segs h.dest hnew hnodup hlive hspace
  obtain ⟨htask, -⟩ := attachAll_frame (copyDescs c s.fresh task.shm [])
    { s with fresh := s.fresh + task.shm.length }
  have hfirst : MarksKept noMark s { s with fresh := s.fresh + task.shm.length } := .of_eq rfl
  have hmarks' := hfirst.trans hmarks
  dsimp only
  split
  · rename_i s₁ heq
    rw [heq] at htask hsegs hdest hmarks' hfresh
    have htask₁ : s₁.task = s.task := htask
    have hfresh₁ : s₁.fresh = s.fresh + task.shm.length := hfresh
    have hold : TasksOk s₁ := by
      refine ⟨?_, ?_⟩
      · rw [htask₁, hfresh₁]
        intro t' task' ht' d hd
        have := h.counted.tasks.owner t' task' ht' d hd
        exact ⟨this.1, by omega⟩
      · rw [htask₁]
        exact h.counted.tasks.nodup
    have hset : TasksOk (s₁.setTask c { task with shm := copyDescs c s.fresh task.shm [] }) := by
      refine hold.setTask (fun d hd => ?_) hnodup
      have := hmem d hd
      exact ⟨this.1, by rw [hfresh₁]; exact this.2.2.1⟩
    refine ⟨⟨⟨hset, ?_⟩, hdest⟩, hmarks'.trans (.of_eq rfl)⟩
    refine hsegs.congr fun d => ?_
    rw [onTask_setTask_none (by rw [htask₁, hc]), onTask_congr htask₁]
  · rename_i s₁ heq
    rw [heq] at hdone
    cases hdone

/-! ## The segments -/

theorem lookupSeg_ok {s : State} {shmid : Int} {id : Nat} {sg : Segment}
    (h : lookupSeg shmid s = .ok (id, sg)) : s.seg id = some sg := by
  unfold lookupSeg at h
  split at h
  · cases h
  · split at h
    · cases h
    · rename_i sg' hsg'
      split at h
      · cases h
      · cases h
        exact hsg'

/-- The call marks the segment `id`. -/
def marks (s : State) : Event → Nat → Prop
  | .rmid shmid owner, id => owner = true ∧ ∃ sg, lookupSeg shmid s = .ok (id, sg)
  | _, _ => False

/-- **`IPC_RMID`** marks the segment, which goes at once if nobody has it attached. -/
theorem Good.ipcRmid {s : State} (h : Good s) (shmid : Int) (owner : Bool) :
    Good (ipcRmid shmid owner s).1 ∧
      MarksKept (marks s (.rmid shmid owner)) s (ipcRmid shmid owner s).1 := by
  have hnone : (∀ id, ¬ marks s (.rmid shmid owner) id) →
      Good s ∧ MarksKept (marks s (.rmid shmid owner)) s s := by
    intro hno
    refine ⟨h, ⟨fun id sg hsg => .inl ⟨sg, hsg, by simp [hno id]⟩, fun id hid => hid⟩⟩
  unfold Shm.ipcRmid
  split
  · rename_i e heq
    refine hnone fun id hm => ?_
    obtain ⟨-, sg, hlook⟩ := hm
    rw [heq] at hlook
    cases hlook
  · rename_i id sg heq
    have hsg := lookupSeg_ok heq
    split
    · rename_i howner
      have hset := h.counted.setSeg hsg { sg with dest := true } rfl rfl
      have hself : (s.setSeg id { sg with dest := true }).seg id =
          some { sg with dest := true } := update_self _ _ _
      obtain ⟨hc, hd⟩ :=
        hset.settle (h.dest.but fun id' hid => update_of_ne hid _ _) hself
      have hmark : MarksKept (marks s (.rmid shmid owner)) s
          (s.setSeg id { sg with dest := true }) := by
        refine MarksKept.setSeg hsg _ rfl (fun id' hm => ?_) ?_
        · obtain ⟨-, sg', hlook⟩ := hm
          rw [heq] at hlook
          cases hlook
          rfl
        · exact ⟨fun _ => .inr ⟨howner, sg, heq⟩, fun _ => rfl⟩
      have hall := hmark.trans (MarksKept.settle hself)
      simp only [and_true] at hc hd hall
      exact ⟨⟨hc, hd⟩, hall⟩
    · rename_i howner
      exact hnone fun id hm => howner hm.1

theorem Good.newseg {s : State} (h : Good s) (size : Int) (kmallocOk : Bool) :
    Good (newseg size kmallocOk s).1 ∧
      ∀ id sg, s.seg id = some sg → (newseg size kmallocOk s).1.seg id = some sg := by
  have hsame : Good s ∧ ∀ id sg, s.seg id = some sg → s.seg id = some sg := ⟨h, fun _ _ hsg => hsg⟩
  unfold Shm.newseg
  split
  · dsimp only
    split
    · exact hsame
    split
    · exact hsame
    rename_i id hfind
    split
    · have hfree : s.seg id = none := by simpa using List.find?_some hfind
      refine ⟨⟨⟨⟨h.counted.tasks.owner, h.counted.tasks.nodup⟩,
        h.counted.segs.create hfree rfl rfl⟩, fun id' sg' hsg' hd => ?_⟩, fun id' sg' hsg' => ?_⟩
      · replace hsg' : update s.seg id (some _) id' = some sg' := hsg'
        by_cases hid : id' = id
        · subst hid
          rw [update_self] at hsg'
          cases hsg'
          cases hd
        · rw [update_of_ne hid] at hsg'
          exact h.dest id' sg' hsg' hd
      · have hid : id' ≠ id := by
          rintro rfl
          rw [hfree] at hsg'
          cases hsg'
        rw [← hsg']
        exact update_of_ne hid _ _
    · exact hsame
  · exact hsame

/-! ## Any run -/

/-- A step after which no segment has more than 32767 attaches. -/
def AttachRoom (s : State) (e : Event) : Prop :=
  Allowed s e ∧
    match e with
    | .shmat _ a => ∀ sg, s.seg (a.shmid.toNat % mni) = some sg → sg.attaches.length < shortMax
    | .fork t _ _ _ => ∀ task, s.task t = some task → ∀ id sg, s.seg id = some sg →
        sg.attaches.length + task.shm.countP (fun d => d.id = id) ≤ shortMax
    | _ => True

/-- What a step does to the segments there are. -/
def SegmentsStep (s : State) (e : Event) (s' : State) : Prop :=
  ∀ id sg, s.seg id = some sg →
    (∃ sg', s'.seg id = some sg' ∧ (sg'.dest = true ↔ sg.dest = true ∨ marks s e id)) ∨
      s'.seg id = none ∧ (sg.dest = true ∨ marks s e id)

theorem MarksKept.segmentsStep {s s' : State} {e : Event} (h : MarksKept noMark s s')
    (hno : ∀ id, ¬ marks s e id) : SegmentsStep s e s' := by
  intro id sg hsg
  have := h.kept id sg hsg
  simpa [noMark, hno id] using this

/-- **One step** keeps the counts. -/
theorem Good.step {s s' : State} {e : Event} (h : Good s) (hok : AttachRoom s e)
    (he : step s e = some s') : Good s' ∧ SegmentsStep s e s' := by
  obtain ⟨⟨s'', r⟩, hout, rfl⟩ := Option.map_eq_some_iff.1 he
  cases e with
  | newseg size kmallocOk =>
    obtain ⟨hgood, hkeep⟩ := h.newseg size kmallocOk
    rw [show Shm.newseg size kmallocOk s = (s'', r) from Option.some.inj hout] at hgood hkeep
    exact ⟨hgood, fun id sg hsg => .inl ⟨sg, hkeep id sg hsg, by simp [marks]⟩⟩
  | rmid shmid owner =>
    obtain ⟨hgood, hmarks⟩ := h.ipcRmid shmid owner
    rw [show Shm.ipcRmid shmid owner s = (s'', r) from Option.some.inj hout] at hgood hmarks
    exact ⟨hgood, hmarks.kept⟩
  | shmat t a =>
    obtain ⟨task, ht, heq⟩ := Option.map_eq_some_iff.1 hout
    obtain ⟨hgood, hmarks⟩ := h.sysShmat ht a hok.2
    rw [heq] at hgood hmarks
    exact ⟨hgood, hmarks.segmentsStep fun _ => id⟩
  | shmdt t shmaddr =>
    obtain ⟨task, ht, hdt⟩ := Option.bind_eq_some_iff.1 hout
    obtain ⟨hgood, hmarks⟩ := h.sysShmdt ht hdt
    exact ⟨hgood, hmarks.segmentsStep fun _ => id⟩
  | fork t c copyVm kmallocs =>
    simp only [stepOut] at hout
    split at hout
    · rename_i hc
      obtain ⟨task, ht, heq⟩ := Option.map_eq_some_iff.1 hout
      obtain ⟨hgood, hmarks⟩ :=
        h.shmFork ht (Option.isNone_iff_eq_none.1 hc) copyVm kmallocs (hok.2 task ht)
      rw [heq] at hgood hmarks
      exact ⟨hgood, hmarks.segmentsStep fun _ => id⟩
    · cases hout
  | exit t =>
    obtain ⟨task, ht, hexit⟩ := Option.bind_eq_some_iff.1 hout
    obtain ⟨s₁, hs₁, heq⟩ := Option.map_eq_some_iff.1 hexit
    cases heq
    obtain ⟨hgood, hmarks, task₁, ht₁, hnil⟩ := h.shmExit ht hs₁
    have hold : ∀ t' task', update s₁.task t none t' = some task' →
        s₁.task t' = some task' := by
      intro t' task' ht'
      by_cases htt : t' = t
      · subst htt
        exact absurd ht' (by simp)
      · rwa [update_of_ne htt] at ht'
    refine ⟨⟨⟨⟨fun t' task' ht' => hgood.counted.tasks.owner t' task' (hold t' task' ht'),
      fun t' task' ht' => hgood.counted.tasks.nodup t' task' (hold t' task' ht')⟩,
      hgood.counted.segs.congr fun d => ?_⟩, hgood.dest⟩, hmarks.segmentsStep fun _ => id⟩
    constructor
    · rintro ⟨t', task', ht', hd⟩
      exact ⟨t', task', hold t' task' ht', hd⟩
    · rintro ⟨t', task', ht', hd⟩
      refine ⟨t', task', ?_, hd⟩
      rw [← ht']
      refine update_of_ne ?_ _ _
      rintro rfl
      rw [ht₁] at ht'
      cases ht'
      rw [hnil] at hd
      exact absurd hd (by simp)
  | exec t startStack =>
    obtain ⟨task, ht, hexit⟩ := Option.bind_eq_some_iff.1 hout
    obtain ⟨s₁, hs₁, heq⟩ := Option.map_eq_some_iff.1 hexit
    cases heq
    obtain ⟨hgood, hmarks, task₁, ht₁, hnil⟩ := h.shmExit ht hs₁
    refine ⟨⟨hgood.counted.setTask ht₁ hnil.symm, hgood.dest⟩, ?_⟩
    exact (hmarks.trans (.of_eq rfl)).segmentsStep fun _ => id
  | paging t page v =>
    obtain ⟨task, ht, heq⟩ := Option.map_eq_some_iff.1 hout
    cases heq
    refine ⟨⟨h.counted.setTask ht rfl, h.dest⟩, ?_⟩
    exact MarksKept.segmentsStep (.of_eq rfl) fun _ => id

/-- The segment `id` is attached by no live task. -/
def Detached (s : State) (id : Nat) : Prop := ∀ d, OnTask s d → d.id ≠ id

/-- **What `shm_nattch` is for**: it is the length of the list `attaches`, which holds exactly the
descriptors of live tasks; and a segment goes in a step exactly when it is marked and the step
leaves it without attaches. -/
structure AttachesCounted (ok : State → Event → Prop) (s : State) : Prop where
  nattch : ∀ id sg, s.seg id = some sg → sg.nattch = sg.attaches.length ∧ sg.attaches.Nodup ∧
    ∀ d, d ∈ sg.attaches ↔ OnTask s d ∧ d.id = id
  destroyed : ∀ e s', ok s e → step s e = some s' → ∀ id sg, s.seg id = some sg →
    (s'.seg id = none ↔ (sg.dest = true ∨ marks s e id) ∧ Detached s' id)

theorem Good.attachesCounted {s : State} (h : Good s) : AttachesCounted AttachRoom s := by
  refine ⟨fun id sg hsg => ?_, fun e s' hok he id sg hsg => ?_⟩
  · obtain ⟨h1, h2, h3, -⟩ := h.counted.segs.ok id sg hsg
    exact ⟨h1, h2, h3⟩
  · obtain ⟨hgood, hstep⟩ := h.step hok he
    constructor
    · intro hnone
      refine ⟨?_, fun d hd hid => ?_⟩
      · rcases hstep id sg hsg with ⟨sg', hsg', -⟩ | ⟨-, hmark⟩
        · rw [hnone] at hsg'
          cases hsg'
        · exact hmark
      · obtain ⟨sg', hsg'⟩ := hgood.counted.segs.live d hd
        rw [hid, hnone] at hsg'
        cases hsg'
    · rintro ⟨hmark, hdet⟩
      rcases hstep id sg hsg with ⟨sg', hsg', hd⟩ | ⟨hnone, -⟩
      · -- a marked segment that is still there has an attach
        exfalso
        have hpos := hgood.dest id sg' hsg' (hd.2 hmark)
        obtain ⟨h1, -, h3, -⟩ := hgood.counted.segs.ok id sg' hsg'
        obtain ⟨d, hdm⟩ := List.exists_mem_of_length_pos (l := sg'.attaches) (by omega)
        obtain ⟨hon, hid⟩ := (h3 d).1 hdm
        exact hdet d hon hid
      · exact hnone

theorem good_init (startStack : StackTop) : Good (State.init startStack) := by
  have hnil : ∀ t task, (State.init startStack).task t = some task → task.shm = [] := by
    intro t task ht
    simp only [State.init] at ht
    split at ht
    · cases ht
      rfl
    · cases ht
  refine ⟨⟨⟨fun t task ht d hd => ?_, fun t task ht => ?_⟩, ⟨fun id sg hsg => ?_, ?_⟩⟩, ?_⟩
  · rw [hnil t task ht] at hd
    exact absurd hd (by simp)
  · rw [hnil t task ht]
    exact List.nodup_nil
  · cases hsg
  · rintro d ⟨t, task, ht, hd⟩
    rw [hnil t task ht] at hd
    exact absurd hd (by simp)
  · intro id sg hsg
    cases hsg

/-- **`shm_nattch` counts the attaches** in any run in which no segment gets more than 32767 of
them. -/
theorem attaches_counted_of_reach (startStack : StackTop) {s : State}
    (h : Reach step AttachRoom (State.init startStack) s) : AttachesCounted AttachRoom s := by
  have hgood : Good s :=
    h.invariant (good_init startStack) fun s e s' hs hok he => (hs.step hok he).1
  exact hgood.attachesCounted

/-- The theorem at a run with an attach. -/
theorem attaches_counted_example :
    ∃ s, Reach step AttachRoom exampleState s ∧
      ((s.seg 0).map Segment.nattch) = some 1 ∧ AttachesCounted AttachRoom s := by
  have hseg : Reach step AttachRoom exampleState (newseg 4096 true exampleState).1 :=
    Reach.init.step (.newseg 4096 true) ⟨trivial, trivial⟩ rfl
  have hroom : ∀ sg, (newseg 4096 true exampleState).1.seg 0 = some sg →
      sg.attaches.length < shortMax := by
    intro sg hsg
    cases hsg
    decide
  have hattach := hseg.step (Event.shmat 1 (exampleAttach 0 0x50000000 false))
    ⟨trivial, hroom⟩ rfl
  exact ⟨_, hattach, by decide +kernel, attaches_counted_of_reach _ hattach⟩

/-! ## Too many attaches -/

/-- Task 1 has attached the segment 0, of one page, `n` times, at one page after the other. -/
structure AttachedTimes (n : Nat) (s : State) (task : Task) (sg : Segment) : Prop where
  task_eq : s.task 1 = some task
  stack_eq : task.startStack.1 = taskSize
  pte_eq : ∀ p, 0x10000 + n ≤ p → task.pte p = 0
  seg_eq : s.seg 0 = some sg
  segsz_eq : sg.segsz = 4096
  seq_eq : sg.seq = 0
  nattch_eq : sg.nattch = short n
  length_eq : sg.attaches.length = n

theorem short_succ (n : Int) : short (short n + 1) = short (n + 1) :=
  Int.bmod_add_bmod

/-- A range of one page without an entry passes the check. -/
theorem checkRange_one (alloc : Nat → Bool) (halloc : ∀ d, alloc d = true) {pte : Nat → Nat}
    {p : Nat} (hp : pte p = 0) (pageTable : Nat → Bool) :
    (checkRange false alloc pte (p + 1) 1 p pageTable).2 = none := by
  rw [checkRange, if_pos (Nat.lt_succ_self p)]
  split
  · rw [if_neg (by simp [hp])]
    rfl
  · rw [if_pos (halloc _)]
    rfl

/-- **One more attach** goes through while there is room below the stack. -/
theorem AttachedTimes.next {n : Nat} {s : State} {task : Task} {sg : Segment}
    (h : AttachedTimes n s task sg) (hn : n < 32768) :
    ∃ s' task' sg',
      step s (.shmat 1 (exampleAttach 0 ((0x10000 + n) * 4096) false)) = some s' ∧
        AttachedTimes (n + 1) s' task' sg' := by
  have hempty := h.pte_eq _ le_rfl
  obtain ⟨page, hpage⟩ : ∃ page, page = 0x10000 + n := ⟨_, rfl⟩
  rw [← hpage] at hempty ⊢
  have hpages : sg.npages = 1 := by
    rw [Segment.npages, h.segsz_eq]
    rfl
  have haddr : attachAddr task sg (exampleAttach 0 (page * 4096) false) = .ok (page * 4096) := by
    have hne : page ≠ 0 := by omega
    simp [attachAddr, exampleAttach, hne, pageSize]
  have hstack : ¬ page * 4096 > task.startStack.1 - 16384 - pageSize * sg.npages := by
    rw [h.stack_eq, hpages]
    unfold taskSize pageSize
    omega
  obtain ⟨pageTable, hcheck⟩ : ∃ pageTable, checkRange false (fun _ => true) task.pte (page + 1) 1
      page task.pageTable = (pageTable, none) :=
    ⟨_, Prod.ext rfl (checkRange_one _ (fun _ => rfl) hempty _)⟩
  have hmap : shmMap ⟨s.fresh, 0, false, page * 4096, page * 4096 + sg.npages * pageSize, 1⟩ false
      (fun _ => true) task =
      ({ task with
         pageTable := pageTable
         pte := mapRange 1 page 0x82 task.pte }, none) := by
    have hfirst : page * 4096 / pageSize = page := by simp [pageSize]
    have hlast : (page * 4096 + sg.npages * pageSize) / pageSize = page + 1 := by
      rw [hpages, Nat.add_mul_div_right _ _ (by decide), hfirst]
    unfold shmMap
    simp only [hfirst, hlast, Nat.add_sub_cancel_left, hcheck, ShmDesc.shmSgn, Nat.zero_mul,
      Bool.false_eq_true, if_false, Nat.add_zero]
  have hstep : step s (.shmat 1 (exampleAttach 0 (page * 4096) false)) =
      some (attach 1 task 0 sg (page * 4096) (exampleAttach 0 (page * 4096) false) s).1 := by
    have hshmid : (exampleAttach 0 (page * 4096) false).shmid = 0 := rfl
    have hid : (0 : Int).toNat % mni = 0 := rfl
    have hseq : sg.seq.toNat = (0 : Int).toNat / mni := by
      rw [h.seq_eq]
      rfl
    unfold step stepOut sysShmat
    simp only [h.task_eq, Option.map_some, hshmid, lt_irrefl, if_false, hid, h.seg_eq, haddr,
      hstack, hseq, ne_eq, not_true_eq_false]
    rfl
  rw [hstep]
  refine ⟨_, { task with
    shm := ⟨s.fresh, 0, false, page * 4096, page * 4096 + sg.npages * pageSize, 1⟩ :: task.shm
    pageTable := pageTable
    pte := mapRange 1 page 0x82 task.pte }, { sg with
      nattch := short (sg.nattch + 1)
      attaches := ⟨s.fresh, 0, false, page * 4096, page * 4096 + sg.npages * pageSize, 1⟩ ::
        sg.attaches }, rfl, ?_⟩
  unfold attach
  simp only [exampleAttach, hmap]
  refine ⟨by simp [State.setTask, State.setSeg], h.stack_eq, fun p hp => ?_,
    by simp [State.setSeg], h.segsz_eq, h.seq_eq, ?_, ?_⟩
  · show mapRange 1 page 0x82 task.pte p = 0
    rw [mapRange_apply, if_neg (by omega)]
    exact h.pte_eq p (by omega)
  · show short (sg.nattch + 1) = short (n + 1 : Nat)
    rw [h.nattch_eq, short_succ]
    rfl
  · show (_ :: sg.attaches).length = n + 1
    rw [List.length_cons, h.length_eq]

/-- **The counter overflows**: after 32768 attaches of one page it is negative. -/
theorem attaches_miscounted :
    ∃ s, Reach step Allowed exampleState s ∧ ¬ AttachesCounted Allowed s := by
  have hrun : ∀ n ≤ 32768, ∃ s task sg, Reach step Allowed exampleState s ∧
      AttachedTimes n s task sg := by
    intro n
    induction n with
    | zero =>
      intro _
      have hseg : Reach step Allowed exampleState (newseg 4096 true exampleState).1 :=
        Reach.init.step (.newseg 4096 true) trivial rfl
      exact ⟨_, _, _, hseg, rfl, rfl, fun _ _ => rfl, rfl, rfl, rfl, rfl, rfl⟩
    | succ n ih =>
      intro hn
      obtain ⟨s, task, sg, hreach, htimes⟩ := ih (by omega)
      obtain ⟨s', task', sg', hstep, htimes'⟩ := htimes.next (by omega)
      refine ⟨s', task', sg', hreach.step _ ?_ hstep, htimes'⟩
      trivial
  obtain ⟨s, task, sg, hreach, htimes⟩ := hrun 32768 le_rfl
  refine ⟨s, hreach, fun hcounted => ?_⟩
  have hcount := (hcounted.nattch 0 sg htimes.seg_eq).1
  rw [htimes.nattch_eq, htimes.length_eq] at hcount
  exact absurd hcount (by decide)

end LinuxEvocation.Ipc.Shm
