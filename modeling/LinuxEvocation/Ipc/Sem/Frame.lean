import LinuxEvocation.Ipc.Invariant
import LinuxEvocation.Ipc.Sem.Basic

/-!
# What the semaphore functions leave alone

* The simp set: the value of each semaphore after each store.
* `Frame` — the table, the numbers in the undo records and the operations of sleeping calls are
  as they were; every function but `sys_semop` at its beginning, and the calls that fall asleep,
  keeps it.
* `applyVals`, `applyOps_semval` — the second loop of `sys_semop` as a function of the values.
-/

namespace LinuxEvocation.Ipc.Semaphore

open Function (update update_of_ne update_self)

variable {τ : Type*}

/-! ## Stores -/

section Stores

variable (s : State τ) (sma num : Nat)

theorem setSem_base (x : Sem) (r n : Nat) :
    ((s.setSem sma num x).set r).base n =
      if r = sma ∧ n = num then x else (s.set r).base n := by
  unfold State.setSem
  by_cases hr : r = sma
  · subst hr
    by_cases hn : n = num
    · subst hn
      simp
    · simp [hn]
  · simp [hr]

theorem setSem_semval (x : Sem) (r n : Nat) :
    (s.setSem sma num x).semval r n = if r = sma ∧ n = num then x.semval else s.semval r n := by
  unfold State.semval
  rw [setSem_base, apply_ite Sem.semval]

@[simp]
theorem setSem_undoList (x : Sem) (r : Nat) :
    ((s.setSem sma num x).set r).undo = (s.set r).undo := by
  unfold State.setSem
  by_cases hr : r = sma
  · subst hr
    simp
  · simp [hr]

theorem setSemval_semval (v : UInt16) (r n : Nat) :
    (s.setSemval sma num v).semval r n = if r = sma ∧ n = num then v else s.semval r n :=
  setSem_semval s sma num _ r n

@[simp]
theorem countUp_semval (q : WaitQueue) (r n : Nat) :
    (s.countUp sma num q).semval r n = s.semval r n := by
  cases q <;>
  · unfold State.countUp
    rw [setSem_semval]
    split_ifs with h
    · obtain ⟨rfl, rfl⟩ := h
      rfl
    · rfl

@[simp]
theorem countDown_semval (q : WaitQueue) (r n : Nat) :
    (s.countDown sma num q).semval r n = s.semval r n := by
  cases q <;>
  · unfold State.countDown
    rw [setSem_semval]
    split_ifs with h
    · obtain ⟨rfl, rfl⟩ := h
      rfl
    · rfl

@[simp]
theorem countDown_table (q : WaitQueue) : (s.countDown sma num q).table = s.table := by
  cases q <;> rfl

@[simp]
theorem countDown_pending (q : WaitQueue) : (s.countDown sma num q).pending = s.pending := by
  cases q <;> rfl

@[simp]
theorem countDown_undo (q : WaitQueue) : (s.countDown sma num q).undo = s.undo := by
  cases q <;> rfl

@[simp]
theorem wakeUp_semval (q : WaitQueue) (r n : Nat) :
    (s.wakeUp sma q).semval r n = s.semval r n := rfl

@[simp]
theorem clearAdj_semval (test : Undo → Bool) (r n : Nat) :
    (s.clearAdj sma test).semval r n = s.semval r n := rfl

@[simp]
theorem setUndoList_semval (l : List Nat) (r n : Nat) :
    (s.setUndoList sma l).semval r n = s.semval r n := by
  unfold State.setUndoList State.semval
  by_cases hr : r = sma
  · subst hr
    simp
  · simp [hr]

end Stores

/-! ## Frames -/

/-- What two states have in common: the table, the numbers in the undo records, and whatever
a process in its sleep will come back to. -/
structure Frame (s s' : State τ) : Prop where
  table : s'.table = s.table
  fresh : s'.freshUndo = s.freshUndo
  num : ∀ u, (s'.undo u).semNum = (s.undo u).semNum
  undo : ∀ r, (s'.set r).undo ⊆ (s.set r).undo
  op : ∀ t semid sops sma q num w, s'.task t = .opSleep semid sops sma q num w →
    ∃ w', s.task t = .opSleep semid sops sma q num w'
  exit : ∀ t sma u w, s'.task t = .exitSleep sma u w → ∃ w', s.task t = .exitSleep sma u w'

namespace Frame

variable {s s' s'' : State τ}

theorem refl (s : State τ) : Frame s s :=
  ⟨rfl, rfl, fun _ => rfl, fun _ => List.Subset.refl _, fun _ _ _ _ _ _ w h => ⟨w, h⟩,
    fun _ _ _ w h => ⟨w, h⟩⟩

theorem trans (h : Frame s s') (h' : Frame s' s'') : Frame s s'' := by
  refine ⟨h'.table.trans h.table, h'.fresh.trans h.fresh, fun u => (h'.num u).trans (h.num u),
    fun r => List.Subset.trans (h'.undo r) (h.undo r), fun t semid sops sma q num w hw => ?_,
    fun t sma u w hw => ?_⟩
  · obtain ⟨w', hw'⟩ := h'.op t semid sops sma q num w hw
    exact h.op t semid sops sma q num w' hw'
  · obtain ⟨w', hw'⟩ := h'.exit t sma u w hw
    exact h.exit t sma u w' hw'

theorem setSem (s : State τ) (sma num : Nat) (x : Sem) : Frame s (s.setSem sma num x) :=
  ⟨rfl, rfl, fun _ => rfl, fun r => by rw [setSem_undoList]; exact List.Subset.refl _,
    fun _ _ _ _ _ _ w h => ⟨w, h⟩, fun _ _ _ w h => ⟨w, h⟩⟩

theorem setSemval (s : State τ) (sma num : Nat) (v : UInt16) : Frame s (s.setSemval sma num v) :=
  setSem s sma num _

theorem countUp (s : State τ) (sma num : Nat) (q : WaitQueue) : Frame s (s.countUp sma num q) := by
  cases q <;> exact setSem s sma num _

theorem countDown (s : State τ) (sma num : Nat) (q : WaitQueue) :
    Frame s (s.countDown sma num q) := by
  cases q <;> exact setSem s sma num _

theorem wakeUp (s : State τ) (sma : Nat) (q : WaitQueue) : Frame s (s.wakeUp sma q) := by
  refine ⟨rfl, rfl, fun _ => rfl, fun _ => List.Subset.refl _,
    fun t semid sops sma' q' num w h => ?_, fun t sma' u w h => ?_⟩
  · simp only [State.wakeUp] at h
    cases ht : s.task t <;> rw [ht] at h <;> simp only at h <;> cases h
    exact ⟨_, rfl⟩
  · simp only [State.wakeUp] at h
    cases ht : s.task t <;> rw [ht] at h <;> simp only at h <;> cases h
    exact ⟨_, rfl⟩

theorem wakeIf (s : State τ) (sma : Nat) (q : WaitQueue) (c : Prop) [Decidable c] :
    Frame s (if c then s.wakeUp sma q else s) := by
  split_ifs
  · exact wakeUp s sma q
  · exact refl s

theorem clearAdj (s : State τ) (sma : Nat) (test : Undo → Bool) :
    Frame s (s.clearAdj sma test) := by
  refine ⟨rfl, rfl, fun u => ?_, fun _ => List.Subset.refl _, fun _ _ _ _ _ _ w h => ⟨w, h⟩,
    fun _ _ _ w h => ⟨w, h⟩⟩
  simp only [State.clearAdj]
  split_ifs <;> rfl

theorem eraseUndo (s : State τ) (sma u : Nat) :
    Frame s (s.setUndoList sma ((s.set sma).undo.erase u)) := by
  refine ⟨rfl, rfl, fun _ => rfl, fun r => ?_, fun _ _ _ _ _ _ w h => ⟨w, h⟩,
    fun _ _ _ w h => ⟨w, h⟩⟩
  unfold State.setUndoList
  by_cases hr : r = sma
  · subst hr
    simp only [update_self]
    exact List.erase_subset
  · simp only [update_of_ne hr]
    exact List.Subset.refl _

/-- A change to the adjustment of one record. -/
theorem setAdj (s : State τ) (u : Nat) (v : Int16) :
    Frame s { s with undo := update s.undo u { s.undo u with semadj := v } } := by
  refine ⟨rfl, rfl, fun u' => ?_, fun _ => List.Subset.refl _, fun _ _ _ _ _ _ w h => ⟨w, h⟩,
    fun _ _ _ w h => ⟨w, h⟩⟩
  by_cases hu : u' = u
  · subst hu
    simp
  · simp [hu]

theorem applyOp (t : τ) (semid sma : Nat) (sop : Sembuf) (s : State τ) :
    Frame s (applyOp t semid sma sop s) := by
  unfold Semaphore.applyOp
  simp only
  have hset := setSemval s sma sop.semNum.toNat
    (toUshort ((s.semval sma sop.semNum.toNat).toNat + sop.semOp.toInt))
  split_ifs
  · split
    · exact hset.trans (setAdj _ _ _)
    · exact hset
  · exact hset

theorem applyOps (t : τ) (semid sma : Nat) (sops : List Sembuf) (s : State τ) (z : Bool) :
    Frame s (applyOps t semid sma sops s z).1 := by
  induction sops generalizing s z with
  | nil => exact refl s
  | cons sop rest ih => exact (applyOp t semid sma sop s).trans (ih _ _)

theorem setSemun (s : State τ) (f : τ → List Nat) : Frame s { s with semun := f } :=
  ⟨rfl, rfl, fun _ => rfl, fun _ => List.Subset.refl _, fun _ _ _ _ _ _ w h => ⟨w, h⟩,
    fun _ _ _ w h => ⟨w, h⟩⟩

/-- A change to all the semaphores of a set. -/
theorem setBase (s : State τ) (sma : Nat) (base : Nat → Sem) :
    Frame s { s with set := update s.set sma { s.set sma with base := base } } := by
  refine ⟨rfl, rfl, fun _ => rfl, fun r => ?_, fun _ _ _ _ _ _ w h => ⟨w, h⟩,
    fun _ _ _ w h => ⟨w, h⟩⟩
  by_cases hr : r = sma
  · subst hr
    simp only [update_self]
    exact List.Subset.refl _
  · simp only [update_of_ne hr]
    exact List.Subset.refl _

theorem setvalEnd (semid semnum sma : Nat) (val : Int) (denied : Bool) (s : State τ) :
    Frame s (setvalEnd semid semnum sma val denied s).1 := by
  unfold Semaphore.setvalEnd
  split_ifs
  · exact .refl s
  · split
    · exact .refl s
    · exact (clearAdj s sma _).trans ((setSemval _ sma semnum _).trans
        ((wakeUp _ sma _).trans (wakeUp _ sma _)))

theorem setallEnd (semid sma nsems : Nat) (semIo : List UInt16) (denied : Bool)
    (s : State τ) : Frame s (setallEnd semid sma nsems semIo denied s).1 := by
  unfold Semaphore.setallEnd
  split_ifs
  · exact .refl s
  · split
    · exact .refl s
    · exact (setBase s sma _).trans ((clearAdj _ sma _).trans
        ((wakeUp _ sma _).trans (wakeUp _ sma _)))

theorem releaseSet (sma : Nat) (s : State τ) : Frame s (releaseSet sma s) :=
  (clearAdj s sma _).trans ((wakeUp _ sma _).trans (wakeUp _ sma _))

section Tasks

variable [DecidableEq τ]

theorem setTask (s : State τ) (t : τ) {x : Task}
    (hop : ∀ semid sops sma q num w, x ≠ .opSleep semid sops sma q num w)
    (hexit : ∀ sma u w, x ≠ .exitSleep sma u w) : Frame s (s.setTask t x) := by
  refine ⟨rfl, rfl, fun _ => rfl, fun _ => List.Subset.refl _,
    fun t' semid sops sma q num w h => ?_, fun t' sma u w h => ?_⟩
  · by_cases ht : t' = t
    · subst ht
      simp only [State.setTask, update_self] at h
      exact absurd h (hop semid sops sma q num w)
    · simp only [State.setTask, update_of_ne ht] at h
      exact ⟨w, h⟩
  · by_cases ht : t' = t
    · subst ht
      simp only [State.setTask, update_self] at h
      exact absurd h (hexit sma u w)
    · simp only [State.setTask, update_of_ne ht] at h
      exact ⟨w, h⟩

theorem running (s : State τ) (t : τ) : Frame s (s.setTask t .running) :=
  setTask s t (by simp) (by simp)

theorem dropUndo (s : State τ) (t : τ) : Frame s (dropUndo t s) :=
  (setTask s t (x := .exiting) (by simp) (by simp)).trans (setSemun _ _)

end Tasks

end Frame

/-! ## The two loops of `sys_semop` -/

/-- The values after the second loop, in `ushort` arithmetic. -/
def applyVals (val : Nat → UInt16) : List Sembuf → Nat → UInt16
  | [] => val
  | sop :: rest =>
    applyVals (update val sop.semNum.toNat
      (toUshort ((val sop.semNum.toNat).toNat + sop.semOp.toInt))) rest

theorem applyOp_semval (t : τ) (semid sma : Nat) (sop : Sembuf) (s : State τ) (r n : Nat) :
    (applyOp t semid sma sop s).semval r n =
      if r = sma ∧ n = sop.semNum.toNat then
        toUshort ((s.semval sma sop.semNum.toNat).toNat + sop.semOp.toInt)
      else s.semval r n := by
  rw [← setSemval_semval]
  unfold applyOp
  simp only
  split_ifs
  · split <;> rfl
  · rfl

theorem applyOps_semval (t : τ) (semid sma : Nat) (sops : List Sembuf) (s : State τ) (z : Bool)
    (r n : Nat) :
    (applyOps t semid sma sops s z).1.semval r n =
      if r = sma then applyVals (s.semval sma) sops n else s.semval r n := by
  induction sops generalizing s z with
  | nil =>
    simp only [applyOps, applyVals]
    split_ifs with hr
    · rw [hr]
    · rfl
  | cons sop rest ih =>
    rw [applyOps, ih, applyVals]
    have hvals : (applyOp t semid sma sop s).semval sma =
        update (s.semval sma) sop.semNum.toNat
          (toUshort ((s.semval sma sop.semNum.toNat).toNat + sop.semOp.toInt)) := by
      funext m
      rw [applyOp_semval]
      by_cases hm : m = sop.semNum.toNat
      · subst hm
        simp
      · simp [hm]
    split_ifs with hr
    · rw [hvals]
    · rw [applyOp_semval, if_neg fun h => hr h.1]

/-- The errors of the first loop are errors. -/
theorem checkOps_fail_pos {val : Nat → UInt16} {pending : Bool} {sops : List Sembuf} {e : Int}
    (h : checkOps val pending sops = .fail e) : 0 < e := by
  induction sops with
  | nil => cases h
  | cons sop rest ih =>
    rw [checkOps] at h
    split_ifs at h
    · cases h
      decide
    · cases h
      decide
    · cases h
      decide
    · cases h
      decide
    · cases h
      decide
    · exact ih h

/-- The first loop sleeps for a semaphore of one of the operations. -/
theorem checkOps_sleep_mem {val : Nat → UInt16} {pending : Bool} {sops : List Sembuf}
    {q : WaitQueue} {num : Nat} (h : checkOps val pending sops = .sleep q num) :
    ∃ sop ∈ sops, num = sop.semNum.toNat := by
  induction sops with
  | nil => cases h
  | cons sop rest ih =>
    rw [checkOps] at h
    split_ifs at h
    · cases h
      exact ⟨sop, List.mem_cons_self, rfl⟩
    · cases h
      exact ⟨sop, List.mem_cons_self, rfl⟩
    · obtain ⟨sop', hmem, hnum⟩ := ih h
      exact ⟨sop', List.mem_cons_of_mem _ hmem, hnum⟩

/-- The numbers of the operations that pass the checks. -/
theorem semopSet_ok {s : State τ} {semid : Int} {sops : List Sembuf} {denied : Bool} {sma : Nat}
    (h : semopSet s semid sops denied = .ok sma) :
    s.table.slot (semid.toNat % mni) = .used sma ∧
      ∀ sop ∈ sops, sop.semNum.toNat ≤ s.nsems sma := by
  unfold semopSet at h
  split at h
  · cases h
  split at h
  · cases h
  cases hslot : s.table.slot (semid.toNat % mni) with
  | used r =>
    rw [hslot] at h
    simp only at h
    split_ifs at h with hany
    cases h
    refine ⟨rfl, fun sop hsop => ?_⟩
    by_contra hlt
    exact hany (List.any_eq_true.2 ⟨sop, hsop, by simpa using hlt⟩)
  | unused | noid =>
    rw [hslot] at h
    cases h

section Attempt

variable [DecidableEq τ]

theorem Frame.performed (t : τ) (semid : Nat) (sops : List Sembuf) (sma : Nat) (s : State τ) :
    Frame s (performed t semid sops sma s) := by
  unfold Semaphore.performed
  simp only
  exact (Frame.applyOps t semid sma sops s false).trans
    ((Frame.wakeIf _ _ _ _).trans ((Frame.wakeIf _ _ _ _).trans (Frame.running _ t)))

theorem performed_semval (t : τ) (semid : Nat) (sops : List Sembuf) (sma : Nat) (s : State τ)
    (r n : Nat) :
    (performed t semid sops sma s).semval r n =
      if r = sma then applyVals (s.semval sma) sops n else s.semval r n := by
  rw [← applyOps_semval t semid sma sops s false]
  unfold performed
  simp only
  split_ifs <;> rfl

/-- **What an attempt can do**: fail, fall asleep, or perform all the operations. -/
theorem attempt_cases (t : τ) (semid : Nat) (sops : List Sembuf) (sma : Nat) (s : State τ) :
    (∃ e, attempt t semid sops sma s = (s.setTask t .running, some (-e)) ∧ 0 < e) ∨
      (∃ q, ∃ sop ∈ sops, attempt t semid sops sma s =
        ((s.countUp sma sop.semNum.toNat q).setTask t
          (.opSleep semid sops sma q sop.semNum.toNat false), none)) ∨
      s.seq sma = semid / mni ∧ checkOps (s.semval sma) (s.pending t) sops = .pass ∧
        ∃ v : Nat, attempt t semid sops sma s = (performed t semid sops sma s, some (v : Int)) := by
  unfold attempt
  by_cases hseq : s.seq sma = semid / mni
  · rw [if_neg (not_not.2 hseq)]
    cases hcheck : checkOps (s.semval sma) (s.pending t) sops with
    | fail e => exact .inl ⟨e, rfl, checkOps_fail_pos hcheck⟩
    | sleep q num =>
      obtain ⟨sop, hmem, rfl⟩ := checkOps_sleep_mem hcheck
      exact .inr (.inl ⟨q, sop, hmem, rfl⟩)
    | pass => exact .inr (.inr ⟨hseq, rfl, _, rfl⟩)
  · rw [if_pos hseq]
    exact .inl ⟨Errno.eidrm, rfl, by decide⟩

theorem Frame.adjusted (t : τ) (sma u : Nat) (s : State τ) : Frame s (adjusted t sma u s) := by
  unfold Semaphore.adjusted
  simp only
  exact (Frame.setSemval s sma _ _).trans
    ((Frame.wakeIf _ _ _ _).trans ((Frame.wakeIf _ _ _ _).trans (Frame.dropUndo _ t)))

theorem adjusted_semval (t : τ) (sma u : Nat) (s : State τ) (r n : Nat) :
    (adjusted t sma u s).semval r n =
      if r = sma ∧ n = (s.undo u).semNum.toNat then
        toUshort ((s.semval sma (s.undo u).semNum.toNat).toNat + (s.undo u).semadj.toInt)
      else s.semval r n := by
  rw [← setSemval_semval]
  unfold adjusted
  simp only
  split_ifs <;> rfl

/-- **What a round of `sem_exit` on a record can do**: give it up, fall asleep, or add the
adjustment. -/
theorem adjust_cases (t : τ) (sma u : Nat) (s : State τ) :
    adjust t sma u s = dropUndo t s ∨
      adjust t sma u s = (s.countUp sma (s.undo u).semNum.toNat .eventn).setTask t
        (.exitSleep sma u false) ∨
      s.seq sma = (s.undo u).semid / mni ∧
        0 ≤ ((s.semval sma (s.undo u).semNum.toNat).toNat : Int) + (s.undo u).semadj.toInt ∧
        adjust t sma u s = adjusted t sma u s := by
  unfold adjust
  simp only
  split_ifs with hseq hsum hpending
  · exact .inl rfl
  · exact .inr (.inr ⟨not_not.1 hseq, hsum, rfl⟩)
  · exact .inl rfl
  · exact .inr (.inl rfl)

/-- **What a step on the table can do**: the table has one of its effects, a set that has been
made is zeroed, and one that has been removed is released. -/
theorem tableStep_cases {e : Ipc.Event τ} {s s' : State τ} {out : Option Int}
    (h : tableStep e s = some (s', out)) :
    ∃ T, Effect semKind s.table e T out ∧
      (s' = s.withTable T ∨ ∃ sma, s' = releaseSet sma (s.withTable T)) := by
  unfold tableStep at h
  cases hout : Ipc.stepOut semKind s.table e with
  | none =>
    rw [hout] at h
    cases h
  | some r =>
    obtain ⟨T, out'⟩ := r
    have heffect := stepOut_effect (Facility.sane .sem) hout
    rw [hout] at h
    cases e with
    | free id =>
      simp only at h
      cases hslot : s.table.slot id with
      | used sma =>
        rw [hslot] at h
        cases h
        exact ⟨T, heffect, .inr ⟨sma, rfl⟩⟩
      | unused | noid =>
        rw [hslot] at h
        cases h
        exact ⟨T, heffect, .inl rfl⟩
    | get | resume | kmalloc | mark =>
      cases h
      exact ⟨T, heffect, .inl rfl⟩

end Attempt

end LinuxEvocation.Ipc.Semaphore
