import LinuxEvocation.Ipc.Sem.Frame

/-!
# `sys_semop` and the bounds of a semaphore set

`sys_semop` checks `sem_num > sem_nsems` where the last semaphore is `sem_nsems - 1`, so that
`sem_num = sem_nsems` passes.  The number is used at once, after every sleep, and again by
`sem_exit` through the undo records.

* `footprint`, `semop_base`, `run_base` — the semaphores that `sys_semop` and `sem_exit` index; they
  leave all others as they are.
* `inBounds` — the condition on a step: no operation is on the semaphore just behind the set.
* `Bounded`, `Bounded.frame`, `step_bounded` — what holds in every run whose steps meet it.
* `semop_in_bounds` — in such a run a step indexes within the sets exactly when it meets the
  condition, and so will every undo record.
* `memory_behind_kept` — what is behind a set is not changed.
* `semop_out_of_bounds` — the number that passes.
-/

namespace LinuxEvocation.Ipc.Semaphore

open Function (update update_of_ne update_self)

variable {τ : Type*}

/-! ## The semaphores a step indexes -/

/-- The semaphores that the operations of `sys_semop` and the adjustments of `sem_exit` name in a step,
each as a set and a number.  No others are indexed, but not each of them need be. -/
def footprint (s : State τ) : Event τ → List (Nat × Nat)
  | .semop _ semid sops denied _ =>
    match semopSet s semid sops denied with
    | .ok sma => sops.map fun sop => (sma, sop.semNum.toNat)
    | .error _ => []
  | .run t =>
    match s.task t with
    | .opSleep _ sops sma _ num _ => (sma, num) :: sops.map fun sop => (sma, sop.semNum.toNat)
    | .exitSleep sma u _ => [(sma, (s.undo u).semNum.toNat)]
    | .exiting =>
      match s.semun t with
      | [] => []
      | u :: _ =>
        match s.table.slot ((s.undo u).semid % mni) with
        | .used sma => if u ∈ (s.set sma).undo then [(sma, (s.undo u).semNum.toNat)] else []
        | _ => []
    | _ => []
  | _ => []

theorem applyOp_base (t : τ) (semid sma : Nat) (sop : Sembuf) (s : State τ) {r n : Nat}
    (hne : ¬ (r = sma ∧ n = sop.semNum.toNat)) :
    ((applyOp t semid sma sop s).set r).base n = (s.set r).base n := by
  have hset : ((s.setSemval sma sop.semNum.toNat
      (toUshort ((s.semval sma sop.semNum.toNat).toNat + sop.semOp.toInt))).set r).base n =
      (s.set r).base n := by
    rw [State.setSemval, setSem_base, if_neg hne]
  rw [← hset]
  unfold applyOp
  simp only
  split_ifs
  · split <;> rfl
  · rfl

theorem applyOps_base (t : τ) (semid sma : Nat) (sops : List Sembuf) (s : State τ) (z : Bool)
    {r n : Nat} (hne : ∀ sop ∈ sops, ¬ (r = sma ∧ n = sop.semNum.toNat)) :
    ((applyOps t semid sma sops s z).1.set r).base n = (s.set r).base n := by
  induction sops generalizing s z with
  | nil => rfl
  | cons sop rest ih =>
    rw [applyOps, ih _ _ fun sop' h => hne sop' (List.mem_cons_of_mem _ h)]
    exact applyOp_base t semid sma sop s (hne sop List.mem_cons_self)

section Footprint

variable [DecidableEq τ]

variable {r n : Nat}

theorem performed_base (t : τ) (semid : Nat) (sops : List Sembuf) (sma : Nat) (s : State τ)
    (hne : ∀ sop ∈ sops, ¬ (r = sma ∧ n = sop.semNum.toNat)) :
    ((performed t semid sops sma s).set r).base n = (s.set r).base n := by
  rw [← applyOps_base t semid sma sops s false hne]
  unfold performed
  simp only
  split_ifs <;> rfl

theorem attempt_base (t : τ) (semid : Nat) (sops : List Sembuf) (sma : Nat) (s : State τ)
    (hne : ∀ sop ∈ sops, ¬ (r = sma ∧ n = sop.semNum.toNat)) :
    ((attempt t semid sops sma s).1.set r).base n = (s.set r).base n := by
  rcases attempt_cases t semid sops sma s with ⟨e, heq, -⟩ | ⟨q, sop, hsop, heq⟩ | ⟨-, -, v, heq⟩
  · rw [heq]
    rfl
  · rw [heq]
    cases q <;> exact (setSem_base s sma _ _ r n).trans (if_neg (hne sop hsop))
  · rw [heq]
    exact performed_base t semid sops sma s hne

/-- Undo records are added and nothing else. -/
theorem addUndos_same (t : τ) (semid sma allocs : Nat) (sops : List Sembuf) (s : State τ) :
    (addUndos t semid sma allocs sops s).1.table = s.table ∧
      (addUndos t semid sma allocs sops s).1.pending = s.pending ∧
      ∀ r, ((addUndos t semid sma allocs sops s).1.set r).base = (s.set r).base := by
  induction sops generalizing allocs s with
  | nil => exact ⟨rfl, rfl, fun _ => rfl⟩
  | cons sop rest ih =>
    rw [addUndos.eq_def]
    simp only
    split_ifs
    · exact ih _ _
    · cases allocs with
      | zero => exact ⟨rfl, rfl, fun _ => rfl⟩
      | succ allocs =>
        refine ⟨(ih _ _).1, (ih _ _).2.1, fun r => ((ih _ _).2.2 r).trans ?_⟩
        by_cases hr : r = sma
        · subst hr
          simp only [update_self]
        · simp only [update_of_ne hr]
    · exact ih _ _

theorem adjust_base (t : τ) (sma u : Nat) (s : State τ)
    (hne : ¬ (r = sma ∧ n = (s.undo u).semNum.toNat)) :
    ((adjust t sma u s).set r).base n = (s.set r).base n := by
  have hset : ∀ x, ((s.setSem sma (s.undo u).semNum.toNat x).set r).base n = (s.set r).base n :=
    fun x => (setSem_base s sma _ x r n).trans (if_neg hne)
  rcases adjust_cases t sma u s with heq | heq | ⟨-, -, heq⟩
  · rw [heq]
    rfl
  · rw [heq]
    exact hset _
  · rw [heq, ← hset]
    unfold adjusted
    simp only
    split_ifs <;> rfl

/-- `sys_semop` leaves the semaphores alone that are not in its footprint. -/
theorem semop_base (t : τ) (semid : Int) (sops : List Sembuf) (denied : Bool) (allocs : Nat)
    (s : State τ) (hne : (r, n) ∉ footprint s (.semop t semid sops denied allocs)) :
    ((semop t semid sops denied allocs s).1.set r).base n = (s.set r).base n := by
  unfold semop
  cases hset : semopSet s semid sops denied with
  | error e => rfl
  | ok sma =>
    simp only [footprint, hset, List.mem_map, Prod.mk.injEq, not_exists, not_and] at hne
    have hops : ∀ sop ∈ sops, ¬ (r = sma ∧ n = sop.semNum.toNat) :=
      fun sop hsop heq => hne sop hsop heq.1.symm heq.2.symm
    have hadd := congrFun ((addUndos_same t semid.toNat sma allocs sops s).2.2 r) n
    simp only
    split
    · rename_i s' heq
      rw [heq] at hadd
      exact hadd
    · rename_i s' heq
      rw [heq] at hadd
      rw [attempt_base t semid.toNat sops sma s' hops]
      exact hadd

theorem exitStep_base (t : τ) (s : State τ) (ht : s.task t = .exiting)
    (hne : (r, n) ∉ footprint s (.run t)) :
    ((exitStep t s).set r).base n = (s.set r).base n := by
  simp only [footprint, ht] at hne
  unfold exitStep
  cases hsemun : s.semun t with
  | nil => rfl
  | cons u rest =>
    rw [hsemun] at hne
    simp only at hne ⊢
    cases hslot : s.table.slot ((s.undo u).semid % mni) with
    | used sma =>
      rw [hslot] at hne
      simp only at hne ⊢
      have herase : ((s.setUndoList sma ((s.set sma).undo.erase u)).set r).base n =
          (s.set r).base n := by
        unfold State.setUndoList
        by_cases hr : r = sma
        · subst hr
          simp only [Function.update_self]
        · simp only [Function.update_of_ne hr]
      split_ifs with hseq hmem
      · rfl
      · exact herase
      · rw [if_pos hmem, List.mem_singleton, Prod.mk.injEq] at hne
        refine (adjust_base t sma u (s.setUndoList sma _) ?_).trans herase
        exact hne
      · rfl
    | unused | noid => rfl

/-- So does a process that goes on in `sys_semop` or in `sem_exit`. -/
theorem run_base {t : τ} {s s' : State τ} {out : Option Int} (h : run t s = some (s', out))
    (hne : (r, n) ∉ footprint s (.run t)) :
    (s'.set r).base n = (s.set r).base n := by
  unfold run at h
  cases ht : s.task t with
  | opSleep semid sops sma q num w =>
    rw [ht] at h
    simp only [footprint, ht, List.mem_cons, List.mem_map, Prod.mk.injEq, not_or, not_exists,
      not_and] at hne
    simp only at h
    split_ifs at h
    rw [Option.some.injEq] at h
    have hdown : ((s.countDown sma num q).set r).base n = (s.set r).base n := by
      cases q <;> exact (setSem_base s sma num _ r n).trans (if_neg fun heq => hne.1 heq.1 heq.2)
    rw [← hdown, ← attempt_base t semid sops sma (s.countDown sma num q)
      fun sop hsop heq => hne.2 sop hsop heq.1.symm heq.2.symm, h]
  | exitSleep sma u w =>
    rw [ht] at h
    simp only [footprint, ht, List.mem_singleton, Prod.mk.injEq] at hne
    simp only at h
    split_ifs at h
    rw [Option.some.injEq, Prod.mk.injEq] at h
    rw [← h.1]
    have hdown : ((s.countDown sma (s.undo u).semNum.toNat .eventn).set r).base n =
        (s.set r).base n := (setSem_base s sma _ _ r n).trans (if_neg hne)
    rw [← hdown]
    exact adjust_base t sma u _ hne
  | exiting =>
    rw [ht] at h
    rw [Option.some.injEq, Prod.mk.injEq] at h
    rw [← h.1]
    exact exitStep_base t s ht hne
  | running | setval | setall | gone =>
    rw [ht] at h
    cases h

end Footprint

/-! ## What holds of the numbers -/

/-- What holds of the numbers of semaphores. -/
structure Bounded (s : State τ) : Prop where
  table : TableInv s.table
  undo_lt : ∀ {r u}, u ∈ (s.set r).undo → u < s.freshUndo
  undo_num : ∀ {r u}, u ∈ (s.set r).undo → (s.undo u).semNum.toNat < s.nsems r
  op_num : ∀ {t semid sops sma q num w}, s.task t = .opSleep semid sops sma q num w →
    sma < s.table.fresh ∧ num < s.nsems sma ∧ ∀ sop ∈ sops, sop.semNum.toNat < s.nsems sma
  exit_num : ∀ {t sma u w}, s.task t = .exitSleep sma u w →
    sma < s.table.fresh ∧ u < s.freshUndo ∧ (s.undo u).semNum.toNat < s.nsems sma
  fresh : ∀ r, s.table.fresh ≤ r → (s.set r).undo = []

theorem init_bounded : Bounded (State.init : State τ) where
  table := init_tableInv
  undo_lt h := by cases h
  undo_num h := by cases h
  op_num h := by cases h
  exit_num h := by cases h
  fresh _ _ := rfl

theorem Frame.nsems {s s' : State τ} (h : Frame s s') (r : Nat) : s'.nsems r = s.nsems r := by
  unfold State.nsems
  rw [h.table]

theorem Bounded.frame {s s' : State τ} (h : Bounded s) (hf : Frame s s') : Bounded s' where
  table := by
    rw [hf.table]
    exact h.table
  undo_lt hu := by
    rw [hf.fresh]
    exact h.undo_lt (hf.undo _ hu)
  undo_num hu := by
    rw [hf.num, hf.nsems]
    exact h.undo_num (hf.undo _ hu)
  op_num ht := by
    obtain ⟨w, hw⟩ := hf.op _ _ _ _ _ _ _ ht
    obtain ⟨h1, h2, h3⟩ := h.op_num hw
    rw [hf.table, hf.nsems]
    exact ⟨h1, h2, h3⟩
  exit_num ht := by
    obtain ⟨w, hw⟩ := hf.exit _ _ _ _ ht
    obtain ⟨h1, h2, h3⟩ := h.exit_num hw
    rw [hf.table, hf.fresh, hf.num, hf.nsems]
    exact ⟨h1, h2, h3⟩
  fresh r hr := by
    rw [hf.table] at hr
    have hsub := hf.undo r
    rw [h.fresh r hr] at hsub
    exact List.subset_nil.1 hsub

section Steps

variable [DecidableEq τ] {s : State τ}

variable {t : τ} {sops : List Sembuf} {sma : Nat}

/-- A process goes somewhere else, with numbers that are in bounds. -/
theorem Bounded.setTask (h : Bounded s) {x : Task}
    (hop : ∀ {semid sops sma q num w}, x = .opSleep semid sops sma q num w →
      sma < s.table.fresh ∧ num < s.nsems sma ∧ ∀ sop ∈ sops, sop.semNum.toNat < s.nsems sma)
    (hexit : ∀ {sma u w}, x = .exitSleep sma u w →
      sma < s.table.fresh ∧ u < s.freshUndo ∧ (s.undo u).semNum.toNat < s.nsems sma) :
    Bounded (s.setTask t x) := { h with
  op_num := fun {t'} _ _ _ _ _ _ ht => by
    by_cases heq : t' = t
    · subst heq
      exact hop ((update_self ..).symm.trans ht)
    · exact h.op_num ((update_of_ne heq ..).symm.trans ht)
  exit_num := fun {t'} _ _ _ ht => by
    by_cases heq : t' = t
    · subst heq
      exact hexit ((update_self ..).symm.trans ht)
    · exact h.exit_num ((update_of_ne heq ..).symm.trans ht) }

/-- An undo record is made for an operation that is in bounds. -/
theorem Bounded.newUndo (h : Bounded s) {semid : Nat} {num : UInt16}
    (hsma : sma < s.table.fresh) (hnum : num.toNat < s.nsems sma) :
    Bounded { s with
      undo := update s.undo s.freshUndo ⟨semid, num, 0⟩
      freshUndo := s.freshUndo + 1
      semun := update s.semun t (s.freshUndo :: s.semun t)
      set := update s.set sma
        { s.set sma with undo := s.freshUndo :: (s.set sma).undo } } := by
  have hold : ∀ {u}, u < s.freshUndo →
      update s.undo s.freshUndo ⟨semid, num, 0⟩ u = s.undo u :=
    fun hu => update_of_ne hu.ne _ _
  have hmem : ∀ {r u}, u ∈ (update s.set sma
      { s.set sma with undo := s.freshUndo :: (s.set sma).undo } r).undo →
      r = sma ∧ u = s.freshUndo ∨ u ∈ (s.set r).undo := by
    intro r u hu
    by_cases hr : r = sma
    · subst hr
      rw [update_self, List.mem_cons] at hu
      exact hu.imp_left fun heq => ⟨rfl, heq⟩
    · rw [update_of_ne hr] at hu
      exact .inr hu
  refine ⟨h.table, fun hu => ?_, fun hu => ?_, h.op_num, fun ht => ?_, fun r hr => ?_⟩
  · rcases hmem hu with ⟨-, rfl⟩ | hu
    · exact Nat.lt_succ_self _
    · exact Nat.lt_succ_of_lt (h.undo_lt hu)
  · rcases hmem hu with ⟨rfl, rfl⟩ | hu
    · simp only [update_self]
      exact hnum
    · simp only [hold (h.undo_lt hu)]
      exact h.undo_num hu
  · obtain ⟨h1, h2, h3⟩ := h.exit_num ht
    refine ⟨h1, Nat.lt_succ_of_lt h2, ?_⟩
    simp only [hold h2]
    exact h3
  · have hne : r ≠ sma := by
      rintro rfl
      exact absurd hsma (Nat.not_lt.2 hr)
    simp only [update_of_ne hne]
    exact h.fresh r hr

theorem addUndos_bounded (t : τ) (semid allocs : Nat) (h : Bounded s)
    (hsma : sma < s.table.fresh) (hsops : ∀ sop ∈ sops, sop.semNum.toNat < s.nsems sma) :
    Bounded (addUndos t semid sma allocs sops s).1 := by
  induction sops generalizing allocs s with
  | nil => exact h
  | cons sop rest ih =>
    have hrest : ∀ sop ∈ rest, sop.semNum.toNat < s.nsems sma :=
      fun sop hsop => hsops sop (List.mem_cons_of_mem _ hsop)
    rw [addUndos.eq_def]
    simp only
    split_ifs
    · exact ih _ h hsma hrest
    · cases allocs with
      | zero => exact h
      | succ allocs => exact ih _ (h.newUndo hsma (hsops sop List.mem_cons_self)) hsma hrest
    · exact ih _ h hsma hrest

/-- An attempt on operations that are in bounds. -/
theorem attempt_bounded (t : τ) (semid : Nat) (h : Bounded s)
    (hsma : sma < s.table.fresh) (hsops : ∀ sop ∈ sops, sop.semNum.toNat < s.nsems sma) :
    Bounded (attempt t semid sops sma s).1 := by
  rcases attempt_cases t semid sops sma s with ⟨e, heq, -⟩ | ⟨q, sop, hsop, heq⟩ | ⟨-, -, v, heq⟩
  · rw [heq]
    exact h.frame (Frame.running s t)
  · rw [heq]
    have hf := Frame.countUp s sma sop.semNum.toNat q
    refine (h.frame hf).setTask ?_ nofun
    rintro _ _ _ _ _ _ ⟨⟩
    rw [hf.table, hf.nsems]
    exact ⟨hsma, hsops sop hsop, hsops⟩
  · rw [heq]
    exact h.frame (Frame.performed t semid sops sma s)

/-- A round of `sem_exit` on a record that is in bounds. -/
theorem adjust_bounded {u : Nat} (h : Bounded s) (hsma : sma < s.table.fresh)
    (hu : u < s.freshUndo) (hnum : (s.undo u).semNum.toNat < s.nsems sma) :
    Bounded (adjust t sma u s) := by
  rcases adjust_cases t sma u s with heq | heq | ⟨-, -, heq⟩
  · rw [heq]
    exact h.frame (Frame.dropUndo s t)
  · rw [heq]
    have hf := Frame.countUp s sma (s.undo u).semNum.toNat .eventn
    refine (h.frame hf).setTask nofun ?_
    rintro _ _ _ ⟨⟩
    rw [hf.table, hf.fresh, hf.num, hf.nsems]
    exact ⟨hsma, hu, hnum⟩
  · rw [heq]
    exact h.frame (Frame.adjusted t sma u s)

theorem exitStep_bounded (h : Bounded s) : Bounded (exitStep t s) := by
  unfold exitStep
  cases hsemun : s.semun t with
  | nil => exact h.frame (Frame.setTask s t (by simp) (by simp))
  | cons u rest =>
    simp only
    cases hslot : s.table.slot ((s.undo u).semid % mni) with
    | used sma =>
      simp only
      split_ifs with hseq hmem hadj
      · exact h.frame (Frame.dropUndo s t)
      · exact h.frame ((Frame.eraseUndo s sma u).trans (Frame.dropUndo _ t))
      · have hf := Frame.eraseUndo s sma u
        refine adjust_bounded (h.frame hf) ?_ ?_ ?_
        · rw [hf.table]
          exact h.table.used_lt hslot
        · rw [hf.fresh]
          exact h.undo_lt hmem
        · rw [hf.num, hf.nsems]
          exact h.undo_num hmem
      · exact h.frame ((Frame.setTask s t (x := .gone) (by simp) (by simp)).trans
          (Frame.setSemun _ _))
    | unused | noid => exact h.frame (Frame.dropUndo s t)

/-! ### The other steps -/

/-- A step on the table.  A set that is made takes a pointer that no record and no call has. -/
theorem Bounded.effect (h : Bounded s) {e : Ipc.Event τ} {T : Table τ} {out : Option Int}
    (he : Effect semKind s.table e T out) : Bounded (s.withTable T) := by
  have hset : ∀ r, ((s.withTable T).set r).undo = (s.set r).undo := by
    intro r
    unfold State.withTable
    simp only
    split_ifs
    · rfl
    · by_cases hr : r = s.table.fresh
      · subst hr
        rw [update_self, h.fresh _ le_rfl]
        rfl
      · rw [update_of_ne hr]
  have hlt : ∀ {r u}, u ∈ (s.set r).undo → r < s.table.fresh := by
    intro r u hu
    by_contra hr
    rw [h.fresh r (Nat.le_of_not_lt hr)] at hu
    cases hu
  refine ⟨he.tableInv h.table, fun {r u} hu => ?_, fun {r u} hu => ?_, fun ht => ?_, fun ht => ?_,
    fun r hr => ?_⟩
  · rw [hset] at hu
    exact h.undo_lt hu
  · rw [hset] at hu
    exact lt_of_lt_of_eq (h.undo_num hu) (he.arg_eq (hlt hu)).symm
  · obtain ⟨h1, h2, h3⟩ := h.op_num ht
    have harg := (he.arg_eq h1).symm
    exact ⟨h1.trans_le he.fresh_le, lt_of_lt_of_eq h2 harg,
      fun sop hsop => lt_of_lt_of_eq (h3 sop hsop) harg⟩
  · obtain ⟨h1, h2, h3⟩ := h.exit_num ht
    exact ⟨h1.trans_le he.fresh_le, h2, lt_of_lt_of_eq h3 (he.arg_eq h1).symm⟩
  · rw [hset]
    exact h.fresh r (he.fresh_le.trans hr)

theorem tableStep_bounded {e : Ipc.Event τ} {s' : State τ} {out : Option Int} (h : Bounded s)
    (hstep : tableStep e s = some (s', out)) : Bounded s' := by
  obtain ⟨T, he, rfl | ⟨sma, rfl⟩⟩ := tableStep_cases hstep
  · exact h.effect he
  · exact (h.effect he).frame (Frame.releaseSet sma _)

theorem semop_bounded (t : τ) (allocs : Nat) {semid : Int} {denied : Bool}
    (h : Bounded s) (hok : ∀ sma, semopSet s semid sops denied = .ok sma →
      ∀ sop ∈ sops, sop.semNum.toNat < s.nsems sma) :
    Bounded (semop t semid sops denied allocs s).1 := by
  unfold semop
  cases hset : semopSet s semid sops denied with
  | error e => exact h
  | ok sma =>
    have hsma : sma < s.table.fresh := h.table.used_lt (semopSet_ok hset).1
    have hsops := hok sma hset
    have hadd := addUndos_bounded t semid.toNat allocs h hsma hsops
    have htable := (addUndos_same t semid.toNat sma allocs sops s).1
    simp only
    split
    · rename_i s' heq
      rw [heq] at hadd
      exact hadd
    · rename_i s' heq
      rw [heq] at hadd htable
      have hnsems : s'.nsems sma = s.nsems sma := congrArg (fun T => (T.obj sma).arg) htable
      refine attempt_bounded t semid.toNat hadd (lt_of_lt_of_eq hsma (congrArg Table.fresh htable).symm) ?_
      rw [hnsems]
      exact hsops

theorem run_bounded {s' : State τ} {out : Option Int} (h : Bounded s)
    (hrun : run t s = some (s', out)) : Bounded s' := by
  unfold run at hrun
  cases ht : s.task t with
  | opSleep semid sops sma q num w =>
    rw [ht] at hrun
    simp only at hrun
    split_ifs at hrun
    rw [Option.some.injEq] at hrun
    obtain ⟨h1, -, h3⟩ := h.op_num ht
    have hf := Frame.countDown s sma num q
    have hb := attempt_bounded t semid (h.frame hf) (lt_of_lt_of_eq h1 (by rw [hf.table]))
      (by simpa only [hf.nsems] using h3)
    rw [hrun] at hb
    exact hb
  | exitSleep sma u w =>
    rw [ht] at hrun
    simp only at hrun
    split_ifs at hrun
    rw [Option.some.injEq, Prod.mk.injEq] at hrun
    obtain ⟨h1, h2, h3⟩ := h.exit_num ht
    have hf := Frame.countDown s sma (s.undo u).semNum.toNat .eventn
    rw [← hrun.1]
    refine adjust_bounded (h.frame hf) ?_ ?_ ?_
    · rwa [hf.table]
    · rwa [hf.fresh]
    · rwa [hf.num, hf.nsems]
  | exiting =>
    rw [ht] at hrun
    rw [Option.some.injEq, Prod.mk.injEq] at hrun
    rw [← hrun.1]
    exact exitStep_bounded h
  | running | setval | setall | gone =>
    rw [ht] at hrun
    cases hrun

/-! ## Runs -/

/-- No operation of a call that passes the checks is on the semaphore just behind the set. -/
def inBounds (s : State τ) : Event τ → Prop
  | .semop _ semid sops denied _ => ∀ sma, semopSet s semid sops denied = .ok sma →
      ∀ sop ∈ sops, sop.semNum.toNat ≠ s.nsems sma
  | _ => True

instance (s : State τ) (e : Event τ) : Decidable (inBounds s e) :=
  match e with
  | .semop _ semid sops denied _ =>
    match h : semopSet s semid sops denied with
    | .ok sma => decidable_of_iff (∀ sop ∈ sops, sop.semNum.toNat ≠ s.nsems sma)
        (by simp only [inBounds, h, Except.ok.injEq, forall_eq'])
    | .error _ => isTrue (by simp only [inBounds, h, reduceCtorEq, false_implies, implies_true])
  | .table _ | .setval .. | .setall .. | .ctl .. | .run _ | .exit _ | .signal .. => isTrue trivial

/-- **A step that meets the condition keeps the numbers in bounds.** -/
theorem step_bounded {e : Event τ} {s' : State τ} (h : Bounded s) (hok : inBounds s e)
    (hstep : step s e = some s') : Bounded s' := by
  obtain ⟨⟨s'', out⟩, hout, rfl⟩ := Option.map_eq_some_iff.1 hstep
  cases e with
  | table e => exact tableStep_bounded h hout
  | semop t semid sops denied allocs =>
    simp only [stepOut] at hout
    split_ifs at hout
    rw [Option.some.injEq] at hout
    have hb := semop_bounded t allocs h fun sma hset sop hsop =>
      lt_of_le_of_ne ((semopSet_ok hset).2 sop hsop) (hok sma hset sop hsop)
    rw [hout] at hb
    exact hb
  | setval t semid semnum val =>
    simp only [stepOut, setvalBegin] at hout
    split_ifs at hout
    split at hout
    · cases hout
      exact h
    · cases hout
      exact h.frame (Frame.setTask s t (by simp) (by simp))
  | setall t semid semnum array =>
    simp only [stepOut, setallBegin] at hout
    split_ifs at hout
    split at hout
    · cases hout
      exact h
    · cases hout
      exact h.frame (Frame.setTask s t (by simp) (by simp))
  | ctl t denied =>
    obtain ⟨r, hr, heq⟩ := Option.map_eq_some_iff.1 hout
    cases heq
    unfold ctlEnd at hr
    split at hr
    · cases hr
      exact h.frame ((Frame.setvalEnd ..).trans (Frame.running _ t))
    · cases hr
      exact h.frame ((Frame.setallEnd ..).trans (Frame.running _ t))
    · cases hr
  | run t => exact run_bounded h hout
  | exit t =>
    simp only [stepOut] at hout
    split_ifs at hout
    cases hout
    exact h.frame (Frame.setTask s t (by simp) (by simp))
  | signal t pending =>
    cases hout
    exact ⟨h.table, h.undo_lt, h.undo_num, h.op_num, h.exit_num, h.fresh⟩

end Steps

/-- What `sys_semop` and `sem_exit` index in a state. -/
structure WithinSets (s : State τ) : Prop where
  /-- What a step names is in the sets exactly when it meets the condition. -/
  step : ∀ e, inBounds s e ↔ ∀ p ∈ footprint s e, p.2 < s.nsems p.1
  /-- So will whoever uses an undo record later. -/
  record : ∀ r u, u ∈ (s.set r).undo → (s.undo u).semNum.toNat < s.nsems r

theorem Bounded.run_footprint {s : State τ} (h : Bounded s) (t : τ) :
    ∀ p ∈ footprint s (.run t), p.2 < s.nsems p.1 := by
  intro p hp
  cases ht : s.task t with
  | opSleep semid sops sma q num w =>
    obtain ⟨-, h2, h3⟩ := h.op_num ht
    simp only [footprint, ht, List.mem_cons, List.mem_map] at hp
    rcases hp with rfl | ⟨sop, hsop, rfl⟩
    · exact h2
    · exact h3 sop hsop
  | exitSleep sma u w =>
    simp only [footprint, ht, List.mem_singleton] at hp
    subst hp
    exact (h.exit_num ht).2.2
  | exiting =>
    simp only [footprint, ht] at hp
    split at hp
    · cases hp
    · split at hp
      · split_ifs at hp with hmem
        · rw [List.mem_singleton] at hp
          subst hp
          exact h.undo_num hmem
        · cases hp
      · cases hp
  | running | setval | setall | gone =>
    simp only [footprint, ht] at hp
    cases hp

theorem Bounded.withinSets {s : State τ} (h : Bounded s) : WithinSets s where
  step e := by
    cases e with
    | semop t semid sops denied allocs =>
      simp only [inBounds, footprint]
      cases hset : semopSet s semid sops denied with
      | error e => simp
      | ok sma =>
        have hle := (semopSet_ok hset).2
        simp only [Except.ok.injEq, forall_eq', List.forall_mem_map]
        exact forall₂_congr fun sop hsop => (lt_iff_le_and_ne.trans (and_iff_right (hle sop hsop))).symm
    | run t => exact iff_of_true trivial (h.run_footprint t)
    | table | setval | setall | ctl | exit | signal =>
      refine iff_of_true trivial fun p hp => ?_
      cases hp
  record _ _ hu := h.undo_num hu

/-- **`sys_semop` in bounds.**  In every run in which no operation that passes the checks is on the
semaphore just behind its set, `sys_semop` and `sem_exit` index within the sets, and do so in every
further step of which that is true. -/
theorem semop_in_bounds [DecidableEq τ] {s : State τ}
    (h : Transition.Reach step inBounds State.init s) : WithinSets s := by
  have hb : Bounded s :=
    h.invariant (I := Bounded) init_bounded fun _ _ _ hs hok hstep => step_bounded hs hok hstep
  exact hb.withinSets

/-- A set with one semaphore. -/
def oneSemaphore : List (Event Unit) :=
  [.table (.get () 0 1 ⟨true, false⟩ false), .table (.kmalloc () true)]

/-- An operation on the semaphore of the set, with an undo record. -/
theorem semop_in_bounds_one_semaphore :
    ∃ s : State Unit, (s.set 0).undo = [0] ∧ s.nsems 0 = 1 ∧ WithinSets s := by
  have hrun : (Transition.execOkFrom step (fun s e => decide (inBounds s e)) State.init
      (oneSemaphore ++ [.semop () 0 [⟨0, 1, false, true⟩] false 1])).map
      (fun s => ((s.set 0).undo, s.nsems 0)) = some ([0], 1) := by
    decide +kernel
  obtain ⟨s, hs, hval⟩ := Option.map_eq_some_iff.1 hrun
  have hreach : Transition.Reach step inBounds State.init s :=
    Transition.Reach.of_execOkFrom (fun _ _ => of_decide_eq_true) .init hs
  exact ⟨s, congrArg Prod.fst hval, congrArg Prod.snd hval, semop_in_bounds hreach⟩

/-- **The memory behind the sets.**  In such a run neither a call of `sys_semop` that meets the
condition nor a task that goes on in `sys_semop` or `sem_exit` changes it. -/
theorem memory_behind_kept [DecidableEq τ] {s : State τ}
    (h : Transition.Reach step inBounds State.init s) {r n : Nat} (hn : s.nsems r ≤ n) :
    (∀ t semid sops denied allocs, inBounds s (.semop t semid sops denied allocs) →
      ((semop t semid sops denied allocs s).1.set r).base n = (s.set r).base n) ∧
    ∀ t s' out, run t s = some (s', out) → (s'.set r).base n = (s.set r).base n := by
  have hb : Bounded s :=
    h.invariant (I := Bounded) init_bounded fun _ _ _ hs hok hstep => step_bounded hs hok hstep
  refine ⟨fun t semid sops denied allocs hok => ?_, fun t s' out hrun => ?_⟩
  · refine semop_base t semid sops denied allocs s fun hmem => ?_
    have hlt := (hb.withinSets.step _).1 hok _ hmem
    exact absurd hlt (Nat.not_lt.2 hn)
  · exact run_base hrun fun hmem => absurd (hb.run_footprint t _ hmem) (Nat.not_lt.2 hn)

/-- The semaphore of the set goes up, and the memory behind it is as it was. -/
theorem memory_behind_kept_one_semaphore :
    ∃ s : State Unit, s.nsems 0 = 1 ∧ ((semop () 0 [⟨0, 1, false, false⟩] false 0 s).1.set 0).base 1 =
      (s.set 0).base 1 ∧ (semop () 0 [⟨0, 1, false, false⟩] false 0 s).1.semval 0 0 = 1 := by
  have hrun : (Transition.execOkFrom step (fun s e => decide (inBounds s e)) State.init
      oneSemaphore).map (fun s => (s.nsems 0,
        decide (inBounds s (.semop () 0 [⟨0, 1, false, false⟩] false 0)),
        (semop () 0 [⟨0, 1, false, false⟩] false 0 s).1.semval 0 0)) = some (1, true, 1) := by
    decide +kernel
  obtain ⟨s, hs, hval⟩ := Option.map_eq_some_iff.1 hrun
  simp only [Prod.mk.injEq, decide_eq_true_eq] at hval
  obtain ⟨hn, hok, hup⟩ := hval
  have hreach := Transition.Reach.of_execOkFrom (fun _ _ => of_decide_eq_true) .init hs
  exact ⟨s, hn, (memory_behind_kept hreach hn.le).1 () 0 _ false 0 hok, hup⟩

/-- An operation on the semaphore with number 1. -/
def behindTheSet : List Sembuf := [⟨1, 1, false, false⟩]

/-- **The number that passes.**  A set has one semaphore, number 0; the operation on number 1 gets
past the checks, and the memory behind the set is changed. -/
theorem semop_out_of_bounds :
    ∃ s : State Unit, Transition.Reach step Transition.anyStep State.init s ∧ s.nsems 0 = 1 ∧
      semopSet s 0 behindTheSet false = .ok 0 ∧ s.semval 0 1 = 0 ∧
      (semop () 0 behindTheSet false 0 s).1.semval 0 1 = 1 ∧
      (semop () 0 behindTheSet false 0 s).2 = some 1 := by
  have hrun : (Transition.execFrom step State.init oneSemaphore).map
      (fun s => (s.nsems 0, semopSet s 0 behindTheSet false, s.semval 0 1,
        (semop () 0 behindTheSet false 0 s).1.semval 0 1,
        (semop () 0 behindTheSet false 0 s).2)) = some (1, .ok 0, 0, 1, some 1) := by
    decide +kernel
  obtain ⟨s, hs, hval⟩ := Option.map_eq_some_iff.1 hrun
  simp only [Prod.mk.injEq] at hval
  exact ⟨s, Transition.Reach.of_execFrom .init hs, hval⟩

end LinuxEvocation.Ipc.Semaphore
