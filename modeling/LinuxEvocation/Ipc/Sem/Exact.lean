import LinuxEvocation.Ipc.Sem.UndoCalls

/-!
# What `sem_exit` gives back

In every run whose steps meet `ExactStep`, `sem_exit` adds to each semaphore of each set in the
table exactly what the process owes it, touches no other, leaves no record of the process on a list
and frees each record once.

* `AtRecord`, `ExitStep`, `exit_cases` — what a step of `sem_exit` can do.
* `UndoExact`, `undo_exact` — the run result; `undo_stale` — a record that is left behind.
-/

namespace LinuxEvocation.Ipc.Semaphore

variable {τ : Type*}

/-! ## `sem_exit` -/

section Exit

variable {s s' : State τ} {b : Books τ} {t : τ}

theorem UndoInv.weaken (h : UndoInv s b none) (u : Nat) : UndoInv s b (some u) :=
  { h with listed := fun hu _ hrec hc => h.listed hu (by simp) hrec hc }

theorem UndoInv.unlisted_of_stale (h : UndoInv s b none) {u : Nat}
    (hstale : ∀ r, ¬ Current s (s.undo u).semid r) : Unlisted s u :=
  fun _ r hslot hm => hstale r (h.live hslot hm).1

theorem UndoInv.semadj_eq {out : Option Nat} (h : UndoInv s b out) {u sma : Nat}
    (hu : u ∈ s.semun t) (hcur : Current s (s.undo u).semid sma)
    (hlo : -2 ^ 15 ≤ b.owed t sma (s.undo u).semNum.toNat)
    (hhi : b.owed t sma (s.undo u).semNum.toNat < 2 ^ 15) :
    (s.undo u).semadj.toInt = b.owed t sma (s.undo u).semNum.toNat := by
  rw [h.amount hu hcur]
  exact Int16.toInt_ofInt_of_le hlo hhi

/-- `sem_exit` is at the record `u` in the state `s₁`, which has the values of `s`. -/
structure AtRecord (s s₁ : State τ) (b : Books τ) (t : τ) (u : Nat) : Prop where
  inv : UndoInv s₁ b (some u)
  head : (s₁.semun t).head? = some u
  unlisted : Unlisted s₁ u
  record : ∀ v, (s₁.task t).record = some v → v = u
  table : s₁.table = s.table
  vals : s₁.vals = s.vals
  undo : s₁.undo = s.undo
  semun : s₁.semun = s.semun
  task : s₁.task = s.task
  fresh : s₁.freshUndo = s.freshUndo

theorem AtRecord.current_iff {s₁ : State τ} {u : Nat} (h : AtRecord s s₁ b t u) (semid r : Nat) :
    Current s₁ semid r ↔ Current s semid r := by
  unfold Current State.seq
  rw [h.table]

variable [DecidableEq τ]

/-- **What a step of `sem_exit` can do**: end, free a record for which nothing is owed, or come to
one of a set in the table, where it adds what is owed or falls asleep. -/
inductive ExitStep (s : State τ) (b : Books τ) (t : τ) : State τ → Prop
  | done (h : s.semun t = []) : ExitStep s b t (s.setTask t .gone)
  | drop {s₁ : State τ} {u : Nat} (h : AtRecord s s₁ b t u)
      (hzero : ∀ r, Current s (s.undo u).semid r → b.owed t r (s.undo u).semNum.toNat = 0) :
      ExitStep s b t (dropUndo t s₁)
  | add {s₁ : State τ} {u sma : Nat} (h : AtRecord s s₁ b t u)
      (hcur : Current s (s.undo u).semid sma) (hnum : (s.undo u).semNum.toNat < s.nsems sma)
      (hadj : (s.undo u).semadj.toInt = b.owed t sma (s.undo u).semNum.toNat)
      (hnonneg : 0 ≤ s.vals sma (s.undo u).semNum.toNat + b.owed t sma (s.undo u).semNum.toNat)
      (hroom : s.vals sma (s.undo u).semNum.toNat + b.owed t sma (s.undo u).semNum.toNat < 65536) :
      ExitStep s b t (adjusted t sma u s₁)
  | sleep {s₁ : State τ} {u sma : Nat} (h : AtRecord s s₁ b t u)
      (hcur : Current s (s.undo u).semid sma)
      (hneg : s.vals sma (s.undo u).semNum.toNat + b.owed t sma (s.undo u).semNum.toNat < 0) :
      ExitStep s b t ((s₁.countUp sma (s.undo u).semNum.toNat .eventn).setTask t
        (.exitSleep sma u false))

theorem AtRecord.adjust {s₁ : State τ} {u sma : Nat} (h : AtRecord s s₁ b t u)
    (hvalid : s.seq sma = (s.undo u).semid / mni → s.table.slot ((s.undo u).semid % mni) = .used sma)
    (hsma : ∀ r, Current s (s.undo u).semid r → r = sma)
    (hnum : (s.undo u).semNum.toNat < s.nsems sma)
    (hroom : Current s (s.undo u).semid sma →
      -2 ^ 15 ≤ b.owed t sma (s.undo u).semNum.toNat ∧
        b.owed t sma (s.undo u).semNum.toNat < 2 ^ 15 ∧
        s.vals sma (s.undo u).semNum.toNat + b.owed t sma (s.undo u).semNum.toNat < 65536)
    (hcalm : s₁.pending t = false) : ExitStep s b t (adjust t sma u s₁) := by
  have hseq : s₁.seq sma = s.seq sma := by
    unfold State.seq
    rw [h.table]
  have hval : ((s₁.semval sma (s.undo u).semNum.toNat).toNat : Int) =
      s.vals sma (s.undo u).semNum.toNat := by
    rw [← h.vals]
    rfl
  unfold Semaphore.adjust
  dsimp only
  rw [h.undo, hseq, hval, hcalm]
  by_cases hs : s.seq sma = (s.undo u).semid / mni
  · rw [if_neg (not_not.2 hs)]
    have hcur : Current s (s.undo u).semid sma := ⟨hvalid hs, hs⟩
    obtain ⟨hlo, hhi, hmax⟩ := hroom hcur
    have hadj : (s.undo u).semadj.toInt = b.owed t sma (s.undo u).semNum.toNat := by
      have hmem₁ : u ∈ s₁.semun t := List.mem_of_mem_head? h.head
      have hcur₁ : Current s₁ (s₁.undo u).semid sma := by
        rw [h.undo, h.current_iff]
        exact hcur
      have hadj₁ := h.inv.semadj_eq hmem₁ hcur₁
      rw [h.undo] at hadj₁
      exact hadj₁ hlo hhi
    rw [hadj]
    split_ifs with hsum hf
    · exact .add h hcur hnum hadj hsum hmax
    · cases hf
    · exact .sleep h hcur (Int.not_le.1 hsum)
  · rw [if_pos hs]
    refine .drop h fun r hc => ?_
    obtain rfl := hsma r hc
    exact absurd hc.2 hs

theorem exit_cases (h : UndoInv s b none) (hb : Bounded s) {e : Event τ} {out : Option Int}
    (hexit : exits s e = some t) (hroom : hasRoom s b e) (hcalm : s.pending t = false)
    (hstep : stepOut s e = some (s', out)) : ExitStep s b t s' := by
  cases e with
  | run t' =>
    simp only [exits] at hexit
    simp only [stepOut, run] at hstep
    cases hx : s.task t' with
    | exitSleep sma u w =>
      rw [hx] at hexit hstep
      cases hexit
      simp only at hstep
      split_ifs at hstep
      cases hstep
      have hok := h.tasks t
      rw [hx] at hok
      obtain ⟨hhead, hun, hvalid, hsma⟩ := hok
      have hk := Kept.countDown s sma (s.undo u).semNum.toNat .eventn
      have hat : AtRecord s (s.countDown sma (s.undo u).semNum.toNat .eventn) b t u := by
        refine ⟨(h.kept_inv hk).weaken u, by rwa [hk.semun], ?_, fun v hv => ?_, hk.table, ?_, hk.undo,
          hk.semun, rfl, rfl⟩
        · intro id r hslot
          rw [hk.table] at hslot
          rw [hk.list]
          exact hun id r hslot
        · rw [hk.record, hx] at hv
          cases hv
          rfl
        · exact (SameValues.countDown s sma _ _).vals
      refine hat.adjust hvalid.2.1 hsma (hb.exit_num hx).2.2 (fun hcur => ?_) hcalm
      refine hroom t ?_ (sma, u) ?_ hcur
      · simp [exits, hx]
      · simp [adjusts, hx]
    | exiting =>
      rw [hx] at hexit hstep
      cases hexit
      cases hstep
      have hrec : ∀ v u, (s.task t).record = some v → v = u := by
        intro v u hv
        rw [hx] at hv
        cases hv
      unfold exitStep
      cases hsemun : s.semun t with
      | nil => exact .done hsemun
      | cons u rest =>
        have hmem : u ∈ s.semun t := by
          rw [hsemun]
          exact List.mem_cons_self
        have hstay : (∀ r, ¬ Current s (s.undo u).semid r) → ExitStep s b t (dropUndo t s) := by
          intro hstale
          refine .drop ⟨h.weaken u, by rw [hsemun]; rfl, h.unlisted_of_stale hstale,
            fun v => hrec v u, rfl, rfl, rfl, rfl, rfl, rfl⟩ fun r hc => ?_
          exact absurd hc (hstale r)
        simp only
        cases hslot : s.table.slot ((s.undo u).semid % mni) with
        | used sma =>
          simp only
          by_cases hs : s.seq sma = (s.undo u).semid / mni
          · rw [if_neg (not_not.2 hs)]
            have hcur : Current s (s.undo u).semid sma := ⟨hslot, hs⟩
            have hin : u ∈ (s.set sma).undo := by
              refine h.listed hmem (by simp) ?_ hcur
              rw [hx]
              exact fun hf => by cases hf
            rw [if_pos hin]
            obtain ⟨hinv, hun⟩ := h.erase hcur
            have hat : AtRecord s (s.setUndoList sma ((s.set sma).undo.erase u)) b t u := by
              refine ⟨hinv, by rw [State.setUndoList, hsemun]; rfl, hun,
                fun v => hrec v u, rfl, ?_, rfl, rfl, rfl, rfl⟩
              funext r n
              unfold State.vals
              rw [setUndoList_semval]
            obtain ⟨hlo, hhi, hmax⟩ := hroom t (by simp [exits, hx]) (sma, u)
              (by simp [adjusts, hx, hsemun, hslot, hin]) hcur
            split_ifs with hadj
            · refine .drop hat fun r hc => ?_
              obtain rfl := hc.sma_eq hcur
              rw [← h.semadj_eq hmem hcur hlo hhi, hadj]
              rfl
            · exact hat.adjust (fun _ => hslot) (fun r hc => hc.sma_eq hcur) (hb.undo_num hin)
                (fun _ => ⟨hlo, hhi, hmax⟩) hcalm
          · rw [if_pos hs]
            refine hstay fun r hc => hs ?_
            have hr := hc.1.symm.trans hslot
            cases hr
            exact hc.2
        | unused | noid =>
          refine hstay fun r hc => ?_
          have hr := hc.1.symm.trans hslot
          cases hr
    | running | opSleep | setval | setall | gone =>
      rw [hx] at hexit
      cases hexit
  | table | semop | setval | setall | ctl | exit | signal => cases hexit

theorem Books.next_of_exit {e : Event τ} {out : Option Int} (hexit : exits s e = some t)
    (hfresh : s'.freshUndo = s.freshUndo) :
    b.next s e s' out =
      { b with
        owed := fun t' r n =>
          if t' = t then b.owed t' r n - (s'.vals r n - s.vals r n) else b.owed t' r n
        freed := fun u => if kfrees s e s' = some u then b.freed u + 1 else b.freed u } := by
  have hplain : (∀ r n, resets s e r n = false) ∧ calls s e = none := by
    cases e with
    | run t' =>
      refine ⟨fun _ _ => rfl, ?_⟩
      simp only [exits] at hexit
      simp only [calls]
      cases hx : s.task t' with
      | opSleep =>
        rw [hx] at hexit
        cases hexit
      | running | setval | setall | exiting | exitSleep | gone => rfl
    | table | semop | setval | setall | ctl | exit | signal => cases hexit
  have howed : (fun t' r n => if resets s e r n then 0
      else if exits s e = some t' then b.owed t' r n - (s'.vals r n - s.vals r n)
      else b.owed t' r n - charged s e out t' r n) =
      fun t' r n =>
        if t' = t then b.owed t' r n - (s'.vals r n - s.vals r n) else b.owed t' r n := by
    funext t' r n
    rw [hplain.1, if_neg (by simp), hexit]
    by_cases ht : t' = t
    · rw [if_pos ht, if_pos (congrArg some ht.symm)]
    · rw [if_neg ht, if_neg fun hf => ht (Option.some.inj hf).symm]
      simp [charged, hplain.2]
  have howner := congrArg Books.owner (Books.made_self b (maker e) s.freshUndo)
  unfold Books.made at howner
  unfold Books.next
  rw [howed, hfresh]
  congr 1

/-- The values and the task after the adjustment. -/
theorem AtRecord.adjusted_vals {s₁ : State τ} {u sma : Nat} (h : AtRecord s s₁ b t u)
    (hadj : (s.undo u).semadj.toInt = b.owed t sma (s.undo u).semNum.toNat)
    (hnonneg : 0 ≤ s.vals sma (s.undo u).semNum.toNat + b.owed t sma (s.undo u).semNum.toNat)
    (hroom : s.vals sma (s.undo u).semNum.toNat + b.owed t sma (s.undo u).semNum.toNat < 65536)
    (r n : Nat) :
    (adjusted t sma u s₁).vals r n =
      if r = sma ∧ n = (s.undo u).semNum.toNat then
        s.vals sma (s.undo u).semNum.toNat + b.owed t sma (s.undo u).semNum.toNat
      else s.vals r n := by
  have hval : ((s₁.semval sma (s.undo u).semNum.toNat).toNat : Int) =
      s.vals sma (s.undo u).semNum.toNat := by
    rw [← h.vals]
    rfl
  unfold State.vals
  rw [adjusted_semval, h.undo]
  split_ifs
  · rw [hval, hadj, toUshort_toNat hnonneg hroom]
    rfl
  · have hold := congrFun (congrFun h.vals r) n
    exact hold

/-- **A step of `sem_exit` keeps the records and the books together.** -/
theorem ExitStep.undoInv (h : UndoInv s b none) (hT : TableInv s.table) {e : Event τ}
    {out : Option Int} (hexit : exits s e = some t) (hx : ExitStep s b t s') :
    UndoInv s' (b.next s e s' out) none := by
  have hhead : ∀ {s₁ : State τ} {u : Nat}, AtRecord s s₁ b t u →
      (s.semun t).head? = some u ∧ ∃ rest, s₁.semun t = u :: rest := by
    intro s₁ u hat
    refine ⟨by rw [← hat.semun]; exact hat.head, ?_⟩
    exact List.head?_eq_some_iff.1 hat.head
  cases hx with
  | done hnil =>
    have hbooks : b.next s e (s.setTask t .gone) out = b := by
      have hfresh : (s.setTask t .gone).freshUndo = s.freshUndo := rfl
      rw [Books.next_of_exit hexit hfresh]
      have howed : (fun t' r n => if t' = t then
          b.owed t' r n - ((s.setTask t .gone).vals r n - s.vals r n) else b.owed t' r n) =
          b.owed := by
        funext t' r n
        have hv : (s.setTask t .gone).vals r n = s.vals r n := rfl
        rw [hv, sub_self, sub_zero, ite_self]
      have hfreed : (fun u => if kfrees s e (s.setTask t .gone) = some u then b.freed u + 1
          else b.freed u) = b.freed := by
        funext u
        simp [kfrees, hexit, State.setTask]
      rw [howed, hfreed]
    rw [hbooks]
    refine h.setTask hnil (fun u hu => ?_) fun _ _ _ _ hf => by cases hf
    rw [hnil] at hu
    cases hu
  | @drop s₁ u hat hzero =>
    obtain ⟨hh, rest, hsemun⟩ := hhead hat
    have hvals : (dropUndo t s₁).vals = s.vals := hat.vals
    have hk : kfrees s e (dropUndo t s₁) = some u := by
      simp only [kfrees, hexit, dropUndo, State.setTask, Option.bind_some, Function.update_self]
      exact hh
    have howed : (fun t' r n => if t' = t then
        b.owed t' r n - ((dropUndo t s₁).vals r n - s.vals r n) else b.owed t' r n) = b.owed := by
      funext t' r n
      rw [hvals, sub_self, sub_zero, ite_self]
    have hfresh : (dropUndo t s₁).freshUndo = s.freshUndo := hat.fresh
    rw [Books.next_of_exit hexit hfresh, howed, hk]
    refine hat.inv.drop hsemun (fun v hv => Option.some.inj hv) hat.unlisted hat.record
      (fun _ _ _ => .inl rfl) (fun r hc => ?_) (fun hr => h.unborn (by rwa [hat.table] at hr))
      (by rwa [hat.table])
    rw [hat.undo] at hc ⊢
    exact hzero r ((hat.current_iff _ _).1 hc)
  | @add s₁ u sma hat hcur hnum hadj hnonneg hroom =>
    obtain ⟨hh, rest, hsemun⟩ := hhead hat
    have hvals := hat.adjusted_vals hadj hnonneg hroom
    have hk : kfrees s e (adjusted t sma u s₁) = some u := by
      have htask : (adjusted t sma u s₁).task t = .exiting := by
        unfold adjusted
        simp only [dropUndo, State.setTask, Function.update_self]
      simp only [kfrees, hexit, Option.bind_some, htask]
      exact hh
    have hfresh : (adjusted t sma u s₁).freshUndo = s.freshUndo := by
      rw [← hat.fresh]
      exact (Frame.adjusted t sma u s₁).fresh
    rw [Books.next_of_exit hexit hfresh, hk]
    simp only [hvals]
    obtain ⟨s₂, hk₂, heq⟩ : ∃ s₂, Kept s₁ s₂ ∧ adjusted t sma u s₁ = dropUndo t s₂ :=
      ⟨_, ((Kept.setSemval _ _ _ _).trans (Kept.wakeIf _ _ _ _)).trans (Kept.wakeIf _ _ _ _), rfl⟩
    have hcurrent : ∀ semid r, Current s₂ semid r ↔ Current s semid r :=
      fun semid r => (hk₂.current_iff semid r).trans (hat.current_iff semid r)
    have hundo : s₂.undo = s.undo := hk₂.undo.trans hat.undo
    have htable : s₂.table = s.table := hk₂.table.trans hat.table
    rw [heq]
    refine (hat.inv.kept_inv hk₂).drop (by rwa [hk₂.semun]) (fun v hv => Option.some.inj hv) ?_ ?_
      (fun t' r n => ?_) (fun r hc => ?_) (fun {t' r n} hr => ?_) (by rwa [htable])
    · intro id r hslot
      rw [hk₂.table] at hslot
      rw [hk₂.list]
      exact hat.unlisted id r hslot
    · intro v hv
      rw [hk₂.record] at hv
      exact hat.record v hv
    · by_cases ht : t' = t
      · by_cases hr : r = sma ∧ n = (s.undo u).semNum.toNat
        · refine .inr ⟨ht, ?_, ?_⟩
          · rw [hundo, hcurrent, hr.1]
            exact hcur
          · rw [hundo]
            exact hr.2
        · left
          rw [if_pos ht, if_neg hr, sub_self, sub_zero]
      · left
        rw [if_neg ht]
    · rw [hundo, hcurrent] at hc
      obtain rfl := hc.sma_eq hcur
      rw [hundo, if_pos rfl, if_pos ⟨rfl, rfl⟩]
      omega
    · rw [htable] at hr
      have hne : r ≠ sma := by
        rintro rfl
        exact absurd (hT.used_lt hcur.1) (Nat.not_lt.2 hr)
      have hkeep : ¬ (r = sma ∧ n = (s.undo u).semNum.toNat) := fun hf => hne hf.1
      rw [if_neg hkeep, sub_self, sub_zero, ite_self]
      exact h.unborn hr
  | @sleep s₁ u sma hat hcur hneg =>
    obtain ⟨hh, rest, hsemun⟩ := hhead hat
    have hk := Kept.countUp s₁ sma (s.undo u).semNum.toNat .eventn
    generalize hs₂ : s₁.countUp sma (s.undo u).semNum.toNat .eventn = s₂ at hk ⊢
    have hvals : (s₂.setTask t (.exitSleep sma u false)).vals = s.vals := by
      rw [← hat.vals, ← hs₂]
      funext r n
      unfold State.vals
      exact congrArg (fun v => (v.toNat : Int)) (countUp_semval s₁ sma _ .eventn r n)
    have hfree : kfrees s e (s₂.setTask t (.exitSleep sma u false)) = none := by
      simp [kfrees, hexit, State.setTask]
    have hfresh : (s₂.setTask t (.exitSleep sma u false)).freshUndo = s.freshUndo :=
      hk.fresh.trans hat.fresh
    have hbooks : b.next s e (s₂.setTask t (.exitSleep sma u false)) out = b := by
      have howed : (fun t' r n => if t' = t then
          b.owed t' r n - ((s₂.setTask t (.exitSleep sma u false)).vals r n - s.vals r n)
          else b.owed t' r n) = b.owed := by
        funext t' r n
        rw [hvals, sub_self, sub_zero, ite_self]
      rw [Books.next_of_exit hexit hfresh, howed, hfree]
      rfl
    rw [hbooks]
    have hundo : s₂.undo = s.undo := hk.undo.trans hat.undo
    have hcur₁ : Current s₁ (s₁.undo u).semid sma := by
      rw [hat.undo, hat.current_iff]
      exact hcur
    refine (hat.inv.kept_inv hk).setTask (hk.taskOk ⟨hat.head, hat.unlisted, ?_, ?_⟩) ?_ ?_
    · refine ⟨?_, fun _ => hcur₁.1, fun _ _ => hcur₁⟩
      rw [hat.table]
      exact hT.used_lt hcur.1
    · exact fun r hc => hc.sma_eq hcur₁
    · rintro v - (hv | hv)
      · exact .inr hv.symm
      · rw [hk.record] at hv
        exact .inr (congrArg some (hat.record v hv).symm)
    · intro t' ht v hv heq
      cases heq
      rw [hk.semun] at hv
      have hmem : u ∈ s₁.semun t := by
        rw [hsemun]
        exact List.mem_cons_self
      exact absurd (hat.inv.owner_eq hv hmem) ht

end Exit

/-! ## Every step -/

section Steps

variable [DecidableEq τ] {s s' : State τ} {b : Books τ}

/-- The records and the books, with the bounds of the sets. -/
structure UndoSound (x : State τ × Books τ) : Prop where
  bounded : Bounded x.1
  inv : UndoInv x.1 x.2 none

/-- **A step that meets the condition keeps the records and the books together.** -/
theorem step_undoSound {x x' : State τ × Books τ} {e : Event τ} (h : UndoSound x)
    (hok : ExactStep x e) (hstep : bookStep x e = some x') : UndoSound x' := by
  obtain ⟨⟨s', out⟩, hout, rfl⟩ := Option.map_eq_some_iff.1 hstep
  obtain ⟨s, b⟩ := x
  have hinv := h.inv
  have hb := h.bounded
  refine ⟨step_bounded hb hok.bounds (by rw [step, hout]; rfl), ?_⟩
  dsimp only at hinv hb hout ⊢
  have hmove : ∀ {t : τ} {y : Task}, s.task t = .running → TaskOk s t y →
      UndoInv (s.setTask t y) b none := by
    intro t y ht hy
    refine hinv.move ?_ hy
    rw [ht]
    rfl
  cases e with
  | table e => exact hinv.table hb hok.fresh hout
  | semop t semid sops denied allocs =>
    simp only [stepOut] at hout
    split_ifs at hout with ht
    exact hinv.semop hb.table ht hok.current (Option.some.inj hout)
  | setval t semid semnum val | setall t semid semnum array =>
    simp only [stepOut, setvalBegin, setallBegin] at hout
    split_ifs at hout with ht
    split at hout
    · cases hout
      exact hinv.unnoticed (fun _ _ => rfl) rfl rfl rfl
    · rename_i sma hset
      cases hout
      have hcur := ctlSet_ok hset
      refine (hmove ht ?_).unnoticed (fun _ _ => rfl) rfl rfl rfl
      exact ⟨hb.table.used_lt hcur.1, fun _ => hcur.1, fun _ _ => hcur⟩
  | ctl t denied =>
    obtain ⟨r, hr, heq⟩ := Option.map_eq_some_iff.1 hout
    cases heq
    exact hinv.ctl hok.awake hr
  | run t =>
    cases hexit : exits s (.run t) with
    | some t' =>
      have hx := exit_cases hinv hb hexit hok.room (hok.calm t' hexit) hout
      exact hx.undoInv hinv hb.table hexit
    | none =>
      simp only [stepOut, run] at hout
      cases hx : s.task t with
      | opSleep semid sops sma q num w =>
        rw [hx] at hout
        simp only at hout
        split_ifs at hout
        have hatt := Option.some.inj hout
        have htask := hinv.tasks t
        rw [hx] at htask
        have hk := Kept.countDown s sma num q
        have hfresh : s'.freshUndo = s.freshUndo := by
          have hf := UndoInv.attempt_freshUndo t semid sops sma (s.countDown sma num q)
          rw [hatt] at hf
          exact hf.trans hk.fresh
        have hcharged : charged s (.run t) out = Call.charge ⟨t, semid, sops, sma⟩ out := by
          funext t' r n
          simp only [charged, calls, hx]
        have hvalid : (s.countDown sma num q).seq sma = semid / mni →
            (s.countDown sma num q).table.slot (semid % mni) = .used sma := by
          unfold State.seq
          rw [hk.table]
          exact htask.1.2.1
        rw [Books.next_of_call b s' out (fun _ _ => rfl) hexit, hfresh, Books.made_self, hcharged]
        refine (hinv.kept_inv hk).attempt (by rw [hk.table]; exact hb.table) ?_ hvalid (fun sop hsop hu => ?_) hatt
        · rw [hk.record, hx]
          rfl
        · obtain ⟨u, hmem, hid, hn⟩ := htask.2 sop hsop hu
          exact ⟨u, by rwa [hk.semun], by rwa [hk.undo], by rwa [hk.undo]⟩
      | exitSleep | exiting =>
        simp [exits, hx] at hexit
      | running | setval | setall | gone =>
        rw [hx] at hout
        cases hout
  | exit t =>
    simp only [stepOut] at hout
    split_ifs at hout with ht
    cases hout
    have hgo : UndoInv (s.setTask t .exiting) b none := hmove ht trivial
    exact hgo.unnoticed (fun _ _ => rfl) rfl rfl rfl
  | signal t pending =>
    cases hout
    have hk : Kept s { s with pending := Function.update s.pending t pending } :=
      ⟨rfl, fun _ => rfl, rfl, rfl, rfl, fun _ => rfl, fun _ _ _ _ hP => hP⟩
    exact (hinv.kept_inv hk).unnoticed (fun _ _ => rfl) rfl rfl rfl

/-! ## Runs -/

/-- **What `sem_exit` gives back.** -/
structure UndoExact (x : State τ × Books τ) : Prop where
  /-- A step of it adds what is owed to one semaphore of a set in the table, or changes nothing. -/
  adds : ∀ e t x', exits x.1 e = some t → ExactStep x e → bookStep x e = some x' →
    x'.1.vals = x.1.vals ∨ ∃ id sma n, x.1.table.slot id = .used sma ∧ n < x.1.nsems sma ∧
      ∀ r m, x'.1.vals r m =
        if r = sma ∧ m = n then x.1.vals r m + x.2.owed t r m else x.1.vals r m
  /-- It waits only while the value would be negative. -/
  waits : ∀ e t x' sma u, exits x.1 e = some t → ExactStep x e → bookStep x e = some x' →
    x'.1.task t = .exitSleep sma u false →
    x.1.vals sma (x.1.undo u).semNum.toNat + x.2.owed t sma (x.1.undo u).semNum.toNat < 0
  /-- After it nothing is owed. -/
  settled : ∀ t, x.1.task t = .gone → ∀ id sma n, x.1.table.slot id = .used sma →
    x.2.owed t sma n = 0
  /-- After it no record of the process is on a list. -/
  unlisted : ∀ t, x.1.task t = .gone → ∀ id sma u, x.1.table.slot id = .used sma →
    u ∈ (x.1.set sma).undo → x.2.owner u ≠ some t
  /-- Each record is freed once. -/
  freed : ∀ t u, x.2.owner u = some t →
    x.2.freed u ≤ 1 ∧ (x.1.task t = .gone → x.2.freed u = 1)

/-- What a step of `sem_exit` does to the values. -/
theorem ExitStep.adds {t : τ} (h : ExitStep s b t s') :
    s'.vals = s.vals ∨ ∃ id sma n, s.table.slot id = .used sma ∧ n < s.nsems sma ∧
      ∀ r m, s'.vals r m = if r = sma ∧ m = n then s.vals r m + b.owed t r m else s.vals r m := by
  cases h with
  | done hnil => exact .inl rfl
  | drop hat hzero => exact .inl hat.vals
  | @add s₁ u sma hat hcur hnum hadj hnonneg hroom =>
    refine .inr ⟨_, sma, (s.undo u).semNum.toNat, hcur.1, hnum, fun r m => ?_⟩
    rw [hat.adjusted_vals hadj hnonneg hroom]
    split_ifs with heq
    · rw [heq.1, heq.2]
    · rfl
  | @sleep s₁ u sma hat hcur hneg =>
    left
    rw [← hat.vals]
    funext r n
    unfold State.vals
    exact congrArg (fun v => (v.toNat : Int)) (countUp_semval s₁ sma _ .eventn r n)

/-- It falls asleep only for a value that would be negative. -/
theorem ExitStep.waits {t : τ} {sma u : Nat} (h : ExitStep s b t s')
    (ht : s'.task t = .exitSleep sma u false) :
    s.vals sma (s.undo u).semNum.toNat + b.owed t sma (s.undo u).semNum.toNat < 0 := by
  cases h with
  | done hnil =>
    simp only [State.setTask, Function.update_self] at ht
    cases ht
  | drop hat hzero =>
    simp only [dropUndo, State.setTask, Function.update_self] at ht
    cases ht
  | add hat hcur hnum hadj hnonneg hroom =>
    unfold adjusted at ht
    simp only [dropUndo, State.setTask, Function.update_self] at ht
    cases ht
  | sleep hat hcur hneg =>
    simp only [State.setTask, Function.update_self] at ht
    cases ht
    exact hneg

theorem UndoSound.exact {x : State τ × Books τ} (h : UndoSound x) : UndoExact x := by
  have hcases : ∀ {e t x'}, exits x.1 e = some t → ExactStep x e → bookStep x e = some x' →
      ExitStep x.1 x.2 t x'.1 := by
    intro e t x' hexit hok hstep
    obtain ⟨⟨s', out⟩, hout, rfl⟩ := Option.map_eq_some_iff.1 hstep
    exact exit_cases h.inv h.bounded hexit hok.room (hok.calm t hexit) hout
  have hgone : ∀ {t}, x.1.task t = .gone → x.1.semun t = [] := by
    intro t ht
    have hok := h.inv.tasks t
    rw [ht] at hok
    exact hok
  refine ⟨fun e t x' hexit hok hstep => ?_, fun e t x' sma u hexit hok hstep ht => ?_,
    fun t ht id sma n hslot => ?_, fun t ht id sma u hslot hu howner => ?_,
    fun t u howner => ?_⟩
  · exact (hcases hexit hok hstep).adds
  · exact (hcases hexit hok hstep).waits ht
  · by_contra hne
    obtain ⟨u, hu, -⟩ := h.inv.covered hslot hne
    rw [hgone ht] at hu
    cases hu
  · obtain ⟨-, t', ht'⟩ := h.inv.live hslot hu
    obtain rfl := Option.some.inj ((h.inv.owned ht').1.symm.trans howner)
    rw [hgone ht] at ht'
    cases ht'
  · obtain ⟨-, hor⟩ := h.inv.kept howner
    refine ⟨?_, fun ht => ?_⟩
    · rcases hor with hmem | hone
      · rw [(h.inv.owned hmem).2]
        exact Nat.zero_le _
      · exact hone.le
    · rcases hor with hmem | hone
      · rw [hgone ht] at hmem
        cases hmem
      · exact hone

/-- **Semaphore undo is exact** in every run whose steps meet the condition. -/
theorem undo_exact {x : State τ × Books τ}
    (h : Transition.Reach bookStep ExactStep (State.init, Books.init) x) : UndoExact x := by
  refine UndoSound.exact (h.invariant (I := UndoSound) ⟨init_bounded, init_undoInv⟩ ?_)
  exact fun _ _ _ hx hok hstep => step_undoSound hx hok hstep

end Steps

/-- A process takes 1 of the 3 that another has put there, and 1 more of the 3 another time, and
gives back 2 when it exits. -/
def takesTwo : List (Event Bool) :=
  [.table (.get true 0 1 ⟨true, false⟩ false), .table (.kmalloc true true),
    .semop true 0 [⟨0, 3, false, false⟩] false 0, .semop false 0 [⟨0, -1, false, true⟩] false 1,
    .semop false 0 [⟨0, -1, false, true⟩] false 0, .exit false, .run false, .run false]

theorem undo_exact_takes_two :
    ∃ x : State Bool × Books Bool, x.1.task false = .gone ∧ x.1.vals 0 0 = 3 ∧ x.2.freed 0 = 1 ∧
      UndoExact x := by
  have hrun : (Transition.execOkFrom bookStep (fun x e => decide (ExactStep x e))
      (State.init, Books.init) takesTwo).map
      (fun x => (x.1.task false, x.1.vals 0 0, x.2.freed 0)) = some (.gone, 3, 1) := by
    decide +kernel
  obtain ⟨x, hx, hval⟩ := Option.map_eq_some_iff.1 hrun
  simp only [Prod.mk.injEq] at hval
  have hreach : Transition.Reach bookStep ExactStep (State.init, Books.init) x :=
    Transition.Reach.of_execOkFrom (fun _ _ => of_decide_eq_true) .init hx
  exact ⟨x, hval.1, hval.2.1, hval.2.2, undo_exact hreach⟩

/-- A set is removed and another one made in its slot; the process uses the identifier of the first
with `SEM_UNDO`, gets `-EIDRM`, and exits. -/
def staleUndo : List (Event Unit) :=
  oneSemaphore ++ [.table (.free 0)] ++ oneSemaphore ++
    [.semop () 0 [⟨0, 1, false, true⟩] false 1, .exit (), .run (), .run ()]

/-- **A record that is left behind.**  The process is gone and its record freed, but the record is
on the undo list of the second set. -/
theorem undo_stale :
    ∃ x : State Unit × Books Unit,
      Transition.Reach bookStep Transition.anyStep (State.init, Books.init) x ∧
      x.1.task () = .gone ∧ x.1.pending () = false ∧ x.1.table.slot 0 = .used 1 ∧
      (x.1.set 1).undo = [0] ∧ x.2.owner 0 = some () ∧ x.2.freed 0 = 1 := by
  have hrun : (Transition.execFrom bookStep (State.init, Books.init) staleUndo).map
      (fun x => decide (x.1.task () = .gone ∧ x.1.pending () = false ∧
        x.1.table.slot 0 = .used 1 ∧ (x.1.set 1).undo = [0] ∧ x.2.owner 0 = some () ∧
        x.2.freed 0 = 1)) = some true := by
    decide +kernel
  obtain ⟨x, hx, hval⟩ := Option.map_eq_some_iff.1 hrun
  exact ⟨x, Transition.Reach.of_execFrom .init hx, of_decide_eq_true hval⟩

end LinuxEvocation.Ipc.Semaphore
