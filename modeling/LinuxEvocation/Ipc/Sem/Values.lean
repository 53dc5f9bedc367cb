import LinuxEvocation.Ipc.Sem.Bounds

/-!
# The values of semaphores

What `sys_semop` is for: to perform its operations one after the other on the values of a set,
where no value leaves `0..SEMVMX` and an operation 0 finds the value 0.  The code checks every
operation against the values as they were before the call, and `sem_exit` has no upper limit.

* `Fits`, `perform` — one operation, and a sequence of them.
* `change`, `perform_isSome_iff` — when a sequence can be performed.
* `Fresh`, `pass_perform_iff` — what is left to ask for when the check has passed.
* `SafeStep`, `step_ranged` — the condition on a step and what it preserves.
* `semop_values` — the run result, `semop_twice` — a value that leaves the range.
-/

namespace LinuxEvocation.Ipc.Semaphore

open Function (update update_of_ne update_self)

/-! ## Operations one after the other -/

/-- The operation can be performed on the value. -/
def Fits (v op : Int) : Prop := (op = 0 → v = 0) ∧ 0 ≤ v + op ∧ v + op ≤ semvmx

instance (v op : Int) : Decidable (Fits v op) :=
  inferInstanceAs (Decidable ((op = 0 → v = 0) ∧ 0 ≤ v + op ∧ v + op ≤ semvmx))

/-- The operations, one after the other, on a set with `nsems` semaphores. -/
def perform (nsems : Nat) (val : Nat → Int) : List Sembuf → Option (Nat → Int)
  | [] => some val
  | sop :: rest =>
    let num := sop.semNum.toNat
    if num < nsems ∧ Fits (val num) sop.semOp.toInt then
      perform nsems (update val num (val num + sop.semOp.toInt)) rest
    else none

/-- By how much the operations change the semaphore `n`. -/
def change (sops : List Sembuf) (n : Nat) : Int :=
  (sops.map fun sop => if sop.semNum.toNat = n then sop.semOp.toInt else 0).sum

@[simp]
theorem change_nil (n : Nat) : change [] n = 0 := rfl

@[simp]
theorem change_cons (sop : Sembuf) (sops : List Sembuf) (n : Nat) :
    change (sop :: sops) n = (if sop.semNum.toNat = n then sop.semOp.toInt else 0) + change sops n :=
  rfl

/-- A value, and what the operations before do to it. -/
theorem update_add_change (val : Nat → Int) (sop : Sembuf) (sops : List Sembuf) (n : Nat) :
    update val sop.semNum.toNat (val sop.semNum.toNat + sop.semOp.toInt) n +
      change sops n = val n + change (sop :: sops) n := by
  rw [change_cons]
  by_cases hn : n = sop.semNum.toNat
  · subst hn
    rw [update_self, if_pos rfl]
    omega
  · rw [update_of_ne hn, if_neg (Ne.symm hn)]
    omega

variable {sops : List Sembuf}

/-- **A sequence can be performed** when each operation fits the value that the ones before it
leave. -/
theorem perform_isSome_iff {nsems : Nat} {val : Nat → Int} :
    (perform nsems val sops).isSome ↔ ∀ i, (hi : i < sops.length) →
      sops[i].semNum.toNat < nsems ∧
        Fits (val sops[i].semNum.toNat + change (sops.take i) sops[i].semNum.toNat)
          sops[i].semOp.toInt := by
  induction sops generalizing val with
  | nil => exact iff_of_true rfl fun i hi => absurd hi (Nat.not_lt_zero i)
  | cons x rest ih =>
    rw [perform]
    split_ifs with hx
    · rw [ih]
      constructor
      · intro hall i hi
        cases i with
        | zero => simpa using hx
        | succ i =>
          have hrest := hall i (Nat.lt_of_succ_lt_succ hi)
          rw [update_add_change] at hrest
          exact hrest
      · intro hall i hi
        rw [update_add_change]
        exact hall (i + 1) (Nat.succ_lt_succ hi)
    · refine iff_of_false (by simp) fun hall => hx ?_
      simpa using hall 0 (Nat.succ_pos _)

theorem perform_range {nsems : Nat} {val w : Nat → Int}
    (h : perform nsems val sops = some w) (n : Nat) :
    w n = val n ∨ 0 ≤ w n ∧ w n ≤ semvmx := by
  induction sops generalizing val with
  | nil =>
    cases h
    exact .inl rfl
  | cons x rest ih =>
    rw [perform] at h
    split_ifs at h with hx
    rcases ih h with heq | hrange
    · by_cases hn : n = x.semNum.toNat
      · subst hn
        rw [update_self] at heq
        rw [heq]
        exact .inr hx.2.2
      · rw [update_of_ne hn] at heq
        exact .inl heq
    · exact .inr hrange

/-! ## The two loops -/

theorem toUshort_toNat {x : Int} (h0 : 0 ≤ x) (h1 : x < 65536) : ((toUshort x).toNat : Int) = x := by
  unfold toUshort
  rw [UInt16.toNat_ofNat', Int.emod_eq_of_lt h0 h1]
  omega

/-- **The first loop** passes when each operation fits the value before the call. -/
theorem checkOps_pass_iff {val : Nat → UInt16} {pending : Bool} :
    checkOps val pending sops = .pass ↔
      ∀ sop ∈ sops, Fits (val sop.semNum.toNat).toNat sop.semOp.toInt := by
  induction sops with
  | nil => simp [checkOps]
  | cons sop rest ih =>
    have hop : sop.semOp = 0 ↔ sop.semOp.toInt = 0 := by
      rw [← Int16.toInt_inj]
      rfl
    have hval : val sop.semNum.toNat = 0 ↔ (val sop.semNum.toNat).toNat = 0 := by
      rw [← UInt16.toNat_inj]
      rfl
    rw [List.forall_mem_cons, ← ih, checkOps]
    simp only [Fits, hop, hval, ne_eq]
    -- whichever test stops the loop, the operation does not fit
    split_ifs with hmax hzero _ _ hneg
    · exact iff_of_false (by simp) fun h => absurd h.1.2.2 (by omega)
    · exact iff_of_false (by simp) fun h => absurd (h.1.1 hzero.1) (by omega)
    · exact iff_of_false (by simp) fun h => absurd (h.1.1 hzero.1) (by omega)
    · exact iff_of_false (by simp) fun h => absurd (h.1.1 hzero.1) (by omega)
    · exact iff_of_false (by simp) fun h => absurd h.1.2.1 (by omega)
    · exact iff_of_false (by simp) fun h => absurd h.1.2.1 (by omega)
    · exact iff_of_false (by simp) fun h => absurd h.1.2.1 (by omega)
    · exact (and_iff_right ⟨by omega, by omega, by omega⟩).symm

/-- **The second loop** has the result of the operations one after the other, when these can be
performed. -/
theorem applyVals_of_perform {nsems : Nat} {val : Nat → UInt16}
    {w : Nat → Int} (h : perform nsems (fun n => (val n).toNat) sops = some w) (n : Nat) :
    ((applyVals val sops n).toNat : Int) = w n := by
  induction sops generalizing val with
  | nil =>
    cases h
    rfl
  | cons x rest ih =>
    rw [perform] at h
    split_ifs at h with hx
    rw [applyVals]
    apply ih
    rw [← h]
    congr 1
    funext m
    by_cases hm : m = x.semNum.toNat
    · subst hm
      rw [update_self, update_self]
      exact toUshort_toNat hx.2.2.1 (lt_of_le_of_lt hx.2.2.2 (by decide))
    · rw [update_of_ne hm, update_of_ne hm]

/-- An operation on a semaphore that the ones before it, in sum, change fits the value they
leave.  For the others this is what the first loop has checked. -/
def StaleFits (val : Nat → Int) (sops : List Sembuf) : Prop :=
  ∀ i, (hi : i < sops.length) → change (sops.take i) sops[i].semNum.toNat ≠ 0 →
    Fits (val sops[i].semNum.toNat + change (sops.take i) sops[i].semNum.toNat)
      sops[i].semOp.toInt

instance (val : Nat → Int) (sops : List Sembuf) : Decidable (StaleFits val sops) :=
  inferInstanceAs (Decidable (∀ i, (hi : i < sops.length) →
    change (sops.take i) sops[i].semNum.toNat ≠ 0 →
      Fits (val sops[i].semNum.toNat + change (sops.take i) sops[i].semNum.toNat)
        sops[i].semOp.toInt))

/-- **The two loops together.**  When the check has passed, the second loop is the operations one
after the other exactly when they are within the set and `StaleFits`. -/
theorem pass_perform_iff {nsems : Nat} {val : Nat → UInt16} {pending : Bool}
    (h : checkOps val pending sops = .pass) :
    ((∀ sop ∈ sops, sop.semNum.toNat < nsems) ∧ StaleFits (fun n => (val n).toNat) sops) ↔
      perform nsems (fun n => (val n).toNat) sops =
        some fun n => ((applyVals val sops n).toNat : Int) := by
  constructor
  · rintro ⟨hnum, hstale⟩
    have hsome : (perform nsems (fun n => (val n).toNat) sops).isSome := by
      rw [perform_isSome_iff]
      intro i hi
      refine ⟨hnum _ (List.getElem_mem hi), ?_⟩
      by_cases hchange : change (sops.take i) sops[i].semNum.toNat = 0
      · rw [hchange, add_zero]
        exact checkOps_pass_iff.1 h _ (List.getElem_mem hi)
      · exact hstale i hi hchange
    obtain ⟨w, hw⟩ := Option.isSome_iff_exists.1 hsome
    rw [hw]
    congr 1
    funext n
    exact (applyVals_of_perform hw n).symm
  · intro hperform
    have hall := perform_isSome_iff.1 (Option.isSome_iff_exists.2 ⟨_, hperform⟩)
    constructor
    · intro sop hsop
      obtain ⟨i, hi, rfl⟩ := List.getElem_of_mem hsop
      exact (hall i hi).1
    · exact fun i hi _ => (hall i hi).2

/-! ## What a step does to the values -/

variable {τ : Type*}

/-- The values of a set. -/
def State.vals (s : State τ) (sma n : Nat) : Int := (s.semval sma n).toNat

/-- A call of `sys_semop` that has come to the label `slept`. -/
structure Call (τ : Type*) where
  t : τ
  semid : Nat
  sops : List Sembuf
  sma : Nat

/-- The call that goes on in a step. -/
def calls (s : State τ) : Event τ → Option (Call τ)
  | .semop t semid sops denied _ =>
    match semopSet s semid sops denied with
    | .ok sma => some ⟨t, semid.toNat, sops, sma⟩
    | .error _ => none
  | .run t =>
    match s.task t with
    | .opSleep semid sops sma _ _ _ => some ⟨t, semid, sops, sma⟩
    | _ => none
  | _ => none

/-- The set is there and the first loop passes. -/
def Call.Passes (c : Call τ) (s : State τ) : Prop :=
  s.seq c.sma = c.semid / mni ∧ checkOps (s.semval c.sma) (s.pending c.t) c.sops = .pass

/-- What the code does not check: no operation is on the semaphore just behind the set, and those
on a semaphore that the call has changed fit. -/
def Call.Meets (c : Call τ) (s : State τ) : Prop :=
  (∀ sop ∈ c.sops, sop.semNum.toNat ≠ s.nsems c.sma) ∧ StaleFits (s.vals c.sma) c.sops

/-- The set and the undo record that `sem_exit` looks at in a step. -/
def adjusts (s : State τ) : Event τ → Option (Nat × Nat)
  | .run t =>
    match s.task t with
    | .exitSleep sma u _ => some (sma, u)
    | .exiting =>
      match s.semun t with
      | [] => none
      | u :: _ =>
        match s.table.slot ((s.undo u).semid % mni) with
        | .used sma => if u ∈ (s.set sma).undo then some (sma, u) else none
        | _ => none
    | _ => none
  | _ => none

/-- **The condition on a step.**  A call whose check passes meets what is not checked, and
`sem_exit` adds no more than there is room for. -/
structure SafeStep (s : State τ) (e : Event τ) : Prop where
  bounds : inBounds s e
  ops : ∀ c ∈ calls s e, c.Passes s → StaleFits (s.vals c.sma) c.sops
  adjust : ∀ p ∈ adjusts s e, s.seq p.1 = (s.undo p.2).semid / mni →
    s.vals p.1 (s.undo p.2).semNum.toNat + (s.undo p.2).semadj.toInt ≤ semvmx

instance (c : Call τ) (s : State τ) : Decidable (c.Passes s) :=
  inferInstanceAs (Decidable (_ ∧ _))

instance (s : State τ) (e : Event τ) : Decidable (SafeStep s e) :=
  decidable_of_iff (inBounds s e ∧
      (∀ c ∈ calls s e, c.Passes s → StaleFits (s.vals c.sma) c.sops) ∧
      ∀ p ∈ adjusts s e, s.seq p.1 = (s.undo p.2).semid / mni →
        s.vals p.1 (s.undo p.2).semNum.toNat + (s.undo p.2).semadj.toInt ≤ semvmx)
    ⟨fun h => ⟨h.1, h.2.1, h.2.2⟩, fun h => ⟨h.bounds, h.ops, h.adjust⟩⟩

/-- The values of the sets in the table are in range. -/
def InRange (s : State τ) : Prop :=
  ∀ id sma n, s.table.slot id = .used sma → n < s.nsems sma → s.vals sma n ≤ semvmx

/-- The table is the same, and what has been stored is in range. -/
structure Stores (s s' : State τ) : Prop where
  table : s'.table = s.table
  vals : ∀ r n, s'.vals r n = s.vals r n ∨ s'.vals r n ≤ semvmx

theorem Stores.inRange {s s' : State τ} (h : Stores s s') (hs : InRange s) : InRange s' := by
  intro id sma n hslot hn
  rw [h.table] at hslot
  rw [State.nsems, h.table] at hn
  rcases h.vals sma n with heq | hle
  · rw [heq]
    exact hs id sma n hslot hn
  · exact hle

theorem Stores.of_eq {s s' : State τ} (htable : s'.table = s.table)
    (hval : ∀ r n, s'.semval r n = s.semval r n) : Stores s s' :=
  ⟨htable, fun r n => .inl (by rw [State.vals, State.vals, hval])⟩

theorem Stores.trans {s s' s'' : State τ} (h : Stores s s') (h' : Stores s' s'') :
    Stores s s'' := by
  refine ⟨h'.table.trans h.table, fun r n => ?_⟩
  rcases h'.vals r n with heq | hle
  · rw [heq]
    exact h.vals r n
  · exact .inr hle

theorem Stores.of_update {s s' : State τ} {sma num : Nat} {v : Int} (htable : s'.table = s.table)
    (hval : ∀ r n, s'.semval r n = if r = sma ∧ n = num then toUshort v else s.semval r n)
    (h0 : 0 ≤ v) (h1 : v ≤ semvmx) : Stores s s' := by
  refine ⟨htable, fun r n => ?_⟩
  simp only [State.vals, hval]
  split_ifs
  · refine .inr ?_
    rw [toUshort_toNat h0 (lt_of_le_of_lt h1 (by decide))]
    exact h1
  · exact .inl rfl

/-- What an attempt of `sys_semop` reads is the same. -/
structure SameValues (s s' : State τ) : Prop where
  table : s'.table = s.table
  semval : s'.semval = s.semval
  pending : s'.pending = s.pending

namespace SameValues

variable {s s' : State τ}

theorem vals (h : SameValues s s') : s'.vals = s.vals := by
  unfold State.vals
  rw [h.semval]

theorem nsems (h : SameValues s s') (sma : Nat) : s'.nsems sma = s.nsems sma := by
  rw [State.nsems, State.nsems, h.table]

theorem passes_iff (h : SameValues s s') (c : Call τ) : c.Passes s' ↔ c.Passes s := by
  unfold Call.Passes State.seq
  rw [h.table, h.semval, h.pending]

theorem stores (h : SameValues s s') : Stores s s' :=
  .of_eq h.table fun r n => by rw [h.semval]

theorem countDown (s : State τ) (sma num : Nat) (q : WaitQueue) :
    SameValues s (s.countDown sma num q) :=
  ⟨countDown_table s sma num q, by funext r n; exact countDown_semval s sma num q r n,
    countDown_pending s sma num q⟩

end SameValues

theorem setvalEnd_stores (semid semnum sma : Nat) (val : Int) (denied : Bool) (s : State τ) :
    Stores s (setvalEnd semid semnum sma val denied s).1 := by
  unfold setvalEnd
  split_ifs with hrange
  · exact .of_eq rfl fun _ _ => rfl
  · split
    · exact .of_eq rfl fun _ _ => rfl
    · exact .of_update rfl (fun r n => setSemval_semval
        (s.clearAdj sma fun un => un.semNum.toNat = semnum) sma semnum (toUshort val) r n)
        (by omega) (by omega)

theorem setallEnd_stores (semid sma nsems : Nat) (semIo : List UInt16) (denied : Bool)
    (s : State τ) : Stores s (setallEnd semid sma nsems semIo denied s).1 := by
  unfold setallEnd
  split_ifs with hany
  · exact .of_eq rfl fun _ _ => rfl
  · split
    · exact .of_eq rfl fun _ _ => rfl
    · have hio : ∀ i, ((semIo.getD i 0).toNat : Int) ≤ semvmx := by
        intro i
        rw [List.getD_eq_getElem?_getD]
        cases hget : semIo[i]? with
        | none => decide
        | some v =>
          by_contra hgt
          exact hany (List.any_eq_true.2 ⟨v, List.mem_of_getElem? hget, by simpa using hgt⟩)
      refine ⟨rfl, fun r n => ?_⟩
      simp only [State.vals, State.semval, State.wakeUp, State.clearAdj]
      by_cases hr : r = sma
      · subst hr
        simp only [update_self]
        split_ifs
        · exact .inr (hio n)
        · exact .inl rfl
      · simp only [update_of_ne hr, true_or]

section Steps

variable [DecidableEq τ]

theorem SameValues.addUndos (t : τ) (semid sma allocs : Nat) (sops : List Sembuf) (s : State τ) :
    SameValues s (addUndos t semid sma allocs sops s).1 := by
  obtain ⟨htable, hpending, hbase⟩ := addUndos_same t semid sma allocs sops s
  refine ⟨htable, ?_, hpending⟩
  funext r n
  exact congrArg (fun base => (base n).semval) (hbase r)

variable {t : τ} {sops : List Sembuf} {sma : Nat}

/-- Operations that are performed when they meet the condition. -/
theorem performed_vals (semid : Nat) {s : State τ}
    (hpass : checkOps (s.semval sma) (s.pending t) sops = .pass) :
    ((∀ sop ∈ sops, sop.semNum.toNat < s.nsems sma) ∧ StaleFits (s.vals sma) sops) ↔
      perform (s.nsems sma) (s.vals sma) sops =
        some ((performed t semid sops sma s).vals sma) := by
  have hvals : (performed t semid sops sma s).vals sma =
      fun n => ((applyVals (s.semval sma) sops n).toNat : Int) := by
    funext n
    rw [State.vals, performed_semval, if_pos rfl]
  rw [hvals]
  exact pass_perform_iff hpass

theorem attempt_stores {semid : Nat} {s : State τ}
    (hnum : ∀ sop ∈ sops, sop.semNum.toNat < s.nsems sma)
    (hstale : Call.Passes ⟨t, semid, sops, sma⟩ s → StaleFits (s.vals sma) sops) :
    Stores s (attempt t semid sops sma s).1 := by
  rcases attempt_cases t semid sops sma s with
    ⟨e, heq, -⟩ | ⟨q, sop, hsop, heq⟩ | ⟨hseq, hpass, v, heq⟩
  · rw [heq]
    exact .of_eq rfl fun _ _ => rfl
  · rw [heq]
    exact .of_eq (Frame.countUp s sma _ q).table fun r n => countUp_semval s sma _ q r n
  · rw [heq]
    refine ⟨(Frame.performed t semid sops sma s).table, fun r n => ?_⟩
    by_cases hr : r = sma
    · subst hr
      have hperform := (performed_vals semid hpass).1 ⟨hnum, hstale ⟨hseq, hpass⟩⟩
      exact (perform_range hperform n).imp_right And.right
    · refine .inl ?_
      rw [State.vals, performed_semval, if_neg hr]
      rfl

/-- An attempt in a state in which nothing that it reads has changed. -/
theorem SameValues.attempt_stores {semid : Nat} {s s' : State τ} (h : SameValues s s')
    (hnum : ∀ sop ∈ sops, sop.semNum.toNat < s.nsems sma)
    (hstale : Call.Passes ⟨t, semid, sops, sma⟩ s → StaleFits (s.vals sma) sops) :
    Stores s (attempt t semid sops sma s').1 := by
  refine h.stores.trans (Semaphore.attempt_stores ?_ fun hpass => ?_)
  · rw [h.nsems]
    exact hnum
  · rw [h.vals]
    exact hstale ((h.passes_iff _).1 hpass)

theorem adjust_stores {u : Nat} {s : State τ}
    (hmax : s.seq sma = (s.undo u).semid / mni →
      s.vals sma (s.undo u).semNum.toNat + (s.undo u).semadj.toInt ≤ semvmx) :
    Stores s (adjust t sma u s) := by
  rcases adjust_cases t sma u s with heq | heq | ⟨hseq, hsum, heq⟩
  · rw [heq]
    exact .of_eq rfl fun _ _ => rfl
  · rw [heq]
    exact .of_eq rfl fun r n => countUp_semval s sma _ .eventn r n
  · rw [heq]
    exact .of_update (Frame.adjusted t sma u s).table (adjusted_semval t sma u s) hsum (hmax hseq)

theorem exitStep_stores {s : State τ} (ht : s.task t = .exiting)
    (hmax : ∀ p ∈ adjusts s (.run t), s.seq p.1 = (s.undo p.2).semid / mni →
      s.vals p.1 (s.undo p.2).semNum.toNat + (s.undo p.2).semadj.toInt ≤ semvmx) :
    Stores s (exitStep t s) := by
  simp only [adjusts, ht] at hmax
  unfold exitStep
  cases hsemun : s.semun t with
  | nil => exact .of_eq rfl fun _ _ => rfl
  | cons u rest =>
    rw [hsemun] at hmax
    simp only at hmax ⊢
    cases hslot : s.table.slot ((s.undo u).semid % mni) with
    | used sma =>
      rw [hslot] at hmax
      simp only at hmax ⊢
      have herase := setUndoList_semval s sma ((s.set sma).undo.erase u)
      split_ifs with hseq hmem
      · exact .of_eq rfl fun _ _ => rfl
      · exact .of_eq rfl herase
      · rw [if_pos hmem] at hmax
        have hfirst : Stores s (s.setUndoList sma ((s.set sma).undo.erase u)) := .of_eq rfl herase
        refine hfirst.trans (adjust_stores fun hseq => ?_)
        rw [State.vals, herase]
        exact hmax (sma, u) rfl hseq
      · exact .of_eq rfl fun _ _ => rfl
    | unused | noid => exact .of_eq rfl fun _ _ => rfl

theorem run_stores {s s' : State τ} {out : Option Int} (h : Bounded s)
    (hok : SafeStep s (.run t)) (hrun : run t s = some (s', out)) : Stores s s' := by
  have hops := hok.ops
  have hmax := hok.adjust
  unfold run at hrun
  cases ht : s.task t with
  | opSleep semid sops sma q num w =>
    rw [ht] at hrun
    simp only [calls, ht] at hops
    simp only at hrun
    split_ifs at hrun
    rw [Option.some.injEq] at hrun
    have hsame := SameValues.countDown s sma num q
    have hstores := hsame.attempt_stores (h.op_num ht).2.2 (hops _ rfl)
    rw [hrun] at hstores
    exact hstores
  | exitSleep sma u w =>
    rw [ht] at hrun
    simp only [adjusts, ht] at hmax
    simp only at hrun
    split_ifs at hrun
    rw [Option.some.injEq, Prod.mk.injEq] at hrun
    rw [← hrun.1]
    have hsame := SameValues.countDown s sma (s.undo u).semNum.toNat .eventn
    refine hsame.stores.trans (adjust_stores fun hseq => ?_)
    rw [hsame.vals]
    exact hmax (sma, u) rfl hseq
  | exiting =>
    rw [ht] at hrun
    rw [Option.some.injEq, Prod.mk.injEq] at hrun
    rw [← hrun.1]
    exact exitStep_stores ht hmax
  | running | setval | setall | gone =>
    rw [ht] at hrun
    cases hrun

theorem semop_stores {semid : Int} {denied : Bool} {allocs : Nat}
    {s : State τ} (hok : SafeStep s (.semop t semid sops denied allocs)) :
    Stores s (semop t semid sops denied allocs s).1 := by
  have hops := hok.ops
  unfold semop
  cases hset : semopSet s semid sops denied with
  | error e => exact .of_eq rfl fun _ _ => rfl
  | ok sma =>
    simp only [calls, hset] at hops
    have hsame := SameValues.addUndos t semid.toNat sma allocs sops s
    simp only
    split
    · rename_i s' heq
      rw [heq] at hsame
      exact hsame.stores
    · rename_i s' heq
      rw [heq] at hsame
      refine hsame.attempt_stores (fun sop hsop => ?_) (hops _ rfl)
      exact lt_of_le_of_ne ((semopSet_ok hset).2 sop hsop) (hok.bounds sma hset sop hsop)

/-- A set that has been made is zero, and those before it are as they were. -/
theorem InRange.effect {s : State τ} (h : InRange s) (hinv : TableInv s.table) {e : Ipc.Event τ}
    {T : Table τ} {out : Option Int} (he : Effect semKind s.table e T out) :
    InRange (s.withTable T) := by
  intro id sma n hslot hn
  rcases he.used_old hslot with hold | ⟨rfl, hfresh⟩
  · have hlt : sma < s.table.fresh := hinv.used_lt hold
    have hle := h id sma n hold (lt_of_lt_of_eq hn (he.arg_eq hlt))
    simp only [State.vals, State.semval, State.withTable]
    split_ifs
    · exact hle
    · rw [update_of_ne hlt.ne]
      exact hle
  · simp only [State.vals, State.semval, State.withTable]
    rw [if_neg (by omega), update_self]
    exact (show (0 : Int) ≤ semvmx by decide)

theorem tableStep_inRange {e : Ipc.Event τ} {s s' : State τ} {out : Option Int} (h : InRange s)
    (hinv : TableInv s.table) (hstep : tableStep e s = some (s', out)) : InRange s' := by
  obtain ⟨T, he, rfl | ⟨sma, rfl⟩⟩ := tableStep_cases hstep
  · exact h.effect hinv he
  · exact h.effect hinv he

/-- **A step that meets the condition keeps the values in range.** -/
theorem step_inRange {e : Event τ} {s s' : State τ} (hb : Bounded s) (h : InRange s)
    (hok : SafeStep s e) (hstep : step s e = some s') : InRange s' := by
  obtain ⟨⟨s'', out⟩, hout, rfl⟩ := Option.map_eq_some_iff.1 hstep
  cases e with
  | table e => exact tableStep_inRange h hb.table hout
  | semop t semid sops denied allocs =>
    simp only [stepOut] at hout
    split_ifs at hout
    rw [Option.some.injEq] at hout
    have hstores := semop_stores hok
    rw [hout] at hstores
    exact hstores.inRange h
  | setval t semid semnum val =>
    simp only [stepOut, setvalBegin] at hout
    split_ifs at hout
    split at hout <;> cases hout <;> exact h
  | setall t semid semnum array =>
    simp only [stepOut, setallBegin] at hout
    split_ifs at hout
    split at hout <;> cases hout <;> exact h
  | ctl t denied =>
    obtain ⟨r, hr, heq⟩ := Option.map_eq_some_iff.1 hout
    cases heq
    unfold ctlEnd at hr
    split at hr
    · cases hr
      exact (setvalEnd_stores ..).inRange h
    · cases hr
      exact (setallEnd_stores ..).inRange h
    · cases hr
  | run t => exact (run_stores hb hok hout).inRange h
  | exit t =>
    simp only [stepOut] at hout
    split_ifs at hout
    cases hout
    exact h
  | signal t pending =>
    cases hout
    exact h

/-! ## Calls that succeed -/

theorem attempt_success {semid : Nat} {s s' : State τ}
    {v : Int} (h : attempt t semid sops sma s = (s', some v)) (hv : 0 ≤ v) :
    Call.Passes ⟨t, semid, sops, sma⟩ s ∧ s' = performed t semid sops sma s := by
  rcases attempt_cases t semid sops sma s with
    ⟨e, heq, he⟩ | ⟨q, sop, hsop, heq⟩ | ⟨hseq, hpass, v', heq⟩
  · rw [heq, Prod.mk.injEq, Option.some.injEq] at h
    omega
  · rw [heq] at h
    cases h
  · rw [heq, Prod.mk.injEq] at h
    exact ⟨⟨hseq, hpass⟩, h.1.symm⟩

/-- A call that succeeds in a step has passed the check and performs its operations. -/
theorem calls_success {s s' : State τ} {e : Event τ} {c : Call τ} {v : Int}
    (hc : calls s e = some c) (h : stepOut s e = some (s', some v)) (hv : 0 ≤ v) :
    ∃ s₁, SameValues s s₁ ∧ c.Passes s₁ ∧ s' = performed c.t c.semid c.sops c.sma s₁ := by
  cases e with
  | semop t semid sops denied allocs =>
    simp only [calls] at hc
    simp only [stepOut] at h
    split_ifs at h
    rw [Option.some.injEq, semop] at h
    cases hset : semopSet s semid sops denied with
    | error e =>
      rw [hset] at hc
      cases hc
    | ok sma =>
      rw [hset] at hc h
      cases hc
      have hsame := SameValues.addUndos t semid.toNat sma allocs sops s
      simp only at h
      split at h
      · rw [Prod.mk.injEq, Option.some.injEq] at h
        exact absurd (h.2 ▸ hv) (by decide)
      · rename_i s₁ heq
        rw [heq] at hsame
        exact ⟨s₁, hsame, attempt_success h hv⟩
  | run t =>
    simp only [calls] at hc
    simp only [stepOut, run] at h
    cases ht : s.task t with
    | opSleep semid sops sma q num w =>
      rw [ht] at hc h
      cases hc
      simp only at h
      split_ifs at h
      exact ⟨_, SameValues.countDown s sma num q, attempt_success (Option.some.inj h) hv⟩
    | running | setval | setall | exiting | exitSleep | gone =>
      rw [ht] at hc
      cases hc
  | table | setval | setall | ctl | exit | signal => cases hc

end Steps

/-- The operations of a call that goes on are at most just behind the set, and within it where the
step meets the condition. -/
theorem Bounded.calls_num {s : State τ} (h : Bounded s) {e : Event τ} {c : Call τ}
    (hc : calls s e = some c) : ∀ sop ∈ c.sops, sop.semNum.toNat ≤ s.nsems c.sma ∧
      (inBounds s e → sop.semNum.toNat ≠ s.nsems c.sma) := by
  cases e with
  | semop t semid sops denied allocs =>
    simp only [calls] at hc
    cases hset : semopSet s semid sops denied with
    | error e =>
      rw [hset] at hc
      cases hc
    | ok sma =>
      rw [hset] at hc
      cases hc
      exact fun sop hsop => ⟨(semopSet_ok hset).2 sop hsop, fun hok => hok sma hset sop hsop⟩
  | run t =>
    simp only [calls] at hc
    cases ht : s.task t with
    | opSleep semid sops sma q num w =>
      rw [ht] at hc
      cases hc
      intro sop hsop
      have hlt := (h.op_num ht).2.2 sop hsop
      exact ⟨hlt.le, fun _ => hlt.ne⟩
    | running | setval | setall | exiting | exitSleep | gone =>
      rw [ht] at hc
      cases hc
  | table | setval | setall | ctl | exit | signal => cases hc

/-! ## Runs -/

/-- What holds of the values in a state. -/
structure ValuesSound [DecidableEq τ] (s : State τ) : Prop where
  range : InRange s
  /-- A call that succeeds changes the values of its set as the operations one after the other
  would exactly when it meets the condition, and no other value. -/
  ops : ∀ e c s' v, calls s e = some c → stepOut s e = some (s', some v) → 0 ≤ v →
    (c.Meets s ↔ perform (s.nsems c.sma) (s.vals c.sma) c.sops = some (s'.vals c.sma)) ∧
      ∀ r, r ≠ c.sma → s'.vals r = s.vals r
  /-- So a step that meets the condition does it. -/
  sound : ∀ e c s' v, SafeStep s e → calls s e = some c → stepOut s e = some (s', some v) →
    0 ≤ v → perform (s.nsems c.sma) (s.vals c.sma) c.sops = some (s'.vals c.sma)

variable [DecidableEq τ]

theorem Bounded.valuesSound {s : State τ} (hb : Bounded s) (h : InRange s) : ValuesSound s := by
  have hops : ∀ e c s' v, calls s e = some c → stepOut s e = some (s', some v) → 0 ≤ v →
      c.Passes s ∧
        (c.Meets s ↔ perform (s.nsems c.sma) (s.vals c.sma) c.sops = some (s'.vals c.sma)) ∧
        ∀ r, r ≠ c.sma → s'.vals r = s.vals r := by
    intro e c s' v hc hstep hv
    obtain ⟨s₁, hsame, hpass, rfl⟩ := calls_success hc hstep hv
    refine ⟨(hsame.passes_iff c).1 hpass, ?_, fun r hr => ?_⟩
    · have hiff := performed_vals c.semid hpass.2
      rw [hsame.nsems, hsame.vals] at hiff
      rw [← hiff]
      refine and_congr_left fun _ => forall₂_congr fun sop hsop => ?_
      exact (lt_iff_le_and_ne.trans (and_iff_right (hb.calls_num hc sop hsop).1)).symm
    · funext n
      rw [← hsame.vals, State.vals, performed_semval, if_neg hr]
      rfl
  refine ⟨h, fun e c s' v hc hstep hv => (hops e c s' v hc hstep hv).2, ?_⟩
  intro e c s' v hok hc hstep hv
  obtain ⟨hpass, hiff, -⟩ := hops e c s' v hc hstep hv
  exact hiff.1 ⟨fun sop hsop => (hb.calls_num hc sop hsop).2 hok.bounds, hok.ops c hc hpass⟩

/-- **Semaphore values.**  In every run whose steps meet the condition the values of the sets stay
in range, and the calls of `sys_semop` that succeed perform their operations one after the other. -/
theorem semop_values {s : State τ} (h : Transition.Reach step SafeStep State.init s) :
    ValuesSound s := by
  have hinv : Bounded s ∧ InRange s := by
    refine h.invariant (I := fun s => Bounded s ∧ InRange s) ⟨init_bounded, ?_⟩ ?_
    · intro id sma n hslot
      cases hslot
    · intro s e s' hs hok hstep
      exact ⟨step_bounded hs.1 hok.bounds hstep, step_inRange hs.1 hs.2 hok hstep⟩
  exact hinv.1.valuesSound hinv.2

/-- Up to 1, and then up by two and down by one in one call. -/
theorem semop_values_repeated :
    ∃ s : State Unit, s.table.slot 0 = .used 0 ∧ s.semval 0 0 = 2 ∧ ValuesSound s := by
  have hrun : (Transition.execOkFrom step (fun s e => decide (SafeStep s e)) State.init
      (oneSemaphore ++ [.semop () 0 [⟨0, 1, false, false⟩] false 0,
        .semop () 0 [⟨0, 2, false, false⟩, ⟨0, -1, false, false⟩] false 0])).map
      (fun s => (s.table.slot 0, s.semval 0 0)) = some (.used 0, 2) := by
    decide +kernel
  obtain ⟨s, hs, hval⟩ := Option.map_eq_some_iff.1 hrun
  have hreach : Transition.Reach step SafeStep State.init s :=
    Transition.Reach.of_execOkFrom (fun _ _ => of_decide_eq_true) .init hs
  exact ⟨s, congrArg Prod.fst hval, congrArg Prod.snd hval, semop_values hreach⟩

/-- **A value that leaves the range.**  The semaphore is 1, and one call takes 1 from it twice:
each operation passes the check, and the value is 65535. -/
theorem semop_twice :
    ∃ s : State Unit, Transition.Reach step Transition.anyStep State.init s ∧
      s.table.slot 0 = .used 0 ∧ s.nsems 0 = 1 ∧ s.semval 0 0 = 65535 := by
  have hrun : (Transition.execFrom step State.init
      (oneSemaphore ++ [.semop () 0 [⟨0, 1, false, false⟩] false 0,
        .semop () 0 [⟨0, -1, false, false⟩, ⟨0, -1, false, false⟩] false 0])).map
      (fun s => (s.table.slot 0, s.nsems 0, s.semval 0 0)) = some (.used 0, 1, 65535) := by
    decide +kernel
  obtain ⟨s, hs, hval⟩ := Option.map_eq_some_iff.1 hrun
  simp only [Prod.mk.injEq] at hval
  exact ⟨s, Transition.Reach.of_execFrom .init hs, hval⟩

end LinuxEvocation.Ipc.Semaphore
