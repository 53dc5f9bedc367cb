import LinuxEvocation.Ipc.Sem.Undo

/-!
# What the calls do to the undo records

* `ExactStep` — the condition on a step: `sys_semop` makes its undo records before it looks at the
  sequence number, the adjustments are 16 bits wide, and a record that `sem_exit` sleeps for is on
  no list when the value is set.
* `UndoInv.retable`, `UndoInv.made`, `UndoInv.removed` — a set is made or removed;
  `SameSets`, `UndoInv.table` — every step on the table.
* `UndoInv.addUndos`, `UndoInv.attempt`, `UndoInv.semop` — `sys_semop`.
-/

namespace LinuxEvocation.Ipc.Semaphore

open Function (update update_of_ne update_self)

variable {τ : Type*}

/-! ## The condition on a step -/

/-- A record is made only for the set that has the identifier. -/
def makesCurrent (s : State τ) : Event τ → Prop
  | .semop t semid sops denied allocs => ∀ sma ∈ (semopSet s semid sops denied).toOption,
      0 < allocs → ∀ sop ∈ sops, sop.undo = true → s.findUndo t semid.toNat sop.semNum = none →
      s.seq sma = semid.toNat / mni
  | _ => True

/-- The slot of the set that a call is about to make. -/
def building (s : State τ) : Event τ → Option Nat
  | .table (.kmalloc t true) =>
    match s.table.call t with
    | .creating _ _ _ id _ => some id
    | _ => none
  | _ => none

/-- Nobody has a record for the identifier of a set that is made. -/
def freshIdent (s : State τ) (e : Event τ) : Prop :=
  ∀ id ∈ building s e, ∀ t, ∀ u ∈ s.semun t,
    (s.undo u).semid ≠ (UInt16.ofNat s.table.seq).toNat * mni + id

/-- What is owed for the record that `sem_exit` comes to fits a `short`, and the value with it a
`ushort`. -/
def hasRoom (s : State τ) (b : Books τ) (e : Event τ) : Prop :=
  ∀ t ∈ exits s e, ∀ p ∈ adjusts s e, Current s (s.undo p.2).semid p.1 →
    -2 ^ 15 ≤ b.owed t p.1 (s.undo p.2).semNum.toNat ∧
      b.owed t p.1 (s.undo p.2).semNum.toNat < 2 ^ 15 ∧
      s.vals p.1 (s.undo p.2).semNum.toNat + b.owed t p.1 (s.undo p.2).semNum.toNat < 65536

/-- The set and the record a process sleeps for in `sem_exit`. -/
def Task.sleepsFor : Task → Option (Nat × Nat)
  | .exitSleep sma u _ => some (sma, u)
  | _ => none

/-- No semaphore is set for which somebody sleeps in `sem_exit`. -/
def nobodyAt (s : State τ) (e : Event τ) : Prop :=
  ∀ t, ∀ p ∈ (s.task t).sleepsFor, resets s e p.1 (s.undo p.2).semNum.toNat = false

/-- **The condition on a step.** -/
structure ExactStep (x : State τ × Books τ) (e : Event τ) : Prop where
  bounds : inBounds x.1 e
  current : makesCurrent x.1 e
  fresh : freshIdent x.1 e
  room : hasRoom x.1 x.2 e
  awake : nobodyAt x.1 e
  /-- Whoever exits has no signal pending. -/
  calm : ∀ t ∈ exits x.1 e, x.1.pending t = false

section Decidable

variable [DecidableEq τ] (s : State τ) (b : Books τ) (e : Event τ)

instance : Decidable (makesCurrent s e) :=
  match e with
  | .semop t semid sops denied allocs =>
    inferInstanceAs (Decidable (∀ sma ∈ (semopSet s semid sops denied).toOption,
      0 < allocs → ∀ sop ∈ sops, sop.undo = true → s.findUndo t semid.toNat sop.semNum = none →
      s.seq sma = semid.toNat / mni))
  | .table _ | .setval .. | .setall .. | .ctl .. | .run _ | .exit _ | .signal .. => isTrue trivial

instance [Fintype τ] : Decidable (freshIdent s e) :=
  inferInstanceAs (Decidable (∀ id ∈ building s e, ∀ t, ∀ u ∈ s.semun t,
    (s.undo u).semid ≠ (UInt16.ofNat s.table.seq).toNat * mni + id))

instance : Decidable (hasRoom s b e) :=
  inferInstanceAs (Decidable (∀ t ∈ exits s e, ∀ p ∈ adjusts s e,
    Current s (s.undo p.2).semid p.1 → _ ∧ _ ∧ _))

instance [Fintype τ] : Decidable (nobodyAt s e) :=
  inferInstanceAs (Decidable (∀ t, ∀ p ∈ (s.task t).sleepsFor,
    resets s e p.1 (s.undo p.2).semNum.toNat = false))

instance [Fintype τ] (x : State τ × Books τ) : Decidable (ExactStep x e) :=
  decidable_of_iff (inBounds x.1 e ∧ makesCurrent x.1 e ∧ freshIdent x.1 e ∧ hasRoom x.1 x.2 e ∧
      nobodyAt x.1 e ∧ ∀ t ∈ exits x.1 e, x.1.pending t = false)
    ⟨fun h => ⟨h.1, h.2.1, h.2.2.1, h.2.2.2.1, h.2.2.2.2.1, h.2.2.2.2.2⟩,
      fun h => ⟨h.bounds, h.current, h.fresh, h.room, h.awake, h.calm⟩⟩

end Decidable

/-! ## The steps on the table -/

namespace UndoInv

variable {s s' : State τ} {b : Books τ} {out : Option Nat}

/-- **The table changes**, and the records stay.  A set that was not there is a new one, and has no
record. -/
theorem tabled (h : UndoInv s b none) {s₁ : State τ} (hsemun : s₁.semun = s.semun)
    (htask : s₁.task = s.task) (hfreshUndo : s₁.freshUndo = s.freshUndo)
    (hid : ∀ u, (s₁.undo u).semid = (s.undo u).semid)
    (hnum : ∀ u, (s₁.undo u).semNum = (s.undo u).semNum) (hle : s.table.fresh ≤ s₁.table.fresh)
    (hold : ∀ {j r}, s.table.slot j = .used r → (s₁.set r).undo = (s.set r).undo)
    (hnew : ∀ {j r}, s₁.table.slot j = .used r →
      s.table.slot j = .used r ∨ (s₁.set r).undo = [] ∧ s.table.fresh ≤ r)
    (hback : ∀ {t u r}, u ∈ s.semun t → Current s₁ (s.undo u).semid r →
      Current s (s.undo u).semid r)
    (hmono : ∀ {i j r}, s₁.table.slot j = .used r → Current s i r → Current s₁ i r)
    (hvalid : ∀ {i r}, Valid s i r → Valid s₁ i r)
    (hadj : ∀ {t u r}, u ∈ s.semun t → Current s₁ (s.undo u).semid r →
      (s₁.undo u).semadj = (s.undo u).semadj) : UndoInv s₁ b none := by
  refine ⟨fun t' => ?_, fun {t' u} hu => ?_, fun {t' u} hu => ?_, fun {u} hu => ?_,
    fun {t' u v} hu hv => ?_, fun {t' u r} hu hout hrec hc => ?_, fun {j r u} hsl hu => ?_,
    fun {j r} hsl => ?_, fun {t' u r} hu hc => ?_, fun {t' j r n} hsl hne => ?_,
    fun {t' r n} hr => h.unborn (hle.trans hr), fun t' => ?_⟩
  · rw [hsemun]
    exact h.nodup t'
  · rw [hsemun] at hu
    exact h.owned hu
  · rw [hsemun, hfreshUndo]
    exact h.kept hu
  · rw [hfreshUndo] at hu
    exact h.unused hu
  · rw [hsemun] at hu hv
    rw [hid, hid, hnum, hnum]
    exact h.distinct hu hv
  · rw [hsemun] at hu
    rw [htask] at hrec
    rw [hid] at hc
    have hc' := hback hu hc
    rw [hold hc'.1]
    exact h.listed hu hout hrec hc'
  · rcases hnew hsl with hsl' | ⟨hempty, -⟩
    · rw [hold hsl'] at hu
      rw [hid, hsemun]
      obtain ⟨hc, ht'⟩ := h.live hsl' hu
      exact ⟨hmono hsl hc, ht'⟩
    · rw [hempty] at hu
      cases hu
  · rcases hnew hsl with hsl' | ⟨hempty, -⟩
    · rw [hold hsl']
      exact h.list_nodup hsl'
    · rw [hempty]
      exact List.nodup_nil
  · rw [hsemun] at hu
    rw [hid] at hc
    rw [hadj hu hc, hnum]
    exact h.amount hu (hback hu hc)
  · rcases hnew hsl with hsl' | ⟨-, hr⟩
    · obtain ⟨u, hu, hc, hn⟩ := h.covered hsl' hne
      refine ⟨u, hsemun ▸ hu, ?_⟩
      rw [hid, hnum]
      exact ⟨hmono hsl hc, hn⟩
    · exact absurd (h.unborn hr) hne
  · rw [htask]
    refine (h.tasks t').mono (fun _ => congrFun hsemun t') hvalid (fun u _ => ⟨hid u, hnum u⟩)
      (fun u hu hoff j r hsl hm => ?_) fun u hu r hc => hback hu hc
    rcases hnew hsl with hsl' | ⟨hempty, -⟩
    · rw [hold hsl'] at hm
      exact hoff j r hsl' hm
    · rw [hempty] at hm
      cases hm

/-- The table has changed in nothing that matters to a set. -/
theorem retable (h : UndoInv s b none) {T : Table τ} (hfresh : T.fresh = s.table.fresh)
    (hslot : ∀ id r, T.slot id = .used r ↔ s.table.slot id = .used r)
    (hseq : ∀ r, (T.obj r).seq = (s.table.obj r).seq) : UndoInv (s.withTable T) b none := by
  have hs : s.withTable T = { s with table := T } := by
    unfold State.withTable
    rw [if_pos hfresh]
  rw [hs]
  have hcurrent : ∀ i r, Current { s with table := T } i r ↔ Current s i r := by
    intro i r
    unfold Current State.seq
    dsimp only
    rw [hslot, hseq]
  have hvalid : ∀ i r, Valid { s with table := T } i r ↔ Valid s i r := by
    intro i r
    unfold Valid
    simp only [hcurrent]
    unfold State.seq
    dsimp only
    simp only [hslot, hseq, hfresh]
  exact h.tabled rfl rfl rfl (fun _ => rfl) (fun _ => rfl) hfresh.ge (fun _ => rfl)
    (fun hsl => .inl ((hslot _ _).1 hsl)) (fun _ hc => (hcurrent _ _).1 hc)
    (fun _ hc => (hcurrent _ _).2 hc) (fun hv => (hvalid _ _).2 hv) fun _ _ => rfl

/-- **A set is made**, under an identifier that nobody has a record for. -/
theorem made [DecidableEq τ] (h : UndoInv s b none) (hb : Bounded s) {t : τ} {key : Int}
    {arg id left : Nat} {flg : Flags} (hcall : s.table.call t = .creating key arg flg id left)
    (hnew : ∀ t', ∀ u ∈ s.semun t',
      (s.undo u).semid ≠ (UInt16.ofNat s.table.seq).toNat * mni + id) :
    UndoInv (s.withTable (Ipc.finish semKind t key arg id s.table)) b none := by
  have hnoid : s.table.slot id = .noid := by
    refine (hb.table.noid_iff id).2 ⟨t, ?_⟩
    rw [hcall]
    rfl
  generalize hs₁ : s.withTable (Ipc.finish semKind t key arg id s.table) = s₁
  have hslot : ∀ j r, s₁.table.slot j = .used r ↔
      j = id ∧ r = s.table.fresh ∨ s.table.slot j = .used r := by
    intro j r
    rw [← hs₁]
    simp only [State.withTable, Ipc.finish]
    by_cases hj : j = id
    · subst hj
      rw [update_self, hnoid]
      constructor
      · intro heq
        cases heq
        exact .inl ⟨rfl, rfl⟩
      · rintro (⟨-, rfl⟩ | hf)
        · rfl
        · cases hf
    · rw [update_of_ne hj]
      refine ⟨.inr, ?_⟩
      rintro (⟨hf, -⟩ | hf)
      · exact absurd hf hj
      · exact hf
  have hold : ∀ {j r}, s.table.slot j = .used r → r ≠ s.table.fresh :=
    fun hsl => (hb.table.used_lt hsl).ne
  have hseq : ∀ {r}, r ≠ s.table.fresh → s₁.seq r = s.seq r := by
    intro r hr
    rw [← hs₁]
    simp only [State.seq, State.withTable, Ipc.finish, update_of_ne hr]
  have hseqNew : s₁.seq s.table.fresh = (UInt16.ofNat s.table.seq).toNat := by
    rw [← hs₁]
    simp only [State.seq, State.withTable, Ipc.finish, update_self]
  have hset : s₁.set = update s.set s.table.fresh zeroSet := by
    rw [← hs₁]
    exact if_neg (Nat.succ_ne_self s.table.fresh)
  have hlist : ∀ {r}, r ≠ s.table.fresh → s₁.set r = s.set r := by
    intro r hr
    rw [hset, update_of_ne hr]
  have hempty : (s₁.set s.table.fresh).undo = [] := by
    rw [hset, update_self]
    rfl
  have hmono : ∀ {i r}, Current s i r → Current s₁ i r := by
    intro i r hc
    exact ⟨(hslot _ _).2 (.inr hc.1), (hseq (hold hc.1)).trans hc.2⟩
  -- the new set is the one of no record
  have hcurrent : ∀ {t' u r}, u ∈ s.semun t' → Current s₁ (s.undo u).semid r →
      Current s (s.undo u).semid r := by
    intro t' u r hu hc
    rcases (hslot _ _).1 hc.1 with ⟨hmod, rfl⟩ | hsl
    · have hdiv := hc.2
      rw [hseqNew] at hdiv
      refine absurd ?_ (hnew t' u hu)
      rw [hdiv, ← hmod, mul_comm]
      exact (Nat.div_add_mod _ _).symm
    · exact ⟨hsl, (hseq (hold hsl)).symm.trans hc.2⟩
  have hvalid : ∀ {i r}, Valid s i r → Valid s₁ i r := by
    intro i r hv
    have hne : r ≠ s.table.fresh := hv.1.ne
    refine ⟨?_, fun hs => ?_, fun j hj => ?_⟩
    · rw [← hs₁]
      exact Nat.lt_succ_of_lt hv.1
    · rw [hseq hne] at hs
      exact (hslot _ _).2 (.inr (hv.2.1 hs))
    · rcases (hslot _ _).1 hj with ⟨-, hr⟩ | hj
      · exact absurd hr hne
      · exact hmono (hv.2.2 j hj)
  refine h.tabled (by rw [← hs₁]; rfl) (by rw [← hs₁]; rfl) (by rw [← hs₁]; rfl)
    (fun u => by rw [← hs₁]; rfl) (fun u => by rw [← hs₁]; rfl) ?_
    (fun hsl => congrArg SemSet.undo (hlist (hold hsl))) (fun hsl => ?_) hcurrent
    (fun _ hc => hmono hc) hvalid fun {t' u r} _ _ => by rw [← hs₁]; rfl
  · rw [← hs₁]
    exact Nat.le_succ _
  · rcases (hslot _ _).1 hsl with ⟨-, rfl⟩ | hsl
    · exact .inr ⟨hempty, le_rfl⟩
    · exact .inl hsl

/-- **A set is removed**, and its records are void. -/
theorem removed (h : UndoInv s b none) (hT : TableInv s.table) {id sma : Nat}
    (hsma : s.table.slot id = .used sma) :
    UndoInv (releaseSet sma (s.withTable (freeObj semKind id sma s.table))) b none := by
  suffices hclear : UndoInv ((s.withTable (freeObj semKind id sma s.table)).clearAdj sma
      fun _ => true) b none from
    hclear.kept_inv ((Kept.wakeUp _ sma .eventz).trans (Kept.wakeUp _ sma .eventn))
  have hs : s.withTable (freeObj semKind id sma s.table) =
      { s with table := freeObj semKind id sma s.table } := by
    have hfresh : (freeObj semKind id sma s.table).fresh = s.table.fresh := rfl
    unfold State.withTable
    rw [if_pos hfresh]
  rw [hs]
  generalize hs₁ : ({ s with table := freeObj semKind id sma s.table } : State τ).clearAdj sma
    (fun _ => true) = s₁
  have hslot : ∀ j r, s₁.table.slot j = .used r ↔ s.table.slot j = .used r ∧ r ≠ sma := by
    intro j r
    rw [← hs₁]
    simp only [State.clearAdj, freeObj]
    by_cases hj : j = id
    · subst hj
      rw [update_self, hsma]
      constructor
      · intro hf
        cases hf
      · rintro ⟨hf, hne⟩
        cases hf
        exact absurd rfl hne
    · rw [update_of_ne hj]
      refine ⟨fun hsl => ⟨hsl, ?_⟩, And.left⟩
      rintro rfl
      exact hj (hT.used_inj hsl hsma)
  have hseq : ∀ {r}, r ≠ sma → s₁.seq r = s.seq r := by
    intro r hr
    rw [← hs₁]
    simp only [State.seq, State.clearAdj, freeObj, update_of_ne hr]
  have hbump : s₁.seq sma ≠ s.seq sma := by
    rw [← hs₁]
    simp only [State.seq, State.clearAdj, freeObj, update_self]
    rw [UInt16.toNat_add]
    have hlt := (s.table.obj sma).seq.toNat_lt
    have hone : (1 : UInt16).toNat = 1 := rfl
    omega
  have hcurrent : ∀ {i r}, Current s₁ i r ↔ Current s i r ∧ r ≠ sma := by
    intro i r
    unfold Current
    rw [hslot]
    constructor
    · rintro ⟨⟨hsl, hne⟩, hd⟩
      exact ⟨⟨hsl, (hseq hne).symm.trans hd⟩, hne⟩
    · rintro ⟨⟨hsl, hd⟩, hne⟩
      exact ⟨⟨hsl, hne⟩, (hseq hne).trans hd⟩
  have hvalid : ∀ {i r}, Valid s i r → Valid s₁ i r := by
    intro i r hv
    refine ⟨?_, fun hd => ?_, fun j hj => ?_⟩
    · rw [← hs₁]
      exact hv.1
    · by_cases hr : r = sma
      · subst hr
        exact absurd (hd.trans (hv.2.2 id hsma).2.symm) hbump
      · rw [hseq hr] at hd
        exact (hslot _ _).2 ⟨hv.2.1 hd, hr⟩
    · obtain ⟨hj, hne⟩ := (hslot _ _).1 hj
      exact hcurrent.2 ⟨hv.2.2 j hj, hne⟩
  have hundo : ∀ u, s₁.undo u =
      if u ∈ (s.set sma).undo then { s.undo u with semadj := 0 } else s.undo u := by
    intro u
    rw [← hs₁]
    simp only [State.clearAdj, and_true]
  have hid : ∀ u, (s₁.undo u).semid = (s.undo u).semid := by
    intro u
    rw [hundo]
    split_ifs <;> rfl
  have hnum : ∀ u, (s₁.undo u).semNum = (s.undo u).semNum := by
    intro u
    rw [hundo]
    split_ifs <;> rfl
  refine h.tabled (by rw [← hs₁]; rfl) (by rw [← hs₁]; rfl) (by rw [← hs₁]; rfl) hid hnum ?_
    (fun _ => by rw [← hs₁]; rfl) (fun hsl => .inl ((hslot _ _).1 hsl).1) (fun _ hc => (hcurrent.1 hc).1)
    (fun hsl hc => hcurrent.2 ⟨hc, ((hslot _ _).1 hsl).2⟩) hvalid fun {t' u r} _ hc => ?_
  · rw [← hs₁]
    exact le_rfl
  · -- a record of another set is not on the list of this one
    obtain ⟨hc, hne⟩ := hcurrent.1 hc
    have hoff : u ∉ (s.set sma).undo := fun hm => hne (hc.sma_eq (h.live hsma hm).1)
    rw [hundo, if_neg hoff]

end UndoInv

/-! ## `sys_semop` -/

section Semop

variable [DecidableEq τ]

namespace UndoInv

variable {s s' : State τ} {b : Books τ} {t : τ} {semid sma : Nat}

/-- A process that has made a record still has the ones it had. -/
theorem hasUndo_newUndo (h : UndoInv s b none) {num num' : UInt16}
    (hu : HasUndo s t semid num') : HasUndo (s.newUndo t semid sma num) t semid num' := by
  obtain ⟨u, hu, hid, hn⟩ := hu
  unfold State.newUndo
  refine ⟨u, ?_, ?_⟩
  · dsimp only
    rw [update_self]
    exact List.mem_cons_of_mem _ hu
  · dsimp only
    rw [update_of_ne (h.mem_lt hu).ne]
    exact ⟨hid, hn⟩

theorem hasUndo_made {num : UInt16} : HasUndo (s.newUndo t semid sma num) t semid num := by
  unfold State.newUndo
  refine ⟨s.freshUndo, ?_, ?_⟩
  · dsimp only
    rw [update_self]
    exact List.mem_cons_self
  · dsimp only
    rw [update_self]
    exact ⟨rfl, rfl⟩

/-- **The undo records of a call**, when those that are made are for the set that has the
identifier. -/
theorem addUndos (h : UndoInv s b none) (hT : TableInv s.table) (ht : s.task t = .running)
    {allocs : Nat} {sops : List Sembuf} {s' : State τ} {ok : Bool}
    (hcur : 0 < allocs → ∀ sop ∈ sops, sop.undo = true → ¬ HasUndo s t semid sop.semNum →
      Current s semid sma)
    (hadd : Semaphore.addUndos t semid sma allocs sops s = (s', ok)) :
    UndoInv s' (b.made (some t) s.freshUndo s'.freshUndo) none ∧ s.freshUndo ≤ s'.freshUndo ∧
      s'.task = s.task ∧ (∀ num, HasUndo s t semid num → HasUndo s' t semid num) ∧
      (ok = true → ∀ sop ∈ sops, sop.undo = true → HasUndo s' t semid sop.semNum) := by
  induction sops generalizing allocs s b with
  | nil =>
    cases hadd
    rw [Books.made_self]
    exact ⟨h, le_rfl, rfl, fun _ hu => hu, fun _ sop hsop => by cases hsop⟩
  | cons sop rest ih =>
    have hrest : 0 < allocs → ∀ x ∈ rest, x.undo = true → ¬ HasUndo s t semid x.semNum →
        Current s semid sma :=
      fun ha x hx => hcur ha x (List.mem_cons_of_mem _ hx)
    rw [addUndos.eq_def] at hadd
    simp only at hadd
    split_ifs at hadd with hundo hfind
    · -- the process has a record for the operation
      obtain ⟨h1, h2, h3, h4, h5⟩ := ih h hT ht hrest hadd
      refine ⟨h1, h2, h3, h4, fun hok x hx hxu => ?_⟩
      rcases List.mem_cons.1 hx with rfl | hx
      · exact h4 _ (hasUndo_iff.1 hfind)
      · exact h5 hok x hx hxu
    · cases allocs with
      | zero =>
        cases hadd
        rw [Books.made_self]
        exact ⟨h, le_rfl, rfl, fun _ hu => hu, fun hf => by cases hf⟩
      | succ allocs =>
        have hnone : ¬ HasUndo s t semid sop.semNum := fun hu => hfind (hasUndo_iff.2 hu)
        have hc : Current s semid sma :=
          hcur (Nat.succ_pos _) sop List.mem_cons_self (by simpa using hundo) hnone
        obtain ⟨h1, h2, h3, h4, h5⟩ :=
          ih (h.newUndo hT ht hc hnone) hT ht (fun _ _ _ _ _ => hc) hadd
        have hlt : s.freshUndo < s'.freshUndo := h2
        refine ⟨?_, hlt.le, h3, fun num hu => h4 num (h.hasUndo_newUndo hu),
          fun hok x hx hxu => ?_⟩
        · rw [← Books.made_succ b (some t) hlt]
          exact h1
        · rcases List.mem_cons.1 hx with rfl | hx
          · exact h4 _ hasUndo_made
          · exact h5 hok x hx hxu
    · obtain ⟨h1, h2, h3, h4, h5⟩ := ih h hT ht hrest hadd
      refine ⟨h1, h2, h3, h4, fun hok x hx hxu => ?_⟩
      rcases List.mem_cons.1 hx with rfl | hx
      · exact absurd hxu hundo
      · exact h5 hok x hx hxu

theorem applyOp (h : UndoInv s b none) (hT : TableInv s.table) (hcur : Current s semid sma)
    {sop : Sembuf} (hu : sop.undo = true → HasUndo s t semid sop.semNum) :
    UndoInv (Semaphore.applyOp t semid sma sop s)
        { b with
          owed := fun t' r n => b.owed t' r n - if t' = t ∧ r = sma then undone [sop] n else 0 }
        none ∧
      (Semaphore.applyOp t semid sma sop s).table = s.table ∧
      ∀ num, HasUndo s t semid num → HasUndo (Semaphore.applyOp t semid sma sop s) t semid num := by
  unfold Semaphore.applyOp
  dsimp only
  have hk := Kept.setSemval s sma sop.semNum.toNat
    (toUshort ((s.semval sma sop.semNum.toNat).toNat + sop.semOp.toInt))
  generalize s.setSemval sma sop.semNum.toNat
    (toUshort ((s.semval sma sop.semNum.toNat).toNat + sop.semOp.toInt)) = s₁ at hk ⊢
  have h₁ := h.kept_inv hk
  have hhas : ∀ num, HasUndo s₁ t semid num ↔ HasUndo s t semid num := by
    intro num
    unfold HasUndo
    rw [hk.semun, hk.undo]
  split_ifs with hundo
  · obtain ⟨u, hfind⟩ := Option.isSome_iff_exists.1 (hasUndo_iff.2 ((hhas _).2 (hu hundo)))
    obtain ⟨hmem, hid, hn⟩ := findUndo_some hfind
    rw [hfind]
    refine ⟨?_, hk.table, fun num hnum => ?_⟩
    · have hcharge := h₁.charge (hk.table ▸ hT) hmem hid ((hk.current_iff _ _).2 hcur) sop.semOp
      have howed : (fun t' r n => b.owed t' r n -
          if t' = t ∧ r = sma then undone [sop] n else 0) =
          fun t' r n => b.owed t' r n -
            if t' = t ∧ r = sma ∧ n = (s₁.undo u).semNum.toNat then sop.semOp.toInt else 0 := by
        funext t' r n
        rw [hn, undone_cons, undone_nil, add_zero]
        congr 1
        by_cases hr : t' = t ∧ r = sma
        · simp [hr, hundo, eq_comm]
        · rw [if_neg hr, if_neg fun hf => hr ⟨hf.1, hf.2.1⟩]
      rw [howed]
      exact hcharge
    · obtain ⟨v, hv, hvid, hvn⟩ := (hhas num).2 hnum
      refine ⟨v, hv, ?_⟩
      dsimp only
      by_cases hvu : v = u
      · subst hvu
        rw [update_self]
        exact ⟨hvid, hvn⟩
      · rw [update_of_ne hvu]
        exact ⟨hvid, hvn⟩
  · refine ⟨?_, hk.table, fun num hnum => (hhas num).2 hnum⟩
    have howed : (fun t' r n => b.owed t' r n -
        if t' = t ∧ r = sma then undone [sop] n else 0) = b.owed := by
      funext t' r n
      simp [hundo]
    rw [howed]
    exact h₁

/-- **The second loop.** -/
theorem applyOps (h : UndoInv s b none) (hT : TableInv s.table) (hcur : Current s semid sma)
    {sops : List Sembuf} (hu : ∀ sop ∈ sops, sop.undo = true → HasUndo s t semid sop.semNum)
    (z : Bool) :
    UndoInv (Semaphore.applyOps t semid sma sops s z).1
      { b with
        owed := fun t' r n => b.owed t' r n - if t' = t ∧ r = sma then undone sops n else 0 }
      none := by
  induction sops generalizing s b z with
  | nil =>
    have howed : (fun t' r n => b.owed t' r n - if t' = t ∧ r = sma then undone [] n else 0) =
        b.owed := by
      funext t' r n
      simp
    rw [howed]
    exact h
  | cons sop rest ih =>
    obtain ⟨h1, h2, h3⟩ := h.applyOp hT hcur (hu sop List.mem_cons_self)
    have hcur' : Current (Semaphore.applyOp t semid sma sop s) semid sma := by
      unfold Current State.seq
      rw [h2]
      exact hcur
    have hrest := ih h1 (h2 ▸ hT) hcur'
      (fun x hx hxu => h3 _ (hu x (List.mem_cons_of_mem _ hx) hxu))
      (z || (Semaphore.applyOp t semid sma sop s).semval sma sop.semNum.toNat = 0)
    have howed : (fun t' r n => b.owed t' r n -
        if t' = t ∧ r = sma then undone (sop :: rest) n else 0) =
        fun t' r n => b.owed t' r n - (if t' = t ∧ r = sma then undone [sop] n else 0) -
          if t' = t ∧ r = sma then undone rest n else 0 := by
      funext t' r n
      split_ifs
      · rw [undone_cons, undone_cons, undone_nil]
        omega
      · omega
    rw [howed]
    exact hrest

end UndoInv

end Semop

theorem applyOps_task (t : τ) (semid sma : Nat) (sops : List Sembuf) (s : State τ) (z : Bool) :
    (applyOps t semid sma sops s z).1.task = s.task := by
  induction sops generalizing s z with
  | nil => rfl
  | cons sop rest ih =>
    rw [applyOps, ih]
    unfold applyOp
    dsimp only
    split_ifs
    · split <;> rfl
    · rfl

section Semop

variable [DecidableEq τ]

namespace UndoInv

variable {s s' : State τ} {b : Books τ} {t : τ} {semid sma : Nat}

/-- **An attempt**, on a set that is in the table if it has the identifier. -/
theorem attempt (h : UndoInv s b none) (hT : TableInv s.table)
    (hrec : (s.task t).record = none)
    (hvalid : s.seq sma = semid / mni → s.table.slot (semid % mni) = .used sma)
    {sops : List Sembuf} (hu : ∀ sop ∈ sops, sop.undo = true → HasUndo s t semid sop.semNum)
    {out : Option Int} (hatt : Semaphore.attempt t semid sops sma s = (s', out)) :
    UndoInv s'
      { b with
        owed := fun t' r n => b.owed t' r n - Call.charge ⟨t, semid, sops, sma⟩ out t' r n } none := by
  have hnothing : ∀ {out : Option Int}, (∀ v, out = some v → v < 0) →
      (fun t' r n => b.owed t' r n - Call.charge ⟨t, semid, sops, sma⟩ out t' r n) = b.owed := by
    intro out hout
    funext t' r n
    rw [Call.charge_of_neg _ hout, sub_zero]
  by_cases hseq : s.seq sma = semid / mni
  · have hcur : Current s semid sma := ⟨hvalid hseq, hseq⟩
    rcases attempt_cases t semid sops sma s with
      ⟨e, heq, he⟩ | ⟨q, sop, hsop, heq⟩ | ⟨-, -, v, heq⟩
    · rw [heq] at hatt
      cases hatt
      rw [hnothing fun v hv => by cases hv; omega]
      exact h.move hrec trivial
    · rw [heq] at hatt
      cases hatt
      rw [hnothing fun v hv => by cases hv]
      have hk := Kept.countUp s sma sop.semNum.toNat q
      refine (h.kept_inv hk).move ?_ (hk.taskOk ⟨?_, hu⟩)
      · rw [hk.record]
        exact hrec
      · exact ⟨hT.used_lt hcur.1, fun _ => hcur.1, fun _ _ => hcur⟩
    · rw [heq] at hatt
      cases hatt
      have howed : (fun t' r n => b.owed t' r n -
          Call.charge ⟨t, semid, sops, sma⟩ (some (v : Int)) t' r n) =
          fun t' r n => b.owed t' r n - if t' = t ∧ r = sma then undone sops n else 0 := by
        funext t' r n
        simp [Call.charge]
      rw [howed]
      unfold performed
      simp only
      have happ := h.applyOps hT hcur hu false
      have htask := applyOps_task t semid sma sops s false
      have hk := Kept.wakeIf (Semaphore.applyOps t semid sma sops s false).1 sma .eventn
        (sops.any fun sop => sop.semOp > 0)
      have hk' := hk.trans (Kept.wakeIf _ sma .eventz
        (Semaphore.applyOps t semid sma sops s false).2)
      refine (happ.kept_inv hk').move ?_ trivial
      rw [hk'.record, htask]
      exact hrec
  · unfold Semaphore.attempt at hatt
    rw [if_pos hseq] at hatt
    cases hatt
    rw [hnothing fun v hv => by cases hv; decide]
    exact h.move hrec trivial

end UndoInv

end Semop

/-! ## `semctl`, and the calls as steps -/

section Steps

variable {s s' : State τ} {b : Books τ}

/-- The table has the same sets. -/
structure SameSets (T T' : Table τ) : Prop where
  fresh : T'.fresh = T.fresh
  slot : ∀ id r, T'.slot id = .used r ↔ T.slot id = .used r
  seq : ∀ r, (T'.obj r).seq = (T.obj r).seq

namespace SameSets

variable {T : Table τ}

theorem call (c : τ → GetCall) : SameSets T { T with call := c } :=
  ⟨rfl, fun _ _ => Iff.rfl, fun _ => rfl⟩

/-- A slot that holds no set is written, with no set. -/
theorem slot_update {id space : Nat} {x : Slot} {c : τ → GetCall} (hx : ∀ r, x ≠ .used r)
    (hid : ∀ r, T.slot id ≠ .used r) :
    SameSets T { T with slot := update T.slot id x, space := space, call := c } := by
  refine ⟨rfl, fun j r => ?_, fun _ => rfl⟩
  dsimp only
  by_cases hj : j = id
  · subst hj
    rw [update_self]
    exact iff_of_false (hx r) (hid r)
  · rw [update_of_ne hj]

end SameSets

theorem Frame.record_none (h : Frame s s') {t : τ} (ht : (s.task t).record = none) :
    (s'.task t).record = none := by
  cases hx : s'.task t with
  | exitSleep sma u w =>
    obtain ⟨w', hw'⟩ := h.exit t sma u w hx
    rw [hw'] at ht
    cases ht
  | running | opSleep | setval | setall | exiting | gone => rfl

theorem ctlSet_ok {semid semnum : Int} {sma : Nat} (h : ctlSet s semid semnum = .ok sma) :
    Current s semid.toNat sma := by
  unfold ctlSet at h
  split at h
  · cases h
  · cases hslot : s.table.slot (semid.toNat % mni) with
    | used r =>
      rw [hslot] at h
      simp only at h
      split_ifs at h with hseq
      cases h
      exact ⟨hslot, not_not.1 hseq⟩
    | unused | noid =>
      rw [hslot] at h
      cases h

/-- The set is in the table after the copy. -/
theorem ctlRecheck_none {semid sma : Nat} {denied : Bool} (hv : Valid s semid sma)
    (h : ctlRecheck semid sma denied s = none) : Current s semid sma := by
  unfold ctlRecheck at h
  cases hslot : s.table.slot (semid % mni) with
  | used r =>
    rw [hslot] at h
    simp only at h
    split_ifs at h with hseq
    exact ⟨hv.2.1 (not_not.1 hseq), not_not.1 hseq⟩
  | unused | noid =>
    rw [hslot] at h
    cases h

namespace UndoInv

/-- The adjustments are reset where the value is set. -/
theorem setval (h : UndoInv s b none) {semid sma : Nat} (semnum : Nat) (val : Int)
    (denied : Bool) (hv : Valid s semid sma)
    (hawake : ∀ t r u w, s.task t = .exitSleep r u w → r = sma →
      (s.undo u).semNum.toNat = semnum → ctlRecheck semid sma denied s = none →
      val > semvmx ∨ val < 0) :
    UndoInv (setvalEnd semid semnum sma val denied s).1
      { b with
        owed := fun t' r n =>
          if (r = sma && n = semnum && !(val > semvmx || val < 0) &&
            (ctlRecheck semid sma denied s).isNone) = true then 0 else b.owed t' r n } none := by
  unfold setvalEnd
  by_cases hrange : val > semvmx ∨ val < 0
  · have hbool : (decide (val > semvmx) || decide (val < 0)) = true := by simpa using hrange
    simp only [if_pos hrange, hbool, Bool.not_true, Bool.and_false, Bool.false_and,
      Bool.false_eq_true, if_false]
    exact h
  · have hbool : (decide (val > semvmx) || decide (val < 0)) = false := by simpa using hrange
    simp only [if_neg hrange, hbool, Bool.not_false, Bool.and_true]
    cases hre : ctlRecheck semid sma denied s with
    | some e => simpa using h
    | none =>
      have hcur := ctlRecheck_none hv hre
      have hreset := h.reset hcur.1 (fun un => un.semNum.toNat = semnum) (fun n => n = semnum)
        (fun _ => rfl) fun t r u w ht hr => by
          rw [decide_eq_false_iff_not]
          exact fun hn => hrange (hawake t r u w ht hr hn hre)
      have hk := ((Kept.setSemval (s.clearAdj sma fun un => un.semNum.toNat = semnum) sma semnum
        (toUshort val)).trans (Kept.wakeUp _ sma .eventn)).trans (Kept.wakeUp _ sma .eventz)
      have hinv := hreset.kept_inv hk
      simpa using hinv

theorem setall (h : UndoInv s b none) {semid sma : Nat} (nsems : Nat) (semIo : List UInt16)
    (denied : Bool) (hv : Valid s semid sma)
    (hawake : ∀ t r u w, s.task t = .exitSleep r u w → r = sma →
      ctlRecheck semid sma denied s = none → (semIo.any fun v => v.toNat > semvmx) = true) :
    UndoInv (setallEnd semid sma nsems semIo denied s).1
      { b with
        owed := fun t' r n =>
          if (r = sma && !(semIo.any fun v => v.toNat > semvmx) &&
            (ctlRecheck semid sma denied s).isNone) = true then 0 else b.owed t' r n } none := by
  unfold setallEnd
  by_cases hany : (semIo.any fun v => v.toNat > semvmx) = true
  · rw [if_pos hany, hany]
    simpa using h
  · rw [if_neg hany]
    cases hre : ctlRecheck semid sma denied s with
    | some e => simpa using h
    | none =>
      have hcur := ctlRecheck_none hv hre
      simp only
      have hbase := Kept.setBase s sma fun i =>
        if i < nsems then { (s.set sma).base i with semval := semIo.getD i 0 }
        else (s.set sma).base i
      generalize ({ s with
        set := update s.set sma
          { s.set sma with
            base := fun i =>
              if i < nsems then { (s.set sma).base i with semval := semIo.getD i 0 }
              else (s.set sma).base i } } : State τ) = s₁ at hbase ⊢
      have hslot : s₁.table.slot (semid % mni) = .used sma := by
        rw [hbase.table]
        exact hcur.1
      have hnobody : ∀ t r u w, s₁.task t = .exitSleep r u w → r ≠ sma := by
        intro t
        refine hbase.tasks (fun x => ∀ r u w, x = .exitSleep r u w → r ≠ sma) t ?_ ?_ ?_
        · intro _ _ _ _ _ _ _ _ r u w hf
          cases hf
        · intro a c w w' hP r u w'' hf
          cases hf
          exact hP _ _ _ rfl
        · exact fun r u w ht hr => hany (hawake t r u w ht hr hre)
      have hreset := (h.kept_inv hbase).reset hslot (fun _ => true) (fun _ => true) (fun _ => rfl)
        fun t r u w ht hr => absurd hr (hnobody t r u w ht)
      have hk := (Kept.wakeUp (s₁.clearAdj sma fun _ => true) sma .eventn).trans
        (Kept.wakeUp _ sma .eventz)
      have hinv := hreset.kept_inv hk
      simpa [hany] using hinv

end UndoInv

variable [DecidableEq τ]

namespace UndoInv

theorem unnoticed (h : UndoInv s' b none) {e : Event τ} {out : Option Int}
    (hres : ∀ r n, resets s e r n = false) (hexit : exits s e = none) (hcalls : calls s e = none)
    (hfresh : s'.freshUndo = s.freshUndo) : UndoInv s' (b.next s e s' out) none := by
  rw [b.next_same s' out hres hexit hcalls hfresh]
  exact h

theorem attempt_freshUndo (t : τ) (semid : Nat) (sops : List Sembuf) (sma : Nat) (s : State τ) :
    (Semaphore.attempt t semid sops sma s).1.freshUndo = s.freshUndo := by
  rcases attempt_cases t semid sops sma s with ⟨e, heq, -⟩ | ⟨q, sop, -, heq⟩ | ⟨-, -, v, heq⟩
  · rw [heq]
    rfl
  · rw [heq]
    exact (Kept.countUp s sma sop.semNum.toNat q).fresh
  · rw [heq]
    exact (Frame.performed t semid sops sma s).fresh

theorem semop (h : UndoInv s b none) (hT : TableInv s.table) {t : τ} {semid : Int}
    {sops : List Sembuf} {denied : Bool} {allocs : Nat} {out : Option Int}
    (ht : s.task t = .running) (hcur : makesCurrent s (.semop t semid sops denied allocs))
    (hsemop : Semaphore.semop t semid sops denied allocs s = (s', out)) :
    UndoInv s' (b.next s (.semop t semid sops denied allocs) s' out) none := by
  have hrec : (s.task t).record = none := by
    rw [ht]
    rfl
  unfold Semaphore.semop at hsemop
  cases hset : semopSet s semid sops denied with
  | error e =>
    rw [hset] at hsemop
    cases hsemop
    exact h.unnoticed (fun _ _ => rfl) rfl (by simp only [calls, hset]) rfl
  | ok sma =>
    rw [hset] at hsemop
    simp only at hsemop
    have hcalls : calls s (.semop t semid sops denied allocs) =
        some ⟨t, semid.toNat, sops, sma⟩ := by
      simp only [calls, hset]
    have hslot := (semopSet_ok hset).1
    have hmake : 0 < allocs → ∀ sop ∈ sops, sop.undo = true →
        ¬ HasUndo s t semid.toNat sop.semNum → Current s semid.toNat sma := by
      intro ha sop hsop hundo hnone
      have hmem : sma ∈ (semopSet s semid sops denied).toOption := by
        rw [hset]
        rfl
      refine ⟨hslot, hcur sma hmem ha sop hsop hundo ?_⟩
      rw [← Option.not_isSome_iff_eq_none, hasUndo_iff]
      exact hnone
    rw [Books.next_of_call b s' out (fun _ _ => rfl) rfl]
    have hcharged : charged s (.semop t semid sops denied allocs) out =
        Call.charge ⟨t, semid.toNat, sops, sma⟩ out := by
      funext t' r n
      simp only [charged, hcalls]
    rw [hcharged]
    rcases hadd : Semaphore.addUndos t semid.toNat sma allocs sops s with ⟨s₁, ok⟩
    obtain ⟨hinv, -, htask, -, hhas⟩ := h.addUndos hT ht hmake hadd
    have htable : s₁.table = s.table := by
      have hsame := (addUndos_same t semid.toNat sma allocs sops s).1
      rw [hadd] at hsame
      exact hsame
    rw [hadd] at hsemop
    cases ok with
    | false =>
      cases hsemop
      have howed : (fun t' r n => b.owed t' r n -
          Call.charge ⟨t, semid.toNat, sops, sma⟩ (some (-Errno.enomem)) t' r n) = b.owed := by
        funext t' r n
        rw [Call.charge_of_neg, sub_zero]
        intro v hv
        cases hv
        decide
      rw [howed]
      exact hinv
    | true =>
      simp only at hsemop
      have hfresh : s'.freshUndo = s₁.freshUndo := by
        have hatt := attempt_freshUndo t semid.toNat sops sma s₁
        rw [hsemop] at hatt
        exact hatt
      rw [hfresh]
      refine hinv.attempt (by rwa [htable]) (by rwa [htask]) (fun _ => ?_) (hhas rfl) hsemop
      rw [htable]
      exact hslot

end UndoInv

theorem Books.next_of_ctl {t : τ} {denied : Bool} (s' : State τ) (out : Option Int)
    (hfresh : s'.freshUndo = s.freshUndo) :
    b.next s (.ctl t denied) s' out =
      { b with
        owed := fun t' r n => if resets s (.ctl t denied) r n = true then 0 else b.owed t' r n } := by
  have howed : (fun t' r n => if resets s (.ctl t denied) r n then 0
      else if exits s (.ctl t denied) = some t' then b.owed t' r n - (s'.vals r n - s.vals r n)
      else b.owed t' r n - charged s (.ctl t denied) out t' r n) =
      fun t' r n => if resets s (.ctl t denied) r n = true then 0 else b.owed t' r n := by
    funext t' r n
    simp [exits, charged, calls]
  have howner := congrArg Books.owner (Books.made_self b (maker (.ctl t denied)) s.freshUndo)
  unfold Books.made at howner
  unfold Books.next
  rw [howed, hfresh]
  congr 1

/-- `SETVAL` and `SETALL`, after the copy. -/
theorem UndoInv.ctl (h : UndoInv s b none) {t : τ} {denied : Bool} {r : State τ × Int}
    (hawake : nobodyAt s (.ctl t denied)) (hctl : ctlEnd t denied s = some r) :
    UndoInv r.1 (b.next s (.ctl t denied) r.1 (some r.2)) none := by
  have hok := h.tasks t
  unfold ctlEnd at hctl
  cases hx : s.task t with
  | setval semid semnum sma val =>
    rw [hx] at hctl hok
    cases hctl
    have hf := Frame.setvalEnd semid semnum sma val denied s
    have hinv := h.setval semnum val denied hok (fun t' r u w ht' hr hn hre => by
      have hfree := hawake t' (r, u) (by rw [ht']; rfl)
      simp only [resets, hx, hr, hn, hre] at hfree
      by_contra hrange
      have hbool : (decide (val > semvmx) || decide (val < 0)) = false := by simpa using hrange
      rw [hbool] at hfree
      simp at hfree)
    dsimp only
    rw [Books.next_of_ctl ((setvalEnd semid semnum sma val denied s).1.setTask t .running) _ hf.fresh]
    simp only [resets, hx]
    refine hinv.move (hf.record_none ?_) trivial
    rw [hx]
    rfl
  | setall semid sma nsems semIo =>
    rw [hx] at hctl hok
    cases hctl
    have hf := Frame.setallEnd semid sma nsems semIo denied s
    have hinv := h.setall nsems semIo denied hok (fun t' r u w ht' hr hre => by
      have hfree := hawake t' (r, u) (by rw [ht']; rfl)
      simp only [resets, hx, hr, hre] at hfree
      by_contra hany
      rw [Bool.not_eq_true] at hany
      rw [hany] at hfree
      simp at hfree)
    dsimp only
    rw [Books.next_of_ctl ((setallEnd semid sma nsems semIo denied s).1.setTask t .running) _
      hf.fresh]
    simp only [resets, hx]
    refine hinv.move (hf.record_none ?_) trivial
    rw [hx]
    rfl
  | running | opSleep | exiting | exitSleep | gone =>
    rw [hx] at hctl
    cases hctl

namespace SameSets

theorem newObj (K : Kind) (t : τ) (key : Int) (arg : Nat) (flg : Flags) (T : Table τ) :
    SameSets T (newObj K t key arg flg T).1 := by
  unfold Ipc.newObj
  split
  · exact call _
  · split
    · exact call _
    · rename_i id hfind
      have hslot : T.slot id = .unused := by simpa using List.find?_some hfind
      exact slot_update (by simp) (by simp [hslot])

theorem search (K : Kind) (t : τ) (key : Int) (arg : Nat) (flg : Flags) (denied : Bool) (id : Nat)
    (T : Table τ) : SameSets T (search K t key arg flg denied id T).1 := by
  unfold Ipc.search
  split
  · exact call _
  · exact call _
  · split
    · exact newObj K t key arg flg T
    · exact call _

theorem sysGet (K : Kind) (t : τ) (key arg : Int) (flg : Flags) (denied : Bool) (T : Table τ) :
    SameSets T (sysGet K t key arg flg denied T).1 := by
  unfold Ipc.sysGet
  split
  · exact ⟨rfl, fun _ _ => Iff.rfl, fun _ => rfl⟩
  · split
    · exact newObj K t key arg.toNat flg T
    · exact search K t key arg.toNat flg denied 0 T

end SameSets

theorem UndoInv.table (h : UndoInv s b none) (hb : Bounded s) {e : Ipc.Event τ} {out : Option Int}
    (hfresh : freshIdent s (.table e)) (hstep : tableStep e s = some (s', out)) :
    UndoInv s' (b.next s (.table e) s' out) none := by
  suffices hs : UndoInv s' b none ∧ s'.freshUndo = s.freshUndo from
    hs.1.unnoticed (fun _ _ => rfl) rfl rfl hs.2
  have hsame : ∀ {T : Table τ}, SameSets s.table T →
      UndoInv (s.withTable T) b none ∧ (s.withTable T).freshUndo = s.freshUndo :=
    fun hT => ⟨h.retable hT.fresh hT.slot hT.seq, rfl⟩
  unfold tableStep at hstep
  cases hout : Ipc.stepOut semKind s.table e with
  | none =>
    rw [hout] at hstep
    cases hstep
  | some r =>
    obtain ⟨T, out'⟩ := r
    rw [hout] at hstep
    cases e with
    | get t key arg flg denied =>
      cases hstep
      simp only [Ipc.stepOut] at hout
      split_ifs at hout
      have hget := SameSets.sysGet semKind t key arg flg denied s.table
      rw [Option.some.inj hout] at hget
      exact hsame hget
    | resume t denied =>
      cases hstep
      simp only [Ipc.stepOut, Ipc.resume] at hout
      cases hcall : s.table.call t with
      | searching key arg flg id =>
        rw [hcall] at hout
        have hget := SameSets.search semKind t key arg flg denied id s.table
        rw [Option.some.inj hout] at hget
        exact hsame hget
      | idle | creating =>
        rw [hcall] at hout
        cases hout
    | kmalloc t ok =>
      cases hstep
      simp only [Ipc.stepOut, kmallocReturns] at hout
      cases hcall : s.table.call t with
      | creating key arg flg id left =>
        have hnoid : s.table.slot id = .noid := by
          refine (hb.table.noid_iff id).2 ⟨t, ?_⟩
          rw [hcall]
          rfl
        rw [hcall] at hout
        simp only at hout
        split_ifs at hout with hok hleft <;> cases hout
        · exact hsame (SameSets.call _)
        · obtain rfl : ok = true := by simpa using hok
          refine ⟨h.made hb hcall (hfresh id ?_), rfl⟩
          simp only [building, hcall]
          rfl
        · exact hsame (SameSets.slot_update (by simp) (by simp [hnoid]))
      | idle | searching =>
        rw [hcall] at hout
        cases hout
    | free id =>
      simp only [Ipc.stepOut] at hout
      cases hslot : s.table.slot id with
      | used r =>
        simp only at hstep
        rw [hslot] at hout hstep
        cases hout
        cases hstep
        exact ⟨h.removed hb.table hslot, rfl⟩
      | unused | noid =>
        rw [hslot] at hout
        cases hout
    | mark id =>
      simp only [Ipc.stepOut] at hout
      cases hslot : s.table.slot id with
      | used r =>
        rw [hslot] at hout
        simp only [semKind, Bool.false_eq_true, if_false] at hout
        cases hout
      | unused | noid =>
        rw [hslot] at hout
        cases hout

end Steps

end LinuxEvocation.Ipc.Semaphore
