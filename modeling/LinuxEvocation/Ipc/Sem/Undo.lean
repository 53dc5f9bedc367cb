import LinuxEvocation.Ipc.Sem.Values

/-!
# Undo records

What the undo records are for: when a process ends, each semaphore gets back what the process has
taken from it with `SEM_UNDO` since the value was last set.  The books keep what that is, in
integers and for each semaphore, and follow each record from its allocation to its `kfree`.

* `Books`, `Books.next` — what is owed, who made a record and how often it has been freed.
* `Current` — an identifier is the one of a set in the table.
* `UndoInv` — the records agree with the books; one record may be out while `sem_exit` is at it.
* `UndoInv.kept`, `UndoInv.newUndo`, `UndoInv.charge`, `UndoInv.reset`, `UndoInv.erase`,
  `UndoInv.drop` — what each function does to the records.
-/

namespace LinuxEvocation.Ipc.Semaphore

open Function (update update_of_ne update_self)

variable {τ : Type*}

/-! ## The books -/

/-- What is kept of the past. -/
structure Books (τ : Type*) where
  /-- The negated sum of the operations with `SEM_UNDO` of a process on a semaphore since its value
  was last set, less what `sem_exit` of the process has added. -/
  owed : τ → Nat → Nat → Int
  /-- Who made a record. -/
  owner : Nat → Option τ
  /-- How often a record has been freed. -/
  freed : Nat → Nat

def Books.init : Books τ := ⟨fun _ _ _ => 0, fun _ => none, fun _ => 0⟩

/-- The records from `lo` up to `hi` have been made by `t`. -/
def Books.made (b : Books τ) (t : Option τ) (lo hi : Nat) : Books τ :=
  { b with owner := fun u => if lo ≤ u ∧ u < hi then t else b.owner u }

theorem Books.made_self (b : Books τ) (t : Option τ) (lo : Nat) : b.made t lo lo = b := by
  have howner : (fun u => if lo ≤ u ∧ u < lo then t else b.owner u) = b.owner := by
    funext u
    exact if_neg fun hu => absurd hu.2 (Nat.not_lt.2 hu.1)
  unfold Books.made
  rw [howner]

theorem Books.made_succ (b : Books τ) (t : Option τ) {lo hi : Nat} (h : lo < hi) :
    Books.made { b with owner := update b.owner lo t } t (lo + 1) hi = b.made t lo hi := by
  have howner : (fun u => if lo + 1 ≤ u ∧ u < hi then t else update b.owner lo t u) =
      fun u => if lo ≤ u ∧ u < hi then t else b.owner u := by
    funext u
    by_cases hu : u = lo
    · subst hu
      rw [update_self, ite_self, if_pos ⟨le_rfl, h⟩]
    · rw [update_of_ne hu]
      congr 1
      refine propext (and_congr_left fun _ => ?_)
      omega
  unfold Books.made
  dsimp only
  rw [howner]

/-- The sum of the operations with `SEM_UNDO` on the semaphore `n`. -/
def undone (sops : List Sembuf) (n : Nat) : Int :=
  (sops.map fun sop => if sop.undo ∧ sop.semNum.toNat = n then sop.semOp.toInt else 0).sum

@[simp]
theorem undone_nil (n : Nat) : undone [] n = 0 := rfl

@[simp]
theorem undone_cons (sop : Sembuf) (sops : List Sembuf) (n : Nat) :
    undone (sop :: sops) n =
      (if sop.undo ∧ sop.semNum.toNat = n then sop.semOp.toInt else 0) + undone sops n := rfl

/-- In the step `SETVAL` sets the semaphore, or `SETALL` its set. -/
def resets (s : State τ) : Event τ → Nat → Nat → Bool
  | .ctl t denied, r, n =>
    match s.task t with
    | .setval semid semnum sma val =>
      r = sma && n = semnum && !(val > semvmx || val < 0) && (ctlRecheck semid sma denied s).isNone
    | .setall semid sma _ semIo =>
      r = sma && !(semIo.any fun v => v.toNat > semvmx) && (ctlRecheck semid sma denied s).isNone
    | _ => false
  | _, _, _ => false

/-- The process that is in `sem_exit` in the step. -/
def exits (s : State τ) : Event τ → Option τ
  | .run t =>
    match s.task t with
    | .exiting | .exitSleep _ _ _ => some t
    | _ => none
  | _ => none

/-- By how much a call that succeeds changes the semaphore with `SEM_UNDO`. -/
def Call.charge [DecidableEq τ] (c : Call τ) (out : Option Int) (t : τ) (r n : Nat) : Int :=
  match out with
  | some v => if 0 ≤ v ∧ t = c.t ∧ r = c.sma then undone c.sops n else 0
  | none => 0

theorem Call.charge_of_neg [DecidableEq τ] (c : Call τ) {out : Option Int}
    (h : ∀ v, out = some v → v < 0) (t : τ) (r n : Nat) : c.charge out t r n = 0 := by
  cases out with
  | none => rfl
  | some v => exact if_neg fun hv => absurd hv.1 (h v rfl).not_ge

/-- By how much a step changes the semaphore with `SEM_UNDO`. -/
def charged [DecidableEq τ] (s : State τ) (e : Event τ) (out : Option Int) (t : τ) (r n : Nat) :
    Int :=
  match calls s e with
  | some c => c.charge out t r n
  | none => 0

/-- The record that is freed in the step: `sem_exit` goes on to the next one. -/
def kfrees (s : State τ) (e : Event τ) (s' : State τ) : Option Nat :=
  (exits s e).bind fun t =>
    match s'.task t with
    | .exiting => (s.semun t).head?
    | _ => none

/-- Who makes undo records in the step. -/
def maker : Event τ → Option τ
  | .semop t _ _ _ _ => some t
  | _ => none

/-- The books after a step. -/
def Books.next [DecidableEq τ] (b : Books τ) (s : State τ) (e : Event τ) (s' : State τ)
    (out : Option Int) : Books τ where
  owed t r n :=
    if resets s e r n then 0
    else if exits s e = some t then b.owed t r n - (s'.vals r n - s.vals r n)
    else b.owed t r n - charged s e out t r n
  owner u := if s.freshUndo ≤ u ∧ u < s'.freshUndo then maker e else b.owner u
  freed u := if kfrees s e s' = some u then b.freed u + 1 else b.freed u

/-- A step in which nobody exits and no value is set. -/
theorem Books.next_of_call [DecidableEq τ] (b : Books τ) {s : State τ} {e : Event τ} (s' : State τ)
    (out : Option Int) (hres : ∀ r n, resets s e r n = false) (hexit : exits s e = none) :
    b.next s e s' out =
      { b.made (maker e) s.freshUndo s'.freshUndo with
        owed := fun t r n => b.owed t r n - charged s e out t r n } := by
  have howed : (fun t r n => if resets s e r n then 0
      else if exits s e = some t then b.owed t r n - (s'.vals r n - s.vals r n)
      else b.owed t r n - charged s e out t r n) =
      fun t r n => b.owed t r n - charged s e out t r n := by
    funext t r n
    rw [hres, hexit]
    simp
  have hfreed : (fun u => if kfrees s e s' = some u then b.freed u + 1 else b.freed u) =
      b.freed := by
    funext u
    simp [kfrees, hexit]
  unfold Books.next Books.made
  rw [howed, hfreed]

theorem Books.next_same [DecidableEq τ] (b : Books τ) {s : State τ} {e : Event τ} (s' : State τ)
    (out : Option Int) (hres : ∀ r n, resets s e r n = false) (hexit : exits s e = none)
    (hcalls : calls s e = none) (hfresh : s'.freshUndo = s.freshUndo) : b.next s e s' out = b := by
  have howed : (fun t r n => b.owed t r n - charged s e out t r n) = b.owed := by
    funext t r n
    simp [charged, hcalls]
  rw [b.next_of_call s' out hres hexit, hfresh, Books.made_self, howed]

/-- The kernel and the books. -/
def bookStep [DecidableEq τ] (x : State τ × Books τ) (e : Event τ) : Option (State τ × Books τ) :=
  (stepOut x.1 e).map fun r => (r.1, x.2.next x.1 e r.1 r.2)

/-! ## The records and the books -/

/-- The identifier is the one of the set, and the set is in the table. -/
def Current (s : State τ) (semid sma : Nat) : Prop :=
  s.table.slot (semid % mni) = .used sma ∧ s.seq sma = semid / mni

instance (s : State τ) (semid sma : Nat) : Decidable (Current s semid sma) :=
  inferInstanceAs (Decidable (_ ∧ _))

theorem Current.semid_eq {s : State τ} (hT : TableInv s.table) {semid semid' sma : Nat}
    (h : Current s semid sma) (h' : Current s semid' sma) : semid = semid' := by
  have hmod : semid % mni = semid' % mni := hT.used_inj h.1 h'.1
  have hdiv : semid / mni = semid' / mni := h.2.symm.trans h'.2
  rw [← Nat.div_add_mod semid mni, ← Nat.div_add_mod semid' mni, hmod, hdiv]

/-- An identifier is the one of at most one set. -/
theorem Current.sma_eq {s : State τ} {semid sma sma' : Nat} (h : Current s semid sma)
    (h' : Current s semid sma') : sma = sma' := by
  have heq := h.1.symm.trans h'.1
  cases heq
  rfl

/-- The set has been made, and is in the table just as long as the identifier is the one of it. -/
def Valid (s : State τ) (semid sma : Nat) : Prop :=
  sma < s.table.fresh ∧ (s.seq sma = semid / mni → s.table.slot (semid % mni) = .used sma) ∧
    ∀ id, s.table.slot id = .used sma → Current s semid sma

/-- The process has an undo record for the operation. -/
def HasUndo (s : State τ) (t : τ) (semid : Nat) (num : UInt16) : Prop :=
  ∃ u ∈ s.semun t, (s.undo u).semid = semid ∧ (s.undo u).semNum = num

/-- The record is on the undo list of no set in the table. -/
def Unlisted (s : State τ) (u : Nat) : Prop :=
  ∀ id r, s.table.slot id = .used r → u ∉ (s.set r).undo

/-- What holds of a process where it stands. -/
def TaskOk (s : State τ) (t : τ) : Task → Prop
  | .opSleep semid sops sma _ _ _ =>
    Valid s semid sma ∧ ∀ sop ∈ sops, sop.undo = true → HasUndo s t semid sop.semNum
  | .setval semid _ sma _ => Valid s semid sma
  | .setall semid sma _ _ => Valid s semid sma
  | .exitSleep sma u _ =>
    (s.semun t).head? = some u ∧ Unlisted s u ∧ Valid s (s.undo u).semid sma ∧
      ∀ r, Current s (s.undo u).semid r → r = sma
  | .gone => s.semun t = []
  | _ => True

/-- The records of the process have their identifiers and numbers, and those that are on no list stay
so. -/
theorem TaskOk.mono {s s' : State τ} {t : τ} {x : Task} (hx : TaskOk s t x)
    (hsemun : x ≠ .running → s'.semun t = s.semun t) (hvalid : ∀ {i r}, Valid s i r → Valid s' i r)
    (hundo : ∀ u ∈ s.semun t,
      (s'.undo u).semid = (s.undo u).semid ∧ (s'.undo u).semNum = (s.undo u).semNum)
    (hun : ∀ u ∈ s.semun t, Unlisted s u → Unlisted s' u)
    (hcur : ∀ u ∈ s.semun t, ∀ r, Current s' (s.undo u).semid r → Current s (s.undo u).semid r) :
    TaskOk s' t x := by
  cases x with
  | opSleep semid sops sma q num w =>
    refine ⟨hvalid hx.1, fun sop hsop hu => ?_⟩
    obtain ⟨u, hmem, h1, h2⟩ := hx.2 sop hsop hu
    refine ⟨u, ?_, (hundo u hmem).1.trans h1, (hundo u hmem).2.trans h2⟩
    rwa [hsemun (by simp)]
  | setval | setall => exact hvalid hx
  | exitSleep sma u w =>
    obtain ⟨hhead, hoff, hv, hsma⟩ := hx
    have hu : u ∈ s.semun t := List.mem_of_mem_head? hhead
    refine ⟨by rwa [hsemun (by simp)], hun u hu hoff, ?_, fun r hc => ?_⟩
    · rw [(hundo u hu).1]
      exact hvalid hv
    · rw [(hundo u hu).1] at hc
      exact hsma r (hcur u hu r hc)
  | gone => exact (hsemun (by simp)).trans hx
  | running | exiting => trivial

/-- The record for which a process sleeps in `sem_exit`. -/
def Task.record : Task → Option Nat
  | .exitSleep _ u _ => some u
  | _ => none

/-- **The undo records and the books**, while `sem_exit` is at the record `out`. -/
structure UndoInv (s : State τ) (b : Books τ) (out : Option Nat) : Prop where
  nodup : ∀ t, (s.semun t).Nodup
  owned : ∀ {t u}, u ∈ s.semun t → b.owner u = some t ∧ b.freed u = 0
  kept : ∀ {t u}, b.owner u = some t → u < s.freshUndo ∧ (u ∈ s.semun t ∨ b.freed u = 1)
  unused : ∀ {u}, s.freshUndo ≤ u → b.freed u = 0
  distinct : ∀ {t u v}, u ∈ s.semun t → v ∈ s.semun t → (s.undo u).semid = (s.undo v).semid →
    (s.undo u).semNum = (s.undo v).semNum → u = v
  listed : ∀ {t u sma}, u ∈ s.semun t → some u ≠ out → (s.task t).record ≠ some u →
    Current s (s.undo u).semid sma → u ∈ (s.set sma).undo
  live : ∀ {id sma u}, s.table.slot id = .used sma → u ∈ (s.set sma).undo →
    Current s (s.undo u).semid sma ∧ ∃ t, u ∈ s.semun t
  list_nodup : ∀ {id sma}, s.table.slot id = .used sma → (s.set sma).undo.Nodup
  amount : ∀ {t u sma}, u ∈ s.semun t → Current s (s.undo u).semid sma →
    (s.undo u).semadj = Int16.ofInt (b.owed t sma (s.undo u).semNum.toNat)
  covered : ∀ {t id sma n}, s.table.slot id = .used sma → b.owed t sma n ≠ 0 →
    ∃ u ∈ s.semun t, Current s (s.undo u).semid sma ∧ (s.undo u).semNum.toNat = n
  unborn : ∀ {t sma n}, s.table.fresh ≤ sma → b.owed t sma n = 0
  tasks : ∀ t, TaskOk s t (s.task t)

theorem init_undoInv : UndoInv (State.init : State τ) Books.init none where
  nodup _ := List.nodup_nil
  owned h := by cases h
  kept h := by cases h
  unused _ := rfl
  distinct h := by cases h
  listed h := by cases h
  live h := by cases h
  list_nodup h := by cases h
  amount h := by cases h
  covered h := by cases h
  unborn _ := rfl
  tasks _ := trivial

namespace UndoInv

variable {s s' : State τ} {b : Books τ} {out : Option Nat}

theorem owner_eq (h : UndoInv s b out) {t t' : τ} {u : Nat} (hu : u ∈ s.semun t)
    (hu' : u ∈ s.semun t') : t = t' :=
  Option.some.inj ((h.owned hu).1.symm.trans (h.owned hu').1)

theorem mem_lt (h : UndoInv s b out) {t : τ} {u : Nat} (hu : u ∈ s.semun t) : u < s.freshUndo :=
  (h.kept (h.owned hu).1).1

theorem findUndo_some {t : τ} {semid u : Nat} {num : UInt16}
    (h : s.findUndo t semid num = some u) :
    u ∈ s.semun t ∧ (s.undo u).semid = semid ∧ (s.undo u).semNum = num := by
  refine ⟨List.mem_of_find?_eq_some h, ?_⟩
  simpa using List.find?_some h

theorem hasUndo_iff {t : τ} {semid : Nat} {num : UInt16} :
    (s.findUndo t semid num).isSome ↔ HasUndo s t semid num := by
  unfold State.findUndo HasUndo
  rw [List.find?_isSome]
  simp

end UndoInv

/-! ## Changes that the records do not notice -/

/-- The undo records are the same, and everybody stands where they stood; some may be woken. -/
structure Kept (s s' : State τ) : Prop where
  table : s'.table = s.table
  list : ∀ r, (s'.set r).undo = (s.set r).undo
  undo : s'.undo = s.undo
  fresh : s'.freshUndo = s.freshUndo
  semun : s'.semun = s.semun
  record : ∀ t, (s'.task t).record = (s.task t).record
  tasks : ∀ (P : Task → Prop) t,
    (∀ a b c d e w w', P (.opSleep a b c d e w) → P (.opSleep a b c d e w')) →
    (∀ a b w w', P (.exitSleep a b w) → P (.exitSleep a b w')) → P (s.task t) → P (s'.task t)

namespace Kept

variable {s s' s'' : State τ}

theorem refl (s : State τ) : Kept s s :=
  ⟨rfl, fun _ => rfl, rfl, rfl, rfl, fun _ => rfl, fun _ _ _ _ h => h⟩

theorem trans (h : Kept s s') (h' : Kept s' s'') : Kept s s'' :=
  ⟨h'.table.trans h.table, fun r => (h'.list r).trans (h.list r), h'.undo.trans h.undo,
    h'.fresh.trans h.fresh, h'.semun.trans h.semun, fun t => (h'.record t).trans (h.record t),
    fun P t h1 h2 hP => h'.tasks P t h1 h2 (h.tasks P t h1 h2 hP)⟩

theorem setSem (s : State τ) (sma num : Nat) (x : Sem) : Kept s (s.setSem sma num x) :=
  ⟨rfl, fun r => setSem_undoList s sma num x r, rfl, rfl, rfl, fun _ => rfl, fun _ _ _ _ h => h⟩

theorem setSemval (s : State τ) (sma num : Nat) (v : UInt16) : Kept s (s.setSemval sma num v) :=
  setSem s sma num _

theorem countUp (s : State τ) (sma num : Nat) (q : WaitQueue) : Kept s (s.countUp sma num q) := by
  cases q <;> exact setSem s sma num _

theorem countDown (s : State τ) (sma num : Nat) (q : WaitQueue) :
    Kept s (s.countDown sma num q) := by
  cases q <;> exact setSem s sma num _

theorem wakeUp (s : State τ) (sma : Nat) (q : WaitQueue) : Kept s (s.wakeUp sma q) := by
  refine ⟨rfl, fun _ => rfl, rfl, rfl, rfl, fun t => ?_, fun P t hop hexit h => ?_⟩
  · simp only [State.wakeUp]
    cases s.task t <;> rfl
  · simp only [State.wakeUp]
    cases ht : s.task t with
    | opSleep =>
      rw [ht] at h
      exact hop _ _ _ _ _ _ _ h
    | exitSleep =>
      rw [ht] at h
      exact hexit _ _ _ _ h
    | running | setval | setall | exiting | gone =>
      rw [ht] at h
      exact h

theorem wakeIf (s : State τ) (sma : Nat) (q : WaitQueue) (c : Prop) [Decidable c] :
    Kept s (if c then s.wakeUp sma q else s) := by
  split_ifs
  · exact wakeUp s sma q
  · exact refl s

/-- A change to all the semaphores of a set. -/
theorem setBase (s : State τ) (sma : Nat) (base : Nat → Sem) :
    Kept s { s with set := update s.set sma { s.set sma with base := base } } := by
  refine ⟨rfl, fun r => ?_, rfl, rfl, rfl, fun _ => rfl, fun _ _ _ _ h => h⟩
  by_cases hr : r = sma
  · subst hr
    simp
  · simp [hr]

variable (h : Kept s s')
include h

theorem current_iff (semid sma : Nat) : Current s' semid sma ↔ Current s semid sma := by
  unfold Current State.seq
  rw [h.table]

theorem taskOk {t : τ} {x : Task} (hx : TaskOk s t x) : TaskOk s' t x := by
  refine hx.mono (fun _ => congrFun h.semun t) (fun hv => ?_) (fun u _ => ?_)
    (fun u _ hoff id r hslot hm => ?_) fun u _ r hc => (h.current_iff _ _).1 hc
  · unfold Valid Current State.seq at hv ⊢
    rwa [h.table]
  · rw [h.undo]
    exact ⟨rfl, rfl⟩
  · rw [h.table] at hslot
    rw [h.list] at hm
    exact hoff id r hslot hm

end Kept

/-- Whether a process has been woken is not noticed. -/
theorem UndoInv.kept_inv {s s' : State τ} {b : Books τ} {out : Option Nat} (h : UndoInv s b out)
    (hk : Kept s s') : UndoInv s' b out where
  nodup t := by
    rw [hk.semun]
    exact h.nodup t
  owned hu := by
    rw [hk.semun] at hu
    exact h.owned hu
  kept hu := by
    rw [hk.semun, hk.fresh]
    exact h.kept hu
  unused hu := by
    rw [hk.fresh] at hu
    exact h.unused hu
  distinct hu hv := by
    rw [hk.semun] at hu hv
    rw [hk.undo]
    exact h.distinct hu hv
  listed hu hout hrec hcur := by
    rw [hk.semun] at hu
    rw [hk.record] at hrec
    rw [hk.current_iff, hk.undo] at hcur
    rw [hk.list]
    exact h.listed hu hout hrec hcur
  live hslot hu := by
    rw [hk.table] at hslot
    rw [hk.list] at hu
    rw [hk.current_iff, hk.undo, hk.semun]
    exact h.live hslot hu
  list_nodup hslot := by
    rw [hk.table] at hslot
    rw [hk.list]
    exact h.list_nodup hslot
  amount hu hcur := by
    rw [hk.semun] at hu
    rw [hk.current_iff, hk.undo] at hcur
    rw [hk.undo]
    exact h.amount hu hcur
  covered hslot hn := by
    rw [hk.table] at hslot
    simp only [hk.current_iff, hk.undo, hk.semun]
    exact h.covered hslot hn
  unborn hr := by
    rw [hk.table] at hr
    exact h.unborn hr
  tasks t := by
    refine hk.tasks (TaskOk s' t) t ?_ ?_ (hk.taskOk (h.tasks t))
    · exact fun _ _ _ _ _ _ _ hP => hP
    · exact fun _ _ _ _ hP => hP

namespace UndoInv

variable {s s' : State τ} {b : Books τ} {out out' : Option Nat}

/-! ## What the functions do to the records -/

section Tasks

variable [DecidableEq τ]

theorem setTask (h : UndoInv s b out) {t : τ} {x : Task} (hx : TaskOk s t x)
    (hself : ∀ u ∈ s.semun t, some u = out ∨ (s.task t).record = some u →
      some u = out' ∨ x.record = some u)
    (hother : ∀ t' ≠ t, ∀ u ∈ s.semun t', some u = out → some u = out') :
    UndoInv (s.setTask t x) b out' := { h with
  listed := fun {t' u sma} hu hout hrec hcur => by
    by_cases ht : t' = t
    · subst ht
      simp only [State.setTask, update_self] at hrec
      refine h.listed hu ?_ ?_ hcur
      · intro heq
        rcases hself u hu (.inl heq) with hl | hr
        · exact hout hl
        · exact hrec hr
      · intro heq
        rcases hself u hu (.inr heq) with hl | hr
        · exact hout hl
        · exact hrec hr
    · simp only [State.setTask, update_of_ne ht] at hrec
      exact h.listed hu (fun heq => hout (hother t' ht u hu heq)) hrec hcur
  tasks := fun t' => by
    by_cases ht : t' = t
    · subst ht
      simp only [State.setTask, update_self]
      exact hx
    · simp only [State.setTask, update_of_ne ht]
      exact h.tasks t' }

/-- A process that is at no record goes where it is at none. -/
theorem move (h : UndoInv s b none) {t : τ} {x : Task} (hrec : (s.task t).record = none)
    (hx : TaskOk s t x) : UndoInv (s.setTask t x) b none := by
  refine h.setTask hx (fun u _ hor => ?_) fun _ _ _ _ heq => heq
  rcases hor with heq | heq
  · cases heq
  · rw [hrec] at heq
    cases heq

end Tasks

/-- Nothing is owed where there is no record. -/
theorem owed_zero (h : UndoInv s b out) (hT : TableInv s.table) {t : τ} {semid sma : Nat}
    {num : UInt16} (hcur : Current s semid sma) (hnone : ¬ HasUndo s t semid num) :
    b.owed t sma num.toNat = 0 := by
  by_contra hne
  obtain ⟨u, hu, hucur, hnum⟩ := h.covered hcur.1 hne
  exact hnone ⟨u, hu, hucur.semid_eq hT hcur, UInt16.toNat_inj.1 hnum⟩

end UndoInv

/-- The state after `sys_semop` has made a record. -/
def State.newUndo [DecidableEq τ] (s : State τ) (t : τ) (semid sma : Nat) (num : UInt16) :
    State τ :=
  { s with
    undo := update s.undo s.freshUndo ⟨semid, num, 0⟩
    freshUndo := s.freshUndo + 1
    semun := update s.semun t (s.freshUndo :: s.semun t)
    set := update s.set sma
      { s.set sma with undo := s.freshUndo :: (s.set sma).undo } }

namespace UndoInv

variable {s s' : State τ} {b : Books τ} {out : Option Nat}

/-- **A record is made**, for a set in the table. -/
theorem newUndo [DecidableEq τ] (h : UndoInv s b none) (hT : TableInv s.table) {t : τ}
    {semid sma : Nat} {num : UInt16} (ht : s.task t = .running) (hcur : Current s semid sma)
    (hnone : ¬ HasUndo s t semid num) :
    UndoInv (s.newUndo t semid sma num)
      { b with owner := update b.owner s.freshUndo (some t) } none := by
  generalize hs₁ : s.newUndo t semid sma num = s₁
  unfold State.newUndo at hs₁
  have hnew : s₁.undo s.freshUndo = ⟨semid, num, 0⟩ := by
    rw [← hs₁]
    exact update_self _ _ _
  have hold : ∀ {t' v}, v ∈ s.semun t' → v ≠ s.freshUndo ∧ s₁.undo v = s.undo v := by
    intro t' v hv
    have hne : v ≠ s.freshUndo := (h.mem_lt hv).ne
    rw [← hs₁]
    exact ⟨hne, update_of_ne hne _ _⟩
  have htable : s₁.table = s.table := by rw [← hs₁]
  have htask : s₁.task = s.task := by rw [← hs₁]
  have hfresh : s₁.freshUndo = s.freshUndo + 1 := by rw [← hs₁]
  have hcurrent : ∀ i r, Current s₁ i r ↔ Current s i r := by
    intro i r
    unfold Current State.seq
    rw [htable]
  have hmem : ∀ {t' v}, v ∈ s₁.semun t' ↔ t' = t ∧ v = s.freshUndo ∨ v ∈ s.semun t' := by
    intro t' v
    rw [← hs₁]
    by_cases htt : t' = t
    · subst htt
      simp
    · simp [htt]
  have hlist : ∀ {r v}, v ∈ (s₁.set r).undo ↔ r = sma ∧ v = s.freshUndo ∨ v ∈ (s.set r).undo := by
    intro r v
    rw [← hs₁]
    by_cases hr : r = sma
    · subst hr
      simp
    · simp [hr]
  -- the new record is on no list yet
  have hfree : ∀ {id r}, s.table.slot id = .used r → s.freshUndo ∉ (s.set r).undo := by
    intro id r hslot hmem'
    obtain ⟨-, t', ht'⟩ := h.live hslot hmem'
    exact absurd rfl (hold ht').1
  refine ⟨fun t' => ?_, fun {t' u} hu => ?_, fun {t' u} hu => ?_, fun {u} hu => ?_,
    fun {t' u v} hu hv hid hn => ?_, fun {t' u r} hu _ hrec hc => ?_, fun {id r u} hslot hu => ?_,
    fun {id r} hslot => ?_, fun {t' u r} hu hc => ?_, fun {t' id r n} hslot hne => ?_,
    fun {t' r n} hr => ?_, fun t' => ?_⟩
  · rw [← hs₁]
    dsimp only
    by_cases htt : t' = t
    · subst htt
      rw [update_self]
      exact List.nodup_cons.2 ⟨fun hm => (hold hm).1 rfl, h.nodup t'⟩
    · rw [update_of_ne htt]
      exact h.nodup t'
  · dsimp only
    rcases hmem.1 hu with ⟨rfl, rfl⟩ | hu
    · exact ⟨update_self _ _ _, h.unused le_rfl⟩
    · rw [update_of_ne (hold hu).1]
      exact h.owned hu
  · dsimp only at hu ⊢
    rw [hfresh]
    by_cases huf : u = s.freshUndo
    · subst huf
      rw [update_self] at hu
      exact ⟨Nat.lt_succ_self _, .inl (hmem.2 (.inl ⟨(Option.some.inj hu).symm, rfl⟩))⟩
    · rw [update_of_ne huf] at hu
      obtain ⟨hlt, hor⟩ := h.kept hu
      exact ⟨Nat.lt_succ_of_lt hlt, hor.imp_left fun hm => hmem.2 (.inr hm)⟩
  · rw [hfresh] at hu
    exact h.unused (Nat.le_of_succ_le hu)
  · rcases hmem.1 hu with ⟨rfl, rfl⟩ | hu <;> rcases hmem.1 hv with ⟨htv, rfl⟩ | hv
    · rfl
    · rw [hnew, (hold hv).2] at hid hn
      exact absurd ⟨v, hv, hid.symm, hn.symm⟩ hnone
    · subst htv
      rw [hnew, (hold hu).2] at hid hn
      exact absurd ⟨u, hu, hid, hn⟩ hnone
    · rw [(hold hu).2, (hold hv).2] at hid hn
      exact h.distinct hu hv hid hn
  · rw [hcurrent] at hc
    rcases hmem.1 hu with ⟨rfl, rfl⟩ | hu
    · rw [hnew] at hc
      exact hlist.2 (.inl ⟨hc.sma_eq hcur, rfl⟩)
    · rw [(hold hu).2] at hc
      rw [htask] at hrec
      exact hlist.2 (.inr (h.listed hu (by simp) hrec hc))
  · rw [htable] at hslot
    rw [hcurrent]
    rcases hlist.1 hu with ⟨rfl, rfl⟩ | hu
    · rw [hnew]
      exact ⟨hcur, t, hmem.2 (.inl ⟨rfl, rfl⟩)⟩
    · obtain ⟨hc, t', ht'⟩ := h.live hslot hu
      rw [(hold ht').2]
      exact ⟨hc, t', hmem.2 (.inr ht')⟩
  · rw [htable] at hslot
    rw [← hs₁]
    dsimp only
    by_cases hr : r = sma
    · subst hr
      rw [update_self]
      exact List.nodup_cons.2 ⟨hfree hslot, h.list_nodup hslot⟩
    · rw [update_of_ne hr]
      exact h.list_nodup hslot
  · rw [hcurrent] at hc
    rcases hmem.1 hu with ⟨rfl, rfl⟩ | hu
    · rw [hnew] at hc ⊢
      rw [hc.sma_eq hcur]
      simp only [h.owed_zero hT hcur hnone]
      rfl
    · rw [(hold hu).2] at hc ⊢
      exact h.amount hu hc
  · rw [htable] at hslot
    obtain ⟨u, hu, hc, hn⟩ := h.covered hslot hne
    refine ⟨u, hmem.2 (.inr hu), ?_⟩
    rw [hcurrent, (hold hu).2]
    exact ⟨hc, hn⟩
  · rw [htable] at hr
    exact h.unborn hr
  · rw [htask]
    refine (h.tasks t').mono (fun hrun => ?_) (fun hv => ?_) (fun u hu => ?_)
      (fun u hu hoff id r hslot hm => ?_) fun u _ r hc => (hcurrent _ r).1 hc
    · have htt : t' ≠ t := by
        rintro rfl
        exact hrun ht
      rw [← hs₁]
      exact update_of_ne htt _ _
    · simp only [Valid, Current, State.seq, htable] at hv ⊢
      exact hv
    · rw [(hold hu).2]
      exact ⟨rfl, rfl⟩
    · rw [htable] at hslot
      rcases hlist.1 hm with ⟨-, rfl⟩ | hm
      · exact (hold hu).1 rfl
      · exact hoff id r hslot hm

/-- **The adjustments change**, and the books with them. -/
theorem setAdj (h : UndoInv s b out) {undo : Nat → Undo} {owed : τ → Nat → Nat → Int}
    (hid : ∀ u, (undo u).semid = (s.undo u).semid)
    (hnum : ∀ u, (undo u).semNum = (s.undo u).semNum)
    (hamount : ∀ {t u sma}, u ∈ s.semun t → Current s (s.undo u).semid sma →
      (undo u).semadj = Int16.ofInt (owed t sma (s.undo u).semNum.toNat))
    (hcovered : ∀ {t id sma n}, s.table.slot id = .used sma → owed t sma n ≠ 0 →
      b.owed t sma n ≠ 0 ∨
        ∃ u ∈ s.semun t, Current s (s.undo u).semid sma ∧ (s.undo u).semNum.toNat = n)
    (hunborn : ∀ {t sma n}, s.table.fresh ≤ sma → owed t sma n = 0) :
    UndoInv { s with undo := undo } { b with owed := owed } out := { h with
  distinct := fun hu hv => by
    simp only [hid, hnum]
    exact h.distinct hu hv
  listed := fun hu hout hrec hcur => by
    simp only [hid] at hcur
    exact h.listed hu hout hrec hcur
  live := fun hslot hu => by
    simp only [hid]
    exact h.live hslot hu
  amount := fun hu hcur => by
    simp only [hid] at hcur
    simp only [hnum]
    exact hamount hu hcur
  covered := fun hslot hne => by
    simp only [hid, hnum]
    rcases hcovered hslot hne with hold | hu
    · exact h.covered hslot hold
    · exact hu
  unborn := hunborn
  tasks := fun t => (h.tasks t).mono (fun _ => rfl) (fun hv => hv) (fun u _ => ⟨hid u, hnum u⟩)
    (fun _ _ hoff => hoff) fun _ _ _ hc => hc }

/-- **An operation with `SEM_UNDO` is recorded.** -/
theorem charge [DecidableEq τ] (h : UndoInv s b none) (hT : TableInv s.table) {t : τ}
    {u semid sma : Nat} (hu : u ∈ s.semun t) (hid : (s.undo u).semid = semid)
    (hcur : Current s semid sma) (op : Int16) :
    UndoInv
      { s with undo := update s.undo u { s.undo u with semadj := (s.undo u).semadj - op } }
      { b with
        owed := fun t' r n => b.owed t' r n -
          if t' = t ∧ r = sma ∧ n = (s.undo u).semNum.toNat then op.toInt else 0 } none := by
  subst hid
  refine h.setAdj (fun v => ?_) (fun v => ?_) (fun {t' v r} hv hc => ?_)
    (fun {t' id r n} hslot hne => ?_) fun {t' r n} hr => ?_
  · by_cases hvu : v = u
    · simp [hvu]
    · simp [hvu]
  · by_cases hvu : v = u
    · simp [hvu]
    · simp [hvu]
  · by_cases hvu : v = u
    · subst hvu
      obtain rfl := h.owner_eq hu hv
      obtain rfl := hcur.sma_eq hc
      rw [update_self, if_pos ⟨rfl, rfl, rfl⟩, Int16.ofInt_sub, Int16.ofInt_toInt,
        ← h.amount hu hc]
    · rw [update_of_ne hvu, h.amount hv hc]
      split_ifs with heq
      · obtain ⟨rfl, rfl, hn⟩ := heq
        exact absurd (h.distinct hv hu (hc.semid_eq hT hcur) (UInt16.toNat_inj.1 hn)) hvu
      · rw [sub_zero]
  · split_ifs at hne with heq
    · obtain ⟨rfl, rfl, rfl⟩ := heq
      exact .inr ⟨u, hu, hcur, rfl⟩
    · rw [sub_zero] at hne
      exact .inl hne
  · have hne : r ≠ sma := by
      rintro rfl
      exact absurd (hT.used_lt hcur.1) (Nat.not_lt.2 hr)
    rw [if_neg fun heq => hne heq.2.1, sub_zero]
    exact h.unborn hr

/-- **The adjustments for some semaphores of a set are reset**, when nobody is at the record of one
of them. -/
theorem reset (h : UndoInv s b none) {id sma : Nat} (hslot : s.table.slot id = .used sma)
    (test : Undo → Bool) (p : Nat → Bool) (htest : ∀ un, test un = p un.semNum.toNat)
    (hawake : ∀ t r u w, s.task t = .exitSleep r u w → r = sma →
      p (s.undo u).semNum.toNat = false) :
    UndoInv (s.clearAdj sma test)
      { b with owed := fun t r n => if r = sma ∧ p n = true then 0 else b.owed t r n } none := by
  refine h.setAdj (fun v => ?_) (fun v => ?_) (fun {t v r} hv hc => ?_)
    (fun {t id r n} _ hne => ?_) fun {t r n} hr => ?_
  · split_ifs <;> rfl
  · split_ifs <;> rfl
  · by_cases hin : v ∈ (s.set sma).undo ∧ test (s.undo v) = true
    · rw [if_pos hin]
      have hr : r = sma := hc.sma_eq (h.live hslot hin.1).1
      have hp : p (s.undo v).semNum.toNat = true := by
        rw [← htest]
        exact hin.2
      rw [if_pos ⟨hr, hp⟩]
      rfl
    · rw [if_neg hin, h.amount hv hc]
      -- a record of the set that is not on its list is one somebody sleeps for
      have hkeep : ¬ (r = sma ∧ p (s.undo v).semNum.toNat = true) := by
        rintro ⟨rfl, hp⟩
        have hoff : v ∉ (s.set r).undo := by
          intro hm
          refine hin ⟨hm, ?_⟩
          rw [htest]
          exact hp
        have hrec : (s.task t).record = some v := by
          by_contra hrec
          exact hoff (h.listed hv (by simp) hrec hc)
        have hok := h.tasks t
        cases hx : s.task t with
        | exitSleep r' u w =>
          rw [hx] at hrec hok
          cases hrec
          have hr' := hok.2.2.2 r hc
          have hfalse := hawake t r' v w hx hr'.symm
          rw [hp] at hfalse
          cases hfalse
        | running | opSleep | setval | setall | exiting | gone =>
          rw [hx] at hrec
          cases hrec
      rw [if_neg hkeep]
  · split_ifs at hne with heq
    · exact absurd rfl hne
    · exact .inl hne
  · split_ifs
    · rfl
    · exact h.unborn hr

end UndoInv

/-! ### `sem_exit` -/

@[simp]
theorem setUndoList_list (s : State τ) (sma : Nat) (l : List Nat) (r : Nat) :
    ((s.setUndoList sma l).set r).undo = if r = sma then l else (s.set r).undo := by
  unfold State.setUndoList
  by_cases hr : r = sma
  · subst hr
    simp
  · simp [hr]

namespace UndoInv

variable {s s' : State τ} {b : Books τ} {out : Option Nat}

/-- **A record is taken off the list of its set.** -/
theorem erase (h : UndoInv s b none) {u sma : Nat}
    (hcur : Current s (s.undo u).semid sma) :
    UndoInv (s.setUndoList sma ((s.set sma).undo.erase u)) b (some u) ∧
      Unlisted (s.setUndoList sma ((s.set sma).undo.erase u)) u := by
  have hsub : ∀ {r v}, v ∈ ((s.setUndoList sma ((s.set sma).undo.erase u)).set r).undo →
      v ∈ (s.set r).undo := by
    intro r v hv
    rw [setUndoList_list] at hv
    split_ifs at hv with hr
    · rw [hr]
      exact List.mem_of_mem_erase hv
    · exact hv
  have hun : Unlisted (s.setUndoList sma ((s.set sma).undo.erase u)) u := by
    intro id r hslot hm
    have hr : r = sma := (h.live hslot (hsub hm)).1.sma_eq hcur
    rw [setUndoList_list, if_pos hr] at hm
    exact (h.list_nodup hcur.1).not_mem_erase hm
  refine ⟨⟨h.nodup, h.owned, h.kept, h.unused, h.distinct, fun {t' v r} hv hout hrec hc => ?_,
    fun hslot hv => h.live hslot (hsub hv), fun {id r} hslot => ?_, h.amount, h.covered, h.unborn,
    fun t' => ?_⟩, hun⟩
  · have hin := h.listed hv (by simp) hrec hc
    have hne : v ≠ u := fun heq => hout (congrArg some heq)
    rw [setUndoList_list]
    split_ifs with hr
    · rw [← hr]
      exact (List.mem_erase_of_ne hne).2 hin
    · exact hin
  · rw [setUndoList_list]
    split_ifs with hr
    · rw [← hr]
      exact (h.list_nodup hslot).erase u
    · exact h.list_nodup hslot
  · exact (h.tasks t').mono (fun _ => rfl) (fun hv => hv) (fun _ _ => ⟨rfl, rfl⟩)
      (fun _ _ hoff id r hslot hm => hoff id r hslot (hsub hm)) fun _ _ _ hc => hc

/-- **A record is freed** when nothing is owed for it any more. -/
theorem drop [DecidableEq τ] (h : UndoInv s b out) {t : τ} {u : Nat} {rest : List Nat}
    (hsemun : s.semun t = u :: rest) (hout : ∀ v, some v = out → v = u) (hun : Unlisted s u)
    (hrec : ∀ v, (s.task t).record = some v → v = u) {owed : τ → Nat → Nat → Int}
    (hother : ∀ t' r n, owed t' r n = b.owed t' r n ∨
      t' = t ∧ Current s (s.undo u).semid r ∧ n = (s.undo u).semNum.toNat)
    (hzero : ∀ r, Current s (s.undo u).semid r → owed t r (s.undo u).semNum.toNat = 0)
    (hunborn : ∀ {t' r n}, s.table.fresh ≤ r → owed t' r n = 0) (hT : TableInv s.table) :
    UndoInv (dropUndo t s)
      { b with
        owed := owed
        freed := fun v => if some u = some v then b.freed v + 1 else b.freed v } none := by
  have hnd : u ∉ rest ∧ rest.Nodup := List.nodup_cons.1 (hsemun ▸ h.nodup t)
  have hmemu : u ∈ s.semun t := by
    rw [hsemun]
    exact List.mem_cons_self
  have hmem : ∀ {t' v}, v ∈ (dropUndo t s).semun t' ↔ v ∈ s.semun t' ∧ v ≠ u := by
    intro t' v
    unfold dropUndo
    dsimp only
    by_cases htt : t' = t
    · subst htt
      rw [update_self, hsemun, List.tail_cons, List.mem_cons]
      constructor
      · intro hv
        refine ⟨.inr hv, ?_⟩
        rintro rfl
        exact hnd.1 hv
      · rintro ⟨hv | hv, hne⟩
        · exact absurd hv hne
        · exact hv
    · rw [update_of_ne htt]
      refine ⟨fun hv => ⟨hv, ?_⟩, fun hv => hv.1⟩
      rintro rfl
      exact htt (h.owner_eq hv hmemu)
  have hfreed : ∀ {v}, v ≠ u → (if some u = some v then b.freed v + 1 else b.freed v) = b.freed v :=
    fun hne => if_neg fun heq => hne (Option.some.inj heq).symm
  -- only what is owed for the record has changed
  have hsame : ∀ {t' v r}, v ∈ s.semun t' → v ≠ u → Current s (s.undo v).semid r →
      owed t' r (s.undo v).semNum.toNat = b.owed t' r (s.undo v).semNum.toNat := by
    intro t' v r hv hne hc
    rcases hother t' r (s.undo v).semNum.toNat with heq | ⟨rfl, hc', hn⟩
    · exact heq
    · exact absurd (h.distinct hv hmemu (hc.semid_eq hT hc') (UInt16.toNat_inj.1 hn)) hne
  refine ⟨fun t' => ?_, fun {t' v} hv => ?_, fun {t' v} hv => ?_, fun {v} hv => ?_,
    fun {t' v w} hv hw => h.distinct (hmem.1 hv).1 (hmem.1 hw).1,
    fun {t' v r} hv _ hrec' hc => ?_, fun {id r v} hslot hv => ?_, h.list_nodup,
    fun {t' v r} hv hc => ?_, fun {t' id r n} hslot hne => ?_, hunborn, fun t' => ?_⟩
  · unfold dropUndo
    dsimp only
    by_cases htt : t' = t
    · subst htt
      rw [update_self, hsemun]
      exact hnd.2
    · rw [update_of_ne htt]
      exact h.nodup t'
  · obtain ⟨hv, hne⟩ := hmem.1 hv
    dsimp only
    rw [hfreed hne]
    exact h.owned hv
  · obtain ⟨hlt, hor⟩ := h.kept hv
    refine ⟨hlt, ?_⟩
    by_cases hvu : v = u
    · subst hvu
      right
      dsimp only
      rw [if_pos rfl, (h.owned hmemu).2]
    · dsimp only
      rw [hfreed hvu]
      exact hor.imp_left fun hm => hmem.2 ⟨hm, hvu⟩
  · have hne : v ≠ u := by
      rintro rfl
      exact absurd (h.mem_lt hmemu) (Nat.not_lt.2 hv)
    dsimp only
    rw [hfreed hne]
    exact h.unused hv
  · obtain ⟨hv, hne⟩ := hmem.1 hv
    refine h.listed hv (fun heq => hne (hout v heq)) ?_ hc
    by_cases htt : t' = t
    · subst htt
      exact fun heq => hne (hrec v heq)
    · simpa only [dropUndo, State.setTask, update_of_ne htt] using hrec'
  · obtain ⟨hc, t', ht'⟩ := h.live hslot hv
    refine ⟨hc, t', hmem.2 ⟨ht', ?_⟩⟩
    rintro rfl
    exact hun id r hslot hv
  · obtain ⟨hv, hne⟩ := hmem.1 hv
    refine (h.amount hv hc).trans (congrArg Int16.ofInt ?_)
    exact (hsame hv hne hc).symm
  · dsimp only at hne
    rcases hother t' r n with heq | ⟨rfl, hc, rfl⟩
    · rw [heq] at hne
      obtain ⟨v, hv, hc, hn⟩ := h.covered hslot hne
      refine ⟨v, hmem.2 ⟨hv, ?_⟩, hc, hn⟩
      rintro rfl
      obtain rfl := h.owner_eq hv hmemu
      rw [← heq, ← hn] at hne
      exact hne (hzero r hc)
    · exact absurd (hzero r hc) hne
  · by_cases htt : t' = t
    · subst htt
      simp only [dropUndo, State.setTask, update_self]
      trivial
    · have htask : (dropUndo t s).task t' = s.task t' := by
        simp only [dropUndo, State.setTask, update_of_ne htt]
      rw [htask]
      exact (h.tasks t').mono (fun _ => update_of_ne htt _ _) (fun hv => hv) (fun _ _ => ⟨rfl, rfl⟩)
        (fun _ _ hoff => hoff) fun _ _ _ hc => hc

end UndoInv

end LinuxEvocation.Ipc.Semaphore
