import LinuxEvocation.Kernel.Exit.Status
import LinuxEvocation.Lib.Forest

/-!
# The links of the tasks

`REMOVE_LINKS`, `SET_LINKS` and the splice in `do_exit` are the stores of a forest that is threaded
through the tasks; signals leave it alone.

* `State.links` — the link fields; `links_removeLinks`, `links_setLinks`, `links_reparent`.
* `Calm` — a step that changes no link and neither makes nor wakes a zombie.
* `Steady` — the same for a step that may change links.
-/

namespace LinuxEvocation.Exit

open Function (update update_eq_self update_of_ne update_self)
open Forest LinkedList

/-! ## The stores -/

/-- The link fields of the tasks. -/
def State.links (s : State) : Links Nat where
  next p := (s.task p).nextTask
  prev p := (s.task p).prevTask
  pptr p := (s.task p).pPptr
  cptr p := (s.task p).pCptr
  ysptr p := (s.task p).pYsptr
  osptr p := (s.task p).pOsptr

/-- A field of the tasks after one of them has changed. -/
theorem State.modify_field {β : Type} (s : State) (p : Nat) (f : Task → Task) (g : Task → β) :
    (fun q => g ((s.modify p f).task q)) =
      update (fun q => g (s.task q)) p (g (f (s.task p))) := by
  funext q
  show g (update s.task p (f (s.task p)) q) = _
  by_cases h : q = p
  · rw [h, update_self, update_self]
  · rw [update_of_ne h, update_of_ne h]

/-- A store to a task changes the link fields it is for. -/
theorem State.task_modify_self (s : State) (p : Nat) (f : Task → Task) :
    (s.modify p f).task p = f (s.task p) := update_self ..

theorem State.task_modify_of_ne (s : State) {p q : Nat} (f : Task → Task) (h : q ≠ p) :
    (s.modify p f).task q = s.task q := update_of_ne h ..

theorem State.field_modify {β : Type} (s : State) {p : Nat} {f : Task → Task} (g : Task → β)
    (hg : g (f (s.task p)) = g (s.task p)) (q : Nat) : g ((s.modify p f).task q) = g (s.task q) := by
  by_cases hq : q = p
  · rw [hq, State.task_modify_self, hg]
  · rw [State.task_modify_of_ne s f hq]

theorem State.links_modify (s : State) (p : Nat) (f : Task → Task) :
    (s.modify p f).links =
      { next := update s.links.next p (f (s.task p)).nextTask
        prev := update s.links.prev p (f (s.task p)).prevTask
        pptr := update s.links.pptr p (f (s.task p)).pPptr
        cptr := update s.links.cptr p (f (s.task p)).pCptr
        ysptr := update s.links.ysptr p (f (s.task p)).pYsptr
        osptr := update s.links.osptr p (f (s.task p)).pOsptr } := by
  have h : ∀ g : Task → Nat, (fun q => g ((s.modify p f).task q)) =
      update (fun q => g (s.task q)) p (g (f (s.task p))) := s.modify_field p f
  simp only [State.links]
  rw [Links.mk.injEq]
  exact ⟨h _, h _, h _, h _, h _, h _⟩

theorem State.links_modify_eq {s : State} {p : Nat} {f : Task → Task}
    (hf : (f (s.task p)).nextTask = (s.task p).nextTask ∧
      (f (s.task p)).prevTask = (s.task p).prevTask ∧ (f (s.task p)).pPptr = (s.task p).pPptr ∧
      (f (s.task p)).pCptr = (s.task p).pCptr ∧ (f (s.task p)).pYsptr = (s.task p).pYsptr ∧
      (f (s.task p)).pOsptr = (s.task p).pOsptr) : (s.modify p f).links = s.links := by
  rw [State.links_modify]
  obtain ⟨h1, h2, h3, h4, h5, h6⟩ := hf
  rw [h1, h2, h3, h4, h5, h6]
  simp only [State.links, update_eq_self]

section Store

variable (s : State) (p v w : Nat)

theorem links_nextTask : (s.modify p fun t => { t with nextTask := v }).links =
    { s.links with next := update s.links.next p v } := by
  rw [State.links_modify]
  simp only [State.links, update_eq_self]

theorem links_prevTask : (s.modify p fun t => { t with prevTask := v }).links =
    { s.links with prev := update s.links.prev p v } := by
  rw [State.links_modify]
  simp only [State.links, update_eq_self]

theorem links_pPptr : (s.modify p fun t => { t with pPptr := v }).links =
    { s.links with pptr := update s.links.pptr p v } := by
  rw [State.links_modify]
  simp only [State.links, update_eq_self]

theorem links_pCptr : (s.modify p fun t => { t with pCptr := v }).links =
    { s.links with cptr := update s.links.cptr p v } := by
  rw [State.links_modify]
  simp only [State.links, update_eq_self]

theorem links_pYsptr : (s.modify p fun t => { t with pYsptr := v }).links =
    { s.links with ysptr := update s.links.ysptr p v } := by
  rw [State.links_modify]
  simp only [State.links, update_eq_self]

theorem links_pOsptr : (s.modify p fun t => { t with pOsptr := v }).links =
    { s.links with osptr := update s.links.osptr p v } := by
  rw [State.links_modify]
  simp only [State.links, update_eq_self]

end Store

/-- **`REMOVE_LINKS`.** -/
theorem links_removeLinks (p : Nat) (s : State) :
    (removeLinks p s).links = s.links.remove 0 p := by
  unfold removeLinks
  extract_lets s₁ s₂ s₃
  have h1 : s₁.links = { s.links with
      prev := update s.links.prev (s.links.next p) (s.links.prev p) } :=
    links_prevTask s _ _
  -- the own back link of the task is the one that is copied
  have hprev : (s₁.task p).prevTask = s.links.prev p := by
    show s₁.links.prev p = _
    rw [h1]
    dsimp only
    by_cases h : p = s.links.next p
    · rw [← h, update_self]
    · rw [update_of_ne h]
  have hnext : (s₁.task p).nextTask = s.links.next p := by
    show s₁.links.next p = _
    rw [h1]
  have h2 : s₂.links = { s₁.links with
      next := update s.links.next (s.links.prev p) (s.links.next p) } := by
    have hstore := links_nextTask s₁ (s₁.task p).prevTask (s₁.task p).nextTask
    rw [hprev, hnext] at hstore
    show (s₁.modify (s₁.task p).prevTask fun t => { t with nextTask := (s₁.task p).nextTask }).links = _
    rw [hprev, hnext, hstore, h1]
  have hos : s₂.links.osptr = s.links.osptr := by rw [h2, h1]
  have hys : s₂.links.ysptr = s.links.ysptr := by rw [h2, h1]
  have hosp : (s₂.task p).pOsptr = s.links.osptr p := congrFun hos p
  have hysp : (s₂.task p).pYsptr = s.links.ysptr p := congrFun hys p
  have h3 : s₃.links = { s₂.links with
      ysptr := DList.unlinkPrev 0 s.links.osptr s.links.ysptr p } := by
    show (if (s₂.task p).pOsptr ≠ 0 then
      s₂.modify (s₂.task p).pOsptr fun t => { t with pYsptr := (s₂.task p).pYsptr } else s₂).links = _
    rw [hosp, hysp, DList.unlinkPrev]
    by_cases hzero : s.links.osptr p = 0
    · rw [if_neg (not_not.2 hzero), if_pos hzero, ← hys]
    · rw [if_pos hzero, if_neg hzero, links_pYsptr, hys]
  have hosp3 : (s₃.task p).pOsptr = s.links.osptr p := by
    show s₃.links.osptr p = _
    rw [h3]
    exact hosp
  have hysp3 : (s₃.task p).pYsptr = s.links.ysptr p := by
    show s₃.links.ysptr p = _
    rw [h3]
    dsimp only
    rw [DList.unlinkPrev]
    split
    · rfl
    · by_cases h : p = s.links.osptr p
      · rw [← h, update_self]
      · rw [update_of_ne h]
  have hpp3 : (s₃.task p).pPptr = s.links.pptr p := by
    show s₃.links.pptr p = _
    rw [h3, h2, h1]
  rw [hosp3, hysp3, hpp3]
  by_cases hzero : s.links.ysptr p = 0
  · rw [if_neg (not_not.2 hzero), links_pCptr, h3, h2, h1, Links.remove, if_pos hzero,
      DList.unlinkNext, if_pos hzero]
  · rw [if_pos hzero, links_pOsptr, h3, h2, h1, Links.remove, if_neg hzero, DList.unlinkNext,
      if_neg hzero]

/-- **`SET_LINKS`.** -/
theorem links_setLinks {p : Nat} {s : State} (hp : p ≠ s.slot 0) :
    (setLinks p s).links = s.links.add 0 (s.slot 0) p := by
  unfold setLinks
  extract_lets init s₁ s₂ s₃ s₄ s₅
  have h1 : s₁.links = { s.links with
      next := update s.links.next p init
      prev := update s.links.prev p (s.links.prev init) } := by
    show (s.modify _ _).links = _
    rw [State.links_modify]
    simp only [State.links, update_eq_self]
  have hprev : (s₁.task init).prevTask = s.links.prev init := by
    show s₁.links.prev init = _
    rw [h1]
    dsimp only
    rw [update_of_ne hp.symm]
  have h2 : s₂.links = { s₁.links with
      next := update (update s.links.next p init) (s.links.prev init) p } := by
    show (s₁.modify (s₁.task init).prevTask fun t => { t with nextTask := p }).links = _
    rw [hprev, links_nextTask, h1]
  have h3 : s₃.links = { s₂.links with
      prev := update (update s.links.prev p (s.links.prev init)) init p } := by
    show (s₂.modify init fun t => { t with prevTask := p }).links = _
    rw [links_prevTask, h2, h1]
  have hpp3 : s₃.links.pptr = s.links.pptr := by rw [h3, h2, h1]
  have hcp3 : s₃.links.cptr = s.links.cptr := by rw [h3, h2, h1]
  have hys3 : s₃.links.ysptr = s.links.ysptr := by rw [h3, h2, h1]
  have hos3 : s₃.links.osptr = s.links.osptr := by rw [h3, h2, h1]
  have hcp : (s₃.task (s₃.task p).pPptr).pCptr = s.links.cptr (s.links.pptr p) := by
    show s₃.links.cptr (s₃.links.pptr p) = _
    rw [hpp3, hcp3]
  have h4 : s₄.links = { s₃.links with
      ysptr := update s.links.ysptr p 0
      osptr := update s.links.osptr p (s.links.cptr (s.links.pptr p)) } := by
    show (s₃.modify p _).links = _
    rw [State.links_modify]
    dsimp only
    rw [hcp, hys3, hos3]
    simp only [State.links, update_eq_self]
  have hosp4 : (s₄.task p).pOsptr = s.links.cptr (s.links.pptr p) := by
    show s₄.links.osptr p = _
    rw [h4]
    exact update_self _ _ _
  have h5 : s₅.links = { s₄.links with
      ysptr := if s.links.cptr (s.links.pptr p) = 0 then update s.links.ysptr p 0
        else update (update s.links.ysptr p 0) (s.links.cptr (s.links.pptr p)) p } := by
    show (if (s₄.task p).pOsptr ≠ 0 then
      s₄.modify (s₄.task p).pOsptr fun t => { t with pYsptr := p } else s₄).links = _
    rw [hosp4]
    by_cases hzero : s.links.cptr (s.links.pptr p) = 0
    · rw [if_neg (not_not.2 hzero), if_pos hzero, h4]
    · rw [if_pos hzero, if_neg hzero, links_pYsptr, h4]
  have hpp5 : (s₅.task p).pPptr = s.links.pptr p := by
    show s₅.links.pptr p = _
    rw [h5, h4]
    exact congrFun hpp3 p
  rw [hpp5, links_pCptr, h5, h4, h3, h2, h1]
  rfl

/-- **The splice in `do_exit`.** -/
theorem links_reparent {cur p : Nat} {s : State} (hcur : cur ≠ s.reaper) :
    (reparent cur p s).links = s.links.adopt 0 cur s.reaper p := by
  unfold reparent
  extract_lets s₁ s₂ s₃ s₄ s₅
  have h1 : s₁.links = { s.links with
      cptr := update s.links.cptr cur (s.links.osptr p) } := links_pCptr s _ _
  have h2 : s₂.links = { s₁.links with ysptr := update s.links.ysptr p 0 } := by
    show (s₁.modify p _).links = _
    have hys : s₁.links.ysptr = s.links.ysptr := by rw [h1]
    rw [State.links_modify, hys]
    simp only [State.links, update_eq_self]
  have h3 : s₃.links = { s₂.links with pptr := update s.links.pptr p s.reaper } := by
    show (s₂.modify p fun t => { t with pPptr := s.reaper }).links = _
    rw [links_pPptr, h2, h1]
  have hcp : (s₃.task (s₃.task p).pPptr).pCptr = s.links.cptr s.reaper := by
    show s₃.links.cptr (s₃.links.pptr p) = _
    rw [h3]
    dsimp only
    rw [update_self, h2, h1]
    exact update_of_ne hcur.symm _ _
  have h4 : s₄.links = { s₃.links with
      osptr := update s.links.osptr p (s.links.cptr s.reaper) } := by
    show (s₃.modify p fun t => { t with pOsptr := (s₃.task t.pPptr).pCptr }).links = _
    rw [State.links_modify]
    dsimp only
    have hos : s₃.links.osptr = s.links.osptr := by rw [h3, h2, h1]
    rw [hcp, hos]
    simp only [State.links, update_eq_self]
  have hosp : (s₄.task p).pOsptr = s.links.cptr s.reaper := by
    show s₄.links.osptr p = _
    rw [h4]
    exact update_self _ _ _
  have h5 : s₅.links = { s₄.links with
      ysptr := update (update s.links.ysptr p 0) (s.links.cptr s.reaper) p } := by
    show (s₄.modify (s₄.task p).pOsptr fun t => { t with pYsptr := p }).links = _
    rw [hosp, links_pYsptr, h4, h3, h2]
  have hpp : (s₅.task p).pPptr = s.reaper := by
    show s₅.links.pptr p = _
    rw [h5, h4, h3]
    exact update_self _ _ _
  rw [hpp, links_pCptr, h5, h4, h3, h2, h1]
  rfl

/-! ## Steps that leave the links alone -/

/-- No link changes, and no task becomes a zombie or ceases to be one. -/
structure Calm (s s' : State) : Prop where
  links : s'.links = s.links
  opptr : ∀ p, (s'.task p).pOpptr = (s.task p).pOpptr
  pid : ∀ p, (s'.task p).pid = (s.task p).pid
  zombie : ∀ p, (s'.task p).state = .zombie ↔ (s.task p).state = .zombie
  slot : s'.slot = s.slot
  pc : s'.pc = s.pc

namespace Calm

variable {s s₁ s' : State}

theorem refl (s : State) : Calm s s :=
  ⟨rfl, fun _ => rfl, fun _ => rfl, fun _ => Iff.rfl, rfl, rfl⟩

theorem trans (h : Calm s s₁) (h' : Calm s₁ s') : Calm s s' :=
  ⟨h'.links.trans h.links, fun p => (h'.opptr p).trans (h.opptr p),
    fun p => (h'.pid p).trans (h.pid p), fun p => (h'.zombie p).trans (h.zombie p),
    h'.slot.trans h.slot, h'.pc.trans h.pc⟩

/-- One task changes, and keeps its links. -/
theorem modify {p : Nat} {f : Task → Task} (hf : (f (s.task p)).nextTask = (s.task p).nextTask ∧
      (f (s.task p)).prevTask = (s.task p).prevTask ∧ (f (s.task p)).pPptr = (s.task p).pPptr ∧
      (f (s.task p)).pCptr = (s.task p).pCptr ∧ (f (s.task p)).pYsptr = (s.task p).pYsptr ∧
      (f (s.task p)).pOsptr = (s.task p).pOsptr)
    (hopptr : (f (s.task p)).pOpptr = (s.task p).pOpptr) (hpid : (f (s.task p)).pid = (s.task p).pid)
    (hzombie : (f (s.task p)).state = .zombie ↔ (s.task p).state = .zombie) :
    Calm s (s.modify p f) := by
  refine ⟨State.links_modify_eq hf, s.field_modify _ hopptr, s.field_modify _ hpid, fun q => ?_, rfl,
    rfl⟩
  by_cases hq : q = p
  · rw [hq, State.task_modify_self]
    exact hzombie
  · rw [State.task_modify_of_ne s f hq]

end Calm

theorem deliver_zombie (sig : Nat) (t : Task) :
    (deliver sig t).state = .zombie ↔ t.state = .zombie := by
  obtain ⟨state, signal, heq, hz⟩ := deliver_eq sig t
  rw [heq]
  exact hz

theorem sendSig_calm (cur sig p : Nat) (priv : Bool) (s : State) :
    Calm s (sendSig cur sig p priv s).1 := by
  obtain heq | ⟨-, heq⟩ := sendSig_cases cur sig p priv s
  · rw [heq]
    exact .refl s
  · rw [heq]
    obtain ⟨state, signal, hd, -⟩ := deliver_eq sig (s.task p)
    refine .modify ?_ ?_ ?_ (deliver_zombie sig _)
    · rw [hd]
      exact ⟨rfl, rfl, rfl, rfl, rfl, rfl⟩
    · rw [hd]
    · rw [hd]

theorem killEach_calm (cur sig : Nat) (priv : Bool) (sel : Task → Bool) (ps : List Nat)
    (r : State × Nat × Int) : Calm r.1 (killEach cur sig priv sel ps r).1 := by
  induction ps generalizing r with
  | nil => exact .refl _
  | cons p ps ih =>
    obtain ⟨s, found, retval⟩ := r
    unfold killEach
    dsimp only
    split
    · have hsend := sendSig_calm cur sig p priv s
      refine hsend.trans ?_
      have hrec := ih (if (sendSig cur sig p priv s).2 ≠ 0 then
        ((sendSig cur sig p priv s).1, found, (sendSig cur sig p priv s).2)
        else ((sendSig cur sig p priv s).1, found + 1, retval))
      have hfst : (if (sendSig cur sig p priv s).2 ≠ 0 then
          ((sendSig cur sig p priv s).1, found, (sendSig cur sig p priv s).2)
          else ((sendSig cur sig p priv s).1, found + 1, retval)).1 = (sendSig cur sig p priv s).1 := by
        split <;> rfl
      rw [hfst] at hrec
      exact hrec
    · exact ih (s, found, retval)

theorem killSelected_calm (cur : Nat) (id : Int) (sel : Task → Bool) (sig : Int) (priv : Bool)
    (s : State) : Calm s (killSelected cur id sel sig priv s).1 := by
  unfold killSelected
  split
  · exact .refl s
  · exact killEach_calm cur sig.toNat priv sel s.tasks (s, 0, -Errno.esrch)

theorem killPg_calm (cur : Nat) (pgrp sig : Int) (priv : Bool) (s : State) :
    Calm s (killPg cur pgrp sig priv s).1 := killSelected_calm cur pgrp _ sig priv s

theorem killProc_calm (cur : Nat) (pid sig : Int) (priv : Bool) (s : State) :
    Calm s (killProc cur pid sig priv s).1 := by
  unfold killProc
  split
  · exact .refl s
  split
  · exact sendSig_calm _ _ _ _ s
  · exact .refl s

theorem killAll_calm (cur sig : Nat) (ps : List Nat) (r : State × Nat × Int) :
    Calm r.1 (killAll cur sig ps r).1 := by
  induction ps generalizing r with
  | nil => exact .refl _
  | cons p ps ih =>
    obtain ⟨s, count, retval⟩ := r
    unfold killAll
    dsimp only
    split
    · refine (sendSig_calm cur sig p false s).trans ?_
      exact ih ((sendSig cur sig p false s).1, count + 1,
        if (sendSig cur sig p false s).2 ≠ -Errno.eperm then (sendSig cur sig p false s).2
        else retval)
    · exact ih (s, count, retval)

theorem sysKill_calm (cur : Nat) (pid sig : Int) (s : State) :
    Calm s (sysKill cur pid sig s).1 := by
  unfold sysKill
  split
  · exact killPg_calm _ _ _ _ s
  split
  · exact killAll_calm cur (ulong sig) s.tasks (s, 0, 0)
  split
  · exact killPg_calm _ _ _ _ s
  · exact killProc_calm _ _ _ _ s

theorem wakeChldexit_calm (p : Nat) (s : State) : Calm s (wakeChldexit p s) := by
  unfold wakeChldexit
  split
  · refine .modify ?_ ?_ ?_ ?_
    all_goals split <;> simp_all
  · exact .refl s

theorem notifyParent_calm (p : Nat) (s : State) : Calm s (notifyParent p s) := by
  unfold notifyParent
  extract_lets sig s₁
  have h1 : Calm s s₁ := .modify ⟨rfl, rfl, rfl, rfl, rfl, rfl⟩ rfl rfl Iff.rfl
  exact (h1.trans (sendSig_calm _ _ _ _ s₁)).trans (wakeChldexit_calm _ _)

theorem hupCont_calm (cur : Nat) (pgrp : Int) (s : State) : Calm s (hupCont cur pgrp s) :=
  (killPg_calm _ _ _ _ s).trans (killPg_calm _ _ _ _ _)

theorem exitGroup_calm (cur : Nat) (s : State) : Calm s (exitGroup cur s) := by
  unfold exitGroup
  split
  · exact hupCont_calm _ _ s
  · exact .refl s

theorem exitLeader_calm (cur : Nat) (s : State) : Calm s (exitLeader cur s) := by
  have hfold : ∀ (ps : List Nat) (s : State), Calm s (ps.foldl (fun s p =>
      if (s.task p).session = (s.task cur).session then
        s.modify p fun t => { t with tty := -1 } else s) s) := by
    intro ps
    induction ps with
    | nil => exact fun s => .refl s
    | cons p ps ih =>
      intro s
      refine Calm.trans ?_ (ih _)
      dsimp only
      split
      · exact .modify ⟨rfl, rfl, rfl, rfl, rfl, rfl⟩ rfl rfl Iff.rfl
      · exact .refl s
  unfold exitLeader
  split
  · refine Calm.trans ?_ (hfold _ _)
    split
    · split
      · rename_i tty _
        have hkill : Calm s (if tty.pgrp > 0 then (killPg cur tty.pgrp sighup true s).1 else s) := by
          split
          · exact killPg_calm _ _ _ _ s
          · exact .refl s
        exact ⟨hkill.links, hkill.opptr, hkill.pid, hkill.zombie, hkill.slot, hkill.pc⟩
      · exact .refl s
    · exact .refl s
  · exact .refl s

/-! ## Steps that leave zombies alone -/

/-- No task becomes a zombie or ceases to be one; the links may change. -/
structure Steady (s s' : State) : Prop where
  opptr : ∀ p, (s'.task p).pOpptr = (s.task p).pOpptr
  pid : ∀ p, (s'.task p).pid = (s.task p).pid
  zombie : ∀ p, (s'.task p).state = .zombie ↔ (s.task p).state = .zombie
  slot : s'.slot = s.slot
  pc : s'.pc = s.pc

theorem Calm.steady {s s' : State} (h : Calm s s') : Steady s s' :=
  ⟨h.opptr, h.pid, h.zombie, h.slot, h.pc⟩

namespace Steady

variable {s s₁ s' : State}

theorem refl (s : State) : Steady s s := (Calm.refl s).steady

theorem trans (h : Steady s s₁) (h' : Steady s₁ s') : Steady s s' :=
  ⟨fun p => (h'.opptr p).trans (h.opptr p), fun p => (h'.pid p).trans (h.pid p),
    fun p => (h'.zombie p).trans (h.zombie p), h'.slot.trans h.slot, h'.pc.trans h.pc⟩

theorem store (s : State) (p : Nat) {f : Task → Task}
    (hf : ∀ t, (f t).pOpptr = t.pOpptr ∧ (f t).pid = t.pid ∧ (f t).state = t.state) :
    Steady s (s.modify p f) := by
  obtain ⟨hopptr, hpid, hstate⟩ := hf (s.task p)
  refine ⟨s.field_modify _ hopptr, s.field_modify _ hpid, fun q => ?_, rfl, rfl⟩
  rw [s.field_modify _ hstate q]

theorem andStore (h : Steady s s₁) (p : Nat) {f : Task → Task}
    (hf : ∀ t, (f t).pOpptr = t.pOpptr ∧ (f t).pid = t.pid ∧ (f t).state = t.state) :
    Steady s (s₁.modify p f) :=
  h.trans (store s₁ p hf)

end Steady

theorem removeLinks_steady (p : Nat) (s : State) : Steady s (removeLinks p s) := by
  unfold removeLinks
  extract_lets s₁ s₂ s₃
  have h1 : Steady s s₁ := .store s _ fun _ => ⟨rfl, rfl, rfl⟩
  have h2 : Steady s s₂ := h1.andStore _ fun _ => ⟨rfl, rfl, rfl⟩
  have h3 : Steady s s₃ := by
    show Steady s (if _ then _ else s₂)
    split
    · exact h2.andStore _ fun _ => ⟨rfl, rfl, rfl⟩
    · exact h2
  split <;> exact h3.andStore _ fun _ => ⟨rfl, rfl, rfl⟩

theorem setLinks_steady (p : Nat) (s : State) : Steady s (setLinks p s) := by
  unfold setLinks
  extract_lets init s₁ s₂ s₃ s₄ s₅
  have h1 : Steady s s₁ := .store s _ fun _ => ⟨rfl, rfl, rfl⟩
  have h2 : Steady s s₂ := h1.andStore _ fun _ => ⟨rfl, rfl, rfl⟩
  have h3 : Steady s s₃ := h2.andStore _ fun _ => ⟨rfl, rfl, rfl⟩
  have h4 : Steady s s₄ := h3.andStore _ fun _ => ⟨rfl, rfl, rfl⟩
  have h5 : Steady s s₅ := by
    show Steady s (if _ then _ else s₄)
    split
    · exact h4.andStore _ fun _ => ⟨rfl, rfl, rfl⟩
    · exact h4
  exact h5.andStore _ fun _ => ⟨rfl, rfl, rfl⟩

theorem reparent_steady (cur p : Nat) (s : State) : Steady s (reparent cur p s) := by
  unfold reparent
  extract_lets s₁ s₂ s₃ s₄ s₅
  have h1 : Steady s s₁ := .store s _ fun _ => ⟨rfl, rfl, rfl⟩
  have h2 : Steady s s₂ := h1.andStore _ fun _ => ⟨rfl, rfl, rfl⟩
  have h3 : Steady s s₃ := h2.andStore _ fun _ => ⟨rfl, rfl, rfl⟩
  have h4 : Steady s s₄ := h3.andStore _ fun _ => ⟨rfl, rfl, rfl⟩
  have h5 : Steady s s₅ := h4.andStore _ fun _ => ⟨rfl, rfl, rfl⟩
  exact h5.andStore _ fun _ => ⟨rfl, rfl, rfl⟩

end LinuxEvocation.Exit
