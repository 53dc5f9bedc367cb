import LinuxEvocation.Kernel.Exit.Tree

/-!
# The steps of the table of tasks

* `Unfound` — no request attaches to a zombie that `sys_wait4` has found.
* `Sys.Moves` — what a step does.
* `Inv.tryWait`, `Inv.reaped`, `Inv.clearFork`, `Inv.ptrace`, `Inv.event` — the calls.
* `Inv.step` — every step that meets the condition keeps the table of tasks.
* `Boot` — the start.
-/

namespace LinuxEvocation.Exit

open Function (update update_of_ne update_self)
open Forest

/-- No request attaches to a zombie that `sys_wait4` has found and not yet dealt with. -/
def Unfound (x : Sys) : Call → Prop
  | .ptrace cur a => ∀ child, attaches cur a child x.s → ∀ u, x.mode u ≠ .reaping child
  | _ => True

/-- **What signals, stops and `do_exit` do** to the tasks. -/
inductive Occurs (x : Sys) (s' : State) : Prop
  | calm (h : Calm x.s s')
  | exit (c : Nat) (code : Int) (hfree : x.Free c) (hready : x.s.ready c)
      (heq : s' = (forgetOriginalParent c x.s).setPc c (.exiting code))
  | die (c : Nat) (code : Int) (hfree : x.Free c) (hpc : x.s.pc c = .exiting code)
      (hinit : c = x.s.slot 1 → (x.s.task c).pCptr = 0) (heq : s' = doExit c code x.s)
  | clear (c p : Nat) (hfree : x.Free c) (hpc : x.s.pc c ≠ .dead) (heq : s' = clear c p x.s)
  | stop (c : Nat) (sig : Int) (hready : x.s.ready c)
      (h : Calm (x.s.modify c fun t => { t with state := .stopped, exitCode := sig }) s')

theorem Sys.occurs {x : Sys} {e : Event} {s' : State} (hadm : x.admits e)
    (hs : Exit.step x.s e = some s') : Occurs x s' := by
  unfold Exit.step at hs
  obtain ⟨⟨s'', r⟩, hout, rfl⟩ := Option.map_eq_some_iff.1 hs
  cases e with
  | sendSig c sig p priv =>
    cases hout
    exact .calm (sendSig_calm _ _ _ _ _)
  | killPg c pgrp sig priv =>
    cases hout
    exact .calm (killPg_calm _ _ _ _ _)
  | killSl c sess sig priv =>
    cases hout
    exact .calm (killSelected_calm _ _ _ _ _ _)
  | killProc c pid sig priv =>
    cases hout
    exact .calm (killProc_calm _ _ _ _ _)
  | kill c pid sig =>
    rw [stepOut, Option.ite_none_right_eq_some] at hout
    cases hout.2
    exact .calm (sysKill_calm _ _ _ _)
  | exit c code =>
    rw [stepOut, Option.ite_none_right_eq_some] at hout
    cases hout.2
    exact .exit c code hadm hout.1 rfl
  | die c =>
    obtain ⟨hfree, hends⟩ := hadm
    unfold Sys.ends at hends
    rw [stepOut] at hout
    split at hout
    · rename_i code hpc
      rw [hpc] at hends
      cases hout
      exact .die c code hfree hpc hends.2 rfl
    · cases hout
  | wait4 | run | store | reap => exact hadm.elim
  | clear c =>
    rw [stepOut] at hout
    split at hout
    · rename_i p status hpc
      cases hout
      exact .clear c p hadm (by simp [hpc]) rfl
    · cases hout
  | stop c sig notify =>
    rw [stepOut, Option.ite_none_right_eq_some] at hout
    obtain ⟨hready, hout⟩ := hout
    cases hout
    refine .stop c sig hready ?_
    dsimp only
    split
    · exact notifyParent_calm _ _
    · exact .refl _
  | resume c =>
    rw [stepOut, Option.ite_none_right_eq_some] at hout
    cases hout.2
    dsimp only
    exact .calm (.modify ⟨rfl, rfl, rfl, rfl, rfl, rfl⟩ rfl rfl Iff.rfl)

/-- **What a step does**, and when. -/
inductive Sys.Moves (x : Sys) : Call → Sys → Prop
  | event (e : Event) (s' : State) (hadm : x.admits e) (hs : Exit.step x.s e = some s') :
    Moves x (.event e) { x with s := s' }
  | wait4 (cur : Nat) (w : Wait) (hfree : x.Free cur) (hready : x.s.ready cur) :
    Moves x (.wait4 cur w) (tryWait cur w x)
  | interrupted (cur : Nat) (hfree : x.Free cur) (hz : (x.s.task cur).state ≠ .zombie)
      (hrun : ((awake cur x.s).task cur).state ≠ .zombie) :
    Moves x (.run cur) { x with s := (awake cur x.s).setPc cur .user }
  | woken (cur : Nat) (w : Wait) (hfree : x.Free cur) (hz : (x.s.task cur).state ≠ .zombie)
      (hrun : ((awake cur x.s).task cur).state ≠ .zombie) :
    Moves x (.run cur) (tryWait cur w { x with s := awake cur x.s })
  | reap (cur p : Nat) (hmode : x.mode cur = .reaping p) :
    Moves x (.reap cur) ⟨Exit.reap p x.s, update x.mode cur .none⟩
  | fork (cur nr p : Nat) (pid : Int) (hfree : x.Free cur) (hready : x.s.ready cur)
      (hv : Vacant nr p pid x.s) :
    Moves x (.fork cur nr p pid) ⟨(enter nr p (forked cur pid x.s) x.s).setPc p .user,
      update (update x.mode p .newborn) cur (.forking nr p)⟩
  | forkOk (cur sig nr p : Nat) (hmode : x.mode cur = .forking nr p) :
    Moves x (.forkOk cur sig)
      ⟨x.s.modify p fun t => { t with exitSignal := sig, state := .running },
        update (update x.mode p .none) cur .none⟩
  | forkFail (cur nr p : Nat) (hmode : x.mode cur = .forking nr p) :
    Moves x (.forkFail cur) ⟨vacate nr p x.s, update (update x.mode p .none) cur .none⟩
  | again (cur : Nat) (hfree : x.Free cur) (hrun : (x.s.task cur).state = .running) :
    Moves x (.again cur)
      { x with s := (forgetOriginalParent cur x.s).setPc cur (.exiting (x.s.code cur)) }
  | ptrace (cur : Nat) (a : Ptrace) (hfree : x.Free cur) (hready : x.s.ready cur) :
    Moves x (.ptrace cur a) { x with s := (sysPtrace cur a x.s).1 }

theorem Sys.moves {x x' : Sys} {c : Call} (hs : x.step c = some x') : x.Moves c x' := by
  cases c with
  | event e =>
    rw [step, Option.ite_none_right_eq_some] at hs
    obtain ⟨s', hs', rfl⟩ := Option.map_eq_some_iff.1 hs.2
    exact .event e s' hs.1 hs'
  | wait4 cur w =>
    rw [step, Option.ite_none_right_eq_some] at hs
    obtain ⟨⟨hfree, hready⟩, hs⟩ := hs
    cases hs
    exact .wait4 cur w hfree hready
  | run cur =>
    rw [step] at hs
    split at hs
    · rename_i w hpc
      rw [Option.ite_none_right_eq_some] at hs
      obtain ⟨⟨hfree, hwoken⟩, hs⟩ := hs
      cases hs
      have hz : (x.s.task cur).state ≠ .zombie := by
        rcases hwoken with hr | ⟨hr, -⟩ <;> simp [hr]
      have hrun : ((awake cur x.s).task cur).state ≠ .zombie := by
        unfold awake
        rw [State.task_modify_self]
        simp
      unfold wakeWait
      dsimp only
      split
      · exact .interrupted cur hfree hz hrun
      · exact .woken cur w hfree hz hrun
    · cases hs
  | reap cur =>
    rw [step] at hs
    split at hs
    · cases hs
      exact .reap cur _ ‹_›
    · cases hs
  | fork cur nr p pid =>
    rw [step, Option.ite_none_right_eq_some] at hs
    obtain ⟨⟨hfree, hready, hv⟩, hs⟩ := hs
    cases hs
    exact .fork cur nr p pid hfree hready hv
  | forkOk cur sig =>
    rw [step] at hs
    split at hs
    · cases hs
      exact .forkOk cur sig _ _ ‹_›
    · cases hs
  | forkFail cur =>
    rw [step] at hs
    split at hs
    · cases hs
      exact .forkFail cur _ _ ‹_›
    · cases hs
  | again cur =>
    rw [step, Option.ite_none_right_eq_some] at hs
    obtain ⟨⟨hfree, -, hrun⟩, hs⟩ := hs
    cases hs
    exact .again cur hfree hrun
  | ptrace cur a =>
    rw [step, Option.ite_none_right_eq_some] at hs
    obtain ⟨⟨hfree, hready⟩, hs⟩ := hs
    cases hs
    exact .ptrace cur a hfree hready

namespace Inv

variable {x x' : Sys} {cur p : Nat}

/-- A task that is no zombie has not been found by `sys_wait4`. -/
theorem not_found (h : Inv x) (hz : (x.s.task p).state ≠ .zombie) : ∀ u, x.mode u ≠ .reaping p :=
  fun u hu => hz (h.reaping u p hu).2.2.1

/-- What follows the loop over the children in `sys_wait4`. -/
theorem tryWait (h : Inv x) (hfree : x.Free cur) (hz : (x.s.task cur).state ≠ .zombie) (w : Wait) :
    Inv (Sys.tryWait cur w x) := by
  obtain ⟨h0, hmem, hroot, hmode⟩ := hfree
  have huser : Inv { x with s := x.s.setPc cur .user } :=
    h.setPc hmode (by simp) hz fun c hc => by cases hc
  unfold Sys.tryWait
  split
  · rename_i p hscan
    obtain ⟨-, hzombie⟩ := scan_state w cur x.s false (x.s.children cur)
    exact huser.reap ⟨h0, hmem⟩ hroot hmode (update_self _ _ _) (scan_mem hscan)
      (hzombie p hscan)
  · unfold Exit.tryWait
    split
    · exact h.setPc hmode (by simp) hz fun c hc => by cases hc
    · rename_i hno _ p hscan
      exact absurd hscan (hno p)
    · split
      · split
        · exact huser
        · -- the task sleeps
          have hsleep : Inv { x with
              s := x.s.modify cur fun t => { t with state := .interruptible } } :=
            h.modify ⟨rfl, rfl, rfl, rfl, rfl, rfl⟩ rfl rfl (by simp) (h.not_found hz)
          refine hsleep.setPc hmode (by simp) ?_ fun c hc => by cases hc
          dsimp only
          rw [State.task_modify_self]
          simp
      · exact huser

/-- **`sys_wait4` goes on** with the zombie it has found. -/
theorem reaped (h : Inv x) (hmode : x.mode cur = .reaping p) :
    Inv ⟨Exit.reap p x.s, update x.mode cur .none⟩ := by
  obtain ⟨hp, hroot, hz, hpp⟩ := h.reaping cur p hmode
  have hinit := h.reaping_ne hmode
  have hdead := h.zombie p hp hz
  have hbarren := h.barren p hp hinit (.inl hdead)
  have hother : ∀ u, u ≠ cur → update x.mode cur .none u = x.mode u :=
    fun u hu => update_of_ne hu _ _
  have hself : update x.mode cur Mode.none cur = .none := update_self _ _ _
  have hpnone : x.mode p = .none := by
    by_contra hnone
    have := (h.busy p hnone).2.2
    rw [hdead] at this
    cases this
  -- the call ends
  have hclear : Inv { x with mode := update x.mode cur .none } := by
    refine h.clear (fun u => ?_) fun u nr y hu => ?_
    · by_cases huc : u = cur
      · rw [huc]
        exact .inl hself
      · exact .inr (hother u huc)
    · have huc : u ≠ cur := by
        rintro rfl
        rw [hself] at hu
        cases hu
      refine hother y ?_
      rintro rfl
      have := (h.forking u nr y ((hother u huc).symm.trans hu)).2.2.2.2
      rw [hmode] at this
      cases this
  have hfound : ∀ u, update x.mode cur .none u ≠ .reaping p := by
    intro u hu
    have huc : u ≠ cur := by
      rintro rfl
      rw [hself] at hu
      cases hu
    rw [hother u huc] at hu
    exact huc ((h.reaping u p hu).2.2.2.symm.trans hpp)
  have hpnone' : update x.mode cur Mode.none p = .none := by
    by_cases hpc : p = cur
    · rw [hpc]
      exact hself
    · exact (hother p hpc).trans hpnone
  rw [reap_eq]
  split
  · -- the original parent has not exited, and runs
    have hq : (x.s.task p).pOpptr ≠ x.s.slot 1 →
        x.s.pc (x.s.task p).pOpptr ≠ .dead ∧
          update x.mode cur .none (x.s.task p).pOpptr ≠ .newborn := by
      intro h1
      have hno := fun hd => (h.barren _ (h.opptr p hp) h1 hd p hp).2 rfl
      refine ⟨fun hd => hno (.inl hd), fun hd => ?_⟩
      by_cases hc : (x.s.task p).pOpptr = cur
      · rw [hc, hself] at hd
        cases hd
      · exact hno (.inr ((hother _ hc).symm.trans hd))
    have hrelink := hclear.relink hp hroot hinit (h.opptr p hp) hq hfound
    exact hrelink.calm (notifyParent_calm p _)
  · obtain ⟨i, hi, hi0, hslot, heq⟩ := release_eq hp hroot
    rw [heq]
    exact hclear.vacate hi hi0 hslot hp hinit hpnone' hbarren hfound

/-- **`sys_fork` ends**: neither the parent nor the new task is in it any more. -/
theorem clearFork (h : Inv x) {nr : Nat} (hmode : x.mode cur = .forking nr p) :
    Inv { x with mode := update (update x.mode p .none) cur .none } := by
  have hself : update (update x.mode p .none) cur Mode.none cur = .none :=
    update_self _ _ _
  have hborn : x.mode p = .newborn := (h.forking cur nr p hmode).2.2.2.2
  have hpc : p ≠ cur := by
    rintro rfl
    rw [hmode] at hborn
    cases hborn
  have hselfp : update (update x.mode p .none) cur Mode.none p = .none := by
    rw [update_of_ne hpc, update_self]
  have hother : ∀ u, u ≠ cur → u ≠ p →
      update (update x.mode p .none) cur .none u = x.mode u := by
    intro u h1 h2
    rw [update_of_ne h1, update_of_ne h2]
  refine h.clear (fun u => ?_) fun u n y hu => ?_
  · by_cases huc : u = cur
    · rw [huc]
      exact .inl hself
    · by_cases hup : u = p
      · rw [hup]
        exact .inl hselfp
      · exact .inr (hother u huc hup)
  · have huc : u ≠ cur := by
      rintro rfl
      rw [hself] at hu
      cases hu
    have hup : u ≠ p := by
      rintro rfl
      rw [hselfp] at hu
      cases hu
    have hold := (hother u huc hup).symm.trans hu
    refine hother y ?_ ?_
    · rintro rfl
      have := (h.forking u n y hold).2.2.2.2
      rw [hmode] at this
      cases this
    · rintro rfl
      exact huc (h.single u cur n nr y hold hmode)

/-- The child of a request is a task, and neither `task[0]` nor `init`. -/
theorem getTask_live (h : Inv x) {pid : Int} {child : Nat} (hpid : pid ≠ 1)
    (hget : getTask pid x.s = some child) :
    child ∈ x.s.live ∧ child ≠ x.s.slot 0 ∧ child ≠ x.s.slot 1 := by
  obtain ⟨hp, hc0, i, hi, hi0, hslot⟩ := getTask_spec hget
  refine ⟨⟨hc0, i, hi, hslot⟩, fun heq => ?_, ?_⟩
  · exact hi0 (h.distinct i hi 0 (by decide) (by rw [hslot]; exact hc0) (hslot.trans heq))
  · rintro rfl
    exact hpid (hp.symm.trans h.initPid)

/-- **`sys_ptrace`.** -/
theorem ptrace (h : Inv x) {a : Ptrace} (hfree : x.Free cur) (hready : x.s.ready cur)
    (hok : Unfound x (.ptrace cur a)) : Inv { x with s := (sysPtrace cur a x.s).1 } := by
  obtain ⟨h0, hmem, hroot, hmode⟩ := hfree
  rcases sysPtrace_cases cur a x.s with ⟨child, s₁, hatt, hcalm, heq⟩ | ⟨child, hdet, heq⟩ | hcalm
  · obtain ⟨-, hpid, hget, -⟩ := id hatt
    obtain ⟨hc, hc0, hc1⟩ := h.getTask_live hpid hget
    have h1 : Inv { x with s := s₁ } := h.calm hcalm
    rw [heq]
    split
    · have hlive : s₁.live = x.s.live := hcalm.steady.live_eq
      have hpcs : s₁.pc cur ≠ .dead ∧ x.mode cur ≠ .newborn := by
        rw [hcalm.pc, hready.1, hmode]
        simp
      have hrelink := h1.relink (p := child) (q := cur) (by dsimp only; rw [hlive]; exact hc)
        (by dsimp only; rw [hcalm.slot]; exact hc0) (by dsimp only; rw [hcalm.slot]; exact hc1)
        (by dsimp only; rw [hlive]; exact ⟨h0, hmem⟩) (fun _ => hpcs) (hok child hatt)
      exact hrelink.calm (sendSig_calm _ _ _ _ _)
    · exact h1.calm (sendSig_calm _ _ _ _ _)
  · obtain ⟨-, hpid, hget, -, hpp, -⟩ := hdet
    obtain ⟨hc, hc0, hc1⟩ := h.getTask_live hpid hget
    -- only its parent can have found the child, and that is `cur`
    have hfound : ∀ u, x.mode u ≠ .reaping child := by
      intro u hu
      have hucur : u = cur := (h.reaping u child hu).2.2.2.symm.trans hpp
      rw [hucur, hmode] at hu
      cases hu
    have h1 : Inv { x with s := letGo child a.data x.s } :=
      h.modify ⟨rfl, rfl, rfl, rfl, rfl, rfl⟩ rfl rfl (by simp) hfound
    have hq : (x.s.task child).pOpptr ≠ x.s.slot 1 →
        x.s.pc (x.s.task child).pOpptr ≠ .dead ∧ x.mode (x.s.task child).pOpptr ≠ .newborn := by
      intro hne
      have hno := fun hd => (h.barren _ (h.opptr child hc) hne hd child hc).2 rfl
      exact ⟨fun hd => hno (.inl hd), fun hd => hno (.inr hd)⟩
    rw [heq]
    exact h1.relink hc hc0 hc1 (h.opptr child hc) hq hfound
  · exact h.calm hcalm

theorem ready_not_zombie {s : State} (h : s.ready cur) : (s.task cur).state ≠ .zombie := by
  rw [h.2]
  simp

/-- **`do_exit` starts**, for the first time or again. -/
theorem startExit (h : Inv x) (hfree : x.Free cur) (hz : (x.s.task cur).state ≠ .zombie)
    (code : Int) :
    Inv { x with s := (forgetOriginalParent cur x.s).setPc cur (.exiting code) } := by
  have hnew := forgetOriginalParent_forgot cur x.s
  obtain ⟨hforget, hno⟩ := h.forget hfree.2.2.1 hnew
  refine hforget.setPc hfree.2.2.2 (by simp) ?_ fun code' _ h1 q hq => ?_
  · dsimp only
    rw [hnew.state]
    exact hz
  · have hlive : (forgetOriginalParent cur x.s).live = x.s.live := State.live_congr hnew.slot
    dsimp only at h1 hq
    rw [hnew.slot] at h1
    rw [hlive] at hq
    exact hno h1 q hq

/-- **Signals, stops and `do_exit`.** -/
theorem event (h : Inv x) {e : Event} {s' : State} (hadm : x.admits e)
    (hs : Exit.step x.s e = some s') : Inv { x with s := s' } := by
  cases Sys.occurs hadm hs with
  | calm hc => exact h.calm hc
  | exit c code hfree hready heq =>
    rw [heq]
    exact h.startExit hfree (ready_not_zombie hready) code
  | die c code hfree hpc hinit heq =>
    rw [heq]
    exact h.exit ⟨hfree.1, hfree.2.1⟩ hfree.2.2.1 hfree.2.2.2 hpc hinit
  | clear c p hfree hpc heq =>
    have hcalm : Calm x.s (x.s.modify p fun t => { t with exitCode := 0 }) :=
      .modify ⟨rfl, rfl, rfl, rfl, rfl, rfl⟩ rfl rfl Iff.rfl
    rw [heq]
    exact (h.calm hcalm).setPc hfree.2.2.2 (by simp)
      (fun hz => hpc (h.zombie c ⟨hfree.1, hfree.2.1⟩ ((hcalm.zombie c).1 hz))) fun c hc => by cases hc
  | stop c sig hready hc =>
    have hstop : Inv { x with
        s := x.s.modify c fun t => { t with state := .stopped, exitCode := sig } } :=
      h.modify ⟨rfl, rfl, rfl, rfl, rfl, rfl⟩ rfl rfl (by simp)
        (h.not_found (ready_not_zombie hready))
    exact hstop.calm hc

theorem awake {cur : Nat} (h : Inv x) (hz : (x.s.task cur).state ≠ .zombie) :
    Inv { x with s := Exit.awake cur x.s } :=
  h.modify ⟨rfl, rfl, rfl, rfl, rfl, rfl⟩ rfl rfl (by simp) (h.not_found hz)

/-- **Every step keeps the table of tasks**, if no request attaches to a zombie that has been
found. -/
theorem step (h : Inv x) {c : Call} (hok : Unfound x c) (hs : x.step c = some x') : Inv x' := by
  cases Sys.moves hs with
  | event e s' hadm hs' => exact h.event hadm hs'
  | wait4 cur w hfree hready => exact h.tryWait hfree (ready_not_zombie hready) w
  | interrupted cur hfree hz hrun =>
    exact (h.awake hz).setPc hfree.2.2.2 (by simp) hrun fun c hc => by cases hc
  | woken cur w hfree hz hrun => exact (h.awake hz).tryWait hfree hrun w
  | reap cur p hmode => exact h.reaped hmode
  | fork cur nr p pid hfree hready hv =>
    exact h.enter ⟨hfree.1, hfree.2.1⟩ hfree.2.2.1 hfree.2.2.2 hready.1 hv
  | forkOk cur sig nr p hmode =>
    have hborn : x.mode p ≠ .none := by
      rw [(h.forking cur nr p hmode).2.2.2.2]
      simp
    have hz := h.busy_not_zombie hborn
    have hclear := h.clearFork hmode
    exact hclear.modify ⟨rfl, rfl, rfl, rfl, rfl, rfl⟩ rfl rfl (by simp) (hclear.not_found hz)
  | forkFail cur nr p hmode =>
    obtain ⟨hnr0, hnr, hslot, hp0, hborn⟩ := h.forking cur nr p hmode
    have hbusy : x.mode p ≠ .none := by
      rw [hborn]
      simp
    have hp := (h.busy p hbusy).1
    have hinit := h.newborn p hborn
    have hclear := h.clearFork hmode
    have hpc : p ≠ cur := by
      rintro rfl
      rw [hmode] at hborn
      cases hborn
    refine hclear.vacate hnr hnr0 hslot hp hinit ?_ (h.barren p hp hinit (.inr hborn))
      (hclear.not_found (h.busy_not_zombie hbusy))
    dsimp only
    rw [update_of_ne hpc, update_self]
  | again cur hfree hrun => exact h.startExit hfree (by rw [hrun]; simp) _
  | ptrace cur a hfree hready => exact h.ptrace hfree hready hok

end Inv

/-! ## The start -/

/-- After `init` has been made: `task[0]` and `init` are the only tasks. -/
structure Boot (x : Sys) : Prop where
  slots : x.s.slot 0 ≠ 0 ∧ x.s.slot 1 ≠ 0 ∧ x.s.slot 0 ≠ x.s.slot 1
  rest : ∀ i < nrTasks, 1 < i → x.s.slot i = 0
  next : (x.s.task (x.s.slot 0)).nextTask = x.s.slot 1 ∧
    (x.s.task (x.s.slot 1)).nextTask = x.s.slot 0
  prev : (x.s.task (x.s.slot 0)).prevTask = x.s.slot 1 ∧
    (x.s.task (x.s.slot 1)).prevTask = x.s.slot 0
  pptr : (x.s.task (x.s.slot 0)).pPptr = x.s.slot 0 ∧ (x.s.task (x.s.slot 1)).pPptr = x.s.slot 0
  opptr : (x.s.task (x.s.slot 0)).pOpptr = x.s.slot 0 ∧ (x.s.task (x.s.slot 1)).pOpptr = x.s.slot 0
  cptr : (x.s.task (x.s.slot 0)).pCptr = x.s.slot 1 ∧ (x.s.task (x.s.slot 1)).pCptr = 0
  siblings : (x.s.task (x.s.slot 1)).pYsptr = 0 ∧ (x.s.task (x.s.slot 1)).pOsptr = 0
  pid : (x.s.task (x.s.slot 1)).pid = 1
  state : ∀ p, (x.s.task p).state ≠ .zombie
  pc : ∀ p, x.s.pc p = .user
  mode : ∀ p, x.mode p = .none

namespace Boot

variable {x : Sys}

theorem mem_live (h : Boot x) (p : Nat) : p ∈ x.s.live ↔ p = x.s.slot 0 ∨ p = x.s.slot 1 := by
  constructor
  · rintro ⟨hp, i, hi, heq⟩
    rcases Nat.lt_trichotomy i 1 with h0 | rfl | h2
    · have : i = 0 := by omega
      subst this
      exact .inl heq.symm
    · exact .inr heq.symm
    · exact absurd (heq.symm.trans (h.rest i hi h2)) hp
  · rintro (rfl | rfl)
    · exact ⟨h.slots.1, 0, by decide, rfl⟩
    · exact ⟨h.slots.2.1, 1, by decide, rfl⟩

theorem linked (h : Boot x) :
    Linked x.s [x.s.slot 1] fun t => if t = x.s.slot 0 then [x.s.slot 1] else [] := by
  have hne := h.slots.2.2
  refine ⟨by simpa using hne, ⟨h.next.1, h.prev.2, h.next.2, h.prev.1⟩, fun p => ?_,
    fun p hp => hp.1, subset_rfl, fun t _ => ?_, fun t ht => ?_, fun t ht p => ?_⟩
  · rw [h.mem_live, List.mem_cons, List.mem_singleton]
  · split
    · exact List.nodup_singleton _
    · exact List.nodup_nil
  · rcases (h.mem_live t).1 ht with rfl | rfl
    · rw [if_pos rfl]
      exact ⟨h.cptr.1, h.slots.2.1, h.siblings.1, h.siblings.2⟩
    · rw [if_neg hne.symm]
      exact h.cptr.2
  · rw [h.mem_live]
    by_cases htr : t = x.s.slot 0
    · rw [if_pos htr, htr, List.mem_singleton]
      constructor
      · rintro rfl
        exact ⟨.inr rfl, hne.symm, h.pptr.2⟩
      · rintro ⟨hp | hp, h0, -⟩
        · exact absurd hp h0
        · exact hp
    · rw [if_neg htr]
      refine ⟨fun hmem => absurd hmem List.not_mem_nil, ?_⟩
      rintro ⟨hp | hp, h0, hpp⟩
      · exact absurd hp h0
      · rw [hp] at hpp
        exact absurd (hpp.symm.trans h.pptr.2) htr

/-- **The start** has all that the steps keep. -/
theorem inv (h : Boot x) : Inv x := by
  have hnone : ∀ {u m}, x.mode u = m → m ≠ .none → False :=
    fun hu hm => hm (hu.symm.trans (h.mode _))
  constructor
  case forest => exact ⟨_, _, h.linked⟩
  case distinct =>
    intro i hi j hj hi0 heq
    have hsmall : ∀ k < nrTasks, x.s.slot k ≠ 0 → k = 0 ∨ k = 1 := by
      intro k hk hk0
      by_contra hno
      exact hk0 (h.rest k hk (by omega))
    rcases hsmall i hi hi0 with rfl | rfl <;> rcases hsmall j hj (heq ▸ hi0) with rfl | rfl
    · rfl
    · exact absurd heq h.slots.2.2
    · exact absurd heq.symm h.slots.2.2
    · rfl
  case init => exact h.slots.2.1
  case parent =>
    intro p hp
    rw [h.mem_live] at hp ⊢
    rcases hp with rfl | rfl
    · exact .inl h.pptr.1
    · exact .inl h.pptr.2
  case opptr =>
    intro p hp
    rw [h.mem_live] at hp ⊢
    rcases hp with rfl | rfl
    · exact .inl h.opptr.1
    · exact .inl h.opptr.2
  case root => exact ⟨h.pptr.1, h.opptr.1⟩
  case initParent => exact h.pptr.2
  case initPid => exact h.pid
  case reaping => exact fun u p hu => (hnone hu (by simp)).elim
  case forking => exact fun u nr p hu => (hnone hu (by simp)).elim
  case single => exact fun u v n n' p hu => (hnone hu (by simp)).elim
  case newborn => exact fun p hp => (hnone hp (by simp)).elim
  case busy => exact fun u hu => absurd (h.mode u) hu
  case barren =>
    rintro p hp - (hd | hd)
    · rw [h.pc] at hd
      cases hd
    · exact (hnone hd (by simp)).elim
  case exiting =>
    intro p c hp
    rw [h.pc] at hp
    cases hp
  case zombie => exact fun p hp hz => absurd hz (h.state p)

end Boot

/-- `task[0]` is at 1 and `init` at 2. -/
def bootTasks : Nat → Task
  | 1 => { plainTask with nextTask := 2, prevTask := 2, pPptr := 1, pOpptr := 1, pCptr := 2 }
  | 2 => { plainTask with
      pid := 1, pgrp := 1, session := 1, nextTask := 1, prevTask := 1, pPptr := 1, pOpptr := 1 }
  | _ => plainTask

def bootSys : Sys where
  s :=
    { task := bootTasks
      slot i := if i < 2 then i + 1 else 0
      tty _ := none
      pc _ := .user
      code _ := 0 }
  mode _ := .none

theorem bootSys_boot : Boot bootSys := by
  refine ⟨by decide, fun i _ hi => if_neg (by omega), by decide, by decide, by decide, by decide,
    by decide, by decide, by decide, fun p => ?_, fun _ => rfl, fun _ => rfl⟩
  change (bootTasks p).state ≠ _
  unfold bootTasks
  split <;> decide

/-- The task `cur` makes a child and goes on. -/
def begets (cur nr p : Nat) (pid : Int) : List Call := [.fork cur nr p pid, .forkOk cur sigchld]

/-- The task exits. -/
def exits (cur : Nat) : List Call := [.event (.exit cur 0), .event (.die cur)]

end LinuxEvocation.Exit
