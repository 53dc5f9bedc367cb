import LinuxEvocation.Kernel.Exit.Steps

/-!
# The process tree

`PTRACE_ATTACH` may name an ancestor of the caller.  The links of parents then lead around a circle
that `init` is not on; when `init` has no child, `do_exit` follows a `NULL` pointer.  As long as no
task is put below itself, the links are a tree with `init` at its root.

* `Rooted` — all tasks are below `init`; `Rooted.step`.
* `Tidy` — the condition on a step.
* `Sound` — what is claimed of the tree; `tree_sound` — it holds in every run.
* `parents_alive` — no task outlives its parents.
* `tree_circle` — a task that attaches to its parent.
-/

namespace LinuxEvocation.Exit

open Function (update update_of_ne update_self)
open Forest LinkedList Transition

/-! ## Siblings -/

namespace Linked

variable {s : State} {ring : List Nat} {kids : Nat → List Nat} {p t : Nat}

theorem older (h : Linked s ring kids) (hp : p ∈ s.live) (hroot : p ≠ s.slot 0)
    (hparent : (s.task p).pPptr ∈ s.live) :
    (s.task p).pOsptr = 0 ∨ (s.task p).pOsptr ∈ s.live ∧ (s.task p).pOsptr ≠ p ∧
      (s.task (s.task p).pOsptr).pPptr = (s.task p).pPptr ∧
      (s.task (s.task p).pOsptr).pYsptr = p := by
  obtain ⟨l₁, l₂, hk⟩ := List.append_of_mem ((h.kid _ hparent p).2 ⟨hp, hroot, rfl⟩)
  have hchain := h.chain _ hparent
  have hnodup := h.kidsNodup _ hparent
  rw [hk] at hchain hnodup
  obtain ⟨-, htail, -⟩ := hchain.split
  cases l₂ with
  | nil => exact .inl htail
  | cons y l₂ =>
    have hy : (s.task p).pOsptr = y := htail.1
    have hmem : y ∈ kids (s.task p).pPptr := by
      rw [hk]
      simp
    obtain ⟨hylive, -, hypp⟩ := (h.kid _ hparent y).1 hmem
    refine .inr ?_
    rw [hy]
    refine ⟨hylive, ?_, hypp, htail.2.2.1⟩
    rintro rfl
    have hdup := (List.nodup_append.1 hnodup).2.1
    exact (List.nodup_cons.1 hdup).1 List.mem_cons_self

theorem younger (h : Linked s ring kids) (hp : p ∈ s.live) (hroot : p ≠ s.slot 0)
    (hparent : (s.task p).pPptr ∈ s.live) :
    (s.task p).pYsptr = 0 ∨ (s.task p).pYsptr ∈ s.live ∧ (s.task p).pYsptr ≠ p ∧
      (s.task (s.task p).pYsptr).pPptr = (s.task p).pPptr ∧
      (s.task (s.task p).pYsptr).pOsptr = p := by
  obtain ⟨l₁, l₂, hk⟩ := List.append_of_mem ((h.kid _ hparent p).2 ⟨hp, hroot, rfl⟩)
  have hchain := h.chain _ hparent
  have hnodup := h.kidsNodup _ hparent
  rw [hk] at hchain hnodup
  obtain ⟨-, -, hprev⟩ := hchain.split
  rcases List.eq_nil_or_concat l₁ with rfl | ⟨l, z, rfl⟩
  · exact .inl hprev
  · -- the last of those in front
    have hz : (s.task p).pYsptr = z := by
      refine Eq.trans hprev ?_
      simp
    have hmem : z ∈ kids (s.task p).pPptr := by
      rw [hk]
      simp
    obtain ⟨hzlive, -, hzpp⟩ := (h.kid _ hparent z).1 hmem
    have hchain' : DList 0 s.links.osptr s.links.ysptr 0 (s.links.cptr (s.task p).pPptr)
        (l ++ z :: (p :: l₂)) := by
      simpa using hchain
    obtain ⟨-, htail, -⟩ := hchain'.split
    refine .inr ?_
    rw [hz]
    refine ⟨hzlive, ?_, hzpp, htail.1⟩
    rintro rfl
    exact (List.nodup_append.1 hnodup).2.2 z (by simp) z List.mem_cons_self rfl

theorem firstChild (h : Linked s ring kids) (ht : t ∈ s.live) :
    (s.task t).pCptr = 0 ∨ (s.task t).pCptr ∈ s.live ∧
      (s.task (s.task t).pCptr).pPptr = t ∧ (s.task (s.task t).pCptr).pYsptr = 0 := by
  have hchain := h.chain t ht
  cases hk : kids t with
  | nil =>
    rw [hk] at hchain
    exact .inl hchain
  | cons x l =>
    rw [hk] at hchain
    have hx : (s.task t).pCptr = x := hchain.1
    have hmem : x ∈ kids t := by
      rw [hk]
      exact List.mem_cons_self
    obtain ⟨hxlive, -, hxpp⟩ := (h.kid t ht x).1 hmem
    refine .inr ?_
    rw [hx]
    exact ⟨hxlive, hxpp, hchain.2.2.1⟩

end Linked

/-! ## The root -/

/-- **All tasks are below `init`**, and so are their original parents. -/
structure Rooted (s : State) : Prop where
  below : ∀ p ∈ s.live, p ≠ s.slot 0 → Below s.links.pptr (s.slot 1) p
  opptr : ∀ p ∈ s.live, p ≠ s.slot 0 → p ≠ s.slot 1 → (s.task p).pOpptr ≠ s.slot 0

namespace Rooted

variable {x : Sys} {s s' : State} {cur p q : Nat}

theorem congr (h : Rooted s) (hpptr : s'.links.pptr = s.links.pptr)
    (hopptr : ∀ p, (s'.task p).pOpptr = (s.task p).pOpptr) (hslot : s'.slot = s.slot) :
    Rooted s' := by
  have hlive : s'.live = s.live := State.live_congr hslot
  refine ⟨fun p hp hne => ?_, fun p hp hne h1 => ?_⟩
  · rw [hpptr, hslot]
    rw [hlive] at hp
    rw [hslot] at hne
    exact h.below p hp hne
  · rw [hopptr, hslot]
    rw [hlive] at hp
    rw [hslot] at hne h1
    exact h.opptr p hp hne h1

theorem calm (h : Rooted s) (hc : Calm s s') : Rooted s' :=
  h.congr (congrArg Links.pptr hc.links) hc.opptr hc.slot

theorem modify (h : Rooted s) (p : Nat) {f : Task → Task} (hpp : ∀ t, (f t).pPptr = t.pPptr)
    (hop : ∀ t, (f t).pOpptr = t.pOpptr) : Rooted (s.modify p f) := by
  exact h.congr (funext (s.field_modify _ (hpp _))) (s.field_modify _ (hop _)) rfl

theorem setPc (h : Rooted s) (p : Nat) (v : Pc) : Rooted (s.setPc p v) :=
  h.congr rfl (fun _ => rfl) rfl

/-- Nothing is below a task that has no children. -/
theorem not_below (hI : Inv x) (hno : ∀ q ∈ x.s.live, (x.s.task q).pPptr ≠ p) (hq : q ∈ x.s.live)
    (hne : q ≠ p) : ¬ Below x.s.links.pptr p q := by
  intro hb
  induction hb with
  | refl => exact hne rfl
  | @step y _ ih => exact ih (hI.parent y hq) (hno y hq)

/-- **A task gets another parent**, one that is not below it. -/
theorem relink (h : Rooted s) {ring : List Nat} {kids : Nat → List Nat} (hl : Linked s ring kids)
    (hp : p ∈ s.live) (hroot : p ≠ s.slot 0) (hq : q ∈ s.live) (hq0 : q ≠ s.slot 0)
    (hparent : (s.task p).pPptr ∈ s.live) (hnot : ¬ Below s.links.pptr p q) :
    Rooted (relink p q s) := by
  obtain ⟨-, hpptr⟩ := hl.relink hp hroot hq hparent
  have hst := relink_steady p q s
  refine ⟨fun y hy hne => ?_, fun y hy hne h1 => ?_⟩
  · rw [hpptr, hst.slot]
    rw [hst.live_eq] at hy
    rw [hst.slot] at hne
    exact (h.below y hy hne).setParent (h.below q hq hq0) hnot
  · rw [hst.opptr, hst.slot]
    rw [hst.live_eq] at hy
    rw [hst.slot] at hne h1
    exact h.opptr y hy hne h1

/-- The children of a task that exits are the children of `init`. -/
theorem died (h : Rooted s) {ps : List Nat} (hd : Died s s' cur ps) (hreaper : s.reaper = s.slot 1) :
    Rooted s' := by
  have hlive : s'.live = s.live := State.live_congr hd.slot
  refine ⟨fun y hy hne => ?_, fun y hy hne h1 => ?_⟩
  · rw [hlive] at hy
    rw [hd.slot] at hne ⊢
    have hb := h.below y hy hne
    clear hy hne
    induction hb with
    | refl => exact .refl
    | @step z _ ih =>
      refine .step ?_
      have hz : s'.links.pptr z = if z ∈ ps then s.reaper else s.links.pptr z := hd.pptr z
      rw [hz]
      split
      · rw [hreaper]
        exact .refl
      · exact ih
  · rw [hd.opptr, hd.slot]
    rw [hlive] at hy
    rw [hd.slot] at hne h1
    exact h.opptr y hy hne h1

end Rooted

namespace Rooted

variable {x x' : Sys} {cur p : Nat}

theorem forgot {s s' : State} {ps : List Nat} (h : Rooted s) (hn : Forgot s s' cur ps)
    (hreaper : s.reaper = s.slot 1) (hne : s.slot 1 ≠ s.slot 0) : Rooted s' := by
  have hlive : s'.live = s.live := State.live_congr hn.slot
  refine ⟨fun y hy h0 => ?_, fun y hy h0 h1 => ?_⟩
  · rw [hn.links, hn.slot]
    rw [hlive] at hy
    rw [hn.slot] at h0
    exact h.below y hy h0
  · rw [hn.opptr, hn.slot]
    rw [hlive] at hy
    rw [hn.slot] at h0 h1
    split
    · rw [hreaper]
      exact hne
    · exact h.opptr y hy h0 h1

theorem vacate (h : Rooted x.s) (hI : Inv x) {i : Nat} (hi : i < nrTasks) (hi0 : i ≠ 0)
    (hi1 : i ≠ 1) (hslot : x.s.slot i = p) (hp : p ≠ 0) : Rooted (vacate i p x.s) := by
  have hst := removeLinks_steady p { x.s with slot := update x.s.slot i 0 }
  have hslot0 := vacate_slot_of_ne hi0.symm p x.s
  have hslot1 := vacate_slot_of_ne hi1.symm p x.s
  have hop : ∀ y, ((Exit.vacate i p x.s).task y).pOpptr = (x.s.task y).pOpptr := hst.opptr
  refine ⟨fun y hy h0 => ?_, fun y hy h0 h1 => ?_⟩
  · rw [vacate_live hI.distinct hi hslot hp] at hy
    rw [vacate_pptr, hslot1]
    rw [hslot0] at h0
    exact h.below y hy.1 h0
  · rw [vacate_live hI.distinct hi hslot hp] at hy
    rw [hop, hslot0]
    rw [hslot0] at h0
    rw [hslot1] at h1
    exact h.opptr y hy.1 h0 h1

theorem enter (h : Rooted x.s) (hI : Inv x) {nr : Nat} {pid : Int} (hcur : cur ∈ x.s.live)
    (hroot : cur ≠ x.s.slot 0) (hv : Vacant nr p pid x.s) :
    Rooted (enter nr p (forked cur pid x.s) x.s) := by
  have hp := hv.not_live
  obtain ⟨hnr0, hnr, hfree, hp0, -⟩ := hv
  have hne : ∀ y ∈ x.s.live, y ≠ p := by
    rintro y hy rfl
    exact hp hy
  have hnr1 : nr ≠ 1 := by
    rintro rfl
    exact hI.init hfree
  obtain ⟨ring, kids, hl⟩ := hI.forest
  obtain ⟨-, hpptr⟩ := hl.enter (t := forked cur pid x.s) hnr (by omega) hfree hp hp0 hcur rfl
    hI.parent
  have hst := setLinks_steady p { x.s with
    task := update x.s.task p (forked cur pid x.s)
    slot := update x.s.slot nr p }
  have hslot0 : (Exit.enter nr p (forked cur pid x.s) x.s).slot 0 = x.s.slot 0 := by
    rw [enter_slot, update_of_ne (by omega)]
  have hslot1 : (Exit.enter nr p (forked cur pid x.s) x.s).slot 1 = x.s.slot 1 := by
    rw [enter_slot, update_of_ne hnr1.symm]
  have hlive : (Exit.enter nr p (forked cur pid x.s) x.s).live = insert p x.s.live :=
    enter_live hnr hfree hp0
  -- the ways that are there do not go through the new task
  have hold : ∀ y ∈ x.s.live, Below x.s.links.pptr (x.s.slot 1) y →
      Below (update x.s.links.pptr p cur) (x.s.slot 1) y := by
    intro y hy hb
    induction hb with
    | refl => exact .refl
    | @step z _ ih =>
      refine .step ?_
      rw [update_of_ne (hne z hy)]
      exact ih (hI.parent z hy)
  refine ⟨fun y hy h0 => ?_, fun y hy h0 h1 => ?_⟩
  · rw [hlive] at hy
    rw [hslot0] at h0
    rw [hpptr, hslot1]
    rcases hy with rfl | hy
    · refine .step ?_
      rw [update_self]
      exact hold cur hcur (h.below cur hcur hroot)
    · exact hold y hy (h.below y hy h0)
  · rw [hlive] at hy
    rw [hslot0] at h0 ⊢
    rw [hslot1] at h1
    have hop := hst.opptr y
    rcases hy with rfl | hy
    · refine fun heq => hroot ?_
      rw [← heq]
      refine Eq.trans ?_ hop.symm
      dsimp only
      rw [update_self]
      rfl
    · refine fun heq => h.opptr y hy h0 h1 ?_
      rw [← heq]
      refine Eq.trans ?_ hop.symm
      dsimp only
      rw [update_of_ne (hne y hy)]

end Rooted

/-! ## The steps -/

/-- No request puts a task below itself, or attaches to a zombie that `sys_wait4` has found. -/
def Tidy (x : Sys) : Call → Prop
  | .ptrace cur a =>
    (∀ child, attaches cur a child x.s →
      (∀ u, x.mode u ≠ .reaping child) ∧ ¬ Below x.s.links.pptr child cur) ∧
    ∀ child, detaches cur a child x.s → ¬ Below x.s.links.pptr child (x.s.task child).pOpptr
  | _ => True

theorem Tidy.unfound {x : Sys} {c : Call} (h : Tidy x c) : Unfound x c := by
  cases c with
  | ptrace cur a => exact fun child hatt => (h.1 child hatt).1
  | _ => trivial

namespace Rooted

variable {x x' : Sys} {cur p : Nat}

theorem tryWait (h : Rooted x.s) (w : Wait) : Rooted (Sys.tryWait cur w x).s := by
  unfold Sys.tryWait
  split
  · exact h.setPc cur .user
  · unfold Exit.tryWait
    split
    · exact h.setPc _ _
    · rename_i hno _ p hscan
      exact absurd hscan (hno p)
    · split
      · split
        · exact h.setPc cur .user
        · dsimp only
          refine Rooted.setPc ?_ _ _
          exact h.modify _ (fun _ => rfl) fun _ => rfl
      · exact h.setPc cur .user

theorem event (h : Rooted x.s) (hI : Inv x) {e : Event} {s' : State} (hadm : x.admits e)
    (hs : Exit.step x.s e = some s') : Rooted s' := by
  cases Sys.occurs hadm hs with
  | calm hc => exact h.calm hc
  | exit c code _ _ heq =>
    rw [heq]
    exact (h.forgot (forgetOriginalParent_forgot c x.s) hI.reaper_eq hI.init_ne).setPc _ _
  | die c code hfree _ hinit heq =>
    obtain ⟨_, kids, -, -, hd⟩ := hI.doExit ⟨hfree.1, hfree.2.1⟩ code hinit
    rw [heq]
    exact h.died hd hI.reaper_eq
  | clear c p _ _ heq =>
    rw [heq]
    have hclear : Rooted (x.s.modify p fun t => { t with exitCode := 0 }) :=
      h.modify p (fun _ => rfl) fun _ => rfl
    exact hclear.setPc c .user
  | stop c sig _ hc =>
    have hstop : Rooted (x.s.modify c fun t => { t with state := .stopped, exitCode := sig }) :=
      h.modify c (fun _ => rfl) fun _ => rfl
    exact hstop.calm hc

theorem ptrace (h : Rooted x.s) (hI : Inv x) {a : Ptrace} (hfree : x.Free cur)
    (hok : Tidy x (.ptrace cur a)) : Rooted (sysPtrace cur a x.s).1 := by
  obtain ⟨h0, hmem, hroot, -⟩ := hfree
  rcases sysPtrace_cases cur a x.s with ⟨child, s₁, hatt, hcalm, heq⟩ | ⟨child, hdet, heq⟩ | hcalm
  · obtain ⟨-, hpid, hget, -⟩ := id hatt
    obtain ⟨hc, hc0, -⟩ := hI.getTask_live hpid hget
    obtain ⟨ring, kids, hl⟩ := (hI.calm hcalm).forest
    have h1 : Rooted s₁ := h.calm hcalm
    have hlive : s₁.live = x.s.live := hcalm.steady.live_eq
    rw [heq]
    split
    · refine Rooted.calm ?_ (sendSig_calm _ _ _ _ _)
      refine h1.relink hl (by rw [hlive]; exact hc) (by rw [hcalm.slot]; exact hc0)
        (by rw [hlive]; exact ⟨h0, hmem⟩) (by rw [hcalm.slot]; exact hroot) ?_ ?_
      · rw [hlive, hcalm.pptr_eq]
        exact hI.parent child hc
      · rw [hcalm.links]
        exact (hok.1 child hatt).2
    · exact h1.calm (sendSig_calm _ _ _ _ _)
  · obtain ⟨-, hpid, hget, -⟩ := id hdet
    obtain ⟨hc, hc0, hc1⟩ := hI.getTask_live hpid hget
    have hlinks : (letGo child a.data x.s).links = x.s.links :=
      State.links_modify_eq ⟨rfl, rfl, rfl, rfl, rfl, rfl⟩
    have h1 : Rooted (letGo child a.data x.s) := h.modify child (fun _ => rfl) fun _ => rfl
    obtain ⟨ring, kids, hl⟩ := hI.forest
    have hl1 : Linked (letGo child a.data x.s) ring kids := hl.congr hlinks rfl
    rw [heq]
    refine h1.relink hl1 hc hc0 (hI.opptr child hc) (h.opptr child hc hc0 hc1) ?_ ?_
    · rw [pptr_of_links hlinks]
      exact hI.parent child hc
    · rw [hlinks]
      exact hok.2 child hdet
  · exact h.calm hcalm

/-- **Every step that meets the condition keeps the tree.** -/
theorem step (h : Rooted x.s) (hI : Inv x) {c : Call} (hok : Tidy x c) (hs : x.step c = some x') :
    Rooted x'.s := by
  cases Sys.moves hs with
  | event e s' hadm hs' => exact h.event hI hadm hs'
  | wait4 cur w hfree hready => exact h.tryWait w
  | interrupted cur hfree hz hrun =>
    have hawake : Rooted (awake cur x.s) := h.modify cur (fun _ => rfl) fun _ => rfl
    exact hawake.setPc _ _
  | woken cur w hfree hz hrun =>
    have hawake : Rooted (awake cur x.s) := h.modify cur (fun _ => rfl) fun _ => rfl
    exact tryWait (x := { x with s := awake cur x.s }) hawake w
  | reap cur p hmode =>
    obtain ⟨hp, hroot, hz, -⟩ := hI.reaping cur p hmode
    have hinit := hI.reaping_ne hmode
    have hbarren := hI.barren p hp hinit (.inl (hI.zombie p hp hz))
    dsimp only
    rw [reap_eq]
    split
    · -- nothing is below a zombie
      obtain ⟨ring, kids, hl⟩ := hI.forest
      refine Rooted.calm ?_ (notifyParent_calm _ _)
      exact h.relink hl hp hroot (hI.opptr p hp) (h.opptr p hp hroot hinit) (hI.parent p hp)
        (not_below hI (fun q hq => (hbarren q hq).1) (hI.opptr p hp) (hbarren p hp).2)
    · obtain ⟨i, hi, hi0, hslot, heq⟩ := release_eq hp hroot
      rw [heq]
      refine h.vacate hI hi hi0 ?_ hslot hp.1
      rintro rfl
      exact hinit hslot.symm
  | fork cur nr p pid hfree hready hv =>
    exact (h.enter hI ⟨hfree.1, hfree.2.1⟩ hfree.2.2.1 hv).setPc _ _
  | forkOk cur sig nr p hmode =>
    dsimp only
    exact h.modify p (fun _ => rfl) fun _ => rfl
  | forkFail cur nr p hmode =>
    obtain ⟨hnr0, hnr, hslot, hp0, hborn⟩ := hI.forking cur nr p hmode
    refine h.vacate hI hnr hnr0 ?_ hslot hp0
    rintro rfl
    exact hI.newborn p hborn hslot.symm
  | again cur hfree hrun =>
    exact (h.forgot (forgetOriginalParent_forgot cur x.s) hI.reaper_eq hI.init_ne).setPc _ _
  | ptrace cur a hfree hready => exact h.ptrace hI hfree hok

end Rooted

theorem Boot.rooted {x : Sys} (h : Boot x) : Rooted x.s := by
  refine ⟨fun p hp h0 => ?_, fun p hp h0 h1 => ?_⟩
  · rw [((h.mem_live p).1 hp).resolve_left h0]
    exact .refl
  · exact absurd (((h.mem_live p).1 hp).resolve_left h0) h1

/-! ## What is claimed of the tree -/

/-- **The process tree**: what `audit_ptree` checks, the chains of children, the way to `init` or
`task[0]`, the circle of all tasks, and the loop of `do_exit`. -/
structure Sound (s : State) : Prop where
  audit : auditPtree s = []
  chain : ∀ t ∈ s.live, ∃ kids : List Nat, kids.Nodup ∧
    DList 0 (fun p => (s.task p).pOsptr) (fun p => (s.task p).pYsptr) 0 (s.task t).pCptr kids ∧
    ∀ p, p ∈ kids ↔ p ∈ s.live ∧ p ≠ s.slot 0 ∧ (s.task p).pPptr = t
  ancestor : ∀ p ∈ s.live, Below (fun q => (s.task q).pPptr) (s.slot 1) p ∨
    Below (fun q => (s.task q).pPptr) (s.slot 0) p
  ring : ∃ ring : List Nat, (s.slot 0 :: ring).Nodup ∧
    Circle (fun p => (s.task p).nextTask) (fun p => (s.task p).prevTask) (s.slot 0 :: ring) ∧
    ∀ p, p ∈ s.slot 0 :: ring ↔ p ∈ s.live
  safe : ∀ cur ∈ s.live, cur ≠ s.slot 0 → cur ≠ s.slot 1 → ∀ code, exitSafe cur code s = true

theorem badTaskPtr_eq_false {s : State} {p : Nat} (h : p = 0 ∨ p ∈ s.live) :
    badTaskPtr p s = false := by
  unfold badTaskPtr
  rcases h with rfl | ⟨-, i, hi, heq⟩
  · rfl
  · have hall : (List.range nrTasks).all (fun i => decide (s.slot i ≠ p)) = false := by
      rw [List.all_eq_false]
      exact ⟨i, List.mem_range.2 hi, by simpa using heq⟩
    rw [hall, Bool.and_false]

section Rooted

variable {x : Sys} {p cur : Nat}

theorem Rooted.pptr_ne (h : Rooted x.s) (hI : Inv x) (hp : p ∈ x.s.live) (hroot : p ≠ x.s.slot 0) :
    (x.s.task p).pPptr ≠ p := by
  intro heq
  have hb := h.below p hp hroot
  -- a way that stays where it is leads to `init` only from there
  have hstay : ∀ y, Below x.s.links.pptr (x.s.slot 1) y → y = p → p = x.s.slot 1 := by
    intro y hy
    induction hy with
    | refl => exact fun hyp => hyp.symm
    | @step z _ ih =>
      rintro rfl
      exact ih heq
  have hp1 := hstay p hb rfl
  rw [hp1, hI.initParent] at heq
  exact hI.init_ne heq.symm

/-- **No warning** for a task. -/
theorem auditTask_nil (h : Rooted x.s) (hI : Inv x) (hp : p ∈ x.s.live) (hroot : p ≠ x.s.slot 0) :
    auditTask p x.s = [] := by
  obtain ⟨ring, kids, hl⟩ := hI.forest
  have hparent := hI.parent p hp
  have hself := h.pptr_ne hI hp hroot
  have hp0 : p ≠ 0 := hp.1
  have h1 := badTaskPtr_eq_false (.inr hparent)
  have h2 : badTaskPtr (x.s.task p).pCptr x.s = false :=
    badTaskPtr_eq_false ((hl.firstChild hp).imp_right fun hc => hc.1)
  have h3 : badTaskPtr (x.s.task p).pYsptr x.s = false :=
    badTaskPtr_eq_false ((hl.younger hp hroot hparent).imp_right fun hc => hc.1)
  have h4 : badTaskPtr (x.s.task p).pOsptr x.s = false :=
    badTaskPtr_eq_false ((hl.older hp hroot hparent).imp_right fun hc => hc.1)
  have hcptr : (x.s.task p).pCptr ≠ p := by
    intro heq
    rcases hl.firstChild hp with hz | ⟨-, hpp, -⟩
    · exact hp0 (heq.symm.trans hz)
    · rw [heq] at hpp
      exact hself hpp
  have hys : (x.s.task p).pYsptr ≠ p := by
    rcases hl.younger hp hroot hparent with hz | hz
    · rw [hz]
      exact hp0.symm
    · exact hz.2.1
  have hos : (x.s.task p).pOsptr ≠ p := by
    rcases hl.older hp hroot hparent with hz | hz
    · rw [hz]
      exact hp0.symm
    · exact hz.2.1
  have hos' := hl.older hp hroot hparent
  have hys' := hl.younger hp hroot hparent
  have hc' := hl.firstChild hp
  have h9 : ¬ ((x.s.task p).pOsptr ≠ 0 ∧
      (x.s.task p).pPptr ≠ (x.s.task (x.s.task p).pOsptr).pPptr) := by
    rintro ⟨hne, hd⟩
    exact hd (hos'.resolve_left hne).2.2.1.symm
  have h10 : ¬ ((x.s.task p).pOsptr ≠ 0 ∧ (x.s.task (x.s.task p).pOsptr).pYsptr ≠ p) := by
    rintro ⟨hne, hd⟩
    exact hd (hos'.resolve_left hne).2.2.2
  have h11 : ¬ ((x.s.task p).pYsptr ≠ 0 ∧
      (x.s.task p).pPptr ≠ (x.s.task (x.s.task p).pYsptr).pPptr) := by
    rintro ⟨hne, hd⟩
    exact hd (hys'.resolve_left hne).2.2.1.symm
  have h12 : ¬ ((x.s.task p).pYsptr ≠ 0 ∧ (x.s.task (x.s.task p).pYsptr).pOsptr ≠ p) := by
    rintro ⟨hne, hd⟩
    exact hd (hys'.resolve_left hne).2.2.2
  have h13 : ¬ ((x.s.task p).pCptr ≠ 0 ∧ (x.s.task (x.s.task p).pCptr).pPptr ≠ p) := by
    rintro ⟨hne, hd⟩
    exact hd (hc'.resolve_left hne).2.1
  have h14 : ¬ ((x.s.task p).pCptr ≠ 0 ∧ (x.s.task (x.s.task p).pCptr).pYsptr ≠ 0) := by
    rintro ⟨hne, hd⟩
    exact hd (hc'.resolve_left hne).2.2
  unfold auditTask
  dsimp only
  rw [h1, h2, h3, h4, decide_eq_false hself, decide_eq_false hcptr, decide_eq_false hys,
    decide_eq_false hos, decide_eq_false h9, decide_eq_false h10, decide_eq_false h11,
    decide_eq_false h12, decide_eq_false h13, decide_eq_false h14]
  rfl

theorem auditPtree_nil (h : Rooted x.s) (hI : Inv x) : auditPtree x.s = [] := by
  unfold auditPtree
  rw [List.flatMap_eq_nil_iff]
  intro p hp
  obtain ⟨hmem, hp0⟩ := List.mem_filter.1 hp
  obtain ⟨i, hi, hslot⟩ := List.mem_map.1 hmem
  rw [List.mem_range'] at hi
  obtain ⟨k, hk, rfl⟩ := hi
  rw [decide_eq_true_eq] at hp0
  have hlt : 1 + 1 * k < nrTasks := by
    unfold nrTasks at hk ⊢
    omega
  have hroot : p ≠ x.s.slot 0 := by
    intro heq
    have := hI.distinct _ hlt 0 (by decide) (by rw [hslot]; exact hp0) (hslot.trans heq)
    omega
  rw [auditTask_nil h hI ⟨hp0, _, hlt, hslot⟩ hroot, List.map_nil]

/-- The loop is safe as long as `init` has a child. -/
theorem childrenSafe_of_child (fuel : Nat) {s : State} (hne : cur ≠ s.reaper)
    (hchild : (s.task s.reaper).pCptr ≠ 0) : childrenSafe cur fuel s = true := by
  induction fuel generalizing s with
  | zero => rfl
  | succ fuel ih =>
    unfold childrenSafe
    dsimp only
    split
    · rfl
    · rename_i hp
      have holder : ((s.modify cur fun t =>
          { t with pCptr := (s.task (s.task cur).pCptr).pOsptr }).task s.reaper).pCptr =
          (s.task s.reaper).pCptr := by
        rw [State.task_modify_of_ne s _ hne.symm]
      obtain ⟨hst, hlinks⟩ := exitChild_links (p := (s.task cur).pCptr) hne
      have hnext : ((exitChild cur (s.task cur).pCptr s).task s.reaper).pCptr =
          (s.task cur).pCptr := by
        have hc := congrFun (congrArg Links.cptr hlinks) s.reaper
        refine Eq.trans hc ?_
        show update (update s.links.cptr cur
          (s.links.osptr (s.task cur).pCptr)) s.reaper (s.task cur).pCptr s.reaper = _
        exact update_self _ _ _
      rw [holder, decide_eq_true hchild, Bool.true_and]
      refine ih ?_ ?_
      · rw [hst.reaper_eq]
        exact hne
      · rw [hst.reaper_eq, hnext]
        exact hp

/-- `init` has a child if there is another task. -/
theorem Rooted.init_child (h : Rooted x.s) (hI : Inv x) (hcur : cur ∈ x.s.live)
    (hroot : cur ≠ x.s.slot 0) (hinit : cur ≠ x.s.slot 1) :
    (x.s.task (x.s.slot 1)).pCptr ≠ 0 := by
  obtain ⟨ring, kids, hl⟩ := hI.forest
  -- the last task on the way to `init`
  have hlast : ∀ y, Below x.s.links.pptr (x.s.slot 1) y → y ∈ x.s.live → y ≠ x.s.slot 0 →
      y ≠ x.s.slot 1 → ∃ z ∈ x.s.live, z ≠ x.s.slot 0 ∧ (x.s.task z).pPptr = x.s.slot 1 := by
    intro y hy
    induction hy with
    | refl => exact fun _ _ hne => absurd rfl hne
    | @step z hz ih =>
      intro hlive h0 _
      by_cases hz1 : (x.s.task z).pPptr = x.s.slot 1
      · exact ⟨z, hlive, h0, hz1⟩
      · refine ih (hI.parent z hlive) ?_ hz1
        intro hz0
        -- the way from `task[0]` does not lead to `init`
        have hstay : ∀ y, Below x.s.links.pptr (x.s.slot 1) y → y = x.s.slot 0 → False := by
          intro y hy
          induction hy with
          | refl => exact hI.init_ne
          | @step w _ ihw =>
            rintro rfl
            exact ihw hI.root.1
        exact hstay _ hz hz0
  obtain ⟨z, hz, hz0, hpp⟩ := hlast cur (h.below cur hcur hroot) hcur hroot hinit
  intro hzero
  have hnil := (hl.cptr_eq_null hI.init_mem).1 hzero
  have hmem := (hl.kid _ hI.init_mem z).2 ⟨hz, hz0, hpp⟩
  rw [hnil] at hmem
  exact absurd hmem List.not_mem_nil

/-- **The loop of `do_exit` follows no `NULL` pointer.** -/
theorem exitSafe_of_rooted (h : Rooted x.s) (hI : Inv x) (hcur : cur ∈ x.s.live)
    (hroot : cur ≠ x.s.slot 0) (hinit : cur ≠ x.s.slot 1) (code : Int) :
    exitSafe cur code x.s = true := by
  obtain ⟨hd, hlinks⟩ := exitNotified_died cur code x.s
  have hreaper : (exitNotified cur code x.s).reaper = x.s.slot 1 := by
    rw [← hI.reaper_eq]
    unfold State.reaper
    rw [hd.slot]
  refine childrenSafe_of_child nrTasks ?_ ?_
  · rw [hreaper]
    exact hinit
  · rw [hreaper]
    have hc := congrFun (congrArg Links.cptr hlinks) (x.s.slot 1)
    exact fun hz => h.init_child hI hcur hroot hinit (hc.symm.trans hz)

theorem Rooted.sound (h : Rooted x.s) (hI : Inv x) : Sound x.s := by
  obtain ⟨ring, kids, hl⟩ := hI.forest
  refine ⟨auditPtree_nil h hI, fun t ht => ⟨kids t, hl.kidsNodup t ht, hl.chain t ht, hl.kid t ht⟩,
    fun p hp => ?_, ⟨ring, hl.nodup, hl.circle, hl.mem⟩,
    fun cur hcur h0 h1 code => exitSafe_of_rooted h hI hcur h0 h1 code⟩
  by_cases h0 : p = x.s.slot 0
  · rw [h0]
    exact .inr .refl
  · exact .inl (h.below p hp h0)

end Rooted

/-- **The process tree is sound in every run** in which no request puts a task below itself or
attaches to a zombie that `sys_wait4` has found. -/
theorem tree_sound {x₀ x : Sys} (h0 : Boot x₀) (hx : Reach Sys.step Tidy x₀ x) : Sound x.s := by
  have hinv : Inv x ∧ Rooted x.s := by
    refine hx.invariant (I := fun x => Inv x ∧ Rooted x.s) ⟨h0.inv, h0.rooted⟩ ?_
    rintro y c y' ⟨hI, hR⟩ hok hs
    exact ⟨hI.step hok.unfound hs, hR.step hI hok hs⟩
  exact hinv.2.sound hinv.1

/-- A task with a child exits, and the child is given to `init`. -/
theorem tree_sound_orphan :
    ∃ x, Boot bootSys ∧ Reach Sys.step Tidy bootSys x ∧ (x.s.task 4).pPptr = 2 ∧ Sound x.s := by
  have hok : ∀ (x : Sys) (c : Call), (match c with | .ptrace _ _ => false | _ => true) = true →
      Tidy x c := by
    intro x c hc
    cases c with
    | ptrace cur a => cases hc
    | _ => trivial
  have hrun : (execOkFrom Sys.step (fun _ c => match c with | .ptrace _ _ => false | _ => true)
      bootSys (begets 2 2 3 2 ++ begets 3 3 4 3 ++ exits 3)).map
        (fun x => (x.s.task 4).pPptr) = some 2 := by
    decide +kernel
  obtain ⟨x, hx, hpp⟩ := Option.map_eq_some_iff.1 hrun
  have hreach := Reach.of_execOkFrom hok .init hx
  exact ⟨x, bootSys_boot, hreach, hpp, tree_sound bootSys_boot hreach⟩

/-- **A task's parents are alive**, if no request attaches to a zombie that has been found: both
are in `task[]`, and one that has exited is `init`.  What two tasks in `sys_wait4` have found is not
the same zombie. -/
theorem parents_alive {x₀ x : Sys} (h0 : Boot x₀) (hx : Reach Sys.step Unfound x₀ x) :
    (∀ q ∈ x.s.live, ∀ p, p = (x.s.task q).pPptr ∨ p = (x.s.task q).pOpptr →
      p ∈ x.s.live ∧ (x.s.pc p = .dead → p = x.s.slot 1)) ∧
    ∀ u v p, x.mode u = .reaping p → x.mode v = .reaping p →
      u = v ∧ p ∈ x.s.live ∧ (x.s.task p).state = .zombie := by
  have hI : Inv x := hx.invariant h0.inv fun _ _ _ hI hok hs => hI.step hok hs
  refine ⟨fun q hq p hp => ?_, fun u v p hu hv => ?_⟩
  · have hlive : p ∈ x.s.live := by
      rcases hp with rfl | rfl
      · exact hI.parent q hq
      · exact hI.opptr q hq
    refine ⟨hlive, fun hdead => by_contra fun hne => ?_⟩
    obtain ⟨hpp, hop⟩ := hI.barren p hlive hne (.inl hdead) q hq
    exact hp.elim (fun h => hpp h.symm) fun h => hop h.symm
  · obtain ⟨hlive, -, hz, hpu⟩ := hI.reaping u p hu
    exact ⟨hpu.symm.trans (hI.reaping v p hv).2.2.2, hlive, hz⟩

/-- A task exits before its child, and is found. -/
theorem parents_alive_orphan :
    ∃ x, Boot bootSys ∧ Reach Sys.step Unfound bootSys x ∧ 4 ∈ x.s.live ∧ x.s.pc 3 = .dead ∧
      x.mode 2 = .reaping 3 ∧ (x.s.task 4).pPptr ≠ 3 ∧ (x.s.task 3).state = .zombie := by
  have hrun : (execOkFrom Sys.step (fun _ c => match c with | .ptrace _ _ => false | _ => true)
      bootSys (begets 2 2 3 2 ++ begets 3 3 4 3 ++ exits 3 ++
        [.wait4 2 ⟨-1, true, false, false, false⟩])).map (fun x => decide (x.s.slot 3 = 4 ∧
          x.s.pc 3 = .dead ∧ x.mode 2 = .reaping 3 ∧ x.s.slot 1 ≠ 3)) = some true := by
    decide +kernel
  obtain ⟨x, hx, hval⟩ := Option.map_eq_some_iff.1 hrun
  obtain ⟨h4, hdead, hmode, hinit⟩ := of_decide_eq_true hval
  have hreach : Reach Sys.step Unfound bootSys x := by
    refine .of_execOkFrom (fun x c hc => ?_) .init hx
    cases c with
    | ptrace cur a => cases hc
    | _ => trivial
  have hlive : 4 ∈ x.s.live := ⟨by decide, 3, by decide, h4⟩
  obtain ⟨hparents, hfound⟩ := parents_alive bootSys_boot hreach
  exact ⟨x, bootSys_boot, hreach, hlive, hdead, hmode,
    fun h3 => hinit ((hparents 4 hlive 3 (.inl h3.symm)).2 hdead).symm, (hfound 2 2 3 hmode hmode).2.2⟩

/-- **A task attaches to its parent.**  The two are each other's parents, `init` has no child, and
when the task exits `do_exit` follows a `NULL` pointer. -/
theorem tree_circle :
    ∃ x, Boot bootSys ∧ Reach Sys.step anyStep bootSys x ∧
      (x.s.task 3).pPptr = 4 ∧ (x.s.task 4).pPptr = 3 ∧ x.s.pc 4 = .exiting 0 ∧
      exitSafe 4 0 x.s = false ∧ ¬ Sound x.s := by
  have hrun : (execFrom Sys.step bootSys (begets 2 2 3 2 ++ begets 3 3 4 3 ++
      [.ptrace 4 ⟨.attach, 2, 0, true, 0⟩, .event (.exit 4 0)])).map
        (fun x => ([(x.s.task 3).pPptr, (x.s.task 4).pPptr, x.s.slot 0, x.s.slot 1, x.s.slot 3],
          decide (x.s.pc 4 = .exiting 0), exitSafe 4 0 x.s)) =
      some ([4, 3, 1, 2, 4], true, false) := by
    decide +kernel
  obtain ⟨x, hx, hval⟩ := Option.map_eq_some_iff.1 hrun
  simp only [Prod.mk.injEq, List.cons.injEq, and_true, decide_eq_true_eq] at hval
  obtain ⟨⟨h3, h4, h0, h1, hslot⟩, hpc, hsafe⟩ := hval
  refine ⟨x, bootSys_boot, .of_execFrom .init hx, h3, h4, hpc, hsafe, fun hsound => ?_⟩
  have hlive : 4 ∈ x.s.live := ⟨by decide, 3, by decide, hslot⟩
  have hs := hsound.safe 4 hlive (by rw [h0]; decide) (by rw [h1]; decide) 0
  rw [hsafe] at hs
  cases hs

end LinuxEvocation.Exit
