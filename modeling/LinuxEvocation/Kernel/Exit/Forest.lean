import LinuxEvocation.Kernel.Exit.Links

/-!
# The tasks as a forest

The tasks in `task[]` are the nodes of a forest, with `task[0]` for the root of the circle.

* `Linked` — the forest; `Linked.tasks_eq`, `Linked.children_eq` — what the loops over all tasks and
  over the children visit.
* `Linked.relink`, `Linked.exitChildren` — a task gets another parent; the children of a task that
  exits are given to `init`.
* `Linked.vacate`, `Linked.enter` — a task leaves `task[]`, or enters it.
-/

namespace LinuxEvocation.Exit

open Function (update update_of_ne update_self)
open Forest LinkedList

/-! ## The forest -/

/-- The tasks in `task[]`. -/
def State.live (s : State) : Set Nat := {p | p ≠ 0 ∧ ∃ i < nrTasks, s.slot i = p}

/-- The tasks in `task[]` are the nodes of a forest. -/
def Linked (s : State) (ring : List Nat) (kids : Nat → List Nat) : Prop :=
  WF 0 (s.slot 0) s.live s.live ring kids (fun _ => 0) s.links

theorem State.live_congr {s s' : State} (h : s'.slot = s.slot) : s'.live = s.live := by
  unfold State.live
  rw [h]

theorem Steady.live_eq {s s' : State} (h : Steady s s') : s'.live = s.live := State.live_congr h.slot

theorem Linked.congr {s s' : State} {ring : List Nat} {kids : Nat → List Nat}
    (h : Linked s ring kids) (hlinks : s'.links = s.links) (hslot : s'.slot = s.slot) :
    Linked s' ring kids := by
  unfold Linked
  rw [hslot, State.live_congr hslot, hlinks]
  exact h

theorem Calm.linked {s s' : State} (h : Calm s s') {ring : List Nat} {kids : Nat → List Nat}
    (hl : Linked s ring kids) : Linked s' ring kids := hl.congr h.links h.slot

theorem pptr_of_links {s s' : State} (h : s'.links = s.links) (p : Nat) :
    (s'.task p).pPptr = (s.task p).pPptr := congrFun (congrArg Links.pptr h) p

theorem Calm.pptr_eq {s s' : State} (h : Calm s s') (p : Nat) :
    (s'.task p).pPptr = (s.task p).pPptr :=
  pptr_of_links h.links p

/-- Different tasks are in different places. -/
theorem length_le_nrTasks {s : State} {l : List Nat} (hnodup : l.Nodup)
    (hl : ∀ p ∈ l, p ∈ s.live) : l.length ≤ nrTasks := by
  have hsub : l ⊆ (List.range nrTasks).map s.slot := by
    intro p hp
    obtain ⟨-, i, hi, heq⟩ := hl p hp
    exact List.mem_map.2 ⟨i, List.mem_range.2 hi, heq⟩
  have hle := (List.subperm_of_subset hnodup hsub).length_le
  rwa [List.length_map, List.length_range] at hle

theorem walk_seg {next : Nat → Nat} {last p fuel : Nat} {l : List Nat} (h : Seg next p l last)
    (hlast : last ∉ l) (hfuel : l.length ≤ fuel) : walk next last fuel p = l := by
  induction l generalizing p fuel with
  | nil =>
    cases fuel with
    | zero => rfl
    | succ fuel =>
      have hp : p = last := h
      unfold walk
      rw [if_pos hp]
  | cons x l ih =>
    cases fuel with
    | zero => exact absurd hfuel (by simp)
    | succ fuel =>
      unfold walk
      have hx : p ≠ last := by
        rintro rfl
        exact hlast (h.1 ▸ List.mem_cons_self)
      rw [if_neg hx, h.1, ih h.2 (fun hmem => hlast (List.mem_cons_of_mem x hmem))
        (Nat.le_of_succ_le_succ hfuel)]

theorem path_seg {next prev : Nat → Nat} {a b : Nat} {l : List Nat} (h : Path next prev a l b) :
    Seg next (next a) l b := by
  induction l generalizing a with
  | nil => exact h.1
  | cons x l ih => exact ⟨h.1, ih h.2.2⟩

namespace Linked

variable {s s' : State} {ring : List Nat} {kids : Nat → List Nat} {p q cur : Nat}

/-- **What `for_each_task` visits.** -/
theorem tasks_eq (h : Linked s ring kids) : s.tasks = ring := by
  have hnodup := List.nodup_cons.1 h.nodup
  refine walk_seg (path_seg h.circle) hnodup.1 ?_
  exact length_le_nrTasks hnodup.2 fun p hp => (h.mem p).1 (List.mem_cons_of_mem _ hp)

/-- **The children that `sys_wait4` visits.** -/
theorem children_eq (h : Linked s ring kids) (hp : p ∈ s.live) : s.children p = kids p := by
  refine walk_seg (h.chain p hp).threads.seg ?_ ?_
  · exact fun hmem => h.kid_nonnull hp hmem rfl
  · exact length_le_nrTasks (h.kidsNodup p hp) fun x hx => ((h.kid p hp x).1 hx).1

theorem mem_tasks (h : Linked s ring kids) : p ∈ s.tasks ↔ p ∈ s.live ∧ p ≠ s.slot 0 := by
  rw [h.tasks_eq, ← h.mem p, List.mem_cons]
  constructor
  · intro hp
    refine ⟨.inr hp, ?_⟩
    rintro rfl
    exact (List.nodup_cons.1 h.nodup).1 hp
  · rintro ⟨hp | hp, hne⟩
    · exact absurd hp hne
    · exact hp

theorem mem_children (h : Linked s ring kids) (hp : p ∈ s.live) :
    q ∈ s.children p ↔ q ∈ s.live ∧ q ≠ s.slot 0 ∧ (s.task q).pPptr = p := by
  rw [h.children_eq hp]
  exact h.kid p hp q

end Linked

/-! ## The operations on the forest -/

/-- A task gets another parent. -/
def relink (p q : Nat) (s : State) : State :=
  setLinks p ((removeLinks p s).modify p fun t => { t with pPptr := q })

theorem relink_steady (p q : Nat) (s : State) : Steady s (relink p q s) := by
  have hstore : Steady s ((removeLinks p s).modify p fun t => { t with pPptr := q }) :=
    (removeLinks_steady p s).andStore p fun _ => ⟨rfl, rfl, rfl⟩
  unfold relink
  exact hstore.trans (setLinks_steady p _)

/-- The children of the task `cur` are now those of `init`. -/
structure Adopted (s s' : State) (cur : Nat) (ps : List Nat) : Prop where
  steady : Steady s s'
  pptr : ∀ q, (s'.task q).pPptr = if q ∈ ps then s.reaper else (s.task q).pPptr

theorem exitChild_links {cur p : Nat} {s : State} (hcur : cur ≠ s.reaper) :
    Steady s (exitChild cur p s) ∧ (exitChild cur p s).links = s.links.adopt 0 cur s.reaper p := by
  unfold exitChild
  extract_lets s₁ s₂
  have h1 : Steady s s₁ := reparent_steady cur p s
  have hl1 : s₁.links = s.links.adopt 0 cur s.reaper p := links_reparent hcur
  have h2 : Calm s₁ s₂ := by
    show Calm s₁ (if _ then _ else s₁)
    split
    · exact notifyParent_calm p s₁
    · exact .refl s₁
  have h3 : Calm s₂ (if s₂.orphans p cur then hupCont cur (s₂.task p).pgrp s₂ else s₂) := by
    split
    · exact hupCont_calm _ _ s₂
    · exact .refl s₂
  have h := h2.trans h3
  exact ⟨h1.trans h.steady, h.links.trans hl1⟩

theorem Steady.reaper_eq {s s' : State} (h : Steady s s') : s'.reaper = s.reaper := by
  unfold State.reaper
  rw [h.slot]

namespace Linked

variable {s s' : State} {ring : List Nat} {kids : Nat → List Nat} {p q cur : Nat}

/-- **A task gets another parent**, and is its youngest child. -/
theorem relink (h : Linked s ring kids) (hp : p ∈ s.live) (hroot : p ≠ s.slot 0) (hq : q ∈ s.live)
    (hparent : (s.task p).pPptr ∈ s.live) :
    (∃ ring' kids', Linked (relink p q s) ring' kids') ∧
      (Exit.relink p q s).links.pptr = update s.links.pptr p q := by
  have hremove := WF.remove h hp hroot hparent
  rw [← links_removeLinks] at hremove
  have hset := hremove.setParent (p := p) (fun hmem => hmem.2 rfl) q
  rw [← links_pPptr] at hset
  have hst : Steady s ((removeLinks p s).modify p fun t => { t with pPptr := q }) :=
    (removeLinks_steady p s).andStore p fun _ => ⟨rfl, rfl, rfl⟩
  generalize hs₂ : (removeLinks p s).modify p (fun t => { t with pPptr := q }) = s₂ at hset hst
  have hpp : s₂.links.pptr = update s.links.pptr p q := by
    rw [← hs₂, links_pPptr, links_removeLinks]
    rfl
  have hpq : s₂.links.pptr p = q := by rw [hpp, update_self]
  have hne : p ≠ s₂.slot 0 := by rwa [hst.slot]
  have hadd := hset.add (fun hmem => hmem.2 rfl) hp (by rw [hpq]; exact hq)
  have heq : Exit.relink p q s = setLinks p s₂ := by rw [← hs₂]; rfl
  have hlinks : (Exit.relink p q s).links = s₂.links.add 0 (s.slot 0) p := by
    rw [heq, links_setLinks hne, hst.slot]
  have hlive : insert p (s.live \ {p}) = s.live := by
    rw [Set.insert_sdiff_singleton, Set.insert_eq_of_mem hp]
  rw [hlive, ← hlinks, ← (relink_steady p q s).slot] at hadd
  rw [← (relink_steady p q s).live_eq] at hadd
  refine ⟨⟨_, _, hadd⟩, ?_⟩
  rw [hlinks]
  exact hpp

/-- **The loop over the children**: they are all given to `init`. -/
theorem exitChildren_aux (hcur : cur ∈ s.live) (hreaper : s.reaper ∈ s.live)
    (hne : cur ≠ s.reaper) {first : Nat → Nat} (hfirst : first s.reaper = 0)
    (hother : ∀ t, t ≠ cur → first t = 0)
    (h : WF 0 (s.slot 0) s.live s.live ring kids first s.links) (fuel : Nat)
    (hfuel : (kids cur).length ≤ fuel) :
    (∃ kids', Linked (exitChildren cur fuel s) ring kids' ∧ kids' cur = []) ∧
      Adopted s (exitChildren cur fuel s) cur (kids cur) := by
  induction fuel generalizing s kids first with
  | zero =>
    have hnil : kids cur = [] := List.length_eq_zero_iff.1 (Nat.le_zero.1 hfuel)
    refine ⟨⟨kids, h.setFirst fun t ht hk => ?_, hnil⟩, .refl s, fun q => ?_⟩
    · refine (hother t ?_).symm
      rintro rfl
      exact hk hnil
    · rw [hnil]
      simp [exitChildren]
  | succ fuel ih =>
    unfold exitChildren
    dsimp only
    have hzero : (s.task cur).pCptr = 0 ↔ kids cur = [] := h.cptr_eq_null hcur
    by_cases hnil : kids cur = []
    · rw [if_pos (hzero.2 hnil)]
      refine ⟨⟨kids, h.setFirst fun t ht hk => ?_, hnil⟩, .refl s, fun q => ?_⟩
      · refine (hother t ?_).symm
        rintro rfl
        exact hk hnil
      · rw [hnil]
        simp
    · obtain ⟨p, l, hk⟩ := List.exists_cons_of_ne_nil hnil
      have hhead : (s.task cur).pCptr = p := h.cptr_eq_head hcur hk
      rw [if_neg (fun h0 => hnil (hzero.1 h0)), hhead]
      obtain ⟨hst, hlinks⟩ := exitChild_links (p := p) hne
      have hadopt := h.adopt hcur hreaper hne.symm hk hfirst
      rw [← hlinks, ← hst.slot, ← hst.live_eq] at hadopt
      have hkids : update (update kids cur l) s.reaper (p :: kids s.reaper) cur
          = l := by
        rw [update_of_ne hne, update_self]
      have hlen : l.length ≤ fuel := by
        rw [hk, List.length_cons] at hfuel
        exact Nat.le_of_succ_le_succ hfuel
      have hrec := ih (s := exitChild cur p s) (by rwa [hst.live_eq])
        (by rwa [hst.live_eq, hst.reaper_eq]) (by rwa [hst.reaper_eq])
        (by rw [hst.reaper_eq, update_of_ne hne.symm]; exact hfirst)
        (fun t ht => by rw [update_of_ne ht]; exact hother t ht) hadopt
        (by rw [hkids]; exact hlen)
      rw [hkids] at hrec
      refine ⟨hrec.1, hst.trans hrec.2.steady, fun q => ?_⟩
      rw [hrec.2.pptr q, hst.reaper_eq, hk]
      have hpp : ((exitChild cur p s).task q).pPptr =
          update s.links.pptr p s.reaper q := by
        show (exitChild cur p s).links.pptr q = _
        rw [hlinks]
        rfl
      rw [hpp]
      by_cases hql : q ∈ l
      · rw [if_pos hql, if_pos (List.mem_cons_of_mem p hql)]
      · rw [if_neg hql]
        by_cases hqp : q = p
        · rw [hqp, update_self, if_pos List.mem_cons_self]
        · rw [update_of_ne hqp, if_neg (by simp [hqp, hql])]
          rfl

theorem exitChildren (h : Linked s ring kids) (hcur : cur ∈ s.live) (hreaper : s.reaper ∈ s.live)
    (hne : cur ≠ s.reaper) :
    (∃ kids', Linked (exitChildren cur nrTasks s) ring kids' ∧ kids' cur = []) ∧
      Adopted s (Exit.exitChildren cur nrTasks s) cur (kids cur) :=
  exitChildren_aux hcur hreaper hne rfl (fun _ _ => rfl) h nrTasks
    (length_le_nrTasks (h.kidsNodup cur hcur) fun x hx => ((h.kid cur hcur x).1 hx).1)

end Linked

/-! ## Tasks that come and go -/

/-- Different places of `task[]` have different tasks. -/
def Distinct (s : State) : Prop :=
  ∀ i < nrTasks, ∀ j < nrTasks, s.slot i ≠ 0 → s.slot i = s.slot j → i = j

theorem Distinct.congr {s s' : State} (h : Distinct s) (hslot : s'.slot = s.slot) :
    Distinct s' := by
  unfold Distinct
  rw [hslot]
  exact h

/-- A place in `task[]` is given up, and the links of its task. -/
def vacate (i p : Nat) (s : State) : State :=
  removeLinks p { s with slot := update s.slot i 0 }

/-- `release` gives up the place of the task. -/
theorem release_eq {p : Nat} {s : State} (hp : p ∈ s.live) (hroot : p ≠ s.slot 0) :
    ∃ i < nrTasks, i ≠ 0 ∧ s.slot i = p ∧ release p s = vacate i p s := by
  obtain ⟨-, j, hj, hslot⟩ := hp
  have hj0 : j ≠ 0 := by
    rintro rfl
    exact hroot hslot.symm
  unfold release
  split
  · rename_i i hfind
    have hmem := List.mem_of_find?_eq_some hfind
    have hi := List.find?_some hfind
    rw [List.mem_range'] at hmem
    obtain ⟨k, hk, rfl⟩ := hmem
    refine ⟨_, ?_, ?_, by simpa using hi, rfl⟩
    · unfold nrTasks at hk ⊢
      omega
    · omega
  · rename_i hfind
    rw [List.find?_eq_none] at hfind
    refine absurd (hfind j ?_) (by simp [hslot])
    rw [List.mem_range']
    refine ⟨j - 1, ?_, by omega⟩
    unfold nrTasks at hj ⊢
    omega

theorem vacate_slot (i p : Nat) (s : State) : (vacate i p s).slot = update s.slot i 0 :=
  (removeLinks_steady p _).slot

theorem vacate_slot_of_ne {i j : Nat} (h : j ≠ i) (p : Nat) (s : State) :
    (vacate i p s).slot j = s.slot j := by
  rw [vacate_slot, update_of_ne h]

theorem vacate_pptr (i p : Nat) (s : State) : (vacate i p s).links.pptr = s.links.pptr := by
  unfold vacate
  rw [links_removeLinks]
  rfl

theorem vacate_live {i p : Nat} {s : State} (hd : Distinct s) (hi : i < nrTasks)
    (hslot : s.slot i = p) (hp : p ≠ 0) : (vacate i p s).live = s.live \ {p} := by
  ext x
  unfold State.live
  rw [vacate_slot]
  simp only [Set.mem_ofPred_eq, Set.mem_sdiff, Set.mem_singleton_iff]
  constructor
  · rintro ⟨hx, j, hj, heq⟩
    have hji : j ≠ i := by
      rintro rfl
      rw [update_self] at heq
      exact hx heq.symm
    rw [update_of_ne hji] at heq
    refine ⟨⟨hx, j, hj, heq⟩, ?_⟩
    rintro rfl
    exact hji (hd i hi j hj (by rw [hslot]; exact hx) (hslot.trans heq.symm)).symm
  · rintro ⟨⟨hx, j, hj, heq⟩, hne⟩
    refine ⟨hx, j, hj, ?_⟩
    have hji : j ≠ i := by
      rintro rfl
      exact hne (heq.symm.trans hslot)
    rw [update_of_ne hji, heq]

/-- **A task leaves the forest.** -/
theorem Linked.vacate {s : State} {ring : List Nat} {kids : Nat → List Nat} {i p : Nat}
    (h : Linked s ring kids) (hd : Distinct s) (hi : i < nrTasks) (hi0 : i ≠ 0)
    (hslot : s.slot i = p) (hp : p ∈ s.live) (hroot : p ≠ s.slot 0)
    (hparent : (s.task p).pPptr ∈ s.live) :
    ∃ ring' kids', Linked (vacate i p s) ring' kids' := by
  have hremove := WF.remove h hp hroot hparent
  have hlinks : (Exit.vacate i p s).links = s.links.remove 0 p := links_removeLinks p _
  rw [← hlinks, ← vacate_slot_of_ne hi0.symm p s, ← vacate_live hd hi hslot hp.1] at hremove
  refine ⟨_, _, hremove.shrink ?_ subset_rfl⟩
  rw [vacate_live hd hi hslot hp.1]
  exact Set.sdiff_subset

/-- A new task in `task[]`, the child of its parent. -/
def enter (nr p : Nat) (t : Task) (s : State) : State :=
  setLinks p { s with
    task := update s.task p t
    slot := update s.slot nr p }

theorem enter_slot (nr p : Nat) (t : Task) (s : State) :
    (enter nr p t s).slot = update s.slot nr p :=
  (setLinks_steady p _).slot

theorem enter_live {nr p : Nat} {t : Task} {s : State} (hnr : nr < nrTasks) (hfree : s.slot nr = 0)
    (hp : p ≠ 0) : (enter nr p t s).live = insert p s.live := by
  ext x
  unfold State.live
  rw [enter_slot]
  simp only [Set.mem_ofPred_eq, Set.mem_insert_iff]
  constructor
  · rintro ⟨hx, j, hj, heq⟩
    by_cases hjn : j = nr
    · rw [hjn, update_self] at heq
      exact .inl heq.symm
    · rw [update_of_ne hjn] at heq
      exact .inr ⟨hx, j, hj, heq⟩
  · rintro (rfl | ⟨hx, j, hj, heq⟩)
    · exact ⟨hp, nr, hnr, update_self _ _ _⟩
    · refine ⟨hx, j, hj, ?_⟩
      have hjn : j ≠ nr := by
        rintro rfl
        exact hx (heq.symm.trans hfree)
      rw [update_of_ne hjn, heq]

/-- **A task enters the forest.** -/
theorem Linked.enter {s : State} {ring : List Nat} {kids : Nat → List Nat} {nr p : Nat} {t : Task}
    (h : Linked s ring kids) (hnr : nr < nrTasks) (hnr0 : nr ≠ 0) (hfree : s.slot nr = 0)
    (hp : p ∉ s.live) (hp0 : p ≠ 0) (hpptr : t.pPptr ∈ s.live) (hcptr : t.pCptr = 0)
    (hparents : ∀ x ∈ s.live, (s.task x).pPptr ∈ s.live) :
    (∃ ring' kids', Linked (enter nr p t s) ring' kids') ∧
      (Exit.enter nr p t s).links.pptr = update s.links.pptr p t.pPptr := by
  set s₁ : State := { s with
    task := update s.task p t
    slot := update s.slot nr p } with hs₁
  have hold : ∀ x, x ≠ p → s₁.task x = s.task x := fun x hx => update_of_ne hx _ _
  have hnew : s₁.task p = t := update_self _ _ _
  have hslot0 : s₁.slot 0 = s.slot 0 := update_of_ne hnr0.symm _ _
  have hne : ∀ x ∈ s.live, x ≠ p := by
    rintro x hx rfl
    exact hp hx
  -- the links of the tasks that are there are as they were
  have hwf : WF 0 (s.slot 0) s.live s.live ring kids (fun _ => 0) s₁.links := by
    refine ⟨h.nodup, h.circle.congr (fun y hy => ?_) fun y hy => ?_, h.mem, h.nonnull, h.sub,
      h.kidsNodup, fun u hu => ?_, fun u hu x => ?_⟩
    · exact congrArg Task.nextTask (hold y (hne y ((h.mem y).1 hy)))
    · exact congrArg Task.prevTask (hold y (hne y ((h.mem y).1 hy)))
    · have hc := h.chain u hu
      have hcu : s₁.links.cptr u = s.links.cptr u := congrArg Task.pCptr (hold u (hne u hu))
      rw [hcu]
      refine hc.congr (fun y hy => ?_) fun y hy => ?_
      · exact congrArg Task.pOsptr (hold y (hne y ((h.kid u hu y).1 hy).1))
      · exact congrArg Task.pYsptr (hold y (hne y ((h.kid u hu y).1 hy).1))
    · rw [h.kid u hu x]
      by_cases hx : x = p
      · rw [hx]
        exact ⟨fun hL => absurd hL.1 hp, fun hL => absurd hL.1 hp⟩
      · have hpp : s₁.links.pptr x = s.links.pptr x := congrArg Task.pPptr (hold x hx)
        rw [hpp]
  have hpp : s₁.links.pptr = update s.links.pptr p t.pPptr := by
    funext x
    by_cases hx : x = p
    · rw [hx, update_self]
      exact congrArg Task.pPptr hnew
    · rw [update_of_ne hx]
      exact congrArg Task.pPptr (hold x hx)
  have hppp : s₁.links.pptr p = t.pPptr := congrArg Task.pPptr hnew
  have hcp : s₁.links.cptr p = 0 := (congrArg Task.pCptr hnew).trans hcptr
  have hgrow := hwf.grow hp hp0 hcp fun x hx heq => by
    rw [hpp, update_of_ne (hne x hx)] at heq
    exact hp (heq ▸ hparents x hx)
  have hadd := hgrow.add hp (Set.mem_insert p _) (by rw [hppp]; exact .inr hpptr)
  have hroot : p ≠ s₁.slot 0 := by
    rw [hslot0]
    exact (hne _ h.root_mem).symm
  have hlinks : (Exit.enter nr p t s).links = s₁.links.add 0 (s.slot 0) p := by
    rw [← hslot0]
    exact links_setLinks hroot
  have hlive := enter_live (t := t) hnr hfree hp0
  have hs0 : (Exit.enter nr p t s).slot 0 = s.slot 0 :=
    (congrFun (setLinks_steady p s₁).slot 0).trans hslot0
  rw [← hlinks, ← hlive, ← hs0] at hadd
  refine ⟨⟨_, _, hadd⟩, ?_⟩
  rw [hlinks]
  exact hpp

end LinuxEvocation.Exit
