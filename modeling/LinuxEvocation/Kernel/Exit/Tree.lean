import LinuxEvocation.Kernel.Exit.Ptrace

/-!
# The table of tasks stays a forest

* `Inv` — what holds of the table of tasks in every run: the links, who is in `task[]`, and what the
  tasks within `sys_wait4` and `sys_fork` rely on.
* `Forgot`, `Died` — what `forget_original_parent` and the rest of `do_exit` have done.
* `Inv.still`, `Inv.setPc`, `Inv.reap`, `Inv.clear`, `Inv.forget`, `Inv.relink`, `Inv.exit`,
  `Inv.vacate`, `Inv.enter` — what the parts of the calls do to it.
-/

namespace LinuxEvocation.Exit

open Function (update update_of_ne update_self)
open Forest

/-! ## `do_exit` -/

/-- The original parent of the tasks `ps` is no longer `father`. -/
structure Forgot (s s' : State) (father : Nat) (ps : List Nat) : Prop where
  links : s'.links = s.links
  pid : ∀ p, (s'.task p).pid = (s.task p).pid
  state : ∀ p, (s'.task p).state = (s.task p).state
  slot : s'.slot = s.slot
  pc : s'.pc = s.pc
  opptr : ∀ p, (s'.task p).pOpptr =
    if p ∈ ps ∧ (s.task p).pOpptr = father then s.reaper else (s.task p).pOpptr

theorem forgetEach_forgot (father : Nat) (ps : List Nat) (s : State) :
    Forgot s (ps.foldl (fun s p => if (s.task p).pOpptr = father then
      s.modify p fun t => { t with pOpptr := s.reaper } else s) s) father ps := by
  induction ps generalizing s with
  | nil => exact ⟨rfl, fun _ => rfl, fun _ => rfl, rfl, rfl, fun p => by simp⟩
  | cons y ps ih =>
    rw [List.foldl_cons]
    have hrec := ih (if (s.task y).pOpptr = father then
      s.modify y fun t => { t with pOpptr := s.reaper } else s)
    by_cases hy : (s.task y).pOpptr = father
    · rw [if_pos hy] at hrec ⊢
      have hlinks : (s.modify y fun t => { t with pOpptr := s.reaper }).links = s.links :=
        State.links_modify_eq ⟨rfl, rfl, rfl, rfl, rfl, rfl⟩
      refine ⟨hrec.links.trans hlinks, fun p => (hrec.pid p).trans (s.field_modify _ rfl p),
        fun p => (hrec.state p).trans (s.field_modify _ rfl p), hrec.slot, hrec.pc, fun p => ?_⟩
      rw [hrec.opptr p]
      have hreaper : (s.modify y fun t => { t with pOpptr := s.reaper }).reaper = s.reaper := rfl
      rw [hreaper]
      by_cases hpy : p = y
      · have hself : y ∈ y :: ps ∧ (s.task y).pOpptr = father := ⟨List.mem_cons_self, hy⟩
        rw [hpy, State.task_modify_self]
        refine Eq.trans ?_ (if_pos hself).symm
        split <;> rfl
      · rw [State.task_modify_of_ne s _ hpy]
        simp only [List.mem_cons, hpy, false_or]
    · rw [if_neg hy] at hrec ⊢
      refine ⟨hrec.links, hrec.pid, hrec.state, hrec.slot, hrec.pc, fun p => ?_⟩
      rw [hrec.opptr p]
      by_cases hpy : p = y
      · rw [hpy, if_neg (fun hc => hy hc.2), if_neg (fun hc => hy hc.2)]
      · simp only [List.mem_cons, hpy, false_or]

/-- **`forget_original_parent`.** -/
theorem forgetOriginalParent_forgot (father : Nat) (s : State) :
    Forgot s (forgetOriginalParent father s) father s.tasks := forgetEach_forgot father s.tasks s

/-- A task has died, and its children `ps` have been given to `init`. -/
structure Died (s s' : State) (cur : Nat) (ps : List Nat) : Prop where
  opptr : ∀ p, (s'.task p).pOpptr = (s.task p).pOpptr
  pid : ∀ p, (s'.task p).pid = (s.task p).pid
  zombie : ∀ p, (s'.task p).state = .zombie ↔ p = cur ∨ (s.task p).state = .zombie
  slot : s'.slot = s.slot
  pc : s'.pc = update s.pc cur .dead
  pptr : ∀ p, (s'.task p).pPptr = if p ∈ ps then s.reaper else (s.task p).pPptr

theorem becomeZombie_links (cur : Nat) (code : Int) (s : State) :
    (becomeZombie cur code s).links = s.links :=
  State.links_modify_eq (f := fun t => { t with state := .zombie, exitCode := code })
    ⟨rfl, rfl, rfl, rfl, rfl, rfl⟩

theorem becomeZombie_field {β : Type} (cur : Nat) (code : Int) (s : State) (g : Task → β)
    (hg : ∀ t : Task, g { t with state := .zombie, exitCode := code } = g t) (p : Nat) :
    g ((becomeZombie cur code s).task p) = g (s.task p) :=
  s.field_modify (f := fun t => { t with state := .zombie, exitCode := code }) g (hg (s.task cur)) p

theorem becomeZombie_died (cur : Nat) (code : Int) (s : State) :
    Died s (becomeZombie cur code s) cur [] := by
  refine ⟨becomeZombie_field cur code s _ fun _ => rfl, becomeZombie_field cur code s _ fun _ => rfl,
    fun p => ?_, rfl, rfl, fun p => ?_⟩
  · show ((s.modify cur fun t => { t with state := .zombie, exitCode := code }).task p).state = _ ↔ _
    by_cases hp : p = cur
    · rw [hp, State.task_modify_self]
      exact ⟨fun _ => .inl rfl, fun _ => rfl⟩
    · rw [State.task_modify_of_ne s _ hp]
      exact ⟨.inr, fun hz => hz.resolve_left hp⟩
  · rw [if_neg List.not_mem_nil]
    exact becomeZombie_field cur code s _ (fun _ => rfl) p

theorem Died.calm {s s₁ s' : State} {cur : Nat} {ps : List Nat} (h : Died s s₁ cur ps)
    (hc : Calm s₁ s') : Died s s' cur ps :=
  ⟨fun p => (hc.opptr p).trans (h.opptr p), fun p => (hc.pid p).trans (h.pid p),
    fun p => (hc.zombie p).trans (h.zombie p), hc.slot.trans h.slot, hc.pc.trans h.pc,
    fun p => (hc.pptr_eq p).trans (h.pptr p)⟩

/-- What is before the loop leaves the links alone. -/
theorem exitNotified_died (cur : Nat) (code : Int) (s : State) :
    Died s (exitNotified cur code s) cur [] ∧ (exitNotified cur code s).links = s.links := by
  have hc : Calm (becomeZombie cur code s) (exitNotified cur code s) :=
    (exitGroup_calm cur _).trans (notifyParent_calm cur _)
  exact ⟨(becomeZombie_died cur code s).calm hc, hc.links.trans (becomeZombie_links cur code s)⟩

/-- **`do_exit`** as a whole. -/
theorem Linked.doExit {s : State} {ring : List Nat} {kids : Nat → List Nat} {cur : Nat}
    (h : Linked s ring kids) (code : Int) (hcur : cur ∈ s.live) (hreaper : s.reaper ∈ s.live)
    (hself : cur = s.reaper → kids cur = []) :
    (∃ ring' kids', Linked (doExit cur code s) ring' kids') ∧
      Died s (Exit.doExit cur code s) cur (kids cur) := by
  obtain ⟨hd, hlinks⟩ := exitNotified_died cur code s
  have hlive : (exitNotified cur code s).live = s.live := State.live_congr hd.slot
  have hreap : (exitNotified cur code s).reaper = s.reaper := by
    unfold State.reaper
    rw [hd.slot]
  have hl : Linked (exitNotified cur code s) ring kids := h.congr hlinks hd.slot
  have heq : Exit.doExit cur code s =
      exitLeader cur (Exit.exitChildren cur nrTasks (exitNotified cur code s)) := rfl
  have hleader := exitLeader_calm cur (Exit.exitChildren cur nrTasks (exitNotified cur code s))
  rw [heq]
  by_cases hne : cur = s.reaper
  · -- `init` has no children, and the loop does nothing
    have hnil := hself hne
    have hzero : ((exitNotified cur code s).task cur).pCptr = 0 := by
      refine (hl.cptr_eq_null ?_).2 hnil
      rw [hlive]
      exact hcur
    have hloop : Exit.exitChildren cur nrTasks (exitNotified cur code s) =
        exitNotified cur code s := by
      unfold nrTasks Exit.exitChildren
      dsimp only
      rw [if_pos hzero]
    rw [hloop] at hleader ⊢
    rw [hnil]
    exact ⟨⟨ring, kids, hleader.linked hl⟩, hd.calm hleader⟩
  · have hmem : cur ∈ (exitNotified cur code s).live := by rwa [hlive]
    obtain ⟨⟨kids', hl', -⟩, had⟩ := hl.exitChildren hmem
      (by rwa [hlive, hreap]) (by rwa [hreap])
    have hd' : Died s (Exit.exitChildren cur nrTasks (exitNotified cur code s)) cur (kids cur) := by
      refine ⟨fun p => (had.steady.opptr p).trans (hd.opptr p),
        fun p => (had.steady.pid p).trans (hd.pid p),
        fun p => (had.steady.zombie p).trans (hd.zombie p), had.steady.slot.trans hd.slot,
        had.steady.pc.trans hd.pc, fun p => ?_⟩
      rw [had.pptr p, hreap, hd.pptr p, if_neg List.not_mem_nil]
    exact ⟨⟨ring, kids', hleader.linked hl'⟩, hd'.calm hleader⟩

/-! ## The invariant -/

/-- **The table of tasks.** -/
structure Inv (x : Sys) : Prop where
  forest : ∃ ring kids, Linked x.s ring kids
  distinct : Distinct x.s
  init : x.s.slot 1 ≠ 0
  parent : ∀ p ∈ x.s.live, (x.s.task p).pPptr ∈ x.s.live
  opptr : ∀ p ∈ x.s.live, (x.s.task p).pOpptr ∈ x.s.live
  root : (x.s.task (x.s.slot 0)).pPptr = x.s.slot 0 ∧ (x.s.task (x.s.slot 0)).pOpptr = x.s.slot 0
  initParent : (x.s.task (x.s.slot 1)).pPptr = x.s.slot 0
  initPid : (x.s.task (x.s.slot 1)).pid = 1
  /-- Only its parent has found a zombie. -/
  reaping : ∀ u p, x.mode u = .reaping p → p ∈ x.s.live ∧ p ≠ x.s.slot 0 ∧
    (x.s.task p).state = .zombie ∧ (x.s.task p).pPptr = u
  forking : ∀ u nr p, x.mode u = .forking nr p → nr ≠ 0 ∧ nr < nrTasks ∧ x.s.slot nr = p ∧
    p ≠ 0 ∧ x.mode p = .newborn
  single : ∀ u v nr nr' p, x.mode u = .forking nr p → x.mode v = .forking nr' p → u = v
  newborn : ∀ p, x.mode p = .newborn → p ≠ x.s.slot 1
  busy : ∀ u, x.mode u ≠ .none → u ∈ x.s.live ∧ u ≠ x.s.slot 0 ∧ x.s.pc u = .user
  /-- A task that has exited, or that has not run yet, is the parent of no task. -/
  barren : ∀ p ∈ x.s.live, p ≠ x.s.slot 1 → (x.s.pc p = .dead ∨ x.mode p = .newborn) →
    ∀ q ∈ x.s.live, (x.s.task q).pPptr ≠ p ∧ (x.s.task q).pOpptr ≠ p
  exiting : ∀ p c, x.s.pc p = .exiting c → p ≠ x.s.slot 1 → ∀ q ∈ x.s.live,
    (x.s.task q).pOpptr ≠ p
  zombie : ∀ p ∈ x.s.live, (x.s.task p).state = .zombie → x.s.pc p = .dead

namespace Inv

variable {x : Sys} {s' : State} {cur p q u : Nat}

theorem root_mem (h : Inv x) : x.s.slot 0 ∈ x.s.live := by
  obtain ⟨ring, kids, hl⟩ := h.forest
  exact WF.root_mem hl

theorem init_mem (h : Inv x) : x.s.slot 1 ∈ x.s.live :=
  ⟨h.init, 1, by decide, rfl⟩

theorem init_ne (h : Inv x) : x.s.slot 1 ≠ x.s.slot 0 := by
  intro heq
  have := h.distinct 1 (by decide) 0 (by decide) h.init heq
  omega

theorem reaper_eq (h : Inv x) : x.s.reaper = x.s.slot 1 := if_pos h.init

/-- A zombie that has been found is not `init`. -/
theorem reaping_ne (h : Inv x) (hp : x.mode u = .reaping p) : p ≠ x.s.slot 1 := by
  rintro rfl
  have hb := h.busy u (by rw [hp]; simp)
  exact hb.2.1 ((h.reaping u _ hp).2.2.2.symm.trans h.initParent)

/-- A task that is being made is no zombie. -/
theorem busy_not_zombie (h : Inv x) (hu : x.mode u ≠ .none) :
    (x.s.task u).state ≠ .zombie := by
  intro hz
  have hb := h.busy u hu
  have hdead := h.zombie u hb.1 hz
  rw [hb.2.2] at hdead
  cases hdead

/-- **Only parents have changed**: a task but `task[0]` and `init` has got another parent, one that may
have children, and one but `task[0]` has got `init` for its original parent. -/
theorem reparented (h : Inv x) (hforest : ∃ ring kids, Linked s' ring kids)
    (hslot : s'.slot = x.s.slot) (hpc : s'.pc = x.s.pc)
    (hpid : ∀ p, (s'.task p).pid = (x.s.task p).pid)
    (hz : ∀ p, (s'.task p).state = .zombie → (x.s.task p).state = .zombie)
    (hfound : ∀ u p, x.mode u = .reaping p →
      (s'.task p).state = .zombie ∧ (s'.task p).pPptr = (x.s.task p).pPptr)
    (hpp : ∀ p, (s'.task p).pPptr = (x.s.task p).pPptr ∨
      p ≠ x.s.slot 0 ∧ p ≠ x.s.slot 1 ∧ (s'.task p).pPptr ∈ x.s.live ∧
        ((s'.task p).pPptr ≠ x.s.slot 1 →
          x.s.pc (s'.task p).pPptr ≠ .dead ∧ x.mode (s'.task p).pPptr ≠ .newborn))
    (hop : ∀ p, p ∈ x.s.live → (s'.task p).pOpptr = (x.s.task p).pOpptr ∨
      p ≠ x.s.slot 0 ∧ (s'.task p).pOpptr = x.s.slot 1) : Inv { x with s := s' } := by
  constructor
  case forest => exact hforest
  case distinct => exact h.distinct.congr hslot
  case single => exact h.single
  all_goals
    dsimp only
    simp only [State.live_congr hslot, hslot, hpid, hpc]
  case init => exact h.init
  case parent =>
    intro p hp
    rcases hpp p with heq | ⟨-, -, hq, -⟩
    · rw [heq]
      exact h.parent p hp
    · exact hq
  case opptr =>
    intro p hp
    rcases hop p hp with heq | ⟨-, heq⟩
    · rw [heq]
      exact h.opptr p hp
    · rw [heq]
      exact h.init_mem
  case root =>
    exact ⟨((hpp _).resolve_right fun hc => hc.1 rfl).trans h.root.1,
      ((hop _ h.root_mem).resolve_right fun hc => hc.1 rfl).trans h.root.2⟩
  case initParent => exact ((hpp _).resolve_right fun hc => hc.2.1 rfl).trans h.initParent
  case initPid => exact h.initPid
  case reaping =>
    intro u p hu
    obtain ⟨h1, h2, -, h4⟩ := h.reaping u p hu
    exact ⟨h1, h2, (hfound u p hu).1, (hfound u p hu).2.trans h4⟩
  case forking => exact h.forking
  case newborn => exact h.newborn
  case busy => exact h.busy
  case barren =>
    intro p hp h1 hdead q hq
    have hold := h.barren p hp h1 hdead q hq
    constructor
    · rcases hpp q with heq | ⟨-, -, -, hlive⟩
      · rw [heq]
        exact hold.1
      · rintro rfl
        have := hlive h1
        tauto
    · rcases hop q hq with heq | ⟨-, heq⟩
      · rw [heq]
        exact hold.2
      · rw [heq]
        exact h1.symm
  case exiting =>
    intro p c hp h1 q hq
    rcases hop q hq with heq | ⟨-, heq⟩
    · rw [heq]
      exact h.exiting p c hp h1 q hq
    · rw [heq]
      exact h1.symm
  case zombie => exact fun p hp hzp => h.zombie p hp (hz p hzp)

/-- **The links are as they were**, and so are the zombies that have been found. -/
theorem still (h : Inv x) (hlinks : s'.links = x.s.links)
    (hopptr : ∀ p, (s'.task p).pOpptr = (x.s.task p).pOpptr)
    (hpid : ∀ p, (s'.task p).pid = (x.s.task p).pid) (hslot : s'.slot = x.s.slot)
    (hpc : s'.pc = x.s.pc)
    (hz : ∀ p, (s'.task p).state = .zombie → (x.s.task p).state = .zombie)
    (hfound : ∀ u p, x.mode u = .reaping p → (s'.task p).state = .zombie) :
    Inv { x with s := s' } := by
  obtain ⟨ring, kids, hl⟩ := h.forest
  exact h.reparented ⟨ring, kids, hl.congr hlinks hslot⟩ hslot hpc hpid hz
    (fun u p hu => ⟨hfound u p hu, pptr_of_links hlinks p⟩) (fun p => .inl (pptr_of_links hlinks p))
    fun p _ => .inl (hopptr p)

theorem calm (h : Inv x) (hc : Calm x.s s') : Inv { x with s := s' } :=
  h.still hc.links hc.opptr hc.pid hc.slot hc.pc (fun p => (hc.zombie p).1)
    fun u p hu => (hc.zombie p).2 (h.reaping u p hu).2.2.1

/-- **One task changes its state**, and is not a zombie that has been found. -/
theorem modify (h : Inv x) {f : Task → Task}
    (hf : (f (x.s.task p)).nextTask = (x.s.task p).nextTask ∧
      (f (x.s.task p)).prevTask = (x.s.task p).prevTask ∧
      (f (x.s.task p)).pPptr = (x.s.task p).pPptr ∧ (f (x.s.task p)).pCptr = (x.s.task p).pCptr ∧
      (f (x.s.task p)).pYsptr = (x.s.task p).pYsptr ∧ (f (x.s.task p)).pOsptr = (x.s.task p).pOsptr)
    (hopptr : (f (x.s.task p)).pOpptr = (x.s.task p).pOpptr)
    (hpid : (f (x.s.task p)).pid = (x.s.task p).pid) (hz : (f (x.s.task p)).state ≠ .zombie)
    (hfound : ∀ u, x.mode u ≠ .reaping p) : Inv { x with s := x.s.modify p f } := by
  refine h.still (State.links_modify_eq hf) (x.s.field_modify _ hopptr) (x.s.field_modify _ hpid)
    rfl rfl (fun q hq => ?_) fun u q hu => ?_
  · by_cases hqp : q = p
    · rw [hqp, State.task_modify_self] at hq
      exact absurd hq hz
    · rwa [State.task_modify_of_ne x.s f hqp] at hq
  · have hqp : q ≠ p := by
      rintro rfl
      exact hfound u hu
    rw [State.task_modify_of_ne x.s f hqp]
    exact (h.reaping u q hu).2.2.1

/-- **A task goes on**, to where it is neither dead nor in a call that has found another. -/
theorem setPc (h : Inv x) {v : Pc} (hmode : x.mode cur = .none) (hv : v ≠ .dead)
    (hz : (x.s.task cur).state ≠ .zombie)
    (hexit : ∀ c, v = .exiting c → cur ≠ x.s.slot 1 → ∀ q ∈ x.s.live, (x.s.task q).pOpptr ≠ cur) :
    Inv { x with s := x.s.setPc cur v } := by
  have hpc : ∀ p, p ≠ cur → (x.s.setPc cur v).pc p = x.s.pc p :=
    fun p hp => update_of_ne hp _ _
  have hself : (x.s.setPc cur v).pc cur = v := update_self _ _ _
  refine ⟨h.forest, h.distinct, h.init, h.parent, h.opptr, h.root, h.initParent, h.initPid,
    h.reaping, h.forking, h.single, h.newborn, fun u hu => ?_, fun p hp h1 hdead => ?_,
    fun p c hp h1 => ?_, fun p hp hzp => ?_⟩
  · have hb := h.busy u hu
    have hne : u ≠ cur := by
      rintro rfl
      exact hu hmode
    exact ⟨hb.1, hb.2.1, (hpc u hne).trans hb.2.2⟩
  · refine h.barren p hp h1 (hdead.imp_left fun hd => ?_)
    have hne : p ≠ cur := by
      rintro rfl
      exact hv (hself.symm.trans hd)
    exact (hpc p hne).symm.trans hd
  · by_cases hpc' : p = cur
    · subst hpc'
      exact hexit c (hself.symm.trans hp) h1
    · exact h.exiting p c ((hpc p hpc').symm.trans hp) h1
  · have hne : p ≠ cur := by
      rintro rfl
      exact hz hzp
    exact (hpc p hne).trans (h.zombie p hp hzp)

/-- **`sys_wait4` finds a zombie.** -/
theorem reap (h : Inv x) (hcur : cur ∈ x.s.live) (hroot : cur ≠ x.s.slot 0)
    (hmode : x.mode cur = .none) (hpc : x.s.pc cur = .user) (hp : p ∈ x.s.children cur)
    (hz : (x.s.task p).state = .zombie) :
    Inv { x with mode := update x.mode cur (.reaping p) } := by
  obtain ⟨ring, kids, hl⟩ := h.forest
  obtain ⟨hlive, hne, hpp⟩ := (hl.mem_children hcur).1 hp
  have hold : ∀ u, u ≠ cur → update x.mode cur (.reaping p) u = x.mode u :=
    fun u hu => update_of_ne hu _ _
  have hself : update x.mode cur (.reaping p) cur = .reaping p :=
    update_self _ _ _
  -- a mode that no task gets here was there before
  have hback : ∀ u m, update x.mode cur (.reaping p) u = m → m ≠ .reaping p →
      u ≠ cur ∧ x.mode u = m := by
    intro u m hm hmp
    have hu : u ≠ cur := by
      rintro rfl
      exact hmp (hm.symm.trans hself)
    exact ⟨hu, (hold u hu).symm.trans hm⟩
  refine ⟨h.forest, h.distinct, h.init, h.parent, h.opptr, h.root, h.initParent, h.initPid,
    fun u y hu => ?_, fun u nr y hu => ?_, fun u v nr nr' y hu hv => ?_, fun y hy => ?_,
    fun u hu => ?_, fun y hy h1 hdead => ?_, h.exiting, h.zombie⟩
  · by_cases huc : u = cur
    · subst huc
      have heq : Mode.reaping p = .reaping y := hself.symm.trans hu
      cases heq
      exact ⟨hlive, hne, hz, hpp⟩
    · exact h.reaping u y ((hold u huc).symm.trans hu)
  · obtain ⟨huc, hu'⟩ := hback u _ hu (by simp)
    obtain ⟨h1, h2, h3, h4, h5⟩ := h.forking u nr y hu'
    have hyc : y ≠ cur := by
      rintro rfl
      rw [hmode] at h5
      cases h5
    exact ⟨h1, h2, h3, h4, (hold y hyc).trans h5⟩
  · exact h.single u v nr nr' y (hback u _ hu (by simp)).2 (hback v _ hv (by simp)).2
  · exact h.newborn y (hback y _ hy (by simp)).2
  · by_cases huc : u = cur
    · rw [huc]
      exact ⟨hcur, hroot, hpc⟩
    · exact h.busy u fun hnone => hu ((hold u huc).trans hnone)
  · exact h.barren y hy h1 (hdead.imp_right fun hm => (hback y _ hm (by simp)).2)

/-- **A call ends** that has found or made another task, together with what it has made. -/
theorem clear (h : Inv x) {mode' : Nat → Mode} (hsub : ∀ u, mode' u = .none ∨ mode' u = x.mode u)
    (hborn : ∀ u nr p, mode' u = .forking nr p → mode' p = x.mode p) :
    Inv { x with mode := mode' } := by
  have hback : ∀ u m, mode' u = m → m ≠ .none → x.mode u = m := by
    intro u m hm hne
    rcases hsub u with hu | hu
    · exact absurd (hm.symm.trans hu) hne
    · exact hu.symm.trans hm
  refine ⟨h.forest, h.distinct, h.init, h.parent, h.opptr, h.root, h.initParent, h.initPid,
    fun u y hu => h.reaping u y (hback u _ hu (by simp)), fun u nr y hu => ?_,
    fun u v nr nr' y hu hv => h.single u v nr nr' y (hback u _ hu (by simp)) (hback v _ hv (by simp)),
    fun y hy => h.newborn y (hback y _ hy (by simp)), fun u hu => ?_,
    fun y hy h1 hdead => h.barren y hy h1 (hdead.imp_right fun hm => hback y _ hm (by simp)),
    h.exiting, h.zombie⟩
  · obtain ⟨h1, h2, h3, h4, h5⟩ := h.forking u nr y (hback u _ hu (by simp))
    exact ⟨h1, h2, h3, h4, (hborn u nr y hu).trans h5⟩
  · refine h.busy u fun hnone => hu ?_
    rcases hsub u with hu' | hu'
    · exact hu'
    · exact hu'.trans hnone

/-- **A task gets another parent**, one that may have children. -/
theorem relink (h : Inv x) (hp : p ∈ x.s.live) (hroot : p ≠ x.s.slot 0) (hinit : p ≠ x.s.slot 1)
    (hq : q ∈ x.s.live)
    (hparent : q ≠ x.s.slot 1 → x.s.pc q ≠ .dead ∧ x.mode q ≠ .newborn)
    (hfound : ∀ u, x.mode u ≠ .reaping p) : Inv { x with s := relink p q x.s } := by
  obtain ⟨ring, kids, hl⟩ := h.forest
  obtain ⟨hforest, hpptr⟩ := hl.relink hp hroot hq (h.parent p hp)
  have hst := relink_steady p q x.s
  have hpp : ∀ y, y ≠ p → ((Exit.relink p q x.s).task y).pPptr = (x.s.task y).pPptr :=
    fun y hy => (congrFun hpptr y).trans (update_of_ne hy _ _)
  have hself : ((Exit.relink p q x.s).task p).pPptr = q :=
    (congrFun hpptr p).trans (update_self _ _ _)
  refine h.reparented hforest hst.slot hst.pc hst.pid (fun y => (hst.zombie y).1) (fun u y hu => ?_)
    (fun y => ?_) fun y _ => .inl (hst.opptr y)
  · have hyp : y ≠ p := by
      rintro rfl
      exact hfound u hu
    exact ⟨(hst.zombie y).2 (h.reaping u y hu).2.2.1, hpp y hyp⟩
  · by_cases hyp : y = p
    · rw [hyp, hself]
      exact .inr ⟨hroot, hinit, hq, hparent⟩
    · exact .inl (hpp y hyp)

/-- **A task leaves `task[]`**, one that is the parent of no task. -/
theorem vacate (h : Inv x) {i : Nat} (hi : i < nrTasks) (hi0 : i ≠ 0) (hslot : x.s.slot i = p)
    (hp : p ∈ x.s.live) (hinit : p ≠ x.s.slot 1) (hbusy : x.mode p = .none)
    (hchild : ∀ q ∈ x.s.live, (x.s.task q).pPptr ≠ p ∧ (x.s.task q).pOpptr ≠ p)
    (hfound : ∀ u, x.mode u ≠ .reaping p) : Inv { x with s := vacate i p x.s } := by
  have hroot : p ≠ x.s.slot 0 := by
    intro heq
    exact hi0 (h.distinct i hi 0 (by decide) (by rw [hslot]; exact hp.1) (hslot.trans heq))
  have hi1 : i ≠ 1 := by
    rintro rfl
    exact hinit hslot.symm
  obtain ⟨ring, kids, hl⟩ := h.forest
  have hst := removeLinks_steady p { x.s with slot := update x.s.slot i 0 }
  have hlive := vacate_live h.distinct hi hslot hp.1
  have hslot0 := vacate_slot_of_ne hi0.symm p x.s
  have hslot1 := vacate_slot_of_ne hi1.symm p x.s
  have hpp : ∀ y, ((Exit.vacate i p x.s).task y).pPptr = (x.s.task y).pPptr :=
    congrFun (vacate_pptr i p x.s)
  have hop : ∀ y, ((Exit.vacate i p x.s).task y).pOpptr = (x.s.task y).pOpptr := hst.opptr
  have hpid : ∀ y, ((Exit.vacate i p x.s).task y).pid = (x.s.task y).pid := hst.pid
  have hz : ∀ y, ((Exit.vacate i p x.s).task y).state = .zombie ↔ (x.s.task y).state = .zombie :=
    hst.zombie
  have hpc : (Exit.vacate i p x.s).pc = x.s.pc := hst.pc
  have hkeep : ∀ y, y ∈ x.s.live \ {p} ↔ y ∈ x.s.live ∧ y ≠ p := fun y => Iff.rfl
  constructor
  case forest => exact hl.vacate h.distinct hi hi0 hslot hp hroot (h.parent p hp)
  case distinct =>
    intro j hj k hk hne heq
    dsimp only at hne heq
    rw [vacate_slot] at hne heq
    have hji : j ≠ i := by
      rintro rfl
      exact hne (update_self _ _ _)
    rw [update_of_ne hji] at hne heq
    by_cases hki : k = i
    · rw [hki, update_self] at heq
      exact absurd heq hne
    · rw [update_of_ne hki] at heq
      exact h.distinct j hj k hk hne heq
  case single => exact h.single
  case forking =>
    intro u nr y hu
    obtain ⟨h1, h2, h3, h4, h5⟩ := h.forking u nr y hu
    have hnr : nr ≠ i := by
      rintro rfl
      rw [← h3, hslot, hbusy] at h5
      cases h5
    refine ⟨h1, h2, ?_, h4, h5⟩
    dsimp only
    rwa [vacate_slot_of_ne hnr]
  all_goals
    dsimp only
    simp only [hlive, hslot0, hslot1, hpp, hop, hpid, hz, hpc, hkeep]
  case init => exact h.init
  case parent => exact fun y hy => ⟨h.parent y hy.1, (hchild y hy.1).1⟩
  case opptr => exact fun y hy => ⟨h.opptr y hy.1, (hchild y hy.1).2⟩
  case root => exact h.root
  case initParent => exact h.initParent
  case initPid => exact h.initPid
  case reaping =>
    intro u y hu
    obtain ⟨h1, h2, h3, h4⟩ := h.reaping u y hu
    refine ⟨⟨h1, ?_⟩, h2, h3, h4⟩
    rintro rfl
    exact hfound u hu
  case newborn => exact h.newborn
  case busy =>
    intro u hu
    have hb := h.busy u hu
    refine ⟨⟨hb.1, ?_⟩, hb.2⟩
    rintro rfl
    exact hu hbusy
  case barren => exact fun y hy h1 hdead z hz => h.barren y hy.1 h1 hdead z hz.1
  case exiting => exact fun y c hy h1 z hz => h.exiting y c hy h1 z hz.1
  case zombie => exact fun y hy => h.zombie y hy.1

/-- **The children of a task that exits** have another original parent. -/
theorem forget (h : Inv x) (hroot : cur ≠ x.s.slot 0) (hnew : Forgot x.s s' cur x.s.tasks) :
    Inv { x with s := s' } ∧
      (cur ≠ x.s.slot 1 → ∀ q ∈ x.s.live, (s'.task q).pOpptr ≠ cur) := by
  obtain ⟨ring, kids, hl⟩ := h.forest
  -- each original parent is as it was, or `init`
  have hop : ∀ p, (s'.task p).pOpptr = (x.s.task p).pOpptr ∨
      p ≠ x.s.slot 0 ∧ (s'.task p).pOpptr = x.s.slot 1 := by
    intro p
    rw [hnew.opptr p, h.reaper_eq]
    split
    · rename_i hold
      exact .inr ⟨(hl.mem_tasks.1 hold.1).2, rfl⟩
    · exact .inl rfl
  have hforgot : cur ≠ x.s.slot 1 → ∀ q ∈ x.s.live, (s'.task q).pOpptr ≠ cur := by
    intro h1 q hq
    rw [hnew.opptr q, h.reaper_eq]
    split
    · exact h1.symm
    · rename_i hno
      intro heq
      refine hno ⟨hl.mem_tasks.2 ⟨hq, ?_⟩, heq⟩
      rintro rfl
      exact hroot (heq.symm.trans h.root.2)
  exact ⟨h.reparented ⟨ring, kids, hl.congr hnew.links hnew.slot⟩ hnew.slot hnew.pc hnew.pid
    (fun p hp => (hnew.state p).symm.trans hp)
    (fun u p hu => ⟨(hnew.state p).trans (h.reaping u p hu).2.2.1, pptr_of_links hnew.links p⟩)
    (fun p => .inl (pptr_of_links hnew.links p)) fun p _ => hop p, hforgot⟩

/-- What `do_exit` does to the tasks, of which it is one. -/
theorem doExit (h : Inv x) (hcur : cur ∈ x.s.live) (code : Int)
    (hinit : cur = x.s.slot 1 → (x.s.task cur).pCptr = 0) :
    ∃ ring kids, Linked x.s ring kids ∧
      (∃ ring' kids', Linked (Exit.doExit cur code x.s) ring' kids') ∧
      Died x.s (Exit.doExit cur code x.s) cur (kids cur) := by
  obtain ⟨ring, kids, hl⟩ := h.forest
  have hreap : x.s.reaper ∈ x.s.live := by
    rw [h.reaper_eq]
    exact h.init_mem
  refine ⟨ring, kids, hl, hl.doExit code hcur hreap fun heq => ?_⟩
  rw [h.reaper_eq] at heq
  exact (hl.cptr_eq_null hcur).1 (hinit heq)

/-- **A task dies**, and its children are given to `init`. -/
theorem exit (h : Inv x) {code : Int} (hcur : cur ∈ x.s.live) (hroot : cur ≠ x.s.slot 0)
    (hmode : x.mode cur = .none) (hpc : x.s.pc cur = .exiting code)
    (hinit : cur = x.s.slot 1 → (x.s.task cur).pCptr = 0) :
    Inv { x with s := Exit.doExit cur code x.s } := by
  obtain ⟨ring, kids, hl, hforest, hd⟩ := h.doExit hcur code hinit
  have hlive : (Exit.doExit cur code x.s).live = x.s.live := State.live_congr hd.slot
  have hkid : ∀ p, p ∈ kids cur ↔ p ∈ x.s.live ∧ p ≠ x.s.slot 0 ∧ (x.s.task p).pPptr = cur :=
    hl.kid cur hcur
  -- each parent is as it was, or `init` if it was `cur`
  have hpp : ∀ p ∈ x.s.live, ((Exit.doExit cur code x.s).task p).pPptr =
      if (x.s.task p).pPptr = cur then x.s.slot 1 else (x.s.task p).pPptr := by
    intro p hp
    rw [hd.pptr p, h.reaper_eq]
    by_cases hc : (x.s.task p).pPptr = cur
    · have hne : p ≠ x.s.slot 0 := by
        rintro rfl
        exact hroot (hc.symm.trans h.root.1)
      rw [if_pos hc, if_pos ((hkid p).2 ⟨hp, hne, hc⟩)]
    · rw [if_neg hc, if_neg fun hk => hc ((hkid p).1 hk).2.2]
  have hpc' : ∀ p, p ≠ cur → (Exit.doExit cur code x.s).pc p = x.s.pc p := by
    intro p hp
    rw [hd.pc, update_of_ne hp]
  have hself' : (Exit.doExit cur code x.s).pc cur = .dead := by rw [hd.pc, update_self]
  constructor
  case forest => exact hforest
  case distinct => exact h.distinct.congr hd.slot
  case single => exact h.single
  all_goals
    dsimp only
    simp only [hlive, hd.slot, hd.opptr, hd.pid, hd.zombie]
  case init => exact h.init
  case parent =>
    intro p hp
    rw [hpp p hp]
    split
    · exact h.init_mem
    · exact h.parent p hp
  case opptr => exact h.opptr
  case root =>
    rw [hpp _ h.root_mem, if_neg]
    · exact h.root
    · rw [h.root.1]
      exact hroot.symm
  case initParent =>
    rw [hpp _ h.init_mem, if_neg]
    · exact h.initParent
    · rw [h.initParent]
      exact hroot.symm
  case initPid => exact h.initPid
  case reaping =>
    intro u p hu
    obtain ⟨h1, h2, h3, h4⟩ := h.reaping u p hu
    refine ⟨h1, h2, .inr h3, ?_⟩
    rw [hpp p h1, if_neg]
    · exact h4
    · rw [h4]
      rintro rfl
      rw [hmode] at hu
      cases hu
  case forking => exact h.forking
  case newborn => exact h.newborn
  case busy =>
    intro u hu
    have hb := h.busy u hu
    have hne : u ≠ cur := by
      rintro rfl
      exact hu hmode
    exact ⟨hb.1, hb.2.1, (hpc' u hne).trans hb.2.2⟩
  case barren =>
    intro p hp h1 hdead q hq
    rw [hpp q hq]
    by_cases hpcur : p = cur
    · subst hpcur
      refine ⟨?_, h.exiting p code hpc h1 q hq⟩
      split
      · exact h1.symm
      · assumption
    · have hold := h.barren p hp h1 (hdead.imp_left fun hd' => (hpc' p hpcur).symm.trans hd') q hq
      refine ⟨?_, hold.2⟩
      split
      · exact h1.symm
      · exact hold.1
  case exiting =>
    intro p c hp
    have hne : p ≠ cur := by
      rintro rfl
      rw [hself'] at hp
      cases hp
    exact h.exiting p c ((hpc' p hne).symm.trans hp)
  case zombie =>
    rintro p hp (rfl | hz)
    · exact hself'
    · by_cases hpcur : p = cur
      · rw [hpcur]
        exact hself'
      · exact (hpc' p hpcur).trans (h.zombie p hp hz)

/-- **A task is made**, and `cur` goes on to fill it in. -/
theorem enter (h : Inv x) {nr : Nat} {pid : Int} (hcur : cur ∈ x.s.live) (hroot : cur ≠ x.s.slot 0)
    (hmode : x.mode cur = .none) (hpc : x.s.pc cur = .user) (hv : Vacant nr p pid x.s) :
    Inv ⟨(enter nr p (forked cur pid x.s) x.s).setPc p .user,
      update (update x.mode p .newborn) cur (.forking nr p)⟩ := by
  have hp := hv.not_live
  obtain ⟨hnr0, hnr, hfree, hp0, -⟩ := hv
  have hne : ∀ y ∈ x.s.live, y ≠ p := by
    rintro y hy rfl
    exact hp hy
  have hnr1 : nr ≠ 1 := by
    rintro rfl
    exact h.init hfree
  obtain ⟨ring, kids, hl⟩ := h.forest
  obtain ⟨hforest, hpptr⟩ := hl.enter (t := forked cur pid x.s) hnr (by omega) hfree hp hp0 hcur rfl
    h.parent
  have hst := setLinks_steady p { x.s with
    task := update x.s.task p (forked cur pid x.s)
    slot := update x.s.slot nr p }
  have hlive : (Exit.enter nr p (forked cur pid x.s) x.s).live = insert p x.s.live :=
    enter_live hnr hfree hp0
  generalize hs' : Exit.enter nr p (forked cur pid x.s) x.s = s' at hforest hpptr hlive
  have hst' : Steady { x.s with
      task := update x.s.task p (forked cur pid x.s)
      slot := update x.s.slot nr p } s' := by
    rw [← hs']
    exact hst
  have hslot : s'.slot = update x.s.slot nr p := hst'.slot
  have hslot0 : s'.slot 0 = x.s.slot 0 := by
    rw [hslot, update_of_ne (by omega)]
  have hslot1 : s'.slot 1 = x.s.slot 1 := by
    rw [hslot, update_of_ne hnr1.symm]
  have hpp : ∀ y, y ≠ p → (s'.task y).pPptr = (x.s.task y).pPptr :=
    fun y hy => (congrFun hpptr y).trans (update_of_ne hy _ _)
  have hppself : (s'.task p).pPptr = cur := (congrFun hpptr p).trans (update_self _ _ _)
  have htask : ∀ y, y ≠ p → update x.s.task p (forked cur pid x.s) y = x.s.task y :=
    fun y hy => update_of_ne hy _ _
  have hop : ∀ y, y ≠ p → (s'.task y).pOpptr = (x.s.task y).pOpptr :=
    fun y hy => (hst'.opptr y).trans (congrArg Task.pOpptr (htask y hy))
  have hnew : update x.s.task p (forked cur pid x.s) p = forked cur pid x.s :=
    update_self _ _ _
  have hopself : (s'.task p).pOpptr = cur :=
    (hst'.opptr p).trans (congrArg Task.pOpptr hnew)
  have hz : ∀ y, y ≠ p → ((s'.task y).state = .zombie ↔ (x.s.task y).state = .zombie) := by
    intro y hy
    rw [hst'.zombie y]
    dsimp only
    rw [htask y hy]
  have hpcs : s'.pc = x.s.pc := hst'.pc
  have hpc' : ∀ y, y ≠ p → (s'.setPc p .user).pc y = x.s.pc y := by
    intro y hy
    show update s'.pc p .user y = _
    rw [update_of_ne hy, hpcs]
  have hpcp : (s'.setPc p .user).pc p = .user := update_self _ _ _
  have hcp : cur ≠ p := hne cur hcur
  set mode' := update (update x.mode p .newborn) cur (.forking nr p) with hmode'
  have hm : ∀ y, y ≠ p → y ≠ cur → mode' y = x.mode y := by
    intro y h1 h2
    rw [hmode', update_of_ne h2, update_of_ne h1]
  have hmp : mode' p = .newborn := by
    rw [hmode', update_of_ne hcp.symm, update_self]
  have hmc : mode' cur = .forking nr p := update_self _ _ _
  -- a task that has no mode of its own keeps the one it has
  have hback : ∀ y m, mode' y = m → m ≠ .newborn → m ≠ .forking nr p →
      y ≠ p ∧ y ≠ cur ∧ x.mode y = m := by
    intro y m hy h1 h2
    have hyp : y ≠ p := by
      rintro rfl
      exact h1 (hy.symm.trans hmp)
    have hyc : y ≠ cur := by
      rintro rfl
      exact h2 (hy.symm.trans hmc)
    exact ⟨hyp, hyc, (hm y hyp hyc).symm.trans hy⟩
  have hpmode : x.mode p = .none := by
    by_contra hnone
    exact hp (h.busy p hnone).1
  -- no call was making a task at this address
  have hnofork : ∀ u nr', x.mode u ≠ .forking nr' p := by
    intro u nr' hu
    have := (h.forking u nr' p hu).2.2.2.2
    rw [hpmode] at this
    cases this
  have hforkback : ∀ u nr' y, mode' u = .forking nr' y →
      u = cur ∧ nr' = nr ∧ y = p ∨ u ≠ cur ∧ u ≠ p ∧ y ≠ p ∧ x.mode u = .forking nr' y := by
    intro u nr' y hu
    by_cases huc : u = cur
    · subst huc
      rw [hmc] at hu
      cases hu
      exact .inl ⟨rfl, rfl, rfl⟩
    · have hup : u ≠ p := by
        rintro rfl
        rw [hmp] at hu
        cases hu
      have hold := (hm u hup huc).symm.trans hu
      refine .inr ⟨huc, hup, ?_, hold⟩
      rintro rfl
      exact hnofork u nr' hold
  constructor
  case forest =>
    obtain ⟨ring', kids', hl'⟩ := hforest
    exact ⟨ring', kids', hl'⟩
  case distinct =>
    intro i hi j hj hi0 heq
    have hsl : (s'.setPc p .user).slot = update x.s.slot nr p := hslot
    dsimp only at hi0 heq
    rw [hsl] at hi0 heq
    by_cases hin : i = nr
    · by_cases hjn : j = nr
      · rw [hin, hjn]
      · rw [hin, update_self, update_of_ne hjn] at heq
        exact absurd ⟨hp0, j, hj, heq.symm⟩ hp
    · rw [update_of_ne hin] at hi0 heq
      by_cases hjn : j = nr
      · rw [hjn, update_self] at heq
        exact absurd ⟨hp0, i, hi, heq⟩ hp
      · rw [update_of_ne hjn] at heq
        exact h.distinct i hi j hj hi0 heq
  all_goals
    dsimp only
  case init =>
    show s'.slot 1 ≠ 0
    rw [hslot1]
    exact h.init
  case parent =>
    show ∀ y ∈ s'.live, (s'.task y).pPptr ∈ s'.live
    rw [hlive]
    intro y hy
    rcases hy with rfl | hy
    · rw [hppself]
      exact .inr hcur
    · rw [hpp y (hne y hy)]
      exact .inr (h.parent y hy)
  case opptr =>
    show ∀ y ∈ s'.live, (s'.task y).pOpptr ∈ s'.live
    rw [hlive]
    intro y hy
    rcases hy with rfl | hy
    · rw [hopself]
      exact .inr hcur
    · rw [hop y (hne y hy)]
      exact .inr (h.opptr y hy)
  case root =>
    show (s'.task (s'.slot 0)).pPptr = s'.slot 0 ∧ (s'.task (s'.slot 0)).pOpptr = s'.slot 0
    rw [hslot0, hpp _ (hne _ h.root_mem), hop _ (hne _ h.root_mem)]
    exact h.root
  case initParent =>
    show (s'.task (s'.slot 1)).pPptr = s'.slot 0
    rw [hslot0, hslot1, hpp _ (hne _ h.init_mem)]
    exact h.initParent
  case initPid =>
    show (s'.task (s'.slot 1)).pid = 1
    rw [hslot1, hst'.pid]
    dsimp only
    rw [htask _ (hne _ h.init_mem)]
    exact h.initPid
  case reaping =>
    show ∀ u y, mode' u = .reaping y → y ∈ s'.live ∧ y ≠ s'.slot 0 ∧
      (s'.task y).state = .zombie ∧ (s'.task y).pPptr = u
    rw [hlive, hslot0]
    intro u y hu
    obtain ⟨-, -, hold⟩ := hback u _ hu (by simp) (by simp)
    obtain ⟨h1, h2, h3, h4⟩ := h.reaping u y hold
    exact ⟨.inr h1, h2, (hz y (hne y h1)).2 h3, (hpp y (hne y h1)).trans h4⟩
  case forking =>
    show ∀ u nr' y, mode' u = .forking nr' y → nr' ≠ 0 ∧ nr' < nrTasks ∧ s'.slot nr' = y ∧
      y ≠ 0 ∧ mode' y = .newborn
    intro u nr' y hu
    rcases hforkback u nr' y hu with ⟨-, rfl, rfl⟩ | ⟨-, -, hyp, hold⟩
    · refine ⟨by omega, hnr, ?_, hp0, hmp⟩
      rw [hslot, update_self]
    · obtain ⟨h1, h2, h3, h4, h5⟩ := h.forking u nr' y hold
      have hnn : nr' ≠ nr := by
        rintro rfl
        exact h4 (h3.symm.trans hfree)
      have hyc : y ≠ cur := by
        rintro rfl
        rw [hmode] at h5
        cases h5
      refine ⟨h1, h2, ?_, h4, (hm y hyp hyc).trans h5⟩
      rw [hslot, update_of_ne hnn]
      exact h3
  case single =>
    intro u v n1 n2 y hu hv
    rcases hforkback u n1 y hu with ⟨rfl, -, rfl⟩ | ⟨-, -, hyp, hold⟩
    · rcases hforkback v n2 y hv with ⟨rfl, -⟩ | ⟨-, -, hyp, -⟩
      · rfl
      · exact absurd rfl hyp
    · rcases hforkback v n2 y hv with ⟨-, -, rfl⟩ | ⟨-, -, -, hold'⟩
      · exact absurd rfl hyp
      · exact h.single u v n1 n2 y hold hold'
  case newborn =>
    show ∀ y, mode' y = .newborn → y ≠ s'.slot 1
    rw [hslot1]
    intro y hy
    by_cases hyp : y = p
    · rw [hyp]
      exact (hne _ h.init_mem).symm
    · have hyc : y ≠ cur := by
        rintro rfl
        rw [hmc] at hy
        cases hy
      exact h.newborn y ((hm y hyp hyc).symm.trans hy)
  case busy =>
    show ∀ u, mode' u ≠ .none → u ∈ s'.live ∧ u ≠ s'.slot 0 ∧ (s'.setPc p .user).pc u = .user
    rw [hlive, hslot0]
    intro u hu
    by_cases hup : u = p
    · rw [hup]
      exact ⟨.inl rfl, (hne _ h.root_mem).symm, hpcp⟩
    · by_cases huc : u = cur
      · rw [huc]
        exact ⟨.inr hcur, hroot, (hpc' cur hcp).trans hpc⟩
      · have hb := h.busy u fun hnone => hu ((hm u hup huc).trans hnone)
        exact ⟨.inr hb.1, hb.2.1, (hpc' u hup).trans hb.2.2⟩
  case barren =>
    show ∀ y ∈ s'.live, y ≠ s'.slot 1 → ((s'.setPc p .user).pc y = .dead ∨ mode' y = .newborn) →
      ∀ q ∈ s'.live, (s'.task q).pPptr ≠ y ∧ (s'.task q).pOpptr ≠ y
    rw [hlive, hslot1]
    intro y hy h1 hdead q hq
    by_cases hyp : y = p
    · -- the new task is the parent of none
      subst hyp
      rcases hq with rfl | hq
      · rw [hppself, hopself]
        exact ⟨hcp, hcp⟩
      · rw [hpp q (hne q hq), hop q (hne q hq)]
        exact ⟨fun heq => hp (heq ▸ h.parent q hq), fun heq => hp (heq ▸ h.opptr q hq)⟩
    · have hylive : y ∈ x.s.live := hy.resolve_left hyp
      have hyc : y ≠ cur := by
        rintro rfl
        rcases hdead with hd | hd
        · rw [hpc' y hyp, hpc] at hd
          cases hd
        · rw [hmc] at hd
          cases hd
      have hdead' : x.s.pc y = .dead ∨ x.mode y = .newborn :=
        hdead.imp (fun hd => (hpc' y hyp).symm.trans hd) fun hd => (hm y hyp hyc).symm.trans hd
      rcases hq with rfl | hq
      · rw [hppself, hopself]
        exact ⟨hyc.symm, hyc.symm⟩
      · rw [hpp q (hne q hq), hop q (hne q hq)]
        exact h.barren y hylive h1 hdead' q hq
  case exiting =>
    show ∀ y c, (s'.setPc p .user).pc y = .exiting c → y ≠ s'.slot 1 → ∀ q ∈ s'.live,
      (s'.task q).pOpptr ≠ y
    rw [hlive, hslot1]
    intro y c hy h1 q hq
    have hyp : y ≠ p := by
      rintro rfl
      rw [hpcp] at hy
      cases hy
    rw [hpc' y hyp] at hy
    rcases hq with rfl | hq
    · rw [hopself]
      rintro rfl
      rw [hpc] at hy
      cases hy
    · rw [hop q (hne q hq)]
      exact h.exiting y c hy h1 q hq
  case zombie =>
    show ∀ y ∈ s'.live, (s'.task y).state = .zombie → (s'.setPc p .user).pc y = .dead
    rw [hlive]
    intro y hy hzy
    rcases hy with rfl | hy
    · rw [hst'.zombie y] at hzy
      dsimp only at hzy
      rw [update_self] at hzy
      cases hzy
    · rw [hpc' y (hne y hy)]
      exact h.zombie y hy ((hz y (hne y hy)).1 hzy)

end Inv

end LinuxEvocation.Exit
