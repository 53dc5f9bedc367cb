import LinuxEvocation.Fs.Ext2.Namei.Coherence

/-!
# The directories stay a tree

* `TreeRooted` — along the `".."` entries on the disk every directory reaches the root.
* `PathHonest` — the cache answers look-ups as the disk would, and knows the parents that a rename of a
  directory walks through.
* `treeRooted_of_reach` — the tree over runs.
-/

namespace LinuxEvocation.Ext2.Namei

open Errno Directory Hierarchy Transition

variable {sb : SuperBlock} {s s' t u v base : Fs} {dir d e i j de ino old new : Nat}
  {name nm : Name} {env : Env}

/-! ## The tree -/

/-- Every directory reaches the root. -/
def TreeRooted (s : Fs) : Prop := ∀ d, s.Living d → ∃ n, s.parent^[n] d = rootIno

theorem under_iff (hd : ∀ x, s.Living x → s.Living (s.parent x)) (hl : s.Living d) :
    Under (s.view sb).parent rootIno d ↔ ∃ n, s.parent^[n] d = rootIno := by
  constructor
  · intro h
    induction h with
    | root => exact ⟨0, rfl⟩
    | @step d _ ih =>
      rw [Fs.view_parent sb hl] at ih
      obtain ⟨n, hn⟩ := ih (hd d hl)
      exact ⟨n + 1, hn⟩
  · rintro ⟨n, hn⟩
    induction n generalizing d with
    | zero =>
      obtain rfl : d = rootIno := hn
      exact .root
    | succ n ih =>
      refine .step ?_
      rw [Fs.view_parent sb hl]
      exact ih (hd d hl) hn

theorem treeRooted_iff (h : Good sb s) : TreeRooted s ↔ Rooted rootIno (s.view sb) := by
  refine forall_congr' fun d => forall_congr' fun hl => ?_
  exact (under_iff (fun x hx => h.living_parent hx) hl).symm

/-! ## The changes -/

/-- No directory comes and none gets another parent. -/
theorem Rooted.of_view (hr : Rooted rootIno (s.view sb)) (h : Good sb t)
    (hsame : ∀ {d}, t.Living d → s.Living d ∧ (t.view sb).parent d = (s.view sb).parent d) :
    Rooted rootIno (t.view sb) :=
  hr.congr (fun hd => h.hier.parent_living hd) hsame

theorem Change.rooted (hc : Change sb s t) (h : Good sb s) (hr : Rooted rootIno (s.view sb)) :
    Rooted rootIno (t.view sb) := by
  have hg := hc.good h
  cases hc with
  | iget _ =>
    rw [Fs.alike_iget.view sb]
    exact hr
  | @iput i _ =>
    rw [Fs.iput] at hg ⊢
    split at hg
    · rename_i hkeep
      rw [if_pos hkeep, Fs.alike_count.view sb]
      exact hr
    · rename_i hgo
      rw [if_neg hgo]
      simp only [not_or, Bool.not_eq_false, not_not] at hgo
      have hdead : ¬ s.Living i := by
        intro hl
        have := h.hier.nlink_pos_of_living hl
        rw [Fs.view_nlink sb hl.1] at this
        omega
      rw [Fs.view_modify_dead sb hdead (.inl rfl)]
      exact hr
  | cache _ => exact hr
  | @clear i hi =>
    have hdead : ¬ s.Living i := fun hl => by
      rw [hl.1] at hi
      cases hi
    rw [Fs.view_modify_dead sb hdead (.inl rfl)]
    exact hr
  | @alloc i m hi _ _ _ hdir _ _ =>
    have hdead : ¬ s.Living i := fun hl => by
      rw [hl.1] at hi
      cases hi
    rw [Fs.view_modify_dead sb hdead (.inr (.inl hdir))]
    exact hr
  | fill hdir hshape hperm =>
    rw [(h.fill hdir hshape hperm).2]
    exact hr
  | addFile hdir hi _ _ hshape hperm =>
    rw [view_addFile hdir hi hshape hperm]
    exact hr
  | @removeFile dir i nm d' hdir _ _ _ hshape hperm =>
    have hmem := Good.mem_kids_of_perm hdir hperm
    rw [view_removeFile hdir (h.hier.kid_used hmem) hshape hperm]
    exact hr
  | addDir hdir hi _ _ hused hisDir hnlink _ _ hm hkids hshape hperm =>
    rw [view_addDir hdir hi hused hisDir hnlink hm hkids hshape hperm]
    refine hr.mkdir h.hier hdir fun hc => ?_
    rw [show (s.view sb).used _ ↔ (s.inode _).used = true from Iff.rfl, hi] at hc
    cases hc
  | moveFile hold hnew hfile hk _ hshape₁ hperm₁ hshape₂ hperm₂ _ =>
    have hview := (h.moveFile hold hnew hfile hk hshape₁ hperm₁ hshape₂ hperm₂).2
    rw [Fs.alike_cache.view sb, hview]
    exact hr

theorem RemoveDir.rooted (hc : RemoveDir sb s e t) (h : Good sb s)
    (hr : Rooted rootIno (s.view sb)) : Rooted rootIno (t.view sb) := by
  have hg := hc.good h
  cases hc with
  | @mk dir nm m d' hdir he hempty hused hisDir hsize hnlink hcount hunk hshape hperm =>
    have hmem := Good.mem_kids_of_perm hdir hperm
    have hview := view_removeDir hdir he (h.hier.kid_ne hmem).symm hempty hused hisDir hsize hnlink
      hshape hperm
    refine Rooted.of_view hr hg fun {d} hd => ?_
    have hd' : (Hierarchy.rmdir (s.view sb) dir nm e).living d := by
      rw [← hview]
      exact hd
    rw [hview]
    by_cases hde : d = e
    · simp [Hierarchy.rmdir, hde] at hd'
    · simp only [Hierarchy.rmdir, Function.update_of_ne hde] at hd' ⊢
      exact ⟨hd', trivial⟩

theorem MoveDir.rooted {newDir : Nat} (hc : MoveDir sb s e newDir t) (h : Good sb s)
    (hr : Rooted rootIno (s.view sb)) (hclear : Clear (s.view sb).parent rootIno e newDir) :
    Rooted rootIno (t.view sb) := by
  cases hc with
  | mk hm _ _ =>
    rw [Fs.alike_cache.view sb, hm.view_withMoved h]
    exact hr.moveDir hclear

/-! ## The walk -/

/-- The cache does not know another parent of the directories above. -/
def PathHonest (sb : SuperBlock) (s : Fs) (new : Nat) : Prop :=
  ∀ n v, ((⟨sb.dev, s.parent^[n] new, dotdot⟩ : DcacheKey), v) ∈ s.cache → v ≠ 0 →
    v = s.parent (s.parent^[n] new)

theorem Good.findEntry_dotdot (h : Good sb s) (hl : s.Living d) :
    s.findEntry sb d dotdot = some 12 :=
  (h.shape hl).findEntry_dotdot (h.parent_ne_zero hl)

theorem above_of_honest (stale : Nat → Option Nat) (h : Good sb base)
    (hs : s.inode = (base.iget new).inode) (hd : Lru.Distinct s.cache) (hl : base.Living new)
    (hon : PathHonest sb { base with cache := s.cache } new) :
    (above sb stale s new).1 = some (base.parent new) ∧
      PathHonest sb { base with cache := (above sb stale s new).2.cache } new := by
  have hfind := h.findEntry_dotdot hl
  have hl' : Looked sb base s.cache new dotdot _ _ := lookup_looked h hs hd ⟨hl.1, hl.2.1⟩
  have habove : above sb stale s new =
      ((lookup sb s new dotdot).2.1, (lookup sb s new dotdot).2.2) := by
    rw [above, if_pos]
    rw [hs, Fs.used_iget]
    exact hl.1
  rw [habove]
  constructor
  · cases hres : (lookup sb s new dotdot).2.1 with
    | none =>
      have := hl'.miss hres
      rw [hfind] at this
      cases this
    | some v =>
      rcases hl'.answer v hres with ⟨hv, hmem⟩ | ⟨de, hde, hv⟩
      · rw [hon 0 v hmem hv]
        rfl
      · rw [hfind] at hde
        obtain rfl := Option.some.inj hde
        rw [← hv]
        rfl
  · intro n v hmem hv
    rcases hl'.entry hmem with hmem | ⟨de, hde, hk, hval⟩
    · exact hon n v hmem hv
    · rw [hfind] at hde
      obtain rfl := Option.some.inj hde
      rw [DcacheKey.mk.injEq] at hk
      show v = base.parent (base.parent^[n] new)
      rw [show base.parent^[n] new = new from hk.2.1]
      exact hval

/-- **A walk that the cache does not mislead.**  If it does not meet `old`, then `old` is not above
`new`. -/
theorem clear_of_subdirLoop {stale : Nat → Option Nat} {n : Nat} (h : Good sb base)
    (hr : Rooted rootIno (base.view sb)) (hs : s.inode = (base.iget new).inode)
    (hd : Lru.Distinct s.cache) (hl : base.Living new)
    (hon : PathHonest sb { base with cache := s.cache } new)
    (hrun : subdirLoop sb old stale n s new = some (false, t)) :
    Clear (base.view sb).parent rootIno old new := by
  induction n generalizing s new with
  | zero => cases hrun
  | succ n ih =>
    rw [subdirLoop_succ] at hrun
    obtain ⟨hinode, hlearned⟩ := above_spec stale h hs hd
    obtain ⟨hsome, hon'⟩ := above_of_honest stale h hs hd hl hon
    split at hrun
    · cases hrun
    · rename_i hne
      rw [hsome] at hrun hinode
      dsimp only at hrun
      split at hrun
      · -- the root is its own parent, and no other directory is
        rename_i hself
        have hroot : new = rootIno := by
          refine (hr new hl).eq_root ?_
          rw [Fs.view_parent sb hl]
          exact hself
        subst hroot
        exact .root hne
      · refine .step hne ?_
        rw [Fs.view_parent sb hl]
        exact ih hinode hlearned.distinct (h.living_parent hl)
          (fun m v hmem hv => hon' (m + 1) v hmem hv) hrun

/-- The walk of a rename that moves a directory. -/
theorem subdir_of_prepare {oldDir newDir : Nat} {oldName newName : Name} {f : Found}
    (hprep : renamePrepare sb s oldDir oldName newDir newName env = some (.ok f, u))
    (hnone : f.newIno = none) (hdir : (s.inode f.oldIno).isDir = true) :
    ∃ w, subdir sb (s.iget f.oldIno) newDir f.oldIno env = some (false, w) := by
  rw [renamePrepare] at hprep
  split at hprep
  · cases hprep
  rename_i oldDe hfind
  dsimp only at hprep
  split at hprep
  · cases hprep
  have hfind₁ : (s.iget ((s.dir oldDir).inode oldDe)).findEntry sb newDir newName =
      s.findEntry sb newDir newName := by
    rw [Fs.findEntry, Fs.dir_iget, Fs.findEntry]
  rw [hfind₁] at hprep
  cases hnew : s.findEntry sb newDir newName with
  | some newDe =>
    -- then there is an inode of the new name
    rw [hnew] at hprep
    simp only [Option.map_some] at hprep
    split at hprep
    · cases hprep
    obtain ⟨⟨err, w⟩, -, hprep⟩ := Option.bind_eq_some_iff.1 hprep
    dsimp only at hprep
    split at hprep
    · cases hprep
    split at hprep
    · cases hprep
    obtain ⟨⟨err', w'⟩, -, hprep⟩ := Option.bind_eq_some_iff.1 hprep
    dsimp only at hprep
    split at hprep
    · cases hprep
    · cases hprep
      cases hnone
  | none =>
    rw [hnew] at hprep
    simp only [Option.map_none, reduceCtorEq, if_false, Option.bind_some, ne_eq, not_true_eq_false,
      Option.isSome_none, Bool.false_eq_true, false_and] at hprep
    obtain ⟨⟨err, w⟩, hcheck, hprep⟩ := Option.bind_eq_some_iff.1 hprep
    dsimp only at hprep
    split at hprep
    · cases hprep
    rename_i herr
    rw [not_not] at herr
    split at hprep
    · cases hprep
    cases hprep
    rw [checkMoved, Fs.isDir_iget, hdir, if_neg (by decide)] at hcheck
    split at hcheck
    · cases hcheck
      exact absurd herr (by decide)
    obtain ⟨⟨inside, x⟩, hsub, hcheck⟩ := Option.bind_eq_some_iff.1 hcheck
    dsimp only at hcheck
    split at hcheck
    · cases hcheck
      exact absurd herr (by decide)
    · rename_i hin
      rw [Bool.not_eq_true] at hin
      rw [hin] at hsub
      exact ⟨x, hsub⟩

/-! ## Runs -/

/-- The cache answers a look-up as the directory would, and knows no other parent of the directories
that a rename of a directory walks through. -/
def Honest (sb : SuperBlock) (s : Fs) : Event → Prop
  | .lookup dir name => (dcacheLookup s.cache sb.dev dir name).1 ≠ 0 →
      (truncate name, (dcacheLookup s.cache sb.dev dir name).1) ∈ (s.dir dir).entries sb.blocksize
  | .rename oldDir oldName newDir newName env =>
      ∀ f u, renamePrepare sb s oldDir oldName newDir newName env = some (.ok f, u) →
        (s.inode f.oldIno).isDir = true → PathHonest sb s newDir
  | _ => True

/-- An inode that an entry names is in use. -/
theorem Good.used_of_mem_entries (h : Good sb s)
    (hdir : (s.inode dir).used = true ∧ (s.inode dir).isDir = true)
    (hmem : (nm, i) ∈ (s.dir dir).entries sb.blocksize) : (s.inode i).used = true := by
  have hl : s.Living dir := by
    refine ⟨hdir.1, hdir.2, fun hc => ?_⟩
    rw [entries, live_of_size_eq_zero hc] at hmem
    exact absurd hmem List.not_mem_nil
  rw [((h.shape hl).entries_perm (h.pos hl.1) (h.parent_ne_zero hl)).mem_iff, List.mem_cons,
    List.mem_cons, Prod.mk.injEq, Prod.mk.injEq] at hmem
  rcases hmem with ⟨-, rfl⟩ | ⟨-, rfl⟩ | hk
  · exact hl.1
  · exact (h.living_parent hl).1
  · exact h.hier.kid_used ((Good.mem_view_kids hl).2 hk)

/-- What every state of a run is. -/
structure TreeInv (sb : SuperBlock) (s : Fs) : Prop where
  good : Good sb s
  distinct : Lru.Distinct s.cache
  idle : Idle s
  rooted : Rooted rootIno (s.view sb)

theorem TreeInv.keep (h : TreeInv sb s) (hc : Changes sb s t) : TreeInv sb t := by
  obtain ⟨hg, hd, hi, hr⟩ := hc.keep
    (I := fun s => Lru.Distinct s.cache ∧ Idle s ∧ Rooted rootIno (s.view sb))
    (fun hg hs hstep => ⟨hstep.distinct hs.1, hstep.idle hs.2.1, hstep.rooted hg hs.2.2⟩) h.good
    ⟨h.distinct, h.idle, h.rooted⟩
  exact ⟨hg, hd, hi, hr⟩

theorem lookup_changes (h : TreeInv sb s) (hl : holds s [dir] = true)
    (hon : Honest sb s (.lookup dir name)) : Changes sb s (lookup sb s dir name).2.2 := by
  have hused := h.idle.used_of_holds hl
  by_cases hdir : (s.inode dir).isDir = true
  · refine (lookup_path h.good h.distinct hl hused fun v hmem hv => ?_).changes
    have hfind : (dcacheLookup s.cache sb.dev dir name).1 = v := by
      simp only [dcacheLookup, h.distinct.find_eq_some.2 hmem, Option.getD_some]
    refine h.good.used_of_mem_entries ⟨hused, hdir⟩ (hfind ▸ hon ?_)
    rw [hfind]
    exact hv
  · rw [Bool.not_eq_true] at hdir
    rw [lookup, if_pos hdir]
    exact (Path.start h.good h.distinct hl).iput.changes

theorem inode_readdir {pos : Nat} : (readdir sb s dir pos).2.inode = s.inode := by
  rw [readdir]
  split
  · rfl
  split
  · rfl
  split <;> rfl

theorem distinct_readdir {pos : Nat} (hd : Lru.Distinct s.cache) :
    Lru.Distinct (readdir sb s dir pos).2.cache := by
  rw [readdir]
  split
  · exact hd
  split
  · exact hd
  split
  · exact hd.insert _ _ _
  · exact hd

/-- **One operation keeps the tree.** -/
theorem treeInv_of_next {ev : Event} (h : TreeInv sb s) (hrep : replaces sb s ev = false)
    (hon : Honest sb s ev) (hnext : next sb s ev = some t) : TreeInv sb t := by
  cases outcome_of_next h.good h.distinct hnext with
  | quiet hc => exact h.keep hc
  | lookup hl => exact h.keep (lookup_changes h hl hon)
  | @readdir dir pos hl =>
    have hinode : (readdir sb s dir pos).2.inode = s.inode := inode_readdir
    have halike : Fs.Alike s (readdir sb s dir pos).2 := fun i => by
      rw [Fs.dir, hinode]
      exact ⟨rfl, rfl, rfl, rfl⟩
    refine ⟨h.good.of_inode_eq hinode, distinct_readdir h.distinct, ?_, ?_⟩
    · intro i hi
      rw [hinode] at hi ⊢
      exact h.idle i hi
    · rw [halike.view sb]
      exact h.rooted
  | rmdir hrem hr hc =>
    have hu := h.keep hrem.path.changes
    exact TreeInv.keep ⟨hr.good hu.good, hr.distinct hu.distinct, hr.idle hu.idle,
      hr.rooted hu.good hu.rooted⟩ hc
  | @rename oldDir newDir oldName newName env f u v t hprep hp hdir hnone hm hc =>
    have hu := h.keep hp.path.changes
    have hnew : s.Living newDir := by
      have : (u.view sb).living newDir := hp.new
      rw [hp.view] at this
      exact this
    have hisDir : (s.inode f.oldIno).isDir = true := by
      have hk : (truncate oldName, f.oldIno) ∈ (u.view sb).kids oldDir :=
        (Good.mem_view_kids hp.old).2 (mem_kids.2 ⟨f.oldDe, hp.oldKid, hp.oldEntry⟩)
      have : (u.view sb).isDir f.oldIno := ⟨hu.good.hier.kid_used hk, hdir⟩
      rw [hp.view] at this
      exact this.2
    have hclear : Clear (u.view sb).parent rootIno f.oldIno newDir := by
      obtain ⟨w, hsub⟩ := subdir_of_prepare hprep hnone hisDir
      have hclear := clear_of_subdirLoop (h.good.iget f.oldIno) (by
        rw [Fs.alike_iget.view sb]
        exact h.rooted) rfl h.distinct (Fs.alike_iget.living.2 hnew) (by
        have hon' := hon f u hprep hisDir
        have hparent : (s.iget f.oldIno).parent = s.parent := funext fun d => by
          rw [Fs.parent, Fs.dir_iget, Fs.parent]
        intro n v hmem hv
        have : v = s.parent (s.parent^[n] newDir) := hon' n v (by
          rw [← hparent]
          exact hmem) hv
        show v = (s.iget f.oldIno).parent ((s.iget f.oldIno).parent^[n] newDir)
        rw [hparent]
        exact this) hsub
      rwa [Fs.alike_iget.view sb, ← hp.view] at hclear
    exact TreeInv.keep ⟨hm.good hu.good, hm.distinct, hm.idle hu.idle,
      hm.rooted hu.good hu.rooted hclear⟩ hc
  | replace hprep hnew hdir =>
    rw [replaces_of_prepare hprep hnew hdir] at hrep
    cases hrep

/-- **The tree over runs.** -/
theorem treeRooted_of_reach {s₀ : Fs} (h₀ : Good sb s₀) (hd : Lru.Distinct s₀.cache) (hi : Idle s₀)
    (hr : TreeRooted s₀)
    (h : Reach (next sb) (fun s ev => replaces sb s ev = false ∧ Honest sb s ev) s₀ s) :
    TreeRooted s := by
  have hs := h.invariant (I := TreeInv sb) ⟨h₀, hd, hi, (treeRooted_iff h₀).1 hr⟩
    fun _ _ _ hs hev hnext => treeInv_of_next hs hev.1 hev.2 hnext
  exact (treeRooted_iff hs.good).2 hs.rooted

theorem treeRooted_emptyFs : TreeRooted (emptyFs sb) := fun _ hd => ⟨0, used_emptyFs.1 hd.1⟩

/-- `p/a` is moved to `q/a` while the cache knows that `a` is in `p`; then `q` is moved into `a`. -/
def loopRun : List Event :=
  [.hold 2, .mkdir 2 [112] (envFor 11), .hold 2, .mkdir 2 [113] (envFor 12),
    .hold 11, .mkdir 11 [97] (envFor 13), .hold 13, .lookup 13 dotdot, .drop 11,
    .hold 11, .hold 12, .rename 11 [97] 12 [97] (envFor 14),
    .hold 2, .hold 13, .rename 2 [113] 13 [113] (envFor 14)]

/-- The two directories are above each other. -/
theorem not_treeRooted_loopRun :
    ∃ s, Good smallSb (emptyFs smallSb) ∧ TreeRooted (emptyFs smallSb) ∧
      Reach (next smallSb) (fun s ev => replaces smallSb s ev = false) (emptyFs smallSb) s ∧
      ¬ TreeRooted s := by
  have hsome : ((execOkFrom (next smallSb) (fun s ev => !replaces smallSb s ev) (emptyFs smallSb)
      loopRun).any fun s => decide (s.Living 12) && decide (s.parent 12 = 13) &&
        decide (s.parent 13 = 12)) = true := by
    decide +kernel
  obtain ⟨s, hs, hp⟩ := (Option.any_eq_true _ _).1 hsome
  simp only [Bool.and_eq_true, decide_eq_true_eq] at hp
  refine ⟨s, good_emptyFs (by decide), treeRooted_emptyFs,
    Reach.of_execOkFrom (fun _ _ h => by simpa using h) .init hs, fun hr => ?_⟩
  have hloop : ∀ n, s.parent^[n] 12 ≠ rootIno ∧ s.parent^[n] 13 ≠ rootIno := by
    intro n
    induction n with
    | zero => exact ⟨show (12 : Nat) ≠ rootIno by decide, show (13 : Nat) ≠ rootIno by decide⟩
    | succ n ih =>
      rw [Function.iterate_succ_apply, Function.iterate_succ_apply, hp.1.2, hp.2]
      exact ⟨ih.2, ih.1⟩
  obtain ⟨n, hn⟩ := hr 12 hp.1.1
  exact (hloop n).1 hn

/-- A directory is moved, and the cache knows no parents. -/
def moveRun : List Event :=
  [.hold 2, .mkdir 2 [112] (envFor 11), .hold 2, .mkdir 2 [113] (envFor 12),
    .hold 11, .mkdir 11 [97] (envFor 13), .hold 11, .hold 12,
    .rename 11 [97] 12 [98] (envFor 14)]

theorem treeRooted_moveRun :
    ∃ s, Reach (next smallSb) (fun s ev => replaces smallSb s ev = false ∧ Honest smallSb s ev)
      (emptyFs smallSb) s ∧ s.Living 13 ∧ s.parent 13 = 12 ∧ TreeRooted s := by
  let noParents : Fs → Event → Bool := fun s ev => match ev with
    | .lookup .. => false
    | .rename .. => s.cache.all fun x => x.1.name ≠ dotdot
    | _ => true
  have hsome : ((execOkFrom (next smallSb) (fun s ev => !replaces smallSb s ev && noParents s ev)
      (emptyFs smallSb) moveRun).any fun s => decide (s.Living 13) &&
        decide (s.parent 13 = 12)) = true := by
    decide +kernel
  obtain ⟨s, hs, hp⟩ := (Option.any_eq_true _ _).1 hsome
  simp only [Bool.and_eq_true, decide_eq_true_eq] at hp
  have hreach : Reach (next smallSb) (fun s ev => replaces smallSb s ev = false ∧
      Honest smallSb s ev) (emptyFs smallSb) s := by
    refine Reach.of_execOkFrom (fun s ev h => ?_) .init hs
    simp only [Bool.and_eq_true, Bool.not_eq_true'] at h
    refine ⟨h.1, ?_⟩
    cases ev with
    | lookup dir name => exact absurd h.2 Bool.false_ne_true
    | rename oldDir oldName newDir newName env =>
      intro f u _ _ n v hmem _
      have hall := List.all_eq_true.1 h.2 _ hmem
      simp at hall
    | _ => trivial
  exact ⟨s, hreach, hp.1, hp.2, treeRooted_of_reach (good_emptyFs (by decide)) List.nodup_nil
    idle_emptyFs treeRooted_emptyFs hreach⟩

end LinuxEvocation.Ext2.Namei
