import LinuxEvocation.Fs.Ext2.Namei.Rename

/-!
# One operation of a run

* `Outcome` — what one operation of a run does, as changes.
* `Idle` — nobody has a reference to an inode that is not in use; `lookup_path`.
* `emptyFs` — a new file system, with nothing but its root.
-/

namespace LinuxEvocation.Ext2.Namei

open Errno Directory Hierarchy

variable {sb : SuperBlock} {s s' t u v : Fs} {dir d e i j de ino : Nat} {name nm : Name} {env : Env}

/-! ## Outcomes -/

/-- What an operation can do. -/
inductive Outcome (sb : SuperBlock) (s : Fs) : Event → Fs → Prop
  | quiet {ev : Event} {t : Fs} : Changes sb s t → Outcome sb s ev t
  | lookup {dir : Nat} {name : Name} : holds s [dir] = true →
      Outcome sb s (.lookup dir name) (lookup sb s dir name).2.2
  | readdir {dir pos : Nat} : holds s [dir] = true →
      Outcome sb s (.readdir dir pos) (readdir sb s dir pos).2
  | rmdir {dir e : Nat} {name : Name} {env : Env} {u v t : Fs} : Removing sb s dir name env e u →
      RemoveDir sb u e v → Changes sb v t → Outcome sb s (.rmdir dir name env) t
  | rename {oldDir newDir : Nat} {oldName newName : Name} {env : Env} {f : Found} {u v t : Fs} :
      renamePrepare sb s oldDir oldName newDir newName env = some (.ok f, u) →
      Prepared sb s oldDir oldName newDir newName f u → (u.inode f.oldIno).isDir = true →
      f.newIno = none → MoveDir sb u f.oldIno newDir v → Changes sb v t →
      Outcome sb s (.rename oldDir oldName newDir newName env) t
  | replace {oldDir newDir i : Nat} {oldName newName : Name} {env : Env} {f : Found} {u t : Fs} :
      renamePrepare sb s oldDir oldName newDir newName env = some (.ok f, u) →
      f.newIno = some i → (u.inode i).isDir = true →
      Outcome sb s (.rename oldDir oldName newDir newName env) t

/-- The references of `ext2_rmdir` after the directory is removed. -/
theorem RemoveDir.changes {l : List Nat} (h : Path sb s l u) (hr : RemoveDir sb u e v)
    (hd : Lru.Distinct v.cache) : Path sb v l v := by
  refine ⟨.refl, hr.good h.good, hd, ?_⟩
  have howns := h.owns
  cases hr with
  | @mk dir nm m d' hdir he hempty hused hisDir hsize hnlink hcount hunk hshape hperm =>
    have hroot : rootIno ≠ e := by
      rintro rfl
      have hmem := Good.mem_kids_of_perm hdir hperm
      exact h.good.hier.kid_ne_root hmem rfl
    rw [withDir, Fs.count_setNlink, Fs.count_setDir, Fs.inode_modify_of_ne hroot]
    exact howns

theorem RemoveDir.distinct (hr : RemoveDir sb u e v) (hd : Lru.Distinct u.cache) :
    Lru.Distinct v.cache := by
  cases hr
  exact hd

theorem MoveDir.distinct {newDir : Nat} (hm : MoveDir sb u e newDir v) : Lru.Distinct v.cache := by
  cases hm with
  | mk _ _ hr => exact hr.distinct

theorem MoveDir.changes {l : List Nat} {newDir : Nat} (h : Path sb s l u)
    (hm : MoveDir sb u e newDir v) : Path sb v l v := by
  refine ⟨.refl, hm.good h.good, hm.distinct, ?_⟩
  have howns := h.owns
  cases hm with
  | mk _ _ _ =>
    simp only [withMoved, moved, Fs.count_setNlink, Fs.count_setDir]
    exact howns

theorem quiet_of_path {ev : Event} {l : List Nat} (p : Path sb s l t) : Outcome sb s ev t :=
  .quiet p.changes

/-- **Every operation has an outcome.** -/
theorem outcome_of_next {ev : Event} (h : Good sb s) (hd : Lru.Distinct s.cache)
    (hnext : next sb s ev = some t) : Outcome sb s ev t := by
  rw [next] at hnext
  obtain ⟨⟨err, t'⟩, hstep, rfl⟩ := Option.map_eq_some_iff.1 hnext
  cases ev with
  | lookup dir name =>
    simp only [step, Option.ite_none_right_eq_some] at hstep
    obtain ⟨hl, hstep⟩ := hstep
    cases hstep
    exact .lookup hl
  | readdir dir pos =>
    simp only [step, Option.ite_none_right_eq_some] at hstep
    obtain ⟨hl, hstep⟩ := hstep
    obtain rfl : (readdir sb s dir pos).2 = t' := congrArg Prod.snd (Option.some.inj hstep)
    exact .readdir hl
  | create dir name env =>
    simp only [step, Option.ite_none_right_eq_some, Bool.and_eq_true, Option.some.injEq] at hstep
    obtain ⟨⟨⟨hl, hdirs⟩, hfree⟩, hstep⟩ := hstep
    have p : Path sb s [] (create sb s dir name env).2 := create_path h hd hl hdirs hfree
    rw [hstep] at p
    exact quiet_of_path p
  | mknod dir name env =>
    simp only [step, Option.ite_none_right_eq_some, Bool.and_eq_true, Option.some.injEq] at hstep
    obtain ⟨⟨⟨hl, hdirs⟩, hfree⟩, hstep⟩ := hstep
    have p : Path sb s [] (mknod sb s dir name env).2 := mknod_path h hd hl hdirs hfree
    rw [hstep] at p
    exact quiet_of_path p
  | mkdir dir name env =>
    simp only [step, Option.ite_none_right_eq_some, Bool.and_eq_true, Option.some.injEq] at hstep
    obtain ⟨⟨⟨hl, hdirs⟩, hfree⟩, hstep⟩ := hstep
    have p : Path sb s [] (mkdir sb s dir name env).2 := mkdir_path h hd hdirs hl hfree
    rw [hstep] at p
    exact quiet_of_path p
  | symlink dir name env =>
    simp only [step, Option.ite_none_right_eq_some, Bool.and_eq_true, Option.some.injEq] at hstep
    obtain ⟨⟨⟨hl, hdirs⟩, hfree⟩, hstep⟩ := hstep
    have p : Path sb s [] (symlink sb s dir name env).2 := symlink_path h hd hl hdirs hfree
    rw [hstep] at p
    exact quiet_of_path p
  | link old dir name env =>
    simp only [step, Option.ite_none_right_eq_some, Bool.and_eq_true, Option.some.injEq] at hstep
    obtain ⟨⟨⟨hl, hdirs⟩, hused⟩, hstep⟩ := hstep
    have p : Path sb s [] (link sb s old dir name env).2 := link_path h hd hdirs hl hused
    rw [hstep] at p
    exact quiet_of_path p
  | unlink dir name env =>
    simp only [step, Option.ite_none_right_eq_some, Bool.and_eq_true, Option.some.injEq] at hstep
    obtain ⟨⟨hl, hdirs⟩, hstep⟩ := hstep
    have p : Path sb s [] (unlink sb s dir name env).2 := unlink_path h hd hdirs hl
    rw [hstep] at p
    exact quiet_of_path p
  | rmdir dir name env =>
    simp only [step, Option.ite_none_right_eq_some, Bool.and_eq_true, Option.some.injEq] at hstep
    obtain ⟨⟨hl, hdirs⟩, hstep⟩ := hstep
    obtain rfl : (rmdir sb s dir name env).2 = t' := congrArg Prod.snd hstep
    rcases rmdir_cases h hd hl hdirs with p | ⟨e, u, v, hrem, hr, heq⟩
    · exact quiet_of_path p
    · have p := RemoveDir.changes hrem.path hr (hr.distinct hrem.path.distinct)
      refine .rmdir hrem hr ?_
      rw [heq]
      exact p.iput.iput.changes
  | rename oldDir oldName newDir newName env =>
    simp only [step, Option.ite_none_right_eq_some, Bool.and_eq_true] at hstep
    obtain ⟨⟨⟨⟨hl, hdirs⟩, hold⟩, hnew⟩, hstep⟩ := hstep
    rcases rename_cases h hd hl hdirs hold hnew hstep with p | ⟨f, u, hprep, hp, hdir, hmove⟩
    · exact quiet_of_path p
    · cases hn : f.newIno with
      | some i =>
        refine .replace hprep hn ?_
        rw [(hp.replace i hn).2.2.2.2]
        exact hdir
      | none =>
        obtain ⟨v, hm, rfl⟩ := hmove hn
        have p := MoveDir.changes hp.path hm
        rw [hn] at p
        exact .rename hprep hp hdir hn hm p.iput.iput.iput.changes
  | hold ino =>
    simp only [step, Option.ite_none_right_eq_some] at hstep
    obtain ⟨hused, hstep⟩ := hstep
    cases hstep
    exact .quiet (.single (.iget hused))
  | drop ino =>
    simp only [step, Option.ite_none_right_eq_some] at hstep
    obtain ⟨hl, hstep⟩ := hstep
    cases hstep
    exact quiet_of_path (Path.start h hd hl).iput
  | otherAdd dev dir name ino =>
    simp only [step, Option.ite_none_right_eq_some] at hstep
    obtain ⟨hdev, hstep⟩ := hstep
    cases hstep
    exact .quiet (.single (.cache (Learned.other hd hdev)))
  | otherLookup dev dir name =>
    simp only [step, Option.ite_none_right_eq_some] at hstep
    obtain ⟨hdev, hstep⟩ := hstep
    cases hstep
    exact .quiet (.single (.cache (Learned.lookup hd _ _ _)))
  | otherRemove dev dir name =>
    simp only [step, Option.ite_none_right_eq_some] at hstep
    obtain ⟨hdev, hstep⟩ := hstep
    cases hstep
    exact .quiet (.single (.cache (Learned.remove hd _ _ _)))

/-! ## Inodes that are not in use -/

/-- Nobody has a reference to an inode that is not in use. -/
def Idle (s : Fs) : Prop := ∀ i, (s.inode i).used = false → (s.inode i).count = 0

theorem Idle.of_eq (h : Idle s) (hused : ∀ j, (t.inode j).used = (s.inode j).used)
    (hcount : ∀ j, (t.inode j).count = (s.inode j).count) : Idle t := by
  intro j hj
  rw [hused] at hj
  rw [hcount]
  exact h j hj

theorem Idle.modify {f : Inode → Inode} (h : Idle s)
    (hf : (f (s.inode i)).used = false → (f (s.inode i)).count = 0) : Idle (s.modify i f) := by
  intro j hj
  by_cases hji : j = i
  · subst hji
    rw [Fs.inode_modify_self] at hj ⊢
    exact hf hj
  · rw [Fs.inode_modify_of_ne hji] at hj ⊢
    exact h j hj

theorem Change.idle (hc : Change sb s t) (h : Idle s) : Idle t := by
  cases hc with
  | @iget i hi =>
    refine h.modify fun hc => ?_
    rw [hi] at hc
    cases hc
  | @iput i _ =>
    rw [Fs.iput]
    split
    · refine h.modify fun hc => ?_
      show (s.inode i).count - 1 = 0
      rw [h i hc]
    · exact h.modify fun _ => rfl
  | cache _ => exact h
  | clear _ => exact h.modify fun _ => rfl
  | alloc _ _ _ hused _ _ _ =>
    refine h.modify fun hc => ?_
    rw [hused] at hc
    cases hc
  | fill _ _ _ | addFile _ _ _ _ _ _ | removeFile _ _ _ _ _ _ =>
    exact h.of_eq (fun _ => by simp) fun _ => by simp
  | @addDir dir i nm m d' _ _ _ _ hused _ _ _ _ _ _ _ _ =>
    have hm : Idle (s.modify i fun _ => m) := h.modify fun hc => by
      rw [hused] at hc
      cases hc
    exact hm.of_eq (fun _ => by simp [withDir]) fun _ => by simp [withDir]
  | moveFile _ _ _ _ _ _ _ _ _ _ => exact h.of_eq (fun _ => by simp) fun _ => by simp

theorem RemoveDir.idle (hr : RemoveDir sb s e t) (h : Idle s) : Idle t := by
  cases hr with
  | @mk dir nm m d' _ _ _ hused _ _ _ _ _ _ _ =>
    have hm : Idle (s.modify e fun _ => m) := h.modify fun hc => by
      rw [hused] at hc
      cases hc
    exact hm.of_eq (fun _ => by simp [withDir]) fun _ => by simp [withDir]

theorem MoveDir.idle {newDir : Nat} (hm : MoveDir sb s e newDir t) (h : Idle s) : Idle t := by
  cases hm with
  | mk _ _ _ =>
    exact h.of_eq (fun _ => by simp [withMoved, moved]) fun _ => by simp [withMoved, moved]

theorem Idle.used_of_holds (h : Idle s) (hl : holds s [dir] = true) : (s.inode dir).used = true := by
  by_contra hc
  rw [Bool.not_eq_true] at hc
  have hcount := h dir hc
  simp only [holds, List.all_cons, List.all_nil, List.count_cons_self, List.count_nil, Bool.and_true,
    decide_eq_true_eq] at hl
  omega

/-- The answer of a look-up is in use, if the cache's is. -/
theorem lookup_path (h : Good sb s) (hd : Lru.Distinct s.cache) (hl : holds s [dir] = true)
    (hused : (s.inode dir).used = true)
    (hans : ∀ v, ((⟨sb.dev, dir, truncate name⟩ : DcacheKey), v) ∈ s.cache → v ≠ 0 →
      (s.inode v).used = true) : Path sb s [] (lookup sb s dir name).2.2 := by
  have p := Path.start h hd hl
  rw [lookup]
  split
  · exact p.iput
  rename_i hdir
  rw [Bool.not_eq_false] at hdir
  have p₁ := p.cache (Learned.lookup p.distinct sb.dev dir name)
  dsimp only
  split
  · rename_i hino
    refine ((p₁.iget ?_).perm (.swap ..)).iput.forget
    refine hans _ (Lru.mem_of_find_eq_some ?_) hino
    simp only [dcacheLookup] at hino ⊢
    cases hf : Lru.find s.cache ⟨sb.dev, dir, truncate name⟩ with
    | none => simp [hf] at hino
    | some v => rfl
  · split
    · exact p₁.iput
    · rename_i de hfind
      have hf := h.found ⟨hused, hdir⟩ (show s.findEntry sb dir name = some de from hfind)
      have p₂ := p₁.cache (Learned.add p₁.distinct hf.holds)
      exact ((p₂.iget hf.used).perm (.swap ..)).iput.forget

/-! ## A new file system -/

/-- The root, in use by the mount. -/
def rootInode (sb : SuperBlock) : Inode where
  used := true
  isDir := true
  nlink := 2
  count := 1
  dir := firstBlock sb rootIno rootIno

/-- A file system with nothing but its root, and a cache that knows nothing. -/
def emptyFs (sb : SuperBlock) : Fs where
  inode i := if i = rootIno then rootInode sb else Fs.noInode
  cache := []

theorem used_emptyFs : ((emptyFs sb).inode i).used = true ↔ i = rootIno := by
  by_cases hi : i = rootIno
  · simp [emptyFs, hi, rootInode]
  · simp [emptyFs, hi, Fs.noInode]

theorem inode_emptyFs_root : (emptyFs sb).inode rootIno = rootInode sb := by
  simp [emptyFs]

theorem idle_emptyFs : Idle (emptyFs sb) := by
  intro i hi
  by_cases hir : i = rootIno
  · rw [hir, inode_emptyFs_root] at hi
    cases hi
  · simp [emptyFs, hir, Fs.noInode]

theorem good_emptyFs (h : rootIno ≤ sb.inodesCount) : Good sb (emptyFs sb) := by
  have hlt : rootIno < 2 ^ 32 := by decide
  obtain ⟨hshape, hkids⟩ := firstBlock_shape sb hlt hlt
  have hroot : (emptyFs sb).Living rootIno := by
    rw [Fs.Living, Fs.dir, inode_emptyFs_root]
    exact ⟨rfl, rfl, hshape.pos⟩
  have hliving : ∀ {d}, (emptyFs sb).Living d ↔ d = rootIno := by
    intro d
    refine ⟨fun hd => used_emptyFs.1 hd.1, ?_⟩
    rintro rfl
    exact hroot
  have hparent : (emptyFs sb).parent rootIno = rootIno := by
    rw [Fs.parent, Fs.dir, inode_emptyFs_root]
    exact hshape.dotdot_inode
  have hvp : ((emptyFs sb).view sb).parent rootIno = rootIno := by
    rw [Fs.view_parent sb hroot, hparent]
  have hvk : ∀ d, ((emptyFs sb).view sb).kids d = 0 := by
    intro d
    by_cases hd : d = rootIno
    · subst hd
      rw [Fs.view_kids sb hroot, Fs.dir, inode_emptyFs_root, rootInode, hkids, Multiset.coe_nil]
    · exact if_neg fun hc => hd (hliving.1 hc)
  have hno : ∀ {d nm e}, (nm, e) ∉ ((emptyFs sb).view sb).kids d := by
    intro d nm e
    rw [hvk]
    exact Multiset.notMem_zero _
  refine ⟨?_, ?_, ?_, ?_, ?_⟩
  · intro d hd
    obtain rfl := hliving.1 hd
    rw [hparent, Fs.dir, inode_emptyFs_root]
    exact hshape
  · refine ⟨?_, ?_, ?_, ?_, ?_, ?_, ?_, ?_, ?_, ?_, hroot, hvp, ?_⟩
    · intro i hi
      rw [used_emptyFs.1 hi]
      omega
    · intro d hd
      exact ⟨hd.1, hd.1, hd.2.1⟩
    · intro d hu _ hd
      exact absurd (hliving.2 (used_emptyFs.1 hu)) hd
    · intro d _
      exact hvk d
    · intro d hd
      obtain rfl := hliving.1 hd
      rw [hvp]
      exact hroot
    · exact fun hk => absurd hk hno
    · exact fun hk => absurd hk hno
    · exact fun hk => absurd hk hno
    · exact fun hk => absurd hk hno
    · intro e he hne
      exact absurd (hliving.1 he) hne
    · intro i hi
      obtain rfl := used_emptyFs.1 hi
      rw [Fs.view_nlink sb hi, inode_emptyFs_root]
      have hfrom : ∀ d, linksFrom ((emptyFs sb).view sb) d rootIno = one rootIno d * 2 := by
        intro d
        by_cases hd : d = rootIno
        · rw [hd, linksFrom_of_living hroot, hvp, hvk, named_zero, one_self]
        · rw [linksFrom_of_not_living fun hc => hd (hliving.1 hc), hvk, named_zero,
            one_of_ne (Ne.symm hd), Nat.zero_mul]
      simp only [linksTo, hfrom]
      rw [sum_one_mul (by omega)]
      rfl
  · intro i hi
    rw [used_emptyFs.1 hi]
    decide
  · intro i hi
    rw [used_emptyFs.1 hi, inode_emptyFs_root]
    intro hc
    cases hc
  · rw [inode_emptyFs_root]
    exact Nat.one_pos

end LinuxEvocation.Ext2.Namei
