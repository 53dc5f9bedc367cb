import LinuxEvocation.Fs.Ext2.Namei.Operations

/-!
# `ext2_lookup`, `subdir` and `ext2_rename` as changes

* `Prepared` — what `ext2_rename` knows before it changes an entry.
-/

namespace LinuxEvocation.Ext2.Namei

open Errno Directory Hierarchy

variable {sb : SuperBlock} {s s' t u base : Fs} {dir d e i j de ino old new : Nat}
  {name nm : Name} {env : Env} {dd d' : Directory} {l : List Nat}

/-! ## References that come and go -/

namespace Fs

theorem inode_iput_eq (h : s.inode = t.inode) : (s.iput i).inode = (t.iput i).inode := by
  funext j
  by_cases hj : j = i
  · subst hj
    exact inode_iput_congr (congrFun h j)
  · rw [inode_iput_of_ne hj, inode_iput_of_ne hj, h]

theorem inode_iget_eq (h : s.inode = t.inode) : (s.iget i).inode = (t.iget i).inode := by
  simp only [iget, modify, h]

theorem inode_iget_comm : ((s.iget i).iget j).inode = ((s.iget j).iget i).inode := by
  by_cases hij : i = j
  · rw [hij]
  · funext a
    by_cases hai : a = i
    · subst hai
      simp only [iget, inode_modify_self, inode_modify_of_ne hij]
    · by_cases haj : a = j
      · subst haj
        simp only [iget, inode_modify_self, inode_modify_of_ne hai]
      · simp only [iget, inode_modify_of_ne hai, inode_modify_of_ne haj]

end Fs

/-- A reference is taken and given up again. -/
theorem inode_iput_iget
    (h : (s.inode i).used = true → (s.inode i).count = 0 → (s.inode i).nlink ≠ 0) :
    ((s.iget i).iput i).inode = s.inode := by
  funext j
  by_cases hj : j = i
  · subst hj
    rw [Fs.iput, if_pos]
    · rw [Fs.inode_modify_self, Fs.iget, Fs.inode_modify_self]
      simp
    · rw [Fs.count_iget, one_self, Fs.used_iget, Fs.nlink_iget]
      by_contra hc
      simp only [not_or, not_lt, Bool.not_eq_false, not_not] at hc
      exact h hc.2.1 (by omega) hc.2.2
  · rw [Fs.inode_iput_of_ne hj, Fs.iget, Fs.inode_modify_of_ne hj]

/-- The reference to one inode is given up for one to another. -/
theorem inode_iput_iget_iget (h : Good sb base) (hs : s.inode = (base.iget i).inode) :
    ((s.iget j).iput i).inode = (base.iget j).inode := by
  have heq : (s.iget j).inode = ((base.iget j).iget i).inode := by
    rw [Fs.inode_iget_eq hs, Fs.inode_iget_comm]
  rw [Fs.inode_iput_eq heq]
  refine inode_iput_iget fun hu hc => ?_
  rw [Fs.used_iget] at hu
  rw [Fs.count_iget] at hc
  rw [Fs.nlink_iget]
  exact h.freed hu (by omega)

theorem inode_iput_base (h : Good sb base) (hs : s.inode = (base.iget i).inode) :
    (s.iput i).inode = base.inode := by
  rw [Fs.inode_iput_eq hs]
  exact inode_iput_iget fun hu hc => h.freed hu hc

/-! ## `ext2_lookup` -/

/-- The inode of the answer has the reference that the directory had. -/
def withRef (base : Fs) : Option Nat → Fs
  | none => base
  | some v => base.iget v

/-- What a look-up leaves and what it answers. -/
structure Looked (sb : SuperBlock) (base : Fs) (c : Dcache) (dir : Nat) (name : Name)
    (result : Option Nat) (t : Fs) : Prop where
  inode : t.inode = (withRef base result).inode
  learned : Learned sb { base with cache := c } t.cache
  answer : ∀ v, result = some v → v ≠ 0 ∧ ((⟨sb.dev, dir, truncate name⟩ : DcacheKey), v) ∈ c ∨
    ∃ de, base.findEntry sb dir name = some de ∧ (base.dir dir).inode de = v
  miss : result = none → base.findEntry sb dir name = none
  entry : ∀ {k v}, (k, v) ∈ t.cache → (k, v) ∈ c ∨
    ∃ de, base.findEntry sb dir name = some de ∧
      k = ⟨sb.dev, dir, truncate ((base.dir dir).name de)⟩ ∧ v = (base.dir dir).inode de

theorem lookup_looked (h : Good sb base) (hs : s.inode = (base.iget dir).inode)
    (hd : Lru.Distinct s.cache)
    (hdir : (base.inode dir).used = true ∧ (base.inode dir).isDir = true) :
    Looked sb base s.cache dir name (lookup sb s dir name).2.1 (lookup sb s dir name).2.2 := by
  have hdirEq : s.dir dir = base.dir dir := by
    rw [Fs.dir, hs]
    exact Fs.dir_iget
  have hfindEq : s.findEntry sb dir name = base.findEntry sb dir name := by
    rw [Fs.findEntry, hdirEq, Fs.findEntry]
  have hl₀ : Learned sb { base with cache := s.cache }
      (dcacheLookup s.cache sb.dev dir name).2 :=
    Learned.lookup (s := { base with cache := s.cache }) hd _ _ _
  rw [lookup, if_neg (by rw [hs, Fs.isDir_iget, hdir.2]; decide)]
  dsimp only
  split
  · rename_i hino
    refine ⟨inode_iput_iget_iget h hs, ?_, ?_, fun hc => (by cases hc), ?_⟩
    · rw [Fs.cache_iput]
      exact hl₀
    · rintro v hv
      obtain rfl := Option.some.inj hv
      refine .inl ⟨hino, Lru.mem_of_find_eq_some ?_⟩
      simp only [dcacheLookup] at hino ⊢
      cases hf : Lru.find s.cache ⟨sb.dev, dir, truncate name⟩ with
      | none => simp [hf] at hino
      | some v => rfl
    · intro k v hmem
      rw [Fs.cache_iput] at hmem
      exact .inl (Lru.mem_touch.1 hmem)
  · have hfindEq' : Fs.findEntry sb { s with cache := (dcacheLookup s.cache sb.dev dir name).2 } dir
        name = base.findEntry sb dir name := hfindEq
    rw [hfindEq']
    split
    · rename_i hnone
      refine ⟨inode_iput_base h hs, ?_, fun v hv => (by cases hv), fun _ => hnone, ?_⟩
      · rw [Fs.cache_iput]
        exact hl₀
      · intro k v hmem
        rw [Fs.cache_iput] at hmem
        exact .inl (Lru.mem_touch.1 hmem)
    · rename_i de hsome
      have hf := h.found hdir hsome
      refine ⟨inode_iput_iget_iget h hs, ?_, ?_, fun hc => (by cases hc), ?_⟩
      · rw [Fs.cache_iput]
        refine hl₀.trans (Learned.add hl₀.distinct ?_)
        show base.Holds sb ⟨sb.dev, dir, truncate ((s.dir dir).name de)⟩ ((s.dir dir).inode de)
        rw [hdirEq]
        exact hf.holds
      · rintro v hv
        obtain rfl := Option.some.inj hv
        refine .inr ⟨de, hsome, ?_⟩
        show _ = (s.dir dir).inode de
        rw [hdirEq]
      · intro k v hmem
        rw [Fs.cache_iput] at hmem
        rcases hl₀.distinct.mem_insert hmem with heq | hin
        · obtain ⟨rfl, rfl⟩ := Prod.mk.inj heq
          refine .inr ⟨de, hsome, ?_, ?_⟩
          · show (⟨_, _, truncate ((s.dir dir).name de)⟩ : DcacheKey) = _
            rw [hdirEq]
          · show (s.dir dir).inode de = _
            rw [hdirEq]
        · exact .inl (Lru.mem_touch.1 hin.1)

/-! ## `subdir` -/

/-- One round of the loop: the inode above, and what is left. -/
def above (sb : SuperBlock) (stale : Nat → Option Nat) (s : Fs) (new : Nat) : Option Nat × Fs :=
  if (s.inode new).used then ((lookup sb s new dotdot).2.1, (lookup sb s new dotdot).2.2)
  else (stale new, match stale new with
    | some ino => (s.iget ino).iput new
    | none => s.iput new)

theorem subdirLoop_succ (stale : Nat → Option Nat) (n : Nat) :
    subdirLoop sb old stale (n + 1) s new =
      if new = old then some (true, s.iput new)
      else match (above sb stale s new).1 with
        | none => some (false, (above sb stale s new).2)
        | some ino => if ino = new then some (false, ((above sb stale s new).2).iput ino)
          else subdirLoop sb old stale n (above sb stale s new).2 ino := by
  rw [subdirLoop, above]
  by_cases hn : new = old
  · rw [if_pos hn, if_pos hn]
  · rw [if_neg hn, if_neg hn]
    by_cases hu : (s.inode new).used = true
    · simp only [hu, if_true] <;> rfl
    · simp only [hu, if_false, Bool.false_eq_true] <;> rfl

theorem above_spec (stale : Nat → Option Nat) (h : Good sb base)
    (hs : s.inode = (base.iget new).inode) (hd : Lru.Distinct s.cache) :
    (above sb stale s new).2.inode = (withRef base (above sb stale s new).1).inode ∧
      Learned sb { base with cache := s.cache } (above sb stale s new).2.cache := by
  have hrefl : Learned sb { base with cache := s.cache } s.cache :=
    Learned.refl (s := { base with cache := s.cache }) hd
  rw [above]
  split
  · rename_i hu
    rw [hs, Fs.used_iget] at hu
    by_cases hdir : (base.inode new).isDir = true
    · have hl : Looked sb base s.cache new dotdot _ _ := lookup_looked h hs hd ⟨hu, hdir⟩
      exact ⟨hl.inode, hl.learned⟩
    · -- it is no directory any more: the cache led to it
      rw [Bool.not_eq_true] at hdir
      rw [lookup, if_pos (by rw [hs, Fs.isDir_iget, hdir])]
      refine ⟨inode_iput_base h hs, ?_⟩
      rw [Fs.cache_iput]
      exact hrefl
  · cases stale new with
    | none =>
      refine ⟨inode_iput_base h hs, ?_⟩
      rw [Fs.cache_iput]
      exact hrefl
    | some v =>
      refine ⟨inode_iput_iget_iget h hs, ?_⟩
      rw [Fs.cache_iput]
      exact hrefl

/-- **The walk leaves the inodes as they were**; if it does not meet `old`, it did not start there. -/
theorem subdirLoop_spec {stale : Nat → Option Nat} {n : Nat} {b : Bool} (h : Good sb base)
    (hs : s.inode = (base.iget new).inode) (hd : Lru.Distinct s.cache)
    (hrun : subdirLoop sb old stale n s new = some (b, t)) :
    t.inode = base.inode ∧ Learned sb { base with cache := s.cache } t.cache ∧
      (b = false → new ≠ old) := by
  induction n generalizing s new with
  | zero => cases hrun
  | succ n ih =>
    rw [subdirLoop_succ] at hrun
    obtain ⟨hinode, hlearned⟩ := above_spec stale h hs hd
    split at hrun
    · cases hrun
      refine ⟨inode_iput_base h hs, ?_, fun hc => by cases hc⟩
      rw [Fs.cache_iput]
      exact Learned.refl (s := { base with cache := s.cache }) hd
    · rename_i hne
      split at hrun
      · rename_i hnone
        cases hrun
        rw [hnone] at hinode
        exact ⟨hinode, hlearned, fun _ => hne⟩
      · rename_i ino hsome
        rw [hsome] at hinode
        split at hrun
        · cases hrun
          refine ⟨inode_iput_base h hinode, ?_, fun _ => hne⟩
          rw [Fs.cache_iput]
          exact hlearned
        · obtain ⟨hi, hl, -⟩ := ih hinode hlearned.distinct hrun
          exact ⟨hi, hlearned.trans hl, fun _ => hne⟩

/-! ## What `ext2_rename` finds out -/

variable {oldDir newDir oldIno : Nat} {oldName newName : Name} {newIno : Option Nat} {err : Int}

/-- Only the cache differs, and it has only learnt. -/
structure Walked (sb : SuperBlock) (s t : Fs) : Prop where
  inode : t.inode = s.inode
  learned : Learned sb s t.cache

namespace Walked

theorem refl (hd : Lru.Distinct s.cache) : Walked sb s s := ⟨rfl, Learned.refl hd⟩

theorem path (h : Walked sb t u) (p : Path sb s l t) : Path sb s l u :=
  (p.cache h.learned).of_eq (fun j => by rw [h.inode]) rfl

theorem view (h : Walked sb s t) : t.view sb = s.view sb := by
  refine Fs.Alike.view sb fun i => ?_
  rw [Fs.dir, h.inode]
  exact ⟨rfl, rfl, rfl, rfl⟩

theorem dir_eq (h : Walked sb s t) : t.dir d = s.dir d := by rw [Fs.dir, h.inode, Fs.dir]

end Walked

theorem subdir_walked {b : Bool} (h : Good sb s) (hd : Lru.Distinct s.cache)
    (hrun : subdir sb s new old env = some (b, t)) : Walked sb s t ∧ (b = false → new ≠ old) := by
  obtain ⟨hinode, hlearned, hne⟩ := subdirLoop_spec h rfl hd hrun
  exact ⟨⟨hinode, hlearned⟩, hne⟩

theorem checkTarget_spec (h : Good sb s) (hd : Lru.Distinct s.cache)
    (hrun : checkTarget sb s oldIno newDir new env = some (err, t)) :
    Walked sb s t ∧
      (err = 0 → (s.inode new).isDir = true → (s.inode oldIno).isDir = true) := by
  rw [checkTarget] at hrun
  split at hrun
  · rename_i hfile
    cases hrun
    refine ⟨.refl hd, fun _ hc => ?_⟩
    rw [hfile] at hc
    cases hc
  · split at hrun
    · cases hrun
      exact ⟨.refl hd, fun hc => absurd hc (by decide)⟩
    · rename_i hdir
      rw [Bool.not_eq_false] at hdir
      obtain ⟨⟨inside, u⟩, hsub, hrun⟩ := Option.bind_eq_some_iff.1 hrun
      obtain ⟨hw, -⟩ := subdir_walked h hd hsub
      refine ⟨?_, fun _ _ => hdir⟩
      dsimp only at hrun
      split at hrun
      · cases hrun
        exact hw
      · split at hrun
        · cases hrun
          exact hw
        · split at hrun <;> cases hrun <;> exact hw

/-- What the tests on a directory that is to be moved say. -/
structure Movable (s : Fs) (oldIno oldDir newDir : Nat) (newIno : Option Nat) : Prop where
  target : ∀ i, newIno = some i → (s.inode i).isDir = true
  ne : newDir ≠ oldIno
  parent : parentIno (s.dir oldIno) = oldDir

theorem checkMoved_spec (h : Good sb s) (hd : Lru.Distinct s.cache)
    (hrun : checkMoved sb s oldIno oldDir newDir newIno env = some (err, t)) :
    Walked sb s t ∧
      (err = 0 → (s.inode oldIno).isDir = true → Movable s oldIno oldDir newDir newIno) := by
  rw [checkMoved] at hrun
  split at hrun
  · rename_i hfile
    cases hrun
    refine ⟨.refl hd, fun _ hc => ?_⟩
    rw [hfile] at hc
    cases hc
  · split at hrun
    · cases hrun
      exact ⟨.refl hd, fun hc => absurd hc (by decide)⟩
    · rename_i htarget
      obtain ⟨⟨inside, u⟩, hsub, hrun⟩ := Option.bind_eq_some_iff.1 hrun
      obtain ⟨hw, hne⟩ := subdir_walked h hd hsub
      dsimp only at hrun
      split at hrun
      · cases hrun
        exact ⟨hw, fun hc => absurd hc (by decide)⟩
      · rename_i hinside
        split at hrun
        · cases hrun
          exact ⟨hw, fun hc => absurd hc (by decide)⟩
        · rename_i hparent
          rw [not_not, hw.dir_eq] at hparent
          have hmov : Movable s oldIno oldDir newDir newIno := by
            refine ⟨?_, hne (Bool.not_eq_true _ ▸ hinside), hparent⟩
            rintro i rfl
            simpa using htarget
          split at hrun
          · cases hrun
            exact ⟨hw, fun _ _ => hmov⟩
          · cases hrun
            exact ⟨hw, fun _ _ => hmov⟩

/-- What `ext2_rename` knows before it changes an entry. -/
structure Prepared (sb : SuperBlock) (s : Fs) (oldDir : Nat) (oldName : Name) (newDir : Nat)
    (newName : Name) (f : Found) (u : Fs) : Prop where
  path : Path sb s (f.oldIno :: (f.newIno.toList ++ [oldDir, newDir])) u
  view : u.view sb = s.view sb
  old : u.Living oldDir
  new : u.Living newDir
  oldKid : (u.dir oldDir).Kid sb.blocksize f.oldDe
  oldEntry : (u.dir oldDir).name f.oldDe = truncate oldName ∧
    (u.dir oldDir).inode f.oldDe = f.oldIno
  oldCount : (u.inode f.oldIno).count ≠ 0
  newName : (u.dir newDir).name f.newDe = truncate newName
  fresh : f.newIno = none → Directory.Rec sb.blocksize (u.dir newDir) f.newDe ∧
    (u.dir newDir).inode f.newDe = 0 ∧ 0 < (u.dir newDir).nameLen f.newDe
  replace : ∀ i, f.newIno = some i → (u.dir newDir).Kid sb.blocksize f.newDe ∧
    (u.dir newDir).inode f.newDe = i ∧ i ≠ f.oldIno ∧ (u.inode i).count ≠ 0 ∧
    (u.inode i).isDir = (u.inode f.oldIno).isDir
  moved : (u.inode f.oldIno).isDir = true → newDir ≠ f.oldIno ∧ u.parent f.oldIno = oldDir

theorem kid_of_renameable (hf : FoundIn sb s dir name de) (h : renameable name = true) :
    (s.dir dir).Kid sb.blocksize de ∧ (s.dir dir).name de = truncate name := by
  simp only [renameable, Bool.and_eq_true, decide_eq_true_eq] at h
  rcases hf.which with ⟨-, hc | hc⟩ | ⟨-, hc⟩ | hk
  · exact absurd hc h.1.1
  · exact absurd hc h.1.2
  · exact absurd hc h.2
  · exact hk

theorem Path.release (p : Path sb s (oldIno :: (newIno.toList ++ [oldDir, newDir])) t) :
    Path sb s [] (release t oldDir newDir (some oldIno) newIno) := by
  cases newIno with
  | none => exact p.iput.iput.iput
  | some i => exact p.iput.iput.iput.iput

/-- The record of the old name is still there when one is prepared for the new name. -/
theorem kid_of_filled (h : Directory.Sound sb.blocksize dd) (hf : Filled sb.blocksize dd d' de nm)
    (ho : dd.Kid sb.blocksize i) :
    d'.Kid sb.blocksize i ∧ d'.name i = dd.name i ∧ d'.inode i = dd.inode i := by
  obtain ⟨hrec, hinode, hzero, hsecond⟩ := h.kid_iff.1 ho
  have hne : i ≠ de := by
    rintro rfl
    exact hinode (hf.free hrec)
  have hsame := hf.same i hrec hne
  refine ⟨hf.sound.kid_iff.2 ⟨(hf.recs i).2 (.inl hrec), ?_, hzero, hsecond⟩, hsame.name, hsame.inode⟩
  rw [hsame.inode]
  exact hinode

theorem Good.parent_of_kid (h : Good sb s) (hdir : s.Living dir)
    (hkid : (s.dir dir).Kid sb.blocksize de)
    (hisDir : (s.inode ((s.dir dir).inode de)).isDir = true) :
    s.Living ((s.dir dir).inode de) ∧ s.parent ((s.dir dir).inode de) = dir := by
  have hk : ((s.dir dir).name de, (s.dir dir).inode de) ∈ (s.view sb).kids dir :=
    (Good.mem_view_kids hdir).2 (mem_kids.2 ⟨de, hkid, rfl, rfl⟩)
  obtain ⟨hl, hp⟩ := h.hier.kid_dir hk ⟨h.hier.kid_used hk, hisDir⟩
  rw [Fs.view_parent sb hl] at hp
  exact ⟨hl, hp⟩

/-- What was found is there: the tests on a directory that is to be moved, then a record. -/
theorem prepared_fresh {noSpace : Bool} {d : Directory} {newDe oldDe : Nat}
    (p : Path sb s [oldIno, oldDir, newDir] t) (hview : t.view sb = s.view sb)
    (hold : t.Living oldDir) (hnew : (t.inode newDir).used = true ∧ (t.inode newDir).isDir = true)
    (hkid : (t.dir oldDir).Kid sb.blocksize oldDe)
    (hentry : (t.dir oldDir).name oldDe = truncate oldName ∧ (t.dir oldDir).inode oldDe = oldIno)
    (hcount : (t.inode oldIno).count ≠ 0)
    (hmov : (t.inode oldIno).isDir = true → Movable t oldIno oldDir newDir none)
    (hadd : (t.dir newDir).addEntry sb.blocksize newName noSpace = .ok (d, newDe)) :
    Prepared sb s oldDir oldName newDir newName ⟨oldDe, oldIno, newDe, none⟩ (t.setDir newDir d) := by
  have hl : t.Living newDir := ⟨hnew.1, hnew.2, size_ne_zero_of_addEntry hadd⟩
  have hshape := p.good.shape hl
  have hf := addEntry_filled hshape.sound hadd
  obtain ⟨hshape', hperm⟩ := hshape.fill (p.good.pos hl.1) (p.good.parent_ne_zero hl) hf
  have hne : newName.length ≠ 0 := by
    intro hc
    rw [Directory.addEntry, if_pos hc] at hadd
    cases hadd
  have holdDir : (t.setDir newDir d).dir oldDir = if oldDir = newDir then d else t.dir oldDir := by
    split
    · rename_i heq
      rw [heq, Fs.dir_setDir_self]
    · rename_i hc
      exact Fs.dir_setDir_of_ne hc
  have hkid' : ((t.setDir newDir d).dir oldDir).Kid sb.blocksize oldDe ∧
      ((t.setDir newDir d).dir oldDir).name oldDe = truncate oldName ∧
      ((t.setDir newDir d).dir oldDir).inode oldDe = oldIno := by
    rw [holdDir]
    split
    · rename_i heq
      subst heq
      obtain ⟨hk, hn, hi⟩ := kid_of_filled hshape.sound hf hkid
      exact ⟨hk, hn.trans hentry.1, hi.trans hentry.2⟩
    · exact ⟨hkid, hentry⟩
  refine ⟨p.step (.fill hl hshape' hperm) (by simp), (p.good.fill hl hshape' hperm).2.trans hview,
    (living_setDir hl hshape'.pos).2 hold,
    (living_setDir hl hshape'.pos).2 hl, hkid'.1, hkid'.2, by simpa using hcount, ?_, ?_, ?_, ?_⟩
  · rw [Fs.dir_setDir_self]
    exact hf.name
  · rw [Fs.dir_setDir_self]
    refine fun _ => ⟨(hf.recs newDe).2 (.inr rfl), hf.inode, ?_⟩
    rw [hf.nameLen]
    exact length_truncate_pos hne
  · intro i hi
    cases hi
  · intro hdir
    rw [Fs.isDir_setDir] at hdir
    have hm := hmov hdir
    refine ⟨hm.ne, ?_⟩
    rw [Fs.parent, Fs.dir_setDir_of_ne hm.ne.symm]
    exact hentry.2 ▸ (p.good.parent_of_kid hold hkid (hentry.2 ▸ hdir)).2

theorem prepared_replace {newDe oldDe new : Nat}
    (p : Path sb s [oldIno, new, oldDir, newDir] t) (hview : t.view sb = s.view sb)
    (hold : t.Living oldDir) (hnew : t.Living newDir)
    (hkid : (t.dir oldDir).Kid sb.blocksize oldDe)
    (hentry : (t.dir oldDir).name oldDe = truncate oldName ∧ (t.dir oldDir).inode oldDe = oldIno)
    (hcount : (t.inode oldIno).count ≠ 0) (hkid' : (t.dir newDir).Kid sb.blocksize newDe)
    (hentry' : (t.dir newDir).name newDe = truncate newName ∧ (t.dir newDir).inode newDe = new)
    (hcount' : (t.inode new).count ≠ 0) (hne : new ≠ oldIno)
    (hdir : (t.inode new).isDir = true → (t.inode oldIno).isDir = true)
    (hmov : (t.inode oldIno).isDir = true → Movable t oldIno oldDir newDir (some new)) :
    Prepared sb s oldDir oldName newDir newName ⟨oldDe, oldIno, newDe, some new⟩ t := by
  refine ⟨p, hview, hold, hnew, hkid, hentry, hcount, hentry'.1, fun hc => (by cases hc), ?_, ?_⟩
  · rintro i hi
    obtain rfl := Option.some.inj hi
    refine ⟨hkid', hentry'.2, hne, hcount', ?_⟩
    rw [Bool.eq_iff_iff]
    exact ⟨hdir, fun hc => (hmov hc).target _ rfl⟩
  · intro hd
    have hm := hmov hd
    refine ⟨hm.ne, ?_⟩
    exact hentry.2 ▸ (p.good.parent_of_kid hold hkid (hentry.2 ▸ hd)).2

theorem renamePrepare_spec {r : Except Int Found} (h : Good sb s) (hd : Lru.Distinct s.cache)
    (hl : holds s [oldDir, newDir] = true) (hdirs : areDirs s [oldDir, newDir] = true)
    (hold : renameable oldName = true) (hnew : renameable newName = true)
    (hrun : renamePrepare sb s oldDir oldName newDir newName env = some (r, u)) :
    match r with
    | .error _ => Path sb s [] u
    | .ok f => Prepared sb s oldDir oldName newDir newName f u := by
  have p := Path.start h hd hl
  have hu : ((s.inode oldDir).used = true ∧ (s.inode oldDir).isDir = true) ∧
      ((s.inode newDir).used = true ∧ (s.inode newDir).isDir = true) := by
    simpa [areDirs, and_assoc] using hdirs
  rw [renamePrepare] at hrun
  split at hrun
  · cases hrun
    exact p.iput.iput
  rename_i oldDe hfindOld
  have hf := h.found hu.1 hfindOld
  obtain ⟨hkid, hname⟩ := kid_of_renameable hf hold
  generalize hoi : (s.dir oldDir).inode oldDe = oldIno at *
  have p₁ := p.iget (hoi ▸ hf.used)
  dsimp only at hrun
  split at hrun
  · cases hrun
    exact p₁.iput.iput.iput
  have hfind₁ : (s.iget oldIno).findEntry sb newDir newName = s.findEntry sb newDir newName := by
    rw [Fs.findEntry, Fs.dir_iget, Fs.findEntry]
  rw [hfind₁] at hrun
  have hcount : ∀ x : Fs, ((x.iget oldIno).inode oldIno).count ≠ 0 := by
    intro x
    rw [Fs.count_iget, one_self]
    exact Nat.succ_ne_zero _
  cases hfindNew : s.findEntry sb newDir newName with
  | none =>
    rw [hfindNew] at hrun
    simp only [Option.map_none, reduceCtorEq, if_false, Option.bind_some, ne_eq, not_true_eq_false,
      Option.isSome_none, Bool.false_eq_true, false_and] at hrun
    obtain ⟨⟨err, w⟩, hcheck, hrun⟩ := Option.bind_eq_some_iff.1 hrun
    obtain ⟨hw, hmov⟩ := checkMoved_spec p₁.good p₁.distinct hcheck
    have p₂ := hw.path p₁
    dsimp only at hrun
    split at hrun
    · cases hrun
      exact p₂.iput.iput.iput
    rename_i herr
    rw [not_not] at herr
    split at hrun
    · cases hrun
      exact p₂.iput.iput.iput
    rename_i d newDe hadd
    cases hrun
    have hdirEq : ∀ x, w.dir x = s.dir x := fun x => by rw [hw.dir_eq, Fs.dir_iget]
    refine prepared_fresh p₂ (hw.view.trans (Fs.alike_iget.view sb)) ?_ ?_ ?_ ?_ ?_ ?_ hadd
    · rw [Fs.Living, hdirEq, hw.inode, Fs.used_iget, Fs.isDir_iget]
      exact hf.living
    · rw [hw.inode, Fs.used_iget, Fs.isDir_iget]
      exact hu.2
    · rw [hdirEq]
      exact hkid
    · rw [hdirEq]
      exact ⟨hname, hoi⟩
    · rw [hw.inode]
      exact hcount s
    · intro hdir
      rw [hw.inode] at hdir
      obtain ⟨h₁, h₂, h₃⟩ := hmov herr hdir
      exact ⟨fun i hi => (by cases hi), h₂, by rw [hw.dir_eq]; exact h₃⟩
  | some newDe =>
    have hfn := h.found hu.2 hfindNew
    obtain ⟨hkidNew, hnameNew⟩ := kid_of_renameable hfn hnew
    rw [hfindNew] at hrun
    simp only [Option.map_some, Fs.dir_iget] at hrun
    generalize hni : (s.dir newDir).inode newDe = new at *
    have p₂ : Path sb s [oldIno, new, oldDir, newDir] ((s.iget oldIno).iget new) :=
      (p₁.iget (by rw [Fs.used_iget]; exact hni ▸ hfn.used)).perm (.swap ..)
    split at hrun
    · cases hrun
      exact p₂.iput.iput.iput.iput
    rename_i hne
    rw [Option.some.injEq] at hne
    obtain ⟨⟨err, w⟩, hcheck, hrun⟩ := Option.bind_eq_some_iff.1 hrun
    obtain ⟨hw, hdir⟩ := checkTarget_spec p₂.good p₂.distinct hcheck
    have p₃ := hw.path p₂
    dsimp only at hrun
    split at hrun
    · cases hrun
      exact p₃.iput.iput.iput.iput
    rename_i herr
    rw [not_not] at herr
    split at hrun
    · cases hrun
      exact p₃.iput.iput.iput.iput
    obtain ⟨⟨err', w'⟩, hcheck', hrun⟩ := Option.bind_eq_some_iff.1 hrun
    obtain ⟨hw', hmov⟩ := checkMoved_spec p₃.good p₃.distinct hcheck'
    have p₄ := hw'.path p₃
    dsimp only at hrun
    split at hrun
    · cases hrun
      exact p₄.iput.iput.iput.iput
    rename_i herr'
    rw [not_not] at herr'
    cases hrun
    have hinode : u.inode = ((s.iget oldIno).iget new).inode := hw'.inode.trans hw.inode
    have hdirEq : ∀ x, u.dir x = s.dir x := fun x => by
      rw [hw'.dir_eq, hw.dir_eq, Fs.dir_iget, Fs.dir_iget]
    have hliving : ∀ x, s.Living x → u.Living x := by
      intro x hx
      rw [Fs.Living, hdirEq, hinode, Fs.used_iget, Fs.isDir_iget, Fs.used_iget, Fs.isDir_iget]
      exact hx
    have hview : u.view sb = s.view sb := by
      rw [hw'.view, hw.view, Fs.alike_iget.view sb, Fs.alike_iget.view sb]
    refine prepared_replace p₄ hview (hliving _ hf.living) (hliving _ hfn.living) ?_ ?_ ?_ ?_ ?_ ?_ hne ?_ ?_
    · rw [hdirEq]
      exact hkid
    · rw [hdirEq]
      exact ⟨hname, hoi⟩
    · rw [hinode, Fs.count_iget]
      have := hcount s
      omega
    · rw [hdirEq]
      exact hkidNew
    · rw [hdirEq]
      exact ⟨hnameNew, hni⟩
    · rw [hinode, Fs.count_iget, one_self]
      exact Nat.succ_ne_zero _
    · rw [hinode]
      exact hdir herr
    · intro hd'
      rw [hw'.inode] at hd'
      obtain ⟨h₁, h₂, h₃⟩ := hmov herr' hd'
      exact ⟨fun i hi => (by rw [hw'.inode]; exact h₁ i hi), h₂, by rw [hw'.dir_eq]; exact h₃⟩

/-! ## The changes -/

section Commit

variable {oldDe newDe : Nat}

/-- There is an entry of the old name and a free record with the new one. -/
structure Fresh (sb : SuperBlock) (w : Fs) (oldDir : Nat) (oldName : Name) (oldDe newDir : Nat)
    (newName : Name) (newDe e : Nat) : Prop where
  good : Good sb w
  old : w.Living oldDir
  new : w.Living newDir
  oldKid : (w.dir oldDir).Kid sb.blocksize oldDe
  oldEntry : (w.dir oldDir).name oldDe = oldName ∧ (w.dir oldDir).inode oldDe = e
  newRec : Directory.Rec sb.blocksize (w.dir newDir) newDe
  free : (w.dir newDir).inode newDe = 0
  newName : (w.dir newDir).name newDe = newName
  named : 0 < (w.dir newDir).nameLen newDe

/-- What the stores to the two directories do. -/
structure Relinked (sb : SuperBlock) (w : Fs) (oldDir : Nat) (oldName : Name) (oldDe newDir : Nat)
    (newName : Name) (e : Nat) (d₁ d₂ : Directory) : Prop where
  shape₁ : Shape sb.blocksize d₁ newDir (w.parent newDir)
  perm₁ : (d₁.kids sb.blocksize).Perm ((newName, e) :: (w.dir newDir).kids sb.blocksize)
  name₁ : ((w.setDir newDir d₁).dir oldDir).name oldDe = oldName
  delete : ((w.setDir newDir d₁).dir oldDir).deleteEntry sb.blocksize oldDe = (0, d₂)
  shape₂ : Shape sb.blocksize d₂ oldDir (w.parent oldDir)
  perm₂ : (((w.setDir newDir d₁).dir oldDir).kids sb.blocksize).Perm
    ((oldName, e) :: d₂.kids sb.blocksize)
  kid : (oldName, e) ∈ (w.view sb).kids oldDir

theorem Fresh.relink (hf : Fresh sb s oldDir oldName oldDe newDir newName newDe e) :
    ∃ d₂, Relinked sb s oldDir oldName oldDe newDir newName e
      ((s.dir newDir).setInode newDe e) d₂ := by
  have h := hf.good
  have hkid : (oldName, e) ∈ (s.view sb).kids oldDir :=
    (Good.mem_view_kids hf.old).2 (mem_kids.2 ⟨oldDe, hf.oldKid, hf.oldEntry.1, hf.oldEntry.2⟩)
  have hused : (s.inode e).used = true := h.hier.kid_used hkid
  have hshape := h.shape hf.new
  obtain ⟨hshape₁, hperm₁⟩ := hshape.store (h.pos hf.new.1) (h.parent_ne_zero hf.new) hf.newRec
    hf.free hf.named (h.pos hused) (h.lt_of_used hused)
  rw [hf.newName] at hperm₁
  -- the directory of the old name as it is now: the store may have been to it
  have hold : ∃ dd, (s.setDir newDir ((s.dir newDir).setInode newDe e)).dir oldDir = dd ∧
      Shape sb.blocksize dd oldDir (s.parent oldDir) ∧ dd.Kid sb.blocksize oldDe ∧
      dd.name oldDe = oldName ∧ dd.inode oldDe = e := by
    by_cases heq : oldDir = newDir
    · subst heq
      refine ⟨_, Fs.dir_setDir_self, hshape₁, ?_⟩
      obtain ⟨hrec, hinode, hzero, hsecond⟩ := hshape.sound.kid_iff.1 hf.oldKid
      have hne : oldDe ≠ newDe := by
        rintro rfl
        exact hinode hf.free
      have hsame := hshape.sound.same_setInode (v := e) hf.newRec hrec hne
      refine ⟨hshape₁.sound.kid_iff.2 ⟨?_, ?_, hzero, hsecond⟩, hsame.name.trans hf.oldEntry.1,
        hsame.inode.trans hf.oldEntry.2⟩
      · exact ((hshape.sound.setInode hf.newRec fun _ => hf.named).2 oldDe).2 hrec
      · rw [hsame.inode]
        exact hinode
    · exact ⟨_, Fs.dir_setDir_of_ne heq, h.shape hf.old, hf.oldKid, hf.oldEntry⟩
  obtain ⟨dd, hdd, hshapeOld, hk, hname, hinode⟩ := hold
  obtain ⟨d₂, hdel, hdeleted⟩ := deleteEntry_deleted hshapeOld.sound (hshapeOld.sound.kid_iff.1 hk).1
  obtain ⟨hshape₂, hperm₂⟩ := hshapeOld.delete hdeleted hk
  rw [hname, hinode] at hperm₂
  exact ⟨d₂, hshape₁, hperm₁, by rw [hdd]; exact hname, by rw [hdd]; exact hdel, hshape₂,
    by rw [hdd]; exact hperm₂, hkid⟩

/-- What the cache knows after the two calls of `ext2_rename`. -/
theorem renamed_of_distinct {c : Dcache} (hd : Lru.Distinct c)
    (hold : oldName.length ≤ nameMax) (hnew : newName.length ≤ nameMax)
    (hsub : ∀ k v, (k, v) ∈ c → k ≠ ⟨sb.dev, newDir, newName⟩ → (k, v) ∈ s.cache) :
    Renamed sb s oldDir oldName newDir newName e
      (dcacheAdd (dcacheRemove c sb.dev oldDir oldName) sb.dev newDir newName e) := by
  refine ⟨(hd.remove _).insert _ _ _, fun {k v} hmem => ?_⟩
  rcases (hd.remove _).mem_insert hmem with heq | ⟨hin, hne⟩
  · obtain ⟨rfl, rfl⟩ := Prod.mk.inj heq
    rw [truncate_of_le hnew]
    exact .inl ⟨rfl, rfl⟩
  · obtain ⟨hin, hne'⟩ := hd.mem_remove.1 hin
    rw [truncate_of_le hnew] at hne
    rw [truncate_of_le hold] at hne'
    exact .inr ⟨hsub k v hin hne, hne', hne⟩

end Commit

/-- The stores to the directories and to the cache. -/
def relink (sb : SuperBlock) (s : Fs) (oldDir newDir : Nat) (oldName newName : Name) (e : Nat)
    (d₁ d₂ : Directory) : Fs :=
  { (s.setDir newDir d₁).setDir oldDir d₂ with
    cache := dcacheAdd (dcacheRemove s.cache sb.dev oldDir oldName) sb.dev newDir newName e }

/-- The last stores, to the links. -/
def relinkCount (s : Fs) (oldDir newDir e : Nat) (newIno : Option Nat) : Fs :=
  let s := match newIno with
    | some i => s.setNlink i ((s.inode i).nlink - 1)
    | none => s
  if (s.inode e).isDir then
    let s := s.setDir e (setParentIno (s.dir e) newDir)
    let s := s.setNlink oldDir ((s.inode oldDir).nlink - 1)
    s.setNlink newDir ((s.inode newDir).nlink + 1)
  else s

theorem renameCommit_eq {f : Found} {d₂ : Directory}
    (hname : ((u.setDir newDir ((u.dir newDir).setInode f.newDe f.oldIno)).dir oldDir).name f.oldDe =
      oldName)
    (hname' : (u.dir newDir).name f.newDe = newName)
    (hdel : ((u.setDir newDir ((u.dir newDir).setInode f.newDe f.oldIno)).dir oldDir).deleteEntry
      sb.blocksize f.oldDe = (0, d₂)) :
    renameCommit sb u oldDir newDir f =
      (0, relinkCount (relink sb u oldDir newDir oldName newName f.oldIno
        ((u.dir newDir).setInode f.newDe f.oldIno) d₂) oldDir newDir f.oldIno f.newIno) := by
  have hnew : ((u.setDir newDir ((u.dir newDir).setInode f.newDe f.oldIno)).dir newDir).name f.newDe =
      newName := by
    rw [Fs.dir_setDir_self, name_setInode_self]
    exact hname'
  have hcache : ∀ (x : Fs) (c : Dcache) (i : Nat), ({ x with cache := c } : Fs).dir i = x.dir i :=
    fun _ _ _ => rfl
  simp only [renameCommit, deleteEntry, Fs.cacheRemove, Fs.cacheAdd, hcache, hname, hnew, hdel, ne_eq,
    not_true_eq_false, if_false]
  rfl

theorem Prepared.fresh_of_none {f : Found} (hp : Prepared sb s oldDir oldName newDir newName f u)
    (hnone : f.newIno = none) : Fresh sb u oldDir (truncate oldName) f.oldDe newDir
      (truncate newName) f.newDe f.oldIno := by
  obtain ⟨hrec, hfree, hnamed⟩ := hp.fresh hnone
  exact ⟨hp.path.good, hp.old, hp.new, hp.oldKid, hp.oldEntry, hrec, hfree, hp.newName, hnamed⟩

/-- The file that had the new name loses it first. -/
theorem Prepared.replaced {f : Found} (hp : Prepared sb s oldDir oldName newDir newName f u)
    (hsome : f.newIno = some i) (hfile : (u.inode f.oldIno).isDir = false) :
    ∃ w, Path sb s (f.oldIno :: (f.newIno.toList ++ [oldDir, newDir])) w ∧
      w = { (u.setDir newDir ((u.dir newDir).setInode f.newDe 0)).setNlink i
        ((u.inode i).nlink - 1) with
        cache := dcacheRemove u.cache sb.dev newDir (truncate newName) } ∧
      Fresh sb w oldDir (truncate oldName) f.oldDe newDir (truncate newName) f.newDe f.oldIno := by
  obtain ⟨hkid, hinode, hne, hcount, hdir⟩ := hp.replace i hsome
  have h := hp.path.good
  have hshape := h.shape hp.new
  obtain ⟨hrec, hused, hzero, hsecond⟩ := hshape.sound.kid_iff.1 hkid
  have hdel := deleted_of_first hshape.sound hrec
  obtain ⟨hshape₀, hperm₀⟩ := hshape.delete hdel hkid
  rw [hinode, hp.newName] at hperm₀
  have p₁ := hp.path.cache (Learned.remove hp.path.distinct sb.dev newDir (truncate newName))
  have p₂ := p₁.step (.removeFile hp.new (hdir.trans hfile) hcount
    (unknown_cacheRemove hp.path.distinct length_truncate_le) hshape₀ hperm₀) (by simp)
  have hold : ((u.setDir newDir ((u.dir newDir).setInode f.newDe 0)).dir oldDir).Kid sb.blocksize
      f.oldDe ∧ ((u.setDir newDir ((u.dir newDir).setInode f.newDe 0)).dir oldDir).name f.oldDe =
        truncate oldName ∧
      ((u.setDir newDir ((u.dir newDir).setInode f.newDe 0)).dir oldDir).inode f.oldDe =
        f.oldIno := by
    by_cases heq : oldDir = newDir
    · subst heq
      rw [Fs.dir_setDir_self]
      obtain ⟨hrec', hused', hzero', hsecond'⟩ := hshape.sound.kid_iff.1 hp.oldKid
      have hde : f.oldDe ≠ f.newDe := by
        intro hc
        rw [← hc, hp.oldEntry.2] at hinode
        exact hne hinode.symm
      have hsame := hdel.same f.oldDe hrec' hde
      refine ⟨hdel.sound.kid_iff.2 ⟨(hdel.recs _ hde).2 hrec', ?_, hzero', hsecond'⟩,
        hsame.name.trans hp.oldEntry.1, hsame.inode.trans hp.oldEntry.2⟩
      rw [hsame.inode]
      exact hused'
    · rw [Fs.dir_setDir_of_ne heq]
      exact ⟨hp.oldKid, hp.oldEntry⟩
  refine ⟨_, p₂, rfl, p₂.good, ?_, ?_, ?_, ?_, ?_, ?_, ?_, ?_⟩
  · rw [Fs.Living, Fs.used_setNlink, Fs.isDir_setNlink, Fs.dir_setNlink]
    exact (living_setDir (s := { u with cache := _ }) hp.new hshape₀.pos).2 hp.old
  · rw [Fs.Living, Fs.used_setNlink, Fs.isDir_setNlink, Fs.dir_setNlink]
    exact (living_setDir (s := { u with cache := _ }) hp.new hshape₀.pos).2 hp.new
  all_goals simp only [Fs.dir_setNlink]
  · exact hold.1
  · exact hold.2
  · rw [Fs.dir_setDir_self]
    exact ((hshape.sound.setInode hrec (absurd rfl)).2 f.newDe).2 hrec
  · rw [Fs.dir_setDir_self]
    exact inode_setInode_self (by omega)
  · rw [Fs.dir_setDir_self, name_setInode_self]
    exact hp.newName
  · rw [Fs.dir_setDir_self, nameLen_setInode_self]
    exact hshape.sound.named hrec hused

theorem Inode.eq_of_fields {m n : Inode} (hused : m.used = n.used) (hisDir : m.isDir = n.isDir)
    (hnlink : m.nlink = n.nlink) (hcount : m.count = n.count) (hdir : m.dir = n.dir) : m = n := by
  cases m
  cases n
  simp only [Inode.mk.injEq]
  exact ⟨hused, hisDir, hnlink, hcount, hdir⟩

/-- **A file is renamed.** -/
theorem renameCommit_file {f : Found} (hp : Prepared sb s oldDir oldName newDir newName f u)
    (hfile : (u.inode f.oldIno).isDir = false) :
    ∃ t, renameCommit sb u oldDir newDir f = (0, t) ∧
      Path sb s (f.oldIno :: (f.newIno.toList ++ [oldDir, newDir])) t := by
  cases hnew : f.newIno with
  | none =>
    have hf := hp.fresh_of_none hnew
    obtain ⟨d₂, hr⟩ := hf.relink
    refine ⟨_, renameCommit_eq hr.name₁ hp.newName hr.delete, ?_⟩
    have p := hp.path.step (.moveFile hp.old hp.new hfile hr.kid length_truncate_le hr.shape₁
      hr.perm₁ hr.shape₂ hr.perm₂ (renamed_of_distinct hp.path.distinct length_truncate_le
        length_truncate_le fun _ _ hmem _ => hmem)) (by simp)
    rw [hnew] at p ⊢
    refine p.of_eq (fun j => ?_) ?_ <;>
    · rw [relinkCount, if_neg]
      · rfl
      · simp only [relink, Fs.isDir_setDir, hfile]
        decide
  | some i =>
    obtain ⟨w, pw, hw, hf⟩ := hp.replaced hnew hfile
    obtain ⟨d₂, hr⟩ := hf.relink
    have hwdir : ∀ d, w.dir d =
        (u.setDir newDir ((u.dir newDir).setInode f.newDe 0)).dir d := by
      intro d
      rw [hw]
      exact Fs.dir_setNlink
    have hd₁ : (w.dir newDir).setInode f.newDe f.oldIno =
        (u.dir newDir).setInode f.newDe f.oldIno := by
      rw [hwdir, Fs.dir_setDir_self, setInode_setInode]
    rw [hd₁] at hr
    have hsame : (w.setDir newDir ((u.dir newDir).setInode f.newDe f.oldIno)).dir oldDir =
        (u.setDir newDir ((u.dir newDir).setInode f.newDe f.oldIno)).dir oldDir := by
      by_cases heq : oldDir = newDir
      · rw [heq, Fs.dir_setDir_self, Fs.dir_setDir_self]
      · rw [Fs.dir_setDir_of_ne heq, Fs.dir_setDir_of_ne heq, hwdir, Fs.dir_setDir_of_ne heq]
    refine ⟨_, renameCommit_eq (hsame ▸ hr.name₁) hp.newName (hsame ▸ hr.delete), ?_⟩
    have hwinode : ∀ j, (w.inode j).isDir = (u.inode j).isDir ∧
        (w.inode j).used = (u.inode j).used ∧ (w.inode j).count = (u.inode j).count := by
      intro j
      simp [hw]
    have p := pw.step (.moveFile hf.old hf.new ((hwinode _).1.trans hfile) hr.kid length_truncate_le
      hr.shape₁ hr.perm₁ hr.shape₂ hr.perm₂ (renamed_of_distinct (s := w) hp.path.distinct
        length_truncate_le length_truncate_le fun k v hmem hne => (by
          rw [hw]
          refine hp.path.distinct.mem_remove.2 ⟨hmem, ?_⟩
          rw [truncate_truncate]
          exact hne))) (by simp)
    rw [hnew] at p ⊢
    have hdir : ((relink sb u oldDir newDir (truncate oldName) (truncate newName) f.oldIno
        ((u.dir newDir).setInode f.newDe f.oldIno) d₂).inode f.oldIno).isDir = false := by
      simp only [relink, Fs.isDir_setDir, hfile]
    simp only [relinkCount, Fs.isDir_setNlink, hdir, Bool.false_eq_true, if_false]
    refine p.of_eq (fun j => ?_) rfl
    have hrelink : ∀ j, (relink sb u oldDir newDir (truncate oldName) (truncate newName) f.oldIno
        ((u.dir newDir).setInode f.newDe f.oldIno) d₂).inode j =
        ((u.setDir newDir ((u.dir newDir).setInode f.newDe f.oldIno)).setDir oldDir d₂).inode j :=
      fun _ => rfl
    refine Inode.eq_of_fields ?_ ?_ ?_ ?_ ?_
    · rw [Fs.used_setNlink, hrelink]
      simp [hwinode]
    · rw [Fs.isDir_setNlink, hrelink]
      simp [hwinode]
    · -- the count of the file that lost the name was stored before the directories, not behind them
      by_cases hji : j = i
      · subst hji
        rw [Fs.nlink_setNlink_self, hrelink]
        simp [hw]
      · rw [Fs.nlink_setNlink_of_ne hji, hrelink]
        simp [hw, Fs.nlink_setNlink_of_ne hji]
    · rw [Fs.count_setNlink, hrelink]
      simp [hwinode]
    · rw [← Fs.dir, Fs.dir_setNlink, Fs.dir, hrelink, ← Fs.dir]
      show _ = ((w.setDir newDir ((u.dir newDir).setInode f.newDe f.oldIno)).setDir oldDir d₂).dir j
      by_cases hjo : j = oldDir
      · rw [hjo, Fs.dir_setDir_self, Fs.dir_setDir_self]
      · rw [Fs.dir_setDir_of_ne hjo, Fs.dir_setDir_of_ne hjo]
        by_cases hjn : j = newDir
        · rw [hjn, Fs.dir_setDir_self, Fs.dir_setDir_self]
        · rw [Fs.dir_setDir_of_ne hjn, Fs.dir_setDir_of_ne hjn, hwdir, Fs.dir_setDir_of_ne hjn]

/-- **A directory is moved**, if no other one had the name. -/
theorem renameCommit_dir {f : Found} (hp : Prepared sb s oldDir oldName newDir newName f u)
    (hdir : (u.inode f.oldIno).isDir = true) (hnone : f.newIno = none) :
    ∃ v, renameCommit sb u oldDir newDir f = (0, v) ∧ MoveDir sb u f.oldIno newDir v := by
  have hf := hp.fresh_of_none hnone
  obtain ⟨d₂, hr⟩ := hf.relink
  refine ⟨_, renameCommit_eq hr.name₁ hp.newName hr.delete, ?_⟩
  have hl := (hp.path.good.parent_of_kid hp.old hp.oldKid (by rw [hp.oldEntry.2]; exact hdir)).1
  rw [hp.oldEntry.2] at hl
  have hm : Moving sb u oldDir newDir f.oldIno (truncate oldName) (truncate newName)
      ((u.dir newDir).setInode f.newDe f.oldIno) d₂ :=
    { old := hp.old
      new := hp.new
      dir := hl
      ne_old := hp.path.good.hier.kid_ne hr.kid
      ne_new := (hp.moved hdir).1.symm
      shape₁ := hr.shape₁
      perm₁ := hr.perm₁
      shape₂ := hr.shape₂
      kid := hr.kid
      perm₂ := hr.perm₂ }
  have hdir' : ((relink sb u oldDir newDir (truncate oldName) (truncate newName) f.oldIno
      ((u.dir newDir).setInode f.newDe f.oldIno) d₂).inode f.oldIno).isDir = true := by
    simp only [relink, Fs.isDir_setDir, hdir]
  have hmove := MoveDir.mk hm length_truncate_le (renamed_of_distinct hp.path.distinct
    length_truncate_le length_truncate_le fun _ _ hmem _ => hmem)
  simp only [hnone, relinkCount, hdir', if_true]
  exact hmove

/-- **What `ext2_rename` does**: it renames a file, or it moves a directory, or it puts a directory
in the place of another one, or nothing has changed. -/
theorem rename_cases (h : Good sb s) (hd : Lru.Distinct s.cache)
    (hl : holds s [oldDir, newDir] = true) (hdirs : areDirs s [oldDir, newDir] = true)
    (hold : renameable oldName = true) (hnew : renameable newName = true)
    (hrun : rename sb s oldDir oldName newDir newName env = some (err, t)) :
    Path sb s [] t ∨ ∃ f u,
      renamePrepare sb s oldDir oldName newDir newName env = some (.ok f, u) ∧
      Prepared sb s oldDir oldName newDir newName f u ∧ (u.inode f.oldIno).isDir = true ∧
      (f.newIno = none → ∃ v, MoveDir sb u f.oldIno newDir v ∧
        t = release v oldDir newDir (some f.oldIno) none) := by
  rw [rename] at hrun
  obtain ⟨⟨r, u⟩, hprep, hrun⟩ := Option.bind_eq_some_iff.1 hrun
  have hspec := renamePrepare_spec h hd hl hdirs hold hnew hprep
  cases r with
  | error err =>
    cases hrun
    exact .inl hspec
  | ok f =>
    dsimp only at hrun hspec
    split at hrun
    · by_cases hdir : (u.inode f.oldIno).isDir = true
      · refine .inr ⟨f, u, hprep, hspec, hdir, fun hnone => ?_⟩
        obtain ⟨v, hcommit, hmove⟩ := renameCommit_dir hspec hdir hnone
        rw [hcommit, if_neg (show ¬ (0 : Int) = -enoent by decide)] at hrun
        cases hrun
        rw [hnone]
        exact ⟨v, hmove, rfl⟩
      · obtain ⟨v, hcommit, p⟩ := renameCommit_file hspec (Bool.not_eq_true _ ▸ hdir)
        rw [hcommit, if_neg (show ¬ (0 : Int) = -enoent by decide)] at hrun
        cases hrun
        exact .inl p.release
    · cases hrun

end LinuxEvocation.Ext2.Namei
