import LinuxEvocation.Fs.Ext2.Namei.Change

/-!
# The operations as changes

* `rmdir_cases` — `ext2_rmdir` either changes nothing or removes an empty directory.
-/

namespace LinuxEvocation.Ext2.Namei

open Errno Directory Hierarchy

variable {sb : SuperBlock} {s s' t u : Fs} {dir d e i j de ino : Nat} {name nm : Name} {env : Env}
  {dd d' : Directory} {l : List Nat}

/-! ## New inodes -/

namespace Fs

theorem modify_modify {f g : Inode → Inode} :
    (s.modify i f).modify i g = s.modify i fun n => g (f n) := by
  simp only [modify, Function.update_self, Function.update_idem]

theorem ext {s s' : Fs} (hinode : ∀ i, s.inode i = s'.inode i) (hcache : s.cache = s'.cache) :
    s = s' := by
  cases s
  cases s'
  simp only [mk.injEq]
  exact ⟨funext hinode, hcache⟩

end Fs

theorem Path.forget (p : Path sb s (i :: l) t) : Path sb s l t := by
  refine ⟨p.changes, p.good, p.distinct, lt_of_le_of_lt ?_ p.owns⟩
  rw [List.count_cons]
  omega

theorem Path.of_eq (p : Path sb s l t) (hinode : ∀ j, u.inode j = t.inode j)
    (hcache : u.cache = t.cache) : Path sb s l u := by
  rw [Fs.ext hinode hcache]
  exact p

theorem Path.ne_root (p : Path sb s l t) (hi : (t.inode i).used = false) : rootIno ≠ i := by
  rintro rfl
  rw [p.good.living_root.1] at hi
  cases hi

/-- The error path of an operation with a new inode: the number is free again. -/
theorem discard_modify {m : Inode} (hused : m.used = true) (hcount : m.count = 1) :
    discard (s.modify i fun _ => m) dir i = (s.modify i fun _ => Fs.noInode).iput dir := by
  have hput : (((s.modify i fun _ => m).setNlink i 0).iput i) =
      s.modify i fun _ => Fs.noInode := by
    rw [Fs.setNlink, Fs.modify_modify, Fs.iput, if_neg, Fs.modify_modify]
    simp [Fs.inode_modify_self, hused, hcount]
  rw [discard, hput]

theorem Path.discard {m : Inode} (p : Path sb s (dir :: l) t) (hi : (t.inode i).used = false)
    (hused : m.used = true) (hcount : m.count = 1) :
    Path sb s l (discard (t.modify i fun _ => m) dir i) := by
  rw [discard_modify hused hcount]
  refine (p.step (.clear hi) ?_).iput
  rw [Fs.inode_modify_of_ne (p.ne_root hi)]

/-- What `areDirs` and `holds` say of a directory that the caller gives. -/
theorem of_areDirs (h : areDirs s [dir] = true) :
    (s.inode dir).used = true ∧ (s.inode dir).isDir = true := by
  simpa [areDirs] using h

theorem of_freeIno (h : freeIno sb s env = true) (hfull : env.full = false) :
    (s.inode env.ino).used = false ∧ env.ino ≠ 0 ∧ env.ino ≤ sb.inodesCount := by
  simp only [freeIno, hfull, Bool.false_or, Bool.and_eq_true, Bool.not_eq_true',
    decide_eq_true_eq] at h
  exact ⟨h.1.1.1, by omega, h.2⟩

/-- A file system holds the entry that was just made. -/
theorem holds_of_perm {l : List (Name × Nat)} {n : Nat} (hdir : s.Living dir) (hpos : d'.size ≠ 0)
    (hperm : (d'.kids sb.blocksize).Perm ((truncate name, i) :: l)) (hname : nm = truncate name) :
    ((s.setDir dir d').setNlink j n).Holds sb ⟨sb.dev, dir, truncate nm⟩ i := by
  rw [hname, truncate_truncate]
  refine ⟨?_, .inr (.inr ?_)⟩
  · rw [Fs.Living, Fs.used_setNlink, Fs.isDir_setNlink, Fs.dir_setNlink]
    exact (living_setDir hdir hpos).2 hdir
  · rw [Fs.dir_setNlink, Fs.dir_setDir_self, hperm.mem_iff]
    exact List.mem_cons_self ..

/-- **A new file gets its name.** -/
theorem Path.enterFile {noSpace : Bool} {d : Directory} (p : Path sb s l t)
    (hdir : (t.inode dir).used = true ∧ (t.inode dir).isDir = true)
    (hi : (t.inode i).used = false) (hpos : i ≠ 0) (hle : i ≤ sb.inodesCount)
    (hadd : ((t.newInode i false).dir dir).addEntry sb.blocksize name noSpace = .ok (d, de)) :
    Path sb s (i :: l) (enter sb (t.newInode i false) dir d de i) := by
  have hdi : dir ≠ i := by
    rintro rfl
    rw [hdir.1] at hi
    cases hi
  rw [Fs.newInode, dir_modify_of_ne hdi] at hadd
  have hl : t.Living dir := ⟨hdir.1, hdir.2, size_ne_zero_of_addEntry hadd⟩
  have hf := addEntry_filled (p.good.shape hl).sound hadd
  have hlt : i < 2 ^ 32 := lt_of_le_of_lt hle sb.inodesCount_lt
  have hne : name.length ≠ 0 := by
    intro hc
    rw [Directory.addEntry, if_pos hc] at hadd
    cases hadd
  obtain ⟨hshape, hperm⟩ := (p.good.shape hl).add (p.good.pos hl.1) (p.good.parent_ne_zero hl) hf
    (length_truncate_pos hne) hpos hlt
  -- the inode first without a link, then with its entry and the link
  let m : Inode := ⟨true, false, 0, 1, ⟨fun _ => 0, 0⟩⟩
  have p₁ : Path sb s (i :: l) (t.modify i fun _ => m) := by
    have p₁ := p.step (.alloc (m := m) hi hpos hle rfl rfl rfl (by decide)) (by
      rw [Fs.inode_modify_of_ne (p.ne_root hi)])
    refine ⟨p₁.changes, p₁.good, p₁.distinct, ?_⟩
    rw [List.count_cons_of_ne (p.ne_root hi).symm]
    exact p₁.owns
  have hl₁ : (t.modify i fun _ => m).Living dir := (Fs.living_modify_of_ne hdi).2 hl
  have hshape₁ : Shape sb.blocksize (d.setInode de i) dir ((t.modify i fun _ => m).parent dir) := by
    rwa [Fs.parent, dir_modify_of_ne hdi]
  have hperm₁ : ((d.setInode de i).kids sb.blocksize).Perm
      ((truncate name, i) :: ((t.modify i fun _ => m).dir dir).kids sb.blocksize) := by
    rwa [dir_modify_of_ne hdi]
  have p₂ := p₁.step (.addFile (i := i) hl₁ (by rw [Fs.inode_modify_self]) (by
    rw [Fs.inode_modify_self]) length_truncate_le hshape₁ hperm₁) (by simp)
  have p₃ := p₂.cache (Learned.add p₂.distinct (holds_of_perm hl₁ hshape.pos hperm hf.name))
  refine p₃.of_eq (fun j => ?_) rfl
  by_cases hji : j = i
  · subst hji
    simp [enter, Fs.cacheAdd, Fs.newInode, Fs.setDir, Fs.setNlink, Fs.inode_modify_self,
      Fs.inode_modify_of_ne hdi.symm, m]
  · by_cases hjd : j = dir
    · subst hjd
      simp [enter, Fs.cacheAdd, Fs.newInode, Fs.setDir, Fs.setNlink, Fs.inode_modify_self,
        Fs.inode_modify_of_ne hji]
    · simp [enter, Fs.cacheAdd, Fs.newInode, Fs.setDir, Fs.setNlink, Fs.inode_modify_of_ne hji,
        Fs.inode_modify_of_ne hjd]

/-! ## `ext2_create`, `ext2_mknod`, `ext2_symlink` -/

section Add

variable (h : Good sb s) (hd : Lru.Distinct s.cache) (hl : holds s [dir] = true)
  (hdirs : areDirs s [dir] = true) (hfree : freeIno sb s env = true)

include h hd hl hdirs hfree

theorem create_path : Path sb s [] (create sb s dir name env).2 := by
  have p := Path.start h hd hl
  rw [create]
  split
  · exact p.iput
  · rename_i hfull
    obtain ⟨hi, hpos, hle⟩ := of_freeIno hfree (Bool.not_eq_true _ ▸ hfull)
    dsimp only
    split
    · exact p.discard hi rfl rfl
    · rename_i dd de hadd
      exact (p.enterFile (of_areDirs hdirs) hi hpos hle hadd).forget.iput

theorem mknod_path : Path sb s [] (mknod sb s dir name env).2 := by
  have p := Path.start h hd hl
  rw [mknod]
  split
  · exact p.iput
  · split
    · exact p.iput
    · rename_i hfull
      obtain ⟨hi, hpos, hle⟩ := of_freeIno hfree (Bool.not_eq_true _ ▸ hfull)
      dsimp only
      split
      · exact p.discard hi rfl rfl
      · rename_i dd de hadd
        exact ((p.enterFile (of_areDirs hdirs) hi hpos hle hadd).perm (.swap ..)).iput.iput

theorem symlink_path : Path sb s [] (symlink sb s dir name env).2 := by
  have p := Path.start h hd hl
  rw [symlink]
  split
  · exact p.iput
  · rename_i hfull
    obtain ⟨hi, hpos, hle⟩ := of_freeIno hfree (Bool.not_eq_true _ ▸ hfull)
    dsimp only
    split
    · exact p.discard hi rfl rfl
    · split
      · exact p.discard hi rfl rfl
      · split
        · exact p.discard hi rfl rfl
        · rename_i dd de hadd
          exact ((p.enterFile (of_areDirs hdirs) hi hpos hle hadd).perm (.swap ..)).iput.iput

end Add

/-! ## Entries that are found -/

/-- What a search in a directory of the file system finds. -/
structure FoundIn (sb : SuperBlock) (s : Fs) (dir : Nat) (name : Name) (de : Nat) : Prop where
  living : s.Living dir
  used : (s.inode ((s.dir dir).inode de)).used = true
  holds : s.Holds sb ⟨sb.dev, dir, truncate ((s.dir dir).name de)⟩ ((s.dir dir).inode de)
  which : (s.dir dir).inode de = dir ∧ (name = [] ∨ name = dot) ∨
    (s.dir dir).inode de = s.parent dir ∧ name = dotdot ∨
    (s.dir dir).Kid sb.blocksize de ∧ (s.dir dir).name de = truncate name

theorem Good.used_of_kid (h : Good sb s) (hdir : s.Living dir)
    (hk : (s.dir dir).Kid sb.blocksize de) : (s.inode ((s.dir dir).inode de)).used = true :=
  h.hier.kid_used ((Good.mem_view_kids hdir).2 (mem_kids.2 ⟨de, hk, rfl, rfl⟩))

/-- A name that is not too long is not cut. -/
theorem eq_of_truncate_eq (h : truncate name = nm) (hlen : nm.length < nameMax) : name = nm := by
  have hl : (truncate name).length = min nameMax name.length := List.length_take
  rw [h] at hl
  rw [← h, truncate_of_le (by omega)]

/-- The names that lead to the first two entries. -/
theorem name_of_find (h : Shape sb.blocksize dd i j)
    (hfind : dd.findEntry sb.blocksize name = some de) :
    (de = 0 → name = [] ∨ name = dot) ∧ (de = 12 → name = dotdot) := by
  obtain ⟨-, hmatch, -⟩ := findEntry_eq_some h.sound hfind
  simp only [ext2Match, Bool.and_eq_true, Bool.or_eq_true, decide_eq_true_eq] at hmatch
  constructor
  · rintro rfl
    rcases hmatch.2 with hc | hc
    · exact .inl (eq_of_truncate_eq (List.length_eq_zero_iff.1 hc.1.1.1) (by decide))
    · rw [h.name_zero] at hc
      exact .inr (eq_of_truncate_eq hc (by decide))
  · rintro rfl
    rw [h.dotdot_len, h.name_second] at hmatch
    rcases hmatch.2 with hc | hc
    · omega
    · exact eq_of_truncate_eq hc (by decide)

theorem Good.found (h : Good sb s) (hdir : (s.inode dir).used = true ∧ (s.inode dir).isDir = true)
    (hfind : s.findEntry sb dir name = some de) : FoundIn sb s dir name de := by
  have hl : s.Living dir := ⟨hdir.1, hdir.2, size_ne_zero_of_findEntry hfind⟩
  have hshape := h.shape hl
  have hp := h.living_parent hl
  obtain ⟨hname₀, hname₁⟩ := name_of_find hshape hfind
  rcases hshape.find (h.pos hl.1) hfind with rfl | rfl | ⟨hk, hname⟩
  · have hino : (s.dir dir).inode 0 = dir := hshape.dot_inode
    refine ⟨hl, ?_, ⟨hl, .inl ⟨?_, hino⟩⟩, .inl ⟨hino, hname₀ rfl⟩⟩
    · rw [hino]
      exact hl.1
    · show truncate _ = _
      rw [hshape.name_zero]
      rfl
  · have hino : (s.dir dir).inode 12 = s.parent dir := rfl
    refine ⟨hl, ?_, ⟨hl, .inr (.inl ⟨?_, hino⟩)⟩, .inr (.inl ⟨hino, hname₁ rfl⟩)⟩
    · rw [hino]
      exact hp.1
    · show truncate _ = _
      rw [hshape.name_second]
      rfl
  · refine ⟨hl, h.used_of_kid hl hk, ⟨hl, .inr (.inr ?_)⟩, .inr (.inr ⟨hk, hname⟩)⟩
    refine mem_kids.2 ⟨de, hk, ?_, rfl⟩
    show _ = truncate _
    rw [hname, truncate_truncate]

/-! ## `ext2_mkdir`, `ext2_link`, `ext2_unlink` -/

namespace Fs

theorem inode_iput_of_ne (hj : j ≠ i) : (s.iput i).inode j = s.inode j := by
  rw [iput]
  split <;> exact inode_modify_of_ne hj

theorem inode_iput_congr (h : s.inode i = t.inode i) : (s.iput i).inode i = (t.iput i).inode i := by
  rw [iput, iput, h]
  split <;> rw [inode_modify_self, inode_modify_self]
  rw [h]

@[simp]
theorem cache_iput : (s.iput i).cache = s.cache := by
  rw [iput]
  split <;> rfl

end Fs

/-- A reference to an inode that is not the root. -/
theorem Path.own (p : Path sb s l t) (hi : i ≠ rootIno) : Path sb s (i :: l) t := by
  refine ⟨p.changes, p.good, p.distinct, ?_⟩
  rw [List.count_cons_of_ne hi]
  exact p.owns

/-- A name is added: what is known of the directory then. -/
theorem Good.added {noSpace : Bool} {d : Directory} (h : Good sb s)
    (hdir : (s.inode dir).used = true ∧ (s.inode dir).isDir = true) (hpos : i ≠ 0)
    (hlt : i < 2 ^ 32) (hadd : (s.dir dir).addEntry sb.blocksize name noSpace = .ok (d, de)) :
    s.Living dir ∧ d.name de = truncate name ∧
      Shape sb.blocksize (d.setInode de i) dir (s.parent dir) ∧
      ((d.setInode de i).kids sb.blocksize).Perm
        ((truncate name, i) :: (s.dir dir).kids sb.blocksize) := by
  have hl : s.Living dir := ⟨hdir.1, hdir.2, size_ne_zero_of_addEntry hadd⟩
  have hf := addEntry_filled (h.shape hl).sound hadd
  have hne : name.length ≠ 0 := by
    intro hc
    rw [Directory.addEntry, if_pos hc] at hadd
    cases hadd
  exact ⟨hl, hf.name, (h.shape hl).add (h.pos hl.1) (h.parent_ne_zero hl) hf
    (length_truncate_pos hne) hpos hlt⟩

section

variable (h : Good sb s) (hd : Lru.Distinct s.cache) (hdirs : areDirs s [dir] = true)

include h hd hdirs

theorem mkdir_path (hl : holds s [dir] = true) (hfree : freeIno sb s env = true) :
    Path sb s [] (mkdir sb s dir name env).2 := by
  have p := Path.start h hd hl
  rw [mkdir]
  split
  · exact p.iput
  split
  · exact p.iput
  split
  · exact p.iput
  rename_i hfull
  obtain ⟨hi, hpos, hle⟩ := of_freeIno hfree (Bool.not_eq_true _ ▸ hfull)
  dsimp only
  split
  · exact p.discard hi rfl rfl
  let m : Inode := ⟨true, true, 2, 1, firstBlock sb env.ino dir⟩
  have hm : ((s.newInode env.ino true).setDir env.ino (firstBlock sb env.ino dir)).setNlink env.ino 2 =
      s.modify env.ino fun _ => m := by
    rw [Fs.newInode, Fs.setDir, Fs.modify_modify, Fs.setNlink, Fs.modify_modify]
  rw [hm]
  split
  · exact p.discard hi rfl rfl
  rename_i dd de hadd
  have hu := of_areDirs hdirs
  have hdi : dir ≠ env.ino := by
    intro hc
    rw [← hc, hu.1] at hi
    cases hi
  rw [dir_modify_of_ne hdi] at hadd
  have hlt : env.ino < 2 ^ 32 := lt_of_le_of_lt hle sb.inodesCount_lt
  obtain ⟨hliv, hname, hshape, hperm⟩ := h.added hu hpos hlt hadd
  obtain ⟨hfirst, hkids⟩ := firstBlock_shape sb hlt (h.lt_of_used hliv.1)
  have p₁ := p.step (.addDir (m := m) hliv hi hpos hle rfl rfl rfl Nat.one_ne_zero length_truncate_le
    hfirst hkids hshape hperm) (by
      rw [withDir, Fs.count_setNlink, Fs.count_setDir, Fs.inode_modify_of_ne (p.ne_root hi)])
  have hl₁ : (s.modify env.ino fun _ => m).Living dir := (Fs.living_modify_of_ne hdi).2 hliv
  have p₂ := p₁.cache (Learned.add p₁.distinct (holds_of_perm hl₁ hshape.pos hperm hname))
  have p₃ := (p₂.own (p.ne_root hi).symm).perm (.swap ..)
  have hnl : ((enter sb (s.modify env.ino fun _ => m) dir dd de env.ino).inode dir).nlink =
      (s.inode dir).nlink := by
    rw [enter, Fs.cacheAdd, Fs.nlink_setDir, Fs.inode_modify_of_ne hdi]
  dsimp only
  rw [hnl]
  exact p₃.iput.iput

theorem link_path {old : Nat} (hl : holds s [old, dir] = true)
    (hused : (s.inode old).used = true) : Path sb s [] (link sb s old dir name env).2 := by
  have p := Path.start h hd hl
  have p' : Path sb s [dir, old] s := p.perm (.swap ..)
  rw [link]
  split
  · exact p.iput.iput
  rename_i hfile
  rw [Bool.not_eq_true] at hfile
  split
  · exact p.iput.iput
  split
  · exact p'.iput.iput
  split
  · exact p'.iput.iput
  rename_i dd de hadd
  have hu := of_areDirs hdirs
  have hne : old ≠ dir := by
    rintro rfl
    rw [hu.2] at hfile
    cases hfile
  obtain ⟨hliv, hname, hshape, hperm⟩ :=
    h.added hu (h.pos hused) (h.lt_of_used hused) hadd
  have p₁ := p'.step (.addFile hliv hused hfile length_truncate_le hshape hperm) (by simp)
  have p₂ := p₁.cache (Learned.add p₁.distinct (holds_of_perm hliv hshape.pos hperm hname))
  -- the directory is given up before the link is counted
  have hnl : (((enter sb s dir dd de old).iput dir).inode old).nlink = (s.inode old).nlink := by
    rw [Fs.inode_iput_of_ne hne, enter, Fs.cacheAdd, Fs.nlink_setDir]
  dsimp only
  rw [hnl]
  refine (p₂.iput.of_eq (fun j => ?_) ?_).iput
  · by_cases hj : j = old
    · subst hj
      rw [Fs.setNlink, Fs.inode_modify_self, Fs.inode_iput_of_ne hne, Fs.inode_iput_of_ne hne]
      simp [enter, Fs.cacheAdd, Fs.setNlink, Fs.inode_modify_self]
    · rw [Fs.setNlink, Fs.inode_modify_of_ne hj]
      by_cases hjd : j = dir
      · subst hjd
        refine Fs.inode_iput_congr ?_
        simp [enter, Fs.cacheAdd, Fs.setNlink, Fs.inode_modify_of_ne hj]
      · rw [Fs.inode_iput_of_ne hjd, Fs.inode_iput_of_ne hjd]
        simp [enter, Fs.cacheAdd, Fs.setNlink, Fs.inode_modify_of_ne hj]
  · rw [Fs.cache_iput]
    exact Fs.cache_iput

theorem unlink_path (hl : holds s [dir] = true) : Path sb s [] (unlink sb s dir name env).2 := by
  have p := Path.start h hd hl
  rw [unlink]
  split
  · exact p.iput
  rename_i de hfind
  have hf := h.found (of_areDirs hdirs) hfind
  have p₁ := p.iget hf.used
  dsimp only
  split
  · dsimp only
    exact p₁.iput.iput
  rename_i hgo
  obtain ⟨-, hfile⟩ := not_or.1 hgo
  rw [Fs.isDir_iget, Bool.not_eq_true] at hfile
  have hk : (s.dir dir).Kid sb.blocksize de ∧ (s.dir dir).name de = truncate name := by
    rcases hf.which with ⟨hc, -⟩ | ⟨hc, -⟩ | hk
    · rw [hc, hf.living.2.1] at hfile
      cases hfile
    · rw [hc, (h.living_parent hf.living).2.1] at hfile
      cases hfile
    · exact hk
  obtain ⟨hk, hname⟩ := hk
  generalize hino : (s.dir dir).inode de = ino at *
  have hmem : ((s.dir dir).name de, ino) ∈ (s.view sb).kids dir :=
    (Good.mem_view_kids hf.living).2 (mem_kids.2 ⟨de, hk, rfl, hino⟩)
  have hnlink : (s.inode ino).nlink ≠ 0 := by
    have := h.hier.nlink_pos_of_kid hmem
    rw [Fs.view_nlink sb (hino ▸ hf.used)] at this
    omega
  obtain ⟨d', hdel, hdeleted⟩ := deleteEntry_deleted (h.shape hf.living).sound
    ((h.shape hf.living).sound.kid_iff.1 hk).1
  obtain ⟨hshape, hperm⟩ := (h.shape hf.living).delete hdeleted hk
  rw [hino] at hperm
  have hlen : ((s.dir dir).name de).length ≤ nameMax := by
    rw [hname]
    exact length_truncate_le
  have hdir₁ : ((s.iget ino).cacheRemove sb dir ((s.dir dir).name de)).dir dir = s.dir dir :=
    Fs.dir_iget
  have p₂ := p₁.cache (Learned.remove p₁.distinct sb.dev dir ((s.dir dir).name de))
  have hl₂ : ((s.iget ino).cacheRemove sb dir ((s.dir dir).name de)).Living dir := by
    rw [Fs.Living, hdir₁]
    exact ⟨by rw [Fs.cacheRemove, Fs.used_iget]; exact hf.living.1,
      by rw [Fs.cacheRemove, Fs.isDir_iget]; exact hf.living.2.1, hf.living.2.2⟩
  have p₃ := p₂.step (.removeFile hl₂
    (by rw [Fs.isDir_iget]; exact hfile)
    (by rw [Fs.count_iget, one_self]; exact Nat.succ_ne_zero _)
    (unknown_cacheRemove p₁.distinct hlen)
    (by rw [Fs.parent]; erw [hdir₁]; exact hshape) (by erw [hdir₁]; exact hperm)) (by simp)
  rw [Fs.nlink_iget, if_neg hnlink]
  simp only [Fs.dir_iget, deleteEntry, hdir₁, hdel]
  simp only [ne_eq, not_true_eq_false, if_false, Fs.nlink_setDir]
  exact p₃.iput.iput

end

/-! ## `ext2_rmdir` -/

theorem kids_of_emptyDir (h : Shape sb.blocksize dd i j) (hj : j ≠ 0)
    (hempty : emptyDir sb.blocksize i dd = true) : dd.kids sb.blocksize = [] := by
  refine List.eq_nil_iff_forall_not_mem.2 fun x hx => ?_
  obtain ⟨o, ho, -, -⟩ := mem_kids.1 hx
  obtain ⟨hr, hinode, hzero, hsecond⟩ := h.sound.kid_iff.1 ho
  exact hinode (h.empty hj hempty hr hzero hsecond)

theorem Good.nlink_of_empty (h : Good sb s) (hk : (nm, e) ∈ (s.view sb).kids dir)
    (he : s.Living e) (hempty : (s.dir e).kids sb.blocksize = []) : (s.inode e).nlink = 2 := by
  rw [← Fs.view_nlink sb he.1, h.hier.links he.1]
  refine h.hier.linksTo_of_empty hk ⟨he.1, he.2.1⟩ ?_
  rw [Fs.view_kids sb he, hempty, Multiset.coe_nil]

/-- The directory that `ext2_rmdir` removes: it passes the tests. -/
def removable (sb : SuperBlock) (s : Fs) (dir : Nat) (name : Name) (env : Env) : Option Nat :=
  (s.findEntry sb dir name).bind fun de =>
    let ino := (s.dir dir).inode de
    if (env.denied ∨ ino = dir) ∨ (s.inode ino).isDir = false ∨
        (s.dir ino).emptyDir sb.blocksize ino = false then none
    else some ino

/-- What `ext2_rmdir` knows when it takes the entry out: the directory `e` is empty, and the cache
has forgotten its name, and its first two names if it is in use. -/
structure Removing (sb : SuperBlock) (s : Fs) (dir : Nat) (name : Name) (env : Env) (e : Nat)
    (u : Fs) : Prop where
  found : removable sb s dir name env = some e
  path : Path sb s [dir, e] u
  cache : ∀ x ∈ u.cache, x ∈ s.cache
  clean : (s.inode e).count ≠ 0 → Unknown sb u e dot ∧ Unknown sb u e dotdot

theorem removing_of_found (h : Good sb s) (hd : Lru.Distinct s.cache) (hl : holds s [dir] = true)
    (hf : FoundIn sb s dir name de)
    (hfind : removable sb s dir name env = some ((s.dir dir).inode de))
    (hk : (s.dir dir).Kid sb.blocksize de) (he : s.Living ((s.dir dir).inode de))
    (hempty : (s.dir ((s.dir dir).inode de)).kids sb.blocksize = []) :
    let e := (s.dir dir).inode de
    let c := dcacheRemove (if busy (s.iget e) e then (cleanUp sb (s.iget e) e).cache else s.cache)
      sb.dev dir ((s.dir dir).name de)
    Removing sb s dir name env e { s.iget e with cache := c } := by
  intro e c
  have p₁ := (Path.start h hd hl).iget hf.used
  have hsub : ∀ x ∈ c, x ∈ if busy (s.iget e) e then (cleanUp sb (s.iget e) e).cache else
      s.cache := by
    intro x hx
    refine (Lru.Distinct.mem_remove ?_).1 hx |>.1
    split
    · exact (hd.remove _).remove _
    · exact hd
  have hsub' : ∀ x ∈ c, x ∈ s.cache := by
    intro x hx
    have := hsub x hx
    split at this
    · exact (hd.mem_remove.1 ((hd.remove _).mem_remove.1 this).1).1
    · exact this
  refine ⟨hfind, ?_, hsub', ?_⟩
  · have p₂ : Path sb s [e, dir] { s.iget e with cache := c } := by
      refine p₁.cache ⟨?_, fun hmem => .inl (hsub' _ hmem)⟩
      refine Lru.Distinct.remove ?_ _
      split
      · exact (hd.remove _).remove _
      · exact hd
    exact p₂.perm (.swap ..)
  · intro hcount
    have hmem : ((s.dir dir).name de, e) ∈ (s.view sb).kids dir :=
      (Good.mem_view_kids hf.living).2 (mem_kids.2 ⟨de, hk, rfl, rfl⟩)
    have hbusy : busy (s.iget e) e = true := by
      have := h.nlink_of_empty hmem he hempty
      simp only [busy, Fs.nlink_iget, Fs.count_iget, one_self, Bool.and_eq_true, decide_eq_true_eq]
      omega
    have hc : ∀ x ∈ c, x ∈ (cleanUp sb (s.iget e) e).cache := by
      intro x hx
      have := hsub x hx
      rwa [if_pos hbusy] at this
    constructor
    · intro v hv
      have := ((hd.remove _).mem_remove.1 (hc _ hv)).1
      exact (hd.mem_remove.1 this).2 rfl
    · intro v hv
      exact ((hd.remove _).mem_remove.1 (hc _ hv)).2 rfl

theorem rmdir_cases (h : Good sb s) (hd : Lru.Distinct s.cache) (hl : holds s [dir] = true)
    (hdirs : areDirs s [dir] = true) :
    Path sb s [] (rmdir sb s dir name env).2 ∨
      ∃ e u v, Removing sb s dir name env e u ∧ RemoveDir sb u e v ∧
        (rmdir sb s dir name env).2 = (v.iput dir).iput e := by
  have p := Path.start h hd hl
  rw [rmdir]
  split
  · exact .inl p.iput
  rename_i de hfind
  have hf := h.found (of_areDirs hdirs) hfind
  have p₁ := (p.iget hf.used).perm (.swap ..)
  dsimp only
  split
  · exact .inl p₁.iput.iput
  rename_i hgo
  split
  · exact .inl p₁.iput.iput
  rename_i hisDir
  split
  · exact .inl p₁.iput.iput
  rename_i hempty
  rw [Bool.not_eq_false, Fs.dir_iget] at hempty
  rw [Bool.not_eq_false, Fs.isDir_iget] at hisDir
  have hne : (s.dir dir).inode de ≠ dir := fun hc => hgo (.inr hc)
  have hshape := h.shape hf.living
  -- a directory of size 0 has no entry, so the one found is the parent or a kid of `dir`
  have he : s.Living ((s.dir dir).inode de) := by
    rcases hf.which with ⟨hc, -⟩ | ⟨hc, -⟩ | ⟨hk, -⟩
    · exact absurd hc hne
    · rw [hc]
      exact h.living_parent hf.living
    · exact (h.hier.kid_dir ((Good.mem_view_kids hf.living).2 (mem_kids.2 ⟨de, hk, rfl, rfl⟩))
        ⟨hf.used, hisDir⟩).1
  have hkids := kids_of_emptyDir (h.shape he) (h.parent_ne_zero he) hempty
  have hk : (s.dir dir).Kid sb.blocksize de ∧ (s.dir dir).name de = truncate name := by
    rcases hf.which with ⟨hc, -⟩ | ⟨hc, -⟩ | hk
    · exact absurd hc hne
    · -- the parent is not empty: it has `dir`
      have hroot : dir ≠ rootIno := by
        rintro rfl
        have := h.hier.root_parent
        rw [Fs.view_parent sb hf.living] at this
        exact hne (hc.trans this)
      obtain ⟨nm, hnm⟩ := h.hier.exists_kid hf.living hroot
      rw [Fs.view_parent sb hf.living, ← hc, Fs.view_kids sb he, hkids] at hnm
      exact absurd hnm (Multiset.notMem_zero _)
    · exact hk
  obtain ⟨hk, hname⟩ := hk
  have hfound : removable sb s dir name env = some ((s.dir dir).inode de) := by
    rw [removable, hfind, Option.bind_some, if_neg]
    rintro (hc | hc | hc)
    · exact hgo hc
    · rw [hisDir] at hc
      cases hc
    · rw [hempty] at hc
      cases hc
  have hrem := removing_of_found h hd hl hf hfound hk he hkids
  have hmem : ((s.dir dir).name de, (s.dir dir).inode de) ∈ (s.view sb).kids dir :=
    (Good.mem_view_kids hf.living).2 (mem_kids.2 ⟨de, hk, rfl, rfl⟩)
  have hnlink := h.nlink_of_empty hmem he hkids
  obtain ⟨d', hdel, hdeleted⟩ := deleteEntry_deleted hshape.sound (hshape.sound.kid_iff.1 hk).1
  obtain ⟨hshape', hperm⟩ := hshape.delete hdeleted hk
  have hlen : ((s.dir dir).name de).length ≤ nameMax := by
    rw [hname]
    exact length_truncate_le
  generalize hino : (s.dir dir).inode de = e at *
  refine .inr ⟨e, _, _, hrem, @RemoveDir.mk sb _ e dir ((s.dir dir).name de)
    { (s.iget e).inode e with nlink := 0, dir := { s.dir e with size := 0 } } d'
    ?_ ?_ ?_ ?_ ?_ rfl rfl ?_ ?_ ?_ ?_, ?_⟩
  · exact Fs.alike_iget.living.2 hf.living
  · exact Fs.alike_iget.living.2 he
  · show ((s.iget e).dir e).kids _ = _
    rw [Fs.dir_iget]
    exact hkids
  · show ((s.iget e).inode e).used = true
    rw [Fs.used_iget]
    exact he.1
  · show ((s.iget e).inode e).isDir = true
    rw [Fs.isDir_iget]
    exact he.2.1
  · show ((s.iget e).inode e).count ≠ 0
    rw [Fs.count_iget, one_self]
    exact Nat.succ_ne_zero _
  · intro v hv
    refine (Lru.Distinct.mem_remove ?_).1 hv |>.2 ?_
    · split
      · exact (hd.remove _).remove _
      · exact hd
    · rw [truncate_of_le hlen]
  · show Shape _ _ _ (((s.iget e).dir dir).inode 12)
    rw [Fs.dir_iget]
    exact hshape'
  · show (((s.iget e).dir dir).kids _).Perm _
    rw [Fs.dir_iget]
    exact hperm
  · have hde : dir ≠ e := (h.hier.kid_ne hmem).symm
    have hdir : ∀ b : Bool, (if b then cleanUp sb (s.iget e) e else s.iget e).dir dir =
        s.dir dir := by
      rintro (_ | _)
      · exact Fs.dir_iget
      · show ((s.iget e).setDir e _).dir dir = _
        rw [Fs.dir_setDir_of_ne hde, Fs.dir_iget]
    have hdir' : ((if busy (s.iget e) e then cleanUp sb (s.iget e) e else s.iget e).cacheRemove sb
        dir ((s.dir dir).name de)).dir dir = s.dir dir := hdir _
    simp only [deleteEntry, hdir, hdir', hdel, ne_eq, not_true_eq_false, if_false]
    refine Fs.ext (fun j => ?_) ?_
    · by_cases hje : j = e
      · subst hje
        by_cases hb : busy (s.iget j) j = true
        · refine Fs.inode_iput_congr ?_
          rw [Fs.inode_iput_of_ne hde.symm, Fs.inode_iput_of_ne hde.symm]
          simp only [hb, if_true, cleanUp, Fs.cacheRemove, withDir, Fs.setNlink, Fs.setDir,
            Fs.inode_modify_self, Fs.inode_modify_of_ne hde.symm, Fs.dir_iget]
        · -- nobody else uses it, so that it is freed either way
          have hone : ((s.iget j).inode j).count = 1 := by
            simp only [busy, Fs.nlink_iget, hnlink, Bool.and_eq_true, decide_eq_true_eq] at hb
            rw [Fs.count_iget, one_self] at hb ⊢
            omega
          have hfree : ∀ x : Fs, (x.inode j).count = 1 → (x.inode j).used = true →
              (x.inode j).nlink = 0 → (x.iput j).inode j = Fs.noInode := by
            intro x hc hu hn
            rw [Fs.iput, if_neg (by simp [hc, hu, hn]), Fs.inode_modify_self]
          have hused : ((s.iget j).inode j).used = true := by
            rw [Fs.used_iget]
            exact he.1
          rw [hfree, hfree] <;> rw [Fs.inode_iput_of_ne hde.symm]
          all_goals
            simp only [hb, if_false, Bool.false_eq_true, Fs.cacheRemove, withDir, Fs.setNlink,
              Fs.setDir, Fs.inode_modify_self, Fs.inode_modify_of_ne hde.symm]
          · exact hone
          · exact hused
          · exact hone
          · exact hused
      · rw [Fs.inode_iput_of_ne hje, Fs.inode_iput_of_ne hje]
        have hX : ((if busy (s.iget e) e then cleanUp sb (s.iget e) e else s.iget e).inode j) =
            (s.iget e).inode j := by
          split
          · show ((s.iget e).setDir e _).inode j = _
            exact Fs.inode_modify_of_ne hje
          · rfl
        by_cases hjd : j = dir
        · subst hjd
          refine Fs.inode_iput_congr ?_
          simp only [Fs.setNlink, Fs.setDir, withDir, Fs.inode_modify_self,
            Fs.inode_modify_of_ne hje, Fs.cacheRemove, hX]
        · rw [Fs.inode_iput_of_ne hjd, Fs.inode_iput_of_ne hjd]
          simp only [Fs.setNlink, Fs.setDir, withDir, Fs.inode_modify_of_ne hjd,
            Fs.inode_modify_of_ne hje, Fs.cacheRemove, hX]
    · simp only [Fs.cache_iput]
      show dcacheRemove _ _ _ _ = dcacheRemove _ _ _ _
      split <;> rfl

end LinuxEvocation.Ext2.Namei
