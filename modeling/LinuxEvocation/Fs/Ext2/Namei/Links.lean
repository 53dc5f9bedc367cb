import LinuxEvocation.Fs.Ext2.Namei.View

/-!
# The operations keep the hierarchy

Each operation is one change of the hierarchy, and then gives up its references.

* `Good.addFile`, `Good.removeFile`, `Good.addDir`, `Good.removeDir`, `Good.moveDir` — the changes.
-/

namespace LinuxEvocation.Ext2.Namei

open Function (update update_eq_self update_of_ne)
open Errno Directory Hierarchy

variable {sb : SuperBlock} {s s' : Fs} {dir d e i j de ino : Nat} {name nm : Name} {env : Env}
  {dd d' : Directory}

/-! ## References -/

theorem count_iput : ((s.iput i).inode j).count = (s.inode j).count - one i j := by
  rw [Fs.iput]
  by_cases hij : j = i
  · subst hij
    rw [one_self]
    split
    · rw [Fs.inode_modify_self]
    · rename_i hgo
      simp only [not_or, not_lt] at hgo
      rw [Fs.inode_modify_self]
      have : (Fs.noInode).count = 0 := rfl
      omega
  · rw [one_of_ne (Ne.symm hij), Nat.sub_zero]
    split <;> rw [Fs.inode_modify_of_ne hij]

theorem Good.of_inode_eq (h : Good sb s) (heq : s'.inode = s.inode) : Good sb s' := by
  refine h.congr (fun i => ?_) ?_ ?_
  · simp only [Fs.dir, heq, and_self]
  · intro i hi hc
    rw [heq] at hc
    exact h.freed hi hc
  · rw [heq]
    exact h.root

/-- An operation that gives up one more reference to the directory than the caller keeps. -/
theorem root_count_of_holds {l : List Nat} (h : holds s l = true) (hroot : 0 < (s.inode rootIno).count) :
    l.count rootIno < (s.inode rootIno).count := by
  by_cases hmem : rootIno ∈ l
  · have := List.all_eq_true.1 h rootIno hmem
    simp only [if_true, decide_eq_true_eq] at this
    omega
  · rw [List.count_eq_zero_of_not_mem hmem]
    exact hroot

/-! ## The changes of the hierarchy -/

theorem Good.clear (h : Good sb s) (hi : (s.inode i).used = false) :
    Good sb (s.modify i fun _ => Fs.noInode) := by
  have hnot : ¬ s.Living i := fun hc => by
    rw [hc.1] at hi
    cases hi
  have hview : (s.modify i fun _ => Fs.noInode).view sb = s.view sb := by
    rw [Fs.view_modify_dead sb hnot (.inl rfl)]
    simp only [Fs.noInode, Bool.false_eq_true, false_and, if_false, Fs.view, Hier.mk.injEq, true_and]
    refine ⟨?_, ?_, ?_⟩ <;>
    · funext j
      by_cases hj : j = i
      · simp [hj, hi]
      · simp [hj]
  refine h.vacate hnot ?_
  rw [hview]
  exact h.hier

/-- The kids of a directory, as a multiset. -/
theorem coe_kids_of_perm {l : List (Name × Nat)} {x : Name × Nat}
    (h : (d'.kids sb.blocksize).Perm (x :: l)) :
    ((d'.kids sb.blocksize :) : Multiset (Name × Nat)) = x ::ₘ (l : Multiset (Name × Nat)) := by
  rw [Multiset.cons_coe]
  exact Multiset.coe_eq_coe.2 h

theorem Good.alloc (h : Good sb s) (hi : (s.inode i).used = false) (hpos : i ≠ 0)
    (hle : i ≤ sb.inodesCount) {m : Inode} (hused : m.used = true) (hdir : m.isDir = false)
    (hnlink : m.nlink = 0) (hcount : m.count ≠ 0) : Good sb (s.modify i fun _ => m) := by
  have hnot : ¬ s.Living i := fun hc => by
    rw [hc.1] at hi
    cases hi
  have hroot : rootIno ≠ i := by
    rintro rfl
    exact hnot h.living_root
  have hview : (s.modify i fun _ => m).view sb = Hierarchy.alloc (s.view sb) i := by
    rw [Fs.view_modify_dead sb hnot (.inr (.inl hdir)), Hierarchy.alloc]
    simp [hused, hdir, hnlink]
  refine ⟨?_, ?_, ?_, ?_, ?_⟩
  · intro d hd
    have hdi : d ≠ i := by
      rintro rfl
      rw [Fs.Living, Fs.inode_modify_self, hdir] at hd
      exact absurd hd.2.1 Bool.false_ne_true
    rw [Fs.Living, Fs.dir, Fs.inode_modify_of_ne hdi] at hd
    rw [Fs.parent, Fs.dir, Fs.inode_modify_of_ne hdi]
    exact h.shape hd
  · rw [hview]
    refine h.hier.alloc (fun hc => ?_) (by omega)
    rw [show (s.view sb).used i ↔ (s.inode i).used = true from Iff.rfl, hi] at hc
    cases hc
  · intro j hj
    by_cases hji : j = i
    · rw [hji]
      exact hpos
    · rw [Fs.inode_modify_of_ne hji] at hj
      exact h.pos hj
  · intro j hj hc
    by_cases hji : j = i
    · rw [hji, Fs.inode_modify_self] at hc
      exact absurd hc hcount
    · rw [Fs.inode_modify_of_ne hji] at hj hc ⊢
      exact h.freed hj hc
  · rw [Fs.inode_modify_of_ne hroot]
    exact h.root

/-- The inodes are those of before but for what the directories hold and the links. -/
theorem Good.of_sound (h : Good sb s) (hused : ∀ j, (s'.inode j).used = (s.inode j).used)
    (hcount : ∀ j, (s'.inode j).count = (s.inode j).count)
    (hshape : ∀ {d}, s'.Living d → Shape sb.blocksize (s'.dir d) d (s'.parent d))
    (hsound : Hierarchy.Sound (sb.inodesCount + 1) rootIno (s'.view sb))
    (hnlink : ∀ j, (s.inode j).used = true → (s.inode j).count = 0 → (s'.inode j).nlink ≠ 0) :
    Good sb s' := by
  refine ⟨hshape, hsound, ?_, ?_, ?_⟩
  · intro j hj
    rw [hused] at hj
    exact h.pos hj
  · intro j hj hc
    rw [hused] at hj
    rw [hcount] at hc
    exact hnlink j hj hc
  · rw [hcount]
    exact h.root

/-- A store to a directory, and whatever holds of the others. -/
theorem shape_of_setDir {p : Nat} (hd' : Shape sb.blocksize d' dir p)
    (hs : d ≠ dir → s.Living d → Shape sb.blocksize (s.dir d) d (s.parent d))
    (hd : (s.setDir dir d').Living d) :
    Shape sb.blocksize ((s.setDir dir d').dir d) d ((s.setDir dir d').parent d) := by
  by_cases hdd : d = dir
  · subst hdd
    rw [Fs.parent, Fs.dir_setDir_self, hd'.dotdot_inode]
    exact hd'
  · rw [Fs.Living, Fs.dir_setDir_of_ne hdd, Fs.used_setDir, Fs.isDir_setDir] at hd
    rw [Fs.parent, Fs.dir_setDir_of_ne hdd]
    exact hs hdd hd

theorem shape_of_setNlink {n : Nat}
    (hs : s.Living d → Shape sb.blocksize (s.dir d) d (s.parent d)) (hd : (s.setNlink i n).Living d) :
    Shape sb.blocksize ((s.setNlink i n).dir d) d ((s.setNlink i n).parent d) := by
  rw [Fs.Living, Fs.dir_setNlink, Fs.used_setNlink, Fs.isDir_setNlink] at hd
  rw [Fs.parent, Fs.dir_setNlink]
  exact hs hd

theorem view_setDir_cons (hdir : s.Living dir)
    (hshape : Shape sb.blocksize d' dir (s.parent dir))
    (hperm : (d'.kids sb.blocksize).Perm ((nm, i) :: (s.dir dir).kids sb.blocksize)) :
    (s.setDir dir d').view sb =
      { s.view sb with
        kids := update (s.view sb).kids dir ((nm, i) ::ₘ (s.view sb).kids dir) } := by
  rw [Fs.view_setDir sb hdir hshape.pos]
  simp only [Hier.mk.injEq, true_and, and_true]
  refine ⟨?_, ?_⟩
  · rw [hshape.dotdot_inode, ← Fs.view_parent sb hdir, update_eq_self]
  · rw [coe_kids_of_perm hperm, Fs.view_kids sb hdir]

theorem view_setDir_erase (hdir : s.Living dir)
    (hshape : Shape sb.blocksize d' dir (s.parent dir))
    (hperm : ((s.dir dir).kids sb.blocksize).Perm ((nm, i) :: d'.kids sb.blocksize)) :
    (s.setDir dir d').view sb =
      { s.view sb with
        kids := update (s.view sb).kids dir (((s.view sb).kids dir).erase (nm, i)) } := by
  rw [Fs.view_setDir sb hdir hshape.pos]
  simp only [Hier.mk.injEq, true_and, and_true]
  refine ⟨?_, ?_⟩
  · rw [hshape.dotdot_inode, ← Fs.view_parent sb hdir, update_eq_self]
  · rw [Fs.view_kids sb hdir, coe_kids_of_perm hperm, Multiset.erase_cons_head]

theorem view_addFile (hdir : s.Living dir) (hi : (s.inode i).used = true)
    (hshape : Shape sb.blocksize d' dir (s.parent dir))
    (hperm : (d'.kids sb.blocksize).Perm ((nm, i) :: (s.dir dir).kids sb.blocksize)) :
    ((s.setDir dir d').setNlink i ((s.inode i).nlink + 1)).view sb =
      Hierarchy.addFile (s.view sb) dir nm i := by
  rw [Fs.view_setNlink sb (by rwa [Fs.used_setDir]), view_setDir_cons hdir hshape hperm,
    Hierarchy.addFile, Fs.view_nlink sb hi]

theorem view_removeFile (hdir : s.Living dir) (hi : (s.inode i).used = true)
    (hshape : Shape sb.blocksize d' dir (s.parent dir))
    (hperm : ((s.dir dir).kids sb.blocksize).Perm ((nm, i) :: d'.kids sb.blocksize)) :
    ((s.setDir dir d').setNlink i ((s.inode i).nlink - 1)).view sb =
      Hierarchy.removeFile (s.view sb) dir nm i := by
  rw [Fs.view_setNlink sb (by rwa [Fs.used_setDir]), view_setDir_erase hdir hshape hperm,
    Hierarchy.removeFile, Fs.view_nlink sb hi]

/-- **A file gets an entry.** -/
theorem Good.addFile (h : Good sb s) (hdir : s.Living dir) (hi : (s.inode i).used = true)
    (hfile : (s.inode i).isDir = false) (hshape : Shape sb.blocksize d' dir (s.parent dir))
    (hperm : (d'.kids sb.blocksize).Perm ((nm, i) :: (s.dir dir).kids sb.blocksize)) :
    Good sb ((s.setDir dir d').setNlink i ((s.inode i).nlink + 1)) := by
  refine h.of_sound (fun j => by rw [Fs.used_setNlink, Fs.used_setDir])
    (fun j => by rw [Fs.count_setNlink, Fs.count_setDir])
    (shape_of_setNlink (shape_of_setDir hshape fun _ => h.shape)) ?_ fun j hj hc => ?_
  · rw [view_addFile hdir hi hshape hperm]
    refine h.hier.addFile hdir hi ?_
    rintro ⟨-, hc⟩
    rw [hfile] at hc
    cases hc
  · by_cases hji : j = i
    · rw [hji, Fs.nlink_setNlink_self]
      exact Nat.succ_ne_zero _
    · rw [Fs.nlink_setNlink_of_ne hji, Fs.nlink_setDir]
      exact h.freed hj hc

/-- **A file in use loses an entry.** -/
theorem Good.removeFile (h : Good sb s) (hdir : s.Living dir)
    (hfile : (s.inode i).isDir = false) (hcount : (s.inode i).count ≠ 0)
    (hshape : Shape sb.blocksize d' dir (s.parent dir))
    (hperm : ((s.dir dir).kids sb.blocksize).Perm ((nm, i) :: d'.kids sb.blocksize)) :
    Good sb ((s.setDir dir d').setNlink i ((s.inode i).nlink - 1)) := by
  have hmem := Good.mem_kids_of_perm hdir hperm
  have hi : (s.inode i).used = true := h.hier.kid_used hmem
  refine h.of_sound (fun j => by rw [Fs.used_setNlink, Fs.used_setDir])
    (fun j => by rw [Fs.count_setNlink, Fs.count_setDir])
    (shape_of_setNlink (shape_of_setDir hshape fun _ => h.shape)) ?_ fun j hj hc => ?_
  · rw [view_removeFile hdir hi hshape hperm]
    refine h.hier.removeFile hmem ?_
    rintro ⟨-, hc⟩
    rw [hfile] at hc
    cases hc
  · have hji : j ≠ i := by
      rintro rfl
      exact hcount hc
    rw [Fs.nlink_setNlink_of_ne hji, Fs.nlink_setDir]
    exact h.freed hj hc

theorem dir_modify_of_ne {m : Inode} (hd : d ≠ i) :
    (s.modify i fun _ => m).dir d = s.dir d := by
  simp only [Fs.dir, Fs.inode_modify_of_ne hd]

theorem parent_modify_of_ne {m : Inode} (hd : d ≠ i) :
    (s.modify i fun _ => m).parent d = s.parent d := by
  rw [Fs.parent, dir_modify_of_ne hd, Fs.parent]

/-- What `ext2_mkdir` does to the table: the new inode, the entry for it, the link of its `".."`. -/
def withDir (s : Fs) (dir i : Nat) (m : Inode) (d' : Directory) (n : Nat) : Fs :=
  ((s.modify i fun _ => m).setDir dir d').setNlink dir n

theorem view_addDir {m : Inode} (hdir : s.Living dir) (hi : (s.inode i).used = false)
    (hused : m.used = true) (hisDir : m.isDir = true) (hnlink : m.nlink = 2)
    (hm : Shape sb.blocksize m.dir i dir) (hkids : m.dir.kids sb.blocksize = [])
    (hshape : Shape sb.blocksize d' dir (s.parent dir))
    (hperm : (d'.kids sb.blocksize).Perm ((nm, i) :: (s.dir dir).kids sb.blocksize)) :
    (withDir s dir i m d' ((s.inode dir).nlink + 1)).view sb =
      Hierarchy.mkdir (s.view sb) dir nm i := by
  have hdi : dir ≠ i := by
    rintro rfl
    rw [hdir.1] at hi
    cases hi
  have hnot : ¬ s.Living i := fun hc => by
    rw [hc.1] at hi
    cases hi
  have hkid : (s.view sb).kids i = 0 := if_neg hnot
  have hl : (s.modify i fun _ => m).Living dir := (Fs.living_modify_of_ne hdi).2 hdir
  rw [withDir, Fs.view_setNlink sb (by rw [Fs.used_setDir]; exact hl.1),
    view_setDir_cons hl (by rwa [parent_modify_of_ne hdi]) (by rwa [dir_modify_of_ne hdi]),
    Fs.view_modify_dir sb hnot hused hisDir hm.pos, Hierarchy.mkdir]
  simp only [Hier.mk.injEq, true_and]
  refine ⟨rfl, ?_, ?_, ?_⟩
  · rw [hm.dotdot_inode]
  · rw [hkids, update_of_ne hdi, Multiset.coe_nil, ← hkid, update_eq_self]
  · rw [hnlink, Fs.view_nlink sb hdir.1]

theorem Good.addDir (h : Good sb s) {m : Inode} (hdir : s.Living dir)
    (hi : (s.inode i).used = false) (hpos : i ≠ 0) (hle : i ≤ sb.inodesCount)
    (hused : m.used = true) (hisDir : m.isDir = true) (hnlink : m.nlink = 2) (hcount : m.count ≠ 0)
    (hm : Shape sb.blocksize m.dir i dir) (hkids : m.dir.kids sb.blocksize = [])
    (hshape : Shape sb.blocksize d' dir (s.parent dir))
    (hperm : (d'.kids sb.blocksize).Perm ((nm, i) :: (s.dir dir).kids sb.blocksize)) :
    Good sb (withDir s dir i m d' ((s.inode dir).nlink + 1)) := by
  have hdi : dir ≠ i := by
    rintro rfl
    rw [hdir.1] at hi
    cases hi
  have hroot : rootIno ≠ i := by
    rintro rfl
    rw [h.living_root.1] at hi
    cases hi
  refine ⟨?_, ?_, ?_, ?_, ?_⟩
  · intro d
    refine shape_of_setNlink (shape_of_setDir hshape fun _ hd => ?_)
    by_cases hde : d = i
    · subst hde
      rw [Fs.parent, Fs.dir, Fs.inode_modify_self, hm.dotdot_inode]
      exact hm
    · rw [parent_modify_of_ne hde, dir_modify_of_ne hde]
      exact h.shape ((Fs.living_modify_of_ne hde).1 hd)
  · rw [view_addDir hdir hi hused hisDir hnlink hm hkids hshape hperm]
    refine h.hier.mkdir hdir (fun hc => ?_) (by omega)
    rw [show (s.view sb).used i ↔ (s.inode i).used = true from Iff.rfl, hi] at hc
    cases hc
  · intro j hj
    rw [withDir, Fs.used_setNlink, Fs.used_setDir] at hj
    by_cases hji : j = i
    · rw [hji]
      exact hpos
    · rw [Fs.inode_modify_of_ne hji] at hj
      exact h.pos hj
  · intro j hj hc
    rw [withDir, Fs.used_setNlink, Fs.used_setDir] at hj
    rw [withDir, Fs.count_setNlink, Fs.count_setDir] at hc
    by_cases hji : j = i
    · rw [hji, Fs.inode_modify_self] at hc
      exact absurd hc hcount
    · rw [Fs.inode_modify_of_ne hji] at hj hc
      by_cases hjd : j = dir
      · rw [hjd, withDir, Fs.nlink_setNlink_self]
        exact Nat.succ_ne_zero _
      · rw [withDir, Fs.nlink_setNlink_of_ne hjd, Fs.nlink_setDir, Fs.inode_modify_of_ne hji]
        exact h.freed hj hc
  · rw [withDir, Fs.count_setNlink, Fs.count_setDir, Fs.inode_modify_of_ne hroot]
    exact h.root

theorem view_removeDir {m : Inode} (hdir : s.Living dir) (he : s.Living e) (hde : dir ≠ e)
    (hempty : (s.dir e).kids sb.blocksize = []) (hused : m.used = true) (hisDir : m.isDir = true)
    (hsize : m.dir.size = 0) (hnlink : m.nlink = 0)
    (hshape : Shape sb.blocksize d' dir (s.parent dir))
    (hperm : ((s.dir dir).kids sb.blocksize).Perm ((nm, e) :: d'.kids sb.blocksize)) :
    (withDir s dir e m d' ((s.inode dir).nlink - 1)).view sb =
      Hierarchy.rmdir (s.view sb) dir nm e := by
  have hkid : (s.view sb).kids e = 0 := by
    rw [Fs.view_kids sb he, hempty, Multiset.coe_nil]
  have hl : (s.modify e fun _ => m).Living dir := (Fs.living_modify_of_ne hde).2 hdir
  rw [withDir, Fs.view_setNlink sb (by rw [Fs.used_setDir]; exact hl.1),
    view_setDir_erase hl (by rwa [parent_modify_of_ne hde]) (by rwa [dir_modify_of_ne hde]),
    Fs.view_modify_removed sb he (.inr (.inr hsize)), Hierarchy.rmdir]
  simp only [hused, hisDir, hnlink, and_self, if_true, Hier.mk.injEq, true_and]
  refine ⟨Function.update_eq_self_iff.2 (eq_true he.1).symm,
    Function.update_eq_self_iff.2 (eq_true ⟨he.1, he.2.1⟩).symm, rfl, ?_, ?_⟩
  · rw [update_of_ne hde, ← hkid, update_eq_self]
  · rw [Fs.view_nlink sb hdir.1]

/-- **An empty directory is removed**: it has no entries and no links, and is in use by others. -/
theorem Good.removeDir (h : Good sb s) {m : Inode} (hdir : s.Living dir) (he : s.Living e)
    (hempty : (s.dir e).kids sb.blocksize = []) (hused : m.used = true) (hisDir : m.isDir = true)
    (hsize : m.dir.size = 0) (hnlink : m.nlink = 0) (hcount : m.count ≠ 0)
    (hshape : Shape sb.blocksize d' dir (s.parent dir))
    (hperm : ((s.dir dir).kids sb.blocksize).Perm ((nm, e) :: d'.kids sb.blocksize)) :
    Good sb (withDir s dir e m d' ((s.inode dir).nlink - 1)) := by
  have hmem := Good.mem_kids_of_perm hdir hperm
  have hde : dir ≠ e := (h.hier.kid_ne hmem).symm
  have hroot : rootIno ≠ e := (h.hier.kid_ne_root hmem).symm
  have hkid : (s.view sb).kids e = 0 := by
    rw [Fs.view_kids sb he, hempty, Multiset.coe_nil]
  have hview := view_removeDir hdir he hde hempty hused hisDir hsize hnlink hshape hperm
  have hsound : Hierarchy.Sound (sb.inodesCount + 1) rootIno
      ((withDir s dir e m d' ((s.inode dir).nlink - 1)).view sb) := by
    rw [hview]
    exact h.hier.rmdir hmem ⟨he.1, he.2.1⟩ hkid
  have hliving : ∀ {d}, (withDir s dir e m d' ((s.inode dir).nlink - 1)).Living d →
      d ≠ e ∧ s.Living d := by
    intro d hd
    have hd' : (Hierarchy.rmdir (s.view sb) dir nm e).living d := by
      rw [← hview]
      exact hd
    by_cases hc : d = e
    · simp [Hierarchy.rmdir, hc] at hd'
    · simp only [Hierarchy.rmdir, update_of_ne hc] at hd'
      exact ⟨hc, hd'⟩
  refine ⟨?_, hsound, ?_, ?_, ?_⟩
  · intro d hd
    obtain ⟨hne, hl⟩ := hliving hd
    refine shape_of_setNlink (shape_of_setDir hshape fun _ _ => ?_) hd
    rw [parent_modify_of_ne hne, dir_modify_of_ne hne]
    exact h.shape hl
  · intro j hj
    rw [withDir, Fs.used_setNlink, Fs.used_setDir] at hj
    by_cases hje : j = e
    · rw [hje]
      exact h.pos he.1
    · rw [Fs.inode_modify_of_ne hje] at hj
      exact h.pos hj
  · intro j hj hc
    rw [withDir, Fs.used_setNlink, Fs.used_setDir] at hj
    rw [withDir, Fs.count_setNlink, Fs.count_setDir] at hc
    by_cases hje : j = e
    · rw [hje, Fs.inode_modify_self] at hc
      exact absurd hc hcount
    · by_cases hjd : j = dir
      · subst hjd
        have hl : (withDir s j e m d' ((s.inode j).nlink - 1)).Living j := by
          rw [Fs.Living, withDir, Fs.dir_setNlink, Fs.dir_setDir_self, Fs.used_setNlink,
            Fs.isDir_setNlink, Fs.used_setDir, Fs.isDir_setDir, Fs.inode_modify_of_ne hje]
          exact ⟨hdir.1, hdir.2.1, hshape.pos⟩
        have := hsound.nlink_pos_of_living hl
        rw [Fs.view_nlink sb hl.1] at this
        omega
      · rw [Fs.inode_modify_of_ne hje] at hj hc
        rw [withDir, Fs.nlink_setNlink_of_ne hjd, Fs.nlink_setDir, Fs.inode_modify_of_ne hje]
        exact h.freed hj hc
  · rw [withDir, Fs.count_setNlink, Fs.count_setDir, Fs.inode_modify_of_ne hroot]
    exact h.root

/-! ## A directory is moved -/

/-- The contents of the directories once the entry is moved and the parent replaced. -/
def moved (s : Fs) (oldDir newDir e : Nat) (d₁ d₂ : Directory) : Fs :=
  let s := (s.setDir newDir d₁).setDir oldDir d₂
  s.setDir e (setParentIno (s.dir e) newDir)

/-- The same with the links of the two parents. -/
def withMoved (s : Fs) (oldDir newDir e : Nat) (d₁ d₂ : Directory) : Fs :=
  let s := moved s oldDir newDir e d₁ d₂
  let s := s.setNlink oldDir ((s.inode oldDir).nlink - 1)
  s.setNlink newDir ((s.inode newDir).nlink + 1)

section Move

variable {oldDir newDir : Nat} {oldName newName : Name} {d₁ d₂ : Directory}

theorem living_setDir {x : Directory} (hdir : s.Living dir) (hx : x.size ≠ 0) :
    (s.setDir dir x).Living d ↔ s.Living d := by
  by_cases hd : d = dir
  · subst hd
    simp only [Fs.Living, Fs.used_setDir, Fs.isDir_setDir, Fs.dir_setDir_self]
    exact ⟨fun _ => hdir, fun _ => ⟨hdir.1, hdir.2.1, hx⟩⟩
  · simp only [Fs.Living, Fs.used_setDir, Fs.isDir_setDir, Fs.dir_setDir_of_ne hd]

theorem setParentIno_eq (h : Shape sb.blocksize dd i j) (v : Nat) :
    setParentIno dd v = dd.setInode 12 v := by
  rw [setParentIno, h.recLen_zero]

/-- What is known of a directory that is about to be moved. -/
structure Moving (sb : SuperBlock) (s : Fs) (oldDir newDir e : Nat) (oldName newName : Name)
    (d₁ d₂ : Directory) : Prop where
  old : s.Living oldDir
  new : s.Living newDir
  dir : s.Living e
  ne_old : e ≠ oldDir
  ne_new : e ≠ newDir
  shape₁ : Shape sb.blocksize d₁ newDir (s.parent newDir)
  perm₁ : (d₁.kids sb.blocksize).Perm ((newName, e) :: (s.dir newDir).kids sb.blocksize)
  shape₂ : Shape sb.blocksize d₂ oldDir (s.parent oldDir)
  kid : (oldName, e) ∈ (s.view sb).kids oldDir
  perm₂ : (((s.setDir newDir d₁).dir oldDir).kids sb.blocksize).Perm
    ((oldName, e) :: d₂.kids sb.blocksize)

namespace Moving

variable (hm : Moving sb s oldDir newDir e oldName newName d₁ d₂)

include hm

theorem parent_setDir : (s.setDir newDir d₁).parent oldDir = s.parent oldDir := by
  by_cases hon : oldDir = newDir
  · rw [hon, Fs.parent, Fs.dir_setDir_self]
    exact hm.shape₁.dotdot_inode
  · rw [Fs.parent, Fs.dir_setDir_of_ne hon, Fs.parent]

theorem dir_self : ((s.setDir newDir d₁).setDir oldDir d₂).dir e = s.dir e := by
  rw [Fs.dir_setDir_of_ne hm.ne_old, Fs.dir_setDir_of_ne hm.ne_new]

theorem shape_self (h : Good sb s) :
    Shape sb.blocksize (setParentIno (s.dir e) newDir) e newDir ∧
      ((setParentIno (s.dir e) newDir).kids sb.blocksize).Perm ((s.dir e).kids sb.blocksize) := by
  rw [setParentIno_eq (h.shape hm.dir)]
  exact (h.shape hm.dir).setParent (h.parent_ne_zero hm.dir) (h.lt_of_used hm.new.1)

theorem living (h : Good sb s) : (moved s oldDir newDir e d₁ d₂).Living d ↔ s.Living d := by
  have h₁ : ∀ {d}, (s.setDir newDir d₁).Living d ↔ s.Living d := living_setDir hm.new hm.shape₁.pos
  have h₂ : ∀ {d}, ((s.setDir newDir d₁).setDir oldDir d₂).Living d ↔ s.Living d := by
    intro d
    rw [living_setDir (h₁.2 hm.old) hm.shape₂.pos, h₁]
  rw [moved, living_setDir (h₂.2 hm.dir), h₂]
  rw [hm.dir_self]
  exact (hm.shape_self h).1.pos

theorem view_moved (h : Good sb s) :
    (moved s oldDir newDir e d₁ d₂).view sb =
      { s.view sb with
        parent := (Hierarchy.moveDir (s.view sb) oldDir oldName newDir newName e).parent
        kids := (Hierarchy.moveDir (s.view sb) oldDir oldName newDir newName e).kids } := by
  have h₁ : ∀ {d}, (s.setDir newDir d₁).Living d ↔ s.Living d := living_setDir hm.new hm.shape₁.pos
  have h₂ : ∀ {d}, ((s.setDir newDir d₁).setDir oldDir d₂).Living d ↔ s.Living d := by
    intro d
    rw [living_setDir (h₁.2 hm.old) hm.shape₂.pos, h₁]
  obtain ⟨hshape, hperm⟩ := hm.shape_self h
  have hview₂ : ((s.setDir newDir d₁).setDir oldDir d₂).view sb =
      { s.view sb with
        kids := (Hierarchy.moveDir (s.view sb) oldDir oldName newDir newName e).kids } := by
    rw [view_setDir_erase (h₁.2 hm.old) (by rw [hm.parent_setDir]; exact hm.shape₂) hm.perm₂,
      view_setDir_cons hm.new hm.shape₁ hm.perm₁]
    rw [kids_moveDir hm.kid]
    rfl
  have hl : ((s.setDir newDir d₁).setDir oldDir d₂).Living e := h₂.2 hm.dir
  have hsize : (setParentIno (((s.setDir newDir d₁).setDir oldDir d₂).dir e) newDir).size ≠ 0 := by
    rw [hm.dir_self]
    exact hshape.pos
  have hkids : (Hierarchy.moveDir (s.view sb) oldDir oldName newDir newName e).kids e =
      (s.view sb).kids e := by
    simp only [Hierarchy.moveDir, update_of_ne hm.ne_old, update_of_ne hm.ne_new]
  rw [moved, Fs.view_setDir sb hl hsize, hview₂]
  simp only [Hier.mk.injEq, true_and, and_true]
  rw [hm.dir_self]
  refine ⟨?_, ?_⟩
  · rw [hshape.dotdot_inode]
    rfl
  · rw [Multiset.coe_eq_coe.2 hperm, ← Fs.view_kids sb hm.dir, ← hkids, update_eq_self]

theorem view_withMoved (h : Good sb s) :
    (withMoved s oldDir newDir e d₁ d₂).view sb =
      Hierarchy.moveDir (s.view sb) oldDir oldName newDir newName e := by
  have hold : ((moved s oldDir newDir e d₁ d₂).inode oldDir).used = true := ((hm.living h).2 hm.old).1
  have hnew : ((moved s oldDir newDir e d₁ d₂).inode newDir).used = true := ((hm.living h).2 hm.new).1
  have hnlink : ∀ j, ((moved s oldDir newDir e d₁ d₂).inode j).nlink = (s.inode j).nlink := by
    intro j
    simp only [moved, Fs.nlink_setDir]
  have hview₁ : ∀ n, ((moved s oldDir newDir e d₁ d₂).setNlink oldDir n).view sb =
      { Hierarchy.moveDir (s.view sb) oldDir oldName newDir newName e with
        nlink := update (s.view sb).nlink oldDir n } := by
    intro n
    rw [Fs.view_setNlink sb hold, hm.view_moved h]
    rfl
  have hnlink₁ : ∀ n, (((moved s oldDir newDir e d₁ d₂).setNlink oldDir n).inode newDir).nlink =
      update (s.view sb).nlink oldDir n newDir := by
    intro n
    rw [← Fs.view_nlink sb (by rwa [Fs.used_setNlink]), hview₁]
  simp only [withMoved]
  rw [Fs.view_setNlink sb (by rwa [Fs.used_setNlink]), hnlink₁, hview₁, hnlink,
    ← Fs.view_nlink sb hm.old.1]
  rfl

end Moving

/-- **A directory is moved.** -/
theorem Good.moveDir (h : Good sb s) (hm : Moving sb s oldDir newDir e oldName newName d₁ d₂) :
    Good sb (withMoved s oldDir newDir e d₁ d₂) := by
  have hview := hm.view_withMoved h
  have hsound : Hierarchy.Sound (sb.inodesCount + 1) rootIno
      ((withMoved s oldDir newDir e d₁ d₂).view sb) := by
    rw [hview]
    exact h.hier.moveDir hm.kid ⟨hm.dir.1, hm.dir.2.1⟩ hm.new hm.ne_new.symm
  have hused : ∀ j, ((withMoved s oldDir newDir e d₁ d₂).inode j).used = (s.inode j).used := by
    intro j
    simp only [withMoved, moved, Fs.used_setNlink, Fs.used_setDir]
  have hcount : ∀ j, ((withMoved s oldDir newDir e d₁ d₂).inode j).count = (s.inode j).count := by
    intro j
    simp only [withMoved, moved, Fs.count_setNlink, Fs.count_setDir]
  have hliving : ∀ d, (withMoved s oldDir newDir e d₁ d₂).Living d ↔ s.Living d := by
    intro d
    have : ((withMoved s oldDir newDir e d₁ d₂).view sb).living d ↔
        (Hierarchy.moveDir (s.view sb) oldDir oldName newDir newName e).living d := by rw [hview]
    exact this
  have hself : Shape sb.blocksize
      (setParentIno (((s.setDir newDir d₁).setDir oldDir d₂).dir e) newDir) e newDir := by
    rw [hm.dir_self]
    exact (hm.shape_self h).1
  refine h.of_sound hused hcount (shape_of_setNlink (shape_of_setNlink (shape_of_setDir hself
    fun _ => shape_of_setDir hm.shape₂ fun _ => shape_of_setDir hm.shape₁ fun _ => h.shape)))
    hsound fun j hj hc => ?_
  by_cases hjd : j = oldDir ∨ j = newDir
  · have hl : (withMoved s oldDir newDir e d₁ d₂).Living j := by
      rw [hliving]
      rcases hjd with rfl | rfl
      · exact hm.old
      · exact hm.new
    have := hsound.nlink_pos_of_living hl
    rw [Fs.view_nlink sb hl.1] at this
    omega
  · obtain ⟨hjo, hjn⟩ := not_or.1 hjd
    simp only [withMoved, moved, Fs.nlink_setNlink_of_ne hjn, Fs.nlink_setNlink_of_ne hjo,
      Fs.nlink_setDir]
    exact h.freed hj hc

end Move

/-! ## A file is moved -/

section MoveFile

variable {oldDir newDir new : Nat} {oldName newName : Name} {d₁ d₂ : Directory}

theorem parent_setDir_setDir (hshape₁ : Shape sb.blocksize d₁ newDir (s.parent newDir)) :
    (s.setDir newDir d₁).parent d = s.parent d := by
  by_cases hdn : d = newDir
  · subst hdn
    rw [Fs.parent, Fs.dir_setDir_self, hshape₁.dotdot_inode]
  · rw [Fs.parent, Fs.dir_setDir_of_ne hdn, Fs.parent]

/-- **A file gets another name.** -/
theorem Good.moveFile (h : Good sb s) (hold : s.Living oldDir) (hnew : s.Living newDir)
    (hfile : (s.inode e).isDir = false) (hk : (oldName, e) ∈ (s.view sb).kids oldDir)
    (hshape₁ : Shape sb.blocksize d₁ newDir (s.parent newDir))
    (hperm₁ : (d₁.kids sb.blocksize).Perm ((newName, e) :: (s.dir newDir).kids sb.blocksize))
    (hshape₂ : Shape sb.blocksize d₂ oldDir (s.parent oldDir))
    (hperm₂ : (((s.setDir newDir d₁).dir oldDir).kids sb.blocksize).Perm
      ((oldName, e) :: d₂.kids sb.blocksize)) :
    Good sb ((s.setDir newDir d₁).setDir oldDir d₂) ∧
      ((s.setDir newDir d₁).setDir oldDir d₂).view sb =
        Hierarchy.moveFile (s.view sb) oldDir oldName newDir newName e := by
  have hold' : (s.setDir newDir d₁).Living oldDir := (living_setDir hnew hshape₁.pos).2 hold
  have hview : ((s.setDir newDir d₁).setDir oldDir d₂).view sb =
      Hierarchy.moveFile (s.view sb) oldDir oldName newDir newName e := by
    rw [view_setDir_erase hold' (by rwa [parent_setDir_setDir hshape₁]) hperm₂,
      view_setDir_cons hnew hshape₁ hperm₁]
    rfl
  refine ⟨h.of_sound (fun j => by simp) (fun j => by simp) (shape_of_setDir hshape₂ fun _ =>
    shape_of_setDir hshape₁ fun _ => h.shape) ?_ ?_, hview⟩
  · rw [hview]
    refine h.hier.moveFile hk ?_ hnew
    rintro ⟨-, hc⟩
    rw [hfile] at hc
    cases hc
  · intro j hj hc
    rw [Fs.nlink_setDir, Fs.nlink_setDir]
    exact h.freed hj hc

end MoveFile

end LinuxEvocation.Ext2.Namei
