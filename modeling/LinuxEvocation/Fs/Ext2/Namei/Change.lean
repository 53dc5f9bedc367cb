import LinuxEvocation.Fs.Ext2.Namei.Links

/-!
# What an operation can do

Each operation is a sequence of changes.  Whatever is to hold of every run needs to be shown for the
changes only.

* `Fs.Holds`, `Learned` — what a directory holds, and a cache that has learnt some of it.
* `Change` — the changes, but for those that remove or move a directory.
* `RemoveDir`, `MoveDir` — these two.
* `Path` — the way of an operation, with the references that it still has.
-/

namespace LinuxEvocation.Ext2.Namei

open Errno Directory Hierarchy

variable {sb : SuperBlock} {s s' t u : Fs} {dir d e i j de ino : Nat} {name nm : Name} {env : Env}
  {dd d' : Directory} {l : List Nat}

/-! ## The changes -/

/-- The directory of the key is there and has an entry of the name with the number. -/
def Fs.Holds (sb : SuperBlock) (s : Fs) (k : DcacheKey) (v : Nat) : Prop :=
  s.Living k.dir ∧ (k.name = dot ∧ v = k.dir ∨ k.name = dotdot ∧ v = s.parent k.dir ∨
    (k.name, v) ∈ (s.dir k.dir).kids sb.blocksize)

/-- The cache knows nothing but what it knew before and what the directories hold. -/
structure Learned (sb : SuperBlock) (s : Fs) (c : Dcache) : Prop where
  distinct : Lru.Distinct c
  mem : ∀ {k v}, (k, v) ∈ c → (k, v) ∈ s.cache ∨ k.dev ≠ sb.dev ∨ s.Holds sb k v

/-- The cache does not know the name in the directory. -/
def Unknown (sb : SuperBlock) (s : Fs) (dir : Nat) (nm : Name) : Prop :=
  ∀ v, ((⟨sb.dev, dir, nm⟩ : DcacheKey), v) ∉ s.cache

/-- The cache forgets one name and learns another one. -/
structure Renamed (sb : SuperBlock) (s : Fs) (oldDir : Nat) (oldName : Name) (newDir : Nat)
    (newName : Name) (e : Nat) (c : Dcache) : Prop where
  distinct : Lru.Distinct c
  mem : ∀ {k v}, (k, v) ∈ c →
    k = ⟨sb.dev, newDir, newName⟩ ∧ v = e ∨
      (k, v) ∈ s.cache ∧ k ≠ ⟨sb.dev, oldDir, oldName⟩ ∧ k ≠ ⟨sb.dev, newDir, newName⟩

/-- One change, which neither removes nor moves a directory. -/
inductive Change (sb : SuperBlock) (s : Fs) : Fs → Prop
  | iget {i : Nat} : (s.inode i).used = true → Change sb s (s.iget i)
  | iput {i : Nat} : (i = rootIno → 1 < (s.inode i).count) → Change sb s (s.iput i)
  | cache {c : Dcache} : Learned sb s c → Change sb s { s with cache := c }
  | clear {i : Nat} : (s.inode i).used = false → Change sb s (s.modify i fun _ => Fs.noInode)
  | alloc {i : Nat} {m : Inode} : (s.inode i).used = false → i ≠ 0 → i ≤ sb.inodesCount →
      m.used = true → m.isDir = false → m.nlink = 0 → m.count ≠ 0 →
      Change sb s (s.modify i fun _ => m)
  | fill {dir : Nat} {d' : Directory} : s.Living dir →
      Shape sb.blocksize d' dir (s.parent dir) →
      (d'.kids sb.blocksize).Perm ((s.dir dir).kids sb.blocksize) →
      Change sb s (s.setDir dir d')
  | addFile {dir i : Nat} {nm : Name} {d' : Directory} : s.Living dir →
      (s.inode i).used = true → (s.inode i).isDir = false → nm.length ≤ nameMax →
      Shape sb.blocksize d' dir (s.parent dir) →
      (d'.kids sb.blocksize).Perm ((nm, i) :: (s.dir dir).kids sb.blocksize) →
      Change sb s ((s.setDir dir d').setNlink i ((s.inode i).nlink + 1))
  | removeFile {dir i : Nat} {nm : Name} {d' : Directory} : s.Living dir →
      (s.inode i).isDir = false → (s.inode i).count ≠ 0 → Unknown sb s dir nm →
      Shape sb.blocksize d' dir (s.parent dir) →
      ((s.dir dir).kids sb.blocksize).Perm ((nm, i) :: d'.kids sb.blocksize) →
      Change sb s ((s.setDir dir d').setNlink i ((s.inode i).nlink - 1))
  | addDir {dir i : Nat} {nm : Name} {m : Inode} {d' : Directory} : s.Living dir →
      (s.inode i).used = false → i ≠ 0 → i ≤ sb.inodesCount → m.used = true → m.isDir = true →
      m.nlink = 2 → m.count ≠ 0 → nm.length ≤ nameMax → Shape sb.blocksize m.dir i dir →
      m.dir.kids sb.blocksize = [] → Shape sb.blocksize d' dir (s.parent dir) →
      (d'.kids sb.blocksize).Perm ((nm, i) :: (s.dir dir).kids sb.blocksize) →
      Change sb s (withDir s dir i m d' ((s.inode dir).nlink + 1))
  | moveFile {oldDir newDir e : Nat} {oldName newName : Name} {d₁ d₂ : Directory} {c : Dcache} :
      s.Living oldDir → s.Living newDir → (s.inode e).isDir = false →
      (oldName, e) ∈ (s.view sb).kids oldDir → newName.length ≤ nameMax →
      Shape sb.blocksize d₁ newDir (s.parent newDir) →
      (d₁.kids sb.blocksize).Perm ((newName, e) :: (s.dir newDir).kids sb.blocksize) →
      Shape sb.blocksize d₂ oldDir (s.parent oldDir) →
      (((s.setDir newDir d₁).dir oldDir).kids sb.blocksize).Perm
        ((oldName, e) :: d₂.kids sb.blocksize) →
      Renamed sb s oldDir oldName newDir newName e c →
      Change sb s { (s.setDir newDir d₁).setDir oldDir d₂ with cache := c }

/-- An empty directory is removed; there is a reference to it. -/
inductive RemoveDir (sb : SuperBlock) (s : Fs) (e : Nat) : Fs → Prop
  | mk {dir : Nat} {nm : Name} {m : Inode} {d' : Directory} : s.Living dir → s.Living e →
      (s.dir e).kids sb.blocksize = [] → m.used = true → m.isDir = true → m.dir.size = 0 →
      m.nlink = 0 → m.count ≠ 0 → Unknown sb s dir nm →
      Shape sb.blocksize d' dir (s.parent dir) →
      ((s.dir dir).kids sb.blocksize).Perm ((nm, e) :: d'.kids sb.blocksize) →
      RemoveDir sb s e (withDir s dir e m d' ((s.inode dir).nlink - 1))

/-- A directory gets another name, in `newDir`. -/
inductive MoveDir (sb : SuperBlock) (s : Fs) (e newDir : Nat) : Fs → Prop
  | mk {oldDir : Nat} {oldName newName : Name} {d₁ d₂ : Directory} {c : Dcache} :
      Moving sb s oldDir newDir e oldName newName d₁ d₂ → newName.length ≤ nameMax →
      Renamed sb s oldDir oldName newDir newName e c →
      MoveDir sb s e newDir { withMoved s oldDir newDir e d₁ d₂ with cache := c }

/-! ## They keep the hierarchy -/

theorem Good.fill (h : Good sb s) (hdir : s.Living dir)
    (hshape : Shape sb.blocksize d' dir (s.parent dir))
    (hperm : (d'.kids sb.blocksize).Perm ((s.dir dir).kids sb.blocksize)) :
    Good sb (s.setDir dir d') ∧ (s.setDir dir d').view sb = s.view sb := by
  have hview : (s.setDir dir d').view sb = s.view sb := by
    rw [Fs.view_setDir sb hdir hshape.pos, hshape.dotdot_inode, Multiset.coe_eq_coe.2 hperm,
      ← Fs.view_parent sb hdir, ← Fs.view_kids sb hdir, Function.update_eq_self,
      Function.update_eq_self]
  refine ⟨h.of_sound (fun j => by simp) (fun j => by simp) ?_ ?_ ?_, hview⟩
  · intro d hd
    by_cases hdd : d = dir
    · subst hdd
      rw [Fs.parent, Fs.dir_setDir_self, hshape.dotdot_inode]
      exact hshape
    · rw [living_setDir hdir hshape.pos] at hd
      rw [Fs.parent, Fs.dir_setDir_of_ne hdd]
      exact h.shape hd
  · rw [hview]
    exact h.hier
  · intro j hj hc
    rw [Fs.nlink_setDir]
    exact h.freed hj hc

theorem Change.good (hc : Change sb s t) (h : Good sb s) : Good sb t := by
  cases hc with
  | iget _ => exact h.iget _
  | iput hroot => exact h.iput hroot
  | cache _ => exact h.cache _
  | clear hi => exact h.clear hi
  | alloc hi hpos hle hused hdir hnlink hcount =>
    exact h.alloc hi hpos hle hused hdir hnlink hcount
  | fill hdir hshape hperm => exact (h.fill hdir hshape hperm).1
  | addFile hdir hi hfile _ hshape hperm => exact h.addFile hdir hi hfile hshape hperm
  | removeFile hdir hfile hcount _ hshape hperm => exact h.removeFile hdir hfile hcount hshape hperm
  | addDir hdir hi hpos hle hused hisDir hnlink hcount _ hm hkids hshape hperm =>
    exact h.addDir hdir hi hpos hle hused hisDir hnlink hcount hm hkids hshape hperm
  | moveFile hold hnew hfile hk _ hshape₁ hperm₁ hshape₂ hperm₂ _ =>
    exact (h.moveFile hold hnew hfile hk hshape₁ hperm₁ hshape₂ hperm₂).1.cache _

theorem RemoveDir.good (hc : RemoveDir sb s e t) (h : Good sb s) : Good sb t := by
  cases hc with
  | mk hdir he hempty hused hisDir hsize hnlink hcount _ hshape hperm =>
    exact h.removeDir hdir he hempty hused hisDir hsize hnlink hcount hshape hperm

theorem MoveDir.good {newDir : Nat} (hc : MoveDir sb s e newDir t) (h : Good sb s) :
    Good sb t := by
  cases hc with
  | mk hm _ _ => exact (h.moveDir hm).cache _

/-- Changes, one after the other. -/
abbrev Changes (sb : SuperBlock) : Fs → Fs → Prop := Relation.ReflTransGen (Change sb)

/-- **The rule for whatever is to hold of every run.** -/
theorem Changes.keep {I : Fs → Prop} (hI : ∀ {s t}, Good sb s → I s → Change sb s t → I t)
    (hc : Changes sb s t) (h : Good sb s) (hs : I s) : Good sb t ∧ I t := by
  induction hc with
  | refl => exact ⟨h, hs⟩
  | tail _ hstep ih => exact ⟨hstep.good ih.1, hI ih.1 ih.2 hstep⟩

/-! ## The cache -/

theorem truncate_of_le (h : nm.length ≤ nameMax) : truncate nm = nm := List.take_of_length_le h

theorem truncate_truncate : truncate (truncate name) = truncate name :=
  truncate_of_le length_truncate_le

theorem Learned.refl (hd : Lru.Distinct s.cache) : Learned sb s s.cache := ⟨hd, .inl⟩

theorem Learned.trans {c c' : Dcache} (h : Learned sb s c)
    (h' : Learned sb { s with cache := c } c') : Learned sb s c' := by
  refine ⟨h'.distinct, fun hmem => ?_⟩
  rcases h'.mem hmem with hmem | hmem
  · exact h.mem hmem
  · exact .inr hmem

theorem Learned.lookup (hd : Lru.Distinct s.cache) (dev dir : Nat) (name : Name) :
    Learned sb s (dcacheLookup s.cache dev dir name).2 :=
  ⟨hd.touch _, fun hmem => .inl (Lru.mem_touch.1 hmem)⟩

theorem Learned.remove (hd : Lru.Distinct s.cache) (dev dir : Nat) (name : Name) :
    Learned sb s (dcacheRemove s.cache dev dir name) :=
  ⟨hd.remove _, fun hmem => .inl (hd.mem_remove.1 hmem).1⟩

/-- The cache learns what a directory holds. -/
theorem Learned.add (hd : Lru.Distinct s.cache) (h : s.Holds sb ⟨sb.dev, dir, truncate nm⟩ i) :
    Learned sb s (dcacheAdd s.cache sb.dev dir nm i) := by
  refine ⟨hd.insert _ _ _, fun hmem => ?_⟩
  rcases hd.mem_insert hmem with hkv | hkv
  · obtain ⟨rfl, rfl⟩ := Prod.mk.inj hkv
    exact .inr (.inr h)
  · exact .inl hkv.1

theorem Learned.other {dev : Nat} (hd : Lru.Distinct s.cache) (h : dev ≠ sb.dev) :
    Learned sb s (dcacheAdd s.cache dev dir nm i) := by
  refine ⟨hd.insert _ _ _, fun hmem => ?_⟩
  rcases hd.mem_insert hmem with hkv | hkv
  · obtain ⟨rfl, rfl⟩ := Prod.mk.inj hkv
    exact .inr (.inl h)
  · exact .inl hkv.1

theorem unknown_cacheRemove (hd : Lru.Distinct s.cache) (h : nm.length ≤ nameMax) :
    Unknown sb (s.cacheRemove sb dir nm) dir nm := by
  intro v hmem
  have := (hd.mem_remove.1 hmem).2
  rw [truncate_of_le h] at this
  exact this rfl

theorem Change.distinct (hc : Change sb s t) (hd : Lru.Distinct s.cache) :
    Lru.Distinct t.cache := by
  cases hc with
  | cache hl => exact hl.distinct
  | moveFile _ _ _ _ _ _ _ _ _ hr => exact hr.distinct
  | iput _ =>
    rw [Fs.iput]
    split <;> exact hd
  | _ => exact hd

/-! ## The way of an operation -/

/-- The operation has made some changes, and still has the references of the list. -/
structure Path (sb : SuperBlock) (s : Fs) (l : List Nat) (t : Fs) : Prop where
  changes : Changes sb s t
  good : Good sb t
  distinct : Lru.Distinct t.cache
  owns : l.count rootIno < (t.inode rootIno).count

namespace Path

theorem start (h : Good sb s) (hd : Lru.Distinct s.cache) (hl : holds s l = true) :
    Path sb s l s :=
  ⟨.refl, h, hd, root_count_of_holds hl h.root⟩

theorem step (p : Path sb s l t) (hc : Change sb t u)
    (hcount : (u.inode rootIno).count = (t.inode rootIno).count) : Path sb s l u :=
  ⟨p.changes.tail hc, hc.good p.good, hc.distinct p.distinct, by rw [hcount]; exact p.owns⟩

theorem perm {l' : List Nat} (p : Path sb s l t) (hl : l.Perm l') : Path sb s l' t :=
  ⟨p.changes, p.good, p.distinct, by rw [← hl.count_eq]; exact p.owns⟩

theorem iget (p : Path sb s l t) (hi : (t.inode i).used = true) : Path sb s (i :: l) (t.iget i) := by
  refine ⟨p.changes.tail (.iget hi), p.good.iget i, p.distinct, ?_⟩
  have := p.owns
  rw [Fs.count_iget]
  by_cases hir : i = rootIno
  · subst hir
    rw [List.count_cons_self, one_self]
    omega
  · rw [List.count_cons_of_ne hir]
    omega

theorem iput (p : Path sb s (i :: l) t) : Path sb s l (t.iput i) := by
  have := p.owns
  have hc : Change sb t (t.iput i) := .iput (by
    rintro rfl
    rw [List.count_cons_self] at this
    omega)
  refine ⟨p.changes.tail hc, hc.good p.good, hc.distinct p.distinct, ?_⟩
  rw [count_iput]
  by_cases hir : i = rootIno
  · subst hir
    rw [List.count_cons_self] at this
    rw [one_self]
    omega
  · rw [List.count_cons_of_ne hir] at this
    rw [one_of_ne hir]
    omega

theorem cache {c : Dcache} (p : Path sb s l t) (hc : Learned sb t c) :
    Path sb s l { t with cache := c } :=
  p.step (.cache hc) rfl

end Path

end LinuxEvocation.Ext2.Namei
