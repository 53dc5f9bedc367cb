import LinuxEvocation.Lib.Hierarchy
import LinuxEvocation.Fs.Ext2.Dir.Contents
import LinuxEvocation.Fs.Ext2.Namei.Basic

/-!
# The hierarchy in the table of inodes

The table of inodes is a hierarchy of directories: what the blocks of the directories say, and the
counts in the inodes.  Each store of an operation is a change of the hierarchy.

* `Living`, `parent`, `view` — the hierarchy.
* `Good` — it is sound, its directories begin with their first two entries, and an inode without
  links is in use by someone.
* `Good.iget`, `Good.iput` — references.
-/

namespace LinuxEvocation.Ext2.Namei

open Function (update update_of_ne update_self)
open Bytes Tiling Directory Hierarchy

/-! ## The block of a new directory -/

section FirstBlock

variable (sb : SuperBlock)

/-- The first record of the block, before the second one is written. -/
def firstRecord (ino : Nat) : Directory :=
  ((((⟨fun _ => 0, sb.blocksize⟩ : Directory).setInode 0 ino).setNameLen 0 1).setRecLen 0
    (dirRecLen 1)).setName 0 [46, 0]

theorem recLen_firstRecord (ino : Nat) : (firstRecord sb ino).recLen 0 = 12 := by
  rw [firstRecord, recLen_congr fun x _ _ => setName_data (by omega)]
  exact recLen_setRecLen_self (by decide)

theorem firstBlock_eq (ino parent : Nat) :
    firstBlock sb ino parent =
      ((((firstRecord sb ino).setInode 12 parent).setRecLen 12 (sb.blocksize - 12)).setNameLen 12
        2).setName 12 [46, 46, 0] := by
  have := recLen_firstRecord sb ino
  rw [firstRecord] at this
  simp only [firstBlock, this, firstRecord]
  rfl

theorem firstBlock_data_lt (ino parent : Nat) {x : Nat} (h : x < 12) :
    (firstBlock sb ino parent).data x = (firstRecord sb ino).data x := by
  rw [firstBlock_eq, setName_data (by omega), setNameLen_data (by omega),
    setRecLen_data (by omega), setInode_data (by omega)]

variable {ino parent : Nat}

theorem firstRecord_inode (hino : ino < 2 ^ 32) : (firstRecord sb ino).inode 0 = ino := by
  rw [firstRecord, inode_congr (d := (⟨fun _ => 0, sb.blocksize⟩ : Directory).setInode 0 ino)]
  · exact inode_setInode_self hino
  · intro x _ _
    rw [setName_data (by omega), setRecLen_data (by omega), setNameLen_data (by omega)]

theorem firstRecord_nameLen : (firstRecord sb ino).nameLen 0 = 1 := by
  rw [firstRecord, nameLen_congr
    (d := ((⟨fun _ => 0, sb.blocksize⟩ : Directory).setInode 0 ino).setNameLen 0 1)]
  · exact nameLen_setNameLen_self (by decide)
  · intro x _ _
    rw [setName_data (by omega), setRecLen_data (by omega)]

/-- The records of the block: `"."` and `".."`. -/
theorem rec_firstBlock {o : Nat} (hlen : (firstBlock sb ino parent).recLen 0 = 12)
    (hlen₁ : (firstBlock sb ino parent).recLen 12 = sb.blocksize - 12) :
    Directory.Rec sb.blocksize (firstBlock sb ino parent) o ↔ o = 0 ∨ o = 12 := by
  have hbs : 1024 ≤ sb.blocksize := by rcases sb.supported with h | h | h <;> omega
  have hsize : (firstBlock sb ino parent).size = sb.blocksize := rfl
  have hnot : ¬ sb.blocksize ∣ 12 := fun hc => by
    have := Nat.le_of_dvd (by omega) hc
    omega
  constructor
  · intro ho
    induction ho with
    | start hdvd hlt =>
      rw [hsize] at hlt
      exact .inl (Nat.eq_zero_of_dvd_of_lt hdvd hlt)
    | next _ hnext ih =>
      rcases ih with rfl | rfl
      · rw [hlen]
        exact .inr rfl
      · rw [hlen₁, show 12 + (sb.blocksize - 12) = sb.blocksize by omega] at hnext
        exact absurd dvd_rfl hnext
  · have hzero : Directory.Rec sb.blocksize (firstBlock sb ino parent) 0 :=
      .start (dvd_zero _) (by rw [hsize]; omega)
    rintro (rfl | rfl)
    · exact hzero
    · have := hzero.next
      rw [hlen] at this
      exact this hnot

theorem firstBlock_shape (hino : ino < 2 ^ 32) (hparent : parent < 2 ^ 32) :
    Shape sb.blocksize (firstBlock sb ino parent) ino parent ∧
      (firstBlock sb ino parent).kids sb.blocksize = [] := by
  have hbs : 1024 ≤ sb.blocksize := by rcases sb.supported with h | h | h <;> omega
  have hbs' : sb.blocksize ≤ 4096 := by rcases sb.supported with h | h | h <;> omega
  have hmod : sb.blocksize % 4 = 0 := by rcases sb.supported with h | h | h <;> rw [h]
  have hlen : (firstBlock sb ino parent).recLen 0 = 12 := by
    rw [recLen_congr fun x _ _ => firstBlock_data_lt sb ino parent (by omega)]
    exact recLen_firstRecord sb ino
  have hlen₁ : (firstBlock sb ino parent).recLen 12 = sb.blocksize - 12 := by
    rw [firstBlock_eq, recLen_congr (d := ((firstRecord sb ino).setInode 12 parent).setRecLen 12
      (sb.blocksize - 12)) fun x _ _ => ?_]
    · exact recLen_setRecLen_self (by omega)
    · rw [setName_data (by omega), setNameLen_data (by omega)]
  have hname : (firstBlock sb ino parent).nameLen 0 = 1 := by
    rw [nameLen_congr fun x _ _ => firstBlock_data_lt sb ino parent (by omega)]
    exact firstRecord_nameLen sb
  have hname₁ : (firstBlock sb ino parent).nameLen 12 = 2 := by
    rw [firstBlock_eq, nameLen_congr fun x _ _ => setName_data (by omega)]
    exact nameLen_setNameLen_self (by decide)
  have hrec : ∀ {o}, Directory.Rec sb.blocksize (firstBlock sb ino parent) o ↔ o = 0 ∨ o = 12 :=
    rec_firstBlock sb hlen hlen₁
  have hsound : Directory.Sound sb.blocksize (firstBlock sb ino parent) := by
    refine ⟨sb.supported, ⟨by omega, dvd_rfl, ?_, ?_⟩, ?_, ?_, ?_, ?_⟩ <;>
    · intro o ho
      rcases hrec.1 ho with rfl | rfl <;>
        simp only [hlen, hlen₁, hname, hname₁, dirRecLen] <;>
        first | omega | (rw [Nat.mod_eq_of_lt (by omega)]; omega)
  constructor
  · refine ⟨hsound, ?_, hrec.2 (.inr rfl), ?_, hname, ?_, ?_, hname₁, ?_⟩
    · show sb.blocksize ≠ 0
      omega
    · rw [inode_congr fun x _ _ => firstBlock_data_lt sb ino parent (by omega)]
      exact firstRecord_inode sb hino
    · rw [peek_congr fun x _ _ => firstBlock_data_lt sb ino parent (by omega)]
      exact peek_poke_self
    · rw [firstBlock_eq, inode_congr (d := (firstRecord sb ino).setInode 12 parent) fun x _ _ => ?_]
      · exact inode_setInode_self hparent
      · rw [setName_data (by omega), setNameLen_data (by omega), setRecLen_data (by omega)]
    · rw [firstBlock_eq]
      exact peek_poke_self
  · refine List.eq_nil_iff_forall_not_mem.2 fun e he => ?_
    obtain ⟨o, ho, -, -⟩ := mem_kids.1 he
    obtain ⟨hr, -, hzero, hsecond⟩ := hsound.kid_iff.1 ho
    rcases hrec.1 hr with rfl | rfl
    · exact hzero rfl
    · exact hsecond rfl

end FirstBlock

/-! ## The hierarchy -/

namespace Fs

variable {s s' : Fs} {i j d n : Nat}

theorem inode_modify_self {f : Inode → Inode} : (s.modify i f).inode i = f (s.inode i) :=
  update_self _ _ _

theorem inode_modify_of_ne {f : Inode → Inode} (h : j ≠ i) :
    (s.modify i f).inode j = s.inode j :=
  update_of_ne h _ _

theorem field_modify {α : Type} {f : Inode → Inode} (g : Inode → α) (h : ∀ n, g (f n) = g n) :
    g ((s.modify i f).inode j) = g (s.inode j) := by
  by_cases hj : j = i
  · rw [hj, inode_modify_self, h]
  · rw [inode_modify_of_ne hj]

section Fields

variable {x : Directory}

@[simp]
theorem used_setDir : ((s.setDir i x).inode j).used = (s.inode j).used :=
  field_modify Inode.used fun _ => rfl

@[simp]
theorem isDir_setDir : ((s.setDir i x).inode j).isDir = (s.inode j).isDir :=
  field_modify Inode.isDir fun _ => rfl

@[simp]
theorem nlink_setDir : ((s.setDir i x).inode j).nlink = (s.inode j).nlink :=
  field_modify Inode.nlink fun _ => rfl

@[simp]
theorem count_setDir : ((s.setDir i x).inode j).count = (s.inode j).count :=
  field_modify Inode.count fun _ => rfl

@[simp]
theorem dir_setDir_self : (s.setDir i x).dir i = x := by rw [dir, setDir, inode_modify_self]

theorem dir_setDir_of_ne (h : j ≠ i) : (s.setDir i x).dir j = s.dir j := by
  rw [dir, setDir, inode_modify_of_ne h, dir]

@[simp]
theorem used_setNlink : ((s.setNlink i n).inode j).used = (s.inode j).used :=
  field_modify Inode.used fun _ => rfl

@[simp]
theorem isDir_setNlink : ((s.setNlink i n).inode j).isDir = (s.inode j).isDir :=
  field_modify Inode.isDir fun _ => rfl

@[simp]
theorem count_setNlink : ((s.setNlink i n).inode j).count = (s.inode j).count :=
  field_modify Inode.count fun _ => rfl

@[simp]
theorem dir_setNlink : (s.setNlink i n).dir j = s.dir j :=
  field_modify Inode.dir fun _ => rfl

@[simp]
theorem nlink_setNlink_self : ((s.setNlink i n).inode i).nlink = n := by
  rw [setNlink, inode_modify_self]

theorem nlink_setNlink_of_ne (h : j ≠ i) : ((s.setNlink i n).inode j).nlink = (s.inode j).nlink := by
  rw [setNlink, inode_modify_of_ne h]

@[simp]
theorem used_iget : ((s.iget i).inode j).used = (s.inode j).used :=
  field_modify Inode.used fun _ => rfl

@[simp]
theorem isDir_iget : ((s.iget i).inode j).isDir = (s.inode j).isDir :=
  field_modify Inode.isDir fun _ => rfl

@[simp]
theorem nlink_iget : ((s.iget i).inode j).nlink = (s.inode j).nlink :=
  field_modify Inode.nlink fun _ => rfl

@[simp]
theorem dir_iget : (s.iget i).dir j = s.dir j :=
  field_modify Inode.dir fun _ => rfl

theorem count_iget : ((s.iget i).inode j).count = (s.inode j).count + one i j := by
  by_cases h : j = i
  · rw [h, iget, inode_modify_self, one_self]
  · rw [iget, inode_modify_of_ne h, one_of_ne (Ne.symm h), Nat.add_zero]

end Fields

/-- A directory that was not removed. -/
def Living (s : Fs) (d : Nat) : Prop :=
  (s.inode d).used = true ∧ (s.inode d).isDir = true ∧ (s.dir d).size ≠ 0

instance (s : Fs) (d : Nat) : Decidable (s.Living d) := inferInstanceAs (Decidable (_ ∧ _))

/-- The parent, by the second entry. -/
def parent (s : Fs) (d : Nat) : Nat := (s.dir d).inode 12

/-- The hierarchy that the inodes are. -/
def view (sb : SuperBlock) (s : Fs) : Hier Name where
  used i := (s.inode i).used = true
  isDir i := (s.inode i).used = true ∧ (s.inode i).isDir = true
  living := s.Living
  parent d := if s.Living d then s.parent d else 0
  kids d := if s.Living d then ((s.dir d).kids sb.blocksize : Multiset (Name × Nat)) else 0
  nlink i := if (s.inode i).used = true then (s.inode i).nlink else 0

variable (sb : SuperBlock)

theorem view_parent (h : s.Living d) : (s.view sb).parent d = s.parent d := if_pos h

theorem view_kids (h : s.Living d) : (s.view sb).kids d = ((s.dir d).kids sb.blocksize :) :=
  if_pos h

theorem view_nlink (h : (s.inode i).used = true) : (s.view sb).nlink i = (s.inode i).nlink :=
  if_pos h

/-- The inode but for the references to it. -/
def Alike (s s' : Fs) : Prop :=
  ∀ i, (s'.inode i).used = (s.inode i).used ∧ (s'.inode i).isDir = (s.inode i).isDir ∧
    (s'.inode i).nlink = (s.inode i).nlink ∧ s'.dir i = s.dir i

theorem Alike.living (h : Alike s s') : s'.Living d ↔ s.Living d := by
  rw [Living, Living, (h d).1, (h d).2.1, (h d).2.2.2]

theorem Alike.view (h : Alike s s') : s'.view sb = s.view sb := by
  have hl : s'.Living = s.Living := funext fun d => propext h.living
  rw [Fs.view, Fs.view]
  simp only [parent, hl, (h _).1, (h _).2.1, (h _).2.2.1, (h _).2.2.2]

theorem alike_count {c : Inode → Nat} : Alike s (s.modify i fun n => { n with count := c n }) := by
  intro j
  by_cases hj : j = i
  · subst hj
    simp [dir, inode_modify_self]
  · simp [dir, inode_modify_of_ne hj]

theorem alike_iget : Alike s (s.iget i) := alike_count

theorem alike_cache {c : Dcache} : Alike s { s with cache := c } := fun _ => ⟨rfl, rfl, rfl, rfl⟩

/-! ## The stores -/

theorem view_setDir {d' : Directory} (hd : s.Living d) (hsize : d'.size ≠ 0) :
    (s.setDir d d').view sb =
      { s.view sb with
        parent := update (s.view sb).parent d (d'.inode 12)
        kids := update (s.view sb).kids d ((d'.kids sb.blocksize :) : Multiset _) } := by
  have hliving : (s.setDir d d').Living = s.Living := by
    funext j
    by_cases hj : j = d
    · subst hj
      have hself : (s.setDir j d').Living j := by
        rw [Living, dir, setDir, inode_modify_self]
        exact ⟨hd.1, hd.2.1, hsize⟩
      exact propext ⟨fun _ => hd, fun _ => hself⟩
    · simp only [Living, dir, setDir, inode_modify_of_ne hj]
  rw [view, view]
  simp only [hliving, Hier.mk.injEq]
  refine ⟨?_, ?_, trivial, ?_, ?_, ?_⟩ <;>
  · funext j
    by_cases hj : j = d
    · subst hj
      simp [setDir, dir, parent, inode_modify_self, hd]
    · simp [setDir, dir, parent, inode_modify_of_ne hj, hj]

theorem view_setNlink (hi : (s.inode i).used = true) :
    (s.setNlink i n).view sb =
      { s.view sb with nlink := update (s.view sb).nlink i n } := by
  have hliving : (s.setNlink i n).Living = s.Living := by
    funext j
    by_cases hj : j = i
    · subst hj
      simp only [Living, dir, setNlink, inode_modify_self]
    · simp only [Living, dir, setNlink, inode_modify_of_ne hj]
  rw [view, view]
  simp only [hliving, Hier.mk.injEq]
  refine ⟨?_, ?_, trivial, ?_, ?_, ?_⟩ <;>
  · funext j
    by_cases hj : j = i
    · subst hj
      simp [setNlink, dir, parent, inode_modify_self, hi]
    · simp [setNlink, dir, parent, inode_modify_of_ne hj, hj]

theorem living_modify_of_ne {m : Inode} (hd : d ≠ i) :
    (s.modify i fun _ => m).Living d ↔ s.Living d := by
  simp only [Living, dir, inode_modify_of_ne hd]

theorem not_living_modify {m : Inode} (hm : m.used = false ∨ m.isDir = false ∨ m.dir.size = 0) :
    ¬ (s.modify i fun _ => m).Living i := by
  rw [Living, dir, inode_modify_self]
  rintro ⟨h₁, h₂, h₃⟩
  rcases hm with hm | hm | hm
  · rw [hm] at h₁
    cases h₁
  · rw [hm] at h₂
    cases h₂
  · exact h₃ hm

/-- An inode is replaced by one that is no directory, or a removed one. -/
theorem view_modify_dead {m : Inode} (hi : ¬ s.Living i)
    (hm : m.used = false ∨ m.isDir = false ∨ m.dir.size = 0) :
    (s.modify i fun _ => m).view sb =
      { s.view sb with
        used := update (s.view sb).used i (m.used = true)
        isDir := update (s.view sb).isDir i (m.used = true ∧ m.isDir = true)
        nlink := update (s.view sb).nlink i (if m.used = true then m.nlink else 0) } := by
  have hliving : (s.modify i fun _ => m).Living = s.Living := by
    funext j
    by_cases hj : j = i
    · subst hj
      exact propext ⟨fun hc => absurd hc (not_living_modify hm), fun hc => absurd hc hi⟩
    · exact propext (living_modify_of_ne hj)
  rw [view, view]
  simp only [hliving, Hier.mk.injEq]
  refine ⟨?_, ?_, trivial, ?_, ?_, ?_⟩ <;>
  · funext j
    by_cases hj : j = i
    · subst hj
      simp [inode_modify_self, hi]
    · simp [dir, parent, inode_modify_of_ne hj, hj]

/-- A new directory takes a number that is not in use. -/
theorem view_modify_dir {m : Inode} (hi : ¬ s.Living i) (hused : m.used = true)
    (hdir : m.isDir = true) (hsize : m.dir.size ≠ 0) :
    (s.modify i fun _ => m).view sb =
      { used := update (s.view sb).used i True
        isDir := update (s.view sb).isDir i True
        living := update s.Living i True
        parent := update (s.view sb).parent i (m.dir.inode 12)
        kids := update (s.view sb).kids i ((m.dir.kids sb.blocksize :) : Multiset _)
        nlink := update (s.view sb).nlink i m.nlink } := by
  have hself : (s.modify i fun _ => m).Living i := by
    rw [Living, dir, inode_modify_self]
    exact ⟨hused, hdir, hsize⟩
  rw [view]
  simp only [Hier.mk.injEq]
  refine ⟨?_, ?_, ?_, ?_, ?_, ?_⟩ <;>
  · funext j
    by_cases hj : j = i
    · subst hj
      simp [inode_modify_self, dir, parent, hself, hused, hdir]
    · simp [view, dir, parent, inode_modify_of_ne hj, hj, living_modify_of_ne hj]

/-- A directory is removed while it is in use. -/
theorem view_modify_removed {m : Inode} (hi : s.Living i)
    (hm : m.used = false ∨ m.isDir = false ∨ m.dir.size = 0) :
    (s.modify i fun _ => m).view sb =
      { used := update (s.view sb).used i (m.used = true)
        isDir := update (s.view sb).isDir i (m.used = true ∧ m.isDir = true)
        living := update s.Living i False
        parent := update (s.view sb).parent i 0
        kids := update (s.view sb).kids i 0
        nlink := update (s.view sb).nlink i (if m.used = true then m.nlink else 0) } := by
  rw [view]
  simp only [Hier.mk.injEq]
  refine ⟨?_, ?_, ?_, ?_, ?_, ?_⟩ <;>
  · funext j
    by_cases hj : j = i
    · subst hj
      simp [inode_modify_self, not_living_modify hm]
    · simp [view, dir, parent, inode_modify_of_ne hj, hj, living_modify_of_ne hj]

end Fs

/-! ## Good file systems -/

/-- The hierarchy is sound, its directories begin with `"."` and `".."`, and an inode without links
is in use by someone. -/
structure Good (sb : SuperBlock) (s : Fs) : Prop where
  shape : ∀ {d}, s.Living d → Shape sb.blocksize (s.dir d) d (s.parent d)
  hier : Hierarchy.Sound (sb.inodesCount + 1) rootIno (s.view sb)
  pos : ∀ {i}, (s.inode i).used = true → i ≠ 0
  freed : ∀ {i}, (s.inode i).used = true → (s.inode i).count = 0 → (s.inode i).nlink ≠ 0
  root : 0 < (s.inode rootIno).count

namespace Good

variable {sb : SuperBlock} {s s' : Fs} {d e i : Nat} {nm : Name}

theorem living_root (h : Good sb s) : s.Living rootIno := h.hier.root_living

theorem living_parent (h : Good sb s) (hd : s.Living d) : s.Living (s.parent d) := by
  have := h.hier.parent_living hd
  rwa [Fs.view_parent sb hd] at this

theorem parent_ne_zero (h : Good sb s) (hd : s.Living d) : s.parent d ≠ 0 :=
  h.pos (h.living_parent hd).1

theorem lt_of_used (h : Good sb s) (hi : (s.inode i).used = true) : i < 2 ^ 32 := by
  have := h.hier.bound hi
  have := sb.inodesCount_lt
  omega

theorem mem_view_kids (hd : s.Living d) :
    (nm, e) ∈ (s.view sb).kids d ↔ (nm, e) ∈ (s.dir d).kids sb.blocksize := by
  rw [Fs.view_kids sb hd, Multiset.mem_coe]

theorem mem_kids_of_perm {l : List (Name × Nat)} (hd : s.Living d)
    (hperm : ((s.dir d).kids sb.blocksize).Perm ((nm, e) :: l)) : (nm, e) ∈ (s.view sb).kids d := by
  rw [mem_view_kids hd, hperm.mem_iff]
  exact List.mem_cons_self

/-- A change of the references and of the cache. -/
theorem congr (h : Good sb s) (halike : Fs.Alike s s')
    (hfreed : ∀ i, (s.inode i).used = true → (s'.inode i).count = 0 → (s.inode i).nlink ≠ 0)
    (hroot : 0 < (s'.inode rootIno).count) : Good sb s' := by
  refine ⟨?_, ?_, ?_, ?_, hroot⟩
  · intro d hd
    rw [Fs.parent, (halike d).2.2.2]
    exact h.shape (halike.living.1 hd)
  · rw [halike.view sb]
    exact h.hier
  · intro i hi
    rw [(halike i).1] at hi
    exact h.pos hi
  · intro i hi hc
    rw [(halike i).1] at hi
    rw [(halike i).2.2.1]
    exact hfreed i hi hc

theorem cache (h : Good sb s) (c : Dcache) : Good sb { s with cache := c } :=
  h.congr Fs.alike_cache (fun _ hi hc => h.freed hi hc) h.root

theorem iget (h : Good sb s) (i : Nat) : Good sb (s.iget i) := by
  refine h.congr Fs.alike_iget ?_ ?_
  · intro j hj hc
    by_cases hji : j = i
    · subst hji
      simp [Fs.iget, Fs.inode_modify_self] at hc
    · rw [Fs.iget, Fs.inode_modify_of_ne hji] at hc
      exact h.freed hj hc
  · by_cases hri : rootIno = i
    · rw [← hri, Fs.iget, Fs.inode_modify_self]
      exact Nat.succ_pos _
    · rw [Fs.iget, Fs.inode_modify_of_ne hri]
      exact h.root

/-- An inode that is no directory is cleared. -/
theorem vacate (h : Good sb s) (hdead : ¬ s.Living i)
    (hhier : Hierarchy.Sound (sb.inodesCount + 1) rootIno
      ((s.modify i fun _ => Fs.noInode).view sb)) :
    Good sb (s.modify i fun _ => Fs.noInode) := by
  have hother : ∀ {j}, ((s.modify i fun _ => Fs.noInode).inode j).used = true → j ≠ i := by
    rintro j hj rfl
    rw [Fs.inode_modify_self] at hj
    cases hj
  refine ⟨?_, hhier, ?_, ?_, ?_⟩
  · intro d hd
    have hdi := hother hd.1
    rw [Fs.Living, Fs.dir, Fs.inode_modify_of_ne hdi] at hd
    rw [Fs.parent, Fs.dir, Fs.inode_modify_of_ne hdi]
    exact h.shape hd
  · intro j hj
    have hji := hother hj
    rw [Fs.inode_modify_of_ne hji] at hj
    exact h.pos hj
  · intro j hj hc
    have hji := hother hj
    rw [Fs.inode_modify_of_ne hji] at hj hc ⊢
    exact h.freed hj hc
  · rw [Fs.inode_modify_of_ne (by rintro rfl; exact hdead h.living_root)]
    exact h.root

/-- An inode without links goes out of use with the last reference. -/
theorem free (h : Good sb s) (hi : (s.inode i).used = true) (hnlink : (s.inode i).nlink = 0) :
    Good sb (s.modify i fun _ => Fs.noInode) := by
  have hnl : (s.view sb).nlink i = 0 := (Fs.view_nlink sb hi).trans hnlink
  have hdead : ¬ s.Living i := by
    intro hc
    have := h.hier.nlink_pos_of_living hc
    omega
  have hview : (s.modify i fun _ => Fs.noInode).view sb = Hierarchy.free (s.view sb) i := by
    rw [Fs.view_modify_dead sb hdead (.inl rfl), Hierarchy.free]
    simp only [Fs.noInode, Bool.false_eq_true, false_and, if_false, Hier.mk.injEq, true_and]
    refine funext fun j => ?_
    by_cases hj : j = i
    · rw [hj, update_self, hnl]
    · rw [update_of_ne hj]
  refine h.vacate hdead ?_
  rw [hview]
  exact h.hier.free hnl hi

/-- **A reference is given up.** -/
theorem iput (h : Good sb s) (hroot : i = rootIno → 1 < (s.inode i).count) :
    Good sb (s.iput i) := by
  rw [Fs.iput]
  split
  · rename_i hkeep
    refine h.congr Fs.alike_count ?_ ?_
    · intro j hj hc
      by_cases hji : j = i
      · subst hji
        rw [Fs.inode_modify_self] at hc
        rcases hkeep with hkeep | hkeep | hkeep
        · simp only at hc
          omega
        · rw [hkeep] at hj
          cases hj
        · exact hkeep
      · rw [Fs.inode_modify_of_ne hji] at hc
        exact h.freed hj hc
    · by_cases hri : rootIno = i
      · subst hri
        have := hroot rfl
        rw [Fs.inode_modify_self]
        exact Nat.sub_pos_of_lt this
      · rw [Fs.inode_modify_of_ne hri]
        exact h.root
  · rename_i hgo
    simp only [not_or, Bool.not_eq_false, ne_eq, not_not] at hgo
    exact h.free hgo.2.1 hgo.2.2

end Good

end LinuxEvocation.Ext2.Namei
