import LinuxEvocation.Fs.Ext2.Namei.Nlink

/-!
# The directory cache agrees with the directories

* `CacheTrue` — a name that the cache answers is an entry on the disk.
* `Coherent` — every entry of the cache is one, and names are short.
* `forgets` — the cache knows nothing of a directory that goes away, and not the parent of one that
  is moved; `ext2_readdir` starts at an entry.
* `cacheTrue_of_reach` — the cache over runs.
-/

namespace LinuxEvocation.Ext2.Namei

open Function (update update_of_ne update_self)
open Errno Directory Hierarchy Transition

variable {sb : SuperBlock} {s s' t u v : Fs} {dir d e i j de ino : Nat} {name nm : Name} {env : Env}
  {k : DcacheKey} {w : Nat}

/-! ## Entries as the hierarchy has them -/

/-- The hierarchy has the entry. -/
def HasEntry (h : Hier Name) (k : DcacheKey) (v : Nat) : Prop :=
  h.living k.dir ∧ (k.name = dot ∧ v = k.dir ∨ k.name = dotdot ∧ v = h.parent k.dir ∨
    (k.name, v) ∈ h.kids k.dir)

theorem holds_iff : s.Holds sb k w ↔ HasEntry (s.view sb) k w := by
  refine and_congr_right fun hl => ?_
  rw [Fs.view_parent sb hl, Good.mem_view_kids hl]

/-- What the cache knows of this file system is so. -/
structure Coherent (sb : SuperBlock) (s : Fs) : Prop where
  distinct : Lru.Distinct s.cache
  holds : ∀ {k v}, (k, v) ∈ s.cache → k.dev = sb.dev → HasEntry (s.view sb) k v
  short : ∀ {d nm e}, (nm, e) ∈ (s.view sb).kids d → nm.length ≤ nameMax

theorem Coherent.of_view (h : Coherent sb s) (hcache : t.cache = s.cache)
    (hview : t.view sb = s.view sb) : Coherent sb t := by
  refine ⟨by rw [hcache]; exact h.distinct, ?_, ?_⟩
  · rw [hcache, hview]
    exact h.holds
  · rw [hview]
    exact h.short

/-- An inode that is no living directory takes other contents. -/
theorem Coherent.of_kids (h : Coherent sb s) (hcache : t.cache = s.cache)
    (hliving : (t.view sb).living = (s.view sb).living)
    (hparent : (t.view sb).parent = (s.view sb).parent) (hkids : (t.view sb).kids = (s.view sb).kids) :
    Coherent sb t := by
  refine ⟨by rw [hcache]; exact h.distinct, ?_, ?_⟩
  · intro k v hmem hdev
    rw [hcache] at hmem
    have := h.holds hmem hdev
    rw [HasEntry, hliving, hparent, hkids]
    exact this
  · intro d nm e hk
    rw [hkids] at hk
    exact h.short hk

/-- Only the kids change: what the cache knows stays among them. -/
theorem Coherent.of_kids_change (h : Coherent sb s) {c : Dcache} (hcache : t.cache = c)
    (hdist : Lru.Distinct c) (hliving : (t.view sb).living = (s.view sb).living)
    (hparent : (t.view sb).parent = (s.view sb).parent)
    (hkeep : ∀ {k v}, (k, v) ∈ c → k.dev = sb.dev →
      (k.name, v) ∈ (t.view sb).kids k.dir ∧ (t.view sb).living k.dir ∨ (k, v) ∈ s.cache ∧
        ((k.name, v) ∈ (s.view sb).kids k.dir → (k.name, v) ∈ (t.view sb).kids k.dir))
    (hshort : ∀ {d nm e}, (nm, e) ∈ (t.view sb).kids d → nm.length ≤ nameMax) :
    Coherent sb t := by
  refine ⟨by rw [hcache]; exact hdist, ?_, hshort⟩
  intro k v hmem hdev
  rw [hcache] at hmem
  rcases hkeep hmem hdev with ⟨hk, hl⟩ | ⟨hold, hsub⟩
  · exact ⟨hl, .inr (.inr hk)⟩
  · obtain ⟨hl, hentry⟩ := h.holds hold hdev
    refine ⟨by rw [hliving]; exact hl, ?_⟩
    rw [hparent]
    exact hentry.imp_right (Or.imp_right hsub)

/-! ## The changes -/

theorem Coherent.iput (h : Coherent sb s) (hg : Good sb s) : Coherent sb (s.iput i) := by
  rw [Fs.iput]
  split
  · exact h.of_view rfl (Fs.alike_count.view sb)
  · rename_i hgo
    simp only [not_or, Bool.not_eq_false, not_not] at hgo
    have hdead : ¬ s.Living i := by
      intro hc
      have := hg.hier.nlink_pos_of_living hc
      rw [Fs.view_nlink sb hc.1] at this
      omega
    have hview := Fs.view_modify_dead sb (m := Fs.noInode) hdead (.inl rfl)
    exact h.of_kids rfl (by rw [hview]) (by rw [hview]) (by rw [hview])

/-- An inode that was free is taken, or stays free. -/
theorem Coherent.modify {m : Inode} (h : Coherent sb s) (hi : (s.inode i).used = false)
    (hm : m.isDir = false) : Coherent sb (s.modify i fun _ => m) := by
  have hdead : ¬ s.Living i := by
    intro hc
    rw [hc.1] at hi
    cases hi
  have hview := Fs.view_modify_dead sb (m := m) hdead (.inr (.inl hm))
  exact h.of_kids rfl (by rw [hview]) (by rw [hview]) (by rw [hview])

theorem Coherent.cache {c : Dcache} (h : Coherent sb s) (hl : Learned sb s c) :
    Coherent sb { s with cache := c } := by
  refine ⟨hl.distinct, fun hmem hdev => ?_, h.short⟩
  rcases hl.mem hmem with hmem | hc | hh
  · exact h.holds hmem hdev
  · exact absurd hdev hc
  · exact holds_iff.1 hh

theorem mem_update_kids {kids : Nat → Multiset (Name × Nat)} {d' : Nat}
    {K : Multiset (Name × Nat)} {x : Name × Nat} :
    x ∈ update kids dir K d' ↔ d' = dir ∧ x ∈ K ∨ d' ≠ dir ∧ x ∈ kids d' := by
  by_cases hd : d' = dir
  · simp [hd]
  · simp [hd]

theorem Coherent.addFile (h : Coherent sb s) {d' : Directory} (hdir : s.Living dir)
    (hi : (s.inode i).used = true) (hlen : nm.length ≤ nameMax)
    (hshape : Shape sb.blocksize d' dir (s.parent dir))
    (hperm : (d'.kids sb.blocksize).Perm ((nm, i) :: (s.dir dir).kids sb.blocksize)) :
    Coherent sb ((s.setDir dir d').setNlink i ((s.inode i).nlink + 1)) := by
  have hview := view_addFile hdir hi hshape hperm
  refine h.of_kids_change rfl h.distinct (by rw [hview]; rfl) (by rw [hview]; rfl) ?_ ?_
  · intro k v hmem _
    refine .inr ⟨hmem, fun hk => ?_⟩
    rw [hview, Hierarchy.addFile, mem_update_kids]
    by_cases hd : k.dir = dir
    · refine .inl ⟨hd, Multiset.mem_cons_of_mem ?_⟩
      rwa [hd] at hk
    · exact .inr ⟨hd, hk⟩
  · intro d nm' e hk
    rw [hview, Hierarchy.addFile, mem_update_kids, Multiset.mem_cons] at hk
    rcases hk with ⟨-, hk | hk⟩ | ⟨-, hk⟩
    · rw [(Prod.mk.inj hk).1]
      exact hlen
    · exact h.short hk
    · exact h.short hk

/-- An entry of a name that the cache has forgotten goes; what the cache holds stays. -/
theorem Unknown.kept (hunk : Unknown sb s dir nm) {k : DcacheKey} {v : Nat} (hkv : (k, v) ∈ s.cache)
    (hdev : k.dev = sb.dev) {kids : Nat → Multiset (Name × Nat)} {x : Nat}
    (hk : (k.name, v) ∈ kids k.dir) : k.dir = dir ∧ (k.name, v) ∈ (kids dir).erase (nm, x) ∨
      k.dir ≠ dir ∧ (k.name, v) ∈ kids k.dir := by
  by_cases hd : k.dir = dir
  · refine .inl ⟨hd, ?_⟩
    rw [hd] at hk
    refine (Multiset.mem_erase_of_ne fun heq => ?_).2 hk
    refine hunk v ?_
    obtain ⟨hn, -⟩ := Prod.mk.inj heq
    rw [← hdev, ← hd, ← hn]
    exact hkv
  · exact .inr ⟨hd, hk⟩

theorem Coherent.removeFile (h : Coherent sb s) {d' : Directory} (hdir : s.Living dir)
    (hi : (s.inode i).used = true) (hunk : Unknown sb s dir nm)
    (hshape : Shape sb.blocksize d' dir (s.parent dir))
    (hperm : ((s.dir dir).kids sb.blocksize).Perm ((nm, i) :: d'.kids sb.blocksize)) :
    Coherent sb ((s.setDir dir d').setNlink i ((s.inode i).nlink - 1)) := by
  have hview := view_removeFile hdir hi hshape hperm
  refine h.of_kids_change rfl h.distinct (by rw [hview]; rfl) (by rw [hview]; rfl) ?_ ?_
  · intro k v hmem hdev
    refine .inr ⟨hmem, fun hk => ?_⟩
    rw [hview, Hierarchy.removeFile, mem_update_kids]
    exact hunk.kept hmem hdev hk
  · intro d nm' e hk
    rw [hview, Hierarchy.removeFile, mem_update_kids] at hk
    rcases hk with ⟨-, hk⟩ | ⟨-, hk⟩
    · exact h.short (Multiset.mem_of_mem_erase hk)
    · exact h.short hk

theorem Coherent.addDir (h : Coherent sb s) {m : Inode} {d' : Directory} (hdir : s.Living dir)
    (hi : (s.inode i).used = false) (hused : m.used = true) (hisDir : m.isDir = true)
    (hnlink : m.nlink = 2) (hlen : nm.length ≤ nameMax) (hm : Shape sb.blocksize m.dir i dir)
    (hkids : m.dir.kids sb.blocksize = []) (hshape : Shape sb.blocksize d' dir (s.parent dir))
    (hperm : (d'.kids sb.blocksize).Perm ((nm, i) :: (s.dir dir).kids sb.blocksize)) :
    Coherent sb (withDir s dir i m d' ((s.inode dir).nlink + 1)) := by
  have hview := view_addDir hdir hi hused hisDir hnlink hm hkids hshape hperm
  have hne : ∀ {x}, s.Living x → x ≠ i := by
    rintro x hx rfl
    rw [hx.1] at hi
    cases hi
  refine ⟨h.distinct, ?_, ?_⟩
  · intro k v hmem hdev
    obtain ⟨hl, hentry⟩ := h.holds hmem hdev
    rw [hview, HasEntry, Hierarchy.mkdir]
    simp only [update_of_ne (hne hl)]
    refine ⟨hl, hentry.imp_right (Or.imp_right fun hk => ?_)⟩
    rw [mem_update_kids]
    by_cases hd : k.dir = dir
    · refine .inl ⟨hd, Multiset.mem_cons_of_mem ?_⟩
      rwa [hd] at hk
    · exact .inr ⟨hd, hk⟩
  · intro d nm' e hk
    rw [hview, Hierarchy.mkdir, mem_update_kids, Multiset.mem_cons] at hk
    rcases hk with ⟨-, hk | hk⟩ | ⟨-, hk⟩
    · rw [(Prod.mk.inj hk).1]
      exact hlen
    · exact h.short hk
    · exact h.short hk

section Move

variable {oldDir newDir : Nat} {oldName newName : Name} {d₁ d₂ : Directory} {c : Dcache}

/-- The entry of the new name is there once the one of the old name is gone. -/
theorem mem_moveFile_new (h : Hier Name) (hk : (oldName, e) ∈ h.kids oldDir) :
    (newName, e) ∈ (Hierarchy.moveFile h oldDir oldName newDir newName e).kids newDir := by
  rw [Hierarchy.moveFile, mem_update_kids]
  by_cases heq : newDir = oldDir
  · subst heq
    refine .inl ⟨rfl, ?_⟩
    rw [update_self]
    by_cases hn : newName = oldName
    · rw [hn, Multiset.erase_cons_head]
      exact hk
    · refine (Multiset.mem_erase_of_ne fun hc => hn (Prod.mk.inj hc).1).2 ?_
      exact Multiset.mem_cons_self _ _
  · refine .inr ⟨heq, ?_⟩
    rw [update_self]
    exact Multiset.mem_cons_self _ _

theorem mem_moveFile_of_ne {h : Hier Name} {x : Nat} (hk : (nm, w) ∈ h.kids x)
    (hne : x = oldDir → nm ≠ oldName) :
    (nm, w) ∈ (Hierarchy.moveFile h oldDir oldName newDir newName e).kids x := by
  rw [Hierarchy.moveFile, mem_update_kids]
  have hk' : (nm, w) ∈ update h.kids newDir ((newName, e) ::ₘ h.kids newDir) x := by
    rw [mem_update_kids]
    by_cases hx : x = newDir
    · subst hx
      exact .inl ⟨rfl, Multiset.mem_cons_of_mem hk⟩
    · exact .inr ⟨hx, hk⟩
  by_cases hx : x = oldDir
  · subst hx
    exact .inl ⟨rfl, (Multiset.mem_erase_of_ne fun hc => hne rfl (Prod.mk.inj hc).1).2 hk'⟩
  · exact .inr ⟨hx, hk'⟩

theorem short_moveFile (h : Coherent sb s) (hlen : newName.length ≤ nameMax)
    (hk : (nm, w) ∈ (Hierarchy.moveFile (s.view sb) oldDir oldName newDir newName e).kids d) :
    nm.length ≤ nameMax := by
  have hadd : ∀ {x}, (nm, w) ∈ update (s.view sb).kids newDir
      ((newName, e) ::ₘ (s.view sb).kids newDir) x → nm.length ≤ nameMax := by
    intro x hx
    rw [mem_update_kids, Multiset.mem_cons] at hx
    rcases hx with ⟨-, hx | hx⟩ | ⟨-, hx⟩
    · rw [(Prod.mk.inj hx).1]
      exact hlen
    · exact h.short hx
    · exact h.short hx
  rw [Hierarchy.moveFile, mem_update_kids] at hk
  rcases hk with ⟨-, hk⟩ | ⟨-, hk⟩
  · exact hadd (Multiset.mem_of_mem_erase hk)
  · exact hadd hk

theorem Renamed.keep (hr : Renamed sb s oldDir oldName newDir newName e c)
    (hold : (oldName, e) ∈ (s.view sb).kids oldDir) (hmem : (k, w) ∈ c) (hdev : k.dev = sb.dev) :
    (k.name, w) ∈ (Hierarchy.moveFile (s.view sb) oldDir oldName newDir newName e).kids k.dir ∧
        k.dir = newDir ∨
      (k, w) ∈ s.cache ∧ ((k.name, w) ∈ (s.view sb).kids k.dir →
        (k.name, w) ∈ (Hierarchy.moveFile (s.view sb) oldDir oldName newDir newName e).kids k.dir) := by
  rcases hr.mem hmem with ⟨rfl, rfl⟩ | ⟨hin, hne, -⟩
  · exact .inl ⟨mem_moveFile_new _ hold, rfl⟩
  · refine .inr ⟨hin, fun hk => mem_moveFile_of_ne hk fun hd hn => hne ?_⟩
    cases k
    simp only at hd hn hdev
    rw [hdev, hd, hn]

theorem Coherent.moveFile (h : Coherent sb s) (hg : Good sb s) (hold : s.Living oldDir)
    (hnew : s.Living newDir) (hfile : (s.inode e).isDir = false)
    (hk : (oldName, e) ∈ (s.view sb).kids oldDir) (hlen : newName.length ≤ nameMax)
    (hshape₁ : Shape sb.blocksize d₁ newDir (s.parent newDir))
    (hperm₁ : (d₁.kids sb.blocksize).Perm ((newName, e) :: (s.dir newDir).kids sb.blocksize))
    (hshape₂ : Shape sb.blocksize d₂ oldDir (s.parent oldDir))
    (hperm₂ : (((s.setDir newDir d₁).dir oldDir).kids sb.blocksize).Perm
      ((oldName, e) :: d₂.kids sb.blocksize))
    (hr : Renamed sb s oldDir oldName newDir newName e c) :
    Coherent sb { (s.setDir newDir d₁).setDir oldDir d₂ with cache := c } := by
  have hview : ({ (s.setDir newDir d₁).setDir oldDir d₂ with cache := c } : Fs).view sb =
      Hierarchy.moveFile (s.view sb) oldDir oldName newDir newName e :=
    (hg.moveFile hold hnew hfile hk hshape₁ hperm₁ hshape₂ hperm₂).2
  refine h.of_kids_change rfl hr.distinct (by rw [hview]; rfl) (by rw [hview]; rfl) ?_ ?_
  · intro k v hmem hdev
    rw [hview]
    refine (hr.keep hk hmem hdev).imp_left fun hc => ⟨hc.1, ?_⟩
    rw [hc.2]
    exact hnew
  · intro d nm' e' hk'
    rw [hview] at hk'
    exact short_moveFile h hlen hk'

end Move

theorem Change.coherent (hc : Change sb s t) (hg : Good sb s) (h : Coherent sb s) :
    Coherent sb t := by
  cases hc with
  | iget _ => exact h.of_view rfl (Fs.alike_iget.view sb)
  | iput _ => exact h.iput hg
  | cache hl => exact h.cache hl
  | clear hi => exact h.modify hi rfl
  | alloc hi _ _ _ hdir _ _ => exact h.modify hi hdir
  | fill hdir hshape hperm =>
    exact h.of_view rfl (hg.fill hdir hshape hperm).2
  | addFile hdir hi _ hlen hshape hperm => exact h.addFile hdir hi hlen hshape hperm
  | @removeFile dir i nm d' hdir _ _ hunk hshape hperm =>
    have hmem := Good.mem_kids_of_perm hdir hperm
    exact h.removeFile hdir (hg.hier.kid_used hmem) hunk hshape hperm
  | addDir hdir hi _ _ hused hisDir hnlink _ hlen hm hkids hshape hperm =>
    exact h.addDir hdir hi hused hisDir hnlink hlen hm hkids hshape hperm
  | moveFile hold hnew hfile hk hlen hshape₁ hperm₁ hshape₂ hperm₂ hr =>
    exact h.moveFile hg hold hnew hfile hk hlen hshape₁ hperm₁ hshape₂ hperm₂ hr

/-- A directory is removed that the cache knows nothing of. -/
theorem RemoveDir.coherent (hr : RemoveDir sb s e t) (hg : Good sb s) (h : Coherent sb s)
    (hforget : ∀ {k v}, (k, v) ∈ s.cache → k.dev = sb.dev → k.dir ≠ e) : Coherent sb t := by
  cases hr with
  | @mk dir nm m d' hdir he hempty hused hisDir hsize hnlink hcount hunk hshape hperm =>
    have hmem := Good.mem_kids_of_perm hdir hperm
    have hde : dir ≠ e := (hg.hier.kid_ne hmem).symm
    have hview := view_removeDir hdir he hde hempty hused hisDir hsize hnlink hshape hperm
    refine ⟨h.distinct, ?_, ?_⟩
    · intro k v hkv hdev
      obtain ⟨hl, hentry⟩ := h.holds hkv hdev
      have hke := hforget hkv hdev
      rw [hview, HasEntry, Hierarchy.rmdir]
      simp only [update_of_ne hke]
      refine ⟨hl, hentry.imp_right (Or.imp_right fun hk => ?_)⟩
      rw [mem_update_kids]
      exact hunk.kept hkv hdev hk
    · intro d nm' e' hk
      rw [hview, Hierarchy.rmdir, mem_update_kids] at hk
      rcases hk with ⟨-, hk⟩ | ⟨-, hk⟩
      · exact h.short (Multiset.mem_of_mem_erase hk)
      · exact h.short hk

/-- A directory is moved, and the cache does not know its parent, or the parent stays the same. -/
theorem MoveDir.coherent {newDir : Nat} (hm : MoveDir sb s e newDir t) (hg : Good sb s)
    (h : Coherent sb s) (hforget : s.parent e ≠ newDir → Unknown sb s e dotdot) :
    Coherent sb t := by
  cases hm with
  | @mk oldDir oldName newName d₁ d₂ c hmov hlen hr =>
    have hview : ({ withMoved s oldDir newDir e d₁ d₂ with cache := c } : Fs).view sb =
        Hierarchy.moveDir (s.view sb) oldDir oldName newDir newName e := hmov.view_withMoved hg
    have hkids : (Hierarchy.moveDir (s.view sb) oldDir oldName newDir newName e).kids = _ :=
      kids_moveDir hmov.kid
    refine ⟨hr.distinct, ?_, ?_⟩
    · intro k v hkv hdev
      rw [hview, HasEntry, hkids]
      rcases hr.keep hmov.kid hkv hdev with ⟨hk, hd⟩ | ⟨hold, hsub⟩
      · refine ⟨?_, .inr (.inr hk)⟩
        rw [hd]
        exact hmov.new
      · obtain ⟨hl, hentry⟩ := h.holds hold hdev
        refine ⟨hl, ?_⟩
        rcases hentry with hdot | ⟨hname, hv⟩ | hk
        · exact .inl hdot
        · refine .inr (.inl ⟨hname, ?_⟩)
          rw [Hierarchy.moveDir]
          simp only
          by_cases hke : k.dir = e
          · -- the parent of the directory itself
            rw [hke, update_self]
            by_cases hp : s.parent e = newDir
            · rw [hv, hke, Fs.view_parent sb hmov.dir, hp]
            · refine absurd ?_ (hforget hp v)
              rw [← hdev, ← hke, ← hname]
              exact hold
          · rw [update_of_ne hke]
            exact hv
        · exact .inr (.inr (hsub hk))
    · intro d nm' e' hk
      rw [hview, hkids] at hk
      exact short_moveFile h hlen hk

/-! ## Looking up and reading -/

/-- The place where a directory is read is one of its entries, or its end. -/
def atEntry (sb : SuperBlock) (s : Fs) (dir pos : Nat) : Bool :=
  (s.dir dir).size ≤ pos || pos ∈ Tiling.offsets sb.blocksize (s.dir dir).size (s.dir dir).recLen

theorem readdir_learned {pos : Nat} (h : Good sb s) (hc : Coherent sb s)
    (hused : (s.inode dir).used = true) (hat : atEntry sb s dir pos = true) :
    ∃ c, Learned sb s c ∧ (readdir sb s dir pos).2 = { s with cache := c } := by
  have hrefl : ∃ c, Learned sb s c ∧ s = { s with cache := c } :=
    ⟨s.cache, Learned.refl hc.distinct, rfl⟩
  rw [readdir]
  split
  · exact hrefl
  rename_i hdir
  rw [Bool.not_eq_false] at hdir
  split
  · exact hrefl
  rename_i hpos
  have hl : s.Living dir := ⟨hused, hdir, by omega⟩
  have hshape := h.shape hl
  rw [atEntry, Bool.or_eq_true, decide_eq_true_eq, decide_eq_true_eq] at hat
  have hrec := (Tiling.mem_offsets hshape.sound.tiled).1 (hat.resolve_left hpos)
  split
  · rename_i de hscan
    obtain ⟨p, hp, -, hstep, -⟩ := Tiling.scanFrom_eq_stop hshape.sound.tiled hrec hscan
    rw [readdirStep, hshape.sound.check hp] at hstep
    simp only [Bool.not_true, Bool.false_eq_true, if_false] at hstep
    split at hstep
    · rename_i hinode
      obtain rfl : p = de := Option.some.inj (Option.some.inj hstep)
      refine ⟨_, Learned.add hc.distinct ?_, rfl⟩
      refine ⟨hl, ?_⟩
      by_cases hzero : p = 0
      · rw [hzero]
        refine .inl ⟨?_, hshape.dot_inode⟩
        rw [hshape.name_zero]
        rfl
      · by_cases hsecond : p = 12
        · rw [hsecond]
          refine .inr (.inl ⟨?_, rfl⟩)
          rw [hshape.name_second]
          rfl
        · have hk : (s.dir dir).Kid sb.blocksize p :=
            hshape.sound.kid_iff.2 ⟨hp, hinode, hzero, hsecond⟩
          have hmem : ((s.dir dir).name p, (s.dir dir).inode p) ∈ (s.dir dir).kids sb.blocksize :=
            mem_kids.2 ⟨p, hk, rfl, rfl⟩
          refine .inr (.inr ?_)
          rw [truncate_of_le (hc.short ((Good.mem_view_kids hl).2 hmem))]
          exact hmem
    · cases hstep
  · exact hrefl

/-! ## Runs -/

/-- What the cache answers is an entry of a directory of the disk. -/
def CacheTrue (sb : SuperBlock) (s : Fs) : Prop :=
  ∀ dir name, (dcacheLookup s.cache sb.dev dir name).1 ≠ 0 →
    (s.inode dir).used = true ∧ (s.inode dir).isDir = true ∧
      (truncate name, (dcacheLookup s.cache sb.dev dir name).1) ∈ (s.dir dir).entries sb.blocksize

/-- The cache knows nothing of a directory that is removed and that nobody uses, and not the parent
of one that gets another; a directory is read from one of its entries on. -/
def forgets (sb : SuperBlock) (s : Fs) : Event → Bool
  | .rmdir dir name env =>
    match removable sb s dir name env with
    | some e => 0 < (s.inode e).count || s.cache.all fun x => !(x.1.dev = sb.dev && x.1.dir = e)
    | none => true
  | .rename oldDir oldName newDir newName env =>
    match renamePrepare sb s oldDir oldName newDir newName env with
    | some (.ok f, u) => !(u.inode f.oldIno).isDir || oldDir = newDir ||
        u.cache.all fun x => x.1 ≠ ⟨sb.dev, f.oldIno, dotdot⟩
    | _ => true
  | .readdir dir pos => atEntry sb s dir pos
  | _ => true

theorem Coherent.cacheTrue (h : Good sb s) (hc : Coherent sb s) : CacheTrue sb s := by
  intro dir name hino
  have hfind : ((⟨sb.dev, dir, truncate name⟩ : DcacheKey),
      (dcacheLookup s.cache sb.dev dir name).1) ∈ s.cache := by
    refine Lru.mem_of_find_eq_some ?_
    simp only [dcacheLookup] at hino ⊢
    cases hf : Lru.find s.cache ⟨sb.dev, dir, truncate name⟩ with
    | none => simp [hf] at hino
    | some v => rfl
  obtain ⟨hl, hentry⟩ := holds_iff.2 (hc.holds hfind rfl)
  refine ⟨hl.1, hl.2.1, ?_⟩
  rw [((h.shape hl).entries_perm (h.pos hl.1) (h.parent_ne_zero hl)).mem_iff, List.mem_cons,
    List.mem_cons, Prod.mk.injEq, Prod.mk.injEq]
  exact hentry

theorem Coherent.used (h : Good sb s) (hc : Coherent sb s) (hmem : (k, w) ∈ s.cache)
    (hdev : k.dev = sb.dev) : (s.inode w).used = true := by
  obtain ⟨hl, ⟨-, rfl⟩ | ⟨-, rfl⟩ | hk⟩ := hc.holds hmem hdev
  · exact hl.1
  · exact (h.hier.parent_living hl).1
  · exact h.hier.kid_used hk

/-- **One operation keeps the cache true.** -/
theorem coherent_of_next {ev : Event} (h : Good sb s ∧ Coherent sb s ∧ Idle s)
    (hrep : replaces sb s ev = false) (hev : forgets sb s ev = true)
    (hnext : next sb s ev = some t) : Good sb t ∧ Coherent sb t ∧ Idle t := by
  obtain ⟨hg, hc, hi⟩ := h
  have hkeep : ∀ {s t}, Good sb s → Coherent sb s → Idle s → Changes sb s t →
      Good sb t ∧ Coherent sb t ∧ Idle t := fun hg hc hi hch =>
    hch.keep (I := fun s => Coherent sb s ∧ Idle s)
      (fun hg hc hstep => ⟨hstep.coherent hg hc.1, hstep.idle hc.2⟩) hg ⟨hc, hi⟩
  cases outcome_of_next hg hc.distinct hnext with
  | quiet hch => exact hkeep hg hc hi hch
  | @lookup dir name hl =>
    have hp : Path sb s [] (lookup sb s dir name).2.2 :=
      lookup_path hg hc.distinct hl (hi.used_of_holds hl) fun v hmem _ => hc.used hg hmem rfl
    exact hkeep hg hc hi hp.changes
  | readdir hl =>
    obtain ⟨c, hlearned, heq⟩ := readdir_learned hg hc (hi.used_of_holds hl) hev
    rw [heq]
    exact ⟨hg.cache c, hc.cache hlearned, hi⟩
  | @rmdir dir e name env u v t hrem hr hch =>
    obtain ⟨hgu, hcu, hiu⟩ := hkeep hg hc hi hrem.path.changes
    refine hkeep (hr.good hgu) (hr.coherent hgu hcu fun {k v} hmem hdev hke => ?_) (hr.idle hiu) hch
    rw [forgets, hrem.found] at hev
    simp only [Bool.or_eq_true, decide_eq_true_eq, List.all_eq_true, Bool.not_eq_true',
      Bool.and_eq_false_iff, decide_eq_false_iff_not] at hev
    rcases hev with hcount | hall
    · -- in use by others: the first two names are forgotten, and there is no other
      obtain ⟨hdot, hdotdot⟩ := hrem.clean (by omega)
      have hempty : (u.view sb).kids e = 0 := by
        cases hr with
        | mk _ he hempty =>
          rw [Fs.view_kids sb he, hempty, Multiset.coe_nil]
      obtain ⟨-, ⟨hn, -⟩ | ⟨hn, -⟩ | hk⟩ := hcu.holds hmem hdev
      · refine hdot v ?_
        rw [← hdev, ← hke, ← hn]
        exact hmem
      · refine hdotdot v ?_
        rw [← hdev, ← hke, ← hn]
        exact hmem
      · rw [hke, hempty] at hk
        exact absurd hk (Multiset.notMem_zero _)
    · rcases hall _ (hrem.cache _ hmem) with hno | hno
      · exact hno hdev
      · exact hno hke
  | @rename oldDir newDir oldName newName env f u v t hprep hp hdir hnone hm hch =>
    obtain ⟨hgu, hcu, hiu⟩ := hkeep hg hc hi hp.path.changes
    refine hkeep (hm.good hgu) (hm.coherent hgu hcu fun hne v hmem => ?_) (hm.idle hiu) hch
    rw [forgets, hprep] at hev
    simp only [hdir, Bool.not_true, Bool.false_or, Bool.or_eq_true, decide_eq_true_eq,
      List.all_eq_true] at hev
    rcases hev with heq | hall
    · rw [(hp.moved hdir).2] at hne
      exact hne heq
    · exact hall _ hmem rfl
  | replace hprep hnew hdir =>
    rw [replaces_of_prepare hprep hnew hdir] at hrep
    cases hrep

/-- **The cache over runs.** -/
theorem cacheTrue_of_reach {s₀ : Fs} (h₀ : Good sb s₀) (hc : Coherent sb s₀) (hi : Idle s₀)
    (h : Reach (next sb) (fun s ev => replaces sb s ev = false ∧ forgets sb s ev = true) s₀ s) :
    CacheTrue sb s := by
  have hs := h.invariant (I := fun s => Good sb s ∧ Coherent sb s ∧ Idle s) ⟨h₀, hc, hi⟩
    fun _ _ _ hs hev hnext => coherent_of_next hs hev.1 hev.2 hnext
  exact hs.2.1.cacheTrue hs.1

theorem coherent_emptyFs (h : rootIno ≤ sb.inodesCount) : Coherent sb (emptyFs sb) := by
  have hg := good_emptyFs h
  refine ⟨List.nodup_nil, fun hmem => absurd hmem (List.not_mem_nil), ?_⟩
  intro d nm e hk
  have he := used_emptyFs.1 (hg.hier.kid_used hk)
  exact absurd he (hg.hier.kid_ne_root hk)

/-- A directory is made, its `"."` looked up, and it is removed when nobody uses it. -/
def staleRun : List Event :=
  [.hold 2, .mkdir 2 [97] (envFor 11), .hold 11, .lookup 11 dot, .drop 11, .hold 2,
    .rmdir 2 [97] (envFor 12)]

/-- The cache still answers for the directory that is gone. -/
theorem not_cacheTrue_staleRun :
    ∃ s, Good smallSb (emptyFs smallSb) ∧ Coherent smallSb (emptyFs smallSb) ∧
      Idle (emptyFs smallSb) ∧ Reach (next smallSb) anyStep (emptyFs smallSb) s ∧ ¬ CacheTrue smallSb s := by
  have hsome : ((execFrom (next smallSb) (emptyFs smallSb) staleRun).any fun s =>
      (dcacheLookup s.cache 769 11 dot).1 = 11 && !(s.inode 11).used) = true := by
    decide +kernel
  obtain ⟨s, hs, hp⟩ := (Option.any_eq_true _ _).1 hsome
  simp only [Bool.and_eq_true, decide_eq_true_eq, Bool.not_eq_true'] at hp
  refine ⟨s, good_emptyFs (by decide), coherent_emptyFs (by decide), idle_emptyFs,
    Reach.of_execFrom .init hs, fun hc => ?_⟩
  have hused := (hc 11 dot (by
    rw [show smallSb.dev = 769 from rfl, hp.1]
    decide)).1
  rw [hp.2] at hused
  cases hused

/-- A directory is made and read, and removed after its name was looked up, while it is in use. -/
def trueRun : List Event :=
  [.hold 2, .mkdir 2 [97] (envFor 11), .hold 11, .lookup 11 dotdot, .readdir 2 0, .drop 2, .hold 11,
    .hold 2, .mkdir 2 [98] (envFor 12), .hold 2, .rmdir 2 [97] (envFor 13)]

theorem cacheTrue_trueRun :
    ∃ s, Reach (next smallSb) (fun s ev => replaces smallSb s ev = false ∧
        forgets smallSb s ev = true) (emptyFs smallSb) s ∧
      (dcacheLookup s.cache 769 2 [98]).1 = 12 ∧ CacheTrue smallSb s := by
  have hsome : ((execOkFrom (next smallSb) (fun s ev => !replaces smallSb s ev &&
      forgets smallSb s ev) (emptyFs smallSb) trueRun).any fun s =>
        (dcacheLookup s.cache 769 2 [98]).1 = 12) = true := by
    decide +kernel
  obtain ⟨s, hs, hp⟩ := (Option.any_eq_true _ _).1 hsome
  have hreach : Reach (next smallSb) (fun s ev => replaces smallSb s ev = false ∧
      forgets smallSb s ev = true) (emptyFs smallSb) s := by
    refine Reach.of_execOkFrom (fun s ev h => ?_) .init hs
    simpa using h
  exact ⟨s, hreach, of_decide_eq_true hp,
    cacheTrue_of_reach (good_emptyFs (by decide)) (coherent_emptyFs (by decide)) idle_emptyFs
      hreach⟩

end LinuxEvocation.Ext2.Namei
