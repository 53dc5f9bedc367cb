import LinuxEvocation.Fs.Ext2.Namei.System

/-!
# Link counts over runs

* `linkCount` — the entries of all directories that refer to an inode.
* `Accounted` — `i_nlink` is that number, and an inode that no directory names is in use by someone.
* `replaces` — a rename puts a directory in the place of another one.
* `accounted_of_reach`, `directories_named_once` — what holds in every run without such a rename.
-/

namespace LinuxEvocation.Ext2.Namei

open Errno Directory Hierarchy Transition

variable {sb : SuperBlock} {s s' t u v : Fs} {dir d e i j de ino : Nat} {name nm : Name} {env : Env}

/-! ## The entries that refer to an inode -/

/-- How many entries of a directory refer to an inode. -/
def linksIn (sb : SuperBlock) (s : Fs) (d i : Nat) : Nat :=
  if (s.inode d).used && (s.inode d).isDir then
    ((s.dir d).entries sb.blocksize).countP fun x => x.2 = i
  else 0

def linkCount (sb : SuperBlock) (s : Fs) (i : Nat) : Nat :=
  ∑ d ∈ Finset.range (sb.inodesCount + 1), linksIn sb s d i

/-- Another directory has an entry for the inode. -/
def isNamed (sb : SuperBlock) (s : Fs) (i : Nat) : Bool :=
  (List.range (sb.inodesCount + 1)).any fun d => d ≠ i && linksIn sb s d i ≠ 0

/-- The links of the inodes in use are counted, and those that have no name are in use by someone. -/
def Accounted (sb : SuperBlock) (s : Fs) : Prop :=
  ∀ i, (s.inode i).used = true →
    (s.inode i).nlink = linkCount sb s i ∧ ((s.inode i).count = 0 → isNamed sb s i = true)

theorem countP_eq_named (k : List (Name × Nat)) (i : Nat) :
    k.countP (fun x => x.2 = i) = named (k : Multiset (Name × Nat)) i := by
  induction k with
  | nil => rfl
  | cons x k ih =>
    rw [← Multiset.cons_coe, named_cons, ← ih, List.countP_cons, one]
    simp

theorem linksIn_eq (h : Good sb s) : linksIn sb s d i = linksFrom (s.view sb) d i := by
  rw [linksIn]
  by_cases hl : s.Living d
  · have hshape := h.shape hl
    have hperm := hshape.entries_perm (h.pos hl.1) (h.parent_ne_zero hl)
    rw [if_pos (by rw [hl.1, hl.2.1]; rfl), hperm.countP_eq, List.countP_cons, List.countP_cons,
      countP_eq_named, linksFrom_of_living hl, Fs.view_parent sb hl, Fs.view_kids sb hl]
    simp only [one, decide_eq_true_eq]
    omega
  · have hkids : (s.view sb).kids d = 0 := if_neg hl
    rw [linksFrom_of_not_living hl, hkids, named_zero]
    split
    · -- a directory that was removed has no block
      rename_i hud
      rw [Bool.and_eq_true] at hud
      have hsize : (s.dir d).size = 0 := by
        by_contra hc
        exact hl ⟨hud.1, hud.2, hc⟩
      rw [entries, live_of_size_eq_zero hsize]
      rfl
    · rfl

theorem linkCount_eq (h : Good sb s) : linkCount sb s i = linksTo (sb.inodesCount + 1) (s.view sb) i :=
  Finset.sum_congr rfl fun _ _ => linksIn_eq h

theorem Good.accounted (h : Good sb s) : Accounted sb s := by
  intro i hi
  constructor
  · rw [linkCount_eq h, ← h.hier.links hi, Fs.view_nlink sb hi]
  · intro hc
    have hroot : i ≠ rootIno := by
      rintro rfl
      have := h.root
      omega
    have hname : ∃ d nm, (nm, i) ∈ (s.view sb).kids d := by
      by_cases hdir : (s.inode i).isDir = true
      · have hl : s.Living i := by
          by_contra hdead
          have := h.hier.dead hi ⟨hi, hdir⟩ hdead
          rw [Fs.view_nlink sb hi] at this
          exact h.freed hi hc this
        obtain ⟨nm, hk⟩ := h.hier.exists_kid hl hroot
        exact ⟨_, nm, hk⟩
      · -- a file: its links are the entries with a name
        by_contra hno
        have hzero : linksTo (sb.inodesCount + 1) (s.view sb) i = 0 := by
          refine Finset.sum_eq_zero fun d _ => ?_
          have hnamed : named ((s.view sb).kids d) i = 0 := by
            by_contra hpos
            obtain ⟨nm, hk⟩ := exists_mem_of_named_pos (Nat.pos_of_ne_zero hpos)
            exact hno ⟨d, nm, hk⟩
          have hne : ∀ {x}, s.Living x → x ≠ i := by
            rintro x hx rfl
            exact hdir hx.2.1
          by_cases hd : s.Living d
          · have hp := h.hier.parent_living hd
            rw [linksFrom_of_living hd, hnamed, one_of_ne (hne hd), one_of_ne (hne hp), Nat.add_zero]
          · rw [linksFrom_of_not_living hd, hnamed]
        have := h.hier.links hi
        rw [hzero, Fs.view_nlink sb hi] at this
        exact h.freed hi hc this
    obtain ⟨d, nm, hk⟩ := hname
    have hlt := h.hier.living_lt (h.hier.living_of_kid hk)
    refine List.any_eq_true.2 ⟨d, List.mem_range.2 hlt, ?_⟩
    have hpos := named_pos_of_mem hk
    have hne := (h.hier.kid_ne hk).symm
    simp only [Bool.and_eq_true, decide_eq_true_eq]
    refine ⟨hne, ?_⟩
    rw [linksIn_eq h, linksFrom]
    omega

/-! ## Runs -/

/-- A rename that has passed its tests puts a directory in the place of another one. -/
def replaces (sb : SuperBlock) (s : Fs) : Event → Bool
  | .rename oldDir oldName newDir newName env =>
    match renamePrepare sb s oldDir oldName newDir newName env with
    | some (.ok f, u) => f.newIno.any fun i => (u.inode i).isDir
    | _ => false
  | _ => false

/-- The operations that change directories, the references of others, and other file systems. -/
def isChange : Event → Bool
  | .lookup .. => false
  | .readdir .. => false
  | _ => true

theorem replaces_of_prepare {oldDir newDir : Nat} {oldName newName : Name} {f : Found}
    (hprep : renamePrepare sb s oldDir oldName newDir newName env = some (.ok f, u))
    (hnew : f.newIno = some i) (hdir : (u.inode i).isDir = true) :
    replaces sb s (.rename oldDir oldName newDir newName env) = true := by
  rw [replaces, hprep]
  simp [hnew, hdir]

/-- **One operation keeps the hierarchy.** -/
theorem good_of_next {ev : Event} (h : Good sb s ∧ Lru.Distinct s.cache)
    (hev : isChange ev = true ∧ replaces sb s ev = false) (hnext : next sb s ev = some t) :
    Good sb t ∧ Lru.Distinct t.cache := by
  have hkeep : ∀ {s t}, Good sb s → Lru.Distinct s.cache → Changes sb s t →
      Good sb t ∧ Lru.Distinct t.cache := fun hg hd hc =>
    hc.keep (fun _ hd hstep => hstep.distinct hd) hg hd
  cases outcome_of_next h.1 h.2 hnext with
  | quiet hc => exact hkeep h.1 h.2 hc
  | lookup _ => cases hev.1
  | readdir _ => cases hev.1
  | rmdir hrem hr hc =>
    exact hkeep (hr.good hrem.path.good) (hr.distinct hrem.path.distinct) hc
  | rename _ hp _ _ hm hc => exact hkeep (hm.good hp.path.good) hm.distinct hc
  | replace hprep hnew hdir =>
    rw [replaces_of_prepare hprep hnew hdir] at hev
    cases hev.2

/-- A small file system. -/
def smallSb : SuperBlock where
  dev := 769
  blocksize := 1024
  inodesCount := 16
  supported := supported_1024
  inodesCount_lt := by decide

/-- Nothing is in the way of an operation, and the next number is free. -/
def envFor (ino : Nat) : Env := ⟨ino, false, false, false, false, false, 8, fun _ => none⟩

/-- Two directories are made, and the first one is renamed to the second one. -/
def replaceRun : List Event :=
  [.hold 2, .mkdir 2 [97] (envFor 11), .hold 2, .mkdir 2 [98] (envFor 12), .hold 2, .hold 2,
    .rename 2 [97] 2 [98] (envFor 13)]

/-- A directory is made, a file in it gets a second name, and the first one is taken away. -/
def linkRun : List Event :=
  [.hold 2, .mkdir 2 [97] (envFor 11), .hold 11, .create 11 [98] (envFor 12), .hold 2,
    .link 12 2 [99] (envFor 13), .hold 11, .unlink 11 [98] (envFor 13)]

/-- **A directory has one name**, in its parent, and an entry with a name is for an inode in use that
is neither the root nor the directory itself, nor a directory that was removed. -/
theorem directories_named_once {s₀ : Fs} (h₀ : Good sb s₀) (hd : Lru.Distinct s₀.cache)
    (h : Reach (next sb) (fun s ev => isChange ev = true ∧ replaces sb s ev = false) s₀ s) :
    (∀ i, s.Living i → i ≠ rootIno → s.Living (s.parent i) ∧ ∀ d, s.Living d →
      ((s.dir d).kids sb.blocksize).countP (fun x => x.2 = i) = one d (s.parent i)) ∧
    ∀ d nm i, s.Living d → (nm, i) ∈ (s.dir d).kids sb.blocksize → (s.inode i).used = true ∧
      i ≠ rootIno ∧ i ≠ d ∧ ((s.inode i).isDir = true → s.Living i) := by
  have hg : Good sb s := (h.invariant (I := fun s => Good sb s ∧ Lru.Distinct s.cache) ⟨h₀, hd⟩
    fun _ _ _ hs hev hnext => good_of_next hs hev hnext).1
  refine ⟨fun i hi hne => ⟨hg.living_parent hi, fun d hl => ?_⟩, fun d nm i hl hk => ?_⟩
  · have honce := hg.hier.kid_once hi hne
    rw [Fs.view_parent sb hi] at honce
    rw [countP_eq_named, ← Fs.view_kids sb hl]
    by_cases hdp : d = s.parent i
    · rw [hdp, honce, one_self]
    · rw [one_of_ne hdp]
      -- a name in another directory would make that one the parent
      by_contra hpos
      obtain ⟨nm, hk⟩ := exists_mem_of_named_pos (Nat.pos_of_ne_zero hpos)
      have hpar := (hg.hier.kid_dir hk ⟨hi.1, hi.2.1⟩).2
      exact hdp (hpar.symm.trans (Fs.view_parent sb hi))
  · rw [← Good.mem_view_kids hl] at hk
    have hused := hg.hier.kid_used hk
    exact ⟨hused, hg.hier.kid_ne_root hk, hg.hier.kid_ne hk,
      fun hdir => (hg.hier.kid_dir hk ⟨hused, hdir⟩).1⟩

/-- A directory is made in another one, and moved to the root. -/
theorem directories_named_once_moved :
    ∃ s : Fs, s.Living 12 ∧ s.parent 12 = 2 ∧
      ((s.dir 11).kids smallSb.blocksize).countP (fun x => x.2 = 12) = 0 := by
  have hsome : ((execOkFrom (next smallSb) (fun s ev => isChange ev && !replaces smallSb s ev)
      (emptyFs smallSb) [.hold 2, .mkdir 2 [97] (envFor 11), .hold 11, .mkdir 11 [98] (envFor 12),
        .hold 11, .hold 2, .rename 11 [98] 2 [99] (envFor 13)]).any fun s =>
          decide (s.Living 11 ∧ s.Living 12 ∧ s.parent 12 = 2)) = true := by
    decide +kernel
  obtain ⟨s, hs, hp⟩ := (Option.any_eq_true _ _).1 hsome
  obtain ⟨h11, h12, hpar⟩ := of_decide_eq_true hp
  have hreach := Reach.of_execOkFrom (fun s ev h => by simpa using h) .init hs
  have hone := (directories_named_once (good_emptyFs (by decide)) List.nodup_nil hreach).1 12 h12
    (by decide)
  refine ⟨s, h12, hpar, (hone.2 11 h11).trans ?_⟩
  rw [hpar, one_of_ne (by decide)]

end LinuxEvocation.Ext2.Namei
