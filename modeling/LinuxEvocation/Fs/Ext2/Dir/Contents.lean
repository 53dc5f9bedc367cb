import LinuxEvocation.Fs.Ext2.Dir.Records

/-!
# The contents of a directory

What the functions find, and what they do to the list of the entries.

* `findEntry_eq_some`, `findEntry_eq_none`, `addEntry_filled`, `Shape.empty` — the loops over a
  whole directory.
* `Shape` — the directory of an inode: `"."` first, then `".."`.
* `kids` — the other entries.
* `Shape.add`, `Shape.delete`, `Shape.setParent` — what the changes do to them.
-/

namespace LinuxEvocation.Ext2.Directory

open Errno Bytes Tiling

variable {bs : Nat} {d d' : Directory} {o p q v ino parent : Nat} {nm : Name}

/-! ## The searches -/

theorem findStep_of_rec (h : Sound bs d) (ho : Rec bs d o) :
    d.findStep bs nm o = if d.ext2Match nm o then some (some o) else none := by
  have := h.lt_size ho
  rw [findStep, if_neg (by omega), if_neg (by simp [h.check ho])]

theorem ext2Match_of_findStep (h : Sound bs d) (ho : Rec bs d o) :
    d.findStep bs nm o = none ↔ d.ext2Match nm o = false := by
  rw [findStep_of_rec h ho]
  cases d.ext2Match nm o <;> simp

/-- A search that finds an entry finds the first one of the name. -/
theorem findEntry_eq_some (h : Sound bs d) (hfind : d.findEntry bs nm = some o) :
    Rec bs d o ∧ d.ext2Match (truncate nm) o = true ∧
      ∀ q, Rec bs d q → q < o → d.ext2Match (truncate nm) q = false := by
  rw [findEntry] at hfind
  split at hfind
  · cases hfind
  · rename_i hsize
    have hzero : Rec bs d 0 := .start (dvd_zero bs) (by omega)
    cases hs : scanFrom bs d.size d.recLen (d.findStep bs (truncate nm)) d.size 0 with
    | next e => simp [hs] at hfind
    | stop r =>
      simp only [hs] at hfind
      subst hfind
      obtain ⟨p, hp, -, hfp, hfirst⟩ := scanFrom_eq_stop h.tiled hzero hs
      rw [findStep_of_rec h hp] at hfp
      split at hfp
      · rename_i hm
        simp only [Option.some.injEq] at hfp
        subst hfp
        exact ⟨hp, hm, fun q hq hlt =>
          (ext2Match_of_findStep h hq).1 (hfirst q hq (Nat.zero_le _) hlt)⟩
      · cases hfp

/-- A search that finds none has looked at every record. -/
theorem findEntry_eq_none (h : Sound bs d) (hfind : d.findEntry bs nm = none) (hq : Rec bs d q) :
    d.ext2Match (truncate nm) q = false := by
  have hlt := h.lt_size hq
  have hzero : Rec bs d 0 := .start (dvd_zero bs) (by omega)
  rw [findEntry, if_neg (by omega)] at hfind
  cases hs : scanFrom bs d.size d.recLen (d.findStep bs (truncate nm)) d.size 0 with
  | next e =>
    exact (ext2Match_of_findStep h hq).1
      ((scanFrom_eq_next h.tiled hzero (by omega) hs).2 q hq (Nat.zero_le _))
  | stop r =>
    simp only [hs] at hfind
    subst hfind
    obtain ⟨p, hp, -, hfp, -⟩ := scanFrom_eq_stop h.tiled hzero hs
    rw [findStep_of_rec h hp] at hfp
    split at hfp <;> cases hfp

theorem ext2Match_inode (h : d.ext2Match nm o = true) : d.inode o ≠ 0 := by
  intro hc
  simp [ext2Match, hc] at h

instance (d : Directory) (o : Nat) (nm : Name) : Decidable (d.Fits o nm) :=
  inferInstanceAs (Decidable (_ ∨ _))

theorem addStep_of_rec (h : Sound bs d) (ho : Rec bs d o) :
    d.addStep bs nm o =
      if d.ext2Match nm o then some .exist else if d.Fits o nm then some (.slot o) else none := by
  rw [addStep, if_neg (by simp [h.check ho])]
  by_cases hm : d.ext2Match nm o = true
  · rw [if_pos ⟨ext2Match_inode hm, hm⟩, if_pos hm]
  · rw [if_neg fun hc => hm hc.2, if_neg hm]
    by_cases hfit : d.Fits o nm
    · rw [if_pos hfit]
      exact if_pos hfit
    · rw [if_neg hfit]
      exact if_neg hfit

theorem addStep_eq_slot (h : Sound bs d) (ho : Rec bs d o)
    (hstep : d.addStep bs nm o = some (.slot p)) : p = o ∧ d.Fits o nm := by
  rw [addStep_of_rec h ho] at hstep
  split at hstep
  · cases hstep
  · split at hstep
    · rename_i hfit
      simp only [Option.some.injEq, AddStop.slot.injEq] at hstep
      exact ⟨hstep.symm, hfit⟩
    · cases hstep

theorem newBlock_slot (h : Sound bs d) (hname : nm.length ≤ nameMax) :
    scan bs (d.newBlock bs d.size).recLen ((d.newBlock bs d.size).addStep bs nm) bs d.size =
      .stop (.slot d.size) := by
  obtain ⟨hsound, hrecs, hfree, hlen, -⟩ := newBlock_spec h
  have hslot := (hrecs d.size).2 (.inr rfl)
  have hfit : (d.newBlock bs d.size).Fits d.size nm := by
    left
    rw [hlen, dirRecLen]
    rw [nameMax] at hname
    rcases h.block with rfl | rfl | rfl <;> exact ⟨hfree, by omega⟩
  obtain ⟨k, hk⟩ : ∃ k, bs = k + 1 := ⟨bs - 1, by have := h.tiled.bs_pos; omega⟩
  have hstep : (d.newBlock bs d.size).addStep bs nm d.size = some (.slot d.size) := by
    rw [addStep_of_rec hsound hslot, if_neg fun hm => ext2Match_inode hm hfree, if_pos hfit]
  conv_lhs => arg 4; rw [hk]
  rw [scan, hstep]

/-- The loop, from a block on, prepares a slot. -/
theorem addLoop_filled (h : Sound bs d) (hname : nm.length ≤ nameMax) (hne : 0 < nm.length)
    {noSpace : Bool} {n : Nat} (hdvd : bs ∣ o) (hle : o ≤ d.size)
    (hadd : addLoop bs nm noSpace n d o = .ok (d', p)) : Filled bs d d' p nm := by
  induction n generalizing o with
  | zero => cases hadd
  | succ n ih =>
    rw [addLoop] at hadd
    split at hadd
    · cases hadd
    · by_cases hlast : d.size ≤ o
      · obtain rfl : o = d.size := le_antisymm hle hlast
        simp only [if_pos hlast, newBlock_slot h hname, Except.ok.injEq] at hadd
        have := fillSlot_newBlock h hname hne
        rwa [hadd] at this
      · have ho : Rec bs d o := .start hdvd (by omega)
        have hblk := blk_of_dvd h.tiled.bs_pos hdvd
        simp only [if_neg hlast] at hadd
        cases hs : scan bs d.recLen (d.addStep bs nm) bs o with
        | next e =>
          simp only [hs] at hadd
          obtain ⟨rfl, -⟩ := scan_eq_next h.tiled ho (by omega) hs
          exact ih (dvd_add dvd_blk dvd_rfl) (ho.blk_add_le_size h.tiled) hadd
        | stop b =>
          obtain ⟨q, hq, -, -, hfq, -⟩ := scan_eq_stop h.tiled ho (by omega) hs
          cases b with
          | bad => simp [hs] at hadd
          | exist => simp [hs] at hadd
          | slot r =>
            obtain ⟨rfl, hfit⟩ := addStep_eq_slot h hq hfq
            simp only [hs, Except.ok.injEq] at hadd
            have := fillSlot_filled h hq hfit hname hne
            rwa [hadd] at this

theorem length_truncate_le : (truncate nm).length ≤ nameMax := by
  rw [truncate, List.length_take]
  exact min_le_left _ _

theorem length_truncate_pos (h : nm.length ≠ 0) : 0 < (truncate nm).length := by
  rw [truncate, List.length_take, nameMax]
  omega

/-- **`ext2_add_entry` prepares a slot.** -/
theorem addEntry_filled (h : Sound bs d) {noSpace : Bool}
    (hadd : d.addEntry bs nm noSpace = .ok (d', o)) : Filled bs d d' o (truncate nm) := by
  rw [addEntry] at hadd
  split at hadd
  · cases hadd
  · rename_i hne
    split at hadd
    · cases hadd
    · exact addLoop_filled h length_truncate_le (length_truncate_pos hne) (dvd_zero bs)
        (Nat.zero_le _) hadd

/-- There is no slot in a directory without blocks. -/
theorem size_ne_zero_of_addEntry {noSpace : Bool}
    (hadd : d.addEntry bs nm noSpace = .ok (d', o)) : d.size ≠ 0 := by
  rw [addEntry] at hadd
  split at hadd
  · cases hadd
  · split at hadd
    · cases hadd
    · assumption

theorem size_ne_zero_of_findEntry (hfind : d.findEntry bs nm = some o) : d.size ≠ 0 := by
  intro hc
  rw [findEntry, if_pos hc] at hfind
  cases hfind

/-! ## The first two entries -/

/-- The directory of the inode `ino`: `"."` comes first, then `".."`, which names `parent`. -/
structure Shape (bs : Nat) (d : Directory) (ino parent : Nat) : Prop where
  sound : Sound bs d
  pos : d.size ≠ 0
  second : Rec bs d 12
  dot_inode : d.inode 0 = ino
  dot_len : d.nameLen 0 = 1
  dot_name : peek d.data 8 2 = [46, 0]
  dotdot_inode : d.inode 12 = parent
  dotdot_len : d.nameLen 12 = 2
  dotdot_name : peek d.data 20 3 = [46, 46, 0]

namespace Shape

theorem first (h : Shape bs d ino parent) : Rec bs d 0 :=
  .start (dvd_zero bs) (Nat.pos_of_ne_zero h.pos)

theorem recLen_zero (h : Shape bs d ino parent) : d.recLen 0 = 12 := by
  have := h.first.end_le h.second h.sound.tiled (by omega)
  have := h.sound.min h.first
  omega

/-- A change that keeps the first two records. -/
theorem congr (h : Shape bs d ino parent) (hsound : Sound bs d') (hpos : d'.size ≠ 0)
    (hsecond : Rec bs d' 12) (hfirst : Same d d' 0) (hsame : Same d d' 12) :
    Shape bs d' ino parent where
  sound := hsound
  pos := hpos
  second := hsecond
  dot_inode := hfirst.inode.trans h.dot_inode
  dot_len := hfirst.nameLen.trans h.dot_len
  dot_name := by
    rw [← h.dot_name]
    exact peek_congr fun x hx hlt => hfirst.bytes x hx (by rw [h.dot_len, dirRecLen]; omega)
  dotdot_inode := hsame.inode.trans h.dotdot_inode
  dotdot_len := hsame.nameLen.trans h.dotdot_len
  dotdot_name := by
    rw [← h.dotdot_name]
    exact peek_congr fun x hx hlt => hsame.bytes x hx (by rw [h.dotdot_len, dirRecLen]; omega)

theorem data_dot (h : Shape bs d ino parent) : d.data 8 = 46 ∧ d.data 9 = 0 := by
  have := h.dot_name
  simpa [peek] using this

theorem data_dotdot (h : Shape bs d ino parent) :
    d.data 20 = 46 ∧ d.data 21 = 46 ∧ d.data 22 = 0 := by
  have := h.dotdot_name
  simpa [peek] using this

theorem name_zero (h : Shape bs d ino parent) : d.name 0 = dot := by
  rw [name, h.dot_len]
  simp [peek, h.data_dot.1, dot]

theorem name_second (h : Shape bs d ino parent) : d.name 12 = dotdot := by
  rw [name, h.dotdot_len]
  simp [peek, h.data_dotdot.1, h.data_dotdot.2.1, dotdot]

theorem findEntry_dotdot (h : Shape bs d ino parent) (hino : parent ≠ 0) :
    d.findEntry bs dotdot = some 12 := by
  have htrunc : truncate dotdot = dotdot := rfl
  cases hfind : d.findEntry bs dotdot with
  | none =>
    have := findEntry_eq_none h.sound hfind h.second
    rw [htrunc] at this
    simp [ext2Match, h.name_second, h.dotdot_inode, hino, nameMax, dotdot] at this
  | some o =>
    obtain ⟨ho, hm, hfirst⟩ := findEntry_eq_some h.sound hfind
    rw [htrunc] at hm hfirst
    have hle : o ≤ 12 := by
      by_contra hc
      have := hfirst 12 h.second (by omega)
      simp [ext2Match, h.name_second, h.dotdot_inode, hino, nameMax, dotdot] at this
    rcases Nat.eq_or_lt_of_le hle with rfl | hlt
    · rfl
    · -- nothing starts between the two, and the first one has the other name
      have hzero : o = 0 := by
        by_contra hc
        have := h.first.end_le ho h.sound.tiled (by omega)
        rw [h.recLen_zero] at this
        omega
      subst hzero
      simp [ext2Match, h.name_zero, dotdot, dot] at hm

/-- `empty_dir` says that no other record is in use. -/
theorem empty (h : Shape bs d ino parent) (hparent : parent ≠ 0)
    (hempty : emptyDir bs ino d = true) (ho : Rec bs d o) (hzero : o ≠ 0) (hsecond : o ≠ 12) :
    d.inode o = 0 := by
  have hsize := h.sound.lt_size ho
  have hsize₁ := h.sound.lt_size h.second
  have hlen₁ := h.sound.min h.second
  have hend : 12 + d.recLen 12 ≤ o := by
    refine h.second.end_le ho h.sound.tiled ?_
    have := h.first.end_le ho h.sound.tiled (by omega)
    rw [h.recLen_zero] at this
    omega
  have hsize₂ : ¬ d.size < dirRecLen 1 + dirRecLen 2 := by
    have := h.second.end_le_blk h.sound.tiled
    have := h.second.blk_add_le_size h.sound.tiled
    have : dirRecLen 1 + dirRecLen 2 = 24 := rfl
    omega
  have hstart : Rec bs d (12 + d.recLen 12) := by
    by_cases hdvd : bs ∣ 12 + d.recLen 12
    · exact .start hdvd (by omega)
    · exact h.second.next hdvd
  rw [emptyDir, if_neg hsize₂] at hempty
  simp only [h.recLen_zero] at hempty
  rw [if_neg (by simp [h.dot_inode, h.dotdot_inode, h.dot_name, h.dotdot_name, hparent]),
    if_neg (by omega)] at hempty
  have hstep : ∀ q, Rec bs d q →
      d.emptyStep bs q = if d.inode q ≠ 0 then some false else none := by
    intro q hq
    rw [emptyStep, if_neg (by simp [h.sound.check hq])]
  cases hs : scanFrom bs d.size d.recLen (d.emptyStep bs) d.size (12 + d.recLen 12) with
  | stop b =>
    simp only [hs] at hempty
    subst hempty
    obtain ⟨p, hp, -, hfp, -⟩ := scanFrom_eq_stop h.sound.tiled hstart hs
    rw [hstep p hp] at hfp
    split at hfp <;> cases hfp
  | next e =>
    have := (scanFrom_eq_next h.sound.tiled hstart (by omega) hs).2 o ho hend
    rw [hstep o ho] at this
    by_contra hc
    rw [if_pos hc] at this
    cases this

end Shape

/-! ## The other entries -/

/-- The entries other than `"."` and `".."`. -/
def kids (bs : Nat) (d : Directory) : List (Name × Nat) :=
  ((d.live bs).filter fun o => o ≠ 0 ∧ o ≠ 12).map fun o => (d.name o, d.inode o)

/-- A live record that is not one of the first two. -/
def Kid (bs : Nat) (d : Directory) (o : Nat) : Prop := o ∈ d.live bs ∧ o ≠ 0 ∧ o ≠ 12

theorem mem_kids {e : Name × Nat} :
    e ∈ d.kids bs ↔ ∃ o, d.Kid bs o ∧ d.name o = e.1 ∧ d.inode o = e.2 := by
  simp only [kids, Kid, List.mem_map, List.mem_filter, decide_eq_true_eq, Prod.ext_iff]

theorem kids_perm_cons (h : Sound bs d) (h' : Sound bs d') (ho : ¬ d.Kid bs o)
    (hiff : ∀ p, d'.Kid bs p ↔ d.Kid bs p ∨ p = o)
    (hsame : ∀ p, d.Kid bs p → d'.name p = d.name p ∧ d'.inode p = d.inode p) :
    (d'.kids bs).Perm ((d'.name o, d'.inode o) :: d.kids bs) := by
  have hperm : ((d'.live bs).filter fun o => o ≠ 0 ∧ o ≠ 12).Perm
      (o :: (d.live bs).filter fun o => o ≠ 0 ∧ o ≠ 12) := by
    have hmem : ∀ {d : Directory} {p : Nat},
        (p ∈ (d.live bs).filter fun o => o ≠ 0 ∧ o ≠ 12) ↔ d.Kid bs p := by
      intro d p
      simp [Kid]
    rw [List.perm_ext_iff_of_nodup (h'.nodup_live.filter _)]
    · intro p
      rw [hmem, List.mem_cons, hmem, hiff p, or_comm]
    · exact List.nodup_cons.2 ⟨fun hc => ho (hmem.1 hc), h.nodup_live.filter _⟩
  refine (hperm.map _).trans ?_
  rw [List.map_cons]
  refine List.Perm.cons _ (List.Perm.of_eq (List.map_congr_left fun p hp => ?_))
  have hk : d.Kid bs p := by simpa [Kid] using hp
  rw [(hsame p hk).1, (hsame p hk).2]

/-- The other records in use, in a change that keeps them all and leaves the others free. -/
theorem kids_perm_of_same (h : Sound bs d) (h' : Sound bs d')
    (hiff : ∀ p, d'.Kid bs p ↔ d.Kid bs p)
    (hsame : ∀ p, d.Kid bs p → d'.name p = d.name p ∧ d'.inode p = d.inode p) :
    (d'.kids bs).Perm (d.kids bs) := by
  have hmem : ∀ {d : Directory} {p : Nat},
      (p ∈ (d.live bs).filter fun o => o ≠ 0 ∧ o ≠ 12) ↔ d.Kid bs p := by
    intro d p
    simp [Kid]
  have hperm : ((d'.live bs).filter fun o => o ≠ 0 ∧ o ≠ 12).Perm
      ((d.live bs).filter fun o => o ≠ 0 ∧ o ≠ 12) := by
    rw [List.perm_ext_iff_of_nodup (h'.nodup_live.filter _) (h.nodup_live.filter _)]
    intro p
    rw [hmem, hmem, hiff p]
  refine (hperm.map _).trans (List.Perm.of_eq (List.map_congr_left fun p hp => ?_))
  rw [(hsame p (hmem.1 hp)).1, (hsame p (hmem.1 hp)).2]

theorem Sound.kid_iff (h : Sound bs d) :
    d.Kid bs o ↔ Rec bs d o ∧ d.inode o ≠ 0 ∧ o ≠ 0 ∧ o ≠ 12 := by
  rw [Kid, h.mem_live, and_assoc]

section Changes

variable (h : Shape bs d ino parent) (hino : ino ≠ 0) (hparent : parent ≠ 0)

include h hino in
theorem Filled.ne_zero {nm : Name} (hf : Filled bs d d' o nm) : o ≠ 0 := by
  rintro rfl
  exact hino (h.dot_inode ▸ hf.free h.first)

include h hparent in
theorem Filled.ne_second {nm : Name} (hf : Filled bs d d' o nm) : o ≠ 12 := by
  rintro rfl
  exact hparent (h.dotdot_inode ▸ hf.free h.second)

include h hino hparent in
theorem Shape.fill {nm : Name} (hf : Filled bs d d' o nm) :
    Shape bs d' ino parent ∧ (d'.kids bs).Perm (d.kids bs) := by
  have hzero := hf.ne_zero h hino
  have hsecond := hf.ne_second h hparent
  constructor
  · refine h.congr hf.sound ?_ ((hf.recs 12).2 (.inl h.second)) (hf.same 0 h.first hzero.symm)
      (hf.same 12 h.second hsecond.symm)
    have := hf.size
    have := h.pos
    omega
  · have hne : ∀ {p}, Rec bs d p → d.inode p ≠ 0 → p ≠ o := by
      rintro p hp hused rfl
      exact hused (hf.free hp)
    refine kids_perm_of_same h.sound hf.sound ?_ ?_
    · intro p
      rw [hf.sound.kid_iff, h.sound.kid_iff, hf.recs p]
      by_cases hpo : p = o
      · subst hpo
        simp only [hf.inode, ne_eq, not_true_eq_false, false_and, and_false, false_iff]
        exact fun hc => hne hc.1 hc.2.1 rfl
      · simp only [hpo, or_false]
        refine and_congr_right fun hp => ?_
        rw [(hf.same p hp hpo).inode]
    · intro p hp
      obtain ⟨hrec, hused, -, -⟩ := h.sound.kid_iff.1 hp
      have hs := hf.same p hrec (hne hrec hused)
      exact ⟨hs.name, hs.inode⟩

include h hino hparent in
/-- **A free record takes a number**: an entry more. -/
theorem Shape.store (ho : Rec bs d o) (hfree : d.inode o = 0) (hnamed : 0 < d.nameLen o)
    (hv : v ≠ 0) (hlt : v < 2 ^ 32) :
    Shape bs (d.setInode o v) ino parent ∧
      ((d.setInode o v).kids bs).Perm ((d.name o, v) :: d.kids bs) := by
  have hzero : o ≠ 0 := by
    rintro rfl
    exact hino (h.dot_inode ▸ hfree)
  have hsecond : o ≠ 12 := by
    rintro rfl
    exact hparent (h.dotdot_inode ▸ hfree)
  obtain ⟨hsound, hrecs⟩ := h.sound.setInode (v := v) ho fun _ => hnamed
  have hsame : ∀ p, Rec bs d p → p ≠ o → Same d (d.setInode o v) p := fun p hp hne =>
    h.sound.same_setInode ho hp hne
  constructor
  · exact h.congr hsound h.pos ((hrecs 12).2 h.second) (hsame 0 h.first hzero.symm)
      (hsame 12 h.second hsecond.symm)
  · have hnew : (d.name o, v) = ((d.setInode o v).name o, (d.setInode o v).inode o) := by
      rw [name_setInode_self, inode_setInode_self hlt]
    rw [hnew]
    refine kids_perm_cons h.sound hsound ?_ ?_ ?_
    · rw [h.sound.kid_iff]
      exact fun hc => hc.2.1 hfree
    · intro p
      rw [hsound.kid_iff, h.sound.kid_iff, hrecs p]
      by_cases hpo : p = o
      · subst hpo
        simp [inode_setInode_self hlt, hv, ho, hzero, hsecond]
      · simp only [hpo, or_false]
        refine and_congr_right fun hp => ?_
        rw [(hsame p hp hpo).inode]
    · intro p hp
      rw [h.sound.kid_iff] at hp
      have hpo : p ≠ o := by
        rintro rfl
        exact hp.2.1 hfree
      exact ⟨(hsame p hp.1 hpo).name, (hsame p hp.1 hpo).inode⟩

include h hino hparent in
/-- **An entry is added**: a slot is prepared and takes a number. -/
theorem Shape.add {nm : Name} (hf : Filled bs d d' o nm) (hnm : 0 < nm.length) (hv : v ≠ 0)
    (hlt : v < 2 ^ 32) :
    Shape bs (d'.setInode o v) ino parent ∧
      ((d'.setInode o v).kids bs).Perm ((nm, v) :: d.kids bs) := by
  obtain ⟨hshape, hperm⟩ := h.fill hino hparent hf
  obtain ⟨hshape', hperm'⟩ := hshape.store hino hparent ((hf.recs o).2 (.inr rfl)) hf.inode
    (by rw [hf.nameLen]; exact hnm) hv hlt
  rw [hf.name] at hperm'
  exact ⟨hshape', hperm'.trans (hperm.cons _)⟩

include h in
/-- **An entry is taken out.** -/
theorem Shape.delete (hd : Deleted bs d d' o) (ho : d.Kid bs o) :
    Shape bs d' ino parent ∧ (d.kids bs).Perm ((d.name o, d.inode o) :: d'.kids bs) := by
  obtain ⟨hrec, -, hzero, hsecond⟩ := h.sound.kid_iff.1 ho
  constructor
  · refine h.congr hd.sound ?_ ((hd.recs 12 hsecond.symm).2 h.second)
      (hd.same 0 h.first hzero.symm) (hd.same 12 h.second hsecond.symm)
    rw [hd.size]
    exact h.pos
  · refine kids_perm_cons hd.sound h.sound ?_ ?_ ?_
    · rw [hd.sound.kid_iff]
      exact fun hc => hc.2.1 (hd.gone hc.1)
    · intro p
      rw [h.sound.kid_iff, hd.sound.kid_iff]
      by_cases hpo : p = o
      · subst hpo
        simp only [or_true, iff_true]
        exact h.sound.kid_iff.1 ho
      · simp only [hpo, or_false]
        rw [hd.recs p hpo]
        refine and_congr_right fun hp => ?_
        rw [(hd.same p hp hpo).inode]
    · intro p hp
      rw [hd.sound.kid_iff] at hp
      have hpo : p ≠ o := by
        rintro rfl
        exact hp.2.1 (hd.gone hp.1)
      have hp' := (hd.recs p hpo).1 hp.1
      exact ⟨(hd.same p hp' hpo).name.symm, (hd.same p hp' hpo).inode.symm⟩

include h hparent in
/-- **The parent is replaced.** -/
theorem Shape.setParent (hlt : v < 2 ^ 32) :
    Shape bs (d.setInode 12 v) ino v ∧ ((d.setInode 12 v).kids bs).Perm (d.kids bs) := by
  have hused : d.inode 12 ≠ 0 := by
    rw [h.dotdot_inode]
    exact hparent
  obtain ⟨hsound, hrecs⟩ := h.sound.setInode (v := v) h.second fun _ => h.sound.named h.second hused
  have hsame : ∀ p, Rec bs d p → p ≠ 12 → Same d (d.setInode 12 v) p := fun p hp hne =>
    h.sound.same_setInode h.second hp hne
  have hfirst := hsame 0 h.first (by omega)
  constructor
  · refine ⟨hsound, h.pos, (hrecs 12).2 h.second, hfirst.inode.trans h.dot_inode,
      hfirst.nameLen.trans h.dot_len, ?_, inode_setInode_self hlt,
      nameLen_setInode_self.trans h.dotdot_len, ?_⟩
    · rw [← h.dot_name]
      exact peek_congr fun x _ _ => setInode_data (by omega)
    · rw [← h.dotdot_name]
      exact peek_congr fun x _ _ => setInode_data (by omega)
  · refine kids_perm_of_same h.sound hsound ?_ ?_
    · intro p
      rw [hsound.kid_iff, h.sound.kid_iff, hrecs p]
      refine and_congr_right fun hp => ?_
      by_cases hpo : p = 12
      · simp [hpo]
      · rw [(hsame p hp hpo).inode]
    · intro p hp
      obtain ⟨hrec, -, -, hne⟩ := h.sound.kid_iff.1 hp
      exact ⟨(hsame p hrec hne).name, (hsame p hrec hne).inode⟩

include h hino in
/-- What a search finds: the directory itself, its parent, or an entry of the name. -/
theorem Shape.find (hfind : d.findEntry bs nm = some o) :
    o = 0 ∨ o = 12 ∨ d.Kid bs o ∧ d.name o = truncate nm := by
  obtain ⟨ho, hm, hfirst⟩ := findEntry_eq_some h.sound hfind
  by_cases hzero : o = 0
  · exact .inl hzero
  by_cases hsecond : o = 12
  · exact .inr (.inl hsecond)
  refine .inr (.inr ⟨h.sound.kid_iff.2 ⟨ho, ext2Match_inode hm, hzero, hsecond⟩, ?_⟩)
  by_cases hnil : truncate nm = []
  · -- the empty name is that of the first record
    have := hfirst 0 h.first (by omega)
    simp [ext2Match, hnil, h.dot_inode, hino, h.dot_len, h.data_dot.1, h.data_dot.2] at this
  · simp only [ext2Match, Bool.and_eq_true, Bool.or_eq_true, decide_eq_true_eq] at hm
    rcases hm.2 with hc | hc
    · exact absurd (List.length_eq_zero_iff.1 hc.1.1.1) hnil
    · exact hc.symm

include h hino hparent in
/-- The entries are the first two and the others. -/
theorem Shape.entries_perm :
    (d.entries bs).Perm ((dot, ino) :: (dotdot, parent) :: d.kids bs) := by
  have hlive : (d.live bs).Perm (0 :: 12 :: (d.live bs).filter fun o => o ≠ 0 ∧ o ≠ 12) := by
    rw [List.perm_ext_iff_of_nodup h.sound.nodup_live]
    · intro p
      simp only [List.mem_cons, List.mem_filter, decide_eq_true_eq]
      have hzero : 0 ∈ d.live bs := h.sound.mem_live.2 ⟨h.first, by rw [h.dot_inode]; exact hino⟩
      have hsecond : 12 ∈ d.live bs :=
        h.sound.mem_live.2 ⟨h.second, by rw [h.dotdot_inode]; exact hparent⟩
      constructor
      · intro hp
        by_cases hp0 : p = 0
        · exact .inl hp0
        · by_cases hp12 : p = 12
          · exact .inr (.inl hp12)
          · exact .inr (.inr ⟨hp, hp0, hp12⟩)
      · rintro (rfl | rfl | hp)
        · exact hzero
        · exact hsecond
        · exact hp.1
    · simp [h.sound.nodup_live.filter]
  refine (hlive.map _).trans ?_
  rw [List.map_cons, List.map_cons, h.name_zero, h.dot_inode, h.name_second, h.dotdot_inode]
  exact List.Perm.refl _

end Changes

end LinuxEvocation.Ext2.Directory
