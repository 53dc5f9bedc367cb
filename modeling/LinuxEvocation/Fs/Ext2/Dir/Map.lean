import LinuxEvocation.Fs.Ext2.Namei.View

/-!
# Directories as maps

A directory is to be a map from names to numbers of inodes.  `ext2_add_entry` puts a name into the first
record with room for it; an entry of this name behind that record is not seen.

* `Call`, `perform` — entries are added and deleted.
* `MapStep` — what a call is to do with the map.
* `Faithful` — a directory that is tiled by its records and represents a map.
* `map_exact` — a run of calls keeps to the map exactly when no name is added that has an entry behind a
  record with room for it.
-/

namespace LinuxEvocation.Ext2.Directory

open Function (update update_of_ne update_self)
open Errno Bytes Tiling Namei

/-! ## Calls -/

/-- A call: a name is added, and the number of an inode stored; a name is deleted. -/
inductive Call where
  | add (nm : Name) (ino : Nat) (noSpace : Bool)
  | delete (nm : Name)

/-- The names have 1 to `EXT2_NAME_LEN` bytes, and the numbers are not 0. -/
def Call.Valid : Call → Prop
  | .add nm ino _ => 0 < nm.length ∧ nm.length ≤ nameMax ∧ 0 < ino ∧ ino < 2 ^ 32
  | .delete nm => 0 < nm.length ∧ nm.length ≤ nameMax

/-- The directory after a call, and what is returned. -/
def perform (bs : Nat) (d : Directory) : Call → Directory × Int
  | .add nm ino noSpace =>
    match d.addEntry bs nm noSpace with
    | .ok (d', de) => (d'.setInode de ino, 0)
    | .error err => (d, err)
  | .delete nm =>
    match d.findEntry bs nm with
    | some de => ((d.deleteEntry bs de).2, (d.deleteEntry bs de).1)
    | none => (d, -enoent)

/-! ## Maps -/

/-- A map from names to numbers of inodes. -/
abbrev NameMap := Name → Option Nat

/-- A new binding, or an error that leaves the map alone; exactly the given binding is removed. -/
def MapStep (m : NameMap) (c : Call) (err : Int) (m' : NameMap) : Prop :=
  match c with
  | .add nm ino noSpace =>
    err = 0 ∧ m nm = none ∧ m' = update m nm (some ino) ∨
      err = -eexist ∧ m nm ≠ none ∧ m' = m ∨
      err = -enospc ∧ noSpace = true ∧ m nm = none ∧ m' = m
  | .delete nm =>
    err = 0 ∧ m nm ≠ none ∧ m' = update m nm none ∨
      err = -enoent ∧ m nm = none ∧ m' = m

/-- The live entries are the bindings of a map. -/
structure Represents (bs : Nat) (d : Directory) (m : NameMap) : Prop where
  sound : Sound bs d
  pos : d.size ≠ 0
  unique : ∀ o ∈ d.live bs, ∀ p ∈ d.live bs, d.name o = d.name p → o = p
  binds : ∀ nm ino, m nm = some ino ↔ ∃ o ∈ d.live bs, d.name o = nm ∧ d.inode o = ino

/-- What holds of a directory and its map. -/
structure Faithful (bs : Nat) (d : Directory) (m : NameMap) : Prop where
  represents : Represents bs d m
  /-- The records of a block fill it. -/
  sum : ∀ b, bs ∣ b → b < d.size → ((walk bs d.recLen bs b).map d.recLen).sum = bs
  /-- A search finds the bindings. -/
  find : ∀ nm, 0 < nm.length → nm.length ≤ nameMax → (d.findEntry bs nm).map d.inode = m nm

/-- No record before an entry of the name has room for it. -/
def Clear (bs : Nat) (d : Directory) : Call → Prop
  | .add nm _ _ => ∀ o ∈ d.live bs, d.name o = nm → ∀ r, Rec bs d r → r < o → ¬ d.Fits r nm
  | .delete _ => True

/-- The calls of a run are clear, one after the other. -/
def ClearRun (bs : Nat) (d : Directory) : List Call → Prop
  | [] => True
  | c :: cs => Clear bs d c ∧ ClearRun bs (perform bs d c).1 cs

/-- A run keeps to the map: in each state, and in each step. -/
def Keeps (bs : Nat) (d : Directory) (m : NameMap) : List Call → Prop
  | [] => Faithful bs d m
  | c :: cs => Faithful bs d m ∧
      ∃ m', MapStep m c (perform bs d c).2 m' ∧ Keeps bs (perform bs d c).1 m' cs

section Searches

variable {bs : Nat} {d d' : Directory} {o p q : Nat} {nm : Name}

theorem truncate_eq (h : nm.length ≤ nameMax) : truncate nm = nm := List.take_of_length_le h

/-- A record matches a name when it is an entry of it. -/
theorem ext2Match_iff (hpos : 0 < nm.length) (hle : nm.length ≤ nameMax) :
    d.ext2Match nm o = true ↔ d.inode o ≠ 0 ∧ d.name o = nm := by
  have hne : nm.length ≠ 0 := by omega
  simp only [ext2Match, hne, hle, decide_true, Bool.and_true, decide_false, Bool.false_and,
    Bool.false_or, Bool.and_eq_true, decide_eq_true_eq, @eq_comm _ nm]

theorem addStep_eq_none (h : Sound bs d) (ho : Rec bs d o) :
    d.addStep bs nm o = none ↔ d.ext2Match nm o = false ∧ ¬ d.Fits o nm := by
  rw [addStep_of_rec h ho]
  cases d.ext2Match nm o with
  | true => simp only [if_true, reduceCtorEq, false_and]
  | false =>
    by_cases hfit : d.Fits o nm
    · simp only [Bool.false_eq_true, if_false, hfit, if_true, reduceCtorEq, not_true, and_false]
    · simp only [Bool.false_eq_true, if_false, hfit, not_false_eq_true, and_self]

theorem addStep_eq_exist (h : Sound bs d) (ho : Rec bs d o) :
    d.addStep bs nm o = some .exist ↔ d.ext2Match nm o = true := by
  rw [addStep_of_rec h ho]
  split
  next hm => simp only [hm]
  next hm =>
    split
    next => simp only [hm, Option.some.injEq, reduceCtorEq, Bool.false_eq_true]
    next => simp only [hm, reduceCtorEq, Bool.false_eq_true]

theorem addStep_ne_bad (h : Sound bs d) (ho : Rec bs d o) : d.addStep bs nm o ≠ some .bad := by
  rw [addStep_of_rec h ho]
  split_ifs <;> simp only [ne_eq, Option.some.injEq, reduceCtorEq, not_false_eq_true]

/-- **How the loop of `ext2_add_entry` ends**, from a block on. -/
theorem addLoop_outcome (h : Sound bs d) (noSpace : Bool) (hname : nm.length ≤ nameMax) {n : Nat} (hdvd : bs ∣ o)
    (hle : o ≤ d.size) (hn : d.size < o + n * bs)
    (hbefore : ∀ q, Rec bs d q → q < o → d.addStep bs nm q = none) :
    (∃ r, addLoop bs nm noSpace n d o = .ok r ∧
        ∀ q, Rec bs d q → d.ext2Match nm q = true → ∃ r, Rec bs d r ∧ r < q ∧ d.Fits r nm) ∨
      (addLoop bs nm noSpace n d o = .error (-eexist) ∧
        ∃ q, Rec bs d q ∧ d.ext2Match nm q = true ∧ ∀ r, Rec bs d r → r < q → ¬ d.Fits r nm) ∨
      addLoop bs nm noSpace n d o = .error (-enospc) ∧ noSpace = true ∧
        ∀ q, Rec bs d q → d.ext2Match nm q = false := by
  induction n generalizing o with
  | zero => omega
  | succ n ih =>
    rw [addLoop]
    by_cases hlast : d.size ≤ o
    · -- all records have been seen
      have hnone : ∀ q, Rec bs d q → d.ext2Match nm q = false := fun q hq =>
        ((addStep_eq_none h hq).mp (hbefore q hq ((h.lt_size hq).trans_le hlast))).1
      by_cases hspace : noSpace = true
      · exact .inr (.inr ⟨if_pos ⟨hlast, hspace⟩, hspace, hnone⟩)
      · obtain rfl : o = d.size := le_antisymm hle hlast
        refine .inl ⟨(d.newBlock bs d.size).fillSlot d.size nm, ?_, ?_⟩
        swap
        · intro q hq hm
          rw [hnone q hq] at hm
          cases hm
        rw [if_neg fun hc => hspace hc.2]
        simp only [if_pos hlast, newBlock_slot h hname]
    · rw [if_neg fun hc => hlast hc.1]
      simp only [if_neg hlast]
      have ho : Rec bs d o := .start hdvd (by omega)
      have hblk := blk_of_dvd h.tiled.bs_pos hdvd
      cases hs : scan bs d.recLen (d.addStep bs nm) bs o with
      | next e =>
        obtain ⟨rfl, hnone⟩ := scan_eq_next h.tiled ho (by omega) hs
        apply ih (dvd_add dvd_blk dvd_rfl) (ho.blk_add_le_size h.tiled)
        · rw [hblk]
          rw [Nat.succ_mul] at hn
          omega
        · intro q hq hlt
          by_cases hqo : q < o
          · exact hbefore q hq hqo
          · exact hnone q hq (not_lt.mp hqo) hlt
      | stop b =>
        obtain ⟨q, hq, hoq, -, hfq, hfirst⟩ := scan_eq_stop h.tiled ho (by omega) hs
        have hnone : ∀ r, Rec bs d r → r < q → d.addStep bs nm r = none := by
          intro r hr hlt
          by_cases hro : r < o
          · exact hbefore r hr hro
          · exact hfirst r hr (not_lt.mp hro) hlt
        cases b with
        | bad => exact absurd hfq (addStep_ne_bad h hq)
        | exist =>
          refine .inr (.inl ⟨rfl, q, hq, (addStep_eq_exist h hq).mp hfq, fun r hr hlt => ?_⟩)
          exact ((addStep_eq_none h hr).mp (hnone r hr hlt)).2
        | slot p =>
          obtain ⟨rfl, hfit⟩ := addStep_eq_slot h hq hfq
          refine .inl ⟨_, rfl, fun r hr hm => ⟨p, hq, ?_, hfit⟩⟩
          -- an entry of the name would have stopped the loop at its record
          by_contra hle'
          rcases Nat.eq_or_lt_of_le (not_lt.mp hle') with rfl | hlt
          · rw [(addStep_eq_exist h hr).mpr hm] at hfq
            cases hfq
          · have hmiss := ((addStep_eq_none h hr).mp (hnone r hr hlt)).1
            rw [hm] at hmiss
            cases hmiss

end Searches

/-! ## Changes of the map -/

section Changes

variable {bs : Nat} {d d' : Directory} {o p q ino : Nat} {nm : Name} {m : NameMap}

theorem Represents.find (h : Represents bs d m) (hpos : 0 < nm.length) (hle : nm.length ≤ nameMax) :
    (d.findEntry bs nm).map d.inode = m nm := by
  cases hfind : d.findEntry bs nm with
  | some o =>
    obtain ⟨ho, hm, -⟩ := findEntry_eq_some h.sound hfind
    rw [truncate_eq hle, ext2Match_iff hpos hle] at hm
    exact ((h.binds nm (d.inode o)).mpr ⟨o, h.sound.mem_live.mpr ⟨ho, hm.1⟩, hm.2, rfl⟩).symm
  | none =>
    cases hm : m nm with
    | none => rfl
    | some ino =>
      obtain ⟨o, hlive, hname, -⟩ := (h.binds nm ino).mp hm
      obtain ⟨ho, hused⟩ := h.sound.mem_live.mp hlive
      have hmiss := findEntry_eq_none h.sound hfind ho
      rw [truncate_eq hle, (ext2Match_iff hpos hle).mpr ⟨hused, hname⟩] at hmiss
      cases hmiss

/-- A map that a directory represents is faithful to it. -/
theorem Represents.faithful (h : Represents bs d m) : Faithful bs d m where
  represents := h
  sum := by
    intro b hdvd hlt
    have hblk := blk_of_dvd h.sound.tiled.bs_pos hdvd
    have hsum := sum_walk h.sound.tiled (.start hdvd hlt) (n := bs) (by omega)
    omega
  find := fun _ hpos hle => h.find hpos hle

theorem Represents.isSome_iff (h : Represents bs d m) :
    m nm ≠ none ↔ ∃ o ∈ d.live bs, d.name o = nm := by
  rw [Option.ne_none_iff_exists']
  constructor
  · rintro ⟨ino, hm⟩
    obtain ⟨o, ho, hname, -⟩ := (h.binds nm ino).mp hm
    exact ⟨o, ho, hname⟩
  · rintro ⟨o, ho, hname⟩
    exact ⟨d.inode o, (h.binds nm _).mpr ⟨o, ho, hname, rfl⟩⟩

/-- One live record more, of a name without a binding. -/
theorem Represents.insert (h : Represents bs d m) (hsound : Sound bs d') (hpos : d'.size ≠ 0)
    (hlive : ∀ q, q ∈ d'.live bs ↔ q = o ∨ q ∈ d.live bs)
    (hsame : ∀ q ∈ d.live bs, d'.name q = d.name q ∧ d'.inode q = d.inode q)
    (hname : d'.name o = nm) (hinode : d'.inode o = ino) (hnone : m nm = none) :
    Represents bs d' (update m nm (some ino)) where
  sound := hsound
  pos := hpos
  unique := by
    have hfresh : ∀ q ∈ d.live bs, d'.name q ≠ nm := by
      intro q hq heq
      rw [(hsame q hq).1] at heq
      exact h.isSome_iff.mpr ⟨q, hq, heq⟩ hnone
    intro p hp q hq heq
    rcases (hlive p).mp hp with rfl | hp <;> rcases (hlive q).mp hq with rfl | hq
    · rfl
    · exact absurd (heq.symm.trans hname) (hfresh q hq)
    · exact absurd (heq.trans hname) (hfresh p hp)
    · apply h.unique p hp q hq
      rw [← (hsame p hp).1, ← (hsame q hq).1, heq]
  binds := by
    intro nm' ino'
    by_cases hnm : nm' = nm
    · rw [hnm, update_self, Option.some.injEq]
      constructor
      · rintro rfl
        exact ⟨o, (hlive o).mpr (.inl rfl), hname, hinode⟩
      · rintro ⟨q, hq, hqname, hqinode⟩
        rcases (hlive q).mp hq with rfl | hq
        · rw [← hinode, hqinode]
        · rw [(hsame q hq).1] at hqname
          exact absurd hnone (h.isSome_iff.mpr ⟨q, hq, hqname⟩)
    · rw [update_of_ne hnm, h.binds]
      constructor
      · rintro ⟨q, hq, hqname, hqinode⟩
        exact ⟨q, (hlive q).mpr (.inr hq), (hsame q hq).1.trans hqname, (hsame q hq).2.trans hqinode⟩
      · rintro ⟨q, hq, hqname, hqinode⟩
        rcases (hlive q).mp hq with rfl | hq
        · exact absurd (hqname.symm.trans hname) hnm
        · exact ⟨q, hq, (hsame q hq).1.symm.trans hqname, (hsame q hq).2.symm.trans hqinode⟩

theorem Represents.erase (h : Represents bs d m) (hsound : Sound bs d') (hpos : d'.size ≠ 0)
    (ho : o ∈ d.live bs) (hlive : ∀ q, q ∈ d'.live bs ↔ q ≠ o ∧ q ∈ d.live bs)
    (hsame : ∀ q ∈ d.live bs, q ≠ o → d'.name q = d.name q ∧ d'.inode q = d.inode q) :
    Represents bs d' (update m (d.name o) none) where
  sound := hsound
  pos := hpos
  unique := by
    intro p hp q hq heq
    obtain ⟨hpo, hp⟩ := (hlive p).mp hp
    obtain ⟨hqo, hq⟩ := (hlive q).mp hq
    apply h.unique p hp q hq
    rw [← (hsame p hp hpo).1, ← (hsame q hq hqo).1, heq]
  binds := by
    intro nm' ino'
    by_cases hnm : nm' = d.name o
    · rw [hnm, update_self]
      constructor
      · exact fun hc => by cases hc
      · rintro ⟨q, hq, hqname, -⟩
        obtain ⟨hqo, hq⟩ := (hlive q).mp hq
        rw [(hsame q hq hqo).1] at hqname
        exact absurd (h.unique q hq o ho hqname) hqo
    · rw [update_of_ne hnm, h.binds]
      constructor
      · rintro ⟨q, hq, hqname, hqinode⟩
        have hqo : q ≠ o := by
          rintro rfl
          exact hnm hqname.symm
        exact ⟨q, (hlive q).mpr ⟨hqo, hq⟩, (hsame q hq hqo).1.trans hqname,
          (hsame q hq hqo).2.trans hqinode⟩
      · rintro ⟨q, hq, hqname, hqinode⟩
        obtain ⟨hqo, hq⟩ := (hlive q).mp hq
        exact ⟨q, hq, (hsame q hq hqo).1.symm.trans hqname, (hsame q hq hqo).2.symm.trans hqinode⟩

/-- **An entry is added**: a record is filled, and the number of the inode is stored. -/
theorem Represents.add (h : Represents bs d m) (hf : Filled bs d d' o nm) (hnm : 0 < nm.length)
    (hino : 0 < ino) (hlt : ino < 2 ^ 32) (hnone : m nm = none) :
    Represents bs (d'.setInode o ino) (update m nm (some ino)) := by
  have ho : Rec bs d' o := (hf.recs o).mpr (.inr rfl)
  obtain ⟨hsound, hrecs⟩ := hf.sound.setInode (v := ino) ho fun _ => by rw [hf.nameLen]; exact hnm
  have hself : (d'.setInode o ino).inode o = ino := inode_setInode_self hlt
  have hdead : ∀ q ∈ d.live bs, q ≠ o := by
    rintro q hq rfl
    obtain ⟨hrec, hused⟩ := h.sound.mem_live.mp hq
    exact hused (hf.free hrec)
  have hsame : ∀ q, Rec bs d q → q ≠ o → Same d (d'.setInode o ino) q := fun q hq hne =>
    (hf.same q hq hne).trans (hf.sound.same_setInode ho ((hf.recs q).mpr (.inl hq)) hne)
  refine h.insert hsound ?_ ?_ ?_ (name_setInode_self.trans hf.name) hself hnone
  · have hsize : (d'.setInode o ino).size = d'.size := rfl
    have hle := hf.size
    have hpos := h.pos
    omega
  · intro q
    rw [hsound.mem_live, hrecs, hf.recs, h.sound.mem_live]
    by_cases hq : q = o
    · rw [hq, hself]
      exact ⟨fun _ => .inl rfl, fun _ => ⟨.inr rfl, Nat.ne_of_gt hino⟩⟩
    · constructor
      · rintro ⟨hrec | heq, hused⟩
        · rw [(hsame q hrec hq).inode] at hused
          exact .inr ⟨hrec, hused⟩
        · exact absurd heq hq
      · rintro (heq | ⟨hrec, hused⟩)
        · exact absurd heq hq
        · rw [← (hsame q hrec hq).inode] at hused
          exact ⟨.inl hrec, hused⟩
  · intro q hq
    have hs := hsame q (h.sound.mem_live.mp hq).1 (hdead q hq)
    exact ⟨hs.name, hs.inode⟩

/-- **An entry is deleted.** -/
theorem Represents.delete (h : Represents bs d m) (hd : Deleted bs d d' o) (ho : o ∈ d.live bs) :
    Represents bs d' (update m (d.name o) none) := by
  have hsame : ∀ q ∈ d.live bs, q ≠ o → Same d d' q := fun q hq hne =>
    hd.same q (h.sound.mem_live.mp hq).1 hne
  refine h.erase hd.sound ?_ ho ?_ fun q hq hne => ⟨(hsame q hq hne).name, (hsame q hq hne).inode⟩
  · rw [hd.size]
    exact h.pos
  · intro q
    rw [hd.sound.mem_live, h.sound.mem_live]
    by_cases hq : q = o
    · rw [hq]
      exact ⟨fun hc => absurd (hd.gone hc.1) hc.2, fun hc => absurd rfl hc.1⟩
    · rw [hd.recs q hq]
      constructor
      · rintro ⟨hrec, hused⟩
        rw [(hd.same q hrec hq).inode] at hused
        exact ⟨hq, hrec, hused⟩
      · rintro ⟨-, hrec, hused⟩
        rw [← (hd.same q hrec hq).inode] at hused
        exact ⟨hrec, hused⟩

end Changes

/-! ## Runs -/

section Runs

variable {bs : Nat} {d : Directory} {m : NameMap}

theorem addEntry_outcome (h : Represents bs d m) {nm : Name} (hpos : 0 < nm.length)
    (hle : nm.length ≤ nameMax) (noSpace : Bool) :
    (∃ r, d.addEntry bs nm noSpace = .ok r ∧
        ∀ q ∈ d.live bs, d.name q = nm → ∃ r, Rec bs d r ∧ r < q ∧ d.Fits r nm) ∨
      (d.addEntry bs nm noSpace = .error (-eexist) ∧
        ∃ q ∈ d.live bs, d.name q = nm ∧ ∀ r, Rec bs d r → r < q → ¬ d.Fits r nm) ∨
      d.addEntry bs nm noSpace = .error (-enospc) ∧ noSpace = true ∧
        ∀ q ∈ d.live bs, d.name q ≠ nm := by
  have hentry : d.addEntry bs nm noSpace = addLoop bs nm noSpace (d.size / bs + 1) d 0 := by
    rw [addEntry, if_neg (by omega), if_neg h.pos, truncate_eq hle]
  have hfuel : d.size < 0 + (d.size / bs + 1) * bs := by
    have hmod := Nat.div_add_mod' d.size bs
    have hlt := Nat.mod_lt d.size h.sound.tiled.bs_pos
    rw [Nat.add_mul, Nat.one_mul]
    omega
  have hentry_iff : ∀ q, Rec bs d q → (d.ext2Match nm q = true ↔ d.inode q ≠ 0 ∧ d.name q = nm) :=
    fun q _ => ext2Match_iff hpos hle
  rw [hentry]
  rcases addLoop_outcome h.sound noSpace hle (dvd_zero bs) (Nat.zero_le _) hfuel
    (fun q _ hq => absurd hq (Nat.not_lt_zero q)) with
    ⟨r, hr, hseen⟩ | ⟨hr, q, hq, hm, hnone⟩ | ⟨hr, hspace, hnone⟩
  · refine .inl ⟨r, hr, fun q hq hname => ?_⟩
    obtain ⟨hrec, hused⟩ := h.sound.mem_live.mp hq
    exact hseen q hrec ((hentry_iff q hrec).mpr ⟨hused, hname⟩)
  · obtain ⟨hused, hname⟩ := (hentry_iff q hq).mp hm
    exact .inr (.inl ⟨hr, q, h.sound.mem_live.mpr ⟨hq, hused⟩, hname, hnone⟩)
  · refine .inr (.inr ⟨hr, hspace, fun q hq hname => ?_⟩)
    obtain ⟨hrec, hused⟩ := h.sound.mem_live.mp hq
    have hmiss := hnone q hrec
    rw [(hentry_iff q hrec).mpr ⟨hused, hname⟩] at hmiss
    cases hmiss

/-- An addition keeps to the map exactly when it is clear. -/
theorem add_exact (h : Represents bs d m) {nm : Name} {ino : Nat} {noSpace : Bool}
    (hvalid : Call.Valid (.add nm ino noSpace)) :
    Clear bs d (.add nm ino noSpace) ↔
      ∃ m', MapStep m (.add nm ino noSpace) (perform bs d (.add nm ino noSpace)).2 m' ∧
        Represents bs (perform bs d (.add nm ino noSpace)).1 m' := by
  obtain ⟨hpos, hle, hino, hlt⟩ := hvalid
  rcases addEntry_outcome h hpos hle noSpace with
    ⟨⟨d', o⟩, hadd, hseen⟩ | ⟨hadd, q, hq, hname, hnone⟩ | ⟨hadd, hspace, hnone⟩
  · have hperform : perform bs d (.add nm ino noSpace) = (d'.setInode o ino, 0) := by
      rw [perform, hadd]
    rw [hperform]
    constructor
    · intro hclear
      have hno : m nm = none := by
        by_contra hm
        obtain ⟨q, hq, hname⟩ := h.isSome_iff.mp hm
        obtain ⟨r, hr, hlt', hfit⟩ := hseen q hq hname
        exact hclear q hq hname r hr hlt' hfit
      have hf := addEntry_filled h.sound hadd
      rw [truncate_eq hle] at hf
      exact ⟨_, .inl ⟨rfl, hno, rfl⟩, h.add hf hpos hino hlt hno⟩
    · -- the name was not there, so nothing has been overlooked
      rintro ⟨m', hstep, -⟩
      have hno : m nm = none := by
        rcases hstep with ⟨-, hno, -⟩ | ⟨herr, -⟩ | ⟨-, -, hno, -⟩
        · exact hno
        · exact absurd herr (show ¬ (0 : Int) = -eexist by decide)
        · exact hno
      intro q hq hname
      exact absurd hno (h.isSome_iff.mpr ⟨q, hq, hname⟩)
  · have hperform : perform bs d (.add nm ino noSpace) = (d, -eexist) := by
      rw [perform, hadd]
    rw [hperform]
    constructor
    · exact fun _ => ⟨m, .inr (.inl ⟨rfl, h.isSome_iff.mpr ⟨q, hq, hname⟩, rfl⟩), h⟩
    · intro _ o ho hname' r hr hlt'
      rw [h.unique o ho q hq (hname'.trans hname.symm)] at hlt'
      exact hnone r hr hlt'
  · have hperform : perform bs d (.add nm ino noSpace) = (d, -enospc) := by
      rw [perform, hadd]
    have hno : m nm = none := by
      by_contra hm
      obtain ⟨q, hq, hname⟩ := h.isSome_iff.mp hm
      exact hnone q hq hname
    rw [hperform]
    constructor
    · exact fun _ => ⟨m, .inr (.inr ⟨rfl, hspace, hno, rfl⟩), h⟩
    · intro _ o ho hname
      exact absurd hname (hnone o ho)

theorem delete_keeps (h : Represents bs d m) {nm : Name} (hvalid : Call.Valid (.delete nm)) :
    ∃ m', MapStep m (.delete nm) (perform bs d (.delete nm)).2 m' ∧
      Represents bs (perform bs d (.delete nm)).1 m' := by
  obtain ⟨hpos, hle⟩ := hvalid
  have hmap := h.find hpos hle
  cases hfind : d.findEntry bs nm with
  | none =>
    rw [hfind] at hmap
    have hperform : perform bs d (.delete nm) = (d, -enoent) := by
      rw [perform, hfind]
    rw [hperform]
    exact ⟨m, .inr ⟨rfl, hmap.symm, rfl⟩, h⟩
  | some o =>
    obtain ⟨ho, hm, -⟩ := findEntry_eq_some h.sound hfind
    rw [truncate_eq hle, ext2Match_iff hpos hle] at hm
    have hlive : o ∈ d.live bs := h.sound.mem_live.mpr ⟨ho, hm.1⟩
    obtain ⟨d', hdelete, hd⟩ := deleteEntry_deleted h.sound ho
    have hperform : perform bs d (.delete nm) = (d', 0) := by
      rw [perform, hfind]
      simp only [hdelete]
    have hrep := h.delete hd hlive
    rw [hm.2] at hrep
    rw [hperform]
    exact ⟨_, .inl ⟨rfl, h.isSome_iff.mpr ⟨o, hlive, hm.2⟩, rfl⟩, hrep⟩

/-- **One call keeps to the map** exactly when it is clear. -/
theorem step_exact (h : Represents bs d m) {c : Call} (hvalid : c.Valid) :
    Clear bs d c ↔ ∃ m', MapStep m c (perform bs d c).2 m' ∧ Represents bs (perform bs d c).1 m' := by
  cases c with
  | add nm ino noSpace => exact add_exact h hvalid
  | delete nm => exact ⟨fun _ => delete_keeps h hvalid, fun _ => trivial⟩

theorem Keeps.faithful {cs : List Call} (h : Keeps bs d m cs) : Faithful bs d m := by
  cases cs with
  | nil => exact h
  | cons c cs => exact h.1

/-- **So does a run.** -/
theorem run_exact (h : Represents bs d m) {cs : List Call} (hvalid : ∀ c ∈ cs, c.Valid) :
    Keeps bs d m cs ↔ ClearRun bs d cs := by
  induction cs generalizing d m with
  | nil => exact ⟨fun _ => trivial, fun _ => h.faithful⟩
  | cons c cs ih =>
    have hrest : ∀ c' ∈ cs, c'.Valid := fun c' hc' => hvalid c' (List.mem_cons_of_mem _ hc')
    constructor
    · rintro ⟨-, m', hstep, hkeeps⟩
      have hclear := (step_exact h (hvalid c List.mem_cons_self)).mpr ⟨m', hstep, hkeeps.faithful.represents⟩
      exact ⟨hclear, (ih hkeeps.faithful.represents hrest).mp hkeeps⟩
    · rintro ⟨hclear, hrun⟩
      obtain ⟨m', hstep, hrep⟩ := (step_exact h (hvalid c List.mem_cons_self)).mp hclear
      exact ⟨h.faithful, m', hstep, (ih hrep hrest).mpr hrun⟩

end Runs

/-! ## A new directory -/

/-- The map of a new directory. -/
def newMap (ino parent : Nat) : NameMap :=
  update (update (fun _ => none) dot (some ino)) dotdot (some parent)

theorem newMap_eq (ino parent : Nat) (nm : Name) :
    newMap ino parent nm = if nm = dotdot then some parent else if nm = dot then some ino else none := by
  by_cases hdotdot : nm = dotdot
  · rw [newMap, hdotdot, update_self, if_pos rfl]
  · rw [newMap, update_of_ne hdotdot, if_neg hdotdot]
    by_cases hdot : nm = dot
    · rw [hdot, update_self, if_pos rfl]
    · rw [update_of_ne hdot, if_neg hdot]

theorem represents_new {bs ino parent : Nat} {d : Directory} (h : Shape bs d ino parent)
    (hkids : d.kids bs = []) (hino : ino ≠ 0) (hparent : parent ≠ 0) :
    Represents bs d (newMap ino parent) := by
  have hzero : (0 : Nat) ∈ d.live bs := by
    rw [h.sound.mem_live, h.dot_inode]
    exact ⟨h.first, hino⟩
  have hsecond : 12 ∈ d.live bs := by
    rw [h.sound.mem_live, h.dotdot_inode]
    exact ⟨h.second, hparent⟩
  have honly : ∀ o ∈ d.live bs, o = 0 ∨ o = 12 := by
    intro o ho
    by_contra hne
    have hmem : (d.name o, d.inode o) ∈ d.kids bs :=
      mem_kids.mpr ⟨o, ⟨ho, fun h0 => hne (.inl h0), fun h12 => hne (.inr h12)⟩, rfl, rfl⟩
    rw [hkids] at hmem
    exact absurd hmem List.not_mem_nil
  have hne : dot ≠ dotdot := by decide
  refine ⟨h.sound, h.pos, ?_, ?_⟩
  · intro o ho p hp heq
    rcases honly o ho with rfl | rfl <;> rcases honly p hp with rfl | rfl
    · rfl
    · rw [h.name_zero, h.name_second] at heq
      exact absurd heq hne
    · rw [h.name_zero, h.name_second] at heq
      exact absurd heq.symm hne
    · rfl
  · intro nm v
    rw [newMap_eq]
    constructor
    · intro hm
      split_ifs at hm with hdotdot hdot
      · exact ⟨12, hsecond, h.name_second.trans hdotdot.symm, h.dotdot_inode.trans (Option.some.inj hm)⟩
      · exact ⟨0, hzero, h.name_zero.trans hdot.symm, h.dot_inode.trans (Option.some.inj hm)⟩
    · rintro ⟨o, ho, hname, hinode⟩
      rcases honly o ho with rfl | rfl
      · rw [← hname, ← hinode, h.name_zero, h.dot_inode, if_neg hne, if_pos rfl]
      · rw [← hname, ← hinode, h.name_second, h.dotdot_inode, if_pos rfl]

/-- **A directory is a map**: a run of calls on a new directory keeps to its map, in every state and in
every step, exactly when no name is added that has an entry behind a record with room for it. -/
theorem map_exact (sb : SuperBlock) {ino parent : Nat} (hino : 0 < ino ∧ ino < 2 ^ 32)
    (hparent : 0 < parent ∧ parent < 2 ^ 32) {calls : List Call} (hvalid : ∀ c ∈ calls, c.Valid) :
    Keeps sb.blocksize (firstBlock sb ino parent) (newMap ino parent) calls ↔
      ClearRun sb.blocksize (firstBlock sb ino parent) calls := by
  obtain ⟨hshape, hkids⟩ := firstBlock_shape sb hino.2 hparent.2
  exact run_exact (represents_new hshape hkids (by omega) (by omega)) hvalid

/-- A file system with blocks of 1024 bytes. -/
def oneSb : SuperBlock := ⟨769, 1024, 32, supported_1024, by decide⟩

/-- A name is added and deleted again. -/
def plainCalls : List Call := [.add [97] 11 false, .delete [97]]

/-- These calls keep to the map. -/
theorem map_exact_plain :
    Keeps oneSb.blocksize (firstBlock oneSb 2 2) (newMap 2 2) plainCalls := by
  have hnew : ∀ o ∈ (firstBlock oneSb 2 2).live oneSb.blocksize, (firstBlock oneSb 2 2).name o ≠ [97] := by
    decide +kernel
  refine (map_exact oneSb (by decide) (by decide) fun c hc => ?_).2
    ⟨fun o ho hname => absurd hname (hnew o ho), trivial, trivial⟩
  simp only [plainCalls, List.mem_cons, List.not_mem_nil, or_false] at hc
  rcases hc with rfl | rfl
  · exact ⟨by decide, by decide, by decide, by decide⟩
  · exact ⟨by decide, by decide⟩

/-- The entry `b` lies behind the room of the deleted entry `a`, and `b` is added once more. -/
def doubleCalls : List Call :=
  [.add [97] 11 false, .add [98] 12 false, .delete [97], .add [98] 13 false]

/-- The second `b` is not refused. -/
theorem name_added_twice :
    (∀ c ∈ doubleCalls, c.Valid) ∧
      ¬ Keeps oneSb.blocksize (firstBlock oneSb 2 2) (newMap 2 2) doubleCalls := by
  constructor
  · intro c hc
    simp only [doubleCalls, List.mem_cons, List.not_mem_nil, or_false] at hc
    rcases hc with rfl | rfl | rfl | rfl
    · exact ⟨by decide, by decide, by decide, by decide⟩
    · exact ⟨by decide, by decide, by decide, by decide⟩
    · exact ⟨by decide, by decide⟩
    · exact ⟨by decide, by decide, by decide, by decide⟩
  · rintro ⟨-, m₁, -, -, m₂, -, -, m₃, -, hfaithful, m₄, hstep, -⟩
    -- the search finds `b` before it is added again without an error
    have hfound := hfaithful.find [98] (by decide) (by decide)
    have hsome : ((perform 1024 (perform 1024 (perform 1024 (firstBlock oneSb 2 2)
        (.add [97] 11 false)).1 (.add [98] 12 false)).1 (.delete [97])).1.findEntry 1024
        [98]).isSome = true := by
      decide +kernel
    have hdone : (perform 1024 (perform 1024 (perform 1024 (perform 1024 (firstBlock oneSb 2 2)
        (.add [97] 11 false)).1 (.add [98] 12 false)).1 (.delete [97])).1
        (.add [98] 13 false)).2 = 0 := by
      decide +kernel
    have hnone : m₃ [98] = none := by
      rcases hstep with ⟨-, hnone, -⟩ | ⟨herr, -⟩ | ⟨-, -, hnone, -⟩
      · exact hnone
      · exact absurd (hdone.symm.trans herr) (by decide)
      · exact hnone
    rw [hnone, Option.map_eq_none_iff] at hfound
    have hcontra : (none : Option Nat).isSome = true := by
      rw [← hfound]
      exact hsome
    exact absurd hcontra (by decide)

end LinuxEvocation.Ext2.Directory
