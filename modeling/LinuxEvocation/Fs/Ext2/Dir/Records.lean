import LinuxEvocation.Fs.Ext2.Dir.Basic

/-!
# The records of a directory

What each function does to the records, for directories that pass the check of every record.

* `Sound` — the records tile the blocks and pass `ext2_check_dir_entry`.
* `Same` — a record keeps its inode and its name.
* `Filled`, `fillSlot_filled` — a slot is prepared: a new record, not in use.
* `Sound.setInode` — a number is stored in a record.
* `Deleted`, `deleteEntry_deleted` — a record is taken out.
-/

namespace LinuxEvocation.Ext2.Directory

open Errno Bytes Tiling

variable {bs : Nat} {d d' d₁ : Directory} {o p q v : Nat} {nm : Name}

/-! ## Fields -/

theorem le_dirRecLen (n : Nat) : n + 8 ≤ dirRecLen n := by
  rw [dirRecLen]
  omega

theorem dirRecLen_mod (n : Nat) : dirRecLen n % 4 = 0 := Nat.mul_mod_left _ 4

theorem twelve_le_dirRecLen {n : Nat} (h : 0 < n) : 12 ≤ dirRecLen n := by
  rw [dirRecLen]
  omega

variable {x : Nat}

theorem setInode_data (h : x < o ∨ o + 4 ≤ x) : (d.setInode o v).data x = d.data x :=
  setLE_of_apart h

theorem setRecLen_data (h : x < o + 4 ∨ o + 6 ≤ x) :
    (d.setRecLen o v).data x = d.data x :=
  setLE_of_apart (by omega)

theorem setNameLen_data (h : x < o + 6 ∨ o + 8 ≤ x) :
    (d.setNameLen o v).data x = d.data x :=
  setLE_of_apart (by omega)

theorem setName_data (h : x < o + 8 ∨ o + 8 + nm.length ≤ x) :
    (d.setName o nm).data x = d.data x :=
  poke_of_apart (by omega)

theorem inode_setInode_self (h : v < 2 ^ 32) : (d.setInode o v).inode o = v :=
  getLE_setLE_self (by omega)

theorem setInode_setInode {w : Nat} : (d.setInode o v).setInode o w = d.setInode o w := by
  rw [setInode, setInode, setInode, setLE_setLE]

theorem recLen_setRecLen_self (h : v < 2 ^ 16) : (d.setRecLen o v).recLen o = v :=
  getLE_setLE_self (by omega)

theorem nameLen_setNameLen_self (h : v < 2 ^ 16) : (d.setNameLen o v).nameLen o = v :=
  getLE_setLE_self (by omega)

theorem inode_congr (h : ∀ x, o ≤ x → x < o + 4 → d'.data x = d.data x) :
    d'.inode o = d.inode o :=
  getLE_congr h

theorem recLen_congr (h : ∀ x, o + 4 ≤ x → x < o + 6 → d'.data x = d.data x) :
    d'.recLen o = d.recLen o :=
  getLE_congr fun x hx hlt => h x hx (by omega)

theorem nameLen_congr (h : ∀ x, o + 6 ≤ x → x < o + 8 → d'.data x = d.data x) :
    d'.nameLen o = d.nameLen o :=
  getLE_congr fun x hx hlt => h x hx (by omega)

/-- The record keeps its inode, and its name with what fills it up. -/
structure Same (d d' : Directory) (o : Nat) : Prop where
  inode : d'.inode o = d.inode o
  nameLen : d'.nameLen o = d.nameLen o
  bytes : ∀ x, o + 8 ≤ x → x < o + dirRecLen (d.nameLen o) → d'.data x = d.data x

namespace Same

theorem trans (h : Same d d₁ o) (h' : Same d₁ d' o) : Same d d' o where
  inode := h'.inode.trans h.inode
  nameLen := h'.nameLen.trans h.nameLen
  bytes := fun x hx hlt =>
    (h'.bytes x hx (by rw [h.nameLen]; exact hlt)).trans (h.bytes x hx hlt)

theorem name (h : Same d d' o) : d'.name o = d.name o := by
  rw [Directory.name, Directory.name, h.nameLen]
  refine peek_congr fun x hx hlt => h.bytes x hx ?_
  have := le_dirRecLen (d.nameLen o)
  omega

/-- A record whose bytes but for its length are untouched. -/
theorem of_data (h : ∀ x, o ≤ x → x < o + dirRecLen (d.nameLen o) → x < o + 4 ∨ o + 6 ≤ x →
    d'.data x = d.data x) : Same d d' o := by
  have hlen := le_dirRecLen (d.nameLen o)
  refine ⟨inode_congr fun x hx hlt => h x hx (by omega) (by omega),
    nameLen_congr fun x hx hlt => h x (by omega) (by omega) (by omega),
    fun x hx hlt => h x (by omega) hlt (by omega)⟩

end Same

/-! ## Sound directories -/

/-- A record starts at the offset. -/
abbrev Rec (bs : Nat) (d : Directory) (o : Nat) : Prop := Tiling.Rec bs d.size d.recLen o

/-- The records tile the blocks, pass the check, and have a name if they are in use. -/
structure Sound (bs : Nat) (d : Directory) : Prop where
  block : bs = 1024 ∨ bs = 2048 ∨ bs = 4096
  tiled : Tiled bs d.size d.recLen
  min : ∀ {o}, Rec bs d o → 12 ≤ d.recLen o
  mod : ∀ {o}, Rec bs d o → d.recLen o % 4 = 0
  fits : ∀ {o}, Rec bs d o → dirRecLen (d.nameLen o) ≤ d.recLen o
  named : ∀ {o}, Rec bs d o → d.inode o ≠ 0 → 0 < d.nameLen o

namespace Sound

theorem check (h : Sound bs d) (ho : Rec bs d o) (whole : Bool) :
    d.checkDirEntry bs whole o = true := by
  have := h.min ho
  have := h.mod ho
  have := h.fits ho
  have := h.tiled.fits ho
  simp only [checkDirEntry, Bool.and_eq_true, Bool.or_eq_true, decide_eq_true_eq,
    Bool.not_eq_true']
  exact ⟨⟨⟨by assumption, by assumption⟩, by assumption⟩, .inr (by assumption)⟩

theorem recLen_le (h : Sound bs d) (ho : Rec bs d o) : d.recLen o ≤ bs := by
  have := h.tiled.fits ho
  omega

theorem bs_le (h : Sound bs d) : bs ≤ 4096 := by
  rcases h.block with rfl | rfl | rfl <;> omega

theorem mem_live (h : Sound bs d) : o ∈ d.live bs ↔ Rec bs d o ∧ d.inode o ≠ 0 := by
  rw [live, List.mem_filter, mem_offsets h.tiled, decide_eq_true_eq]

theorem nodup_live (h : Sound bs d) : (d.live bs).Nodup := (nodup_offsets h.tiled).filter _

/-- The bytes of a record that lie within another one are none. -/
theorem apart (h : Sound bs d) (ho : Rec bs d o) (hp : Rec bs d p) (hne : p ≠ o) {x : Nat}
    (hx : p ≤ x) (hlt : x < p + dirRecLen (d.nameLen p)) : x < o ∨ o + d.recLen o ≤ x := by
  rcases Nat.lt_or_gt_of_ne hne with hpo | hop
  · have := hp.end_le ho h.tiled hpo
    have := h.fits hp
    omega
  · have := ho.end_le hp h.tiled hop
    omega

theorem lt_size (h : Sound bs d) (ho : Rec bs d o) : o < d.size := ho.lt_size h.tiled

end Sound

theorem live_of_size_eq_zero (h : d.size = 0) : d.live bs = [] := by
  simp [live, offsets, h]

/-! ## Storing a number -/

/-- A change that leaves the lengths of the records alone. -/
theorem Sound.congr (h : Sound bs d) (hsize : d'.size = d.size)
    (hrec : ∀ p, Rec bs d p → d'.recLen p = d.recLen p)
    (hlen : ∀ p, Rec bs d p → d'.nameLen p = d.nameLen p)
    (hinode : ∀ p, Rec bs d p → d'.inode p ≠ 0 → 0 < d.nameLen p) :
    Sound bs d' ∧ ∀ p, Rec bs d' p ↔ Rec bs d p := by
  have hiff : ∀ p, Rec bs d' p ↔ Rec bs d p := by
    intro p
    rw [Rec, hsize]
    exact rec_congr hrec
  refine ⟨⟨h.block, ?_, ?_, ?_, ?_, ?_⟩, hiff⟩
  · rw [hsize]
    exact h.tiled.congr hrec
  all_goals
    intro p hp
    replace hp := (hiff p).1 hp
  · rw [hrec p hp]
    exact h.min hp
  · rw [hrec p hp]
    exact h.mod hp
  · rw [hrec p hp, hlen p hp]
    exact h.fits hp
  · rw [hlen p hp]
    exact hinode p hp

/-- The bytes of a record are untouched by a store to the number in another one. -/
theorem Sound.setInode_data_of_ne (h : Sound bs d) (ho : Rec bs d o) (hp : Rec bs d p)
    (hne : p ≠ o) (hx : p ≤ x) (hlt : x < p + dirRecLen (d.nameLen p)) :
    (d.setInode o v).data x = d.data x := by
  have := h.apart ho hp hne hx hlt
  have := h.min ho
  exact setInode_data (by omega)

/-- The name in the record is untouched by a store to the number in it. -/
theorem nameLen_setInode_self : (d.setInode o v).nameLen o = d.nameLen o :=
  nameLen_congr fun _ _ _ => setInode_data (by omega)

theorem name_setInode_self : (d.setInode o v).name o = d.name o := by
  rw [name, name, nameLen_setInode_self]
  exact peek_congr fun _ _ _ => setInode_data (by omega)

theorem recLen_setInode_self : (d.setInode o v).recLen o = d.recLen o :=
  recLen_congr fun _ _ _ => setInode_data (by omega)

theorem Sound.same_setInode (h : Sound bs d) (ho : Rec bs d o) (hp : Rec bs d p) (hne : p ≠ o) :
    Same d (d.setInode o v) p :=
  .of_data fun _ hx hlt _ => h.setInode_data_of_ne ho hp hne hx hlt

theorem Sound.recLen_setInode (h : Sound bs d) (ho : Rec bs d o) (hp : Rec bs d p) :
    (d.setInode o v).recLen p = d.recLen p := by
  by_cases hne : p = o
  · rw [hne]
    exact recLen_setInode_self
  · have := le_dirRecLen (d.nameLen p)
    exact recLen_congr fun _ _ _ => h.setInode_data_of_ne ho hp hne (by omega) (by omega)

/-- **A number is stored** in a record that has a name, or the record is freed. -/
theorem Sound.setInode (h : Sound bs d) (ho : Rec bs d o) (hnamed : v ≠ 0 → 0 < d.nameLen o) :
    Sound bs (d.setInode o v) ∧ ∀ p, Rec bs (d.setInode o v) p ↔ Rec bs d p := by
  refine h.congr rfl (fun p hp => h.recLen_setInode ho hp) ?_ ?_
  · intro p hp
    by_cases hne : p = o
    · rw [hne]
      exact nameLen_setInode_self
    · exact (h.same_setInode ho hp hne).nameLen
  · intro p hp hinode
    by_cases hne : p = o
    · subst hne
      refine hnamed fun hv => ?_
      subst hv
      exact hinode (inode_setInode_self (by omega))
    · rw [(h.same_setInode ho hp hne).inode] at hinode
      exact h.named hp hinode

/-! ## Preparing a slot -/

/-- The directory `d'` is `d` with a record for the name, at `o`, that is not in use. -/
structure Filled (bs : Nat) (d d' : Directory) (o : Nat) (nm : Name) : Prop where
  sound : Sound bs d'
  size : d.size ≤ d'.size
  recs : ∀ p, Rec bs d' p ↔ Rec bs d p ∨ p = o
  free : Rec bs d o → d.inode o = 0
  inode : d'.inode o = 0
  name : d'.name o = nm
  nameLen : d'.nameLen o = nm.length
  same : ∀ p, Rec bs d p → p ≠ o → Same d d' p

/-- The last three stores of `ext2_add_entry`, to the record that takes the name. -/
def putName (d : Directory) (o : Nat) (nm : Name) : Directory :=
  ((d.setInode o 0).setNameLen o nm.length).setName o nm

theorem putName_data (h : x < o ∨ o + 4 ≤ x ∧ x < o + 6 ∨ o + 8 + nm.length ≤ x) :
    (d.putName o nm).data x = d.data x := by
  rw [putName, setName_data (by omega), setNameLen_data (by omega), setInode_data (by omega)]

theorem inode_putName : (d.putName o nm).inode o = 0 := by
  rw [putName, inode_congr (d := d.setInode o 0), inode_setInode_self (by omega)]
  intro x _ _
  rw [setName_data (by omega), setNameLen_data (by omega)]

theorem recLen_putName : (d.putName o nm).recLen o = d.recLen o :=
  recLen_congr fun _ _ _ => putName_data (by omega)

theorem nameLen_putName (h : nm.length ≤ nameMax) : (d.putName o nm).nameLen o = nm.length := by
  rw [putName, nameLen_congr (d := (d.setInode o 0).setNameLen o nm.length),
    nameLen_setNameLen_self (by rw [nameMax] at h; omega)]
  intro x _ _
  exact setName_data (by omega)

theorem name_putName (h : nm.length ≤ nameMax) : (d.putName o nm).name o = nm := by
  rw [name, nameLen_putName h]
  exact peek_poke_self

theorem fillSlot_of_free (h : d.inode o = 0) : d.fillSlot o nm = (d.putName o nm, o) := by
  simp [fillSlot, putName, h]

/-- The record at `o` is cut behind what its name needs. -/
def cutAt (d : Directory) (o : Nat) : Directory :=
  (d.setRecLen (o + dirRecLen (d.nameLen o)) (d.recLen o - dirRecLen (d.nameLen o))).setRecLen o
    (dirRecLen (d.nameLen o))

theorem fillSlot_of_used (h : d.inode o ≠ 0) :
    d.fillSlot o nm =
      ((d.cutAt o).putName (o + dirRecLen (d.nameLen o)) nm, o + dirRecLen (d.nameLen o)) := by
  simp [fillSlot, putName, cutAt, h]

theorem cutAt_data (h : x < o + 4 ∨ o + 6 ≤ x)
    (h' : x < o + dirRecLen (d.nameLen o) + 4 ∨ o + dirRecLen (d.nameLen o) + 6 ≤ x) :
    (d.cutAt o).data x = d.data x := by
  rw [cutAt, setRecLen_data h, setRecLen_data h']

theorem filled_of_free (h : Sound bs d) (ho : Rec bs d o) (hfree : d.inode o = 0)
    (hfit : dirRecLen nm.length ≤ d.recLen o) (hname : nm.length ≤ nameMax) :
    Filled bs d (d.putName o nm) o nm := by
  have hneed := le_dirRecLen nm.length
  have hdata : ∀ p, Rec bs d p → p ≠ o → ∀ x, p ≤ x → x < p + dirRecLen (d.nameLen p) →
      (d.putName o nm).data x = d.data x := by
    intro p hp hne x hx hlt
    have := h.apart ho hp hne hx hlt
    exact putName_data (by omega)
  have hrec : ∀ p, Rec bs d p → (d.putName o nm).recLen p = d.recLen p := by
    intro p hp
    by_cases hne : p = o
    · rw [hne]
      exact recLen_putName
    · have := le_dirRecLen (d.nameLen p)
      exact recLen_congr fun x _ _ => hdata p hp hne x (by omega) (by omega)
  have hsame : ∀ p, Rec bs d p → p ≠ o → Same d (d.putName o nm) p := fun p hp hne =>
    .of_data fun x hx hlt _ => hdata p hp hne x hx hlt
  have hiff : ∀ p, Rec bs (d.putName o nm) p ↔ Rec bs d p := fun p => rec_congr hrec
  refine ⟨⟨h.block, h.tiled.congr hrec, ?_, ?_, ?_, ?_⟩, le_rfl, ?_, fun _ => hfree, inode_putName,
    name_putName hname, nameLen_putName hname, hsame⟩
  · intro p hp
    rw [hrec p ((hiff p).1 hp)]
    exact h.min ((hiff p).1 hp)
  · intro p hp
    rw [hrec p ((hiff p).1 hp)]
    exact h.mod ((hiff p).1 hp)
  · intro p hp
    rw [hrec p ((hiff p).1 hp)]
    by_cases hne : p = o
    · subst hne
      rw [nameLen_putName hname]
      exact hfit
    · rw [(hsame p ((hiff p).1 hp) hne).nameLen]
      exact h.fits ((hiff p).1 hp)
  · intro p hp hinode
    by_cases hne : p = o
    · subst hne
      exact absurd inode_putName hinode
    · have hs := hsame p ((hiff p).1 hp) hne
      rw [hs.nameLen]
      rw [hs.inode] at hinode
      exact h.named ((hiff p).1 hp) hinode
  · intro p
    rw [hiff p]
    constructor
    · exact .inl
    · rintro (hp | rfl)
      · exact hp
      · exact ho

/-- The space behind a record in use takes the name. -/
theorem filled_of_used (h : Sound bs d) (ho : Rec bs d o) (hused : d.inode o ≠ 0)
    (hfit : dirRecLen (d.nameLen o) + dirRecLen nm.length ≤ d.recLen o)
    (hname : nm.length ≤ nameMax) (hne : 0 < nm.length) :
    Filled bs d ((d.cutAt o).putName (o + dirRecLen (d.nameLen o)) nm)
      (o + dirRecLen (d.nameLen o)) nm := by
  have hr := twelve_le_dirRecLen (h.named ho hused)
  have hneed := twelve_le_dirRecLen hne
  have hneed' := le_dirRecLen nm.length
  have hle := h.recLen_le ho
  have hbs := h.bs_le
  have hmod := h.mod ho
  have hmod₁ := dirRecLen_mod (d.nameLen o)
  generalize hrdef : dirRecLen (d.nameLen o) = r at *
  generalize hddef : (d.cutAt o).putName (o + r) nm = d'
  -- the stores are to the length of the record and behind what its name needs
  have hdata : ∀ x, x < o + 4 ∨ o + 6 ≤ x ∧ x < o + r ∨ o + d.recLen o ≤ x →
      d'.data x = d.data x := by
    intro x hx
    rw [← hddef, putName_data (by omega), cutAt_data (by omega) (by omega)]
  have hlen : d'.recLen o = r := by
    rw [← hddef, recLen_congr (d := d.cutAt o) fun x _ _ => putName_data (by omega), cutAt,
      hrdef, recLen_setRecLen_self (by omega)]
  have hrest : d'.recLen (o + r) = d.recLen o - r := by
    rw [← hddef, recLen_putName, cutAt, hrdef]
    rw [recLen_congr fun x _ _ => setRecLen_data (by omega), recLen_setRecLen_self (by omega)]
  have hsize : d'.size = d.size := by rw [← hddef]; rfl
  have hother : ∀ p, Rec bs d p → p ≠ o → ∀ x, p ≤ x → x < p + dirRecLen (d.nameLen p) →
      d'.data x = d.data x := by
    intro p hp hpo x hx hlt
    have := h.apart ho hp hpo hx hlt
    exact hdata x (by omega)
  have hrec : ∀ p, Rec bs d p → p ≠ o → d'.recLen p = d.recLen p := by
    intro p hp hpo
    have := le_dirRecLen (d.nameLen p)
    exact recLen_congr fun x _ _ => hother p hp hpo x (by omega) (by omega)
  have hsame : ∀ p, Rec bs d p → p ≠ o + r → Same d d' p := by
    intro p hp _
    by_cases hpo : p = o
    · subst hpo
      exact .of_data fun x hx hlt hx' => hdata x (by omega)
    · exact .of_data fun x hx hlt _ => hother p hp hpo x hx hlt
  have hiff : ∀ p, Rec bs d' p ↔ Rec bs d p ∨ p = o + r := by
    intro p
    rw [Rec, hsize]
    exact h.tiled.rec_split ho (by omega) (by omega) hlen hrest hrec
  have hnot : ¬ Rec bs d (o + r) := h.tiled.not_rec_of_inside ho (by omega) (by omega)
  refine ⟨⟨h.block, ?_, ?_, ?_, ?_, ?_⟩, hsize.ge, hiff, fun hc => absurd hc hnot, ?_, ?_, ?_,
    hsame⟩
  · rw [hsize]
    exact h.tiled.split ho (by omega) (by omega) hlen hrest hrec
  · intro p hp
    rcases (hiff p).1 hp with hp | rfl
    · by_cases hpo : p = o
      · subst hpo
        omega
      · rw [hrec p hp hpo]
        exact h.min hp
    · omega
  · intro p hp
    rcases (hiff p).1 hp with hp | rfl
    · by_cases hpo : p = o
      · subst hpo
        omega
      · rw [hrec p hp hpo]
        exact h.mod hp
    · omega
  · intro p hp
    rcases (hiff p).1 hp with hp | rfl
    · rw [(hsame p hp fun hc => hnot (hc ▸ hp)).nameLen]
      by_cases hpo : p = o
      · subst hpo
        omega
      · rw [hrec p hp hpo]
        exact h.fits hp
    · rw [← hddef, nameLen_putName hname, hddef]
      omega
  · intro p hp hinode
    rcases (hiff p).1 hp with hp | rfl
    · have hs := hsame p hp fun hc => hnot (hc ▸ hp)
      rw [hs.nameLen]
      rw [hs.inode] at hinode
      exact h.named hp hinode
    · rw [← hddef] at hinode
      exact absurd inode_putName hinode
  · rw [← hddef]
    exact inode_putName
  · rw [← hddef]
    exact name_putName hname
  · rw [← hddef]
    exact nameLen_putName hname

/-- The record has room for the name. -/
def Fits (d : Directory) (o : Nat) (nm : Name) : Prop :=
  d.inode o = 0 ∧ dirRecLen nm.length ≤ d.recLen o ∨
    dirRecLen (d.nameLen o) + dirRecLen nm.length ≤ d.recLen o

/-- **A slot is prepared.** -/
theorem fillSlot_filled (h : Sound bs d) (ho : Rec bs d o) (hfit : d.Fits o nm)
    (hname : nm.length ≤ nameMax) (hne : 0 < nm.length) :
    Filled bs d (d.fillSlot o nm).1 (d.fillSlot o nm).2 nm := by
  by_cases hused : d.inode o = 0
  · rw [fillSlot_of_free hused]
    refine filled_of_free h ho hused ?_ hname
    rcases hfit with hfit | hfit <;> omega
  · rw [fillSlot_of_used hused]
    refine filled_of_used h ho hused ?_ hname hne
    rcases hfit with hfit | hfit
    · exact absurd hfit.1 hused
    · exact hfit

/-! ## A new block -/

theorem newBlock_data (h : x < o) : (d.newBlock bs o).data x = d.data x := by
  rw [newBlock]
  exact (setRecLen_data (by omega)).trans ((setInode_data (by omega)).trans
    (poke_of_apart (by omega)))

theorem newBlock_data_zero (hx : o + 6 ≤ x) (hlt : x < o + bs) :
    (d.newBlock bs o).data x = 0 := by
  rw [newBlock]
  refine (setRecLen_data (by omega)).trans ((setInode_data (by omega)).trans ?_)
  simp only [poke, List.length_replicate]
  rw [if_pos ⟨by omega, hlt⟩]
  simp [List.getD, show x - o < bs by omega]

/-- The block behind the last one is one free record. -/
theorem newBlock_spec (h : Sound bs d) :
    Sound bs (d.newBlock bs d.size) ∧
      (∀ p, Rec bs (d.newBlock bs d.size) p ↔ Rec bs d p ∨ p = d.size) ∧
      (d.newBlock bs d.size).inode d.size = 0 ∧ (d.newBlock bs d.size).recLen d.size = bs ∧
      ∀ p, Rec bs d p → Same d (d.newBlock bs d.size) p := by
  have hbs : 1024 ≤ bs := by rcases h.block with rfl | rfl | rfl <;> omega
  have hbs' := h.bs_le
  have hlen : (d.newBlock bs d.size).recLen d.size = bs := recLen_setRecLen_self (by omega)
  have hinode : (d.newBlock bs d.size).inode d.size = 0 := by
    rw [newBlock]
    exact (inode_congr fun x _ _ => setRecLen_data (by omega)).trans
      (inode_setInode_self (by omega))
  have hname : (d.newBlock bs d.size).nameLen d.size = 0 := by
    have h6 := newBlock_data_zero (d := d) (o := d.size) (x := d.size + 6) le_rfl
      (show _ < _ + bs by omega)
    have h7 := newBlock_data_zero (d := d) (o := d.size) (x := d.size + 6 + 1) (by omega)
      (show _ < _ + bs by omega)
    simp [nameLen, getLE, peek, ofLE, h6, h7]
  have hdata : ∀ p, Rec bs d p → ∀ x, x < p + dirRecLen (d.nameLen p) →
      (d.newBlock bs d.size).data x = d.data x := by
    intro p hp x hx
    have := hp.end_le_blk h.tiled
    have := hp.blk_add_le_size h.tiled
    have := h.fits hp
    exact newBlock_data (by omega)
  have hrec : ∀ p, Rec bs d p → (d.newBlock bs d.size).recLen p = d.recLen p := by
    intro p hp
    have := le_dirRecLen (d.nameLen p)
    exact recLen_congr fun x _ _ => hdata p hp x (by omega)
  have hsame : ∀ p, Rec bs d p → Same d (d.newBlock bs d.size) p := fun p hp =>
    .of_data fun x _ hlt _ => hdata p hp x hlt
  have hiff : ∀ p, Rec bs (d.newBlock bs d.size) p ↔ Rec bs d p ∨ p = d.size := fun p =>
    h.tiled.rec_grow hlen hrec
  refine ⟨⟨h.block, h.tiled.grow hlen hrec, ?_, ?_, ?_, ?_⟩, hiff, hinode, hlen, hsame⟩
  · intro p hp
    rcases (hiff p).1 hp with hp | rfl
    · rw [hrec p hp]
      exact h.min hp
    · omega
  · intro p hp
    rcases (hiff p).1 hp with hp | rfl
    · rw [hrec p hp]
      exact h.mod hp
    · rcases h.block with rfl | rfl | rfl <;> rw [hlen]
  · intro p hp
    rcases (hiff p).1 hp with hp | rfl
    · rw [hrec p hp, (hsame p hp).nameLen]
      exact h.fits hp
    · rw [hlen, hname, show dirRecLen 0 = 8 from rfl]
      omega
  · intro p hp hin
    rcases (hiff p).1 hp with hp | rfl
    · rw [(hsame p hp).nameLen]
      rw [(hsame p hp).inode] at hin
      exact h.named hp hin
    · exact absurd hinode hin

theorem fillSlot_newBlock (h : Sound bs d) (hname : nm.length ≤ nameMax) (hne : 0 < nm.length) :
    Filled bs d ((d.newBlock bs d.size).fillSlot d.size nm).1
      ((d.newBlock bs d.size).fillSlot d.size nm).2 nm := by
  obtain ⟨hsound, hrecs, hfree, hlen, hsame⟩ := newBlock_spec h
  have hbs : 1024 ≤ bs := by rcases h.block with rfl | rfl | rfl <;> omega
  have hneed : dirRecLen nm.length ≤ bs := by
    rw [dirRecLen]
    rw [nameMax] at hname
    omega
  have hslot := (hrecs d.size).2 (.inr rfl)
  have hfit : (d.newBlock bs d.size).Fits d.size nm := .inl ⟨hfree, by rw [hlen]; exact hneed⟩
  have hf := fillSlot_filled hsound hslot hfit hname hne
  rw [fillSlot_of_free hfree] at hf ⊢
  refine ⟨hf.sound, Nat.le_add_right _ _, ?_, ?_, hf.inode, hf.name, hf.nameLen, ?_⟩
  · intro p
    rw [hf.recs p, hrecs p, or_assoc, or_self]
  · intro hc
    exact absurd (h.lt_size hc) (lt_irrefl _)
  · intro p hp hne'
    exact (hsame p hp).trans (hf.same p ((hrecs p).2 (.inl hp)) hne')

/-! ## Taking a record out -/

/-- The directory `d'` is `d` without the record at `o`: it belongs to the one before it, or it is
free. -/
structure Deleted (bs : Nat) (d d' : Directory) (o : Nat) : Prop where
  sound : Sound bs d'
  size : d'.size = d.size
  recs : ∀ p, p ≠ o → (Rec bs d' p ↔ Rec bs d p)
  gone : Rec bs d' o → d'.inode o = 0
  same : ∀ p, Rec bs d p → p ≠ o → Same d d' p

theorem deleted_of_first (h : Sound bs d) (ho : Rec bs d o) : Deleted bs d (d.setInode o 0) o where
  sound := (h.setInode ho (absurd rfl)).1
  size := rfl
  recs := fun p _ => (h.setInode ho (absurd rfl)).2 p
  gone := fun _ => inode_setInode_self (by omega)
  same := fun _ hp hne => h.same_setInode ho hp hne

/-- Another record is joined to the one before it. -/
theorem deleted_of_pred (h : Sound bs d) (hq : Rec bs d q) (ho : Rec bs d o)
    (hqo : q + d.recLen q = o) (hdvd : ¬ bs ∣ o) :
    Deleted bs d (d.setRecLen q (d.recLen q + d.recLen o)) o := by
  have hqpos := h.min hq
  have hend : q % bs + (d.recLen q + d.recLen o) ≤ bs := by
    have hblk : blk bs o = blk bs q := by
      rw [← hqo] at hdvd ⊢
      exact hq.blk_next h.tiled hdvd
    have := ho.end_le_blk h.tiled
    have := blk_add_mod bs q
    omega
  have hbs := h.bs_le
  generalize hddef : d.setRecLen q (d.recLen q + d.recLen o) = d'
  have hlen : d'.recLen q = d.recLen q + d.recLen o := by
    rw [← hddef]
    exact recLen_setRecLen_self (by omega)
  have hdata : ∀ x, x < q + 4 ∨ q + 6 ≤ x → d'.data x = d.data x := by
    intro x hx
    rw [← hddef]
    exact setRecLen_data hx
  have hsize : d'.size = d.size := by rw [← hddef]; rfl
  have hsame : ∀ p, Rec bs d p → Same d d' p := by
    intro p hp
    refine .of_data fun x hx hlt hx' => hdata x ?_
    by_cases hpq : p = q
    · subst hpq
      omega
    · have := h.apart hq hp hpq hx hlt
      omega
  have hrec : ∀ p, Rec bs d p → p ≠ q → p ≠ o → d'.recLen p = d.recLen p := by
    intro p hp hpq _
    have := le_dirRecLen (d.nameLen p)
    refine recLen_congr fun x hx hlt => hdata x ?_
    have := h.apart hq hp hpq (x := x) (by omega) (by omega)
    omega
  have hiff : ∀ p, Rec bs d' p ↔ Rec bs d p ∧ p ≠ o := by
    intro p
    rw [Rec, hsize]
    exact h.tiled.rec_merge hq ho hqo hdvd hlen hrec
  refine ⟨⟨h.block, ?_, ?_, ?_, ?_, ?_⟩, hsize, ?_, ?_, fun p hp _ => hsame p hp⟩
  · rw [hsize]
    exact h.tiled.merge hq ho hqo hdvd hlen hrec
  · intro p hp
    obtain ⟨hp, hpo⟩ := (hiff p).1 hp
    by_cases hpq : p = q
    · subst hpq
      omega
    · rw [hrec p hp hpq hpo]
      exact h.min hp
  · intro p hp
    obtain ⟨hp, hpo⟩ := (hiff p).1 hp
    by_cases hpq : p = q
    · subst hpq
      have := h.mod hp
      have := h.mod ho
      omega
    · rw [hrec p hp hpq hpo]
      exact h.mod hp
  · intro p hp
    obtain ⟨hp, hpo⟩ := (hiff p).1 hp
    rw [(hsame p hp).nameLen]
    have := h.fits hp
    by_cases hpq : p = q
    · subst hpq
      omega
    · rw [hrec p hp hpq hpo]
      exact h.fits hp
  · intro p hp hinode
    obtain ⟨hp, -⟩ := (hiff p).1 hp
    rw [(hsame p hp).nameLen]
    rw [(hsame p hp).inode] at hinode
    exact h.named hp hinode
  · intro p hpo
    rw [hiff p]
    exact ⟨And.left, fun hp => ⟨hp, hpo⟩⟩
  · intro hc
    exact absurd rfl ((hiff o).1 hc).2

theorem deleteLoop_of_rec (h : Sound bs d) (hp : Rec bs d p) {n : Nat} {pde : Option Nat}
    (ho : Rec bs d o) (hle : o ≤ p) (hblk : blk bs o = blk bs p) (hn : p < o + n)
    (hpde : pde = none ∧ bs ∣ o ∨
      ∃ q, pde = some q ∧ Rec bs d q ∧ q + d.recLen q = o ∧ ¬ bs ∣ o) :
    ∃ d', d.deleteLoop bs (blk bs p) p n pde o = (0, d') ∧ Deleted bs d d' p := by
  induction n generalizing o pde with
  | zero => omega
  | succ n ih =>
    have hlt := lt_blk_add (o := o) h.tiled.bs_pos
    rw [deleteLoop, if_neg (by omega), if_neg (by simp [h.check ho])]
    by_cases hop : o = p
    · subst hop
      rw [if_pos rfl]
      rcases hpde with ⟨rfl, -⟩ | ⟨q, rfl, hq, hqo, hdvd⟩
      · exact ⟨_, rfl, deleted_of_first h hp⟩
      · exact ⟨_, rfl, deleted_of_pred h hq hp hqo hdvd⟩
    · rw [if_neg hop]
      have hend := ho.end_le hp h.tiled (by omega)
      have hpos := h.min ho
      have hnext : ¬ bs ∣ o + d.recLen o := by
        intro hdvd
        have := add_le_of_dvd dvd_blk hdvd (lt_of_le_of_lt (blk_le (o := o)) (by omega))
        have := lt_blk_add (o := p) h.tiled.bs_pos
        omega
      exact ih (ho.next hnext) hend ((ho.blk_next h.tiled hnext).trans hblk) (by omega)
        (.inr ⟨o, rfl, ho, rfl, hnext⟩)

/-- **A record is taken out.** -/
theorem deleteEntry_deleted (h : Sound bs d) (ho : Rec bs d o) :
    ∃ d', d.deleteEntry bs o = (0, d') ∧ Deleted bs d d' o :=
  deleteLoop_of_rec h ho (ho.blk_rec h.tiled) blk_le (blk_of_dvd h.tiled.bs_pos dvd_blk)
    (lt_blk_add h.tiled.bs_pos) (.inl ⟨rfl, dvd_blk⟩)

end LinuxEvocation.Ext2.Directory
