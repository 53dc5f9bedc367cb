import Mathlib.Tactic

/-!
# Hierarchies of directories with counted links

Files and directories are numbered.  A directory holds two entries of its own, one for itself and
one for its parent, and entries with names, its *kids*; each inode counts the entries that name it.
A directory that was removed but is still in use holds nothing: it is not *living*.

* `Hier` — such a hierarchy.
* `linksTo` — the entries that name an inode.
* `Sound` — the counts are right, and every directory but the root is a kid of its parent, once.
* `alloc`, `free`, `addFile`, `removeFile`, `moveFile`, `mkdir`, `rmdir`, `moveDir` — the changes,
  each with the theorem that it keeps `Sound`.
* `Rooted` — every directory has the root above it, and what keeps that.
-/

namespace Hierarchy

open Function (update update_eq_self update_of_ne update_self)

/-- A hierarchy, with names of type `ν`. -/
structure Hier (ν : Type*) where
  used : ℕ → Prop
  isDir : ℕ → Prop
  living : ℕ → Prop
  parent : ℕ → ℕ
  kids : ℕ → Multiset (ν × ℕ)
  nlink : ℕ → ℕ

variable {ν : Type*} {N root d e i j dir : ℕ} {nm : ν} {h h' : Hier ν}

/-- One if the numbers are equal. -/
def one (i j : ℕ) : ℕ := if i = j then 1 else 0

@[simp]
theorem one_self (i : ℕ) : one i i = 1 := if_pos rfl

theorem one_of_ne (h : i ≠ j) : one i j = 0 := if_neg h

/-- How many kids are named `i`. -/
def named (k : Multiset (ν × ℕ)) (i : ℕ) : ℕ := k.countP fun e => e.2 = i

@[simp]
theorem named_zero (i : ℕ) : named (0 : Multiset (ν × ℕ)) i = 0 := Multiset.countP_zero _

theorem named_cons (k : Multiset (ν × ℕ)) (x : ν × ℕ) (i : ℕ) :
    named (x ::ₘ k) i = named k i + one x.2 i := by
  rw [named, Multiset.countP_cons, named, one]

variable {k : Multiset (ν × ℕ)}

theorem named_pos_of_mem (hx : (nm, i) ∈ k) : 0 < named k i :=
  Multiset.countP_pos.2 ⟨_, hx, rfl⟩

theorem exists_mem_of_named_pos (hx : 0 < named k i) :
    ∃ nm, (nm, i) ∈ k := by
  obtain ⟨⟨nm, j⟩, hmem, rfl⟩ := Multiset.countP_pos.1 hx
  exact ⟨nm, hmem⟩

theorem named_erase [DecidableEq ν] {x : ν × ℕ} (hx : x ∈ k) (i : ℕ) :
    named (k.erase x) i + one x.2 i = named k i := by
  rw [← named_cons, Multiset.cons_erase hx]

/-! ### One entry more or less -/

section Entries

variable {ks : ℕ → Multiset (ν × ℕ)} {x y : ν × ℕ} {f : ℕ → ℕ}

theorem named_cons_kids (ks : ℕ → Multiset (ν × ℕ)) (dir : ℕ) (x : ν × ℕ) (d e : ℕ) :
    named (update ks dir (x ::ₘ ks dir) d) e = named (ks d) e + one dir d * one x.2 e := by
  by_cases hd : d = dir
  · rw [hd, update_self, named_cons, one_self, Nat.one_mul]
  · rw [update_of_ne hd, one_of_ne (Ne.symm hd), Nat.zero_mul, Nat.add_zero]

theorem mem_cons_kids (hy : y ∈ update ks dir (x ::ₘ ks dir) d) : d = dir ∧ y = x ∨ y ∈ ks d := by
  by_cases hd : d = dir
  · subst hd
    rw [update_self, Multiset.mem_cons] at hy
    exact hy.imp_left fun heq => ⟨rfl, heq⟩
  · rw [update_of_ne hd] at hy
    exact .inr hy

theorem named_erase_kids [DecidableEq ν] (hx : x ∈ ks dir) (d e : ℕ) :
    named (update ks dir ((ks dir).erase x) d) e + one dir d * one x.2 e = named (ks d) e := by
  by_cases hd : d = dir
  · rw [hd, update_self, one_self, Nat.one_mul]
    exact named_erase hx e
  · rw [update_of_ne hd, one_of_ne (Ne.symm hd), Nat.zero_mul, Nat.add_zero]

theorem mem_of_erase_kids [DecidableEq ν] (hy : y ∈ update ks dir ((ks dir).erase x) d) :
    y ∈ ks d := by
  by_cases hd : d = dir
  · subst hd
    rw [update_self] at hy
    exact Multiset.mem_of_mem_erase hy
  · rwa [update_of_ne hd] at hy

theorem update_succ (f : ℕ → ℕ) (i j : ℕ) : update f i (f i + 1) j = f j + one i j := by
  by_cases hj : j = i
  · rw [hj, update_self, one_self]
  · rw [update_of_ne hj, one_of_ne (Ne.symm hj), Nat.add_zero]

theorem update_pred (hf : 0 < f i) (j : ℕ) : update f i (f i - 1) j + one i j = f j := by
  by_cases hj : j = i
  · rw [hj, update_self, one_self, Nat.sub_add_cancel hf]
  · rw [update_of_ne hj, one_of_ne (Ne.symm hj), Nat.add_zero]

end Entries

section Links

open Classical in
/-- The entries of the directory `d` that name `i`. -/
noncomputable def linksFrom (h : Hier ν) (d i : ℕ) : ℕ :=
  (if h.living d then one d i + one (h.parent d) i else 0) + named (h.kids d) i

/-- The entries that name `i`. -/
noncomputable def linksTo (N : ℕ) (h : Hier ν) (i : ℕ) : ℕ :=
  ∑ d ∈ Finset.range N, linksFrom h d i

theorem linksFrom_of_living (hd : h.living d) (i : ℕ) :
    linksFrom h d i = one d i + one (h.parent d) i + named (h.kids d) i := by
  rw [linksFrom, if_pos hd]

theorem linksFrom_of_not_living (hd : ¬ h.living d) (i : ℕ) :
    linksFrom h d i = named (h.kids d) i := by
  rw [linksFrom, if_neg hd, Nat.zero_add]

theorem linksFrom_le (hd : d < N) (i : ℕ) : linksFrom h d i ≤ linksTo N h i :=
  Finset.single_le_sum (f := fun d => linksFrom h d i) (fun _ _ => Nat.zero_le _)
    (Finset.mem_range.2 hd)

/-- Two hierarchies whose directories differ by known numbers of entries. -/
theorem linksTo_add {a r : ℕ → ℕ} (heq : ∀ d, linksFrom h' d i + r d = linksFrom h d i + a d) :
    linksTo N h' i + ∑ d ∈ Finset.range N, r d = linksTo N h i + ∑ d ∈ Finset.range N, a d := by
  rw [linksTo, linksTo, ← Finset.sum_add_distrib, ← Finset.sum_add_distrib]
  exact Finset.sum_congr rfl fun d _ => heq d

theorem sum_one_mul (hd : dir < N) (c : ℕ) : ∑ d ∈ Finset.range N, one dir d * c = c := by
  rw [Finset.sum_eq_single dir]
  · rw [one_self, Nat.one_mul]
  · intro b _ hb
    rw [one_of_ne hb.symm, Nat.zero_mul]
  · intro hc
    exact absurd (Finset.mem_range.2 hd) hc

end Links

/-! ## Sound hierarchies -/

/-- The counts are right, and the directories form a hierarchy over the numbers below `N`. -/
structure Sound (N root : ℕ) (h : Hier ν) : Prop where
  bound : ∀ {i}, h.used i → i < N
  living_used : ∀ {d}, h.living d → h.used d ∧ h.isDir d
  dead : ∀ {d}, h.used d → h.isDir d → ¬ h.living d → h.nlink d = 0
  kids_dead : ∀ {d}, ¬ h.living d → h.kids d = 0
  parent_living : ∀ {d}, h.living d → h.living (h.parent d)
  kid_used : ∀ {d nm e}, (nm, e) ∈ h.kids d → h.used e
  kid_ne : ∀ {d nm e}, (nm, e) ∈ h.kids d → e ≠ d
  kid_ne_root : ∀ {d nm e}, (nm, e) ∈ h.kids d → e ≠ root
  kid_dir : ∀ {d nm e}, (nm, e) ∈ h.kids d → h.isDir e → h.living e ∧ h.parent e = d
  kid_once : ∀ {e}, h.living e → e ≠ root → named (h.kids (h.parent e)) e = 1
  root_living : h.living root
  root_parent : h.parent root = root
  links : ∀ {i}, h.used i → h.nlink i = linksTo N h i

namespace Sound

variable (hs : Sound N root h)

include hs

theorem living_lt (hd : h.living d) : d < N := hs.bound (hs.living_used hd).1

theorem living_of_kid (hk : (nm, e) ∈ h.kids d) : h.living d := by
  by_contra hc
  rw [hs.kids_dead hc] at hk
  exact absurd hk (Multiset.notMem_zero _)

/-- A directory but the root is a kid of its parent. -/
theorem exists_kid (hd : h.living d) (hne : d ≠ root) : ∃ nm, (nm, d) ∈ h.kids (h.parent d) :=
  exists_mem_of_named_pos (by rw [hs.kid_once hd hne]; exact Nat.one_pos)

theorem nlink_pos_of_kid (hk : (nm, e) ∈ h.kids d) : 0 < h.nlink e := by
  rw [hs.links (hs.kid_used hk)]
  have hle := linksFrom_le (h := h) (hs.living_lt (hs.living_of_kid hk)) e
  rw [linksFrom] at hle
  have := named_pos_of_mem hk
  omega

theorem nlink_pos_of_living (hd : h.living d) : 0 < h.nlink d := by
  rw [hs.links (hs.living_used hd).1]
  have hle := linksFrom_le (h := h) (hs.living_lt hd) d
  rw [linksFrom_of_living hd, one_self] at hle
  omega

/-- No entry names what is not in use. -/
theorem linksTo_of_not_used (hi : ¬ h.used i) : linksTo N h i = 0 := by
  refine Finset.sum_eq_zero fun d _ => ?_
  have hkid : named (h.kids d) i = 0 := by
    by_contra hc
    obtain ⟨nm, hk⟩ := exists_mem_of_named_pos (Nat.pos_of_ne_zero hc)
    exact hi (hs.kid_used hk)
  by_cases hd : h.living d
  · have hdi : d ≠ i := by
      rintro rfl
      exact hi (hs.living_used hd).1
    have hpi : h.parent d ≠ i := by
      rintro rfl
      exact hi (hs.living_used (hs.parent_living hd)).1
    simp [linksFrom_of_living hd, hkid, one_of_ne hdi, one_of_ne hpi]
  · rw [linksFrom_of_not_living hd, hkid]

/-- An empty directory has two links: the entry that names it, and its own. -/
theorem linksTo_of_empty (hk : (nm, e) ∈ h.kids d) (hdir : h.isDir e) (hempty : h.kids e = 0) :
    linksTo N h e = 2 := by
  obtain ⟨hliving, hparent⟩ := hs.kid_dir hk hdir
  have hne := hs.kid_ne hk
  have hroot := hs.kid_ne_root hk
  have hfrom : ∀ c, linksFrom h c e = one e c * 1 + one d c * 1 := by
    intro c
    -- a directory that has `e` as its parent would be a kid of `e`
    have hpar : h.living c → h.parent c ≠ e := by
      intro hc hce
      have hcroot : c ≠ root := by
        rintro rfl
        exact hroot (hce.symm.trans hs.root_parent)
      obtain ⟨nm', hk'⟩ := hs.exists_kid hc hcroot
      rw [hce, hempty] at hk'
      exact absurd hk' (Multiset.notMem_zero _)
    have hkids : named (h.kids c) e = one d c := by
      by_cases hcd : c = d
      · subst hcd
        rw [one_self, ← hparent]
        exact hs.kid_once hliving hroot
      · rw [one_of_ne (Ne.symm hcd)]
        by_contra hc
        obtain ⟨nm', hk'⟩ := exists_mem_of_named_pos (Nat.pos_of_ne_zero hc)
        exact hcd ((hs.kid_dir hk' hdir).2.symm.trans hparent)
    rw [Nat.mul_one, Nat.mul_one]
    by_cases hc : h.living c
    · rw [linksFrom_of_living hc, hkids, one_of_ne (hpar hc)]
      by_cases hce : c = e
      · rw [hce]
        omega
      · rw [one_of_ne hce, one_of_ne (Ne.symm hce)]
    · have hce : e ≠ c := by
        rintro rfl
        exact hc hliving
      rw [linksFrom_of_not_living hc, hkids, one_of_ne hce]
      omega
  rw [linksTo, Finset.sum_congr rfl fun c _ => hfrom c, Finset.sum_add_distrib,
    sum_one_mul (hs.living_lt hliving), sum_one_mul (hs.living_lt (hs.living_of_kid hk))]

end Sound

/-! ## Inodes come into use and go out of it -/

/-- A file without links. -/
def alloc (h : Hier ν) (i : ℕ) : Hier ν :=
  { h with
    used := update h.used i True
    isDir := update h.isDir i False
    nlink := update h.nlink i 0 }

/-- An inode without links goes out of use. -/
def free (h : Hier ν) (i : ℕ) : Hier ν :=
  { h with
    used := update h.used i False
    isDir := update h.isDir i False }

theorem Sound.alloc (hs : Sound N root h) (hi : ¬ h.used i) (hlt : i < N) :
    Sound N root (alloc h i) := by
  have hused : ∀ {j}, h.used j → j ≠ i := by
    rintro j hj rfl
    exact hi hj
  have hiff : ∀ {j}, (Hierarchy.alloc h i).used j ↔ j = i ∨ h.used j := by
    intro j
    by_cases hj : j = i <;> simp [Hierarchy.alloc, hj]
  have hdir : ∀ {j}, j ≠ i → ((Hierarchy.alloc h i).isDir j ↔ h.isDir j) := by
    intro j hj
    simp [Hierarchy.alloc, hj]
  have hnlink : ∀ {j}, j ≠ i → (Hierarchy.alloc h i).nlink j = h.nlink j := by
    intro j hj
    simp [Hierarchy.alloc, hj]
  refine ⟨?_, ?_, ?_, hs.kids_dead, hs.parent_living, ?_, hs.kid_ne, hs.kid_ne_root, ?_,
    hs.kid_once, hs.root_living, hs.root_parent, ?_⟩
  · intro j hj
    rcases hiff.1 hj with rfl | hj
    · exact hlt
    · exact hs.bound hj
  · intro d hd
    obtain ⟨hu, hdd⟩ := hs.living_used hd
    exact ⟨hiff.2 (.inr hu), (hdir (hused hu)).2 hdd⟩
  · intro d hu hdd hd
    rcases hiff.1 hu with rfl | hu
    · simp [Hierarchy.alloc] at hdd
    · rw [hnlink (hused hu)]
      exact hs.dead hu ((hdir (hused hu)).1 hdd) hd
  · intro d nm e hk
    exact hiff.2 (.inr (hs.kid_used hk))
  · intro d nm e hk hdd
    exact hs.kid_dir hk ((hdir (hused (hs.kid_used hk))).1 hdd)
  · intro j hj
    show _ = linksTo N h j
    rcases hiff.1 hj with rfl | hj
    · rw [hs.linksTo_of_not_used hi]
      simp [Hierarchy.alloc]
    · rw [hnlink (hused hj)]
      exact hs.links hj

theorem Sound.free (hs : Sound N root h) (hnlink : h.nlink i = 0) (hi : h.used i) :
    Sound N root (free h i) := by
  have hiff : ∀ {j}, (Hierarchy.free h i).used j ↔ h.used j ∧ j ≠ i := by
    intro j
    by_cases hj : j = i <;> simp [Hierarchy.free, hj]
  have hdir : ∀ {j}, (Hierarchy.free h i).isDir j ↔ h.isDir j ∧ j ≠ i := by
    intro j
    by_cases hj : j = i <;> simp [Hierarchy.free, hj]
  have hliving : ∀ {d}, h.living d → d ≠ i := by
    rintro d hd rfl
    have := hs.nlink_pos_of_living hd
    omega
  refine ⟨fun hj => hs.bound (hiff.1 hj).1, ?_, ?_, hs.kids_dead, hs.parent_living, ?_, hs.kid_ne,
    hs.kid_ne_root, ?_, hs.kid_once, hs.root_living, hs.root_parent,
    fun hj => hs.links (hiff.1 hj).1⟩
  · intro d hd
    obtain ⟨hu, hdd⟩ := hs.living_used hd
    exact ⟨hiff.2 ⟨hu, hliving hd⟩, hdir.2 ⟨hdd, hliving hd⟩⟩
  · intro d hu hdd hd
    exact hs.dead (hiff.1 hu).1 (hdir.1 hdd).1 hd
  · intro d nm e hk
    refine hiff.2 ⟨hs.kid_used hk, ?_⟩
    rintro rfl
    have := hs.nlink_pos_of_kid hk
    omega
  · intro d nm e hk he
    exact hs.kid_dir hk (hdir.1 he).1

/-! ## Files get links and lose them -/

/-- The directory gets an entry for the file. -/
def addFile (h : Hier ν) (dir : ℕ) (nm : ν) (i : ℕ) : Hier ν :=
  { h with
    kids := update h.kids dir ((nm, i) ::ₘ h.kids dir)
    nlink := update h.nlink i (h.nlink i + 1) }

/-- The directory loses an entry of the file. -/
def removeFile [DecidableEq ν] (h : Hier ν) (dir : ℕ) (nm : ν) (i : ℕ) : Hier ν :=
  { h with
    kids := update h.kids dir ((h.kids dir).erase (nm, i))
    nlink := update h.nlink i (h.nlink i - 1) }

/-- A change of the kids of one directory, by entries of files, with the counts of the files. -/
theorem Sound.of_kids (hs : Sound N root h) (hused : h'.used = h.used) (hisDir : h'.isDir = h.isDir)
    (hliving : h'.living = h.living) (hparent : h'.parent = h.parent)
    (hdead : ∀ {d}, ¬ h.living d → h'.kids d = 0)
    (hkid : ∀ {d nm e}, (nm, e) ∈ h'.kids d → h.used e ∧ (h.isDir e → (nm, e) ∈ h.kids d))
    (hnamed : ∀ d e, h.isDir e → named (h'.kids d) e = named (h.kids d) e)
    (hnlink : ∀ i, h.isDir i → h'.nlink i = h.nlink i)
    (hlinks : ∀ i, h.used i → h'.nlink i = linksTo N h' i) : Sound N root h' := by
  have hdirOf : ∀ {d nm e}, (nm, e) ∈ h'.kids d → h.living d := by
    intro d nm e hk
    by_contra hc
    rw [hdead hc] at hk
    exact absurd hk (Multiset.notMem_zero _)
  refine ⟨?_, ?_, ?_, ?_, ?_, ?_, ?_, ?_, ?_, ?_, ?_, ?_, ?_⟩
  · rw [hused]
    exact hs.bound
  · rw [hused, hisDir, hliving]
    exact hs.living_used
  · rw [hused, hisDir, hliving]
    intro d hu hd hl
    rw [hnlink d hd]
    exact hs.dead hu hd hl
  · rw [hliving]
    exact hdead
  · rw [hliving, hparent]
    exact hs.parent_living
  · rw [hused]
    exact fun hk => (hkid hk).1
  · intro d nm e hk
    by_cases hd : h.isDir e
    · exact hs.kid_ne ((hkid hk).2 hd)
    · rintro rfl
      exact hd (hs.living_used (hdirOf hk)).2
  · intro d nm e hk
    by_cases hd : h.isDir e
    · exact hs.kid_ne_root ((hkid hk).2 hd)
    · rintro rfl
      exact hd (hs.living_used hs.root_living).2
  · rw [hisDir, hliving, hparent]
    exact fun hk hd => hs.kid_dir ((hkid hk).2 hd) hd
  · rw [hliving, hparent]
    intro e he hne
    rw [hnamed _ _ (hs.living_used he).2]
    exact hs.kid_once he hne
  · rw [hliving]
    exact hs.root_living
  · rw [hparent]
    exact hs.root_parent
  · rw [hused]
    exact hlinks _

theorem Sound.addFile (hs : Sound N root h) (hdir : h.living dir) (hi : h.used i)
    (hfile : ¬ h.isDir i) : Sound N root (addFile h dir nm i) := by
  have hne : ∀ {e}, h.isDir e → i ≠ e := by
    rintro e he rfl
    exact hfile he
  have hnamed : ∀ d e, named ((Hierarchy.addFile h dir nm i).kids d) e =
      named (h.kids d) e + one dir d * one i e := named_cons_kids h.kids dir (nm, i)
  refine hs.of_kids rfl rfl rfl rfl ?_ ?_ ?_ ?_ ?_
  · refine fun hd => Multiset.eq_zero_of_forall_notMem fun ⟨nm', e⟩ hk => hd ?_
    rcases mem_cons_kids hk with ⟨rfl, -⟩ | hk
    · exact hdir
    · exact hs.living_of_kid hk
  · intro d nm' e hk
    rcases mem_cons_kids hk with ⟨-, heq⟩ | hk
    · obtain ⟨-, rfl⟩ := Prod.mk.inj heq
      exact ⟨hi, fun hc => absurd hc hfile⟩
    · exact ⟨hs.kid_used hk, fun _ => hk⟩
  · intro d e he
    rw [hnamed, one_of_ne (hne he), Nat.mul_zero, Nat.add_zero]
  · intro j hj
    exact update_of_ne (hne hj).symm _ _
  · intro j hj
    have hfrom : ∀ d, linksFrom (Hierarchy.addFile h dir nm i) d j + 0 =
        linksFrom h d j + one dir d * one i j := by
      intro d
      simp only [linksFrom, hnamed, Nat.add_zero]
      exact (Nat.add_assoc _ _ _).symm
    have hsum := linksTo_add (N := N) hfrom
    rw [sum_one_mul (hs.living_lt hdir), Finset.sum_const_zero, Nat.add_zero] at hsum
    rw [hsum, ← hs.links hj]
    exact update_succ h.nlink i j

theorem Sound.removeFile [DecidableEq ν] (hs : Sound N root h) (hk : (nm, i) ∈ h.kids dir)
    (hfile : ¬ h.isDir i) : Sound N root (removeFile h dir nm i) := by
  have hne : ∀ {e}, h.isDir e → i ≠ e := by
    rintro e he rfl
    exact hfile he
  have hnamed : ∀ d e, named ((Hierarchy.removeFile h dir nm i).kids d) e + one dir d * one i e =
      named (h.kids d) e := named_erase_kids hk
  refine hs.of_kids rfl rfl rfl rfl ?_ ?_ ?_ ?_ ?_
  · exact fun hd => Multiset.eq_zero_of_forall_notMem fun ⟨nm', e⟩ hk' =>
      hd (hs.living_of_kid (mem_of_erase_kids hk'))
  · exact fun hk' => ⟨hs.kid_used (mem_of_erase_kids hk'), fun _ => mem_of_erase_kids hk'⟩
  · intro d e he
    have := hnamed d e
    rwa [one_of_ne (hne he), Nat.mul_zero, Nat.add_zero] at this
  · intro j hj
    exact update_of_ne (hne hj).symm _ _
  · intro j hj
    have hfrom : ∀ d, linksFrom (Hierarchy.removeFile h dir nm i) d j + one dir d * one i j =
        linksFrom h d j + 0 := by
      intro d
      simp only [linksFrom, ← hnamed d j, Nat.add_zero]
      exact Nat.add_assoc _ _ _
    have hsum := linksTo_add (N := N) hfrom
    rw [sum_one_mul (hs.living_lt (hs.living_of_kid hk)), Finset.sum_const_zero, Nat.add_zero,
      ← hs.links hj] at hsum
    have hpred : (Hierarchy.removeFile h dir nm i).nlink j + one i j = h.nlink j :=
      update_pred (hs.nlink_pos_of_kid hk) j
    omega

/-- A file gets one entry and loses another. -/
def moveFile [DecidableEq ν] (h : Hier ν) (oldDir : ℕ) (oldName : ν) (newDir : ℕ) (newName : ν)
    (e : ℕ) : Hier ν :=
  let kids := update h.kids newDir ((newName, e) ::ₘ h.kids newDir)
  { h with kids := update kids oldDir ((kids oldDir).erase (oldName, e)) }

theorem moveFile_eq [DecidableEq ν] (h : Hier ν) (oldDir : ℕ) (oldName : ν) (newDir : ℕ)
    (newName : ν) (e : ℕ) :
    moveFile h oldDir oldName newDir newName e =
      removeFile (addFile h newDir newName e) oldDir oldName e := by
  simp only [moveFile, removeFile, addFile, Hier.mk.injEq, true_and]
  rw [update_self, Nat.add_sub_cancel, Function.update_idem, update_eq_self]

variable {oldDir newDir : ℕ} {oldName newName : ν}

theorem Sound.moveFile [DecidableEq ν] (hs : Sound N root h)
    (hk : (oldName, e) ∈ h.kids oldDir) (hfile : ¬ h.isDir e)
    (hnew : h.living newDir) : Sound N root (moveFile h oldDir oldName newDir newName e) := by
  rw [moveFile_eq]
  refine (hs.addFile hnew (hs.kid_used hk) hfile).removeFile ?_ hfile
  by_cases hon : oldDir = newDir
  · subst hon
    simp only [Hierarchy.addFile, update_self]
    exact Multiset.mem_cons_of_mem hk
  · simp only [Hierarchy.addFile, update_of_ne hon]
    exact hk

/-! ## Directories come, go and move -/

/-- A new directory. -/
def mkdir (h : Hier ν) (dir : ℕ) (nm : ν) (i : ℕ) : Hier ν where
  used := update h.used i True
  isDir := update h.isDir i True
  living := update h.living i True
  parent := update h.parent i dir
  kids := update h.kids dir ((nm, i) ::ₘ h.kids dir)
  nlink := update (update h.nlink i 2) dir (h.nlink dir + 1)

theorem Sound.mkdir (hs : Sound N root h) (hdir : h.living dir) (hi : ¬ h.used i) (hlt : i < N) :
    Sound N root (mkdir h dir nm i) := by
  have hused : ∀ {j}, h.used j → j ≠ i := by
    rintro j hj rfl
    exact hi hj
  have hnl : ¬ h.living i := fun hc => hi (hs.living_used hc).1
  have hdi : dir ≠ i := hused (hs.living_used hdir).1
  have hroot : root ≠ i := hused (hs.living_used hs.root_living).1
  generalize hdef : Hierarchy.mkdir h dir nm i = h'
  have husedIff : ∀ {j}, h'.used j ↔ j = i ∨ h.used j := by
    intro j
    by_cases hj : j = i <;> simp [← hdef, Hierarchy.mkdir, hj]
  have hisDir : ∀ {j}, j ≠ i → (h'.isDir j ↔ h.isDir j) := by
    intro j hj
    simp [← hdef, Hierarchy.mkdir, hj]
  have hliving : ∀ {j}, h'.living j ↔ j = i ∨ h.living j := by
    intro j
    by_cases hj : j = i <;> simp [← hdef, Hierarchy.mkdir, hj]
  have hparent : ∀ {j}, j ≠ i → h'.parent j = h.parent j := by
    intro j hj
    simp [← hdef, Hierarchy.mkdir, hj]
  have hparentNew : h'.parent i = dir := by simp [← hdef, Hierarchy.mkdir]
  have hnamed : ∀ d e, named (h'.kids d) e = named (h.kids d) e + one dir d * one i e := by
    rw [← hdef]
    exact named_cons_kids h.kids dir (nm, i)
  have hmem : ∀ {d nm' e}, (nm', e) ∈ h'.kids d → d = dir ∧ e = i ∨ (nm', e) ∈ h.kids d := by
    rw [← hdef]
    exact fun hk => (mem_cons_kids hk).imp_left fun hc => ⟨hc.1, (Prod.mk.inj hc.2).2⟩
  have hnlink : ∀ {j}, j ≠ i → h'.nlink j = h.nlink j + one dir j := by
    intro j hj
    by_cases hjd : j = dir
    · simp [← hdef, Hierarchy.mkdir, hjd]
    · simp [← hdef, Hierarchy.mkdir, hjd, hj, one_of_ne (Ne.symm hjd)]
  refine ⟨?_, ?_, ?_, ?_, ?_, ?_, ?_, ?_, ?_, ?_, ?_, ?_, ?_⟩
  · intro j hj
    rcases husedIff.1 hj with rfl | hj
    · exact hlt
    · exact hs.bound hj
  · intro d hd
    rcases hliving.1 hd with rfl | hd
    · exact ⟨husedIff.2 (.inl rfl), by simp [← hdef, Hierarchy.mkdir]⟩
    · obtain ⟨hu, hdd⟩ := hs.living_used hd
      exact ⟨husedIff.2 (.inr hu), (hisDir (hused hu)).2 hdd⟩
  · intro d hu hdd hd
    rcases husedIff.1 hu with rfl | hu
    · exact absurd (hliving.2 (.inl rfl)) hd
    · have hne := hused hu
      have hdd' : d ≠ dir := by
        rintro rfl
        exact hd (hliving.2 (.inr hdir))
      rw [hnlink hne, one_of_ne (Ne.symm hdd'), Nat.add_zero]
      exact hs.dead hu ((hisDir hne).1 hdd) fun hc => hd (hliving.2 (.inr hc))
  · refine fun hd => Multiset.eq_zero_of_forall_notMem fun ⟨nm', e⟩ hk => hd (hliving.2 (.inr ?_))
    rcases hmem hk with ⟨rfl, -⟩ | hk
    · exact hdir
    · exact hs.living_of_kid hk
  · intro d hd
    rcases hliving.1 hd with rfl | hd
    · rw [hparentNew]
      exact hliving.2 (.inr hdir)
    · rw [hparent (hused (hs.living_used hd).1)]
      exact hliving.2 (.inr (hs.parent_living hd))
  · intro d nm' e hk
    rcases hmem hk with ⟨-, rfl⟩ | hk
    · exact husedIff.2 (.inl rfl)
    · exact husedIff.2 (.inr (hs.kid_used hk))
  · intro d nm' e hk
    rcases hmem hk with ⟨rfl, rfl⟩ | hk
    · exact hdi.symm
    · exact hs.kid_ne hk
  · intro d nm' e hk
    rcases hmem hk with ⟨-, rfl⟩ | hk
    · exact hroot.symm
    · exact hs.kid_ne_root hk
  · intro d nm' e hk he
    rcases hmem hk with ⟨rfl, rfl⟩ | hk
    · exact ⟨hliving.2 (.inl rfl), hparentNew⟩
    · have hne := hused (hs.kid_used hk)
      obtain ⟨hl, hp⟩ := hs.kid_dir hk ((hisDir hne).1 he)
      exact ⟨hliving.2 (.inr hl), (hparent hne).trans hp⟩
  · intro e he hne
    rcases hliving.1 he with rfl | he
    · have hzero : named (h.kids dir) e = 0 := by
        by_contra hc
        obtain ⟨nm', hk⟩ := exists_mem_of_named_pos (Nat.pos_of_ne_zero hc)
        exact hi (hs.kid_used hk)
      rw [hparentNew, hnamed, hzero, one_self, one_self]
    · have hei := hused (hs.living_used he).1
      rw [hparent hei, hnamed, one_of_ne (Ne.symm hei), Nat.mul_zero, Nat.add_zero]
      exact hs.kid_once he hne
  · exact hliving.2 (.inr hs.root_living)
  · rw [hparent hroot]
    exact hs.root_parent
  · intro j hj
    -- one entry more in `dir`, and the two entries of the new directory
    have hfrom : ∀ d, linksFrom h' d j + 0 =
        linksFrom h d j + (one dir d * one i j + one i d * (one i j + one dir j)) := by
      intro d
      by_cases hdi' : d = i
      · subst hdi'
        rw [linksFrom_of_living (hliving.2 (.inl rfl)), linksFrom_of_not_living hnl, hnamed,
          hparentNew, one_self]
        ring
      · have hnn : h'.living d ↔ h.living d := by
          rw [hliving]
          simp [hdi']
        rw [linksFrom, linksFrom, hnamed, hparent hdi', one_of_ne (Ne.symm hdi')]
        by_cases hl : h.living d
        · rw [if_pos (hnn.2 hl), if_pos hl]
          ring
        · rw [if_neg fun hc => hl (hnn.1 hc), if_neg hl]
          ring
    have hsum := linksTo_add (N := N) hfrom
    rw [Finset.sum_add_distrib, sum_one_mul (hs.living_lt hdir), sum_one_mul hlt,
      Finset.sum_const_zero, Nat.add_zero] at hsum
    rw [hsum]
    by_cases hji : j = i
    · subst hji
      rw [hs.linksTo_of_not_used hi, one_self, one_of_ne hdi]
      simp [← hdef, Hierarchy.mkdir, Ne.symm hdi]
    · rw [hnlink hji, one_of_ne (Ne.symm hji)]
      rcases husedIff.1 hj with hj | hj
      · exact absurd hj hji
      · rw [hs.links hj]
        omega

/-- An empty directory is removed. -/
def rmdir [DecidableEq ν] (h : Hier ν) (dir : ℕ) (nm : ν) (e : ℕ) : Hier ν :=
  { h with
    living := update h.living e False
    parent := update h.parent e 0
    kids := update h.kids dir ((h.kids dir).erase (nm, e))
    nlink := update (update h.nlink e 0) dir (h.nlink dir - 1) }

theorem Sound.rmdir [DecidableEq ν] (hs : Sound N root h) (hk : (nm, e) ∈ h.kids dir)
    (hdir : h.isDir e) (hempty : h.kids e = 0) : Sound N root (rmdir h dir nm e) := by
  obtain ⟨hel, hep⟩ := hs.kid_dir hk hdir
  have hne := hs.kid_ne hk
  have hroot := hs.kid_ne_root hk
  have hdl := hs.living_of_kid hk
  have htwo := hs.linksTo_of_empty hk hdir hempty
  generalize hdef : Hierarchy.rmdir h dir nm e = h'
  have hused : h'.used = h.used := by rw [← hdef]; rfl
  have hisDir : h'.isDir = h.isDir := by rw [← hdef]; rfl
  have hliving : ∀ {j}, h'.living j ↔ h.living j ∧ j ≠ e := by
    intro j
    by_cases hj : j = e <;> simp [← hdef, Hierarchy.rmdir, hj]
  have hparent : ∀ {j}, j ≠ e → h'.parent j = h.parent j := by
    intro j hj
    simp [← hdef, Hierarchy.rmdir, hj]
  have hnamed : ∀ d j, named (h'.kids d) j + one dir d * one e j = named (h.kids d) j := by
    rw [← hdef]
    exact named_erase_kids hk
  have hsub : ∀ {d x}, x ∈ h'.kids d → x ∈ h.kids d := by
    rw [← hdef]
    exact mem_of_erase_kids
  -- the entry that is taken away was the only one
  have hgone : ∀ {d nm' j}, (nm', j) ∈ h'.kids d → j ≠ e := by
    rintro d nm' j hj rfl
    have hdd : d = dir := (hs.kid_dir (hsub hj) hdir).2.symm.trans hep
    have honce := hs.kid_once hel hroot
    rw [hep] at honce
    have := hnamed d j
    rw [hdd, one_self, one_self, honce] at this
    rw [hdd] at hj
    have := named_pos_of_mem hj
    omega
  have hnlink : ∀ {j}, j ≠ e → h'.nlink j = h.nlink j - one dir j := by
    intro j hj
    by_cases hjd : j = dir
    · simp [← hdef, Hierarchy.rmdir, hjd]
    · simp [← hdef, Hierarchy.rmdir, hjd, hj, one_of_ne (Ne.symm hjd)]
  have hnlinkSelf : h'.nlink e = 0 := by simp [← hdef, Hierarchy.rmdir, hne]
  refine ⟨?_, ?_, ?_, ?_, ?_, ?_, ?_, ?_, ?_, ?_, ?_, ?_, ?_⟩
  · rw [hused]
    exact hs.bound
  · intro d hd
    rw [hused, hisDir]
    exact hs.living_used (hliving.1 hd).1
  · intro d hu hdd hd
    by_cases hde : d = e
    · rw [hde]
      exact hnlinkSelf
    · have hl : ¬ h.living d := fun hc => hd (hliving.2 ⟨hc, hde⟩)
      rw [hused] at hu
      rw [hisDir] at hdd
      rw [hnlink hde, hs.dead hu hdd hl, Nat.zero_sub]
  · refine fun {d} hd => Multiset.eq_zero_of_forall_notMem fun ⟨nm', j⟩ hj => ?_
    have hj := hsub hj
    by_cases hde : d = e
    · rw [hde, hempty] at hj
      exact Multiset.notMem_zero _ hj
    · exact hd (hliving.2 ⟨hs.living_of_kid hj, hde⟩)
  · intro d hd
    obtain ⟨hd, hde⟩ := hliving.1 hd
    rw [hparent hde]
    refine hliving.2 ⟨hs.parent_living hd, fun hpe => ?_⟩
    have hdroot : d ≠ root := by
      rintro rfl
      exact hroot (hpe.symm.trans hs.root_parent)
    obtain ⟨nm', hk'⟩ := hs.exists_kid hd hdroot
    rw [hpe, hempty] at hk'
    exact absurd hk' (Multiset.notMem_zero _)
  · intro d nm' j hj
    rw [hused]
    exact hs.kid_used (hsub hj)
  · intro d nm' j hj
    exact hs.kid_ne (hsub hj)
  · intro d nm' j hj
    exact hs.kid_ne_root (hsub hj)
  · intro d nm' j hj hjd
    rw [hisDir] at hjd
    obtain ⟨hl, hp⟩ := hs.kid_dir (hsub hj) hjd
    have hje := hgone hj
    exact ⟨hliving.2 ⟨hl, hje⟩, (hparent hje).trans hp⟩
  · intro j hj hjroot
    obtain ⟨hj, hje⟩ := hliving.1 hj
    have := hnamed (h.parent j) j
    rw [one_of_ne (Ne.symm hje), Nat.mul_zero, Nat.add_zero] at this
    rw [hparent hje, this]
    exact hs.kid_once hj hjroot
  · exact hliving.2 ⟨hs.root_living, Ne.symm hroot⟩
  · rw [hparent (Ne.symm hroot)]
    exact hs.root_parent
  · intro j hj
    rw [hused] at hj
    have hfrom : ∀ d, linksFrom h' d j + (one dir d * one e j + one e d * (one e j + one dir j)) =
        linksFrom h d j + 0 := by
      intro d
      have hn := hnamed d j
      by_cases hde : d = e
      · subst hde
        have hnl : ¬ h'.living d := fun hc => (hliving.1 hc).2 rfl
        rw [linksFrom_of_living hel, linksFrom_of_not_living hnl, hep, one_self]
        omega
      · have hnn : h'.living d ↔ h.living d := by
          rw [hliving]
          simp [hde]
        rw [linksFrom, linksFrom, hparent hde, one_of_ne (Ne.symm hde)]
        by_cases hl : h.living d
        · rw [if_pos (hnn.2 hl), if_pos hl]
          omega
        · rw [if_neg fun hc => hl (hnn.1 hc), if_neg hl]
          omega
    have hsum := linksTo_add (N := N) hfrom
    rw [Finset.sum_add_distrib, sum_one_mul (hs.living_lt hdl), sum_one_mul (hs.living_lt hel),
      Finset.sum_const_zero, Nat.add_zero] at hsum
    by_cases hje : j = e
    · subst hje
      rw [htwo, one_self] at hsum
      omega
    · rw [hnlink hje, hs.links hj]
      rw [one_of_ne (Ne.symm hje)] at hsum
      omega

/-- A directory gets another name, or another parent. -/
def moveDir [DecidableEq ν] (h : Hier ν) (oldDir : ℕ) (oldName : ν) (newDir : ℕ) (newName : ν)
    (e : ℕ) : Hier ν :=
  let kids := update h.kids oldDir ((h.kids oldDir).erase (oldName, e))
  let nlink := update h.nlink oldDir (h.nlink oldDir - 1)
  { h with
    parent := update h.parent e newDir
    kids := update kids newDir ((newName, e) ::ₘ kids newDir)
    nlink := update nlink newDir (nlink newDir + 1) }

/-- It does not matter whether the entry is added or taken away first. -/
theorem kids_moveDir [DecidableEq ν] (hk : (oldName, e) ∈ h.kids oldDir) :
    (moveDir h oldDir oldName newDir newName e).kids =
      (moveFile h oldDir oldName newDir newName e).kids := by
  funext j
  simp only [moveDir, moveFile]
  by_cases hon : oldDir = newDir
  · subst hon
    simp only [update_self, Function.update_idem]
    by_cases hj : j = oldDir
    · subst hj
      rw [update_self, update_self]
      by_cases hne : (newName, e) = (oldName, e)
      · rw [hne, Multiset.erase_cons_head, Multiset.cons_erase hk]
      · rw [Multiset.erase_cons_tail _ hne]
    · rw [update_of_ne hj, update_of_ne hj]
  · rw [update_of_ne hon, update_of_ne (Ne.symm hon)]
    by_cases hj : j = oldDir
    · subst hj
      rw [update_self, update_of_ne hon, update_self]
    · rw [update_of_ne hj]
      by_cases hjn : j = newDir
      · rw [hjn, update_self, update_self]
      · rw [update_of_ne hjn, update_of_ne hjn, update_of_ne hj]

theorem Sound.moveDir [DecidableEq ν] (hs : Sound N root h)
    (hk : (oldName, e) ∈ h.kids oldDir) (hdir : h.isDir e)
    (hnew : h.living newDir) (hne : newDir ≠ e) :
    Sound N root (moveDir h oldDir oldName newDir newName e) := by
  obtain ⟨hel, hep⟩ := hs.kid_dir hk hdir
  have hroot := hs.kid_ne_root hk
  have hold := hs.living_of_kid hk
  have hnlinkOld := hs.nlink_pos_of_living hold
  generalize hdef : Hierarchy.moveDir h oldDir oldName newDir newName e = h'
  have hused : h'.used = h.used := by rw [← hdef]; rfl
  have hisDir : h'.isDir = h.isDir := by rw [← hdef]; rfl
  have hliving : h'.living = h.living := by rw [← hdef]; rfl
  have hparent : ∀ {j}, j ≠ e → h'.parent j = h.parent j := by
    intro j hj
    simp [← hdef, Hierarchy.moveDir, hj]
  have hparentSelf : h'.parent e = newDir := by simp [← hdef, Hierarchy.moveDir]
  have hnamed : ∀ d j, named (h'.kids d) j + one oldDir d * one e j =
      named (h.kids d) j + one newDir d * one e j := by
    intro d j
    rw [← hdef, ← named_erase_kids hk d j]
    refine (congrArg (· + _) (named_cons_kids _ newDir (newName, e) d j)).trans ?_
    exact Nat.add_right_comm _ _ _
  have hmem : ∀ {d nm' j}, (nm', j) ∈ h'.kids d → d = newDir ∧ j = e ∨ (nm', j) ∈ h.kids d := by
    rw [← hdef]
    exact fun hj => (mem_cons_kids hj).imp (fun hc => ⟨hc.1, (Prod.mk.inj hc.2).2⟩)
      mem_of_erase_kids
  -- the directory is a kid of its new parent only
  have hplace : ∀ {d nm'}, (nm', e) ∈ h'.kids d → d = newDir := by
    intro d nm' hj
    by_contra hdn
    rcases hmem hj with ⟨hd, -⟩ | hj'
    · exact hdn hd
    · have hdo : d = oldDir := (hs.kid_dir hj' hdir).2.symm.trans hep
      have honce := hs.kid_once hel hroot
      have hcount := hnamed d e
      have := named_pos_of_mem hj
      rw [hep] at honce
      subst hdo
      rw [honce, one_self, one_self, one_of_ne (Ne.symm hdn)] at hcount
      omega
  have hnlink : ∀ {j}, h'.nlink j + one oldDir j = h.nlink j + one newDir j := by
    intro j
    rw [← hdef, ← update_pred hnlinkOld j]
    exact (congrArg (· + _) (update_succ _ newDir j)).trans (Nat.add_right_comm _ _ _)
  refine ⟨?_, ?_, ?_, ?_, ?_, ?_, ?_, ?_, ?_, ?_, ?_, ?_, ?_⟩
  · rw [hused]
    exact hs.bound
  · rw [hused, hisDir, hliving]
    exact hs.living_used
  · intro d hu hd hl
    rw [hliving] at hl
    have hdn : newDir ≠ d := by
      rintro rfl
      exact hl hnew
    have hdo : oldDir ≠ d := by
      rintro rfl
      exact hl hold
    have := hnlink (j := d)
    rw [one_of_ne hdn, one_of_ne hdo] at this
    rw [hused] at hu
    rw [hisDir] at hd
    have := hs.dead hu hd hl
    omega
  · intro d hd
    rw [hliving] at hd
    refine Multiset.eq_zero_of_forall_notMem ?_
    rintro ⟨nm', j⟩ hj
    rcases hmem hj with ⟨rfl, -⟩ | hj
    · exact hd hnew
    · exact hd (hs.living_of_kid hj)
  · intro d hd
    rw [hliving] at hd ⊢
    by_cases hde : d = e
    · rw [hde, hparentSelf]
      exact hnew
    · rw [hparent hde]
      exact hs.parent_living hd
  · intro d nm' j hj
    rw [hused]
    rcases hmem hj with ⟨-, rfl⟩ | hj
    · exact hs.kid_used hk
    · exact hs.kid_used hj
  · intro d nm' j hj
    rcases hmem hj with ⟨rfl, rfl⟩ | hj
    · exact Ne.symm hne
    · exact hs.kid_ne hj
  · intro d nm' j hj
    rcases hmem hj with ⟨-, rfl⟩ | hj
    · exact hroot
    · exact hs.kid_ne_root hj
  · intro d nm' j hj hjd
    rw [hisDir] at hjd
    rw [hliving]
    by_cases hje : j = e
    · subst hje
      exact ⟨hel, hparentSelf.trans (hplace hj).symm⟩
    · rcases hmem hj with ⟨-, hc⟩ | hj
      · exact absurd hc hje
      · obtain ⟨hl, hp⟩ := hs.kid_dir hj hjd
        exact ⟨hl, (hparent hje).trans hp⟩
  · intro j hj hjroot
    rw [hliving] at hj
    by_cases hje : j = e
    · subst hje
      rw [hparentSelf]
      have hn := hnamed newDir j
      rw [one_self, one_self] at hn
      have honce := hs.kid_once hj hjroot
      rw [hep] at honce
      by_cases hon : oldDir = newDir
      · rw [hon] at hn honce
        rw [one_self] at hn
        omega
      · have hzero : named (h.kids newDir) j = 0 := by
          by_contra hc
          obtain ⟨nm', hk'⟩ := exists_mem_of_named_pos (Nat.pos_of_ne_zero hc)
          exact hon (hep.symm.trans (hs.kid_dir hk' hdir).2)
        rw [one_of_ne hon] at hn
        omega
    · have hn := hnamed (h.parent j) j
      rw [one_of_ne (Ne.symm hje), Nat.mul_zero, Nat.mul_zero, Nat.add_zero, Nat.add_zero] at hn
      rw [hparent hje, hn]
      exact hs.kid_once hj hjroot
  · rw [hliving]
    exact hs.root_living
  · rw [hparent (Ne.symm hroot)]
    exact hs.root_parent
  · intro j hj
    rw [hused] at hj
    have hfrom : ∀ d, linksFrom h' d j + (one oldDir d * one e j + one e d * one oldDir j) =
        linksFrom h d j + (one newDir d * one e j + one e d * one newDir j) := by
      intro d
      have hn := hnamed d j
      rw [linksFrom, linksFrom, hliving]
      by_cases hde : d = e
      · subst hde
        rw [if_pos hel, if_pos hel, hparentSelf, hep, one_self]
        omega
      · rw [hparent hde, one_of_ne (Ne.symm hde)]
        omega
    have hsum := linksTo_add (N := N) hfrom
    rw [Finset.sum_add_distrib, Finset.sum_add_distrib, sum_one_mul (hs.living_lt hold),
      sum_one_mul (hs.living_lt hel), sum_one_mul (hs.living_lt hnew),
      sum_one_mul (hs.living_lt hel)] at hsum
    have := hnlink (j := j)
    have := hs.links hj
    omega

/-! ## The root is above every directory -/

/-- The root is reached from the directory by going from parent to parent. -/
inductive Under (parent : ℕ → ℕ) (root : ℕ) : ℕ → Prop
  | root : Under parent root root
  | step {d : ℕ} : Under parent root (parent d) → Under parent root d

/-- It is reached without coming to `e`. -/
inductive Clear (parent : ℕ → ℕ) (root e : ℕ) : ℕ → Prop
  | root : root ≠ e → Clear parent root e root
  | step {d : ℕ} : d ≠ e → Clear parent root e (parent d) → Clear parent root e d

/-- The root is above every directory. -/
def Rooted (root : ℕ) (h : Hier ν) : Prop := ∀ d, h.living d → Under h.parent root d

/-- Only the root is its own parent. -/
theorem Under.eq_root {parent : ℕ → ℕ} (hd : Under parent root d) (heq : parent d = d) :
    d = root := by
  induction hd with
  | root => rfl
  | step _ ih => exact heq ▸ ih (by rw [heq, heq])

/-- Directories whose parents are those of another hierarchy. -/
theorem Rooted.congr (hr : Rooted root h) (hclosed : ∀ {d}, h'.living d → h'.living (h'.parent d))
    (hsame : ∀ {d}, h'.living d → h.living d ∧ h'.parent d = h.parent d) : Rooted root h' := by
  intro d hd
  have hu := hr d (hsame hd).1
  induction hu with
  | root => exact .root
  | step _ ih =>
    refine .step ?_
    rw [(hsame hd).2]
    refine ih ?_
    rw [← (hsame hd).2]
    exact hclosed hd

theorem Rooted.mkdir (hr : Rooted root h) (hs : Sound N root h) (hdir : h.living dir)
    (hi : ¬ h.used i) : Rooted root (mkdir h dir nm i) := by
  have hold : ∀ d, h.living d → Under (Hierarchy.mkdir h dir nm i).parent root d := by
    intro d hd
    have hu := hr d hd
    induction hu with
    | root => exact .root
    | @step d _ ih =>
      refine .step ?_
      have hdi : d ≠ i := by
        rintro rfl
        exact hi (hs.living_used hd).1
      rw [show (Hierarchy.mkdir h dir nm i).parent d = h.parent d from
        update_of_ne hdi _ _]
      exact ih (hs.parent_living hd)
  intro d hd
  by_cases hdi : d = i
  · subst hdi
    refine .step ?_
    rw [show (Hierarchy.mkdir h dir nm d).parent d = dir from update_self _ _ _]
    exact hold dir hdir
  · refine hold d ?_
    rwa [show (Hierarchy.mkdir h dir nm i).living d = h.living d from
      update_of_ne hdi _ _] at hd

/-- A directory that is moved below one that is clear of it. -/
theorem Rooted.moveDir [DecidableEq ν] (hr : Rooted root h)
    (hclear : Clear h.parent root e newDir) :
    Rooted root (moveDir h oldDir oldName newDir newName e) := by
  have hsame : ∀ {d}, d ≠ e →
      (Hierarchy.moveDir h oldDir oldName newDir newName e).parent d = h.parent d := fun hd =>
    update_of_ne hd _ _
  have hnew : ∀ {d}, Clear h.parent root e d →
      Under (Hierarchy.moveDir h oldDir oldName newDir newName e).parent root d := by
    intro d hd
    induction hd with
    | root _ => exact .root
    | step hne _ ih =>
      refine .step ?_
      rw [hsame hne]
      exact ih
  intro d hd
  have hu := hr d hd
  clear hd
  induction hu with
  | root => exact .root
  | @step d _ ih =>
    refine .step ?_
    by_cases hde : d = e
    · rw [hde, show (Hierarchy.moveDir h oldDir oldName newDir newName e).parent e = newDir from
        update_self _ _ _]
      exact hnew hclear
    · rw [hsame hde]
      exact ih

end Hierarchy
