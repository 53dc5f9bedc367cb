import LinuxEvocation.Fs.Msdos.Fat

/-!
# Entries on the disk

`fat_access` reads the one or two sectors that have the bytes of an entry, through buffers for blocks of
two sectors.  It stores to them, marks their buffers, and copies the sectors to the other FATs.  Of a
copy it marks the buffer of the first sector only.

* `Sb`, `Cache` — the parts of the super block that it uses, and the buffers.
* `fatAccess` — the function.
* `Marked` — the buffer of the second sector of a copy need not be marked, or is.
* `fat_access_exact` — the entries, the copies and the buffers.
-/

namespace LinuxEvocation.Msdos.FatAccess

open Function (update update_of_ne update_self)

/-! ## The function -/

/-- What the super block says about the FATs.  The clusters have entries, which `msdos_read_super` checks
where `clusters + 2` does not wrap, and there is a FAT. -/
structure Sb where
  wide : Bool
  fatStart : Nat
  fatLength : Nat
  fats : Nat
  clusters : Nat
  entries : clusters + 2 ≤ fatLength * 512 * 8 / if wide then 16 else 12
  pos : fats ≠ 0

/-- The buffers: the bytes of each sector, the blocks that are marked, and those that were read and
released. -/
structure Cache where
  byte : Nat → Nat → BitVec 8
  dirty : Nat → Bool
  got : List Nat
  released : List Nat

namespace Cache

/-- `msdos_sread`: a block has two sectors. -/
def sread (c : Cache) (sector : Nat) : Cache := { c with got := c.got ++ [sector / 2] }

def brelse (c : Cache) (sector : Nat) : Cache := { c with released := c.released ++ [sector / 2] }

/-- `b_dirt = 1` in the buffer of a sector. -/
def mark (c : Cache) (sector : Nat) : Cache :=
  { c with dirty := update c.dirty (sector / 2) true }

def store (c : Cache) (sector i : Nat) (x : BitVec 8) : Cache :=
  { c with byte := update c.byte sector (update (c.byte sector) i x) }

/-- `memcpy` of a sector. -/
def memcpy (c : Cache) (dst src : Nat) : Cache :=
  { c with byte := update c.byte dst (c.byte src) }

end Cache

/-- The byte of an entry that comes first, in the table. -/
def first (sb : Sb) (nr : Nat) : Nat := if sb.wide then nr * 2 else nr * 3 / 2

/-- The last byte that is looked for in a sector: the bytes of a word are always in the same one. -/
def last (sb : Sb) (nr : Nat) : Nat := if sb.wide then first sb nr else first sb nr + 1

def firstSector (sb : Sb) (nr : Nat) : Nat := sb.fatStart + first sb nr / 512

def lastSector (sb : Sb) (nr : Nat) : Nat := sb.fatStart + last sb nr / 512

/-- The entry in its two bytes. -/
def entry (wide : Bool) (nr : Nat) (x y : BitVec 8) : Nat :=
  if wide then x.toNat + y.toNat <<< 8
  else if nr % 2 = 1 then (x.toNat >>> 4 ||| y.toNat <<< 4) &&& 0xfff
  else (x.toNat + y.toNat <<< 8) &&& 0xfff

/-- The two bytes with another entry. -/
def newBytes (wide : Bool) (nr : Nat) (x y : BitVec 8) (value : Nat) : BitVec 8 × BitVec 8 :=
  if wide then (BitVec.ofNat 8 value, BitVec.ofNat 8 (value >>> 8))
  else if nr % 2 = 1 then
    (BitVec.ofNat 8 ((x.toNat &&& 0xf) ||| value <<< 4), BitVec.ofNat 8 (value >>> 4))
  else (BitVec.ofNat 8 (value &&& 0xff), BitVec.ofNat 8 ((y.toNat &&& 0xf0) ||| value >>> 8))

def eof (sb : Sb) : Nat := if sb.wide then 0xfff7 else 0xff7

/-- The body of the loop over the copies. -/
def copyTo (sb : Sb) (s s2 : Nat) (c : Cache) (copy : Nat) : Cache :=
  let cs := s + sb.fatLength * copy
  let c := c.sread cs
  let c := c.memcpy cs s
  let c := c.mark cs
  let c :=
    if s ≠ s2 then
      let c := c.sread (cs + 1)
      let c := c.memcpy (cs + 1) s2
      c.brelse (cs + 1)
    else c
  c.brelse cs

/-- The stores of a new value. -/
def fatStore (sb : Sb) (c : Cache) (nr value : Nat) : Cache :=
  let s := firstSector sb nr
  let s2 := lastSector sb nr
  let i := first sb nr % 512
  let j := (first sb nr + 1) % 512
  let bytes := newBytes sb.wide nr (c.byte s i) (c.byte s2 j) value
  let c := c.store s i bytes.1
  let c := c.store s2 j bytes.2
  let c := if sb.wide then c else c.mark s2
  let c := c.mark s
  (List.range' 1 (sb.fats - 1)).foldl (copyTo sb s s2) c

/-- `fat_access`; `none` stands for -1. -/
def fatAccess (sb : Sb) (c : Cache) (nr : Nat) (newValue : Option Nat) : Option Nat × Cache :=
  if nr < 2 ∨ sb.clusters ≤ nr - 2 then (some 0, c)
  else
    let s := firstSector sb nr
    let s2 := lastSector sb nr
    let c := c.sread s
    let c := if s = s2 then c else c.sread s2
    let next := entry sb.wide nr (c.byte s (first sb nr % 512)) (c.byte s2 ((first sb nr + 1) % 512))
    let c := newValue.elim c (fatStore sb c nr)
    let c := c.brelse s
    let c := if s = s2 then c else c.brelse s2
    (if eof sb ≤ next then none else some next, c)

/-! ## The table of the first FAT -/

/-- The first FAT as a table.  The number of its clusters is not looked at. -/
def table (sb : Sb) (c : Cache) : Fat where
  wide := sb.wide
  clusters := 1
  byte := fun i => c.byte (sb.fatStart + i / 512) (i % 512)
  pos := Nat.one_pos
  fits := by
    split
    · decide
    · decide

/-- There is such a cluster. -/
def InRange (sb : Sb) (nr : Nat) : Prop := 2 ≤ nr ∧ nr < sb.clusters + 2

/-- The value fits into an entry. -/
def FitsEntry (sb : Sb) (value : Nat) : Prop := value < if sb.wide then 65536 else 4096

instance (sb : Sb) (nr : Nat) : Decidable (InRange sb nr) := inferInstanceAs (Decidable (_ ∧ _))

instance (sb : Sb) (value : Nat) : Decidable (FitsEntry sb value) :=
  inferInstanceAs (Decidable (_ < _))

/-- The two bytes of the entry are in two sectors. -/
def Straddles (sb : Sb) (nr : Nat) : Prop := firstSector sb nr ≠ lastSector sb nr

/-- The contents of a block are not those before. -/
def Modified (c c' : Cache) (block : Nat) : Prop :=
  ∃ sector i, sector / 2 = block ∧ i < 512 ∧ c'.byte sector i ≠ c.byte sector i

/-- What was read was released once. -/
def Balanced (c c' : Cache) : Prop :=
  ∃ got released, c'.got = c.got ++ got ∧ c'.released = c.released ++ released ∧ got.Perm released

/-- The buffer of the second sector of a copy is that of the first, it is marked already or by the next
copy, or the sector is what it becomes. -/
def Marked (sb : Sb) (c : Cache) (nr value copy : Nat) : Prop :=
  let cs := firstSector sb nr + sb.fatLength * copy
  cs % 2 = 0 ∨ c.dirty ((cs + 1) / 2) = true ∨ (sb.fatLength = 2 ∧ copy + 1 < sb.fats) ∨
    ∀ i < 512, c.byte (cs + 1) i = ((table sb c).put nr value).byte (last sb nr / 512 * 512 + i)

section Proofs

variable {sb : Sb} {c c' : Cache} {nr value : Nat}

theorem last_lt (h : InRange sb nr) : first sb nr + 1 < sb.fatLength * 512 := by
  have hentries := sb.entries
  obtain ⟨hlo, hhi⟩ := h
  unfold first
  split at hentries <;> split <;> simp_all <;> omega

theorem raw_table (sb : Sb) (c : Cache) (nr : Nat) : (table sb c).raw nr =
    entry sb.wide nr ((table sb c).byte (first sb nr)) ((table sb c).byte (first sb nr + 1)) := by
  unfold Fat.raw entry first
  change (if sb.wide then _ else _) = _
  split_ifs <;> rfl

theorem put_table (sb : Sb) (c : Cache) (nr value : Nat) : (table sb c).put nr value =
    (table sb c).setPair (first sb nr)
      (newBytes sb.wide nr ((table sb c).byte (first sb nr)) ((table sb c).byte (first sb nr + 1))
        value).1
      (newBytes sb.wide nr ((table sb c).byte (first sb nr)) ((table sb c).byte (first sb nr + 1))
        value).2 := by
  unfold Fat.put newBytes first
  change (if sb.wide then _ else _) = _
  split_ifs <;> rfl

theorem lastSector_eq (sb : Sb) (nr : Nat) :
    lastSector sb nr = sb.fatStart + (first sb nr + 1) / 512 := by
  unfold lastSector last first
  split_ifs
  · have hdiv : (nr * 2 + 1) / 512 = nr * 2 / 512 := by omega
    rw [hdiv]
  · rfl

/-- The sectors of an entry are in the table. -/
theorem sectors (h : InRange sb nr) :
    (lastSector sb nr = firstSector sb nr ∨ lastSector sb nr = firstSector sb nr + 1) ∧
      lastSector sb nr < sb.fatStart + sb.fatLength := by
  have hlt := last_lt h
  rw [lastSector_eq, firstSector]
  omega

theorem table_store (sb : Sb) (c : Cache) (nr : Nat) (x y : BitVec 8) :
    table sb ((c.store (firstSector sb nr) (first sb nr % 512) x).store (lastSector sb nr)
        ((first sb nr + 1) % 512) y) = (table sb c).setPair (first sb nr) x y := by
  have hstore (c : Cache) (k : Nat) (z : BitVec 8) :
      (table sb (c.store (sb.fatStart + k / 512) (k % 512) z)).byte =
        update (table sb c).byte k z := by
    funext p
    simp only [table, Cache.store]
    by_cases hp : p = k
    · rw [hp, update_self, update_self, update_self]
    · rw [update_of_ne hp]
      by_cases hsector : sb.fatStart + p / 512 = sb.fatStart + k / 512
      · rw [hsector, update_self, update_of_ne (by omega)]
      · rw [update_of_ne hsector]
  rw [Fat.setPair, Fat.setBytes, ← hstore, firstSector, lastSector_eq]
  unfold table
  congr 1
  funext p
  exact congrFun (hstore _ (first sb nr + 1) y) p

/-- The second byte is in the sector that is read for it. -/
theorem byte_second (sb : Sb) (c : Cache) (nr : Nat) : (table sb c).byte (first sb nr + 1) =
    c.byte (lastSector sb nr) ((first sb nr + 1) % 512) := by
  rw [lastSector_eq]
  rfl

theorem byte_first (sb : Sb) (c : Cache) (nr : Nat) : (table sb c).byte (first sb nr) =
    c.byte (firstSector sb nr) (first sb nr % 512) := rfl

/-! ## The copies -/

variable {s s2 fl k n t : Nat}

theorem copyTo_byte (c : Cache) (hs : s2 = s ∨ s2 = s + 1) (hne : s2 ≠ s + sb.fatLength * k) :
    (copyTo sb s s2 c k).byte = update
      (update c.byte (s + sb.fatLength * k) (c.byte s)) (s2 + sb.fatLength * k)
      (c.byte s2) := by
  unfold copyTo
  by_cases heq : s = s2
  · subst heq
    simp only [ne_eq, not_true_eq_false, if_false, Function.update_idem]
    rfl
  · have hs2 : s2 + sb.fatLength * k = s + sb.fatLength * k + 1 := by omega
    simp only [ne_eq, heq, not_false_eq_true, if_true, hs2]
    simp only [Cache.memcpy, Cache.sread, Cache.mark, Cache.brelse, update_of_ne hne]

theorem copyTo_dirty (sb : Sb) (s s2 : Nat) (c : Cache) (k : Nat) : (copyTo sb s s2 c k).dirty =
    update c.dirty ((s + sb.fatLength * k) / 2) true := by
  unfold copyTo
  by_cases heq : s = s2
  · simp only [heq, ne_eq, not_true_eq_false, if_false]
    rfl
  · simp only [heq, ne_eq, not_false_eq_true, if_true]
    rfl

theorem Balanced.refl (c : Cache) : Balanced c c :=
  ⟨[], [], (List.append_nil _).symm, (List.append_nil _).symm, List.Perm.nil⟩

theorem Balanced.trans {c'' : Cache} (h : Balanced c c') (h' : Balanced c' c'') : Balanced c c'' := by
  obtain ⟨l, r, hl, hr, hperm⟩ := h
  obtain ⟨l', r', hl', hr', hperm'⟩ := h'
  exact ⟨l ++ l', r ++ r', by rw [hl', hl, List.append_assoc], by rw [hr', hr, List.append_assoc],
    hperm.append hperm'⟩

/-- Buffers that are read before and released after. -/
theorem Balanced.around {l : List Nat} {d e : Cache} (h : Balanced d c')
    (hgot : d.got = c.got ++ l) (hreleased : d.released = c.released) (hgot' : e.got = c'.got)
    (hreleased' : e.released = c'.released ++ l) : Balanced c e := by
  obtain ⟨got, released, hg, hr, hperm⟩ := h
  refine ⟨l ++ got, released ++ l, ?_, ?_, List.perm_append_comm.trans (hperm.append_right l)⟩
  · rw [hgot', hg, hgot, List.append_assoc]
  · rw [hreleased', hr, hreleased, List.append_assoc]

theorem copyTo_balanced (sb : Sb) (s s2 : Nat) (c : Cache) (k : Nat) :
    Balanced c (copyTo sb s s2 c k) := by
  unfold copyTo
  by_cases heq : s = s2
  · simp only [heq, ne_eq, not_true_eq_false, if_false]
    exact ⟨[_], [_], rfl, rfl, List.Perm.refl _⟩
  · simp only [heq, ne_eq, not_false_eq_true, if_true]
    refine ⟨[_, _], [_, _], List.append_assoc .., List.append_assoc .., List.Perm.swap _ _ _⟩

/-- What the copies do. -/
structure Copied (sb : Sb) (s s2 n : Nat) (c c' : Cache) : Prop where
  first : ∀ k, 1 ≤ k → k ≤ n → c'.byte (s + sb.fatLength * k) = c.byte s
  second : ∀ k, 1 ≤ k → k ≤ n → c'.byte (s2 + sb.fatLength * k) = c.byte s2
  other : ∀ t, (∀ k, 1 ≤ k → k ≤ n → t ≠ s + sb.fatLength * k ∧ t ≠ s2 + sb.fatLength * k) →
    c'.byte t = c.byte t
  dirty : ∀ b, c'.dirty b = true ↔
    c.dirty b = true ∨ ∃ k, 1 ≤ k ∧ k ≤ n ∧ b = (s + sb.fatLength * k) / 2
  balanced : Balanced c c'

/-- **The loop over the copies.** -/
theorem copies_spec (c : Cache) (hs : s2 = s ∨ s2 = s + 1) (hlt : s2 < s + sb.fatLength) (n : Nat) :
    Copied sb s s2 n c ((List.range' 1 n).foldl (copyTo sb s s2) c) := by
  have hstep (k m : Nat) (h : k < m) : sb.fatLength * k + sb.fatLength ≤ sb.fatLength * m := by
    rw [← Nat.mul_succ]
    exact Nat.mul_le_mul_left _ h
  induction n with
  | zero =>
    refine ⟨fun k h h' => by omega, fun k h h' => by omega, fun _ _ => rfl, ?_, .refl c⟩
    intro b
    constructor
    · exact .inl
    · rintro (h | ⟨k, h, h', -⟩)
      · exact h
      · omega
  | succ n ih =>
    rw [List.range'_1_concat, List.foldl_append, List.foldl_cons, List.foldl_nil, Nat.add_comm 1 n]
    generalize hc' : (List.range' 1 n).foldl (copyTo sb s s2) c = c' at ih ⊢
    have hlast := hstep 0 (n + 1) n.succ_pos
    rw [Nat.mul_zero] at hlast
    have hbyte := @copyTo_byte sb s s2 (n + 1) c' hs (by omega)
    -- the sectors of the table are no copies
    have hfirst : c'.byte s = c.byte s := by
      refine ih.other s fun k h _ => ?_
      have := hstep 0 k h
      omega
    have hsecond : c'.byte s2 = c.byte s2 := by
      refine ih.other s2 fun k h _ => ?_
      have := hstep 0 k h
      omega
    rw [hfirst, hsecond] at hbyte
    refine ⟨?_, ?_, ?_, ?_, ih.balanced.trans (copyTo_balanced ..)⟩
    · intro k h h'
      rw [hbyte]
      by_cases hk : k = n + 1
      · subst hk
        rcases hs with rfl | rfl
        · rw [update_self]
        · rw [update_of_ne (by omega), update_self]
      · have := hstep k (n + 1) (by omega)
        rw [update_of_ne (by omega), update_of_ne (by omega)]
        exact ih.first k h (by omega)
    · intro k h h'
      rw [hbyte]
      by_cases hk : k = n + 1
      · subst hk
        rw [update_self]
      · have := hstep k (n + 1) (by omega)
        rw [update_of_ne (by omega), update_of_ne (by omega)]
        exact ih.second k h (by omega)
    · intro t ht
      obtain ⟨hne, hne'⟩ := ht (n + 1) n.succ_pos le_rfl
      rw [hbyte, update_of_ne hne', update_of_ne hne]
      exact ih.other t fun k h h' => ht k h (by omega)
    · intro b
      rw [copyTo_dirty, Function.update_apply]
      constructor
      · intro hb
        split at hb
        next heq => exact .inr ⟨n + 1, n.succ_pos, le_rfl, heq⟩
        next =>
          rcases (ih.dirty b).mp hb with hb | ⟨k, h, h', heq⟩
          · exact .inl hb
          · exact .inr ⟨k, h, by omega, heq⟩
      · rintro hb
        split
        · rfl
        next hne =>
          refine (ih.dirty b).mpr ?_
          rcases hb with hb | ⟨k, h, h', heq⟩
          · exact .inl hb
          · refine .inr ⟨k, h, ?_, heq⟩
            by_contra hk
            exact hne (by rw [heq, show k = n + 1 by omega])

/-! ## The stores -/

/-- What the stores of a new value do. -/
structure Stored (sb : Sb) (nr value : Nat) (c c' : Cache) : Prop where
  table : ∀ p < sb.fatLength * 512,
    (FatAccess.table sb c').byte p = ((FatAccess.table sb c).put nr value).byte p
  copies : ∀ copy < sb.fats, ∀ t, t = firstSector sb nr ∨ t = lastSector sb nr →
    c'.byte (t + sb.fatLength * copy) = c'.byte t
  other : ∀ t, (∀ copy < sb.fats, t ≠ firstSector sb nr + sb.fatLength * copy ∧
    t ≠ lastSector sb nr + sb.fatLength * copy) → c'.byte t = c.byte t
  dirty : ∀ b, c'.dirty b = true ↔ c.dirty b = true ∨ b = lastSector sb nr / 2 ∨
    ∃ copy < sb.fats, b = (firstSector sb nr + sb.fatLength * copy) / 2
  balanced : Balanced c c'

/-- **The stores of a new value.** -/
theorem fatStore_spec (c : Cache) (h : InRange sb nr) (value : Nat) :
    Stored sb nr value c (fatStore sb c nr value) := by
  obtain ⟨hs, hlt⟩ := sectors h
  have hfirst : sb.fatStart ≤ firstSector sb nr := Nat.le_add_right _ _
  have hpos := sb.pos
  have hfar (k : Nat) (hk : 1 ≤ k) : sb.fatLength ≤ sb.fatLength * k := Nat.le_mul_of_pos_right _ hk
  unfold fatStore
  simp only
  generalize hbytes : newBytes sb.wide nr (c.byte (firstSector sb nr) (first sb nr % 512))
    (c.byte (lastSector sb nr) ((first sb nr + 1) % 512)) value = bytes
  generalize hc₁ : ((c.store (firstSector sb nr) (first sb nr % 512) bytes.1).store
    (lastSector sb nr) ((first sb nr + 1) % 512) bytes.2) = c₁
  have htable : table sb c₁ = (table sb c).put nr value := by
    rw [← hc₁, table_store, put_table, byte_first, byte_second, hbytes]
  have hother (t : Nat) (ht : t ≠ firstSector sb nr) (ht' : t ≠ lastSector sb nr) :
      c₁.byte t = c.byte t := by
    rw [← hc₁]
    simp only [Cache.store, update_of_ne ht, update_of_ne ht']
  generalize hc₂ : (if sb.wide = true then c₁ else c₁.mark (lastSector sb nr)).mark
    (firstSector sb nr) = c₂
  have hbyte : c₂.byte = c₁.byte := by
    rw [← hc₂]
    split <;> rfl
  have hdirty (b : Nat) : c₂.dirty b = true ↔
      c.dirty b = true ∨ b = lastSector sb nr / 2 ∨ b = firstSector sb nr / 2 := by
    rw [← hc₂, ← hc₁]
    by_cases hwide : sb.wide = true
    · have hsame : lastSector sb nr = firstSector sb nr := by
        rw [lastSector, last, if_pos hwide, firstSector]
      rw [if_pos hwide, hsame]
      simp only [Cache.mark, Cache.store, Function.update_apply]
      split <;> simp_all
    · rw [if_neg hwide]
      simp only [Cache.mark, Cache.store, Function.update_apply]
      split <;> [skip; split] <;> simp_all
  have hgot : c₂.got = c.got ∧ c₂.released = c.released := by
    rw [← hc₂, ← hc₁]
    split <;> exact ⟨rfl, rfl⟩
  have hcopied : Copied sb _ _ _ _ _ := copies_spec c₂ hs (by omega) (sb.fats - 1)
  generalize (List.range' 1 (sb.fats - 1)).foldl
    (copyTo sb (firstSector sb nr) (lastSector sb nr)) c₂ = c' at hcopied ⊢
  -- the sectors of the table are no copies
  have hkept (t : Nat) (ht : t < sb.fatStart + sb.fatLength) : c'.byte t = c₁.byte t := by
    rw [← hbyte]
    refine hcopied.other t fun k hk _ => ?_
    have := hfar k hk
    omega
  refine ⟨?_, ?_, ?_, ?_, ?_⟩
  · intro p hp
    rw [← htable]
    exact congrFun (hkept _ (by omega)) _
  · intro copy hcopy t ht
    rcases Nat.eq_zero_or_pos copy with rfl | hpos'
    · rfl
    · rcases ht with rfl | rfl
      · rw [hcopied.first copy hpos' (by omega), hkept _ (by omega), hbyte]
      · rw [hcopied.second copy hpos' (by omega), hkept _ (by omega), hbyte]
  · intro t ht
    obtain ⟨hne, hne'⟩ := ht 0 (Nat.pos_of_ne_zero hpos)
    rw [hcopied.other t fun k _ hk => ht k (by omega), hbyte, hother t hne hne']
  · intro b
    rw [hcopied.dirty, hdirty]
    constructor
    · rintro ((hb | hb | hb) | ⟨k, -, hk, hb⟩)
      · exact .inl hb
      · exact .inr (.inl hb)
      · exact .inr (.inr ⟨0, Nat.pos_of_ne_zero hpos, hb⟩)
      · exact .inr (.inr ⟨k, by omega, hb⟩)
    · rintro (hb | hb | ⟨k, hk, hb⟩)
      · exact .inl (.inl hb)
      · exact .inl (.inr (.inl hb))
      · rcases Nat.eq_zero_or_pos k with rfl | hk'
        · exact .inl (.inr (.inr hb))
        · exact .inr ⟨k, hk', by omega, hb⟩
  · obtain ⟨l, r, hl, hr, hperm⟩ := hcopied.balanced
    exact ⟨l, r, by rw [hl, hgot.1], by rw [hr, hgot.2], hperm⟩

/-! ## An access -/

/-- What a read returns. -/
def found (sb : Sb) (value : Nat) : Option Nat := if eof sb ≤ value then none else some value

/-- **A read** returns the entry and changes nothing. -/
theorem fatAccess_read (c : Cache) (h : InRange sb nr) :
    (fatAccess sb c nr none).1 = found sb ((table sb c).raw nr) ∧
      (fatAccess sb c nr none).2.byte = c.byte ∧ (fatAccess sb c nr none).2.dirty = c.dirty ∧
      Balanced c (fatAccess sb c nr none).2 := by
  obtain ⟨hlo, hhi⟩ := h
  unfold fatAccess
  rw [if_neg (by omega)]
  simp only [Option.elim_none]
  by_cases heq : firstSector sb nr = lastSector sb nr
  · rw [if_pos heq, if_pos heq, raw_table, byte_first, byte_second]
    exact ⟨rfl, rfl, rfl, [_], [_], rfl, rfl, List.Perm.refl _⟩
  · rw [if_neg heq, if_neg heq, raw_table, byte_first, byte_second]
    exact ⟨rfl, rfl, rfl, [_, _], [_, _], List.append_assoc .., List.append_assoc .., List.Perm.refl _⟩

theorem fatAccess_outside (c : Cache) (h : ¬ InRange sb nr) (new : Option Nat) :
    fatAccess sb c nr new = (some 0, c) := by
  unfold InRange at h
  unfold fatAccess
  rw [if_pos (by omega)]

/-- **A write** does what its stores do. -/
theorem fatAccess_write (c : Cache) (h : InRange sb nr) (value : Nat) :
    Stored sb nr value c (fatAccess sb c nr (some value)).2 := by
  have hrange := h
  obtain ⟨hlo, hhi⟩ := h
  unfold fatAccess
  rw [if_neg (by omega)]
  simp only [Option.elim_some]
  by_cases heq : firstSector sb nr = lastSector sb nr
  · rw [if_pos heq, if_pos heq]
    have hstore := fatStore_spec (c.sread (firstSector sb nr)) hrange value
    exact ⟨hstore.table, hstore.copies, hstore.other, hstore.dirty,
      hstore.balanced.around (l := [firstSector sb nr / 2]) rfl rfl rfl rfl⟩
  · rw [if_neg heq, if_neg heq]
    have hstore := fatStore_spec ((c.sread (firstSector sb nr)).sread (lastSector sb nr)) hrange value
    exact ⟨hstore.table, hstore.copies, hstore.other, hstore.dirty,
      hstore.balanced.around (l := [firstSector sb nr / 2, lastSector sb nr / 2])
        (List.append_assoc ..) rfl rfl (List.append_assoc ..)⟩

/-! ## The buffers -/

/-- What the second sector of a copy becomes. -/
theorem byte_copy (h : InRange sb nr) (hstored : Stored sb nr value c c') {copy i : Nat}
    (hcopy : copy < sb.fats) (hi : i < 512) :
    c'.byte (lastSector sb nr + sb.fatLength * copy) i =
      ((table sb c).put nr value).byte (last sb nr / 512 * 512 + i) := by
  have hlt := (sectors h).2
  have hdiv : (last sb nr / 512 * 512 + i) / 512 = last sb nr / 512 := by omega
  have hrem : (last sb nr / 512 * 512 + i) % 512 = i := by omega
  rw [hstored.copies copy hcopy _ (.inr rfl),
    ← hstored.table _ (by unfold lastSector at hlt; omega)]
  simp only [table, hdiv, hrem]
  rfl

/-- **When every buffer that was changed is marked.** -/
theorem marked_iff (h : InRange sb nr) (hstored : Stored sb nr value c c') :
    (∀ block, Modified c c' block → c'.dirty block = true) ↔
      (Straddles sb nr → ∀ copy, 1 ≤ copy → copy < sb.fats → Marked sb c nr value copy) := by
  obtain ⟨hs, hlt⟩ := sectors h
  have hfirst : sb.fatStart ≤ firstSector sb nr := Nat.le_add_right _ _
  have hstep (k m : Nat) (h : k < m) : sb.fatLength * k + sb.fatLength ≤ sb.fatLength * m := by
    rw [← Nat.mul_succ]
    exact Nat.mul_le_mul_left _ h
  constructor
  · intro hall hstraddles copy hlo hhi
    have hs2 : lastSector sb nr = firstSector sb nr + 1 := hs.resolve_left hstraddles.symm
    unfold Marked
    simp only
    by_contra hnot
    simp only [not_or, not_and, not_forall] at hnot
    obtain ⟨hodd, hclean, hnext, i, hi, hne⟩ := hnot
    have hcs : firstSector sb nr + sb.fatLength * copy + 1 = lastSector sb nr + sb.fatLength * copy := by
      omega
    have hfar := hstep 0 copy hlo
    have hmod : Modified c c' ((firstSector sb nr + sb.fatLength * copy + 1) / 2) := by
      refine ⟨_, i, rfl, hi, ?_⟩
      rw [hcs, byte_copy h hstored hhi hi, ← hcs]
      exact fun heq => hne heq.symm
    rcases (hstored.dirty _).mp (hall _ hmod) with hd | hd | ⟨k, hk, hd⟩
    · exact hclean hd
    · omega
    · -- only the next copy can have a sector in the block
      rcases Nat.lt_trichotomy k copy with hlt' | rfl | hgt
      · have := hstep k copy hlt'
        omega
      · omega
      · have hgap := hstep copy k hgt
        rcases Nat.lt_or_ge (copy + 1) k with hgt' | hle
        · have := hstep (copy + 1) k hgt'
          rw [Nat.mul_succ] at this
          omega
        · obtain rfl : k = copy + 1 := by omega
          rw [Nat.mul_succ] at hd
          exact hnext (by omega) hk
  · rintro hall block ⟨t, i, rfl, hi, hne⟩
    rw [hstored.dirty]
    by_contra hnot
    simp only [not_or, not_exists, not_and] at hnot
    obtain ⟨hclean, hlast, hcopy⟩ := hnot
    refine hne (congrFun (hstored.other t ?_) i)
    intro copy hhi
    refine ⟨fun heq => hcopy copy hhi (by rw [heq]), ?_⟩
    rintro rfl
    rcases Nat.eq_zero_or_pos copy with rfl | hlo
    · exact hlast rfl
    · rcases hs with hs | hs
      · exact hcopy copy hhi (by rw [hs])
      · have hcs : firstSector sb nr + sb.fatLength * copy + 1 =
            lastSector sb nr + sb.fatLength * copy := by omega
        have hstraddles : Straddles sb nr := by
          unfold Straddles
          omega
        have hmarked := hall hstraddles copy hlo hhi
        unfold Marked at hmarked
        simp only [hcs] at hmarked
        rcases hmarked with heven | hdirty | ⟨hlen, hnext⟩ | hsame
        · exact hcopy copy hhi (by omega)
        · exact hclean hdirty
        · refine hcopy (copy + 1) hnext ?_
          by_cases heven : (firstSector sb nr + sb.fatLength * copy) % 2 = 0
          · exact absurd (by omega) (hcopy copy hhi)
          · rw [Nat.mul_succ]
            omega
        · exact hne ((byte_copy h hstored hhi hi).trans (hsame i hi).symm)

/-! ## The entries -/

theorem raw_congr {v w : Fat} (hwide : v.wide = sb.wide) (hwide' : w.wide = sb.wide)
    (h : InRange sb nr) (hbyte : ∀ p < sb.fatLength * 512, v.byte p = w.byte p) :
    v.raw nr = w.raw nr := by
  have hlt := last_lt h
  unfold first at hlt
  unfold Fat.raw
  rw [hwide, hwide']
  split at hlt
  next hsb => rw [if_pos hsb, if_pos hsb, hbyte _ (by omega), hbyte _ (by omega)]
  next hsb =>
    rw [if_neg hsb, if_neg hsb]
    simp only
    rw [hbyte _ (by omega), hbyte _ (by omega)]

theorem raw_stored (h : InRange sb nr) (hstored : Stored sb nr value c c') {m : Nat}
    (hm : InRange sb m) : (table sb c').raw m = ((table sb c).put nr value).raw m :=
  raw_congr rfl (Fat.put_wide _ _ _) hm hstored.table

theorem read_write_self (c : Cache) (h : InRange sb nr) (hvalue : FitsEntry sb value) :
    (fatAccess sb (fatAccess sb c nr (some value)).2 nr none).1 = found sb value := by
  rw [(fatAccess_read _ h).1, raw_stored h (fatAccess_write c h value) h, Fat.raw_put_self _ _ hvalue]

theorem read_write_of_ne (c : Cache) (h : InRange sb nr) (hvalue : FitsEntry sb value) {m : Nat}
    (hm : m ≠ nr) :
    (fatAccess sb (fatAccess sb c nr (some value)).2 m none).1 = (fatAccess sb c m none).1 := by
  by_cases hrange : InRange sb m
  · rw [(fatAccess_read _ hrange).1, (fatAccess_read c hrange).1,
      raw_stored h (fatAccess_write c h value) hrange, Fat.raw_put_of_ne _ hm hvalue]
  · rw [fatAccess_outside _ hrange, fatAccess_outside c hrange]

theorem fatAccess_returns (sb : Sb) (c : Cache) (nr : Nat) (new : Option Nat) :
    (fatAccess sb c nr new).1 = (fatAccess sb c nr none).1 := by
  unfold fatAccess
  split_ifs <;> rfl

end Proofs

/-- **The entries, the copies and the buffers.**  After a write a read of the entry returns its value,
those of the others return what they did, the copies are the same, and what was read was released once;
every buffer that was changed is marked exactly if those of the second sectors of the copies are or need
not be.  A read changes nothing. -/
theorem fat_access_exact (sb : Sb) (c : Cache) {nr : Nat} (h : InRange sb nr) {value : Nat}
    (hvalue : FitsEntry sb value) :
    let c' := (fatAccess sb c nr (some value)).2
    (fatAccess sb c' nr none).1 = (if eof sb ≤ value then none else some value) ∧
      (∀ m, m ≠ nr → (fatAccess sb c' m none).1 = (fatAccess sb c m none).1) ∧
      (∀ m, InRange sb m → m ≠ nr → (table sb c').raw m = (table sb c).raw m) ∧
      (∀ copy < sb.fats, ∀ t, t = firstSector sb nr ∨ t = lastSector sb nr →
        c'.byte (t + sb.fatLength * copy) = c'.byte t) ∧
      Balanced c c' ∧
      ((∀ block, Modified c c' block → c'.dirty block = true) ↔
        (Straddles sb nr → ∀ copy, 1 ≤ copy → copy < sb.fats → Marked sb c nr value copy)) ∧
      (fatAccess sb c nr none).2.byte = c.byte ∧ (fatAccess sb c nr none).2.dirty = c.dirty ∧
      Balanced c (fatAccess sb c nr none).2 := by
  intro c'
  have hstored : Stored sb nr value c c' := fatAccess_write c h value
  have hread := fatAccess_read c h
  exact ⟨read_write_self c h hvalue, fun m hm => read_write_of_ne c h hvalue hm,
    fun m hrange hm => by rw [raw_stored h hstored hrange, Fat.raw_put_of_ne _ hm hvalue],
    hstored.copies, hstored.balanced, marked_iff h hstored, hread.2⟩

/-- A floppy disk with two FATs of two sectors. -/
def floppy : Sb where
  wide := false
  fatStart := 1
  fatLength := 2
  fats := 2
  clusters := 354
  entries := by decide
  pos := by decide

/-- Buffers of zeros. -/
def blank : Cache where
  byte := fun _ _ => 0
  dirty := fun _ => false
  got := []
  released := []

theorem fat_access_floppy :
    (fatAccess floppy (fatAccess floppy blank 2 (some 3)).2 2 none).1 = some 3 :=
  (fat_access_exact floppy blank (show InRange floppy 2 by decide)
    (show FitsEntry floppy 3 by decide)).1

/-- The entry of cluster 341 has its bytes in two sectors, and the second one of the copy is in the next
block. -/
theorem copy_not_marked : ∃ block, Modified blank (fatAccess floppy blank 341 (some 0x155)).2 block ∧
    (fatAccess floppy blank 341 (some 0x155)).2.dirty block = false :=
  ⟨2, ⟨4, 0, by decide, by decide, by decide⟩, by decide⟩

end LinuxEvocation.Msdos.FatAccess
