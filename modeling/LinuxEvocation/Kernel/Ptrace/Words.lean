import LinuxEvocation.Errno
import LinuxEvocation.Lib.Bytes
import LinuxEvocation.Lib.Masks

/-!
# The words of a traced process

A debugger reads and writes the memory of another process through its page tables, word by word.  A
word that lies on two pages is put together from two words that do not.

* `World` — the page tables of the process, memory, and where the pages of the process are.
* `World.view`, `World.cell` — the bytes that the process sees, and which of them are the same byte.
* `Pager` — `do_no_page` and `do_wp_page`.
* `getLong`, `putLong`, `readLong`, `writeLong` — the code.
* `word_access` — what a word is that is read, what is changed by one that is written, and that it
  is read again.
-/

namespace LinuxEvocation.Ptrace

open Function (update update_of_ne update_self)
open Bytes

/-! ## Page table entries -/

/-- `PAGE_PRESENT`. -/
def present (page : BitVec 32) : Bool := page &&& 0x001 != 0

/-- `PAGE_RW`. -/
def rw (page : BitVec 32) : Bool := page &&& 0x002 != 0

/-- `PAGE_DIRTY | PAGE_COW`. -/
def dirtyCow : BitVec 32 := 0x240

/-- The number of the page of memory that an entry names. -/
def frameOf (page : BitVec 32) : Nat := (page >>> 12).toNat

theorem present_dirty (page : BitVec 32) : present (page ||| dirtyCow) = present page := by
  have h : (page ||| dirtyCow) &&& 0x001 = page &&& 0x001 := by
    rw [BitVec.and_or_distrib_right]
    exact BitVec.or_zero
  rw [present, present, h]

theorem rw_dirty (page : BitVec 32) : rw (page ||| dirtyCow) = rw page := by
  have h : (page ||| dirtyCow) &&& 0x002 = page &&& 0x002 := by
    rw [BitVec.and_or_distrib_right]
    exact BitVec.or_zero
  rw [rw, rw, h]

theorem frameOf_dirty (page : BitVec 32) : frameOf (page ||| dirtyCow) = frameOf page := by
  have h : (page ||| dirtyCow) >>> 12 = page >>> 12 := by
    rw [BitVec.ushiftRight_or_distrib]
    exact BitVec.or_zero
  rw [frameOf, frameOf, h]

/-! ## Memory -/

def pageSize : Nat := 4096

/-- `TASK_SIZE`. -/
def taskSize : BitVec 32 := 0xc0000000

/-- The page tables of the process and the bytes of memory.  A page of the process shows a page of
contents, `obj`; that is in memory, at `frame`, or elsewhere, with the bytes `away`.  An entry that is
present names the page of memory where the contents is, and if it may be written to, no other
contents is there.  `rest` is what else the pager has to do with. -/
structure World (ρ : Type) where
  pte : Nat → BitVec 32
  phys : Nat → UInt8
  obj : Nat → Nat
  frame : Nat → Option Nat
  away : Nat → Nat → UInt8
  rest : ρ
  frame_of_present : ∀ p, present (pte p) = true → frame (obj p) = some (frameOf (pte p))
  alone_of_rw : ∀ p o, present (pte p) = true → rw (pte p) = true →
    frame o = some (frameOf (pte p)) → o = obj p

namespace World

variable {ρ : Type} (w : World ρ)

/-- A byte of the process, by the contents it belongs to. -/
def cell (v : Nat) : Nat × Nat := (w.obj (v / pageSize), v % pageSize)

/-- The bytes that the process sees. -/
def view (v : Nat) : UInt8 :=
  match w.frame (w.obj (v / pageSize)) with
  | some f => w.phys (f * pageSize + v % pageSize)
  | none => w.away (w.obj (v / pageSize)) (v % pageSize)

/-- The store of a word through an entry that may be written to, which becomes dirty. -/
def store (p off : Nat) (data : BitVec 32) : World ρ :=
  { w with
    pte := update w.pte p (w.pte p ||| dirtyCow)
    phys := setLE w.phys (frameOf (w.pte p) * pageSize + off) 4 data.toNat
    frame_of_present := by
      intro q hq
      by_cases h : q = p
      · subst h
        rw [update_self, present_dirty] at hq
        rw [update_self, frameOf_dirty]
        exact w.frame_of_present q hq
      · rw [update_of_ne h] at hq ⊢
        exact w.frame_of_present q hq
    alone_of_rw := by
      intro q o hq hrw hf
      by_cases h : q = p
      · subst h
        rw [update_self, present_dirty] at hq
        rw [update_self, rw_dirty] at hrw
        rw [update_self, frameOf_dirty] at hf
        exact w.alone_of_rw q o hq hrw hf
      · rw [update_of_ne h] at hq hrw hf
        exact w.alone_of_rw q o hq hrw hf }

/-- The process sees the same bytes in the same places. -/
def Same (w w' : World ρ) : Prop := w'.view = w.view ∧ w'.obj = w.obj

/-- The word at `a` has been changed, and nothing else; a byte that the process sees in two places has
changed in both. -/
structure Stored (w w' : World ρ) (a : Nat) (data : BitVec 32) : Prop where
  obj : w'.obj = w.obj
  changed : ∀ v, ∀ i < 4, w.cell v = w.cell (a + i) → w'.view v = UInt8.ofNat (data.toNat / 256 ^ i)
  kept : ∀ v, (∀ i < 4, w.cell v ≠ w.cell (a + i)) → w'.view v = w.view v

end World

/-- `do_no_page` and `do_wp_page`: the page is there, or may be written to, and the process sees what
it has seen. -/
structure Pager (ρ : Type) where
  noPage : BitVec 32 → BitVec 32 → World ρ → World ρ
  wpPage : BitVec 32 → BitVec 32 → World ρ → World ρ
  noPage_present : ∀ e a w, present ((noPage e a w).pte (a.toNat / pageSize)) = true
  noPage_same : ∀ e a w, World.Same w (noPage e a w)
  wpPage_present : ∀ e a w, present (w.pte (a.toNat / pageSize)) = true →
    present ((wpPage e a w).pte (a.toNat / pageSize)) = true
  wpPage_rw : ∀ e a w, present (w.pte (a.toNat / pageSize)) = true →
    rw ((wpPage e a w).pte (a.toNat / pageSize)) = true
  wpPage_same : ∀ e a w, World.Same w (wpPage e a w)

/-! ## The code -/

section Code

variable {ρ : Type} (P : Pager ρ)

/-- The place of the word in memory. -/
def place (page addr : BitVec 32) : Nat := frameOf page * pageSize + (addr &&& 0xfff).toNat

/-- `get_long`, at most `fuel` times round. -/
def getLong : Nat → BitVec 32 → World ρ → Option (BitVec 32 × World ρ)
  | 0, _, _ => none
  | fuel + 1, addr, w =>
    let page := w.pte (addr.toNat / pageSize)
    if ¬ present page then getLong fuel addr (P.noPage 0 addr w)
    else some (BitVec.ofNat 32 (getLE w.phys (place page addr) 4), w)

/-- `put_long`, at most `fuel` times round. -/
def putLong : Nat → BitVec 32 → BitVec 32 → World ρ → Option (World ρ)
  | 0, _, _, _ => none
  | fuel + 1, addr, data, w =>
    let page := w.pte (addr.toNat / pageSize)
    if ¬ present page then putLong fuel addr data (P.noPage 0x002 addr w)
    else if ¬ rw page then putLong fuel addr data (P.wpPage 0x003 addr w)
    else some (w.store (addr.toNat / pageSize) (addr &&& 0xfff).toNat data)

/-- The word that begins in one word and ends in the next. -/
def joinWords (addr low high : BitVec 32) : BitVec 32 :=
  if addr &&& 3 = 1 then low >>> 8 ||| high <<< 24
  else if addr &&& 3 = 2 then low >>> 16 ||| high <<< 16
  else if addr &&& 3 = 3 then low >>> 24 ||| high <<< 8
  else low

/-- The two words once the one that begins in the first and ends in the second is written. -/
def splitWord (addr low high data : BitVec 32) : BitVec 32 × BitVec 32 :=
  if addr &&& 3 = 0 then (data, high)
  else if addr &&& 3 = 1 then
    (low &&& 0x000000ff ||| data <<< 8, high &&& ~~~ 0xff#32 ||| data >>> 24)
  else if addr &&& 3 = 2 then
    (low &&& 0x0000ffff ||| data <<< 16, high &&& ~~~ 0xffff#32 ||| data >>> 16)
  else if addr &&& 3 = 3 then
    (low &&& 0x00ffffff ||| data <<< 24, high &&& ~~~ 0xffffff#32 ||| data >>> 8)
  else (low, high)

/-- `read_long`. -/
def readLong (fuel : Nat) (w : World ρ) (addr : BitVec 32) :
    Option (Except Int (BitVec 32) × World ρ) :=
  if addr > taskSize - 4 then some (.error (-Errno.eio), w)
  else if addr &&& 0xfff > 0x1000 - 4 then do
    let (low, w) ← getLong P fuel (addr &&& ~~~ 3) w
    let (high, w) ← getLong P fuel ((addr + 4) &&& ~~~ 3) w
    return (.ok (joinWords addr low high), w)
  else do
    let (result, w) ← getLong P fuel addr w
    return (.ok result, w)

/-- `write_long`. -/
def writeLong (fuel : Nat) (w : World ρ) (addr data : BitVec 32) : Option (Int × World ρ) :=
  if addr > taskSize - 4 then some (-Errno.eio, w)
  else if addr &&& 0xfff > 0x1000 - 4 then do
    let (low, w) ← getLong P fuel (addr &&& ~~~ 3) w
    let (high, w) ← getLong P fuel ((addr + 4) &&& ~~~ 3) w
    let (low, high) := splitWord addr low high data
    let w ← putLong P fuel (addr &&& ~~~ 3) low w
    let w ← putLong P fuel ((addr + 4) &&& ~~~ 3) high w
    return (0, w)
  else do
    let w ← putLong P fuel addr data w
    return (0, w)

end Code

/-! ## Words made of two words -/

theorem toNat_offset (addr : BitVec 32) : (addr &&& 0xfff).toNat = addr.toNat % pageSize :=
  Masks.toNat_and_mask addr 12

theorem toNat_misaligned (addr : BitVec 32) : (addr &&& 3).toNat = addr.toNat % 4 :=
  Masks.toNat_and_mask addr 2

theorem toNat_aligned (addr : BitVec 32) : (addr &&& ~~~ 3).toNat = addr.toNat / 4 * 4 :=
  Masks.toNat_and_not_mask addr 2

theorem toNat_word (m : Nat → UInt8) (a : Nat) :
    (BitVec.ofNat 32 (getLE m a 4)).toNat = getLE m a 4 := by
  have h := @getLE_lt m a 4
  rw [BitVec.toNat_ofNat, Nat.mod_eq_of_lt (by omega)]

/-- How far the word begins in the lower one. -/
theorem misaligned_cases {addr : BitVec 32} (h : addr.toNat % 4 ≠ 0) :
    addr.toNat % 4 = 1 ∧ addr &&& 3 = 1 ∨ addr.toNat % 4 = 2 ∧ addr &&& 3 = 2 ∨
      addr.toNat % 4 = 3 ∧ addr &&& 3 = 3 := by
  have hm := toNat_misaligned addr
  have heq (k : BitVec 32) (hk : addr.toNat % 4 = k.toNat) : addr &&& 3 = k :=
    BitVec.eq_of_toNat_eq (hm.trans hk)
  have hcases : addr.toNat % 4 = 1 ∨ addr.toNat % 4 = 2 ∨ addr.toNat % 4 = 3 := by omega
  rcases hcases with h | h | h
  · exact .inl ⟨h, heq 1 h⟩
  · exact .inr (.inl ⟨h, heq 2 h⟩)
  · exact .inr (.inr ⟨h, heq 3 h⟩)

theorem toNat_joinWords {addr : BitVec 32} (h : addr.toNat % 4 ≠ 0) (low high : BitVec 32) :
    (joinWords addr low high).toNat =
      high.toNat % 256 ^ (addr.toNat % 4) * 256 ^ (4 - addr.toNat % 4) +
        low.toNat / 256 ^ (addr.toNat % 4) := by
  rcases misaligned_cases h with ⟨hk, ha⟩ | ⟨hk, ha⟩ | ⟨hk, ha⟩
  · rw [joinWords, if_pos ha, hk]
    exact Masks.toNat_join low high (k := 8) (by decide)
  · rw [joinWords, if_neg (by rw [ha]; decide), if_pos ha, hk]
    exact Masks.toNat_join low high (k := 16) (by decide)
  · rw [joinWords, if_neg (by rw [ha]; decide), if_neg (by rw [ha]; decide), if_pos ha, hk]
    exact Masks.toNat_join low high (k := 24) (by decide)

theorem toNat_splitWord {addr : BitVec 32} (h : addr.toNat % 4 ≠ 0) (low high data : BitVec 32) :
    (splitWord addr low high data).1.toNat =
        data.toNat % 256 ^ (4 - addr.toNat % 4) * 256 ^ (addr.toNat % 4) +
          low.toNat % 256 ^ (addr.toNat % 4) ∧
      (splitWord addr low high data).2.toNat =
        high.toNat / 256 ^ (addr.toNat % 4) * 256 ^ (addr.toNat % 4) +
          data.toNat / 256 ^ (4 - addr.toNat % 4) := by
  have h0 : addr &&& 3 ≠ 0 := by
    rcases misaligned_cases h with ⟨-, ha⟩ | ⟨-, ha⟩ | ⟨-, ha⟩ <;> rw [ha] <;> decide
  rcases misaligned_cases h with ⟨hk, ha⟩ | ⟨hk, ha⟩ | ⟨hk, ha⟩
  · rw [splitWord, if_neg h0, if_pos ha, hk]
    exact ⟨Masks.toNat_setHigh low data (k := 8) (by decide),
      Masks.toNat_setLow high data (k := 8) (by decide)⟩
  · rw [splitWord, if_neg h0, if_neg (by rw [ha]; decide), if_pos ha, hk]
    exact ⟨Masks.toNat_setHigh low data (k := 16) (by decide),
      Masks.toNat_setLow high data (k := 16) (by decide)⟩
  · rw [splitWord, if_neg h0, if_neg (by rw [ha]; decide), if_neg (by rw [ha]; decide), if_pos ha,
      hk]
    exact ⟨Masks.toNat_setHigh low data (k := 24) (by decide),
      Masks.toNat_setLow high data (k := 24) (by decide)⟩

/-- The word that is put together is the one at the address. -/
theorem joinWords_eq {addr : BitVec 32} (h : addr.toNat % 4 ≠ 0) (m : Nat → UInt8) :
    joinWords addr (BitVec.ofNat 32 (getLE m (addr.toNat / 4 * 4) 4))
        (BitVec.ofNat 32 (getLE m (addr.toNat / 4 * 4 + 4) 4)) =
      BitVec.ofNat 32 (getLE m addr.toNat 4) := by
  apply BitVec.eq_of_toNat_eq
  rw [toNat_joinWords h, toNat_word, toNat_word, toNat_word]
  -- the word at `b + k` has `j` bytes of the lower word and `k` of the upper one
  obtain ⟨b, k, j, hb, hk, hkj⟩ : ∃ b k j, addr.toNat / 4 * 4 = b ∧ addr.toNat % 4 = k ∧ k + j = 4 :=
    ⟨_, _, 4 - addr.toNat % 4, rfl, rfl, by omega⟩
  have haddr : addr.toNat = b + k := by omega
  have hnext : b + k + j = b + 4 := by omega
  have hj : 4 - k = j := by omega
  have hpos : 0 < 256 ^ k := Nat.pow_pos (by decide)
  have hlow : getLE m b 4 / 256 ^ k = getLE m (b + k) j := by
    rw [← hkj, getLE_add, Nat.add_mul_div_left _ _ hpos, Nat.div_eq_of_lt getLE_lt, Nat.zero_add]
  have hhigh : getLE m (b + 4) 4 % 256 ^ k = getLE m (b + 4) k := by
    rw [← hkj, getLE_add, Nat.add_mul_mod_self_left, Nat.mod_eq_of_lt getLE_lt]
  have hword : getLE m (b + k) 4 = getLE m (b + k) j + 256 ^ j * getLE m (b + 4) k := by
    rw [← hnext, ← getLE_add, Nat.add_comm j k, hkj]
  rw [hb, hk, hj, hlow, hhigh, haddr, hword, Nat.add_comm, Nat.mul_comm]

/-- The bytes of the two words once a word that begins in the first is written. -/
theorem splitWord_bytes {addr : BitVec 32} (h : addr.toNat % 4 ≠ 0) (low high data : BitVec 32)
    {i : Nat} (hi : i < 4) :
    UInt8.ofNat ((splitWord addr low high data).1.toNat / 256 ^ i) =
        (if i < addr.toNat % 4 then UInt8.ofNat (low.toNat / 256 ^ i)
          else UInt8.ofNat (data.toNat / 256 ^ (i - addr.toNat % 4))) ∧
      UInt8.ofNat ((splitWord addr low high data).2.toNat / 256 ^ i) =
        (if i < addr.toNat % 4 then UInt8.ofNat (data.toNat / 256 ^ (i + 4 - addr.toNat % 4))
          else UInt8.ofNat (high.toNat / 256 ^ i)) := by
  have hbyte (x y : Nat) (hxy : x % 256 = y % 256) : UInt8.ofNat x = UInt8.ofNat y := by
    apply UInt8.toNat_inj.mp
    rw [UInt8.toNat_ofNat', UInt8.toNat_ofNat']
    exact hxy
  have hd := data.isLt
  obtain ⟨h1, h2⟩ := toNat_splitWord h low high data
  rw [h1, h2]
  have hk : addr.toNat % 4 = 1 ∨ addr.toNat % 4 = 2 ∨ addr.toNat % 4 = 3 := by omega
  have hcase : i = 0 ∨ i = 1 ∨ i = 2 ∨ i = 3 := by omega
  rcases hk with hk | hk | hk <;> rcases hcase with rfl | rfl | rfl | rfl <;> rw [hk] <;>
    constructor <;> apply hbyte <;> norm_num <;> omega

/-! ## A word on one page -/

section OnePage

variable {ρ : Type} {P : Pager ρ} {w w' w'' : World ρ} {addr data : BitVec 32}

theorem World.Same.trans (h : World.Same w w') (h' : World.Same w' w'') : World.Same w w'' :=
  ⟨h'.1.trans h.1, h'.2.trans h.2⟩

theorem World.Same.cell (h : World.Same w w') (v : Nat) : w'.cell v = w.cell v := by
  rw [World.cell, World.cell, h.2]

theorem World.view_congr (w : World ρ) {v u : Nat} (h : w.cell v = w.cell u) :
    w.view v = w.view u := by
  obtain ⟨hobj, hoff⟩ := Prod.mk.inj h
  rw [World.view, World.view, hobj, hoff]

theorem word_on_page {a i : Nat} (h : a % pageSize ≤ 4092) (hi : i < 4) :
    (a + i) / pageSize = a / pageSize ∧ (a + i) % pageSize = a % pageSize + i := by
  unfold pageSize at *
  omega

/-- A word of a page that is present is the one that the process sees. -/
theorem getLE_place (h : present (w.pte (addr.toNat / pageSize)) = true)
    (hoff : addr.toNat % pageSize ≤ 4092) :
    getLE w.phys (place (w.pte (addr.toNat / pageSize)) addr) 4 = getLE w.view addr.toNat 4 := by
  apply getLE_shift
  intro i hi
  obtain ⟨hpage, hin⟩ := word_on_page hoff hi
  rw [World.view, hpage, hin, w.frame_of_present _ h, place, toNat_offset, Nat.add_assoc]

theorem getLong_spec (P : Pager ρ) (w : World ρ) (hoff : addr.toNat % pageSize ≤ 4092) {fuel : Nat}
    (hfuel : 2 ≤ fuel) :
    ∃ w', getLong P fuel addr w = some (BitVec.ofNat 32 (getLE w.view addr.toNat 4), w') ∧
      World.Same w w' := by
  obtain ⟨fuel, rfl⟩ := Nat.exists_eq_add_of_le' hfuel
  by_cases h : present (w.pte (addr.toNat / pageSize)) = true
  · refine ⟨w, ?_, rfl, rfl⟩
    rw [getLong, if_neg (not_not.mpr h), getLE_place h hoff]
  · have hp := P.noPage_present 0 addr w
    have hsame := P.noPage_same 0 addr w
    refine ⟨P.noPage 0 addr w, ?_, hsame⟩
    rw [getLong, if_pos h, getLong, if_neg (not_not.mpr hp), getLE_place hp hoff, hsame.1]

/-- A store through an entry that may be written to. -/
theorem stored_store (h : present (w.pte (addr.toNat / pageSize)) = true)
    (hrw : rw (w.pte (addr.toNat / pageSize)) = true) (hoff : addr.toNat % pageSize ≤ 4092) :
    World.Stored w (w.store (addr.toNat / pageSize) (addr &&& 0xfff).toNat data) addr.toNat data := by
  have hframe := w.frame_of_present _ h
  rw [toNat_offset]
  refine ⟨rfl, ?_, ?_⟩
  · intro v i hi hcell
    obtain ⟨hpage, hin⟩ := word_on_page hoff hi
    obtain ⟨hobj, hv⟩ := Prod.mk.inj hcell
    rw [hpage] at hobj
    rw [hin] at hv
    rw [World.view]
    simp only [World.store]
    rw [hobj, hframe, hv]
    simp only
    rw [← Nat.add_assoc]
    exact setLE_apply hi
  · intro v hne
    rw [World.view, World.view]
    simp only [World.store]
    cases hf : w.frame (w.obj (v / pageSize)) with
    | none => rfl
    | some f =>
      simp only
      apply setLE_of_apart
      by_cases heq : f = frameOf (w.pte (addr.toNat / pageSize))
      · -- the store is in this page of memory, so the contents is that of the address
        have hobj := w.alone_of_rw _ _ h hrw (heq ▸ hf)
        rw [heq]
        by_contra hin
        have hi : v % pageSize - addr.toNat % pageSize < 4 := by omega
        obtain ⟨hpage, hin'⟩ := word_on_page hoff hi
        refine hne _ hi (Prod.ext ?_ ?_)
        · rw [World.cell, World.cell, hpage]
          exact hobj
        · rw [World.cell, World.cell, hin']
          simp only
          omega
      · have hv : v % pageSize < pageSize := Nat.mod_lt _ (by decide)
        rcases Nat.lt_or_gt_of_ne heq with hlt | hgt
        · have hle := Nat.mul_le_mul_right pageSize (Nat.succ_le_of_lt hlt)
          rw [Nat.succ_mul] at hle
          omega
        · have hle := Nat.mul_le_mul_right pageSize (Nat.succ_le_of_lt hgt)
          rw [Nat.succ_mul] at hle
          unfold pageSize at *
          omega

theorem World.Same.stored (h : World.Same w w') {a : Nat} (h' : World.Stored w' w'' a data) :
    World.Stored w w'' a data where
  obj := h'.obj.trans h.2
  changed v i hi hcell := h'.changed v i hi (by rw [h.cell, h.cell, hcell])
  kept v hne := by
    rw [h'.kept v fun i hi => by rw [h.cell, h.cell]; exact hne i hi, h.1]

theorem putLong_spec (P : Pager ρ) (w : World ρ) (data : BitVec 32)
    (hoff : addr.toNat % pageSize ≤ 4092) {fuel : Nat} (hfuel : 3 ≤ fuel) :
    ∃ w', putLong P fuel addr data w = some w' ∧ World.Stored w w' addr.toNat data := by
  -- once the page is present, at most one more round is made
  have hpresent (w : World ρ) (h : present (w.pte (addr.toNat / pageSize)) = true) (n : Nat) :
      ∃ w', putLong P (n + 2) addr data w = some w' ∧ World.Stored w w' addr.toNat data := by
    by_cases hrw : rw (w.pte (addr.toNat / pageSize)) = true
    · refine ⟨_, ?_, stored_store h hrw hoff⟩
      rw [putLong, if_neg (not_not.mpr h), if_neg (not_not.mpr hrw)]
    · have hp := P.wpPage_present 0x003 addr w h
      have hw := P.wpPage_rw 0x003 addr w h
      refine ⟨_, ?_, (P.wpPage_same 0x003 addr w).stored (stored_store hp hw hoff)⟩
      rw [putLong, if_neg (not_not.mpr h), if_pos hrw, putLong, if_neg (not_not.mpr hp),
        if_neg (not_not.mpr hw)]
  obtain ⟨n, rfl⟩ := Nat.exists_eq_add_of_le' hfuel
  by_cases h : present (w.pte (addr.toNat / pageSize)) = true
  · exact hpresent w h (n + 1)
  · obtain ⟨w', hput, hst⟩ := hpresent _ (P.noPage_present 0x002 addr w) n
    refine ⟨w', ?_, (P.noPage_same 0x002 addr w).stored hst⟩
    rw [putLong, if_pos h]
    exact hput

end OnePage

/-! ## A word anywhere -/

section Access

variable {ρ : Type} {P : Pager ρ} {w w' w'' : World ρ} {addr data : BitVec 32}

/-- The addresses of the two words in which a word lies that crosses a page boundary. -/
theorem crossing (hle : addr.toNat ≤ 0xbffffffc) (h : 4092 < addr.toNat % pageSize) :
    addr.toNat % 4 ≠ 0 ∧ (addr &&& ~~~ 3).toNat = addr.toNat / 4 * 4 ∧
      ((addr + 4) &&& ~~~ 3).toNat = addr.toNat / 4 * 4 + 4 ∧
      addr.toNat / 4 * 4 % pageSize = 4092 ∧ (addr.toNat / 4 * 4 + 4) % pageSize = 0 := by
  have hfour : (4 : BitVec 32).toNat = 4 := rfl
  have hsum : (addr + 4).toNat = addr.toNat + 4 := by
    rw [BitVec.toNat_add, hfour, Nat.mod_eq_of_lt (by omega)]
  rw [toNat_aligned, toNat_aligned, hsum]
  unfold pageSize at *
  omega

theorem readLong_spec (P : Pager ρ) (w : World ρ) (hle : addr.toNat ≤ 0xbffffffc) {fuel : Nat}
    (hfuel : 2 ≤ fuel) :
    ∃ w', readLong P fuel w addr =
        some (.ok (BitVec.ofNat 32 (getLE w.view addr.toNat 4)), w') ∧ World.Same w w' := by
  have hnot : ¬ addr > taskSize - 4 := Nat.not_lt.mpr hle
  have hcross : addr &&& 0xfff > 0x1000 - 4 ↔ 4092 < addr.toNat % pageSize := by
    rw [← toNat_offset]
    rfl
  by_cases h : 4092 < addr.toNat % pageSize
  · obtain ⟨hmis, hlow, hhigh, hoff, hoff'⟩ := crossing hle h
    obtain ⟨w₁, hget₁, hs₁⟩ := @getLong_spec _ (addr &&& ~~~ 3) P w (by rw [hlow, hoff]) _ hfuel
    obtain ⟨w₂, hget₂, hs₂⟩ := @getLong_spec _ ((addr + 4) &&& ~~~ 3) P w₁
      (by rw [hhigh, hoff']; decide) _ hfuel
    refine ⟨w₂, ?_, hs₁.trans hs₂⟩
    rw [readLong, if_neg hnot, if_pos (hcross.mpr h), hget₁]
    simp only [Option.bind_eq_bind, Option.bind_some]
    rw [hget₂, hlow, hhigh, hs₁.1]
    simp only [Option.bind_some]
    rw [joinWords_eq hmis]
    rfl
  · obtain ⟨w₁, hget, hs⟩ := @getLong_spec _ addr P w (Nat.not_lt.mp h) _ hfuel
    refine ⟨w₁, ?_, hs⟩
    rw [readLong, if_neg hnot, if_neg (fun hc => h (hcross.mp hc)), hget]
    rfl

/-- Two words that are next to each other on two pages have eight different bytes. -/
theorem cell_ne {b i j : Nat} (hb : b % pageSize = 4092) (hi : i < 4) (hj : j < 4) :
    w.cell (b + i) ≠ w.cell (b + 4 + j) := by
  intro h
  have hoff := (Prod.mk.inj h).2
  unfold pageSize at *
  omega

/-- The stores of the two words are the store of the word that lies in both. -/
theorem stored_split (hmis : addr.toNat % 4 ≠ 0) {b : Nat} (hb : addr.toNat / 4 * 4 = b)
    (hoff : b % pageSize = 4092)
    (h₁ : World.Stored w w' b (splitWord addr (BitVec.ofNat 32 (getLE w.view b 4))
      (BitVec.ofNat 32 (getLE w.view (b + 4) 4)) data).1)
    (h₂ : World.Stored w' w'' (b + 4) (splitWord addr (BitVec.ofNat 32 (getLE w.view b 4))
      (BitVec.ofNat 32 (getLE w.view (b + 4) 4)) data).2) :
    World.Stored w w'' addr.toNat data := by
  obtain ⟨k, hk, hk0, hk4⟩ : ∃ k, addr.toNat % 4 = k ∧ 0 < k ∧ k < 4 := ⟨_, rfl, by omega, by omega⟩
  have haddr : addr.toNat = b + k := by omega
  have hbytes {i : Nat} (hi : i < 4) := splitWord_bytes hmis (BitVec.ofNat 32 (getLE w.view b 4))
    (BitVec.ofNat 32 (getLE w.view (b + 4) 4)) data hi
  rw [toNat_word, toNat_word, hk] at hbytes
  have hcell (v : Nat) : w'.cell v = w.cell v := by rw [World.cell, World.cell, h₁.obj]
  -- what becomes of the eight bytes
  have hlower {v i : Nat} (hi : i < 4) (hv : w.cell v = w.cell (b + i)) :
      w''.view v = UInt8.ofNat ((splitWord addr (BitVec.ofNat 32 (getLE w.view b 4))
        (BitVec.ofNat 32 (getLE w.view (b + 4) 4)) data).1.toNat / 256 ^ i) := by
    rw [h₂.kept v, h₁.changed v i hi hv]
    intro j hj
    rw [hcell, hcell, hv]
    exact cell_ne hoff hi hj
  have hupper {v i : Nat} (hi : i < 4) (hv : w.cell v = w.cell (b + 4 + i)) :
      w''.view v = UInt8.ofNat ((splitWord addr (BitVec.ofNat 32 (getLE w.view b 4))
        (BitVec.ofNat 32 (getLE w.view (b + 4) 4)) data).2.toNat / 256 ^ i) :=
    h₂.changed v i hi (by rw [hcell, hcell, hv])
  refine ⟨h₂.obj.trans h₁.obj, ?_, ?_⟩
  · intro v i hi hv
    rw [haddr, Nat.add_assoc] at hv
    by_cases hlt : k + i < 4
    · rw [hlower hlt hv, (hbytes hlt).1, if_neg (by omega), Nat.add_sub_cancel_left]
    · have hnext : b + (k + i) = b + 4 + (k + i - 4) := by omega
      have hi' : k + i - 4 < 4 := by omega
      have hback : k + i - 4 + 4 - k = i := by omega
      rw [hnext] at hv
      rw [hupper hi' hv, (hbytes hi').2, if_pos (by omega), hback]
  · intro v hne
    rw [haddr] at hne
    by_cases hlow : ∃ i < 4, w.cell v = w.cell (b + i)
    · obtain ⟨i, hi, hv⟩ := hlow
      have hik : i < k := by
        by_contra hge
        refine hne (i - k) (by omega) ?_
        rw [hv, Nat.add_assoc, Nat.add_sub_cancel' (Nat.not_lt.mp hge)]
      rw [hlower hi hv, (hbytes hi).1, if_pos hik, ofNat_getLE_div hi, w.view_congr hv]
    · by_cases hhigh : ∃ i < 4, w.cell v = w.cell (b + 4 + i)
      · obtain ⟨i, hi, hv⟩ := hhigh
        have hik : ¬ i < k := by
          intro hlt
          refine hne (4 + i - k) (by omega) ?_
          have hnext : b + k + (4 + i - k) = b + 4 + i := by omega
          rw [hv, hnext]
        rw [hupper hi hv, (hbytes hi).2, if_neg hik, ofNat_getLE_div hi, w.view_congr hv]
      · push Not at hlow hhigh
        rw [h₂.kept v fun j hj => by rw [hcell, hcell]; exact hhigh j hj, h₁.kept v hlow]

theorem writeLong_spec (P : Pager ρ) (w : World ρ) (data : BitVec 32)
    (hle : addr.toNat ≤ 0xbffffffc) {fuel : Nat} (hfuel : 3 ≤ fuel) :
    ∃ w', writeLong P fuel w addr data = some (0, w') ∧ World.Stored w w' addr.toNat data := by
  have hnot : ¬ addr > taskSize - 4 := Nat.not_lt.mpr hle
  have hcross : addr &&& 0xfff > 0x1000 - 4 ↔ 4092 < addr.toNat % pageSize := by
    rw [← toNat_offset]
    rfl
  have htwo : 2 ≤ fuel := by omega
  by_cases h : 4092 < addr.toNat % pageSize
  · obtain ⟨hmis, hlow, hhigh, hoff, hoff'⟩ := crossing hle h
    obtain ⟨w₁, hget₁, hs₁⟩ := @getLong_spec _ (addr &&& ~~~ 3) P w (by rw [hlow, hoff]) _ htwo
    obtain ⟨w₂, hget₂, hs₂⟩ := @getLong_spec _ ((addr + 4) &&& ~~~ 3) P w₁
      (by rw [hhigh, hoff']; decide) _ htwo
    rw [hlow] at hget₁
    rw [hhigh, hs₁.1] at hget₂
    have hsame := hs₁.trans hs₂
    -- the new values of the two words
    obtain ⟨low, high, hlh⟩ : ∃ low high, splitWord addr
        (BitVec.ofNat 32 (getLE w.view (addr.toNat / 4 * 4) 4))
        (BitVec.ofNat 32 (getLE w.view (addr.toNat / 4 * 4 + 4) 4)) data = (low, high) :=
      ⟨_, _, rfl⟩
    obtain ⟨w₃, hput₁, hst₁⟩ := @putLong_spec _ (addr &&& ~~~ 3) P w₂ low
      (by rw [hlow, hoff]) _ hfuel
    obtain ⟨w₄, hput₂, hst₂⟩ := @putLong_spec _ ((addr + 4) &&& ~~~ 3) P w₃ high
      (by rw [hhigh, hoff']; decide) _ hfuel
    rw [hlow] at hst₁
    rw [hhigh] at hst₂
    refine ⟨w₄, ?_, ?_⟩
    · rw [writeLong, if_neg hnot, if_pos (hcross.mpr h), hget₁]
      simp only [Option.bind_eq_bind, Option.bind_some]
      rw [hget₂]
      simp only [Option.bind_some]
      rw [hlh]
      simp only
      rw [hput₁]
      simp only [Option.bind_some]
      rw [hput₂]
      rfl
    · refine @stored_split _ w w₃ w₄ addr data hmis _ rfl hoff ?_ ?_
      · rw [hlh]
        exact hsame.stored hst₁
      · rw [hlh]
        exact hst₂
  · obtain ⟨w₁, hput, hst⟩ := @putLong_spec _ addr P w data (Nat.not_lt.mp h) _ hfuel
    refine ⟨w₁, ?_, hst⟩
    rw [writeLong, if_neg hnot, if_neg (fun hc => h (hcross.mp hc)), hput]
    rfl

/-- **Words of a traced process.**  With a pager that keeps what the process sees, reading a word gives
its four bytes, the lowest first, and writing one changes these four and no others; it is then read
again. -/
theorem word_access (P : Pager ρ) (w : World ρ) {addr : BitVec 32} (data : BitVec 32)
    (hle : addr ≤ taskSize - 4) {fuel : Nat} (hfuel : 3 ≤ fuel) :
    (∃ w', readLong P fuel w addr =
        some (.ok (BitVec.ofNat 32 (getLE w.view addr.toNat 4)), w') ∧ World.Same w w') ∧
      ∃ w', writeLong P fuel w addr data = some (0, w') ∧ World.Stored w w' addr.toNat data ∧
        ∃ w'', readLong P fuel w' addr = some (.ok data, w'') ∧ World.Same w' w'' := by
  have htwo : 2 ≤ fuel := by omega
  refine ⟨readLong_spec P w hle htwo, ?_⟩
  obtain ⟨w', hwrite, hst⟩ := writeLong_spec P w data hle hfuel
  obtain ⟨w'', hread, hsame⟩ := readLong_spec P w' hle htwo
  have hback : getLE w'.view addr.toNat 4 = data.toNat := by
    have hself := @getLE_setLE_self w.view addr.toNat 4 data.toNat data.isLt
    rw [← hself]
    apply getLE_shift
    intro i hi
    rw [hst.changed _ i hi rfl, setLE_apply hi]
  rw [hback, BitVec.ofNat_toNat, BitVec.setWidth_eq] at hread
  exact ⟨w', hwrite, hst, w'', hread, hsame⟩

end Access

/-! ## A pager -/

/-- A byte of a page of contents. -/
def World.seen {ρ : Type} (w : World ρ) (o off : Nat) : UInt8 :=
  match w.frame o with
  | some f => w.phys (f * pageSize + off)
  | none => w.away o off

/-- Memory of one page, with page `p` in it, by the entry `page`. -/
def World.alone (w : World Unit) (p : Nat) (page : BitVec 32) (h : frameOf page = 0) :
    World Unit where
  pte q := if q = p then page else 0
  phys a := w.seen (w.obj p) a
  obj := w.obj
  frame o := if o = w.obj p then some 0 else none
  away := w.seen
  rest := ()
  frame_of_present q hq := by
    by_cases hqp : q = p
    · rw [if_pos (congrArg w.obj hqp), if_pos hqp, h]
    · rw [if_neg hqp] at hq
      exact absurd hq (by decide)
  alone_of_rw q o hq _ hf := by
    by_cases hqp : q = p
    · rw [hqp]
      by_contra hne
      rw [if_neg hne] at hf
      exact absurd hf.symm (Option.some_ne_none _)
    · rw [if_neg hqp] at hq
      exact absurd hq (by decide)

theorem World.alone_same (w : World Unit) (p : Nat) (page : BitVec 32) (h : frameOf page = 0) :
    World.Same w (w.alone p page h) := by
  refine ⟨funext fun v => ?_, rfl⟩
  rw [World.view, World.view]
  simp only [World.alone]
  by_cases hv : w.obj (v / pageSize) = w.obj p
  · rw [if_pos hv]
    simp only
    rw [Nat.zero_mul, Nat.zero_add, hv, World.seen]
  · rw [if_neg hv]
    simp only
    rw [World.seen]

theorem World.alone_pte (w : World Unit) (p : Nat) (page : BitVec 32) (h : frameOf page = 0) :
    (w.alone p page h).pte p = page :=
  if_pos rfl

/-- The pager of a machine that has one page of memory. -/
def onePage : Pager Unit where
  noPage _ a w := w.alone (a.toNat / pageSize) 0x001 (by decide)
  wpPage _ a w := w.alone (a.toNat / pageSize) 0x003 (by decide)
  noPage_present _ a w := by
    rw [World.alone_pte]
    decide
  noPage_same _ a w := w.alone_same _ _ _
  wpPage_present _ a w _ := by
    rw [World.alone_pte]
    decide
  wpPage_rw _ a w _ := by
    rw [World.alone_pte]
    decide
  wpPage_same _ a w := w.alone_same _ _ _

/-- A process none of whose pages is in memory; the pages hold zeros. -/
def untouched : World Unit where
  pte _ := 0
  phys _ := 0
  obj p := p
  frame _ := none
  away _ _ := 0
  rest := ()
  frame_of_present _ h := absurd h (by decide)
  alone_of_rw _ _ h := absurd h (by decide)

/-- A word that begins two bytes before the end of a page. -/
theorem word_access_crossing :
    ∃ w, writeLong onePage 3 untouched 0x1ffe 0xdeadbeef = some (0, w) ∧
      (readLong onePage 3 w 0x1ffe).map Prod.fst = some (.ok 0xdeadbeef) := by
  obtain ⟨-, w, hwrite, -, w', hread, -⟩ :=
    @word_access _ onePage untouched 0x1ffe 0xdeadbeef (by decide) 3 (by decide)
  exact ⟨w, hwrite, by rw [hread]; rfl⟩

end LinuxEvocation.Ptrace
