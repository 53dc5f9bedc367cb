import LinuxEvocation.Errno
import LinuxEvocation.Lib.Bytes
import LinuxEvocation.Mm.Swap

/-!
# The map that `sys_swapon` makes of the header of a swap area

The first page of a swap area has a bit for each page that can be used, and a signature in its last
ten bytes.  `sys_swapon` makes a map of it in the same page, with a byte for each page of the area.
It goes from the last bit to the first, so that a bit is read before its byte is written over.

* `count`, `expand` — the two loops.
* `setUp` — what `sys_swapon` makes of the page it has read.
* `swapon_map_exact` — the map, the bounds and the number of pages.
-/

namespace LinuxEvocation.Mm.Swapon

open Function (update update_of_ne update_self)

/-- The bytes of a page. -/
abbrev Page := Nat → UInt8

/-- `test_bit(nr,addr)`: the bit is in one of the words of 32 bits. -/
def testBit (nr : Nat) (addr : Page) : Bool := (Bytes.getLE addr (4 * (nr / 32)) 4).testBit (nr % 32)

/-- `"SWAP-SPACE"`. -/
def signature : List UInt8 := [83, 87, 65, 80, 45, 83, 80, 65, 67, 69]

/-- `memset(tmp+PAGE_SIZE-10,0,10)`. -/
def clearSignature (tmp : Page) : Page := Bytes.poke tmp (pageSize - 10) (List.replicate 10 0)

/-- `p->lowest_bit`, `p->highest_bit` and `j`. -/
structure Setup where
  lowestBit : Nat
  highestBit : Nat
  j : Nat

/-- A turn of the first loop. -/
def Setup.count (tmp : Page) (s : Setup) (i : Nat) : Setup :=
  if testBit i tmp then
    { lowestBit := if s.lowestBit = 0 then i else s.lowestBit
      highestBit := i
      j := s.j + 1 }
  else s

/-- The first loop, over the bits before `n`. -/
def count (tmp : Page) (n : Nat) : Setup := (List.range' 1 (n - 1)).foldl (Setup.count tmp) ⟨0, 0, 0⟩

/-- The second loop, with `i` turns left. -/
def expand : Nat → Page → Page
  | 0, tmp => tmp
  | i + 1, tmp => expand i (update tmp i (if testBit i tmp then 0 else 0x80))

/-- An area that is used, with the number of its pages. -/
structure Area extends SwapInfo where
  pages : Nat

/-- The area, of the page without its signature. -/
def area (tmp : Page) : Area :=
  let s := count tmp swapBits
  let tmp := update (expand swapBits tmp) 0 0x80
  { flags := 3
    swapMap := fun i => (tmp i).toNat
    lowestBit := s.lowestBit
    highestBit := s.highestBit
    pages := s.j }

/-- What `sys_swapon` makes of the page. -/
def setUp (tmp : Page) : Except Int Area :=
  if Bytes.peek tmp (pageSize - 10) 10 ≠ signature then .error (-Errno.einval)
  else if (count (clearSignature tmp) swapBits).j = 0 then .error (-Errno.einval)
  else .ok (area (clearSignature tmp))

/-- The page `i` of the area can be used. -/
def Usable (tmp : Page) (i : Nat) : Prop :=
  0 < i ∧ i < swapBits ∧ (clearSignature tmp (i / 8)).toNat.testBit (i % 8)

instance (tmp : Page) : DecidablePred (Usable tmp) := fun _ => inferInstanceAs (Decidable (_ ∧ _))

variable {tmp : Page} {i j n : Nat}

/-! ## The bits -/

theorem testBit_eq (nr : Nat) (addr : Page) :
    testBit nr addr = (addr (nr / 8)).toNat.testBit (nr % 8) := by
  have hbyte := @Bytes.ofNat_getLE_div addr (4 * (nr / 32)) 4 _
    (show nr % 32 / 8 < 4 by omega)
  rw [show 4 * (nr / 32) + nr % 32 / 8 = nr / 8 by omega] at hbyte
  rw [← hbyte, UInt8.toNat_ofNat', Nat.testBit_mod_two_pow, show 256 = 2 ^ 8 from rfl, ← pow_mul,
    Nat.testBit_div_two_pow, decide_eq_true (Nat.mod_lt nr (by decide)), Bool.true_and,
    show nr % 8 + 8 * (nr % 32 / 8) = nr % 32 by omega]
  rfl

theorem usable_iff (hpos : 0 < i) (hi : i < swapBits) :
    Usable tmp i ↔ testBit i (clearSignature tmp) = true := by
  rw [testBit_eq]
  exact ⟨fun h => h.2.2, fun h => ⟨hpos, hi, h⟩⟩

/-! ## The loops -/

/-- What the first loop has found among the pages before `n`. -/
structure Found (P : Nat → Prop) [DecidablePred P] (n : Nat) (s : Setup) : Prop where
  none : s.j = 0 → s.lowestBit = 0
  least : s.j ≠ 0 → IsLeast {i | P i ∧ i < n} s.lowestBit
  greatest : s.j ≠ 0 → IsGreatest {i | P i ∧ i < n} s.highestBit
  card : s.j = ((Finset.range n).filter P).card

theorem Found.count {s : Setup} (h : Found (Usable tmp) n s) (hpos : 0 < n) (hn : n < swapBits) :
    Found (Usable tmp) (n + 1) (s.count (clearSignature tmp) n) := by
  have hiff := @usable_iff tmp n hpos hn
  unfold Setup.count
  by_cases hbit : testBit n (clearSignature tmp) = true
  · have husable : Usable tmp n := hiff.mpr hbit
    rw [if_pos hbit]
    refine ⟨fun h => absurd h s.j.succ_ne_zero, fun _ => ?_, fun _ => ?_, ?_⟩
    · by_cases hj : s.j = 0
      · have hnone : ∀ i, Usable tmp i → ¬ i < n := by
          intro i hi hlt
          have hempty := Finset.card_eq_zero.mp (h.card.symm.trans hj)
          exact Finset.filter_eq_empty_iff.mp hempty (Finset.mem_range.mpr hlt) hi
        simp only [h.none hj, if_true]
        exact ⟨⟨husable, n.lt_succ_self⟩, fun i hi => not_lt.mp (hnone i hi.1)⟩
      · obtain ⟨hmem, hle⟩ := h.least hj
        simp only [if_neg hmem.1.1.ne']
        refine ⟨⟨hmem.1, hmem.2.trans n.lt_succ_self⟩, fun i hi => ?_⟩
        rcases Nat.lt_succ_iff_lt_or_eq.mp hi.2 with hlt | rfl
        · exact hle ⟨hi.1, hlt⟩
        · exact hmem.2.le
    · exact ⟨⟨husable, n.lt_succ_self⟩, fun i hi => Nat.le_of_lt_succ hi.2⟩
    · rw [Finset.range_add_one, Finset.filter_insert, if_pos husable,
        Finset.card_insert_of_notMem (by simp), ← h.card]
  · have hunusable : ¬ Usable tmp n := fun h => hbit (hiff.mp h)
    have hset : {i | Usable tmp i ∧ i < n + 1} = {i | Usable tmp i ∧ i < n} := by
      ext i
      refine and_congr_right fun hi => ⟨fun hlt => ?_, fun hlt => by omega⟩
      rcases Nat.lt_succ_iff_lt_or_eq.mp hlt with hlt | rfl
      · exact hlt
      · exact absurd hi hunusable
    rw [if_neg hbit]
    refine ⟨h.none, ?_, ?_, ?_⟩
    · rw [hset]
      exact h.least
    · rw [hset]
      exact h.greatest
    · rw [Finset.range_add_one, Finset.filter_insert, if_neg hunusable]
      exact h.card

/-- **The first loop** finds the first and the last page that can be used, and counts them. -/
theorem count_spec (hn : n < swapBits) :
    Found (Usable tmp) (n + 1) (count (clearSignature tmp) (n + 1)) := by
  induction n with
  | zero =>
    have hnone : (Finset.range 1).filter (Usable tmp) = ∅ := by
      rw [Finset.filter_eq_empty_iff]
      intro i hi husable
      exact absurd (Finset.mem_range.mp hi) (Nat.not_lt.mpr husable.1)
    exact ⟨fun _ => rfl, fun h => absurd rfl h, fun h => absurd rfl h, by rw [hnone]; rfl⟩
  | succ n ih =>
    have hrest := (ih (by omega)).count n.succ_pos hn
    rw [count, Nat.add_sub_cancel] at hrest ⊢
    rw [List.range'_concat, List.foldl_append, Nat.one_mul, Nat.add_comm 1]
    exact hrest

/-- **The second loop** reads each bit as it was in the header. -/
theorem expand_apply (n : Nat) (tmp : Page) (j : Nat) :
    expand n tmp j = if j < n then (if testBit j tmp then 0 else 0x80) else tmp j := by
  induction n generalizing tmp with
  | zero => rfl
  | succ n ih =>
    rw [expand, ih]
    by_cases hlt : j < n
    · -- the byte of the bit comes before the one that was written
      have hbit : testBit j (update tmp n (if testBit n tmp then 0 else 0x80)) = testBit j tmp := by
        rw [testBit_eq, update_of_ne (show j / 8 ≠ n by omega), ← testBit_eq]
      rw [if_pos hlt, if_pos (show j < n + 1 by omega), hbit]
    · rw [if_neg hlt]
      by_cases heq : j = n
      · rw [heq, update_self, if_pos n.lt_succ_self]
      · rw [update_of_ne heq, if_neg (by omega)]

/-! ## The map -/

theorem setUp_ok {p : Area} : setUp tmp = .ok p ↔
    Bytes.peek tmp (pageSize - 10) 10 = signature ∧ (count (clearSignature tmp) swapBits).j ≠ 0 ∧
      area (clearSignature tmp) = p := by
  unfold setUp
  split_ifs with hsig hj
  · exact iff_of_false (by simp) fun h => hsig h.1
  · exact iff_of_false (by simp) fun h => h.2.1 hj
  · simp only [not_not.mp hsig, hj, Except.ok.injEq, ne_eq, not_false_eq_true, true_and]

theorem found_all (tmp : Page) :
    Found (Usable tmp) swapBits (count (clearSignature tmp) swapBits) :=
  count_spec (n := swapBits - 1) (by decide)

theorem area_bounds (hj : (count (clearSignature tmp) swapBits).j ≠ 0) :
    IsLeast {i | Usable tmp i} (area (clearSignature tmp)).lowestBit ∧
      IsGreatest {i | Usable tmp i} (area (clearSignature tmp)).highestBit := by
  have hset : {i | Usable tmp i ∧ i < swapBits} = {i | Usable tmp i} :=
    Set.ext fun i => and_iff_left_of_imp fun h => h.2.1
  have hleast := (found_all tmp).least hj
  have hgreatest := (found_all tmp).greatest hj
  rw [hset] at hleast hgreatest
  simp only [area]
  exact ⟨hleast, hgreatest⟩

theorem area_swapMap (hi : i < swapBits) :
    (area (clearSignature tmp)).swapMap i = if Usable tmp i then 0 else 0x80 := by
  simp only [area]
  by_cases hpos : i = 0
  · rw [hpos, update_self, if_neg fun h => absurd h.1 (lt_irrefl 0)]
    rfl
  · have hiff := @usable_iff tmp _ (Nat.pos_of_ne_zero hpos) hi
    rw [update_of_ne hpos, expand_apply, if_pos hi]
    by_cases hbit : testBit i (clearSignature tmp) = true
    · rw [if_pos hbit, if_pos (hiff.mpr hbit)]
      rfl
    · rw [if_neg hbit, if_neg fun h => hbit (hiff.mp h)]
      rfl

/-- **The map of a swap area**: there is one if the signature is there and a page can be used.  It
has a zero for each page that can be used and 0x80 for the others. -/
theorem swapon_map_exact (tmp : Page) :
    ((∃ p, setUp tmp = .ok p) ↔
      Bytes.peek tmp (pageSize - 10) 10 = signature ∧ ∃ i, Usable tmp i) ∧
    ∀ p, setUp tmp = .ok p →
      (∀ i < swapBits, p.swapMap i = if Usable tmp i then 0 else 0x80) ∧
      IsLeast {i | Usable tmp i} p.lowestBit ∧ IsGreatest {i | Usable tmp i} p.highestBit ∧
      p.pages = ((Finset.range swapBits).filter (Usable tmp)).card := by
  have hcard := (found_all tmp).card
  have hsome : (count (clearSignature tmp) swapBits).j ≠ 0 ↔ ∃ i, Usable tmp i := by
    rw [hcard, Finset.card_ne_zero]
    refine ⟨fun ⟨i, hi⟩ => ⟨i, (Finset.mem_filter.mp hi).2⟩, fun ⟨i, hi⟩ => ⟨i, ?_⟩⟩
    exact Finset.mem_filter.mpr ⟨Finset.mem_range.mpr hi.2.1, hi⟩
  constructor
  · rw [← hsome]
    exact ⟨fun ⟨p, hp⟩ => ⟨(setUp_ok.mp hp).1, (setUp_ok.mp hp).2.1⟩,
      fun h => ⟨_, setUp_ok.mpr ⟨h.1, h.2, rfl⟩⟩⟩
  · intro p hp
    obtain ⟨-, hj, rfl⟩ := setUp_ok.mp hp
    obtain ⟨hleast, hgreatest⟩ := area_bounds hj
    refine ⟨fun i hi => area_swapMap hi, hleast, hgreatest, ?_⟩
    simp only [area]
    exact hcard

end LinuxEvocation.Mm.Swapon
