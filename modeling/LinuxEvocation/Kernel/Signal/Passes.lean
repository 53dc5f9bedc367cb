import LinuxEvocation.Kernel.Signal.Basic

/-!
# The two passes over the pending signals

Both loops of `do_signal` are walks over one ascending list of signals.

* `pick`, `selected` — the signals whose handlers are called: from the lowest on, those that are
  pending and neither blocked nor masked by one that was picked before.
* `adjusted`, `restart_interrupts` — what becomes of the interrupted system call.
-/

namespace LinuxEvocation.Signal

/-! ## Sets of signals -/

theorem getLsbD_empty (j : Nat) : (0 : BitVec 32).getLsbD j = false :=
  BitVec.getLsbD_zero

theorem getLsbD_diff (x y : BitVec 32) (j : Nat) :
    (x &&& ~~~ y).getLsbD j = (x.getLsbD j && !y.getLsbD j) := by
  rw [BitVec.getLsbD_and, BitVec.getLsbD_not]
  by_cases hj : j < 32
  · rw [decide_eq_true hj, Bool.true_and]
  · rw [BitVec.getLsbD_of_ge x j (Nat.not_lt.mp hj), Bool.false_and, Bool.false_and]

theorem getLsbD_sBit {s : Nat} (hs : s < 32) (j : Nat) :
    (sBit (s + 1)).getLsbD j = decide (j = s) := by
  rw [sBit, Nat.add_sub_cancel, BitVec.getLsbD_shiftLeft, BitVec.getLsbD_one]
  rcases Nat.lt_trichotomy j s with hlt | rfl | hgt
  · simp [hlt, hlt.ne]
  · simp [hs]
  · have hsub : j - s ≠ 0 := by omega
    simp [hsub, hgt.ne']

/-- The set of the signals of a list, one less each. -/
def bitsOf : List Nat → BitVec 32
  | [] => 0
  | s :: l => sBit (s + 1) ||| bitsOf l

variable {l : List Nat}

theorem getLsbD_bitsOf (hl : ∀ s ∈ l, s < 32) (j : Nat) :
    (bitsOf l).getLsbD j = decide (j ∈ l) := by
  induction l with
  | nil => simp [bitsOf]
  | cons s l ih =>
    rw [bitsOf, BitVec.getLsbD_or, getLsbD_sBit (hl s List.mem_cons_self),
      ih fun r hr => hl r (List.mem_cons_of_mem _ hr)]
    simp

theorem ctz_eq {x : BitVec 32} {i : Nat} (hi : x.getLsbD i = true)
    (hlow : ∀ j < i, x.getLsbD j = false) : x.ctz.toNat = i := by
  have hne : x ≠ 0 := by
    rintro rfl
    rw [getLsbD_empty] at hi
    exact absurd hi (by decide)
  have hctz := BitVec.getLsbD_true_ctz_of_ne_zero hne
  apply Nat.le_antisymm
  · by_contra hlt
    rw [BitVec.getLsbD_false_of_lt_ctz (Nat.not_le.mp hlt)] at hi
    exact absurd hi (by decide)
  · by_contra hlt
    rw [hlow _ (Nat.not_le.mp hlt)] at hctz
    exact absurd hctz (by decide)

/-! ## The signals that are picked -/

/-- The signals `i + 1` to `i + n` that are picked, one less each. -/
def pick (sa : Nat → Sigaction) (signal : BitVec 32) : Nat → Nat → BitVec 32 → List Nat
  | 0, _, _ => []
  | n + 1, i, mask =>
    if signal.getLsbD i && mask.getLsbD i then
      i :: pick sa signal n (i + 1) (mask &&& ~~~ (sa i).mask.bits)
    else pick sa signal n (i + 1) mask

/-- The signals whose handlers are called, one less each. -/
def selected (t : Task) : List Nat := pick t.sigaction t.signal 32 0 (~~~ t.blocked.bits)

section Pick

variable {sa : Nat → Sigaction} {signal signal' mask : BitVec 32} {n i s : Nat}

theorem pick_bounds (h : s ∈ pick sa signal n i mask) :
    i ≤ s ∧ s < i + n ∧ signal.getLsbD s = true ∧ mask.getLsbD s = true := by
  induction n generalizing i mask with
  | zero => exact absurd h List.not_mem_nil
  | succ n ih =>
    rw [pick] at h
    split at h
    next hi =>
      rw [Bool.and_eq_true] at hi
      rcases List.mem_cons.mp h with rfl | h
      · exact ⟨le_rfl, by omega, hi⟩
      · obtain ⟨hle, hlt, hs, hm⟩ := ih h
        rw [getLsbD_diff, Bool.and_eq_true] at hm
        exact ⟨by omega, by omega, hs, hm.1⟩
    next =>
      obtain ⟨hle, hlt, hs⟩ := ih h
      exact ⟨by omega, by omega, hs⟩

theorem pick_sorted : (pick sa signal n i mask).Pairwise (· < ·) := by
  induction n generalizing i mask with
  | zero => exact List.Pairwise.nil
  | succ n ih =>
    rw [pick]
    split
    · exact List.pairwise_cons.mpr ⟨fun s hs => (pick_bounds hs).1, ih⟩
    · exact ih

theorem length_pick_le : (pick sa signal n i mask).length ≤ n := by
  induction n generalizing i mask with
  | zero => exact le_rfl
  | succ n ih =>
    rw [pick]
    split
    · exact Nat.succ_le_succ ih
    · exact Nat.le_succ_of_le ih

/-- Only the signals from `i + 1` on matter. -/
theorem pick_congr (h : ∀ j, i ≤ j → signal'.getLsbD j = signal.getLsbD j) :
    pick sa signal' n i mask = pick sa signal n i mask := by
  induction n generalizing i mask with
  | zero => rfl
  | succ n ih =>
    rw [pick, pick, h i le_rfl, ih fun j hj => h j (by omega), ih fun j hj => h j (by omega)]

end Pick

/-! ## The first pass -/

/-- A handler is called for the signal `s + 1`. -/
def choose (p : Pass) (s : Nat) : Pass :=
  invoke { p with task.signal := p.task.signal &&& ~~~ sBit (s + 1) } (s + 1)

variable {p : Pass}

theorem getLsbD_choose {i : Nat} (hi : i < 32) (j : Nat) :
    (choose p i).task.signal.getLsbD j = (p.task.signal.getLsbD j && decide (j ≠ i)) := by
  simp [choose, invoke, getLsbD_diff, getLsbD_sBit hi, -BitVec.getLsbD_and]

/-- All signals that would be delivered have handlers. -/
def AllHandled (sa : Nat → Sigaction) (signal mask : BitVec 32) : Prop :=
  ∀ s, signal.getLsbD s = true → mask.getLsbD s = true →
    (sa s).handler ≠ sigDfl ∧ (sa s).handler ≠ sigIgn

theorem turn_eq {env : Others} {i : Nat} (hu : p.task.ptraced = false)
    (hh : AllHandled p.task.sigaction p.task.signal p.mask)
    (hi : (p.task.signal &&& p.mask).getLsbD i = true)
    (hlow : ∀ j < i, (p.task.signal &&& p.mask).getLsbD j = false) :
    turn env p = .ok (choose p i) := by
  have hctz := ctz_eq hi hlow
  rw [BitVec.getLsbD_and, Bool.and_eq_true] at hi
  obtain ⟨hdfl, hign⟩ := hh i hi.1 hi.2
  have hp : ¬ (p.task.ptraced = true ∧ i + 1 ≠ sigkill) := by simp [hu]
  simp only [turn, hctz]
  rw [if_neg hp]
  simp only [dispatch, Nat.add_sub_cancel]
  rw [if_neg hign, if_neg hdfl]
  rfl

theorem firstPass_eq {env : Others} {fuel n i : Nat} {p : Pass} (hn : i + n = 32)
    (hu : p.task.ptraced = false) (hh : AllHandled p.task.sigaction p.task.signal p.mask)
    (hlow : ∀ j < i, (p.task.signal &&& p.mask).getLsbD j = false) (hfuel : n < fuel) :
    firstPass env fuel p =
      some (.ok ((pick p.task.sigaction p.task.signal n i p.mask).foldl choose p)) := by
  induction n generalizing fuel i p with
  | zero =>
    obtain ⟨fuel, rfl⟩ := Nat.exists_eq_add_of_lt hfuel
    have hzero : p.task.signal &&& p.mask = 0 := by
      apply BitVec.eq_of_getLsbD_eq
      intro j hj
      rw [hlow j (by omega), getLsbD_empty]
    rw [firstPass, if_pos hzero]
    rfl
  | succ n ih =>
    have hi : i < 32 := by omega
    rw [pick]
    by_cases hbit : (p.task.signal &&& p.mask).getLsbD i = true
    · obtain ⟨fuel, rfl⟩ := Nat.exists_eq_add_of_le' (Nat.succ_le_of_lt hfuel)
      have hne : p.task.signal &&& p.mask ≠ 0 := by
        intro hzero
        rw [hzero, getLsbD_empty] at hbit
        exact absurd hbit (by decide)
      have hnext : ∀ j, i + 1 ≤ j →
          (choose p i).task.signal.getLsbD j = p.task.signal.getLsbD j := by
        intro j hj
        rw [getLsbD_choose hi, decide_eq_true (by omega), Bool.and_true]
      have hpick : pick p.task.sigaction (choose p i).task.signal n (i + 1) (choose p i).mask =
          pick p.task.sigaction p.task.signal n (i + 1) (choose p i).mask := pick_congr hnext
      rw [Nat.succ_eq_add_one, ← Nat.add_assoc, firstPass, if_neg hne, turn_eq hu hh hbit hlow,
        if_pos (by rwa [← BitVec.getLsbD_and]), List.foldl_cons]
      simp only
      have hsub (j : Nat) (h : ((choose p i).task.signal &&& (choose p i).mask).getLsbD j = true) :
          j ≠ i ∧ p.task.signal.getLsbD j = true ∧ p.mask.getLsbD j = true := by
        rw [BitVec.getLsbD_and, getLsbD_choose hi, Bool.and_eq_true, Bool.and_eq_true,
          decide_eq_true_eq, choose, invoke] at h
        simp only [getLsbD_diff, Bool.and_eq_true] at h
        exact ⟨h.1.2, h.1.1, h.2.1⟩
      refine (@ih _ (i + 1) (choose p i) (by omega) hu ?_ ?_ (by omega)).trans ?_
      · intro j hs hm
        obtain ⟨-, hs, hm⟩ := hsub j (by rw [BitVec.getLsbD_and, hs, hm]; rfl)
        exact hh j hs hm
      · intro j hj
        by_contra h
        obtain ⟨hne, hs, hm⟩ := hsub j (Bool.not_eq_false _ ▸ h)
        have hfalse := hlow j (by omega)
        rw [BitVec.getLsbD_and, hs, hm] at hfalse
        exact absurd hfalse (by decide)
      · exact congrArg _ (congrArg _ (congrArg (List.foldl choose (choose p i)) hpick))
    · rw [if_neg (by rwa [← BitVec.getLsbD_and])]
      refine ih (by omega) hu hh ?_ (by omega)
      intro j hj
      rcases Nat.lt_succ_iff_lt_or_eq.mp hj with hj | rfl
      · exact hlow j hj
      · exact Bool.eq_false_iff.mpr hbit

/-! ### What the first pass leaves -/

/-- The signals of a list are no longer pending. -/
theorem foldl_choose_task :
    (l.foldl choose p).task = { p.task with signal := p.task.signal &&& ~~~ bitsOf l } := by
  induction l generalizing p with
  | nil =>
    have hall : ~~~ (0 : BitVec 32) = BitVec.allOnes 32 := by decide
    rw [bitsOf, hall, BitVec.and_allOnes]
    rfl
  | cons s l ih =>
    rw [List.foldl_cons, ih, bitsOf]
    simp [choose, invoke, BitVec.and_assoc, BitVec.not_or]

theorem foldl_choose_handler_signal :
    (l.foldl choose p).handler_signal = p.handler_signal ||| bitsOf l := by
  induction l generalizing p with
  | nil => simp [bitsOf]
  | cons s l ih =>
    rw [List.foldl_cons, ih, bitsOf]
    simp [choose, invoke, BitVec.or_assoc]

theorem foldl_choose_regs :
    (l.foldl choose p).regs =
      (l.map p.task.sigaction).foldl (fun r sa => interrupt sa r) p.regs := by
  induction l generalizing p with
  | nil => rfl
  | cons s l ih =>
    rw [List.foldl_cons, ih]
    rfl

/-! ### The interrupted system call -/

/-- Whether a handler ends the system call that returns `eax`. -/
def Ends (sas : List Sigaction) (eax : BitVec 32) : Prop :=
  ∃ sa ∈ sas, eax = failure Errno.erestartnohand ∨
    eax = failure Errno.erestartsys ∧ sa.flags &&& saRestart = 0

instance (sas : List Sigaction) (eax : BitVec 32) : Decidable (Ends sas eax) :=
  inferInstanceAs (Decidable (∃ sa ∈ sas, _))

/-- The registers that the process returns to, once the handlers have run: the system call fails if
one of them ends it, and is made again if it wants to be and none does. -/
def adjusted (sas : List Sigaction) (regs : PtRegs) : PtRegs :=
  if regs.orig_eax.toInt < 0 then regs
  else if Ends sas regs.eax then { regs with eax := failure Errno.eintr }
  else if regs.eax = failure Errno.erestartnohand ∨ regs.eax = failure Errno.erestartsys ∨
      regs.eax = failure Errno.erestartnointr then
    { regs with eax := regs.orig_eax, eip := regs.eip - 2 }
  else regs

theorem interrupt_eq (sa : Sigaction) (regs : PtRegs) :
    interrupt sa regs =
      if 0 ≤ regs.orig_eax.toInt ∧ Ends [sa] regs.eax then
        { regs with eax := failure Errno.eintr }
      else regs := by
  by_cases h : 0 ≤ regs.orig_eax.toInt <;> simp [interrupt, Ends, h]

/-- A system call that has failed is not ended again. -/
theorem not_ends_eintr (sas : List Sigaction) : ¬ Ends sas (failure Errno.eintr) := by
  rintro ⟨sa, -, h | ⟨h, -⟩⟩ <;> exact absurd h (by decide)

theorem foldl_interrupt (sas : List Sigaction) (regs : PtRegs) :
    sas.foldl (fun r sa => interrupt sa r) regs =
      if 0 ≤ regs.orig_eax.toInt ∧ Ends sas regs.eax then
        { regs with eax := failure Errno.eintr }
      else regs := by
  induction sas generalizing regs with
  | nil => simp [Ends]
  | cons sa sas ih =>
    have hcons : Ends (sa :: sas) regs.eax ↔ Ends [sa] regs.eax ∨ Ends sas regs.eax := by
      simp [Ends]
    rw [List.foldl_cons, ih, interrupt_eq]
    by_cases h : 0 ≤ regs.orig_eax.toInt ∧ Ends [sa] regs.eax
    · rw [if_pos h, if_neg fun hc => not_ends_eintr sas hc.2, if_pos ⟨h.1, hcons.mpr (.inl h.2)⟩]
    · rw [if_neg h]
      by_cases hrest : 0 ≤ regs.orig_eax.toInt ∧ Ends sas regs.eax
      · rw [if_pos hrest, if_pos ⟨hrest.1, hcons.mpr (.inr hrest.2)⟩]
      · rw [if_neg hrest, if_neg]
        rintro ⟨ho, hc⟩
        exact (hcons.mp hc).elim (fun hc => h ⟨ho, hc⟩) fun hc => hrest ⟨ho, hc⟩

theorem restart_interrupts (sas : List Sigaction) (regs : PtRegs) :
    restart (sas.foldl (fun r sa => interrupt sa r) regs) = adjusted sas regs := by
  rw [foldl_interrupt, adjusted]
  by_cases ho : regs.orig_eax.toInt < 0
  · have hno : ¬ 0 ≤ regs.orig_eax.toInt := not_le.mpr ho
    rw [if_pos ho, if_neg fun h => hno h.1, restart, if_neg fun h => hno h.1]
  · have hle : 0 ≤ regs.orig_eax.toInt := not_lt.mp ho
    rw [if_neg ho]
    by_cases he : Ends sas regs.eax
    · rw [if_pos ⟨hle, he⟩, if_pos he, restart, if_neg]
      have hno : ¬ (failure Errno.eintr = failure Errno.erestartnohand ∨
          failure Errno.eintr = failure Errno.erestartsys ∨
          failure Errno.eintr = failure Errno.erestartnointr) := by decide
      exact fun h => hno h.2
    · rw [if_neg fun h => he h.2, if_neg he, restart]
      simp only [hle, true_and]

/-! ## The second pass -/

theorem getLsbD_false_of_lt {x : BitVec 32} {i j : Nat} (hx : x < 1#32 <<< i) (hi : i < 32)
    (hij : i ≤ j) : x.getLsbD j = false := by
  have hlt : x.toNat < 2 ^ i := by
    have hpow : 2 ^ i < 2 ^ 32 := Nat.pow_lt_pow_right (by decide) hi
    have h := BitVec.lt_def.mp hx
    rwa [BitVec.toNat_shiftLeft, BitVec.toNat_one (by decide), Nat.one_shiftLeft,
      Nat.mod_eq_of_lt hpow] at h
  exact Nat.testBit_lt_two_pow (lt_of_lt_of_le hlt (Nat.pow_le_pow_right two_pos hij))

theorem secondPass_eq {regs : PtRegs} {handler_signal : BitVec 32} {fuel n i : Nat} {b : Build}
    (hn : i + n = 32) (hfuel : n < fuel) :
    secondPass regs handler_signal fuel (1#32 <<< i) i b =
      some (((List.range' i n).filter handler_signal.getLsbD).foldl (buildFrame regs) b) := by
  induction n generalizing fuel i b with
  | zero =>
    obtain ⟨fuel, rfl⟩ := Nat.exists_eq_add_of_lt hfuel
    obtain rfl : i = 32 := hn
    rw [secondPass, if_pos (by decide)]
    rfl
  | succ n ih =>
    obtain ⟨fuel, rfl⟩ := Nat.exists_eq_add_of_le' (Nat.succ_le_of_lt hfuel)
    have hi : i < 32 := by omega
    have hone (j : Nat) : (1#32 <<< i).getLsbD j = decide (j = i) := getLsbD_sBit hi j
    have hne : 1#32 <<< i ≠ 0 := by
      intro h
      have hbit := hone i
      rw [h, getLsbD_empty] at hbit
      simp at hbit
    have hdouble : 1#32 <<< i + 1#32 <<< i = 1#32 <<< (i + 1) := by
      apply BitVec.eq_of_toNat_eq
      simp only [BitVec.toNat_add, BitVec.toNat_shiftLeft, BitVec.toNat_one (by decide : 0 < 32),
        Nat.one_shiftLeft, Nat.pow_succ]
      omega
    rw [Nat.succ_eq_add_one, ← Nat.add_assoc, secondPass, if_neg hne, hdouble, List.range'_succ]
    by_cases hgt : 1#32 <<< i > handler_signal
    · have hnil : (i :: List.range' (i + 1) n).filter handler_signal.getLsbD = [] := by
        rw [List.filter_eq_nil_iff]
        intro j hj
        rw [getLsbD_false_of_lt hgt hi]
        · decide
        · rcases List.mem_cons.mp hj with rfl | hj
          · exact le_rfl
          · have := (List.mem_range'_1.mp hj).1
            omega
      rw [if_pos hgt, hnil]
      rfl
    · rw [if_neg hgt]
      have hmask : 1#32 <<< i &&& handler_signal = 0 ↔ handler_signal.getLsbD i = false := by
        constructor
        · intro h
          have hi := congrArg (BitVec.getLsbD · i) h
          simpa [BitVec.getLsbD_and, hone, getLsbD_empty, -BitVec.getLsbD_shiftLeft] using hi
        · intro h
          apply BitVec.eq_of_getLsbD_eq
          intro j _
          rw [BitVec.getLsbD_and, hone, getLsbD_empty]
          by_cases hji : j = i
          · rw [hji, h, Bool.and_false]
          · rw [decide_eq_false hji, Bool.false_and]
      by_cases hset : handler_signal.getLsbD i = true
      · rw [if_neg (by rw [hmask, hset]; decide), ih (by omega) (by omega),
          List.filter_cons_of_pos hset, List.foldl_cons]
      · rw [if_pos (hmask.mpr (Bool.eq_false_iff.mpr hset)), ih (by omega) (by omega),
          List.filter_cons_of_neg hset]

/-- The second loop comes by the signals that the first has picked. -/
theorem filter_bitsOf (hl : ∀ s ∈ l, s < 32) (hs : l.Pairwise (· < ·)) :
    (List.range' 0 32).filter (bitsOf l).getLsbD = l := by
  refine List.Pairwise.eq_of_mem_iff (r := (· < ·)) ?_ hs fun s => ?_
  · exact (List.pairwise_lt_range').filter _
  · rw [List.mem_filter, getLsbD_bitsOf hl, decide_eq_true_eq, List.mem_range'_1]
    exact ⟨And.right, fun h => ⟨⟨Nat.zero_le s, by simpa using hl s h⟩, h⟩⟩

end LinuxEvocation.Signal
