import LinuxEvocation.Mm.Paging.Exact
import LinuxEvocation.Mm.Paging.WriteProtect

/-!
# Who asks for write permission: page faults, `verify_area` and `put_long`

A program gets to `do_wp_page` by a page fault; the kernel, which asks with `verify_area` before it
writes to memory of the program; and a debugger, by `put_long`.

* `Caller`, `Caller.calls` — the calls of `do_wp_page` that each of them makes.
* `write_permission_iff` — when no write permission is gained.
-/

namespace LinuxEvocation.Mm.Paging

/-! ## The code -/

section Code

variable (ram : Nat) (alloc : Allocator ram) (bad : BadPages)

/-- Who gets to `do_wp_page`. -/
inductive Caller where
  /-- `do_page_fault` for a protection fault of the current task.  `user_esp` is 0 in the kernel
  and in virtual 8086 mode. -/
  | fault (addr userEsp : Nat)
  /-- `verify_area(VERIFY_WRITE, start, size)`. -/
  | verifyWrite (start size : Nat)
  /-- `put_long(tsk, addr)`, with an address that `write_long` lets through. -/
  | putLong (addr : Nat)

/-- The pages from `p` on, one call for each; the states before and after each call. -/
def wpPages (user : Bool) : Nat → Nat → Vm → List (Vm × Vm)
  | 0, _, _ => []
  | n + 1, p, s =>
    let s' := (doWpPage ram alloc bad user p s).1
    (s, s') :: wpPages user n (p + 1) s'

/-- The pages that `verify_area` goes through. -/
def verifyPages (start size : Nat) : Nat :=
  if start ≥ taskSize ∨ size > taskSize - start ∨ size = 0 then 0
  else (size - 1 + start % pageSize) / pageSize + 1

/-- `put_long` for the page `p` up to the write, at most `fuel` times round.  `noPage` is
`do_no_page`. -/
def putLongCalls (noPage : Vm → Vm) (p : Nat) : Nat → Vm → List (Vm × Vm)
  | 0, _ => []
  | fuel + 1, s =>
    if ¬ present (s.pte p) then putLongCalls noPage p fuel (noPage s)
    else if ¬ rw (s.pte p) then
      let s' := (doWpPage ram alloc bad false p s).1
      (s, s') :: putLongCalls noPage p fuel s'
    else []

/-- The calls of `do_wp_page`. -/
def Caller.calls (noPage : Vm → Vm) (fuel : Nat) (s : Vm) : Caller → List (Vm × Vm)
  | .fault addr userEsp =>
    wpPages ram alloc bad (userEsp ≠ 0) (if addr < taskSize then 1 else 0) (addr / pageSize) s
  | .verifyWrite start size =>
    wpPages ram alloc bad false (verifyPages start size) (start / pageSize) s
  | .putLong addr =>
    if addr > taskSize - 4 then []
    else putLongCalls ram alloc bad noPage (addr / pageSize) fuel s

end Code

/-! ## The calls they make -/

section Callers

variable {ram : Nat} {alloc : Allocator ram} {bad : BadPages} {s : Vm}

/-- **One page after the other**: each call keeps to it exactly when each page may be asked for
in the state before. -/
theorem wpPages_legit_iff (user : Bool) (n : Nat) {p : Nat} (hs : Mapped ram s) (hbad : bad.Ok s)
    (hp : p + n ≤ userPages) :
    (∀ call ∈ wpPages ram alloc bad user n p s, Legit ram alloc bad call) ↔
      ∀ i < n, Safe ram user (p + i) s := by
  induction n generalizing p s with
  | zero => simp [wpPages]
  | succ n ih =>
    have hturn : WpTurn ram alloc bad user p s (doWpPage ram alloc bad user p s).1 :=
      doWpPage_turn hs (by omega)
    have hrest := ih (hturn.mapped hs hbad (by omega)) (hturn.bad_ok hbad) (p := p + 1) (by omega)
    have hfirst := hturn.legit_iff hs hbad (by omega)
    simp only [wpPages, List.forall_mem_cons]
    rw [hrest, hfirst]
    constructor
    · rintro ⟨h0, h1⟩ i hi
      cases i with
      | zero => exact h0
      | succ i =>
        have hi' := h1 i (by omega)
        rw [hturn.safe_iff (by omega) (by omega), Nat.add_assoc, Nat.add_comm 1 i] at hi'
        exact hi'
    · intro h
      refine ⟨h 0 (by omega), fun i hi => ?_⟩
      rw [hturn.safe_iff (by omega) (by omega), Nat.add_assoc, Nat.add_comm 1 i]
      exact h (i + 1) (by omega)

/-- The entry is there after a call that was needed. -/
theorem WpTurn.present {user : Bool} {p : Nat} {s' : Vm}
    (h : WpTurn ram alloc bad user p s s') (hp : p < userPages) (hasks : Asks user (s.pte p)) :
    present (s'.pte p) = true := by
  have hprot : Mm.present (s.pte p % pageSize) = true := by
    have hpres := hasks.present
    unfold Mm.present pageSize at *
    simp only [decide_eq_true_eq] at hpres ⊢
    omega
  cases h with
  | same => exact hasks.present
  | turnOn _ _ hupd => rw [hupd.pte p hp, if_pos rfl, present_or, hasks.present, Bool.true_or]
  | bogus _ _ _ hupd =>
    rw [hupd.pte p hp, if_pos rfl, present_or]
    exact Bool.or_true _
  | copy _ _ _ _ _ hupd | outOfMemory _ _ _ _ hupd =>
    rw [hupd.pte p hp, if_pos rfl, present_or, present_or, hprot]
    simp

/-- The rounds in which `put_long` waits for the page. -/
theorem putLongCalls_skip (noPage : Vm → Vm) (p k m : Nat)
    (hwait : ∀ j < k, Mm.present ((noPage^[j] s).pte p) = false) :
    putLongCalls ram alloc bad noPage p (k + m) s =
      putLongCalls ram alloc bad noPage p m (noPage^[k] s) := by
  induction k generalizing s with
  | zero => rw [Nat.zero_add]; rfl
  | succ k ih =>
    have h0 : ¬ Mm.present (s.pte p) = true := by
      have := hwait 0 (by omega)
      simpa using this
    rw [Nat.succ_add, putLongCalls, if_pos h0, Function.iterate_succ_apply]
    apply ih
    intro j hj
    have := hwait (j + 1) (by omega)
    rwa [Function.iterate_succ_apply] at this

/-- **`put_long`**: the one call it makes is for the page as it finds it. -/
theorem putLong_legit_iff {noPage : Vm → Vm} {p : Nat} (hs : Mapped ram s) (hbad : bad.Ok s)
    (hno : ∀ t, Mapped ram t → bad.Ok t → Mapped ram (noPage t) ∧ bad.Ok (noPage t))
    (hp : p < userPages) :
    (∀ fuel, ∀ call ∈ putLongCalls ram alloc bad noPage p fuel s, Legit ram alloc bad call) ↔
      ∀ k, (∀ j < k, Mm.present ((noPage^[j] s).pte p) = false) →
        Safe ram false p (noPage^[k] s) := by
  have hkeep : ∀ k, Mapped ram (noPage^[k] s) ∧ bad.Ok (noPage^[k] s) := by
    intro k
    induction k with
    | zero => exact ⟨hs, hbad⟩
    | succ k ih =>
      rw [Function.iterate_succ_apply']
      exact hno _ ih.1 ih.2
  constructor
  · intro hlegit k hwait
    obtain ⟨hk, hbk⟩ := hkeep k
    by_cases hpres : Mm.present ((noPage^[k] s).pte p) = true
    · by_cases hrw : rw ((noPage^[k] s).pte p) = true
      · rintro ⟨-, h, -⟩
        rw [hrw] at h
        cases h
      · have hturn : WpTurn ram alloc bad false p (noPage^[k] s) _ := doWpPage_turn hk hp
        apply (hturn.legit_iff hk hbk hp).1
        apply hlegit (k + 1)
        rw [putLongCalls_skip noPage p k 1 hwait, putLongCalls, if_neg (not_not.2 hpres),
          if_pos hrw]
        exact List.mem_cons_self
    · rintro ⟨h, -⟩
      exact hpres h
  · intro hsafe fuel
    induction fuel generalizing s with
    | zero => exact fun _ h => by cases h
    | succ fuel ih =>
      rw [putLongCalls]
      by_cases hpres : Mm.present (s.pte p) = true
      · rw [if_neg (not_not.2 hpres)]
        by_cases hrw : rw (s.pte p) = true
        · rw [if_neg (not_not.2 hrw)]
          exact fun _ h => by cases h
        · rw [if_pos hrw]
          have hasks : Asks false (s.pte p) := ⟨hpres, by simpa using hrw, .inr rfl⟩
          have hturn : WpTurn ram alloc bad false p s (doWpPage ram alloc bad false p s).1 :=
            doWpPage_turn hs hp
          have hlegit := (hturn.legit_iff hs hbad hp).2 (hsafe 0 fun _ hj => by omega)
          -- the entry may be written now
          have hdone : putLongCalls ram alloc bad noPage p fuel
              (doWpPage ram alloc bad false p s).1 = [] := by
            cases fuel with
            | zero => rfl
            | succ fuel =>
              rw [putLongCalls, if_neg (not_not.2 (hturn.present hp hasks)),
                if_neg (not_not.2 (hturn.rw hp hasks))]
          simp only [hdone, List.forall_mem_cons, List.not_mem_nil, false_imp_iff, implies_true,
            and_true]
          exact hlegit
      · rw [if_pos hpres]
        obtain ⟨h1, h2⟩ := hno s hs hbad
        refine ih h1 h2 (fun k => ?_) fun k hwait => ?_
        · have := hkeep (k + 1)
          rwa [Function.iterate_succ_apply] at this
        · rw [← Function.iterate_succ_apply]
          apply hsafe
          intro j hj
          cases j with
          | zero => simpa using hpres
          | succ j =>
            rw [Function.iterate_succ_apply]
            exact hwait j (by omega)

/-- Nothing that a write must not have is asked for: no page that the kernel asks for is mapped
read-only.  `put_long` asks for the page as `do_no_page` has left it. -/
def Caller.Safe (ram : Nat) (noPage : Vm → Vm) (s : Vm) : Caller → Prop
  | .fault addr userEsp => addr < taskSize → Paging.Safe ram (userEsp ≠ 0) (addr / pageSize) s
  | .verifyWrite start size =>
    ∀ i < verifyPages start size, Paging.Safe ram false (start / pageSize + i) s
  | .putLong addr => addr ≤ taskSize - 4 →
    ∀ k, (∀ j < k, Mm.present ((noPage^[j] s).pte (addr / pageSize)) = false) →
      Paging.Safe ram false (addr / pageSize) (noPage^[k] s)

/-- **When write permission is not gained**: the calls of `do_wp_page` that a page fault,
`verify_area` or `put_long` makes keep to what is there exactly when no page that the kernel asks
for is mapped read-only, and none is a page of a device that is to be copied. -/
theorem write_permission_iff (c : Caller) {noPage : Vm → Vm} (hs : Mapped ram s)
    (hbad : bad.Ok s)
    (hno : ∀ t, Mapped ram t → bad.Ok t → Mapped ram (noPage t) ∧ bad.Ok (noPage t)) :
    (∀ fuel, ∀ call ∈ c.calls ram alloc bad noPage fuel s, Legit ram alloc bad call) ↔
      c.Safe ram noPage s := by
  cases c with
  | fault addr userEsp =>
    simp only [Caller.calls, Caller.Safe, forall_const]
    by_cases haddr : addr < taskSize
    · rw [if_pos haddr, wpPages_legit_iff _ 1 hs hbad]
      · constructor
        · exact fun h _ => h 0 (by decide)
        · intro h i hi
          obtain rfl : i = 0 := by omega
          exact h haddr
      · unfold userPages userDirs taskSize pageSize ptrsPerPage at *
        omega
    · rw [if_neg haddr]
      simp [wpPages, haddr]
  | verifyWrite start size =>
    simp only [Caller.calls, Caller.Safe, forall_const]
    by_cases hempty : verifyPages start size = 0
    · simp [hempty, wpPages]
    · apply wpPages_legit_iff _ _ hs hbad
      unfold verifyPages at hempty ⊢
      split at hempty
      · exact absurd rfl hempty
      · rename_i hcond
        rw [if_neg hcond]
        simp only [not_or] at hcond
        unfold userPages userDirs taskSize pageSize ptrsPerPage at *
        omega
  | putLong addr =>
    simp only [Caller.calls, Caller.Safe]
    by_cases haddr : addr > taskSize - 4
    · have hno' : ¬ addr ≤ taskSize - 4 := not_le.2 haddr
      simp [haddr, hno']
    · have hle : addr ≤ taskSize - 4 := not_lt.1 haddr
      have hpage : addr / pageSize < userPages := by
        unfold userPages userDirs taskSize pageSize ptrsPerPage at *
        omega
      simp only [if_neg haddr, hle, forall_true_left]
      exact putLong_legit_iff hs hbad hno hpage

theorem oneEntry_mapped {word : Nat} (h : mapNr word = 6) : Mapped 16 (oneEntry word) := by
  refine ⟨oneEntry_wellFormed word, fun p _ hpres _ => ?_⟩
  have hpte : (oneEntry word).pte p = word := by
    unfold Vm.pte oneEntry at *
    simp only at *
    split_ifs at hpres ⊢ <;> first | rfl | cases hpres
  rw [hpte, h]
  exact Nat.one_ne_zero

/-- A system call writes to a page that is copied on write. -/
theorem write_permission_iff_cow :
    Legit 16 (noPages 16) ⟨0, 0⟩ (oneEntry 0x6225,
      (doWpPage 16 (noPages 16) ⟨0, 0⟩ false 0x40000 (oneEntry 0x6225)).1) := by
  refine (write_permission_iff (.verifyWrite 0x40000000 1) (oneEntry_mapped rfl) ⟨rfl, rfl⟩
    fun _ h h' => ⟨h, h'⟩).2 ?_ 0 _ List.mem_cons_self
  rintro i hi ⟨-, -, ⟨hcow, -⟩ | ⟨-, hhigh, -⟩⟩
  all_goals
    have hn : verifyPages 0x40000000 1 = 1 := rfl
    obtain rfl : i = 0 := by omega
  · revert hcow
    decide +kernel
  · revert hhigh
    decide +kernel

/-- **A system call turns a read-only page into one that can be written.** -/
theorem verify_area_gives_write_permission :
    ¬ ∀ call ∈ (Caller.verifyWrite 0x40000000 1).calls 16 (noPages 16) ⟨0, 0⟩ id 0
      (oneEntry 0x6025), Legit 16 (noPages 16) ⟨0, 0⟩ call := by
  intro h
  have hlegit := h (oneEntry 0x6025, (doWpPage 16 (noPages 16) ⟨0, 0⟩ false 0x40000
    (oneEntry 0x6025)).1) List.mem_cons_self
  have hcow := (hlegit 0x40000 (by decide) (by decide +kernel) (by decide +kernel)).1
  revert hcow
  decide +kernel

end Callers

end LinuxEvocation.Mm.Paging
