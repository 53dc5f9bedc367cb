import LinuxEvocation.Ipc.Sem.Values

/-!
# No wake-up of a semaphore is lost

`sys_semop` wakes those who wait for a value to grow when one of its operations is positive, and
those who wait for zero when it has made a value zero.  With operations on different semaphores this
is enough: whoever has not been woken is still kept from going on by the operation it sleeps for.

* `Blocks` — an operation blocks; `applyVals_of_mem`, `applyOps_zero` — the loops over operations on
  different semaphores.
* `waitsFor`, `sleepers` — who went to sleep for a semaphore and has not resumed.
* `WaitInv` — what holds of all sleepers but one; `WaitInv.later` — a step that lets them sleep.
* `distinctOps` — the operations of a call are on different semaphores.
* `no_lost_wakeup` — the result over every run.
-/

namespace LinuxEvocation.Ipc.Semaphore

open Function (update update_of_ne update_self)

/-! ## Operations on different semaphores -/

/-- The operation keeps a process from going on, when the semaphore has this value. -/
def Blocks (sop : Sembuf) (v : UInt16) : WaitQueue → Prop
  | .eventz => sop.semOp = 0 ∧ v ≠ 0
  | .eventn => sop.semOp.toInt + v.toNat < 0

variable {val : Nat → UInt16} {sops : List Sembuf}

theorem checkOps_sleep_blocks {pending : Bool}
    {q : WaitQueue} {num : Nat} (h : checkOps val pending sops = .sleep q num) :
    ∃ sop ∈ sops, sop.semNum.toNat = num ∧ Blocks sop (val num) q := by
  induction sops with
  | nil => cases h
  | cons sop rest ih =>
    rw [checkOps] at h
    split_ifs at h with hmax hzero h1 h2 hneg h3 h4
    · cases h
      exact ⟨sop, List.mem_cons_self, rfl, hzero⟩
    · cases h
      exact ⟨sop, List.mem_cons_self, rfl, hneg⟩
    · obtain ⟨sop', hmem, hblocks⟩ := ih h
      exact ⟨sop', List.mem_cons_of_mem _ hmem, hblocks⟩

/-- The operations are on different semaphores. -/
def DistinctNums (sops : List Sembuf) : Prop := (sops.map Sembuf.semNum).Nodup

instance (sops : List Sembuf) : Decidable (DistinctNums sops) :=
  inferInstanceAs (Decidable (sops.map Sembuf.semNum).Nodup)

theorem applyVals_of_not_mem {n : Nat}
    (h : ∀ sop ∈ sops, sop.semNum.toNat ≠ n) : applyVals val sops n = val n := by
  induction sops generalizing val with
  | nil => rfl
  | cons sop rest ih =>
    rw [applyVals, ih fun sop' hmem => h sop' (List.mem_cons_of_mem _ hmem)]
    exact update_of_ne (h sop List.mem_cons_self).symm _ _

theorem DistinctNums.tail {x : Sembuf} {rest : List Sembuf} (h : DistinctNums (x :: rest)) :
    (∀ y ∈ rest, y.semNum.toNat ≠ x.semNum.toNat) ∧ DistinctNums rest := by
  obtain ⟨hx, hrest⟩ := List.nodup_cons.1 h
  exact ⟨fun y hy heq => hx (UInt16.toNat_inj.1 heq ▸ List.mem_map_of_mem hy), hrest⟩

/-- Each operation finds the value from before the call. -/
theorem applyVals_of_mem (hd : DistinctNums sops) {sop : Sembuf} (hsop : sop ∈ sops) :
    applyVals val sops sop.semNum.toNat =
      toUshort ((val sop.semNum.toNat).toNat + sop.semOp.toInt) := by
  induction sops generalizing val with
  | nil => cases hsop
  | cons x rest ih =>
    obtain ⟨hne, hrest⟩ := hd.tail
    rw [applyVals]
    rcases List.mem_cons.1 hsop with rfl | hmem
    · rw [applyVals_of_not_mem hne, update_self]
    · rw [ih hrest hmem, update_of_ne (hne sop hmem)]

variable {τ : Type*}

/-- The flag of the second loop is not lost. -/
theorem applyOps_flag (t : τ) (semid sma : Nat) (sops : List Sembuf) (s : State τ) :
    (applyOps t semid sma sops s true).2 = true := by
  induction sops generalizing s with
  | nil => rfl
  | cons sop rest ih =>
    rw [applyOps]
    exact ih _

/-- **A value that has become zero is noticed.** -/
theorem applyOps_zero (t : τ) (semid sma : Nat) (hd : DistinctNums sops)
    (s : State τ) (z : Bool) {sop : Sembuf} (hsop : sop ∈ sops)
    (hzero : applyVals (s.semval sma) sops sop.semNum.toNat = 0) :
    (applyOps t semid sma sops s z).2 = true := by
  induction sops generalizing s z with
  | nil => cases hsop
  | cons x rest ih =>
    obtain ⟨hne, hrest⟩ := hd.tail
    have hvals : (applyOp t semid sma x s).semval sma =
        update (s.semval sma) x.semNum.toNat
          (toUshort ((s.semval sma x.semNum.toNat).toNat + x.semOp.toInt)) := by
      funext m
      rw [applyOp_semval]
      by_cases hm : m = x.semNum.toNat
      · rw [hm, update_self, if_pos ⟨rfl, rfl⟩]
      · rw [update_of_ne hm, if_neg fun h => hm h.2]
    rw [applyVals, ← hvals] at hzero
    rw [applyOps]
    rcases List.mem_cons.1 hsop with rfl | hmem
    · rw [applyVals_of_not_mem hne] at hzero
      rw [hzero, decide_eq_true rfl, Bool.or_true]
      exact applyOps_flag t semid sma rest _
    · exact ih hrest _ _ hmem hzero

/-- Without a positive operation no value grows. -/
theorem applyVals_le {pending : Bool}
    (hd : DistinctNums sops) (hpass : checkOps val pending sops = .pass)
    (hpos : ∀ sop ∈ sops, ¬ sop.semOp > 0) (n : Nat) :
    (applyVals val sops n).toNat ≤ (val n).toNat := by
  by_cases hmem : ∃ sop ∈ sops, sop.semNum.toNat = n
  · obtain ⟨sop, hsop, rfl⟩ := hmem
    rw [applyVals_of_mem hd hsop]
    obtain ⟨-, h0, h1⟩ := checkOps_pass_iff.1 hpass sop hsop
    have hop : sop.semOp.toInt ≤ 0 := by
      have := hpos sop hsop
      rw [gt_iff_lt, Int16.lt_iff_toInt_lt] at this
      exact Int.not_lt.1 this
    have hval := toUshort_toNat h0 (lt_of_le_of_lt h1 (by decide))
    omega
  · rw [applyVals_of_not_mem fun sop hsop heq => hmem ⟨sop, hsop, heq⟩]

/-! ## Who sleeps -/

/-- The queue, the set and the semaphore a process has gone to sleep for. -/
def State.waitsFor (s : State τ) (t : τ) : Option (WaitQueue × Nat × Nat) :=
  match s.task t with
  | .opSleep _ _ sma q num _ => some (q, sma, num)
  | .exitSleep sma u _ => some (.eventn, sma, (s.undo u).semNum.toNat)
  | _ => none

/-- `semncnt` or `semzcnt`. -/
def Sem.counter (x : Sem) : WaitQueue → UInt16
  | .eventn => x.semncnt
  | .eventz => x.semzcnt

/-- Those who have gone to sleep for a semaphore and have not resumed, `out` apart. -/
def sleepers [Fintype τ] [DecidableEq τ] (s : State τ) (out : Option τ)
    (k : WaitQueue × Nat × Nat) : Nat :=
  (Finset.univ.filter fun t => some t ≠ out ∧ s.waitsFor t = some k).card

/-- **The sleepers**, `out` apart: the operation each of them sleeps for still blocks, and the
semaphores count them. -/
structure WaitInv [Fintype τ] [DecidableEq τ] (s : State τ) (out : Option τ) : Prop where
  blocked : ∀ t, some t ≠ out → ∀ semid sops sma q num,
    s.task t = .opSleep semid sops sma q num false →
    ∃ sop ∈ sops, sop.semNum.toNat = num ∧ Blocks sop (s.semval sma num) q
  distinct : ∀ t, some t ≠ out → ∀ semid sops sma q num w,
    s.task t = .opSleep semid sops sma q num w → DistinctNums sops
  count : ∀ q sma num, ((s.set sma).base num).counter q = UInt16.ofNat (sleepers s out (q, sma, num))

/-- All who sleep sleep on for what they slept for, and the counters are as they were; some may be
woken. -/
structure Later (s s' : State τ) : Prop where
  op : ∀ t semid sops sma q num w', s'.task t = .opSleep semid sops sma q num w' →
    ∃ w, s.task t = .opSleep semid sops sma q num w ∧ (w' = false → w = false)
  waits : ∀ t, s'.waitsFor t = s.waitsFor t
  counter : ∀ q sma num, ((s'.set sma).base num).counter q = ((s.set sma).base num).counter q

namespace Later

variable {s s' s'' : State τ}

theorem refl (s : State τ) : Later s s :=
  ⟨fun _ _ _ _ _ _ w h => ⟨w, h, id⟩, fun _ => rfl, fun _ _ _ => rfl⟩

theorem trans (h : Later s s') (h' : Later s' s'') : Later s s'' := by
  refine ⟨fun t semid sops sma q num w'' hw => ?_, fun t => (h'.waits t).trans (h.waits t),
    fun q sma num => (h'.counter q sma num).trans (h.counter q sma num)⟩
  obtain ⟨w', hw', himp'⟩ := h'.op t semid sops sma q num w'' hw
  obtain ⟨w, hw, himp⟩ := h.op t semid sops sma q num w' hw'
  exact ⟨w, hw, fun h0 => himp (himp' h0)⟩

/-- A store that does not touch the sleepers. -/
theorem of_task {s' : State τ} (htask : s'.task = s.task)
    (hnum : ∀ t sma u w, s.task t = .exitSleep sma u w →
      (s'.undo u).semNum = (s.undo u).semNum)
    (hcounter : ∀ q sma num, ((s'.set sma).base num).counter q = ((s.set sma).base num).counter q) :
    Later s s' := by
  refine ⟨fun t semid sops sma q num w h => ⟨w, ?_, id⟩, fun t => ?_, hcounter⟩
  · rwa [htask] at h
  · unfold State.waitsFor
    rw [htask]
    split
    · rfl
    · rename_i sma u w ht
      rw [hnum t sma u w ht]
    · rfl

theorem setSemval (s : State τ) (sma num : Nat) (v : UInt16) : Later s (s.setSemval sma num v) := by
  refine of_task rfl (fun _ _ _ _ _ => rfl) fun q r n => ?_
  unfold State.setSemval
  rw [setSem_base]
  split
  · rename_i h
    rw [h.1, h.2]
    cases q <;> rfl
  · rfl

theorem wakeUp (s : State τ) (sma : Nat) (q : WaitQueue) : Later s (s.wakeUp sma q) := by
  refine ⟨fun t semid sops sma' q' num w' h => ?_, fun t => ?_, fun _ _ _ => rfl⟩
  · simp only [State.wakeUp] at h
    cases ht : s.task t <;> rw [ht] at h <;> simp only at h <;> cases h
    exact ⟨_, rfl, fun hor => (Bool.or_eq_false_iff.1 hor).1⟩
  · unfold State.waitsFor
    simp only [State.wakeUp]
    cases s.task t <;> rfl

theorem wakeIf (s : State τ) (sma : Nat) (q : WaitQueue) (c : Prop) [Decidable c] :
    Later s (if c then s.wakeUp sma q else s) := by
  split_ifs
  · exact wakeUp s sma q
  · exact refl s

theorem clearAdj (s : State τ) (sma : Nat) (test : Undo → Bool) :
    Later s (s.clearAdj sma test) := by
  refine of_task rfl (fun _ _ u _ _ => ?_) fun _ _ _ => rfl
  simp only [State.clearAdj]
  split_ifs <;> rfl

theorem applyOp (t : τ) (semid sma : Nat) (sop : Sembuf) (s : State τ) :
    Later s (applyOp t semid sma sop s) := by
  unfold Semaphore.applyOp
  simp only
  have hset := setSemval s sma sop.semNum.toNat
    (toUshort ((s.semval sma sop.semNum.toNat).toNat + sop.semOp.toInt))
  split_ifs
  · split
    · rename_i u hu
      refine hset.trans (of_task rfl (fun _ _ u' _ _ => ?_) fun _ _ _ => rfl)
      by_cases heq : u' = u
      · simp [heq]
      · simp [heq]
    · exact hset
  · exact hset

theorem applyOps (t : τ) (semid sma : Nat) (sops : List Sembuf) (s : State τ) (z : Bool) :
    Later s (applyOps t semid sma sops s z).1 := by
  induction sops generalizing s z with
  | nil => exact refl s
  | cons sop rest ih => exact (applyOp t semid sma sop s).trans (ih _ _)

end Later

/-- Whoever waits in the queue has been woken. -/
theorem wakeUp_woken {s : State τ} {sma : Nat} {q : WaitQueue} {t : τ} {semid : Nat}
    {num : Nat} {w : Bool}
    (h : (s.wakeUp sma q).task t = .opSleep semid sops sma q num w) : w = true := by
  simp only [State.wakeUp] at h
  cases ht : s.task t <;> rw [ht] at h <;> simp only at h <;> cases h
  simp

/-! ## The sleepers through a step -/

namespace WaitInv

variable [Fintype τ] [DecidableEq τ] {s s' : State τ} {out : Option τ} {t : τ}

theorem sleepers_congr {out' : Option τ} {k : WaitQueue × Nat × Nat}
    (h : ∀ t, (some t ≠ out' ∧ s'.waitsFor t = some k) ↔ (some t ≠ out ∧ s.waitsFor t = some k)) :
    sleepers s' out' k = sleepers s out k := by
  unfold sleepers
  congr 1
  ext t
  simp only [Finset.mem_filter, Finset.mem_univ, true_and]
  exact h t

/-- **Everybody sleeps on**, as long as what blocks them still does. -/
theorem later (h : WaitInv s out) (hl : Later s s')
    (hb : ∀ t, some t ≠ out → ∀ semid sops sma q num,
      s'.task t = .opSleep semid sops sma q num false → ∀ sop ∈ sops, sop.semNum.toNat = num →
      Blocks sop (s.semval sma num) q → Blocks sop (s'.semval sma num) q) : WaitInv s' out := by
  refine ⟨fun t ht semid sops sma q num htask => ?_, fun t ht semid sops sma q num w htask => ?_,
    fun q sma num => ?_⟩
  · obtain ⟨w, hw, himp⟩ := hl.op t semid sops sma q num false htask
    rw [himp rfl] at hw
    obtain ⟨sop, hsop, hnum, hblocks⟩ := h.blocked t ht semid sops sma q num hw
    exact ⟨sop, hsop, hnum, hb t ht semid sops sma q num htask sop hsop hnum hblocks⟩
  · obtain ⟨w, hw, -⟩ := hl.op t semid sops sma q num w htask
    exact h.distinct t ht semid sops sma q num w hw
  · rw [hl.counter, h.count]
    congr 1
    exact (sleepers_congr fun t => by rw [hl.waits t]).symm

theorem same (h : WaitInv s out) (hl : Later s s') (hval : ∀ sma num, s'.semval sma num =
    s.semval sma num) : WaitInv s' out :=
  h.later hl fun _ _ _ _ sma _ num _ _ _ _ hblocks => by rwa [hval sma num]

/-- A process that does not sleep may be left out. -/
theorem leave (h : WaitInv s none) (ht : s.waitsFor t = none) : WaitInv s (some t) := by
  refine ⟨fun t' _ => h.blocked t' (by simp), fun t' _ => h.distinct t' (by simp),
    fun q sma num => ?_⟩
  rw [h.count]
  congr 1
  refine sleepers_congr fun t' => ?_
  constructor
  · rintro ⟨-, hw⟩
    refine ⟨?_, hw⟩
    intro heq
    rw [Option.some.inj heq, ht] at hw
    cases hw
  · rintro ⟨-, hw⟩
    exact ⟨by simp, hw⟩

/-- A process that does not sleep is put back. -/
theorem put (h : WaitInv s (some t)) {x : Task}
    (hop : ∀ semid sops sma q num w, x ≠ .opSleep semid sops sma q num w)
    (hexit : ∀ sma u w, x ≠ .exitSleep sma u w) : WaitInv (s.setTask t x) none := by
  have hself : (s.setTask t x).task t = x := update_self _ _ _
  have hother : ∀ t', t' ≠ t → (s.setTask t x).task t' = s.task t' :=
    fun t' ht' => update_of_ne ht' _ _
  have hne : ∀ t', t' ≠ t → some t' ≠ some t := fun t' ht' heq => ht' (Option.some.inj heq)
  refine ⟨fun t' _ semid sops sma q num htask => ?_, fun t' _ semid sops sma q num w htask => ?_,
    fun q sma num => ?_⟩
  · have ht' : t' ≠ t := by
      rintro rfl
      exact hop _ _ _ _ _ _ (hself.symm.trans htask)
    exact h.blocked t' (hne t' ht') semid sops sma q num ((hother t' ht').symm.trans htask)
  · have ht' : t' ≠ t := by
      rintro rfl
      exact hop _ _ _ _ _ _ (hself.symm.trans htask)
    exact h.distinct t' (hne t' ht') semid sops sma q num w ((hother t' ht').symm.trans htask)
  · have hbase : ((s.setTask t x).set sma).base num = (s.set sma).base num := rfl
    rw [hbase, h.count]
    congr 1
    refine (sleepers_congr fun t' => ?_).symm
    by_cases ht' : t' = t
    · subst ht'
      refine iff_of_false ?_ fun hc => hc.1 rfl
      rintro ⟨-, hw⟩
      unfold State.waitsFor at hw
      rw [hself] at hw
      split at hw
      · exact hop _ _ _ _ _ _ rfl
      · exact hexit _ _ _ rfl
      · cases hw
    · have hwaits : (s.setTask t x).waitsFor t' = s.waitsFor t' := by
        unfold State.waitsFor
        rw [hother t' ht']
        rfl
      rw [hwaits]
      exact ⟨fun hc => ⟨hne t' ht', hc.2⟩, fun hc => ⟨by simp, hc.2⟩⟩

theorem running (h : WaitInv s (some t)) : WaitInv (s.setTask t .running) none :=
  h.put (by simp) (by simp)

end WaitInv

section Counters

variable (s : State τ) (sma num : Nat) (q : WaitQueue)

theorem countUp_counter (q' : WaitQueue) (r n : Nat) :
    (((s.countUp sma num q).set r).base n).counter q' =
      if (q', r, n) = (q, sma, num) then ((s.set r).base n).counter q' + 1
      else ((s.set r).base n).counter q' := by
  cases q <;> cases q' <;> unfold State.countUp <;> rw [setSem_base] <;>
    by_cases h : r = sma ∧ n = num <;> simp [h, Sem.counter]

theorem countDown_counter (q' : WaitQueue) (r n : Nat) :
    (((s.countDown sma num q).set r).base n).counter q' =
      if (q', r, n) = (q, sma, num) then ((s.set r).base n).counter q' - 1
      else ((s.set r).base n).counter q' := by
  cases q <;> cases q' <;> unfold State.countDown <;> rw [setSem_base] <;>
    by_cases h : r = sma ∧ n = num <;> simp [h, Sem.counter]

theorem countUp_task : (s.countUp sma num q).task = s.task := by
  cases q <;> rfl

theorem countDown_task : (s.countDown sma num q).task = s.task := by
  cases q <;> rfl

theorem countUp_undo : (s.countUp sma num q).undo = s.undo := by
  cases q <;> rfl

theorem countUp_waitsFor (t : τ) : (s.countUp sma num q).waitsFor t = s.waitsFor t := by
  unfold State.waitsFor
  rw [countUp_task, countUp_undo]

theorem countDown_waitsFor (t : τ) : (s.countDown sma num q).waitsFor t = s.waitsFor t := by
  unfold State.waitsFor
  rw [countDown_task, countDown_undo]

end Counters

namespace WaitInv

variable [Fintype τ] [DecidableEq τ] {s : State τ} {t : τ}

theorem sleepers_add_one {q : WaitQueue} {sma num : Nat} (h : s.waitsFor t = some (q, sma, num))
    (k : WaitQueue × Nat × Nat) :
    sleepers s none k = sleepers s (some t) k + if k = (q, sma, num) then 1 else 0 := by
  unfold sleepers
  split
  · rename_i hk
    have hset : (Finset.univ.filter fun t' => some t' ≠ none ∧ s.waitsFor t' = some k) =
        insert t (Finset.univ.filter fun t' => some t' ≠ some t ∧ s.waitsFor t' = some k) := by
      ext t'
      simp only [Finset.mem_filter, Finset.mem_univ, true_and, Finset.mem_insert, ne_eq,
        reduceCtorEq, not_false_eq_true, Option.some.injEq]
      by_cases ht : t' = t
      · simp [ht, h, hk]
      · simp [ht]
    rw [hset, Finset.card_insert_of_notMem]
    simp
  · rename_i hk
    rw [Nat.add_zero]
    congr 1
    ext t'
    simp only [Finset.mem_filter, Finset.mem_univ, true_and, ne_eq, reduceCtorEq, not_false_eq_true,
      Option.some.injEq]
    by_cases ht : t' = t
    · simp only [ht, h, Option.some.injEq, not_true_eq_false, false_and, iff_false]
      exact fun heq => hk heq.symm
    · simp [ht]

/-- **A process resumes**: the semaphore counts one sleeper less. -/
theorem resume (h : WaitInv s none) {q : WaitQueue} {sma num : Nat}
    (ht : s.waitsFor t = some (q, sma, num)) :
    WaitInv (s.countDown sma num q) (some t) := by
  refine ⟨fun t' _ semid sops r q' n htask => ?_, fun t' _ semid sops r q' n w htask => ?_,
    fun q' r n => ?_⟩
  · rw [countDown_task] at htask
    rw [countDown_semval]
    exact h.blocked t' (by simp) semid sops r q' n htask
  · rw [countDown_task] at htask
    exact h.distinct t' (by simp) semid sops r q' n w htask
  · have hsleep : sleepers (s.countDown sma num q) (some t) (q', r, n) =
        sleepers s (some t) (q', r, n) :=
      sleepers_congr fun t' => by rw [countDown_waitsFor]
    rw [countDown_counter, h.count, hsleep, sleepers_add_one ht (q', r, n)]
    split
    · rw [UInt16.ofNat_add]
      simp
    · rw [Nat.add_zero]

/-- **A process falls asleep**: the semaphore counts it. -/
theorem sleep (h : WaitInv s (some t)) {x : Task} {q : WaitQueue} {sma num : Nat}
    (hx : ((s.countUp sma num q).setTask t x).waitsFor t = some (q, sma, num))
    (hop : ∀ semid sops r q' n w, x = .opSleep semid sops r q' n w → r = sma ∧ q' = q ∧ n = num ∧
      DistinctNums sops ∧ ∃ sop ∈ sops, sop.semNum.toNat = num ∧ Blocks sop (s.semval sma num) q) :
    WaitInv ((s.countUp sma num q).setTask t x) none := by
  have hself : ((s.countUp sma num q).setTask t x).task t = x := update_self _ _ _
  have hother : ∀ t', t' ≠ t → ((s.countUp sma num q).setTask t x).task t' = s.task t' := by
    intro t' ht'
    show update (s.countUp sma num q).task t x t' = _
    rw [update_of_ne ht', countUp_task]
  have hval : ∀ r n, ((s.countUp sma num q).setTask t x).semval r n = s.semval r n :=
    fun r n => countUp_semval s sma num q r n
  have hne : ∀ t', t' ≠ t → some t' ≠ some t := fun t' ht' heq => ht' (Option.some.inj heq)
  refine ⟨fun t' _ semid sops r q' n htask => ?_, fun t' _ semid sops r q' n w htask => ?_,
    fun q' r n => ?_⟩
  · rw [hval]
    by_cases ht' : t' = t
    · subst ht'
      obtain ⟨rfl, rfl, rfl, -, hblocks⟩ := hop _ _ _ _ _ _ (hself.symm.trans htask)
      exact hblocks
    · exact h.blocked t' (hne t' ht') semid sops r q' n ((hother t' ht').symm.trans htask)
  · by_cases ht' : t' = t
    · subst ht'
      exact (hop _ _ _ _ _ _ (hself.symm.trans htask)).2.2.2.1
    · exact h.distinct t' (hne t' ht') semid sops r q' n w ((hother t' ht').symm.trans htask)
  · have hbase : (((s.countUp sma num q).setTask t x).set r).base n =
        ((s.countUp sma num q).set r).base n := rfl
    have hsleep : sleepers ((s.countUp sma num q).setTask t x) (some t) (q', r, n) =
        sleepers s (some t) (q', r, n) := by
      refine sleepers_congr fun t' => ?_
      by_cases ht' : t' = t
      · simp [ht']
      · have hwaits : ((s.countUp sma num q).setTask t x).waitsFor t' = s.waitsFor t' := by
          rw [← countUp_waitsFor s sma num q t']
          unfold State.waitsFor
          rw [hother t' ht', countUp_task]
          rfl
        rw [hwaits]
    rw [hbase, countUp_counter, h.count, sleepers_add_one hx (q', r, n), hsleep]
    split
    · rw [UInt16.ofNat_add]
      rfl
    · rw [Nat.add_zero]

end WaitInv

/-! ## The calls -/

namespace WaitInv

variable [Fintype τ] [DecidableEq τ] {s s' : State τ} {t : τ}

/-- Everybody who waits for a set has been woken. -/
theorem wakeAll {out : Option τ} (h : WaitInv s out) {sma : Nat} {q q' : WaitQueue} (hqq : q ≠ q')
    (hl : Later s s') (hval : ∀ r, r ≠ sma → ∀ n, s'.semval r n = s.semval r n) :
    WaitInv ((s'.wakeUp sma q).wakeUp sma q') out := by
  refine h.later (hl.trans ((Later.wakeUp _ _ _).trans (Later.wakeUp _ _ _))) ?_
  intro t' _ semid sops r p num htask sop _ _ hblocks
  have hr : r ≠ sma := by
    rintro rfl
    by_cases hp : p = q'
    · subst hp
      cases wakeUp_woken htask
    · have hpq : p = q := by
        cases p <;> cases q <;> cases q' <;> first | rfl | exact absurd rfl hp | exact absurd rfl hqq
      obtain ⟨w, hw, himp⟩ := (Later.wakeUp (s'.wakeUp r q) r q').op _ _ _ _ _ _ _ htask
      rw [himp rfl, hpq] at hw
      cases wakeUp_woken hw
  simpa only [wakeUp_semval, hval r hr] using hblocks

/-- **The operations are performed**, and nobody else is kept from going on by them. -/
theorem performed (h : WaitInv s (some t)) (semid : Nat) {sops : List Sembuf} {sma : Nat}
    {pending : Bool} (hd : DistinctNums sops)
    (hpass : checkOps (s.semval sma) pending sops = .pass) :
    WaitInv (performed t semid sops sma s) none := by
  unfold Semaphore.performed
  simp only
  refine WaitInv.running ?_
  generalize hr : Semaphore.applyOps t semid sma sops s false = r
  have hl : Later s r.1 := hr ▸ Later.applyOps t semid sma sops s false
  have hval : ∀ r' n, r.1.semval r' n =
      if r' = sma then applyVals (s.semval sma) sops n else s.semval r' n :=
    fun r' n => hr ▸ applyOps_semval t semid sma sops s false r' n
  have hzero : ∀ sop ∈ sops, applyVals (s.semval sma) sops sop.semNum.toNat = 0 → r.2 = true :=
    fun sop hsop h0 => hr ▸ applyOps_zero t semid sma hd s false hsop h0
  -- the first wake-up
  generalize hs₂ : (if (sops.any fun sop => decide (sop.semOp > 0)) = true then
    r.1.wakeUp sma .eventn else r.1) = s₂
  have hl₂ : Later r.1 s₂ := hs₂ ▸ Later.wakeIf r.1 sma .eventn _
  have hval₂ : ∀ r' n, s₂.semval r' n = r.1.semval r' n := by
    intro r' n
    rw [← hs₂]
    split_ifs <;> rfl
  refine h.later (hl.trans (hl₂.trans (Later.wakeIf s₂ sma .eventz _))) ?_
  intro t' _ semid' sops' sma' q num htask sop _ _ hblocks
  have hval₃ : (if r.2 = true then s₂.wakeUp sma .eventz else s₂).semval sma' num =
      r.1.semval sma' num := by
    rw [← hval₂]
    split_ifs <;> rfl
  rw [hval₃, hval]
  split_ifs with hsma
  · subst hsma
    obtain ⟨w, hw, himp⟩ := (Later.wakeIf s₂ sma' .eventz (r.2 = true)).op _ _ _ _ _ _ _ htask
    rw [himp rfl] at hw
    cases q with
    | eventn =>
      -- it has not been woken, so no operation is positive
      have hpos : ∀ sop ∈ sops, ¬ sop.semOp > 0 := by
        intro sop hsop hgt
        have hany : (sops.any fun sop => decide (sop.semOp > 0)) = true :=
          List.any_eq_true.2 ⟨sop, hsop, decide_eq_true hgt⟩
        rw [if_pos hany] at hs₂
        rw [← hs₂] at hw
        cases wakeUp_woken hw
      have hle := applyVals_le hd hpass hpos num
      show sop.semOp.toInt + _ < 0
      have hlt : sop.semOp.toInt + ((s.semval sma' num).toNat : Int) < 0 := hblocks
      omega
    | eventz =>
      -- it has not been woken, so no value has become zero
      refine ⟨hblocks.1, fun h0 => ?_⟩
      by_cases hmem : ∃ sop' ∈ sops, sop'.semNum.toNat = num
      · obtain ⟨sop', hsop', rfl⟩ := hmem
        rw [if_pos (hzero sop' hsop' h0)] at htask
        cases wakeUp_woken htask
      · rw [applyVals_of_not_mem fun sop' hsop' heq => hmem ⟨sop', hsop', heq⟩] at h0
        exact hblocks.2 h0
  · exact hblocks

/-- **An attempt** of `sys_semop`. -/
theorem attempt (h : WaitInv s (some t)) (semid : Nat) {sops : List Sembuf} (sma : Nat)
    (hd : DistinctNums sops) : WaitInv (attempt t semid sops sma s).1 none := by
  unfold Semaphore.attempt
  split_ifs
  · exact h.running
  cases hcheck : checkOps (s.semval sma) (s.pending t) sops with
  | fail e => exact h.running
  | pass => exact h.performed semid hd hcheck
  | sleep q num =>
    refine h.sleep ?_ ?_
    · unfold State.waitsFor
      rw [show ((s.countUp sma num q).setTask t (.opSleep semid sops sma q num false)).task t =
        .opSleep semid sops sma q num false from update_self _ _ _]
    · intro semid' sops' r q' n w heq
      cases heq
      exact ⟨rfl, rfl, rfl, hd, checkOps_sleep_blocks hcheck⟩

theorem dropUndo (h : WaitInv s (some t)) : WaitInv (dropUndo t s) none := by
  have hput : WaitInv (s.setTask t .exiting) none := h.put (by simp) (by simp)
  exact hput.same (Later.of_task rfl (fun _ _ _ _ _ => rfl) fun _ _ _ => rfl) fun _ _ => rfl

/-- **An adjustment is added**, and nobody else is kept from going on by it. -/
theorem adjusted (h : WaitInv s (some t)) (sma u : Nat)
    (hsum : 0 ≤ ((s.semval sma (s.undo u).semNum.toNat).toNat : Int) + (s.undo u).semadj.toInt) :
    WaitInv (adjusted t sma u s) none := by
  unfold Semaphore.adjusted
  simp only
  refine WaitInv.dropUndo ?_
  generalize hs₁ : s.setSemval sma (s.undo u).semNum.toNat
    (toUshort ((s.semval sma (s.undo u).semNum.toNat).toNat + (s.undo u).semadj.toInt)) = s₁
  have hl : Later s s₁ := hs₁ ▸ Later.setSemval s sma _ _
  have hval : ∀ r n, s₁.semval r n = if r = sma ∧ n = (s.undo u).semNum.toNat then
      toUshort ((s.semval sma (s.undo u).semNum.toNat).toNat + (s.undo u).semadj.toInt)
      else s.semval r n :=
    fun r n => hs₁ ▸ setSemval_semval s sma (s.undo u).semNum.toNat _ r n
  generalize hs₂ : (if (s.undo u).semadj > 0 then s₁.wakeUp sma .eventn else s₁) = s₂
  have hl₂ : Later s₁ s₂ := hs₂ ▸ Later.wakeIf s₁ sma .eventn _
  have hval₂ : ∀ r n, s₂.semval r n = s₁.semval r n := by
    intro r n
    rw [← hs₂]
    split_ifs <;> rfl
  refine h.later (hl.trans (hl₂.trans (Later.wakeIf s₂ sma .eventz _))) ?_
  intro t' _ semid' sops' sma' q num htask sop _ _ hblocks
  have hval₃ : (if s₂.semval sma (s.undo u).semNum.toNat = 0 then s₂.wakeUp sma .eventz
      else s₂).semval sma' num = s₁.semval sma' num := by
    rw [← hval₂ sma' num]
    split_ifs <;> rfl
  rw [hval₃, hval]
  split_ifs with hsma
  · obtain ⟨rfl, rfl⟩ := hsma
    obtain ⟨w, hw, himp⟩ :=
      (Later.wakeIf s₂ sma' .eventz (s₂.semval sma' (s.undo u).semNum.toNat = 0)).op
        _ _ _ _ _ _ _ htask
    rw [himp rfl] at hw
    cases q with
    | eventn =>
      -- it has not been woken, so the value has not grown
      have hneg : (s.undo u).semadj.toInt ≤ 0 := by
        by_contra hgt
        have hpos : (s.undo u).semadj > 0 := by
          rw [gt_iff_lt, Int16.lt_iff_toInt_lt]
          exact Int.not_le.1 hgt
        rw [if_pos hpos] at hs₂
        rw [← hs₂] at hw
        cases wakeUp_woken hw
      have hlt : sop.semOp.toInt +
        ((s.semval sma' (s.undo u).semNum.toNat).toNat : Int) < 0 := hblocks
      have hbound := (s.semval sma' (s.undo u).semNum.toNat).toNat_lt
      have heq := toUshort_toNat hsum (by omega)
      show sop.semOp.toInt + _ < 0
      omega
    | eventz =>
      refine ⟨hblocks.1, fun h0 => ?_⟩
      have hz : s₂.semval sma' (s.undo u).semNum.toNat = 0 := by
        rw [hval₂, hval, if_pos ⟨rfl, rfl⟩]
        exact h0
      rw [if_pos hz] at htask
      cases wakeUp_woken htask
  · exact hblocks

/-- **A round of `sem_exit`** on a record. -/
theorem adjust (h : WaitInv s (some t)) (sma u : Nat) : WaitInv (adjust t sma u s) none := by
  rcases adjust_cases t sma u s with heq | heq | ⟨-, hsum, heq⟩
  · rw [heq]
    exact h.dropUndo
  · rw [heq]
    refine h.sleep ?_ ?_
    · unfold State.waitsFor
      rw [show ((s.countUp sma (s.undo u).semNum.toNat .eventn).setTask t
        (.exitSleep sma u false)).task t = .exitSleep sma u false from update_self _ _ _]
      rfl
    · intro semid sops r q n w hx
      cases hx
  · rw [heq]
    exact h.adjusted sma u hsum

theorem exitStep (h : WaitInv s (some t)) : WaitInv (exitStep t s) none := by
  unfold Semaphore.exitStep
  cases s.semun t with
  | nil => exact h.put (by simp) (by simp)
  | cons u rest =>
    simp only
    cases s.table.slot ((s.undo u).semid % mni) with
    | used sma =>
      simp only
      have herase : WaitInv (s.setUndoList sma ((s.set sma).undo.erase u)) (some t) := by
        refine h.same (Later.of_task rfl (fun _ _ _ _ _ => rfl) fun q r n => ?_) fun r n =>
          setUndoList_semval s sma _ r n
        unfold State.setUndoList
        by_cases hr : r = sma
        · simp [hr]
        · simp [hr]
      split_ifs
      · exact h.dropUndo
      · exact herase.dropUndo
      · exact herase.adjust sma u
      · have hgone : WaitInv (s.setTask t .gone) none := h.put (by simp) (by simp)
        exact hgone.same (Later.of_task rfl (fun _ _ _ _ _ => rfl) fun _ _ _ => rfl) fun _ _ => rfl
    | unused | noid => exact h.dropUndo

theorem run {out : Option Int} (h : WaitInv s none) (hrun : run t s = some (s', out)) :
    WaitInv s' none := by
  unfold Semaphore.run at hrun
  cases ht : s.task t with
  | opSleep semid sops sma q num w =>
    rw [ht] at hrun
    simp only at hrun
    split_ifs at hrun
    rw [Option.some.injEq] at hrun
    have hwaits : s.waitsFor t = some (q, sma, num) := by
      unfold State.waitsFor
      rw [ht]
    have hatt := (h.resume hwaits).attempt semid sma
      (h.distinct t (by simp) semid sops sma q num w ht)
    rw [hrun] at hatt
    exact hatt
  | exitSleep sma u w =>
    rw [ht] at hrun
    simp only at hrun
    split_ifs at hrun
    rw [Option.some.injEq, Prod.mk.injEq] at hrun
    have hwaits : s.waitsFor t = some (.eventn, sma, (s.undo u).semNum.toNat) := by
      unfold State.waitsFor
      rw [ht]
    rw [← hrun.1]
    exact (h.resume hwaits).adjust sma u
  | exiting =>
    rw [ht] at hrun
    rw [Option.some.injEq, Prod.mk.injEq] at hrun
    have hwaits : s.waitsFor t = none := by
      unfold State.waitsFor
      rw [ht]
    rw [← hrun.1]
    exact (h.leave hwaits).exitStep
  | running | setval | setall | gone =>
    rw [ht] at hrun
    cases hrun

end WaitInv

section Calls

variable [DecidableEq τ]

/-- New records are not those of the sleepers. -/
theorem addUndos_later (t : τ) (semid sma allocs : Nat) (sops : List Sembuf) {s : State τ}
    (hlt : ∀ t sma u w, s.task t = .exitSleep sma u w → u < s.freshUndo) :
    Later s (addUndos t semid sma allocs sops s).1 ∧
      (addUndos t semid sma allocs sops s).1.task = s.task := by
  induction sops generalizing allocs s with
  | nil => exact ⟨.refl s, rfl⟩
  | cons sop rest ih =>
    rw [addUndos.eq_def]
    simp only
    split_ifs
    · exact ih _ hlt
    · cases allocs with
      | zero => exact ⟨.refl s, rfl⟩
      | succ allocs =>
        simp only
        generalize hs₁ : ({ s with
          undo := update s.undo s.freshUndo ⟨semid, sop.semNum, 0⟩
          freshUndo := s.freshUndo + 1
          semun := update s.semun t (s.freshUndo :: s.semun t)
          set := update s.set sma
            { s.set sma with undo := s.freshUndo :: (s.set sma).undo } } : State τ) = s₁
        have htask : s₁.task = s.task := by rw [← hs₁]
        have hl : Later s s₁ := by
          refine Later.of_task htask (fun t' sma' u w ht' => ?_) fun q r n => ?_
          · rw [← hs₁]
            dsimp only
            rw [update_of_ne (Nat.ne_of_lt (hlt t' sma' u w ht'))]
          · rw [← hs₁]
            by_cases hr : r = sma <;> simp [hr]
        have hlt₁ : ∀ t' sma' u w, s₁.task t' = .exitSleep sma' u w → u < s₁.freshUndo := by
          intro t' sma' u w ht'
          rw [htask] at ht'
          have := hlt t' sma' u w ht'
          rw [← hs₁]
          exact Nat.lt_succ_of_lt this
        obtain ⟨h1, h2⟩ := ih allocs hlt₁
        exact ⟨hl.trans h1, h2.trans htask⟩
    · exact ih _ hlt

end Calls

/-- The operations of a call that passes the checks are on different semaphores, all of them in the
set. -/
def distinctOps (s : State τ) : Event τ → Prop
  | .semop _ semid sops denied _ => ∀ sma, semopSet s semid sops denied = .ok sma →
      DistinctNums sops ∧ ∀ sop ∈ sops, sop.semNum.toNat < s.nsems sma
  | _ => True

theorem distinctOps.inBounds {s : State τ} {e : Event τ} (h : distinctOps s e) : inBounds s e := by
  cases e with
  | semop t semid sops denied allocs =>
    exact fun sma hset sop hsop => ((h sma hset).2 sop hsop).ne
  | _ => trivial

instance (s : State τ) (e : Event τ) : Decidable (distinctOps s e) :=
  match e with
  | .semop _ semid sops denied _ =>
    match h : semopSet s semid sops denied with
    | .ok sma => decidable_of_iff
        (DistinctNums sops ∧ ∀ sop ∈ sops, sop.semNum.toNat < s.nsems sma)
        (by simp only [distinctOps, h, Except.ok.injEq, forall_eq'])
    | .error _ => isTrue (by simp only [distinctOps, h, reduceCtorEq, false_implies, implies_true])
  | .table _ | .setval .. | .setall .. | .ctl .. | .run _ | .exit _ | .signal .. => isTrue trivial

theorem waitsFor_running {s : State τ} {t : τ} (h : s.task t = .running) :
    s.waitsFor t = none := by
  unfold State.waitsFor
  rw [h]

namespace WaitInv

variable [Fintype τ] [DecidableEq τ] {s s' : State τ} {t : τ}

/-- **`sys_semop`.** -/
theorem semop (h : WaitInv s none) (hb : Bounded s) (ht : s.task t = .running) {semid : Int}
    {sops : List Sembuf} {denied : Bool} (allocs : Nat)
    (hd : ∀ sma, semopSet s semid sops denied = .ok sma → DistinctNums sops) :
    WaitInv (semop t semid sops denied allocs s).1 none := by
  unfold Semaphore.semop
  cases hset : semopSet s semid sops denied with
  | error e => exact h
  | ok sma =>
    obtain ⟨hl, htask⟩ := addUndos_later t semid.toNat sma allocs sops
      fun _ _ _ _ hx => (hb.exit_num hx).2.1
    have hval : ∀ r n, (addUndos t semid.toNat sma allocs sops s).1.semval r n = s.semval r n := by
      intro r n
      unfold State.semval
      rw [(addUndos_same t semid.toNat sma allocs sops s).2.2 r]
    have hadd := h.same hl hval
    simp only
    split
    · rename_i s₁ heq
      rw [heq] at hadd
      exact hadd
    · rename_i s₁ heq
      rw [heq] at hadd htask
      have ht₁ : s₁.task t = .running := by rw [htask, ht]
      exact (hadd.leave (waitsFor_running ht₁)).attempt semid.toNat sma (hd sma hset)

theorem setvalEnd (h : WaitInv s (some t)) (semid semnum sma : Nat) (val : Int) (denied : Bool) :
    WaitInv (setvalEnd semid semnum sma val denied s).1 (some t) := by
  unfold Semaphore.setvalEnd
  split_ifs
  · exact h
  split
  · exact h
  · refine h.wakeAll (by simp) ((Later.clearAdj s sma _).trans (Later.setSemval _ sma _ _))
      fun r hr n => ?_
    rw [setSemval_semval, if_neg fun hc => hr hc.1, clearAdj_semval]

theorem setallEnd (h : WaitInv s (some t)) (semid sma nsems : Nat) (semIo : List UInt16)
    (denied : Bool) : WaitInv (setallEnd semid sma nsems semIo denied s).1 (some t) := by
  unfold Semaphore.setallEnd
  split_ifs
  · exact h
  split
  · exact h
  · simp only
    refine h.wakeAll (by simp) (Later.trans ?_ (Later.clearAdj _ sma _)) fun r hr n => ?_
    · refine Later.of_task rfl (fun _ _ _ _ _ => rfl) fun q r n => ?_
      by_cases hr : r = sma
      · subst hr
        simp only [update_self]
        split_ifs
        · cases q <;> rfl
        · rfl
      · simp only [update_of_ne hr]
    · rw [clearAdj_semval]
      unfold State.semval
      simp only [update_of_ne hr]

/-- A set that is made is one nobody sleeps for. -/
theorem withTable (h : WaitInv s none) (hb : Bounded s) (T : Table τ) :
    WaitInv (s.withTable T) none := by
  have hnone : ∀ q n, sleepers s none (q, s.table.fresh, n) = 0 := by
    intro q n
    unfold sleepers
    rw [Finset.card_eq_zero, Finset.filter_eq_empty_iff]
    rintro t - ⟨-, hw⟩
    unfold State.waitsFor at hw
    split at hw
    · rename_i heq
      cases hw
      exact absurd (hb.op_num heq).1 (lt_irrefl _)
    · rename_i heq
      cases hw
      exact absurd (hb.exit_num heq).1 (lt_irrefl _)
    · cases hw
  have hset : ∀ r, r ≠ s.table.fresh → (s.withTable T).set r = s.set r := by
    intro r hr
    unfold State.withTable
    dsimp only
    split_ifs
    · rfl
    · exact update_of_ne hr _ _
  refine h.later (Later.of_task rfl (fun _ _ _ _ _ => rfl) fun q r n => ?_) ?_
  · by_cases hr : r = s.table.fresh
    · subst hr
      have hzero := h.count q s.table.fresh n
      rw [hnone] at hzero
      unfold State.withTable
      dsimp only
      split_ifs
      · rfl
      · rw [update_self, hzero]
        cases q <;> rfl
    · rw [hset r hr]
  · intro t _ semid sops r q n htask sop _ _ hblocks
    have hr : r ≠ s.table.fresh := (hb.op_num (s := s) htask).1.ne
    unfold State.semval at hblocks ⊢
    rw [hset r hr]
    exact hblocks

/-- **Every step keeps the sleepers**, if the operations are on different semaphores. -/
theorem step (h : WaitInv s none) (hb : Bounded s) {e : Event τ} (hok : distinctOps s e)
    (hstep : step s e = some s') : WaitInv s' none := by
  obtain ⟨⟨s'', out⟩, hout, rfl⟩ := Option.map_eq_some_iff.1 hstep
  cases e with
  | table e =>
    obtain ⟨T, -, rfl | ⟨sma, rfl⟩⟩ := tableStep_cases hout
    · exact h.withTable hb T
    · refine (h.withTable hb T).wakeAll (by simp) (Later.clearAdj _ sma _) fun r _ n => ?_
      rw [clearAdj_semval]
  | semop t semid sops denied allocs =>
    simp only [stepOut] at hout
    split_ifs at hout with ht
    rw [Option.some.injEq] at hout
    have hsem := h.semop hb ht allocs fun sma hset => (hok sma hset).1
    rw [hout] at hsem
    exact hsem
  | setval t semid semnum val =>
    simp only [stepOut, setvalBegin] at hout
    split_ifs at hout with ht
    split at hout
    · cases hout
      exact h
    · cases hout
      exact (h.leave (waitsFor_running ht)).put (by simp) (by simp)
  | setall t semid semnum array =>
    simp only [stepOut, setallBegin] at hout
    split_ifs at hout with ht
    split at hout
    · cases hout
      exact h
    · cases hout
      exact (h.leave (waitsFor_running ht)).put (by simp) (by simp)
  | ctl t denied =>
    obtain ⟨r, hr, heq⟩ := Option.map_eq_some_iff.1 hout
    cases heq
    unfold ctlEnd at hr
    split at hr
    · rename_i semid semnum sma val ht
      cases hr
      have hwaits : s.waitsFor t = none := by
        unfold State.waitsFor
        rw [ht]
      exact ((h.leave hwaits).setvalEnd semid semnum sma val denied).running
    · rename_i semid sma nsems semIo ht
      cases hr
      have hwaits : s.waitsFor t = none := by
        unfold State.waitsFor
        rw [ht]
      exact ((h.leave hwaits).setallEnd semid sma nsems semIo denied).running
    · cases hr
  | run t => exact h.run hout
  | exit t =>
    simp only [stepOut] at hout
    split_ifs at hout with ht
    cases hout
    exact (h.leave (waitsFor_running ht)).put (by simp) (by simp)
  | signal t pending =>
    cases hout
    exact h.same (Later.of_task rfl (fun _ _ _ _ _ => rfl) fun _ _ _ => rfl) fun _ _ => rfl

theorem init : WaitInv (State.init : State τ) none := by
  refine ⟨fun t _ semid sops sma q num h => ?_, fun t _ semid sops sma q num w h => ?_,
    fun q sma num => ?_⟩
  · cases h
  · cases h
  · have hzero : sleepers (State.init : State τ) none (q, sma, num) = 0 := by
      unfold sleepers
      rw [Finset.card_eq_zero, Finset.filter_eq_empty_iff]
      rintro t - ⟨-, hw⟩
      cases hw
    rw [hzero]
    cases q <;> rfl

end WaitInv

/-! ## Runs -/

/-- `NR_TASKS`. -/
def nrTasks : Nat := 64

/-- **No wake-up is lost.**  In every run whose calls have operations on different semaphores of the
set, a process that sleeps in `sys_semop` and has not been woken is still kept from going on by the
operation it went to sleep for, and `semncnt` and `semzcnt` are the numbers of those who went to
sleep for the semaphore and have not resumed. -/
theorem no_lost_wakeup [Fintype τ] [DecidableEq τ] (hτ : Fintype.card τ ≤ nrTasks) {s : State τ}
    (h : Transition.Reach step distinctOps State.init s) :
    (∀ t semid sops sma q num, s.task t = .opSleep semid sops sma q num false →
      ∃ sop ∈ sops, sop.semNum.toNat = num ∧ Blocks sop (s.semval sma num) q) ∧
    ∀ sma num, ((s.set sma).base num).semncnt.toNat = sleepers s none (.eventn, sma, num) ∧
      ((s.set sma).base num).semzcnt.toNat = sleepers s none (.eventz, sma, num) := by
  have hinv : WaitInv s none ∧ Bounded s := by
    refine h.invariant (I := fun s => WaitInv s none ∧ Bounded s) ⟨.init, init_bounded⟩ ?_
    rintro s e s' ⟨hw, hb⟩ hok hstep
    exact ⟨hw.step hb hok hstep, step_bounded hb hok.inBounds hstep⟩
  -- the numbers are too small to be cut off
  have hsmall : ∀ k, sleepers s none k < 2 ^ 16 := by
    intro k
    have hcard : sleepers s none k ≤ Fintype.card τ := Finset.card_le_univ _
    unfold nrTasks at hτ
    omega
  have hcount : ∀ q sma num,
      (((s.set sma).base num).counter q).toNat = sleepers s none (q, sma, num) := by
    intro q sma num
    rw [hinv.1.count, UInt16.toNat_ofNat']
    exact Nat.mod_eq_of_lt (hsmall _)
  exact ⟨fun t => hinv.1.blocked t (by simp), fun sma num => ⟨hcount .eventn sma num,
    hcount .eventz sma num⟩⟩

/-- A process waits for the semaphore of the set to be 1. -/
theorem no_lost_wakeup_one_semaphore :
    Fintype.card Unit ≤ nrTasks ∧ ∃ s : State Unit,
      s.task () = .opSleep 0 [⟨0, -1, false, false⟩] 0 .eventn 0 false ∧
      (∃ sop ∈ [⟨0, -1, false, false⟩], sop.semNum.toNat = 0 ∧ Blocks sop (s.semval 0 0) .eventn) ∧
      ((s.set 0).base 0).semncnt.toNat = sleepers s none (.eventn, 0, 0) := by
  have hrun : (Transition.execOkFrom step (fun s e => decide (distinctOps s e)) State.init
      (oneSemaphore ++ [.semop () 0 [⟨0, -1, false, false⟩] false 0])).map
      (fun s => s.task ()) = some (.opSleep 0 [⟨0, -1, false, false⟩] 0 .eventn 0 false) := by
    decide +kernel
  obtain ⟨s, hs, htask⟩ := Option.map_eq_some_iff.1 hrun
  have hreach : Transition.Reach step distinctOps State.init s :=
    Transition.Reach.of_execOkFrom (fun _ _ => of_decide_eq_true) .init hs
  have hcard : Fintype.card Unit ≤ nrTasks := by decide
  obtain ⟨hblocked, hcount⟩ := no_lost_wakeup hcard hreach
  exact ⟨hcard, s, htask, hblocked () _ _ _ _ _ htask, (hcount 0 0).1⟩

end LinuxEvocation.Ipc.Semaphore
