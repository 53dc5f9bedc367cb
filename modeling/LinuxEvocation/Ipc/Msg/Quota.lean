import LinuxEvocation.Ipc.Msg.Refine

/-!
# The space of a message queue and the senders that wait for it

A sender tests for space, and sleeps in the allocation before it uses the space.  A receiver wakes
the senders that wait; `msgctl(IPC_SET)` does not.

* `Counted` — the bytes of the messages on the list are among those that are counted.
* `QuotaSound` — the queue is within `msg_qbytes`, and no sender sleeps while its message would fit.
* `neverLowers`, `spaceKept` — the conditions on a step.
* `queue_quota` — in every run whose steps meet them.
* `queue_over_quota` — senders that have found the same space, and a sender that is not woken when
  the limit is raised.
-/

namespace LinuxEvocation.Ipc.Message

open LinkedList

variable {τ : Type*}

/-! ## What is counted -/

/-- The messages are at the addresses of `l`.  The counter of the messages may have gone around, so
that bytes are counted of messages that are no longer on the list. -/
structure Counted (s : State τ) (l : List Nat) : Prop extends Links s l where
  qnum : s.queue.qnum = UInt16.ofNat l.length
  cbytes : ((l.map s.msg).map Msg.ts).sum ≤ s.queue.cbytes.toNat

variable {s : State τ}

theorem Counted.congr {s' : State τ} {l : List Nat} (h : Counted s l) (hnext : s'.next = s.next)
    (hmsg : s'.msg = s.msg) (hfresh : s'.fresh = s.fresh) (hfirst : s'.queue.first = s.queue.first)
    (hlast : s'.queue.last = s.queue.last) (hqnum : s'.queue.qnum = s.queue.qnum)
    (hcbytes : s'.queue.cbytes = s.queue.cbytes) : Counted s' l where
  toLinks := h.toLinks.congr hnext hfresh hfirst hlast
  qnum := hqnum.trans h.qnum
  cbytes := by
    rw [hcbytes, hmsg]
    exact h.cbytes

/-- The size of a message on the list is a number the counter can take. -/
theorem Counted.toNat_ts {l₁ l₂ : List Nat} {d : Nat}
    (h : Counted s (l₁ ++ d :: l₂)) : (UInt16.ofNat (s.msg d).ts).toNat = (s.msg d).ts := by
  have hsum := h.cbytes
  rw [sum_ts_middle] at hsum
  have hlt : s.queue.cbytes.toNat < UInt16.size := s.queue.cbytes.toNat_lt
  exact UInt16.toNat_ofNat_of_lt' (lt_of_le_of_lt (by omega) hlt)

/-- Taking a message out takes its bytes back. -/
theorem Counted.toNat_cbytes {l₁ l₂ : List Nat} {d : Nat} (h : Counted s (l₁ ++ d :: l₂)) :
    (unlinkMsg d s).queue.cbytes.toNat + (s.msg d).ts = s.queue.cbytes.toNat := by
  have hsum := h.cbytes
  rw [sum_ts_middle] at hsum
  have hle : UInt16.ofNat (s.msg d).ts ≤ s.queue.cbytes := by
    rw [UInt16.le_iff_toNat_le, h.toNat_ts]
    omega
  rw [unlinkMsg_cbytes, UInt16.toNat_sub_of_le _ _ hle, h.toNat_ts]
  omega

/-- A message is taken out; if the counter says that it was the last one, the rest is lost. -/
theorem Counted.unlinkMsg {l₁ l₂ : List Nat} {d : Nat}
    (h : Counted s (l₁ ++ d :: l₂)) : ∃ l, Counted (unlinkMsg d s) l := by
  have hqnum : s.queue.qnum - 1 = UInt16.ofNat (l₁ ++ l₂).length := by
    have hlength : (l₁ ++ d :: l₂).length = (l₁ ++ l₂).length + 1 := by
      simp
      omega
    rw [h.qnum, hlength, UInt16.ofNat_add]
    exact UInt16.add_sub_cancel _ _
  have hlinks := unlinkMsg_left h.toLinks fun hnil => by
    rw [hqnum, hnil]
    rfl
  refine ⟨_, hlinks, ?_, ?_⟩
  · rw [unlinkMsg_qnum]
    split_ifs with h0
    · exact h0
    · exact hqnum
  · have hsum := h.cbytes
    have hcbytes := h.toNat_cbytes
    rw [sum_ts_middle] at hsum
    rw [unlinkMsg_msg]
    split_ifs with h0
    · exact Nat.zero_le _
    · omega

/-! ## Space -/

/-- The message would fit. -/
def Queue.HasSpace (q : Queue) (m : Msg) : Prop := m.ts + q.cbytes.toNat ≤ q.qbytes.toNat

instance (q : Queue) (m : Msg) : Decidable (q.HasSpace m) := inferInstanceAs (Decidable (_ ≤ _))

/-- **The queue is within its limit, and no sender sleeps while its message would fit.** -/
structure QuotaSound (s : State τ) : Prop where
  quota : s.queue.cbytes ≤ s.queue.qbytes
  asleep : ∀ t m, s.task t = .wwait m false → ¬ s.queue.HasSpace m

structure QuotaInv (s : State τ) : Prop extends QuotaSound s where
  counted : ∃ l, Counted s l

/-- The limit a step sets. -/
def Event.sets : Event τ → Option UInt16
  | .set qbytes suser => if qbytes.toNat > msgmnb ∧ ¬ suser then none else some qbytes
  | _ => none

/-- `msg_qbytes` is not lowered. -/
def neverLowers (s : State τ) (e : Event τ) : Prop :=
  ∀ qbytes, e.sets = some qbytes → s.queue.qbytes ≤ qbytes

/-- **The condition on a step**: a message that is put on the queue still has the space that was
found for it, and a limit that is set does not make space for a sender that sleeps. -/
def spaceKept (s : State τ) (e : Event τ) : Prop :=
  (∀ m, e.snd s = some m → s.queue.HasSpace m) ∧
    ∀ qbytes, e.sets = some qbytes →
      ∀ t m, s.task t = .wwait m false → ¬ { s.queue with qbytes := qbytes }.HasSpace m

/-! ## One step -/

theorem wakeWwait_task {t : τ} {m : Msg} : s.wakeWwait.task t ≠ .wwait m false := by
  simp only [State.wakeWwait]
  split
  · simp
  · rename_i hne
    exact hne m false

theorem wakeRwait_task {t : τ} {m : Msg}
    (h : s.wakeRwait.task t = .wwait m false) : s.task t = .wwait m false := by
  simp only [State.wakeRwait] at h
  split at h
  · cases h
  · exact h

theorem quotaInv_init : QuotaInv (State.init : State τ) := by
  have hquota : (0 : UInt16) ≤ UInt16.ofNat msgmnb := by decide
  exact ⟨⟨hquota, fun _ _ h => by cases h⟩, [], links_init, rfl, le_rfl⟩

section Code

variable [DecidableEq τ]

variable {s : State τ}

theorem QuotaInv.setTask (h : QuotaInv s) (t : τ) {x : Task}
    (hx : ∀ m, x = .wwait m false → ¬ s.queue.HasSpace m) : QuotaInv (s.setTask t x) := by
  refine ⟨⟨h.quota, fun t' m htask => ?_⟩, ?_⟩
  · simp only [State.setTask] at htask
    by_cases heq : t' = t
    · subst heq
      rw [Function.update_self] at htask
      exact hx m htask
    · rw [Function.update_of_ne heq] at htask
      exact h.asleep t' m htask
  · obtain ⟨l, hl⟩ := h.counted
    exact ⟨l, hl.congr rfl rfl rfl rfl rfl rfl rfl⟩

theorem QuotaInv.fail (h : QuotaInv s) (t : τ) (e : Int) : QuotaInv (s.fail t e).1 :=
  h.setTask t (by simp)

/-- A sender goes to sleep only if its message does not fit. -/
theorem trySend_quota (h : QuotaInv s) (t : τ) (m : Msg) (nowait denied : Bool) :
    QuotaInv (trySend t m nowait denied s).1 := by
  unfold trySend
  split_ifs with hdenied hspace hnowait hpending
  · exact h.fail t _
  · exact h.fail t _
  · exact h.fail t _
  · refine h.setTask t fun m' hm' => ?_
    cases hm'
    exact not_le.2 hspace
  · exact h.setTask t (by simp)

/-- A message that has space is put on the queue. -/
theorem enqueue_quota (h : QuotaInv s) (t : τ) {m : Msg}
    (hspace : s.queue.HasSpace m) : QuotaInv (enqueue t m s).1 := by
  obtain ⟨l, hl⟩ := h.counted
  have hlt : s.queue.qbytes.toNat < 65536 := s.queue.qbytes.toNat_lt
  unfold Queue.HasSpace at hspace
  have hts : (UInt16.ofNat m.ts).toNat = m.ts := by
    apply UInt16.toNat_ofNat_of_lt'
    simp only [UInt16.size]
    omega
  have hcbytes : (linkMsg s.fresh m s).queue.cbytes.toNat = s.queue.cbytes.toNat + m.ts := by
    change (s.queue.cbytes + UInt16.ofNat m.ts).toNat = _
    rw [UInt16.toNat_add, hts]
    exact Nat.mod_eq_of_lt (by omega)
  have hinv : QuotaInv (linkMsg s.fresh m s).wakeRwait := by
    refine ⟨⟨?_, fun t' m' htask hfits => ?_⟩, l ++ [s.fresh], ?_, ?_, ?_⟩
    · apply UInt16.le_iff_toNat_le.2
      change (linkMsg s.fresh m s).queue.cbytes.toNat ≤ s.queue.qbytes.toNat
      omega
    · have hold := h.asleep t' m' (wakeRwait_task htask)
      have hnew : m'.ts + (linkMsg s.fresh m s).queue.cbytes.toNat ≤ s.queue.qbytes.toNat := hfits
      rw [hcbytes] at hnew
      exact hold (show _ ≤ _ by omega)
    · exact (linkMsg_links hl.toLinks m).congr rfl rfl rfl rfl
    · change s.queue.qnum + 1 = _
      rw [hl.qnum, List.length_append, UInt16.ofNat_add]
      rfl
    · change (((l ++ [s.fresh]).map (linkMsg s.fresh m s).msg).map Msg.ts).sum ≤
        (linkMsg s.fresh m s).queue.cbytes.toNat
      rw [linkMsg_msgs hl.toLinks, hcbytes, List.map_append, List.sum_append]
      simpa using hl.cbytes
  exact hinv.setTask t (by simp)

/-- A message is received, and the senders are woken. -/
theorem unlinkMsg_quota {l₁ l₂ : List Nat} {d : Nat} (h : QuotaInv s)
    (hl : Counted s (l₁ ++ d :: l₂)) (t : τ) :
    QuotaInv (((unlinkMsg d s).wakeWwait).setTask t .idle) := by
  have hinv : QuotaInv (unlinkMsg d s).wakeWwait := by
    refine ⟨⟨?_, fun t' m htask => absurd htask wakeWwait_task⟩, ?_⟩
    · have hcbytes := hl.toNat_cbytes
      have hquota := UInt16.le_iff_toNat_le.1 h.quota
      change (unlinkMsg d s).queue.cbytes ≤ (unlinkMsg d s).queue.qbytes
      rw [UInt16.le_iff_toNat_le, unlinkMsg_qbytes]
      omega
    · obtain ⟨l, hl'⟩ := hl.unlinkMsg
      exact ⟨l, hl'.congr rfl rfl rfl rfl rfl rfl rfl⟩
  exact hinv.setTask t (by simp)

theorem tryRcv_quota (h : QuotaInv s) (t : τ) (r : Rcv) (nowait denied : Bool) :
    QuotaInv (tryRcv t r nowait denied s).1 := by
  obtain ⟨l, hl⟩ := h.counted
  unfold tryRcv
  by_cases hdenied : denied = true
  · rw [if_pos hdenied]
    exact h.fail t _
  rw [if_neg hdenied]
  simp only
  obtain ⟨hzero, -⟩ | ⟨hne, l₁, l₂, hsplit, -⟩ := find_spec hl.toLinks r
  · rw [if_neg (not_not.2 hzero)]
    split_ifs
    · exact h.fail t _
    · exact h.fail t _
    · exact h.setTask t (by simp)
  · rw [if_pos hne]
    rw [hsplit] at hl
    split_ifs
    · exact h.fail t _
    all_goals exact unlinkMsg_quota h hl t

/-- **One step** that meets the conditions. -/
theorem step_quota {s' : State τ} {e : Event τ} (h : QuotaInv s) (hlow : neverLowers s e)
    (hspace : spaceKept s e) (hstep : step s e = some s') : QuotaInv s' := by
  obtain ⟨⟨_, out⟩, hout, rfl⟩ := Option.map_eq_some_iff.1 hstep
  cases e with
  | msgsnd t m nowait denied =>
    simp only [stepOut] at hout
    split_ifs at hout
    rw [← congrArg Prod.fst (Option.some.inj hout)]
    unfold sysMsgsnd
    split_ifs
    · exact h.fail t _
    · exact h.fail t _
    · exact trySend_quota h t m nowait denied
  | kmalloc t ok =>
    simp only [stepOut] at hout
    cases htask : s.task t with
    | kmalloc m =>
      rw [htask] at hout
      rw [← congrArg Prod.fst (Option.some.inj hout)]
      cases ok with
      | false => exact h.fail t _
      | true => exact enqueue_quota h t (hspace.1 m (by simp only [Event.snd, htask]))
    | _ =>
      rw [htask] at hout
      cases hout
  | msgrcv t msgsz msgtyp except noerror nowait denied =>
    simp only [stepOut] at hout
    split_ifs at hout
    rw [← congrArg Prod.fst (Option.some.inj hout)]
    unfold sysMsgrcv
    split_ifs
    · exact h.fail t _
    · exact tryRcv_quota h t _ nowait denied
  | run t denied =>
    simp only [stepOut] at hout
    cases htask : s.task t with
    | wwait m woken =>
      rw [htask] at hout
      simp only at hout
      split_ifs at hout
      rw [← congrArg Prod.fst (Option.some.inj hout)]
      exact trySend_quota h t m false denied
    | rwait r woken =>
      rw [htask] at hout
      simp only at hout
      split_ifs at hout
      rw [← congrArg Prod.fst (Option.some.inj hout)]
      exact tryRcv_quota h t r false denied
    | _ =>
      rw [htask] at hout
      cases hout
  | set qbytes suser =>
    simp only [stepOut] at hout
    split_ifs at hout with hperm
    · cases hout
      exact h
    · cases hout
      have hsets : (Event.set qbytes suser : Event τ).sets = some qbytes := if_neg hperm
      obtain ⟨l, hl⟩ := h.counted
      exact ⟨⟨UInt16.le_trans h.quota (hlow qbytes hsets), hspace.2 qbytes hsets⟩, l,
        hl.congr rfl rfl rfl rfl rfl rfl rfl⟩
  | signal t pending =>
    cases hout
    obtain ⟨l, hl⟩ := h.counted
    exact ⟨⟨h.quota, h.asleep⟩, l, hl.congr rfl rfl rfl rfl rfl rfl rfl⟩

/-! ## Runs -/

/-- **The quota and the wake-up**, in every run in which the limit is not lowered and whose steps
keep the space that was found. -/
theorem queue_quota
    (h : Transition.Reach step (fun s e => neverLowers s e ∧ spaceKept s e) State.init s) :
    QuotaSound s :=
  (h.invariant (I := QuotaInv) quotaInv_init
    fun _ _ _ hs hok hstep => step_quota hs hok.1 hok.2 hstep).toQuotaSound

end Code

/-- The conditions for steps that set no limit, to be computed. -/
def spaceKeptB (s : State τ) (e : Event τ) : Bool :=
  e.sets.isNone && (e.snd s).all fun m => decide (s.queue.HasSpace m)

theorem spaceKept_of_spaceKeptB {e : Event τ} (h : spaceKeptB s e = true) :
    neverLowers s e ∧ spaceKept s e := by
  rw [spaceKeptB, Bool.and_eq_true, Option.isNone_iff_eq_none] at h
  refine ⟨fun qbytes hsets => ?_, fun m hm => ?_, fun qbytes hsets => ?_⟩
  · rw [h.1] at hsets
    cases hsets
  · have hall := h.2
    rw [hm] at hall
    exact of_decide_eq_true hall
  · rw [h.1] at hsets
    cases hsets

/-- A message of the greatest length. -/
def longest : Msg := ⟨1, List.replicate msgmax 0⟩

/-- Four messages of the greatest length fill the queue; the fifth sender waits, and is woken when
the first message is received. -/
theorem queue_quota_four_messages :
    ∃ s : State (Fin 6), s.queue.cbytes = 12240 ∧ s.task 4 = .wwait longest true ∧ QuotaSound s := by
  have hrun : (Transition.execOkFrom step spaceKeptB State.init
      [.msgsnd 0 longest false false, .kmalloc 0 true, .msgsnd 1 longest false false,
        .kmalloc 1 true, .msgsnd 2 longest false false, .kmalloc 2 true,
        .msgsnd 3 longest false false, .kmalloc 3 true, .msgsnd 4 longest false false,
        .msgrcv 5 msgmax 0 false false false false]).map
      (fun s : State (Fin 6) => (s.queue.cbytes, decide (s.task 4 = .wwait longest true))) =
      some (12240, true) := by
    decide +kernel
  obtain ⟨s, hs, hval⟩ := Option.map_eq_some_iff.1 hrun
  simp only [Prod.mk.injEq, decide_eq_true_eq] at hval
  exact ⟨s, hval.1, hval.2,
    queue_quota (Transition.Reach.of_execOkFrom (fun _ _ => spaceKept_of_spaceKeptB) .init hs)⟩

/-- That the limit is not lowered, to be computed. -/
def neverLowersB (s : State τ) (e : Event τ) : Bool := e.sets.all fun qbytes =>
  decide (s.queue.qbytes ≤ qbytes)

theorem neverLowers_of_neverLowersB {e : Event τ} (h : neverLowersB s e = true) :
    neverLowers s e := by
  intro qbytes hsets
  rw [neverLowersB, hsets] at h
  exact of_decide_eq_true h

/-- **Over the limit, and asleep.**  Five senders find the same space and all use it.  The limit is
raised, and a sender whose message now fits is not woken. -/
theorem queue_over_quota :
    (∃ s : State (Fin 5), Transition.Reach step neverLowers State.init s ∧
      ¬ s.queue.cbytes ≤ s.queue.qbytes) ∧
    ∃ s : State (Fin 5), Transition.Reach step neverLowers State.init s ∧
      s.task 4 = .wwait longest false ∧ s.pending 4 = false ∧ s.queue.HasSpace longest := by
  have hover : (Transition.execOkFrom step neverLowersB State.init
      [.msgsnd 0 longest false false, .msgsnd 1 longest false false,
        .msgsnd 2 longest false false, .msgsnd 3 longest false false,
        .msgsnd 4 longest false false, .kmalloc 0 true, .kmalloc 1 true, .kmalloc 2 true,
        .kmalloc 3 true, .kmalloc 4 true]).map
      (fun s : State (Fin 5) => decide (s.queue.cbytes ≤ s.queue.qbytes)) = some false := by
    decide +kernel
  have hasleep : (Transition.execOkFrom step neverLowersB State.init
      [.msgsnd 0 longest false false, .kmalloc 0 true, .msgsnd 1 longest false false,
        .kmalloc 1 true, .msgsnd 2 longest false false, .kmalloc 2 true,
        .msgsnd 3 longest false false, .kmalloc 3 true, .msgsnd 4 longest false false,
        .set 65535 true]).map
      (fun s : State (Fin 5) => (decide (s.task 4 = .wwait longest false), s.pending 4,
        decide (s.queue.HasSpace longest))) = some (true, false, true) := by
    decide +kernel
  obtain ⟨s, hs, hval⟩ := Option.map_eq_some_iff.1 hover
  obtain ⟨s', hs', hval'⟩ := Option.map_eq_some_iff.1 hasleep
  simp only [Prod.mk.injEq, decide_eq_true_eq] at hval'
  refine ⟨⟨s, ?_, of_decide_eq_false hval⟩, s', ?_, hval'⟩
  · exact Transition.Reach.of_execOkFrom (fun _ _ => neverLowers_of_neverLowersB) .init hs
  · exact Transition.Reach.of_execOkFrom (fun _ _ => neverLowers_of_neverLowersB) .init hs'

end LinuxEvocation.Ipc.Message
