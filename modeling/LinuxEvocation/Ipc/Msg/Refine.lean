import LinuxEvocation.Ipc.Msg.Basic

/-!
# A message queue is a list

* `Repr` — the list of the messages in memory, and the counters that agree with it.
* `Chosen` — the message that `sys_msgrcv` is for, as a place in a list.
* `QStep` — the steps of a list of messages; `countsFit` — the condition on a step.
* `queue_refines` — in every run whose steps meet the condition, each step of the code is a step of
  the list.
* `queue_loses_messages` — a queue whose counter has gone around.
-/

namespace LinuxEvocation.Ipc.Message

open LinkedList

variable {τ : Type*}

/-! ## The list in memory -/

/-- The messages are at the addresses of `l`, in this order. -/
structure Links (s : State τ) (l : List Nat) : Prop where
  threads : Threads 0 s.next s.queue.first l
  nodup : l.Nodup
  last : s.queue.last = l.getLast?.getD 0
  lt : ∀ a ∈ l, a < s.fresh
  pos : 0 < s.fresh

/-- The messages are at the addresses of `l`, and the counters agree. -/
structure Repr (s : State τ) (l : List Nat) : Prop extends Links s l where
  qnum : s.queue.qnum.toNat = l.length
  cbytes : s.queue.cbytes.toNat = ((l.map s.msg).map Msg.ts).sum

/-- The queue is the list `q`. -/
def Holds (s : State τ) (q : List Msg) : Prop := ∃ l, Repr s l ∧ q = l.map s.msg

variable {s : State τ} {l : List Nat}

theorem Links.length_le (h : Links s l) : l.length ≤ s.fresh := by
  have hsub : l ⊆ List.range s.fresh := fun a ha => List.mem_range.2 (h.lt a ha)
  have hle := (h.nodup.subperm hsub).length_le
  rwa [List.length_range] at hle

/-- Whatever the processes do among themselves. -/
theorem Links.congr {s' : State τ} (h : Links s l) (hnext : s'.next = s.next)
    (hfresh : s'.fresh = s.fresh) (hfirst : s'.queue.first = s.queue.first)
    (hlast : s'.queue.last = s.queue.last) : Links s' l where
  threads := by
    rw [hnext, hfirst]
    exact h.threads
  nodup := h.nodup
  last := hlast.trans h.last
  lt := by
    rw [hfresh]
    exact h.lt
  pos := by
    rw [hfresh]
    exact h.pos

theorem Repr.congr {s' : State τ} (h : Repr s l) (hnext : s'.next = s.next)
    (hmsg : s'.msg = s.msg) (hfresh : s'.fresh = s.fresh) (hfirst : s'.queue.first = s.queue.first)
    (hlast : s'.queue.last = s.queue.last) (hqnum : s'.queue.qnum = s.queue.qnum)
    (hcbytes : s'.queue.cbytes = s.queue.cbytes) : Repr s' l where
  toLinks := h.toLinks.congr hnext hfresh hfirst hlast
  qnum := by
    rw [hqnum]
    exact h.qnum
  cbytes := by
    rw [hcbytes, hmsg]
    exact h.cbytes

/-! ## The search -/

/-- The type is one that is asked for with `msgtyp > 0`. -/
def Rcv.Wants (r : Rcv) (m : Msg) : Prop :=
  if r.except then m.mtype ≠ r.msgtyp else m.mtype = r.msgtyp

/-- The message `m` between `q₁` and `q₂` is the one to receive: the first one, the first of the
right type, or the first of those of the least type. -/
def Chosen (r : Rcv) (q₁ : List Msg) (m : Msg) (q₂ : List Msg) : Prop :=
  if r.msgtyp = 0 then q₁ = []
  else if r.msgtyp > 0 then r.Wants m ∧ ∀ m' ∈ q₁, ¬ r.Wants m'
  else m.mtype ≤ -r.msgtyp ∧ (∀ m' ∈ q₁, m.mtype < m'.mtype) ∧ ∀ m' ∈ q₂, m.mtype ≤ m'.mtype

/-- There is no message to receive. -/
def NoneChosen (r : Rcv) (q : List Msg) : Prop := ∀ q₁ m q₂, q = q₁ ++ m :: q₂ → ¬ Chosen r q₁ m q₂

/-- **The search** ends at the message to receive, if there is one. -/
theorem find_spec (h : Links s l) (r : Rcv) :
    find r s = 0 ∧ NoneChosen r (l.map s.msg) ∨
      find r s ≠ 0 ∧ ∃ l₁ l₂, l = l₁ ++ find r s :: l₂ ∧
        Chosen r (l₁.map s.msg) (s.msg (find r s)) (l₂.map s.msg) := by
  unfold find
  by_cases hzero : r.msgtyp = 0
  · rw [if_pos hzero]
    by_cases hfirst : s.queue.first = 0
    · refine .inl ⟨hfirst, fun q₁ m q₂ hq => ?_⟩
      have hnil : l = [] := h.threads.unique hfirst
      rw [hnil, List.map_nil] at hq
      exact absurd hq (by simp)
    · obtain ⟨t, rfl, -⟩ := h.threads.exists_cons hfirst
      refine .inr ⟨hfirst, [], t, rfl, ?_⟩
      rw [Chosen, if_pos hzero]
      rfl
  · rw [if_neg hzero]
    by_cases hpos : r.msgtyp > 0
    · rw [if_pos hpos]
      simp only
      set test := fun a => if r.except then decide ((s.msg a).mtype ≠ r.msgtyp)
        else decide ((s.msg a).mtype = r.msgtyp) with htest
      have hwants : ∀ a, test a = true ↔ r.Wants (s.msg a) := by
        intro a
        simp only [htest, Rcv.Wants]
        split_ifs <;> simp
      cases hfind : findOn 0 s.next test s.fresh 0 s.queue.first with
      | none =>
        refine .inl ⟨rfl, fun q₁ m q₂ hq hc => ?_⟩
        rw [Chosen, if_neg hzero, if_pos hpos] at hc
        have hall := (findOn_eq_none h.threads h.length_le).1 hfind
        have hmem : m ∈ l.map s.msg := by simp [hq]
        obtain ⟨a, ha, rfl⟩ := List.mem_map.1 hmem
        have := (hwants a).2 hc.1
        rw [hall a ha] at this
        cases this
      | some x =>
        obtain ⟨prev, tmsg⟩ := x
        obtain ⟨htmsg, l₁, l₂, hl, hbefore, -⟩ := findOn_eq_some h.threads hfind
        refine .inr ⟨h.threads.ne_null tmsg (by simp [hl]), l₁, l₂, hl, ?_⟩
        rw [Chosen, if_neg hzero, if_pos hpos]
        refine ⟨(hwants tmsg).1 htmsg, fun m' hm' hw => ?_⟩
        obtain ⟨a, ha, rfl⟩ := List.mem_map.1 hm'
        have := (hwants a).2 hw
        rw [hbefore a ha] at this
        cases this
    · rw [if_neg hpos]
      simp only
      by_cases hfirst : s.queue.first = 0
      · have hnil : l = [] := h.threads.unique hfirst
        have hleast : leastOn 0 s.next (fun a => (s.msg a).mtype) s.fresh s.queue.first
            s.queue.first = 0 := by
          rw [hfirst]
          cases s.fresh <;> simp [leastOn]
        rw [hleast]
        refine .inl ⟨if_neg (by simp), fun q₁ m q₂ hq => ?_⟩
        rw [hnil, List.map_nil] at hq
        exact absurd hq (by simp)
      · have hleast : Earliest (fun a => (s.msg a).mtype) l _ :=
          leastOn_head h.threads hfirst h.length_le
        set leastp := leastOn 0 s.next (fun a => (s.msg a).mtype) s.fresh s.queue.first
          s.queue.first
        obtain ⟨l₁, l₂, hl, h1, h2⟩ := hleast
        have hne : leastp ≠ 0 := h.threads.ne_null leastp (by simp [hl])
        split_ifs with htype
        · refine .inr ⟨hne, l₁, l₂, hl, ?_⟩
          rw [Chosen, if_neg hzero, if_neg hpos]
          refine ⟨htype.2, fun m' hm' => ?_, fun m' hm' => ?_⟩
          · obtain ⟨a, ha, rfl⟩ := List.mem_map.1 hm'
            exact h1 a ha
          · obtain ⟨a, ha, rfl⟩ := List.mem_map.1 hm'
            exact h2 a ha
        · refine .inl ⟨rfl, fun q₁ m q₂ hq hc => htype ⟨hne, ?_⟩⟩
          rw [Chosen, if_neg hzero, if_neg hpos] at hc
          -- the message that is chosen has at least the least type
          have hmem : m ∈ l.map s.msg := by simp [hq]
          obtain ⟨a, ha, rfl⟩ := List.mem_map.1 hmem
          have hle : (s.msg leastp).mtype ≤ (s.msg a).mtype := by
            rw [hl, List.mem_append, List.mem_cons] at ha
            rcases ha with ha | rfl | ha
            · exact (h1 a ha).le
            · exact le_rfl
            · exact h2 a ha
          exact hle.trans hc.1

/-! ## Taking a message out -/

variable {l₁ l₂ : List Nat} {d : Nat}

theorem nodup_of_middle (h : (l₁ ++ d :: l₂).Nodup) :
    (l₁ ++ l₂).Nodup :=
  (List.nodup_cons.1 (List.nodup_middle.1 h)).2

/-- What `unlinkMsg` does to the links: the list is without the message, and `last` is right unless
there is no message left. -/
theorem unlinkMsg_links (h : Links s (l₁ ++ d :: l₂)) :
    ∃ next first last, (unlinkMsg d s).next = next ∧
      (unlinkMsg d s).queue.first = (if s.queue.qnum - 1 = 0 then 0 else first) ∧
      (unlinkMsg d s).queue.last = (if s.queue.qnum - 1 = 0 then 0 else last) ∧
      Threads 0 next first (l₁ ++ l₂) ∧ (l₁ ++ l₂ ≠ [] → last = (l₁ ++ l₂).getLast?.getD 0) := by
  have hthreads := h.threads
  have hlast := h.last
  by_cases hne : l₁ = []
  · subst hne
    obtain ⟨hfirst, -, ht⟩ := hthreads
    refine ⟨s.next, s.next d, s.queue.last, ?_⟩
    simp only [unlinkMsg, hfirst, if_true, List.nil_append, true_and]
    refine ⟨ht, fun hne => ?_⟩
    obtain ⟨x, l₂, rfl⟩ := List.exists_cons_of_ne_nil hne
    simpa using hlast
  · obtain ⟨l₀, q, x, rfl, hfind⟩ :=
      findOn_pred 0 hthreads h.nodup hne h.length_le
    obtain ⟨y, l₀', hy⟩ := List.exists_cons_of_ne_nil hne
    have hfirst : s.queue.first = y := by
      rw [hy] at hthreads
      exact hthreads.1
    have hdfirst : d ≠ s.queue.first := by
      rintro heq
      have hnodup := h.nodup
      rw [hy, List.cons_append, List.nodup_cons] at hnodup
      exact hnodup.1 (by simp [heq, hfirst])
    refine ⟨Function.update s.next x (s.next d), s.queue.first,
      if d = s.queue.last then x else s.queue.last, ?_⟩
    simp only [unlinkMsg, if_neg hdfirst, hfind, true_and]
    rw [List.append_assoc, List.singleton_append] at hthreads ⊢
    refine ⟨hthreads.unlink ?_, fun _ => ?_⟩
    · have hnodup := h.nodup
      rwa [List.append_assoc, List.singleton_append] at hnodup
    -- the message is the last one exactly when nothing follows it
    · cases l₂ using List.reverseRecOn with
      | nil => simp [hlast]
      | append_singleton l₂ z _ =>
        have hz : s.queue.last = z := by
          rw [hlast, ← List.cons_append, ← List.append_assoc, List.getLast?_append]
          simp
        have hdz : d ≠ z := by
          rintro rfl
          have hnodup := (List.nodup_append.1 h.nodup).2.1
          rw [List.nodup_cons] at hnodup
          exact hnodup.1 (by simp)
        rw [hz, if_neg hdz, ← List.cons_append, ← List.append_assoc, List.getLast?_append]
        simp

/-- Besides the links, `unlinkMsg` changes the two counters only. -/
theorem unlinkMsg_frame (d : Nat) (s : State τ) :
    (unlinkMsg d s).msg = s.msg ∧ (unlinkMsg d s).fresh = s.fresh ∧
      (unlinkMsg d s).task = s.task ∧ (unlinkMsg d s).queue.qbytes = s.queue.qbytes ∧
      (unlinkMsg d s).queue.qnum = s.queue.qnum - 1 ∧
      (unlinkMsg d s).queue.cbytes = s.queue.cbytes - UInt16.ofNat (s.msg d).ts := by
  unfold unlinkMsg
  by_cases hfirst : d = s.queue.first
  · simp only [if_pos hfirst, and_self]
  · simp only [if_neg hfirst]
    cases findOn 0 s.next (fun a => decide (s.next a = d)) s.fresh 0 s.queue.first with
    | none | some x => exact ⟨rfl, rfl, rfl, rfl, rfl, rfl⟩

@[simp]
theorem unlinkMsg_msg (d : Nat) (s : State τ) : (unlinkMsg d s).msg = s.msg :=
  (unlinkMsg_frame d s).1

@[simp]
theorem unlinkMsg_fresh (d : Nat) (s : State τ) : (unlinkMsg d s).fresh = s.fresh :=
  (unlinkMsg_frame d s).2.1

@[simp]
theorem unlinkMsg_qbytes (d : Nat) (s : State τ) :
    (unlinkMsg d s).queue.qbytes = s.queue.qbytes :=
  (unlinkMsg_frame d s).2.2.2.1

@[simp]
theorem unlinkMsg_qnum (d : Nat) (s : State τ) :
    (unlinkMsg d s).queue.qnum = s.queue.qnum - 1 :=
  (unlinkMsg_frame d s).2.2.2.2.1

@[simp]
theorem unlinkMsg_cbytes (d : Nat) (s : State τ) :
    (unlinkMsg d s).queue.cbytes = s.queue.cbytes - UInt16.ofNat (s.msg d).ts :=
  (unlinkMsg_frame d s).2.2.2.2.2

/-- The counters of a queue with a message in it do not go below 0. -/
theorem toNat_sub_of_add {x y : UInt16} {n k : Nat} (hx : x.toNat = n + k)
    (hy : y.toNat = k) : (x - y).toNat = n := by
  have hle : y ≤ x := UInt16.le_iff_toNat_le.2 (by omega)
  rw [UInt16.toNat_sub_of_le _ _ hle]
  omega

/-- **Taking a message out**, at the head, in the middle and at the tail.  What is left is decided by
the counter. -/
theorem unlinkMsg_left (h : Links s (l₁ ++ d :: l₂)) (hnil : l₁ ++ l₂ = [] → s.queue.qnum - 1 = 0) :
    Links (unlinkMsg d s) (if s.queue.qnum - 1 = 0 then [] else l₁ ++ l₂) := by
  obtain ⟨next, first, last, hnext, hfirst, hlast, hthreads, hl⟩ := unlinkMsg_links h
  have hlt : ∀ a ∈ l₁ ++ l₂, a < s.fresh := by
    intro a ha
    refine h.lt a ?_
    simp only [List.mem_append, List.mem_cons] at ha ⊢
    tauto
  have hpos : 0 < (unlinkMsg d s).fresh := by
    rw [unlinkMsg_fresh]
    exact h.pos
  split_ifs with h0
  · rw [if_pos h0] at hfirst hlast
    exact ⟨hfirst, List.nodup_nil, hlast, by simp, hpos⟩
  · rw [if_neg h0] at hfirst hlast
    refine ⟨?_, nodup_of_middle h.nodup, ?_, ?_, hpos⟩
    · rw [hnext, hfirst]
      exact hthreads
    · rw [hlast]
      exact hl fun heq => h0 (hnil heq)
    · rw [unlinkMsg_fresh]
      exact hlt

/-- The sizes of the messages, one of them apart. -/
theorem sum_ts_middle (msg : Nat → Msg) (l₁ l₂ : List Nat) (d : Nat) :
    (((l₁ ++ d :: l₂).map msg).map Msg.ts).sum =
      (((l₁ ++ l₂).map msg).map Msg.ts).sum + (msg d).ts := by
  simp only [List.map_append, List.map_cons, List.sum_append, List.sum_cons]
  omega

/-- If the counters agree with the list, they agree with what is left. -/
theorem unlinkMsg_repr (h : Repr s (l₁ ++ d :: l₂)) :
    Repr (unlinkMsg d s) (l₁ ++ l₂) := by
  have hlength : (l₁ ++ d :: l₂).length = (l₁ ++ l₂).length + 1 := by
    simp
    omega
  have hqnum : (s.queue.qnum - 1).toNat = (l₁ ++ l₂).length :=
    toNat_sub_of_add (h.qnum.trans hlength) rfl
  have hzero : s.queue.qnum - 1 = 0 ↔ l₁ ++ l₂ = [] := by
    rw [← List.length_eq_zero_iff, ← hqnum, ← UInt16.toNat_inj]
    rfl
  have hsum := h.cbytes.trans (sum_ts_middle s.msg l₁ l₂ d)
  have hts : (UInt16.ofNat (s.msg d).ts).toNat = (s.msg d).ts := by
    have hlt : s.queue.cbytes.toNat < UInt16.size := s.queue.cbytes.toNat_lt
    exact UInt16.toNat_ofNat_of_lt' (lt_of_le_of_lt (by omega) hlt)
  have hlinks := unlinkMsg_left h.toLinks hzero.2
  have hleft : (if s.queue.qnum - 1 = 0 then [] else l₁ ++ l₂) = l₁ ++ l₂ := by
    split_ifs with h0
    · exact (hzero.1 h0).symm
    · rfl
  rw [hleft] at hlinks
  refine ⟨hlinks, ?_, ?_⟩
  · rw [unlinkMsg_qnum]
    exact hqnum
  · rw [unlinkMsg_cbytes, unlinkMsg_msg]
    exact toNat_sub_of_add hsum hts

/-! ## Putting a message behind the last one -/

theorem Links.fresh_notMem (h : Links s l) : s.fresh ∉ l :=
  fun hmem => absurd (h.lt _ hmem) (lt_irrefl _)

/-- The messages that are there stay what they are. -/
theorem linkMsg_msgs (h : Links s l) (m : Msg) :
    (l ++ [s.fresh]).map (linkMsg s.fresh m s).msg = l.map s.msg ++ [m] := by
  have hmap : l.map (linkMsg s.fresh m s).msg = l.map s.msg := by
    refine List.map_congr_left fun a ha => Function.update_of_ne ?_ _ _
    rintro rfl
    exact h.fresh_notMem ha
  have hself : (linkMsg s.fresh m s).msg s.fresh = m := Function.update_self _ _ _
  rw [List.map_append, hmap, List.map_singleton, hself]

/-- **Putting a message behind the last one.** -/
theorem linkMsg_links (h : Links s l) (m : Msg) :
    Links (linkMsg s.fresh m s) (l ++ [s.fresh]) := by
  have hnot := h.fresh_notMem
  have hstored : Threads 0 (Function.update s.next s.fresh 0) s.queue.first l :=
    h.threads.update hnot
  refine ⟨?_, ?_, ?_, fun a ha => ?_, Nat.succ_pos _⟩
  · simp only [linkMsg]
    by_cases hfirst : s.queue.first = 0
    · have hnil : l = [] := h.threads.unique hfirst
      rw [if_pos hfirst, if_pos hfirst, hnil, List.nil_append]
      exact ⟨rfl, h.pos.ne', Function.update_self _ _ _⟩
    · rw [if_neg hfirst, if_neg hfirst]
      obtain ⟨t, hl, -⟩ := h.threads.exists_cons hfirst
      have hne : l ≠ [] := by simp [hl]
      have hlast : s.queue.last = l.getLast hne := by
        rw [h.last, List.getLast?_eq_some_getLast hne]
        rfl
      have hsplit := List.dropLast_append_getLast hne
      rw [← hlast] at hsplit
      have hnodup := h.nodup
      rw [← hsplit] at hstored hnot hnodup ⊢
      exact hstored.snoc hnodup hnot h.pos.ne' (Function.update_self _ _ _)
  · refine List.nodup_append.2 ⟨h.nodup, List.nodup_singleton _, fun a ha b hb heq => ?_⟩
    rw [heq, List.mem_singleton.1 hb] at ha
    exact hnot ha
  · simp [linkMsg]
  · change a < s.fresh + 1
    rcases List.mem_append.1 ha with ha | ha
    · exact (h.lt a ha).trans (Nat.lt_succ_self _)
    · rw [List.mem_singleton.1 ha]
      exact Nat.lt_succ_self _

/-- The counters have room for the message. -/
def Queue.Fits (q : Queue) (m : Msg) : Prop :=
  q.qnum.toNat + 1 < 65536 ∧ q.cbytes.toNat + m.ts < 65536

instance (q : Queue) (m : Msg) : Decidable (q.Fits m) := inferInstanceAs (Decidable (_ ∧ _))

/-- The counters agree with the longer list exactly when they had room for the message. -/
theorem linkMsg_repr (h : Repr s l) (m : Msg) :
    Repr (linkMsg s.fresh m s) (l ++ [s.fresh]) ↔ s.queue.Fits m := by
  have hsum : (((l ++ [s.fresh]).map (linkMsg s.fresh m s).msg).map Msg.ts).sum =
      s.queue.cbytes.toNat + m.ts := by
    rw [linkMsg_msgs h.toLinks, List.map_append, List.sum_append, ← h.cbytes]
    simp
  have hlength : (l ++ [s.fresh]).length = s.queue.qnum.toNat + 1 := by
    rw [List.length_append, ← h.qnum]
    rfl
  constructor
  · intro h'
    have hq := h'.qnum.symm.trans_lt (linkMsg s.fresh m s).queue.qnum.toNat_lt
    have hc := h'.cbytes.symm.trans_lt (linkMsg s.fresh m s).queue.cbytes.toNat_lt
    rw [hlength] at hq
    rw [hsum] at hc
    exact ⟨hq, hc⟩
  · rintro ⟨hqnum, hcbytes⟩
    refine ⟨linkMsg_links h.toLinks m, ?_, ?_⟩
    · change (s.queue.qnum + 1).toNat = _
      rw [UInt16.toNat_add, hlength]
      exact Nat.mod_eq_of_lt (by simpa using hqnum)
    · change (s.queue.cbytes + UInt16.ofNat m.ts).toNat = _
      have hts : m.ts < UInt16.size := lt_of_le_of_lt (Nat.le_add_left _ _) hcbytes
      rw [hsum, UInt16.toNat_add, UInt16.toNat_ofNat_of_lt' hts]
      exact Nat.mod_eq_of_lt hcbytes

/-! ## The steps of a list of messages -/

/-- The message a step puts on the queue. -/
def Event.snd (s : State τ) : Event τ → Option Msg
  | .kmalloc t true =>
    match s.task t with
    | .kmalloc m => some m
    | _ => none
  | _ => none

/-- What a step asks the queue for. -/
def Event.rcv (s : State τ) : Event τ → Option Rcv
  | .msgrcv _ msgsz msgtyp except noerror _ _ =>
    if msgsz < 0 then none else some ⟨msgsz.toNat, msgtyp, except, noerror⟩
  | .run t _ =>
    match s.task t with
    | .rwait r _ => some r
    | _ => none
  | _ => none

/-- What a receiver gets of a message. -/
def Rcv.delivers (r : Rcv) (m : Msg) : Return :=
  ⟨(min r.msgsz m.ts : Nat), some ⟨m.mtype, m.text.take r.msgsz⟩⟩

/-- Why a receiver gets no message, and what it gets instead: an error, or nothing yet. -/
inductive Refused (r : Rcv) (q : List Msg) : Option Return → Prop
  | denied : Refused r q (some ⟨-Errno.eacces, none⟩)
  | tooLong {q₁ m q₂} : q = q₁ ++ m :: q₂ → Chosen r q₁ m q₂ → r.msgsz < m.ts → r.noerror = false →
      Refused r q (some ⟨-Errno.e2big, none⟩)
  | noMessage : NoneChosen r q → Refused r q (some ⟨-Errno.enomsg, none⟩)
  | interrupted : NoneChosen r q → Refused r q (some ⟨-Errno.eintr, none⟩)
  | sleep : NoneChosen r q → Refused r q none

/-- **A step of a list of messages.** -/
inductive QStep (s : State τ) (e : Event τ) (out : Option Return) (q : List Msg) :
    List Msg → Prop
  /-- `msgsnd` appends. -/
  | send {m} : e.snd s = some m → out = some ⟨m.ts, none⟩ → QStep s e out q (q ++ [m])
  /-- `msgrcv` removes the message it is for and returns it. -/
  | receive {r q₁ m q₂} : e.rcv s = some r → q = q₁ ++ m :: q₂ → Chosen r q₁ m q₂ →
      m.ts ≤ r.msgsz ∨ r.noerror → out = some (r.delivers m) → QStep s e out q (q₁ ++ q₂)
  | refuse {r} : e.rcv s = some r → Refused r q out → QStep s e out q q
  /-- Any other step delivers nothing; a call that returns in it has failed, or is `msgctl`. -/
  | other : e.snd s = none → e.rcv s = none →
      (∀ ret, out = some ret → ret.msg = none ∧ (ret.val < 0 ∨ ∃ qbytes su, e = .set qbytes su)) →
      QStep s e out q q

theorem Holds.congr {s' : State τ} {q : List Msg} (h : Holds s q) (hnext : s'.next = s.next)
    (hmsg : s'.msg = s.msg) (hfresh : s'.fresh = s.fresh) (hfirst : s'.queue.first = s.queue.first)
    (hlast : s'.queue.last = s.queue.last) (hqnum : s'.queue.qnum = s.queue.qnum)
    (hcbytes : s'.queue.cbytes = s.queue.cbytes) : Holds s' q := by
  obtain ⟨l, hl, rfl⟩ := h
  exact ⟨l, hl.congr hnext hmsg hfresh hfirst hlast hqnum hcbytes, by rw [hmsg]⟩

/-- **The condition on a step**: if it puts a message on the queue, the counters have room for it. -/
def countsFit (s : State τ) (e : Event τ) : Prop := ∀ m, e.snd s = some m → s.queue.Fits m

/-- A step that is not the end of `sys_msgsnd` meets the condition. -/
theorem countsFit_of_snd {e : Event τ} (h : e.snd s = none) : countsFit s e := by
  intro m hm
  rw [h] at hm
  cases hm

theorem links_init : Links (State.init : State τ) [] :=
  ⟨rfl, List.nodup_nil, rfl, by simp, Nat.one_pos⟩

theorem holds_init : Holds (State.init : State τ) [] :=
  ⟨[], ⟨links_init, rfl, rfl⟩, rfl⟩

section Run

variable [DecidableEq τ]

@[simp]
theorem State.setTask_self (s : State τ) (t : τ) (x : Task) : (s.setTask t x).task t = x :=
  Function.update_self _ _ _

variable {s : State τ} {q : List Msg}

theorem Holds.setTask (h : Holds s q) (t : τ) (x : Task) :
    Holds (s.setTask t x) q :=
  h.congr rfl rfl rfl rfl rfl rfl rfl

/-- The body of the loop of `sys_msgrcv` is a step of the list. -/
theorem tryRcv_spec {s' : State τ} {out : Option Return} {r : Rcv} {t : τ}
    {nowait denied : Bool} (hq : Holds s q) (h : tryRcv t r nowait denied s = (s', out)) :
    (∃ q₁ m q₂, q = q₁ ++ m :: q₂ ∧ Chosen r q₁ m q₂ ∧ (m.ts ≤ r.msgsz ∨ r.noerror) ∧
      out = some (r.delivers m) ∧ Holds s' (q₁ ++ q₂)) ∨ Refused r q out ∧ Holds s' q := by
  obtain ⟨l, hl, rfl⟩ := id hq
  unfold tryRcv at h
  by_cases hdenied : denied = true
  · rw [if_pos hdenied] at h
    cases h
    exact .inr ⟨.denied, hq.setTask t .idle⟩
  rw [if_neg hdenied] at h
  simp only at h
  obtain ⟨hzero, hnone⟩ | ⟨hne, l₁, l₂, hsplit, hchosen⟩ := find_spec hl.toLinks r
  · rw [if_neg (not_not.2 hzero)] at h
    split_ifs at h with hnowait hpending
    · cases h
      exact .inr ⟨.noMessage hnone, hq.setTask t .idle⟩
    · cases h
      exact .inr ⟨.interrupted hnone, hq.setTask t .idle⟩
    · cases h
      exact .inr ⟨.sleep hnone, hq.setTask t _⟩
  · rw [if_pos hne] at h
    set m := s.msg (find r s) with hm
    have hmap : l.map s.msg = l₁.map s.msg ++ m :: l₂.map s.msg := by
      rw [hm, ← List.map_cons, ← List.map_append, ← hsplit]
    by_cases hlong : r.msgsz < m.ts ∧ ¬ r.noerror = true
    · rw [if_pos hlong] at h
      cases h
      exact .inr ⟨.tooLong hmap hchosen hlong.1 (by simpa using hlong.2), hq.setTask t .idle⟩
    · rw [if_neg hlong] at h
      simp only [Prod.mk.injEq] at h
      obtain ⟨rfl, rfl⟩ := h
      refine .inl ⟨_, _, _, hmap, hchosen, ?_, ?_, ?_⟩
      · by_cases hle : m.ts ≤ r.msgsz
        · exact .inl hle
        · exact .inr (by simpa [not_le.1 hle] using hlong)
      · have hmin : (if r.msgsz > m.ts then m.ts else r.msgsz) = min r.msgsz m.ts := by
          split_ifs <;> omega
        have htake : m.text.take (min r.msgsz m.ts) = m.text.take r.msgsz := by
          rw [Msg.ts, ← List.take_take, List.take_length]
        rw [hmin, htake, Rcv.delivers]
      · rw [hsplit] at hl
        refine ⟨l₁ ++ l₂, (unlinkMsg_repr hl).congr rfl rfl rfl rfl rfl rfl rfl, ?_⟩
        rw [← List.map_append]
        exact congrArg (fun f => (l₁ ++ l₂).map f) (unlinkMsg_msg (find r s) s).symm

/-- A call that has not come to the allocation does nothing to the list. -/
theorem trySend_spec {s' : State τ} {out : Option Return} {m : Msg} {t : τ}
    {nowait denied : Bool} (hq : Holds s q) (h : trySend t m nowait denied s = (s', out)) :
    Holds s' q ∧ ∀ ret, out = some ret → ret.msg = none ∧ ret.val < 0 := by
  unfold trySend at h
  have failed : ∀ {e : Int}, 0 < e → s.fail t e = (s', out) →
      Holds s' q ∧ ∀ ret, out = some ret → ret.msg = none ∧ ret.val < 0 := by
    intro e he hfail
    cases hfail
    refine ⟨hq.setTask t _, fun ret hret => ?_⟩
    cases hret
    exact ⟨rfl, by simpa using he⟩
  split_ifs at h
  · exact failed (by decide) h
  · exact failed (by decide) h
  · exact failed (by decide) h
  · cases h
    exact ⟨hq.setTask t _, fun ret hret => by cases hret⟩
  · cases h
    exact ⟨hq.setTask t _, fun ret hret => by cases hret⟩

theorem enqueue_spec (hq : Holds s q) (t : τ) (m : Msg) :
    (s.queue.Fits m → Holds (enqueue t m s).1 (q ++ [m])) ∧
      (¬ s.queue.Fits m → ∀ q', ¬ Holds (enqueue t m s).1 q') := by
  obtain ⟨l, hl, rfl⟩ := hq
  constructor
  · intro hfits
    have hrepr := (linkMsg_repr hl m).2 hfits
    exact ⟨l ++ [s.fresh], hrepr.congr rfl rfl rfl rfl rfl rfl rfl,
      (linkMsg_msgs hl.toLinks m).symm⟩
  · rintro hfits q' ⟨l', hl', -⟩
    have hl' : Repr (linkMsg s.fresh m s) l' := hl'.congr rfl rfl rfl rfl rfl rfl rfl
    have heq := hl'.threads.unique (linkMsg_links hl.toLinks m).threads
    subst heq
    exact hfits ((linkMsg_repr hl m).1 hl')

/-- **One step of the code** is a step of the list, exactly when it meets the condition. -/
theorem stepOut_spec {s' : State τ} {e : Event τ} {out : Option Return}
    (hq : Holds s q) (h : stepOut s e = some (s', out)) :
    (∃ q', Holds s' q' ∧ QStep s e out q q') ↔ countsFit s e := by
  have receiver : ∀ {t r nowait denied}, e.rcv s = some r → e.snd s = none →
      tryRcv t r nowait denied s = (s', out) →
      ((∃ q', Holds s' q' ∧ QStep s e out q q') ↔ countsFit s e) := by
    intro t r nowait denied hr hs htry
    refine iff_of_true ?_ (countsFit_of_snd hs)
    obtain ⟨q₁, m, q₂, hsplit, hchosen, hsize, hout, hq'⟩ | ⟨hrefused, hq'⟩ := tryRcv_spec hq htry
    · exact ⟨_, hq', .receive hr hsplit hchosen hsize hout⟩
    · exact ⟨_, hq', .refuse hr hrefused⟩
  have other : e.rcv s = none → e.snd s = none → Holds s' q →
      (∀ ret, out = some ret → ret.msg = none ∧ (ret.val < 0 ∨ ∃ qbytes su, e = .set qbytes su)) →
      ((∃ q', Holds s' q' ∧ QStep s e out q q') ↔ countsFit s e) := by
    intro hr hs hq' hout
    exact iff_of_true ⟨q, hq', .other hs hr hout⟩ (countsFit_of_snd hs)
  have failed : ∀ {t n}, e.rcv s = none → e.snd s = none → 0 < n → s.fail t n = (s', out) →
      ((∃ q', Holds s' q' ∧ QStep s e out q q') ↔ countsFit s e) := by
    intro t n hr hs hn hfail
    cases hfail
    refine other hr hs (hq.setTask t .idle) fun ret hret => ?_
    cases hret
    exact ⟨rfl, .inl (by simpa using hn)⟩
  have sender : ∀ {t m nowait denied}, e.rcv s = none → e.snd s = none →
      trySend t m nowait denied s = (s', out) →
      ((∃ q', Holds s' q' ∧ QStep s e out q q') ↔ countsFit s e) := by
    intro t m nowait denied hr hs htry
    obtain ⟨hq', hout⟩ := trySend_spec hq htry
    exact other hr hs hq' fun ret hret => ⟨(hout ret hret).1, .inl (hout ret hret).2⟩
  cases e with
  | msgsnd t m nowait denied =>
    simp only [stepOut] at h
    split_ifs at h with hidle
    have h := Option.some.inj h
    unfold sysMsgsnd at h
    split_ifs at h with hmax htype
    · exact failed rfl rfl (by decide) h
    · exact failed rfl rfl (by decide) h
    · exact sender rfl rfl h
  | kmalloc t ok =>
    simp only [stepOut] at h
    cases htask : s.task t with
    | kmalloc m =>
      rw [htask] at h
      have h := Option.some.inj h
      cases ok with
      | false => exact failed rfl rfl (by decide) h
      | true =>
        have hsnd : (Event.kmalloc t true).snd s = some m := by
          simp only [Event.snd, htask]
        rw [if_pos rfl] at h
        obtain ⟨hfits, hnot⟩ := enqueue_spec hq t m
        rw [h] at hfits hnot
        have hout : out = some ⟨m.ts, none⟩ := (congrArg Prod.snd h).symm
        constructor
        · rintro ⟨q', hq', -⟩ m' hm'
          rw [hsnd] at hm'
          cases hm'
          by_contra hf
          exact hnot hf q' hq'
        · intro hcount
          exact ⟨_, hfits (hcount m hsnd), .send hsnd hout⟩
    | _ =>
      rw [htask] at h
      cases h
  | msgrcv t msgsz msgtyp except noerror nowait denied =>
    simp only [stepOut] at h
    split_ifs at h with hidle
    have h := Option.some.inj h
    unfold sysMsgrcv at h
    split_ifs at h with hsize
    · exact failed (if_pos hsize) rfl (by decide) h
    · exact receiver (if_neg hsize) rfl h
  | run t denied =>
    simp only [stepOut] at h
    cases htask : s.task t with
    | wwait m woken =>
      rw [htask] at h
      simp only at h
      split_ifs at h
      exact sender (by simp only [Event.rcv, htask]) rfl (Option.some.inj h)
    | rwait r woken =>
      rw [htask] at h
      simp only at h
      split_ifs at h
      exact receiver (by simp only [Event.rcv, htask]) rfl (Option.some.inj h)
    | _ =>
      rw [htask] at h
      cases h
  | set qbytes suser =>
    simp only [stepOut] at h
    split_ifs at h
    all_goals
      cases h
      refine other rfl rfl (hq.congr rfl rfl rfl rfl rfl rfl rfl) fun ret hret => ?_
      cases hret
      exact ⟨rfl, .inr ⟨qbytes, suser, rfl⟩⟩
  | signal t pending =>
    cases h
    refine other rfl rfl (hq.congr rfl rfl rfl rfl rfl rfl rfl) fun ret hret => ?_
    cases hret

/-- **The queue refines a list**: in every run whose steps meet the condition, the memory holds a
list, and the next step of the code is a step of that list exactly when it meets the condition. -/
theorem queue_refines (h : Transition.Reach step countsFit State.init s) :
    ∃ q, Holds s q ∧ ∀ e s' out, stepOut s e = some (s', out) →
      ((∃ q', Holds s' q' ∧ QStep s e out q q') ↔ countsFit s e) := by
  have hholds : ∃ q, Holds s q := by
    refine h.invariant (I := fun s => ∃ q, Holds s q) ⟨[], holds_init⟩ ?_
    rintro s e s' ⟨q, hq⟩ hcount hstep
    obtain ⟨⟨_, out⟩, hout, rfl⟩ := Option.map_eq_some_iff.1 hstep
    obtain ⟨q', hq', -⟩ := (stepOut_spec hq hout).2 hcount
    exact ⟨q', hq'⟩
  obtain ⟨q, hq⟩ := hholds
  exact ⟨q, hq, fun e s' out hstep => stepOut_spec hq hstep⟩

end Run

/-- The condition, to be computed. -/
def countsFitB (s : State τ) (e : Event τ) : Bool := (e.snd s).all fun m => decide (s.queue.Fits m)

theorem countsFit_of_countsFitB {e : Event τ} (h : countsFitB s e = true) :
    countsFit s e := by
  intro m hm
  rw [countsFitB, hm] at h
  exact of_decide_eq_true h

/-- Two messages are sent; the second is the next to be received. -/
theorem queue_refines_two_messages :
    ∃ s : State (Fin 2), s.queue.qnum = 2 ∧ s.queue.cbytes = 3 ∧
      ∃ q, Holds s q ∧ ∀ e s' out, stepOut s e = some (s', out) →
        ((∃ q', Holds s' q' ∧ QStep s e out q q') ↔ countsFit s e) := by
  have hrun : (Transition.execOkFrom step countsFitB State.init
      [.msgsnd 0 ⟨5, [1, 2]⟩ false false, .kmalloc 0 true, .msgsnd 1 ⟨3, [9]⟩ false false,
        .kmalloc 1 true]).map (fun s : State (Fin 2) => (s.queue.qnum, s.queue.cbytes)) =
      some (2, 3) := by
    decide +kernel
  obtain ⟨s, hs, hval⟩ := Option.map_eq_some_iff.1 hrun
  simp only [Prod.mk.injEq] at hval
  exact ⟨s, hval.1, hval.2, queue_refines
    (Transition.Reach.of_execOkFrom (fun _ _ => countsFit_of_countsFitB) .init hs)⟩

/-! ## A queue whose counter has gone around -/

/-- A process has sent `k` messages without text, and nobody has received any. -/
structure Sent (k : Nat) (s : State Unit) (l : List Nat) : Prop where
  reach : Transition.Reach step Transition.anyStep State.init s
  idle : s.task () = .idle
  links : Links s l
  msgs : l.map s.msg = List.replicate k ⟨1, []⟩
  cbytes : s.queue.cbytes = 0
  qbytes : s.queue.qbytes = UInt16.ofNat msgmnb
  qnum : s.queue.qnum = UInt16.ofNat k

theorem Sent.next {k : Nat} {s : State Unit} {l : List Nat} (h : Sent k s l) :
    ∃ s', Sent (k + 1) s' (l ++ [s.fresh]) := by
  have hsend : step s (.msgsnd () ⟨1, []⟩ false false) =
      some (s.setTask () (.kmalloc ⟨1, []⟩)) := by
    simp [step, stepOut, h.idle, sysMsgsnd, trySend, Msg.ts, h.cbytes]
  set s₁ := s.setTask () (.kmalloc ⟨1, []⟩) with hs₁
  have hlinks : Links s₁ l := h.links.congr rfl rfl rfl rfl
  have htask : s₁.task () = .kmalloc ⟨1, []⟩ := State.setTask_self s () _
  have halloc : step s₁ (.kmalloc () true) = some (enqueue () ⟨1, []⟩ s₁).1 := by
    simp [step, stepOut, htask]
  refine ⟨_, (h.reach.step _ trivial hsend).step _ trivial halloc, ?_, ?_, ?_, ?_, h.qbytes, ?_⟩
  · exact State.setTask_self _ () _
  · exact (linkMsg_links hlinks ⟨1, []⟩).congr rfl rfl rfl rfl
  · rw [List.replicate_succ', ← h.msgs]
    exact linkMsg_msgs hlinks ⟨1, []⟩
  · change s.queue.cbytes + UInt16.ofNat 0 = 0
    rw [h.cbytes]
    rfl
  · change s.queue.qnum + 1 = UInt16.ofNat (k + 1)
    rw [h.qnum, UInt16.ofNat_add]
    rfl

theorem exists_sent (k : Nat) : ∃ s l, Sent k s l := by
  induction k with
  | zero => exact ⟨State.init, [], .init, rfl, links_init, rfl, rfl, rfl, rfl⟩
  | succ k ih =>
    obtain ⟨s, l, h⟩ := ih
    obtain ⟨s', h'⟩ := h.next
    exact ⟨s', _, h'⟩

/-- **Lost messages.**  After 65537 messages without text the counter is 1, and to receive the first
of them empties the queue. -/
theorem queue_loses_messages :
    ∃ (s s' : State Unit) (l : List Nat) (out : Option Return),
      Transition.Reach step Transition.anyStep State.init s ∧ Links s l ∧ l.length = 65537 ∧
        (∀ q, ¬ Holds s q) ∧
        stepOut s (.msgrcv () 0 0 false false true false) = some (s', out) ∧
        out = some ⟨0, some ⟨1, []⟩⟩ ∧ Holds s' [] := by
  obtain ⟨s, l, h⟩ := exists_sent 65537
  have hlength : l.length = 65537 := by
    rw [← List.length_map s.msg, h.msgs, List.length_replicate]
  obtain ⟨a, t, rfl⟩ : ∃ a t, l = a :: t := by
    cases l with
    | nil => cases hlength
    | cons a t => exact ⟨a, t, rfl⟩
  obtain ⟨hfirst, hne, -⟩ := h.links.threads
  have hmsg : s.msg a = ⟨1, []⟩ := by
    have hrep := h.msgs
    rw [List.replicate_succ, List.map_cons] at hrep
    exact (List.cons.inj hrep).1
  have hqnum : s.queue.qnum - 1 = 0 := by
    rw [h.qnum]
    rfl
  refine ⟨s, ((unlinkMsg a s).wakeWwait).setTask () .idle, a :: t, _, h.reach, h.links, hlength,
    ?_, ?_, rfl, ?_⟩
  · rintro q ⟨l', hl', -⟩
    have hcount := hl'.qnum
    rw [hl'.threads.unique h.links.threads, hlength, h.qnum] at hcount
    exact absurd hcount (by decide)
  · have hfind : find ⟨0, 0, false, false⟩ s = a := hfirst
    simp only [stepOut, h.idle, if_true, sysMsgrcv, tryRcv]
    simp only [Int.lt_irrefl, if_false, Int.toNat_zero, hfind, hmsg, if_pos hne]
    rfl
  · have hqueue : (unlinkMsg a s).queue = { s.queue with first := 0, last := 0, qnum := 0 } := by
      simp only [unlinkMsg, hfirst, if_true, hqnum, hmsg, h.cbytes]
      rfl
    refine ⟨[], ⟨⟨?_, List.nodup_nil, ?_, by simp, ?_⟩, ?_, ?_⟩, rfl⟩
    · exact congrArg Queue.first hqueue
    · exact congrArg Queue.last hqueue
    · exact (unlinkMsg_fresh a s).symm ▸ h.links.pos
    · exact congrArg (fun q => q.qnum.toNat) hqueue
    · rw [show (((unlinkMsg a s).wakeWwait).setTask () .idle).queue = (unlinkMsg a s).queue from rfl,
        hqueue, h.cbytes]
      rfl

end LinuxEvocation.Ipc.Message
