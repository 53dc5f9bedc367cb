import LinuxEvocation.Fs.Pipe.Basic

/-!
# Pipes are first in, first out, and small writes are atomic

* `Inode.contents` — the bytes in the ring.
* `Inv`, `step_inv` — the invariant of the processes and the history.
* `pipe_stream` — in every run: what has been read is the beginning of what has been written, the
  return values count the bytes, and small writes are in one piece.
-/

namespace LinuxEvocation.Pipe

open Function (update update_of_ne update_self)

/-! ## The ring -/

/-- The positions are in the page. -/
structure Inode.Valid (p : Inode) : Prop where
  head_lt : p.head < pageSize
  tail_lt : p.tail < pageSize

/-- The bytes in the ring. -/
def Inode.contents (p : Inode) : List UInt8 := Ring.window pageSize p.base p.tail p.size

@[simp]
theorem Inode.length_contents (p : Inode) : p.contents.length = p.size := Ring.length_window

theorem Inode.size_lt (p : Inode) : p.size < pageSize := Nat.mod_lt _ (by decide)

variable {p : Inode}

/-- The head is as far behind the tail as there are bytes. -/
theorem Inode.Valid.head_eq (h : p.Valid) : p.head = (p.tail + p.size) % pageSize := by
  obtain ⟨h1, h2⟩ := h
  unfold Inode.size
  unfold pageSize at *
  omega

variable {n : Nat}

theorem Inode.Valid.size_advance (h : p.Valid) (hn : n ≤ p.size) :
    ({ p with tail := (p.tail + n) % pageSize } : Inode).size = p.size - n := by
  obtain ⟨h1, h2⟩ := h
  unfold Inode.size at *
  simp only
  unfold pageSize at *
  omega

theorem Inode.Valid.size_grow (h : p.Valid) {base : Nat → UInt8} (hn : p.size + n < pageSize) :
    ({ p with base := base, head := (p.head + n) % pageSize } : Inode).size = p.size + n := by
  obtain ⟨h1, h2⟩ := h
  unfold Inode.size at *
  simp only
  unfold pageSize at *
  omega

/-! ## The copy loops -/

/-- **The copy loop of `pipe_read`** takes as many bytes from the front as there are and as are
asked for. -/
theorem copyOut_spec {fuel : Nat} {count : Nat} (h : p.Valid) (hfuel : count ≤ fuel) :
    (copyOut fuel p count).1.Valid ∧
      p.contents = (copyOut fuel p count).2 ++ (copyOut fuel p count).1.contents := by
  induction fuel generalizing p count with
  | zero => exact ⟨h, rfl⟩
  | succ fuel ih =>
    rw [copyOut]
    split_ifs with hgo
    · obtain ⟨hcount, hsize⟩ := hgo
      set chars := min (min (pageSize - p.tail) count) p.size with hchars
      have htail := h.tail_lt
      have hpos : 0 < chars := by omega
      have hvalid : ({ p with tail := (p.tail + chars) % pageSize } : Inode).Valid :=
        ⟨h.head_lt, Nat.mod_lt _ (by decide)⟩
      obtain ⟨h1, h2⟩ := ih hvalid (show count - chars ≤ fuel by omega)
      refine ⟨h1, ?_⟩
      have hsplit : p.contents = Ring.window pageSize p.base p.tail chars ++
          ({ p with tail := (p.tail + chars) % pageSize } : Inode).contents := by
        unfold Inode.contents
        rw [h.size_advance (show chars ≤ p.size by omega), ← Ring.window_add]
        congr 1
        omega
      rw [hsplit, h2, Ring.window_straight (by omega), List.append_assoc]
    · exact ⟨h, rfl⟩

/-- **The copy loop of `pipe_write`** puts as many bytes at the end as there is room for. -/
theorem copyIn_spec {fuel : Nat} {buf : List UInt8} (h : p.Valid) (hfuel : buf.length ≤ fuel) :
    (copyIn fuel p buf).1.Valid ∧
      (copyIn fuel p buf).1.contents = p.contents ++ buf.take (copyIn fuel p buf).2 ∧
      (copyIn fuel p buf).2 = min buf.length (pageSize - 1 - p.size) := by
  induction fuel generalizing p buf with
  | zero =>
    obtain rfl : buf = [] := List.length_eq_zero_iff.1 (by omega)
    exact ⟨h, by simp [copyIn], by simp [copyIn]⟩
  | succ fuel ih =>
    rw [copyIn]
    simp only
    split_ifs with hgo
    · obtain ⟨hbuf, hroom⟩ := hgo
      set chars := min (min (pageSize - p.head) buf.length) (pageSize - 1 - p.size) with hchars
      have hlen : 0 < buf.length := List.length_pos_iff.2 hbuf
      have hhead := h.head_lt
      have hsize := p.size_lt
      set p' : Inode := { p with
        base := Ring.blit p.base p.head (buf.take chars)
        head := (p.head + chars) % pageSize } with hp'
      have hvalid : p'.Valid := ⟨Nat.mod_lt _ (by decide), h.tail_lt⟩
      have hgrow : p'.size = p.size + chars := h.size_grow (by omega)
      have hrun : (buf.take chars).length = chars := by
        rw [List.length_take]
        omega
      have hcontents : p'.contents = p.contents ++ buf.take chars := by
        unfold Inode.contents
        rw [hgrow]
        have hblit : Ring.window pageSize p'.base p.tail (p.size + (buf.take chars).length) =
            Ring.window pageSize p.base p.tail p.size ++ buf.take chars :=
          Ring.window_blit h.tail_lt h.head_eq (by rw [hrun]; omega) (by rw [hrun]; omega)
        rw [hrun] at hblit
        exact hblit
      have hrest : (buf.drop chars).length ≤ fuel := by
        rw [List.length_drop]
        omega
      obtain ⟨h1, h2, h3⟩ := ih hvalid hrest
      refine ⟨h1, ?_, ?_⟩
      · rw [h2, hcontents, List.append_assoc, ← List.take_add]
      · rw [h3, List.length_drop, hgrow]
        omega
    · refine ⟨h, by simp, ?_⟩
      rw [not_and_or, not_not, not_not] at hgo
      rcases hgo with rfl | hzero
      · simp
      · omega

/-! ## `pipe_write` -/

/-- Another `n` bytes of the call have been copied. -/
def Write.after (w : Write) (n : Nat) : Write :=
  { w with
    buf := w.buf.drop n
    written := w.written + n
    size := if n = 0 then w.size else pageSize - 1 }

/-- The call waits for room for all of it, or for at least one byte, unless it is done. -/
def Write.Waits (w : Write) : Prop :=
  w.written = 0 ∧ w.buf.length < pageSize ∧ w.size = pageSize - w.buf.length ∨
    w.size = pageSize - 1 ∧ pageSize ≤ w.buf.length + w.written ∨ w.buf = []

theorem writeStart_waits (id : Nat) (buf : List UInt8) (nonblock : Bool) :
    (writeStart id buf nonblock).Waits := by
  unfold writeStart
  rcases Nat.lt_or_ge buf.length pageSize with hlt | hge
  · exact .inl ⟨rfl, hlt, if_pos hlt⟩
  · exact .inr (.inl ⟨if_neg (by omega), hge⟩)

/-- What a stretch of `pipe_write` has done. -/
structure Wrote (p : Inode) (w : Write) (r : Inode × Write × Option Int) (n : Nat) : Prop where
  valid : r.1.Valid
  after : r.2.1 = w.after n
  le : n ≤ w.buf.length
  contents : r.1.contents = p.contents ++ w.buf.take n
  /-- The return value counts the bytes. -/
  ret : ∀ v, r.2.2 = some v → v.toNat = w.written + n
  sleeps : r.2.2 = none → n < w.buf.length
  /-- A small write is copied whole or not at all. -/
  atomic : w.size = pageSize - w.buf.length → n = 0 ∨ n = w.buf.length

theorem Write.giveUp_toNat (w : Write) {e : Int} (he : 0 < e) : (w.giveUp e).toNat = w.written := by
  unfold Write.giveUp
  split_ifs with h
  · exact Int.toNat_natCast _
  · rw [not_not] at h
    rw [h]
    exact Int.toNat_eq_zero.2 (by omega)

theorem Write.after_zero (w : Write) : w.after 0 = w := by
  cases w
  simp [Write.after]

theorem Write.after_after (w : Write) (hn : n ≠ 0) (m : Nat) :
    (w.after n).after m = w.after (n + m) := by
  unfold Write.after
  rw [if_neg hn, if_neg (by omega : n + m ≠ 0), List.drop_drop, Nat.add_assoc, ite_self]

variable {w : Write}

/-- A call that has copied something goes on to wait for at least one byte. -/
theorem Write.Waits.after (h : w.Waits) (hn : n ≠ 0) (hle : n ≤ w.buf.length)
    (hsmall : w.size = pageSize - w.buf.length → n = w.buf.length) : (w.after n).Waits := by
  unfold Write.Waits Write.after
  simp only [List.length_drop, if_neg hn]
  rcases h with ⟨-, -, hsize⟩ | ⟨-, hlarge⟩ | hnil
  · refine .inr (.inr ?_)
    rw [hsmall hsize, List.drop_length]
  · exact .inr (.inl ⟨trivial, by omega⟩)
  · rw [hnil, List.length_nil] at hle
    omega

/-- Two stretches of the call, the first of them a copy. -/
theorem Wrote.trans {p' : Inode} {r : Inode × Write × Option Int} {m : Nat}
    (h : Wrote p' (w.after n) r m) (hn : n ≠ 0) (hle : n ≤ w.buf.length)
    (hcontents : p'.contents = p.contents ++ w.buf.take n)
    (hsmall : w.size = pageSize - w.buf.length → n = w.buf.length) : Wrote p w r (n + m) where
  valid := h.valid
  after := by rw [h.after, w.after_after hn]
  le := by
    have := h.le
    simp only [Write.after, List.length_drop] at this
    omega
  contents := by rw [h.contents, hcontents, List.append_assoc, Write.after, ← List.take_add]
  ret v hv := by
    rw [h.ret v hv]
    simp only [Write.after]
    omega
  sleeps hout := by
    have := h.sleeps hout
    simp only [Write.after, List.length_drop] at this
    omega
  atomic hsize := by
    have := h.le
    simp only [Write.after, List.length_drop] at this
    have := hsmall hsize
    omega

theorem Wrote.stop (h : p.Valid) {out : Option Int}
    (hret : ∀ v, out = some v → v.toNat = w.written) (hsleep : out = none → w.buf ≠ []) :
    Wrote p w (p, w, out) 0 where
  valid := h
  after := w.after_zero.symm
  le := Nat.zero_le _
  contents := by simp
  ret := hret
  sleeps hout := List.length_pos_iff.2 (hsleep hout)
  atomic _ := .inl rfl

/-- **What `pipe_write` has done when it sleeps or returns.** -/
theorem writeLoop_spec {pending : Bool} {fuel : Nat} (h : p.Valid)
    (hwait : w.Waits) (hfuel : w.buf.length < fuel) :
    ∃ r n, writeLoop pending fuel p w = some r ∧ Wrote p w r n := by
  induction fuel generalizing p w with
  | zero => omega
  | succ fuel ih =>
    rw [writeLoop]
    have hstop : ∀ e : Int, 0 < e → Wrote p w (p, w, some (w.giveUp e)) 0 := by
      intro e he
      refine .stop h (fun v hv => ?_) (by simp)
      cases hv
      exact w.giveUp_toNat he
    split_ifs with hbuf hfull hreaders hpending hnonblock
    · refine ⟨_, 0, rfl, .stop h (fun v hv => ?_) (by simp)⟩
      cases hv
      exact Int.toNat_natCast _
    · exact ⟨_, 0, rfl, hstop _ (by decide)⟩
    · exact ⟨_, 0, rfl, hstop _ (by decide)⟩
    · exact ⟨_, 0, rfl, hstop _ (by decide)⟩
    · exact ⟨_, 0, rfl, .stop h (by simp) fun _ => hbuf⟩
    · have hlen : 0 < w.buf.length := List.length_pos_iff.2 hbuf
      obtain ⟨h1, h2, h3⟩ := copyIn_spec h (le_refl w.buf.length)
      set n := (copyIn w.buf.length p w.buf).2
      have hsmall : w.size = pageSize - w.buf.length → n = w.buf.length := by omega
      have hn : n ≠ 0 := by
        rcases hwait with ⟨-, hlt, hsize⟩ | ⟨hsize, -⟩ | hnil
        · have := hsmall hsize
          omega
        · omega
        · exact absurd hnil hbuf
      have hnext : { w with buf := w.buf.drop n, written := w.written + n, size := pageSize - 1 } =
          w.after n := by
        rw [Write.after, if_neg hn]
      have hle : n ≤ w.buf.length := by omega
      have hrest : (w.after n).buf.length < fuel := by
        simp only [Write.after, List.length_drop]
        omega
      obtain ⟨r, m, hr, hwrote⟩ := ih h1 (hwait.after hn hle hsmall) hrest
      refine ⟨r, n + m, ?_, hwrote.trans hn hle h2 hsmall⟩
      rw [← hr, ← hnext]

theorem Wrote.waits {r : Inode × Write × Option Int}
    (h : Wrote p w r n) (hwait : w.Waits) : (w.after n).Waits := by
  rcases Nat.eq_zero_or_pos n with rfl | hn
  · rwa [w.after_zero]
  · refine hwait.after hn.ne' h.le fun hsize => ?_
    have := h.atomic hsize
    omega

/-! ## The history -/

section History

variable {τ : Type*}

/-- The bytes of the call `c` in the stream. -/
def taken (stream : List (Nat × UInt8)) (c : Nat) : List UInt8 :=
  (stream.filter fun x => x.1 = c).map Prod.snd

@[simp]
theorem taken_append (l l' : List (Nat × UInt8)) (c : Nat) :
    taken (l ++ l') c = taken l c ++ taken l' c := by
  simp [taken]

theorem taken_self (c : Nat) (b : List UInt8) : taken (b.map fun x => (c, x)) c = b := by
  induction b with
  | nil => rfl
  | cons x b ih =>
    rw [taken, List.map_cons, List.filter_cons_of_pos (by simp), List.map_cons]
    rw [taken] at ih
    rw [ih]

theorem taken_of_ne {c c' : Nat} (h : c' ≠ c) (b : List UInt8) :
    taken (b.map fun x => (c, x)) c' = [] := by
  induction b with
  | nil => rfl
  | cons x b ih =>
    rw [taken, List.map_cons, List.filter_cons_of_neg (by simpa using h.symm)]
    exact ih

theorem taken_eq_nil {stream : List (Nat × UInt8)} {c : Nat} :
    taken stream c = [] ↔ ∀ x ∈ stream, x.1 ≠ c := by
  simp [taken, List.filter_eq_nil_iff]

/-- The bytes of the call are in the stream in one piece, or not at all. -/
def Whole (stream : List (Nat × UInt8)) (c : Nat) (b : List UInt8) : Prop :=
  taken stream c = [] ∨
    ∃ l l', stream = l ++ b.map (fun x => (c, x)) ++ l' ∧ taken l c = [] ∧ taken l' c = []

theorem Whole.append {stream l : List (Nat × UInt8)} {c : Nat} {b : List UInt8}
    (h : Whole stream c b) (hl : taken l c = []) : Whole (stream ++ l) c b := by
  rcases h with hnil | ⟨l₁, l₂, rfl, h1, h2⟩
  · refine .inl ?_
    rw [taken_append, hnil, hl, List.append_nil]
  · refine .inr ⟨l₁, l₂ ++ l, ?_, h1, ?_⟩
    · rw [List.append_assoc]
    · rw [taken_append, h2, hl, List.append_nil]

/-- A call of `pipe_write` that has not returned. -/
structure Active (s : State τ) (w : Write) : Prop where
  lt : w.id < s.ncalls
  ret : s.ret w.id = none
  buf : taken s.stream w.id ++ w.buf = s.call w.id
  written : (taken s.stream w.id).length = w.written
  waits : w.Waits

structure Inv (s : State τ) : Prop where
  valid : s.pipe.Valid
  fifo : s.stream.map Prod.snd = s.out ++ s.pipe.contents
  label : ∀ x ∈ s.stream, x.1 < s.ncalls
  active : ∀ {t w}, s.task t = .writing w → Active s w
  unique : ∀ {t t' w w'}, s.task t = .writing w → s.task t' = .writing w' → w.id = w'.id → t = t'
  start : ∀ c, taken s.stream c <+: s.call c
  returned : ∀ {c v}, s.ret c = some v → (taken s.stream c).length = v.toNat
  fresh : ∀ c, s.ncalls ≤ c → s.ret c = none
  atomic : ∀ c, (s.call c).length < pageSize → Whole s.stream c (s.call c)

theorem init_inv (base : Nat → UInt8) : Inv (State.init base : State τ) where
  valid := ⟨Nat.succ_pos _, Nat.succ_pos _⟩
  fifo := by simp [State.init, Inode.contents, Inode.size]
  label _ h := by cases h
  active h := by cases h
  unique h := by cases h
  start _ := List.nil_prefix
  returned h := by cases h
  fresh _ _ := rfl
  atomic _ _ := .inl rfl

theorem Active.whole {s : State τ} {w : Write} (ha : Active s w) (h : Whole s.stream w.id (s.call w.id))
    (hsmall : (s.call w.id).length < pageSize) {r : Inode × Write × Option Int} {n : Nat}
    (hw : Wrote s.pipe w r n) :
    Whole (s.stream ++ (w.buf.take n).map fun b => (w.id, b)) w.id (s.call w.id) := by
  have hzero : n = 0 → Whole (s.stream ++ (w.buf.take n).map fun b => (w.id, b)) w.id
      (s.call w.id) := by
    rintro rfl
    simpa using h
  have hlen : w.written + w.buf.length = (s.call w.id).length := by
    rw [← ha.written, ← List.length_append, ha.buf]
  rcases ha.waits with ⟨hfirst, -, hsize⟩ | ⟨-, hlarge⟩ | hnil
  · rcases hw.atomic hsize with h0 | hall
    · exact hzero h0
    · have hnone : taken s.stream w.id = [] := List.length_eq_zero_iff.1 (ha.written.trans hfirst)
      have hbuf := ha.buf
      rw [hnone, List.nil_append] at hbuf
      refine .inr ⟨s.stream, [], ?_, hnone, rfl⟩
      rw [hall, List.take_length, hbuf, List.append_nil]
  · omega
  · have hle := hw.le
    rw [hnil, List.length_nil] at hle
    exact hzero (by omega)

variable [DecidableEq τ] {s : State τ} {t : τ}

theorem Inv.begin (h : Inv s) (buf : List UInt8) (nonblock : Bool) (ht : s.task t = .idle) :
    Inv { s with
      ncalls := s.ncalls + 1
      call := update s.call s.ncalls buf
      task := update s.task t (.writing (writeStart s.ncalls buf nonblock)) } := by
  have hnone : taken s.stream s.ncalls = [] :=
    taken_eq_nil.2 fun x hx => (h.label x hx).ne
  have hcall : ∀ {c}, c < s.ncalls → update s.call s.ncalls buf c = s.call c :=
    fun hc => update_of_ne hc.ne _ _
  -- what the processes that were asleep have is as it was
  have hother : ∀ {t' w}, t' ≠ t → update s.task t
      (.writing (writeStart s.ncalls buf nonblock)) t' = .writing w → s.task t' = .writing w := by
    intro t' w hne hw
    rwa [update_of_ne hne] at hw
  refine ⟨h.valid, h.fifo, fun x hx => (h.label x hx).trans (Nat.lt_succ_self _), ?_, ?_, ?_,
    h.returned, fun c hc => h.fresh c (Nat.le_of_succ_le hc), ?_⟩
  · intro t' w hw
    by_cases hne : t' = t
    · subst hne
      simp only [update_self, Task.writing.injEq] at hw
      subst hw
      refine ⟨Nat.lt_succ_self _, h.fresh _ le_rfl, ?_, ?_, writeStart_waits _ _ _⟩
      · simp only [writeStart, hnone, update_self, List.nil_append]
      · simp only [writeStart, hnone, List.length_nil]
    · have ha := h.active (hother hne hw)
      refine ⟨ha.lt.trans (Nat.lt_succ_self _), ha.ret, ?_, ha.written, ha.waits⟩
      simp only [hcall ha.lt]
      exact ha.buf
  · intro t₁ t₂ w₁ w₂ h1 h2 hid
    by_cases hne1 : t₁ = t <;> by_cases hne2 : t₂ = t
    · exact hne1.trans hne2.symm
    · subst hne1
      simp only [update_self, Task.writing.injEq] at h1
      have hlt := (h.active (hother hne2 h2)).lt
      rw [← hid, ← h1] at hlt
      exact absurd hlt (lt_irrefl _)
    · subst hne2
      simp only [update_self, Task.writing.injEq] at h2
      have hlt := (h.active (hother hne1 h1)).lt
      rw [hid, ← h2] at hlt
      exact absurd hlt (lt_irrefl _)
    · exact h.unique (hother hne1 h1) (hother hne2 h2) hid
  · intro c
    by_cases hc : c = s.ncalls
    · subst hc
      simp only [hnone]
      exact List.nil_prefix
    · simp only [update_of_ne hc]
      exact h.start c
  · intro c hlen
    by_cases hc : c = s.ncalls
    · subst hc
      exact .inl hnone
    · simp only [update_of_ne hc] at hlen ⊢
      exact h.atomic c hlen

theorem Inv.afterWrite (h : Inv s) {w : Write} {r : Inode × Write × Option Int} {n : Nat}
    (ht : s.task t = .writing w) (hw : Wrote s.pipe w r n) : Inv (s.afterWrite t w r) := by
  have ha := h.active ht
  have hn : r.2.1.written - w.written = n := by
    rw [hw.after, Write.after]
    simp
  set new : List (Nat × UInt8) := (w.buf.take n).map fun b => (w.id, b) with hnew
  have hstream : (s.afterWrite t w r).stream = s.stream ++ new := by
    simp only [State.afterWrite, hn, hnew]
  have hself : taken new w.id = w.buf.take n := taken_self _ _
  have hother : ∀ {c}, c ≠ w.id → taken new c = [] := fun hc => taken_of_ne hc _
  have hlen : (w.buf.take n).length = n := by
    rw [List.length_take]
    exact min_eq_left hw.le
  have htask : ∀ {t' w'}, t' ≠ t → (s.afterWrite t w r).task t' = .writing w' →
      s.task t' = .writing w' := by
    intro t' w' hne hw'
    simpa only [State.afterWrite, update_of_ne hne] using hw'
  have hsleep : ∀ {w'}, (s.afterWrite t w r).task t = .writing w' →
      r.2.2 = none ∧ w' = w.after n := by
    intro w' hw'
    simp only [State.afterWrite, update_self] at hw'
    split_ifs at hw' with hnone
    exact ⟨hnone, by rw [← hw.after, Task.writing.inj hw']⟩
  have hret : ∀ {c}, c ≠ w.id → (s.afterWrite t w r).ret c = s.ret c :=
    fun hc => update_of_ne hc _ _
  refine ⟨hw.valid, ?_, ?_, ?_, ?_, ?_, ?_, ?_, ?_⟩
  · rw [hstream, List.map_append, h.fifo, List.append_assoc]
    simp only [State.afterWrite, hw.contents, hnew, List.map_map]
    congr 2
    exact List.map_id _
  · intro x hx
    rw [hstream, List.mem_append] at hx
    rcases hx with hx | hx
    · exact h.label x hx
    · obtain ⟨b, -, rfl⟩ := List.mem_map.1 hx
      exact ha.lt
  · intro t' w' hw'
    by_cases hne : t' = t
    · subst hne
      obtain ⟨hnone, rfl⟩ := hsleep hw'
      refine ⟨ha.lt, ?_, ?_, ?_, hw.waits ha.waits⟩
      · simp only [State.afterWrite, Write.after, update_self]
        exact hnone
      · rw [hstream, taken_append]
        simp only [Write.after, hself, List.append_assoc, List.take_append_drop]
        exact ha.buf
      · rw [hstream, taken_append]
        simp only [Write.after, hself, List.length_append, hlen, ha.written]
    · have ha' := h.active (htask hne hw')
      have hid : w'.id ≠ w.id := fun heq => hne (h.unique (htask hne hw') ht heq)
      refine ⟨ha'.lt, ?_, ?_, ?_, ha'.waits⟩
      · rw [hret hid]
        exact ha'.ret
      · rw [hstream, taken_append, hother hid, List.append_nil]
        exact ha'.buf
      · rw [hstream, taken_append, hother hid, List.append_nil]
        exact ha'.written
  · intro t₁ t₂ w₁ w₂ h1 h2 hid
    by_cases hne1 : t₁ = t <;> by_cases hne2 : t₂ = t
    · exact hne1.trans hne2.symm
    · subst hne1
      obtain ⟨-, rfl⟩ := hsleep h1
      exact h.unique ht (htask hne2 h2) hid
    · subst hne2
      obtain ⟨-, rfl⟩ := hsleep h2
      exact h.unique (htask hne1 h1) ht hid
    · exact h.unique (htask hne1 h1) (htask hne2 h2) hid
  · intro c
    rw [hstream, taken_append]
    by_cases hc : c = w.id
    · subst hc
      rw [hself]
      change _ <+: s.call w.id
      rw [← ha.buf]
      exact (List.prefix_append_right_inj _).2 (List.take_prefix n w.buf)
    · rw [hother hc, List.append_nil]
      exact h.start c
  · intro c v hv
    rw [hstream, taken_append]
    by_cases hc : c = w.id
    · subst hc
      simp only [State.afterWrite, update_self] at hv
      rw [hself, List.length_append, hlen, ha.written]
      exact (hw.ret v hv).symm
    · rw [hret hc] at hv
      rw [hother hc, List.append_nil]
      exact h.returned hv
  · intro c hc
    have hlt : s.ncalls ≤ c := hc
    rw [hret (ha.lt.trans_le hlt).ne']
    exact h.fresh c hlt
  · intro c hsmall
    change (s.call c).length < pageSize at hsmall
    change Whole _ c (s.call c)
    rw [hstream]
    by_cases hc : c = w.id
    · subst hc
      exact ha.whole (h.atomic _ hsmall) hsmall hw
    · exact (h.atomic c hsmall).append (hother hc)

theorem Inv.afterRead (h : Inv s) (count : Nat) {r : Inode × List UInt8 × Option Int}
    (hw : ∀ w, s.task t ≠ .writing w) (hvalid : r.1.Valid)
    (hcontents : s.pipe.contents = r.2.1 ++ r.1.contents) : Inv (s.afterRead t count r) := by
  have htask : ∀ {t' w}, (s.afterRead t count r).task t' = .writing w →
      s.task t' = .writing w := by
    intro t' w hw'
    by_cases hne : t' = t
    · subst hne
      simp only [State.afterRead, update_self] at hw'
      split_ifs at hw'
    · simpa only [State.afterRead, update_of_ne hne] using hw'
  refine ⟨hvalid, ?_, h.label, fun hw' => ?_, fun h1 h2 => h.unique (htask h1) (htask h2), h.start,
    h.returned, h.fresh, h.atomic⟩
  · simp only [State.afterRead]
    rw [h.fifo, hcontents, List.append_assoc]
  · have ha := h.active (htask hw')
    exact ⟨ha.lt, ha.ret, ha.buf, ha.written, ha.waits⟩

theorem pipeRead_spec {p : Inode} (h : p.Valid) (count : Nat) (nonblock pending : Bool) :
    (pipeRead p count nonblock pending).1.Valid ∧
      p.contents = (pipeRead p count nonblock pending).2.1 ++
        (pipeRead p count nonblock pending).1.contents := by
  unfold pipeRead
  have hcopy := copyOut_spec h (le_refl count)
  simp only
  split_ifs
  · exact ⟨h, rfl⟩
  · exact ⟨h, rfl⟩
  · exact ⟨h, rfl⟩
  · exact hcopy
  · exact hcopy
  · exact hcopy

theorem pipeWrite_spec {p : Inode} (h : p.Valid) (id : Nat) (buf : List UInt8)
    (nonblock pending : Bool) :
    ∃ r n, pipeWrite p id buf nonblock pending = some r ∧
      Wrote p (writeStart id buf nonblock) r n := by
  unfold pipeWrite
  simp only
  split_ifs with hreaders
  · refine ⟨_, 0, rfl, .stop h (fun v hv => ?_) (by simp)⟩
    cases hv
    rfl
  · exact writeLoop_spec h (writeStart_waits id buf nonblock) (Nat.lt_succ_self _)

/-- **Every step keeps the invariant.** -/
theorem step_inv {e : Event τ} {s' : State τ} (h : Inv s) (hstep : step s e = some s') : Inv s' := by
  obtain ⟨⟨s'', out⟩, hout, rfl⟩ := Option.map_eq_some_iff.1 hstep
  cases e with
  | read t count nonblock =>
    simp only [stepOut] at hout
    split_ifs at hout with ht
    cases hout
    obtain ⟨h1, h2⟩ := pipeRead_spec h.valid count nonblock (s.pending t)
    exact h.afterRead count (by simp [ht]) h1 h2
  | write t buf nonblock =>
    simp only [stepOut] at hout
    split_ifs at hout with ht
    obtain ⟨r, hr, heq⟩ := Option.map_eq_some_iff.1 hout
    cases heq
    obtain ⟨r', n, hr', hw⟩ := pipeWrite_spec h.valid s.ncalls buf nonblock (s.pending t)
    obtain rfl : r' = r := Option.some.inj (hr'.symm.trans hr)
    have hbegin := (h.begin buf nonblock ht).afterWrite (update_self ..) hw
    simpa only [State.afterWrite, Function.update_idem] using hbegin
  | run t =>
    simp only [stepOut] at hout
    cases ht : s.task t with
    | idle =>
      rw [ht] at hout
      cases hout
    | reading count =>
      rw [ht] at hout
      cases hout
      obtain ⟨h1, h2⟩ := pipeRead_spec h.valid count false (s.pending t)
      exact h.afterRead count (by simp [ht]) h1 h2
    | writing w =>
      rw [ht] at hout
      obtain ⟨r, hr, heq⟩ := Option.map_eq_some_iff.1 hout
      cases heq
      obtain ⟨r', n, hr', hw⟩ :=
        writeLoop_spec h.valid (h.active ht).waits (Nat.lt_succ_self w.buf.length)
      obtain rfl : r' = r := Option.some.inj (hr'.symm.trans hr)
      exact h.afterWrite ht hw
  | signal t pending =>
    cases hout
    exact ⟨h.valid, h.fifo, h.label, fun ht => ⟨(h.active ht).lt, (h.active ht).ret,
      (h.active ht).buf, (h.active ht).written, (h.active ht).waits⟩, h.unique, h.start, h.returned,
      h.fresh, h.atomic⟩
  | ends readers writers =>
    cases hout
    exact ⟨⟨h.valid.head_lt, h.valid.tail_lt⟩, h.fifo, h.label, fun ht => ⟨(h.active ht).lt,
      (h.active ht).ret, (h.active ht).buf, (h.active ht).written, (h.active ht).waits⟩, h.unique,
      h.start, h.returned, h.fresh, h.atomic⟩

/-! ## Runs -/

/-- What holds of the bytes that have gone through a pipe. -/
structure StreamSound (s : State τ) : Prop where
  /-- What has been read is the beginning of what has been written, and the rest is in the ring. -/
  fifo : s.stream.map Prod.snd = s.out ++ s.pipe.contents
  size : s.pipe.contents.length = s.pipe.size
  /-- The bytes of a call are accepted in order. -/
  start : ∀ c, taken s.stream c <+: s.call c
  /-- What a call returns counts its bytes; it is negative only if there are none. -/
  returned : ∀ c v, s.ret c = some v → (taken s.stream c).length = v.toNat
  /-- Small writes are in one piece. -/
  atomic : ∀ c, (s.call c).length < pageSize → Whole s.stream c (s.call c)

/-- **Pipes.**  In every run, whatever the interleaving of readers and writers. -/
theorem pipe_stream {base : Nat → UInt8}
    (h : Transition.Reach step Transition.anyStep (State.init base) s) : StreamSound s := by
  have hinv : Inv s :=
    h.invariant (I := Inv) (init_inv base) fun _ _ _ hs _ hstep => step_inv hs hstep
  exact ⟨hinv.fifo, Inode.length_contents _, hinv.start, fun _ _ => hinv.returned, hinv.atomic⟩

end History

/-- Two processes write, and a third reads a part of it. -/
theorem pipe_stream_two_writers :
    ∃ s : State (Fin 3), s.stream = [(0, 1), (0, 2), (0, 3), (1, 9)] ∧ s.out = [1, 2] ∧
      s.pipe.size = 2 ∧ s.ret 0 = some 3 ∧ StreamSound s := by
  have hrun : (Transition.execFrom step (State.init fun _ => 0)
      [.read 2 2 false, .write 0 [1, 2, 3] false, .write 1 [9] false, .run 2]).map
      (fun s : State (Fin 3) => (s.stream, s.out, s.pipe.size, s.ret 0)) =
        some ([(0, 1), (0, 2), (0, 3), (1, 9)], [1, 2], 2, some 3) := by
    decide +kernel
  obtain ⟨s, hs, hval⟩ := Option.map_eq_some_iff.1 hrun
  simp only [Prod.mk.injEq] at hval
  obtain ⟨h1, h2, h3, h4⟩ := hval
  exact ⟨s, h1, h2, h3, h4, pipe_stream (Transition.Reach.of_execFrom .init hs)⟩

end LinuxEvocation.Pipe
