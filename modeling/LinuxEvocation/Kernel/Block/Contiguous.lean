import LinuxEvocation.Kernel.Block.Sectors

/-!
# Merged requests are contiguous

A request that buffers are added to at both ends, and that the driver takes buffers from in front,
stays a chain of consecutive blocks, as long as the numbers of the sectors do not wrap around.

* `Linked` — a request and its chain of buffers.
* `Contiguous` — every request has its chain, and every locked buffer is in one of them, or waits for
  a slot.
* `Books` — what is kept beside it.
* `Fits` — the condition of a step: no sector number wraps around.
* `requests_contiguous` — what holds of every run.
-/

namespace LinuxEvocation.Requests

open Function (update update_eq_self update_of_ne update_self)
open Transition
open LinkedList (Threads)
open Block (Rw)

/-! ## Lists that go together -/

section Forall₂

variable {α β : Type*} {R S : α → β → Prop}

theorem forall₂_split {l l' : List α} {x : α} {ys : List β}
    (h : List.Forall₂ R (l ++ x :: l') ys) :
    ∃ k y k', ys = k ++ y :: k' ∧ List.Forall₂ R l k ∧ R x y ∧ List.Forall₂ R l' k' := by
  induction l generalizing ys with
  | nil =>
    obtain _ | ⟨hxy, hrest⟩ := h
    exact ⟨[], _, _, rfl, .nil, hxy, hrest⟩
  | cons a l ih =>
    obtain _ | ⟨hab, hrest⟩ := h
    obtain ⟨k, y, k', rfl, hk, hxy, hk'⟩ := ih hrest
    exact ⟨_ :: k, y, k', rfl, .cons hab hk, hxy, hk'⟩

theorem forall₂_join {l l' : List α} {x : α} {k k' : List β} {y : β} (hl : List.Forall₂ R l k)
    (hxy : R x y) (hl' : List.Forall₂ R l' k') : List.Forall₂ R (l ++ x :: l') (k ++ y :: k') := by
  induction hl with
  | nil => exact .cons hxy hl'
  | cons hab _ ih => exact .cons hab ih

/-- The relation may be another one for the lists that are there. -/
theorem forall₂_imp_of_mem {l : List α} {k : List β} (h : List.Forall₂ R l k)
    (himp : ∀ x, ∀ y ∈ k, R x y → S x y) : List.Forall₂ S l k := by
  induction h with
  | nil => exact .nil
  | cons hab _ ih =>
    exact .cons (himp _ _ (List.mem_cons_self ..) hab)
      (ih fun x y hy => himp x y (List.mem_cons_of_mem _ hy))

end Forall₂

/-! ## The chains -/

/-- The request is for the buffers `l`: they are threaded from `bh` to `bhtail`, they are locked
buffers of its device that are to be transferred in its direction, their blocks are consecutive, its
sectors are theirs, and it begins with the first of them. -/
structure Linked (d : Device) (s : State) (r : Req) (l : List Nat) : Prop where
  threads : Threads 0 s.reqnext r.bh l
  last : l.getLast? = some r.bhtail
  dev : ∀ b ∈ l, (d.bh b).dev = r.dev
  locked : ∀ b ∈ l, s.lock b = true
  asked : ∀ b ∈ l, s.asked b = r.cmd
  blocks : l.map (fun b => (d.bh b).blocknr.toNat) =
    List.range' (d.bh r.bh).blocknr.toNat l.length
  sector : r.sector.toNat = (d.bh r.bh).blocknr.toNat * (d.blockSize r.dev).count
  nrSectors : r.nrSectors.toNat = l.length * (d.blockSize r.dev).count
  numbered : ((d.bh r.bh).blocknr.toNat + l.length) * (d.blockSize r.dev).count ≤ 2 ^ 32
  current : r.currentNrSectors.toNat = (d.blockSize r.dev).count
  buffer : r.buffer = (d.bh r.bh).data

/-- A task sleeps in `make_request` with the buffer locked. -/
def Waits (s : State) (b : Nat) : Prop := ∃ t rw, s.call t = some ⟨rw, b, .slotWait⟩

/-- Every request has its chain of buffers, no buffer is in two places, and the buffers that are
locked are those of the chains and those that wait for a slot. -/
def Contiguous (d : Device) (s : State) : Prop :=
  ∃ ls, List.Forall₂ (Linked d s) s.reqs ls ∧ ls.flatten.Nodup ∧
    (∀ b, s.lock b = true ↔ b ∈ ls.flatten ∨ Waits s b) ∧ ∀ b, Waits s b → b ∉ ls.flatten

/-- The chains of the requests, and what is kept beside them. -/
structure Books (d : Device) (s : State) (ls : List (List Nat)) : Prop where
  linked : List.Forall₂ (Linked d s) s.reqs ls
  nodup : ls.flatten.Nodup
  lock : ∀ b, s.lock b = true ↔ b ∈ ls.flatten ∨ Waits s b
  apart : ∀ b, Waits s b → b ∉ ls.flatten
  /-- A buffer that is in no request points nowhere. -/
  idle : ∀ b, b ∉ ls.flatten → s.reqnext b = 0
  /-- A buffer that waits for a slot belongs to one call, and is to be transferred its way. -/
  one : ∀ t u rw rw' b, s.call t = some ⟨rw, b, .slotWait⟩ → s.call u = some ⟨rw', b, .slotWait⟩ → t = u
  asked : ∀ t rw b, s.call t = some ⟨rw, b, .slotWait⟩ → s.asked b = rw.isWrite
  ne_zero : ∀ t c, s.call t = some c → c.b ≠ 0

theorem Books.contiguous {d : Device} {s : State} {ls : List (List Nat)} (h : Books d s ls) :
    Contiguous d s := ⟨ls, h.linked, h.nodup, h.lock, h.apart⟩

theorem books_start (d : Device) : Books d start [] where
  linked := .nil
  nodup := List.nodup_nil
  lock b := by simp [start, Waits]
  apart := by simp [start, Waits]
  idle _ _ := rfl
  one := nofun
  asked := nofun
  ne_zero := nofun

/-! ## The condition of a step -/

/-- The buffer that a step brings to the label `repeat` of `make_request`, and its direction. -/
def handed (d : Device) (s : State) : Event → Option (Nat × Bool)
  | .make _ rw b =>
    if d.tooBig b || s.lock b || clean s rw b then none else some (b, rw.isWrite)
  | .resume t =>
    match s.call t with
    | some ⟨rw, b, .lockWait⟩ => if s.lock b || clean s rw b then none else some (b, rw.isWrite)
    | some ⟨rw, b, .slotWait⟩ => some (b, rw.isWrite)
    | none => none
  | _ => none

/-- The sectors of the buffer have numbers, and no request that it could be added to is next to it by
wraparound only. -/
structure Fits (d : Device) (s : State) (cmd : Bool) (b : Nat) : Prop where
  numbered : blockEnd d b ≤ 2 ^ 32
  behind : ∀ r ∈ candidates d s, r.dev = (d.bh b).dev → r.cmd = cmd → r.nrSectors < 254 →
    r.sector + r.nrSectors = d.sector b → d.sector b ≠ 0
  before : ∀ r ∈ candidates d s, r.dev = (d.bh b).dev → r.cmd = cmd → r.nrSectors < 254 →
    r.sector - d.count b = d.sector b → r.sector ≠ 0

/-- No sector number wraps around in the step. -/
def NoWrap (d : Device) (s : State) (e : Event) : Prop :=
  ∀ b cmd, handed d s e = some (b, cmd) → Fits d s cmd b

/-! ## Stores beside a chain -/

section Steps

variable {d : Device} {s s' : State} {r : Req} {l : List Nat} {ls : List (List Nat)} {t b : Nat}
  {rw : Rw}

theorem Linked.congr (h : Linked d s r l) (hnext : ∀ x ∈ l, s'.reqnext x = s.reqnext x)
    (hlock : ∀ x ∈ l, s'.lock x = s.lock x) (hasked : ∀ x ∈ l, s'.asked x = s.asked x) :
    Linked d s' r l :=
  { h with
    threads := h.threads.congr hnext
    locked := fun x hx => (hlock x hx).trans (h.locked x hx)
    asked := fun x hx => (hasked x hx).trans (h.asked x hx) }

/-- A chain is not empty, and starts with `bh`. -/
theorem Linked.exists_cons (h : Linked d s r l) : ∃ l', l = r.bh :: l' ∧ r.bh ≠ 0 := by
  have hth := h.threads
  cases l with
  | nil => exact absurd h.last (by simp)
  | cons x l' =>
    obtain ⟨rfl, hne, -⟩ := hth
    exact ⟨l', rfl, hne⟩

theorem Linked.exists_snoc (h : Linked d s r l) : ∃ l', l = l' ++ [r.bhtail] :=
  ⟨l.dropLast, (List.dropLast_append_getLast? _ h.last).symm⟩

/-- The sectors of a request are not changed where others are stored to. -/
theorem Books.linked_of_congr (h : Books d s ls)
    (hnext : ∀ x ∈ ls.flatten, s'.reqnext x = s.reqnext x)
    (hlock : ∀ x ∈ ls.flatten, s'.lock x = s.lock x)
    (hasked : ∀ x ∈ ls.flatten, s'.asked x = s.asked x) :
    List.Forall₂ (Linked d s') s.reqs ls := by
  refine forall₂_imp_of_mem h.linked fun r l hl hr => ?_
  have hsub (x : Nat) (hx : x ∈ l) : x ∈ ls.flatten := List.mem_flatten.mpr ⟨l, hl, hx⟩
  exact hr.congr (fun x hx => hnext x (hsub x hx)) (fun x hx => hlock x (hsub x hx))
    (fun x hx => hasked x (hsub x hx))

/-! ## A buffer is added to a request -/

/-- The buffer is the next block behind the request. -/
theorem Linked.block_behind (h : Linked d s r l) (hdev : r.dev = (d.bh b).dev)
    (hsec : r.sector + r.nrSectors = d.sector b) (hend : blockEnd d b ≤ 2 ^ 32)
    (hne : d.sector b ≠ 0) : (d.bh b).blocknr.toNat = (d.bh r.bh).blocknr.toNat + l.length := by
  have hword := congrArg BitVec.toNat hsec
  have hnum := h.numbered
  rw [BitVec.toNat_add, h.sector, h.nrSectors, toNat_sector] at hword
  rw [Ne, ← BitVec.toNat_inj, toNat_sector] at hne
  rw [blockEnd] at hend
  rw [Device.size, ← hdev] at hword hne hend
  have hzero : (0 : BitVec 32).toNat = 0 := rfl
  rw [hzero] at hne
  generalize d.blockSize r.dev = z at *
  cases z <;> simp only [BlockSize.count, BlockSize.bytes] at * <;> omega

/-- The buffer is the last block before the request. -/
theorem Linked.block_before (h : Linked d s r l) (hdev : r.dev = (d.bh b).dev)
    (hsec : r.sector - d.count b = d.sector b) (hend : blockEnd d b ≤ 2 ^ 32)
    (hne : r.sector ≠ 0) : (d.bh r.bh).blocknr.toNat = (d.bh b).blocknr.toNat + 1 := by
  have hword := congrArg BitVec.toNat hsec
  have hlt := r.sector.isLt
  rw [BitVec.toNat_sub, toNat_count, toNat_sector] at hword
  rw [Ne, ← BitVec.toNat_inj] at hne
  have hzero : (0 : BitVec 32).toNat = 0 := rfl
  rw [h.sector] at hword hne hlt
  rw [hzero] at hne
  rw [blockEnd] at hend
  rw [Device.size, ← hdev] at hword hend
  generalize d.blockSize r.dev = z at *
  cases z <;> simp only [BlockSize.count, BlockSize.bytes] at * <;> omega

/-- The request has the sectors of one more buffer. -/
theorem Linked.nrSectors_succ (h : Linked d s r l) (hdev : r.dev = (d.bh b).dev)
    (hnr : r.nrSectors < 254) :
    (r.nrSectors + d.count b).toNat = (l.length + 1) * (d.blockSize r.dev).count := by
  have hsmall : r.nrSectors.toNat < 254 := hnr
  have hcount := (d.size b).count_le
  rw [BitVec.toNat_add, toNat_count, Nat.mod_eq_of_lt (by omega), h.nrSectors, Device.size, ← hdev,
    Nat.succ_mul]

/-- What is known of a buffer when it is added to a request. -/
structure Spare (d : Device) (s : State) (b : Nat) (cmd : Bool) (l : List Nat) : Prop where
  notMem : b ∉ l
  ne_zero : b ≠ 0
  idle : s.reqnext b = 0
  lock : s.lock b = true
  asked : s.asked b = cmd

theorem Linked.snoc (h : Linked d s r l) (hnodup : l.Nodup) (hb : Spare d s b r.cmd l)
    (hdev : r.dev = (d.bh b).dev) (hsec : r.sector + r.nrSectors = d.sector b)
    (hnr : r.nrSectors < 254) (hend : blockEnd d b ≤ 2 ^ 32) (hne : d.sector b ≠ 0)
    (hnext : s'.reqnext = update s.reqnext r.bhtail b) (hlock : s'.lock = s.lock)
    (hasked : s'.asked = s.asked) :
    Linked d s' { r with bhtail := b, nrSectors := r.nrSectors + d.count b } (l ++ [b]) where
  threads := by
    obtain ⟨l', rfl⟩ := h.exists_snoc
    rw [hnext]
    exact h.threads.snoc hnodup hb.notMem hb.ne_zero hb.idle
  last := List.getLast?_concat
  dev := by
    intro x hx
    rcases List.mem_append.mp hx with hx | hx
    · exact h.dev x hx
    · rw [List.mem_singleton.mp hx]
      exact hdev.symm
  locked := by
    intro x hx
    rw [hlock]
    rcases List.mem_append.mp hx with hx | hx
    · exact h.locked x hx
    · rw [List.mem_singleton.mp hx]
      exact hb.lock
  asked := by
    intro x hx
    rw [hasked]
    rcases List.mem_append.mp hx with hx | hx
    · exact h.asked x hx
    · rw [List.mem_singleton.mp hx]
      exact hb.asked
  blocks := by
    rw [List.map_append, h.blocks, List.length_append, List.length_singleton, List.range'_concat,
      List.map_singleton, h.block_behind hdev hsec hend hne, Nat.one_mul]
  sector := h.sector
  nrSectors := by
    rw [List.length_append, List.length_singleton]
    exact h.nrSectors_succ hdev hnr
  numbered := by
    rw [blockEnd, h.block_behind hdev hsec hend hne, Device.size, ← hdev] at hend
    rw [List.length_append, List.length_singleton, ← Nat.add_assoc]
    exact hend
  current := h.current
  buffer := h.buffer

theorem Linked.cons (h : Linked d s r l) (hb : Spare d s b r.cmd l)
    (hdev : r.dev = (d.bh b).dev) (hsec : r.sector - d.count b = d.sector b)
    (hnr : r.nrSectors < 254) (hend : blockEnd d b ≤ 2 ^ 32) (hne : r.sector ≠ 0)
    (hnext : s'.reqnext = update s.reqnext b r.bh) (hlock : s'.lock = s.lock)
    (hasked : s'.asked = s.asked) :
    Linked d s' { r with
      nrSectors := r.nrSectors + d.count b
      buffer := (d.bh b).data
      currentNrSectors := d.count b
      sector := d.sector b
      bh := b } (b :: l) where
  threads := by
    rw [hnext]
    exact h.threads.push hb.notMem hb.ne_zero
  last := by
    obtain ⟨l', rfl⟩ := h.exists_snoc
    rw [← List.cons_append]
    exact List.getLast?_concat
  dev := List.forall_mem_cons.mpr ⟨hdev.symm, h.dev⟩
  locked := by
    rw [hlock]
    exact List.forall_mem_cons.mpr ⟨hb.lock, h.locked⟩
  asked := by
    rw [hasked]
    exact List.forall_mem_cons.mpr ⟨hb.asked, h.asked⟩
  blocks := by
    rw [List.map_cons, h.blocks, h.block_before hdev hsec hend hne, List.length_cons,
      List.range'_succ]
  sector := by
    rw [blockEnd, Device.size, ← hdev] at hend
    have hpos := (d.blockSize r.dev).count_pos
    rw [toNat_sector, Device.size, ← hdev, Nat.mod_eq_of_lt]
    rw [Nat.succ_mul] at hend
    omega
  nrSectors := h.nrSectors_succ hdev hnr
  numbered := by
    have hnum := h.numbered
    rw [h.block_before hdev hsec hend hne] at hnum
    rw [List.length_cons, ← Nat.add_assoc, Nat.add_right_comm]
    exact hnum
  current := by rw [toNat_count, Device.size, ← hdev]
  buffer := rfl

theorem linked_newReq {i : Nat} {cmd : Bool} (hb : Spare d s b cmd []) (hend : blockEnd d b ≤ 2 ^ 32)
    (hnext : s'.reqnext = s.reqnext) (hlock : s'.lock = s.lock) (hasked : s'.asked = s.asked) :
    Linked d s' (newReq d i cmd b) [b] where
  threads := by
    refine ⟨rfl, hb.ne_zero, ?_⟩
    rw [hnext]
    exact hb.idle
  last := rfl
  dev := List.forall_mem_singleton.mpr rfl
  locked := List.forall_mem_singleton.mpr (hlock ▸ hb.lock)
  asked := List.forall_mem_singleton.mpr (hasked ▸ hb.asked)
  blocks := rfl
  sector := by
    have hpos := (d.size b).count_pos
    refine (toNat_sector d b).trans (Nat.mod_eq_of_lt ?_)
    rw [blockEnd, Nat.succ_mul] at hend
    omega
  nrSectors := (toNat_count d b).trans (Nat.one_mul _).symm
  numbered := hend
  current := toNat_count d b
  buffer := rfl

/-! ## The calls that sleep -/

theorem setCall_setCall (t : Nat) (c c' : Option Call) :
    (s.setCall t c).setCall t c' = s.setCall t c' := by
  simp [State.setCall]

theorem setCall_self {c : Option Call} (h : s.call t = c) : s.setCall t c = s := by
  rw [State.setCall, ← h, update_eq_self]

/-- It does not matter what the call was before. -/
theorem Handed.setCall (h : Handed d s t rw b s') (c : Option Call) :
    Handed d (s.setCall t c) t rw b s' := by
  cases h with
  | @merged k k' r r' next hreqs hr hone =>
    have hm : Handed d (s.setCall t c) t rw b _ := .merged hreqs hr hone
    rw [setCall_setCall] at hm
    exact hm
  | @queued i hfree =>
    have hm : Handed d (s.setCall t c) t rw b _ := .queued (i := i) hfree
    rw [setCall_setCall] at hm
    exact hm
  | dropped hahead =>
    have hm : Handed d (s.setCall t c) t rw b _ := .dropped hahead
    have heq : ((s.setCall t c).unlock b).setCall t none = (s.unlock b).setCall t none :=
      setCall_setCall (s := s.unlock b) t c none
    rw [heq] at hm
    exact hm
  | waits =>
    have hm : Handed d (s.setCall t c) t rw b _ := .waits
    rw [setCall_setCall] at hm
    exact hm

/-- The task of a call does not wait for a slot. -/
def Awake (s : State) (t : Nat) : Prop := ∀ rw b, s.call t ≠ some ⟨rw, b, .slotWait⟩

/-- A call that does not wait for a slot sleeps for the buffer, or returns. -/
theorem Books.setCall (h : Books d s ls) (ht : Awake s t) {c : Option Call}
    (hc : ∀ x ∈ c, x.phase = .lockWait ∧ x.b ≠ 0) : Books d (s.setCall t c) ls := by
  have hcall (u : Nat) (rw : Rw) (b : Nat) :
      (s.setCall t c).call u = some ⟨rw, b, .slotWait⟩ ↔ s.call u = some ⟨rw, b, .slotWait⟩ := by
    by_cases hu : u = t
    · subst hu
      refine iff_of_false ?_ (ht rw b)
      intro heq
      have hx := hc ⟨rw, b, .slotWait⟩ (by simpa [State.setCall] using heq)
      cases hx.1
    · simp [State.setCall, hu]
  have hwaits (x : Nat) : Waits (s.setCall t c) x ↔ Waits s x := by
    simp only [Waits, hcall]
  refine ⟨h.linked_of_congr (fun _ _ => rfl) (fun _ _ => rfl) (fun _ _ => rfl), h.nodup, ?_, ?_,
    h.idle, ?_, ?_, ?_⟩
  · intro x
    rw [hwaits]
    exact h.lock x
  · intro x hx
    exact h.apart x ((hwaits x).mp hx)
  · intro u v rw rw' x hu hv
    exact h.one u v rw rw' x ((hcall u rw x).mp hu) ((hcall v rw' x).mp hv)
  · intro u rw x hu
    exact h.asked u rw x ((hcall u rw x).mp hu)
  · intro u x hu
    by_cases hut : u = t
    · exact (hc x (by simpa [State.setCall, hut] using hu)).2
    · exact h.ne_zero u x (by simpa [State.setCall, hut] using hu)

/-- A task locks a buffer, and has now to find a slot for it. -/
theorem Books.locked (h : Books d s ls) (ht : Awake s t) (hlock : s.lock b = false)
    (hb : b ≠ 0) : Books d ((s.locked rw b).setCall t (some ⟨rw, b, .slotWait⟩)) ls := by
  have hnot : b ∉ ls.flatten := fun hin => by
    rw [(h.lock b).mpr (.inl hin)] at hlock
    exact absurd hlock (by decide)
  have hfree (u : Nat) (rw' : Rw) : s.call u ≠ some ⟨rw', b, .slotWait⟩ := fun hu => by
    rw [(h.lock b).mpr (.inr ⟨u, rw', hu⟩)] at hlock
    exact absurd hlock (by decide)
  have hcall (u : Nat) (rw' : Rw) (x : Nat) :
      ((s.locked rw b).setCall t (some ⟨rw, b, .slotWait⟩)).call u = some ⟨rw', x, .slotWait⟩ ↔
        u = t ∧ rw' = rw ∧ x = b ∨ s.call u = some ⟨rw', x, .slotWait⟩ := by
    by_cases hu : u = t
    · subst hu
      have hno := ht rw' x
      simp only [State.setCall, State.locked, update_self, hno, or_false, true_and,
        Option.some.injEq, Call.mk.injEq, and_true]
      exact ⟨fun h => ⟨h.1.symm, h.2.symm⟩, fun h => ⟨h.1.symm, h.2.symm⟩⟩
    · simp [State.setCall, State.locked, hu]
  have hwaits (x : Nat) :
      Waits ((s.locked rw b).setCall t (some ⟨rw, b, .slotWait⟩)) x ↔ x = b ∨ Waits s x := by
    simp only [Waits, hcall]
    constructor
    · rintro ⟨u, rw', ⟨-, -, rfl⟩ | hu⟩
      · exact .inl rfl
      · exact .inr ⟨u, rw', hu⟩
    · rintro (rfl | ⟨u, rw', hu⟩)
      · exact ⟨t, rw, .inl ⟨rfl, rfl, rfl⟩⟩
      · exact ⟨u, rw', .inr hu⟩
  have hmem (x : Nat) (hx : x ∈ ls.flatten) : x ≠ b := fun heq => hnot (heq ▸ hx)
  refine ⟨h.linked_of_congr (fun _ _ => rfl)
    (fun x hx => update_of_ne (hmem x hx) _ _)
    (fun x hx => update_of_ne (hmem x hx) _ _), h.nodup, ?_, ?_, h.idle, ?_, ?_, ?_⟩
  · intro x
    rw [hwaits]
    by_cases hx : x = b
    · simp [State.setCall, State.locked, hx]
    · have hsame : ((s.locked rw b).setCall t (some ⟨rw, b, .slotWait⟩)).lock x = s.lock x :=
        update_of_ne hx _ _
      rw [hsame, h.lock x]
      simp [hx]
  · intro x hx
    rcases (hwaits x).mp hx with rfl | hx
    · exact hnot
    · exact h.apart x hx
  · intro u v rw₁ rw₂ x hu hv
    rcases (hcall u rw₁ x).mp hu with ⟨hut, -, hx⟩ | hu'
    · rcases (hcall v rw₂ x).mp hv with ⟨hvt, -, -⟩ | hv'
      · exact hut.trans hvt.symm
      · exact absurd (hx ▸ hv') (hfree v rw₂)
    · rcases (hcall v rw₂ x).mp hv with ⟨-, -, hx⟩ | hv'
      · exact absurd (hx ▸ hu') (hfree u rw₁)
      · exact h.one u v rw₁ rw₂ x hu' hv'
  · intro u rw' x hu
    rcases (hcall u rw' x).mp hu with ⟨-, rfl, rfl⟩ | hu
    · exact update_self _ _ _
    · have hx : x ≠ b := fun heq => hfree u rw' (heq ▸ hu)
      exact (update_of_ne hx _ _).trans (h.asked u rw' x hu)
  · intro u c hu
    by_cases hut : u = t
    · have heq : (⟨rw, b, .slotWait⟩ : Call) = c := by
        simpa [State.setCall, State.locked, hut] using hu
      rw [← heq]
      exact hb
    · exact h.ne_zero u c (by simpa [State.setCall, State.locked, hut] using hu)

/-! ## A buffer leaves the calls -/

/-- The call that waits with the buffer returns. -/
theorem Books.waits_return (h : Books d s ls) (hcall : s.call t = some ⟨rw, b, .slotWait⟩)
    (hc : s'.call = update s.call t none) (x : Nat) :
    Waits s' x ↔ Waits s x ∧ x ≠ b := by
  rw [Waits, Waits, hc]
  constructor
  · rintro ⟨u, rw', hu⟩
    have hut : u ≠ t := by
      rintro rfl
      simp at hu
    rw [update_of_ne hut] at hu
    refine ⟨⟨u, rw', hu⟩, ?_⟩
    rintro rfl
    exact hut (h.one u t rw' rw x hu hcall)
  · rintro ⟨⟨u, rw', hu⟩, hx⟩
    have hut : u ≠ t := by
      rintro rfl
      rw [hcall] at hu
      exact hx (by simpa using (congrArg (Option.map Call.b) hu).symm)
    exact ⟨u, rw', by rwa [update_of_ne hut]⟩

theorem call_of_update {c : Call} {u : Nat} (hc : s'.call = update s.call t none)
    (hu : s'.call u = some c) : s.call u = some c := by
  rw [hc] at hu
  by_cases hut : u = t
  · simp [hut] at hu
  · rwa [update_of_ne hut] at hu

/-- The buffer that waited is in a chain now. -/
theorem Books.gain (h : Books d s ls) (hcall : s.call t = some ⟨rw, b, .slotWait⟩)
    {ls' : List (List Nat)} (hlinked : List.Forall₂ (Linked d s') s'.reqs ls')
    (hperm : ls'.flatten.Perm (b :: ls.flatten)) (hlock : s'.lock = s.lock)
    (hasked : s'.asked = s.asked) (hc : s'.call = update s.call t none)
    (hnext : ∀ x, x ∉ ls'.flatten → s'.reqnext x = s.reqnext x) : Books d s' ls' := by
  have hnot : b ∉ ls.flatten := h.apart b ⟨t, rw, hcall⟩
  have hmem (x : Nat) : x ∈ ls'.flatten ↔ x = b ∨ x ∈ ls.flatten := by
    rw [hperm.mem_iff, List.mem_cons]
  refine ⟨hlinked, hperm.nodup_iff.mpr (List.nodup_cons.mpr ⟨hnot, h.nodup⟩), ?_, ?_, ?_, ?_, ?_, ?_⟩
  · intro x
    rw [hlock, h.lock x, hmem, h.waits_return hcall hc]
    by_cases hx : x = b
    · simp [hx, show Waits s b from ⟨t, rw, hcall⟩]
    · simp [hx]
  · intro x hx hin
    obtain ⟨hw, hne⟩ := (h.waits_return hcall hc x).mp hx
    exact h.apart x hw (((hmem x).mp hin).resolve_left hne)
  · intro x hx
    rw [hnext x hx]
    exact h.idle x fun hin => hx ((hmem x).mpr (.inr hin))
  · intro u v rw₁ rw₂ x hu hv
    exact h.one u v rw₁ rw₂ x (call_of_update hc hu) (call_of_update hc hv)
  · intro u rw' x hu
    rw [hasked]
    exact h.asked u rw' x (call_of_update hc hu)
  · intro u c hu
    exact h.ne_zero u c (call_of_update hc hu)

theorem Books.drop (h : Books d s ls) (hcall : s.call t = some ⟨rw, b, .slotWait⟩) :
    Books d ((s.unlock b).setCall t none) ls := by
  have hnot : b ∉ ls.flatten := h.apart b ⟨t, rw, hcall⟩
  have hc : ((s.unlock b).setCall t none).call = update s.call t none := rfl
  have hmem (x : Nat) (hx : x ∈ ls.flatten) : x ≠ b := fun heq => hnot (heq ▸ hx)
  refine ⟨h.linked_of_congr (fun _ _ => rfl)
    (fun x hx => update_of_ne (hmem x hx) _ _) (fun _ _ => rfl), h.nodup, ?_, ?_, h.idle,
    ?_, ?_, ?_⟩
  · intro x
    rw [h.waits_return hcall hc]
    by_cases hx : x = b
    · simp [State.setCall, State.unlock, hx, hnot]
    · have hsame : ((s.unlock b).setCall t none).lock x = s.lock x := update_of_ne hx _ _
      rw [hsame, h.lock x]
      simp [hx]
  · intro x hx
    exact h.apart x ((h.waits_return hcall hc x).mp hx).1
  · intro u v rw₁ rw₂ x hu hv
    exact h.one u v rw₁ rw₂ x (call_of_update hc hu) (call_of_update hc hv)
  · intro u rw' x hu
    exact h.asked u rw' x (call_of_update hc hu)
  · intro u c hu
    exact h.ne_zero u c (call_of_update hc hu)

/-! ## Steps -/

theorem Books.spare (h : Books d s ls) (hcall : s.call t = some ⟨rw, b, .slotWait⟩)
    (hl : l ⊆ ls.flatten) : Spare d s b rw.isWrite l where
  notMem hin := h.apart b ⟨t, rw, hcall⟩ (hl hin)
  ne_zero := h.ne_zero t _ hcall
  idle := h.idle b (h.apart b ⟨t, rw, hcall⟩)
  lock := (h.lock b).mpr (.inr ⟨t, rw, hcall⟩)
  asked := h.asked t rw b hcall

/-- The chains on both sides of one of them are left alone by a store to a buffer outside. -/
theorem Books.linked_part (h : Books d s ls) {k k' : List (List Nat)} {rs : List Req} {a v : Nat}
    (hls : ls = k ++ l :: k') {part : List (List Nat)} (hpart : part = k ∨ part = k')
    (hlinked : List.Forall₂ (Linked d s) rs part) (ha : a ∈ l ∨ a ∉ ls.flatten)
    (hnext : s'.reqnext = update s.reqnext a v) (hlock : s'.lock = s.lock)
    (hasked : s'.asked = s.asked) : List.Forall₂ (Linked d s') rs part := by
  refine forall₂_imp_of_mem hlinked fun q m hm hq => ?_
  have hne (x : Nat) (hx : x ∈ m) : x ≠ a := by
    rintro rfl
    have hnodup := h.nodup
    have hin : x ∈ ls.flatten := by
      rw [hls]
      rcases hpart with rfl | rfl <;> exact List.mem_flatten.mpr ⟨m, by simp [hm], hx⟩
    rcases ha with ha | ha
    · have hx' : x ∈ part.flatten := List.mem_flatten.mpr ⟨m, hm, hx⟩
      rw [hls, List.flatten_append, List.flatten_cons] at hnodup
      rcases hpart with rfl | rfl
      · exact List.disjoint_of_nodup_append hnodup hx' (List.mem_append_left _ ha)
      · exact List.disjoint_of_nodup_append (List.nodup_append.mp hnodup).2.1 ha hx'
    · exact ha hin
  exact hq.congr (fun x hx => by rw [hnext, update_of_ne (hne x hx)])
    (fun x _ => by rw [hlock]) (fun x _ => by rw [hasked])

/-- What happens to a buffer that has been locked keeps the books. -/
theorem Handed.books (hs : Handed d s t rw b s') (h : Books d s ls)
    (hcall : s.call t = some ⟨rw, b, .slotWait⟩) (hfit : Fits d s rw.isWrite b) :
    ∃ ls', Books d s' ls' := by
  have hnot : b ∉ ls.flatten := h.apart b ⟨t, rw, hcall⟩
  cases hs with
  | @merged q q' r r' next hreqs hr hone =>
    have hall := h.linked
    rw [hreqs] at hall
    obtain ⟨k, l, k', hls, hq, hrl, hq'⟩ := forall₂_split hall
    have hsub : l ⊆ ls.flatten := fun x hx => List.mem_flatten.mpr ⟨l, by simp [hls], hx⟩
    have hb := h.spare hcall hsub
    have hnodup : l.Nodup := by
      have hn := h.nodup
      rw [hls, List.flatten_append, List.flatten_cons] at hn
      exact (List.nodup_append.mp (List.nodup_append.mp hn).2.1).1
    obtain ⟨hdev, hcmd, hnr, ⟨hsec, rfl, rfl⟩ | ⟨hsec, rfl, rfl⟩⟩ := mergeOne_cases hone
    · rw [← hcmd] at hb
      have hne := hfit.behind r hr hdev hcmd hnr hsec
      have htail : r.bhtail ∈ l := List.mem_of_getLast? hrl.last
      refine ⟨k ++ (l ++ [b]) :: k', h.gain hcall (forall₂_join ?_ ?_ ?_) ?_ rfl rfl rfl ?_⟩
      · exact h.linked_part hls (.inl rfl) hq (.inl htail) rfl rfl rfl
      · exact hrl.snoc hnodup hb hdev hsec hnr hfit.numbered hne rfl rfl rfl
      · exact h.linked_part hls (.inr rfl) hq' (.inl htail) rfl rfl rfl
      · rw [hls]
        simp only [List.flatten_append, List.flatten_cons, List.append_assoc, List.singleton_append]
        exact ((List.perm_middle.append_left _).trans List.perm_middle)
      · intro x hx
        refine update_of_ne ?_ _ _
        rintro rfl
        exact hx (List.mem_flatten.mpr ⟨l ++ [b], by simp, List.mem_append_left _ htail⟩)
    · rw [← hcmd] at hb
      have hne := hfit.before r hr hdev hcmd hnr hsec
      refine ⟨k ++ (b :: l) :: k', h.gain hcall (forall₂_join ?_ ?_ ?_) ?_ rfl rfl rfl ?_⟩
      · exact h.linked_part hls (.inl rfl) hq (.inr hnot) rfl rfl rfl
      · exact hrl.cons hb hdev hsec hnr hfit.numbered hne rfl rfl rfl
      · exact h.linked_part hls (.inr rfl) hq' (.inr hnot) rfl rfl rfl
      · rw [hls]
        simp only [List.flatten_append, List.flatten_cons, List.cons_append]
        exact List.perm_middle
      · intro x hx
        refine update_of_ne ?_ _ _
        rintro rfl
        exact hx (List.mem_flatten.mpr ⟨x :: l, by simp, List.mem_cons_self ..⟩)
  | @queued i hfree =>
    have hnew : List.Forall₂ (Linked d { s.setCall t none with
        reqs := addRequest s.plug s.reqs (newReq d i rw.isWrite b)
        used := update s.used i true
        dirt := update s.dirt b false })
        (newReq d i rw.isWrite b :: s.reqs) ([b] :: ls) := by
      refine .cons ?_ ?_
      · exact linked_newReq (h.spare hcall (List.nil_subset _)) hfit.numbered rfl rfl rfl
      · exact h.linked_of_congr (fun _ _ => rfl) (fun _ _ => rfl) (fun _ _ => rfl)
    obtain ⟨ls', hlinked, hperm⟩ := List.perm_comp_forall₂ addRequest_perm hnew
    exact ⟨ls', h.gain hcall hlinked hperm.flatten rfl rfl rfl fun _ _ => rfl⟩
  | dropped hahead => exact ⟨ls, h.drop hcall⟩
  | waits =>
    rw [setCall_self hcall]
    exact ⟨ls, h⟩

theorem Tried.books (hs : Tried d s t rw b s') (h : Books d s ls) (ht : Awake s t) (hb : b ≠ 0)
    (hfit : s.lock b = false → Requests.clean s rw b = false → Fits d s rw.isWrite b) :
    ∃ ls', Books d s' ls' := by
  cases hs with
  | lockWait => exact ⟨ls, h.setCall ht fun x hx => by cases hx; exact ⟨rfl, hb⟩⟩
  | clean hlock =>
    have hsame : s.unlock b = s := by rw [State.unlock, ← hlock, update_eq_self]
    rw [hsame]
    exact ⟨ls, h.setCall ht nofun⟩
  | handed hlock hclean hh =>
    have hfit' := hfit hlock hclean
    exact (hh.setCall (some ⟨rw, b, .slotWait⟩)).books (h.locked ht hlock hb)
      (update_self _ _ _) ⟨hfit'.numbered, hfit'.behind, hfit'.before⟩

theorem Books.frame (h : Books d s ls) (hreqs : s'.reqs = s.reqs) (hlock : s'.lock = s.lock)
    (hnext : s'.reqnext = s.reqnext) (hasked : s'.asked = s.asked) (hcall : s'.call = s.call) :
    Books d s' ls := by
  have hwaits (x : Nat) : Waits s' x ↔ Waits s x := by rw [Waits, Waits, hcall]
  refine ⟨?_, h.nodup, ?_, ?_, ?_, ?_, ?_, ?_⟩
  · rw [hreqs]
    exact h.linked_of_congr (fun _ _ => by rw [hnext]) (fun _ _ => by rw [hlock])
      (fun _ _ => by rw [hasked])
  · intro x
    rw [hwaits, hlock]
    exact h.lock x
  · intro x hx
    exact h.apart x ((hwaits x).mp hx)
  · rw [hnext]
    exact h.idle
  · rw [hcall]
    exact h.one
  · rw [hcall, hasked]
    exact h.asked
  · rw [hcall]
    exact h.ne_zero

/-! ## The driver takes a buffer -/

/-- The request as the driver has moved it on. -/
def moved (d : Device) (r : Req) : Req :=
  { r with
    sector := r.sector + d.count r.bh
    nrSectors := r.nrSectors - d.count r.bh }

/-- The request goes on with the next buffer of its chain. -/
theorem Linked.advance {b' : Nat} (h : Linked d s r (b :: b' :: l)) (hnodup : (b :: b' :: l).Nodup)
    (hnext : s'.reqnext = update s.reqnext b 0)
    (hlock : s'.lock = update s.lock b false) (hasked : s'.asked = s.asked) :
    Linked d s' (advance d (moved d r) b') (b' :: l) := by
  obtain ⟨hb, hb0, hb', hb'0, hl⟩ := h.threads
  have hnot : b ∉ b' :: l := (List.nodup_cons.mp hnodup).1
  have hdevb : (d.bh b).dev = r.dev := h.dev b (by simp)
  have hdevb' : (d.bh b').dev = r.dev := h.dev b' (by simp)
  have hblocks := h.blocks
  simp only [List.map_cons, List.length_cons, List.range'_succ, List.cons.injEq] at hblocks
  have hnum := h.numbered
  have hsec := h.sector
  have hnr := h.nrSectors
  have hnrlt := r.nrSectors.isLt
  simp only [List.length_cons] at hnum hnr
  have hmsec : (moved d r).sector.toNat =
      ((d.bh r.bh).blocknr.toNat + 1) * (d.blockSize r.dev).count := by
    rw [moved, BitVec.toNat_add, toNat_count, Device.size, hb, hdevb, hsec, hb]
    rw [hb] at hnum
    generalize d.blockSize r.dev = z at *
    cases z <;> simp only [BlockSize.count, BlockSize.bytes] at * <;> omega
  have hmnr : (moved d r).nrSectors.toNat = (l.length + 1) * (d.blockSize r.dev).count := by
    rw [moved, BitVec.toNat_sub, toNat_count, Device.size, hb, hdevb]
    generalize d.blockSize r.dev = z at *
    cases z <;> simp only [BlockSize.count, BlockSize.bytes] at * <;> omega
  have hmany : ¬ (moved d r).nrSectors < d.count b' := by
    rw [BitVec.lt_def, hmnr, toNat_count, Device.size, hdevb', Nat.succ_mul]
    omega
  rw [Requests.advance, if_neg hmany]
  refine ⟨?_, ?_, fun x hx => h.dev x (List.mem_cons_of_mem _ hx), ?_, ?_, ?_, ?_, ?_, ?_, ?_, rfl⟩
  · rw [hnext]
    exact Threads.update ⟨rfl, hb'0, hl⟩ hnot
  · have hlast := h.last
    rwa [List.getLast?_cons_cons] at hlast
  · intro x hx
    have hne : x ≠ b := fun heq => hnot (heq ▸ hx)
    rw [hlock, update_of_ne hne]
    exact h.locked x (List.mem_cons_of_mem _ hx)
  · intro x hx
    rw [hasked]
    exact h.asked x (List.mem_cons_of_mem _ hx)
  · rw [List.map_cons, List.length_cons, List.range'_succ, hblocks.2.1, hblocks.2.2]
  · rw [hblocks.2.1]
    exact hmsec
  · rw [List.length_cons]
    exact hmnr
  · rw [List.length_cons, hblocks.2.1, Nat.add_right_comm, Nat.add_assoc]
    exact hnum
  · rw [toNat_count, Device.size, hdevb']
    rfl

/-- The buffer has been transferred. -/
def State.released (s : State) (b : Nat) : State :=
  { s.unlock b with
    reqnext := update s.reqnext b 0
    uptodate := update s.uptodate b true }

theorem transfer_eq (d : Device) {rs : List Req} (hq : s.reqs = r :: rs) (hbh : r.bh ≠ 0) :
    transfer d s = if s.reqnext r.bh = 0 then complete (s.released r.bh) (moved d r) rs
      else { s.released r.bh with reqs := advance d (moved d r) (s.reqnext r.bh) :: rs } := by
  rw [transfer, hq]
  simp only [endRequest, if_true, hbh, if_false]
  rfl

theorem Books.lose (h : Books d s ls) {ls' : List (List Nat)}
    (hlinked : List.Forall₂ (Linked d s') s'.reqs ls') (hflat : ls.flatten = b :: ls'.flatten)
    (hlock : s'.lock = update s.lock b false)
    (hnext : s'.reqnext = update s.reqnext b 0) (hasked : s'.asked = s.asked)
    (hcall : s'.call = s.call) : Books d s' ls' := by
  have hnodup := h.nodup
  rw [hflat, List.nodup_cons] at hnodup
  have hwaits (x : Nat) : Waits s' x ↔ Waits s x := by rw [Waits, Waits, hcall]
  have hwb : ¬ Waits s b := fun hw => h.apart b hw (by rw [hflat]; exact List.mem_cons_self ..)
  refine ⟨hlinked, hnodup.2, ?_, ?_, ?_, ?_, ?_, ?_⟩
  · intro x
    rw [hwaits, hlock]
    by_cases hx : x = b
    · simp [hx, hnodup.1, hwb]
    · rw [update_of_ne hx, h.lock x, hflat]
      simp [hx]
  · intro x hx hin
    refine h.apart x ((hwaits x).mp hx) ?_
    rw [hflat]
    exact List.mem_cons_of_mem _ hin
  · intro x hx
    rw [hnext]
    by_cases hxb : x = b
    · rw [hxb, update_self]
    · rw [update_of_ne hxb]
      refine h.idle x ?_
      rw [hflat]
      simp [hxb, hx]
  · rw [hcall]
    exact h.one
  · rw [hcall, hasked]
    exact h.asked
  · rw [hcall]
    exact h.ne_zero

/-- The driver is done with the first buffer of the request at the head. -/
theorem Books.transfer (h : Books d s ls) : ∃ ls', Books d (transfer d s) ls' := by
  cases hq : s.reqs with
  | nil =>
    have hnone : Requests.transfer d s = s := by rw [Requests.transfer, hq]
    rw [hnone]
    exact ⟨ls, h⟩
  | cons r rs =>
    have hall := h.linked
    rw [hq] at hall
    obtain _ | ⟨hr, hrest⟩ := hall
    rename_i l ls₀
    obtain ⟨l', rfl, hbh⟩ := hr.exists_cons
    have hnodup := h.nodup
    rw [List.flatten_cons, List.cons_append, List.nodup_cons] at hnodup
    have hothers : List.Forall₂ (Linked d (s.released r.bh)) rs ls₀ := by
      refine forall₂_imp_of_mem hrest fun q m hm hlq => ?_
      have hne (x : Nat) (hx : x ∈ m) : x ≠ r.bh := by
        rintro rfl
        exact hnodup.1 (List.mem_append_right _ (List.mem_flatten.mpr ⟨m, hm, hx⟩))
      exact hlq.congr (fun x hx => update_of_ne (hne x hx) _ _)
        (fun x hx => update_of_ne (hne x hx) _ _) (fun _ _ => rfl)
    rw [transfer_eq d hq hbh]
    cases l' with
    | nil =>
      have hend : s.reqnext r.bh = 0 := hr.threads.2.2
      rw [if_pos hend]
      refine ⟨ls₀, h.lose ?_ rfl rfl rfl rfl rfl⟩
      exact forall₂_imp_of_mem hothers fun q m _ hlq =>
        hlq.congr (fun _ _ => rfl) (fun _ _ => rfl) (fun _ _ => rfl)
    | cons b' l'' =>
      obtain ⟨-, -, hb', hb'0, -⟩ := hr.threads
      rw [if_neg (by rwa [hb']), hb']
      have hchain : (r.bh :: b' :: l'').Nodup := by
        refine h.nodup.sublist ?_
        rw [List.flatten_cons]
        exact List.sublist_append_left _ _
      refine ⟨(b' :: l'') :: ls₀, h.lose (.cons ?_ ?_) rfl rfl rfl rfl rfl⟩
      · exact hr.advance hchain rfl rfl rfl
      · exact forall₂_imp_of_mem hothers fun q m _ hlq =>
          hlq.congr (fun _ _ => rfl) (fun _ _ => rfl) (fun _ _ => rfl)

/-! ## Runs -/

theorem step_books (h : Books d s ls) {e : Event} (hfit : NoWrap d s e)
    (he : step d s e = some s') : ∃ ls', Books d s' ls' := by
  cases e with
  | make t rw b =>
    obtain ⟨⟨hidle, hb⟩, ⟨⟩⟩ := Option.ite_none_right_eq_some.mp he
    have hawake : Awake s t := fun rw' b' hc => by simp [hidle] at hc
    have hmade := @makeRequest_made d s t b rw
    generalize makeRequest d s t rw b = s₁ at hmade
    cases hmade with
    | ignored => exact ⟨ls, h⟩
    | tooBig => exact ⟨ls, h.frame rfl rfl rfl rfl rfl⟩
    | tried hbig ht =>
      refine ht.books h hawake hb fun hlock hclean => hfit b rw.isWrite ?_
      simp [handed, hbig, hlock, hclean]
  | resume t =>
    obtain ⟨⟨rw, b, phase⟩, hc, rfl⟩ := Option.map_eq_some_iff.mp he
    cases phase with
    | lockWait =>
      have hawake : Awake s t := fun rw' b' hc' => by simp [hc] at hc'
      have htried := @takeLock_tried d s t b rw
      refine htried.books h hawake (h.ne_zero t _ hc) fun hlock hclean => hfit b rw.isWrite ?_
      simp [handed, hc, hlock, hclean]
    | slotWait =>
      have hhanded := @takeSlot_handed d s t b rw
      refine hhanded.books h hc (hfit b rw.isWrite ?_)
      simp [handed, hc]
  | transfer =>
    obtain ⟨-, ⟨⟩⟩ := Option.ite_none_right_eq_some.mp he
    exact h.transfer
  | plug k =>
    obtain ⟨-, ⟨⟩⟩ := Option.ite_none_right_eq_some.mp he
    exact ⟨ls, h.frame rfl rfl rfl rfl rfl⟩
  | unplug =>
    obtain ⟨-, ⟨⟩⟩ := Option.ite_none_left_eq_some.mp he
    exact ⟨ls, h.frame rfl rfl rfl rfl rfl⟩
  | slots l | touch b dirt uptodate =>
    obtain rfl := Option.some.inj he
    exact ⟨ls, h.frame rfl rfl rfl rfl rfl⟩

/-- **Merged requests are contiguous.**  In every run in which no sector number wraps around, each
request has a chain of distinct locked buffers of its device and direction, whose blocks are
consecutive and whose sectors are those of the request, and every buffer that is locked is in exactly
one of them or waits for a slot. -/
theorem requests_contiguous {d : Device} {s : State} (h : Reach (step d) (NoWrap d) start s) :
    Contiguous d s := by
  have hbooks : ∃ ls, Books d s ls := by
    refine h.invariant (I := fun s => ∃ ls, Books d s ls) ⟨[], books_start d⟩ ?_
    rintro s e s' ⟨ls, hls⟩ hfit he
    exact step_books hls hfit he
  obtain ⟨ls, hls⟩ := hbooks
  exact hls.contiguous

end Steps

/-! ## Two runs -/

instance (d : Device) (s : State) (cmd : Bool) (b : Nat) : Decidable (Fits d s cmd b) :=
  decidable_of_iff
    (blockEnd d b ≤ 2 ^ 32 ∧
      (∀ r ∈ candidates d s, r.dev = (d.bh b).dev → r.cmd = cmd → r.nrSectors < 254 →
        r.sector + r.nrSectors = d.sector b → d.sector b ≠ 0) ∧
      ∀ r ∈ candidates d s, r.dev = (d.bh b).dev → r.cmd = cmd → r.nrSectors < 254 →
        r.sector - d.count b = d.sector b → r.sector ≠ 0)
    ⟨fun ⟨h1, h2, h3⟩ => ⟨h1, h2, h3⟩, fun ⟨h1, h2, h3⟩ => ⟨h1, h2, h3⟩⟩

def noWrapb (d : Device) (s : State) (e : Event) : Bool :=
  match handed d s e with
  | none => true
  | some (b, cmd) => decide (Fits d s cmd b)

theorem noWrapb_sound (d : Device) (s : State) (e : Event) (h : noWrapb d s e = true) :
    NoWrap d s e := by
  intro b cmd hb
  rw [noWrapb, hb] at h
  exact of_decide_eq_true h

/-- A disk of 1000 blocks of 1024 bytes.  The buffer 4 is for the block 2147483648, the others for
the blocks of their numbers. -/
def thousandBlocks : Device where
  major := 3
  bh b := ⟨0x300, if b = 4 then 2147483648 else BitVec.ofNat 32 b, 1024 * b⟩
  blkSize _ := some 1000
  blksizeSize _ := none

/-- Three blocks are read, the last one first, and the middle one is done when the driver has gone
on to it. -/
def threeBlocks : List Event :=
  [.plug ⟨false, -1, 0⟩, .make 0 .read 7, .make 0 .read 6, .make 0 .read 5, .unplug, .transfer]

theorem requests_contiguous_three :
    ∃ s, execOkFrom (step thousandBlocks) (noWrapb thousandBlocks) start threeBlocks = some s ∧
      s.reqs.map (fun r => (r.bh, r.sector, r.nrSectors)) = [(6, 12, 4)] ∧
      Contiguous thousandBlocks s := by
  obtain ⟨s, hs⟩ : ∃ s, execOkFrom (step thousandBlocks) (noWrapb thousandBlocks) start
      threeBlocks = some s := Option.isSome_iff_exists.mp (by decide +kernel)
  have hreqs : (execOkFrom (step thousandBlocks) (noWrapb thousandBlocks) start threeBlocks).map
      (fun s => s.reqs.map (fun r => (r.bh, r.sector, r.nrSectors))) =
        some [(6, 12, 4)] := by decide +kernel
  rw [hs] at hreqs
  exact ⟨s, hs, Option.some.inj hreqs,
    requests_contiguous (Reach.of_execOkFrom (noWrapb_sound thousandBlocks) .init hs)⟩

/-- The block 2147483648 is taken for the block 0, and the block 1 is put behind it. -/
theorem requests_join_across_wrap :
    ∃ s, execFrom (step thousandBlocks) start
      [.plug ⟨false, -1, 0⟩, .make 0 .read 4, .make 0 .read 1] = some s ∧
        ¬ Contiguous thousandBlocks s := by
  refine ⟨_, rfl, ?_⟩
  rintro ⟨ls, hls, -⟩
  obtain _ | ⟨hr, -⟩ := hls
  rename_i l ls
  have hl : l = [4, 1] := hr.threads.unique ⟨rfl, by decide, rfl, by decide, rfl⟩
  subst hl
  exact absurd hr.blocks (by decide)

end LinuxEvocation.Requests
