import LinuxEvocation.Kernel.Block.Handover
import LinuxEvocation.Lib.Masks
import LinuxEvocation.Lib.Transition

/-!
# The sectors of the requests

The numbers of the sectors are computed in 32 bits, from the numbers of the blocks and from the
sizes of the blocks and of the device.

* `error_skip_exact` — after an error the request goes on at the first sector of its next buffer
  exactly if the error was near enough to the end of the block.
* `block_io_exact` — for which block numbers the sectors are those of the block, on the device.
-/

namespace LinuxEvocation.Requests

open Function (update update_of_ne update_self)
open Transition
open Block (Rw)
open LinkedList (Threads)

/-! ## Sectors of a block -/

theorem BlockSize.count_eq_two_pow (z : BlockSize) : ∃ k ≤ 3, z.count = 2 ^ k := by
  cases z
  · exact ⟨0, by decide, rfl⟩
  · exact ⟨1, by decide, rfl⟩
  · exact ⟨2, by decide, rfl⟩
  · exact ⟨3, by decide, rfl⟩

theorem BlockSize.count_pos (z : BlockSize) : 0 < z.count := by cases z <;> decide

theorem BlockSize.count_le (z : BlockSize) : z.count ≤ 8 := by cases z <;> decide

@[simp]
theorem toNat_count (d : Device) (b : Nat) : (d.count b).toNat = (d.size b).count := by
  have h := (d.size b).count_le
  exact Nat.mod_eq_of_lt (by omega)

theorem toNat_and_not_sectorMask (d : Device) (dev : Nat) (x : BitVec 32) :
    (x &&& ~~~ d.sectorMask dev).toNat =
      x.toNat / (d.blockSize dev).count * (d.blockSize dev).count := by
  obtain ⟨k, -, hk⟩ := (d.blockSize dev).count_eq_two_pow
  rw [Device.sectorMask, hk]
  exact Masks.toNat_and_not_mask x k

theorem toNat_sector (d : Device) (b : Nat) :
    (d.sector b).toNat = (d.bh b).blocknr.toNat * (d.size b).count % 2 ^ 32 := by
  rw [Device.sector, BitVec.toNat_mul, toNat_count]

/-! ## The skip after an error -/

/-- A request in service: its buffers are consecutive blocks from `n` on, the next sector lies in the
first of them, and the last sector is the last one of the last of them. -/
structure InService (d : Device) (s : State) (r : Req) (n : Nat) (bs : List Nat) : Prop where
  threads : Threads 0 s.reqnext r.bh bs
  dev : ∀ b ∈ bs, (d.bh b).dev = r.dev
  blocks : bs.map (fun b => (d.bh b).blocknr.toNat) = List.range' n bs.length
  inside : n * (d.blockSize r.dev).count ≤ r.sector.toNat ∧
    r.sector.toNat < (n + 1) * (d.blockSize r.dev).count
  upTo : r.sector.toNat + r.nrSectors.toNat = (n + bs.length) * (d.blockSize r.dev).count
  numbered : (n + bs.length) * (d.blockSize r.dev).count ≤ 2 ^ 32

/-- The request at the head begins with the first sector of the first of the buffers, and is for as
many sectors as they have. -/
def Aligned (d : Device) (s : State) (bs : List Nat) : Prop :=
  ∃ r rs, s.reqs = r :: rs ∧ Threads 0 s.reqnext r.bh bs ∧
    r.sector.toNat = (d.bh r.bh).blocknr.toNat * (d.blockSize r.dev).count ∧
    r.nrSectors.toNat = bs.length * (d.blockSize r.dev).count

/-- How far the request has come in the block `n`. -/
def progress (d : Device) (r : Req) (n : Nat) : Nat := r.sector.toNat - n * (d.blockSize r.dev).count

theorem endRequest_error (d : Device) {s : State} {r : Req} {rs : List Req}
    (hq : s.reqs = r :: rs) (hbh : r.bh ≠ 0) (hnext : s.reqnext r.bh ≠ 0) :
    endRequest d s false =
      { s.unlock r.bh with
        reqnext := update s.reqnext r.bh 0
        uptodate := update s.uptodate r.bh false
        reqs := advance d (skip d r) (s.reqnext r.bh) :: rs } := by
  simp [endRequest, hq, skip, hbh, hnext]

namespace InService

variable {d : Device} {s : State} {r : Req} {n : Nat} {bs : List Nat}

/-- The sectors that are left are those of the blocks behind the first. -/
theorem toNat_nrSectors_skip (h : InService d s r n bs) (hlen : 1 ≤ bs.length) :
    (skip d r).nrSectors.toNat = (bs.length - 1) * (d.blockSize r.dev).count := by
  obtain ⟨hlo, hhi⟩ := h.inside
  have hto := h.upTo
  have hnr := r.nrSectors.isLt
  have hone : (1 : BitVec 32).toNat = 1 := rfl
  rw [skip, toNat_and_not_sectorMask, BitVec.toNat_sub, hone]
  generalize d.blockSize r.dev = z at *
  cases z <;> simp only [BlockSize.count, BlockSize.bytes] at * <;> omega

/-- Two sectors on, rounded down, is the beginning of the next block only from near its end. -/
theorem toNat_sector_skip (h : InService d s r n bs) (hlen : 2 ≤ bs.length) :
    (skip d r).sector.toNat = (n + 1) * (d.blockSize r.dev).count ↔
      (d.blockSize r.dev).count ≠ 1 ∧ (d.blockSize r.dev).count ≤ progress d r n + 2 := by
  obtain ⟨hlo, hhi⟩ := h.inside
  have hnum := h.numbered
  have htwo : (2 : BitVec 32).toNat = 2 := rfl
  rw [skip, toNat_and_not_sectorMask, BitVec.toNat_add, htwo, progress]
  generalize d.blockSize r.dev = z at *
  cases z <;> simp only [BlockSize.count, BlockSize.bytes] at * <;> omega

theorem exists_cons_cons (hlen : 2 ≤ bs.length) : ∃ b b' l, bs = b :: b' :: l := by
  match bs, hlen with
  | b :: b' :: l, _ => exact ⟨b, b', l, rfl⟩

end InService

/-- **Exactly when the skip is aligned.**  After an error in a request that has more than one buffer
left, what is left of it begins with the first sector of the next buffer and has the sectors of the
buffers that remain, if and only if a block has more than one sector and at most two of them were
left in the block of the error. -/
theorem error_skip_exact {d : Device} {s : State} {r : Req} {rs : List Req} {n : Nat}
    {bs : List Nat} (hq : s.reqs = r :: rs) (h : InService d s r n bs) (hlen : 2 ≤ bs.length) :
    Aligned d (endRequest d s false) bs.tail ↔
      (d.blockSize r.dev).count ≠ 1 ∧ (d.blockSize r.dev).count ≤ progress d r n + 2 := by
  rw [← h.toNat_sector_skip hlen]
  have hnr := h.toNat_nrSectors_skip (by omega)
  obtain ⟨b, b', l, rfl⟩ := InService.exists_cons_cons hlen
  have hnodup := h.threads.nodup
  obtain ⟨hb, hb0, hb', hb'0, hl⟩ := h.threads
  have hend := endRequest_error d hq (by rwa [hb]) (by rwa [hb, hb'])
  have hblock : (d.bh b').blocknr.toNat = n + 1 := by
    have hblocks := h.blocks
    simp only [List.map_cons, List.length_cons, List.range'_succ, List.cons.injEq] at hblocks
    exact hblocks.2.1
  -- the request has enough sectors for the next buffer
  have henough : ¬ (skip d r).nrSectors < d.count b' := by
    rw [BitVec.lt_def, hnr, toNat_count, Device.size, h.dev b' (by simp)]
    simp only [List.length_cons, Nat.add_sub_cancel, Nat.succ_mul]
    omega
  have hadv : advance d (skip d r) b' =
      { skip d r with bh := b', currentNrSectors := d.count b', buffer := (d.bh b').data } := by
    rw [advance, if_neg henough]
  have hthreads : Threads 0 (update s.reqnext b 0) b' (b' :: l) :=
    Threads.update ⟨rfl, hb'0, hl⟩ (List.nodup_cons.mp hnodup).1
  rw [hend, hb, hb', hadv, Aligned]
  constructor
  · rintro ⟨r', rs', heq, -, hsec, -⟩
    obtain ⟨rfl, -⟩ := List.cons.inj heq
    rw [← hblock]
    exact hsec
  · intro hsec
    refine ⟨_, rs, rfl, hthreads, ?_, ?_⟩
    · rw [← hblock] at hsec
      exact hsec
    · exact hnr

/-- Two buffers at the addresses 1 and 2, for the blocks 5 and 6 of a disk. -/
def disk (z : BlockSize) : Device where
  major := 3
  bh b := ⟨0x300, BitVec.ofNat 32 (b + 4), 0⟩
  blkSize _ := some 1000
  blksizeSize _ := some z

/-- The request for both of them, of which nothing has been transferred. -/
def bothBuffers (z : BlockSize) : Req where
  slot := 0
  dev := 0x300
  cmd := false
  sector := BitVec.ofNat 32 (5 * z.count)
  nrSectors := BitVec.ofNat 32 (2 * z.count)
  currentNrSectors := BitVec.ofNat 32 z.count
  buffer := 0
  bh := 1
  bhtail := 2

def inTransfer (z : BlockSize) : State :=
  { start with
    lock := fun b => decide (b = 1 ∨ b = 2)
    reqnext := fun b => if b = 1 then 2 else 0
    reqs := [bothBuffers z] }

theorem inService_bothBuffers (z : BlockSize) :
    InService (disk z) (inTransfer z) (bothBuffers z) 5 [1, 2] where
  threads := ⟨rfl, by decide, rfl, by decide, rfl⟩
  dev := by simp [disk, bothBuffers]
  blocks := rfl
  inside := by cases z <;> decide
  upTo := by cases z <;> decide
  numbered := by cases z <;> decide

theorem error_skip_exact_1024 :
    Aligned (disk .b1024) (endRequest (disk .b1024) (inTransfer .b1024) false) [2] :=
  (error_skip_exact rfl (inService_bothBuffers .b1024) (by decide)).mpr (by decide)

/-- With blocks of 512 bytes the request goes on one sector too far, with blocks of 4096 bytes at the
beginning of the block of the error. -/
theorem error_skip_misses :
    InService (disk .b512) (inTransfer .b512) (bothBuffers .b512) 5 [1, 2] ∧
    ¬ Aligned (disk .b512) (endRequest (disk .b512) (inTransfer .b512) false) [2] ∧
    InService (disk .b4096) (inTransfer .b4096) (bothBuffers .b4096) 5 [1, 2] ∧
    ¬ Aligned (disk .b4096) (endRequest (disk .b4096) (inTransfer .b4096) false) [2] := by
  have hsector (z : BlockSize) (h : Aligned (disk z) (endRequest (disk z) (inTransfer z) false) [2]) :
      (skip (disk z) (bothBuffers z)).sector.toNat = 6 * z.count := by
    obtain ⟨r, rs, hq, -, hsec, -⟩ := h
    rw [endRequest_error (disk z) rfl (by simp [bothBuffers])
      (by simp [inTransfer, bothBuffers])] at hq
    obtain ⟨rfl, -⟩ := List.cons.inj hq
    exact hsec
  refine ⟨inService_bothBuffers .b512, ?_, inService_bothBuffers .b4096, ?_⟩
  · intro h
    exact absurd (hsector .b512 h) (by decide)
  · intro h
    exact absurd (hsector .b4096 h) (by decide)

/-! ## New requests -/

/-- The requests of the queue have slots of their own, and the calls that sleep have passed the
test. -/
structure Tidy (d : Device) (s : State) : Prop where
  slots : ∀ r ∈ s.reqs, s.used r.slot = true
  nodup : (s.reqs.map Req.slot).Nodup
  asleep : ∀ t c, s.call t = some c → d.tooBig c.b = false

/-- The requests that are new are for one buffer that has passed the test. -/
def OnlyNew (d : Device) (s s' : State) : Prop :=
  ∀ r ∈ s'.reqs, s.used r.slot = false → ∃ i cmd b, r = newReq d i cmd b ∧ d.tooBig b = false

section Steps

variable {d : Device} {s s' : State} {t b : Nat} {rw : Rw}

theorem tidy_start : Tidy d start := ⟨nofun, List.nodup_nil, nofun⟩

theorem Tidy.unlock (h : Tidy d s) (b : Nat) : Tidy d (s.unlock b) := ⟨h.slots, h.nodup, h.asleep⟩

theorem Tidy.setCall_none (h : Tidy d s) (t : Nat) : Tidy d (s.setCall t none) where
  slots := h.slots
  nodup := h.nodup
  asleep := by
    intro u c hc
    by_cases hu : u = t
    · simp [State.setCall, hu] at hc
    · exact h.asleep u c (by simpa [State.setCall, hu] using hc)

theorem Tidy.setCall_some (h : Tidy d s) (t : Nat) {c : Call} (hc : d.tooBig c.b = false) :
    Tidy d (s.setCall t (some c)) where
  slots := h.slots
  nodup := h.nodup
  asleep := by
    intro u c' hc'
    by_cases hu : u = t
    · have heq : c = c' := by simpa [State.setCall, hu] using hc'
      rwa [← heq]
    · exact h.asleep u c' (by simpa [State.setCall, hu] using hc')

/-- A request that has the slot of one that was there. -/
theorem Tidy.used_of_slot (h : Tidy d s) {i : Nat} (hi : i ∈ s.reqs.map Req.slot) :
    s.used i = true := by
  obtain ⟨q, hq, rfl⟩ := List.mem_map.mp hi
  exact h.slots q hq

/-- The requests have the slots of before. -/
theorem Tidy.of_slots (h : Tidy d s) (hcall : s'.call = s.call) (hused : s'.used = s.used)
    (hslots : s'.reqs.map Req.slot = s.reqs.map Req.slot) : Tidy d s' where
  slots := by
    intro r hr
    rw [hused]
    exact h.used_of_slot (hslots ▸ List.mem_map_of_mem hr)
  nodup := by
    rw [hslots]
    exact h.nodup
  asleep := by
    rw [hcall]
    exact h.asleep

theorem Tidy.onlyNew (h : Tidy d s) (hsub : s'.reqs.map Req.slot ⊆ s.reqs.map Req.slot) :
    OnlyNew d s s' := by
  intro r hr hfree
  rw [h.used_of_slot (hsub (List.mem_map_of_mem hr))] at hfree
  exact absurd hfree (by decide)

theorem Handed.tidy (hs : Handed d s t rw b s') (h : Tidy d s) (hb : d.tooBig b = false) :
    Tidy d s' ∧ OnlyNew d s s' := by
  cases hs with
  | @merged l l' r r' next hreqs hr hone =>
    have hslots : (l ++ r' :: l').map Req.slot = s.reqs.map Req.slot := by
      simp [hreqs, mergeOne_slot hone]
    exact ⟨(h.setCall_none t).of_slots rfl rfl hslots, h.onlyNew fun _ hi => hslots ▸ hi⟩
  | @queued i hfree =>
    have hperm := @addRequest_perm s.plug s.reqs (newReq d i rw.isWrite b)
    have hnot : i ∉ s.reqs.map Req.slot := by
      intro hi
      rw [h.used_of_slot hi] at hfree
      exact absurd hfree (by decide)
    refine ⟨⟨?_, ?_, (h.setCall_none t).asleep⟩, ?_⟩
    · intro r hr
      rcases List.mem_cons.mp (hperm.mem_iff.mp hr) with rfl | hr
      · exact update_self _ _ _
      · have hne : r.slot ≠ i := by
          intro heq
          exact hnot (heq ▸ List.mem_map_of_mem hr)
        exact (update_of_ne hne _ _).trans (h.slots r hr)
    · refine (hperm.map Req.slot).nodup_iff.mpr ?_
      exact List.nodup_cons.mpr ⟨hnot, h.nodup⟩
    · intro r hr hused
      rcases List.mem_cons.mp (hperm.mem_iff.mp hr) with rfl | hr
      · exact ⟨i, rw.isWrite, b, rfl, hb⟩
      · exact absurd (h.slots r hr) (by simp [hused])
  | dropped hahead =>
    exact ⟨(h.unlock b).setCall_none t, h.onlyNew fun _ hr => hr⟩
  | waits => exact ⟨h.setCall_some t hb, h.onlyNew fun _ hr => hr⟩

theorem Tried.tidy (hs : Tried d s t rw b s') (h : Tidy d s) (hb : d.tooBig b = false) :
    Tidy d s' ∧ OnlyNew d s s' := by
  cases hs with
  | lockWait => exact ⟨h.setCall_some t hb, h.onlyNew fun _ hr => hr⟩
  | clean => exact ⟨(h.unlock b).setCall_none t, h.onlyNew fun _ hr => hr⟩
  | handed _ _ hh =>
    have hl : Tidy d (s.locked rw b) := ⟨h.slots, h.nodup, h.asleep⟩
    exact hh.tidy hl hb

theorem Made.tidy (hs : Made d s t rw b s') (h : Tidy d s) : Tidy d s' ∧ OnlyNew d s s' := by
  cases hs with
  | ignored => exact ⟨h, h.onlyNew fun _ hr => hr⟩
  | tooBig => exact ⟨⟨h.slots, h.nodup, h.asleep⟩, h.onlyNew fun _ hr => hr⟩
  | tried hbig ht => exact ht.tidy h hbig

/-- The slot of the request at the head becomes free. -/
theorem Tidy.complete {r q : Req} {rs : List Req} (h : Tidy d s) (hq : s.reqs = r :: rs)
    (hslot : q.slot = r.slot) : Tidy d (complete s q rs) where
  slots := by
    have hnodup := h.nodup
    rw [hq, List.map_cons, List.nodup_cons] at hnodup
    intro p hp
    have hne : p.slot ≠ q.slot := by
      rw [hslot]
      intro heq
      exact hnodup.1 (heq ▸ List.mem_map_of_mem hp)
    refine (update_of_ne hne _ _).trans (h.slots p ?_)
    rw [hq]
    exact List.mem_cons_of_mem _ hp
  nodup := by
    have hnodup := h.nodup
    rw [hq, List.map_cons, List.nodup_cons] at hnodup
    exact hnodup.2
  asleep := h.asleep

theorem endRequest_tidy (h : Tidy d s) (u : Bool) :
    Tidy d (endRequest d s u) ∧ (endRequest d s u).reqs.map Req.slot ⊆ s.reqs.map Req.slot := by
  unfold endRequest
  split
  case _ => exact ⟨h, fun _ hi => hi⟩
  case _ r rs hq =>
    have hslot : (if u = true then r else skip d r).slot = r.slot := by cases u <;> rfl
    generalize (if u = true then r else skip d r) = q at hslot
    have htail : rs.map Req.slot ⊆ s.reqs.map Req.slot := by
      rw [hq, List.map_cons]
      exact List.subset_cons_self _ _
    have hs : Tidy d { s.unlock q.bh with
        reqnext := update s.reqnext q.bh 0
        uptodate := update s.uptodate q.bh u } := ⟨h.slots, h.nodup, h.asleep⟩
    simp only
    split
    case isTrue => exact ⟨h.complete hq hslot, htail⟩
    case isFalse =>
      split
      case isTrue => exact ⟨hs.complete hq hslot, htail⟩
      case isFalse =>
        have hslots : (advance d q (s.reqnext q.bh) :: rs).map Req.slot = s.reqs.map Req.slot := by
          simp [hq, advance, hslot]
        exact ⟨hs.of_slots rfl rfl hslots, fun _ hi => hslots ▸ hi⟩

theorem step_tidy (h : Tidy d s) {e : Event} (he : step d s e = some s') :
    Tidy d s' ∧ OnlyNew d s s' := by
  cases e with
  | make t rw b =>
    obtain ⟨-, ⟨⟩⟩ := Option.ite_none_right_eq_some.mp he
    exact makeRequest_made.tidy h
  | resume t =>
    obtain ⟨⟨rw, b, phase⟩, hc, rfl⟩ := Option.map_eq_some_iff.mp he
    have hb : d.tooBig b = false := h.asleep t _ hc
    cases phase with
    | lockWait => exact takeLock_tried.tidy h hb
    | slotWait => exact takeSlot_handed.tidy h hb
  | transfer =>
    obtain ⟨-, ⟨⟩⟩ := Option.ite_none_right_eq_some.mp he
    unfold transfer
    split
    case _ => exact ⟨h, h.onlyNew fun _ hr => hr⟩
    case _ r rs hq =>
      have hslots : ({ r with
          sector := r.sector + d.count r.bh
          nrSectors := r.nrSectors - d.count r.bh } :: rs).map Req.slot = s.reqs.map Req.slot := by
        simp [hq]
      have hbefore : Tidy d { s with reqs := { r with
          sector := r.sector + d.count r.bh
          nrSectors := r.nrSectors - d.count r.bh } :: rs } := h.of_slots rfl rfl hslots
      obtain ⟨htidy, hsub⟩ := endRequest_tidy hbefore true
      exact ⟨htidy, h.onlyNew fun _ hi => hslots ▸ hsub hi⟩
  | plug k =>
    obtain ⟨-, ⟨⟩⟩ := Option.ite_none_right_eq_some.mp he
    exact ⟨⟨h.slots, h.nodup, h.asleep⟩, h.onlyNew fun _ hr => hr⟩
  | unplug =>
    obtain ⟨-, ⟨⟩⟩ := Option.ite_none_left_eq_some.mp he
    exact ⟨⟨h.slots, h.nodup, h.asleep⟩, h.onlyNew fun _ hr => hr⟩
  | slots l =>
    obtain rfl := Option.some.inj he
    refine ⟨⟨?_, h.nodup, h.asleep⟩, h.onlyNew fun _ hr => hr⟩
    intro r hr
    simp only [Bool.or_eq_true, decide_eq_true_eq]
    exact .inr (List.mem_map_of_mem hr)
  | touch b dirt uptodate =>
    obtain rfl := Option.some.inj he
    exact ⟨⟨h.slots, h.nodup, h.asleep⟩, h.onlyNew fun _ hr => hr⟩

theorem tidy_of_reach (h : Reach (step d) anyStep start s) : Tidy d s :=
  h.invariant tidy_start fun _ _ _ ht _ he => (step_tidy ht he).1

/-- A request that comes into the queue is for one buffer, which has passed the test. -/
theorem new_request (h : Reach (step d) anyStep start s) {e : Event} (he : step d s e = some s') :
    OnlyNew d s s' := (step_tidy (tidy_of_reach h) he).2

end Steps

/-! ## The sectors of a block -/

/-- The sector behind the last one of the block, without wraparound. -/
def blockEnd (d : Device) (b : Nat) : Nat := ((d.bh b).blocknr.toNat + 1) * (d.size b).count

/-- The request is for the sectors of the block, all of them on a device of `n` blocks of 1024
bytes. -/
def OnDevice (d : Device) (n : BitVec 32) (b : Nat) (r : Req) : Prop :=
  r.sector.toNat = (d.bh b).blocknr.toNat * (d.size b).count ∧
    r.nrSectors.toNat = (d.size b).count ∧ r.sector.toNat + r.nrSectors.toNat ≤ 2 * n.toNat

/-- In every run the requests that are queued for the buffer are for its sectors, on the device. -/
def StaysOn (d : Device) (b : Nat) : Prop :=
  ∀ n ∈ d.blkSize (d.bh b).dev, ∀ s, Reach (step d) anyStep start s → ∀ e s' r,
    step d s e = some s' → r ∈ s'.reqs → s.used r.slot = false → r.bh = b → OnDevice d n b r

/-- The block ends on the device, or what 32 bits hold of its end is more than a sector beyond it. -/
def TestExact (d : Device) (b : Nat) : Prop :=
  ∀ n ∈ d.blkSize (d.bh b).dev,
    blockEnd d b ≤ 2 * n.toNat ∧ blockEnd d b ≤ 2 ^ 32 ∨ 2 * n.toNat + 1 < blockEnd d b % 2 ^ 32

section Bound

variable {d : Device} {b : Nat} {n : BitVec 32}

theorem tooBig_iff (hn : d.blkSize (d.bh b).dev = some n) :
    d.tooBig b = true ↔ 2 * n.toNat + 1 < blockEnd d b % 2 ^ 32 := by
  have hsum : (d.sector b + d.count b).toNat = blockEnd d b % 2 ^ 32 := by
    rw [BitVec.toNat_add, toNat_sector, toNat_count, Nat.mod_add_mod, blockEnd, Nat.succ_mul]
  rw [Device.tooBig, hn]
  simp only [decide_eq_true_eq]
  rw [BitVec.lt_def, BitVec.toNat_ushiftRight, hsum, Nat.shiftRight_eq_div_pow]
  omega

/-- A request for one buffer is right if the block ends on the device. -/
theorem onDevice_newReq {i : Nat} {cmd : Bool} :
    OnDevice d n b (newReq d i cmd b) ↔ blockEnd d b ≤ 2 * n.toNat ∧ blockEnd d b ≤ 2 ^ 32 := by
  have hpos := (d.size b).count_pos
  have hsector : (newReq d i cmd b).sector.toNat =
      (d.bh b).blocknr.toNat * (d.size b).count % 2 ^ 32 := toNat_sector d b
  have hcount : (newReq d i cmd b).nrSectors.toNat = (d.size b).count := toNat_count d b
  have hend : blockEnd d b = (d.bh b).blocknr.toNat * (d.size b).count + (d.size b).count :=
    Nat.succ_mul _ _
  have hle : blockEnd d b ≤ 2 ^ 32 ↔ (d.bh b).blocknr.toNat * (d.size b).count < 2 ^ 32 := by
    have hblock := (d.bh b).blocknr.isLt
    rw [blockEnd]
    generalize d.size b = z
    cases z <;> simp only [BlockSize.count, BlockSize.bytes] <;> omega
  rw [OnDevice, hsector, hcount, hle, hend]
  generalize (d.bh b).blocknr.toNat * (d.size b).count = x
  omega

/-- The first request of all takes the last slot. -/
theorem makeRequest_start {t : Nat} (hbig : d.tooBig b = false) :
    (makeRequest d start t .read b).reqs = [newReq d 31 false b] := by
  have hmerge : merge d (start.locked .read b) false b = none := by
    simp [merge, candidates, start, State.locked, mergeAny]
  have hslot : Block.freeSlot start.used (Block.slotLimit false) = some 31 := rfl
  have htake : takeLock d start t .read b = takeSlot d (start.locked .read b) t .read b := rfl
  have hmake : makeRequest d start t .read b = takeLock d start t .read b := by
    simp [makeRequest, hbig, Rw.ahead]
  rw [hmake, htake, takeSlot]
  simp only [Rw.isWrite, hmerge]
  rfl

theorem staysOn_iff (hb : b ≠ 0) : StaysOn d b ↔ TestExact d b := by
  constructor
  · intro h n hn
    by_contra hnot
    rw [not_or] at hnot
    -- the test lets the block pass, and the first request of all is for it
    have hbig : d.tooBig b = false := by
      rw [← Bool.not_eq_true, tooBig_iff hn]
      exact hnot.2
    have hstep : step d start (.make 0 .read b) = some (makeRequest d start 0 .read b) :=
      if_pos ⟨rfl, hb⟩
    have hreqs := makeRequest_start (t := 0) hbig
    have hin := h n hn start .init _ _ _ hstep (by rw [hreqs]; exact List.mem_singleton_self _)
      rfl rfl
    exact hnot.1 (onDevice_newReq.mp hin)
  · intro h n hn s hs e s' r he hr hfree hbh
    obtain ⟨i, cmd, b', rfl, hbig⟩ := new_request hs he r hr hfree
    obtain rfl : b' = b := hbh
    have hnot : ¬ 2 * n.toNat + 1 < blockEnd d b' % 2 ^ 32 := by
      rw [← tooBig_iff hn, hbig]
      decide
    exact onDevice_newReq.mpr ((h n hn).resolve_right hnot)

end Bound

/-! ## The blocks of a swap file -/

/-- The requests are for the sectors of the blocks, one after the other. -/
def SwapsTo (z : BlockSize) (blocks : Fin (4096 / z.bytes) → BitVec 32) (buf : Nat) : Prop :=
  (llRwSwapFile (List.ofFn blocks) buf).map (fun p => (p.sector.toNat, p.nrSectors.toNat)) =
    List.ofFn fun i => ((blocks i).toNat * z.count, z.count)

theorem swapsTo_iff (z : BlockSize) (blocks : Fin (4096 / z.bytes) → BitVec 32) (buf : Nat) :
    SwapsTo z blocks buf ↔ ∀ i, (blocks i).toNat * z.bytes < 2 ^ 32 := by
  have hsize : 4096 / (4096 / z.bytes) = z.bytes := by cases z <;> rfl
  have hone (x : BitVec 32) : ((x * BitVec.ofNat 32 z.bytes) >>> 9).toNat = x.toNat * z.count ↔
      x.toNat * z.bytes < 2 ^ 32 := by
    have hx := x.isLt
    rw [BitVec.toNat_ushiftRight, BitVec.toNat_mul, Nat.shiftRight_eq_div_pow, BitVec.toNat_ofNat]
    cases z <;> simp only [BlockSize.count, BlockSize.bytes] <;> omega
  have hnr : (BitVec.ofNat 32 (z.bytes / 512)).toNat = z.count := by cases z <;> rfl
  have hspans : (llRwSwapFile (List.ofFn blocks) buf).map
      (fun p => (p.sector.toNat, p.nrSectors.toNat)) =
      List.ofFn fun i => (((blocks i * BitVec.ofNat 32 z.bytes) >>> 9).toNat, z.count) := by
    apply List.ext_getElem
    · simp [llRwSwapFile]
    · intro i h1 h2
      simp only [llRwSwapFile, List.length_ofFn, hsize, List.getElem_map, List.getElem_zipIdx,
        List.getElem_ofFn, hnr]
  rw [SwapsTo, hspans, List.ofFn_inj]
  constructor
  · intro h i
    exact (hone _).mp (Prod.mk.inj (congrFun h i)).1
  · intro h
    funext i
    exact Prod.ext ((hone _).mpr (h i)) rfl

/-- **Exactly when block I/O stays where it should.**  The requests that are queued for a buffer are
for the sectors of its block, on the device, if and only if the block ends there or fails the test by
what 32 bits hold of its end; those of a swap file are for the sectors of its blocks if and only if
the blocks begin below the byte 2^32. -/
theorem block_io_exact {d : Device} {b : Nat} (hb : b ≠ 0) (z : BlockSize)
    (blocks : Fin (4096 / z.bytes) → BitVec 32) (buf : Nat) :
    (StaysOn d b ↔ TestExact d b) ∧
      (SwapsTo z blocks buf ↔ ∀ i, (blocks i).toNat * z.bytes < 2 ^ 32) :=
  ⟨staysOn_iff hb, swapsTo_iff z blocks buf⟩

/-- A device of ten blocks of 1024 bytes, on which the buffers 1, 2 and 3 are for the last sector,
for the sector behind it, and for a block whose sectors wrap around. -/
def tenBlocks (z : BlockSize) : Device where
  major := 3
  bh b := ⟨0x300, if b = 1 then 19 else if b = 2 then 20 else 2147483648, 0⟩
  blkSize _ := some 10
  blksizeSize _ := some z

theorem block_io_exact_last_sector :
    StaysOn (tenBlocks .b512) 1 ∧ SwapsTo .b2048 (fun _ => 77) 4096 := by
  obtain ⟨h1, h2⟩ := block_io_exact (d := tenBlocks .b512) (b := 1) one_ne_zero .b2048
    (fun _ => 77) 4096
  refine ⟨h1.mpr ?_, h2.mpr fun i => by decide⟩
  rintro n ⟨⟩
  decide

/-- With blocks of 512 bytes the first sector beyond the device passes the test; with blocks of 1024
bytes the block 2147483648 is taken for the block 0; and the block 2097152 of a swap file, of 2048
bytes, is too. -/
theorem block_io_leaves_device :
    ¬ StaysOn (tenBlocks .b512) 2 ∧ ¬ StaysOn (tenBlocks .b1024) 3 ∧
      ¬ SwapsTo .b2048 (fun _ => 2097152) 4096 := by
  refine ⟨?_, ?_, ?_⟩
  · rw [staysOn_iff (by decide)]
    intro h
    exact absurd (h 10 rfl) (by decide)
  · rw [staysOn_iff (by decide)]
    intro h
    exact absurd (h 10 rfl) (by decide)
  · rw [swapsTo_iff]
    intro h
    exact absurd (h ⟨0, by decide⟩) (by decide)

end LinuxEvocation.Requests
