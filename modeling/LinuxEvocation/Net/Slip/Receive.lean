import LinuxEvocation.Lib.Framing
import LinuxEvocation.Lib.Transition
import LinuxEvocation.Net.Slip.Slhc

/-!
# Datagrams over a serial line

The bytes of a frame are stored from the start of the receive buffer on, and those for which there is no
place are counted and thrown away.  At the end of the frame `sl_bump` hands over what has been stored;
it only asks how much that is for a compressed packet, for the 80 bytes that its header may be longer.

* `Slip`, `slEnqueue`, `slDequeue`, `slBump`, `slEncaps`, `slipByte` — the functions; `State` — the
  receiver, the decoder that it stands for and what it has handed over.
* `Inv` — the buffer has the first bytes of the frame of the decoder.
* `frames_received` — what the frames that are sent become; `slip_exact` — both, for all runs.
-/

namespace LinuxEvocation.Sl

open Framing (Decoder)
open Transition (Reach)

/-! ## The functions -/

/-- The symbols of the line. -/
def END : UInt8 := 0xc0
def ESC : UInt8 := 0xdb
def ESC_END : UInt8 := 0xdc
def ESC_ESC : UInt8 := 0xdd

/-- The control block, with places counted from the start of the receive buffer. -/
structure Slip where
  escape : Bool
  rbuff : Bytes
  rhead : Nat
  rend : Nat
  rcount : Nat
  slcomp : SlCompress
  rpacket : Nat
  roverrun : Nat
  errors : Nat

def slEnqueue (sl : Slip) (c : UInt8) : Slip :=
  if sl.rhead < sl.rend then { sl with
    rbuff := Function.update sl.rbuff sl.rhead c
    rhead := sl.rhead + 1
    rcount := sl.rcount + 1 }
  else { sl with roverrun := sl.roverrun + 1 }

def slDequeue (sl : Slip) (i : Nat) : Slip :=
  if 0 < sl.rhead then { sl with rhead := sl.rhead - i, rcount := sl.rcount - i } else sl

/-- What `sl_bump` does: the control block, the datagram for `dev_rint`, and where the stores of
`slhc_uncompress` end. -/
structure Bump where
  sl : Slip
  packet : Option (List UInt8)
  top : Nat

def slTypeUncompressedTcp : UInt8 := 0x70
def slTypeCompressedTcp : UInt8 := 0x80

def deliver (sl : Slip) (count top : Nat) : Bump where
  sl := { sl with rpacket := sl.rpacket + 1 }
  packet := some (bytesOf sl.rbuff count)
  top := top

/-- No datagram, but an error. -/
def failed (sl : Slip) (top : Nat) : Bump where
  sl := { sl with errors := sl.errors + 1 }
  packet := none
  top := top

/-- The branch for packets with a compressed header. -/
def bumpCompressed (sl : Slip) : Bump :=
  if sl.rhead + 80 < sl.rend then
    let un := slhcUncompress sl.slcomp sl.rbuff sl.rcount
    let sl := { sl with
      rhead := sl.rhead + 80
      rcount := sl.rcount + 80
      slcomp := un.comp
      rbuff := un.icp }
    if un.len ≤ 0 then failed sl un.top else deliver sl un.len.toNat un.top
  else { sl := { sl with roverrun := sl.roverrun + 1 }, packet := none, top := 0 }

/-- The packet after its type was taken off. -/
def masked (sl : Slip) : Bytes := Function.update sl.rbuff 0 (sl.rbuff 0 &&& 0x4f)

/-- The branch for packets with a header that is to be remembered. -/
def bumpUncompressed (sl : Slip) : Bump :=
  let rem := slhcRemember sl.slcomp (masked sl) sl.rcount
  let sl' := { sl with slcomp := rem.1, rbuff := rem.2.1 }
  if rem.2.2 = 0 then failed sl' 0 else deliver sl' sl.rcount 0

def slBump (sl : Slip) : Bump :=
  if sl.rbuff 0 &&& slTypeCompressedTcp ≠ 0 then bumpCompressed sl
  else if slTypeUncompressedTcp ≤ sl.rbuff 0 then bumpUncompressed sl
  else deliver sl sl.rcount 0

/-- The loop of `sl_encaps`. -/
def encapsLoop : List UInt8 → List UInt8
  | [] => []
  | c :: p =>
    if c = END then ESC :: ESC_END :: encapsLoop p
    else if c = ESC then ESC :: ESC_ESC :: encapsLoop p
    else c :: encapsLoop p

/-- The bytes that are sent for a datagram without compression. -/
def slEncaps (p : List UInt8) : List UInt8 := END :: (encapsLoop p ++ [END])

/-- The end of a frame. -/
def slipEnd (sl : Slip) : Slip × Option Bump :=
  let bump := if 2 < sl.rcount then some (slBump sl) else none
  let sl := bump.elim sl Bump.sl
  ({ slDequeue sl sl.rcount with rcount := 0 }, bump)

/-- What `slip_recv` does with a byte, and what `sl_bump` did. -/
def slipByte (sl : Slip) (c : UInt8) : Slip × Option Bump :=
  if sl.escape then
    let sl :=
      if c = ESC_ESC then slEnqueue sl ESC
      else if c = ESC_END then slEnqueue sl END
      else sl
    ({ sl with escape := false }, none)
  else if c = ESC then ({ sl with escape := true }, none)
  else if c = END then slipEnd sl
  else (slEnqueue sl c, none)

/-! ## Runs -/

def marks : Framing.Marks UInt8 where
  fin := END
  esc := ESC
  escFin := ESC_END
  escEsc := ESC_ESC
  esc_ne_fin := by decide
  escFin_ne_escEsc := by decide

/-- A datagram that was handed over, with the bytes of its frame and those that had been stored. -/
structure Delivery where
  frame : List UInt8
  received : List UInt8
  datagram : List UInt8

/-- The receiver; the decoder of a line without limits; what was handed over; and for each frame the end
of the space that `sl_bump` had reserved and that of the stores of `slhc_uncompress`. -/
structure State where
  sl : Slip
  decoder : Decoder UInt8
  delivered : List Delivery
  stores : List (Nat × Nat)

/-- What a call of `sl_bump` is noted as. -/
def note (s : State) (bump : Bump) : List Delivery :=
  bump.packet.toList.map fun datagram => {
    frame := s.decoder.frame
    received := bytesOf s.sl.rbuff s.sl.rcount
    datagram := datagram }

/-- A byte comes in. -/
def next (s : State) (c : UInt8) : State where
  sl := (slipByte s.sl c).1
  decoder := s.decoder.step marks c
  delivered := s.delivered ++ (slipByte s.sl c).2.toList.flatMap (note s)
  stores := s.stores ++ (slipByte s.sl c).2.toList.map fun bump => (bump.sl.rhead, bump.top)

def step (s : State) (c : UInt8) : Option State := some (next s c)

/-- `slip_recv` for bytes that come in pieces. -/
def slipRecv (s : State) (buffs : List (List UInt8)) : State :=
  buffs.foldl (fun s buff => buff.foldl next s) s

/-- After `sl_open`: the buffer for receiving has twice the size of the largest datagram. -/
def slOpen (mtu : UInt16) (rbuff : Bytes) : State where
  sl := {
    escape := false
    rbuff := rbuff
    rhead := 0
    rend := mtu.toNat * 2
    rcount := 0
    slcomp := slhcInit
    rpacket := 0
    roverrun := 0
    errors := 0 }
  decoder := Decoder.idle
  delivered := []
  stores := []

/-- No datagram was handed over that had lost bytes, and the space was enough for every header. -/
def Good (s : State) : Prop :=
  (∀ d ∈ s.delivered, d.received = d.frame) ∧ ∀ t ∈ s.stores, t.2 ≤ t.1

/-- Where the byte ends a frame, the frame is not longer than the buffer, unless it is compressed or its
header is not one that is remembered; and the header of a compressed one fits into 80 bytes more. -/
def Clean (s : State) (c : UInt8) : Prop :=
  s.decoder.ends marks c → 2 < s.sl.rcount →
    if s.sl.rbuff 0 &&& slTypeCompressedTcp ≠ 0 then
      s.sl.rhead + 80 < s.sl.rend → Known s.sl.slcomp s.sl.rbuff →
        Fits s.sl.slcomp s.sl.rbuff s.sl.rcount 80
    else
      (slTypeUncompressedTcp ≤ s.sl.rbuff 0 →
        Remembers s.sl.slcomp (masked s.sl) s.sl.rcount) →
      s.decoder.frame.length ≤ s.sl.rend

def State.datagrams (s : State) : List (List UInt8) := s.delivered.map Delivery.datagram

/-- No frame has begun. -/
def Idle (s : State) : Prop := s.sl.escape = false ∧ s.sl.rcount = 0

/-- **What the receiver stands for**: it has the first bytes of the frame of the decoder. -/
structure Inv (mtu : UInt16) (sl : Slip) (d : Decoder UInt8) : Prop where
  rend : sl.rend = mtu.toNat * 2
  rhead : sl.rhead = sl.rcount
  escape : d.escape = sl.escape
  received : bytesOf sl.rbuff sl.rcount = d.frame.take sl.rend
  plain : Plain sl.slcomp

section Proofs

variable {mtu : UInt16} {s : State} {sl : Slip} {d : Decoder UInt8} {c : UInt8}

theorem length_bytesOf (b : Bytes) (n : Nat) : (bytesOf b n).length = n := by
  rw [bytesOf, List.length_map, List.length_range]

theorem bytesOf_update (b : Bytes) (n : Nat) (c : UInt8) :
    bytesOf (Function.update b n c) (n + 1) = bytesOf b n ++ [c] := by
  simp only [bytesOf, List.range_succ, List.map_append, List.map_singleton, Function.update_self]
  congr 1
  apply List.map_congr_left
  intro i hi
  exact Function.update_of_ne (List.mem_range.mp hi).ne _ _

theorem bytesOf_first {b : Bytes} {n : Nat} (h : n ≠ 0) : (bytesOf b n).headD 0 = b 0 := by
  obtain ⟨n, rfl⟩ := Nat.exists_eq_succ_of_ne_zero h
  rw [bytesOf, List.range_succ_eq_map]
  rfl

theorem Inv.count (h : Inv mtu sl d) : sl.rcount = min sl.rend d.frame.length := by
  have hlen := congrArg List.length h.received
  rwa [length_bytesOf, List.length_take] at hlen

/-- Nothing of a frame is lost if it is not longer than the buffer. -/
theorem Inv.whole_iff (h : Inv mtu sl d) :
    bytesOf sl.rbuff sl.rcount = d.frame ↔ d.frame.length ≤ sl.rend := by
  rw [h.received, List.take_eq_self_iff]

theorem inv_enqueue (h : Inv mtu sl d) (c : UInt8) :
    Inv mtu { slEnqueue sl c with escape := false } (d.push c) := by
  have hcount := h.count
  by_cases hroom : sl.rhead < sl.rend
  · have hframe : d.frame.length < sl.rend := by
      rw [h.rhead] at hroom
      omega
    have hrec := h.received
    rw [List.take_of_length_le hframe.le] at hrec
    simp only [slEnqueue, if_pos hroom]
    refine ⟨h.rend, congrArg (· + 1) h.rhead, rfl, ?_, h.plain⟩
    simp only [Decoder.push]
    rw [h.rhead, bytesOf_update, hrec, List.take_of_length_le]
    rw [List.length_append, List.length_singleton]
    omega
  · simp only [slEnqueue, if_neg hroom]
    refine ⟨h.rend, h.rhead, rfl, ?_, h.plain⟩
    simp only [Decoder.push]
    rw [h.received, List.take_append_of_le_length]
    rw [h.rhead] at hroom
    omega

/-- **What a byte does**, to the receiver and to the decoder. -/
theorem byte_cases (h : d.escape = sl.escape) (c : UInt8) :
    (∃ x, slipByte sl c = ({ slEnqueue sl x with escape := false }, none) ∧
        d.step marks c = d.push x ∧ ¬ d.ends marks c) ∨
      (∃ e, slipByte sl c = ({ sl with escape := e }, none) ∧
        d.step marks c = { d with escape := e } ∧ ¬ d.ends marks c) ∨
      slipByte sl c = slipEnd sl ∧ d.step marks c = Decoder.idle ∧ d.ends marks c := by
  unfold slipByte Decoder.step
  cases hesc : sl.escape with
  | true =>
    rw [hesc] at h
    have hends : ¬ d.ends marks c := fun hends => Bool.noConfusion (h.symm.trans hends.1)
    rw [if_pos rfl, if_pos h]
    by_cases hescesc : c = ESC_ESC
    · exact .inl ⟨ESC, by simp only [if_pos hescesc], if_pos hescesc, hends⟩
    · by_cases hescend : c = ESC_END
      · refine .inl ⟨END, by simp only [if_neg hescesc, if_pos hescend], ?_, hends⟩
        exact (if_neg hescesc).trans (if_pos hescend)
      · refine .inr (.inl ⟨false, by simp only [if_neg hescesc, if_neg hescend], ?_, hends⟩)
        exact (if_neg hescesc).trans (if_neg hescend)
  | false =>
    rw [hesc] at h
    have hd : ¬ d.escape = true := Bool.eq_false_iff.mp h
    rw [if_neg Bool.false_ne_true, if_neg hd]
    by_cases hc : c = ESC
    · refine .inr (.inl ⟨true, if_pos hc, if_pos hc, ?_⟩)
      exact fun hends => marks.esc_ne_fin (hc.symm.trans hends.2)
    · by_cases hend : c = END
      · refine .inr (.inr ⟨(if_neg hc).trans (if_pos hend), ?_, h, hend⟩)
        exact (if_neg hc).trans (if_pos hend)
      · refine .inl ⟨c, ?_, (if_neg hc).trans (if_neg hend), fun hends => hend hends.2⟩
        rw [if_neg hc, if_neg hend, slEnqueue]
        split <;> rw [← hesc]

/-! ## The end of a frame -/

theorem not_compressed {c : UInt8} (h : c < 0x70) : c &&& slTypeCompressedTcp = 0 := by
  have hall : ∀ n : Fin 0x70, UInt8.ofNat n.val &&& slTypeCompressedTcp = 0 := by decide
  have hn := hall ⟨c.toNat, UInt8.lt_iff_toNat_lt.mp h⟩
  rwa [UInt8.ofNat_toNat] at hn

theorem masked_first (sl : Slip) : masked sl 0 < 0x70 := by
  rw [masked, Function.update_self, UInt8.lt_iff_toNat_lt, UInt8.toNat_and]
  exact Nat.lt_of_le_of_lt Nat.and_le_right (by decide)

/-- What `sl_bump` keeps. -/
structure Keeps (sl sl' : Slip) : Prop where
  rend : sl'.rend = sl.rend
  escape : sl'.escape = sl.escape
  rhead : sl'.rhead = sl'.rcount
  plain : Plain sl'.slcomp

theorem keeps_compressed (hsize : 2 < sl.rcount) (hhead : sl.rhead = sl.rcount)
    (hplain : Plain sl.slcomp) : Keeps sl (bumpCompressed sl).sl := by
  have hun : Plain (slhcUncompress sl.slcomp sl.rbuff sl.rcount).comp := plain_uncompress hsize hplain
  unfold bumpCompressed
  by_cases hroom : sl.rhead + 80 < sl.rend
  · rw [if_pos hroom]
    simp only
    split_ifs <;> exact ⟨rfl, rfl, congrArg (· + 80) hhead, hun⟩
  · rw [if_neg hroom]
    exact ⟨rfl, rfl, hhead, hplain⟩

theorem keeps_uncompressed (hhead : sl.rhead = sl.rcount) (hplain : Plain sl.slcomp) :
    Keeps sl (bumpUncompressed sl).sl := by
  have hrem : Plain (slhcRemember sl.slcomp (masked sl) sl.rcount).1 :=
    plain_remember hplain (masked_first sl)
  unfold bumpUncompressed
  simp only
  split_ifs <;> exact ⟨rfl, rfl, hhead, hrem⟩

theorem keeps_slBump (hsize : 2 < sl.rcount) (hhead : sl.rhead = sl.rcount)
    (hplain : Plain sl.slcomp) : Keeps sl (slBump sl).sl := by
  unfold slBump
  split_ifs
  · exact keeps_compressed hsize hhead hplain
  · exact keeps_uncompressed hhead hplain
  · exact ⟨rfl, rfl, hhead, hplain⟩

/-- **When the space is enough.** -/
theorem slBump_top (hsize : 2 < sl.rcount) (hhead : sl.rhead = sl.rcount) (hrend : sl.rend < 2 ^ 31) :
    (slBump sl).top ≤ (slBump sl).sl.rhead ↔
      (sl.rbuff 0 &&& slTypeCompressedTcp ≠ 0 → sl.rhead + 80 < sl.rend → Known sl.slcomp sl.rbuff →
        Fits sl.slcomp sl.rbuff sl.rcount 80) := by
  unfold slBump
  by_cases hcomp : sl.rbuff 0 &&& slTypeCompressedTcp ≠ 0
  · rw [if_pos hcomp, bumpCompressed]
    by_cases hroom : sl.rhead + 80 < sl.rend
    · rw [if_pos hroom]
      simp only [hcomp, hroom, true_implies, ne_eq, not_false_eq_true]
      have htop : (slhcUncompress sl.slcomp sl.rbuff sl.rcount).top ≤ sl.rcount + 80 ↔ _ :=
        slhcUncompress_top hsize (by omega) (by decide)
      rw [← htop, ← hhead]
      split_ifs <;> rfl
    · rw [if_neg hroom]
      exact iff_of_true (Nat.zero_le _) fun _ h => absurd h hroom
  · rw [if_neg hcomp, bumpUncompressed]
    refine iff_of_true ?_ fun h => absurd h hcomp
    split_ifs
    iterate 3 exact Nat.zero_le _

theorem slBump_ip (h : sl.rbuff 0 < 0x70) : slBump sl = deliver sl sl.rcount 0 := by
  have htype : ¬ slTypeUncompressedTcp ≤ sl.rbuff 0 := UInt8.not_le.mpr h
  unfold slBump
  rw [if_neg (not_not.mpr (not_compressed h)), if_neg htype]

/-- A packet with a header to be remembered. -/
theorem slBump_uncompressed (hcomp : ¬ sl.rbuff 0 &&& slTypeCompressedTcp ≠ 0) (h : ¬ sl.rbuff 0 < 0x70) :
    slBump sl = bumpUncompressed sl := by
  have htype : slTypeUncompressedTcp ≤ sl.rbuff 0 := UInt8.not_lt.mp h
  unfold slBump
  rw [if_neg hcomp, if_pos htype]

theorem bumpUncompressed_packet (hsize : sl.rcount ≠ 0) :
    (¬ Remembers sl.slcomp (masked sl) sl.rcount → (bumpUncompressed sl).packet = none) ∧
      (Remembers sl.slcomp (masked sl) sl.rcount → ∃ b : Bytes, b 0 < 0x70 ∧
        (bumpUncompressed sl).packet = some (bytesOf b sl.rcount)) := by
  unfold bumpUncompressed
  constructor
  · intro hrem
    simp only [if_pos (slhcRemember_of_not hrem).2]
    rfl
  · intro hrem
    rw [slhcRemember_of_remembers hrem]
    simp only [if_neg hsize]
    refine ⟨_, ?_, rfl⟩
    simp only
    rw [Function.update_of_ne (by decide)]
    exact masked_first sl

/-- What is handed over of a packet with a compressed header. -/
theorem bumpCompressed_packet (hsize : 2 < sl.rcount) (hplain : Plain sl.slcomp) {d : List UInt8}
    (hd : (bumpCompressed sl).packet = some d) :
    sl.rhead + 80 < sl.rend ∧ ∃ (b : Bytes) (n : Nat), b 0 < 0x70 ∧ n ≠ 0 ∧ d = bytesOf b n := by
  unfold bumpCompressed at hd
  by_cases hroom : sl.rhead + 80 < sl.rend
  · rw [if_pos hroom] at hd
    by_cases hlen : (slhcUncompress sl.slcomp sl.rbuff sl.rcount).len ≤ 0
    · simp only [if_pos hlen] at hd
      cases hd
    · simp only [if_neg hlen] at hd
      cases hd
      exact ⟨hroom, _, _, slhcUncompress_first hsize hplain (by omega), by omega, rfl⟩
  · rw [if_neg hroom] at hd
    cases hd

/-- **When a datagram is handed over.** -/
theorem slBump_isSome (hsize : sl.rcount ≠ 0) (hcomp : ¬ sl.rbuff 0 &&& slTypeCompressedTcp ≠ 0) :
    (∃ d, (slBump sl).packet = some d) ↔
      (slTypeUncompressedTcp ≤ sl.rbuff 0 → Remembers sl.slcomp (masked sl) sl.rcount) := by
  by_cases hip : sl.rbuff 0 < 0x70
  · rw [slBump_ip hip]
    exact iff_of_true ⟨_, rfl⟩ fun h => absurd h (UInt8.not_le.mpr hip)
  · have htype : slTypeUncompressedTcp ≤ sl.rbuff 0 := UInt8.not_lt.mp hip
    rw [slBump_uncompressed hcomp hip]
    obtain ⟨hnone, hsome⟩ := @bumpUncompressed_packet sl hsize
    constructor
    · rintro ⟨d, hd⟩ -
      by_contra hrem
      rw [hnone hrem] at hd
      cases hd
    · intro hrem
      obtain ⟨b, -, hb⟩ := hsome (hrem htype)
      exact ⟨_, hb⟩

/-- **How it begins**: not like the packet, if that one was not an IP packet. -/
theorem slBump_first (hip : ¬ sl.rbuff 0 < 0x70) (hplain : Plain sl.slcomp) (hsize : 2 < sl.rcount)
    {p : List UInt8} (hp : (slBump sl).packet = some p) : p.headD 0 < 0x70 := by
  by_cases hcomp : sl.rbuff 0 &&& slTypeCompressedTcp ≠ 0
  · rw [slBump, if_pos hcomp] at hp
    obtain ⟨-, b, n, hb, hn, rfl⟩ := bumpCompressed_packet hsize hplain hp
    rwa [bytesOf_first hn]
  · rw [slBump_uncompressed hcomp hip] at hp
    have hcount : sl.rcount ≠ 0 := by omega
    obtain ⟨hnone, hsome⟩ := @bumpUncompressed_packet sl hcount
    by_cases hrem : Remembers sl.slcomp (masked sl) sl.rcount
    · obtain ⟨b, hb, heq⟩ := hsome hrem
      rw [heq, Option.some.injEq] at hp
      rw [← hp]
      rwa [bytesOf_first hcount]
    · rw [hnone hrem] at hp
      cases hp

/-! ## A byte -/

theorem inv_slipEnd (h : Inv mtu sl d) (hesc : sl.escape = false) :
    Inv mtu (slipEnd sl).1 Decoder.idle := by
  have hdequeue {sl' : Slip} (hkeeps : Keeps sl sl') :
      Inv mtu { slDequeue sl' sl'.rcount with rcount := 0 } Decoder.idle := by
    have hhead := hkeeps.rhead
    unfold slDequeue
    split_ifs with hpos
    · refine ⟨hkeeps.rend.trans h.rend, ?_, (hkeeps.escape.trans hesc).symm, List.take_nil.symm,
        hkeeps.plain⟩
      exact Nat.sub_eq_zero_of_le hhead.le
    · refine ⟨hkeeps.rend.trans h.rend, ?_, (hkeeps.escape.trans hesc).symm, List.take_nil.symm,
        hkeeps.plain⟩
      exact Nat.eq_zero_of_not_pos hpos
  unfold slipEnd
  by_cases hsize : 2 < sl.rcount
  · rw [if_pos hsize]
    exact hdequeue (keeps_slBump hsize h.rhead h.plain)
  · rw [if_neg hsize]
    exact hdequeue ⟨rfl, rfl, h.rhead, h.plain⟩

/-- **What a byte keeps.** -/
theorem inv_slipByte (h : Inv mtu sl d) (c : UInt8) :
    Inv mtu (slipByte sl c).1 (d.step marks c) := by
  rcases byte_cases h.escape c with ⟨x, hbyte, hstep, -⟩ | ⟨e, hbyte, hstep, -⟩ | ⟨hbyte, hstep, hends⟩
  · rw [hbyte, hstep]
    exact inv_enqueue h x
  · rw [hbyte, hstep]
    exact ⟨h.rend, h.rhead, rfl, h.received, h.plain⟩
  · rw [hbyte, hstep]
    exact inv_slipEnd h (h.escape.symm.trans hends.1)

theorem slipByte_bump (h : d.escape = sl.escape) (c : UInt8) : (slipByte sl c).2 =
    if d.ends marks c ∧ 2 < sl.rcount then some (slBump sl) else none := by
  rcases byte_cases h c with ⟨x, hbyte, -, hends⟩ | ⟨e, hbyte, -, hends⟩ | ⟨hbyte, -, hends⟩
  · rw [hbyte, if_neg fun h => hends h.1]
  · rw [hbyte, if_neg fun h => hends h.1]
  · simp only [hbyte, hends, true_and, slipEnd]

/-- **What a byte keeps of what was handed over.** -/
theorem good_next (h : Inv mtu s.sl s.decoder) (hgood : Good s) (c : UInt8) :
    Good (next s c) ↔ Clean s c := by
  have hbump := slipByte_bump h.escape c
  by_cases hends : s.decoder.ends marks c ∧ 2 < s.sl.rcount
  · rw [if_pos hends] at hbump
    obtain ⟨hends, hsize⟩ := hends
    have hrend : s.sl.rend < 2 ^ 31 := by
      rw [h.rend]
      have := mtu.toNat_lt
      omega
    have htop := slBump_top hsize h.rhead hrend
    have hcount : s.sl.rcount ≠ 0 := by omega
    have hnext : Good (next s c) ↔ (∀ p, (slBump s.sl).packet = some p →
        s.decoder.frame.length ≤ s.sl.rend) ∧ (slBump s.sl).top ≤ (slBump s.sl).sl.rhead := by
      have hdelivered : (next s c).delivered = s.delivered ++ note s (slBump s.sl) := by
        simp only [next, hbump, Option.toList_some, List.flatMap_singleton]
      have hstores : (next s c).stores =
          s.stores ++ [((slBump s.sl).sl.rhead, (slBump s.sl).top)] := by
        simp only [next, hbump, Option.toList_some, List.map_singleton]
      rw [Good, hdelivered, hstores, List.forall_mem_append, List.forall_mem_append,
        and_iff_right hgood.1, and_iff_right hgood.2, List.forall_mem_singleton, note,
        List.forall_mem_map, ← h.whole_iff]
      simp only [Option.mem_toList]
    rw [hnext, htop, Clean]
    simp only [hends, hsize, true_implies]
    by_cases hcomp : s.sl.rbuff 0 &&& slTypeCompressedTcp ≠ 0
    · rw [if_pos hcomp]
      simp only [hcomp, true_implies, ne_eq, not_false_eq_true]
      refine and_iff_right ?_
      intro p hp
      rw [slBump, if_pos hcomp] at hp
      have hroom := (bumpCompressed_packet hsize h.plain hp).1
      have hlen := h.count
      have := h.rhead
      omega
    · rw [if_neg hcomp, ← slBump_isSome hcount hcomp]
      simp only [hcomp, false_implies, and_true, forall_exists_index]
  · rw [if_neg hends] at hbump
    refine iff_of_true ?_ fun he hs => absurd ⟨he, hs⟩ hends
    simpa [Good, next, hbump] using hgood

/-! ## Frames that are sent -/

theorem encapsLoop_eq (p : List UInt8) : encapsLoop p = Framing.stuff marks p := by
  induction p with
  | nil => rfl
  | cons c p ih =>
    rw [Framing.stuff_cons, Framing.stuffOne, encapsLoop, ih]
    change _ = (if c = END then [ESC, ESC_END] else if c = ESC then [ESC, ESC_ESC] else [c]) ++ _
    split_ifs <;> rfl

/-- A byte that is not the end of a frame of more than two bytes. -/
theorem kept_next (h : Inv mtu s.sl s.decoder)
    (hends : ¬ (s.decoder.ends marks c ∧ 2 < s.sl.rcount)) :
    (next s c).delivered = s.delivered ∧ (next s c).stores = s.stores := by
  have hbump := slipByte_bump h.escape c
  rw [if_neg hends] at hbump
  simp only [next, hbump, Option.toList_none, List.flatMap_nil, List.map_nil, List.append_nil,
    and_self]

theorem decoder_end (h : s.decoder.escape = false) : (next s END).decoder = Decoder.idle := by
  simp only [next, Decoder.step, h, Bool.false_eq_true, if_false]
  rfl

theorem idle_of_decoder (h : Inv mtu s.sl s.decoder) (hidle : s.decoder = Decoder.idle) : Idle s := by
  have hcount := h.count
  have hescape := h.escape
  rw [hidle] at hcount hescape
  exact ⟨hescape.symm, hcount.trans (Nat.min_zero _)⟩

/-- The receiver before the end of a frame. -/
theorem frame_stored (h : Inv mtu s.sl s.decoder) (hidle : Idle s) (p : List UInt8) :
    ∃ t, (slEncaps p).foldl next s = next t END ∧ Inv mtu t.sl t.decoder ∧
      t.delivered = s.delivered ∧ t.stores = s.stores ∧
      t.decoder = { escape := false, frame := p } := by
  have hescape : s.decoder.escape = false := h.escape.trans hidle.1
  have hend := decoder_end hescape
  have hnone : ¬ (s.decoder.ends marks END ∧ 2 < s.sl.rcount) := by
    rw [hidle.2]
    exact fun h => absurd h.2 (by decide)
  obtain ⟨⟨hinv, hdelivered, hstores⟩, hdecoder⟩ := Framing.feed_stuff marks State.decoder next
    (I := fun t => Inv mtu t.sl t.decoder ∧ t.delivered = s.delivered ∧ t.stores = s.stores)
    (fun _ _ => rfl)
    (fun t c ht hends =>
      have hnext := kept_next ht.1 fun h => hends h.1
      ⟨inv_slipByte ht.1 c, hnext.1.trans ht.2.1, hnext.2.trans ht.2.2⟩) p
    ⟨inv_slipByte h END, kept_next h hnone⟩ (by rw [hend]; rfl)
  refine ⟨_, ?_, hinv, hdelivered, hstores, ?_⟩
  · rw [slEncaps, encapsLoop_eq, List.foldl_cons, List.foldl_append]
    rfl
  · rw [hdecoder, hend]
    rfl

/-- **A frame**: the datagram, if it is one that is not to be changed, or at most another one. -/
theorem frame_received (h : Inv mtu s.sl s.decoder) (hidle : Idle s) {p : List UInt8}
    (hlo : 3 ≤ p.length) (hhi : p.length ≤ mtu.toNat) :
    Inv mtu ((slEncaps p).foldl next s).sl ((slEncaps p).foldl next s).decoder ∧
      Idle ((slEncaps p).foldl next s) ∧ ∃ q : Option (List UInt8),
        ((slEncaps p).foldl next s).datagrams = s.datagrams ++ q.toList ∧
        (q = some p ↔ p.headD 0 < 0x70) := by
  obtain ⟨t, heq, hinv, hdelivered, -, hdecoder⟩ := frame_stored h hidle p
  have hends : t.decoder.ends marks END := by
    rw [hdecoder]
    exact ⟨rfl, rfl⟩
  have hinv' : Inv mtu (next t END).sl (next t END).decoder := inv_slipByte hinv END
  rw [heq]
  refine ⟨hinv', idle_of_decoder hinv' (decoder_end hends.1), (slBump t.sl).packet, ?_, ?_⟩
  · have hsize : 2 < t.sl.rcount := by
      have hcount := hinv.count
      rw [hdecoder, hinv.rend] at hcount
      simp only at hcount
      omega
    have hbump := slipByte_bump hinv.escape END
    rw [if_pos ⟨hends, hsize⟩] at hbump
    have hnote : (note t (slBump t.sl)).map Delivery.datagram = (slBump t.sl).packet.toList := by
      rw [note, List.map_map]
      exact List.map_id _
    simp only [State.datagrams, next, hbump, Option.toList_some, List.flatMap_singleton,
      List.map_append, hnote, hdelivered]
  · have hwhole : bytesOf t.sl.rbuff t.sl.rcount = p := by
      have hle : t.decoder.frame.length ≤ t.sl.rend := by
        rw [hdecoder, hinv.rend]
        simp only
        omega
      rw [hinv.whole_iff.mpr hle, hdecoder]
    have hcount : t.sl.rcount = p.length := by rw [← hwhole, length_bytesOf]
    have hfirst : t.sl.rbuff 0 = p.headD 0 := by
      rw [← hwhole, bytesOf_first (by omega)]
    rw [← hfirst]
    constructor
    · intro hsome
      by_contra hip
      exact hip (hfirst ▸ slBump_first hip hinv.plain (by omega) hsome)
    · intro hip
      rw [slBump_ip hip, ← hwhole]
      rfl

/-- **Frames one after the other.** -/
theorem frames_received (h : Inv mtu s.sl s.decoder) (hidle : Idle s) (ps : List (List UInt8))
    (hps : ∀ p ∈ ps, 3 ≤ p.length ∧ p.length ≤ mtu.toNat) :
    Idle ((ps.flatMap slEncaps).foldl next s) ∧ ∃ qs : List (List UInt8),
      ((ps.flatMap slEncaps).foldl next s).datagrams = s.datagrams ++ qs ∧ qs.length ≤ ps.length ∧
        (qs = ps ↔ ∀ p ∈ ps, p.headD 0 < 0x70) := by
  induction ps generalizing s with
  | nil =>
    refine ⟨hidle, [], (List.append_nil _).symm, le_rfl, iff_of_true rfl ?_⟩
    intro p hp
    cases hp
  | cons p ps ih =>
    rw [List.forall_mem_cons] at hps
    obtain ⟨hinv, hidle', q, hq, hqp⟩ := frame_received h hidle hps.1.1 hps.1.2
    obtain ⟨hidle'', qs, hqs, hlen, hqsps⟩ := ih hinv hidle' hps.2
    rw [List.flatMap_cons, List.foldl_append]
    refine ⟨hidle'', q.toList ++ qs, ?_, ?_, ?_⟩
    · rw [hqs, hq, List.append_assoc]
    · have := q.length_toList_le
      rw [List.length_append, List.length_cons]
      omega
    · rw [List.forall_mem_cons, ← hqsps, ← hqp]
      cases q with
      | none =>
        refine iff_of_false ?_ fun h => absurd h.1 (Option.some_ne_none p).symm
        rintro rfl
        simp at hlen
      | some q => simp

theorem inv_open (mtu : UInt16) (rbuff : Bytes) :
    Inv mtu (slOpen mtu rbuff).sl (slOpen mtu rbuff).decoder := by
  refine ⟨rfl, rfl, rfl, List.take_nil.symm, ?_⟩
  intro i
  exact (by decide : (0 : UInt8) < 0x70)

theorem good_open (mtu : UInt16) (rbuff : Bytes) : Good (slOpen mtu rbuff) :=
  ⟨fun _ hd => absurd hd List.not_mem_nil, fun _ ht => absurd ht List.not_mem_nil⟩

theorem inv_reach {rbuff : Bytes} {ok : State → UInt8 → Prop} (h : Reach step ok (slOpen mtu rbuff) s) :
    Inv mtu s.sl s.decoder := by
  refine h.invariant (I := fun s => Inv mtu s.sl s.decoder) (inv_open mtu rbuff) ?_
  intro s c s' hs _ hstep
  cases hstep
  exact inv_slipByte hs c

end Proofs

/-- **What the line does.**  In every run of clean bytes no datagram is handed over that had lost bytes,
and the space is always enough; and from a state of such a run, a byte keeps this exactly if it is clean.
In every run, from a state in which no frame has begun, the frames for datagrams that come in any pieces
are received as these datagrams exactly if none of them has the type of a packet with a TCP header that
is compressed or to be remembered. -/
theorem slip_exact (mtu : UInt16) (rbuff : Bytes) :
    (∀ s, Reach step Clean (slOpen mtu rbuff) s →
      Good s ∧ ∀ c s', step s c = some s' → (Good s' ↔ Clean s c)) ∧
    ∀ s, Reach step Transition.anyStep (slOpen mtu rbuff) s → Idle s → ∀ ps buffs,
      (∀ p ∈ ps, 3 ≤ p.length ∧ p.length ≤ mtu.toNat) → buffs.flatten = ps.flatMap slEncaps →
        ((slipRecv s buffs).datagrams = s.datagrams ++ ps ∧ Idle (slipRecv s buffs) ↔
          ∀ p ∈ ps, p.headD 0 < 0x70) := by
  constructor
  · intro s h
    have hgood : Good s := by
      refine (h.invariant (I := fun s => Inv mtu s.sl s.decoder ∧ Good s)
        ⟨inv_open mtu rbuff, good_open mtu rbuff⟩ ?_).2
      intro s c s' hs hclean hstep
      cases hstep
      exact ⟨inv_slipByte hs.1 c, (good_next hs.1 hs.2 c).mpr hclean⟩
    refine ⟨hgood, ?_⟩
    intro c s' hstep
    cases hstep
    exact good_next (inv_reach h) hgood c
  · intro s h hidle ps buffs hps hbuffs
    obtain ⟨hidle', qs, hqs, -, hiff⟩ := frames_received (inv_reach h) hidle ps hps
    have hrecv : slipRecv s buffs = (ps.flatMap slEncaps).foldl next s := by
      rw [← hbuffs, List.foldl_flatten]
      rfl
    rw [hrecv, hqs, List.append_cancel_left_eq, and_iff_left hidle', hiff]

/-- A frame of one byte more than the buffer is handed over without it. -/
theorem overrun_delivered :
    ¬ Good ((slEncaps (List.replicate 593 0x45)).foldl next (slOpen 296 0)) := by
  obtain ⟨t, heq, hinv, hdelivered, hstores, hdecoder⟩ :=
    frame_stored (inv_open 296 0) ⟨rfl, rfl⟩ (List.replicate 593 0x45)
  have hgood : Good t := by
    rw [Good, hdelivered, hstores]
    exact good_open 296 0
  have hrend : t.sl.rend = 592 := hinv.rend
  have hframe : t.decoder.frame = List.replicate 593 0x45 := by rw [hdecoder]
  have hcount : t.sl.rcount = 592 := by
    rw [hinv.count, hrend, hframe, List.length_replicate]
    rfl
  have hfirst : t.sl.rbuff 0 = 0x45 := by
    rw [← bytesOf_first (b := t.sl.rbuff) (n := t.sl.rcount) (by rw [hcount]; decide), hinv.received,
      hrend, hframe, List.take_replicate]
    rfl
  rw [heq, good_next hinv hgood END, Clean]
  intro hclean
  have hle := hclean ⟨by rw [hdecoder], rfl⟩ (by rw [hcount]; decide)
  rw [hfirst, if_neg (by decide), hframe, hrend, List.length_replicate] at hle
  exact absurd (hle fun htype => absurd htype (by decide)) (by decide)

end LinuxEvocation.Sl
