import LinuxEvocation.Lib.OnesComplement

/-!
# Internet checksums

The checksum of a packet is the complement of the one's-complement sum of its 16-bit words.
`ip_compute_csum` and `tcp_check` add words of 32 bits with the carry of the sum before, fold the sum
to 16 bits, and then add the word and the byte that may be left.

* `adclLoop`, `addw`, `tail` — the instructions, on registers that are numbers.
* `ipComputeCsum`, `tcpCheck`, `ipSendCheck`, `tcpSendCheck` — the functions.
* `words16`, `checksum` — what they should compute.
-/

namespace LinuxEvocation.Checksum

open OnesComplement (addAround residue)

/-! ## The instructions -/

/-- `lodsw`. -/
def lodsw (b0 b1 : UInt8) : Nat := b0.toNat + b1.toNat * 2 ^ 8

/-- `lodsl`. -/
def lodsl (b0 b1 b2 b3 : UInt8) : Nat := lodsw b0 b1 + lodsw b2 b3 * 2 ^ 16

/-- `adcl`: the sum, and the carry flag. -/
def adcl (ebx eax cf : Nat) : Nat × Nat := ((ebx + eax + cf) % 2 ^ 32, (ebx + eax + cf) / 2 ^ 32)

/-- The loop of `lodsl` and `adcl`, with the rest of the buffer. -/
def adclLoop : Nat → List UInt8 → Nat × Nat → (Nat × Nat) × List UInt8
  | n + 1, b0 :: b1 :: b2 :: b3 :: buff, (ebx, cf) =>
    adclLoop n buff (adcl ebx (lodsl b0 b1 b2 b3) cf)
  | _, buff, ebx => (ebx, buff)

/-- `addw` to `%bx`, and `adcw $0` for its carry. -/
def addw (ebx ax : Nat) : Nat :=
  let sum := ebx % 2 ^ 16 + ax
  let bx := (sum % 2 ^ 16 + sum / 2 ^ 16) % 2 ^ 16
  ebx / 2 ^ 16 * 2 ^ 16 + bx

/-- Folding the 32 bits of the sum. -/
def fold (ebx : Nat) : Nat := addw ebx (ebx / 2 ^ 16)

/-- The extra word. -/
def addWord : List UInt8 → Nat → Nat × List UInt8
  | b0 :: b1 :: buff, ebx => (addw ebx (lodsw b0 b1), buff)
  | buff, ebx => (ebx, buff)

/-- The extra byte. -/
def addByte : List UInt8 → Nat → Nat
  | b0 :: _, ebx => addw ebx b0.toNat
  | [], ebx => ebx

/-- What is left of a buffer of `len` bytes. -/
def tail (len : Nat) (buff : List UInt8) (ebx : Nat) : Nat :=
  let (ebx, buff) := if len &&& 2 ≠ 0 then addWord buff ebx else (ebx, buff)
  if len &&& 1 ≠ 0 then addByte buff ebx else ebx

/-- `(~sum) & 0xffff`. -/
def complement (ebx : Nat) : Nat := 2 ^ 16 - 1 - ebx % 2 ^ 16

/-! ## The functions -/

/-- `ip_compute_csum` of a buffer, with its length. -/
def ipComputeCsum (buff : List UInt8) : Nat :=
  let len := buff.length
  let (ebx, buff) :=
    if len > 3 then
      let ((ebx, cf), buff) := adclLoop (len >>> 2) buff (0, 0)
      (fold (adcl ebx 0 cf).1, buff)
    else (0, buff)
  complement (tail len buff ebx)

/-- `ntohs`. -/
def ntohs (x : Nat) : Nat := x % 2 ^ 8 * 2 ^ 8 + x / 2 ^ 8 % 2 ^ 8

/-- `IPPROTO_TCP`. -/
def ipprotoTcp : Nat := 6

/-- `tcp_check` of a header and its data; `myAddr` is what `my_addr` returns. -/
def tcpCheck (myAddr : BitVec 32) (th : List UInt8) (saddr daddr : BitVec 32) : Nat :=
  let len := th.length
  let saddr := if saddr = 0 then myAddr else saddr
  let (ebx, cf) := adcl daddr.toNat saddr.toNat 0
  let (ebx, cf) := adcl ebx (ntohs len * 2 ^ 16 + ipprotoTcp * 256) cf
  let ebx := (adcl ebx 0 cf).1
  let (ebx, th) :=
    if len > 3 then
      let ((ebx, cf), th) := adclLoop (len >>> 2) th (ebx, 0)
      ((adcl ebx 0 cf).1, th)
    else (ebx, th)
  complement (tail len th (fold ebx))

/-- A store to the two bytes of a checksum field. -/
def setCheck (i : Nat) (x : Nat) (p : List UInt8) : List UInt8 :=
  (p.set i (UInt8.ofNat x)).set (i + 1) (UInt8.ofNat (x / 2 ^ 8))

/-- `iph->ihl*4`. -/
def headerLength (iph : List UInt8) : Nat := ((iph.headD 0).toNat &&& 0xf) * 4

/-- `ip_send_check` of a packet. -/
def ipSendCheck (iph : List UInt8) : List UInt8 :=
  let iph := setCheck 10 0 iph
  setCheck 10 (ipComputeCsum (iph.take (headerLength iph))) iph

/-- `tcp_send_check` of a header and its data; `noCheck` is that of the socket, if there is one. -/
def tcpSendCheck (myAddr : BitVec 32) (noCheck : Bool) (th : List UInt8) (saddr daddr : BitVec 32) :
    List UInt8 :=
  let th := setCheck 16 0 th
  if noCheck then th else setCheck 16 (tcpCheck myAddr th saddr daddr) th

/-! ## What they should compute -/

/-- The 16-bit words of a buffer, with a zero behind an odd byte. -/
def words16 : List UInt8 → List Nat
  | b0 :: b1 :: buff => lodsw b0 b1 :: words16 buff
  | [b0] => [b0.toNat]
  | [] => []

/-- The complement of the one's-complement sum. -/
def checksum (words : List Nat) : Nat := 2 ^ 16 - 1 - words.foldl (addAround (2 ^ 16 - 1)) 0

/-- The words of the pseudo header: addresses, protocol, and length. -/
def pseudoHeader (saddr daddr : BitVec 32) (len : Nat) : List Nat :=
  [saddr.toNat % 2 ^ 16, saddr.toNat / 2 ^ 16, daddr.toNat % 2 ^ 16, daddr.toNat / 2 ^ 16,
    ipprotoTcp * 2 ^ 8, ntohs len]

section Proofs

variable {buff l : List UInt8} {ebx cf n i x len : Nat}

/-! ## The words of a buffer -/

theorem words16_le (l : List UInt8) : ∀ w ∈ words16 l, w ≤ 2 ^ 16 - 1 := by
  induction l using words16.induct with
  | case1 b0 b1 l ih =>
    have h0 := b0.toNat_lt
    have h1 := b1.toNat_lt
    intro w hw
    rcases List.mem_cons.mp hw with rfl | hw
    · rw [lodsw]
      omega
    · exact ih w hw
  | case2 b0 =>
    have h0 := b0.toNat_lt
    intro w hw
    rw [words16, List.mem_singleton] at hw
    omega
  | case3 =>
    intro w hw
    cases hw

/-- The checksum, from the representative of the sum. -/
theorem checksum_eq {words : List Nat} (h : ∀ w ∈ words, w ≤ 2 ^ 16 - 1) :
    checksum words = 2 ^ 16 - 1 - residue (2 ^ 16 - 1) words.sum := by
  rw [checksum, OnesComplement.foldl_addAround (by decide) (Nat.zero_le _) h, Nat.zero_add]

/-! ## The instructions add words -/

theorem residue_carry (s : Nat) :
    residue (2 ^ 16 - 1) (s % 2 ^ 32 + s / 2 ^ 32) = residue (2 ^ 16 - 1) s := by
  rw [← OnesComplement.residue_scale (2 ^ 16 - 1) (2 ^ 16 + 1)]
  congr 1
  omega

/-- An addition with carry, and the carry of its own. -/
theorem residue_adcl (ebx eax cf rest : Nat) :
    residue (2 ^ 16 - 1) ((adcl ebx eax cf).1 + (adcl ebx eax cf).2 + rest) =
      residue (2 ^ 16 - 1) (ebx + eax + cf + rest) := by
  rw [← OnesComplement.residue_add, adcl, residue_carry, OnesComplement.residue_add]

theorem adcl_lt {eax : Nat} (hebx : ebx + cf < 2 ^ 32) (heax : eax < 2 ^ 32) :
    (adcl ebx eax cf).1 + (adcl ebx eax cf).2 < 2 ^ 32 := by
  simp only [adcl]
  omega

theorem adcl_zero (h : ebx + cf < 2 ^ 32) : (adcl ebx 0 cf).1 = ebx + cf :=
  Nat.mod_eq_of_lt h

theorem lodsw_lt (b0 b1 : UInt8) : lodsw b0 b1 < 2 ^ 16 := by
  have h0 := b0.toNat_lt
  have h1 := b1.toNat_lt
  rw [lodsw]
  omega

theorem byte_le (b : UInt8) : b.toNat ≤ 2 ^ 16 - 1 := by
  have h := b.toNat_lt
  omega

/-- The loop adds the words of its part of the buffer.  The sum and the carry together never need more
than 32 bits. -/
theorem adclLoop_spec (hsum : ebx + cf < 2 ^ 32) (hlen : 4 * n ≤ buff.length) :
    ∃ ebx' cf', adclLoop n buff (ebx, cf) = ((ebx', cf'), buff.drop (4 * n)) ∧
      ebx' + cf' < 2 ^ 32 ∧
      residue (2 ^ 16 - 1) (ebx' + cf') =
        residue (2 ^ 16 - 1) (ebx + cf + (words16 (buff.take (4 * n))).sum) := by
  induction n generalizing buff ebx cf with
  | zero => exact ⟨ebx, cf, by cases buff <;> rfl, hsum, rfl⟩
  | succ n ih =>
    match buff, hlen with
    | b0 :: b1 :: b2 :: b3 :: buff, hlen =>
      have hlow := lodsw_lt b0 b1
      have hhigh := lodsw_lt b2 b3
      obtain ⟨ebx', cf', hloop, hsum', hresidue⟩ := @ih buff _ _
        (adcl_lt hsum (show lodsl b0 b1 b2 b3 < 2 ^ 32 by rw [lodsl]; omega))
        (by simp only [List.length_cons] at hlen; omega)
      refine ⟨ebx', cf', by rwa [adclLoop], hsum', ?_⟩
      rw [hresidue, residue_adcl, show 4 * (n + 1) = 4 * n + 1 + 1 + 1 + 1 by omega,
        List.take_succ_cons, List.take_succ_cons, List.take_succ_cons, List.take_succ_cons, words16,
        words16, List.sum_cons, List.sum_cons, lodsl]
      generalize (words16 (buff.take (4 * n))).sum = rest
      have hscale := OnesComplement.residue_scale (2 ^ 16 - 1) 1 (ebx + cf + lodsw b0 b1 + rest)
        (lodsw b2 b3)
      rw [show ebx + (lodsw b0 b1 + lodsw b2 b3 * 2 ^ 16) + cf + rest =
          ebx + cf + lodsw b0 b1 + rest + ((2 ^ 16 - 1) * 1 + 1) * lodsw b2 b3 by omega, hscale]
      congr 1
      omega

theorem addw_mod (h : x ≤ 2 ^ 16 - 1) :
    addw ebx x % 2 ^ 16 = residue (2 ^ 16 - 1) (ebx % 2 ^ 16 + x) := by
  have hlow : ebx % 2 ^ 16 ≤ 2 ^ 16 - 1 := Nat.le_pred_of_lt (Nat.mod_lt _ (by decide))
  rw [← OnesComplement.addAround_eq hlow h, addw, addAround]
  generalize ebx % 2 ^ 16 = low at hlow ⊢
  rw [Nat.mul_add_mod_self_right, Nat.mod_mod]
  split <;> omega

theorem fold_mod (h : ebx < 2 ^ 32) : fold ebx % 2 ^ 16 = residue (2 ^ 16 - 1) ebx := by
  rw [fold, addw_mod (by omega)]
  have hscale := OnesComplement.residue_scale (2 ^ 16 - 1) 1 (ebx % 2 ^ 16) (ebx / 2 ^ 16)
  rw [← hscale]
  congr 1
  omega

/-- The word and the byte that are left are added. -/
theorem tail_spec (hlen : len % 4 = l.length) :
    tail len l ebx % 2 ^ 16 = residue (2 ^ 16 - 1) (ebx % 2 ^ 16 + (words16 l).sum) := by
  have hlow (k : Nat) (hk : 3 &&& k = k) : len &&& k = l.length &&& k := by
    have hand : len &&& 3 = len % 4 := Nat.and_two_pow_sub_one_eq_mod len 2
    rw [← hlen, ← hand, Nat.and_assoc, hk]
  have htwo := hlow 2 (by decide)
  have hone := hlow 1 (by decide)
  match l, hlen with
  | [], _ =>
    have hrun : tail len [] ebx = ebx := by simp [tail, htwo, hone]
    have hle : ebx % 2 ^ 16 ≤ 2 ^ 16 - 1 := Nat.le_pred_of_lt (Nat.mod_lt _ (by decide))
    rw [hrun]
    exact (OnesComplement.residue_of_le hle).symm
  | [b0], _ =>
    have hrun : tail len [b0] ebx = addw ebx b0.toNat := by simp [tail, htwo, hone, addByte]
    rw [hrun, addw_mod (byte_le b0), words16, List.sum_singleton]
  | [b0, b1], _ =>
    have hrun : tail len [b0, b1] ebx = addw ebx (lodsw b0 b1) := by
      simp [tail, htwo, hone, addWord]
    rw [hrun, addw_mod (Nat.le_pred_of_lt (lodsw_lt b0 b1)), words16, words16, List.sum_singleton]
  | [b0, b1, b2], _ =>
    have hrun : tail len [b0, b1, b2] ebx = addw (addw ebx (lodsw b0 b1)) b2.toNat := by
      simp [tail, htwo, hone, addWord, addByte]
    have hbyte := @addw_mod (addw ebx (lodsw b0 b1)) _ (byte_le b2)
    rw [addw_mod (Nat.le_pred_of_lt (lodsw_lt b0 b1)), OnesComplement.residue_add] at hbyte
    rw [hrun]
    refine hbyte.trans ?_
    congr 1
    simp only [words16, List.sum_cons, List.sum_nil]
    omega
  | _ :: _ :: _ :: _ :: _, hlen =>
    simp only [List.length_cons] at hlen
    omega

theorem words16_append (l' : List UInt8) (h : l.length % 2 = 0) :
    words16 (l ++ l') = words16 l ++ words16 l' := by
  induction l using words16.induct with
  | case1 b0 b1 l ih =>
    rw [List.cons_append, List.cons_append, words16, words16, ih, List.cons_append]
    simp only [List.length_cons] at h
    omega
  | case2 b0 => cases h
  | case3 => rfl

/-- The words of a buffer, as the functions take them. -/
theorem sum_take_drop (l : List UInt8) :
    (words16 (l.take (4 * (l.length / 4)))).sum + (words16 (l.drop (4 * (l.length / 4)))).sum =
      (words16 l).sum := by
  rw [← List.sum_append, ← words16_append, List.take_append_drop]
  rw [List.length_take]
  omega

theorem loop_tail (hsum : ebx < 2 ^ 32) :
    ∃ ebx' cf', adclLoop (l.length >>> 2) l (ebx, 0) =
        ((ebx', cf'), l.drop (4 * (l.length / 4))) ∧
      tail l.length (l.drop (4 * (l.length / 4))) (fold (adcl ebx' 0 cf').1) % 2 ^ 16 =
        residue (2 ^ 16 - 1) (ebx + (words16 l).sum) := by
  obtain ⟨ebx', cf', hloop, hsum', hresidue⟩ := @adclLoop_spec l ebx 0 (l.length / 4)
    hsum (by omega)
  refine ⟨ebx', cf', ?_, ?_⟩
  · rw [Nat.shiftRight_eq_div_pow]
    exact hloop
  · rw [tail_spec (by rw [List.length_drop]; omega), adcl_zero hsum', fold_mod hsum', hresidue,
      OnesComplement.residue_add, Nat.add_zero, Nat.add_assoc, sum_take_drop]

/-! ## The functions compute the checksum -/

theorem ipComputeCsum_eq (buff : List UInt8) : ipComputeCsum buff = checksum (words16 buff) := by
  rw [checksum_eq (words16_le buff), ipComputeCsum]
  by_cases hlen : buff.length > 3
  · obtain ⟨ebx', cf', hloop, htail⟩ := @loop_tail buff 0 (by decide)
    rw [if_pos hlen, hloop]
    change 2 ^ 16 - 1 - tail _ _ _ % 2 ^ 16 = _
    rw [htail, Nat.zero_add]
  · rw [if_neg hlen]
    change 2 ^ 16 - 1 - tail _ _ _ % 2 ^ 16 = _
    rw [tail_spec (Nat.mod_eq_of_lt (by omega)), Nat.zero_mod, Nat.zero_add]

theorem ntohs_lt (x : Nat) : ntohs x < 2 ^ 16 := by
  unfold ntohs
  omega

theorem residue_address (a : BitVec 32) (rest : Nat) :
    residue (2 ^ 16 - 1) (a.toNat + rest) =
      residue (2 ^ 16 - 1) (a.toNat % 2 ^ 16 + a.toNat / 2 ^ 16 + rest) := by
  have hscale := OnesComplement.residue_scale (2 ^ 16 - 1) 1 (a.toNat % 2 ^ 16 + rest)
    (a.toNat / 2 ^ 16)
  rw [show a.toNat % 2 ^ 16 + a.toNat / 2 ^ 16 + rest =
    a.toNat % 2 ^ 16 + rest + a.toNat / 2 ^ 16 by omega, ← hscale]
  congr 1
  omega

theorem pseudoHeader_spec (saddr daddr : BitVec 32) (len : Nat) :
    ∃ ebx cf, adcl (adcl daddr.toNat saddr.toNat 0).1 (ntohs len * 2 ^ 16 + ipprotoTcp * 256)
        (adcl daddr.toNat saddr.toNat 0).2 = (ebx, cf) ∧ ebx + cf < 2 ^ 32 ∧
      ∀ rest, residue (2 ^ 16 - 1) (ebx + cf + rest) =
        residue (2 ^ 16 - 1) ((pseudoHeader saddr daddr len).sum + rest) := by
  have hlen := ntohs_lt len
  have hproto : ipprotoTcp = 6 := rfl
  have hword : ntohs len * 2 ^ 16 + ipprotoTcp * 256 < 2 ^ 32 := by
    rw [hproto]
    omega
  have hsum : (adcl daddr.toNat saddr.toNat 0).1 + (adcl daddr.toNat saddr.toNat 0).2 < 2 ^ 32 :=
    adcl_lt (by exact daddr.isLt) saddr.isLt
  have hfirst := residue_adcl daddr.toNat saddr.toNat 0
  generalize adcl daddr.toNat saddr.toNat 0 = p at hsum hfirst ⊢
  have hsum' := adcl_lt hsum hword
  have hsecond := residue_adcl p.1 (ntohs len * 2 ^ 16 + ipprotoTcp * 256) p.2
  generalize adcl p.1 (ntohs len * 2 ^ 16 + ipprotoTcp * 256) p.2 = q at hsum' hsecond ⊢
  refine ⟨q.1, q.2, rfl, hsum', ?_⟩
  intro rest
  have hscale := OnesComplement.residue_scale (2 ^ 16 - 1) 1 (ipprotoTcp * 256 + rest +
    (saddr.toNat % 2 ^ 16 + saddr.toNat / 2 ^ 16) + (daddr.toNat % 2 ^ 16 + daddr.toNat / 2 ^ 16))
    (ntohs len)
  calc residue (2 ^ 16 - 1) (q.1 + q.2 + rest)
      = residue (2 ^ 16 - 1) (p.1 + p.2 + (ntohs len * 2 ^ 16 + ipprotoTcp * 256 + rest)) := by
        rw [hsecond]
        congr 1
        omega
    _ = residue (2 ^ 16 - 1) (daddr.toNat +
          (saddr.toNat + (ntohs len * 2 ^ 16 + ipprotoTcp * 256 + rest))) := by
        rw [hfirst, Nat.add_zero, Nat.add_assoc]
    _ = residue (2 ^ 16 - 1) (saddr.toNat + (daddr.toNat % 2 ^ 16 + daddr.toNat / 2 ^ 16 +
          (ntohs len * 2 ^ 16 + ipprotoTcp * 256 + rest))) := by
        rw [residue_address]
        congr 1
        omega
    _ = residue (2 ^ 16 - 1) (ipprotoTcp * 256 + rest +
          (saddr.toNat % 2 ^ 16 + saddr.toNat / 2 ^ 16) +
          (daddr.toNat % 2 ^ 16 + daddr.toNat / 2 ^ 16) + ((2 ^ 16 - 1) * 1 + 1) * ntohs len) := by
        rw [residue_address]
        congr 1
        omega
    _ = residue (2 ^ 16 - 1) ((pseudoHeader saddr daddr len).sum + rest) := by
        rw [hscale, pseudoHeader]
        congr 1
        simp only [List.sum_cons, List.sum_nil]
        omega

theorem pseudoHeader_le (saddr daddr : BitVec 32) (len : Nat) :
    ∀ w ∈ pseudoHeader saddr daddr len, w ≤ 2 ^ 16 - 1 := by
  have hs := saddr.isLt
  have hd := daddr.isLt
  have hlen := ntohs_lt len
  have hproto : ipprotoTcp = 6 := rfl
  intro w hw
  simp only [pseudoHeader, List.mem_cons, List.not_mem_nil, or_false] at hw
  omega

theorem tcpCheck_eq (myAddr : BitVec 32) (th : List UInt8) (saddr daddr : BitVec 32) :
    tcpCheck myAddr th saddr daddr =
      checksum (pseudoHeader (if saddr = 0 then myAddr else saddr) daddr th.length ++
        words16 th) := by
  have hwords : ∀ w ∈ pseudoHeader (if saddr = 0 then myAddr else saddr) daddr th.length ++ words16 th,
      w ≤ 2 ^ 16 - 1 := by
    intro w hw
    rcases List.mem_append.mp hw with hw | hw
    · exact pseudoHeader_le _ _ _ w hw
    · exact words16_le th w hw
  rw [checksum_eq hwords, List.sum_append, tcpCheck]
  generalize (if saddr = 0 then myAddr else saddr) = saddr
  obtain ⟨ebx, cf, hpseudo, hsum, hresidue⟩ := pseudoHeader_spec saddr daddr th.length
  simp only [hpseudo]
  rw [adcl_zero hsum]
  by_cases hlen : th.length > 3
  · obtain ⟨ebx', cf', hloop, htail⟩ := loop_tail (l := th) hsum
    rw [if_pos hlen, hloop]
    change 2 ^ 16 - 1 - tail _ _ _ % 2 ^ 16 = _
    rw [htail, hresidue]
  · rw [if_neg hlen]
    change 2 ^ 16 - 1 - tail _ _ _ % 2 ^ 16 = _
    rw [tail_spec (Nat.mod_eq_of_lt (by omega)), fold_mod hsum, OnesComplement.residue_add, hresidue]

/-! ## Packets verify -/

@[simp]
theorem length_setCheck (i x : Nat) (l : List UInt8) : (setCheck i x l).length = l.length := by
  simp [setCheck]

theorem setCheck_setCheck (i x y : Nat) (l : List UInt8) :
    setCheck i x (setCheck i y l) = setCheck i x l := by
  unfold setCheck
  rw [List.set_comm _ _ (by omega : i + 1 ≠ i), List.set_set, List.set_set]

theorem take_setCheck (i x n : Nat) (l : List UInt8) :
    (setCheck i x l).take n = setCheck i x (l.take n) := by
  unfold setCheck
  rw [List.take_set, List.take_set]

/-- A store to the checksum field, where it is a word of the buffer. -/
theorem sum_setCheck (hi : i % 2 = 0) (hlen : i + 2 ≤ l.length) (hx : x < 2 ^ 16) :
    (words16 (setCheck i x l)).sum = (words16 (setCheck i 0 l)).sum + x := by
  obtain ⟨k, rfl⟩ : ∃ k, i = 2 * k := ⟨i / 2, by omega⟩
  clear hi
  induction k generalizing l with
  | zero =>
    match l, hlen with
    | b0 :: b1 :: l, _ =>
      have hfield (y : Nat) : setCheck (2 * 0) y (b0 :: b1 :: l) =
          UInt8.ofNat y :: UInt8.ofNat (y / 2 ^ 8) :: l := rfl
      rw [hfield, hfield, words16, words16, List.sum_cons, List.sum_cons, lodsw, lodsw]
      simp only [UInt8.toNat_ofNat']
      omega
  | succ k ih =>
    match l, hlen with
    | b0 :: b1 :: l, hlen =>
      have hrest (y : Nat) : setCheck (2 * (k + 1)) y (b0 :: b1 :: l) =
          b0 :: b1 :: setCheck (2 * k) y l := rfl
      simp only [List.length_cons] at hlen
      rw [hrest, hrest, words16, words16, List.sum_cons, List.sum_cons, ih (by omega), Nat.add_assoc]

theorem residue_complement (n : Nat) :
    residue (2 ^ 16 - 1) (n + (2 ^ 16 - 1 - residue (2 ^ 16 - 1) n)) = 2 ^ 16 - 1 := by
  have hle := OnesComplement.residue_le (m := 2 ^ 16 - 1) (by decide) n
  rw [← OnesComplement.residue_add, Nat.add_sub_cancel' hle]
  exact OnesComplement.residue_of_le (le_refl _)

theorem ipSendCheck_verifies {iph : List UInt8} (hcheck : 12 ≤ headerLength iph)
    (hlen : headerLength iph ≤ iph.length) :
    ipComputeCsum ((ipSendCheck iph).take (headerLength (ipSendCheck iph))) = 0 := by
  have hhead (x : Nat) : headerLength (setCheck 10 x iph) = headerLength iph := by
    cases iph with
    | nil => rfl
    | cons b l => rfl
  rw [ipSendCheck, hhead, setCheck_setCheck, hhead, take_setCheck, take_setCheck, ipComputeCsum_eq,
    ipComputeCsum_eq, checksum_eq (words16_le _), checksum_eq (words16_le _),
    sum_setCheck (by decide) (by rw [List.length_take]; omega) (by omega), residue_complement,
    Nat.sub_self]

theorem tcpSendCheck_verifies (myAddr : BitVec 32) {th : List UInt8} (saddr daddr : BitVec 32)
    (hcheck : 18 ≤ th.length) :
    tcpCheck myAddr (tcpSendCheck myAddr false th saddr daddr) saddr daddr = 0 := by
  have hwords (l : List UInt8) : ∀ w ∈ pseudoHeader (if saddr = 0 then myAddr else saddr) daddr
      th.length ++ words16 l, w ≤ 2 ^ 16 - 1 := by
    intro w hw
    rcases List.mem_append.mp hw with hw | hw
    · exact pseudoHeader_le _ _ _ w hw
    · exact words16_le l w hw
  rw [tcpSendCheck, if_neg Bool.false_ne_true, setCheck_setCheck, tcpCheck_eq, tcpCheck_eq,
    length_setCheck, length_setCheck, checksum_eq (hwords _), checksum_eq (hwords _),
    List.sum_append, List.sum_append, sum_setCheck (by decide) (by omega) (by omega),
    ← Nat.add_assoc, residue_complement, Nat.sub_self]

end Proofs

/-- **Internet checksums**: the functions compute the complement of the one's-complement sum, and over
a packet with its checksum in it they compute 0. -/
theorem checksums_correct :
    (∀ buff, ipComputeCsum buff = checksum (words16 buff)) ∧
    (∀ myAddr th saddr daddr, tcpCheck myAddr th saddr daddr =
      checksum (pseudoHeader (if saddr = 0 then myAddr else saddr) daddr th.length ++ words16 th)) ∧
    (∀ iph, 12 ≤ headerLength iph → headerLength iph ≤ iph.length →
      ipComputeCsum ((ipSendCheck iph).take (headerLength (ipSendCheck iph))) = 0) ∧
    ∀ myAddr th saddr daddr, 18 ≤ th.length →
      tcpCheck myAddr (tcpSendCheck myAddr false th saddr daddr) saddr daddr = 0 :=
  ⟨ipComputeCsum_eq, tcpCheck_eq, fun _ => ipSendCheck_verifies,
    fun myAddr _ saddr daddr => tcpSendCheck_verifies myAddr saddr daddr⟩

/-- A header that ends in front of its checksum: `ihl` is 2. -/
theorem short_header_fails : ¬ ∀ iph : List UInt8, headerLength iph ≤ iph.length →
    ipComputeCsum ((ipSendCheck iph).take (headerLength (ipSendCheck iph))) = 0 := fun h =>
  absurd (h (0x42 :: List.replicate 19 0) (by decide)) (by decide)

end LinuxEvocation.Checksum
