import LinuxEvocation.Net.Checksum
import Mathlib.Data.UInt

/-!
# Headers that are sent compressed

For each connection the receiver remembers the header of its last packet.  A compressed packet has what
changed in it, and the header is put in front of the data in the place where the packet was received.

* `CState`, `SlCompress` — what is remembered.
* `slhcRemember`, `slhcUncompress` — the functions; `Uncompressed.top` is where the stores to the buffer
  end.
* `Remembers`, `Known` — when they succeed; `Fits` — when a number of bytes behind the packet are enough.
-/

namespace LinuxEvocation.Sl

open Function (update update_of_ne update_self)

/-- Bytes in memory, from some place on. -/
abbrev Bytes := Nat → UInt8

def bytesOf (b : Bytes) (n : Nat) : List UInt8 := (List.range n).map b

/-- `ntohs` and `ntohl` of a field, and the fields after `htons` and `htonl`. -/
def get16 (b : Bytes) (i : Nat) : Nat := (b i).toNat * 2 ^ 8 + (b (i + 1)).toNat

def get32 (b : Bytes) (i : Nat) : Nat := get16 b i * 2 ^ 16 + get16 b (i + 2)

def put16 (b : Bytes) (i x : Nat) : Bytes :=
  update (update b i (UInt8.ofNat (x / 2 ^ 8))) (i + 1) (UInt8.ofNat x)

def put32 (b : Bytes) (i x : Nat) : Bytes := put16 (put16 b i (x / 2 ^ 16)) (i + 2) x

/-- The bytes after those from `dst` on were stored, and where the stores so far end. -/
def copy (b : Bytes × Nat) (dst n : Nat) (src : Bytes) : Bytes × Nat :=
  (fun i => if dst ≤ i ∧ i < dst + n then src (i - dst) else b.1 i,
    if n = 0 then b.2 else max b.2 (dst + n))

/-- The headers of a connection. -/
structure CState where
  ip : Bytes
  tcp : Bytes
  ipopt : Bytes
  tcpopt : Bytes
  hsize : Nat

def CState.ihl (cs : CState) : Nat := (cs.ip 0).toNat % 16

def CState.doff (cs : CState) : Nat := (cs.tcp 12).toNat / 16

def CState.hdrlen (cs : CState) : Nat := cs.ihl * 4 + cs.doff * 4

/-- The side that receives. -/
structure SlCompress where
  rstate : UInt8 → CState
  rslotLimit : UInt8
  recvCurrent : UInt8
  /-- `flags & SLF_TOSS`. -/
  toss : Bool

/-- `slhc_init(16, 16)`. -/
def slhcInit : SlCompress where
  rstate := fun _ => { ip := 0, tcp := 0, ipopt := 0, tcpopt := 0, hsize := 0 }
  rslotLimit := 15
  recvCurrent := 255
  toss := true

def slhcToss (comp : SlCompress) : SlCompress := { comp with toss := true }

/-! ## Headers that are remembered -/

def ipCsum (iph : Bytes) : Nat :=
  if iph 10 = 0 ∧ iph 11 = 0 then 0
  else if Checksum.ipComputeCsum (bytesOf iph ((iph 0).toNat % 16 * 4)) = 0 then 0
  else 1

/-- What is stored for the connection. -/
def remembered (ip : Bytes) : CState :=
  let ihl := (ip 0).toNat % 16
  let tcp : Bytes := fun i => ip (ihl * 4 + i)
  { ip, tcp
    ipopt := fun i => ip (20 + i)
    tcpopt := fun i => tcp (20 + i)
    hsize := ihl * 2 + (tcp 12).toNat / 16 * 2 }

def slhcRemember (comp : SlCompress) (icp : Bytes) (isize : Nat) : SlCompress × Bytes × Nat :=
  if isize < 20 then (slhcToss comp, icp, 0)
  else if (icp 0).toNat % 16 * 4 < 20 then (slhcToss comp, icp, 0)
  else
    let index := icp 9
    let icp := update icp 9 (UInt8.ofNat Checksum.ipprotoTcp)
    if ipCsum icp ≠ 0 then (slhcToss comp, icp, 0)
    else if comp.rslotLimit < index then (slhcToss comp, icp, 0)
    else ({ comp with
      recvCurrent := index
      toss := false
      rstate := update comp.rstate index (remembered icp) }, icp, isize)

/-! ## Compressed packets -/

def newC : UInt8 := 0x40
def newI : UInt8 := 0x20
def newS : UInt8 := 0x08
def newA : UInt8 := 0x04
def newW : UInt8 := 0x02
def newU : UInt8 := 0x01
def specialI : UInt8 := 0x0b
def specialD : UInt8 := 0x0f
def specialsMask : UInt8 := 0x0f
def tcpPushBit : UInt8 := 0x10

/-- The number at a place of the packet. -/
def decode (cp : Bytes) (i : Nat) : Nat := if cp i = 0 then get16 cp (i + 1) else (cp i).toNat

/-- Where the number ends, if there is one. -/
def skip (changes bit : UInt8) (cp : Bytes) (i : Nat) : Nat :=
  if changes &&& bit ≠ 0 then if cp i = 0 then i + 3 else i + 1 else i

def setBit (b : Bytes) (i : Nat) (bit : UInt8) (on : Bool) : Bytes :=
  update b i (if on then b i ||| bit else b i &&& ~~~bit)

/-- A number is added to a field of the header. -/
def add16 (changes bit : UInt8) (cp : Bytes) (i : Nat) (h : Bytes) (field : Nat) : Bytes :=
  if changes &&& bit ≠ 0 then put16 h field (get16 h field + decode cp i) else h

def add32 (changes bit : UInt8) (cp : Bytes) (i : Nat) (h : Bytes) (field : Nat) : Bytes :=
  if changes &&& bit ≠ 0 then put32 h field (get32 h field + decode cp i) else h

/-- The switch: the changes of the TCP header. -/
def specials (changes : UInt8) (cp : Bytes) (i : Nat) (ip tcp : Bytes) (hdrlen : Nat) : Bytes :=
  if changes &&& specialsMask = specialI then
    -- the difference is a `short`
    let d := (get16 ip 2 + 2 ^ 16 - hdrlen) % 2 ^ 16
    let x := if d < 2 ^ 15 then d else d + 2 ^ 32 - 2 ^ 16
    let tcp := put32 tcp 8 (get32 tcp 8 + x)
    put32 tcp 4 (get32 tcp 4 + x)
  else if changes &&& specialsMask = specialD then
    put32 tcp 4 (get32 tcp 4 + get16 ip 2 + 2 ^ 32 - hdrlen)
  else
    let tcp := setBit tcp 13 0x20 (changes &&& newU ≠ 0)
    let tcp := if changes &&& newU ≠ 0 then put16 tcp 18 (decode cp i) else tcp
    let i := skip changes newU cp i
    let tcp := add16 changes newW cp i tcp 14
    let i := skip changes newW cp i
    let tcp := add32 changes newA cp i tcp 8
    let i := skip changes newA cp i
    add32 changes newS cp i tcp 4

def specialsEnd (changes : UInt8) (cp : Bytes) (i : Nat) : Nat :=
  if changes &&& specialsMask = specialI ∨ changes &&& specialsMask = specialD then i
  else skip changes newS cp (skip changes newA cp (skip changes newW cp (skip changes newU cp i)))

/-- The identification: it goes up by one if nothing is said. -/
def identification (changes : UInt8) (cp : Bytes) (i : Nat) (ip : Bytes) : Bytes :=
  put16 ip 4 (get16 ip 4 + if changes &&& newI ≠ 0 then decode cp i else 1)

/-- The headers in front of the data. -/
def rebuild (cs : CState) (icp : Bytes) (cp n : Nat) : Bytes × Nat :=
  let b := copy (icp, 0) cs.hdrlen n fun i => icp (cp + i)
  let b := copy b 0 20 cs.ip
  let b := copy b 20 ((cs.ihl - 5) * 4) cs.ipopt
  let i := 20 + (cs.ihl - 5) * 4
  let b := copy b i 20 cs.tcp
  copy b (i + 20) ((cs.doff - 5) * 4) cs.tcpopt

structure Uncompressed where
  comp : SlCompress
  icp : Bytes
  len : Int
  top : Nat

/-- The connection is the one in the packet, or the last one. -/
def connection (comp : SlCompress) (icp : Bytes) : SlCompress :=
  if icp 0 &&& newC ≠ 0 then { comp with toss := false, recvCurrent := icp 1 } else comp

/-- Where the checksum is. -/
def checkAt (icp : Bytes) : Nat := if icp 0 &&& newC ≠ 0 then 2 else 1

/-- The length of the compressed header. -/
def compressedLength (icp : Bytes) : Nat :=
  skip (icp 0) newI icp (specialsEnd (icp 0) icp (checkAt icp + 2))

/-- The headers with the changes. -/
def changed (cs : CState) (icp : Bytes) (isize : Nat) : CState :=
  let changes := icp 0
  let i := checkAt icp
  let tcp := put16 cs.tcp 16 (get16 icp i)
  let tcp := setBit tcp 13 0x08 (changes &&& tcpPushBit ≠ 0)
  let tcp := specials changes icp (i + 2) cs.ip tcp cs.hdrlen
  let ip := identification changes icp (specialsEnd changes icp (i + 2)) cs.ip
  let len := isize + 2 ^ 32 - compressedLength icp + cs.hdrlen
  let ip := put16 ip 2 len
  { cs with tcp := tcp, ip := put16 ip 10 0 }

def slhcUncompress (comp : SlCompress) (icp : Bytes) (isize : Nat) : Uncompressed :=
  if isize < 3 then { comp, icp, len := 0, top := 0 }
  else if icp 0 &&& newC ≠ 0 ∧ comp.rslotLimit < icp 1 then
    { comp := slhcToss comp, icp, len := 0, top := 0 }
  else if icp 0 &&& newC = 0 ∧ comp.toss then { comp, icp, len := 0, top := 0 }
  else
    let comp := connection comp icp
    let cs := changed (comp.rstate comp.recvCurrent) icp isize
    -- the number of bytes is unsigned
    let b := rebuild cs icp (compressedLength icp)
      ((isize + 2 ^ 32 - compressedLength icp) % 2 ^ 32)
    { comp := { comp with rstate := update comp.rstate comp.recvCurrent cs }
      icp := b.1
      len := (isize : Int) - compressedLength icp + cs.hdrlen
      top := b.2 }

/-! ## When they succeed -/

/-- The header is remembered. -/
def Remembers (comp : SlCompress) (icp : Bytes) (isize : Nat) : Prop :=
  20 ≤ isize ∧ 5 ≤ (icp 0).toNat % 16 ∧
    ipCsum (update icp 9 (UInt8.ofNat Checksum.ipprotoTcp)) = 0 ∧ icp 9 ≤ comp.rslotLimit

/-- The connection is known. -/
def Known (comp : SlCompress) (icp : Bytes) : Prop :=
  if icp 0 &&& newC ≠ 0 then icp 1 ≤ comp.rslotLimit else comp.toss = false

/-- The headers that are remembered for the connection. -/
def headers (comp : SlCompress) (icp : Bytes) : CState :=
  (connection comp icp).rstate (connection comp icp).recvCurrent

/-- The packet has all of its compressed header; the header that comes in its place is longer by at most
`space`, and ends at most `space` bytes behind the packet. -/
def Fits (comp : SlCompress) (icp : Bytes) (isize space : Nat) : Prop :=
  compressedLength icp ≤ isize ∧ (headers comp icp).hdrlen ≤ compressedLength icp + space ∧
    max (headers comp icp).ihl 5 * 4 + max (headers comp icp).doff 5 * 4 ≤ isize + space

/-- No header that is remembered begins like a packet that is compressed. -/
def Plain (comp : SlCompress) : Prop := ∀ i, (comp.rstate i).ip 0 < 0x70

section Proofs

variable {b : Bytes} {comp : SlCompress} {icp : Bytes} {isize space : Nat} {i j x : Nat}

theorem put16_of_ne (h : j ≠ i) (h' : j ≠ i + 1) : put16 b i x j = b j := by
  rw [put16, update_of_ne h', update_of_ne h]

theorem put32_of_ne (h : j < i ∨ i + 3 < j) : put32 b i x j = b j := by
  rw [put32, put16_of_ne (by omega) (by omega), put16_of_ne (by omega) (by omega)]

theorem setBit_of_ne {bit : UInt8} {on : Bool} (h : j ≠ i) : setBit b i bit on j = b j :=
  update_of_ne h _ _

theorem add16_of_ne {changes bit : UInt8} {cp : Bytes} {h : Bytes} {field : Nat} (hj : j ≠ field)
    (hj' : j ≠ field + 1) : add16 changes bit cp i h field j = h j := by
  unfold add16
  split
  · exact put16_of_ne hj hj'
  · rfl

theorem add32_of_ne {changes bit : UInt8} {cp : Bytes} {h : Bytes} {field : Nat}
    (hj : j < field ∨ field + 3 < j) : add32 changes bit cp i h field j = h j := by
  unfold add32
  split
  · exact put32_of_ne hj
  · rfl

/-- The changes of the TCP header leave its length. -/
theorem specials_length (changes : UInt8) (cp : Bytes) (i : Nat) (ip tcp : Bytes) (hdrlen : Nat) :
    specials changes cp i ip tcp hdrlen 12 = tcp 12 := by
  unfold specials
  split
  · rw [put32_of_ne (.inr (by omega)), put32_of_ne (.inr (by omega))]
  · split
    · exact put32_of_ne (.inr (by omega))
    · simp only
      rw [add32_of_ne (.inr (by omega)), add32_of_ne (.inr (by omega)), add16_of_ne (by omega) (by omega)]
      split
      · rw [put16_of_ne (by omega) (by omega), setBit_of_ne (by omega)]
      · exact setBit_of_ne (by omega)

/-- The changes leave the lengths of the headers. -/
theorem changed_first (cs : CState) (icp : Bytes) (isize : Nat) :
    (changed cs icp isize).ip 0 = cs.ip 0 := by
  simp only [changed, identification]
  rw [put16_of_ne (by omega) (by omega), put16_of_ne (by omega) (by omega),
    put16_of_ne (by omega) (by omega)]

theorem changed_ihl (cs : CState) (icp : Bytes) (isize : Nat) :
    (changed cs icp isize).ihl = cs.ihl := by
  rw [CState.ihl, changed_first, CState.ihl]

theorem changed_doff (cs : CState) (icp : Bytes) (isize : Nat) :
    (changed cs icp isize).doff = cs.doff := by
  simp only [CState.doff, changed]
  rw [specials_length, setBit_of_ne (by omega), put16_of_ne (by omega) (by omega)]

theorem changed_hdrlen (cs : CState) (icp : Bytes) (isize : Nat) :
    (changed cs icp isize).hdrlen = cs.hdrlen := by
  rw [CState.hdrlen, changed_ihl, changed_doff, CState.hdrlen]

theorem rebuild_first (cs : CState) (icp : Bytes) (cp n : Nat) : (rebuild cs icp cp n).1 0 = cs.ip 0 := by
  simp [rebuild, copy]

theorem rebuild_top (cs : CState) (icp : Bytes) (cp n : Nat) : (rebuild cs icp cp n).2 =
    max (if n = 0 then 0 else cs.hdrlen + n) (max cs.ihl 5 * 4 + max cs.doff 5 * 4) := by
  have hmax (m : Nat) : max m 5 = m - 5 + 5 := by omega
  simp only [rebuild, copy, CState.hdrlen, hmax, OfNat.ofNat_ne_zero, if_false]
  split_ifs <;> omega

theorem skip_le (changes bit : UInt8) (cp : Bytes) (i : Nat) :
    i ≤ skip changes bit cp i ∧ skip changes bit cp i ≤ i + 3 := by
  unfold skip
  split_ifs <;> omega

theorem compressedLength_le (icp : Bytes) : compressedLength icp ≤ 19 := by
  unfold compressedLength specialsEnd checkAt
  have hI := skip_le (icp 0) newI icp
  have hS := skip_le (icp 0) newS icp
  have hA := skip_le (icp 0) newA icp
  have hW := skip_le (icp 0) newW icp
  have hU := skip_le (icp 0) newU icp
  generalize hi : (if icp 0 &&& newC ≠ 0 then 2 else 1) + 2 = i
  have hle : i ≤ 4 := by split at hi <;> omega
  split
  · exact (hI i).2.trans (by omega)
  · have := (hU i).2
    have := (hW (skip (icp 0) newU icp i)).2
    have := (hA (skip (icp 0) newW icp (skip (icp 0) newU icp i))).2
    have := (hS (skip (icp 0) newA icp (skip (icp 0) newW icp (skip (icp 0) newU icp i)))).2
    exact (hI _).2.trans (by omega)

/-- What is done where the connection is known. -/
theorem slhcUncompress_known (hsize : 3 ≤ isize) (h : Known comp icp) :
    slhcUncompress comp icp isize =
      let cs := changed (headers comp icp) icp isize
      let b := rebuild cs icp (compressedLength icp)
        ((isize + 2 ^ 32 - compressedLength icp) % 2 ^ 32)
      { comp := { connection comp icp with
          rstate := update (connection comp icp).rstate (connection comp icp).recvCurrent cs }
        icp := b.1
        len := (isize : Int) - compressedLength icp + cs.hdrlen
        top := b.2 } := by
  unfold Known at h
  unfold slhcUncompress
  rw [if_neg (by omega)]
  by_cases hnew : icp 0 &&& newC ≠ 0
  · rw [if_pos hnew] at h
    rw [if_neg (fun hbad => UInt8.not_lt.mpr h hbad.2), if_neg (fun hbad => hnew hbad.1)]
    rfl
  · rw [if_neg hnew] at h
    rw [if_neg (fun hbad => hnew hbad.1), if_neg (fun hbad => by simp [h] at hbad)]
    rfl

theorem slhcUncompress_unknown (hsize : 3 ≤ isize) (h : ¬ Known comp icp) :
    (slhcUncompress comp icp isize).len = 0 ∧ (slhcUncompress comp icp isize).top = 0 ∧
      ((slhcUncompress comp icp isize).comp = comp ∨
        (slhcUncompress comp icp isize).comp = slhcToss comp) := by
  unfold Known at h
  unfold slhcUncompress
  rw [if_neg (by omega)]
  by_cases hnew : icp 0 &&& newC ≠ 0
  · rw [if_pos hnew, UInt8.not_le] at h
    rw [if_pos ⟨hnew, h⟩]
    exact ⟨rfl, rfl, .inr rfl⟩
  · rw [if_neg hnew, Bool.not_eq_false] at h
    rw [if_neg (fun hbad => hnew hbad.1), if_pos ⟨not_not.mp hnew, h⟩]
    exact ⟨rfl, rfl, .inl rfl⟩

/-- **Where the stores end**: behind a packet whose connection is known, if the header fits. -/
theorem slhcUncompress_top (hsize : 3 ≤ isize) (hlt : isize < 2 ^ 31) (hspace : space < 2 ^ 30) :
    (slhcUncompress comp icp isize).top ≤ isize + space ↔
      (Known comp icp → Fits comp icp isize space) := by
  by_cases hknown : Known comp icp
  · have hle := compressedLength_le icp
    have hhdr : (headers comp icp).hdrlen =
        (headers comp icp).ihl * 4 + (headers comp icp).doff * 4 := rfl
    rw [slhcUncompress_known hsize hknown]
    simp only [rebuild_top, changed_hdrlen, changed_ihl, changed_doff, Fits, hknown, true_implies]
    generalize compressedLength icp = n at hle ⊢
    by_cases hn : n ≤ isize
    · have hmod : (isize + 2 ^ 32 - n) % 2 ^ 32 = isize - n := by omega
      rw [hmod]
      split_ifs <;> omega
    · have hmod : (isize + 2 ^ 32 - n) % 2 ^ 32 = isize + 2 ^ 32 - n := by omega
      rw [hmod, if_neg (by omega)]
      omega
  · rw [(slhcUncompress_unknown hsize hknown).2.1]
    exact iff_of_true (Nat.zero_le _) fun h => absurd h hknown

/-- What comes out begins like the header that was remembered. -/
theorem slhcUncompress_first (hsize : 3 ≤ isize) (hplain : Plain comp)
    (hlen : (slhcUncompress comp icp isize).len ≠ 0) :
    (slhcUncompress comp icp isize).icp 0 < 0x70 := by
  by_cases hknown : Known comp icp
  · rw [slhcUncompress_known hsize hknown]
    simp only [rebuild_first, changed_first]
    have hsame : (connection comp icp).rstate = comp.rstate := by
      unfold connection
      split <;> rfl
    rw [headers, hsame]
    exact hplain _
  · exact absurd (slhcUncompress_unknown hsize hknown).1 hlen

theorem plain_uncompress (hsize : 3 ≤ isize) (hplain : Plain comp) :
    Plain (slhcUncompress comp icp isize).comp := by
  by_cases hknown : Known comp icp
  · have hsame : (connection comp icp).rstate = comp.rstate := by
      unfold connection
      split <;> rfl
    rw [slhcUncompress_known hsize hknown]
    intro i
    simp only [headers, hsame]
    by_cases hi : i = (connection comp icp).recvCurrent
    · rw [hi, update_self, changed_first]
      exact hplain _
    · rw [update_of_ne hi]
      exact hplain i
  · rcases (slhcUncompress_unknown hsize hknown).2.2 with heq | heq
    · rwa [heq]
    · rw [heq]
      exact hplain

/-- What is done where the header is remembered. -/
theorem slhcRemember_of_remembers (h : Remembers comp icp isize) :
    slhcRemember comp icp isize =
      let ip := update icp 9 (UInt8.ofNat Checksum.ipprotoTcp)
      ({ comp with
        recvCurrent := icp 9
        toss := false
        rstate := update comp.rstate (icp 9) (remembered ip) }, ip, isize) := by
  obtain ⟨hsize, hihl, hsum, hindex⟩ := h
  unfold slhcRemember
  rw [if_neg (by omega), if_neg (by omega)]
  simp only
  rw [if_neg (not_not.mpr hsum), if_neg (UInt8.not_lt.mpr hindex)]

theorem slhcRemember_of_not (h : ¬ Remembers comp icp isize) :
    (slhcRemember comp icp isize).1 = slhcToss comp ∧ (slhcRemember comp icp isize).2.2 = 0 := by
  unfold slhcRemember
  by_cases hsize : isize < 20
  · rw [if_pos hsize]
    exact ⟨rfl, rfl⟩
  rw [if_neg hsize]
  by_cases hihl : (icp 0).toNat % 16 * 4 < 20
  · rw [if_pos hihl]
    exact ⟨rfl, rfl⟩
  rw [if_neg hihl]
  simp only
  by_cases hsum : ipCsum (update icp 9 (UInt8.ofNat Checksum.ipprotoTcp)) = 0
  · rw [if_neg (not_not.mpr hsum)]
    by_cases hindex : comp.rslotLimit < icp 9
    · rw [if_pos hindex]
      exact ⟨rfl, rfl⟩
    · exact absurd ⟨by omega, by omega, hsum, UInt8.not_lt.mp hindex⟩ h
  · rw [if_pos hsum]
    exact ⟨rfl, rfl⟩

theorem plain_remember (hplain : Plain comp) (hicp : icp 0 < 0x70) :
    Plain (slhcRemember comp icp isize).1 := by
  by_cases h : Remembers comp icp isize
  · rw [slhcRemember_of_remembers h]
    intro i
    simp only
    by_cases hi : i = icp 9
    · rw [hi, update_self]
      exact hicp
    · rw [update_of_ne hi]
      exact hplain i
  · rw [(slhcRemember_of_not h).1]
    exact hplain

end Proofs

end LinuxEvocation.Sl
