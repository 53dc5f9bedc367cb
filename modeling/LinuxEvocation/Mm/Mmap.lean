import LinuxEvocation.Mm.Unmap
import LinuxEvocation.Ipc.Shm.Basic

/-!
# `do_mmap`: the choice of an address

Without `MAP_FIXED`, `do_mmap` looks for the address itself: from `SHM_RANGE_START` on it steps
from the end of one area that is in the way to the end of the next.  All arithmetic is 32-bit,
and only the vm areas are looked at.

* `findHole` — the `while` loop; `doMmap` — the call.
* `Hole`, `LowestHole` — what the loop looks for, without the 32-bit arithmetic.
* `do_mmap_free_iff` — when the address that is returned is free.
-/

namespace LinuxEvocation.Mm

open Ipc.Shm (ShmDesc shmRangeStart shmRangeEnd)

/-! ## The code -/

/-- What `do_mmap` reads of a `struct file`. -/
structure MmapFile where
  fMode : UInt16
  /-- `file->f_op && file->f_op->mmap`. -/
  hasMmap : Bool

/-- `MAP_SHARED`, `MAP_PRIVATE`, `MAP_TYPE`, `MAP_FIXED`. -/
def mapShared : UInt32 := 1
def mapPrivate : UInt32 := 2
def mapType : UInt32 := 0xf
def mapFixed : UInt32 := 0x10

/-- `PROT_READ`, `PROT_WRITE`, `PROT_EXEC`. -/
def protRead : UInt32 := 1
def protWrite : UInt32 := 2
def protExec : UInt32 := 4

/-- `PAGE_READONLY`, `PAGE_RW`, `PAGE_COW`. -/
def pageReadonly : UInt32 := 0x25
def pageRw : UInt32 := 0x2
def pageCow : UInt32 := 0x200

/-- The area is in the way: neither of the two `continue` is taken for it. -/
def inTheWay (addr len : UInt32) (vmm : VmArea) : Bool :=
  !(addr.toNat ≥ vmm.vmEnd) && !((addr + len).toNat ≤ vmm.vmStart)

/-- "Maybe this works.. Ugly it is."  The `while` loop, from the address `addr` on. -/
def findHole (mmap : List VmArea) (len : UInt32) : Nat → UInt32 → Option UInt32
  | 0, _ => none
  | fuel + 1, addr =>
    if (addr + len).toNat < shmRangeEnd then
      match mmap.find? (inTheWay addr len) with
      | none => some addr
      | some vmm => findHole mmap len fuel (UInt32.ofNat (pageAlign vmm.vmEnd))
    else some addr

/-- The checks in front of the choice of an address. -/
def mmapCheck (f : MmapFile) (addr len prot flags : UInt32) : Bool :=
  !(addr.toNat > taskSize || len.toNat > taskSize || addr.toNat > taskSize - len.toNat) &&
    (flags &&& mapType == mapShared && !(prot &&& protWrite != 0 && f.fMode &&& 2 == 0) ||
      flags &&& mapType == mapPrivate) && f.fMode &&& 1 != 0

/-- The protection of the pages. -/
def mmapMask (prot flags : UInt32) : UInt32 :=
  (if prot &&& (protRead ||| protExec) != 0 then pageReadonly else 0) |||
    if prot &&& protWrite != 0 then
      if flags &&& mapType == mapPrivate then pageCow else pageRw
    else 0

/-- `do_mmap`: `none` when the loop does not end within `fuel` rounds, else what it returns.
`mapper` is `file->f_op->mmap` for the address, the length and the protection. -/
def doMmap (f : MmapFile) (mapper : UInt32 → UInt32 → UInt32 → Int) (mmap : List VmArea)
    (fuel : Nat) (addr len prot flags : UInt32) : Option (Except Int UInt32) :=
  if mmapCheck f addr len prot flags = false then some (.error (-Errno.einval))
  else
    let finish (addr : UInt32) : Except Int UInt32 :=
      if f.hasMmap = false then .error (-Errno.enodev)
      else if mmapMask prot flags = 0 then .error (-Errno.einval)
      else if mapper addr len (mmapMask prot flags) = 0 then .ok addr
      else .error (-1)
    if flags &&& mapFixed ≠ 0 then
      if addr.toNat % pageSize ≠ 0 then some (.error (-Errno.einval))
      else if len.toNat > taskSize ∨ addr.toNat > taskSize - len.toNat then
        some (.error (-Errno.enomem))
      else some (finish addr)
    else
      (findHole mmap len fuel (UInt32.ofNat shmRangeStart)).map fun addr =>
        if (addr + len).toNat ≥ shmRangeEnd then .error (-Errno.enomem) else finish addr

/-! ## Holes -/

/-- The two ranges have no address in common. -/
def Clear (addr len start stop : Nat) : Prop := addr + len ≤ start ∨ stop ≤ addr

instance (addr len start stop : Nat) : Decidable (Clear addr len start stop) :=
  inferInstanceAs (Decidable (_ ∨ _))

/-- A page-aligned address from which on `len` addresses are free of vm areas. -/
structure Hole (mmap : List VmArea) (len addr : Nat) : Prop where
  aligned : addr % pageSize = 0
  start_le : shmRangeStart ≤ addr
  clear : ∀ a ∈ mmap, Clear addr len a.vmStart a.vmEnd

/-- The lowest one. -/
structure LowestHole (mmap : List VmArea) (len addr : Nat) : Prop where
  hole : Hole mmap len addr
  lowest : ∀ b, Hole mmap len b → addr ≤ b

/-- An area of a task: it ends below `TASK_SIZE`. -/
def VmArea.InTask (a : VmArea) : Prop := a.vmEnd ≤ taskSize

section Search

variable {mmap : List VmArea} {len : UInt32}

theorem pageAlign_le {x : Nat} (h : x ≤ taskSize) : pageAlign x ≤ taskSize := by
  unfold pageAlign pageMask pageSize taskSize at *
  omega

theorem le_pageAlign (x : Nat) : x ≤ pageAlign x := by
  unfold pageAlign pageMask pageSize
  omega

/-- No page starts between an address and the address rounded up. -/
theorem pageAlign_le_of_le {x b : Nat} (hb : b % pageSize = 0) (h : x ≤ b) : pageAlign x ≤ b := by
  unfold pageAlign pageMask pageSize at *
  omega

theorem pageAlign_mod (x : Nat) : pageAlign x % pageSize = 0 := by
  unfold pageAlign
  exact pageMask_mod _

/-- The address behind an area, as the code forms it. -/
theorem toNat_pageAlign {a : VmArea} (ha : a.InTask) :
    (UInt32.ofNat (pageAlign a.vmEnd)).toNat = pageAlign a.vmEnd := by
  have h := pageAlign_le ha
  rw [UInt32.toNat_ofNat', Nat.mod_eq_of_lt]
  unfold taskSize at h
  omega

/-- An area that is in the way, without the 32-bit sum. -/
theorem inTheWay_iff {addr : UInt32} {a : VmArea}
    (hsum : (addr + len).toNat = addr.toNat + len.toNat) :
    inTheWay addr len a = true ↔ ¬ Clear addr.toNat len.toNat a.vmStart a.vmEnd := by
  unfold inTheWay Clear
  rw [hsum]
  simp only [Bool.and_eq_true, Bool.not_eq_true', decide_eq_false_iff_not]
  omega

/-- **The loop ends** after at most one round for each area that ends behind the address. -/
theorem findHole_total (hareas : ∀ a ∈ mmap, a.InTask) {fuel : Nat} {addr : UInt32}
    (hfuel : (mmap.filter fun a => addr.toNat < a.vmEnd).length < fuel) :
    ∃ r, findHole mmap len fuel addr = some r := by
  induction fuel generalizing addr with
  | zero => omega
  | succ fuel ih =>
    rw [findHole]
    by_cases hlt : (addr + len).toNat < shmRangeEnd
    · rw [if_pos hlt]
      cases hfind : mmap.find? (inTheWay addr len) with
      | none => exact ⟨addr, rfl⟩
      | some a =>
        refine ih ?_
        have ha := List.mem_of_find?_eq_some hfind
        have hnat := toNat_pageAlign (hareas a ha)
        have hbehind : addr.toNat < a.vmEnd := by
          have hway := List.find?_some hfind
          simp only [inTheWay, Bool.and_eq_true, Bool.not_eq_true', decide_eq_false_iff_not] at hway
          omega
        have hle := le_pageAlign a.vmEnd
        -- the area is not in the way any more
        have hsub : (mmap.filter fun b => pageAlign a.vmEnd < b.vmEnd) =
            ((mmap.filter fun b => addr.toNat < b.vmEnd).filter fun b =>
              pageAlign a.vmEnd < b.vmEnd) := by
          rw [List.filter_filter]
          refine List.filter_congr fun b _ => ?_
          rw [← Bool.decide_and]
          exact decide_eq_decide.2 (by omega)
        have hless : ((mmap.filter fun b => addr.toNat < b.vmEnd).filter fun b =>
            pageAlign a.vmEnd < b.vmEnd).length <
              (mmap.filter fun b => addr.toNat < b.vmEnd).length := by
          refine List.length_filter_lt_length_iff_exists.2 ⟨a, ?_, ?_⟩
          · exact List.mem_filter.2 ⟨ha, by simpa using hbehind⟩
          · simpa using hle
        rw [hnat, hsub]
        omega
    · rw [if_neg hlt]
      exact ⟨addr, rfl⟩

/-- **The loop finds the lowest hole**, or an address with no hole below it from which on the
range does not fit. -/
theorem findHole_lowest (hareas : ∀ a ∈ mmap, a.InTask) (hlen : 0 < len.toNat) {fuel : Nat}
    {addr r : UInt32} (haligned : addr.toNat % pageSize = 0) (hstart : shmRangeStart ≤ addr.toNat)
    (hwrap : addr.toNat + len.toNat < 2 ^ 32)
    (hlow : ∀ b, Hole mmap len.toNat b → addr.toNat ≤ b)
    (h : findHole mmap len fuel addr = some r) :
    (r + len).toNat = r.toNat + len.toNat ∧ (∀ b, Hole mmap len.toNat b → r.toNat ≤ b) ∧
      (r.toNat + len.toNat < shmRangeEnd → LowestHole mmap len.toNat r.toNat) := by
  induction fuel generalizing addr with
  | zero => cases h
  | succ fuel ih =>
    have hsum : (addr + len).toNat = addr.toNat + len.toNat := by
      rw [UInt32.toNat_add]
      exact Nat.mod_eq_of_lt hwrap
    rw [findHole, hsum] at h
    by_cases hlt : addr.toNat + len.toNat < shmRangeEnd
    · rw [if_pos hlt] at h
      cases hfind : mmap.find? (inTheWay addr len) with
      | none =>
        rw [hfind] at h
        cases h
        refine ⟨hsum, hlow, fun _ => ⟨⟨haligned, hstart, fun a ha => ?_⟩, hlow⟩⟩
        by_contra hclear
        exact List.find?_eq_none.1 hfind a ha ((inTheWay_iff hsum).2 hclear)
      | some a =>
        rw [hfind] at h
        have ha := List.mem_of_find?_eq_some hfind
        have hway := (inTheWay_iff hsum).1 (List.find?_some hfind)
        have hnat := toNat_pageAlign (hareas a ha)
        have hle := le_pageAlign a.vmEnd
        have htop := pageAlign_le (hareas a ha)
        unfold Clear at hway
        refine ih ?_ ?_ ?_ (fun b hb => ?_) h
        · rw [hnat]
          exact pageAlign_mod _
        · rw [hnat]
          omega
        · rw [hnat]
          unfold taskSize shmRangeEnd shmRangeStart at *
          omega
        · -- a hole above `addr` and below the end of the area would meet the area
          rw [hnat]
          have hb' := hlow b hb
          have hclear := hb.clear a ha
          unfold Clear at hclear
          refine pageAlign_le_of_le hb.aligned ?_
          omega
    · rw [if_neg hlt] at h
      cases h
      exact ⟨hsum, hlow, fun hfit => absurd hfit hlt⟩

end Search

/-! ## The address that is returned -/

/-- What `do_mmap` promises of its result: a failure, or a page-aligned address from which on the
range lies between the bounds and meets nothing that the task has there. -/
def Free (mmap : List VmArea) (shm : List ShmDesc) (len : Nat) : Except Int UInt32 → Prop
  | .error _ => True
  | .ok addr => addr.toNat % pageSize = 0 ∧ shmRangeStart ≤ addr.toNat ∧
      addr.toNat + len ≤ shmRangeEnd ∧ (∀ a ∈ mmap, Clear addr.toNat len a.vmStart a.vmEnd) ∧
      ∀ d ∈ shm, Clear addr.toNat len d.start d.stop

/-- The call gets as far as the mapper, and the mapper accepts the address. -/
def Maps (f : MmapFile) (mapper : UInt32 → UInt32 → UInt32 → Int)
    (addr len prot flags chosen : UInt32) : Prop :=
  mmapCheck f addr len prot flags = true ∧ f.hasMmap = true ∧ mmapMask prot flags ≠ 0 ∧
    mapper chosen len (mmapMask prot flags) = 0

section Call

variable {f : MmapFile} {mapper : UInt32 → UInt32 → UInt32 → Int} {mmap : List VmArea}
  {fuel : Nat} {addr len prot flags : UInt32}

/-- What the call returns once the loop has chosen an address. -/
theorem doMmap_eq (hfixed : flags &&& mapFixed = 0) {r : UInt32}
    (hr : findHole mmap len fuel (UInt32.ofNat shmRangeStart) = some r) :
    ∃ res, doMmap f mapper mmap fuel addr len prot flags = some res ∧
      ∀ a, res = .ok a ↔ a = r ∧ (r + len).toNat < shmRangeEnd ∧
        Maps f mapper addr len prot flags r := by
  unfold doMmap Maps
  by_cases hcheck : mmapCheck f addr len prot flags = false
  · rw [if_pos hcheck]
    refine ⟨_, rfl, fun a => iff_of_false nofun ?_⟩
    rintro ⟨-, -, h, -⟩
    rw [hcheck] at h
    cases h
  · have hfix : ¬ flags &&& mapFixed ≠ 0 := not_not.2 hfixed
    simp only [if_neg hcheck, if_neg hfix, hr, Option.map_some, Option.some.injEq, exists_eq_left']
    have hcheck' : mmapCheck f addr len prot flags = true := by simpa using hcheck
    intro a
    by_cases hfit : (r + len).toNat ≥ shmRangeEnd
    · rw [if_pos hfit]
      refine iff_of_false nofun ?_
      rintro ⟨-, h, -⟩
      omega
    · rw [if_neg hfit]
      split_ifs with h1 h2 h3
      · refine iff_of_false nofun ?_
        rintro ⟨-, -, -, h, -⟩
        rw [h1] at h
        cases h
      · exact iff_of_false nofun fun h => h.2.2.2.2.1 h2
      · rw [Except.ok.injEq]
        refine ⟨fun h => ⟨h.symm, not_le.1 hfit, hcheck', by simpa using h1, h2, h3⟩, fun h => ?_⟩
        exact h.1.symm
      · exact iff_of_false nofun fun h => h3 h.2.2.2.2.2

/-- **When the address that `do_mmap` returns is free**: the call always ends, and its result is
what it should be exactly when the length is not `TASK_SIZE` and no attach meets the lowest hole
between the vm areas, or the call fails for another reason. -/
theorem do_mmap_free_iff (f : MmapFile) (mapper : UInt32 → UInt32 → UInt32 → Int)
    {mmap : List VmArea} (shm : List ShmDesc) {addr len prot flags : UInt32}
    (hareas : ∀ a ∈ mmap, a.InTask) (hfixed : flags &&& mapFixed = 0) (hlen : 0 < len.toNat)
    {fuel : Nat} (hfuel : mmap.length < fuel) :
    ∃ res, doMmap f mapper mmap fuel addr len prot flags = some res ∧
      (Free mmap shm len.toNat res ↔
        (len.toNat = taskSize → ¬ Maps f mapper addr len prot flags (UInt32.ofNat shmRangeStart)) ∧
        ∀ r : UInt32, LowestHole mmap len.toNat r.toNat → r.toNat + len.toNat < shmRangeEnd →
          Maps f mapper addr len prot flags r → ∀ d ∈ shm, Clear r.toNat len.toNat d.start d.stop) := by
  obtain ⟨r, hr⟩ : ∃ r, findHole mmap len fuel (UInt32.ofNat shmRangeStart) = some r :=
    findHole_total hareas ((List.length_filter_le _ _).trans_lt hfuel)
  obtain ⟨res, hres, hok⟩ : ∃ res, doMmap f mapper mmap fuel addr len prot flags = some res ∧
      ∀ a, res = .ok a ↔ a = r ∧ (r + len).toNat < shmRangeEnd ∧
        Maps f mapper addr len prot flags r := doMmap_eq hfixed hr
  refine ⟨res, hres, ?_⟩
  have hstart : (UInt32.ofNat shmRangeStart).toNat = shmRangeStart := rfl
  by_cases hbig : shmRangeStart + len.toNat < 2 ^ 32
  · -- no sum wraps
    have hne : len.toNat ≠ taskSize := by
      unfold shmRangeStart taskSize at *
      omega
    obtain ⟨hsum, hlow, hlowest⟩ := findHole_lowest hareas hlen (by rw [hstart]; rfl)
      (by rw [hstart]) (by rw [hstart]; exact hbig) (fun b hb => by
        rw [hstart]
        exact hb.start_le) hr
    constructor
    · intro hfree
      refine ⟨fun h => absurd h hne, fun q hq hfit hmaps => ?_⟩
      have hqr : q = r := by
        have h1 := hlow q.toNat hq.hole
        have h2 := (hlowest (by omega)).hole
        exact UInt32.toNat_inj.1 (le_antisymm (hq.lowest _ h2) h1)
      subst hqr
      rw [(hok q).2 ⟨rfl, by rw [hsum]; exact hfit, hmaps⟩] at hfree
      exact hfree.2.2.2.2
    · rintro ⟨-, hshm⟩
      cases res with
      | error e => trivial
      | ok a =>
        obtain ⟨rfl, hfit, hmaps⟩ := (hok a).1 rfl
        rw [hsum] at hfit
        have hhole := hlowest hfit
        exact ⟨hhole.hole.aligned, hhole.hole.start_le, hfit.le, hhole.hole.clear,
          hshm a hhole hfit hmaps⟩
  · -- the sum wraps to 0 or more in the first round, or the check has refused the length
    have hcheck : mmapCheck f addr len prot flags = true → len.toNat = taskSize := by
      intro h
      simp only [mmapCheck, Bool.and_eq_true, Bool.not_eq_true', Bool.or_eq_false_iff,
        decide_eq_false_iff_not] at h
      unfold shmRangeStart taskSize at *
      omega
    have hnofit : ∀ q : UInt32, LowestHole mmap len.toNat q.toNat →
        ¬ q.toNat + len.toNat < shmRangeEnd := by
      intro q hq
      have := hq.hole.start_le
      unfold shmRangeStart shmRangeEnd at *
      omega
    by_cases htask : len.toNat = taskSize
    · -- nothing is in the way of a range that ends at 0
      have hsum : (UInt32.ofNat shmRangeStart + len).toNat = 0 := by
        rw [UInt32.toNat_add, hstart, htask]
        rfl
      have hfind : mmap.find? (inTheWay (UInt32.ofNat shmRangeStart) len) = none := by
        refine List.find?_eq_none.2 fun a _ => ?_
        simp [inTheWay, hsum]
      have hr' : r = UInt32.ofNat shmRangeStart := by
        obtain ⟨k, rfl⟩ : ∃ k, fuel = k + 1 := ⟨fuel - 1, by omega⟩
        rw [findHole, hsum, if_pos (by decide), hfind] at hr
        exact (Option.some.inj hr).symm
      subst hr'
      constructor
      · intro hfree
        refine ⟨fun _ hmaps => ?_, fun q hq hfit => absurd hfit (hnofit q hq)⟩
        have hfit : (UInt32.ofNat shmRangeStart + len).toNat < shmRangeEnd := by
          rw [hsum]
          decide
        rw [(hok _).2 ⟨rfl, hfit, hmaps⟩] at hfree
        have hend := hfree.2.2.1
        rw [htask] at hend
        exact absurd hend (by decide)
      · rintro ⟨hmaps, -⟩
        cases res with
        | error e => trivial
        | ok a => exact absurd ((hok a).1 rfl).2.2 (by
            rw [((hok a).1 rfl).1] at *
            exact hmaps htask)
    · refine iff_of_true ?_ ⟨fun h => absurd h htask, fun q hq hfit => absurd hfit (hnofit q hq)⟩
      cases res with
      | error e => trivial
      | ok a => exact absurd (hcheck ((hok a).1 rfl).2.2.1) htask

end Call

/-! ## Runs -/

/-- A file that can be read and that has a mapper. -/
def readableFile : MmapFile := ⟨1, true⟩

/-- One page behind an area at the start of the range, nothing attached. -/
theorem do_mmap_free_iff_one_page :
    ∃ res, doMmap readableFile (fun _ _ _ => 0) [⟨0x40000000, 0x40001000⟩] 2 0 0x1000 protRead
        mapPrivate = some res ∧ Free [⟨0x40000000, 0x40001000⟩] [] 0x1000 res := by
  obtain ⟨res, hres, hfree⟩ := @do_mmap_free_iff readableFile (fun _ _ _ => 0)
    [⟨0x40000000, 0x40001000⟩] [] 0 0x1000 protRead mapPrivate
    (by simp [VmArea.InTask, taskSize]) (by decide) (by decide) 2 (by decide)
  refine ⟨res, hres, hfree.2 ⟨fun h => absurd h (by decide), ?_⟩⟩
  intro r _ _ _ d hd
  cases hd

/-- The code gives out a range that runs past the end of the address space, and a range in which
a segment is attached. -/
theorem do_mmap_takes_what_is_taken :
    (doMmap readableFile (fun _ _ _ => 0) [] 1 0 0xc0000000 protRead mapPrivate =
        some (.ok 0x40000000) ∧
      ¬ Free [] [] 0xc0000000 (.ok 0x40000000)) ∧
    doMmap readableFile (fun _ _ _ => 0) [] 1 0 0x1000 protRead mapPrivate =
        some (.ok 0x40000000) ∧
      ¬ Free [] [⟨0, 0, false, 0x40000000, 0x40001000, 0⟩] 0x1000 (.ok 0x40000000) := by
  refine ⟨⟨by rfl, fun h => ?_⟩, by rfl, fun h => ?_⟩
  · exact absurd h.2.2.1 (by decide)
  · exact absurd (h.2.2.2.2 _ (List.mem_singleton_self _)) (by decide)

end LinuxEvocation.Mm
