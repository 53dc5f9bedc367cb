import LinuxEvocation.Malloc.Basic

/-!
# What holds of the allocator between steps

* `Slot`, `liveOn`, `FreeList` — the objects of a page, the live ones and the free ones.
* `Bucket` — a descriptor on a chain agrees with its page.
* `Call.Holds`, `Call.Ok` — what a call of `kmalloc` in progress holds and has done.
* `Pages` — no two descriptors in use have the same page.
* `Inv` — all of it, together with the custody of the descriptors.
-/

namespace LinuxEvocation.Malloc

open LinkedList

variable {ι : Type*}

/-! ## The objects of a page -/

/-- `a` is the address of an object of a page of objects of the given size. -/
def Slot (page size a : Nat) : Prop := ∃ k < pageSize / size, a = page + k * size

/-- How many live objects are on a page. -/
def liveOn (live : Nat → Option Nat) (page : Nat) : Nat :=
  ((Finset.range pageSize).filter fun k => (live (page + k)).isSome).card

/-- The list from `p` contains each object of the page that is not live exactly once. -/
def FreeList (mem : Nat → Nat) (live : Nat → Option Nat) (page size p : Nat) : Prop :=
  ∃ l, Threads 0 mem p l ∧ l.Nodup ∧ ∀ a, a ∈ l ↔ Slot page size a ∧ live a = none

/-- `a` is an address of the page. -/
def OnPage (page a : Nat) : Prop := page ≤ a ∧ a < page + pageSize

variable {page size a : Nat}

theorem Slot.end_le (h : Slot page size a) : a + size ≤ page + pageSize := by
  obtain ⟨k, hk, rfl⟩ := h
  have h1 : (k + 1) * size ≤ pageSize / size * size := Nat.mul_le_mul_right size hk
  have h2 := Nat.div_mul_le_self pageSize size
  rw [Nat.add_mul, Nat.one_mul] at h1
  omega

theorem Slot.size_pos (h : Slot page size a) : 0 < size := by
  obtain ⟨k, hk, -⟩ := h
  rcases Nat.eq_zero_or_pos size with rfl | hpos
  · simp at hk
  · exact hpos

theorem Slot.onPage (h : Slot page size a) : OnPage page a := by
  have hend := h.end_le
  have hpos := h.size_pos
  obtain ⟨k, hk, rfl⟩ := h
  exact ⟨Nat.le_add_right _ _, by omega⟩

theorem Slot.disjoint {b : Nat} (ha : Slot page size a) (hb : Slot page size b)
    (hne : a ≠ b) : a + size ≤ b ∨ b + size ≤ a := by
  obtain ⟨j, -, rfl⟩ := ha
  obtain ⟨k, -, rfl⟩ := hb
  rcases Nat.lt_trichotomy j k with hjk | rfl | hkj
  · left
    have := Nat.mul_le_mul_right size (Nat.succ_le_of_lt hjk)
    rw [Nat.succ_mul] at this
    omega
  · exact absurd rfl hne
  · right
    have := Nat.mul_le_mul_right size (Nat.succ_le_of_lt hkj)
    rw [Nat.succ_mul] at this
    omega

theorem pageOf_eq (hpage : page % pageSize = 0) (h : OnPage page a) :
    pageOf a = page := by
  unfold pageOf OnPage pageSize at *
  omega

variable {p : Nat}

theorem OnPage.unique {q : Nat} (hp : p % pageSize = 0) (hq : q % pageSize = 0)
    (h : OnPage p a) (h' : OnPage q a) : p = q :=
  (pageOf_eq hp h).symm.trans (pageOf_eq hq h')

variable {live : Nat → Option Nat}

theorem liveOn_congr {live' : Nat → Option Nat}
    (h : ∀ a, OnPage page a → live' a = live a) : liveOn live' page = liveOn live page := by
  refine congrArg Finset.card (Finset.filter_congr fun k hk => ?_)
  rw [h (page + k) ⟨Nat.le_add_right _ _, Nat.add_lt_add_left (Finset.mem_range.1 hk) _⟩]

theorem liveOn_update {len : Nat} (ha : OnPage page a) (hlive : live a = none) :
    liveOn (Function.update live a (some len)) page = liveOn live page + 1 := by
  obtain ⟨k, rfl⟩ := Nat.exists_eq_add_of_le ha.1
  have hk : k < pageSize := by
    have := ha.2
    omega
  unfold liveOn
  rw [← Finset.card_insert_of_notMem (a := k) (by simp [hlive])]
  refine congrArg Finset.card (Finset.ext fun j => ?_)
  simp only [Finset.mem_filter, Finset.mem_range, Finset.mem_insert]
  by_cases hj : j = k
  · subst hj
    simp [hk]
  · rw [Function.update_of_ne (by omega)]
    simp [hj]

theorem liveOn_eq_zero :
    liveOn live page = 0 ↔ ∀ a, OnPage page a → live a = none := by
  unfold liveOn
  rw [Finset.card_eq_zero, Finset.filter_eq_empty_iff]
  constructor
  · intro h a ha
    obtain ⟨k, rfl⟩ := Nat.exists_eq_add_of_le ha.1
    have hk : k < pageSize := by
      have := ha.2
      omega
    simpa using h (Finset.mem_range.2 hk)
  · intro h k hk
    simp [h (page + k) ⟨Nat.le_add_right _ _, Nat.add_lt_add_left (Finset.mem_range.1 hk) _⟩]

/-- The free list of a page depends on that page only. -/
theorem FreeList.congr {mem mem' : Nat → Nat} {live' : Nat → Option Nat}
    (h : FreeList mem live page size p)
    (hmem : ∀ a, Slot page size a → live a = none → mem' a = mem a)
    (hlive : ∀ a, OnPage page a → live' a = live a) : FreeList mem' live' page size p := by
  obtain ⟨l, hl, hnodup, hiff⟩ := h
  refine ⟨l, hl.congr fun a ha => ?_, hnodup, fun a => ?_⟩
  · obtain ⟨hslot, hnone⟩ := (hiff a).1 ha
    exact hmem a hslot hnone
  · rw [hiff]
    refine and_congr_right fun hslot => ?_
    rw [hlive a hslot.onPage]

/-- The first object of the list becomes live. -/
theorem FreeList.pop {mem : Nat → Nat}
    (h : FreeList mem live page size p) (hp : p ≠ 0) (len : Nat) :
    Slot page size p ∧ live p = none ∧
      FreeList mem (Function.update live p (some len)) page size (mem p) := by
  obtain ⟨l, hl, hnodup, hiff⟩ := h
  obtain ⟨t, rfl, ht⟩ := hl.exists_cons hp
  obtain ⟨hslot, hnone⟩ := (hiff p).1 (by simp)
  obtain ⟨hpt, htnodup⟩ := List.nodup_cons.1 hnodup
  refine ⟨hslot, hnone, t, ht, htnodup, fun a => ?_⟩
  by_cases ha : a = p
  · subst ha
    simp [hpt]
  · rw [Function.update_of_ne ha, ← hiff a, List.mem_cons]
    simp [ha]

/-- A live object becomes the first of the list. -/
theorem FreeList.push {mem : Nat → Nat} {len : Nat}
    (h : FreeList mem live page size p) (hslot : Slot page size a) (hlive : live a = some len)
    (ha : a ≠ 0) :
    FreeList (Function.update mem a p) (Function.update live a none) page size a := by
  obtain ⟨l, hl, hnodup, hiff⟩ := h
  have hal : a ∉ l := by
    intro hal
    rw [((hiff a).1 hal).2] at hlive
    cases hlive
  refine ⟨a :: l, hl.push hal ha, List.nodup_cons.2 ⟨hal, hnodup⟩, fun b => ?_⟩
  by_cases hb : b = a
  · subst hb
    simp [hslot]
  · rw [Function.update_of_ne hb, ← hiff b, List.mem_cons]
    simp [hb]

/-! ## Descriptors -/

/-- A descriptor on the chain of a size agrees with its page. -/
structure Bucket (s : State ι) (size d : Nat) : Prop where
  size_mem : size ∈ bucketSizes
  bucketSize : (s.desc d).bucketSize = size
  refcnt : (s.desc d).refcnt = liveOn s.live (s.desc d).page
  freeList : FreeList s.mem s.live (s.desc d).page size (s.desc d).freeptr

/-- The descriptors a call in progress holds. -/
def Call.Holds : Call → Nat → Prop
  | .initDesc _ _ page _, d => ∃ k < descsPerPage, d = page + descSize * k
  | .needPage _ _ bdesc, d => d = bdesc
  | .setUp _ _ bdesc _ _, d => d = bdesc
  | _, _ => False

/-- The call has a page of objects that is not on a chain yet. -/
def Call.SetsUp : Call → Nat → Prop
  | .setUp _ _ bdesc _ _, d => d = bdesc
  | _, _ => False

theorem Call.SetsUp.holds {call : Call} {d : Nat} (h : call.SetsUp d) : call.Holds d := by
  cases call with
  | setUp => exact h
  | _ => cases h

/-- The entry of `bucket_dir` is one that fits. -/
def Fits (len size : Nat) : Prop := size ∈ bucketSizes ∧ len ≤ size

/-- The first `k` objects of the page are linked. -/
def Threaded (mem : Nat → Nat) (page size k : Nat) : Prop :=
  ∀ j < k, mem (page + j * size) =
    if j + 1 = pageSize / size then 0 else page + j * size + size

/-- What a call in progress has found and done. -/
def Call.Ok (s : State ι) : Call → Prop
  | .idle => True
  | .needDescPage len size => Fits len size
  | .initDesc len size page k =>
    Fits len size ∧ page ∈ s.descPages ∧ k < descsPerPage ∧
      ∀ j < k, s.next (page + descSize * j) = page + descSize * (j + 1)
  | .needPage len size _ => Fits len size
  | .setUp len size bdesc page k =>
    Fits len size ∧ k ≤ pageSize / size ∧ (s.desc bdesc).page = page ∧
      (s.desc bdesc).freeptr = page ∧ (s.desc bdesc).refcnt = 0 ∧
      (s.desc bdesc).bucketSize = size ∧ Threaded s.mem page size k

/-- The holders of descriptors: the calls in progress, and `kfree_s` (`none`), which holds
one inside a step only. -/
def holdsOf (call : ι → Call) : Option ι → Nat → Prop
  | none, _ => False
  | some c, d => (call c).Holds d

/-- The descriptor has a page of objects. -/
def InUse (call : ι → Call) (on : Queue → List Nat) (d : Nat) : Prop :=
  (∃ size, d ∈ on (.bucket size)) ∨ ∃ c, (call c).SetsUp d

/-- A page the allocator has. -/
structure Owned (s : State ι) (p : Nat) : Prop where
  aligned : p % pageSize = 0
  ne_zero : p ≠ 0
  outstanding : s.outstanding p = true

/-- The pages of the allocator are all different. -/
structure Pages (s : State ι) (on : Queue → List Nat) : Prop where
  owned : ∀ d, InUse s.call on d → Owned s (s.desc d).page
  inj : ∀ d d', InUse s.call on d → InUse s.call on d' →
    (s.desc d).page = (s.desc d').page → d = d'
  descs : ∀ p ∈ s.descPages, Owned s p
  apart : ∀ d, InUse s.call on d → (s.desc d).page ∉ s.descPages

/-- **The allocator between two steps**, `on` being the descriptors on each list. -/
structure Inv (s : State ι) (on : Queue → List Nat) : Prop where
  custody : Custody 0 s.next s.head on (holdsOf s.call) s.IsDesc
  pages : Pages s on
  buckets : ∀ size d, d ∈ on (.bucket size) → Bucket s size d
  objects : ∀ a len, s.live a = some len →
    ∃ size d, d ∈ on (.bucket size) ∧ Slot (s.desc d).page size a ∧ len ≤ size
  calls : ∀ c, (s.call c).Ok s

theorem inUse_of_on {call : ι → Call} {on : Queue → List Nat} {d : Nat}
    (h : d ∈ on (.bucket size)) : InUse call on d := .inl ⟨size, h⟩

/-- No list of descriptors is longer than there are descriptors. -/
theorem Inv.length_le {s : State ι} {on : Queue → List Nat} (h : Inv s on) (q : Queue) :
    (on q).length ≤ s.descCount := by
  have hsub : on q ⊆ s.descPages.flatMap fun p =>
      (List.range descsPerPage).map fun k => p + descSize * k := by
    intro d hd
    obtain ⟨p, hp, k, hk, rfl⟩ := h.custody.node_of_on hd
    exact List.mem_flatMap.2 ⟨p, hp, List.mem_map.2 ⟨k, List.mem_range.2 hk, rfl⟩⟩
  refine le_trans (List.subperm_of_subset (h.custody.family.nodup q) hsub).length_le ?_
  rw [List.length_flatMap]
  simp only [List.length_map, List.length_range, List.map_const', List.sum_replicate,
    smul_eq_mul]
  rw [Nat.mul_comm]
  rfl

end LinuxEvocation.Malloc
