import LinuxEvocation.Fs.Locks.Extent
import LinuxEvocation.Lib.IntervalMap

/-!
# `lock_it` on a tidy block

The records of one owner form a *tidy* block when they are sorted, disjoint, and no
two of them that touch have one type: the block is then the normal form of a map
from bytes to lock types (`Lib/IntervalMap.lean`).  On a tidy block, and unless
`caller->fl_end + 1` wraps (`NoWrap`), `lock_it` does what it is for:

* `Stage` — what the loop has done after some of the records: a low part left alone,
  a part absorbed into the new record, and the rest.
* `Fate` — what happens to the queue of a record.
* `Done`, `lockGroup_result` — what a call makes of the block.
-/

namespace LinuxEvocation.Locks

open IntervalMap

variable {Task : Type}

/-! ## Tidy blocks -/

/-- The interval of bytes of a record, tagged with its type. -/
def Entry.piece (x : Entry Task) : Piece LockType := ⟨x.fl.flStart, x.fl.flEnd, x.fl.flType⟩

/-- The map a block stands for. -/
def pieces (l : List (Entry Task)) : List (Piece LockType) := l.map Entry.piece

@[simp] theorem pieces_nil : pieces ([] : List (Entry Task)) = [] := rfl

@[simp] theorem pieces_cons (x : Entry Task) (l : List (Entry Task)) :
    pieces (x :: l) = x.piece :: pieces l := rfl

@[simp] theorem pieces_append (l m : List (Entry Task)) : pieces (l ++ m) = pieces l ++ pieces m :=
  List.map_append

/-- `x` lies before `y`, with a gap if they have one type. -/
def Ahead (x y : Entry Task) : Prop := Before x.piece y.piece

variable {x : Entry Task}

theorem ahead_iff {y : Entry Task} : Ahead x y ↔ x.fl.flEnd < y.fl.flStart ∧
    (x.fl.flType = y.fl.flType → x.fl.flEnd + 1 < y.fl.flStart) := Iff.rfl

/-- Sorted, disjoint, non-empty ranges, and no touching records of one type. -/
structure Tidy (G : List (Entry Task)) : Prop where
  proper : ∀ x ∈ G, x.fl.Proper
  typed : ∀ x ∈ G, x.fl.flType ≠ .unlck
  ordered : G.Pairwise Ahead

variable {G : List (Entry Task)}

theorem forall_pieces {P : Piece LockType → Prop} : (∀ p ∈ pieces G, P p) ↔ ∀ x ∈ G, P x.piece :=
  List.forall_mem_map

theorem Tidy.normal (h : Tidy G) : Normal (pieces G) :=
  ⟨forall_pieces.2 fun x hx => (h.proper x hx).start_le_end, List.pairwise_map.2 h.ordered⟩

/-- The sum `caller->fl_end + 1` is not formed where it wraps: a lock to the end of the
file is not requested while the owner has a lock of that type that the new one meets or
touches. -/
def NoWrap (r : FileLock Task) (G : List (Entry Task)) : Prop :=
  r.flType ≠ .unlck → r.flEnd = offsetMax →
    ∀ x ∈ G, x.fl.flType = r.flType → x.fl.flEnd + 1 < r.flStart

instance (r : FileLock Task) (G : List (Entry Task)) : Decidable (NoWrap r G) :=
  inferInstanceAs (Decidable (_ → _))

/-! ## What the loop has done -/

/-- A record below the requested range that the new lock leaves alone. -/
def Low (r : FileLock Task) (x : Entry Task) : Prop :=
  x.fl.flEnd < r.flStart ∧ (x.fl.flType = r.flType → x.fl.flEnd + 1 < r.flStart)

/-- A record over the range of the new lock that it leaves alone. -/
def High (r : FileLock Task) (E : Int) (x : Entry Task) : Prop :=
  E < x.fl.flStart ∧ (x.fl.flType = r.flType → E + 1 < x.fl.flStart)

/-- The low part of the block, whose last record may reach into the requested range. -/
inductive LowSide (r : FileLock Task) : Option Slot → List (Entry Task) → Prop
  | clear {L : List (Entry Task)} : (∀ x ∈ L, Low r x) → LowSide r none L
  | clipped {L : List (Entry Task)} {x : Entry Task} : (∀ y ∈ L, Low r y) →
      x.fl.flType ≠ r.flType → x.fl.flStart < r.flStart → r.flStart ≤ x.fl.flEnd →
      x.fl.flEnd ≤ r.flEnd → LowSide r (some x.addr) (L ++ [x])

/-- A record of the low part is left alone, or it is the last one. -/
theorem LowSide.mem {r : FileLock Task} {left : Option Slot} {L : List (Entry Task)}
    (h : LowSide r left L) (hx : x ∈ L) : Low r x ∨ x.fl.flType ≠ r.flType ∧
      x.fl.flStart < r.flStart ∧ r.flStart ≤ x.fl.flEnd ∧ x.fl.flEnd ≤ r.flEnd := by
  cases h with
  | clear hL => exact .inl (hL x hx)
  | clipped hL ht h1 h2 h3 =>
    rcases List.mem_append.1 hx with hx | hx
    · exact .inl (hL x hx)
    · rw [List.mem_singleton.1 hx]
      exact .inr ⟨ht, h1, h2, h3⟩

/-- How far the new lock is in the list. -/
inductive Adding (r : FileLock Task) (c : Scan Task) (N : List (Entry Task)) :
    List (Entry Task) → Prop
  | notYet : c.added = false → N = [] → c.callerAt = none → c.caller = r →
      (r.flType = .unlck → c.left = none) → Adding r c N []
  | unlock : c.added = true → r.flType = .unlck → c.callerAt = none → c.caller = r →
      Adding r c N []
  | merged (a : Slot) : c.added = true → r.flType ≠ .unlck → N ≠ [] → c.callerAt = some a →
      Adding r c N [⟨a, c.caller⟩]

/-- The block `G` after some iterations: `L` has been left alone, `N` has been absorbed
in the new lock, `rest` is still to come; `K` is the record of the new lock once there is
one. -/
structure Stage (r : FileLock Task) (G : List (Entry Task)) (c : Scan Task)
    (L N K rest : List (Entry Task)) : Prop where
  split : G = L ++ N ++ rest
  passed : c.passed = L ++ K
  type : c.caller.flType = r.flType
  adding : Adding r c N K
  start_le : c.caller.flStart ≤ r.flStart
  le_end : r.flEnd ≤ c.caller.flEnd
  absorbed : ∀ n ∈ N, c.caller.flStart ≤ n.fl.flStart ∧ n.fl.flEnd ≤ c.caller.flEnd
  start_from : c.caller.flStart < r.flStart → ∃ n ∈ N, n.fl.flType = r.flType ∧
    n.fl.flStart = c.caller.flStart ∧ r.flStart ≤ n.fl.flEnd + 1
  end_from : r.flEnd < c.caller.flEnd → ∃ n ∈ N, n.fl.flType = r.flType ∧
    n.fl.flEnd = c.caller.flEnd ∧ n.fl.flStart ≤ r.flEnd + 1
  fate : ∀ n ∈ N, (∀ t ∈ n.fl.flWait, t ∈ c.woken) ∨
    ∃ k ∈ K, k.addr = n.addr ∧ k.fl.flWait = n.fl.flWait ∧ n.fl.flType = r.flType

/-- While the loop runs. -/
def Running (r : FileLock Task) (G : List (Entry Task)) (c : Scan Task)
    (rest : List (Entry Task)) : Prop :=
  ∃ L N K, Stage r G c L N K rest ∧ LowSide r c.left L ∧
    (c.added = true → r.flType = .unlck → N ≠ [] ∨ c.left ≠ none)

variable {L N rest : List (Entry Task)} {n : Entry Task}

/-- The order of a tidy block around one of its records. -/
theorem Tidy.around (h : Tidy G) (hs : G = L ++ N ++ n :: rest) :
    (∀ x ∈ L, Ahead x n) ∧ (∀ x ∈ N, Ahead x n) ∧ ∀ y ∈ rest, Ahead n y := by
  have ho := h.ordered
  rw [hs] at ho
  obtain ⟨-, h2, h3⟩ := List.pairwise_append.1 ho
  exact ⟨fun x hx => h3 x (by simp [hx]) n (by simp), fun x hx => h3 x (by simp [hx]) n (by simp),
    (List.pairwise_cons.1 h2).1⟩

variable {r : FileLock Task} {c : Scan Task}

/-- A record that starts below the caller is met before anything else has happened. -/
theorem Running.at_front (hG : Tidy G) (h : Running r G c (n :: rest))
    (hn : n.fl.flStart < c.caller.flStart) :
    Stage r G c c.passed [] [] (n :: rest) ∧ c.left = none ∧ (∀ x ∈ c.passed, Low r x) ∧
      c.added = false ∧ c.callerAt = none ∧ c.caller = r := by
  obtain ⟨L, N, K, hst, hlow, hun⟩ := h
  obtain ⟨hLn, hNn, -⟩ := hG.around hst.split
  have hN : N = [] := by
    by_contra hne
    obtain ⟨m, hm⟩ := List.exists_mem_of_ne_nil N hne
    have h1 := (hst.absorbed m hm).1
    have h2 := (hNn m hm).1
    have h3 := (hG.proper m (by simp [hst.split, hm])).start_le_end
    simp only [Entry.piece] at h2
    omega
  have hleft : c.left = none ∧ ∀ x ∈ L, Low r x := by
    generalize hcl : c.left = left at hlow
    cases hlow with
    | clear hL => exact ⟨rfl, hL⟩
    | @clipped L x hL ht h1 h2 h3 =>
      have h4 := (hLn x (by simp)).1
      have h5 := hst.start_le
      simp only [Entry.piece] at h4
      omega
  have hadd : K = [] ∧ c.added = false ∧ c.callerAt = none ∧ c.caller = r := by
    cases hst.adding with
    | notYet h1 h2 h3 h4 => exact ⟨rfl, h1, h3, h4⟩
    | unlock h1 h2 h3 h4 =>
      rcases hun h1 h2 with h | h
      · exact absurd hN h
      · exact absurd hleft.1 h
    | merged a h1 h2 h3 => exact absurd hN h3
  obtain ⟨rfl, hadd⟩ := hadd
  subst hN
  have hp : c.passed = L := by simpa using hst.passed
  rw [hp]
  exact ⟨hst, hleft.1, hleft.2, hadd⟩

/-- Stepping over one more record of the low part. -/
theorem Stage.low_next (h : Stage r G c c.passed [] [] (n :: rest)) :
    Stage r G (c.next n) (c.next n).passed [] [] rest := by
  obtain ⟨h1, h2, h3, h4, h5, h6, h7, h8, h9, h10⟩ := h
  refine ⟨?_, by simp, h3, ?_, h5, h6, h7, h8, h9, h10⟩
  · simpa [Scan.next] using h1
  · cases h4 with
    | notYet a1 a2 a3 a4 a5 => exact .notYet a1 a2 a3 a4 a5
    | unlock a1 a2 a3 a4 => exact .unlock a1 a2 a3 a4

variable {c' : Scan Task} {K : List (Entry Task)}

/-- Meeting a record of another type marks an unlock as done. -/
theorem Stage.marked (h : Stage r G c L N K rest) (left : Option Slot) (right : Option (Entry Task)) :
    Stage r G { c.mark with left := left, right := right } L N K rest := by
  obtain ⟨h1, h2, h3, h4, h5, h6, h7, h8, h9, h10⟩ := h
  refine ⟨h1, by simpa using h2, by simpa using h3, ?_, by simpa using h5, by simpa using h6,
    by simpa using h7, by simpa using h8, by simpa using h9, by simpa using h10⟩
  cases h4 with
  | notYet a1 a2 a3 a4 =>
    by_cases hu : r.flType = .unlck
    · exact .unlock (by simp [Scan.mark_added, h3, hu]) hu (by simpa using a3) (by simpa using a4)
    · exact .notYet (by simp [Scan.mark_added, h3, hu, a1]) a2 (by simpa using a3)
        (by simpa using a4) fun hu' => absurd hu' hu
  | unlock a1 a2 a3 a4 =>
    exact .unlock (by simp [Scan.mark_added, a1]) a2 (by simpa using a3) (by simpa using a4)
  | merged a a1 a2 a3 a4 =>
    have := Adding.merged (r := r) (c := { c.mark with left := left, right := right }) (N := N) a
      (by simp [Scan.mark_added, a1]) a2 a3 (by simpa using a4)
    simpa using this

theorem Stage.absorb {K' : List (Entry Task)} (h : Stage r G c L N K (n :: rest))
    (hpassed : c'.passed = L ++ K') (htype : c'.caller.flType = c.caller.flType)
    (hadding : Adding r c' (N ++ [n]) K') (hs : c'.caller.flStart = c.caller.flStart)
    (hn : c.caller.flStart ≤ n.fl.flStart) (he : c'.caller.flEnd = max c.caller.flEnd n.fl.flEnd)
    (hfrom : c.caller.flEnd < n.fl.flEnd → n.fl.flType = r.flType ∧ n.fl.flStart ≤ r.flEnd + 1)
    (hwoken : ∀ t, t ∈ c.woken ∨ t ∈ n.fl.flWait → t ∈ c'.woken)
    (hK : ∀ k ∈ K, ∃ k' ∈ K', k'.addr = k.addr ∧ k'.fl.flWait = k.fl.flWait) :
    Stage r G c' L (N ++ [n]) K' rest := by
  refine ⟨?_, hpassed, htype.trans h.type, hadding, hs ▸ h.start_le, ?_, ?_, ?_, ?_, ?_⟩
  · rw [h.split]
    simp
  · rw [he]
    exact le_trans h.le_end (le_max_left _ _)
  · intro m hm
    rw [hs, he]
    rcases List.mem_append.1 hm with hm | hm
    · exact ⟨(h.absorbed m hm).1, le_trans (h.absorbed m hm).2 (le_max_left _ _)⟩
    · rw [List.mem_singleton.1 hm]
      exact ⟨hn, le_max_right _ _⟩
  · intro hlt
    rw [hs] at hlt
    obtain ⟨m, hm, h1, h2, h3⟩ := h.start_from hlt
    exact ⟨m, by simp [hm], h1, by rw [h2, hs], h3⟩
  · intro hlt
    rw [he] at hlt ⊢
    by_cases hc : c.caller.flEnd < n.fl.flEnd
    · obtain ⟨h1, h2⟩ := hfrom hc
      exact ⟨n, by simp, h1, by omega, h2⟩
    · have hmax : max c.caller.flEnd n.fl.flEnd = c.caller.flEnd := max_eq_left (by omega)
      rw [hmax] at hlt ⊢
      obtain ⟨m, hm, h1, h2, h3⟩ := h.end_from hlt
      exact ⟨m, by simp [hm], h1, h2, h3⟩
  · intro m hm
    rcases List.mem_append.1 hm with hm | hm
    · rcases h.fate m hm with hw | ⟨k, hk, h1, h2, h3⟩
      · exact .inl fun t ht => hwoken t (.inl (hw t ht))
      · obtain ⟨k', hk', h4, h5⟩ := hK k hk
        exact .inr ⟨k', hk', h4.trans h1, h5.trans h2, h3⟩
    · rw [List.mem_singleton.1 hm]
      exact .inl fun t ht => hwoken t (.inr ht)

/-- Absorbing the first record, which becomes the new lock. -/
theorem Stage.adopt (h : Stage r G c L [] [] (n :: rest)) (hu : r.flType ≠ .unlck)
    (hpassed : c'.passed = L ++ [⟨n.addr, c'.caller⟩]) (htype : c'.caller.flType = r.flType)
    (hadded : c'.added = true) (hat : c'.callerAt = some n.addr)
    (hs : c'.caller.flStart = min r.flStart n.fl.flStart)
    (he : c'.caller.flEnd = max r.flEnd n.fl.flEnd)
    (hlo : n.fl.flStart < r.flStart → n.fl.flType = r.flType ∧ r.flStart ≤ n.fl.flEnd + 1)
    (hhi : r.flEnd < n.fl.flEnd → n.fl.flType = r.flType ∧ n.fl.flStart ≤ r.flEnd + 1)
    (hfate : (∀ t ∈ n.fl.flWait, t ∈ c'.woken) ∨
      (c'.caller.flWait = n.fl.flWait ∧ n.fl.flType = r.flType)) :
    Stage r G c' L [n] [⟨n.addr, c'.caller⟩] rest := by
  refine ⟨?_, hpassed, htype, .merged n.addr hadded hu (by simp) hat, ?_, ?_, ?_, ?_, ?_, ?_⟩
  · rw [h.split]
    simp
  · rw [hs]
    exact min_le_left _ _
  · rw [he]
    exact le_max_left _ _
  · intro m hm
    rw [List.mem_singleton.1 hm, hs, he]
    exact ⟨min_le_right _ _, le_max_right _ _⟩
  · intro hlt
    rw [hs] at hlt ⊢
    have hn : n.fl.flStart < r.flStart := by omega
    exact ⟨n, by simp, (hlo hn).1, by omega, (hlo hn).2⟩
  · intro hlt
    rw [he] at hlt ⊢
    have hn : r.flEnd < n.fl.flEnd := by omega
    exact ⟨n, by simp, (hhi hn).1, by omega, (hhi hn).2⟩
  · intro m hm
    rw [List.mem_singleton.1 hm]
    rcases hfate with hw | ⟨h1, h2⟩
    · exact .inl hw
    · exact .inr ⟨⟨n.addr, c'.caller⟩, by simp, rfl, h1, h2⟩

theorem Scan.mergeCaller_passed_alias {a : Slot}
    (hp : c.passed = L ++ [⟨a, c.caller⟩]) (hat : c.callerAt = some a) (ha : a ∉ addrs L)
    (n : Entry Task) :
    (c.mergeCaller n).passed = L ++ [⟨a, (c.mergeCaller n).caller⟩] := by
  unfold Scan.mergeCaller Scan.writeCaller
  rw [hat]
  simp only
  rw [hp, modifyAt_append, modifyAt_of_notMem _ ha]
  simp [modifyAt]

/-- The caller stays in the range of offsets. -/
theorem Stage.bounds (hr : r.Proper) (hG : Tidy G) (h : Stage r G c L N K rest) :
    0 ≤ c.caller.flStart ∧ c.caller.flStart ≤ c.caller.flEnd ∧ c.caller.flEnd ≤ offsetMax := by
  obtain ⟨r1, r2, r3⟩ := hr
  have hN : ∀ n ∈ N, n.fl.Proper := fun n hn => hG.proper n (by simp [h.split, hn])
  have h1 := h.start_le
  have h2 := h.le_end
  refine ⟨?_, by omega, ?_⟩
  · by_cases hlt : c.caller.flStart < r.flStart
    · obtain ⟨n, hn, -, hns, -⟩ := h.start_from hlt
      have := (hN n hn).start_nonneg
      omega
    · omega
  · by_cases hlt : r.flEnd < c.caller.flEnd
    · obtain ⟨n, hn, -, hne, -⟩ := h.end_from hlt
      have := (hN n hn).end_le
      omega
    · omega

/-- Once a record of the requested type has carried the caller past the requested end,
no other record of that type comes near. -/
theorem Stage.end_eq (hG : Tidy G) (h : Stage r G c L N K rest) (hnU : n ∈ rest)
    (hn : n.fl.flStart ≤ c.caller.flEnd ∨
      (n.fl.flType = r.flType ∧ n.fl.flStart ≤ c.caller.flEnd + 1)) :
    c.caller.flEnd = r.flEnd := by
  have h1 := h.le_end
  by_contra hne
  obtain ⟨m, hm, ht, he, -⟩ := h.end_from (by omega)
  have ho := hG.ordered
  rw [h.split] at ho
  obtain ⟨h2, h3⟩ := ahead_iff.1 ((List.pairwise_append.1 ho).2.2 m (by simp [hm]) n hnU)
  rcases hn with hn | ⟨hnt, hn⟩
  · omega
  · have := h3 (ht.trans hnt.symm)
    omega

/-- A record the loop merges with is not met where the sum wraps. -/
theorem Stage.merge_bounds (hr : r.Proper) (hG : Tidy G)
    (h : Stage r G c L N K (n :: rest)) (h1 : offT (c.caller.flStart - 1) ≤ n.fl.flEnd)
    (h2 : n.fl.flStart ≤ offT (c.caller.flEnd + 1)) :
    c.caller.flStart - 1 ≤ n.fl.flEnd ∧ n.fl.flStart ≤ c.caller.flEnd + 1 := by
  obtain ⟨b1, b2, b3⟩ := h.bounds hr hG
  have hn := (hG.proper n (by simp [h.split])).start_nonneg
  rw [offT_pred b1 (by omega)] at h1
  by_cases hmax : c.caller.flEnd = offsetMax
  · rw [hmax, offT_offsetMax_add_one] at h2
    omega
  · rw [offT_of_mem (by omega) (by unfold offsetMax at b3 hmax; omega)] at h2
    exact ⟨h1, h2⟩

/-- The iterations at a record that starts below the caller. -/
theorem Move.running_front (hG : Tidy G)
    (h : Running r G c (n :: rest)) (hn : n.fl.flStart < c.caller.flStart)
    (hc' : (c' = c.next n ∧ Low c.caller n) ∨
      (c' = ({ c.mark with left := some n.addr } : Scan Task).next n ∧
        c.caller.flType ≠ n.fl.flType ∧ c.caller.flStart ≤ n.fl.flEnd ∧
        n.fl.flEnd ≤ c.caller.flEnd)) : Running r G c' rest := by
  obtain ⟨hst, hleft, hlow, hadd, hat, hcaller⟩ := h.at_front hG hn
  rw [hcaller] at hc' hn
  rcases hc' with ⟨rfl, hnl⟩ | ⟨rfl, ht, h1, h2⟩
  · refine ⟨_, _, _, hst.low_next, ?_, by simp [Scan.next, hadd]⟩
    show LowSide r c.left (c.passed ++ [n])
    rw [hleft]
    refine .clear fun x hx => ?_
    rcases List.mem_append.1 hx with hx | hx
    · exact hlow x hx
    · rw [List.mem_singleton.1 hx]
      exact hnl
  · have hmarked := hst.marked (some n.addr) c.mark.right
    rw [← c.mark_passed] at hmarked
    refine ⟨_, _, _, hmarked.low_next, ?_, by simp [Scan.next]⟩
    simpa [Scan.next] using LowSide.clipped hlow (Ne.symm ht) hn h1 h2

variable {O : Task} {all : List Slot}

/-- Merging with a record of the same type once the new lock is in the list. -/
theorem Move.running_mergeFree (hall : all.Nodup) (hr : r.Proper) (hG : Tidy G)
    (hg : c.Going O all (n :: rest))
    (h : Running r G c (n :: rest)) (ht : c.caller.flType = n.fl.flType)
    (h1 : offT (c.caller.flStart - 1) ≤ n.fl.flEnd)
    (h2 : n.fl.flStart ≤ offT (c.caller.flEnd + 1)) (hadd : c.added = true) :
    Running r G ((c.mergeCaller n).freeLock (c.mergeEntry n)) rest := by
  obtain ⟨L, N, K, hst, hlow, hun⟩ := h
  have hnG : n ∈ G := by simp [hst.split]
  obtain ⟨h1, h2⟩ := hst.merge_bounds hr hG h1 h2
  have hrt : n.fl.flType = r.flType := ht.symm.trans hst.type
  cases hst.adding with
  | notYet a1 => simp [hadd] at a1
  | unlock _ a2 => exact absurd (hrt.trans a2) (hG.typed n hnG)
  | merged a a1 a2 a3 a4 =>
    -- something has been absorbed, so the record starts over the caller's start
    obtain ⟨m, hm⟩ := List.exists_mem_of_ne_nil N a3
    have hmn : m.fl.flEnd < n.fl.flStart := ((hG.around hst.split).2.1 m hm).1
    have hms := (hst.absorbed m hm).1
    have hmp := (hG.proper m (by simp [hst.split, hm])).start_le_end
    have hstart : mergeStart c.caller n.fl = c.caller.flStart := by
      rw [mergeStart, if_pos (by omega)]
    have hend : mergeEnd c.caller n.fl = max c.caller.flEnd n.fl.flEnd := by
      rw [mergeEnd]
      split <;> omega
    have hfresh : a ∉ addrs L := by
      have hnd := hg.nodup hall
      rw [hst.passed] at hnd
      simp only [addrs_append, addrs_cons, addrs_nil, List.append_assoc] at hnd
      intro ha
      exact (List.nodup_append.1 hnd).2.2 a ha a (by simp) rfl
    refine ⟨L, N ++ [n], [⟨a, (c.mergeCaller n).caller⟩], hst.absorb ?_ rfl ?_ hstart (by omega)
      hend ?_ ?_ ?_, hlow, fun _ hu => absurd hu a2⟩
    · exact Scan.mergeCaller_passed_alias hst.passed a4 hfresh n
    · exact .merged a hadd a2 (by simp) a4
    · intro hlt
      have hce := hst.end_eq hG List.mem_cons_self (.inr ⟨hrt, h2⟩)
      exact ⟨hrt, by omega⟩
    · intro t ht
      exact List.mem_append.2 ht
    · intro k hk
      rw [List.mem_singleton.1 hk]
      exact ⟨⟨a, (c.mergeCaller n).caller⟩, by simp, rfl, rfl⟩

/-- Merging with a record of the same type, which becomes the new lock. -/
theorem Move.running_mergeAdopt (hr : r.Proper) (hG : Tidy G)
    (h : Running r G c (n :: rest)) (ht : c.caller.flType = n.fl.flType)
    (h1 : offT (c.caller.flStart - 1) ≤ n.fl.flEnd)
    (h2 : n.fl.flStart ≤ offT (c.caller.flEnd + 1)) (hadd : c.added = false) :
    Running r G ((c.mergeCaller n).adopt (c.mergeEntry n)) rest := by
  obtain ⟨L, N, K, hst, hlow, hun⟩ := h
  have hnG : n ∈ G := by simp [hst.split]
  obtain ⟨h1, h2⟩ := hst.merge_bounds hr hG h1 h2
  have hrt : n.fl.flType = r.flType := ht.symm.trans hst.type
  have hu : r.flType ≠ .unlck := hrt ▸ hG.typed n hnG
  cases hst.adding with
  | notYet a1 a2 a3 a4 a5 =>
    subst a2
    rw [a4] at h1 h2
    refine ⟨L, [n], _, hst.adopt hu ?_ hrt rfl rfl ?_ ?_ ?_ ?_ (.inr ⟨rfl, hrt⟩), hlow,
      fun _ hu' => absurd hu' hu⟩
    · simp [Scan.adopt, Scan.mergeCaller, Scan.writeCaller, a3, hst.passed, Scan.mergeEntry]
    · simp only [Scan.adopt, Scan.mergeEntry, mergeStart, a4]
      split <;> omega
    · simp only [Scan.adopt, Scan.mergeEntry, mergeEnd, a4]
      split <;> omega
    · intro _
      exact ⟨hrt, by omega⟩
    · intro _
      exact ⟨hrt, by omega⟩
  | unlock a1 => simp [hadd] at a1
  | merged a a1 => simp [hadd] at a1

/-- Freeing a record of another type that the new lock covers. -/
theorem Move.running_coverFree (h : Running r G c (n :: rest))
    (h1 : c.caller.flStart ≤ n.fl.flStart) (h2 : n.fl.flEnd ≤ c.caller.flEnd)
    (hadd : c.mark.added = true) : Running r G (c.mark.freeLock n) rest := by
  obtain ⟨L, N, K, hst, hlow, -⟩ := h
  have hmark : Stage r G c.mark L N K (n :: rest) := hst.marked c.mark.left c.mark.right
  rw [← c.mark_caller] at h1 h2
  refine ⟨L, N ++ [n], K, hmark.absorb hmark.passed rfl ?_ rfl h1 (max_eq_left h2).symm
    (fun hlt => by omega) (fun t ht => List.mem_append.2 ht) fun k hk => ⟨k, hk, rfl, rfl⟩,
    c.mark_left ▸ hlow, by simp⟩
  cases hmark.adding with
  | notYet a1 => simp [hadd] at a1
  | unlock a1 a2 a3 a4 => exact .unlock a1 a2 a3 a4
  | merged a a1 a2 a3 a4 => exact .merged a a1 a2 (by simp) a4

/-- Replacing a record of another type, which becomes the new lock. -/
theorem Move.running_coverReplace (h : Running r G c (n :: rest))
    (h1 : c.caller.flStart ≤ n.fl.flStart) (h2 : n.fl.flEnd ≤ c.caller.flEnd)
    (hadd : c.mark.added = false) : Running r G ((c.wakeUp n).adopt (c.replaced n)) rest := by
  obtain ⟨L, N, K, hst, hlow, hun⟩ := h
  rw [Scan.mark_added, Bool.or_eq_false_iff] at hadd
  have hu : r.flType ≠ .unlck := by simpa [hst.type] using hadd.2
  cases hst.adding with
  | notYet a1 a2 a3 a4 a5 =>
    subst a2
    refine ⟨L, [n], _, hst.adopt hu ?_ hst.type rfl rfl ?_ ?_ ?_ ?_ (.inl ?_), hlow,
      fun _ hu' => absurd hu' hu⟩
    · simp [Scan.adopt, Scan.wakeUp, hst.passed, Scan.replaced]
    · simp only [Scan.adopt, Scan.replaced]
      rw [a4] at h1 ⊢
      omega
    · simp only [Scan.adopt, Scan.replaced]
      rw [a4] at h2 ⊢
      omega
    · intro hlt
      rw [a4] at h1
      omega
    · intro hlt
      rw [a4] at h2
      omega
    · intro t ht
      exact List.mem_append_right _ ht
  | unlock a1 | merged a a1 => simp [hadd.1] at a1

/-- Every iteration that goes on is a step from stage to stage. -/
theorem Move.running (hall : all.Nodup) (hr : r.Proper) (hG : Tidy G)
    (hg : c.Going O all (n :: rest)) (h : Running r G c (n :: rest))
    (hm : Move c n c') : Running r G c' rest := by
  obtain ⟨L, N, K, hst, -⟩ := id h
  have hn := (hG.proper n (by simp [hst.split])).start_le_end
  obtain ⟨b1, b2, b3⟩ := hst.bounds hr hG
  cases hm with
  | skipSame ht h1 =>
    rw [offT_pred b1 (by omega)] at h1
    exact Move.running_front hG h (by omega) (.inl ⟨rfl, by omega, fun _ => by omega⟩)
  | mergeFree ht h1 h2 hadd => exact Move.running_mergeFree hall hr hG hg h ht h1 h2 hadd
  | mergeAdopt ht h1 h2 hadd => exact Move.running_mergeAdopt hr hG h ht h1 h2 hadd
  | skipLow ht h1 =>
    exact Move.running_front hG h (by omega) (.inl ⟨rfl, h1, fun he => absurd he.symm ht⟩)
  | coverFree ht hmeets h1 h2 hadd => exact Move.running_coverFree h h1 h2 hadd
  | coverReplace ht hmeets h1 h2 hadd => exact Move.running_coverReplace h h1 h2 hadd
  | clipLeft ht hmeets h1 h2 =>
    exact Move.running_front hG h h1 (.inr ⟨rfl, ht, hmeets.1, h2⟩)

/-! ## The way out -/

/-- The high part of the block, whose first record may reach into the new lock. -/
inductive HighSide (r : FileLock Task) (E : Int) : Option (Entry Task) → List (Entry Task) → Prop
  | clear {U : List (Entry Task)} : (∀ x ∈ U, High r E x) → HighSide r E none U
  | clipped {U : List (Entry Task)} {x : Entry Task} : (∀ y ∈ U, High r E y) →
      x.fl.flType ≠ r.flType → x.fl.flStart ≤ E → E < x.fl.flEnd →
      HighSide r E (some x) (x :: U)

theorem HighSide.mem {E : Int} {right : Option (Entry Task)} {U : List (Entry Task)}
    (h : HighSide r E right U) (hx : x ∈ U) :
    High r E x ∨ x.fl.flType ≠ r.flType ∧ x.fl.flStart ≤ E ∧ E < x.fl.flEnd := by
  cases h with
  | clear hU => exact .inl (hU x hx)
  | clipped hU ht h1 h2 =>
    rcases List.mem_cons.1 hx with rfl | hx
    · exact .inr ⟨ht, h1, h2⟩
    · exact .inl (hU x hx)

/-- The state of the block when the loop is left. -/
inductive Exited (r : FileLock Task) (G : List (Entry Task)) (c : Scan Task)
    (U : List (Entry Task)) : Prop
  | apart (L N K : List (Entry Task)) : Stage r G c L N K U → LowSide r c.left L →
      HighSide r c.caller.flEnd c.right U → (∀ x ∈ U, c.caller.flStart ≤ x.fl.flStart) →
      (∀ x ∈ c.right, c.left ≠ some x.addr) → Exited r G c U
  | inside (x : Entry Task) (U' : List (Entry Task)) : U = x :: U' →
      Stage r G c c.passed [] [] U → (∀ y ∈ c.passed, Low r y) → c.left = some x.addr →
      HighSide r r.flEnd c.right U → c.right = some x → x.fl.flStart < r.flStart →
      r.flStart ≤ x.fl.flEnd → Exited r G c U

variable {E : Int}

/-- What comes after a record that ends over `E` is high. -/
theorem Tidy.high_rest (h : Tidy G)
    (hs : G = L ++ N ++ n :: rest) (r : FileLock Task) (hE : E < n.fl.flEnd) :
    ∀ x ∈ rest, High r E x := by
  intro x hx
  have hnx : n.fl.flEnd < x.fl.flStart := ((h.around hs).2.2 x hx).1
  exact ⟨by omega, fun _ => by omega⟩

variable {U : List (Entry Task)}

/-- The sum `caller->fl_end + 1` does not wrap at a record of the requested type that is
not below the caller. -/
theorem Stage.beyond_bounds (hr : r.Proper) (hG : Tidy G) (hw : NoWrap r G)
    (h : Stage r G c L N K (n :: rest)) (ht : n.fl.flType = r.flType)
    (h1 : offT (c.caller.flStart - 1) ≤ n.fl.flEnd)
    (h2 : offT (c.caller.flEnd + 1) < n.fl.flStart) : c.caller.flEnd + 1 < n.fl.flStart := by
  obtain ⟨b1, b2, b3⟩ := h.bounds hr hG
  have hnG : n ∈ G := by simp [h.split]
  have hn := hG.proper n hnG
  have hle := h.le_end
  have hsle := h.start_le
  rw [offT_pred b1 (by omega)] at h1
  by_cases hmax : c.caller.flEnd = offsetMax
  · exfalso
    by_cases hre : r.flEnd = offsetMax
    · -- every lock of the type ends short of the requested start
      have hfar := hw (ht ▸ hG.typed n hnG) hre
      have hnf := hfar n hnG ht
      obtain ⟨m, hm, hmt, -, hms⟩ := h.start_from (by omega)
      have := hfar m (by simp [h.split, hm]) hmt
      omega
    · -- a lock of the type reaches the end of the file already
      obtain ⟨m, hm, -, hme, -⟩ := h.end_from (by omega)
      have hmn : m.fl.flEnd < n.fl.flStart := ((hG.around h.split).2.1 m hm).1
      have := hn.start_le_end
      have := hn.end_le
      omega
  · rwa [offT_of_mem (by omega) (by unfold offsetMax at b3 hmax; omega)] at h2

theorem Halt.exited (hall : all.Nodup) (hr : r.Proper) (hG : Tidy G) (hw : NoWrap r G)
    (hg : c.Going O all (n :: rest))
    (h : Running r G c (n :: rest)) (hh : Halt c n c') : Exited r G c' (n :: rest) := by
  obtain ⟨L, N, K, hst, hlow, -⟩ := id h
  obtain ⟨b1, b2, b3⟩ := hst.bounds hr hG
  have hn := (hG.proper n (by simp [hst.split])).start_le_end
  have hrest : ∀ x ∈ rest, n.fl.flEnd < x.fl.flStart := fun x hx =>
    ((hG.around hst.split).2.2 x hx).1
  -- a record wholly over the caller
  have hbeyond : c.caller.flEnd < n.fl.flStart →
      (n.fl.flType = r.flType → c.caller.flEnd + 1 < n.fl.flStart) → Exited r G c (n :: rest) := by
    intro h1 h2
    refine .apart L N K hst hlow ?_ ?_ ?_
    · rw [hg.right_none]
      refine .clear fun x hx => ?_
      rcases List.mem_cons.1 hx with rfl | hx
      · exact ⟨h1, h2⟩
      · exact hG.high_rest hst.split r (by omega) x hx
    · intro x hx
      rcases List.mem_cons.1 hx with rfl | hx
      · omega
      · have := hrest x hx
        omega
    · intro x hx
      rw [hg.right_none] at hx
      cases hx
  cases hh with
  | beyondSame ht h1 h2 =>
    have hlt := hst.beyond_bounds hr hG hw (ht.symm.trans hst.type) h1 h2
    exact hbeyond (by omega) fun _ => hlt
  | beyond ht h1 h2 => exact hbeyond h2 fun he => absurd (hst.type.trans he.symm) ht
  | clipRight ht hmeets h1 h2 =>
    refine .apart L N K (hst.marked c.mark.left (some n)) (by simpa using hlow) ?_ ?_ ?_
    · refine .clipped ?_ ?_ (by simpa using hmeets.2) (by simpa using h1)
      · simpa using hG.high_rest hst.split r h1
      · exact fun he => ht (hst.type.trans he.symm)
    · intro x hx
      simp only [Scan.mark_caller]
      rcases List.mem_cons.1 hx with rfl | hx
      · exact h2
      · have := hrest x hx
        omega
    · intro x hx hl
      rw [← Option.some.inj hx, Scan.mark_left] at hl
      exact hg.head_fresh hall (hg.left_passed _ hl)
  | clipBoth ht hmeets h1 h2 =>
    obtain ⟨hst, hleft, hlow, hadd, hat, hcaller⟩ := h.at_front hG h2
    have hm := hst.marked (some n.addr) (some n)
    obtain ⟨hm1, hm2⟩ := hmeets
    rw [hcaller] at hm1 hm2 h1 h2 ht
    refine .inside n rest rfl (by simpa using hm) (by simpa using hlow) rfl ?_ rfl h2 hm1
    exact .clipped (hG.high_rest (N := []) (by simpa using hst.split) r h1) (Ne.symm ht) hm2 h1

section

variable [DecidableEq Task]

theorem lockItLoop_exited {O : Task} {G free : List (Entry Task)} {r : FileLock Task}
    (hcaller : r.flOwner = some O) (hr : r.Proper) (hG : Tidy G) (hw : NoWrap r G)
    (hown : ∀ n ∈ G, n.fl.flOwner = some O) (hfree : ∀ n ∈ free, n.fl.flOwner = none)
    (hnodup : (addrs G ++ addrs free).Nodup) :
    Exited r G (lockItLoop (Scan.start [] free r) G).1 (lockItLoop (Scan.start [] free r) G).2 := by
  refine lockItLoop_rule
    (P := fun c rest => c.Going O (addrs G ++ addrs free) rest ∧ Running r G c rest)
    ?_ ?_ ?_ G _ ⟨Scan.start_going hcaller hown hfree, ?_⟩
  · intro c n rest c' h _ hm
    exact ⟨hm.going h.1, hm.running hnodup hr hG h.1 h.2⟩
  · intro c n rest c' h _ hh
    exact hh.exited hnodup hr hG hw h.1 h.2
  · intro c rest h hend
    have hnil : rest = [] := by
      cases rest with
      | nil => rfl
      | cons n rest =>
        exact absurd (h.1.caller.trans (h.1.own n (by simp)).symm) (hend n rfl)
    subst hnil
    obtain ⟨L, N, K, hst, hlow, -⟩ := h.2
    refine .apart L N K hst hlow ?_ (by simp) ?_
    · rw [h.1.right_none]
      exact .clear (by simp)
    · rw [h.1.right_none]
      simp
  · refine ⟨[], [], [], ⟨rfl, rfl, rfl, .notYet rfl rfl rfl rfl fun _ => rfl, le_rfl, le_rfl,
      by simp, ?_, ?_, by simp⟩, .clear (by simp), by simp [Scan.start]⟩
    · intro hlt
      exact absurd hlt (lt_irrefl _)
    · intro hlt
      exact absurd hlt (lt_irrefl _)

end

/-! ## The two last writes -/

/-- What is left of a record under `s`. -/
def trimLow (s : Int) (x : Entry Task) : Entry Task :=
  { x with fl := { x.fl with flEnd := min x.fl.flEnd (s - 1) } }

/-- What is left of a record over `e`. -/
def trimHigh (e : Int) (x : Entry Task) : Entry Task :=
  { x with fl := { x.fl with flStart := max x.fl.flStart (e + 1) } }

theorem trimLow_of_lt {s : Int} (h : x.fl.flEnd < s) : trimLow s x = x := by
  unfold trimLow
  rw [min_eq_left (by omega)]

theorem trimHigh_of_lt {e : Int} (h : e < x.fl.flStart) : trimHigh e x = x := by
  unfold trimHigh
  rw [max_eq_left (by omega)]

theorem map_trimLow_of_low (h : ∀ x ∈ L, Low r x) :
    L.map (trimLow r.flStart) = L := by
  calc L.map (trimLow r.flStart) = L.map id :=
        List.map_congr_left fun x hx => trimLow_of_lt (h x hx).1
    _ = L := List.map_id L

theorem map_trimHigh_of_high (h : ∀ x ∈ U, High r E x) : U.map (trimHigh E) = U := by
  calc U.map (trimHigh E) = U.map id :=
        List.map_congr_left fun x hx => trimHigh_of_lt (h x hx).1
    _ = U := List.map_id U

variable {k : FileLock Task} {left : Option Slot}

/-- `left->fl_end = caller->fl_start - 1` trims the low part. -/
theorem cutLeft_low (hk : k.Proper)
    {R : List (Entry Task)} (h : LowSide k left L) (hnodup : (addrs (L ++ R)).Nodup) :
    cutLeft k.flStart left (L ++ R) = L.map (trimLow k.flStart) ++ R := by
  obtain ⟨k1, k2, k3⟩ := hk
  cases h with
  | clear hL => rw [map_trimLow_of_low hL, cutLeft]
  | @clipped L x hL ht h1 h2 h3 =>
    simp only [addrs_append, addrs_cons, addrs_nil] at hnodup
    obtain ⟨n1, -, n3⟩ := List.nodup_append.1 hnodup
    have hxL : x.addr ∉ addrs L := fun hx =>
      (List.nodup_append.1 n1).2.2 _ hx x.addr (by simp) rfl
    have hxR : x.addr ∉ addrs R := fun hx => n3 x.addr (by simp) _ hx rfl
    simp only [cutLeft]
    rw [modifyAt_append, modifyAt_append, modifyAt_of_notMem _ hxL, modifyAt_of_notMem _ hxR,
      List.map_append, map_trimLow_of_low hL]
    simp only [modifyAt, List.map_cons, List.map_nil, if_true, trimLow]
    rw [offT_pred k1 (by omega), min_eq_right (by omega)]

variable {right : Option (Entry Task)}

/-- `right->fl_start = caller->fl_end + 1` trims the high part. -/
theorem cutRight_high (hE : 0 ≤ E)
    {A : List (Entry Task)} (h : HighSide r E right U) (hU : ∀ x ∈ U, x.fl.Proper)
    (hnodup : (addrs (A ++ U)).Nodup) :
    cutRight E right (A ++ U) = A ++ U.map (trimHigh E) := by
  cases h with
  | clear hL => rw [map_trimHigh_of_high hL, cutRight]
  | @clipped U x hU' ht h1 h2 =>
    simp only [addrs_append, addrs_cons] at hnodup
    obtain ⟨-, n2, n3⟩ := List.nodup_append.1 hnodup
    have hxA : x.addr ∉ addrs A := fun hx => n3 _ hx x.addr (by simp) rfl
    have hxU : x.addr ∉ addrs U := (List.nodup_cons.1 n2).1
    simp only [cutRight]
    have hcons : x :: U = [x] ++ U := rfl
    rw [modifyAt_append, hcons, modifyAt_append, modifyAt_of_notMem _ hxA,
      modifyAt_of_notMem _ hxU, List.map_append, map_trimHigh_of_high hU']
    simp only [modifyAt, List.map_cons, List.map_nil, if_true, trimHigh]
    rw [offT_succ (by omega) h2 (hU x (by simp)).inRange, max_eq_right (by omega)]

theorem pieces_trimLow {s : Int} (h : ∀ x ∈ L, x.fl.flStart < s) :
    pieces (L.map (trimLow s)) = below s (pieces L) := by
  induction L with
  | nil => rfl
  | cons x L ih =>
    have hx : x.piece.lo < s := h x (by simp)
    rw [List.map_cons, pieces_cons, ih fun y hy => h y (by simp [hy]), pieces_cons]
    simp only [below, List.filterMap_cons, if_pos hx]
    rfl

theorem pieces_trimHigh {e : Int} (h : ∀ x ∈ U, e < x.fl.flEnd) :
    pieces (U.map (trimHigh e)) = above e (pieces U) := by
  induction U with
  | nil => rfl
  | cons x U ih =>
    have hx : e < x.piece.hi := h x (by simp)
    rw [List.map_cons, pieces_cons, ih fun y hy => h y (by simp [hy]), pieces_cons]
    simp only [above, List.filterMap_cons, if_pos hx]
    rfl

/-! ## The block afterwards -/

theorem Stage.low_ahead (hG : Tidy G) (h : Stage r G c L N K U) :
    ∀ x ∈ L, ∀ n ∈ N, Ahead x n := by
  intro x hx n hn
  have ho := hG.ordered
  rw [h.split, List.append_assoc] at ho
  exact (List.pairwise_append.1 ho).2.2 x hx n (by simp [hn])

/-- A low record stays low when the caller is widened. -/
theorem Stage.low_caller (hG : Tidy G) (h : Stage r G c L N K U) (hx : x ∈ L)
    (hxl : Low r x) : Low c.caller x := by
  have hsle := h.start_le
  by_cases hlt : c.caller.flStart < r.flStart
  · obtain ⟨n, hn, hnt, hns, -⟩ := h.start_from hlt
    obtain ⟨h1, h2⟩ := ahead_iff.1 (h.low_ahead hG x hx n hn)
    refine ⟨by omega, fun ht => ?_⟩
    have := h2 (ht.trans (h.type.trans hnt.symm))
    omega
  · have heq : c.caller.flStart = r.flStart := by omega
    unfold Low
    rw [heq, h.type]
    exact hxl

/-- The caller is not widened downwards if a record reaches into the requested range from
below. -/
theorem Stage.start_eq (hG : Tidy G) (h : Stage r G c L N K U) (hx : x ∈ L)
    (hxe : r.flStart ≤ x.fl.flEnd) : c.caller.flStart = r.flStart := by
  have hsle := h.start_le
  by_contra hne
  obtain ⟨n, hn, -, hns, -⟩ := h.start_from (by omega)
  have := (ahead_iff.1 (h.low_ahead hG x hx n hn)).1
  omega

/-- The low part seen from the caller, which may have been widened downwards. -/
theorem Stage.lowSide (hG : Tidy G) (h : Stage r G c L N K U)
    (hlow : LowSide r left L) : LowSide c.caller left L := by
  have hle := h.le_end
  cases hlow with
  | clear hL => exact .clear fun x hx => h.low_caller hG hx (hL x hx)
  | @clipped L x hL ht h1 h2 h3 =>
    have heq := h.start_eq hG (by simp) h2
    refine .clipped (fun y hy => h.low_caller hG (by simp [hy]) (hL y hy)) ?_ (heq ▸ h1)
      (heq ▸ h2) (le_trans h3 hle)
    rw [h.type]
    exact ht

theorem LowSide.start_lt
    (h : LowSide k left L) (hL : ∀ x ∈ L, x.fl.Proper) : ∀ x ∈ L, x.fl.flStart < k.flStart := by
  intro x hx
  rcases h.mem hx with ⟨hend, -⟩ | ⟨-, hstart, -⟩
  · exact lt_of_le_of_lt (hL x hx).start_le_end hend
  · exact hstart

theorem LowSide.end_le (hk : k.flStart ≤ k.flEnd)
    (h : LowSide k left L) : ∀ x ∈ L, x.fl.flEnd ≤ k.flEnd := by
  intro x hx
  rcases h.mem hx with ⟨hend, -⟩ | ⟨-, -, -, hend⟩ <;> omega

theorem LowSide.far (h : LowSide k left L) (hx : x ∈ L) (ht : x.fl.flType = k.flType) :
    x.fl.flEnd + 1 < k.flStart :=
  (h.mem hx).elim (fun hlow => hlow.2 ht) fun hne => absurd ht hne.1

theorem HighSide.far (h : HighSide r E right U) (hx : x ∈ U) (ht : x.fl.flType = r.flType) :
    E + 1 < x.fl.flStart :=
  (h.mem hx).elim (fun hhigh => hhigh.2 ht) fun hne => absurd ht hne.1

theorem HighSide.lt_end (h : HighSide r E right U) (hU : ∀ x ∈ U, x.fl.Proper) :
    ∀ x ∈ U, E < x.fl.flEnd := by
  intro x hx
  rcases h.mem hx with ⟨hstart, -⟩ | ⟨-, -, hend⟩
  · exact lt_of_lt_of_le hstart (hU x hx).start_le_end
  · exact hend

/-- The low part is what is left of the block under the new lock, the high part what is
left over it. -/
theorem Stage.pieces_sides (hG : Tidy G) (hc : c.caller.flStart ≤ c.caller.flEnd)
    (h : Stage r G c L N K U) (hlow : LowSide r c.left L)
    (hhigh : HighSide r c.caller.flEnd c.right U) (hU : ∀ x ∈ U, c.caller.flStart ≤ x.fl.flStart) :
    pieces (L.map (trimLow c.caller.flStart)) = below c.caller.flStart (pieces G) ∧
      pieces (U.map (trimHigh c.caller.flEnd)) = above c.caller.flEnd (pieces G) := by
  have hproper : ∀ x ∈ L ++ N ++ U, x.fl.Proper := fun x hx => hG.proper x (h.split ▸ hx)
  have hlow' := h.lowSide hG hlow
  constructor
  · rw [pieces_trimLow (hlow'.start_lt fun x hx => hproper x (by simp [hx])), h.split,
      pieces_append, pieces_append, below_append, below_append,
      below_of_le (forall_pieces.2 fun n hn => (h.absorbed n hn).1),
      below_of_le (forall_pieces.2 hU), List.append_nil,
      List.append_nil]
  · rw [pieces_trimHigh (hhigh.lt_end fun x hx => hproper x (by simp [hx])), h.split,
      pieces_append, pieces_append, above_append, above_append,
      above_of_le (forall_pieces.2 (hlow'.end_le hc)),
      above_of_le (forall_pieces.2 fun n hn => (h.absorbed n hn).2),
      List.nil_append, List.nil_append]

/-- The new lock is the requested range widened over the locks of its type that it
touches. -/
theorem Stage.stretch (hG : Tidy G) (hc : c.caller.flStart ≤ c.caller.flEnd)
    (h : Stage r G c L N K U) (hlow : LowSide r c.left L)
    (hhigh : HighSide r c.caller.flEnd c.right U) (hU : ∀ x ∈ U, c.caller.flStart ≤ x.fl.flStart) :
    Stretch r.flType r.flStart r.flEnd c.caller.flStart c.caller.flEnd (pieces G) := by
  have hlow' := h.lowSide hG hlow
  have hmem : ∀ n ∈ N, n.piece ∈ pieces G := fun n hn =>
    List.mem_map_of_mem (by simp [h.split, hn])
  refine ⟨h.start_le, h.le_end, ?_, ?_, ?_, ?_⟩
  · intro b h1 h2
    obtain ⟨n, hn, ht, hs, he⟩ := h.start_from (by omega)
    refine ⟨n.piece, hmem n hn, ⟨?_, ?_⟩, ht⟩
    all_goals simp only [Entry.piece]; omega
  · intro b h1 h2
    obtain ⟨n, hn, ht, he, hs⟩ := h.end_from (by omega)
    refine ⟨n.piece, hmem n hn, ⟨?_, ?_⟩, ht⟩
    all_goals simp only [Entry.piece]; omega
  · refine forall_pieces.2 fun x hx ht hlt => ?_
    rw [h.split, List.mem_append, List.mem_append] at hx
    rcases hx with (hx | hx) | hx
    · exact hlow'.far hx (ht.trans h.type.symm)
    · exact absurd hlt (not_lt.2 (h.absorbed x hx).1)
    · exact absurd hlt (not_lt.2 (hU x hx))
  · refine forall_pieces.2 fun x hx ht hlt => ?_
    rw [h.split, List.mem_append, List.mem_append] at hx
    rcases hx with (hx | hx) | hx
    · exact absurd hlt (not_lt.2 (hlow'.end_le hc x hx))
    · exact absurd hlt (not_lt.2 (h.absorbed x hx).2)
    · exact hhigh.far hx ht

/-- `x'` is what the request `r` leaves of the record `x` that it cuts: the part over the
range when there is one, else the part under it. -/
def Trimmed (r : FileLock Task) (x x' : Entry Task) : Prop :=
  x.fl.flType ≠ r.flType ∧ r.flStart ≤ x.fl.flEnd ∧ x.fl.flStart ≤ r.flEnd ∧
    ((r.flEnd < x.fl.flEnd ∧ x'.fl.flStart = r.flEnd + 1 ∧ x'.fl.flEnd = x.fl.flEnd) ∨
      (x.fl.flEnd ≤ r.flEnd ∧ x.fl.flStart < r.flStart ∧ x'.fl.flStart = x.fl.flStart ∧
        x'.fl.flEnd = r.flStart - 1))

/-- `x'` stands at the place of `x` with its queue and its type, and covers what `x`
covered, unless the request has cut it. -/
structure Kept (r : FileLock Task) (x x' : Entry Task) : Prop where
  addr : x'.addr = x.addr
  wait : x'.fl.flWait = x.fl.flWait
  type : x'.fl.flType = x.fl.flType
  range : (x'.fl.flStart ≤ x.fl.flStart ∧ x.fl.flEnd ≤ x'.fl.flEnd) ∨ Trimmed r x x'

theorem Kept.refl (r : FileLock Task) (x : Entry Task) : Kept r x x :=
  ⟨rfl, rfl, rfl, .inl ⟨le_rfl, le_rfl⟩⟩

/-- What happens to the queue of a record: it is woken, or the record keeps it. -/
def Fate (r : FileLock Task) (woken : List Task) (l : List (Entry Task)) (x : Entry Task) : Prop :=
  (∀ t ∈ x.fl.flWait, t ∈ woken) ∨ ∃ x' ∈ l, Kept r x x'

theorem Stage.kept_low (hG : Tidy G) (h : Stage r G c L N K U)
    (hlow : LowSide r left L) (hx : x ∈ L) :
    Kept r x (trimLow c.caller.flStart x) := by
  rcases hlow.mem hx with hxl | ⟨ht, h1, h2, h3⟩
  · rw [trimLow_of_lt (h.low_caller hG hx hxl).1]
    exact .refl r x
  · rw [h.start_eq hG hx h2]
    refine ⟨rfl, rfl, rfl, .inr ⟨ht, h2, by omega, .inr ⟨h3, h1, rfl, ?_⟩⟩⟩
    exact min_eq_right (by omega)

theorem Stage.kept_high (hG : Tidy G) (h : Stage r G c L N K U) (hr : r.flStart ≤ r.flEnd)
    (hhigh : HighSide r c.caller.flEnd right U)
    (hx : x ∈ U) : Kept r x (trimHigh c.caller.flEnd x) := by
  rcases hhigh.mem hx with hxh | ⟨ht, h1, h2⟩
  · rw [trimHigh_of_lt hxh.1]
    exact .refl r x
  · have heq := h.end_eq hG hx (.inl h1)
    rw [heq] at h1 h2 ⊢
    refine ⟨rfl, rfl, rfl, .inr ⟨ht, by omega, h1, .inl ⟨h2, ?_, rfl⟩⟩⟩
    exact max_eq_right (by omega)

/-- What a successful call does to a tidy block. -/
structure Done (r : FileLock Task) (G : List (Entry Task)) (o : Outcome Task) : Prop where
  map : (r.flType = .unlck ∧ pieces o.list = erase r.flStart r.flEnd (pieces G)) ∨
    (r.flType ≠ .unlck ∧ ∃ S E, Stretch r.flType r.flStart r.flEnd S E (pieces G) ∧
      pieces o.list = place r.flType S E (pieces G))
  fate : ∀ x ∈ G, Fate r o.woken o.list x

/-- The block is the trimmed low part, the new lock, and the trimmed high part. -/
theorem Stage.done {r : FileLock Task} (hr : r.Proper) {G : List (Entry Task)} (hG : Tidy G)
    {c : Scan Task} {L N K U : List (Entry Task)} (h : Stage r G c L N K U)
    (hlow : LowSide r c.left L) (hhigh : HighSide r c.caller.flEnd c.right U)
    (hU : ∀ x ∈ U, c.caller.flStart ≤ x.fl.flStart) {o : Outcome Task} {J : List (Entry Task)}
    (hlist : o.list = L.map (trimLow c.caller.flStart) ++ (J ++ U.map (trimHigh c.caller.flEnd)))
    (hJ : (r.flType = .unlck ∧ c.caller = r ∧ J = []) ∨ (r.flType ≠ .unlck ∧
      pieces J = [⟨c.caller.flStart, c.caller.flEnd, r.flType⟩]))
    (hKJ : ∀ k ∈ K, k ∈ J ∧ k.fl = c.caller) (hwoken : o.woken = c.woken) : Done r G o := by
  obtain ⟨-, hc, -⟩ := h.bounds hr hG
  obtain ⟨hL, hH⟩ := h.pieces_sides hG hc hlow hhigh hU
  constructor
  · rw [hlist, pieces_append, pieces_append, hL, hH]
    rcases hJ with ⟨hu, hcaller, rfl⟩ | ⟨hu, hJ⟩
    · exact .inl ⟨hu, by rw [hcaller]; rfl⟩
    · refine .inr ⟨hu, _, _, h.stretch hG hc hlow hhigh hU, ?_⟩
      rw [hJ]
      rfl
  · intro x hx
    rw [h.split] at hx
    unfold Fate
    rw [hlist, hwoken]
    rcases List.mem_append.1 hx with hx | hx
    · rcases List.mem_append.1 hx with hx | hx
      · exact .inr ⟨_, List.mem_append_left _ (List.mem_map_of_mem hx), h.kept_low hG hlow hx⟩
      · rcases h.fate x hx with hw | ⟨k, hk, h1, h2, h3⟩
        · exact .inl hw
        · obtain ⟨hk', hkc⟩ := hKJ k hk
          refine .inr ⟨k, by simp [hk'], h1, h2, ?_, .inl ?_⟩
          · rw [hkc, h.type, h3]
          · rw [hkc]
            exact h.absorbed x hx
    · refine .inr ⟨trimHigh c.caller.flEnd x, ?_, h.kept_high hG hr.start_le_end hhigh hx⟩
      simp only [List.mem_append, List.mem_map]
      exact .inr (.inr ⟨x, hx, rfl⟩)

@[simp] theorem addrs_map_trimHigh (e : Int) (l : List (Entry Task)) :
    addrs (l.map (trimHigh e)) = addrs l := by
  simp only [addrs, List.map_map]
  rfl

/-- The two last writes when they concern different records. -/
theorem Stage.cut_list (hr : r.Proper) (hG : Tidy G)
    {K' : List (Entry Task)} (h : Stage r G c L N K U)
    (hlow : LowSide r c.left L) (hhigh : HighSide r c.caller.flEnd c.right U)
    (hnodup : (addrs (L ++ (K' ++ U))).Nodup) :
    cutLeft c.caller.flStart c.left (cutRight c.caller.flEnd c.right (L ++ (K' ++ U))) =
      L.map (trimLow c.caller.flStart) ++ (K' ++ U.map (trimHigh c.caller.flEnd)) := by
  obtain ⟨b1, b2, b3⟩ := h.bounds hr hG
  have hU : ∀ x ∈ U, x.fl.Proper := fun x hx => hG.proper x (by simp [h.split, hx])
  rw [← List.append_assoc, cutRight_high (by omega) hhigh hU (by simpa using hnodup),
    List.append_assoc, cutLeft_low ⟨b1, b2, b3⟩ (h.lowSide hG hlow) (by simpa using hnodup)]

/-- The new lock breaks the record `x` in two: `x` keeps the part over it, a copy gets the
part under it. -/
theorem broken_done (hr : r.Proper) (hG : Tidy G) {y : Entry Task} (hsplit : G = L ++ x :: U)
    (hlow : ∀ z ∈ L, Low r z) (hhigh : ∀ z ∈ U, High r r.flEnd z) (ht : x.fl.flType ≠ r.flType)
    (h1 : x.fl.flStart < r.flStart) (h2 : r.flStart ≤ x.fl.flEnd) (h3 : r.flEnd < x.fl.flEnd)
    (hy : y.piece = ⟨x.fl.flStart, r.flStart - 1, x.fl.flType⟩)
    (hK : (r.flType = .unlck ∧ K = []) ∨ (r.flType ≠ .unlck ∧
      pieces K = [⟨r.flStart, r.flEnd, r.flType⟩])) {o : Outcome Task}
    (hlist : o.list = L ++ y :: (K ++ (x :: U).map (trimHigh r.flEnd))) : Done r G o := by
  have hproper : ∀ z ∈ L ++ x :: U, z.fl.Proper := fun z hz => hG.proper z (hsplit ▸ hz)
  have hre := hr.start_le_end
  have hxU := (HighSide.clipped hhigh ht (by omega) h3).lt_end fun z hz =>
    hproper z (List.mem_append_right _ hz)
  have hxL : ∀ z ∈ L ++ [x], z.fl.flStart < r.flStart := by
    intro z hz
    rcases List.mem_append.1 hz with hz | hz
    · exact lt_of_le_of_lt (hproper z (by simp [hz])).start_le_end (hlow z hz).1
    · exact List.mem_singleton.1 hz ▸ h1
  have hbelow : below r.flStart (pieces G) = pieces L ++ [y.piece] := by
    have hxy : (trimLow r.flStart x).piece = y.piece := by
      rw [hy, Entry.piece, trimLow, min_eq_right (by omega)]
    rw [hsplit, List.append_cons, pieces_append, below_append, ← pieces_trimLow hxL,
      below_of_le (forall_pieces.2 fun z hz => ?_), List.map_append, map_trimLow_of_low hlow,
      List.append_nil, pieces_append, ← hxy]
    · rfl
    · exact hre.trans (hhigh z hz).1.le
  have habove : above r.flEnd (pieces G) = pieces ((x :: U).map (trimHigh r.flEnd)) := by
    rw [hsplit, pieces_append, above_append, pieces_trimHigh hxU,
      above_of_le (forall_pieces.2 fun z hz => ?_), List.nil_append]
    exact (hlow z hz).1.le.trans hre
  have hstretch : Stretch r.flType r.flStart r.flEnd r.flStart r.flEnd (pieces G) := by
    have hfar : ∀ p ∈ pieces G, p.tag = r.flType → p.hi + 1 < r.flStart ∨ r.flEnd + 1 < p.lo := by
      refine forall_pieces.2 fun z hz hzt => ?_
      rw [hsplit, List.mem_append, List.mem_cons] at hz
      rcases hz with hz | rfl | hz
      · exact .inl ((hlow z hz).2 hzt)
      · exact absurd hzt ht
      · exact .inr ((hhigh z hz).2 hzt)
    refine ⟨le_rfl, le_rfl, fun b h1 h2 => by omega, fun b h1 h2 => by omega, ?_, ?_⟩ <;>
    · intro p hp hpt hlt
      rcases hfar p hp hpt with h | h <;> omega
  constructor
  · rw [hlist, pieces_append, pieces_cons, pieces_append, ← habove]
    rcases hK with ⟨hu, rfl⟩ | ⟨hu, hK⟩
    · refine .inl ⟨hu, ?_⟩
      rw [erase, hbelow]
      simp
    · refine .inr ⟨hu, _, _, hstretch, ?_⟩
      rw [place, hbelow, hK]
      simp
  · intro z hz
    unfold Fate
    rw [hlist]
    have hhi : ∀ w ∈ x :: U, trimHigh r.flEnd w ∈
        L ++ y :: (K ++ (x :: U).map (trimHigh r.flEnd)) := by
      intro w hw
      simp only [List.mem_append, List.mem_cons]
      exact .inr (.inr (.inr (List.mem_map_of_mem hw)))
    rw [hsplit, List.mem_append, List.mem_cons] at hz
    rcases hz with hz | rfl | hz
    · exact .inr ⟨z, by simp [hz], .refl r z⟩
    · refine .inr ⟨_, hhi z (by simp), rfl, rfl, rfl,
        .inr ⟨ht, h2, by omega, .inl ⟨h3, ?_, rfl⟩⟩⟩
      exact max_eq_right (by omega)
    · refine .inr ⟨_, hhi z (by simp [hz]), ?_⟩
      rw [trimHigh_of_lt (hhigh z hz).1]
      exact .refl r z

/-- The copy of a record broken in two, cut to the part under `s`. -/
def lowCopy (O : Task) (tmp x : Entry Task) (s : Int) : Entry Task :=
  { allocEntry O tmp x.fl with fl := { (allocEntry O tmp x.fl).fl with flEnd := s - 1 } }

/-- The two last writes when `left` is the fresh copy of `right`. -/
theorem broken_list (hr : r.Proper)
    {tmp : Entry Task} (hhigh : HighSide r r.flEnd (some x) (x :: U))
    (hproper : ∀ z ∈ x :: U, z.fl.Proper)
    (hnodup : (addrs (L ++ allocEntry O tmp x.fl :: (K ++ x :: U))).Nodup) :
    cutLeft r.flStart (some tmp.addr)
        (cutRight r.flEnd (some x) (L ++ allocEntry O tmp x.fl :: (K ++ x :: U))) =
      L ++ lowCopy O tmp x r.flStart :: (K ++ (x :: U).map (trimHigh r.flEnd)) := by
  obtain ⟨r1, r2, r3⟩ := hr
  have hassoc : ∀ V : List (Entry Task), L ++ allocEntry O tmp x.fl :: (K ++ V) =
      (L ++ allocEntry O tmp x.fl :: K) ++ V := fun V => by simp
  have hcons : ∀ V : List (Entry Task), L ++ allocEntry O tmp x.fl :: V =
      L ++ ([allocEntry O tmp x.fl] ++ V) := fun V => rfl
  rw [hassoc, cutRight_high (by omega) hhigh hproper (by rwa [← hassoc]), ← hassoc]
  simp only [addrs_append, addrs_cons] at hnodup
  obtain ⟨-, n2, n3⟩ := List.nodup_append.1 hnodup
  have hL : tmp.addr ∉ addrs L := fun hx => n3 _ hx _ (by simp [allocEntry]) rfl
  have hR : tmp.addr ∉ addrs (K ++ (x :: U).map (trimHigh r.flEnd)) := by
    rw [addrs_append, addrs_map_trimHigh, addrs_cons]
    exact (List.nodup_cons.1 n2).1
  simp only [cutLeft]
  rw [hcons, modifyAt_append, modifyAt_append, modifyAt_of_notMem _ hL, modifyAt_of_notMem _ hR,
    offT_pred r1 (by omega)]
  simp [modifyAt, allocEntry, lowCopy]

/-- What a call does to a tidy block: nothing at all, or what it was asked for. -/
inductive Result (r : FileLock Task) (G : List (Entry Task)) (o : Outcome Task) : Prop
  | failed : o.ret ≠ 0 → o.list = G → Result r G o
  | done : o.ret = 0 → Done r G o → Result r G o

/-- The list with a record taken from the free list put in it has no duplicates. -/
theorem Scan.Sound.nodup_took (h : c.Sound O all rest) (hall : all.Nodup) :
    (addrs (c.passed ++ rest)).Nodup := by
  have := (List.nodup_append.1 (h.nodup hall)).1
  rwa [← addrs_append] at this

/-- Nothing has changed while nothing has been added. -/
theorem Stage.unchanged (h : Stage r G c L N K U) (hadd : c.added = false) :
    c.passed ++ U = G := by
  cases h.adding with
  | notYet _ hN =>
    rw [h.passed, h.split, hN, List.append_nil]
  | unlock a1 => simp [hadd] at a1
  | merged a a1 => simp [hadd] at a1

theorem Exited.unchanged (h : Exited r G c U)
    (hc : c.added = false ∨ ∃ x, c.Breaks x) : c.passed ++ U = G := by
  cases h with
  | apart L N K hst _ _ _ hne =>
    rcases hc with hadd | ⟨x, hx⟩
    · exact hst.unchanged hadd
    · exact absurd hx.2 (hne x hx.1)
  | inside x U' hU hst =>
    rw [hst.split]
    simp

/-- The code after the loop, when the new lock stands in the list already. -/
theorem Exited.cut_done (hall : all.Nodup) (hr : r.Proper) (hG : Tidy G)
    (hs : c.Sound O all U) (h : Exited r G c U) (hadd : c.added = true)
    (hb : ∀ x, ¬ c.Breaks x) : Done r G (c.cut c.left U) := by
  have hnodup := hs.nodup_took hall
  cases h with
  | apart L N K hst hlow hhigh hU hne =>
    refine hst.done hr hG hlow hhigh hU (J := K) ?_ ?_ ?_ rfl
    · rw [hst.passed, List.append_assoc] at hnodup
      show cutLeft _ _ (cutRight _ _ (c.passed ++ U)) = _
      rw [hst.passed, List.append_assoc]
      exact hst.cut_list hr hG hlow hhigh hnodup
    · cases hst.adding with
      | notYet a1 => simp [hadd] at a1
      | unlock a1 a2 a3 a4 => exact .inl ⟨a2, a4, rfl⟩
      | merged a a1 a2 a3 a4 =>
        refine .inr ⟨a2, ?_⟩
        simp only [pieces_cons, pieces_nil, Entry.piece, hst.type]
    · intro k hk
      cases hst.adding with
      | notYet | unlock => cases hk
      | merged a =>
        refine ⟨hk, ?_⟩
        rw [List.mem_singleton.1 hk]
  | inside x U' hU hst hlow hl hh hright => exact absurd ⟨hright, hl⟩ (hb x)

/-- The code after the loop, when a record has to be taken for the new lock. -/
theorem Exited.cutNew_done (hall : all.Nodup) (hr : r.Proper) (hG : Tidy G)
    {free : List (Entry Task)} {tmp : Entry Task} (hs : c.Sound O all U) (h : Exited r G c U)
    (hadd : c.added = false) (hu : c.caller.flType ≠ .unlck) (hf : c.free = tmp :: free)
    (hb : ∀ x, ¬ c.Breaks x) :
    Done r G ((c.placed O tmp free).cut c.left (allocEntry O tmp c.caller :: U)) := by
  have hnodup := (hs.placed hf).nodup_took hall
  cases h with
  | apart L N K hst hlow hhigh hU hne =>
    cases hst.adding with
    | notYet a1 a2 a3 a4 a5 =>
      have hp : c.passed = L := by simpa using hst.passed
      refine hst.done hr hG hlow hhigh hU (J := [allocEntry O tmp c.caller]) ?_
        (.inr ⟨hst.type ▸ hu, ?_⟩) (by simp) rfl
      · show cutLeft c.caller.flStart c.left (cutRight c.caller.flEnd c.right
          (c.passed ++ ([allocEntry O tmp c.caller] ++ U))) = _
        rw [hp]
        refine hst.cut_list hr hG hlow hhigh ?_
        rw [← hp]
        exact hnodup
      · simp only [pieces_cons, pieces_nil, Entry.piece, allocEntry, hst.type]
    | unlock a1 => simp [hadd] at a1
    | merged a a1 => simp [hadd] at a1
  | inside x U' hU hst hlow hl hh hright => exact absurd ⟨hright, hl⟩ (hb x)

/-- What the loop leaves when the new lock breaks a record in two. -/
theorem Exited.breaks (h : Exited r G c U) (hb : c.Breaks x) :
    ∃ U', U = x :: U' ∧ Stage r G c c.passed [] [] U ∧ (∀ y ∈ c.passed, Low r y) ∧
      HighSide r r.flEnd (some x) (x :: U') ∧ x.fl.flStart < r.flStart ∧
      r.flStart ≤ x.fl.flEnd ∧ c.caller = r := by
  cases h with
  | apart L N K hst hlow hhigh hU hne => exact absurd hb.2 (hne x hb.1)
  | inside y U' hU hst hlow hl hh hright h1 h2 =>
    have hxy : y = x := Option.some.inj (hright.symm.trans hb.1)
    subst hxy
    subst hU
    rw [hright] at hh
    refine ⟨U', rfl, hst, hlow, hh, h1, h2, ?_⟩
    cases hst.adding with
    | notYet _ _ _ a4 => exact a4
    | unlock _ _ _ a4 => exact a4

/-- Every way `lock_it` ends on a tidy block. -/
theorem Ending.result (hall : all.Nodup) (hr : r.Proper) (hG : Tidy G)
    {o : Outcome Task} (hs : c.Sound O all U) (h : Exited r G c U)
    (he : Ending O c U o) : Result r G o := by
  -- what is common to the two endings that break a record in two
  have hbreak : ∀ (x tmp : Entry Task) (K : List (Entry Task)) (o : Outcome Task), c.Breaks x →
      (addrs (c.passed ++ allocEntry O tmp x.fl :: (K ++ U))).Nodup →
      o.list = cutLeft c.caller.flStart (some tmp.addr) (cutRight c.caller.flEnd c.right
        (c.passed ++ allocEntry O tmp x.fl :: (K ++ U))) →
      ((r.flType = .unlck ∧ K = []) ∨ (r.flType ≠ .unlck ∧
        pieces K = [⟨c.caller.flStart, c.caller.flEnd, r.flType⟩])) → Done r G o := by
    intro x tmp K o hb hnodup hlist hK
    obtain ⟨U', rfl, hst, hlow, hhigh, h1, h2, hcaller⟩ := h.breaks hb
    have hsplit := hst.split
    have hproper : ∀ z ∈ x :: U', z.fl.Proper := fun z hz =>
      hG.proper z (hsplit ▸ List.mem_append_right _ hz)
    rw [hcaller, hb.1, broken_list hr hhigh hproper hnodup] at hlist
    rw [List.append_nil] at hsplit
    rw [hcaller] at hK
    cases hhigh with
    | clipped hh ht h3 h4 => exact broken_done hr hG hsplit hlow hh ht h1 h2 h4 rfl hK hlist
  cases he with
  | refused ret hret hc => exact .failed hret (h.unchanged hc)
  | rolledBack tmp free hadd hf =>
    have hret : -Errno.enolck ≠ 0 := by decide
    exact .failed hret (h.unchanged (.inl hadd))
  | cut hadd hb => exact .done rfl (h.cut_done hall hr hG hs hadd hb)
  | cutNew tmp free hadd hu hf hb => exact .done rfl (h.cutNew_done hall hr hG hs hadd hu hf hb)
  | broken x tmp free hadd hb hf =>
    refine .done rfl (hbreak x tmp [] _ hb ((hs.took hf x.fl).nodup_took hall) rfl (.inl ⟨?_, rfl⟩))
    obtain ⟨-, -, hst, -⟩ := h.breaks hb
    cases hst.adding with
    | notYet a1 => simp [hadd] at a1
    | unlock _ a2 => exact a2
  | brokenNew x tmp tmp' free hadd hu hb hf =>
    have hnodup := ((hs.placed hf).took rfl x.fl).nodup_took hall
    obtain ⟨-, -, hst, -⟩ := h.breaks hb
    refine .done rfl (hbreak x tmp' [allocEntry O tmp c.caller] _ hb hnodup rfl
      (.inr ⟨hst.type ▸ hu, ?_⟩))
    rw [← hst.type]
    rfl

section

variable [DecidableEq Task]

/-- **`lock_it` on a tidy block** does what it was asked for, or fails and changes
nothing. -/
theorem lockGroup_result {O : Task} {G free : List (Entry Task)} {r : FileLock Task}
    (hcaller : r.flOwner = some O) (hr : r.Proper) (hG : Tidy G) (hw : NoWrap r G)
    (hown : ∀ n ∈ G, n.fl.flOwner = some O) (hfree : ∀ n ∈ free, n.fl.flOwner = none)
    (hnodup : (addrs G ++ addrs free).Nodup) : Result r G (lockGroup O G free r) :=
  Ending.result hnodup hr hG (lockItLoop_sound hcaller hown hfree)
    (lockItLoop_exited hcaller hr hG hw hown hfree hnodup) (Scan.finish_ending O _ _)

theorem lockGroup_tidy {O : Task} {G free : List (Entry Task)} {r : FileLock Task}
    (hcaller : r.flOwner = some O) (hr : r.Proper) (hG : Tidy G) (hw : NoWrap r G)
    (hown : ∀ n ∈ G, n.fl.flOwner = some O) (hfree : ∀ n ∈ free, n.fl.flOwner = none)
    (hnodup : (addrs G ++ addrs free).Nodup) : Tidy (lockGroup O G free r).list := by
  cases lockGroup_result hcaller hr hG hw hown hfree hnodup with
  | failed _ hlist => rwa [hlist]
  | done _ hd =>
    have hnormal : Normal (pieces (lockGroup O G free r).list) := by
      rcases hd.map with ⟨-, hm⟩ | ⟨-, S, E, hst, hm⟩
      · rw [hm]
        exact normal_erase hr.start_le_end hG.normal
      · rw [hm]
        exact normal_place hr.start_le_end hG.normal hst
    have hpiece : ∀ x ∈ (lockGroup O G free r).list,
        x.piece ∈ pieces (lockGroup O G free r).list := fun x hx => List.mem_map_of_mem hx
    refine ⟨fun x hx => ?_, fun x hx => ?_, ?_⟩
    · obtain ⟨h1, -, -, h4⟩ := (lockGroup_extent hcaller hr hown
        (fun n hn => (hG.proper n hn).inRange) hfree hnodup x hx).inRange
      exact ⟨h1, hnormal.proper x.piece (hpiece x hx), h4⟩
    · rcases lockGroup_typed hcaller hown hfree x hx with ⟨ht, hu⟩ | ⟨y, hy, ht⟩
      · rwa [ht]
      · rw [← ht]
        exact hG.typed y hy
    · have hord := hnormal.ordered
      simp only [pieces, List.pairwise_map] at hord
      exact hord

end

end LinuxEvocation.Locks
