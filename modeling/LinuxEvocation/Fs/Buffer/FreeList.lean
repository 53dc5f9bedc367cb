import LinuxEvocation.Fs.Buffer.Queues

/-!
# The free list of the buffer cache stays a circle

`FreeOk` says that `free_list` is the way into a circle, and `HashOk` that the hash queues are
lists of buffers in use.  Each operation on the links is a lemma about the two: it finds the
links it follows and changes the circle or the queue as a list would change.

* `FreeOk.remove`, `FreeOk.back`, `FreeOk.splice`, `FreeOk.putLast` — `free_list`.
* `HashOk.remove`, `HashOk.insert` — the hash queues.
-/

namespace LinuxEvocation.Fs.Buffer

open Function (update update_eq_self update_of_ne update_self)
open LinuxEvocation.Mm LinkedList

/-! ## `free_list` -/

/-- `free_list` leads into the circle `ring`, which starts there. -/
structure FreeOk (f : FreeLinks) (ring : List Nat) : Prop where
  circle : Circle f.nextFree f.prevFree ring
  nodup : ring.Nodup
  head_eq : f.freeList = ring.headD 0
  pos : 0 ∉ ring

/-- The links of heads that are not on the list are not touched. -/
def SameOff (f f' : FreeLinks) (ring : List Nat) : Prop :=
  ∀ y ∉ ring, f'.nextFree y = f.nextFree y

namespace FreeOk

variable {f : FreeLinks} {ring : List Nat} {x : Nat}

theorem link_mem (h : FreeOk f ring) (hx : x ∈ ring) :
    f.nextFree x ∈ ring ∧ f.prevFree x ∈ ring :=
  h.circle.mem hx

theorem link_ne (h : FreeOk f ring) (hx : x ∈ ring) : f.nextFree x ≠ 0 ∧ f.prevFree x ≠ 0 := by
  obtain ⟨h1, h2⟩ := h.link_mem hx
  exact ⟨fun heq => h.pos (heq ▸ h1), fun heq => h.pos (heq ▸ h2)⟩

theorem ne_zero (h : FreeOk f ring) (hx : x ∈ ring) : x ≠ 0 := fun heq => h.pos (heq ▸ hx)

theorem freeList_mem (h : FreeOk f ring) (hne : ring ≠ []) : f.freeList ∈ ring := by
  cases ring with
  | nil => exact absurd rfl hne
  | cons a l =>
    rw [h.head_eq]
    exact List.mem_cons_self

theorem eq_nil_iff (h : FreeOk f ring) : f.freeList = 0 ↔ ring = [] := by
  constructor
  · intro hzero
    by_contra hne
    exact h.ne_zero (h.freeList_mem hne) hzero
  · rintro rfl
    exact h.head_eq

/-- **A head is removed**, if another one stays on the list. -/
theorem remove (h : FreeOk f ring) (hx : x ∈ ring) (htwo : 2 ≤ ring.length) :
    ∃ f', removeFromFreeList x f = some f' ∧ FreeOk f' (ring.erase x) ∧ SameOff f f' ring := by
  obtain ⟨hnext, hprev⟩ := h.link_ne hx
  refine ⟨_, if_neg (by simp [hnext, hprev]), ?_, ?_⟩
  · obtain ⟨l₁, l₂, rfl⟩ := List.append_of_mem hx
    have hnot : x ∉ l₁ := by
      intro hmem
      exact (List.nodup_append.1 h.nodup).2.2 x hmem x List.mem_cons_self rfl
    rw [List.erase_append_right _ hnot, List.erase_cons_head]
    have hrot := h.circle.rotate_cons
    have hnod : (x :: (l₂ ++ l₁)).Nodup := by
      have := List.nodup_append_comm.1 h.nodup
      rwa [List.cons_append] at this
    have hxout : x ∉ l₂ ++ l₁ := (List.nodup_cons.1 hnod).1
    -- the circle that starts at `x` has a second node, so it stays a circle without `x`
    have hrest : Circle (update f.nextFree (f.prevFree x) (f.nextFree x))
        (update f.prevFree (f.nextFree x) (f.prevFree x)) (l₂ ++ l₁) := by
      cases hl : l₂ ++ l₁ with
      | nil =>
        have : (l₂ ++ l₁).length = 0 := by rw [hl]; rfl
        simp only [List.length_append, List.length_cons] at htwo this
        omega
      | cons y l =>
        rw [List.cons_append, hl] at hrot
        rw [hl] at hnod
        exact hrot.unlink hnod
    have hfinal : Circle
        (update (update f.nextFree (f.prevFree x) (f.nextFree x)) x 0)
        (update (update f.prevFree (f.nextFree x) (f.prevFree x)) x 0)
        (l₂ ++ l₁) := by
      refine hrest.congr (fun y hy => update_of_ne ?_ _ _)
        fun y hy => update_of_ne ?_ _ _
      all_goals
        rintro rfl
        exact hxout hy
    refine ⟨hfinal.rotate, h.nodup.sublist ?_, ?_, fun hmem => h.pos ?_⟩
    · exact List.Sublist.append_left (List.sublist_cons_self x l₂) l₁
    · have hhead := h.head_eq
      cases l₁ with
      | nil =>
        have hfx : f.freeList = x := hhead
        rw [List.nil_append]
        show (if f.freeList = x then f.nextFree x else f.freeList) = _
        rw [if_pos hfx]
        cases l₂ with
        | nil => simp at htwo
        | cons y l₂ => exact h.circle.1
      | cons y l₁ =>
        have hfy : f.freeList = y := hhead
        have hne : y ≠ x := fun heq => hnot (heq ▸ List.mem_cons_self)
        show (if f.freeList = x then f.nextFree x else f.freeList) = y
        rw [if_neg (by rw [hfy]; exact hne), hfy]
    · rw [List.mem_append] at hmem ⊢
      exact hmem.imp_right fun h => List.mem_cons_of_mem x h
  · intro y hy
    have h1 : y ≠ x := fun heq => hy (heq ▸ hx)
    have h2 : y ≠ f.prevFree x := fun heq => hy (heq ▸ (h.link_mem hx).2)
    show update (update f.nextFree (f.prevFree x) (f.nextFree x)) x 0 y = _
    rw [update_of_ne h1, update_of_ne h2]

theorem linkBehind_circle (h : FreeOk f ring) (hx : x ∉ ring) (hne : ring ≠ []) :
    Circle (linkBehind x f).nextFree (linkBehind x f).prevFree (ring ++ [x]) := by
  cases ring with
  | nil => exact absurd rfl hne
  | cons a l =>
    have hhead : f.freeList = a := h.head_eq
    have hins := h.circle.insert h.nodup hx
    rw [← hhead] at hins ⊢
    exact hins

theorem linkBehind_same (h : FreeOk f ring) (hne : ring ≠ []) {y : Nat} (hy : y ∉ ring)
    (hyx : y ≠ x) : (linkBehind x f).nextFree y = f.nextFree y := by
  have h1 : y ≠ f.prevFree f.freeList := by
    intro heq
    exact hy (heq ▸ (h.link_mem (h.freeList_mem hne)).2)
  show update (update f.nextFree x f.freeList) (f.prevFree f.freeList) x y = _
  rw [update_of_ne h1, update_of_ne hyx]

/-- **A head is put at the end of the list.** -/
theorem back (h : FreeOk f ring) (hx : x ∉ ring) (hx0 : x ≠ 0) (hne : ring ≠ []) :
    addToBack x f = some (linkBehind x f) ∧ FreeOk (linkBehind x f) (ring ++ [x]) := by
  have hmem := h.freeList_mem hne
  refine ⟨if_neg ?_, h.linkBehind_circle hx hne, ?_, ?_, ?_⟩
  · simp [h.ne_zero hmem, (h.link_ne hmem).2]
  · refine List.nodup_append.2 ⟨h.nodup, List.nodup_singleton x, ?_⟩
    rintro a ha b hb rfl
    rw [List.mem_singleton] at hb
    exact hx (hb ▸ ha)
  · show f.freeList = _
    rw [h.head_eq]
    cases ring with
    | nil => exact absurd rfl hne
    | cons a l => rfl
  · rw [List.mem_append, List.mem_singleton]
    rintro (hmem | hx0')
    · exact h.pos hmem
    · exact hx0 hx0'.symm

/-- **A head joins the list in front**, which may be empty. -/
theorem splice (h : FreeOk f ring) (hx : x ∉ ring) (hx0 : x ≠ 0) :
    ∃ f', spliceFirst x f = some f' ∧ FreeOk f' (x :: ring) ∧
      ∀ y ∉ ring, y ≠ x → f'.nextFree y = f.nextFree y := by
  by_cases hne : ring = []
  · subst hne
    have hnull : f.freeList = 0 := h.head_eq
    refine ⟨_, by rw [spliceFirst, if_neg (by simp [hnull])], ⟨⟨?_, ?_⟩, by simp, rfl, ?_⟩, ?_⟩
    · exact update_self _ _ _
    · exact update_self _ _ _
    · simpa using hx0.symm
    · intro y _ hyx
      exact update_of_ne hyx _ _
  · obtain ⟨hback, hok⟩ := h.back hx hx0 hne
    have hnn : f.freeList ≠ 0 := h.ne_zero (h.freeList_mem hne)
    refine ⟨{ linkBehind x f with freeList := x }, ?_, ?_, fun y hy hyx =>
      h.linkBehind_same hne hy hyx⟩
    · rw [spliceFirst, if_pos hnn, hback]
      rfl
    · refine ⟨?_, List.nodup_cons.2 ⟨hx, h.nodup⟩, rfl, ?_⟩
      · exact hok.circle.rotate
      · rw [List.mem_cons]
        rintro (hx0' | hmem)
        · exact hx0 hx0'.symm
        · exact h.pos hmem

/-- **`put_last_free`** turns the circle, or moves a head to the end of the list. -/
theorem putLast (h : FreeOk f ring) (hx : x ∈ ring) :
    ∃ f', putLastFree x f = some f' ∧ FreeOk f' (ring.erase x ++ [x]) ∧ SameOff f f' ring := by
  have hx0 := h.ne_zero hx
  by_cases hfirst : x = f.freeList
  · refine ⟨{ f with freeList := f.nextFree x }, ?_, ?_, fun _ _ => rfl⟩
    · rw [putLastFree, if_neg hx0, if_pos hfirst]
    · cases ring with
      | nil => exact absurd hx (by simp)
      | cons a l =>
        have hxa : x = a := hfirst.trans h.head_eq
        subst hxa
        rw [List.erase_cons_head]
        refine ⟨?_, ?_, ?_, ?_⟩
        · have hcircle : Circle f.nextFree f.prevFree ([x] ++ l) := h.circle
          exact hcircle.rotate
        · have hnod : ([x] ++ l).Nodup := h.nodup
          exact List.nodup_append_comm.1 hnod
        · cases l with
          | nil => exact h.circle.1
          | cons y l => exact h.circle.1
        · intro hmem
          apply h.pos
          rw [List.mem_append, List.mem_singleton] at hmem
          rcases hmem with hmem | hmem
          · exact List.mem_cons_of_mem x hmem
          · exact hmem ▸ List.mem_cons_self
  · have htwo : 2 ≤ ring.length := by
      cases ring with
      | nil => exact absurd hx (by simp)
      | cons a l =>
        have hxa : x ≠ a := fun heq => hfirst (heq.trans h.head_eq.symm)
        rcases List.mem_cons.1 hx with heq | hl
        · exact absurd heq hxa
        · have := List.length_pos_of_mem hl
          rw [List.length_cons]
          omega
    obtain ⟨f₁, hrem, hok, hsame⟩ := h.remove hx htwo
    have hne : ring.erase x ≠ [] := by
      intro hnil
      have := List.length_erase_of_mem hx
      rw [hnil, List.length_nil] at this
      omega
    have hnot : x ∉ ring.erase x := h.nodup.not_mem_erase
    obtain ⟨hback, hok'⟩ := hok.back hnot hx0 hne
    refine ⟨linkBehind x f₁, ?_, hok', fun y hy => ?_⟩
    · rw [putLastFree, if_neg hx0, if_neg hfirst, hrem]
      exact hback
    · have hy' : y ∉ ring.erase x := fun hmem => hy (List.mem_of_mem_erase hmem)
      rw [hok.linkBehind_same hne hy' fun heq => hy (heq ▸ hx)]
      exact hsame y hy

/-- Following the links from `free_list` visits the circle. -/
theorem walk_path {a b : Nat} {l : List Nat} (h : Path f.nextFree f.prevFree a l b) :
    walk f (l.length + 1) a = a :: l := by
  induction l generalizing a with
  | nil => rfl
  | cons y l ih =>
    rw [List.length_cons, walk, h.1, ih h.2.2]

theorem walk_eq (h : FreeOk f ring) : walk f ring.length f.freeList = ring := by
  cases ring with
  | nil => rfl
  | cons a l =>
    rw [h.head_eq]
    exact walk_path h.circle

end FreeOk

/-! ## The hash queues -/

/-- The hash queues hold buffers in use, each in the queue of its block; a buffer that is in no
queue has no links. -/
structure HashOk (h : HashLinks) (queue : Nat → Nat) (ring : List Nat) (on : Nat → List Nat) :
    Prop where
  list : ∀ i, DList 0 h.next h.prev 0 (h.table i) (on i)
  nodup : ∀ i, (on i).Nodup
  mem : ∀ i, ∀ x ∈ on i, x ∈ ring ∧ queue x = i
  off : ∀ x ∈ ring, x ∉ on (queue x) → h.next x = 0 ∧ h.prev x = 0
  pos : 0 ∉ ring

namespace HashOk

variable {h : HashLinks} {queue queue' : Nat → Nat} {ring ring' : List Nat} {on : Nat → List Nat}
  {x : Nat}

theorem congr (hok : HashOk h queue ring on) (hring : ∀ y, y ∈ ring' ↔ y ∈ ring)
    (hqueue : ∀ y ∈ ring, queue' y = queue y) : HashOk h queue' ring' on := by
  refine ⟨hok.list, hok.nodup, fun i y hy => ?_, fun y hy hnot => ?_, ?_⟩
  · obtain ⟨h1, h2⟩ := hok.mem i y hy
    exact ⟨(hring y).2 h1, (hqueue y h1).trans h2⟩
  · have hy' := (hring y).1 hy
    rw [hqueue y hy'] at hnot
    exact hok.off y hy' hnot
  · rw [hring]
    exact hok.pos

theorem not_mem_other (hok : HashOk h queue ring on) {i : Nat} (hi : i ≠ queue x) : x ∉ on i :=
  fun hmem => hi (hok.mem i x hmem).2.symm

theorem not_mem_of_off (hok : HashOk h queue ring on) (hx : x ∉ ring) (i : Nat) : x ∉ on i :=
  fun hmem => hx (hok.mem i x hmem).1

/-- Stores to `x` and to the heads of a queue leave the other queues alone. -/
theorem list_other (hok : HashOk h queue ring on) {i j : Nat} (hi : i ≠ j) (hx : x ∉ on i)
    {next prev : Nat → Nat} (hkeep : ∀ y, y ≠ x → y ∉ on j → next y = h.next y ∧ prev y = h.prev y) :
    DList 0 next prev 0 (h.table i) (on i) := by
  have hapart : ∀ y ∈ on i, next y = h.next y ∧ prev y = h.prev y := fun y hy =>
    hkeep y (fun heq => hx (heq ▸ hy)) fun hm => hi ((hok.mem i y hy).2.symm.trans (hok.mem j y hm).2)
  exact (hok.list i).congr (fun y hy => (hapart y hy).1) fun y hy => (hapart y hy).2

theorem list_congr (hok : HashOk h queue ring on) {h' : HashLinks} (htable : h'.table = h.table)
    (hsame : ∀ i, ∀ y ∈ on i, h'.next y = h.next y ∧ h'.prev y = h.prev y) (i : Nat) :
    DList 0 h'.next h'.prev 0 (h'.table i) (on i) := by
  rw [htable]
  exact (hok.list i).congr (fun y hy => (hsame i y hy).1) fun y hy => (hsame i y hy).2

/-- The neighbours of a buffer are in its queue. -/
theorem neighbours (hok : HashOk h queue ring on) {l₁ l₂ : List Nat} {i : Nat}
    (hon : on i = l₁ ++ x :: l₂) :
    (h.next x = 0 ∨ h.next x ∈ on i) ∧ (h.prev x = 0 ∨ h.prev x ∈ on i) := by
  have hlist := hok.list i
  rw [hon] at hlist ⊢
  obtain ⟨-, htail, hprev⟩ := hlist.split
  refine ⟨?_, ?_⟩
  · cases l₂ with
    | nil => exact .inl htail
    | cons y l₂ =>
      right
      rw [htail.1]
      exact List.mem_append_right _ (List.mem_cons_of_mem x List.mem_cons_self)
  · rw [hprev]
    cases l₁ with
    | nil => exact .inl rfl
    | cons y l₁ =>
      right
      rw [List.getLast_cons (by simp)]
      exact List.mem_append_left _ (List.getLast_mem _)

/-- **`remove_from_hash_queue`**, whether the buffer is in a queue or not. -/
theorem remove (hok : HashOk h queue ring on) (hx : x ∈ ring) :
    HashOk (removeFromHashQueue (queue x) x h) queue ring
      (update on (queue x) ((on (queue x)).erase x)) := by
  have hx0 : x ≠ 0 := fun heq => hok.pos (heq ▸ hx)
  by_cases hon : x ∈ on (queue x)
  · obtain ⟨l₁, l₂, hsplit⟩ := List.append_of_mem hon
    obtain ⟨hnext, hprev⟩ := hok.neighbours hsplit
    have hnodup := hok.nodup (queue x)
    have hnot : x ∉ l₁ := by
      rw [hsplit] at hnodup
      intro hmem
      exact (List.nodup_append.1 hnodup).2.2 x hmem x List.mem_cons_self rfl
    have herase : (on (queue x)).erase x = l₁ ++ l₂ := by
      rw [hsplit, List.erase_append_right _ hnot, List.erase_cons_head]
    have hsub : ∀ i y, y ∈ update on (queue x) ((on (queue x)).erase x) i →
        y ∈ on i ∧ y ≠ x := by
      intro i y hy
      by_cases hi : i = queue x
      · subst hi
        rw [update_self] at hy
        exact ⟨List.mem_of_mem_erase hy, fun heq => hnodup.not_mem_erase (heq ▸ hy)⟩
      · rw [update_of_ne hi] at hy
        exact ⟨hy, fun heq => hok.not_mem_other (x := x) hi (heq ▸ hy)⟩
    -- a buffer that is not in the queue keeps its links
    have hkeep : ∀ y, y ≠ x → y ∉ on (queue x) →
        (removeFromHashQueue (queue x) x h).next y = h.next y ∧
          (removeFromHashQueue (queue x) x h).prev y = h.prev y := by
      intro y hyx hyon
      have hne : ∀ {z}, z ∈ on (queue x) → y ≠ z := fun hz heq => hyon (heq ▸ hz)
      constructor
      · show update (if h.prev x = 0 then h.next
          else update h.next (h.prev x) (h.next x)) x 0 y = h.next y
        rw [update_of_ne hyx]
        split
        · rfl
        · exact update_of_ne (hne (hprev.resolve_left ‹_›)) _ _
      · show update (if h.next x = 0 then h.prev
          else update h.prev (h.next x) (h.prev x)) x 0 y = h.prev y
        rw [update_of_ne hyx]
        split
        · rfl
        · exact update_of_ne (hne (hnext.resolve_left ‹_›)) _ _
    refine ⟨fun i => ?_, fun i => ?_, fun i y hy => ?_, fun y hy hynot => ?_, hok.pos⟩
    · by_cases hi : i = queue x
      · subst hi
        have hlist := hok.list (queue x)
        rw [hsplit] at hlist hnodup
        have hzero : (0 : Nat) ∉ l₁ ++ x :: l₂ := by
          rw [← hsplit]
          exact fun hmem => hok.pos (hok.mem _ 0 hmem).1
        have hunl := hlist.unlink hnodup hzero
        rw [update_self, herase]
        have htable : (removeFromHashQueue (queue x) x h).table (queue x) =
            if h.table (queue x) = x then h.next x else h.table (queue x) := by
          unfold removeFromHashQueue
          dsimp only
          split
          · rw [update_self]
          · rfl
        rw [htable]
        refine hunl.congr (fun y hy => ?_) fun y hy => ?_
        all_goals
          have hyx : y ≠ x := by
            rintro rfl
            rw [← herase] at hy
            exact (hok.nodup (queue y)).not_mem_erase hy
          exact update_of_ne hyx _ _
      · rw [update_of_ne hi]
        have htable : (removeFromHashQueue (queue x) x h).table i = h.table i := by
          unfold removeFromHashQueue
          dsimp only
          split
          · exact update_of_ne hi _ _
          · rfl
        rw [htable]
        exact hok.list_other hi (hok.not_mem_other (x := x) hi) hkeep
    · by_cases hi : i = queue x
      · rw [hi, update_self]
        exact hnodup.erase x
      · rw [update_of_ne hi]
        exact hok.nodup i
    · exact hok.mem i y (hsub i y hy).1
    · by_cases hyx : y = x
      · subst hyx
        exact ⟨update_self _ _ _, update_self _ _ _⟩
      · have hyon : y ∉ on (queue y) := by
          intro hmem
          apply hynot
          by_cases hq : queue y = queue x
          · rw [hq, update_self]
            rw [hq] at hmem
            exact (List.mem_erase_of_ne hyx).2 hmem
          · rw [update_of_ne hq]
            exact hmem
        obtain ⟨h1, h2⟩ := hok.off y hy hyon
        obtain ⟨hn, hp⟩ := hkeep y hyx fun hm => hyon ((hok.mem _ y hm).2.symm ▸ hm)
        exact ⟨hn.trans h1, hp.trans h2⟩
  · -- a buffer in no queue has no links, and nothing happens
    obtain ⟨hnext, hprev⟩ := hok.off x hx hon
    have htable : h.table (queue x) ≠ x := by
      intro heq
      apply hon
      obtain ⟨t, ht, -⟩ := (hok.list (queue x)).threads.exists_cons (by rw [heq]; exact hx0)
      rw [ht, heq]
      exact List.mem_cons_self
    have hsame : removeFromHashQueue (queue x) x h = h := by
      unfold removeFromHashQueue
      rw [if_pos hnext, if_pos hprev, if_neg htable]
      have h1 : update h.prev x 0 = h.prev := by rw [← hprev, update_eq_self]
      have h2 : update h.next x 0 = h.next := by rw [← hnext, update_eq_self]
      rw [h1, h2]
    rw [hsame, List.erase_of_not_mem hon, update_eq_self]
    exact hok

/-- A buffer in no queue leaves the cache. -/
theorem leave (hok : HashOk h queue ring on) (hnot : x ∉ on (queue x)) :
    HashOk h queue (ring.erase x) on := by
  refine ⟨hok.list, hok.nodup, fun i y hy => ?_, fun y hy => hok.off y (List.mem_of_mem_erase hy),
    fun hmem => hok.pos (List.mem_of_mem_erase hmem)⟩
  obtain ⟨h1, h2⟩ := hok.mem i y hy
  refine ⟨?_, h2⟩
  rw [List.mem_erase_of_ne]
  · exact h1
  · rintro rfl
    rw [h2] at hnot
    exact hnot hy

/-- **A buffer enters the cache**, in the queue of its block if it has a device. -/
theorem insert (hok : HashOk h queue ring on) (hx : x ∉ ring) (hx0 : x ≠ 0)
    (hqueue : ∀ y ∈ ring, queue' y = queue y) (hring : ∀ y, y ∈ ring' ↔ y ∈ ring ∨ y = x)
    (dev : Nat) :
    HashOk (insertIntoHashQueue dev (queue' x) x h) queue' ring'
      (if dev = 0 then on else update on (queue' x) (x :: on (queue' x))) := by
  have hxon : ∀ i, x ∉ on i := hok.not_mem_of_off hx
  have hpos : 0 ∉ ring' := by
    rw [hring]
    rintro (hmem | heq)
    · exact hok.pos hmem
    · exact hx0 heq.symm
  unfold insertIntoHashQueue
  by_cases hdev : dev = 0
  · rw [if_pos hdev, if_pos hdev]
    have hkeep : ∀ y, y ≠ x → update h.next x 0 y = h.next y ∧
        update h.prev x 0 y = h.prev y :=
      fun y hyx => ⟨update_of_ne hyx _ _, update_of_ne hyx _ _⟩
    refine ⟨hok.list_congr rfl fun i y hy => hkeep y fun heq => hxon i (heq ▸ hy), hok.nodup,
      fun i y hy => ?_, fun y hy hnot => ?_, hpos⟩
    · obtain ⟨h1, h2⟩ := hok.mem i y hy
      exact ⟨(hring y).2 (.inl h1), (hqueue y h1).trans h2⟩
    · rcases (hring y).1 hy with hy | rfl
      · have hyx : y ≠ x := fun heq => hx (heq ▸ hy)
        rw [hqueue y hy] at hnot
        have := hok.off y hy hnot
        exact ⟨(hkeep y hyx).1.trans this.1, (hkeep y hyx).2.trans this.2⟩
      · exact ⟨update_self _ _ _, update_self _ _ _⟩
  · rw [if_neg hdev, if_neg hdev]
    -- a buffer that is not in the queue keeps its links
    have hkeep : ∀ y, y ≠ x → y ∉ on (queue' x) →
        update h.next x (h.table (queue' x)) y = h.next y ∧
          (if h.table (queue' x) = 0 then update h.prev x 0
            else update (update h.prev x 0) (h.table (queue' x)) x) y = h.prev y := by
      refine fun y hyx hyon => ⟨update_of_ne hyx _ _, ?_⟩
      split
      · exact update_of_ne hyx _ _
      · rename_i hnull
        have hyt : y ≠ h.table (queue' x) := by
          rintro rfl
          obtain ⟨t, ht, -⟩ := (hok.list (queue' x)).threads.exists_cons hnull
          rw [ht] at hyon
          exact hyon List.mem_cons_self
        rw [update_of_ne hyt, update_of_ne hyx]
    refine ⟨fun i => ?_, fun i => ?_, fun i y hy => ?_, fun y hy hnot => ?_, hpos⟩
    · by_cases hi : i = queue' x
      · subst hi
        dsimp only
        rw [update_self, update_self]
        exact (hok.list (queue' x)).push (hok.nodup _) (hxon _) hx0
      · dsimp only
        rw [update_of_ne hi, update_of_ne hi]
        exact hok.list_other hi (hxon i) hkeep
    · by_cases hi : i = queue' x
      · rw [hi, update_self]
        exact List.nodup_cons.2 ⟨hxon _, hok.nodup _⟩
      · rw [update_of_ne hi]
        exact hok.nodup i
    · by_cases hi : i = queue' x
      · subst hi
        rw [update_self] at hy
        rcases List.mem_cons.1 hy with rfl | hy
        · exact ⟨(hring y).2 (.inr rfl), rfl⟩
        · obtain ⟨h1, h2⟩ := hok.mem _ y hy
          exact ⟨(hring y).2 (.inl h1), (hqueue y h1).trans h2⟩
      · rw [update_of_ne hi] at hy
        obtain ⟨h1, h2⟩ := hok.mem i y hy
        exact ⟨(hring y).2 (.inl h1), (hqueue y h1).trans h2⟩
    · have hyx : y ≠ x := by
        rintro rfl
        rw [update_self] at hnot
        exact hnot List.mem_cons_self
      have hy' : y ∈ ring := ((hring y).1 hy).resolve_right hyx
      have hyon : y ∉ on (queue y) := by
        intro hmem
        apply hnot
        rw [hqueue y hy']
        by_cases hq : queue y = queue' x
        · rw [hq, update_self]
          exact List.mem_cons_of_mem x (hq ▸ hmem)
        · rw [update_of_ne hq]
          exact hmem
      obtain ⟨h1, h2⟩ := hok.off y hy' hyon
      obtain ⟨hn, hp⟩ := hkeep y hyx fun hm => hyon ((hok.mem _ y hm).2.symm ▸ hm)
      exact ⟨hn.trans h1, hp.trans h2⟩

end HashOk

end LinuxEvocation.Fs.Buffer
