import LinuxEvocation.Lib.LinkedList

/-!
# Doubly linked lists threaded through a memory

A doubly linked list has two link functions, `next` and `prev`.  A circular one has no end: the
successor of its last node is its first, and a pointer to any node is a way into it.

* `Path next prev a l b` — from `a` the links visit `l` and then `b`, in both directions.
* `Circle next prev l` — the nodes of `l` form a circle.
* `Circle.rotate` — the circle has no first node.
* `Circle.insert`, `Circle.unlink` — the four and two stores that put a node behind the last one
  and take one out.
* `DList` — the list with ends, for the hash queues; `DList.push`, `DList.unlink`.
* `Seg`, `Loop` — a way along single links, and one that comes back.
-/

namespace LinkedList

open Function (update update_of_ne update_self)

variable {α : Type*}

/-! ## Paths -/

/-- From `a` the links visit the nodes of `l` and then `b`, and `prev` leads back. -/
def Path (next prev : α → α) : α → List α → α → Prop
  | a, [], b => next a = b ∧ prev b = a
  | a, x :: l, b => next a = x ∧ prev x = a ∧ Path next prev x l b

namespace Path

variable {next prev next' prev' : α → α} {a b x : α} {l l₁ l₂ : List α}

theorem append : Path next prev a (l₁ ++ x :: l₂) b ↔
    Path next prev a l₁ x ∧ Path next prev x l₂ b := by
  induction l₁ generalizing a with
  | nil =>
    simp only [List.nil_append, Path]
    tauto
  | cons y l₁ ih =>
    simp only [List.cons_append, Path, ih]
    tauto

/-- Only the links between the nodes of the path matter. -/
theorem congr (h : Path next prev a l b) (hnext : ∀ y, y = a ∨ y ∈ l → next' y = next y)
    (hprev : ∀ y, y ∈ l ∨ y = b → prev' y = prev y) : Path next' prev' a l b := by
  induction l generalizing a with
  | nil =>
    obtain ⟨h1, h2⟩ := h
    exact ⟨(hnext a (.inl rfl)).trans h1, (hprev b (.inr rfl)).trans h2⟩
  | cons y l ih =>
    obtain ⟨h1, h2, h3⟩ := h
    refine ⟨(hnext a (.inl rfl)).trans h1,
      (hprev y (.inl List.mem_cons_self)).trans h2, ih h3 (fun z hz => ?_) fun z hz => ?_⟩
    · rcases hz with rfl | hz
      · exact hnext z (.inr List.mem_cons_self)
      · exact hnext z (.inr (List.mem_cons_of_mem y hz))
    · rcases hz with hz | rfl
      · exact hprev z (.inl (List.mem_cons_of_mem y hz))
      · exact hprev z (.inr rfl)

theorem last (h : Path next prev a l b) :
    prev b = (a :: l).getLast (by simp) ∧ next ((a :: l).getLast (by simp)) = b := by
  induction l generalizing a with
  | nil => exact ⟨h.2, h.1⟩
  | cons y l ih =>
    rw [List.getLast_cons (by simp)]
    exact ih h.2.2

end Path

/-! ## Circles -/

/-- The nodes of `l` form a circle, in this order. -/
def Circle (next prev : α → α) : List α → Prop
  | [] => True
  | x :: l => Path next prev x l x

namespace Circle

variable {next prev next' prev' : α → α} {x y : α} {l l₁ l₂ : List α}

theorem rotate_cons (h : Circle next prev (l₁ ++ x :: l₂)) :
    Circle next prev (x :: l₂ ++ l₁) := by
  cases l₁ with
  | nil =>
    rw [List.append_nil]
    exact h
  | cons y l₁ =>
    have hpath := Path.append.1 h
    exact Path.append.2 ⟨hpath.2, hpath.1⟩

/-- **A circle has no first node.** -/
theorem rotate (h : Circle next prev (l₁ ++ l₂)) : Circle next prev (l₂ ++ l₁) := by
  cases l₂ with
  | nil =>
    rw [List.append_nil] at h
    exact h
  | cons x l₂ => exact rotate_cons h

theorem congr (h : Circle next prev l) (hnext : ∀ y ∈ l, next' y = next y)
    (hprev : ∀ y ∈ l, prev' y = prev y) : Circle next' prev' l := by
  cases l with
  | nil => trivial
  | cons x l =>
    refine Path.congr h (fun y hy => hnext y ?_) fun y hy => hprev y ?_
    · rcases hy with rfl | hy
      · exact List.mem_cons_self
      · exact List.mem_cons_of_mem x hy
    · rcases hy with hy | rfl
      · exact List.mem_cons_of_mem x hy
      · exact List.mem_cons_self

/-- The successor and the predecessor of a node are on the circle. -/
theorem mem (h : Circle next prev l) (hx : x ∈ l) : next x ∈ l ∧ prev x ∈ l := by
  obtain ⟨l₁, l₂, rfl⟩ := List.append_of_mem hx
  have hrot : Path next prev x (l₂ ++ l₁) x := h.rotate_cons
  have hmem : ∀ z, z ∈ x :: (l₂ ++ l₁) → z ∈ l₁ ++ x :: l₂ := by
    intro z hz
    simp only [List.mem_cons, List.mem_append] at hz ⊢
    tauto
  refine ⟨hmem _ ?_, hmem _ ?_⟩
  · cases hl : l₂ ++ l₁ with
    | nil =>
      rw [hl] at hrot
      rw [hrot.1]
      exact List.mem_cons_self
    | cons z l =>
      rw [hl] at hrot
      rw [hrot.1]
      exact List.mem_cons_of_mem x List.mem_cons_self
  · rw [hrot.last.1]
    exact List.getLast_mem _

/-- `next` and `prev` undo each other on the circle. -/
theorem inverse (h : Circle next prev l) (hx : x ∈ l) :
    prev (next x) = x ∧ next (prev x) = x := by
  obtain ⟨l₁, l₂, rfl⟩ := List.append_of_mem hx
  have hrot : Path next prev x (l₂ ++ l₁) x := h.rotate_cons
  refine ⟨?_, ?_⟩
  · cases hl : l₂ ++ l₁ with
    | nil =>
      rw [hl] at hrot
      rw [hrot.1, hrot.2]
    | cons z l =>
      rw [hl] at hrot
      rw [hrot.1, hrot.2.1]
  · rw [hrot.last.1]
    exact hrot.last.2

section Update

variable [DecidableEq α]

/-- **A node is put behind the last one**, by the four stores of the usual code. -/
theorem insert (h : Circle next prev (x :: l)) (hnodup : (x :: l).Nodup) (hy : y ∉ x :: l) :
    Circle (update (update next y x) (prev x) y)
      (update (update prev y (prev x)) x y) (x :: l ++ [y]) := by
  obtain ⟨hlast, hback⟩ := Path.last h
  have hmem : (x :: l).getLast (by simp) ∈ x :: l := List.getLast_mem _
  have hne : y ≠ prev x := by
    rintro rfl
    rw [hlast] at hy
    exact hy hmem
  have hxy : x ≠ y := fun heq => hy (heq ▸ List.mem_cons_self)
  show Path _ _ x (l ++ [y]) x
  rw [Path.append]
  refine ⟨?_, ?_, ?_⟩
  · -- the path to the new node is the old path with its last link redirected
    rcases List.eq_nil_or_concat' l with rfl | ⟨l', z, rfl⟩
    · simp only [List.getLast_singleton] at hlast
      refine ⟨?_, ?_⟩
      · rw [hlast, update_self]
      · rw [update_of_ne hxy.symm, update_self, hlast]
    · have hz : prev x = z := by
        rw [hlast]
        simp
      have hold := Path.append.1 h
      rw [Path.append]
      have hzl : z ∉ x :: l' := by
        rw [← List.cons_append] at hnodup
        intro hmem
        exact (List.nodup_append.1 hnodup).2.2 z hmem z (List.mem_singleton_self z) rfl
      refine ⟨hold.1.congr (fun w hw => ?_) fun w hw => ?_, ?_, ?_⟩
      · have hw' : w ∈ x :: l' := by
          rcases hw with rfl | hw
          · exact List.mem_cons_self
          · exact List.mem_cons_of_mem x hw
        have h1 : w ≠ prev x := by
          rintro rfl
          rw [hz] at hw'
          exact hzl hw'
        have h2 : w ≠ y := by
          rintro rfl
          apply hy
          rcases List.mem_cons.1 hw' with rfl | hw'
          · exact List.mem_cons_self
          · exact List.mem_cons_of_mem x (List.mem_append_left _ hw')
        rw [update_of_ne h1, update_of_ne h2]
      · have hw' : w ∈ l' ++ [z] := by
          rcases hw with hw | rfl
          · exact List.mem_append_left _ hw
          · exact List.mem_append_right _ (List.mem_singleton_self w)
        have h1 : w ≠ x := by
          rintro rfl
          exact (List.nodup_cons.1 hnodup).1 hw'
        have h2 : w ≠ y := by
          rintro rfl
          exact hy (List.mem_cons_of_mem x hw')
        rw [update_of_ne h1, update_of_ne h2]
      · rw [hz, update_self]
      · rw [update_of_ne hxy.symm, update_self, hz]
  · rw [update_of_ne hne, update_self]
  · rw [update_self]

/-- **A node is taken out**, by the two stores of the usual code. -/
theorem unlink (h : Circle next prev (y :: x :: l)) (hnodup : (y :: x :: l).Nodup) :
    Circle (update next (prev y) (next y))
      (update prev (next y) (prev y)) (x :: l) := by
  obtain ⟨hnext, -, hpath⟩ := h
  obtain ⟨hlast, -⟩ := hpath.last
  rw [List.nodup_cons] at hnodup
  show Path _ _ x l x
  rw [hnext]
  rcases List.eq_nil_or_concat' l with rfl | ⟨l', z, rfl⟩
  · simp only [List.getLast_singleton] at hlast
    refine ⟨?_, ?_⟩
    · rw [hlast, update_self]
    · rw [update_self, hlast]
  · have hz : prev y = z := by
      rw [hlast]
      simp
    have hold := Path.append.1 hpath
    have hzl : z ∉ x :: l' := by
      have hnod := hnodup.2
      rw [← List.cons_append] at hnod
      intro hmem
      exact (List.nodup_append.1 hnod).2.2 z hmem z (List.mem_singleton_self z) rfl
    rw [Path.append, hz]
    refine ⟨hold.1.congr (fun w hw => ?_) fun w hw => ?_, ?_, ?_⟩
    · refine update_of_ne ?_ _ _
      rintro rfl
      apply hzl
      rcases hw with rfl | hw
      · exact List.mem_cons_self
      · exact List.mem_cons_of_mem x hw
    · refine update_of_ne ?_ _ _
      rintro rfl
      refine (List.nodup_cons.1 hnodup.2).1 ?_
      rcases hw with hw | rfl
      · exact List.mem_append_left _ hw
      · exact List.mem_append_right _ (List.mem_singleton_self w)
    · rw [update_self]
    · rw [update_self]

end Update

end Circle

/-! ## Lists with ends -/

/-- The list that starts at `p` visits the nodes of `l`, in order, and `prev` leads back, from the
first node to `q`. -/
def DList (null : α) (next prev : α → α) : α → α → List α → Prop
  | _, p, [] => p = null
  | q, p, x :: l => p = x ∧ x ≠ null ∧ prev x = q ∧ DList null next prev x (next x) l

namespace DList

variable {null : α} {next prev next' prev' : α → α} {q p x : α} {l l₁ l₂ : List α}

theorem threads (h : DList null next prev q p l) : Threads null next p l := by
  induction l generalizing q p with
  | nil => exact h
  | cons x l ih => exact ⟨h.1, h.2.1, ih h.2.2.2⟩

theorem congr (h : DList null next prev q p l) (hnext : ∀ y ∈ l, next' y = next y)
    (hprev : ∀ y ∈ l, prev' y = prev y) : DList null next' prev' q p l := by
  induction l generalizing q p with
  | nil => exact h
  | cons x l ih =>
    obtain ⟨h1, h2, h3, h4⟩ := h
    refine ⟨h1, h2, (hprev x List.mem_cons_self).trans h3, ?_⟩
    rw [hnext x List.mem_cons_self]
    exact ih h4 (fun y hy => hnext y (List.mem_cons_of_mem x hy)) fun y hy =>
      hprev y (List.mem_cons_of_mem x hy)

/-- The node behind `x`, and the one in front of it. -/
theorem split (h : DList null next prev q p (l₁ ++ x :: l₂)) :
    x ≠ null ∧ DList null next prev x (next x) l₂ ∧
      prev x = (q :: l₁).getLast (by simp) := by
  induction l₁ generalizing q p with
  | nil => exact ⟨h.2.1, h.2.2.2, h.2.2.1⟩
  | cons y l₁ ih =>
    obtain ⟨h1, h2, h3⟩ := ih h.2.2.2
    refine ⟨h1, h2, h3.trans ?_⟩
    exact (List.getLast_cons (List.cons_ne_nil y l₁)).symm

section Update

variable [DecidableEq α]

/-- **A node is put in front**; the old first node, if there is one, learns of it. -/
theorem push (h : DList null next prev null p l) (hnodup : l.Nodup) (hx : x ∉ l)
    (hnull : x ≠ null) :
    DList null (update next x p)
      (if p = null then update prev x null
       else update (update prev x null) p x) null x (x :: l) := by
  cases l with
  | nil =>
    have hp : p = null := h
    rw [if_pos hp]
    refine ⟨rfl, hnull, update_self _ _ _, ?_⟩
    rw [update_self]
    exact hp
  | cons y l =>
    obtain ⟨rfl, hy, hprev, hrest⟩ := h
    have hxp : x ≠ p := fun heq => hx (heq ▸ List.mem_cons_self)
    rw [if_neg hy]
    refine ⟨rfl, hnull, ?_, ?_⟩
    · rw [update_of_ne hxp, update_self]
    · rw [update_self]
      refine ⟨rfl, hy, update_self _ _ _, ?_⟩
      rw [update_of_ne hxp.symm]
      refine hrest.congr (fun z hz => update_of_ne ?_ _ _) fun z hz => ?_
      · rintro rfl
        exact hx (List.mem_cons_of_mem p hz)
      · have h1 : z ≠ p := by
          rintro rfl
          exact (List.nodup_cons.1 hnodup).1 hz
        have h2 : z ≠ x := by
          rintro rfl
          exact hx (List.mem_cons_of_mem p hz)
        rw [update_of_ne h1, update_of_ne h2]

/-- The stores that take `x` out: one to the node in front of it and one to the node behind it, if
there are such nodes. -/
def unlinkNext (null : α) (next prev : α → α) (x : α) : α → α :=
  if prev x = null then next else update next (prev x) (next x)

def unlinkPrev (null : α) (next prev : α → α) (x : α) : α → α :=
  if next x = null then prev else update prev (next x) (prev x)

/-- **A node is taken out.** -/
theorem unlink (h : DList null next prev q p (l₁ ++ x :: l₂)) (hnodup : (l₁ ++ x :: l₂).Nodup)
    (hq : q ∉ l₁ ++ x :: l₂) :
    DList null (unlinkNext null next prev x) (unlinkPrev null next prev x) q
      (if p = x then next x else p) (l₁ ++ l₂) := by
  obtain ⟨hx, htail, hpx⟩ := h.split
  induction l₁ generalizing q p with
  | nil =>
    -- `x` is the first node: what follows it now follows `q`
    have hfirst : p = x := h.1
    rw [if_pos hfirst]
    have hxl := (List.nodup_cons.1 hnodup).1
    have hq' : q ∉ l₂ := fun hmem => hq (List.mem_cons_of_mem x hmem)
    have hpq : prev x = q := h.2.2.1
    cases l₂ with
    | nil => exact htail
    | cons y l₂ =>
      obtain ⟨hy, hynull, hyprev, hrest⟩ := htail
      rw [List.nil_append]
      have hkeep : ∀ z ∈ y :: l₂, unlinkNext null next prev x z = next z := by
        intro z hz
        unfold unlinkNext
        split
        · rfl
        · refine update_of_ne ?_ _ _
          rintro rfl
          exact hq' (hpq ▸ hz)
      have hnn : next x ≠ null := by
        rw [hy]
        exact hynull
      refine ⟨hy, hynull, ?_, ?_⟩
      · rw [unlinkPrev, if_neg hnn, hy, update_self, hpq]
      · rw [hkeep y List.mem_cons_self]
        refine hrest.congr (fun z hz => hkeep z (List.mem_cons_of_mem y hz)) fun z hz => ?_
        rw [unlinkPrev, if_neg hnn]
        refine update_of_ne ?_ _ _
        rintro rfl
        rw [hy] at hz
        exact (List.nodup_cons.1 (List.nodup_cons.1 hnodup).2).1 hz
  | cons y l₁ ih =>
    obtain ⟨hy, hynull, hyprev, hrest⟩ := h
    rw [List.cons_append, List.nodup_cons] at hnodup
    have hyx : p ≠ x := by
      rintro rfl
      exact hnodup.1 (hy ▸ List.mem_append_right _ List.mem_cons_self)
    rw [if_neg hyx]
    have hind := ih hrest hnodup.2 hnodup.1 (by rw [hpx, List.getLast_cons (by simp)])
    refine ⟨hy, hynull, ?_, ?_⟩
    · rw [← hyprev]
      unfold unlinkPrev
      split
      · rfl
      · -- the node behind `x` comes later than `y`
        rename_i hnn
        refine update_of_ne ?_ _ _
        rintro rfl
        apply hnodup.1
        cases l₂ with
        | nil => exact absurd htail hnn
        | cons z l₂ =>
          rw [htail.1]
          exact List.mem_append_right _ (List.mem_cons_of_mem x List.mem_cons_self)
    · have hnext : unlinkNext null next prev x y = if next y = x then next x else next y := by
        cases l₁ with
        | nil =>
          have hlast : prev x = y := by
            rw [hpx]
            rfl
          rw [unlinkNext, hlast, if_neg hynull, update_self, if_pos hrest.1]
        | cons z l₁ =>
          have hne : next y ≠ x := by
            intro heq
            rw [hrest.1] at heq
            exact (List.nodup_cons.1 hnodup.2).1
              (heq ▸ List.mem_append_right _ List.mem_cons_self)
          rw [if_neg hne, unlinkNext]
          split
          · rfl
          · refine update_of_ne ?_ _ _
            intro heq
            rw [hpx, List.getLast_cons (by simp), List.getLast_cons (by simp)] at heq
            apply hnodup.1
            rw [heq]
            exact List.mem_append_left _ (List.getLast_mem _)
      rw [hnext]
      exact hind

end Update

end DList

/-! ## Segments and loops of a singly linked structure -/

/-- From `p` the links visit the nodes of `l` and arrive at `q`. -/
def Seg (next : α → α) : α → List α → α → Prop
  | p, [], q => p = q
  | p, x :: l, q => p = x ∧ Seg next (next x) l q

namespace Seg

variable {next next' : α → α} {p q : α} {l l₁ l₂ : List α}

theorem append : Seg next p (l₁ ++ l₂) q ↔ ∃ m, Seg next p l₁ m ∧ Seg next m l₂ q := by
  induction l₁ generalizing p with
  | nil =>
    constructor
    · intro h
      exact ⟨p, rfl, h⟩
    · rintro ⟨m, rfl, h⟩
      exact h
  | cons x l₁ ih =>
    simp only [List.cons_append, Seg, ih]
    tauto

theorem congr (h : Seg next p l q) (heq : ∀ x ∈ l, next' x = next x) : Seg next' p l q := by
  induction l generalizing p with
  | nil => exact h
  | cons x l ih =>
    refine ⟨h.1, ?_⟩
    rw [heq x List.mem_cons_self]
    exact ih h.2 fun y hy => heq y (List.mem_cons_of_mem x hy)

/-- A segment is entered at its first node. -/
theorem head_eq {x : α} (h : Seg next p (x :: l) q) : p = x := h.1

end Seg

/-- A list with an end is a segment that arrives there. -/
theorem Threads.seg {null : α} {next : α → α} {p : α} {l : List α} (h : Threads null next p l) :
    Seg next p l null := by
  induction l generalizing p with
  | nil => exact h
  | cons x l ih => exact ⟨h.1, ih h.2.2⟩

/-- From each node of `l` the links visit all of `l` and come back. -/
def Loop (next : α → α) (l : List α) : Prop :=
  l ≠ [] ∧ ∀ x ∈ l, ∃ t, Seg next x (x :: t) x ∧ (x :: t).Perm l

namespace Loop

variable {next next' : α → α} {p : α} {l : List α}

theorem congr (h : Loop next l) (heq : ∀ x ∈ l, next' x = next x) : Loop next' l := by
  refine ⟨h.1, fun x hx => ?_⟩
  obtain ⟨t, ht, hperm⟩ := h.2 x hx
  exact ⟨t, ht.congr fun y hy => heq y (hperm.mem_iff.1 hy), hperm⟩

/-- A segment that comes back to where it starts is a loop. -/
theorem of_seg (h : Seg next p l p) (hne : l ≠ []) : Loop next l := by
  refine ⟨hne, fun x hx => ?_⟩
  obtain ⟨l₁, l₂, rfl⟩ := List.append_of_mem hx
  obtain ⟨m, h1, h2⟩ := Seg.append.1 h
  obtain rfl : m = x := h2.head_eq
  have hperm : ((m :: l₂) ++ l₁).Perm (l₁ ++ m :: l₂) := List.perm_append_comm
  exact ⟨l₂ ++ l₁, Seg.append.2 ⟨p, h2, h1⟩, hperm⟩

/-- Storing the first node behind the last one closes a list to a loop. -/
theorem close [DecidableEq α] {null z : α} (h : Threads null next p (l ++ [z]))
    (hnodup : (l ++ [z]).Nodup) : Loop (update next z p) (l ++ [z]) := by
  refine of_seg (p := p) ?_ (by simp)
  have hz : z ∉ l := by
    intro hmem
    exact (List.nodup_append.1 hnodup).2.2 z hmem z (List.mem_singleton_self z) rfl
  obtain ⟨m, h1, h2⟩ := Seg.append.1 h.seg
  refine Seg.append.2 ⟨m, h1.congr fun x hx => update_of_ne ?_ _ _, h2.1, ?_⟩
  · rintro rfl
    exact hz hx
  · exact update_self _ _ _

end Loop

end LinkedList
