import Mathlib.Tactic

/-!
# Lists threaded through a memory

A singly linked list in memory is a head pointer and a function `next` from the nodes to
their successors; a distinguished pointer `null` ends it.

* `Threads null next p l` — the list that starts at `p` visits the nodes of `l`, in order.
* `Threads.congr`, `Threads.update` — stores outside the list.
* `Threads.snoc`, `Threads.unlink` — putting a node behind the last one, and taking one out, by a
  store to its predecessor.
* `Family` — several lists threaded through one `next`, with no node in common.
* `Custody` — nodes that move between the lists of a family and a set of holders.
* `findOn`, `leastOn` — the search loops, for a test and for the least key, and what they find.
-/

namespace LinkedList

open Function (update_eq_self update_of_ne update_self)

variable {α : Type*} {null : α}

/-- The list that starts at `p` visits exactly the nodes of `l`, in order. -/
def Threads (null : α) (next : α → α) : α → List α → Prop
  | p, [] => p = null
  | p, x :: l => p = x ∧ x ≠ null ∧ Threads null next (next x) l

@[simp]
theorem threads_nil {next : α → α} {p : α} : Threads null next p [] ↔ p = null := Iff.rfl

@[simp]
theorem threads_cons {next : α → α} {p x : α} {l : List α} :
    Threads null next p (x :: l) ↔ p = x ∧ x ≠ null ∧ Threads null next (next x) l := Iff.rfl

namespace Threads

variable {next next' : α → α} {p : α} {l : List α}

/-- A list that does not start with `null` has a first node. -/
theorem exists_cons (h : Threads null next p l) (hp : p ≠ null) :
    ∃ t, l = p :: t ∧ Threads null next (next p) t := by
  cases l with
  | nil => exact absurd h hp
  | cons x t =>
    obtain ⟨rfl, -, ht⟩ := h
    exact ⟨t, rfl, ht⟩

theorem ne_null (h : Threads null next p l) : ∀ x ∈ l, x ≠ null := by
  induction l generalizing p with
  | nil => simp
  | cons y l ih =>
    intro x hx
    rcases List.mem_cons.1 hx with rfl | hx
    · exact h.2.1
    · exact ih h.2.2 x hx

/-- Only the successors of the nodes on the list matter. -/
theorem congr (h : Threads null next p l) (heq : ∀ x ∈ l, next' x = next x) :
    Threads null next' p l := by
  induction l generalizing p with
  | nil => exact h
  | cons y l ih =>
    obtain ⟨rfl, hy, ht⟩ := h
    refine ⟨rfl, hy, ?_⟩
    rw [heq p (by simp)]
    exact ih ht fun x hx => heq x (by simp [hx])

/-- The nodes visited are determined by the head. -/
theorem unique {l' : List α} (h : Threads null next p l) (h' : Threads null next p l') :
    l = l' := by
  induction l generalizing p l' with
  | nil =>
    cases l' with
    | nil => rfl
    | cons y l' => exact absurd (h'.1.symm.trans h) h'.2.1
  | cons x l ih =>
    obtain ⟨rfl, hx, ht⟩ := h
    cases l' with
    | nil => exact absurd h' hx
    | cons y l' =>
      obtain ⟨rfl, -, ht'⟩ := h'
      rw [ih ht ht']

/-- A list splits where one of its nodes is. -/
theorem of_append {l₁ l₂ : List α} {d : α} (h : Threads null next p (l₁ ++ d :: l₂)) :
    Threads null next (next d) l₂ := by
  induction l₁ generalizing p with
  | nil => exact h.2.2
  | cons x l₁ ih => exact ih h.2.2

/-- No node is visited twice: the list behind it would be the same, and never end. -/
theorem nodup (h : Threads null next p l) : l.Nodup := by
  induction l generalizing p with
  | nil => exact List.nodup_nil
  | cons x l ih =>
    obtain ⟨rfl, -, ht⟩ := h
    refine List.nodup_cons.2 ⟨fun hmem => ?_, ih ht⟩
    obtain ⟨l₁, l₂, rfl⟩ := List.append_of_mem hmem
    have hlen := congrArg List.length (ht.unique ht.of_append)
    rw [List.length_append, List.length_cons] at hlen
    omega

theorem getElem?_zero (h : Threads null next p l) : l[0]?.getD null = p := by
  cases l with
  | nil => exact h.symm
  | cons x l => exact h.1.symm

theorem getElem?_succ {a : α} {i : Nat} (h : Threads null next p l) (ha : l[i]? = some a) :
    l[i + 1]?.getD null = next a := by
  induction l generalizing p i with
  | nil => simp at ha
  | cons x l ih =>
    rw [List.getElem?_cons_succ]
    cases i with
    | zero =>
      rw [List.getElem?_cons_zero, Option.some.injEq] at ha
      subst ha
      exact getElem?_zero h.2.2
    | succ i =>
      rw [List.getElem?_cons_succ] at ha
      exact ih h.2.2 ha

theorem getElem?_none {i : Nat} (h : Threads null next p l) (hi : l[i]?.getD null = null) :
    l[i]? = none := by
  cases ha : l[i]? with
  | none => rfl
  | some a =>
    rw [ha] at hi
    exact absurd hi (h.ne_null a (List.mem_of_getElem? ha))

theorem getElem?_some {x : α} {i : Nat} (hi : l[i]?.getD null = x) (hx : x ≠ null) :
    l[i]? = some x := by
  cases ha : l[i]? with
  | none =>
    rw [ha] at hi
    exact absurd hi.symm hx
  | some a =>
    rw [ha] at hi
    exact congrArg some hi

theorem eq_append_of_mem {a : α} (h : Threads null next p l) (ha : a ∈ l) :
    (next a = null ∧ ∃ l₁, l = l₁ ++ [a]) ∨
      (next a ≠ null ∧ ∃ l₁ l₂, l = l₁ ++ a :: next a :: l₂) := by
  obtain ⟨l₁, l₂, rfl⟩ := List.append_of_mem ha
  have htail := h.of_append
  cases l₂ with
  | nil => exact .inl ⟨htail, l₁, rfl⟩
  | cons b l₂ =>
    obtain ⟨hb, hne, -⟩ := htail
    rw [hb]
    exact .inr ⟨hne, l₁, l₂, rfl⟩

/-- Nodes numbered from `k` on, each linked to the next, the last one to the list `l`. -/
theorem of_links {f : Nat → α} {n k : Nat} (hne : ∀ j, k ≤ j → j ≤ k + n → f j ≠ null)
    (hlink : ∀ j, k ≤ j → j < k + n → next (f j) = f (j + 1))
    (hlast : Threads null next (next (f (k + n))) l) :
    Threads null next (f k) ((List.range' k (n + 1)).map f ++ l) := by
  induction n generalizing k with
  | zero => exact ⟨rfl, hne k le_rfl le_rfl, hlast⟩
  | succ n ih =>
    rw [List.range'_succ, List.map_cons, List.cons_append]
    refine ⟨rfl, hne k le_rfl (by omega), ?_⟩
    rw [hlink k le_rfl (by omega)]
    refine ih (fun j hj hj' => hne j (by omega) (by omega))
      (fun j hj hj' => hlink j (by omega) (by omega)) ?_
    rwa [Nat.add_right_comm, Nat.add_assoc]

section Update

variable [DecidableEq α]

/-- A store to a node that is not on the list. -/
theorem update {a v : α} (h : Threads null next p l) (ha : a ∉ l) :
    Threads null (Function.update next a v) p l := by
  refine h.congr fun x hx => update_of_ne ?_ _ _
  rintro rfl
  exact ha hx

theorem push {a : α} (h : Threads null next p l) (ha : a ∉ l) (hnull : a ≠ null) :
    Threads null (Function.update next a p) a (a :: l) := by
  refine ⟨rfl, hnull, ?_⟩
  rw [update_self]
  exact h.update ha

/-- Taking a node out by a store to its predecessor. -/
theorem unlink {l₁ l₂ : List α} {q d : α} (h : Threads null next p (l₁ ++ q :: d :: l₂))
    (hnodup : (l₁ ++ q :: d :: l₂).Nodup) :
    Threads null (Function.update next q (next d)) p (l₁ ++ q :: l₂) := by
  induction l₁ generalizing p with
  | nil =>
    obtain ⟨rfl, hq, rfl, -, ht⟩ := h
    refine ⟨rfl, hq, ?_⟩
    rw [update_self]
    refine ht.update ?_
    simp only [List.nil_append, List.nodup_cons, List.mem_cons, not_or] at hnodup
    exact hnodup.1.2
  | cons x l₁ ih =>
    obtain ⟨rfl, hx, ht⟩ := h
    rw [List.cons_append, List.nodup_cons] at hnodup
    refine ⟨rfl, hx, ?_⟩
    rw [update_of_ne]
    · exact ih ht hnodup.2
    · rintro rfl
      exact hnodup.1 (by simp)

theorem snoc {a b : α} (h : Threads null next p (l ++ [b])) (hnodup : (l ++ [b]).Nodup)
    (ha : a ∉ l ++ [b]) (hnull : a ≠ null) (hnext : next a = null) :
    Threads null (Function.update next b a) p (l ++ [b] ++ [a]) := by
  induction l generalizing p with
  | nil =>
    obtain ⟨rfl, hb, -⟩ := h
    have hab : a ≠ p := fun heq => ha (by simp [heq])
    refine ⟨rfl, hb, ?_⟩
    rw [update_self]
    refine ⟨rfl, hnull, ?_⟩
    rw [update_of_ne hab]
    exact hnext
  | cons x l ih =>
    obtain ⟨rfl, hx, ht⟩ := h
    rw [List.cons_append, List.nodup_cons] at hnodup
    rw [List.cons_append, List.mem_cons, not_or] at ha
    refine ⟨rfl, hx, ?_⟩
    rw [update_of_ne]
    · exact ih ht hnodup.2 ha.2
    · rintro rfl
      exact hnodup.1 (by simp)

/-- The list ends at one of its nodes. -/
theorem cut {l₁ l₂ : List α} {d : α} (h : Threads null next p (l₁ ++ d :: l₂))
    (hnodup : (l₁ ++ d :: l₂).Nodup) :
    Threads null (Function.update next d null) p (l₁ ++ [d]) := by
  induction l₁ generalizing p with
  | nil =>
    obtain ⟨rfl, hd, -⟩ := h
    refine ⟨rfl, hd, ?_⟩
    rw [update_self]
    rfl
  | cons x l₁ ih =>
    obtain ⟨rfl, hx, ht⟩ := h
    rw [List.cons_append, List.nodup_cons] at hnodup
    refine ⟨rfl, hx, ?_⟩
    rw [update_of_ne]
    · exact ih ht hnodup.2
    · rintro rfl
      exact hnodup.1 (by simp)

end Update

end Threads

/-! ## Lists that share their nodes' `next` -/

/-- The lists of a family are threaded through the same `next`, and each node is on at most
one of them, once. -/
structure Family {κ : Type*} (null : α) (next : α → α) (head : κ → α) (on : κ → List α) :
    Prop where
  threads : ∀ q, Threads null next (head q) (on q)
  nodup : ∀ q, (on q).Nodup
  disjoint : ∀ {q q' d}, d ∈ on q → d ∈ on q' → q = q'

namespace Family

variable {κ : Type*} {next next' : α → α} {head : κ → α} {on : κ → List α}

theorem congr (h : Family null next head on) (heq : ∀ q, ∀ d ∈ on q, next' d = next d) :
    Family null next' head on :=
  ⟨fun q => (h.threads q).congr (heq q), h.nodup, h.disjoint⟩

/-- Each list is determined by its head. -/
theorem eq_on (h : Family null next head on) {q : κ} {l : List α}
    (hl : Threads null next (head q) l) : l = on q :=
  hl.unique (h.threads q)

variable [DecidableEq κ]

/-- A change to one list that gives it no node of another. -/
theorem replace (h : Family null next head on) {q : κ} {p : α} {l : List α}
    (hother : ∀ q' ≠ q, Threads null next' (head q') (on q'))
    (hl : Threads null next' p l) (hnodup : l.Nodup) (hfresh : ∀ d ∈ l, ∀ q' ≠ q, d ∉ on q') :
    Family null next' (Function.update head q p) (Function.update on q l) := by
  refine ⟨fun r => ?_, fun r => ?_, fun {r r' d} hr hr' => ?_⟩
  · by_cases hq : r = q
    · subst hq
      rwa [update_self, update_self]
    · rw [update_of_ne hq, update_of_ne hq]
      exact hother r hq
  · by_cases hq : r = q
    · subst hq
      rwa [update_self]
    · rw [update_of_ne hq]
      exact h.nodup r
  · by_cases hq : r = q <;> by_cases hq' : r' = q
    · exact hq.trans hq'.symm
    · subst hq
      rw [update_self] at hr
      rw [update_of_ne hq'] at hr'
      exact absurd hr' (hfresh d hr r' hq')
    · subst hq'
      rw [update_self] at hr'
      rw [update_of_ne hq] at hr
      exact absurd hr (hfresh d hr' r hq)
    · rw [update_of_ne hq] at hr
      rw [update_of_ne hq'] at hr'
      exact h.disjoint hr hr'

/-! Nodes that come into a family, go from one list to another, and go out. -/

variable [DecidableEq α] {q r : κ} {a b : α} {l l₁ l₂ : List α}

/-- A node that is on no list becomes a list of its own. -/
theorem alloc (h : Family null next head on) (hfresh : ∀ q', a ∉ on q') (hnull : a ≠ null) :
    Family null (Function.update next a null) (Function.update head r a)
      (Function.update on r [a]) := by
  refine h.replace (fun q' _ => (h.threads q').update (hfresh q')) ?_ (List.nodup_singleton a) ?_
  · refine ⟨rfl, hnull, ?_⟩
    rw [update_self]
    rfl
  · rintro d hd q' -
    rw [List.mem_singleton.1 hd]
    exact hfresh q'

/-- The first node of a list goes out. -/
theorem dropFirst (h : Family null next head on) (hr : on r = a :: l) (v : α) :
    Family null (Function.update next a v) (Function.update head r (next a))
      (Function.update on r l) := by
  have hnodup := h.nodup r
  have hthreads := h.threads r
  rw [hr, List.nodup_cons] at hnodup
  rw [hr] at hthreads
  refine h.replace (fun q' hq' => (h.threads q').update fun hmem => hq' ?_)
    (hthreads.2.2.update hnodup.1) hnodup.2 fun d hd q' hq' hmem => hq' ?_
  · exact h.disjoint hmem (by rw [hr]; exact List.mem_cons_self)
  · exact h.disjoint hmem (by rw [hr]; exact List.mem_cons_of_mem _ hd)

/-- What is behind a node becomes another list. -/
theorem cut (h : Family null next head on) (hq : on q = l₁ ++ a :: l₂) :
    Family null (Function.update next a null) (Function.update head r (next a))
      (Function.update (Function.update on q (l₁ ++ [a])) r l₂) := by
  have hthreads := h.threads q
  have hnodup := h.nodup q
  rw [hq] at hthreads hnodup
  have hmem : ∀ d ∈ l₁ ++ a :: l₂, d ∈ on q := fun d hd => by rwa [hq]
  have hother : ∀ q' ≠ q, Threads null (Function.update next a null) (head q') (on q') := by
    refine fun q' hq' => (h.threads q').update fun ha => hq' ?_
    exact h.disjoint ha (hmem a (by simp))
  have hfirst : Family null (Function.update next a null) (Function.update head q (head q))
      (Function.update on q (l₁ ++ [a])) := by
    refine h.replace hother (hthreads.cut hnodup) ?_ fun d hd q' hq' hd' => hq' ?_
    · refine hnodup.sublist ?_
      exact List.Sublist.append_left (List.singleton_sublist.2 List.mem_cons_self) _
    · refine h.disjoint hd' (hmem d ?_)
      rcases List.mem_append.1 hd with hd | hd
      · exact List.mem_append_left _ hd
      · rw [List.mem_singleton.1 hd]
        simp
  rw [update_eq_self] at hfirst
  have hparts := List.nodup_append.1 hnodup
  have htail := List.nodup_cons.1 hparts.2.1
  refine hfirst.replace (fun q' _ => hfirst.threads q') (hthreads.of_append.update htail.1) htail.2
    fun d hd q' hq' hd' => ?_
  by_cases hqq : q' = q
  · rw [hqq, update_self] at hd'
    rcases List.mem_append.1 hd' with hd' | hd'
    · exact hparts.2.2 d hd' d (List.mem_cons_of_mem _ hd) rfl
    · rw [List.mem_singleton.1 hd'] at hd
      exact htail.1 hd
  · rw [update_of_ne hqq] at hd'
    exact hqq (h.disjoint hd' (hmem d (by simp [hd])))

/-- A list of one node goes behind the last node of another. -/
theorem link (h : Family null next head on) (hne : q ≠ r) (hq : on q = l ++ [b])
    (hr : on r = [a]) :
    Family null (Function.update next b a) (Function.update head r null)
      (Function.update (Function.update on q (l ++ [b] ++ [a])) r []) := by
  have hthreads := h.threads q
  have hnodup := h.nodup q
  have htask := h.threads r
  rw [hq] at hthreads hnodup
  rw [hr] at htask
  obtain ⟨-, hnull, hnext⟩ := htask
  have ha : ∀ q' ≠ r, a ∉ on q' := fun q' hq' hmem => hq' (h.disjoint hmem (by simp [hr]))
  have hb : ∀ q' ≠ q, b ∉ on q' := fun q' hq' hmem => hq' (h.disjoint hmem (by simp [hq]))
  have hfirst : Family null next (Function.update head r null) (Function.update on r []) :=
    h.replace (fun q' _ => h.threads q') rfl List.nodup_nil (fun d hd => by cases hd)
  have hlast : a ∉ l ++ [b] := by
    rw [← hq]
    exact ha q hne
  have hlist : Family null (Function.update next b a)
      (Function.update (Function.update head r null) q (head q))
      (Function.update (Function.update on r []) q (l ++ [b] ++ [a])) := by
    refine hfirst.replace (fun q' hq' => (hfirst.threads q').update fun hmem => ?_)
      (hthreads.snoc hnodup hlast hnull hnext) ?_ fun d hd q' hq' hd' => ?_
    · by_cases hqr : q' = r
      · rw [hqr, update_self] at hmem
        cases hmem
      · rw [update_of_ne hqr] at hmem
        exact hb q' hq' hmem
    · refine List.nodup_append.2 ⟨hnodup, List.nodup_singleton a, fun x hx y hy heq => hlast ?_⟩
      rwa [← List.mem_singleton.1 hy, ← heq]
    · by_cases hqr : q' = r
      · rw [hqr, update_self] at hd'
        cases hd'
      · rw [update_of_ne hqr] at hd'
        rcases List.mem_append.1 hd with hd | hd
        · exact hq' (h.disjoint hd' (by rwa [hq]))
        · rw [List.mem_singleton.1 hd] at hd'
          exact ha q' hqr hd'
  have hhead : Function.update head r null q = head q := update_of_ne hne _ _
  rwa [← hhead, update_eq_self, Function.update_comm hne.symm] at hlist

/-- A list takes the place of another one. -/
theorem give (h : Family null next head on) (hne : q ≠ r) :
    Family null next (Function.update (Function.update head q (head r)) r null)
      (Function.update (Function.update on q (on r)) r []) := by
  have hfirst : Family null next (Function.update head r null) (Function.update on r []) :=
    h.replace (fun q' _ => h.threads q') rfl List.nodup_nil (fun d hd => by cases hd)
  have hlist := hfirst.replace (fun q' _ => hfirst.threads q') (h.threads r) (h.nodup r)
    (fun d hd q' hq' hd' => ?_) (q := q)
  · rwa [Function.update_comm hne.symm, Function.update_comm hne.symm] at hlist
  · by_cases hqr : q' = r
    · rw [hqr, update_self] at hd'
      cases hd'
    · rw [update_of_ne hqr] at hd'
      exact hqr (h.disjoint hd' hd)

end Family

/-! ## Nodes in custody -/

/-- Every node is on exactly one list of the family or with exactly one holder. -/
structure Custody {κ η : Type*} (null : α) (next : α → α) (head : κ → α) (on : κ → List α)
    (holds : η → α → Prop) (node : α → Prop) : Prop where
  family : Family null next head on
  node_iff : ∀ d, node d ↔ (∃ q, d ∈ on q) ∨ ∃ c, holds c d
  node_ne : ∀ d, node d → d ≠ null
  held_not_on : ∀ {c d q}, holds c d → d ∉ on q
  holder_unique : ∀ {c c' d}, holds c d → holds c' d → c = c'

namespace Custody

variable {κ η : Type*} {next next' : α → α} {head : κ → α} {on : κ → List α}
  {holds : η → α → Prop} {node : α → Prop}

theorem node_of_on (h : Custody null next head on holds node) {q : κ} {d : α} (hd : d ∈ on q) :
    node d :=
  (h.node_iff d).2 (.inl ⟨q, hd⟩)

theorem node_of_held (h : Custody null next head on holds node) {c : η} {d : α}
    (hd : holds c d) : node d :=
  (h.node_iff d).2 (.inr ⟨c, hd⟩)

/-- Stores to nodes that are on no list. -/
theorem congr (h : Custody null next head on holds node)
    (heq : ∀ q, ∀ d ∈ on q, next' d = next d) : Custody null next' head on holds node :=
  ⟨h.family.congr heq, h.node_iff, h.node_ne, h.held_not_on, h.holder_unique⟩

section Acquire

variable [DecidableEq η]

theorem exists_update_holds {c : η} {H : α → Prop} {d : α} :
    (∃ c', Function.update holds c H c' d) ↔ H d ∨ ∃ c', c' ≠ c ∧ holds c' d := by
  constructor
  · rintro ⟨c', hc'⟩
    by_cases hc : c' = c
    · subst hc
      rw [update_self] at hc'
      exact .inl hc'
    · rw [update_of_ne hc] at hc'
      exact .inr ⟨c', hc, hc'⟩
  · rintro (hH | ⟨c', hc, hc'⟩)
    · exact ⟨c, by rwa [update_self]⟩
    · exact ⟨c', by rwa [update_of_ne hc]⟩

/-- A holder gets nodes that did not exist. -/
theorem acquire (h : Custody null next head on holds node) {c : η} {N node' : α → Prop}
    (hc : ∀ x, ¬ holds c x) (hnew : ∀ x, N x → ¬ node x ∧ x ≠ null)
    (hnode : ∀ x, node' x ↔ N x ∨ node x) :
    Custody null next head on (Function.update holds c N) node' := by
  refine ⟨h.family, fun d => ?_, fun d hd => ?_, fun {c' d q} hheld hon => ?_,
    fun {c₁ c₂ d} h₁ h₂ => ?_⟩
  · have hold : (∃ c', holds c' d) ↔ ∃ c', c' ≠ c ∧ holds c' d := by
      constructor
      · rintro ⟨c', hc'⟩
        refine ⟨c', ?_, hc'⟩
        rintro rfl
        exact hc d hc'
      · rintro ⟨c', -, hc'⟩
        exact ⟨c', hc'⟩
    rw [hnode, h.node_iff, exists_update_holds, hold]
    tauto
  · rcases (hnode d).1 hd with hd | hd
    · exact (hnew d hd).2
    · exact h.node_ne d hd
  · by_cases hc' : c' = c
    · subst hc'
      rw [update_self] at hheld
      exact (hnew d hheld).1 (h.node_of_on hon)
    · rw [update_of_ne hc'] at hheld
      exact h.held_not_on hheld hon
  · by_cases hc₁ : c₁ = c <;> by_cases hc₂ : c₂ = c
    · exact hc₁.trans hc₂.symm
    · subst hc₁
      rw [update_self] at h₁
      rw [update_of_ne hc₂] at h₂
      exact absurd (h.node_of_held h₂) (hnew d h₁).1
    · subst hc₂
      rw [update_self] at h₂
      rw [update_of_ne hc₁] at h₁
      exact absurd (h.node_of_held h₁) (hnew d h₂).1
    · rw [update_of_ne hc₁] at h₁
      rw [update_of_ne hc₂] at h₂
      exact h.holder_unique h₁ h₂

end Acquire

section Exchange

variable [DecidableEq κ]

variable {d : α}

theorem exists_update_on {q : κ} {l : List α} :
    (∃ q', d ∈ Function.update on q l q') ↔ d ∈ l ∨ ∃ q', q' ≠ q ∧ d ∈ on q' := by
  constructor
  · rintro ⟨q', hq'⟩
    by_cases hq : q' = q
    · subst hq
      rw [update_self] at hq'
      exact .inl hq'
    · rw [update_of_ne hq] at hq'
      exact .inr ⟨q', hq, hq'⟩
  · rintro (hl | ⟨q', hq, hq'⟩)
    · exact ⟨q, by rwa [update_self]⟩
    · exact ⟨q', by rwa [update_of_ne hq]⟩

variable [DecidableEq η]

variable {c : η}

/-- **Nodes change hands** between one list and one holder: what the two have together
stays the same. -/
theorem exchange (h : Custody null next head on holds node) {q : κ} {p : α}
    {l : List α} {H : α → Prop}
    (hother : ∀ q' ≠ q, Threads null next' (head q') (on q')) (hl : Threads null next' p l)
    (hnodup : l.Nodup) (hmem : ∀ d, d ∈ l ∨ H d ↔ d ∈ on q ∨ holds c d) (hdisj : ∀ d ∈ l, ¬ H d) :
    Custody null next' (Function.update head q p) (Function.update on q l)
      (Function.update holds c H) node := by
  have hforeign : ∀ d, d ∈ l ∨ H d → ∀ q' ≠ q, d ∉ on q' := by
    intro d hd q' hne hmem'
    rcases (hmem d).1 hd with hon | hheld
    · exact hne (h.family.disjoint hmem' hon)
    · exact h.held_not_on hheld hmem'
  have hother' : ∀ d, d ∈ l ∨ H d → ∀ c' ≠ c, ¬ holds c' d := by
    intro d hd c' hne hheld
    rcases (hmem d).1 hd with hon | hheld'
    · exact h.held_not_on hheld hon
    · exact hne (h.holder_unique hheld hheld')
  refine ⟨h.family.replace hother hl hnodup fun d hd => hforeign d (.inl hd), fun d => ?_,
    h.node_ne, fun {c' d q'} hheld hon => ?_, fun {c₁ c₂ d} h₁ h₂ => ?_⟩
  · rw [h.node_iff, exists_update_on, exists_update_holds]
    have hq : (∃ q', d ∈ on q') ↔ d ∈ on q ∨ ∃ q', q' ≠ q ∧ d ∈ on q' := by
      rw [← exists_update_on, update_eq_self]
    have hc : (∃ c', holds c' d) ↔ holds c d ∨ ∃ c', c' ≠ c ∧ holds c' d := by
      rw [← exists_update_holds, update_eq_self]
    rw [hq, hc, or_or_or_comm, ← hmem d, or_or_or_comm]
  · by_cases hc : c' = c <;> by_cases hq : q' = q
    · subst hc hq
      rw [update_self] at hheld hon
      exact hdisj d hon hheld
    · subst hc
      rw [update_self] at hheld
      rw [update_of_ne hq] at hon
      exact hforeign d (.inr hheld) q' hq hon
    · subst hq
      rw [update_self] at hon
      rw [update_of_ne hc] at hheld
      exact hother' d (.inl hon) c' hc hheld
    · rw [update_of_ne hc] at hheld
      rw [update_of_ne hq] at hon
      exact h.held_not_on hheld hon
  · by_cases hc₁ : c₁ = c <;> by_cases hc₂ : c₂ = c
    · exact hc₁.trans hc₂.symm
    · subst hc₁
      rw [update_self] at h₁
      rw [update_of_ne hc₂] at h₂
      exact absurd h₂ (hother' d (.inr h₁) c₂ hc₂)
    · subst hc₂
      rw [update_self] at h₂
      rw [update_of_ne hc₁] at h₁
      exact absurd h₁ (hother' d (.inr h₂) c₁ hc₁)
    · rw [update_of_ne hc₁] at h₁
      rw [update_of_ne hc₂] at h₂
      exact h.holder_unique h₁ h₂

/-- A holder takes the first node of a list. -/
theorem pop (h : Custody null next head on holds node) {q : κ} {t : List α}
    (hq : on q = d :: t) (hc : ∀ x, ¬ holds c x) :
    Custody null next (Function.update head q (next d)) (Function.update on q t)
      (Function.update holds c (· = d)) node := by
  have hthreads := h.family.threads q
  have hnodup := h.family.nodup q
  rw [hq] at hthreads hnodup
  refine h.exchange (fun q' _ => h.family.threads q') hthreads.2.2 hnodup.of_cons
    (fun x => ?_) ?_
  · rw [hq, List.mem_cons]
    have := hc x
    tauto
  · rintro x hx rfl
    exact (List.nodup_cons.1 hnodup).1 hx

/-- A holder puts all it has in front of a list, linked in the order of `l`. -/
theorem adopt (h : Custody null next head on holds node) {q : κ} {p : α} {l : List α}
    (hp : Threads null next p (l ++ on q)) (hnodup : l.Nodup) (hc : ∀ x, holds c x ↔ x ∈ l) :
    Custody null next (Function.update head q p) (Function.update on q (l ++ on q))
      (Function.update holds c fun _ => False) node := by
  refine h.exchange (fun q' _ => h.family.threads q') hp ?_ (fun x => ?_) (fun x _ => id)
  · refine List.nodup_append.2 ⟨hnodup, h.family.nodup q, ?_⟩
    rintro x hx y hy rfl
    exact h.held_not_on ((hc x).2 hx) hy
  · rw [List.mem_append, hc]
    tauto

variable [DecidableEq α]

/-- A holder puts its only node in front of a list. -/
theorem push (h : Custody null next head on holds node) {q : κ} (hc : ∀ x, holds c x ↔ x = d) :
    Custody null (Function.update next d (head q)) (Function.update head q d)
      (Function.update on q (d :: on q)) (Function.update holds c fun _ => False) node := by
  have hd : holds c d := (hc d).2 rfl
  have hnull := h.node_ne d (h.node_of_held hd)
  have hstored : Custody null (Function.update next d (head q)) head on holds node := by
    refine h.congr fun q' x hx => update_of_ne ?_ _ _
    rintro rfl
    exact h.held_not_on hd hx
  refine hstored.adopt (l := [d]) ((h.family.threads q).push (h.held_not_on hd) hnull)
    (List.nodup_singleton d) fun x => ?_
  rw [hc, List.mem_singleton]

/-- A holder takes a node of a list by a store to its predecessor. -/
theorem unlink (h : Custody null next head on holds node) {q : κ} {l₁ l₂ : List α}
    {p : α} (hq : on q = l₁ ++ p :: d :: l₂) (hc : ∀ x, ¬ holds c x) :
    Custody null (Function.update next p (next d)) head
      (Function.update on q (l₁ ++ p :: l₂)) (Function.update holds c (· = d)) node := by
  have hthreads := h.family.threads q
  have hnodup := h.family.nodup q
  have hp : p ∈ on q := by simp [hq]
  rw [hq] at hthreads hnodup
  have hd : d ∉ l₁ ++ p :: l₂ := by
    rw [← List.singleton_append, ← List.append_assoc, List.nodup_middle, List.nodup_cons] at hnodup
    rw [← List.singleton_append, ← List.append_assoc]
    exact hnodup.1
  have hswap : Custody null (Function.update next p (next d)) (Function.update head q (head q))
      (Function.update on q (l₁ ++ p :: l₂)) (Function.update holds c (· = d)) node := by
    refine h.exchange ?_ (hthreads.unlink hnodup) ?_ (fun x => ?_) ?_
    · intro q' hne
      exact (h.family.threads q').update fun hmem => hne (h.family.disjoint hmem hp)
    · refine hnodup.sublist ?_
      exact List.Sublist.append_left ((List.sublist_cons_self d l₂).cons_cons p) l₁
    · rw [hq]
      have := hc x
      simp only [List.mem_append, List.mem_cons]
      tauto
    · rintro x hx rfl
      exact hd hx
  rwa [update_eq_self] at hswap

end Exchange

end Custody

/-! ## The search loop -/

section Search

variable [DecidableEq α]

/-- `for (prev = .., p = ..; p; prev = p, p = next(p)) if (test(p)) break`: the trailing
pointer and the node found. -/
def findOn (null : α) (next : α → α) (test : α → Bool) : Nat → α → α → Option (α × α)
  | 0, _, _ => none
  | fuel + 1, prev, p =>
    if p = null then none
    else if test p then some (prev, p)
    else findOn null next test fuel p (next p)

variable {next : α → α} {test : α → Bool} {p : α} {l : List α}

variable {fuel : Nat}

/-- The loop finds nothing exactly when no node passes the test. -/
theorem findOn_eq_none {prev : α} (h : Threads null next p l) (hfuel : l.length ≤ fuel) :
    findOn null next test fuel prev p = none ↔ ∀ x ∈ l, test x = false := by
  induction fuel generalizing prev p l with
  | zero =>
    rw [List.length_eq_zero_iff.1 (Nat.le_zero.1 hfuel)]
    simp [findOn]
  | succ fuel ih =>
    rw [findOn]
    cases l with
    | nil => simp [threads_nil.1 h]
    | cons x l =>
      obtain ⟨rfl, hx, ht⟩ := h
      rw [if_neg hx]
      cases htest : test p with
      | true => simp [htest]
      | false =>
        simp only [Bool.false_eq_true, if_false, List.mem_cons, forall_eq_or_imp, htest,
          true_and]
        exact ih ht (Nat.le_of_succ_le_succ hfuel)

/-- What the loop finds is the first node that passes the test, with its predecessor. -/
theorem findOn_eq_some {prev q d : α} (h : Threads null next p l)
    (hfound : findOn null next test fuel prev p = some (q, d)) :
    test d = true ∧ ∃ l₁ l₂, l = l₁ ++ d :: l₂ ∧ (∀ x ∈ l₁, test x = false) ∧
      (l₁ = [] ∧ q = prev ∨ ∃ l₀, l₁ = l₀ ++ [q]) := by
  induction fuel generalizing prev p l with
  | zero => cases hfound
  | succ fuel ih =>
    rw [findOn] at hfound
    split_ifs at hfound with hp htest
    · cases hfound
      obtain ⟨t, rfl, -⟩ := h.exists_cons hp
      exact ⟨htest, [], t, rfl, by simp, .inl ⟨rfl, rfl⟩⟩
    · obtain ⟨t, rfl, ht⟩ := h.exists_cons hp
      obtain ⟨hd, l₁, l₂, rfl, hbefore, hprev⟩ := ih ht hfound
      refine ⟨hd, p :: l₁, l₂, rfl, ?_, .inr ?_⟩
      · exact List.forall_mem_cons.2 ⟨by simpa using htest, hbefore⟩
      rcases hprev with ⟨rfl, rfl⟩ | ⟨l₀, rfl⟩
      · exact ⟨[], rfl⟩
      · exact ⟨p :: l₀, rfl⟩

/-- The loop that looks for the predecessor of a node on the list finds it. -/
theorem findOn_pred {d : α} {l₁ l₂ : List α} (prev : α)
    (h : Threads null next p (l₁ ++ d :: l₂)) (hnodup : (l₁ ++ d :: l₂).Nodup) (hne : l₁ ≠ [])
    (hfuel : (l₁ ++ d :: l₂).length ≤ fuel) :
    ∃ l₀ q x, l₁ = l₀ ++ [x] ∧
      findOn null next (fun a => next a = d) fuel prev p = some (q, x) := by
  have hd : d ≠ null := h.ne_null d (by simp)
  obtain ⟨l₀, x, rfl⟩ : ∃ l₀ x, l₁ = l₀ ++ [x] :=
    ⟨_, _, (List.dropLast_append_getLast hne).symm⟩
  cases hfind : findOn null next (fun a => next a = d) fuel prev p with
  | none =>
    -- the predecessor passes the test
    have hall := (findOn_eq_none h hfuel).1 hfind x (by simp)
    rw [List.append_assoc, List.singleton_append] at h
    have hx := h.of_append
    rw [threads_cons] at hx
    simp [hx.1] at hall
  | some y =>
    obtain ⟨q, x'⟩ := y
    obtain ⟨htest, k₁, k₂, hk, -, -⟩ := findOn_eq_some h hfind
    have hx' := (hk ▸ h).of_append
    obtain ⟨t, rfl, -⟩ := hx'.exists_cons (by simpa [of_decide_eq_true htest] using hd)
    rw [of_decide_eq_true htest] at hk
    have hsplit : (k₁ ++ [x']) ++ d :: t = (l₀ ++ [x]) ++ d :: l₂ := by
      simpa using hk.symm
    rw [← hsplit, List.nodup_middle, List.nodup_cons, List.mem_append, not_or] at hnodup
    have heq := (List.append_cons_inj_of_notMem hnodup.1.1 hnodup.1.2).1 hsplit
    exact ⟨k₁, q, x', heq.1.symm, rfl⟩

/-- `for (best = .., p = ..; p; p = next(p)) if (key(p) < key(best)) best = p`. -/
def leastOn {β : Type*} [LT β] [DecidableLT β] (null : α) (next : α → α) (key : α → β) :
    Nat → α → α → α
  | 0, best, _ => best
  | fuel + 1, best, p =>
    if p = null then best
    else leastOn null next key fuel (if key p < key best then p else best) (next p)

/-- The first of the nodes with the least key. -/
def Earliest {β : Type*} [LinearOrder β] (key : α → β) (l : List α) (d : α) : Prop :=
  ∃ l₁ l₂, l = l₁ ++ d :: l₂ ∧ (∀ x ∈ l₁, key d < key x) ∧ ∀ x ∈ l₂, key d ≤ key x

/-- The loop keeps the first of the nodes with the least key. -/
theorem leastOn_earliest {β : Type*} [LinearOrder β] {key : α → β} {best : α}
    {pre : List α} (hpre : Earliest key pre best) (h : Threads null next p l)
    (hfuel : l.length ≤ fuel) : Earliest key (pre ++ l) (leastOn null next key fuel best p) := by
  induction fuel generalizing pre best p l with
  | zero =>
    rw [List.length_eq_zero_iff.1 (Nat.le_zero.1 hfuel), List.append_nil]
    exact hpre
  | succ fuel ih =>
    rw [leastOn]
    cases l with
    | nil =>
      rw [if_pos (threads_nil.1 h), List.append_nil]
      exact hpre
    | cons x l =>
      obtain ⟨rfl, hx, ht⟩ := h
      rw [if_neg hx, ← List.singleton_append, ← List.append_assoc]
      refine ih ?_ ht (Nat.le_of_succ_le_succ hfuel)
      obtain ⟨l₁, l₂, rfl, h1, h2⟩ := hpre
      split_ifs with hlt
      · refine ⟨l₁ ++ best :: l₂, [], rfl, fun y hy => ?_, by simp⟩
        rcases List.mem_append.1 hy with hy | hy
        · exact hlt.trans (h1 y hy)
        · rcases List.mem_cons.1 hy with rfl | hy
          · exact hlt
          · exact hlt.trans_le (h2 y hy)
      · refine ⟨l₁, l₂ ++ [p], by simp, h1, fun y hy => ?_⟩
        rcases List.mem_append.1 hy with hy | hy
        · exact h2 y hy
        · rw [List.mem_singleton] at hy
          subst hy
          exact not_lt.1 hlt

/-- The loop, begun at the first node of a list. -/
theorem leastOn_head {β : Type*} [LinearOrder β] {key : α → β}
    (h : Threads null next p l) (hp : p ≠ null) (hfuel : l.length ≤ fuel) :
    Earliest key l (leastOn null next key fuel p p) := by
  obtain ⟨t, rfl, ht⟩ := h.exists_cons hp
  obtain ⟨fuel, rfl⟩ : ∃ k, fuel = k + 1 := ⟨fuel - 1, by simp at hfuel; omega⟩
  rw [leastOn, if_neg hp, if_neg (lt_irrefl _)]
  exact leastOn_earliest ⟨[], [], rfl, by simp, by simp⟩ ht (Nat.le_of_succ_le_succ hfuel)

end Search

end LinkedList
