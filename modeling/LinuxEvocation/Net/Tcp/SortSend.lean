import LinuxEvocation.Lib.Iteration
import LinuxEvocation.Lib.LinkedList
import LinuxEvocation.Net.Tcp.Sequence

/-!
# `sort_send`

The segments that have been sent and not acknowledged are on a list through `link3`.  `sort_send` is
an insertion sort of that list: each segment is taken from the old list and stored in the new one.  To
see whether it goes to the front, its sequence number should be compared; the one that is compared is
that of the segment behind it, which the last segment does not have.

* `Sock`, `Turn`, `step` — the pointers of the socket, and the turns of the two loops.
* `Sorts` — the call ends with the segments in order.
* `sort_send_exact` — the call sorts exactly the lists of at most one segment.
-/

namespace LinuxEvocation.Tcp.SortSend

open LinkedList (Threads)

/-- The links of the segments, and the ends of the list; 0 is `NULL`. -/
structure Sock where
  link3 : Nat → Nat
  sendHead : Nat
  sendTail : Nat

/-- Which loop is next to take a turn, with its variables. -/
inductive Turn where
  | outer (skb list : Nat)
  | inner (skb skb2 list skb3 : Nat)

structure State where
  sk : Sock
  turn : Turn

/-- `skb->link3 = x`. -/
def Sock.link (sk : Sock) (skb x : Nat) : Sock :=
  { sk with link3 := Function.update sk.link3 skb x }

/-- The segment becomes the first of the new list. -/
def front (sk : Sock) (skb skb2 list : Nat) : State where
  sk := { sk.link skb list with sendTail := skb }
  turn := .outer skb2 skb

/-- The segment is stored behind `skb3`. -/
def behind (sk : Sock) (skb skb2 list skb3 : Nat) : State where
  sk :=
    let next := sk.link3 skb3
    let sk := (sk.link skb next).link skb3 skb
    { sk with sendTail := if next = 0 then skb else sk.sendTail }
  turn := .outer skb2 list

/-- A turn.  The call ends with the socket, or with `none` where it follows `NULL`. -/
def step (seq : Nat → BitVec 32) (s : State) : State ⊕ Option Sock :=
  match s.turn with
  | .outer skb list =>
    if skb = 0 then .inr (some { s.sk with sendHead := list })
    else
      let skb2 := s.sk.link3 skb
      if list = 0 then .inl (front s.sk skb skb2 list)
      else if skb2 = 0 then .inr none
      else if before (seq skb2) (seq list) then .inl (front s.sk skb skb2 list)
      else .inl { s with turn := .inner skb skb2 list list }
  | .inner skb skb2 list skb3 =>
    if s.sk.link3 skb3 = 0 then .inl (behind s.sk skb skb2 list skb3)
    else if before (seq skb) (seq (s.sk.link3 skb3)) then .inl (behind s.sk skb skb2 list skb3)
    else .inl { s with turn := .inner skb skb2 list (s.sk.link3 skb3) }

def start (sk : Sock) : State := ⟨sk, .outer sk.sendHead 0⟩

def sortSend (seq : Nat → BitVec 32) (fuel : Nat) (sk : Sock) : Option (Option Sock) :=
  Iteration.iterate (step seq) fuel (start sk)

/-- No segment is after the one that follows it, and the last one is the tail. -/
structure Sorted (seq : Nat → BitVec 32) (sk : Sock) (l : List Nat) : Prop where
  threads : Threads 0 sk.link3 sk.sendHead l
  order : l.Pairwise fun x y => seq x = seq y ∨ before (seq x) (seq y) = true
  tail : ∀ x, l.getLast? = some x → sk.sendTail = x

/-- The call ends with the segments of `l` in order. -/
def Sorts (seq : Nat → BitVec 32) (sk : Sock) (l : List Nat) : Prop :=
  ∃ fuel sk' l', sortSend seq fuel sk = some (some sk') ∧ Sorted seq sk' l' ∧ l'.Perm l

section Proofs

variable {seq : Nat → BitVec 32} {sk : Sock} {l : List Nat} {s : State}

/-- There is a segment to store, and the new list is not empty or the segment is not the last one. -/
def Stuck (s : State) : Prop :=
  match s.turn with
  | .outer skb list => skb ≠ 0 ∧ (list ≠ 0 ∨ s.sk.link3 skb ≠ 0)
  | .inner _ skb2 list _ => skb2 ≠ 0 ∧ list ≠ 0

/-- A turn that does not follow `NULL` leads to another segment. -/
theorem stuck_step {s' : State} (h : Stuck s) (hstep : step seq s = .inl s') : Stuck s' := by
  rw [step] at hstep
  rw [Stuck] at h
  cases hturn : s.turn with
  | outer skb list =>
    rw [hturn] at h hstep
    obtain ⟨hskb, h⟩ := h
    simp only [if_neg hskb] at hstep
    split_ifs at hstep with hlist hskb2 hbefore
    · cases hstep
      exact ⟨h.resolve_left (not_not.mpr hlist), .inl hskb⟩
    · cases hstep
      exact ⟨hskb2, .inl hskb⟩
    · cases hstep
      exact ⟨hskb2, hlist⟩
  | inner skb skb2 list skb3 =>
    rw [hturn] at h hstep
    obtain ⟨hskb2, hlist⟩ := h
    simp only [] at hstep
    split_ifs at hstep with hend hbefore
    · cases hstep
      exact ⟨hskb2, .inl hlist⟩
    · cases hstep
      exact ⟨hskb2, .inl hlist⟩
    · cases hstep
      exact ⟨hskb2, hlist⟩

/-- A turn that ends the call follows `NULL`. -/
theorem stuck_done {r : Option Sock} (h : Stuck s) (hstep : step seq s = .inr r) : r = none := by
  rw [step] at hstep
  rw [Stuck] at h
  cases hturn : s.turn with
  | outer skb list =>
    rw [hturn] at h hstep
    simp only [if_neg h.1] at hstep
    split_ifs at hstep
    cases hstep
    rfl
  | inner skb skb2 list skb3 =>
    rw [hturn] at hstep
    simp only [] at hstep
    split_ifs at hstep

/-- With two segments or more, the call never comes to its end. -/
theorem not_sorts_of_two {x y : Nat} {t : List Nat}
    (h : Threads 0 sk.link3 sk.sendHead (x :: y :: t)) : ¬ Sorts seq sk (x :: y :: t) := by
  rintro ⟨fuel, sk', l', hrun, -, -⟩
  obtain ⟨hhead, hx, hnext, hy, -⟩ := h
  have hstart : Stuck (start sk) := by
    refine ⟨?_, .inr ?_⟩
    · rw [hhead]
      exact hx
    · change sk.link3 sk.sendHead ≠ 0
      rw [hhead, hnext]
      exact hy
  have hnone := Iteration.iterate_result (Q := fun r => r = none) (fun _ _ => stuck_step)
    (fun _ _ => stuck_done) hstart hrun
  cases hnone

theorem sorts_nil (h : Threads 0 sk.link3 sk.sendHead []) : Sorts seq sk [] := by
  have hhead : sk.sendHead = 0 := h
  refine ⟨1, { sk with sendHead := 0 }, [], ?_, ?_, List.Perm.refl _⟩
  · rw [sortSend, Iteration.iterate_of_done]
    rw [step, start]
    exact if_pos hhead
  · exact ⟨rfl, List.Pairwise.nil, fun x hx => by cases hx⟩

/-- One segment is stored in front of nothing. -/
theorem sorts_singleton {x : Nat} (h : Threads 0 sk.link3 sk.sendHead [x]) : Sorts seq sk [x] := by
  obtain ⟨hhead, hx, hnext⟩ := h
  have hnext : sk.link3 x = 0 := hnext
  refine ⟨2, { sk.link x 0 with sendHead := x, sendTail := x }, [x], ?_, ?_, List.Perm.refl _⟩
  · have hfirst : step seq (start sk) = .inl (front sk x 0 0) := by
      rw [step, start, hhead]
      simp only [if_neg hx, hnext, if_true]
    rw [sortSend, Iteration.iterate_of_next hfirst, Iteration.iterate_of_done]
    rfl
  · refine ⟨⟨rfl, hx, Function.update_self _ _ _⟩, List.pairwise_singleton _ _, ?_⟩
    intro y hy
    cases hy
    rfl

end Proofs

/-- **`sort_send` sorts** exactly the lists of at most one segment; from every other list, it follows
`NULL`. -/
theorem sort_send_exact (seq : Nat → BitVec 32) (sk : Sock) (l : List Nat)
    (h : Threads 0 sk.link3 sk.sendHead l) : Sorts seq sk l ↔ l.length ≤ 1 := by
  constructor
  · intro hsorts
    match l, h, hsorts with
    | [], _, _ => exact Nat.zero_le 1
    | [x], _, _ => exact le_refl 1
    | x :: y :: t, h, hsorts => exact absurd hsorts (not_sorts_of_two h)
  · intro hlength
    match l, h, hlength with
    | [], h, _ => exact sorts_nil h
    | [x], h, _ => exact sorts_singleton h

/-- Two segments, 1 before 2. -/
def twoSegments : Sock where
  link3 := fun skb => if skb = 1 then 2 else 0
  sendHead := 1
  sendTail := 2

theorem sort_send_two :
    Sorts (fun skb => BitVec.ofNat 32 skb) twoSegments [1, 2] ↔ [1, 2].length ≤ 1 :=
  sort_send_exact _ _ _ ⟨rfl, by decide, rfl, by decide, rfl⟩

/-- Sorting them follows `NULL`, although they are in order. -/
theorem two_segments_fault :
    sortSend (fun skb => BitVec.ofNat 32 skb) 10 twoSegments = some none ∧
      ¬ Sorts (fun skb => BitVec.ofNat 32 skb) twoSegments [1, 2] :=
  ⟨rfl, not_sorts_of_two ⟨rfl, by decide, rfl, by decide, rfl⟩⟩

end LinuxEvocation.Tcp.SortSend
