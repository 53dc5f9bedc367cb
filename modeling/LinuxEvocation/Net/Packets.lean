import LinuxEvocation.Lib.Transition
import Mathlib.Data.List.Nodup

/-!
# Packet handlers

A packet that comes in is given to every handler of its type.  All of them get a copy but the last
one, which may have the packet itself; `copy` says so.  `dev_add_pack` puts a handler in front of the
others, with a copy if there is another one of its type.  `dev_remove_pack` passes the packet itself on
to the handler before, which it looks for among all handlers but the first one of the list.

* `State`, `devAddPack`, `devRemovePack` — the handlers, and the two functions.
* `Shared` — of each type, the last handler and no other one has no copy.
* `packets_exact` — the runs without a certain removal keep the handlers shared, and that removal does
  not.
-/

namespace LinuxEvocation.Packets

open Function (update update_of_ne update_self)
open Transition (Reach)

/-! ## The functions -/

/-- The list of handlers from `ptype_base` on, and their fields. -/
structure State where
  base : List Nat
  type : Nat → BitVec 16
  copy : Nat → Bool

/-- `dev_add_pack` of the handler `pt`, which its owner has given the type `type`, and `copy` 0. -/
def devAddPack (s : State) (pt : Nat) (type : BitVec 16) : State where
  base := pt :: s.base
  type := update s.type pt type
  copy := update s.copy pt (s.base.any fun p1 => s.type p1 = type)

/-- The loop of `dev_remove_pack`, from `pt1` on: `lpt` when it comes to `pt`, or `none` at the end. -/
def scan (type : Nat → BitVec 16) (pt : Nat) (lpt : Option Nat) : List Nat → Option (Option Nat)
  | _ :: next :: rest =>
    if next = pt then some lpt
    else scan type pt (if type next = type pt then some next else lpt) (next :: rest)
  | _ => none

/-- `dev_remove_pack`; it follows `NULL` if there is no handler. -/
def devRemovePack (s : State) (pt : Nat) : Option State :=
  match s.base with
  | [] => none
  | head :: rest =>
    if pt = head then some { s with base := rest }
    else
      match scan s.type pt none s.base with
      | none => some s
      | some lpt => some { s with
          base := s.base.erase pt
          copy :=
            match s.copy pt, lpt with
            | false, some lpt => update s.copy lpt false
            | _, _ => s.copy }

inductive Event where
  | add (pt : Nat) (type : BitVec 16)
  | remove (pt : Nat)

/-- A call.  Only handlers that are not registered are added. -/
def step (s : State) : Event → Option State
  | .add pt type => if pt ∈ s.base then none else some (devAddPack s pt type)
  | .remove pt => devRemovePack s pt

/-- The handlers of one type, in the order of the list. -/
def State.ofType (s : State) (t : BitVec 16) : List Nat := s.base.filter fun h => s.type h = t

/-- Of the handlers of each type, the last one and no other has `copy` 0. -/
structure Shared (s : State) : Prop where
  nodup : s.base.Nodup
  last : ∀ t h, (s.ofType t).getLast? = some h → ∀ x ∈ s.ofType t, (s.copy x = false ↔ x = h)

/-- The handlers of the kernel itself: IP, and behind it ARP. -/
def boot : State where
  base := [0, 1]
  type := fun h => if h = 0 then 0x0008 else 0x0608
  copy := fun _ => false

section Proofs

variable {s : State} {pt head : Nat} {t : BitVec 16} {mid post l : List Nat}
  {type : Nat → BitVec 16} {lpt : Option Nat}

/-! ## The search -/

/-- Where the search comes to `pt`, it has seen the last handler of its type before it, but for the
first of the list. -/
theorem scan_eq (hmid : pt ∉ mid) :
    scan type pt lpt (head :: (mid ++ pt :: post)) =
      some ((mid.filter fun h => type h = type pt).getLast?.or lpt) := by
  induction mid generalizing head lpt with
  | nil => rw [List.nil_append, scan, if_pos rfl, List.filter_nil, List.getLast?_nil, Option.none_or]
  | cons x mid ih =>
    have hx : x ≠ pt := fun h => hmid (h ▸ List.mem_cons_self)
    rw [List.cons_append, scan, if_neg hx, ih fun h => hmid (List.mem_cons_of_mem _ h)]
    by_cases htype : type x = type pt
    · rw [if_pos htype, List.filter_cons_of_pos (by simpa using htype), List.getLast?_cons]
      cases (mid.filter fun h => type h = type pt).getLast? <;> rfl
    · rw [if_neg htype, List.filter_cons_of_neg (by simpa using htype)]

/-- The search comes to the end of the list. -/
theorem scan_none (h : pt ∉ l) : scan type pt lpt (head :: l) = none := by
  induction l generalizing head lpt with
  | nil => rfl
  | cons x l ih =>
    have hx : x ≠ pt := fun heq => h (heq ▸ List.mem_cons_self)
    rw [scan, if_neg hx]
    exact ih fun hl => h (List.mem_cons_of_mem _ hl)

/-! ## The calls -/

theorem ofType_add (h : pt ∉ s.base) (u : BitVec 16) :
    (devAddPack s pt t).ofType u = if t = u then pt :: s.ofType u else s.ofType u := by
  have hsame : (s.base.filter fun x => (update s.type pt t) x = u) = s.ofType u := by
    apply List.filter_congr
    intro x hx
    rw [update_of_ne (ne_of_mem_of_not_mem hx h)]
  change (pt :: s.base).filter (fun x => (update s.type pt t) x = u) = _
  rw [List.filter_cons, update_self, hsame]
  simp only [decide_eq_true_eq]

/-- A new handler has a copy if there is one of its type behind it. -/
theorem shared_add (h : Shared s) (hpt : pt ∉ s.base) : Shared (devAddPack s pt t) := by
  refine ⟨List.nodup_cons.mpr ⟨hpt, h.nodup⟩, ?_⟩
  intro u last hlast x hx
  have hcopy : ∀ y ∈ s.ofType u, (devAddPack s pt t).copy y = s.copy y := by
    intro y hy
    exact update_of_ne (ne_of_mem_of_not_mem (List.mem_of_mem_filter hy) hpt) _ _
  rw [ofType_add hpt] at hlast hx
  by_cases hu : t = u
  · rw [if_pos hu] at hlast hx
    rw [List.getLast?_cons] at hlast
    have hpt_copy : (devAddPack s pt t).copy pt = !(s.ofType u).isEmpty := by
      change update s.copy pt _ pt = _
      rw [update_self, hu, State.ofType, Bool.eq_iff_iff]
      simp
    cases hold : (s.ofType u).getLast? with
    | none =>
      -- the handler is the only one of its type
      have hnil := List.getLast?_eq_none_iff.mp hold
      rw [hold] at hlast
      cases hlast
      rw [hnil, List.mem_singleton] at hx
      rw [hx, hpt_copy, hnil]
      simp
    | some last' =>
      rw [hold] at hlast
      cases hlast
      have hmem := List.mem_of_getLast? hold
      rcases List.mem_cons.mp hx with rfl | hx
      · have hne : x ≠ last' :=
          (ne_of_mem_of_not_mem (List.mem_of_mem_filter hmem) hpt).symm
        rw [hpt_copy]
        refine iff_of_false ?_ hne
        rw [Bool.not_eq_false, Bool.not_eq_true', List.isEmpty_eq_false_iff]
        exact List.ne_nil_of_mem hmem
      · rw [hcopy x hx]
        exact h.last u last' hold x hx
  · rw [if_neg hu] at hlast hx
    rw [hcopy x hx]
    exact h.last u last hlast x hx

/-- A removal that keeps the handlers shared: where there is only one other handler of the type of the
last one, it is not the first of the list. -/
def Clean (s : State) : Event → Prop
  | .add _ _ => True
  | .remove pt => s.base ≠ [] ∧ ∀ head rest, s.base = head :: rest → pt ∈ rest →
      s.copy pt = false → s.type head = s.type pt → ∃ x ∈ rest, x ≠ pt ∧ s.type x = s.type pt

theorem shared_tail {rest : List Nat} (h : Shared s) (hbase : s.base = head :: rest) :
    Shared { s with base := rest } := by
  have hnodup := h.nodup
  rw [hbase] at hnodup
  refine ⟨(List.nodup_cons.mp hnodup).2, ?_⟩
  intro u last hlast x hx
  change (rest.filter fun y => s.type y = u).getLast? = some last at hlast
  change x ∈ rest.filter fun y => s.type y = u at hx
  have hold : (s.ofType u).getLast? = some last ∧ x ∈ s.ofType u := by
    rw [State.ofType, hbase, List.filter_cons]
    split
    · rw [List.getLast?_cons, hlast]
      exact ⟨rfl, List.mem_cons_of_mem _ hx⟩
    · exact ⟨hlast, hx⟩
  exact h.last u last hold.1 x hold.2

/-- What a removal from the middle of the list does. -/
theorem devRemovePack_middle (hbase : s.base = head :: (mid ++ pt :: post)) (hne : pt ≠ head)
    (hmid : pt ∉ mid) :
    devRemovePack s pt = some { s with
      base := head :: (mid ++ post)
      copy :=
        match s.copy pt, (mid.filter fun h => s.type h = s.type pt).getLast? with
        | false, some lpt => update s.copy lpt false
        | _, _ => s.copy } := by
  have herase : s.base.erase pt = head :: (mid ++ post) := by
    rw [hbase, List.erase_cons_tail (by simpa using hne.symm), List.erase_append_right _ hmid,
      List.erase_cons_head]
  have hscan : scan s.type pt none (head :: (mid ++ pt :: post)) =
      some (mid.filter fun h => s.type h = s.type pt).getLast? := by
    rw [scan_eq hmid, Option.or_none]
  rw [devRemovePack, herase, hbase]
  simp only [if_neg hne, hscan]

/-- The handlers of one type, around one of them. -/
theorem ofType_middle (hbase : s.base = head :: (mid ++ pt :: post)) :
    s.ofType (s.type pt) = ([head] ++ mid).filter (fun h => s.type h = s.type pt) ++
      pt :: post.filter (fun h => s.type h = s.type pt) := by
  rw [State.ofType, hbase, ← List.singleton_append, ← List.append_assoc, List.filter_append,
    List.filter_cons_of_pos (by simp)]

/-- The handler without a copy is the last one of its type. -/
theorem Shared.post_eq_nil (h : Shared s) (hbase : s.base = head :: (mid ++ pt :: post))
    (hcopy : s.copy pt = false) : post.filter (fun h => s.type h = s.type pt) = [] := by
  by_contra hne
  obtain ⟨last, hlast⟩ : ∃ last,
      (post.filter fun h => s.type h = s.type pt).getLast? = some last :=
    ⟨_, List.getLast?_eq_some_getLast hne⟩
  have hmem := List.mem_of_mem_filter (List.mem_of_getLast? hlast)
  have hall : (s.ofType (s.type pt)).getLast? = some last := by
    rw [ofType_middle hbase, List.getLast?_append, List.getLast?_cons, hlast]
    rfl
  have hpt : pt ∈ s.ofType (s.type pt) := by
    rw [ofType_middle hbase]
    exact List.mem_append_right _ List.mem_cons_self
  have heq := (h.last _ last hall pt hpt).mp hcopy
  have hnodup := h.nodup
  rw [hbase, List.nodup_cons, List.nodup_append, List.nodup_cons] at hnodup
  exact hnodup.2.2.1.1 (heq ▸ hmem)

/-- The handlers of a type that is not the removed one's stay as they are. -/
theorem ofType_other {u : BitVec 16} (hbase : s.base = head :: (mid ++ pt :: post))
    (hu : s.type pt ≠ u) :
    (head :: (mid ++ post)).filter (fun h => s.type h = u) = s.ofType u := by
  rw [State.ofType, hbase, List.filter_cons, List.filter_cons, List.filter_append,
    List.filter_append, List.filter_cons_of_neg (by simpa using hu)]

/-- The removal of a handler that has a copy. -/
theorem last_of_copied (h : Shared s) (hbase : s.base = head :: (mid ++ pt :: post))
    (hcopy : s.copy pt = true) {last x : Nat}
    (hlast : ((head :: (mid ++ post)).filter fun h => s.type h = s.type pt).getLast? = some last)
    (hx : x ∈ (head :: (mid ++ post)).filter fun h => s.type h = s.type pt) :
    s.copy x = false ↔ x = last := by
  have hall := ofType_middle hbase
  have hpt : pt ∈ s.ofType (s.type pt) := by
    rw [hall]
    exact List.mem_append_right _ List.mem_cons_self
  have hsplit : (head :: (mid ++ post)).filter (fun h => s.type h = s.type pt) =
      ([head] ++ mid).filter (fun h => s.type h = s.type pt) ++
        post.filter fun h => s.type h = s.type pt := by
    rw [← List.filter_append]
    rfl
  rw [hsplit] at hlast hx
  cases hpost : (post.filter fun h => s.type h = s.type pt).getLast? with
  | none =>
    -- it would be the last one of its type, which has no copy
    have hlast' : (s.ofType (s.type pt)).getLast? = some pt := by
      rw [hall, List.getLast?_append, List.getLast?_cons, hpost]
      rfl
    have hfalse := (h.last _ pt hlast' pt hpt).mpr rfl
    rw [hcopy] at hfalse
    contradiction
  | some last' =>
    rw [List.getLast?_append, hpost, Option.some_or] at hlast
    cases hlast
    refine h.last (s.type pt) last ?_ x ?_
    · rw [hall, List.getLast?_append, List.getLast?_cons, hpost]
      rfl
    · rw [hall]
      rcases List.mem_append.mp hx with hx | hx
      · exact List.mem_append_left _ hx
      · exact List.mem_append_right _ (List.mem_cons_of_mem _ hx)

/-- A removal from the middle of the list. -/
theorem shared_middle (h : Shared s) (hbase : s.base = head :: (mid ++ pt :: post))
    (hne : pt ≠ head) (hmid : pt ∉ mid) :
    (∃ s', devRemovePack s pt = some s' ∧ Shared s') ↔ Clean s (.remove pt) := by
  have hall := ofType_middle hbase
  have hnodup := h.nodup
  rw [hbase] at hnodup
  have hsub : (head :: (mid ++ post)).Nodup :=
    hnodup.sublist (((List.sublist_cons_self pt post).append_left mid).cons_cons head)
  rw [devRemovePack_middle hbase hne hmid]
  simp only [Option.some.injEq, exists_eq_left']
  constructor
  · intro hshared
    refine ⟨fun hnil => List.cons_ne_nil _ _ (hbase.symm.trans hnil), ?_⟩
    intro head' rest hbase' _ hcopy htype
    rw [hbase, List.cons.injEq] at hbase'
    obtain ⟨rfl, rfl⟩ := hbase'
    by_contra hnone
    have hempty : mid.filter (fun h => s.type h = s.type pt) = [] := by
      rw [List.filter_eq_nil_iff]
      intro x hx htypex
      exact hnone ⟨x, List.mem_append_left _ hx, ne_of_mem_of_not_mem hx hmid,
        by simpa using htypex⟩
    have hpost := h.post_eq_nil hbase hcopy
    have hhead : ([head] ++ mid).filter (fun h => s.type h = s.type pt) = [head] := by
      rw [List.filter_append, hempty, List.filter_cons_of_pos (by simpa using htype),
        List.filter_nil, List.append_nil]
    rw [hhead, hpost] at hall
    have hold : ¬ s.copy head = false := by
      have hlast := h.last (s.type pt) pt (by rw [hall]; rfl) head (by rw [hall]; simp)
      exact fun hfalse => hne (hlast.mp hfalse).symm
    have hnew : (head :: (mid ++ post)).filter (fun h => s.type h = s.type pt) = [head] := by
      rw [← List.singleton_append, ← List.append_assoc, List.filter_append, hhead, hpost]
      rfl
    have hlast := hshared.last (s.type pt) head (by rw [State.ofType, hnew]; rfl) head
      (by rw [State.ofType, hnew]; exact List.mem_singleton_self _)
    rw [hcopy, hempty] at hlast
    exact hold (hlast.mpr rfl)
  · rintro ⟨-, hclean⟩
    refine ⟨hsub, ?_⟩
    intro u last hlast x hx
    change ((head :: (mid ++ post)).filter fun h => s.type h = u).getLast? = some last at hlast
    change x ∈ (head :: (mid ++ post)).filter fun h => s.type h = u at hx
    have hmem := List.mem_of_mem_filter hx
    have htype : s.type x = u := by simpa using List.of_mem_filter hx
    by_cases hu : s.type pt = u
    · subst hu
      cases hcopy : s.copy pt with
      | true => exact last_of_copied h hbase hcopy hlast hx
      | false =>
        have hpost := h.post_eq_nil hbase hcopy
        have hnew : (head :: (mid ++ post)).filter (fun h => s.type h = s.type pt) =
            [head].filter (fun h => s.type h = s.type pt) ++
              mid.filter fun h => s.type h = s.type pt := by
          rw [← List.singleton_append, List.filter_append, List.filter_append, hpost,
            List.append_nil]
        have hold : x ≠ pt → s.copy x = true := by
          intro hxpt
          rw [hpost] at hall
          have hiff := h.last (s.type pt) pt (by rw [hall, List.getLast?_append]; rfl) x (by
            rw [hall, List.filter_append, ← hnew]
            exact List.mem_append_left _ hx)
          rw [← Bool.not_eq_false]
          exact fun hfalse => hxpt (hiff.mp hfalse)
        have hxpt : x ≠ pt := by
          rintro rfl
          rw [List.nodup_cons, List.nodup_append, List.nodup_cons] at hnodup
          rcases List.mem_cons.mp hmem with rfl | hmem
          · exact hne rfl
          · rcases List.mem_append.mp hmem with hmem | hmem
            · exact hmid hmem
            · exact hnodup.2.2.1.1 hmem
        rw [hnew] at hlast hx
        cases hlpt : (mid.filter fun h => s.type h = s.type pt).getLast? with
        | none =>
          -- there is another one, and it is not the first
          exfalso
          have hempty := List.getLast?_eq_none_iff.mp hlpt
          rw [hempty, List.append_nil] at hx
          have hhead : s.type head = s.type pt := by
            have := List.mem_of_mem_filter hx
            rw [List.mem_singleton] at this
            rw [← this]
            exact htype
          obtain ⟨y, hy, hypt, hytype⟩ := hclean head (mid ++ pt :: post) hbase
            (List.mem_append_right _ List.mem_cons_self) hcopy hhead
          rcases List.mem_append.mp hy with hy | hy
          · have hin : y ∈ mid.filter fun h => s.type h = s.type pt :=
              List.mem_filter.mpr ⟨hy, by simpa using hytype⟩
            rw [hempty] at hin
            cases hin
          · have hin : y ∈ post.filter fun h => s.type h = s.type pt :=
              List.mem_filter.mpr
                ⟨(List.mem_cons.mp hy).resolve_left hypt, by simpa using hytype⟩
            rw [hpost] at hin
            cases hin
        | some lpt =>
          rw [List.getLast?_append, hlpt, Option.some_or] at hlast
          cases hlast
          change update s.copy last false x = false ↔ x = last
          by_cases hxl : x = last
          · rw [hxl, update_self]
            exact iff_of_true rfl rfl
          · rw [update_of_ne hxl, hold hxpt]
            exact iff_of_false (by decide) hxl
    · rw [ofType_other hbase hu] at hlast hx
      have hkeep := h.last u last hlast x hx
      cases hcopy : s.copy pt with
      | true => exact hkeep
      | false =>
        cases hlpt : (mid.filter fun h => s.type h = s.type pt).getLast? with
        | none => exact hkeep
        | some lpt =>
          have hne' : x ≠ lpt := by
            rintro rfl
            have := List.of_mem_filter (List.mem_of_getLast? hlpt)
            apply hu
            rw [← htype]
            symm
            simpa using this
          change update s.copy lpt false x = false ↔ x = last
          rw [update_of_ne hne']
          exact hkeep

/-- The calls that the owner of a handler makes. -/
def Legal (s : State) : Event → Prop
  | .add pt _ => pt ∉ s.base
  | .remove _ => True

theorem shared_step (h : Shared s) {e : Event} (he : Legal s e) :
    (∃ s', step s e = some s' ∧ Shared s') ↔ Clean s e := by
  cases e with
  | add pt type =>
    refine iff_of_true ?_ trivial
    exact ⟨_, if_neg he, shared_add h he⟩
  | remove pt =>
    cases hbase : s.base with
    | nil =>
      refine iff_of_false ?_ fun hclean => hclean.1 hbase
      rintro ⟨s', hs', -⟩
      rw [step, devRemovePack, hbase] at hs'
      cases hs'
    | cons head rest =>
      have hnodup := h.nodup
      rw [hbase] at hnodup
      have hclean : pt ∉ rest → Clean s (.remove pt) := by
        intro hpt
        refine ⟨fun hnil => List.cons_ne_nil _ _ (hbase.symm.trans hnil), ?_⟩
        intro head' rest' hbase' hin
        rw [hbase, List.cons.injEq] at hbase'
        exact absurd (hbase'.2 ▸ hin) hpt
      by_cases hhead : pt = head
      · refine iff_of_true ⟨{ s with base := rest }, ?_, shared_tail h hbase⟩
          (hclean (hhead ▸ (List.nodup_cons.mp hnodup).1))
        rw [step, devRemovePack, hbase]
        exact if_pos hhead
      · by_cases hpt : pt ∈ rest
        · obtain ⟨mid, post, rfl⟩ := List.append_of_mem hpt
          rw [List.nodup_cons, List.nodup_append] at hnodup
          exact shared_middle h hbase hhead fun hmid =>
            hnodup.2.2.2 pt hmid pt List.mem_cons_self rfl
        · refine iff_of_true ⟨s, ?_, h⟩ (hclean hpt)
          rw [step, devRemovePack, hbase]
          simp only [if_neg hhead, scan_none hpt]

theorem shared_boot : Shared boot := by
  refine ⟨by decide, ?_⟩
  intro t h hlast x hx
  -- their types are different
  obtain ⟨hxin, hxtype⟩ := List.mem_filter.mp hx
  obtain ⟨hhin, hhtype⟩ := List.mem_filter.mp (List.mem_of_getLast? hlast)
  have htypes : boot.type x = boot.type h :=
    (of_decide_eq_true hxtype).trans (of_decide_eq_true hhtype).symm
  refine iff_of_true rfl ?_
  rcases List.mem_pair.mp hxin with rfl | rfl <;> rcases List.mem_pair.mp hhin with rfl | rfl
  · rfl
  · exact absurd htypes (by decide)
  · exact absurd htypes (by decide)
  · rfl

end Proofs

/-- **The handlers stay shared** in every run without a removal that leaves only the first handler of
the list of its type; and from a state of such a run, a call keeps them shared, and does not follow
`NULL`, exactly when it is not such a removal. -/
theorem packets_exact {s : State} (h : Reach step Clean boot s) :
    Shared s ∧ ∀ e, Legal s e → ((∃ s', step s e = some s' ∧ Shared s') ↔ Clean s e) := by
  have hshared : Shared s := by
    refine h.invariant shared_boot ?_
    intro s e s' hs hclean hstep
    have hlegal : Legal s e := by
      cases e with
      | add pt type =>
        intro hpt
        rw [step, if_pos hpt] at hstep
        cases hstep
      | remove pt => trivial
    obtain ⟨s'', hs'', hshared⟩ := (shared_step hs hlegal).mpr hclean
    rw [hstep] at hs''
    cases hs''
    exact hshared
  exact ⟨hshared, fun e he => shared_step hshared he⟩

/-- Three handlers of one type are added, and the first of them, which is the last in the list, is
removed. -/
def threeAndTwo : List Event := [.add 2 3, .add 3 3, .add 4 3, .remove 2]

/-- The handler in front of it loses its copy. -/
theorem packets_three : ∃ s, Transition.execFrom step boot threeAndTwo = some s ∧
    Reach step Clean boot s ∧ s.base = [4, 3, 0, 1] ∧ s.copy 4 = true ∧ s.copy 3 = false ∧
    Shared s ∧ ∀ e, Legal s e → ((∃ s', step s e = some s' ∧ Shared s') ↔ Clean s e) := by
  have hclean : Clean (devAddPack (devAddPack (devAddPack boot 2 3) 3 3) 4 3) (.remove 2) := by
    refine ⟨by decide, ?_⟩
    intro head rest hbase _ _ _
    cases hbase
    exact ⟨3, by decide, by decide, by decide⟩
  have hadded : Reach step Clean boot (devAddPack (devAddPack (devAddPack boot 2 3) 3 3) 4 3) :=
    ((Reach.init.step (.add 2 3) trivial rfl).step (.add 3 3) trivial rfl).step (.add 4 3) trivial rfl
  have hs := hadded.step (.remove 2) hclean rfl
  exact ⟨_, rfl, hs, by decide, by decide, by decide, packets_exact hs⟩

/-- Two handlers of one type are added, and the first of them is removed. -/
def twoAndOne : List Event := [.add 2 3, .add 3 3, .remove 2]

/-- The other one is left with its copy. -/
theorem copy_is_left : ∃ s, Reach step Transition.anyStep boot s ∧ ¬ Shared s := by
  obtain ⟨s, hs, hbase, hcopy, htype⟩ : ∃ s, Transition.execFrom step boot twoAndOne = some s ∧
      s.base = [3, 0, 1] ∧ s.copy 3 = true ∧ s.ofType 3 = [3] :=
    ⟨_, rfl, by decide, by decide, by decide⟩
  refine ⟨s, Reach.of_execFrom .init hs, ?_⟩
  intro hshared
  have hlast := hshared.last 3 3 (by rw [htype]; rfl) 3 (by rw [htype]; exact List.mem_singleton_self 3)
  rw [hcopy] at hlast
  exact absurd (hlast.mpr rfl) (by decide)

end LinuxEvocation.Packets
