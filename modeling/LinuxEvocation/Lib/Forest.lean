import LinuxEvocation.Lib.Circular

/-!
# Forests threaded through a memory

The nodes of a forest are linked twice: in one circle of all nodes, and in the chains of the
children of each node, from the youngest on, with a pointer from each child to its parent.

* `Links` — the link fields of all nodes; `remove`, `add`, `adopt` — the stores that take a node
  out, put one in as the youngest child of its parent, and give the first child of one node to
  another.
* `WF` — the links are those of the circle `ring` and the chains `kids`.
* `WF.remove`, `WF.add`, `WF.adopt` — what the stores do to them; `WF.shrink`, `WF.grow`.
* `Below` — the parent links lead from one node to another; `Below.setParent`.
-/

namespace Forest

open Function (update update_of_ne update_self)
open LinkedList

variable {α : Type*}

/-- The link fields of all nodes. -/
@[ext]
structure Links (α : Type*) where
  next : α → α
  prev : α → α
  pptr : α → α
  cptr : α → α
  ysptr : α → α
  osptr : α → α

namespace Links

variable [DecidableEq α]

/-- A node is taken out of the circle and of the chain of its parent. -/
def remove (null : α) (k : Links α) (p : α) : Links α :=
  { k with
    next := update k.next (k.prev p) (k.next p)
    prev := update k.prev (k.next p) (k.prev p)
    osptr := DList.unlinkNext null k.osptr k.ysptr p
    ysptr := DList.unlinkPrev null k.osptr k.ysptr p
    cptr := if k.ysptr p = null then update k.cptr (k.pptr p) (k.osptr p) else k.cptr }

/-- A node is put into the circle in front of `root`, and in front of the chain of its parent. -/
def add (null root : α) (k : Links α) (p : α) : Links α :=
  { k with
    next := update (update k.next p root) (k.prev root) p
    prev := update (update k.prev p (k.prev root)) root p
    osptr := update k.osptr p (k.cptr (k.pptr p))
    ysptr := if k.cptr (k.pptr p) = null then update k.ysptr p null
      else update (update k.ysptr p null) (k.cptr (k.pptr p)) p
    cptr := update k.cptr (k.pptr p) p }

/-- The first child of `cur` is put in front of the chain of `new`; the next child of `cur` does
not learn of it. -/
def adopt (null : α) (k : Links α) (cur new p : α) : Links α :=
  { k with
    pptr := update k.pptr p new
    osptr := update k.osptr p (k.cptr new)
    ysptr := update (update k.ysptr p null) (k.cptr new) p
    cptr := update (update k.cptr cur (k.osptr p)) new p }

end Links

/-- The nodes in `L` are linked, in the circle `root :: ring`; the chain of a node in `N` is `kids`,
and the back link of its first child is `first`. -/
structure WF (null root : α) (N L : Set α) (ring : List α) (kids : α → List α) (first : α → α)
    (k : Links α) : Prop where
  nodup : (root :: ring).Nodup
  circle : Circle k.next k.prev (root :: ring)
  mem : ∀ p, p ∈ root :: ring ↔ p ∈ L
  nonnull : ∀ p ∈ N, p ≠ null
  sub : L ⊆ N
  kidsNodup : ∀ t ∈ N, (kids t).Nodup
  chain : ∀ t ∈ N, DList null k.osptr k.ysptr (first t) (k.cptr t) (kids t)
  kid : ∀ t ∈ N, ∀ p, p ∈ kids t ↔ p ∈ L ∧ p ≠ root ∧ k.pptr p = t

namespace WF

variable {null root : α} {N L : Set α} {ring : List α} {kids : α → List α} {first : α → α}
  {k : Links α} {p : α}

theorem root_mem (h : WF null root N L ring kids first k) : root ∈ L :=
  (h.mem root).1 List.mem_cons_self

theorem kid_ne (h : WF null root N L ring kids first k) {t u x : α} (ht : t ∈ N) (hu : u ∈ N)
    (hx : x ∈ kids t) (hx' : x ∈ kids u) : t = u :=
  ((h.kid t ht x).1 hx).2.2.symm.trans ((h.kid u hu x).1 hx').2.2

theorem kid_nonnull (h : WF null root N L ring kids first k) {t x : α} (ht : t ∈ N)
    (hx : x ∈ kids t) : x ≠ null :=
  h.nonnull x (h.sub ((h.kid t ht x).1 hx).1)

/-- A chain with no first node has no node. -/
theorem cptr_eq_null (h : WF null root N L ring kids first k) {t : α} (ht : t ∈ N) :
    k.cptr t = null ↔ kids t = [] := by
  have hc := h.chain t ht
  cases hk : kids t with
  | nil =>
    rw [hk] at hc
    exact ⟨fun _ => rfl, fun _ => hc⟩
  | cons x l =>
    rw [hk] at hc
    refine ⟨fun hnull => ?_, fun hl => by cases hl⟩
    exact absurd (hc.1.symm.trans hnull) hc.2.1

theorem cptr_eq_head (h : WF null root N L ring kids first k) {t x : α} {l : List α} (ht : t ∈ N)
    (hk : kids t = x :: l) : k.cptr t = x := by
  have hc := h.chain t ht
  rw [hk] at hc
  exact hc.1

/-- Other nodes may have other parent links. -/
theorem setParent [DecidableEq α] (h : WF null root N L ring kids first k) (hp : p ∉ L) (q : α) :
    WF null root N L ring kids first { k with pptr := update k.pptr p q } := by
  refine ⟨h.nodup, h.circle, h.mem, h.nonnull, h.sub, h.kidsNodup, h.chain, fun t ht x => ?_⟩
  rw [h.kid t ht x]
  by_cases hx : x = p
  · rw [hx]
    exact ⟨fun hL => absurd hL.1 hp, fun hL => absurd hL.1 hp⟩
  · dsimp only
    rw [update_of_ne hx]

/-- What is before a node in its chain, and what is behind it. -/
theorem siblings (h : WF null root N L ring kids first k) {t : α} (ht : t ∈ N) {l₁ l₂ : List α}
    (hk : kids t = l₁ ++ p :: l₂) :
    (k.osptr p = null ∧ l₂ = [] ∨ k.osptr p ∈ l₂) ∧
      (k.ysptr p = first t ∧ l₁ = [] ∨ k.ysptr p ∈ l₁) := by
  have hc := h.chain t ht
  rw [hk] at hc
  obtain ⟨-, htail, hprev⟩ := hc.split
  refine ⟨?_, ?_⟩
  · cases l₂ with
    | nil => exact .inl ⟨htail, rfl⟩
    | cons y l₂ => exact .inr (htail.1 ▸ List.mem_cons_self)
  · cases l₁ with
    | nil => exact .inl ⟨hprev, rfl⟩
    | cons y l₁ =>
      rw [List.getLast_cons (by simp)] at hprev
      exact .inr (hprev ▸ List.getLast_mem _)

/-- A chain without nodes has no back link. -/
theorem setFirst (h : WF null root N L ring kids first k) {first' : α → α}
    (heq : ∀ t ∈ N, kids t ≠ [] → first' t = first t) : WF null root N L ring kids first' k := by
  refine ⟨h.nodup, h.circle, h.mem, h.nonnull, h.sub, h.kidsNodup, fun t ht => ?_, h.kid⟩
  have hc := h.chain t ht
  by_cases hk : kids t = []
  · rw [hk] at hc ⊢
    exact hc
  · rw [heq t ht hk]
    exact hc

/-- Some of the nodes that are not linked are forgotten. -/
theorem shrink (h : WF null root N L ring kids first k) {N' : Set α} (hN : N' ⊆ N) (hL : L ⊆ N') :
    WF null root N' L ring kids first k :=
  ⟨h.nodup, h.circle, h.mem, fun p hp => h.nonnull p (hN hp), hL,
    fun t ht => h.kidsNodup t (hN ht), fun t ht => h.chain t (hN ht), fun t ht => h.kid t (hN ht)⟩

/-- A node without children comes to the nodes that are not linked. -/
theorem grow [DecidableEq α] (h : WF null root N L ring kids first k) (hp : p ∉ N) (hnull : p ≠ null)
    (hcptr : k.cptr p = null) (hkid : ∀ x ∈ L, k.pptr x ≠ p) :
    WF null root (insert p N) L ring (update kids p []) first k := by
  have hold : ∀ t ∈ N, t ≠ p := by
    rintro t ht rfl
    exact hp ht
  refine ⟨h.nodup, h.circle, h.mem, fun x hx => ?_, fun x hx => .inr (h.sub hx), fun t ht => ?_,
    fun t ht => ?_, fun t ht x => ?_⟩
  · rcases hx with rfl | hx
    · exact hnull
    · exact h.nonnull x hx
  · rcases ht with rfl | ht
    · rw [update_self]
      exact List.nodup_nil
    · rw [update_of_ne (hold t ht)]
      exact h.kidsNodup t ht
  · rcases ht with rfl | ht
    · rw [update_self]
      exact hcptr
    · rw [update_of_ne (hold t ht)]
      exact h.chain t ht
  · rcases ht with rfl | ht
    · rw [update_self]
      exact ⟨fun hmem => absurd hmem List.not_mem_nil, fun hx => absurd hx.2.2 (hkid x hx.1)⟩
    · rw [update_of_ne (hold t ht)]
      exact h.kid t ht x

end WF

section Circle

variable [DecidableEq α] {next prev : α → α} {root p : α} {ring : List α}

/-- A node other than the root is taken out of the circle. -/
theorem circle_remove (h : Circle next prev (root :: ring)) (hnodup : (root :: ring).Nodup)
    (hp : p ∈ ring) :
    Circle (update next (prev p) (next p)) (update prev (next p) (prev p))
      (root :: ring.erase p) := by
  obtain ⟨l₁, l₂, rfl⟩ := List.append_of_mem hp
  have hl₁ : p ∉ l₁ := by
    intro hmem
    exact (List.nodup_append.1 (List.nodup_cons.1 hnodup).2).2.2 p hmem p List.mem_cons_self rfl
  have herase : (l₁ ++ p :: l₂).erase p = l₁ ++ l₂ := by
    rw [List.erase_append_right _ hl₁, List.erase_cons_head]
  -- turn the circle until the node is in front
  have hrot : Circle next prev (p :: (l₂ ++ root :: l₁)) := by
    have hcons : Circle next prev ((root :: l₁) ++ p :: l₂) := h
    exact hcons.rotate
  have hperm : (p :: (l₂ ++ root :: l₁)).Perm (root :: (l₁ ++ p :: l₂)) := by
    have hswap : ((p :: l₂) ++ (root :: l₁)).Perm ((root :: l₁) ++ (p :: l₂)) :=
      List.perm_append_comm
    exact hswap
  have hnodup' := hperm.nodup_iff.2 hnodup
  rw [herase]
  cases l₂ with
  | nil =>
    rw [List.append_nil]
    exact hrot.unlink hnodup'
  | cons y l₂ =>
    have hun : Circle _ _ ((y :: l₂) ++ root :: l₁) := hrot.unlink hnodup'
    exact hun.rotate

end Circle

section Stores

variable [DecidableEq α] {null root : α} {N L : Set α} {ring : List α} {kids : α → List α}
  {first : α → α} {k : Links α} {p : α}

namespace WF

/-- **A node is taken out**, of the circle and of the chain of its parent. -/
theorem remove (h : WF null root N L ring kids (fun _ => null) k) (hp : p ∈ L) (hroot : p ≠ root)
    (hparent : k.pptr p ∈ N) :
    WF null root N (L \ {p}) (ring.erase p) (fun t => (kids t).erase p) (fun _ => null)
      (k.remove null p) := by
  have hring : p ∈ ring := by
    rcases List.mem_cons.1 ((h.mem p).2 hp) with heq | hmem
    · exact absurd heq hroot
    · exact hmem
  have hkid : p ∈ kids (k.pptr p) := (h.kid _ hparent p).2 ⟨hp, hroot, rfl⟩
  have hnodup := (List.nodup_cons.1 h.nodup)
  obtain ⟨l₁, l₂, hk⟩ := List.append_of_mem hkid
  obtain ⟨hos, hys⟩ := h.siblings hparent hk
  have hmem_kids : ∀ x, x ∈ l₁ ∨ x ∈ l₂ → x ∈ kids (k.pptr p) := by
    intro x hx
    rw [hk, List.mem_append, List.mem_cons]
    tauto
  refine ⟨?_, circle_remove h.circle h.nodup hring, fun x => ?_, h.nonnull,
    fun x hx => h.sub hx.1, fun t ht => (h.kidsNodup t ht).erase p, fun t ht => ?_,
    fun t ht x => ?_⟩
  · refine List.nodup_cons.2 ⟨fun hmem => hnodup.1 (List.mem_of_mem_erase hmem), hnodup.2.erase p⟩
  · rw [List.mem_cons, hnodup.2.mem_erase_iff, Set.mem_sdiff, ← h.mem x, List.mem_cons,
      Set.mem_singleton_iff]
    refine ⟨?_, fun hx => hx.1.imp_right fun hmem => ⟨hx.2, hmem⟩⟩
    rintro (rfl | ⟨hne, hmem⟩)
    · exact ⟨.inl rfl, fun heq => hroot heq.symm⟩
    · exact ⟨.inr hmem, hne⟩
  · by_cases htp : t = k.pptr p
    · -- the chain of the parent
      subst htp
      have hnd : (l₁ ++ p :: l₂).Nodup := hk ▸ h.kidsNodup _ hparent
      have hl₁ : p ∉ l₁ := fun hmem =>
        (List.nodup_append.1 hnd).2.2 p hmem p List.mem_cons_self rfl
      have hc := h.chain _ hparent
      rw [hk] at hc
      have hnull : null ∉ l₁ ++ p :: l₂ := fun hmem => hc.threads.ne_null null hmem rfl
      have hun := hc.unlink hnd hnull
      have hfirst : (k.remove null p).cptr (k.pptr p) =
          if k.cptr (k.pptr p) = p then k.osptr p else k.cptr (k.pptr p) := by
        show (if k.ysptr p = null then _ else k.cptr) (k.pptr p) = _
        rcases hys with ⟨hy, rfl⟩ | hy
        · rw [if_pos hy, update_self, if_pos hc.1]
        · have hyn : k.ysptr p ≠ null := fun heq => hnull (List.mem_append_left _ (heq ▸ hy))
          have hne : k.cptr (k.pptr p) ≠ p := by
            cases l₁ with
            | nil => exact absurd hy (by simp)
            | cons y l₁ =>
              rw [hc.1]
              rintro rfl
              exact hl₁ List.mem_cons_self
          rw [if_neg hyn, if_neg hne]
      rw [hk, List.erase_append_right _ hl₁, List.erase_cons_head, hfirst]
      exact hun
    · -- another chain
      have hpt : p ∉ kids t := fun hmem => htp (h.kid_ne ht hparent hmem hkid)
      have hcptr : (k.remove null p).cptr t = k.cptr t := by
        show (if k.ysptr p = null then _ else k.cptr) t = _
        split
        · exact update_of_ne htp _ _
        · rfl
      rw [List.erase_of_not_mem hpt, hcptr]
      refine (h.chain t ht).congr (fun y hy => ?_) fun y hy => ?_
      · show DList.unlinkNext null k.osptr k.ysptr p y = _
        unfold DList.unlinkNext
        split
        · rfl
        · rename_i hyn
          refine update_of_ne ?_ _ _
          rintro rfl
          rcases hys with ⟨heq, -⟩ | hmem
          · exact hyn heq
          · exact htp (h.kid_ne ht hparent hy (hmem_kids _ (.inl hmem)))
      · show DList.unlinkPrev null k.osptr k.ysptr p y = _
        unfold DList.unlinkPrev
        split
        · rfl
        · rename_i hyn
          refine update_of_ne ?_ _ _
          rintro rfl
          rcases hos with ⟨heq, -⟩ | hmem
          · exact hyn heq
          · exact htp (h.kid_ne ht hparent hy (hmem_kids _ (.inr hmem)))
  · rw [(h.kidsNodup t ht).mem_erase_iff, h.kid t ht x, Set.mem_sdiff, Set.mem_singleton_iff]
    show _ ↔ _ ∧ _ ∧ k.pptr x = t
    tauto

/-- **A node is put in**, as the youngest child of its parent. -/
theorem add (h : WF null root N L ring kids (fun _ => null) k) (hp : p ∉ L) (hpN : p ∈ N)
    (hparent : k.pptr p ∈ N) :
    WF null root N (insert p L) (ring ++ [p])
      (update kids (k.pptr p) (p :: kids (k.pptr p))) (fun _ => null)
      (k.add null root p) := by
  have hnull : p ≠ null := h.nonnull p hpN
  have hring : p ∉ root :: ring := fun hmem => hp ((h.mem p).1 hmem)
  have hkids : ∀ t ∈ N, p ∉ kids t := fun t ht hmem => hp ((h.kid t ht p).1 hmem).1
  have hroot : p ≠ root := fun heq => hring (heq ▸ List.mem_cons_self)
  have hmem : ∀ x, x ∈ root :: (ring ++ [p]) ↔ x ∈ insert p L := by
    intro x
    rw [← List.cons_append, List.mem_append, h.mem x, List.mem_singleton, Set.mem_insert_iff, or_comm]
  refine ⟨?_, h.circle.insert h.nodup hring, hmem, h.nonnull, ?_, fun t ht => ?_, fun t ht => ?_,
    fun t ht x => ?_⟩
  · have hperm : (root :: ring ++ [p]).Perm (p :: root :: ring) := List.perm_append_singleton p _
    exact hperm.nodup_iff.2 (List.nodup_cons.2 ⟨hring, h.nodup⟩)
  · intro x hx
    rcases Set.mem_insert_iff.1 hx with rfl | hx
    · exact hpN
    · exact h.sub hx
  · by_cases htp : t = k.pptr p
    · rw [htp, update_self]
      exact List.nodup_cons.2 ⟨hkids _ hparent, h.kidsNodup _ hparent⟩
    · rw [update_of_ne htp]
      exact h.kidsNodup t ht
  · by_cases htp : t = k.pptr p
    · rw [htp, update_self]
      have hcptr : (k.add null root p).cptr (k.pptr p) = p := update_self _ _ _
      rw [hcptr]
      exact (h.chain _ hparent).push (h.kidsNodup _ hparent) (hkids _ hparent) hnull
    · rw [update_of_ne htp]
      have hcptr : (k.add null root p).cptr t = k.cptr t := update_of_ne htp _ _
      rw [hcptr]
      refine (h.chain t ht).congr (fun y hy => update_of_ne ?_ _ _) fun y hy => ?_
      · rintro rfl
        exact hkids t ht hy
      · have hyp : y ≠ p := by
          rintro rfl
          exact hkids t ht hy
        show (if k.cptr (k.pptr p) = null then update k.ysptr p null
          else update (update k.ysptr p null) (k.cptr (k.pptr p)) p) y = _
        split
        · exact update_of_ne hyp _ _
        · rename_i hcn
          have hne : y ≠ k.cptr (k.pptr p) := by
            rintro rfl
            -- the first child of the parent is no child of `t`
            have hc := h.chain _ hparent
            cases hkp : kids (k.pptr p) with
            | nil =>
              rw [hkp] at hc
              exact hcn hc
            | cons z l =>
              rw [hkp] at hc
              refine htp (h.kid_ne ht hparent hy ?_)
              rw [hkp, hc.1]
              exact List.mem_cons_self
          rw [update_of_ne hne, update_of_ne hyp]
  · show _ ↔ _ ∧ _ ∧ k.pptr x = t
    by_cases htp : t = k.pptr p
    · rw [htp, update_self, List.mem_cons, h.kid _ hparent x, Set.mem_insert_iff]
      constructor
      · rintro (rfl | hx)
        · exact ⟨.inl rfl, hroot, rfl⟩
        · exact ⟨.inr hx.1, hx.2⟩
      · rintro ⟨rfl | hx, h1, h2⟩
        · exact .inl rfl
        · exact .inr ⟨hx, h1, h2⟩
    · rw [update_of_ne htp, h.kid t ht x, Set.mem_insert_iff]
      constructor
      · rintro ⟨h1, h2⟩
        exact ⟨.inr h1, h2⟩
      · rintro ⟨rfl | h1, h2, h3⟩
        · exact absurd h3.symm htp
        · exact ⟨h1, h2, h3⟩

/-- **The first child of one node is given to another.** -/
theorem adopt (h : WF null root N L ring kids first k) {cur new : α} {l : List α} (hcur : cur ∈ N)
    (hnew : new ∈ N) (hne : new ≠ cur) (hk : kids cur = p :: l) (hfirst : first new = null) :
    WF null root N L ring (update (update kids cur l) new (p :: kids new))
      (update first cur p) (k.adopt null cur new p) := by
  have hp : p ∈ kids cur := hk ▸ List.mem_cons_self
  have hpnull : p ≠ null := h.kid_nonnull hcur hp
  have hnodup : (p :: l).Nodup := hk ▸ h.kidsNodup cur hcur
  have hccur := h.chain cur hcur
  rw [hk] at hccur
  -- the first child of the new parent is a child of no other
  have hcn : k.cptr new = null ∧ kids new = [] ∨ k.cptr new ∈ kids new := by
    have hc := h.chain new hnew
    cases hkn : kids new with
    | nil =>
      rw [hkn] at hc
      exact .inl ⟨hc, rfl⟩
    | cons z l' =>
      rw [hkn] at hc
      exact .inr (hc.1 ▸ List.mem_cons_self)
  have hother : ∀ t ∈ N, t ≠ new → ∀ y ∈ kids t, y ≠ k.cptr new := by
    rintro t ht htn y hy rfl
    rcases hcn with ⟨hnull, -⟩ | hmem
    · exact h.kid_nonnull ht hy hnull
    · exact htn (h.kid_ne ht hnew hy hmem)
  have hys : ∀ y, y ≠ p → y ≠ k.cptr new → (k.adopt null cur new p).ysptr y = k.ysptr y := by
    intro y h1 h2
    show update (update k.ysptr p null) (k.cptr new) p y = _
    rw [update_of_ne h2, update_of_ne h1]
  have hos : ∀ y, y ≠ p → (k.adopt null cur new p).osptr y = k.osptr y :=
    fun y hy => update_of_ne hy _ _
  refine ⟨h.nodup, h.circle, h.mem, h.nonnull, h.sub, fun t ht => ?_, fun t ht => ?_,
    fun t ht x => ?_⟩
  · by_cases htn : t = new
    · rw [htn, update_self]
      refine List.nodup_cons.2 ⟨fun hmem => hne ?_, h.kidsNodup new hnew⟩
      exact h.kid_ne hnew hcur hmem hp
    · rw [update_of_ne htn]
      by_cases htc : t = cur
      · rw [htc, update_self]
        exact (List.nodup_cons.1 hnodup).2
      · rw [update_of_ne htc]
        exact h.kidsNodup t ht
  · by_cases htn : t = new
    · -- the new parent
      have hpn : p ∉ kids new := fun hmem => hne (h.kid_ne hnew hcur hmem hp)
      have hcptr : (k.adopt null cur new p).cptr new = p := update_self _ _ _
      have hpush := (hfirst ▸ h.chain new hnew).push (h.kidsNodup new hnew) hpn hpnull
      rw [htn, update_self, update_of_ne hne, hfirst, hcptr]
      refine hpush.congr (fun y _ => rfl) fun y hy => ?_
      show update (update k.ysptr p null) (k.cptr new) p y = _
      split
      · rename_i hnull
        have hynull : y ≠ null := by
          rcases List.mem_cons.1 hy with rfl | hy
          · exact hpnull
          · exact h.kid_nonnull hnew hy
        rw [hnull, update_of_ne hynull]
      · rfl
    · rw [update_of_ne htn]
      by_cases htc : t = cur
      · -- the old one
        have hcptr : (k.adopt null cur new p).cptr cur = k.osptr p := by
          show update (update k.cptr cur (k.osptr p)) new p cur = _
          rw [update_of_ne hne.symm, update_self]
        rw [htc, update_self, update_self, hcptr]
        refine hccur.2.2.2.congr (fun y hy => hos y ?_) fun y hy => hys y ?_ ?_
        · rintro rfl
          exact (List.nodup_cons.1 hnodup).1 hy
        · rintro rfl
          exact (List.nodup_cons.1 hnodup).1 hy
        · exact hother cur hcur hne.symm y (hk ▸ List.mem_cons_of_mem p hy)
      · have hcptr : (k.adopt null cur new p).cptr t = k.cptr t := by
          show update (update k.cptr cur (k.osptr p)) new p t = _
          rw [update_of_ne htn, update_of_ne htc]
        rw [update_of_ne htc, update_of_ne htc, hcptr]
        have hyp : ∀ y ∈ kids t, y ≠ p := by
          rintro y hy rfl
          exact htc (h.kid_ne ht hcur hy hp)
        exact (h.chain t ht).congr (fun y hy => hos y (hyp y hy)) fun y hy =>
          hys y (hyp y hy) (hother t ht htn y hy)
  · show _ ↔ _ ∧ _ ∧ update k.pptr p new x = t
    have hpL := (h.kid cur hcur p).1 hp
    by_cases hxp : x = p
    · subst hxp
      rw [update_self]
      by_cases htn : t = new
      · rw [htn, update_self]
        exact ⟨fun _ => ⟨hpL.1, hpL.2.1, rfl⟩, fun _ => List.mem_cons_self⟩
      · rw [update_of_ne htn]
        refine ⟨fun hmem => ?_, fun hx => absurd hx.2.2.symm htn⟩
        by_cases htc : t = cur
        · rw [htc, update_self] at hmem
          exact absurd hmem (List.nodup_cons.1 hnodup).1
        · rw [update_of_ne htc] at hmem
          exact absurd (h.kid_ne ht hcur hmem hp) htc
    · rw [update_of_ne hxp, ← h.kid t ht x]
      by_cases htn : t = new
      · rw [htn, update_self, List.mem_cons]
        exact ⟨fun hx => hx.resolve_left hxp, .inr⟩
      · rw [update_of_ne htn]
        by_cases htc : t = cur
        · rw [htc, update_self, hk, List.mem_cons]
          exact ⟨.inr, fun hx => hx.resolve_left hxp⟩
        · rw [update_of_ne htc]

end WF

end Stores

/-! ## Ancestors -/

/-- The parent links lead from `p` to `a`. -/
inductive Below (pptr : α → α) (a : α) : α → Prop
  | refl : Below pptr a a
  | step {p : α} : Below pptr a (pptr p) → Below pptr a p

namespace Below

variable {pptr pptr' : α → α} {a b p : α}

/-- **A node gets another parent**, which is not below it. -/
theorem setParent [DecidableEq α] {q : α} (h : Below pptr a p) (hq : Below pptr a q)
    (hnot : ¬ Below pptr b q) : Below (update pptr b q) a p := by
  -- the way from `q` does not go through the node
  have hfree : ∀ x, Below pptr a x → ¬ Below pptr b x → Below (update pptr b q) a x := by
    intro x hx
    induction hx with
    | refl => exact fun _ => .refl
    | @step x _ ih =>
      intro hbx
      have hxb : x ≠ b := fun heq => hbx (heq ▸ .refl)
      refine .step ?_
      rw [update_of_ne hxb]
      exact ih fun hb => hbx (.step hb)
  induction h with
  | refl => exact .refl
  | @step p _ ih =>
    by_cases hpb : p = b
    · refine .step ?_
      rw [hpb, update_self]
      exact hfree q hq hnot
    · refine .step ?_
      rw [update_of_ne hpb]
      exact ih

end Below

end Forest
