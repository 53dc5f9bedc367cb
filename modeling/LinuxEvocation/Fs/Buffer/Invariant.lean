import LinuxEvocation.Fs.Buffer.Growth

/-!
# The free list over whole runs

`remove_from_free_list` leaves `free_list` pointing at the head it removes when that head is the
only one, although `grow_buffers` knows how to start from an empty list.  As long as `try_to_free`
does not free the last page, the free list is a circle of exactly the heads that have a buffer.

* `Good` — the invariant; `Good.step` — each step keeps it.
* `free_list_ok_of_reach` — the free list in every state of every run that keeps a page.
* `free_list_dangles` — the run that frees the page of `buffer_init`.
-/

namespace LinuxEvocation.Fs.Buffer

open LinuxEvocation.Mm LinkedList Transition

/-! ## The invariant -/

/-- The lists of `v` are those of `s`, no head is on its way, and the counters are right. -/
structure Good (s : State) (v : View) : Prop where
  links : Links s v
  loose : v.loose = []
  limbo : v.limbo = []
  nr : s.nrBuffers = v.ring.length
  mem : s.buffermem = pageSize * v.groups.length
  held : s.held.Perm (v.own.map Chain.first)
  made : ∀ c ∈ v.own, c.heads ≠ []

namespace Good

variable {s : State} {v : View} {bh : Nat}

theorem inUse_iff (h : Good s v) : InUse s bh ↔ bh ∈ v.ring := by
  rw [InUse, h.nr, Int.toNat_natCast, h.links.free.walk_eq]

theorem ring_perm (h : Good s v) : v.ring.Perm v.grouped := by
  have hcover := h.links.cover
  rw [h.loose, List.append_nil] at hcover
  exact hcover

theorem first_mem (h : Good s v) {c : Chain} (hc : c ∈ v.own) :
    ∃ t, c.heads = c.first :: t := by
  have hthreads := (h.links.own c hc).1
  cases hheads : c.heads with
  | nil => exact absurd hheads (h.made c hc)
  | cons y t =>
    rw [hheads] at hthreads
    exact ⟨t, by rw [hthreads.1]⟩

theorem group_of_mem (h : Good s v) (hbh : bh ∈ v.ring) : ∃ g ∈ v.groups, bh ∈ g.heads := by
  obtain ⟨l, hl, hmem⟩ := List.mem_flatten.1 (h.ring_perm.mem_iff.1 hbh)
  obtain ⟨g, hg, rfl⟩ := List.mem_map.1 hl
  exact ⟨g, hg, hmem⟩

theorem pageInUse_iff (h : Good s v) {page : Nat} :
    PageInUse s page ↔ page ∈ v.groups.map Group.page := by
  constructor
  · rintro ⟨bh, hbh, rfl⟩
    obtain ⟨g, hg, hmem⟩ := h.group_of_mem (h.inUse_iff.1 hbh)
    rw [(h.links.groups g hg).2 bh hmem]
    exact List.mem_map_of_mem hg
  · intro hpage
    obtain ⟨g, hg, rfl⟩ := List.mem_map.1 hpage
    obtain ⟨y, t, hy⟩ := List.exists_cons_of_ne_nil (h.links.groups g hg).1.1
    have hmem : y ∈ g.heads := by
      rw [hy]
      exact List.mem_cons_self
    exact ⟨y, h.inUse_iff.2 (h.links.mem_ring_of_group hg hmem), (h.links.groups g hg).2 y hmem⟩

theorem pageHeld_iff (h : Good s v) {page : Nat} :
    PageHeld s page ↔ page ∈ v.own.map Chain.page := by
  constructor
  · rintro ⟨bh, hbh, rfl⟩
    obtain ⟨c, hc, rfl⟩ := List.mem_map.1 (h.held.mem_iff.1 hbh)
    obtain ⟨t, ht⟩ := h.first_mem hc
    rw [(h.links.own c hc).2 c.first (by rw [ht]; exact List.mem_cons_self)]
    exact List.mem_map_of_mem hc
  · intro hpage
    obtain ⟨c, hc, rfl⟩ := List.mem_map.1 hpage
    obtain ⟨t, ht⟩ := h.first_mem hc
    exact ⟨c.first, h.held.mem_iff.2 (List.mem_map_of_mem hc),
      (h.links.own c hc).2 c.first (by rw [ht]; exact List.mem_cons_self)⟩

theorem fresh (h : Good s v) {page : Nat} (hpage : FreshPage s page) :
    page ∉ v.groups.map Group.page ++ v.own.map Chain.page := by
  rw [List.mem_append, ← h.pageInUse_iff, ← h.pageHeld_iff, not_or]
  exact hpage.2

end Good

/-! ## The steps -/

namespace Good

variable {s : State} {v : View} {bh : Nat}

/-- A page made is about to enter the cache. -/
theorem entering (h : Links s v) (hlimbo : v.limbo = []) (hloose : v.loose = []) {page : Nat}
    {t : List Nat} {own : List Chain} (hown : v.own = ⟨page, bh, bh :: t⟩ :: own) :
    Entering s v page bh [] bh (bh :: t) own := by
  have hmem : (⟨page, bh, bh :: t⟩ : Chain) ∈ v.own := by
    rw [hown]
    exact List.mem_cons_self
  exact ⟨h, hlimbo, hown, by rw [hloose], (h.own _ hmem).1, h.chain_nodup hmem, by simp⟩

theorem pageAdded {s₁ s' : State} {v₁ v' : View} {page : Nat} {own : List Chain}
    (hadd : PageAdded s₁ v₁ page own s' v') (hgroups : v₁.groups = v.groups)
    (hnr : s₁.nrBuffers = v₁.ring.length) (hmem : s₁.buffermem = pageSize * v.groups.length)
    (hheld : s₁.held.Perm (own.map Chain.first)) (hmade : ∀ c ∈ own, c.heads ≠ []) :
    Good s' v' := by
  refine ⟨hadd.links, hadd.loose, hadd.limbo, ?_, ?_, ?_, ?_⟩
  · have := hadd.nr
    omega
  · obtain ⟨l, hl⟩ := hadd.groups
    rw [hadd.mem, hmem, hl, hgroups, List.length_cons]
    push_cast
    ring
  · rw [hadd.held, hadd.own]
    exact hheld
  · rw [hadd.own]
    exact hmade

theorem growBuffers (h : Good s v) {size page : Nat} {more : Nat → Option (List Nat)}
    (hpage : FreshPage s page) (hfresh : FreshHeads s more) {s' : State}
    (hs' : growBuffers size page more s = some s') : ∃ v', Good s' v' := by
  unfold Buffer.growBuffers at hs'
  split at hs'
  · cases hs'
    exact ⟨v, h⟩
  split at hs'
  · cases hs'
    exact ⟨v, h⟩
  obtain ⟨s₁, bh, hcreate, hkept, hr⟩ := createBuffers_links size hpage.1 h.links h.limbo
    (h.fresh hpage) hfresh
  rw [hcreate] at hs'
  dsimp only at hs'
  rcases hr with ⟨hnull, u, hu⟩ | ⟨hnull, u, t, hu⟩
  · rw [if_pos hnull] at hs'
    cases hs'
    refine ⟨_, hu, h.loose, h.limbo, ?_, ?_, ?_, h.made⟩
    · rw [hkept.nrBuffers, h.nr]
    · rw [hkept.buffermem, h.mem]
    · rw [hkept.held]
      exact h.held
  · rw [if_neg hnull] at hs'
    have hent := entering hu h.limbo h.loose rfl
    have hlen := hu.length_le (c := ⟨page, bh, bh :: t⟩) List.mem_cons_self
    obtain ⟨s₂, v₂, hloop, hadd⟩ := spliceLoop_links hent hlen
    rw [hloop] at hs'
    cases hs'
    refine ⟨v₂, pageAdded hadd rfl ?_ ?_ ?_ h.made⟩
    · rw [hkept.nrBuffers, h.nr]
    · rw [hkept.buffermem, h.mem]
    · rw [hkept.held]
      exact h.held

theorem makeAligned (h : Good s v) {size page : Nat} {more : Nat → Option (List Nat)}
    (hpage : FreshPage s page) (hfresh : FreshHeads s more) :
    ∃ v', Good (makeAligned page size more s) v' := by
  obtain ⟨s₁, bh, hcreate, hkept, hr⟩ := createBuffers_links size hpage.1 h.links h.limbo
    (h.fresh hpage) hfresh
  unfold Buffer.makeAligned
  rw [hcreate]
  dsimp only
  rcases hr with ⟨hnull, u, hu⟩ | ⟨hnull, u, t, hu⟩
  · rw [if_pos hnull]
    refine ⟨_, hu, h.loose, h.limbo, ?_, ?_, ?_, h.made⟩
    · rw [hkept.nrBuffers, h.nr]
    · rw [hkept.buffermem, h.mem]
    · rw [hkept.held]
      exact h.held
  · rw [if_neg hnull]
    refine ⟨_, hu.touch _ _ _ _ _ _, h.loose, h.limbo, ?_, ?_, ?_, ?_⟩
    · show s₁.nrBuffers = _
      rw [hkept.nrBuffers, h.nr]
    · show s₁.buffermem = _
      rw [hkept.buffermem, h.mem]
    · show (bh :: s₁.held).Perm (bh :: v.own.map Chain.first)
      rw [hkept.held]
      exact h.held.cons bh
    · intro c hc
      rcases List.mem_cons.1 hc with rfl | hc
      · simp
      · exact h.made c hc

/-- The page that starts with `bh` is taken from those held. -/
theorem release (h : Good s v) (hbh : bh ∈ s.held) :
    ∃ page t own, v.own.Perm (⟨page, bh, bh :: t⟩ :: own) ∧
      (s.held.erase bh).Perm (own.map Chain.first) ∧ (∀ c ∈ own, c.heads ≠ []) ∧
      Links { s with held := s.held.erase bh }
        { v with own := ⟨page, bh, bh :: t⟩ :: own } := by
  obtain ⟨c, hc, rfl⟩ := List.mem_map.1 (h.held.mem_iff.1 hbh)
  obtain ⟨t, ht⟩ := h.first_mem hc
  obtain ⟨o₁, o₂, hsplit⟩ := List.append_of_mem hc
  have hperm : v.own.Perm (c :: (o₁ ++ o₂)) := by
    rw [hsplit]
    exact List.perm_middle
  have heta : c = ⟨c.page, c.first, c.first :: t⟩ := by
    rw [← ht]
  refine ⟨c.page, t, o₁ ++ o₂, heta ▸ hperm, ?_, fun c' hc' => ?_, ?_⟩
  · have hheld := (h.held.trans (hperm.map Chain.first)).erase c.first
    rw [List.map_cons, List.erase_cons_head] at hheld
    exact hheld
  · exact h.made c' (hperm.mem_iff.2 (List.mem_cons_of_mem c hc'))
  · have hre := h.links.reorder (List.Perm.refl _) (heta ▸ hperm.symm)
    exact hre.touch _ _ _ _ _ _

theorem loadAligned (h : Good s v) (hbh : bh ∈ s.held) {dev : Nat} {b : List Nat} {s' : State}
    (hs' : loadAligned bh dev b s = some s') : ∃ v', Good s' v' := by
  obtain ⟨page, t, own, hperm, hheld, hmade, hlinks⟩ := h.release hbh
  have hlen := hlinks.length_le (c := ⟨page, bh, bh :: t⟩) List.mem_cons_self
  by_cases hne : v.ring = []
  · -- nothing can be put behind the last head of an empty list
    have hnull : s.free.freeList = 0 := h.links.free.eq_nil_iff.2 hne
    exfalso
    obtain ⟨k, hk⟩ : ∃ k, s.heads.length = k + 1 := ⟨s.heads.length - 1, by
      simp only [List.length_cons] at hlen
      omega⟩
    unfold Buffer.loadAligned at hs'
    rw [hk, loadLoop] at hs'
    unfold insertIntoQueues addToBack at hs'
    rw [if_pos (.inl hnull)] at hs'
    exact absurd hs' (by simp)
  · have hent := entering hlinks h.limbo h.loose rfl
    obtain ⟨s₂, v₂, hloop, hadd⟩ := loadLoop_links dev b hent hne hlen
    unfold Buffer.loadAligned at hs'
    rw [hloop] at hs'
    cases hs'
    exact ⟨v₂, pageAdded hadd rfl h.nr h.mem hheld hmade⟩

theorem notAligned (h : Good s v) (hbh : bh ∈ s.held) : ∃ v', Good (notAligned bh s) v' := by
  obtain ⟨page, t, own, hperm, hheld, hmade, hlinks⟩ := h.release hbh
  have hlen := hlinks.length_le (c := ⟨page, bh, bh :: t⟩) List.mem_cons_self
  obtain ⟨⟨u, hu⟩, hkept⟩ := noGrow_links hlinks h.limbo rfl hlen
  refine ⟨_, hu, h.loose, h.limbo, ?_, ?_, ?_, hmade⟩
  · show (noGrow _ _ _).nrBuffers = _
    rw [hkept.nrBuffers]
    exact h.nr
  · show (noGrow _ _ _).buffermem = _
    rw [hkept.buffermem]
    exact h.mem
  · show (noGrow _ _ _).held.Perm _
    rw [hkept.held]
    exact hheld

end Good

namespace Good

variable {s : State} {v : View} {bh : Nat}

/-- The page of a head in use, in front of the others, its heads from `bh` on. -/
theorem pageOf (h : Good s v) (hbh : bh ∈ v.ring) :
    ∃ g groups t, v.groups.Perm (g :: groups) ∧ Loop s.thisPage g.heads ∧
      (∀ y ∈ g.heads, pageMask (s.data y) = g.page) ∧ pageMask (s.data bh) = g.page ∧
      g.page ∉ groups.map Group.page ++ v.own.map Chain.page ∧
      Seg s.thisPage bh (bh :: t) bh ∧ (bh :: t).Perm g.heads ∧
      Links s { v with groups := groups, loose := bh :: t } := by
  obtain ⟨g, hg, hmem⟩ := h.group_of_mem hbh
  obtain ⟨hloop, hpage⟩ := h.links.groups g hg
  obtain ⟨t, hseg, hperm⟩ := hloop.2 bh hmem
  obtain ⟨g₁, g₂, hsplit⟩ := List.append_of_mem hg
  have hgroups : v.groups.Perm (g :: (g₁ ++ g₂)) := by
    rw [hsplit]
    exact List.perm_middle
  have hre := h.links.reorder hgroups.symm (List.Perm.refl _)
  have hpages := hre.pages
  refine ⟨g, g₁ ++ g₂, t, hgroups, hloop, hpage, hpage bh hmem, (List.nodup_cons.1 hpages).1, hseg,
    hperm, ?_⟩
  exact hre.openPage rfl h.loose hperm

/-- A list of one head cannot lose it and get it back. -/
theorem addToBack_alone {f f' : FreeLinks} (h : FreeOk f [bh])
    (hrem : removeFromFreeList bh f = some f') : addToBack bh f' = none := by
  have hnext : f.nextFree bh = bh := h.circle.1
  unfold removeFromFreeList at hrem
  split at hrem
  · exact absurd hrem (by simp)
  · cases hrem
    refine if_pos (.inr ?_)
    have hfirst : f.freeList = bh := h.head_eq
    dsimp only
    rw [if_pos hfirst, hnext]
    exact Function.update_self _ _ _

theorem reassign (h : Good s v) (hbh : InUse s bh) {dev block : Nat} {s' : State}
    (hs' : reassign bh dev block s = some s') : ∃ v', Good s' v' := by
  have hmem := h.inUse_iff.1 hbh
  by_cases htwo : 2 ≤ v.ring.length
  · obtain ⟨g, groups, t, hgroups, hloop, hpage, -, hfresh, -, hperm, hopen⟩ := h.pageOf hmem
    have htouch := hopen.touch (Function.update s.count bh 1) (Function.update s.dirt bh false)
      s.lock s.nrBuffers s.buffermem s.held
    obtain ⟨s₁, hrem, ⟨free, rfl⟩, hleave⟩ := htouch.leave rfl htwo
    have hassign := hleave.assign (x := bh) List.mem_cons_self dev block
    have hne : v.ring.erase bh ≠ [] := by
      intro hnil
      have := List.length_erase_of_mem hmem
      rw [hnil, List.length_nil] at this
      omega
    obtain ⟨s₂, hins, rfl, hback⟩ := hassign.back (x := bh) rfl hne
    unfold Buffer.reassign at hs'
    rw [hrem, Option.bind_some, hins] at hs'
    cases hs'
    have hclosed := hback.regroup (g := g) hperm.symm hloop hpage hfresh
    refine ⟨_, hclosed, rfl, h.limbo, ?_, ?_, h.held, h.made⟩
    · dsimp only
      rw [List.length_append, List.length_erase_of_mem hmem, List.length_singleton, h.nr]
      omega
    · dsimp only
      rw [h.mem, hgroups.length_eq]
  · have hring : v.ring = [bh] := by
      cases hv : v.ring with
      | nil =>
        rw [hv] at hmem
        exact absurd hmem (by simp)
      | cons a l =>
        rw [hv] at hmem htwo
        cases l with
        | nil => rw [List.mem_singleton.1 hmem]
        | cons b l => exact absurd htwo (by simp)
    exfalso
    have hfree := h.links.free
    rw [hring] at hfree
    unfold Buffer.reassign removeFromQueues at hs'
    cases hrem : removeFromFreeList bh s.free with
    | none =>
      rw [hrem] at hs'
      exact absurd hs' (by simp)
    | some f =>
      rw [hrem] at hs'
      simp only [Option.map_some, Option.bind_some, insertIntoQueues,
        addToBack_alone hfree hrem, Option.map_none] at hs'
      exact absurd hs' (by simp)

theorem putLastFree (h : Good s v) (hbh : InUse s bh) {free : FreeLinks}
    (hfree : putLastFree bh s.free = some free) : ∃ v', Good { s with free := free } v' := by
  have hmem := h.inUse_iff.1 hbh
  obtain ⟨f, hf, hok, hsame⟩ := h.links.free.putLast hmem
  rw [hf] at hfree
  cases hfree
  have hperm : (v.ring.erase bh ++ [bh]).Perm v.ring :=
    (List.perm_append_singleton bh _).trans (List.perm_cons_erase hmem).symm
  refine ⟨_, h.links.turn hok hperm hsame, h.loose, h.limbo, ?_, h.mem, h.held, h.made⟩
  dsimp only
  rw [h.nr, hperm.length_eq]

theorem tryToFree (h : Good s v) (hbh : InUse s bh)
    (hkeep : pageIdle s bh s.heads.length bh = true →
      ∃ page, PageInUse s page ∧ page ≠ pageMask (s.data bh)) {s' : State}
    (hs' : tryToFree bh s = some s') : ∃ v', Good s' v' := by
  unfold Buffer.tryToFree at hs'
  split at hs'
  · rename_i hidle
    have hmem := h.inUse_iff.1 hbh
    obtain ⟨g, groups, t, hgroups, -, -, hgpage, -, hseg, hperm, hopen⟩ := h.pageOf hmem
    -- the other page is among the groups that stay
    have hgrouped : View.grouped { v with groups := groups, loose := bh :: t } ≠ [] := by
      obtain ⟨page, hin, hpage⟩ := hkeep hidle
      obtain ⟨g', hg', hpage'⟩ := List.mem_map.1 (h.pageInUse_iff.1 hin)
      have hother : g' ∈ groups := by
        rcases List.mem_cons.1 (hgroups.mem_iff.1 hg') with heq | hother
        · rw [heq, ← hgpage] at hpage'
          exact absurd hpage'.symm hpage
        · exact hother
      intro hnil
      obtain ⟨y, l, hy⟩ := List.exists_cons_of_ne_nil (h.links.groups g' hg').1.1
      have hflat : y ∈ View.grouped { v with groups := groups, loose := bh :: t } :=
        List.mem_flatten.2 ⟨g'.heads, List.mem_map_of_mem hother, by rw [hy]; exact List.mem_cons_self⟩
      rw [hnil] at hflat
      exact absurd hflat (by simp)
    have hnodup : (bh :: t).Nodup := by
      have hall := hopen.cover.nodup_iff.1 hopen.free.nodup
      exact (List.nodup_append.1 hall).2.1
    have hfuel : t.length < s.heads.length := by
      have hlen := hopen.cover.length_eq
      rw [← hopen.perm.length_eq]
      simp only [List.length_append, List.length_cons] at hlen ⊢
      omega
    obtain ⟨s₁, v₁, hloop, hleave, hmem'⟩ := freeLoop_links hopen h.limbo rfl hseg
      (List.nodup_cons.1 hnodup).1 hgrouped hfuel
    rw [hloop] at hs'
    cases hs'
    refine ⟨v₁, hleave.links, hleave.loose, hleave.limbo, ?_, ?_, ?_, ?_⟩
    · have hnr := hleave.nr
      have := h.nr
      dsimp only at hnr
      omega
    · rw [hmem', hleave.groups, h.mem, hgroups.length_eq, List.length_cons]
      push_cast
      ring
    · rw [hleave.held, hleave.own]
      exact h.held
    · rw [hleave.own]
      exact h.made
  · cases hs'
    exact ⟨v, h⟩

end Good

/-- A page of buffers is freed only while another one stays in the cache. -/
def KeepsPage (s : State) : Event → Prop
  | .tryToFree bh => pageIdle s bh s.heads.length bh = true →
      ∃ page, PageInUse s page ∧ page ≠ pageMask (s.data bh)
  | _ => True

/-- **Each step keeps the invariant.** -/
theorem Good.step {s s' : State} {v : View} {e : Event} (h : Good s v) (hallowed : Allowed s e)
    (hkeep : KeepsPage s e) (hs' : step s e = some s') : ∃ v', Good s' v' := by
  cases e with
  | growBuffers size page more => exact h.growBuffers hallowed.1 hallowed.2 hs'
  | makeAligned address size more =>
    cases hs'
    exact h.makeAligned hallowed.1 hallowed.2
  | loadAligned bh dev b => exact h.loadAligned hallowed hs'
  | notAligned bh =>
    cases hs'
    exact h.notAligned hallowed
  | reassign bh dev block => exact h.reassign hallowed hs'
  | putLastFree bh =>
    obtain ⟨free, hfree, rfl⟩ := Option.map_eq_some_iff.1 hs'
    exact h.putLastFree hallowed hfree
  | removeFromHashQueue bh =>
    cases hs'
    exact ⟨_, h.links.unhash (h.inUse_iff.1 hallowed), h.loose, h.limbo, h.nr, h.mem, h.held,
      h.made⟩
  | tryToFree bh => exact h.tryToFree hallowed hkeep hs'
  | touch bh count dirt lock =>
    cases hs'
    exact ⟨v, h.links.touch _ _ _ _ _ _, h.loose, h.limbo, h.nr, h.mem, h.held, h.made⟩

/-! ## The free list -/

/-- The heads of the first `nr_buffers` steps along `free_list`. -/
def State.ring (s : State) : List Nat := walk s.free s.nrBuffers.toNat s.free.freeList

/-- `free_list` is a circle of the `nr_buffers` heads that have a buffer, the hash queues lead to
no other heads, and `buffermem` counts their pages. -/
structure FreeListOk (s : State) : Prop where
  nonneg : 0 ≤ s.nrBuffers
  nodup : s.ring.Nodup
  inverse : ∀ bh, InUse s bh →
    s.free.prevFree (s.free.nextFree bh) = bh ∧ s.free.nextFree (s.free.prevFree bh) = bh
  closed : ∀ bh, InUse s bh → InUse s (s.free.nextFree bh) ∧ InUse s (s.free.prevFree bh)
  reached : ∀ bh, OnList s.free.nextFree s.free.freeList bh → InUse s bh
  existing : ∀ bh, InUse s bh ↔ Existing s bh
  hashed : ∀ i bh, OnList s.hash.next (s.hash.table i) bh → InUse s bh
  buffermem : s.buffermem =
    pageSize * ((s.ring.map fun bh => pageMask (s.data bh)).dedup.length : Nat)

theorem onList_iff {next : Nat → Nat} {p x : Nat} {l : List Nat} (h : Threads 0 next p l) :
    OnList next p x ↔ x ∈ l := by
  constructor
  · intro hon
    induction hon generalizing l with
    | here hp =>
      obtain ⟨t, rfl, -⟩ := h.exists_cons hp
      exact List.mem_cons_self
    | there hp _ ih =>
      obtain ⟨t, rfl, ht⟩ := h.exists_cons hp
      exact List.mem_cons_of_mem _ (ih ht)
  · intro hx
    induction l generalizing p with
    | nil => exact absurd hx (by simp)
    | cons y l ih =>
      obtain ⟨rfl, hy, ht⟩ := h
      rcases List.mem_cons.1 hx with rfl | hx
      · exact .here hy
      · exact .there hy (ih ht hx)

theorem FreeOk.reached {f : FreeLinks} {ring : List Nat} (h : FreeOk f ring) {p x : Nat}
    (hp : p ∈ ring) (hon : OnList f.nextFree p x) : x ∈ ring := by
  induction hon with
  | here _ => exact hp
  | there _ _ ih => exact ih (h.link_mem hp).1

/-- The heads of a page lie on that page, and different pages have different numbers. -/
theorem dedup_pages (data : Nat → Nat) {groups : List Group}
    (hgroups : ∀ g ∈ groups, g.heads ≠ [] ∧ ∀ x ∈ g.heads, pageMask (data x) = g.page)
    (hnodup : (groups.map Group.page).Nodup) :
    ((groups.map Group.heads).flatten.map fun bh => pageMask (data bh)).dedup.length =
      groups.length := by
  have hset : ∀ page, page ∈ ((groups.map Group.heads).flatten.map fun bh =>
      pageMask (data bh)).dedup ↔ page ∈ groups.map Group.page := by
    intro page
    rw [List.mem_dedup]
    constructor
    · intro hpage
      obtain ⟨x, hx, rfl⟩ := List.mem_map.1 hpage
      obtain ⟨l, hl, hxl⟩ := List.mem_flatten.1 hx
      obtain ⟨g, hg, rfl⟩ := List.mem_map.1 hl
      rw [(hgroups g hg).2 x hxl]
      exact List.mem_map_of_mem hg
    · intro hpage
      obtain ⟨g, hg, rfl⟩ := List.mem_map.1 hpage
      obtain ⟨x, t, hx⟩ := List.exists_cons_of_ne_nil (hgroups g hg).1
      have hxg : x ∈ g.heads := by
        rw [hx]
        exact List.mem_cons_self
      refine List.mem_map.2 ⟨x, List.mem_flatten.2 ⟨_, List.mem_map_of_mem hg, hxg⟩, ?_⟩
      exact (hgroups g hg).2 x hxg
  have hperm := (List.perm_ext_iff_of_nodup (List.nodup_dedup _) hnodup).2 hset
  rw [hperm.length_eq, List.length_map]

theorem Good.freeListOk {s : State} {v : View} (h : Good s v) : FreeListOk s := by
  have hring : s.ring = v.ring := by
    rw [State.ring, h.nr, Int.toNat_natCast, h.links.free.walk_eq]
  refine ⟨by rw [h.nr]; exact Int.natCast_nonneg _, by rw [hring]; exact h.links.free.nodup,
    fun bh hbh => ?_, fun bh hbh => ?_, fun bh hbh => ?_, fun bh => ?_, fun i bh hbh => ?_, ?_⟩
  · exact h.links.free.circle.inverse (h.inUse_iff.1 hbh)
  · obtain ⟨h1, h2⟩ := h.links.free.link_mem (h.inUse_iff.1 hbh)
    exact ⟨h.inUse_iff.2 h1, h.inUse_iff.2 h2⟩
  · by_cases hne : v.ring = []
    · have hnull : s.free.freeList = 0 := h.links.free.eq_nil_iff.2 hne
      cases hbh with
      | here hp | there hp _ => exact absurd hnull hp
    · exact h.inUse_iff.2 (h.links.free.reached (h.links.free.freeList_mem hne) hbh)
  · rw [h.inUse_iff]
    constructor
    · intro hmem
      obtain ⟨h1, h2, -⟩ := h.links.ring_off hmem
      refine ⟨h.links.mem_heads.2 (.inl hmem), ?_, fun first hfirst hon => ?_⟩
      · rw [onList_iff h.links.unused]
        exact h1
      · obtain ⟨c, hc, rfl⟩ := List.mem_map.1 (h.held.mem_iff.1 hfirst)
        rw [onList_iff (h.links.own c hc).1] at hon
        exact h2 (Links.mem_owned hc hon)
    · rintro ⟨hheads, hunused, hheld⟩
      rw [onList_iff h.links.unused] at hunused
      rcases h.links.mem_heads.1 hheads with hmem | hmem | hmem | hmem
      · exact hmem
      · exact absurd hmem hunused
      · obtain ⟨l, hl, hx⟩ := List.mem_flatten.1 hmem
        obtain ⟨c, hc, rfl⟩ := List.mem_map.1 hl
        have hfirst : c.first ∈ s.held := h.held.mem_iff.2 (List.mem_map_of_mem hc)
        exact absurd ((onList_iff (h.links.own c hc).1).2 hx) (hheld c.first hfirst)
      · rw [h.limbo] at hmem
        exact absurd hmem (by simp)
  · rw [onList_iff (h.links.hash.list i).threads] at hbh
    exact h.inUse_iff.2 (h.links.hash.mem i bh hbh).1
  · rw [h.mem, hring]
    have hdedup := dedup_pages s.data
      (fun g hg => ⟨(h.links.groups g hg).1.1, (h.links.groups g hg).2⟩)
      (List.nodup_append.1 h.links.pages).1
    have hperm := ((h.ring_perm.map fun bh => pageMask (s.data bh)).dedup).length_eq
    rw [hperm]
    rw [View.grouped, hdedup]

/-- Before `buffer_init` there are no heads. -/
theorem Good.init (free : FreeLinks) (hash : HashLinks) (fields : State) :
    Good (State.init free hash fields) ⟨[], fun _ => [], [], [], [], [], []⟩ := by
  refine ⟨⟨⟨trivial, List.nodup_nil, rfl, by simp⟩, ⟨fun i => rfl, fun i => List.nodup_nil, ?_, ?_,
    by simp⟩, rfl, List.Perm.refl _, List.nodup_nil, ?_, ?_, List.Perm.refl _, ?_, ?_,
    List.nodup_nil⟩, rfl, rfl, rfl, rfl, List.Perm.refl _, ?_⟩
  all_goals simp [State.init, View.owned]

/-- **The free list is well formed in every state of a run that keeps a page of buffers.** -/
theorem free_list_ok_of_reach (free : FreeLinks) (hash : HashLinks) (fields : State) {s : State}
    (h : Reach step (fun s e => Allowed s e ∧ KeepsPage s e) (State.init free hash fields) s) :
    FreeListOk s := by
  have hgood : ∃ v, Good s v := by
    refine h.invariant (I := fun s => ∃ v, Good s v) ⟨_, Good.init free hash fields⟩ ?_
    rintro s e s' ⟨v, hv⟩ ⟨hallowed, hkeep⟩ hs'
    exact hv.step hallowed hkeep hs'
  obtain ⟨v, hv⟩ := hgood
  exact hv.freeListOk

/-! ## Two runs -/

/-- Memory full of zeros. -/
def State.blank : State :=
  { free := ⟨fun _ => 0, fun _ => 0, 0⟩
    hash := ⟨fun _ => 0, fun _ => 0, fun _ => 0⟩
    thisPage := fun _ => 0
    data := fun _ => 0
    size := fun _ => 0
    blocknr := fun _ => 0
    dev := fun _ => 0
    count := fun _ => 0
    dirt := fun _ => false
    lock := fun _ => false
    unusedList := 0
    nrBuffers := 0
    buffermem := 0
    heads := []
    held := [] }

def State.boot : State := State.init State.blank.free State.blank.hash State.blank

/-- `grow_buffers` gets a page, and a page of heads. -/
def growPage (page : Nat) (heads : List Nat) : Event :=
  .growBuffers 1024 page fun n => if n = 0 then some heads else none

theorem growPage_allowed {s : State} {page : Nat} {heads : List Nat} (hpage : FreshPage s page)
    (hnodup : heads.Nodup) (hnew : ∀ bh ∈ heads, bh ≠ 0 ∧ bh ∉ s.heads) :
    Allowed s (growPage page heads) := by
  refine ⟨hpage, fun n l hl => ?_, fun n n' l l' hne hl hl' => ?_⟩
  · obtain rfl := Option.some.inj (Option.ite_none_right_eq_some.1 hl).2
    exact ⟨hnodup, hnew⟩
  · have hn := (Option.ite_none_right_eq_some.1 hl).1
    have hn' := (Option.ite_none_right_eq_some.1 hl').1
    omega

/-- `buffer_init` gets the page at 8192 and the heads 1, 2, 3, 4. -/
def bootEvent : Event := growPage 8192 [1, 2, 3, 4]

theorem bootEvent_allowed : Allowed State.boot bootEvent := by
  refine growPage_allowed ⟨rfl, ?_, ?_⟩ (by decide) (by decide)
  · rintro ⟨bh, hbh, -⟩
    exact absurd hbh (by simp [InUse, State.boot, State.init, walk])
  · rintro ⟨bh, hbh, -⟩
    exact absurd hbh (by simp [State.boot, State.init])

theorem step_getD {s : State} {e : Event} (h : (step s e).isSome = true) :
    step s e = some ((step s e).getD s) := by
  obtain ⟨t, ht⟩ := Option.isSome_iff_exists.1 h
  rw [ht]
  rfl

/-- The state after `buffer_init`. -/
def State.booted : State := (step State.boot bootEvent).getD State.boot

theorem step_boot : step State.boot bootEvent = some State.booted := step_getD (by decide +kernel)

/-- A second page. -/
def State.grown : State := (step State.booted (growPage 12288 [5, 6, 7, 8])).getD State.booted

/-- The first page is freed while there is the second one. -/
theorem free_list_ok_booted : ∃ s, Reach step (fun s e => Allowed s e ∧ KeepsPage s e) State.boot s ∧
    s.nrBuffers = 4 ∧ FreeListOk s := by
  have hfresh : FreshPage State.booted 12288 := by
    refine ⟨rfl, ?_, ?_⟩
    · rintro ⟨bh, hbh, hpage⟩
      have hother : ∀ bh ∈ walk State.booted.free State.booted.nrBuffers.toNat
          State.booted.free.freeList, pageMask (State.booted.data bh) ≠ 12288 := by
        decide +kernel
      exact hother bh hbh hpage
    · rintro ⟨bh, hbh, -⟩
      have hnone : State.booted.held = [] := by decide +kernel
      rw [hnone] at hbh
      cases hbh
  have hfreed : (step State.grown (.tryToFree 4)).map (fun s => s.nrBuffers) = some 4 := by
    decide +kernel
  obtain ⟨s, hs, hnr⟩ := Option.map_eq_some_iff.1 hfreed
  have hreach : Reach step (fun s e => Allowed s e ∧ KeepsPage s e) State.boot s := by
    refine ((Reach.init.step bootEvent ⟨bootEvent_allowed, trivial⟩ step_boot).step
      (growPage 12288 [5, 6, 7, 8]) ⟨growPage_allowed hfresh (by decide) (by decide +kernel), trivial⟩
      (step_getD (by decide +kernel))).step (.tryToFree 4) ⟨?_, fun _ => ⟨12288, ⟨8, ?_, ?_⟩, ?_⟩⟩ hs
    · show 4 ∈ walk State.grown.free State.grown.nrBuffers.toNat State.grown.free.freeList
      decide +kernel
    · show 8 ∈ walk State.grown.free State.grown.nrBuffers.toNat State.grown.free.freeList
      decide +kernel
    · decide +kernel
    · decide +kernel
  exact ⟨s, hreach, hnr, free_list_ok_of_reach State.blank.free State.blank.hash State.blank hreach⟩

/-- **Freeing the last page leaves `free_list` at a head on `unused_list`.** -/
theorem free_list_dangles :
    ∃ s, Reach step Allowed State.boot s ∧ s.free.freeList = s.unusedList ∧ s.nrBuffers = 0 ∧
      ¬ FreeListOk s := by
  have hsome : (step State.booted (.tryToFree 4)).isSome = true := by decide +kernel
  obtain ⟨s, hs⟩ := Option.isSome_iff_exists.1 hsome
  have hmap : (step State.booted (.tryToFree 4)).map
      (fun s => (s.free.freeList, s.unusedList, s.nrBuffers)) = some (3, 3, 0) := by
    decide +kernel
  rw [hs, Option.map_some, Option.some_inj, Prod.mk.injEq, Prod.mk.injEq] at hmap
  obtain ⟨hfree, hunused, hnr⟩ := hmap
  refine ⟨s, ?_, hfree.trans hunused.symm, hnr, fun hok => ?_⟩
  · refine .step (.tryToFree 4) (.step bootEvent .init bootEvent_allowed step_boot) ?_ hs
    show InUse State.booted 4
    have hmem : State.booted.ring = [4, 3, 2, 1] := by decide +kernel
    show 4 ∈ State.booted.ring
    rw [hmem]
    exact List.mem_cons_self
  · have hin := hok.reached 3 (by rw [hfree]; exact .here (by decide))
    rw [InUse, hnr] at hin
    exact absurd hin (by simp [walk])

end LinuxEvocation.Fs.Buffer
