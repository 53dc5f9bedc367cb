import LinuxEvocation.Fs.Buffer.FreeList

/-!
# Where the buffer heads are

A buffer head is on `free_list`, on `unused_list`, on the list of a page that is being made, or in
the hands of a function that moves it.  The heads of a page in the cache form a loop through
`b_this_page`.

* `View`, `Links` — the lists the links of a state thread, and that they are all the heads.
* `Links.fromUnused`, `Links.toUnused`, `Links.fromOwn`, `Links.toOwn`, `Links.front`,
  `Links.back`, `Links.leave` — the moves of one head.
-/

namespace LinuxEvocation.Fs.Buffer

open Function (update update_of_ne update_self)
open LinuxEvocation.Mm LinkedList

/-- A page in the cache and its heads. -/
structure Group where
  page : Nat
  heads : List Nat

/-- A page that is being made: the heads obtained so far, from `first` on. -/
structure Chain where
  page : Nat
  first : Nat
  heads : List Nat

/-- The lists that the links of a state thread. -/
structure View where
  /-- The heads on `free_list`. -/
  ring : List Nat
  /-- The hash queues. -/
  on : Nat → List Nat
  /-- The heads on `unused_list`. -/
  unused : List Nat
  groups : List Group
  own : List Chain
  /-- The heads on `free_list` of a page that is entering or leaving the cache. -/
  loose : List Nat
  /-- The heads on no list. -/
  limbo : List Nat

namespace View

/-- The heads of the pages that are being made. -/
def owned (v : View) : List Nat := (v.own.map Chain.heads).flatten

/-- The heads of the pages in the cache. -/
def grouped (v : View) : List Nat := (v.groups.map Group.heads).flatten

end View

/-- The links of `s` thread the lists of `v`, and these are all the heads. -/
structure Links (s : State) (v : View) : Prop where
  free : FreeOk s.free v.ring
  hash : HashOk s.hash s.queue v.ring v.on
  unused : Threads 0 s.free.nextFree s.unusedList v.unused
  perm : (v.ring ++ (v.unused ++ (v.owned ++ v.limbo))).Perm s.heads
  nodup : s.heads.Nodup
  pos : 0 ∉ s.heads
  clean : ∀ x, x ∈ v.unused ∨ x ∈ v.owned → s.hash.next x = 0 ∧ s.hash.prev x = 0
  cover : v.ring.Perm (v.grouped ++ v.loose)
  groups : ∀ g ∈ v.groups,
    Loop s.thisPage g.heads ∧ ∀ x ∈ g.heads, pageMask (s.data x) = g.page
  own : ∀ c ∈ v.own,
    Threads 0 s.thisPage c.first c.heads ∧ ∀ x ∈ c.heads, pageMask (s.data x) = c.page
  pages : (v.groups.map Group.page ++ v.own.map Chain.page).Nodup

namespace Links

variable {s : State} {v : View} {x : Nat}

theorem all_nodup (h : Links s v) : (v.ring ++ (v.unused ++ (v.owned ++ v.limbo))).Nodup :=
  h.perm.nodup_iff.2 h.nodup

theorem mem_heads (h : Links s v) :
    x ∈ s.heads ↔ x ∈ v.ring ∨ x ∈ v.unused ∨ x ∈ v.owned ∨ x ∈ v.limbo := by
  rw [← h.perm.mem_iff]
  simp only [List.mem_append]

theorem ne_zero (h : Links s v) (hx : x ∈ s.heads) : x ≠ 0 := fun heq => h.pos (heq ▸ hx)

theorem ring_off (h : Links s v) (hx : x ∈ v.ring) :
    x ∉ v.unused ∧ x ∉ v.owned ∧ x ∉ v.limbo := by
  have hno := (List.nodup_append.1 h.all_nodup).2.2 x hx x
  simp only [List.mem_append, ne_eq, not_true_eq_false, imp_false, not_or] at hno
  exact hno

theorem off_ring (h : Links s v) (hx : x ∈ v.unused ∨ x ∈ v.owned ∨ x ∈ v.limbo) :
    x ∉ v.ring := by
  intro hmem
  obtain ⟨h1, h2, h3⟩ := h.ring_off hmem
  rcases hx with hx | hx | hx
  · exact h1 hx
  · exact h2 hx
  · exact h3 hx

theorem unused_off (h : Links s v) (hx : x ∈ v.unused) : x ∉ v.owned ∧ x ∉ v.limbo := by
  have hno := (List.nodup_append.1 (List.nodup_append.1 h.all_nodup).2.1).2.2 x hx x
  simp only [List.mem_append, ne_eq, not_true_eq_false, imp_false, not_or] at hno
  exact hno

theorem limbo_off (h : Links s v) (hx : x ∈ v.limbo) : x ∉ v.unused ∧ x ∉ v.owned := by
  refine ⟨fun hmem => (h.unused_off hmem).2 hx, fun hmem => ?_⟩
  have hown := (List.nodup_append.1 (List.nodup_append.1 h.all_nodup).2.1).2.1
  exact (List.nodup_append.1 hown).2.2 x hmem x hx rfl

theorem limbo_head {m : List Nat} (h : Links s v) (hlimbo : v.limbo = x :: m) :
    x ∉ v.ring ∧ x ∉ v.unused ∧ x ∉ v.owned ∧ x ≠ 0 := by
  have hx : x ∈ v.limbo := by
    rw [hlimbo]
    exact List.mem_cons_self
  exact ⟨h.off_ring (.inr (.inr hx)), (h.limbo_off hx).1, (h.limbo_off hx).2,
    h.ne_zero (h.mem_heads.2 (.inr (.inr (.inr hx))))⟩

theorem mem_owned {c : Chain} (hc : c ∈ v.own) (hx : x ∈ c.heads) : x ∈ v.owned :=
  List.mem_flatten.2 ⟨c.heads, List.mem_map_of_mem hc, hx⟩

theorem mem_ring_of_group (h : Links s v) {g : Group} (hg : g ∈ v.groups) (hx : x ∈ g.heads) :
    x ∈ v.ring :=
  h.cover.mem_iff.2
    (List.mem_append_left _ (List.mem_flatten.2 ⟨g.heads, List.mem_map_of_mem hg, hx⟩))

/-- Stores to `b_this_page` and `b_data` of heads in no page. -/
theorem groups_congr (h : Links s v) {thisPage data : Nat → Nat}
    (hthis : ∀ y, y ∈ v.ring ∨ y ∈ v.owned → thisPage y = s.thisPage y)
    (hdata : ∀ y, y ∈ v.ring ∨ y ∈ v.owned → data y = s.data y) :
    (∀ g ∈ v.groups, Loop thisPage g.heads ∧ ∀ x ∈ g.heads, pageMask (data x) = g.page) ∧
      ∀ c ∈ v.own,
        Threads 0 thisPage c.first c.heads ∧ ∀ x ∈ c.heads, pageMask (data x) = c.page := by
  refine ⟨fun g hg => ?_, fun c hc => ?_⟩
  · obtain ⟨h1, h2⟩ := h.groups g hg
    refine ⟨h1.congr fun y hy => hthis y (.inl (h.mem_ring_of_group hg hy)), fun y hy => ?_⟩
    rw [hdata y (.inl (h.mem_ring_of_group hg hy))]
    exact h2 y hy
  · obtain ⟨h1, h2⟩ := h.own c hc
    refine ⟨h1.congr fun y hy => hthis y (.inr (mem_owned hc hy)), fun y hy => ?_⟩
    rw [hdata y (.inr (mem_owned hc hy))]
    exact h2 y hy

/-- The order of the pages does not matter. -/
theorem reorder (h : Links s v) {groups : List Group} {own : List Chain}
    (hgroups : groups.Perm v.groups) (hown : own.Perm v.own) :
    Links s { v with groups := groups, own := own } := by
  have howned : ((own.map Chain.heads).flatten).Perm v.owned := (hown.map _).flatten
  have hgrouped : ((groups.map Group.heads).flatten).Perm v.grouped := (hgroups.map _).flatten
  exact
    { h with
      perm := ((List.Perm.refl _).append ((List.Perm.refl _).append
        (howned.append (List.Perm.refl _)))).trans h.perm
      clean := fun x hx => h.clean x (hx.imp_right howned.mem_iff.1)
      cover := h.cover.trans (hgrouped.symm.append (List.Perm.refl _))
      groups := fun g hg => h.groups g (hgroups.mem_iff.1 hg)
      own := fun c hc => h.own c (hown.mem_iff.1 hc)
      pages := (((hgroups.map _).append (hown.map _)).nodup_iff).2 h.pages }

end Links

/-! ## The moves of one head -/

/-- A head changes the list it is on, all heads stay heads. -/
theorem perm_move {ring unused owned limbo ring' unused' owned' limbo' heads : List Nat}
    (h : (ring ++ (unused ++ (owned ++ limbo))).Perm heads)
    (hcount : ∀ a, ring'.count a + unused'.count a + owned'.count a + limbo'.count a =
      ring.count a + unused.count a + owned.count a + limbo.count a) :
    (ring' ++ (unused' ++ (owned' ++ limbo'))).Perm heads := by
  refine List.Perm.trans (List.perm_iff_count.2 fun a => ?_) h
  have := hcount a
  simp only [List.count_append]
  omega

namespace Links

variable {s : State} {v : View} {x page first : Nat} {u m t : List Nat} {own : List Chain}

/-- **A head leaves `unused_list`.** -/
theorem fromUnused (h : Links s v) (hunused : v.unused = x :: u) :
    Links
      { s with
        unusedList := s.free.nextFree x
        free := { s.free with nextFree := update s.free.nextFree x 0 }
        data := update s.data x 0
        size := update s.size x 0 }
      { v with unused := u, limbo := x :: v.limbo } := by
  have hx : x ∈ v.unused := by
    rw [hunused]
    exact List.mem_cons_self
  have hring : x ∉ v.ring := h.off_ring (.inl hx)
  have hown := h.unused_off hx
  have hdata : ∀ y, y ∈ v.ring ∨ y ∈ v.owned → update s.data x 0 y = s.data y := by
    rintro y hy
    refine update_of_ne ?_ _ _
    rintro rfl
    exact hy.elim hring hown.1
  obtain ⟨hgroups, howns⟩ := h.groups_congr (fun _ _ => rfl) hdata
  have hthreads := h.unused
  rw [hunused] at hthreads
  have hxu : x ∉ u := by
    have hnodup := (List.nodup_append.1 (List.nodup_append.1 h.all_nodup).2.1).1
    rw [hunused] at hnodup
    exact (List.nodup_cons.1 hnodup).1
  refine ⟨⟨?_, h.free.nodup, h.free.head_eq, h.free.pos⟩, h.hash, hthreads.2.2.update hxu,
    perm_move h.perm fun a => ?_, h.nodup, h.pos,
    fun y hy => h.clean y (hy.imp_left fun hmem => hunused ▸ List.mem_cons_of_mem x hmem), h.cover,
    hgroups, howns, h.pages⟩
  · refine h.free.circle.congr (fun y hy => update_of_ne ?_ _ _) fun _ _ => rfl
    rintro rfl
    exact hring hy
  · rw [hunused]
    simp only [List.count_cons, View.owned]
    omega

/-- **`put_unused_buffer_head`.** -/
theorem toUnused (h : Links s v) (hlimbo : v.limbo = x :: m) :
    Links (putUnusedBufferHead x s) { v with unused := x :: v.unused, limbo := m } := by
  obtain ⟨hring, hunused, hown, hx0⟩ := h.limbo_head hlimbo
  have hne : ∀ y, y ∈ v.ring ∨ y ∈ v.owned → y ≠ x := by
    rintro y hy rfl
    exact hy.elim hring hown
  obtain ⟨hgroups, howns⟩ := h.groups_congr
    (fun y hy => update_of_ne (hne y hy) 0 s.thisPage)
    fun y hy => update_of_ne (hne y hy) 0 s.data
  refine ⟨⟨?_, h.free.nodup, h.free.head_eq, h.free.pos⟩, ?_, h.unused.push hunused hx0,
    perm_move h.perm fun a => ?_, h.nodup, h.pos, fun y hy => ?_, h.cover, hgroups, howns,
    h.pages⟩
  · exact h.free.circle.congr (fun y hy => update_of_ne (hne y (.inl hy)) _ _)
      fun y hy => update_of_ne (hne y (.inl hy)) _ _
  · have hqueue : ∀ y ∈ v.ring, (putUnusedBufferHead x s).queue y = s.queue y := by
      intro y hy
      show hashfn (update s.dev x 0 y) (update s.blocknr x 0 y) = _
      rw [update_of_ne (hne y (.inl hy)), update_of_ne (hne y (.inl hy))]
      rfl
    refine ⟨h.hash.list_congr rfl fun i y hy => ?_, h.hash.nodup, fun i y hy => ?_,
      fun y hy hnot => ?_, h.hash.pos⟩
    · have hyx := hne y (.inl (h.hash.mem i y hy).1)
      exact ⟨update_of_ne hyx _ _, update_of_ne hyx _ _⟩
    · obtain ⟨h1, h2⟩ := h.hash.mem i y hy
      exact ⟨h1, (hqueue y h1).trans h2⟩
    · rw [hqueue y hy] at hnot
      have hyx := hne y (.inl hy)
      obtain ⟨h1, h2⟩ := h.hash.off y hy hnot
      exact ⟨(update_of_ne hyx _ _).trans h1, (update_of_ne hyx _ _).trans h2⟩
  · rw [hlimbo]
    simp only [List.count_cons, View.owned]
    omega
  · by_cases hyx : y = x
    · subst hyx
      exact ⟨update_self _ _ _, update_self _ _ _⟩
    · have hy' := hy.imp_left fun hmem => (List.mem_cons.1 hmem).resolve_left hyx
      obtain ⟨h1, h2⟩ := h.clean y hy'
      exact ⟨(update_of_ne hyx _ _).trans h1, (update_of_ne hyx _ _).trans h2⟩

/-- **A new head**, on the page that `get_more_buffer_heads` has got. -/
theorem newHead (h : Links s v) (hx : x ∉ s.heads) (hx0 : x ≠ 0) :
    Links { s with heads := x :: s.heads } { v with limbo := x :: v.limbo } := by
  refine ⟨h.free, h.hash, h.unused, ?_, List.nodup_cons.2 ⟨hx, h.nodup⟩, ?_, h.clean, h.cover,
    h.groups, h.own, h.pages⟩
  · refine List.Perm.trans (List.perm_iff_count.2 fun a => ?_) (h.perm.cons x)
    simp only [List.count_append, List.count_cons, View.owned]
    omega
  · rw [List.mem_cons, not_or]
    exact ⟨fun heq => hx0 heq.symm, h.pos⟩

/-- **A head joins the page that is being made**, in front. -/
theorem toOwn (h : Links s v) (hlimbo : v.limbo = x :: m) (hown : v.own = ⟨page, first, t⟩ :: own)
    (hclean : s.hash.next x = 0 ∧ s.hash.prev x = 0) (at_ size : Nat)
    (hpage : pageMask at_ = page) :
    Links
      { s with
        thisPage := update s.thisPage x first
        data := update s.data x at_
        size := update s.size x size }
      { v with own := ⟨page, x, x :: t⟩ :: own, limbo := m } := by
  obtain ⟨hring, -, howned, hx0⟩ := h.limbo_head hlimbo
  have hne : ∀ y, y ∈ v.ring ∨ y ∈ v.owned → y ≠ x := by
    rintro y hy rfl
    exact hy.elim hring howned
  obtain ⟨hgroups, howns⟩ := h.groups_congr
    (fun y hy => update_of_ne (hne y hy) first s.thisPage)
    fun y hy => update_of_ne (hne y hy) at_ s.data
  rw [hown] at howns
  refine ⟨h.free, h.hash, h.unused, perm_move h.perm fun a => ?_, h.nodup, h.pos, fun y hy => ?_,
    h.cover, hgroups, fun c hc => ?_, ?_⟩
  · rw [hlimbo]
    simp only [List.count_cons, View.owned, hown, List.map_cons, List.flatten_cons,
      List.count_append]
    omega
  · by_cases hyx : y = x
    · exact hyx ▸ hclean
    · refine h.clean y (hy.imp_right fun hmem => ?_)
      rw [View.owned, List.map_cons, List.flatten_cons, List.mem_append] at hmem
      rw [View.owned, hown, List.map_cons, List.flatten_cons, List.mem_append]
      exact hmem.imp_left fun hmem => (List.mem_cons.1 hmem).resolve_left hyx
  · rcases List.mem_cons.1 hc with rfl | hc
    · obtain ⟨h1, h2⟩ := howns _ List.mem_cons_self
      refine ⟨⟨rfl, hx0, ?_⟩, fun y hy => ?_⟩
      · dsimp only
        rw [update_self]
        exact h1
      · rcases List.mem_cons.1 hy with rfl | hy
        · dsimp only
          rw [update_self]
          exact hpage
        · exact h2 y hy
    · exact howns c (List.mem_cons_of_mem _ hc)
  · have := h.pages
    rw [hown] at this
    exact this

/-- **A head leaves the page that is being made.** -/
theorem fromOwn (h : Links s v) (hown : v.own = ⟨page, x, x :: t⟩ :: own) :
    Links s { v with own := ⟨page, s.thisPage x, t⟩ :: own, limbo := x :: v.limbo } := by
  have hfirst := h.own ⟨page, x, x :: t⟩ (by rw [hown]; exact List.mem_cons_self)
  refine ⟨h.free, h.hash, h.unused, perm_move h.perm fun a => ?_, h.nodup, h.pos,
    fun y hy => h.clean y (hy.imp_right fun hmem => ?_), h.cover, h.groups, fun c hc => ?_, ?_⟩
  · simp only [List.count_cons, View.owned, hown, List.map_cons, List.flatten_cons,
      List.count_append]
    omega
  · rw [View.owned, List.map_cons, List.flatten_cons, List.mem_append] at hmem
    rw [View.owned, hown, List.map_cons, List.flatten_cons, List.mem_append]
    exact hmem.imp_left (List.mem_cons_of_mem x)
  · rcases List.mem_cons.1 hc with rfl | hc
    · exact ⟨hfirst.1.2.2, fun y hy => hfirst.2 y (List.mem_cons_of_mem x hy)⟩
    · exact h.own c (by rw [hown]; exact List.mem_cons_of_mem _ hc)
  · have := h.pages
    rw [hown] at this
    exact this

theorem begin (h : Links s v) (hfresh : page ∉ v.groups.map Group.page ++ v.own.map Chain.page) :
    Links s { v with own := ⟨page, 0, []⟩ :: v.own } := by
  refine ⟨h.free, h.hash, h.unused, h.perm, h.nodup, h.pos, h.clean, h.cover, h.groups,
    fun c hc => ?_, ?_⟩
  · rcases List.mem_cons.1 hc with rfl | hc
    · exact ⟨rfl, fun y hy => absurd hy (by simp)⟩
    · exact h.own c hc
  · have hperm : (v.groups.map Group.page ++ page :: v.own.map Chain.page).Perm
        (page :: (v.groups.map Group.page ++ v.own.map Chain.page)) := List.perm_middle
    exact (hperm.nodup_iff).2 (List.nodup_cons.2 ⟨hfresh, h.pages⟩)

theorem giveUp (h : Links s v) (hown : v.own = ⟨page, first, []⟩ :: own) :
    Links s { v with own := own } := by
  have howned : v.owned = View.owned { v with own := own } := by
    rw [View.owned, hown]
    rfl
  refine ⟨h.free, h.hash, h.unused, by rw [← howned]; exact h.perm, h.nodup, h.pos,
    by rw [← howned]; exact h.clean, h.cover,
    h.groups, fun c hc => h.own c (by rw [hown]; exact List.mem_cons_of_mem _ hc), ?_⟩
  · refine h.pages.sublist ?_
    rw [hown]
    exact List.Sublist.append_left (List.sublist_cons_self _ _) _

end Links

/-! ## The moves on `free_list` -/

namespace Links

variable {s : State} {v : View} {x page first : Nat} {m t : List Nat} {own : List Chain}

/-- The counters and the flags are not links. -/
theorem touch (h : Links s v) (count : Nat → Nat) (dirt lock : Nat → Bool) (nr mem : Int)
    (held : List Nat) :
    Links
      { s with
        count := count, dirt := dirt, lock := lock, nrBuffers := nr, buffermem := mem,
        held := held } v :=
  ⟨h.free, h.hash, h.unused, h.perm, h.nodup, h.pos, h.clean, h.cover, h.groups, h.own, h.pages⟩

/-- A head that is in no queue gets a block. -/
theorem assign (h : Links s v) (hx : x ∈ v.limbo) (dev block : Nat) :
    Links
      { s with
        dev := update s.dev x dev, blocknr := update s.blocknr x block } v := by
  have hring : x ∉ v.ring := h.off_ring (.inr (.inr hx))
  refine ⟨h.free, h.hash.congr (fun _ => Iff.rfl) fun y hy => ?_, h.unused, h.perm, h.nodup, h.pos,
    h.clean, h.cover, h.groups, h.own, h.pages⟩
  have hyx : y ≠ x := fun heq => hring (heq ▸ hy)
  show hashfn (update s.dev x dev y) (update s.blocknr x block y) = _
  rw [update_of_ne hyx, update_of_ne hyx]
  rfl

/-- **A head joins `free_list` in front**, in no hash queue. -/
theorem front (h : Links s v) (hlimbo : v.limbo = x :: m)
    (hclean : s.hash.next x = 0 ∧ s.hash.prev x = 0) :
    ∃ free, spliceFirst x s.free = some free ∧
      Links { s with free := free }
        { v with ring := x :: v.ring, loose := x :: v.loose, limbo := m } := by
  obtain ⟨hring, hunused, hown, hx0⟩ := h.limbo_head hlimbo
  obtain ⟨free, hfree, hok, hsame⟩ := h.free.splice hring hx0
  have hpos : 0 ∉ x :: v.ring := hok.pos
  refine ⟨free, hfree, hok, ⟨h.hash.list, h.hash.nodup, fun i y hy => ?_, fun y hy hnot => ?_,
    hpos⟩, ?_, perm_move h.perm fun a => ?_, h.nodup, h.pos, h.clean, ?_, h.groups, h.own, h.pages⟩
  · obtain ⟨h1, h2⟩ := h.hash.mem i y hy
    exact ⟨List.mem_cons_of_mem x h1, h2⟩
  · rcases List.mem_cons.1 hy with rfl | hy
    · exact hclean
    · exact h.hash.off y hy hnot
  · refine h.unused.congr fun y hy => hsame y ?_ ?_
    · exact h.off_ring (.inl hy)
    · rintro rfl
      exact hunused hy
  · rw [hlimbo]
    simp only [List.count_cons, View.owned]
    omega
  · exact (h.cover.cons x).trans List.perm_middle.symm

/-- Inserting into a hash queue touches the links of that queue only. -/
theorem insertIntoHashQueue_same (h : Links s v) (dev q : Nat) {y : Nat} (hyx : y ≠ x) (hyr : y ∉ v.ring) :
    (insertIntoHashQueue dev q x s.hash).next y = s.hash.next y ∧
      (insertIntoHashQueue dev q x s.hash).prev y = s.hash.prev y := by
  have hyt : s.hash.table q ≠ 0 → y ≠ s.hash.table q := by
    rintro hnull rfl
    obtain ⟨l, hl, -⟩ := (h.hash.list q).threads.exists_cons hnull
    exact hyr (h.hash.mem q _ (by rw [hl]; exact List.mem_cons_self)).1
  unfold insertIntoHashQueue
  split
  · exact ⟨update_of_ne hyx _ _, update_of_ne hyx _ _⟩
  · refine ⟨update_of_ne hyx _ _, ?_⟩
    dsimp only
    split
    · exact update_of_ne hyx _ _
    · rw [update_of_ne (hyt ‹_›), update_of_ne hyx]

/-- The queues after `insert_into_queues`. -/
def inserted (x : Nat) (s : State) (v : View) : Nat → List Nat :=
  if s.dev x = 0 then v.on else update v.on (s.queue x) (x :: v.on (s.queue x))

/-- **`insert_into_queues`.** -/
theorem back (h : Links s v) (hlimbo : v.limbo = x :: m) (hne : v.ring ≠ []) :
    ∃ s', insertIntoQueues x s = some s' ∧
      s' = { s with
        free := linkBehind x s.free
        hash := insertIntoHashQueue (s.dev x) (s.queue x) x s.hash } ∧
      Links s'
        { v with
          ring := v.ring ++ [x], on := inserted x s v, loose := x :: v.loose, limbo := m } := by
  obtain ⟨hring, hunused, hown, hx0⟩ := h.limbo_head hlimbo
  obtain ⟨hadd, hok⟩ := h.free.back hring hx0 hne
  have hmem : ∀ y, y ∈ v.ring ++ [x] ↔ y ∈ v.ring ∨ y = x := by
    intro y
    rw [List.mem_append, List.mem_singleton]
  have hhash : HashOk (insertIntoHashQueue (s.dev x) (s.queue x) x s.hash) s.queue (v.ring ++ [x])
      (inserted x s v) := h.hash.insert hring hx0 (fun _ _ => rfl) hmem (s.dev x)
  refine ⟨_, by rw [insertIntoQueues, hadd]; rfl, rfl, hok, hhash, ?_,
    perm_move h.perm fun a => ?_, h.nodup, h.pos, fun y hy => ?_, ?_, h.groups, h.own, h.pages⟩
  · refine h.unused.congr fun y hy => h.free.linkBehind_same hne (h.off_ring (.inl hy)) ?_
    rintro rfl
    exact hunused hy
  · rw [hlimbo]
    simp only [List.count_append, List.count_cons, View.owned, List.count_nil]
    omega
  · have hyx : y ≠ x := by
      rintro rfl
      exact hy.elim hunused hown
    have hyr : y ∉ v.ring := h.off_ring (hy.imp_right .inl)
    obtain ⟨h1, h2⟩ := h.insertIntoHashQueue_same (s.dev x) (s.queue x) hyx hyr
    obtain ⟨h3, h4⟩ := h.clean y hy
    exact ⟨h1.trans h3, h2.trans h4⟩
  · refine List.Perm.trans ?_ ((h.cover.cons x).trans List.perm_middle.symm)
    exact List.perm_append_singleton x v.ring

/-- Removing from a hash queue touches the links of that queue only. -/
theorem removeFromHashQueue_same (h : Links s v) {y : Nat} (hx : x ∈ v.ring) (hyr : y ∉ v.ring) :
    (removeFromHashQueue (s.queue x) x s.hash).next y = s.hash.next y ∧
      (removeFromHashQueue (s.queue x) x s.hash).prev y = s.hash.prev y := by
  have hyx : y ≠ x := fun heq => hyr (heq ▸ hx)
  have hlinks : (s.hash.next x = 0 ∨ s.hash.next x ∈ v.ring) ∧
      (s.hash.prev x = 0 ∨ s.hash.prev x ∈ v.ring) := by
    by_cases hon : x ∈ v.on (s.queue x)
    · obtain ⟨l₁, l₂, hsplit⟩ := List.append_of_mem hon
      obtain ⟨h1, h2⟩ := h.hash.neighbours hsplit
      exact ⟨h1.imp_right fun hm => (h.hash.mem _ _ hm).1,
        h2.imp_right fun hm => (h.hash.mem _ _ hm).1⟩
    · obtain ⟨h1, h2⟩ := h.hash.off x hx hon
      exact ⟨.inl h1, .inl h2⟩
  refine ⟨?_, ?_⟩
  · show update (if s.hash.prev x = 0 then s.hash.next
      else update s.hash.next (s.hash.prev x) (s.hash.next x)) x 0 y = s.hash.next y
    rw [update_of_ne hyx]
    split
    · rfl
    · rename_i hnull
      refine update_of_ne ?_ _ _
      rintro rfl
      exact hyr (hlinks.2.resolve_left hnull)
  · show update (if s.hash.next x = 0 then s.hash.prev
      else update s.hash.prev (s.hash.next x) (s.hash.prev x)) x 0 y = s.hash.prev y
    rw [update_of_ne hyx]
    split
    · rfl
    · rename_i hnull
      refine update_of_ne ?_ _ _
      rintro rfl
      exact hyr (hlinks.1.resolve_left hnull)

/-- The queues after `remove_from_hash_queue`. -/
def removed (x : Nat) (s : State) (v : View) : Nat → List Nat :=
  update v.on (s.queue x) ((v.on (s.queue x)).erase x)

/-- **`remove_from_hash_queue`.** -/
theorem unhash (h : Links s v) (hx : x ∈ v.ring) :
    Links { s with hash := removeFromHashQueue (s.queue x) x s.hash }
      { v with on := removed x s v } := by
  refine ⟨h.free, h.hash.remove hx, h.unused, h.perm, h.nodup, h.pos, fun y hy => ?_, h.cover,
    h.groups, h.own, h.pages⟩
  obtain ⟨h1, h2⟩ := h.removeFromHashQueue_same hx (h.off_ring (hy.imp_right .inl))
  obtain ⟨h3, h4⟩ := h.clean y hy
  exact ⟨h1.trans h3, h2.trans h4⟩

/-- **`remove_from_queues`**, if another head stays on the list. -/
theorem leave (h : Links s v) (hloose : v.loose = x :: m) (htwo : 2 ≤ v.ring.length) :
    ∃ s', removeFromQueues x s = some s' ∧
      (∃ free, s' = { s with
        free := free, hash := removeFromHashQueue (s.queue x) x s.hash }) ∧
      Links s'
        { v with
          ring := v.ring.erase x, on := removed x s v, loose := m, limbo := x :: v.limbo } := by
  have hx : x ∈ v.ring := by
    refine h.cover.mem_iff.2 (List.mem_append_right _ ?_)
    rw [hloose]
    exact List.mem_cons_self
  obtain ⟨free, hfree, hok, hsame⟩ := h.free.remove hx htwo
  have hunhash := h.unhash hx
  have hnot : x ∉ removed x s v (s.queue x) := by
    rw [removed, update_self]
    exact (h.hash.nodup _).not_mem_erase
  refine ⟨_, by rw [removeFromQueues, hfree]; rfl, ⟨free, rfl⟩, hok, hunhash.hash.leave hnot, ?_,
    perm_move h.perm fun a => ?_, h.nodup, h.pos, hunhash.clean, ?_, h.groups, h.own, h.pages⟩
  · exact h.unused.congr fun y hy => hsame y (h.off_ring (.inl hy))
  · have := (List.perm_cons_erase hx).count_eq a
    simp only [List.count_cons, View.owned] at this ⊢
    omega
  · have hcons := (List.perm_cons_erase hx).symm.trans h.cover
    rw [hloose] at hcons
    exact List.Perm.cons_inv (hcons.trans List.perm_middle)

/-- The heads on `free_list` of a page that is entering the cache are in no other page. -/
theorem loose_off (h : Links s v) (hx : x ∈ v.loose) : x ∉ v.grouped ∧ x ∉ v.owned := by
  have hnodup : (v.grouped ++ v.loose).Nodup := h.cover.nodup_iff.1 h.free.nodup
  have hring : x ∈ v.ring := h.cover.mem_iff.2 (List.mem_append_right _ hx)
  refine ⟨fun hmem => ?_, (h.ring_off hring).2.1⟩
  exact (List.nodup_append.1 hnodup).2.2 x hmem x hx rfl

/-- A store to `b_this_page` of a page that is entering the cache. -/
theorem rethread (h : Links s v) (hx : x ∈ v.loose) (bh : Nat) :
    Links { s with thisPage := update s.thisPage x bh } v := by
  obtain ⟨hgrouped, howned⟩ := h.loose_off hx
  refine ⟨h.free, h.hash, h.unused, h.perm, h.nodup, h.pos, h.clean, h.cover, fun g hg => ?_,
    fun c hc => ?_, h.pages⟩
  · obtain ⟨h1, h2⟩ := h.groups g hg
    refine ⟨h1.congr fun y hy => update_of_ne ?_ _ _, h2⟩
    rintro rfl
    exact hgrouped (List.mem_flatten.2 ⟨g.heads, List.mem_map_of_mem hg, hy⟩)
  · obtain ⟨h1, h2⟩ := h.own c hc
    refine ⟨h1.congr fun y hy => update_of_ne ?_ _ _, h2⟩
    rintro rfl
    exact howned (mem_owned hc hy)

/-- The heads of a page have all entered the cache. -/
theorem regroup (h : Links s v) {g : Group} (hl : g.heads.Perm v.loose)
    (hloop : Loop s.thisPage g.heads) (hpage : ∀ y ∈ g.heads, pageMask (s.data y) = g.page)
    (hfresh : g.page ∉ v.groups.map Group.page ++ v.own.map Chain.page) :
    Links s { v with groups := g :: v.groups, loose := [] } := by
  refine ⟨h.free, h.hash, h.unused, h.perm, h.nodup, h.pos, h.clean, ?_, fun g' hg => ?_, h.own,
    List.nodup_cons.2 ⟨hfresh, h.pages⟩⟩
  · refine h.cover.trans ?_
    have hflat : View.grouped { v with groups := g :: v.groups, loose := [] } =
        g.heads ++ v.grouped := by
      rw [View.grouped, List.map_cons, List.flatten_cons]
      rfl
    rw [hflat, List.append_nil]
    exact List.perm_append_comm.trans (hl.symm.append (List.Perm.refl _))
  · rcases List.mem_cons.1 hg with rfl | hg
    · exact ⟨hloop, hpage⟩
    · exact h.groups g' hg

/-- **A page enters the cache.** -/
theorem closePage (h : Links s v) (hown : v.own = ⟨page, first, []⟩ :: own) {l : List Nat}
    (hl : l.Perm v.loose) (hpage : ∀ y ∈ l, pageMask (s.data y) = page) {z bh : Nat}
    (hz : z ∈ l) (hloop : Loop (update s.thisPage z bh) l) :
    Links { s with thisPage := update s.thisPage z bh }
      { v with groups := ⟨page, l⟩ :: v.groups, own := own, loose := [] } := by
  have hfresh : page ∉ v.groups.map Group.page ++ own.map Chain.page := by
    have hpages := h.pages
    rw [hown] at hpages
    have hperm : (v.groups.map Group.page ++ page :: own.map Chain.page).Perm
        (page :: (v.groups.map Group.page ++ own.map Chain.page)) := List.perm_middle
    exact (List.nodup_cons.1 ((hperm.nodup_iff).1 hpages)).1
  have hre := (h.giveUp hown).rethread (hl.mem_iff.1 hz) bh
  exact hre.regroup (g := ⟨page, l⟩) hl hloop hpage hfresh

/-- **A page is about to leave the cache.** -/
theorem openPage (h : Links s v) {g : Group} {groups : List Group} (hg : v.groups = g :: groups)
    (hloose : v.loose = []) {l : List Nat} (hl : l.Perm g.heads) :
    Links s { v with groups := groups, loose := l } := by
  refine ⟨h.free, h.hash, h.unused, h.perm, h.nodup, h.pos, h.clean, ?_, fun g' hg' => ?_, h.own,
    ?_⟩
  · have hcover := h.cover
    rw [View.grouped, hg, List.map_cons, List.flatten_cons, hloose, List.append_nil] at hcover
    exact hcover.trans (List.perm_append_comm.trans ((List.Perm.refl _).append hl.symm))
  · exact h.groups g' (by rw [hg]; exact List.mem_cons_of_mem g hg')
  · have hpages := h.pages
    rw [hg] at hpages
    exact (List.nodup_cons.1 hpages).2

end Links

/-- The heads on `free_list` in another order. -/
theorem Links.turn {s : State} {v : View} {f : FreeLinks} {ring : List Nat} (h : Links s v)
    (hok : FreeOk f ring) (hring : ring.Perm v.ring) (hsame : SameOff s.free f v.ring) :
    Links { s with free := f } { v with ring := ring } := by
  refine ⟨hok, h.hash.congr (fun y => hring.mem_iff) fun _ _ => rfl, ?_, ?_, h.nodup, h.pos,
    h.clean, hring.trans h.cover, h.groups, h.own, h.pages⟩
  · exact h.unused.congr fun y hy => hsame y (h.off_ring (.inl hy))
  · exact (hring.append (List.Perm.refl _)).trans h.perm

/-- The heads of a page that is being made are heads. -/
theorem Links.length_le {s : State} {v : View} (h : Links s v) {c : Chain} (hc : c ∈ v.own) :
    c.heads.length ≤ s.heads.length := by
  rw [← h.perm.length_eq]
  have hsub : c.heads.Sublist v.owned :=
    List.sublist_flatten_of_mem (List.mem_map_of_mem hc)
  have := hsub.length_le
  simp only [List.length_append]
  omega

theorem Links.chain_nodup {s : State} {v : View} (h : Links s v) {c : Chain} (hc : c ∈ v.own) :
    c.heads.Nodup := by
  have hown := (List.nodup_append.1 (List.nodup_append.1 h.all_nodup).2.1).2.1
  exact (List.nodup_append.1 hown).1.sublist (List.sublist_flatten_of_mem (List.mem_map_of_mem hc))

end LinuxEvocation.Fs.Buffer
