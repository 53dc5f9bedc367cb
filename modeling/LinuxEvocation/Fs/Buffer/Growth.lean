import LinuxEvocation.Fs.Buffer.Pages

/-!
# Making and freeing pages of buffers

The loops that move all heads of a page, each as a lemma about the lists of `View`.

* `createBuffers_links` — `create_buffers` makes a page, or leaves the heads unused.
-/

namespace LinuxEvocation.Fs.Buffer

open Function (update update_of_ne)
open LinuxEvocation.Mm LinkedList

variable {s : State} {v : View}

/-- The counters and the pages held are those of `s`. -/
structure Kept (s s' : State) : Prop where
  nrBuffers : s'.nrBuffers = s.nrBuffers
  buffermem : s'.buffermem = s.buffermem
  held : s'.held = s.held

theorem Kept.rfl : Kept s s := ⟨Eq.refl _, Eq.refl _, Eq.refl _⟩

theorem Kept.trans {s' s'' : State} (h : Kept s s') (h' : Kept s' s'') : Kept s s'' :=
  ⟨h'.nrBuffers.trans h.nrBuffers, h'.buffermem.trans h.buffermem, h'.held.trans h.held⟩

/-! ## Unused heads -/

theorem linkUnused_links {l : List Nat} (h : Links s v) (hlimbo : v.limbo = []) (hnodup : l.Nodup)
    (hnew : ∀ bh ∈ l, bh ≠ 0 ∧ bh ∉ s.heads) :
    (∃ u, Links (linkUnused l s) { v with unused := u }) ∧ Kept s (linkUnused l s) ∧
      ∀ y ∈ (linkUnused l s).heads, y ∈ s.heads ∨ y ∈ l := by
  induction l generalizing s v with
  | nil => exact ⟨⟨v.unused, h⟩, .rfl, fun y hy => .inl hy⟩
  | cons x l ih =>
    obtain ⟨hx, hl⟩ := List.nodup_cons.1 hnodup
    obtain ⟨hx0, hxnew⟩ := hnew x List.mem_cons_self
    have hone := (h.newHead hxnew hx0).toUnused (x := x) (m := []) (by rw [hlimbo])
    obtain ⟨⟨u, hu⟩, hkept, hheads⟩ := ih hone rfl hl fun y hy => by
      obtain ⟨hy0, hynew⟩ := hnew y (List.mem_cons_of_mem x hy)
      refine ⟨hy0, ?_⟩
      show y ∉ x :: s.heads
      rw [List.mem_cons, not_or]
      exact ⟨fun heq => hx (heq ▸ hy), hynew⟩
    refine ⟨⟨u, ?_⟩, ⟨hkept.nrBuffers, hkept.buffermem, hkept.held⟩, fun y hy => ?_⟩
    · have hv : ({ v with limbo := [], unused := u } : View) = { v with unused := u } := by
        rw [← hlimbo]
      rw [← hv]
      exact hu
    · rcases hheads y hy with hy | hy
      · rcases List.mem_cons.1 hy with rfl | hy
        · exact .inr List.mem_cons_self
        · exact .inl hy
      · exact .inr (List.mem_cons_of_mem x hy)

theorem getUnused_links {more : Option (List Nat)} (h : Links s v) (hlimbo : v.limbo = [])
    (hnew : ∀ l, more = some l → l.Nodup ∧ ∀ bh ∈ l, bh ≠ 0 ∧ bh ∉ s.heads) :
    ∃ s' r, getUnusedBufferHead more s = (s', r) ∧ Kept s s' ∧
      (∀ y ∈ s'.heads, y ∈ s.heads ∨ ∃ l, more = some l ∧ y ∈ l) ∧
      match r with
      | none => ∃ u, Links s' { v with unused := u }
      | some x => ∃ u, Links s' { v with unused := u, limbo := [x] } ∧
          s'.hash.next x = 0 ∧ s'.hash.prev x = 0 := by
  have hmore : (∃ u, Links (getMoreBufferHeads more s) { v with unused := u }) ∧
      Kept s (getMoreBufferHeads more s) ∧
      ∀ y ∈ (getMoreBufferHeads more s).heads, y ∈ s.heads ∨ ∃ l, more = some l ∧ y ∈ l := by
    unfold getMoreBufferHeads
    split
    · exact ⟨⟨v.unused, h⟩, .rfl, fun y hy => .inl hy⟩
    · cases more with
      | none => exact ⟨⟨v.unused, h⟩, .rfl, fun y hy => .inl hy⟩
      | some l =>
        obtain ⟨hnodup, hl⟩ := hnew l rfl
        obtain ⟨hu, hkept, hheads⟩ := linkUnused_links h hlimbo hnodup hl
        exact ⟨hu, hkept, fun y hy => (hheads y hy).imp_right fun hy => ⟨l, rfl, hy⟩⟩
  obtain ⟨⟨u, hu⟩, hkept, hheads⟩ := hmore
  by_cases hnull : (getMoreBufferHeads more s).unusedList = 0
  · refine ⟨_, none, if_pos hnull, hkept, hheads, u, hu⟩
  · refine ⟨_, some _, if_neg hnull, Kept.trans hkept ⟨rfl, rfl, rfl⟩, hheads, ?_⟩
    obtain ⟨t, ht, -⟩ := hu.unused.exists_cons hnull
    have hclean := hu.clean (getMoreBufferHeads more s).unusedList
      (.inl (by rw [ht]; exact List.mem_cons_self))
    have hfrom := hu.fromUnused ht
    refine ⟨t, ?_, hclean⟩
    dsimp only at hfrom
    rw [hlimbo] at hfrom
    exact hfrom

/-- The heads of a page that is given up go back. -/
theorem noGrow_links {page bh : Nat} {t : List Nat} {own : List Chain} {fuel : Nat}
    (h : Links s v) (hlimbo : v.limbo = []) (hown : v.own = ⟨page, bh, t⟩ :: own)
    (hfuel : t.length ≤ fuel) :
    (∃ u, Links (noGrow fuel bh s) { v with unused := u, own := own }) ∧
      Kept s (noGrow fuel bh s) := by
  induction t generalizing fuel bh s v with
  | nil =>
    have hfirst := (h.own ⟨page, bh, []⟩ (by rw [hown]; exact List.mem_cons_self)).1
    have hnull : bh = 0 := hfirst
    have hstop : noGrow fuel bh s = s := by
      cases fuel with
      | zero => rfl
      | succ fuel => rw [noGrow, if_pos hnull]
    rw [hstop]
    exact ⟨⟨v.unused, h.giveUp hown⟩, .rfl⟩
  | cons x t ih =>
    cases fuel with
    | zero => exact absurd hfuel (by simp)
    | succ fuel =>
      have hfirst := (h.own ⟨page, bh, x :: t⟩ (by rw [hown]; exact List.mem_cons_self)).1
      obtain ⟨hbh, hx0, -⟩ := hfirst
      dsimp only at hbh
      subst hbh
      have hmove := (h.fromOwn hown).toUnused (x := bh) (m := []) (by rw [hlimbo])
      rw [noGrow, if_neg hx0]
      obtain ⟨⟨u, hu⟩, hkept⟩ := ih hmove rfl rfl (by simpa using hfuel)
      refine ⟨⟨u, ?_⟩, ⟨hkept.nrBuffers, hkept.buffermem, hkept.held⟩⟩
      have hv : ({ v with limbo := [], unused := u, own := own } : View) =
          { v with unused := u, own := own } := by
        rw [← hlimbo]
      rw [← hv]
      exact hu

/-! ## `create_buffers` -/

/-- The heads that later iterations may get are new, whatever the earlier ones have got. -/
def FreshFrom (s : State) (more : Nat → Option (List Nat)) (n : Nat) : Prop :=
  (∀ k l, n ≤ k → more k = some l → l.Nodup ∧ ∀ bh ∈ l, bh ≠ 0 ∧ bh ∉ s.heads) ∧
    ∀ k k' l l', k ≠ k' → more k = some l → more k' = some l' → ∀ bh ∈ l, bh ∉ l'

theorem FreshFrom.next {more : Nat → Option (List Nat)} {n : Nat} {s' : State}
    (h : FreshFrom s more n)
    (hheads : ∀ y ∈ s'.heads, y ∈ s.heads ∨ ∃ l, more n = some l ∧ y ∈ l) :
    FreshFrom s' more (n + 1) := by
  refine ⟨fun k l hk hl => ?_, h.2⟩
  obtain ⟨hnodup, hnew⟩ := h.1 k l (by omega) hl
  refine ⟨hnodup, fun bh hbh => ⟨(hnew bh hbh).1, fun hmem => ?_⟩⟩
  rcases hheads bh hmem with hmem | ⟨l', hl', hmem⟩
  · exact (hnew bh hbh).2 hmem
  · exact h.2 k n l l' (by omega) hl hl' bh hbh hmem

/-- An offset into a page does not leave it. -/
theorem pageMask_add {page offset : Nat} (hpage : page % pageSize = 0) (hoffset : offset < pageSize) :
    pageMask (page + offset) = page := by
  unfold pageMask pageSize at *
  omega

theorem createLoop_links {page : Nat} (size : Nat) {more : Nat → Option (List Nat)}
    {own : List Chain} (hpage : page % pageSize = 0) (fuel : Nat) {n : Nat} (offset head : Nat)
    {t : List Nat} (h : Links s v)
    (hlimbo : v.limbo = []) (hown : v.own = ⟨page, head, t⟩ :: own) (hn : t.length = n)
    (hfresh : FreshFrom s more n) (hoffset : offset ≤ pageSize) :
    ∃ s' r, createLoop page size more fuel n offset head s = (s', r) ∧ Kept s s' ∧
      match r with
      | none => ∃ u, Links s' { v with unused := u, own := own }
      | some head' => ∃ u t', Links s' { v with unused := u, own := ⟨page, head', t'⟩ :: own } := by
  have hself : v = { v with unused := v.unused, own := ⟨page, head, t⟩ :: own } := by
    rw [← hown]
  induction fuel generalizing n offset head t s v with
  | zero => exact ⟨s, some head, rfl, .rfl, v.unused, t, hself ▸ h⟩
  | succ fuel ih =>
    by_cases hmore : 0 < size ∧ size ≤ offset
    · obtain ⟨s₁, r, hget, hkept, hheads, hr⟩ := getUnused_links h hlimbo fun l hl =>
        hfresh.1 n l le_rfl hl
      rw [createLoop, if_pos hmore, hget]
      cases r with
      | none =>
        obtain ⟨u, hu⟩ := hr
        obtain ⟨⟨u', hu'⟩, hkept'⟩ := noGrow_links hu hlimbo hown hn.le
        exact ⟨_, none, rfl, hkept.trans hkept', u', hu'⟩
      | some x =>
        obtain ⟨u, hu, hclean⟩ := hr
        have hat : pageMask (page + (offset - size)) = page := pageMask_add hpage (by omega)
        have hone := hu.toOwn (x := x) (m := []) rfl hown hclean _ size hat
        obtain ⟨s₂, r, hloop, hkept', hr⟩ := ih (offset - size) x hone rfl rfl
          (by rw [List.length_cons, hn]) (hfresh.next hheads) (by omega) rfl
        refine ⟨s₂, r, hloop, hkept.trans ⟨hkept'.nrBuffers, hkept'.buffermem, hkept'.held⟩, ?_⟩
        cases r with
        | none =>
          obtain ⟨u', hu'⟩ := hr
          refine ⟨u', ?_⟩
          rw [← hlimbo] at hu'
          exact hu'
        | some head' =>
          obtain ⟨u', t', hu'⟩ := hr
          refine ⟨u', t', ?_⟩
          rw [← hlimbo] at hu'
          exact hu'
    · rw [createLoop, if_neg hmore]
      exact ⟨s, some head, rfl, .rfl, v.unused, t, hself ▸ h⟩

/-- **`create_buffers`** makes the heads of a page, or leaves them unused. -/
theorem createBuffers_links {page : Nat} (size : Nat) {more : Nat → Option (List Nat)}
    (hpage : page % pageSize = 0) (h : Links s v) (hlimbo : v.limbo = [])
    (hnew : page ∉ v.groups.map Group.page ++ v.own.map Chain.page) (hfresh : FreshHeads s more) :
    ∃ s' bh, createBuffers page size more s = (s', bh) ∧ Kept s s' ∧
      ((bh = 0 ∧ ∃ u, Links s' { v with unused := u }) ∨
        bh ≠ 0 ∧ ∃ u t, Links s' { v with unused := u, own := ⟨page, bh, bh :: t⟩ :: v.own }) := by
  have hfrom : FreshFrom s more 0 := ⟨fun k l _ hl => hfresh.1 k l hl, hfresh.2⟩
  obtain ⟨s', r, hloop, hkept, hr⟩ := createLoop_links size hpage pageSize pageSize 0
    (h.begin hnew) hlimbo rfl List.length_nil hfrom le_rfl
  cases r with
  | none =>
    obtain ⟨u, hu⟩ := hr
    exact ⟨s', 0, by rw [createBuffers, hloop], hkept, .inl ⟨rfl, u, hu⟩⟩
  | some bh =>
    obtain ⟨u, t, hu⟩ := hr
    refine ⟨s', bh, by rw [createBuffers, hloop], hkept, ?_⟩
    have hchain := (hu.own ⟨page, bh, t⟩ List.mem_cons_self).1
    by_cases hnull : bh = 0
    · left
      have ht : t = [] := by
        cases t with
        | nil => rfl
        | cons y t => exact absurd (hnull ▸ hchain.1.symm) hchain.2.1
      subst ht
      exact ⟨hnull, u, hu.giveUp rfl⟩
    · right
      obtain ⟨t', ht, -⟩ := hchain.exists_cons hnull
      dsimp only at ht
      subst ht
      exact ⟨hnull, u, t', hu⟩

/-! ## A page enters the cache -/

/-- The page is in the cache, and the counters have followed. -/
structure PageAdded (s : State) (v : View) (page : Nat) (own : List Chain) (s' : State)
    (v' : View) : Prop where
  links : Links s' v'
  groups : ∃ l, v'.groups = ⟨page, l⟩ :: v.groups
  own : v'.own = own
  loose : v'.loose = []
  limbo : v'.limbo = []
  nr : s'.nrBuffers - v'.ring.length = s.nrBuffers - v.ring.length
  mem : s'.buffermem = s.buffermem + pageSize
  held : s'.held = s.held

/-- The heads `dn` of the page are in the cache; the rest of the page follows from `tmp` on. -/
structure Entering (s : State) (v : View) (page bh : Nat) (dn : List Nat) (tmp : Nat)
    (rest : List Nat) (own : List Chain) : Prop where
  links : Links s v
  limbo : v.limbo = []
  own : v.own = ⟨page, tmp, rest⟩ :: own
  loose : dn.Perm v.loose
  threads : Threads 0 s.thisPage bh (dn ++ rest)
  nodup : (dn ++ rest).Nodup
  page : ∀ y ∈ dn, pageMask (s.data y) = page

namespace Entering

variable {page bh tmp : Nat} {dn rest : List Nat} {own : List Chain}

/-- The page is closed behind its last head. -/
theorem finish (h : Entering s v page bh (dn ++ [tmp]) 0 [] own) :
    PageAdded s v page own
      { s with
        thisPage := update s.thisPage tmp bh, buffermem := s.buffermem + pageSize }
      { v with groups := ⟨page, dn ++ [tmp]⟩ :: v.groups, own := own, loose := [] } := by
  have hthreads := h.threads
  have hnodup := h.nodup
  rw [List.append_nil] at hthreads hnodup
  have hlinks := h.links.closePage h.own h.loose h.page (z := tmp) (by simp)
    (Loop.close hthreads hnodup)
  exact ⟨hlinks.touch _ _ _ _ _ _, ⟨_, rfl⟩, rfl, rfl, h.limbo, rfl, rfl, rfl⟩

/-- The first head of the rest is on no list. -/
theorem take (h : Entering s v page bh dn tmp (tmp :: rest) own) :
    Links s { v with own := ⟨page, s.thisPage tmp, rest⟩ :: own, limbo := [tmp] } ∧
      (s.hash.next tmp = 0 ∧ s.hash.prev tmp = 0) ∧ pageMask (s.data tmp) = page := by
  have hmem : (⟨page, tmp, tmp :: rest⟩ : Chain) ∈ v.own := by
    rw [h.own]
    exact List.mem_cons_self
  have hlinks := h.links.fromOwn h.own
  rw [h.limbo] at hlinks
  refine ⟨hlinks, h.links.clean tmp (.inr (Links.mem_owned hmem List.mem_cons_self)), ?_⟩
  exact (h.links.own _ hmem).2 tmp List.mem_cons_self

theorem next (h : Entering s v page bh dn tmp (tmp :: rest) own) {s' : State} {v' : View}
    (hlinks : Links s' v') (hlimbo : v'.limbo = [])
    (hown : v'.own = ⟨page, s.thisPage tmp, rest⟩ :: own) (hloose : v'.loose = tmp :: v.loose)
    (hthis : s'.thisPage = s.thisPage) (hdata : s'.data = s.data) :
    Entering s' v' page bh (dn ++ [tmp]) (s.thisPage tmp) rest own := by
  have happ : dn ++ [tmp] ++ rest = dn ++ tmp :: rest := by simp
  refine ⟨hlinks, hlimbo, hown, ?_, ?_, ?_, fun y hy => ?_⟩
  · rw [hloose]
    exact (List.perm_append_singleton tmp dn).trans (h.loose.cons tmp)
  · rw [hthis, happ]
    exact h.threads
  · rw [happ]
    exact h.nodup
  · rw [hdata]
    rcases List.mem_append.1 hy with hy | hy
    · exact h.page y hy
    · rw [List.mem_singleton.1 hy]
      exact h.take.2.2

end Entering

/-- One head more, counted. -/
structure HeadAdded (s : State) (v : View) (s₁ : State) (v₁ : View) : Prop where
  groups : v₁.groups = v.groups
  nr : s₁.nrBuffers - v₁.ring.length = s.nrBuffers - v.ring.length
  mem : s₁.buffermem = s.buffermem
  held : s₁.held = s.held

theorem PageAdded.after {page : Nat} {own : List Chain} {s₁ s' : State} {v₁ v' : View}
    (h : PageAdded s₁ v₁ page own s' v') (hone : HeadAdded s v s₁ v₁) :
    PageAdded s v page own s' v' := by
  refine ⟨h.links, ?_, h.own, h.loose, h.limbo, h.nr.trans hone.nr, ?_, h.held.trans hone.held⟩
  · rw [← hone.groups]
    exact h.groups
  · rw [h.mem, hone.mem]

/-- One iteration of the loop of `grow_buffers`. -/
theorem Entering.splice {page bh tmp : Nat} {dn rest : List Nat} {own : List Chain}
    (h : Entering s v page bh dn tmp (tmp :: rest) own) :
    ∃ free v₁, spliceFirst tmp s.free = some free ∧
      Entering { s with free := free, nrBuffers := s.nrBuffers + 1 } v₁ page bh (dn ++ [tmp])
        (s.thisPage tmp) rest own ∧
      HeadAdded s v { s with free := free, nrBuffers := s.nrBuffers + 1 } v₁ := by
  obtain ⟨hlinks, hclean, -⟩ := h.take
  obtain ⟨free, hfree, hfront⟩ := hlinks.front (x := tmp) (m := []) rfl hclean
  refine ⟨free, _, hfree, h.next (hfront.touch _ _ _ _ _ _) rfl rfl rfl rfl rfl, rfl, ?_, rfl,
    rfl⟩
  simp only [List.length_cons]
  omega

/-- **The loop of `grow_buffers`** puts the page into the cache. -/
theorem spliceLoop_links {page bh tmp : Nat} {dn rest : List Nat} {own : List Chain} {fuel : Nat}
    (h : Entering s v page bh dn tmp (tmp :: rest) own) (hfuel : rest.length < fuel) :
    ∃ s' v', spliceLoop bh fuel tmp s = some s' ∧ PageAdded s v page own s' v' := by
  induction rest generalizing fuel tmp dn s v with
  | nil =>
    obtain ⟨fuel, rfl⟩ : ∃ k, fuel = k + 1 := ⟨fuel - 1, by omega⟩
    obtain ⟨free, v₁, hfree, hnext, hone⟩ := h.splice
    have hnull : s.thisPage tmp = 0 := h.threads.of_append
    rw [hnull] at hnext
    refine ⟨_, _, ?_, hnext.finish.after hone⟩
    rw [spliceLoop, hfree]
    simp only [Option.bind_some]
    rw [if_neg (by simp [hnull])]
  | cons y rest ih =>
    obtain ⟨fuel, rfl⟩ : ∃ k, fuel = k + 1 := ⟨fuel - 1, by omega⟩
    obtain ⟨free, v₁, hfree, hnext, hone⟩ := h.splice
    obtain ⟨hy, hy0, -⟩ := h.threads.of_append
    rw [hy] at hnext
    obtain ⟨s', v', hloop, hadd⟩ := ih hnext (by simpa using hfuel)
    refine ⟨s', v', ?_, hadd.after hone⟩
    rw [spliceLoop, hfree]
    simp only [Option.bind_some]
    rw [if_pos (by rw [hy]; exact hy0), hy]
    exact hloop

/-- One iteration of the second loop of `try_to_load_aligned`. -/
theorem Entering.insert {page bh tmp : Nat} {dn rest : List Nat} {own : List Chain}
    (h : Entering s v page bh dn tmp (tmp :: rest) own) (hne : v.ring ≠ []) (dev block : Nat) :
    ∃ s₁ v₁, insertIntoQueues tmp
        { s with
          count := update s.count tmp 1
          dirt := update s.dirt tmp false
          dev := update s.dev tmp dev
          blocknr := update s.blocknr tmp block
          nrBuffers := s.nrBuffers + 1 } = some s₁ ∧
      Entering s₁ v₁ page bh (dn ++ [tmp]) (s.thisPage tmp) rest own ∧ HeadAdded s v s₁ v₁ ∧
      v₁.ring ≠ [] ∧ s₁.thisPage = s.thisPage := by
  obtain ⟨hlinks, -, -⟩ := h.take
  have hassign := (hlinks.assign (List.mem_singleton_self tmp) dev block).touch
    (update s.count tmp 1) (update s.dirt tmp false) s.lock (s.nrBuffers + 1)
    s.buffermem s.held
  obtain ⟨s₁, hins, rfl, hback⟩ := hassign.back (x := tmp) (m := []) rfl hne
  refine ⟨_, _, hins, h.next hback rfl rfl rfl rfl rfl, ⟨rfl, ?_, rfl, rfl⟩, by simp, rfl⟩
  simp only [List.length_append, List.length_singleton]
  omega

/-- **The second loop of `try_to_load_aligned`** puts the page into the cache. -/
theorem loadLoop_links {page bh tmp : Nat} (dev : Nat) {dn rest : List Nat} (b : List Nat)
    {own : List Chain} {fuel : Nat} (h : Entering s v page bh dn tmp (tmp :: rest) own) (hne : v.ring ≠ [])
    (hfuel : rest.length < fuel) :
    ∃ s' v', loadLoop bh dev fuel tmp b s = some s' ∧ PageAdded s v page own s' v' := by
  induction rest generalizing fuel tmp dn b s v with
  | nil =>
    obtain ⟨fuel, rfl⟩ : ∃ k, fuel = k + 1 := ⟨fuel - 1, by omega⟩
    obtain ⟨s₁, v₁, hins, hnext, hone, -, hthis⟩ := h.insert hne dev (b.headD 0)
    have hnull : s.thisPage tmp = 0 := h.threads.of_append
    rw [hnull] at hnext
    refine ⟨_, _, ?_, hnext.finish.after hone⟩
    rw [loadLoop, hins]
    simp only [Option.bind_some]
    rw [if_neg (by simp [hthis, hnull])]
  | cons y rest ih =>
    obtain ⟨fuel, rfl⟩ : ∃ k, fuel = k + 1 := ⟨fuel - 1, by omega⟩
    obtain ⟨s₁, v₁, hins, hnext, hone, hne₁, hthis⟩ := h.insert hne dev (b.headD 0)
    obtain ⟨hy, hy0, -⟩ := h.threads.of_append
    rw [hy] at hnext
    obtain ⟨s', v', hloop, hadd⟩ := ih b.tail hnext hne₁ (by simpa using hfuel)
    refine ⟨s', v', ?_, hadd.after hone⟩
    rw [loadLoop, hins]
    simp only [Option.bind_some]
    rw [if_pos (by rw [hthis, hy]; exact hy0), hthis, hy]
    exact hloop

/-! ## A page leaves the cache -/

/-- The page is no longer in the cache as far as its heads `r`; the rest follows. -/
structure Leaving (s : State) (v : View) (r : List Nat) (s' : State) (v' : View) : Prop where
  links : Links s' v'
  groups : v'.groups = v.groups
  own : v'.own = v.own
  loose : v'.loose = r
  limbo : v'.limbo = []
  nr : s'.nrBuffers - v'.ring.length = s.nrBuffers - v.ring.length
  held : s'.held = s.held

theorem Leaving.trans {s₁ s₂ : State} {v₁ v₂ : View} {r₁ r₂ : List Nat}
    (h : Leaving s v r₁ s₁ v₁) (h' : Leaving s₁ v₁ r₂ s₂ v₂) : Leaving s v r₂ s₂ v₂ :=
  ⟨h'.links, h'.groups.trans h.groups, h'.own.trans h.own, h'.loose, h'.limbo, h'.nr.trans h.nr,
    h'.held.trans h.held⟩

/-- One iteration of the second loop of `try_to_free`. -/
theorem removeFromQueues_leaving {p : Nat} {r : List Nat} (h : Links s v) (hlimbo : v.limbo = [])
    (hloose : v.loose = p :: r) (hkeep : v.grouped ≠ []) :
    ∃ s₁ v₁, removeFromQueues p { s with nrBuffers := s.nrBuffers - 1 } = some s₁ ∧
      Leaving s v r (putUnusedBufferHead p s₁) v₁ ∧ s₁.thisPage = s.thisPage ∧
      s₁.buffermem = s.buffermem := by
  -- the heads of the other pages stay on the list
  have htwo : 2 ≤ v.ring.length := by
    rw [h.cover.length_eq, List.length_append, hloose, List.length_cons]
    have := List.length_pos_of_ne_nil hkeep
    omega
  have hmem : p ∈ v.ring := by
    refine h.cover.mem_iff.2 (List.mem_append_right _ ?_)
    rw [hloose]
    exact List.mem_cons_self
  have htouch := h.touch s.count s.dirt s.lock (s.nrBuffers - 1) s.buffermem s.held
  obtain ⟨s₁, hrem, ⟨free, rfl⟩, hleave⟩ := htouch.leave hloose htwo
  have hunused := hleave.toUnused (x := p) (m := []) (by rw [hlimbo])
  refine ⟨_, _, hrem, ⟨hunused, rfl, rfl, rfl, rfl, ?_, rfl⟩, rfl, rfl⟩
  dsimp only [putUnusedBufferHead]
  rw [List.length_erase_of_mem hmem]
  omega

/-- **The second loop of `try_to_free`**, if another page stays in the cache. -/
theorem freeLoop_links {bh p : Nat} {r : List Nat} {fuel : Nat} (h : Links s v)
    (hlimbo : v.limbo = []) (hloose : v.loose = p :: r) (hseg : Seg s.thisPage p (p :: r) bh)
    (hbh : bh ∉ r) (hkeep : v.grouped ≠ []) (hfuel : r.length < fuel) :
    ∃ s' v', freeLoop bh fuel p s = some s' ∧ Leaving s v [] s' v' ∧
      s'.buffermem = s.buffermem - pageSize := by
  induction r generalizing fuel p s v with
  | nil =>
    obtain ⟨fuel, rfl⟩ : ∃ k, fuel = k + 1 := ⟨fuel - 1, by omega⟩
    obtain ⟨s₁, v₁, hrem, hleave, -, hmem⟩ := removeFromQueues_leaving h hlimbo hloose hkeep
    have hend : s.thisPage p = bh := hseg.2
    refine ⟨{ putUnusedBufferHead p s₁ with buffermem := s₁.buffermem - pageSize }, v₁, ?_,
      ⟨hleave.links.touch _ _ _ _ _ _, hleave.groups, hleave.own, hleave.loose, hleave.limbo,
        hleave.nr, hleave.held⟩, ?_⟩
    · rw [freeLoop, hrem]
      simp only [Option.bind_some]
      rw [if_pos hend]
      rfl
    · dsimp only
      rw [hmem]
  | cons y r ih =>
    obtain ⟨fuel, rfl⟩ : ∃ k, fuel = k + 1 := ⟨fuel - 1, by omega⟩
    obtain ⟨s₁, v₁, hrem, hleave, hthis, hmem⟩ := removeFromQueues_leaving h hlimbo hloose hkeep
    have hy : s.thisPage p = y := hseg.2.1
    have hybh : y ≠ bh := fun heq => hbh (heq ▸ List.mem_cons_self)
    have hnodup : (v.grouped ++ v.loose).Nodup := h.cover.nodup_iff.1 h.free.nodup
    have hp : p ∉ y :: r := by
      have hl := (List.nodup_append.1 hnodup).2.1
      rw [hloose] at hl
      exact (List.nodup_cons.1 hl).1
    have hseg' : Seg (putUnusedBufferHead p s₁).thisPage y (y :: r) bh := by
      have hrest := hseg.2
      rw [hy] at hrest
      refine hrest.congr fun z hz => ?_
      show update s₁.thisPage p 0 z = s.thisPage z
      rw [update_of_ne, hthis]
      rintro rfl
      exact hp hz
    have hkeep' : v₁.grouped ≠ [] := by
      rw [View.grouped, hleave.groups]
      exact hkeep
    obtain ⟨s', v', hloop, hleave', hmem'⟩ := ih hleave.links hleave.limbo hleave.loose hseg'
      (fun hmem => hbh (List.mem_cons_of_mem y hmem)) hkeep' (by simpa using hfuel)
    refine ⟨s', v', ?_, hleave.trans hleave', ?_⟩
    · rw [freeLoop, hrem]
      simp only [Option.bind_some]
      rw [if_neg (by rw [hy]; exact hybh), hy]
      exact hloop
    · rw [hmem']
      show s₁.buffermem - _ = _
      rw [hmem]

end LinuxEvocation.Fs.Buffer
