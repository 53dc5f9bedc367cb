import LinuxEvocation.Mm.PageAlloc.Basic

/-!
# The page allocator never loses a page

Every page that is not reserved is either on exactly one of the two lists, with `mem_map` 0, or
in use, and then `mem_map` is the number of references held to it.  The calls of `free_page`
that have passed their tests still answer for the reference they are going to drop, so no other
call can free the page in between; this is why the tests may run with interrupts enabled.

* `Inv` — the invariant, over the contents `on` of the two lists.
* `Inv.take`, `Inv.drop`, `Inv.handOver` — how the invariant moves on.
* `pages_accounted_of_reach` — it holds after any run.
-/

namespace LinuxEvocation.Mm.PageAlloc

open Function (update update_of_ne update_self)
open LinkedList Transition

variable {ι : Type*}

/-- A page in use; it answers for itself. -/
def InUse (s : State ι) (owner page : Nat) : Prop :=
  page = owner ∧ s.IsPage page ∧ s.memMap (mapNr page) ≠ 0

/-- The invariant: `on` is what the two lists visit. -/
structure Inv (s : State ι) (on : Queue → List Nat) : Prop where
  custody : Custody 0 s.word s.list on (InUse s) s.IsPage
  nr_eq : ∀ q, s.nr q = (on q).length
  count_eq : ∀ page, s.IsPage page → s.memMap (mapNr page) = s.holders page
  ref_isPage : ∀ r ∈ s.refs, s.IsPage r.1
  drop_mem : ∀ c addr, s.call c = .drop addr → (pageMask addr, Holder.call c) ∈ s.refs

/-! ## What the invariant says of one page -/

theorem State.holders_pos {s : State ι} {page : Nat} {h : Holder ι} (hr : (page, h) ∈ s.refs) :
    s.holders page ≠ 0 := by
  have hpos : 0 < s.holders page := List.countP_pos_iff.2 ⟨(page, h), hr, by simp⟩
  omega

namespace Inv

variable {s : State ι} {on : Queue → List Nat} {q : Queue} {page : Nat}

theorem isPage_of_on (h : Inv s on) (hp : page ∈ on q) : s.IsPage page :=
  h.custody.node_of_on hp

theorem memMap_of_on (h : Inv s on) (hp : page ∈ on q) : s.memMap (mapNr page) = 0 := by
  by_contra hne
  exact h.custody.held_not_on (c := page) ⟨rfl, h.isPage_of_on hp, hne⟩ hp

/-- The lists together hold exactly the pages that are not reserved and have `mem_map` 0. -/
theorem on_iff (h : Inv s on) :
    (∃ q, page ∈ on q) ↔ s.IsPage page ∧ s.memMap (mapNr page) = 0 := by
  constructor
  · rintro ⟨q, hq⟩
    exact ⟨h.isPage_of_on hq, h.memMap_of_on hq⟩
  · rintro ⟨hpage, hzero⟩
    rcases (h.custody.node_iff page).1 hpage with hon | ⟨c, -, -, hne⟩
    · exact hon
    · exact absurd hzero hne

theorem holders_of_on (h : Inv s on) (hp : page ∈ on q) : s.holders page = 0 := by
  rw [← h.count_eq page (h.isPage_of_on hp), h.memMap_of_on hp]

theorem memMap_of_ref (h : Inv s on) {r : Nat × Holder ι} (hr : r ∈ s.refs) :
    s.memMap (mapNr r.1) ≠ 0 := by
  rw [h.count_eq r.1 (h.ref_isPage r hr)]
  exact State.holders_pos (h := r.2) hr

end Inv

/-! ## Changing the count of one page -/

section SetMap

variable {s : State ι} {page v : Nat}

theorem memMap_setMap_of_ne {a : Nat} (ha : a % pageSize = 0) (hpage : page % pageSize = 0)
    (hne : a ≠ page) : (s.setMap page v).memMap (mapNr a) = s.memMap (mapNr a) :=
  update_of_ne (fun h => hne (mapNr_inj ha hpage h)) _ _

@[simp]
theorem memMap_setMap_self : (s.setMap page v).memMap (mapNr page) = v :=
  update_self _ _ _

/-- A count that stays below the reserved bit makes no page and unmakes none. -/
theorem isPage_setMap (hpage : s.IsPage page) (hv : v < mapPageReserved) (a : Nat) :
    (s.setMap page v).IsPage a ↔ s.IsPage a := by
  by_cases ha : a = page
  · subst ha
    simp only [State.IsPage, memMap_setMap_self]
    exact ⟨fun h => ⟨h.1, h.2.1, hpage.2.2⟩, fun h => ⟨h.1, h.2.1, hv⟩⟩
  · constructor
    · rintro ⟨hmod, hlt, hmap⟩
      rw [memMap_setMap_of_ne hmod hpage.1 ha] at hmap
      exact ⟨hmod, hlt, hmap⟩
    · rintro ⟨hmod, hlt, hmap⟩
      rw [← memMap_setMap_of_ne (v := v) hmod hpage.1 ha] at hmap
      exact ⟨hmod, hlt, hmap⟩

theorem inUse_setMap (hpage : s.IsPage page) (hv : v < mapPageReserved) :
    InUse (s.setMap page v) =
      update (InUse s) page fun a => a = page ∧ v ≠ 0 := by
  funext owner a
  apply propext
  unfold InUse
  rw [isPage_setMap hpage hv]
  by_cases howner : owner = page
  · subst howner
    rw [update_self]
    constructor
    · rintro ⟨rfl, -, hne⟩
      rw [memMap_setMap_self] at hne
      exact ⟨rfl, hne⟩
    · rintro ⟨rfl, hne⟩
      rw [memMap_setMap_self]
      exact ⟨rfl, hpage, hne⟩
  · rw [update_of_ne howner]
    constructor
    · rintro ⟨rfl, ha, hne⟩
      rw [memMap_setMap_of_ne ha.1 hpage.1 howner] at hne
      exact ⟨rfl, ha, hne⟩
    · rintro ⟨rfl, ha, hne⟩
      rw [← memMap_setMap_of_ne (v := v) ha.1 hpage.1 howner] at hne
      exact ⟨rfl, ha, hne⟩

end SetMap

theorem isPage_setMap_eq {s : State ι} {page v : Nat} (hpage : s.IsPage page)
    (hv : v < mapPageReserved) : (s.setMap page v).IsPage = s.IsPage :=
  funext fun a => propext (isPage_setMap hpage hv a)

/-! ## Taking a page -/

/-- The first page `d` of a list is taken: `REMOVE_FROM_MEM_QUEUE` in the normal case. -/
def takePage (q : Queue) (d : Nat) (s : State ι) : State ι :=
  { s.setMap d 1 with
    list := update s.list q (s.word d)
    nr := update s.nr q (s.nr q - 1) }

/-- **`REMOVE_FROM_MEM_QUEUE` never complains.**  It finds an empty list, or takes the first page
of the list. -/
theorem removeFromMemQueue_cases {s : State ι} {on : Queue → List Nat} (h : Inv s on) (q : Queue) :
    (on q = [] ∧ removeFromMemQueue q s = (s, [], none)) ∨
      ∃ d t, on q = d :: t ∧ removeFromMemQueue q s = (takePage q d s, [], some d) := by
  have hthreads := h.custody.family.threads q
  unfold removeFromMemQueue
  by_cases hnull : s.list q = 0
  · left
    have hempty : on q = [] := by
      rw [hnull] at hthreads
      cases hon : on q with
      | nil => rfl
      | cons x t =>
        rw [hon] at hthreads
        exact absurd hthreads.1.symm hthreads.2.1
    have hnr : s.nr q = 0 := by simp [h.nr_eq, hempty]
    refine ⟨hempty, ?_⟩
    simp [hnull, hnr]
  · right
    obtain ⟨t, ht, -⟩ := hthreads.exists_cons hnull
    have hmem : s.list q ∈ on q := by simp [ht]
    have hpage := h.isPage_of_on hmem
    refine ⟨s.list q, t, ht, ?_⟩
    simp only [hnull, ne_eq, not_false_eq_true, if_true, hpage.1, hpage.2.1, and_self,
      h.memMap_of_on hmem]
    rfl

section Code

variable [DecidableEq ι] {s : State ι} {on : Queue → List Nat}

/-- **A page is returned** by `__get_free_page`: it leaves its list and has one holder. -/
theorem Inv.take (h : Inv s on) (c : ι) {q : Queue} {d : Nat} {t : List Nat}
    (hq : on q = d :: t) :
    Inv (returnPage c d (takePage q d s)) (update on q t) := by
  have hd : d ∈ on q := by simp [hq]
  have hpage := h.isPage_of_on hd
  have hlt : 1 < mapPageReserved := by decide
  have hsame : (returnPage c d (takePage q d s)).IsPage = s.IsPage := isPage_setMap_eq hpage hlt
  refine ⟨?_, fun q' => ?_, fun page hp => ?_, fun r hr => ?_, fun c' addr hc' => ?_⟩
  · have hfree : ∀ x, ¬ InUse s d x := by
      rintro x ⟨rfl, -, hne⟩
      exact hne (h.memMap_of_on hd)
    have hpop := h.custody.pop hq hfree
    have huse : InUse (returnPage c d (takePage q d s)) =
        update (InUse s) d (· = d) := by
      have huse := inUse_setMap (v := 1) hpage hlt
      simp only [ne_eq, one_ne_zero, not_false_eq_true, and_true] at huse
      exact huse
    rw [hsame, huse]
    exact hpop
  · show update s.nr q (s.nr q - 1) q' = _
    by_cases hq' : q' = q
    · subst hq'
      rw [update_self, update_self, h.nr_eq, hq]
      simp
    · rw [update_of_ne hq', update_of_ne hq', h.nr_eq]
  · rw [hsame] at hp
    show (s.setMap d 1).memMap (mapNr page) = List.countP _ ((d, Holder.kernel) :: s.refs)
    by_cases hne : page = d
    · subst hne
      have hzero : s.holders page = 0 := h.holders_of_on hd
      rw [memMap_setMap_self, List.countP_cons_of_pos (by simp)]
      exact (congrArg (· + 1) hzero).symm
    · rw [memMap_setMap_of_ne hp.1 hpage.1 hne, h.count_eq page hp,
        List.countP_cons_of_neg (by simpa using fun hd => hne hd.symm)]
      rfl
  · rw [hsame]
    rcases List.mem_cons.1 hr with rfl | hr
    · exact hpage
    · exact h.ref_isPage r hr
  · have hne : c' ≠ c := by
      rintro rfl
      have : update s.call c' Call.idle c' = Call.drop addr := hc'
      simp at this
    have hcall : s.call c' = .drop addr := by
      have : update s.call c Call.idle c' = Call.drop addr := hc'
      rwa [update_of_ne hne] at this
    exact List.mem_cons_of_mem _ (h.drop_mem c' addr hcall)

/-- A call that is not in `free_page` moves on. -/
theorem Inv.goto (h : Inv s on) (c : ι) {pc : Call} (hpc : ∀ addr, pc ≠ .drop addr) :
    Inv (s.goto c pc) on := by
  refine ⟨h.custody, h.nr_eq, h.count_eq, h.ref_isPage, fun c' addr hc' => ?_⟩
  have hc : update s.call c pc c' = Call.drop addr := hc'
  by_cases hcc : c' = c
  · subst hcc
    rw [update_self] at hc
    exact absurd hc (hpc addr)
  · rw [update_of_ne hcc] at hc
    exact h.drop_mem c' addr hc

end Code

/-! ## Dropping a reference -/

section Drop

variable {s : State ι} {on : Queue → List Nat} {page : Nat}

/-- The last reference goes: the page joins a list. -/
theorem Inv.custody_push (h : Inv s on) (hpage : s.IsPage page)
    (hone : s.memMap (mapNr page) = 1) (q : Queue) :
    Custody 0 (update s.word page (s.list q)) (update s.list q page)
      (update on q (page :: on q)) (InUse (s.setMap page 0)) s.IsPage := by
  have hself : ∀ x, InUse s page x ↔ x = page := by
    intro x
    constructor
    · exact fun hx => hx.1
    · rintro rfl
      exact ⟨rfl, hpage, by omega⟩
  have huse := inUse_setMap (v := 0) hpage (by decide)
  simp only [ne_eq, not_true_eq_false, and_false] at huse
  rw [huse]
  exact h.custody.push hself

/-- A reference goes, but not the last one. -/
theorem Inv.custody_keep (h : Inv s on) (hpage : s.IsPage page)
    {v : Nat} (hv : v ≠ 0) (hlt : v < mapPageReserved) (huse : s.memMap (mapNr page) ≠ 0) :
    Custody 0 s.word s.list on (InUse (s.setMap page v)) s.IsPage := by
  have hself : InUse (s.setMap page v) = InUse s := by
    rw [inUse_setMap hpage hlt]
    funext owner a
    by_cases howner : owner = page
    · subst howner
      rw [update_self]
      apply propext
      constructor
      · rintro ⟨rfl, -⟩
        exact ⟨rfl, hpage, huse⟩
      · rintro ⟨rfl, -, -⟩
        exact ⟨rfl, hv⟩
    · rw [update_of_ne howner]
  rw [hself]
  exact h.custody

theorem Inv.nr_push (h : Inv s on) (q q' : Queue) :
    update s.nr q (s.nr q + 1) q' =
      ((update on q (page :: on q) q').length : Int) := by
  by_cases hq : q' = q
  · subst hq
    rw [update_self, update_self, h.nr_eq]
    simp
  · rw [update_of_ne hq, update_of_ne hq, h.nr_eq]

end Drop

section Drop

variable [DecidableEq ι] {s s' : State ι} {on on' : Queue → List Nat} {c : ι} {page : Nat}

/-- The call `c` drops the reference it answers for, however the lists change meanwhile. -/
theorem Inv.of_drop (h : Inv s on) (href : (page, Holder.call c) ∈ s.refs)
    (hmap : s'.memMap = (s.setMap page (s.memMap (mapNr page) - 1)).memMap)
    (hhigh : s'.highMemory = s.highMemory) (hcall : s'.call = update s.call c .idle)
    (hrefs : s'.refs = s.refs.erase (page, .call c)) (hnr : ∀ q, s'.nr q = (on' q).length)
    (hcustody : Custody 0 s'.word s'.list on'
      (InUse (s.setMap page (s.memMap (mapNr page) - 1))) s.IsPage) :
    Inv s' on' := by
  have hpage : s.IsPage page := h.ref_isPage _ href
  have hlt : s.memMap (mapNr page) - 1 < mapPageReserved := by
    have := hpage.2.2
    omega
  have hsame : s'.IsPage = s.IsPage := by
    rw [← isPage_setMap_eq hpage hlt]
    funext a
    unfold State.IsPage
    rw [hmap, hhigh]
    rfl
  have huse : InUse s' = InUse (s.setMap page (s.memMap (mapNr page) - 1)) := by
    funext owner a
    unfold InUse
    rw [hsame, hmap, isPage_setMap_eq hpage hlt]
  refine ⟨?_, hnr, fun a ha => ?_, fun r hr => ?_, fun c' addr hc' => ?_⟩
  · rw [hsame, huse]
    exact hcustody
  · rw [hsame] at ha
    rw [hmap, State.holders, hrefs, List.countP_erase]
    by_cases hne : a = page
    · subst hne
      rw [memMap_setMap_self, h.count_eq a ha, if_pos ⟨href, by simp⟩]
      rfl
    · rw [memMap_setMap_of_ne ha.1 hpage.1 hne, h.count_eq a ha,
        if_neg fun hx => hne (by simpa [eq_comm] using hx.2)]
      rfl
  · rw [hsame]
    rw [hrefs] at hr
    exact h.ref_isPage r (List.mem_of_mem_erase hr)
  · rw [hcall] at hc'
    have hne : c' ≠ c := by
      rintro rfl
      rw [update_self] at hc'
      exact absurd hc' (by simp)
    rw [update_of_ne hne] at hc'
    rw [hrefs, List.mem_erase_of_ne (by simpa using fun _ => hne)]
    exact h.drop_mem c' addr hc'

/-- **`free_page` keeps the invariant**: a page whose last reference goes joins one of the two
lists. -/
theorem Inv.drop (h : Inv s on) {addr : Nat} (hcall : s.call c = .drop addr) :
    ∃ on', Inv { (dropPage addr s).goto c .idle with
      refs := (dropPage addr s).refs.erase (pageMask addr, .call c) } on' := by
  have href := h.drop_mem c addr hcall
  have hpage : s.IsPage (pageMask addr) := h.ref_isPage _ href
  have hne : s.memMap (mapNr (pageMask addr)) ≠ 0 := h.memMap_of_ref href
  have hset : ∀ v, s.setMap addr v = s.setMap (pageMask addr) v := by
    intro v
    simp [State.setMap]
  unfold dropPage
  simp only [hset, ← mapNr_pageMask addr, memMap_setMap_self]
  by_cases hlast : s.memMap (mapNr (pageMask addr)) - 1 = 0
  · have hone : s.memMap (mapNr (pageMask addr)) = 1 := by omega
    simp only [hlast, if_true]
    by_cases hsec : (s.setMap (pageMask addr) 0).nr .secondary < maxSecondaryPages
    · rw [if_pos hsec]
      refine ⟨update on .secondary (pageMask addr :: on .secondary), ?_⟩
      refine h.of_drop href (by rw [hlast]; rfl) rfl rfl rfl (h.nr_push .secondary) ?_
      rw [hlast]
      exact h.custody_push hpage hone .secondary
    · rw [if_neg hsec]
      refine ⟨update on .free (pageMask addr :: on .free), ?_⟩
      refine h.of_drop href (by rw [hlast]; rfl) rfl rfl rfl (h.nr_push .free) ?_
      rw [hlast]
      exact h.custody_push hpage hone .free
  · rw [if_neg hlast]
    refine ⟨on, h.of_drop href rfl rfl rfl rfl h.nr_eq ?_⟩
    have := hpage.2.2
    exact h.custody_keep hpage hlast (by omega) hne

/-- A call of `free_page` now answers for a reference the kernel held. -/
theorem Inv.handOver (h : Inv s on) {addr : Nat}
    (href : (pageMask addr, Holder.kernel) ∈ s.refs) :
    Inv ((s.goto c (.drop addr)).handOver c (pageMask addr)) on := by
  have hrefs : ((s.goto c (.drop addr)).handOver c (pageMask addr)) =
      { s.goto c (.drop addr) with
        refs := (pageMask addr, .call c) :: s.refs.erase (pageMask addr, .kernel) } := by
    simp [State.handOver, State.goto]
  rw [hrefs]
  refine ⟨h.custody, h.nr_eq, fun a ha => ?_, fun r hr => ?_, fun c' addr' hc' => ?_⟩
  · show s.memMap (mapNr a) = List.countP _ _
    rw [h.count_eq a ha, List.countP_cons, List.countP_erase]
    have hpos : a = pageMask addr → s.holders a ≠ 0 := by
      rintro rfl
      exact State.holders_pos href
    unfold State.holders at hpos ⊢
    by_cases hne : pageMask addr = a
    · subst hne
      have := hpos rfl
      rw [if_pos ⟨href, by simp⟩, if_pos (by simp)]
      omega
    · simp [hne]
  · rcases List.mem_cons.1 hr with rfl | hr
    · exact h.ref_isPage (pageMask addr, Holder.kernel) href
    · exact h.ref_isPage r (List.mem_of_mem_erase hr)
  · have hc : update s.call c (.drop addr) c' = Call.drop addr' := hc'
    by_cases hcc : c' = c
    · subst hcc
      rw [update_self] at hc
      cases hc
      exact List.mem_cons_self
    · rw [update_of_ne hcc] at hc
      refine List.mem_cons_of_mem _ ?_
      rw [List.mem_erase_of_ne (by simp)]
      exact h.drop_mem c' addr' hc

end Drop

/-! ## The other steps -/

section Other

variable {s : State ι} {on : Queue → List Nat} {page : Nat}

theorem Inv.share (h : Inv s on) (href : (page, Holder.kernel) ∈ s.refs)
    (hlt : s.memMap (mapNr page) + 1 < mapPageReserved) :
    Inv { s.setMap page (s.memMap (mapNr page) + 1) with
      refs := (page, .kernel) :: s.refs } on := by
  have hpage : s.IsPage page := h.ref_isPage _ href
  have hsame := isPage_setMap_eq hpage hlt
  refine ⟨?_, h.nr_eq, fun a ha => ?_, fun r hr => ?_, fun c addr hc => ?_⟩
  · show Custody 0 s.word s.list on (InUse (s.setMap page _)) (s.setMap page _).IsPage
    rw [hsame]
    exact h.custody_keep hpage (Nat.succ_ne_zero _) hlt (h.memMap_of_ref href)
  · replace ha : (s.setMap page (s.memMap (mapNr page) + 1)).IsPage a := ha
    rw [hsame] at ha
    show (s.setMap page (s.memMap (mapNr page) + 1)).memMap (mapNr a) = List.countP _ _
    by_cases hne : a = page
    · subst hne
      rw [memMap_setMap_self, h.count_eq a ha, List.countP_cons_of_pos (by simp)]
      rfl
    · rw [memMap_setMap_of_ne ha.1 hpage.1 hne, h.count_eq a ha,
        List.countP_cons_of_neg (by simpa using fun h => hne h.symm)]
      rfl
  · show (s.setMap page _).IsPage r.1
    rw [hsame]
    rcases List.mem_cons.1 hr with rfl | hr
    · exact hpage
    · exact h.ref_isPage r hr
  · exact List.mem_cons_of_mem _ (h.drop_mem c addr hc)

theorem Inv.store (h : Inv s on) (v : Nat) (hheld : s.IsPage page → s.holders page ≠ 0) :
    Inv { s with word := update s.word page v } on := by
  refine ⟨?_, h.nr_eq, h.count_eq, h.ref_isPage, h.drop_mem⟩
  refine h.custody.congr fun q d hd => update_of_ne ?_ _ _
  rintro rfl
  exact hheld (h.isPage_of_on hd) (h.holders_of_on hd)

variable [DecidableEq ι]

/-- `free_page` up to its `cli`: either nothing happens or the call answers for the
reference. -/
theorem freePage_cases (h : Inv s on) {c : ι} {addr : Nat}
    (hheld : s.IsPage (pageMask addr) → (pageMask addr, Holder.kernel) ∈ s.refs) :
    freePage c addr s = (s, []) ∨
      ((pageMask addr, Holder.kernel) ∈ s.refs ∧
        freePage c addr s = (s.goto c (.drop addr), [])) := by
  unfold freePage
  by_cases hhigh : addr < s.highMemory
  · by_cases hres : s.memMap (mapNr addr) < mapPageReserved
    · have hpage : s.IsPage (pageMask addr) := by
        refine ⟨pageMask_mod addr, lt_of_le_of_lt (Nat.div_mul_le_self _ _) hhigh, ?_⟩
        rwa [mapNr_pageMask]
      have hne := h.memMap_of_ref (hheld hpage)
      rw [mapNr_pageMask] at hne
      right
      refine ⟨hheld hpage, ?_⟩
      simp [hhigh, hres, hne]
    · have hne : s.memMap (mapNr addr) ≠ 0 := by
        have : 0 < mapPageReserved := by decide
        omega
      left
      simp [hhigh, hres, hne]
  · left
    simp [hhigh]

end Other

/-! ## One step -/

section Step

variable {s : State ι} {on : Queue → List Nat}

/-- What a step may show: `__get_free_page` returns 0, or a page without a holder. -/
def Quiet (s : State ι) (out : List (Output ι)) : Prop :=
  ∀ o ∈ out, ∃ c page, o = .returns c page ∧ (page ≠ 0 → s.IsPage page ∧ s.holders page = 0)

theorem Quiet.nil : Quiet s [] := fun _ h => absurd h (by simp)

theorem Quiet.returns_zero {c : ι} : Quiet s [.returns c 0] := by
  intro o ho
  rw [List.mem_singleton] at ho
  exact ⟨c, 0, ho, fun h => absurd rfl h⟩

theorem Quiet.returns_page (h : Inv s on) {c : ι} {q : Queue} {d : Nat} (hd : d ∈ on q) :
    Quiet s [.returns c d] := by
  intro o ho
  rw [List.mem_singleton] at ho
  exact ⟨c, d, ho, fun _ => ⟨h.isPage_of_on hd, h.holders_of_on hd⟩⟩

variable [DecidableEq ι]

theorem firstQueue_inv (h : Inv s on) (c : ι) (priority : Int) :
    Quiet s (firstQueue c priority s).2 ∧ ∃ on', Inv (firstQueue c priority s).1 on' := by
  unfold firstQueue
  rcases removeFromMemQueue_cases h .free with ⟨-, heq⟩ | ⟨d, t, hq, heq⟩
  · rw [heq]
    dsimp only
    split
    · exact ⟨Quiet.returns_zero, on, h.goto c (by simp)⟩
    · split
      · exact ⟨Quiet.nil, on, h.goto c (by simp)⟩
      · exact ⟨Quiet.nil, on, h.goto c (by simp)⟩
  · rw [heq]
    exact ⟨Quiet.returns_page h (q := .free) (by simp [hq]), _, h.take c hq⟩

theorem secondQueue_inv (h : Inv s on) (c : ι) :
    Quiet s (secondQueue c s).2 ∧ ∃ on', Inv (secondQueue c s).1 on' := by
  unfold secondQueue
  rcases removeFromMemQueue_cases h .secondary with ⟨-, heq⟩ | ⟨d, t, hq, heq⟩
  · rw [heq]
    exact ⟨Quiet.returns_zero, on, h.goto c (by simp)⟩
  · rw [heq]
    exact ⟨Quiet.returns_page h (q := .secondary) (by simp [hq]), _, h.take c hq⟩

/-- **One step** keeps the invariant and prints nothing. -/
theorem stepOut_inv (h : Inv s on) {e : Event ι} (hok : Allowed s e) {s' : State ι}
    {out : List (Output ι)} (he : stepOut s e = some (s', out)) :
    Quiet s out ∧ ∃ on', Inv s' on' := by
  cases e with
  | getFreePage c priority =>
    cases he
    exact ⟨Quiet.nil, on, h.goto c (by simp)⟩
  | freePage c addr =>
    simp only [stepOut, Option.some.injEq, Prod.mk.injEq] at he
    obtain ⟨rfl, rfl⟩ := he
    rcases freePage_cases h (c := c) hok.2 with heq | ⟨href, heq⟩
    · rw [heq]
      refine ⟨Quiet.nil, on, ?_⟩
      simpa [State.handOver, hok.1] using h
    · rw [heq]
      exact ⟨Quiet.nil, on, h.handOver href⟩
  | proceed c =>
    unfold stepOut proceed at he
    cases hcall : s.call c with
    | idle | reclaim priority => simp [hcall] at he
    | repeatGet priority =>
      simp only [hcall, Option.some.injEq] at he
      have := firstQueue_inv h c priority
      rwa [he] at this
    | second =>
      simp only [hcall, Option.some.injEq] at he
      have := secondQueue_inv h c
      rwa [he] at this
    | drop addr =>
      simp only [hcall, Option.some.injEq, Prod.mk.injEq] at he
      obtain ⟨rfl, rfl⟩ := he
      exact ⟨Quiet.nil, h.drop hcall⟩
  | reclaimed c freed =>
    unfold stepOut at he
    cases hcall : s.call c with
    | reclaim priority =>
      simp only [hcall, Option.some.injEq, Prod.mk.injEq] at he
      obtain ⟨rfl, rfl⟩ := he
      refine ⟨Quiet.nil, on, h.goto c ?_⟩
      cases freed <;> simp
    | _ => simp [hcall] at he
  | share page =>
    cases he
    exact ⟨Quiet.nil, on, h.share hok.1 hok.2⟩
  | store page v =>
    cases he
    exact ⟨Quiet.nil, on, h.store v hok⟩

end Step

/-! ## Boot -/

theorem foldl_clear_apply (l : List Nat) (m : Nat → Nat) (nr : Nat) :
    l.foldl (fun m nr => update m nr 0) m nr = if nr ∈ l then 0 else m nr := by
  induction l generalizing m with
  | nil => simp
  | cons a l ih =>
    rw [List.foldl_cons, ih]
    by_cases hl : nr ∈ l
    · simp [hl]
    · by_cases ha : nr = a
      · subst ha
        simp
      · simp [hl, ha]

theorem clearPages_apply (start limit : Nat) (m : Nat → Nat) (nr : Nat) :
    clearPages start limit m nr = if mapNr start ≤ nr ∧ nr < mapNr limit then 0 else m nr := by
  unfold clearPages
  rw [foldl_clear_apply]
  have hiff : nr ∈ List.range' (mapNr start) (mapNr limit - mapNr start) ↔
      mapNr start ≤ nr ∧ nr < mapNr limit := by
    rw [List.mem_range'_1]
    omega
  simp only [hiff]

namespace BootMemory

variable (b : BootMemory)

theorem memMap_eq (nr : Nat) : b.memMap nr = 0 ∨ b.memMap nr = mapPageReserved := by
  unfold memMap
  rw [clearPages_apply, clearPages_apply]
  split
  · exact .inl rfl
  · split
    · exact .inl rfl
    · exact .inr rfl

/-- The first page, where `free_page_list` would end, is reserved. -/
theorem memMap_zero : b.memMap 0 = mapPageReserved := by
  have hlow := b.pageSize_le
  have hstart := b.mb_le_start
  have hnot : ∀ a, pageSize ≤ a → ¬ (mapNr (pageAlign a) ≤ 0 ∧ 0 < mapNr 0xA0000) := by
    unfold mapNr pageAlign pageMask pageSize
    omega
  have hafter : ¬ mapNr (pageAlign b.afterMap) ≤ 0 := by
    unfold mapNr pageAlign pageMask afterMap pageSize
    omega
  unfold memMap
  rw [clearPages_apply, clearPages_apply, if_neg fun h => hafter h.1,
    if_neg (hnot b.startLowMem hlow)]

/-- **The free list `mem_init` builds** visits the pages with `mem_map` 0, the last one
first. -/
theorem buildList_threads (memMap : Nat → Nat) (word : Nat → Nat) (l : List Nat) (hl : l.Nodup)
    (hzero : memMap 0 ≠ 0) :
    Threads 0 (buildList memMap word l).1 (buildList memMap word l).2.1
        ((l.filter fun nr => memMap nr = 0).reverse.map (· * pageSize)) ∧
      (buildList memMap word l).2.2 = ((l.filter fun nr => memMap nr = 0).length : Int) := by
  induction l using List.reverseRecOn with
  | nil => exact ⟨rfl, rfl⟩
  | append_singleton l nr ih =>
    obtain ⟨hthreads, hlen⟩ := ih hl.of_append_left
    have hnew : nr ∉ l := by
      intro hmem
      exact (List.nodup_append.1 hl).2.2 nr hmem nr (List.mem_singleton_self nr) rfl
    unfold buildList at hthreads hlen ⊢
    rw [List.foldl_append, List.foldl_cons, List.foldl_nil, List.filter_append]
    by_cases hfree : memMap nr = 0
    · have hnr : nr ≠ 0 := by
        rintro rfl
        exact hzero hfree
      simp only [hfree, ne_eq, not_true_eq_false, if_false, List.filter_cons, decide_true,
        if_true, List.filter_nil, List.reverse_append, List.reverse_singleton,
        List.singleton_append, List.map_cons, List.length_append, List.length_singleton]
      refine ⟨hthreads.push ?_ ?_, ?_⟩
      · intro hmem
        obtain ⟨x, hx, heq⟩ := List.mem_map.1 hmem
        have hxn : x = nr := Nat.eq_of_mul_eq_mul_right (by decide) heq
        rw [List.mem_reverse, List.mem_filter] at hx
        exact hnew (hxn ▸ hx.1)
      · unfold pageSize
        omega
      · rw [hlen]
        push_cast
        rfl
    · simp only [hfree, ne_eq, not_false_eq_true, if_true, List.filter_cons, decide_false,
        Bool.false_eq_true, if_false, List.filter_nil, List.append_nil]
      exact ⟨hthreads, hlen⟩

/-- What the two lists visit at boot. -/
def onBoot : Queue → List Nat
  | .free => ((List.range (mapNr b.highMemory)).filter
      fun nr => b.memMap nr = 0).reverse.map (· * pageSize)
  | .secondary => []

theorem mem_onBoot {page : Nat} : page ∈ b.onBoot .free ↔
    page % pageSize = 0 ∧ page < b.highMemory ∧ b.memMap (mapNr page) = 0 := by
  have hhigh : b.highMemory = mapNr b.highMemory * pageSize :=
    (pageMask_eq_self (pageMask_mod b.endMem)).symm
  simp only [onBoot, List.mem_map, List.mem_reverse, List.mem_filter, List.mem_range,
    decide_eq_true_eq]
  constructor
  · rintro ⟨nr, ⟨hlt, hmap⟩, rfl⟩
    refine ⟨by simp, ?_, by rwa [mapNr_mul]⟩
    rw [hhigh]
    exact Nat.mul_lt_mul_of_pos_right hlt (by decide)
  · rintro ⟨hmod, hlt, hmap⟩
    exact ⟨mapNr page, ⟨mapNr_lt (pageMask_mod _) hlt, hmap⟩, pageMask_eq_self hmod⟩

end BootMemory

/-- **At boot** the invariant holds. -/
theorem inv_memInit (b : BootMemory) (word : Nat → Nat) :
    Inv (b.memInit word : State ι) b.onBoot := by
  have hpage : ∀ page, (b.memInit word : State ι).IsPage page ↔ page ∈ b.onBoot .free := by
    intro page
    rw [BootMemory.mem_onBoot]
    refine and_congr_right fun _ => and_congr_right fun _ => ?_
    show b.memMap (mapNr page) < mapPageReserved ↔ _
    rcases b.memMap_eq (mapNr page) with h | h <;> simp [h, mapPageReserved]
  have hzero : b.memMap 0 ≠ 0 := by
    rw [b.memMap_zero]
    decide
  obtain ⟨hthreads, hlen⟩ :=
    BootMemory.buildList_threads b.memMap word (List.range (mapNr b.highMemory)) List.nodup_range
      hzero
  have hnone : ∀ c page, ¬ InUse (b.memInit word : State ι) c page := by
    rintro c page ⟨-, hp, hne⟩
    exact hne (b.mem_onBoot.1 ((hpage page).1 hp)).2.2
  refine ⟨⟨⟨fun q => ?_, fun q => ?_, fun {q q' d} hq hq' => ?_⟩, fun d => ?_, fun d hd => ?_,
    fun h => absurd h (hnone _ _), fun h => absurd h (hnone _ _)⟩, fun q => ?_, fun page hp => ?_,
    fun r hr => absurd hr (by simp [BootMemory.memInit]),
    fun c addr hc => absurd hc (by simp [BootMemory.memInit])⟩
  · cases q with
    | free => exact hthreads
    | secondary => exact rfl
  · cases q with
    | free =>
      refine List.Nodup.map (fun x y hxy => Nat.eq_of_mul_eq_mul_right (by decide) hxy) ?_
      exact List.nodup_reverse.2 (List.nodup_range.filter _)
    | secondary => exact List.nodup_nil
  · cases q <;> cases q' <;> first | rfl | simp [BootMemory.onBoot] at hq hq'
  · rw [hpage]
    constructor
    · exact fun hd => .inl ⟨.free, hd⟩
    · rintro (⟨q, hq⟩ | ⟨c, hc⟩)
      · cases q with
        | free => exact hq
        | secondary => exact absurd hq (by simp [BootMemory.onBoot])
      · exact absurd hc (hnone c d)
  · rintro rfl
    exact hzero (b.mem_onBoot.1 ((hpage 0).1 hd)).2.2
  · cases q with
    | free =>
      show (BootMemory.buildList _ _ _).2.2 = _
      rw [hlen]
      simp [BootMemory.onBoot]
    | secondary => rfl
  · have := (b.mem_onBoot.1 ((hpage page).1 hp)).2.2
    exact this

/-! ## Any run -/

/-- The lists, the counters and the console of the page allocator, as they should be. -/
structure Accounted [DecidableEq ι] (s : State ι) : Prop where
  /-- The two lists are disjoint and without duplicates, hold exactly the pages with `mem_map` 0
  that are not reserved, and the counters are their lengths. -/
  lists : ∃ on, Family 0 s.word s.list on ∧
    (∀ page, (∃ q, page ∈ on q) ↔ s.IsPage page ∧ s.memMap (mapNr page) = 0) ∧
    ∀ q, s.nr q = (on q).length
  /-- No step complains, and `__get_free_page` returns no page that has a holder. -/
  quiet : ∀ e s' out, Allowed s e → stepOut s e = some (s', out) → Quiet s out

/-- **The page allocator loses no page, and gives none away twice.** -/
theorem pages_accounted_of_reach [DecidableEq ι] (b : BootMemory) (word : Nat → Nat)
    {s : State ι} (h : Reach step Allowed (b.memInit word) s) : Accounted s := by
  have hinv : ∃ on, Inv s on := by
    refine h.invariant (I := fun s => ∃ on, Inv s on) ⟨_, inv_memInit b word⟩ ?_
    rintro s e s' ⟨on, hon⟩ hok he
    obtain ⟨⟨s'', out⟩, hout, rfl⟩ := Option.map_eq_some_iff.1 he
    exact (stepOut_inv hon hok hout).2
  obtain ⟨on, hon⟩ := hinv
  refine ⟨⟨on, hon.custody.family, fun page => hon.on_iff, hon.nr_eq⟩, ?_⟩
  intro e s' out hok hout
  exact (stepOut_inv hon hok hout).1

/-- A machine with 1 MB: the pages from 4 kB to 640 kB are free at boot. -/
def smallBoot : BootMemory := ⟨0x1000, 0x100000, 0x100000, by decide, by decide⟩

/-- The theorem at a run in which one page is taken. -/
theorem pages_accounted_after_get :
    ∃ s : State Unit, Reach step Allowed (smallBoot.memInit fun _ => 0) s ∧
      s.holders 0x9f000 = 1 ∧ Accounted s := by
  have hget : Reach step Allowed (smallBoot.memInit fun _ => 0)
      (getFreePage () 3 (smallBoot.memInit fun _ => 0)) :=
    Reach.init.step (.getFreePage () 3) rfl rfl
  have hpage := hget.step (Event.proceed ()) trivial rfl
  exact ⟨_, hpage, by decide +kernel, pages_accounted_of_reach smallBoot (fun _ => 0) hpage⟩

end LinuxEvocation.Mm.PageAlloc
