import LinuxEvocation.Malloc.Invariant

/-!
# The steps of `kmalloc` keep the invariant

A step either moves descriptors between lists and calls (`Inv.relink`), or takes a page,
or works on the page of one descriptor.

* `kmalloc_inv`, `getFreePage_inv`, `proceed_inv` — the steps.
-/

namespace LinuxEvocation.Malloc

open Function (update update_eq_self update_of_ne update_self)
open LinkedList

variable {ι : Type*}

/-! ## Frames -/

theorem holdsOf_update [DecidableEq ι] (call : ι → Call) (c : ι) (x : Call) :
    holdsOf (update call c x) = update (holdsOf call) (some c) x.Holds := by
  funext o d
  cases o with
  | none => rw [update_of_ne (by simp)]; rfl
  | some c' =>
    by_cases hc : c' = c
    · subst hc
      simp [holdsOf]
    · rw [update_of_ne (by simpa using hc)]
      simp [holdsOf, hc]

theorem holdsOf_update_same [DecidableEq ι] {call : ι → Call} {c : ι} {x : Call}
    (hx : x.Holds = (call c).Holds) : holdsOf (update call c x) = holdsOf call := by
  rw [holdsOf_update, hx]
  exact update_eq_self (some c) (holdsOf call)

theorem next_update (desc : Nat → BucketDesc) (d : Nat) (x : BucketDesc) :
    (fun a => (update desc d x a).next) =
      update (fun a => (desc a).next) d x.next :=
  Function.comp_update BucketDesc.next desc d x

/-- The list is the same when the field `next` is. -/
theorem next_update_eq (s : State ι) {d : Nat} {x : BucketDesc} (hx : x.next = s.next d) :
    (fun a => (update s.desc d x a).next) = s.next := by
  rw [next_update, hx]
  exact update_eq_self d s.next

theorem head_free (s : State ι) (v : Nat) :
    ({ s with freeBucketDesc := v } : State ι).head = update s.head .free v := by
  funext q
  cases q with
  | free => rfl
  | bucket size => rfl

theorem head_chain (s : State ι) (size v : Nat) :
    ({ s with chain := update s.chain size v } : State ι).head =
      update s.head (.bucket size) v := by
  funext q
  cases q with
  | free => rfl
  | bucket size' =>
    by_cases hs : size' = size
    · subst hs
      simp [State.head]
    · rw [update_of_ne (by simpa using hs)]
      simp [State.head, hs]

theorem setNext_next (s : State ι) (d v : Nat) :
    (s.setNext d v).next = update s.next d v :=
  next_update s.desc d _

theorem setNext_desc_of_ne (s : State ι) {d a : Nat} (v : Nat) (h : a ≠ d) :
    (s.setNext d v).desc a = s.desc a :=
  update_of_ne h _ _

theorem setNext_desc (s : State ι) (d v a : Nat) :
    ∃ n, (s.setNext d v).desc a = { s.desc a with next := n } := by
  by_cases h : a = d
  · subst h
    exact ⟨v, update_self ..⟩
  · exact ⟨(s.desc a).next, setNext_desc_of_ne s v h⟩

@[simp]
theorem setNext_page (s : State ι) (d v a : Nat) :
    ((s.setNext d v).desc a).page = (s.desc a).page := by
  obtain ⟨n, hn⟩ := setNext_desc s d v a
  rw [hn]

/-- What a call knows depends on the descriptors it holds and on its page. -/
theorem Call.Ok.congr {s s' : State ι} {call : Call} (h : call.Ok s)
    (hdesc : ∀ d, call.Holds d → s'.desc d = s.desc d)
    (hmem : ∀ d, call.SetsUp d → ∀ a, OnPage (s.desc d).page a → s'.mem a = s.mem a)
    (hpages : ∀ p ∈ s.descPages, p ∈ s'.descPages) : call.Ok s' := by
  cases call with
  | idle => trivial
  | needDescPage | needPage => exact h
  | initDesc len size page k =>
    obtain ⟨hfits, hpage, hk, hlinked⟩ := h
    refine ⟨hfits, hpages page hpage, hk, fun j hj => ?_⟩
    unfold State.next at *
    rw [hdesc _ ⟨j, by omega, rfl⟩]
    exact hlinked j hj
  | setUp len size bdesc page k =>
    obtain ⟨hfits, hk, hpage, hfree, hcnt, hsize, hthreaded⟩ := h
    rw [Call.Ok, hdesc bdesc rfl]
    refine ⟨hfits, hk, hpage, hfree, hcnt, hsize, fun j hj => ?_⟩
    have hslot : Slot page size (page + j * size) := ⟨j, by omega, rfl⟩
    rw [hmem bdesc rfl _ (hpage ▸ hslot.onPage)]
    exact hthreaded j hj

/-- What a bucket knows depends on its descriptor, its page and the objects there. -/
theorem Bucket.congr {s s' : State ι} {size d : Nat} (h : Bucket s size d)
    (hdesc : ∃ n, s'.desc d = { s.desc d with next := n })
    (hmem : ∀ a, Slot (s.desc d).page size a → s.live a = none → s'.mem a = s.mem a)
    (hlive : ∀ a, OnPage (s.desc d).page a → s'.live a = s.live a) : Bucket s' size d := by
  obtain ⟨n, hn⟩ := hdesc
  refine ⟨h.size_mem, ?_, ?_, ?_⟩ <;> rw [hn]
  · exact h.bucketSize
  · exact h.refcnt.trans (liveOn_congr hlive).symm
  · exact h.freeList.congr hmem hlive

theorem Owned.congr {s s' : State ι} {p : Nat} (h : Owned s p)
    (hout : s'.outstanding p = s.outstanding p) : Owned s' p :=
  ⟨h.aligned, h.ne_zero, hout.trans h.outstanding⟩

/-- The pages are the same, and no other descriptor is in use. -/
theorem Pages.congr {s s' : State ι} {on on' : Queue → List Nat} (h : Pages s on)
    (huse : ∀ {d}, InUse s'.call on' d → InUse s.call on d)
    (hpage : ∀ d, (s'.desc d).page = (s.desc d).page) (hout : s'.outstanding = s.outstanding)
    (hpages : s'.descPages = s.descPages) : Pages s' on' := by
  refine ⟨fun d hd => ?_, fun d d' hd hd' heq => ?_, fun p hp => ?_, fun d hd => ?_⟩
  · rw [hpage]
    exact (h.owned d (huse hd)).congr (congrFun hout _)
  · rw [hpage, hpage] at heq
    exact h.inj d d' (huse hd) (huse hd') heq
  · exact (h.descs p (hpages ▸ hp)).congr (congrFun hout _)
  · rw [hpage, hpages]
    exact h.apart d (huse hd)

/-- A step that moves descriptors and does not touch a page in use. -/
theorem Inv.relink {s s' : State ι} {on on' : Queue → List Nat} {next : Nat → Nat}
    {head : Queue → Nat} {holds : Option ι → Nat → Prop} (h : Inv s on)
    (hcustody : Custody 0 next head on' holds s.IsDesc) (hnext : s'.next = next)
    (hhead : s'.head = head) (hholds : holdsOf s'.call = holds)
    (hdesc : ∀ d, ∃ n, s'.desc d = { s.desc d with next := n })
    (hmem : s'.mem = s.mem) (hlive : s'.live = s.live)
    (hout : s'.outstanding = s.outstanding) (hpages : s'.descPages = s.descPages)
    (hon : ∀ size, on' (.bucket size) = on (.bucket size))
    (hsets : ∀ c d, (s'.call c).SetsUp d → (s.call c).SetsUp d)
    (hcalls : ∀ c, (s'.call c).Ok s') : Inv s' on' := by
  have hpage : ∀ d, (s'.desc d).page = (s.desc d).page := by
    intro d
    obtain ⟨n, hn⟩ := hdesc d
    rw [hn]
  have huse : ∀ {d}, InUse s'.call on' d → InUse s.call on d := by
    rintro d (⟨size, hd⟩ | ⟨c, hd⟩)
    · exact .inl ⟨size, hon size ▸ hd⟩
    · exact .inr ⟨c, hsets c d hd⟩
  have hisDesc : s'.IsDesc = s.IsDesc := by
    unfold State.IsDesc
    rw [hpages]
  refine ⟨?_, h.pages.congr huse hpage hout hpages, fun size d hd => ?_, fun a len ha => ?_, hcalls⟩
  · rwa [hnext, hhead, hholds, hisDesc]
  · rw [hon] at hd
    exact (h.buckets size d hd).congr (hdesc d) (fun a _ _ => by rw [hmem])
      (fun a _ => by rw [hlive])
  · rw [hlive] at ha
    obtain ⟨size, d, hd, hslot, hlen⟩ := h.objects a len ha
    exact ⟨size, d, by rwa [hon], by rwa [hpage], hlen⟩

theorem Inv.held_ne {s : State ι} {on : Queue → List Nat} (h : Inv s on) {c c' : ι}
    {d d' : Nat} (hne : c' ≠ c) (hd' : (s.call c').Holds d')
    (hd : (s.call c).Holds d) : d' ≠ d := by
  rintro rfl
  have heq : some c' = some c := h.custody.holder_unique hd' hd
  exact hne (Option.some.inj heq)

/-- What a call holds is on no list, and no descriptor is on two. -/
theorem Inv.ne_of_held {s : State ι} {on : Queue → List Nat} (h : Inv s on) {c : ι} {q : Queue}
    {d d' : Nat} (hd' : (s.call c).Holds d') (hd : d ∈ on q) : d' ≠ d := by
  rintro rfl
  exact h.custody.held_not_on (c := some c) hd' hd

theorem Inv.size_eq {s : State ι} {on : Queue → List Nat} (h : Inv s on) {d m n : Nat}
    (hm : d ∈ on (.bucket m)) (hn : d ∈ on (.bucket n)) : m = n := by
  simpa using h.custody.family.disjoint hm hn

section Calls

variable [DecidableEq ι] {s : State ι} {on : Queue → List Nat} {c : ι}

theorem setsUp_update {call : ι → Call} {x : Call} (hx : ∀ d, x.SetsUp d → (call c).SetsUp d)
    (c' : ι) (d : Nat) (h : (update call c x c').SetsUp d) : (call c').SetsUp d := by
  by_cases hc : c' = c
  · subst hc
    rw [update_self] at h
    exact hx d h
  · rwa [update_of_ne hc] at h

theorem Inv.other_calls (h : Inv s on) {s' : State ι} {x : Call}
    (hcall : s'.call = update s.call c x)
    (hdesc : ∀ c' ≠ c, ∀ d, (s.call c').Holds d → s'.desc d = s.desc d)
    (hmem : ∀ c' ≠ c, ∀ d, (s.call c').SetsUp d → ∀ a, OnPage (s.desc d).page a →
      s'.mem a = s.mem a)
    (hpages : ∀ p ∈ s.descPages, p ∈ s'.descPages) (hx : x.Ok s') :
    ∀ c', (s'.call c').Ok s' := by
  intro c'
  rw [hcall]
  by_cases hc : c' = c
  · subst hc
    rwa [update_self]
  · rw [update_of_ne hc]
    exact (h.calls c').congr (hdesc c' hc) (hmem c' hc) hpages

/-- A call that holds nothing goes on holding nothing. -/
theorem Inv.setCall (h : Inv s on) {x : Call} (hc : ∀ d, ¬ (s.call c).Holds d)
    (hx : ∀ d, ¬ x.Holds d) (hok : x.Ok { s with call := update s.call c x }) :
    Inv { s with call := update s.call c x } on := by
  have hholds : holdsOf (update s.call c x) = holdsOf s.call := by
    refine holdsOf_update_same ?_
    funext d
    exact propext ⟨fun hd => absurd hd (hx d), fun hd => absurd hd (hc d)⟩
  refine h.relink h.custody rfl rfl hholds (fun d => ⟨(s.desc d).next, rfl⟩) rfl rfl rfl rfl
    (fun _ => rfl) (setsUp_update fun d hd => absurd hd.holds (hx d))
    (h.other_calls rfl (fun _ _ _ _ => rfl) (fun _ _ _ _ _ _ => rfl) (fun _ => id) hok)

end Calls

/-! ## The list of free descriptors -/

section Descriptors

variable [DecidableEq ι] {s : State ι} {on : Queue → List Nat} {c : ι}

/-- A call that holds nothing takes the first free descriptor. -/
theorem takeDesc_inv (h : Inv s on) (hc : ∀ d, ¬ (s.call c).Holds d)
    (hfree : s.freeBucketDesc ≠ 0) {len size : Nat} (hfits : Fits len size) :
    ∃ on', Inv (takeDesc c len size s) on' := by
  obtain ⟨t, ht, -⟩ := (h.custody.family.threads .free).exists_cons hfree
  refine ⟨update on .free t, h.relink (h.custody.pop (c := some c) ht hc) rfl
    (head_free s _) (holdsOf_update s.call c _) (fun d => ⟨(s.desc d).next, rfl⟩) rfl rfl rfl
    rfl (fun size => by rw [update_of_ne (by simp)])
    (setsUp_update fun d hd => False.elim hd)
    (h.other_calls rfl (fun _ _ _ _ => rfl) (fun _ _ _ _ _ _ => rfl) (fun _ => id) hfits)⟩

/-- It does not matter what the call was before. -/
theorem takeDesc_setCall (c : ι) (len size : Nat) (x : Call) (s : State ι) :
    takeDesc c len size { s with call := update s.call c x } =
      takeDesc c len size s := by
  unfold takeDesc State.next
  simp only [Function.update_idem]

/-- "Out of memory? Put the bucket descriptor back on the free list". -/
theorem putBack_inv (h : Inv s on) {len size bdesc : Nat}
    (hcall : s.call c = .needPage len size bdesc) :
    Inv { s.setNext bdesc s.freeBucketDesc with
          freeBucketDesc := bdesc
          call := update s.call c .idle } (update on .free (bdesc :: on .free)) := by
  have hholds : ∀ x, holdsOf s.call (some c) x ↔ x = bdesc := by
    intro x
    rw [holdsOf, hcall]
    rfl
  refine h.relink (h.custody.push (q := .free) hholds) (setNext_next s bdesc s.freeBucketDesc)
    (head_free s bdesc) (holdsOf_update s.call c .idle)
    (setNext_desc s bdesc s.freeBucketDesc) rfl rfl rfl rfl
    (fun size => by rw [update_of_ne (by simp)])
    (setsUp_update fun d hd => False.elim hd)
    (h.other_calls rfl
      (fun c' hne d hd => setNext_desc_of_ne s _ (h.held_ne hne hd ((hholds bdesc).2 rfl)))
      (fun _ _ _ _ _ _ => rfl) (fun _ => id) trivial)

end Descriptors

/-! ## A page of descriptors -/

/-- A page that `__get_free_page` may return. -/
structure FreshPage (s : State ι) (page : Nat) : Prop where
  aligned : page % pageSize = 0
  ne_zero : page ≠ 0
  fresh : s.outstanding page = false

theorem FreshPage.ne {s : State ι} {page p : Nat} (h : FreshPage s page) (hp : Owned s p) : p ≠ page := by
  rintro rfl
  have := hp.outstanding
  rw [h.fresh] at this
  cases this

/-- The descriptors of a page. -/
def descsOf (page : Nat) : List Nat :=
  (List.range descsPerPage).map fun k => page + descSize * k

theorem mem_descsOf {page d : Nat} :
    d ∈ descsOf page ↔ ∃ k < descsPerPage, d = page + descSize * k := by
  unfold descsOf
  rw [List.mem_map]
  constructor
  · rintro ⟨k, hk, rfl⟩
    exact ⟨k, List.mem_range.1 hk, rfl⟩
  · rintro ⟨k, hk, rfl⟩
    exact ⟨k, List.mem_range.2 hk, rfl⟩

theorem nodup_descsOf (page : Nat) : (descsOf page).Nodup := by
  refine List.Nodup.map (fun j k hjk => ?_) List.nodup_range
  unfold descSize at hjk
  omega

theorem onPage_descsOf {page d : Nat} (h : d ∈ descsOf page) : OnPage page d := by
  obtain ⟨k, hk, rfl⟩ := mem_descsOf.1 h
  unfold descsPerPage at hk
  unfold OnPage descSize pageSize
  omega

section DescPage

variable [DecidableEq ι] {s : State ι} {on : Queue → List Nat} {c : ι}

/-- A call gets the page for its descriptors. -/
theorem initPage_inv (h : Inv s on) {len size page : Nat}
    (hcall : s.call c = .needDescPage len size) (hpage : FreshPage s page) :
    Inv { s with
          call := update s.call c (.initDesc len size page 0)
          outstanding := update s.outstanding page true
          descPages := page :: s.descPages } on := by
  set s' : State ι := { s with
    call := update s.call c (.initDesc len size page 0)
    outstanding := update s.outstanding page true
    descPages := page :: s.descPages } with hs'
  have hown : ∀ {p}, Owned s p → Owned s' p := fun hp => hp.congr (update_of_ne (hpage.ne hp) _ _)
  have huse : ∀ {d}, InUse s'.call on d → InUse s.call on d := by
    rintro d (hd | ⟨c', hd⟩)
    · exact .inl hd
    · exact .inr ⟨c', setsUp_update (x := .initDesc len size page 0) (fun _ => False.elim) c' d hd⟩
  refine ⟨?_, ⟨fun d hd => hown (h.pages.owned d (huse hd)),
    fun d d' hd hd' => h.pages.inj d d' (huse hd) (huse hd'), fun p hp => ?_, fun d hd => ?_⟩,
    fun size d hd => (h.buckets size d hd).congr ⟨_, rfl⟩ (fun _ _ _ => rfl) (fun _ _ => rfl),
    h.objects, h.other_calls rfl (fun _ _ _ _ => rfl) (fun _ _ _ _ _ _ => rfl)
      (fun p hp => List.mem_cons_of_mem page hp) ?_⟩
  · rw [show holdsOf s'.call = _ from holdsOf_update s.call c _]
    refine h.custody.acquire (fun d hd => ?_) (fun d hd => ?_) (fun d => ?_)
    · rw [holdsOf, hcall] at hd
      exact hd
    · -- the page is fresh, so its addresses are no descriptors yet
      have hon : OnPage page d := onPage_descsOf (mem_descsOf.2 hd)
      refine ⟨?_, ?_⟩
      · rintro ⟨p, hp, hk⟩
        have howned := h.pages.descs p hp
        have hp' : OnPage p d := onPage_descsOf (mem_descsOf.2 hk)
        exact hpage.ne howned (hp'.unique howned.aligned hpage.aligned hon)
      · have := hpage.ne_zero
        have := hon.1
        omega
    · simp only [State.IsDesc, hs', List.mem_cons, exists_eq_or_imp]
      rfl
  · rcases List.mem_cons.1 hp with rfl | hp
    · exact ⟨hpage.aligned, hpage.ne_zero, update_self ..⟩
    · exact hown (h.pages.descs p hp)
  · intro hmem
    rcases List.mem_cons.1 hmem with heq | hmem
    · exact hpage.ne (h.pages.owned d (huse hd)) heq
    · exact h.pages.apart d (huse hd) hmem
  · have hfits := h.calls c
    rw [hcall] at hfits
    exact ⟨hfits, List.mem_cons_self, by decide, by simp⟩

end DescPage

/-- A store to a descriptor that a call holds is seen by that call only. -/
theorem Inv.custody_setNext {s : State ι} {on : Queue → List Nat} (h : Inv s on) {c : ι}
    {d : Nat} (hd : (s.call c).Holds d) (v : Nat) :
    Custody 0 (s.setNext d v).next s.head on (holdsOf s.call) s.IsDesc := by
  rw [setNext_next]
  refine h.custody.congr fun q a ha => update_of_ne ?_ _ _
  rintro rfl
  exact h.custody.held_not_on (c := some c) hd ha

section InitDesc

variable [DecidableEq ι] {s : State ι} {on : Queue → List Nat} {c : ι} {len size page k : Nat}

/-- One round of the loop of `init_bucket_desc`. -/
theorem initLink_inv (h : Inv s on) (hcall : s.call c = .initDesc len size page k)
    (hk : k + 1 < descsPerPage) :
    Inv { s.setNext (page + descSize * k) (page + descSize * (k + 1)) with
          call := update s.call c (.initDesc len size page (k + 1)) } on := by
  have hok := h.calls c
  rw [hcall] at hok
  obtain ⟨hfits, hpage, -, hlinked⟩ := hok
  have hheld : (s.call c).Holds (page + descSize * k) := by
    rw [hcall]
    exact ⟨k, by omega, rfl⟩
  have hholds : holdsOf (update s.call c (.initDesc len size page (k + 1))) = holdsOf s.call :=
    holdsOf_update_same (by rw [hcall]; rfl)
  refine h.relink (h.custody_setNext hheld (page + descSize * (k + 1))) rfl rfl hholds
    (setNext_desc s _ _) rfl rfl rfl rfl (fun _ => rfl) (setsUp_update fun d hd => False.elim hd)
    (h.other_calls rfl (fun c' hne d hd => setNext_desc_of_ne s _ (h.held_ne hne hd hheld))
      (fun _ _ _ _ _ _ => rfl) (fun _ => id) ⟨hfits, hpage, hk, fun j hj => ?_⟩)
  have hnext : ∀ a, (s.setNext (page + descSize * k) (page + descSize * (k + 1))).next a =
      update s.next (page + descSize * k) (page + descSize * (k + 1)) a :=
    congrFun (setNext_next s _ _)
  refine (hnext _).trans ?_
  rcases Nat.lt_succ_iff_lt_or_eq.1 hj with hj | rfl
  · rw [update_of_ne (by unfold descSize; omega)]
    exact hlinked j hj
  · rw [update_self]

/-- The end of `init_bucket_desc`: all the descriptors of the page are free. -/
theorem initLast_inv (h : Inv s on) (hcall : s.call c = .initDesc len size page k)
    (hk : ¬ k + 1 < descsPerPage) :
    Inv { s.setNext (page + descSize * k) s.freeBucketDesc with
          freeBucketDesc := page
          call := update s.call c .idle }
      (update on .free (descsOf page ++ on .free)) := by
  have hok := h.calls c
  rw [hcall] at hok
  obtain ⟨hfits, hpage, hlt, hlinked⟩ := hok
  have hheld : (s.call c).Holds (page + descSize * k) := by
    rw [hcall]
    exact ⟨k, by omega, rfl⟩
  have hstored := h.custody_setNext hheld s.freeBucketDesc
  have hne : page ≠ 0 := (h.pages.descs page hpage).ne_zero
  have hthreads : Threads 0 (s.setNext (page + descSize * k) s.freeBucketDesc).next page
      (descsOf page ++ on .free) := by
    rw [descsOf, List.range_eq_range', show descsPerPage = k + 1 by omega]
    refine Threads.of_links (k := 0) (f := fun j => page + descSize * j) (fun j _ _ => ?_)
      (fun j _ hj => ?_) ?_
    · omega
    · rw [setNext_next, update_of_ne (by unfold descSize; omega)]
      exact hlinked j (by omega)
    · rw [setNext_next, Nat.zero_add, update_self, ← setNext_next]
      exact hstored.family.threads .free
  refine h.relink (hstored.adopt (c := some c) hthreads (nodup_descsOf page) fun d => ?_) rfl
    (head_free s page) (holdsOf_update s.call c .idle) (setNext_desc s _ _) rfl rfl rfl rfl
    (fun size => by rw [update_of_ne (by simp)])
    (setsUp_update fun d hd => False.elim hd)
    (h.other_calls rfl (fun c' hne d hd => setNext_desc_of_ne s _ (h.held_ne hne hd hheld))
      (fun _ _ _ _ _ _ => rfl) (fun _ => id) trivial)
  rw [holdsOf, hcall, mem_descsOf]
  rfl

end InitDesc

/-! ## A page of objects -/

section Page

variable [DecidableEq ι] {s : State ι} {on : Queue → List Nat} {c : ι}
  {len size bdesc page k : Nat}

theorem getPage_inv (h : Inv s on) (hcall : s.call c = .needPage len size bdesc)
    (hpage : FreshPage s page) :
    Inv { s with
          desc := update s.desc bdesc
            { s.desc bdesc with
              refcnt := 0
              bucketSize := size
              page := page
              freeptr := page }
          call := update s.call c (.setUp len size bdesc page 0)
          outstanding := update s.outstanding page true } on := by
  set s' : State ι := { s with
    desc := update s.desc bdesc
      { s.desc bdesc with
        refcnt := 0
        bucketSize := size
        page := page
        freeptr := page }
    call := update s.call c (.setUp len size bdesc page 0)
    outstanding := update s.outstanding page true } with hs'
  have hheld : (s.call c).Holds bdesc := by
    rw [hcall]
    rfl
  have hdesc : ∀ {d}, d ≠ bdesc → s'.desc d = s.desc d := fun hd => update_of_ne hd _ _
  have hself : (s'.desc bdesc).page = page := by
    simp only [hs', update_self]
  have hown : ∀ {p}, Owned s p → Owned s' p := fun hp => hp.congr (update_of_ne (hpage.ne hp) _ _)
  have hon : ∀ {size d}, d ∈ on (.bucket size) → d ≠ bdesc := fun hd => (h.ne_of_held hheld hd).symm
  have huse : ∀ {d}, InUse s'.call on d → d = bdesc ∨ d ≠ bdesc ∧ InUse s.call on d := by
    rintro d (⟨size, hd⟩ | ⟨c', hd⟩)
    · exact .inr ⟨hon hd, .inl ⟨size, hd⟩⟩
    · by_cases hc : c' = c
      · subst hc
        simp only [hs', update_self] at hd
        exact .inl hd
      · simp only [hs', update_of_ne hc] at hd
        exact .inr ⟨h.held_ne hc hd.holds hheld, .inr ⟨c', hd⟩⟩
  refine ⟨?_, ⟨fun d hd => ?_, fun d d' hd hd' heq => ?_, fun p hp => hown (h.pages.descs p hp),
    fun d hd => ?_⟩, fun size d hd => ?_, fun a len ha => ?_, ?_⟩
  · have hholds : holdsOf s'.call = holdsOf s.call := holdsOf_update_same (by rw [hcall]; rfl)
    rw [hholds, show s'.next = s.next from next_update_eq s rfl]
    exact h.custody
  · rcases huse hd with rfl | ⟨hne, hd⟩
    · rw [hself]
      exact ⟨hpage.aligned, hpage.ne_zero, update_self ..⟩
    · rw [hdesc hne]
      exact hown (h.pages.owned d hd)
  · rcases huse hd with hb | ⟨hne, hu⟩ <;> rcases huse hd' with hb' | ⟨hne', hu'⟩
    · exact hb.trans hb'.symm
    · rw [hb, hself, hdesc hne'] at heq
      exact absurd heq.symm (hpage.ne (h.pages.owned d' hu'))
    · rw [hb', hself, hdesc hne] at heq
      exact absurd heq (hpage.ne (h.pages.owned d hu))
    · rw [hdesc hne, hdesc hne'] at heq
      exact h.pages.inj d d' hu hu' heq
  · rcases huse hd with rfl | ⟨hne, hd⟩
    · rw [hself]
      exact fun hmem => hpage.ne (h.pages.descs page hmem) rfl
    · rw [hdesc hne]
      exact h.pages.apart d hd
  · exact (h.buckets size d hd).congr ⟨_, hdesc (hon hd)⟩ (fun _ _ _ => rfl) (fun _ _ => rfl)
  · obtain ⟨size, d, hd, hslot, hlen⟩ := h.objects a len ha
    exact ⟨size, d, hd, by rwa [hdesc (hon hd)], hlen⟩
  · refine h.other_calls rfl (fun c' hne d hd => hdesc (h.held_ne hne hd hheld))
      (fun _ _ _ _ _ _ => rfl) (fun _ => id) ?_
    have hfits := h.calls c
    rw [hcall] at hfits
    refine ⟨hfits, Nat.zero_le _, hself, ?_, ?_, ?_, by simp [Threaded]⟩ <;>
      simp only [hs', update_self]

end Page

theorem Inv.eq_of_onPage {s : State ι} {on : Queue → List Nat} (h : Inv s on) {d d' a : Nat}
    (hd : InUse s.call on d) (hd' : InUse s.call on d') (ha : OnPage (s.desc d).page a)
    (ha' : OnPage (s.desc d').page a) : d = d' :=
  h.pages.inj d d' hd hd'
    (ha.unique (h.pages.owned d hd).aligned (h.pages.owned d' hd').aligned ha')

section SetUp

variable [DecidableEq ι] {s : State ι} {on : Queue → List Nat} {c : ι}
  {len size bdesc page k : Nat}

/-- One round of "Set up the chain of free objects". -/
theorem thread_inv (h : Inv s on) (hcall : s.call c = .setUp len size bdesc page k)
    (hk : k < pageSize / size) :
    Inv { s with
          mem := update s.mem (page + k * size)
            (if k + 1 = pageSize / size then 0 else page + k * size + size)
          call := update s.call c (.setUp len size bdesc page (k + 1)) } on := by
  have hok := h.calls c
  rw [hcall] at hok
  obtain ⟨hfits, -, rfl, hfree, hcnt, hsize, hthreaded⟩ := hok
  have hsets : (s.call c).SetsUp bdesc := by
    rw [hcall]
    rfl
  have hheld := hsets.holds
  have hslot : Slot (s.desc bdesc).page size ((s.desc bdesc).page + k * size) := ⟨k, hk, rfl⟩
  have hmem : ∀ {d}, InUse s.call on d → d ≠ bdesc → ∀ a, OnPage (s.desc d).page a →
      a ≠ (s.desc bdesc).page + k * size := by
    rintro d hd hne a ha rfl
    exact hne (h.eq_of_onPage hd (.inr ⟨c, hsets⟩) ha hslot.onPage)
  have huse : ∀ {d}, InUse (update s.call c
      (.setUp len size bdesc (s.desc bdesc).page (k + 1))) on d → InUse s.call on d := by
    rintro d (hd | ⟨c', hd⟩)
    · exact .inl hd
    · exact .inr ⟨c', setsUp_update (fun d hd => by rw [hcall]; exact hd) c' d hd⟩
  refine ⟨?_, h.pages.congr huse (fun _ => rfl) rfl rfl, fun size' d hd => ?_, h.objects, ?_⟩
  · have hholds : holdsOf (update s.call c (.setUp len size bdesc (s.desc bdesc).page (k + 1))) =
        holdsOf s.call := holdsOf_update_same (by rw [hcall]; rfl)
    simp only [hholds]
    exact h.custody
  · refine (h.buckets size' d hd).congr ⟨_, rfl⟩ (fun a ha _ => update_of_ne ?_ _ _)
      (fun _ _ => rfl)
    exact hmem (inUse_of_on hd) (h.ne_of_held hheld hd).symm a ha.onPage
  · refine h.other_calls rfl (fun _ _ _ _ => rfl)
      (fun c' hne d hd a ha => update_of_ne
        (hmem (.inr ⟨c', hd⟩) (h.held_ne hne hd.holds hheld) a ha) _ _) (fun _ => id) ?_
    refine ⟨hfits, hk, rfl, hfree, hcnt, hsize, fun j hj => ?_⟩
    have hpos := hslot.size_pos
    rcases Nat.lt_succ_iff_lt_or_eq.1 hj with hj | rfl
    · have hne : j * size ≠ k * size := fun he => by
        have := Nat.eq_of_mul_eq_mul_right hpos he
        omega
      exact (update_of_ne (by omega) _ _).trans (hthreaded j hj)
    · exact update_self ..

/-- The free list of a page that has been set up contains all its objects. -/
theorem Threaded.freeList {mem : Nat → Nat} {live : Nat → Option Nat}
    (h : Threaded mem page size (pageSize / size)) (hpage : page ≠ 0)
    (hsize : 0 < pageSize / size) (hpos : 0 < size)
    (hlive : ∀ a, OnPage page a → live a = none) : FreeList mem live page size page := by
  obtain ⟨n, hn⟩ := Nat.exists_eq_succ_of_ne_zero hsize.ne'
  have hslots : ∀ a, a ∈ (List.range' 0 (n + 1)).map (fun j => page + j * size) ↔
      Slot page size a := by
    intro a
    rw [← List.range_eq_range', List.mem_map]
    constructor
    · rintro ⟨j, hj, rfl⟩
      exact ⟨j, by rw [hn]; exact List.mem_range.1 hj, rfl⟩
    · rintro ⟨j, hj, rfl⟩
      exact ⟨j, List.mem_range.2 (by rw [hn] at hj; exact hj), rfl⟩
  refine ⟨(List.range' 0 (n + 1)).map fun j => page + j * size, ?_, ?_, fun a => ?_⟩
  · have hlinks : Threads 0 mem (page + 0 * size)
        ((List.range' 0 (n + 1)).map (fun j => page + j * size) ++ []) := by
      refine Threads.of_links (k := 0) (f := fun j => page + j * size) (fun j _ _ => ?_)
        (fun j _ hj => ?_) ?_
      · omega
      · rw [h j (by omega), if_neg (by omega), Nat.add_mul, Nat.one_mul, Nat.add_assoc]
      · rw [h (0 + n) (by omega), if_pos (by omega)]
        rfl
    simpa using hlinks
  · refine List.Nodup.map (fun j k hjk => ?_) List.nodup_range'
    exact Nat.eq_of_mul_eq_mul_right hpos (Nat.add_left_cancel hjk)
  · rw [hslots]
    exact ⟨fun ha => ⟨ha, hlive a ha.onPage⟩, And.left⟩

end SetUp

section HandOut

variable [DecidableEq ι] {s : State ι} {on : Queue → List Nat} {c : ι}
  {len size bdesc page k : Nat}

theorem linkIn_inv (h : Inv s on) (hcall : s.call c = .setUp len size bdesc page k)
    (hk : ¬ k < pageSize / size) :
    Inv { s.setNext bdesc (s.chain size) with
          chain := update s.chain size bdesc
          call := update s.call c .idle }
      (update on (.bucket size) (bdesc :: on (.bucket size))) := by
  set s' : State ι := { s.setNext bdesc (s.chain size) with
    chain := update s.chain size bdesc
    call := update s.call c .idle }
  have hok := h.calls c
  rw [hcall] at hok
  obtain ⟨hfits, hle, rfl, hfree, hcnt, hsize, hthreaded⟩ := hok
  obtain rfl : k = pageSize / size := by omega
  have hsets : (s.call c).SetsUp bdesc := by
    rw [hcall]
    rfl
  have hheld := hsets.holds
  have hinuse : InUse s.call on bdesc := .inr ⟨c, hsets⟩
  have hholds : ∀ x, holdsOf s.call (some c) x ↔ x = bdesc := by
    intro x
    rw [holdsOf, hcall]
    rfl
  have hdesc := setNext_desc s bdesc (s.chain size)
  have hpage : ∀ d, (s'.desc d).page = (s.desc d).page := setNext_page s bdesc (s.chain size)
  have hon : ∀ {size' d}, d ∈ update on (.bucket size) (bdesc :: on (.bucket size))
      (.bucket size') → size' = size ∧ d = bdesc ∨ d ∈ on (.bucket size') := by
    intro size' d hd
    by_cases hs : size' = size
    · subst hs
      rw [update_self, List.mem_cons] at hd
      exact hd.imp_left fun hb => ⟨rfl, hb⟩
    · rw [update_of_ne (by simpa using hs)] at hd
      exact .inr hd
  have huse : ∀ {d}, InUse (update s.call c .idle)
      (update on (.bucket size) (bdesc :: on (.bucket size))) d → InUse s.call on d := by
    rintro d (⟨size', hd⟩ | ⟨c', hd⟩)
    · rcases hon hd with ⟨-, rfl⟩ | hd
      · exact hinuse
      · exact inUse_of_on hd
    · exact .inr ⟨c', setsUp_update (fun _ => False.elim) c' d hd⟩
  have hnolive : ∀ a, OnPage (s.desc bdesc).page a → s.live a = none := by
    intro a ha
    by_contra hlive
    obtain ⟨len', hlen'⟩ := Option.ne_none_iff_exists'.1 hlive
    obtain ⟨size', d, hd, hslot, -⟩ := h.objects a len' hlen'
    exact h.ne_of_held hheld hd (h.eq_of_onPage hinuse (inUse_of_on hd) ha hslot.onPage)
  refine ⟨?_, h.pages.congr huse hpage rfl rfl, fun size' d hd => ?_, fun a len' ha => ?_, ?_⟩
  · have hpush := h.custody.push (q := .bucket size) hholds
    rw [show s'.next = _ from setNext_next s bdesc (s.chain size),
      show s'.head = _ from head_chain s size bdesc,
      show holdsOf s'.call = _ from holdsOf_update s.call c .idle]
    exact hpush
  · rcases hon hd with ⟨rfl, rfl⟩ | hd
    · have hpos : 0 < pageSize / size' ∧ 0 < size' := by
        have hmem := hfits.1
        simp only [bucketSizes, List.mem_cons, List.not_mem_nil, or_false] at hmem
        rcases hmem with rfl | rfl | rfl | rfl | rfl | rfl | rfl | rfl | rfl <;> decide
      have hbucket : Bucket s size' d :=
        { size_mem := hfits.1
          bucketSize := hsize
          refcnt := by rw [hcnt, liveOn_eq_zero.2 hnolive]
          freeList := by
            rw [hfree]
            exact hthreaded.freeList (h.pages.owned d hinuse).ne_zero hpos.1 hpos.2 hnolive }
      exact hbucket.congr (hdesc d) (fun _ _ _ => rfl) (fun _ _ => rfl)
    · exact (h.buckets size' d hd).congr (hdesc d) (fun _ _ _ => rfl) (fun _ _ => rfl)
  · obtain ⟨size', d, hd, hslot, hlen⟩ := h.objects a len' ha
    refine ⟨size', d, ?_, by rwa [hpage], hlen⟩
    by_cases hs : size' = size
    · subst hs
      rw [update_self]
      exact List.mem_cons_of_mem _ hd
    · rwa [update_of_ne (by simpa using hs)]
  · exact h.other_calls rfl
      (fun c' hne d hd => setNext_desc_of_ne s _ (h.held_ne hne hd hheld))
      (fun _ _ _ _ _ _ => rfl) (fun _ => id) trivial

/-- It does not matter what the call was before. -/
theorem foundBdesc_setCall (c : ι) (len bdesc : Nat) (x : Call) (s : State ι) :
    foundBdesc c len bdesc { s with call := update s.call c x } =
      foundBdesc c len bdesc s := by
  unfold foundBdesc
  simp only [Function.update_idem]

/-- An object of a bucket with free space is handed out. -/
theorem foundBdesc_inv (h : Inv s on) (hc : s.call c = .idle) (hd : bdesc ∈ on (.bucket size))
    (hfree : (s.desc bdesc).freeptr ≠ 0) (hlen : len ≤ size) :
    Inv (foundBdesc c len bdesc s).1 on ∧ s.live (s.desc bdesc).freeptr = none := by
  have hbucket := h.buckets size bdesc hd
  have hinuse : InUse s.call on bdesc := inUse_of_on hd
  obtain ⟨hslot, hnone, hpop⟩ := hbucket.freeList.pop hfree len
  refine ⟨?_, hnone⟩
  set s' := (foundBdesc c len bdesc s).1 with hs'
  have hdesc : ∀ {d}, d ≠ bdesc → s'.desc d = s.desc d := fun hne => update_of_ne hne _ _
  have hself : s'.desc bdesc =
      { s.desc bdesc with
        freeptr := s.mem (s.desc bdesc).freeptr
        refcnt := (s.desc bdesc).refcnt + 1 } := update_self ..
  have hpage : ∀ d, (s'.desc d).page = (s.desc d).page := by
    intro d
    by_cases hne : d = bdesc
    · rw [hne, hself]
    · rw [hdesc hne]
  have hcall : s'.call = s.call := by
    simp only [hs', foundBdesc, ← hc, update_eq_self]
  have hlive : ∀ {a}, a ≠ (s.desc bdesc).freeptr → s'.live a = s.live a :=
    fun hne => update_of_ne hne _ _
  refine ⟨?_, h.pages.congr (fun hd => hcall ▸ hd) hpage rfl rfl, fun size' d hd' => ?_,
    fun a len' ha => ?_, fun c' => ?_⟩
  · rw [hcall, show s'.next = s.next from next_update_eq s rfl]
    exact h.custody
  · by_cases hne : d = bdesc
    · subst hne
      obtain rfl := h.size_eq hd' hd
      refine ⟨hbucket.size_mem, ?_, ?_, ?_⟩ <;> rw [hself]
      · exact hbucket.bucketSize
      · exact (congrArg (· + 1) hbucket.refcnt).trans (liveOn_update hslot.onPage hnone).symm
      · exact hpop
    · refine (h.buckets size' d hd').congr ⟨_, hdesc hne⟩ (fun _ _ _ => rfl)
        (fun a ha => hlive ?_)
      rintro rfl
      exact hne (h.eq_of_onPage (inUse_of_on hd') hinuse ha hslot.onPage)
  · by_cases hne : a = (s.desc bdesc).freeptr
    · subst hne
      have hlen' : len' = len := by
        have : some len = some len' := (update_self _ _ s.live).symm.trans ha
        exact (Option.some.inj this).symm
      exact ⟨size, bdesc, hd, by rwa [hpage], hlen' ▸ hlen⟩
    · rw [hlive hne] at ha
      obtain ⟨size', d, hd, hslot', hlen'⟩ := h.objects a len' ha
      exact ⟨size', d, hd, by rwa [hpage], hlen'⟩
  · rw [hcall]
    exact (h.calls c').congr (fun d hd' => hdesc (h.ne_of_held hd' hd)) (fun _ _ _ _ => rfl)
      (fun _ => id)

end HandOut

/-! ## The steps -/

theorem findBucket_fits {len size : Nat} {sizes : List Nat} (h : findBucket len sizes = some size) :
    size ∈ sizes ∧ len ≤ size := by
  induction sizes with
  | nil => cases h
  | cons x sizes ih =>
    rw [findBucket] at h
    split_ifs at h with hx
    · obtain ⟨hmem, hlen⟩ := ih h
      exact ⟨List.mem_cons_of_mem x hmem, hlen⟩
    · cases h
      exact ⟨List.mem_cons_self, Nat.le_of_not_lt hx⟩

/-- What is seen of `kmalloc`: an object it returns was free before. -/
def Served (s : State ι) : Output ι → Prop
  | .returns _ retval => retval = 0 ∨ s.live retval = none
  | .tooLarge _ => True
  | _ => False

section Steps

variable [DecidableEq ι] {s : State ι} {on : Queue → List Nat} {c : ι}

/-- `kmalloc`, up to the first point where interrupts are enabled. -/
theorem kmalloc_inv (h : Inv s on) (hc : s.call c = .idle) (len : Nat) :
    (∃ on', Inv (kmalloc c len s).1 on') ∧ ∀ o ∈ (kmalloc c len s).2, Served s o := by
  have hholds : ∀ d, ¬ (s.call c).Holds d := by
    rw [hc]
    exact fun d => id
  unfold kmalloc
  cases hsize : findBucket len bucketSizes with
  | none => exact ⟨⟨on, h⟩, by simp [Served]⟩
  | some size =>
    have hfits : Fits len size := findBucket_fits hsize
    simp only
    cases hfind : findOn 0 s.next (fun d => decide ((s.desc d).freeptr ≠ 0)) s.descCount 0
        (s.chain size) with
    | some pd =>
      obtain ⟨prev, d⟩ := pd
      obtain ⟨hfree, l₁, l₂, hon, -⟩ := findOn_eq_some (h.custody.family.threads (.bucket size)) hfind
      have hd : d ∈ on (.bucket size) := by simp [hon]
      obtain ⟨hinv, hnone⟩ := foundBdesc_inv h hc hd (by simpa using hfree) hfits.2
      refine ⟨⟨on, hinv⟩, fun o ho => ?_⟩
      simp only [foundBdesc, List.mem_singleton] at ho
      subst ho
      exact .inr hnone
    | none =>
      simp only
      split_ifs with hfree
      · exact ⟨⟨on, h.setCall hholds (fun d => id) hfits⟩, by simp⟩
      · exact ⟨takeDesc_inv h hholds hfree hfits, by simp⟩

theorem getFreePage_inv (h : Inv s on) {page : Nat}
    (hpage : page = 0 ∨ page % pageSize = 0 ∧ s.outstanding page = false)
    {r : State ι × List (Output ι)} (hr : getFreePage c page s = some r) :
    (∃ on', Inv r.1 on') ∧ ∀ o ∈ r.2, Served s o := by
  have hfresh : page ≠ 0 → FreshPage s page := by
    intro hne
    obtain ⟨hal, hout⟩ := hpage.resolve_left hne
    exact ⟨hal, hne, hout⟩
  unfold getFreePage at hr
  cases hcall : s.call c with
  | needDescPage len size =>
    rw [hcall] at hr
    simp only at hr
    split_ifs at hr with hne <;> cases hr
    · have hholds : ∀ d, ¬ (s.call c).Holds d := by
        rw [hcall]
        exact fun d => id
      exact ⟨⟨on, h.setCall hholds (fun d => id) trivial⟩, by simp [Served]⟩
    · exact ⟨⟨on, initPage_inv h hcall (hfresh hne)⟩, by simp⟩
  | needPage len size bdesc =>
    rw [hcall] at hr
    simp only at hr
    split_ifs at hr with hne <;> cases hr
    · exact ⟨⟨_, putBack_inv h hcall⟩, by simp [Served]⟩
    · exact ⟨⟨on, getPage_inv h hcall (hfresh hne)⟩, by simp⟩
  | idle | initDesc | setUp =>
    rw [hcall] at hr
    cases hr

theorem proceed_inv (h : Inv s on) {r : State ι × List (Output ι)} (hr : proceed c s = some r) :
    (∃ on', Inv r.1 on') ∧ ∀ o ∈ r.2, Served s o := by
  have hok := h.calls c
  unfold proceed at hr
  cases hcall : s.call c with
  | initDesc len size page k =>
    rw [hcall] at hr hok
    simp only at hr
    split_ifs at hr with hk <;> cases hr
    · exact ⟨⟨on, initLink_inv h hcall hk⟩, by simp⟩
    · refine ⟨?_, by simp⟩
      have hlast := initLast_inv h hcall hk
      rw [← takeDesc_setCall c len size .idle]
      refine takeDesc_inv hlast (fun d => ?_) (h.pages.descs page hok.2.1).ne_zero hok.1
      simp only [update_self]
      exact id
  | setUp len size bdesc page k =>
    rw [hcall] at hr hok
    simp only at hr
    by_cases hk : k < pageSize / size
    · rw [if_pos hk] at hr
      cases hr
      exact ⟨⟨on, thread_inv h hcall hk⟩, by simp⟩
    · rw [if_neg hk] at hr
      cases hr
      obtain ⟨hfits, -, hpage, hfreeptr, -, -, -⟩ := hok
      have hlink := linkIn_inv h hcall hk
      have hfree : (s.desc bdesc).freeptr ≠ 0 := by
        rw [hfreeptr, ← hpage]
        refine (h.pages.owned bdesc (.inr ⟨c, ?_⟩)).ne_zero
        rw [hcall]
        rfl
      have hnext : ((s.setNext bdesc (s.chain size)).desc bdesc).freeptr =
          (s.desc bdesc).freeptr := by
        obtain ⟨n, hn⟩ := setNext_desc s bdesc (s.chain size) bdesc
        rw [hn]
      obtain ⟨hinv, hnone⟩ := foundBdesc_inv hlink (update_self ..)
        (by rw [update_self]; exact List.mem_cons_self) (by rw [hnext]; exact hfree)
        hfits.2
      rw [← foundBdesc_setCall c len bdesc .idle]
      refine ⟨⟨_, hinv⟩, fun o ho => ?_⟩
      simp only [foundBdesc, List.mem_singleton] at ho
      subst ho
      exact .inr hnone
  | idle | needDescPage | needPage =>
    rw [hcall] at hr
    cases hr

end Steps

end LinuxEvocation.Malloc
