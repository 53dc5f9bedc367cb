import LinuxEvocation.Malloc.Steps

/-!
# `kfree_s`, and the allocator over whole runs

* `HeapSound`, `StepSound`, `kmalloc_heap` — what holds in every state of every run.
-/

namespace LinuxEvocation.Malloc

open Function (update update_eq_self update_of_ne update_self)
open LinkedList

variable {ι : Type*}

/-! ## An object goes back -/

section PutObject

variable {s : State ι} {on : Queue → List Nat} {size obj len bdesc : Nat}

theorem putObject_inv (h : Inv s on) (hd : bdesc ∈ on (.bucket size))
    (hlive : s.live obj = some len) (hslot : Slot (s.desc bdesc).page size obj) :
    Inv (putObject obj bdesc s) on := by
  have hbucket := h.buckets size bdesc hd
  have hinuse : InUse s.call on bdesc := inUse_of_on hd
  have hobj : obj ≠ 0 := by
    have := (h.pages.owned bdesc hinuse).ne_zero
    have := hslot.onPage.1
    omega
  set s' := putObject obj bdesc s with hs'
  have hdesc : ∀ {d}, d ≠ bdesc → s'.desc d = s.desc d := fun hne => update_of_ne hne _ _
  have hself : s'.desc bdesc =
      { s.desc bdesc with
        freeptr := obj
        refcnt := (s.desc bdesc).refcnt - 1 } := update_self ..
  have hpage : ∀ d, (s'.desc d).page = (s.desc d).page := by
    intro d
    by_cases hne : d = bdesc
    · rw [hne, hself]
    · rw [hdesc hne]
  have hlive' : ∀ {a}, a ≠ obj → s'.live a = s.live a := fun hne => update_of_ne hne _ _
  have hmem : ∀ {a}, a ≠ obj → s'.mem a = s.mem a := fun hne => update_of_ne hne _ _
  have hother : ∀ {d a}, InUse s.call on d → d ≠ bdesc → OnPage (s.desc d).page a → a ≠ obj := by
    rintro d a hd hne ha rfl
    exact hne (h.eq_of_onPage hd hinuse ha hslot.onPage)
  have hcount : liveOn s.live (s.desc bdesc).page = liveOn s'.live (s.desc bdesc).page + 1 := by
    have hone : liveOn (update s'.live obj (some len)) (s.desc bdesc).page =
        liveOn s'.live (s.desc bdesc).page + 1 :=
      liveOn_update hslot.onPage (update_self ..)
    rw [← hone, hs', putObject, Function.update_idem, ← hlive, update_eq_self]
  refine ⟨?_, h.pages.congr id hpage rfl rfl, fun size' d hd' => ?_, fun a len' ha => ?_,
    fun c => ?_⟩
  · rw [show s'.next = s.next from next_update_eq s rfl]
    exact h.custody
  · by_cases hne : d = bdesc
    · subst hne
      obtain rfl := h.size_eq hd' hd
      refine ⟨hbucket.size_mem, ?_, ?_, ?_⟩ <;> rw [hself]
      · exact hbucket.bucketSize
      · have := hbucket.refcnt
        simp only
        omega
      · exact hbucket.freeList.push hslot hlive hobj
    · exact (h.buckets size' d hd').congr ⟨_, hdesc hne⟩
        (fun a ha _ => hmem (hother (inUse_of_on hd') hne ha.onPage))
        (fun a ha => hlive' (hother (inUse_of_on hd') hne ha))
  · have hne : a ≠ obj := by
      rintro rfl
      rw [show s'.live a = none from update_self ..] at ha
      cases ha
    rw [hlive' hne] at ha
    obtain ⟨size', d, hd, hslot', hlen'⟩ := h.objects a len' ha
    exact ⟨size', d, hd, by rwa [hpage], hlen'⟩
  · exact (h.calls c).congr (fun d hd' => hdesc (h.ne_of_held hd' hd)) (fun d hd' a ha =>
      hmem (hother (.inr ⟨c, hd'⟩) (h.ne_of_held hd'.holds hd) ha)) (fun _ => id)

end PutObject

/-! ## A page goes back -/

/-- A descriptor without live objects has been taken off its chain, which gives `s₁`; it
becomes free and its page goes back to the system. -/
theorem retire_inv [DecidableEq ι] {s s₁ : State ι} {on on₁ : Queue → List Nat} {size d : Nat} (h : Inv s on)
    (hd : d ∈ on (.bucket size)) (hnolive : ∀ a, OnPage (s.desc d).page a → s.live a = none)
    (hcustody : Custody 0 s₁.next s₁.head on₁
      (update (holdsOf s.call) none (· = d)) s.IsDesc)
    (hdesc : ∀ a, ∃ n, s₁.desc a = { s.desc a with next := n })
    (hheld : ∀ c a, (s.call c).Holds a → s₁.desc a = s.desc a) (hcall : s₁.call = s.call)
    (hmem : s₁.mem = s.mem) (hlive : s₁.live = s.live) (hout : s₁.outstanding = s.outstanding)
    (hpages : s₁.descPages = s.descPages)
    (hon : ∀ size a, a ∈ on₁ (.bucket size) ↔ a ∈ on (.bucket size) ∧ a ≠ d) :
    Inv (retire d s₁).1 (update on₁ .free (d :: on₁ .free)) := by
  have hinuse : InUse s.call on d := inUse_of_on hd
  set s' := (retire d s₁).1
  have hdesc' : ∀ a, ∃ n, s'.desc a = { s.desc a with next := n } := by
    intro a
    obtain ⟨n, hn⟩ := hdesc a
    obtain ⟨m, hm⟩ := setNext_desc s₁ d s₁.freeBucketDesc a
    exact ⟨m, by rw [show s'.desc a = _ from hm, hn]⟩
  have hpage : ∀ a, (s'.desc a).page = (s.desc a).page := by
    intro a
    obtain ⟨n, hn⟩ := hdesc' a
    rw [hn]
  have hfreed : s'.outstanding = update s.outstanding (s.desc d).page false := by
    obtain ⟨n, hn⟩ := hdesc' d
    rw [← hout, ← congrArg BucketDesc.page hn]
    rfl
  have hown : ∀ {p}, Owned s p → p ≠ (s.desc d).page → Owned s' p := by
    intro p hp hne
    refine hp.congr ?_
    rw [hfreed, update_of_ne hne]
  have hbucket : ∀ {size a}, a ∈ update on₁ .free (d :: on₁ .free) (.bucket size) ↔
      a ∈ on (.bucket size) ∧ a ≠ d := by
    intro size a
    rw [update_of_ne (by simp)]
    exact hon size a
  have huse : ∀ {a}, InUse s'.call (update on₁ .free (d :: on₁ .free)) a →
      InUse s.call on a ∧ a ≠ d := by
    rintro a (⟨size, ha⟩ | ⟨c, ha⟩)
    · obtain ⟨ha, hne⟩ := hbucket.1 ha
      exact ⟨.inl ⟨size, ha⟩, hne⟩
    · rw [show s'.call = s.call from hcall] at ha
      exact ⟨.inr ⟨c, ha⟩, h.ne_of_held ha.holds hd⟩
  refine ⟨?_, ⟨fun a ha => ?_, fun a a' ha ha' heq => ?_, fun p hp => ?_, fun a ha => ?_⟩,
    fun size' a ha => ?_, fun a len ha => ?_, fun c => ?_⟩
  · have hpush := hcustody.push (q := .free) (c := none) (d := d)
      (fun x => by rw [update_self])
    have hnone : (update (update (holdsOf s.call) none (· = d)) none
        fun _ => False) = holdsOf s'.call := by
      rw [Function.update_idem, show s'.call = s.call from hcall]
      exact update_eq_self none (holdsOf s.call)
    have hisDesc : s'.IsDesc = s.IsDesc := by
      unfold State.IsDesc
      rw [show s'.descPages = s.descPages from hpages]
    rw [hnone] at hpush
    rw [show s'.next = _ from setNext_next s₁ d s₁.freeBucketDesc,
      show s'.head = _ from head_free s₁ d, hisDesc]
    exact hpush
  · obtain ⟨ha, hne⟩ := huse ha
    rw [hpage]
    exact hown (h.pages.owned a ha) fun heq => hne (h.pages.inj a d ha hinuse heq)
  · rw [hpage, hpage] at heq
    exact h.pages.inj a a' (huse ha).1 (huse ha').1 heq
  · rw [show s'.descPages = s.descPages from hpages] at hp
    refine hown (h.pages.descs p hp) ?_
    rintro rfl
    exact h.pages.apart d hinuse hp
  · rw [hpage, show s'.descPages = s.descPages from hpages]
    exact h.pages.apart a (huse ha).1
  · exact (h.buckets size' a (hbucket.1 ha).1).congr (hdesc' a)
      (fun _ _ _ => by rw [show s'.mem = s.mem from hmem])
      (fun _ _ => by rw [show s'.live = s.live from hlive])
  · rw [show s'.live = s.live from hlive] at ha
    obtain ⟨size', b, hb, hslot, hlen⟩ := h.objects a len ha
    refine ⟨size', b, hbucket.2 ⟨hb, ?_⟩, by rwa [hpage], hlen⟩
    rintro rfl
    rw [hnolive a hslot.onPage] at ha
    cases ha
  · rw [show s'.call = s.call from hcall]
    refine (h.calls c).congr (fun a ha => ?_)
      (fun _ _ _ _ => by rw [show s'.mem = s.mem from hmem])
      (fun p hp => by rwa [show s'.descPages = s.descPages from hpages])
    exact (setNext_desc_of_ne s₁ _ (h.ne_of_held ha hd)).trans (hheld c a ha)

/-! ## `kfree_s` -/

section Free

variable {s : State ι} {on : Queue → List Nat}

/-- `prev` is the descriptor before `d` on the chain, 0 when `d` is the first. -/
def Before (prev d : Nat) (l : List Nat) : Prop :=
  ∃ l₁ l₂, l = l₁ ++ d :: l₂ ∧ (l₁ = [] ∧ prev = 0 ∨ ∃ l₀, l₁ = l₀ ++ [prev])

/-- The search of `kfree_s` finds the descriptor of the page. -/
theorem findPage_spec (h : Inv s on) {size bsize d : Nat} (hd : d ∈ on (.bucket bsize))
    (hsize : size ≤ bsize) {sizes : List Nat} (hmem : bsize ∈ sizes) :
    ∃ prev, findPage s (s.desc d).page size sizes = some (bsize, prev, d) ∧
      Before prev d (on (.bucket bsize)) := by
  induction sizes with
  | nil => cases hmem
  | cons x sizes ih =>
    rw [findPage]
    have hrest : bsize ≠ x → ∃ prev, findPage s (s.desc d).page size sizes = some (bsize, prev, d) ∧
        Before prev d (on (.bucket bsize)) := by
      intro hne
      exact ih ((List.mem_cons.1 hmem).resolve_left hne)
    have hthreads := h.custody.family.threads (.bucket x)
    by_cases hx : x ≥ size
    · rw [if_pos hx]
      cases hfind : findOn 0 s.next (fun a => decide ((s.desc a).page = (s.desc d).page))
          s.descCount 0 (s.chain x) with
      | some pd =>
        obtain ⟨prev, a⟩ := pd
        obtain ⟨hpage, l₁, l₂, hon, -, hprev⟩ := findOn_eq_some hthreads hfind
        have ha : a ∈ on (.bucket x) := by simp [hon]
        obtain rfl := h.pages.inj a d (inUse_of_on ha) (inUse_of_on hd) (by simpa using hpage)
        obtain rfl := h.size_eq ha hd
        exact ⟨prev, rfl, l₁, l₂, hon, hprev⟩
      | none =>
        refine hrest ?_
        rintro rfl
        have := (findOn_eq_none hthreads (h.length_le _)).1 hfind d hd
        simp at this
    · rw [if_neg hx]
      refine hrest ?_
      rintro rfl
      exact hx hsize

/-- `prev` is accurate: nothing has happened since the search. -/
theorem checkPrev_eq (h : Inv s on) {bsize prev d : Nat}
    (hprev : Before prev d (on (.bucket bsize))) : checkPrev bsize prev d s = prev := by
  obtain ⟨l₁, l₂, hon, hl⟩ := hprev
  have hthreads : Threads 0 s.next (s.chain bsize) (l₁ ++ d :: l₂) :=
    hon ▸ h.custody.family.threads (.bucket bsize)
  unfold checkPrev
  rw [if_neg]
  rintro (⟨hne, hnext⟩ | ⟨hzero, hchain⟩)
  · rcases hl with ⟨-, rfl⟩ | ⟨l₀, rfl⟩
    · exact hne rfl
    · rw [List.append_assoc] at hthreads
      exact hnext hthreads.of_append.1
  · rcases hl with ⟨rfl, -⟩ | ⟨l₀, rfl⟩
    · exact hchain hthreads.1
    · exact hthreads.ne_null prev (by simp) hzero

variable [DecidableEq ι]

/-- From the label `found` to the return: the page goes back exactly when no live object
is left on it. -/
theorem found_inv (h : Inv s on) {bsize prev d obj len : Nat} (hd : d ∈ on (.bucket bsize))
    (hprev : Before prev d (on (.bucket bsize))) (hlive : s.live obj = some len)
    (hslot : Slot (s.desc d).page bsize obj) :
    (∃ on', Inv (found obj bsize prev d s).1 on') ∧
      (found obj bsize prev d s).2 =
        if liveOn (update s.live obj none) (s.desc d).page = 0 then
          [.freePage (s.desc d).page]
        else [] := by
  have hput := putObject_inv h hd hlive hslot
  have hbucket := hput.buckets bsize d hd
  have hpage : ((putObject obj d s).desc d).page = (s.desc d).page := by
    simp [putObject]
  have hcnt : ((putObject obj d s).desc d).refcnt =
      liveOn (update s.live obj none) (s.desc d).page := by
    rw [hbucket.refcnt, hpage]
    rfl
  unfold found
  simp only [hcnt]
  by_cases hzero : liveOn (update s.live obj none) (s.desc d).page = 0
  · rw [if_pos hzero, if_pos hzero]
    have hnolive : ∀ a, OnPage ((putObject obj d s).desc d).page a →
        (putObject obj d s).live a = none := by
      rw [hpage]
      exact liveOn_eq_zero.1 hzero
    rw [checkPrev_eq hput hprev]
    obtain ⟨l₁, l₂, hon, hl⟩ := hprev
    have hthreads : Threads 0 (putObject obj d s).next ((putObject obj d s).chain bsize)
        (l₁ ++ d :: l₂) := hon ▸ hput.custody.family.threads (.bucket bsize)
    have hnodup : (l₁ ++ d :: l₂).Nodup := hon ▸ hput.custody.family.nodup (.bucket bsize)
    have hrest : ∀ {l}, (∀ a, a ∈ l ↔ a ∈ l₁ ++ l₂) → ∀ size a,
        a ∈ update on (.bucket bsize) l (.bucket size) ↔
          a ∈ on (.bucket size) ∧ a ≠ d := by
      intro l hl size a
      rw [List.nodup_middle, List.nodup_cons] at hnodup
      by_cases hs : size = bsize
      · subst hs
        rw [update_self, hl, hon]
        simp only [List.mem_append, List.mem_cons]
        constructor
        · intro ha
          refine ⟨ha.imp_right .inr, ?_⟩
          rintro rfl
          exact hnodup.1 (List.mem_append.2 ha)
        · rintro ⟨ha | ha | ha, hne⟩
          · exact .inl ha
          · exact absurd ha hne
          · exact .inr ha
      · rw [update_of_ne (by simpa using hs)]
        refine ⟨fun ha => ⟨ha, ?_⟩, And.left⟩
        rintro rfl
        exact hs (h.size_eq ha hd)
    rcases hl with ⟨rfl, rfl⟩ | ⟨l₀, rfl⟩
    · -- the descriptor is the first of its chain
      rw [if_neg (by simp), if_neg (not_not.2 hthreads.1)]
      have hpop := hput.custody.pop (c := none) hon (fun _ => id)
      rw [← head_chain] at hpop
      refine ⟨⟨_, retire_inv hput hd hnolive hpop (fun a => ⟨_, rfl⟩) (fun _ _ _ => rfl) rfl rfl
        rfl rfl rfl (hrest fun a => Iff.rfl)⟩, ?_⟩
      simp [retire, hpage]
    · -- it comes after `prev`
      have hne : prev ≠ 0 := hthreads.ne_null prev (by simp)
      rw [if_pos hne]
      have hon' : on (.bucket bsize) = l₀ ++ prev :: d :: l₂ := by
        rw [hon, List.append_assoc]
        rfl
      have hunlink := hput.custody.unlink (c := none) hon' (fun _ => id)
      rw [← setNext_next] at hunlink
      refine ⟨⟨_, retire_inv hput hd hnolive hunlink (setNext_desc _ _ _) (fun c a ha => ?_) rfl
        rfl rfl rfl rfl (hrest fun a => by simp)⟩, ?_⟩
      · exact setNext_desc_of_ne _ _ (h.ne_of_held ha (q := .bucket bsize) (by simp [hon']))
      · simp [retire, hpage]
  · rw [if_neg hzero, if_neg hzero]
    exact ⟨⟨on, hput⟩, rfl⟩

end Free

/-- A store by the owner of an object, or outside the allocator. -/
theorem store_inv {s : State ι} {on : Queue → List Nat} (h : Inv s on) {a : Nat}
    (ha : InObject s a ∨ s.outstanding (pageOf a) = false) (v : Nat) :
    Inv { s with mem := update s.mem a v } on := by
  -- the word is on no page in use, except inside a live object of a bucket
  have hword : ∀ d, InUse s.call on d → OnPage (s.desc d).page a →
      ∃ size obj, d ∈ on (.bucket size) ∧ Slot (s.desc d).page size obj ∧ s.live obj ≠ none ∧
        obj ≤ a ∧ a < obj + size := by
    intro d hd hon
    have howned := h.pages.owned d hd
    rcases ha with ⟨obj, len, hlive, hle, hlt⟩ | hout
    · obtain ⟨size, d', hd', hslot, hlen⟩ := h.objects obj len hlive
      have hend := hslot.end_le
      have hstart := hslot.onPage.1
      have hon' : OnPage (s.desc d').page a := ⟨by omega, by omega⟩
      obtain rfl := h.eq_of_onPage hd (inUse_of_on hd') hon hon'
      exact ⟨size, obj, hd', hslot, by simp [hlive], hle, by omega⟩
    · rw [pageOf_eq howned.aligned hon, howned.outstanding] at hout
      cases hout
  refine ⟨h.custody, h.pages.congr id (fun _ => rfl) rfl rfl, fun size d hd => ?_, h.objects,
    fun c => ?_⟩
  · refine (h.buckets size d hd).congr ⟨_, rfl⟩ (fun b hb hfree => update_of_ne ?_ _ _)
      (fun _ _ => rfl)
    rintro rfl
    obtain ⟨size', obj, hd', hslot, hlive, hle, hlt⟩ := hword d (inUse_of_on hd) hb.onPage
    obtain rfl := h.size_eq hd' hd
    have hne : b ≠ obj := by
      rintro rfl
      exact hlive hfree
    have := hb.disjoint hslot hne
    have := hb.size_pos
    omega
  · refine (h.calls c).congr (fun _ _ => rfl) (fun d hd b hb => update_of_ne ?_ _ _)
      (fun _ => id)
    rintro rfl
    obtain ⟨size, -, hd', -⟩ := hword d (.inr ⟨c, hd⟩) hb
    exact h.ne_of_held hd.holds hd' rfl

section Step

variable [DecidableEq ι] {s : State ι} {on : Queue → List Nat}

/-- `kfree_s` of a live object: the page goes back exactly when the object was the last
live one on it. -/
theorem kfreeS_inv (h : Inv s on) {obj size : Nat}
    (hobj : obj = 0 ∨ ∃ len, s.live obj = some len ∧ size ≤ len) :
    (∃ on', Inv (kfreeS obj size s).1 on') ∧
      (∀ o ∈ (kfreeS obj size s).2, o = .freePage (pageOf obj)) ∧
      (.freePage (pageOf obj) ∈ (kfreeS obj size s).2 ↔
        s.live obj ≠ none ∧ ∀ a, s.live a ≠ none → pageOf a = pageOf obj → a = obj) := by
  have hnull : s.live 0 = none := by
    by_contra hlive
    obtain ⟨len, hlen⟩ := Option.ne_none_iff_exists'.1 hlive
    obtain ⟨bsize, d, hd, hslot, -⟩ := h.objects 0 len hlen
    have := (h.pages.owned d (inUse_of_on hd)).ne_zero
    have := hslot.onPage.1
    omega
  unfold kfreeS
  by_cases hzero : obj = 0
  · subst hzero
    rw [if_pos rfl]
    exact ⟨⟨on, h⟩, by simp, by simp [hnull]⟩
  · rw [if_neg hzero]
    obtain ⟨len, hlive, hsize⟩ := hobj.resolve_left hzero
    obtain ⟨bsize, d, hd, hslot, hlen⟩ := h.objects obj len hlive
    have haligned := (h.pages.owned d (inUse_of_on hd)).aligned
    have hpage : pageOf obj = (s.desc d).page := pageOf_eq haligned hslot.onPage
    obtain ⟨prev, hfind, hprev⟩ :=
      findPage_spec h hd (hsize.trans hlen) (h.buckets bsize d hd).size_mem
    rw [hpage, hfind]
    obtain ⟨hinv, hout⟩ := found_inv h hd hprev hlive hslot
    refine ⟨hinv, ?_, ?_⟩
    · simp only [hout]
      intro o ho
      split_ifs at ho with hcount
      · exact List.mem_singleton.1 ho
      · cases ho
    · have hlast : liveOn (update s.live obj none) (s.desc d).page = 0 ↔
          ∀ a, s.live a ≠ none → pageOf a = (s.desc d).page → a = obj := by
        rw [liveOn_eq_zero]
        constructor
        · intro hall a ha hpa
          by_contra hne
          have hon : OnPage (s.desc d).page a := by
            rw [← hpa]
            unfold OnPage pageOf pageSize
            omega
          have := hall a hon
          rw [update_of_ne hne] at this
          exact ha this
        · intro hall a ha
          by_cases hne : a = obj
          · rw [hne, update_self]
          · rw [update_of_ne hne]
            by_contra hlive'
            exact hne (hall a hlive' (pageOf_eq haligned ha))
      simp only [hout]
      rw [← hlast]
      split_ifs with hcount <;> simp [hcount, hlive]

theorem step_inv (h : Inv s on) {e : Event ι} (hallowed : Allowed s e)
    {r : State ι × List (Output ι)} (hr : stepOut s e = some r) : ∃ on', Inv r.1 on' := by
  cases e with
  | kmalloc c len =>
    cases hr
    exact (kmalloc_inv h hallowed len).1
  | getFreePage c page => exact (getFreePage_inv h hallowed hr).1
  | proceed c => exact (proceed_inv h hr).1
  | kfreeS obj size =>
    cases hr
    exact (kfreeS_inv h hallowed).1
  | store a v =>
    cases hr
    exact ⟨on, store_inv h hallowed v⟩

end Step

/-! ## Whole runs -/

/-- The descriptor is on the list. -/
def OnList (s : State ι) (q : Queue) (d : Nat) : Prop :=
  ∃ l, Threads 0 s.next (s.head q) l ∧ d ∈ l

/-- Where a descriptor can be: on a list or with a call in progress. -/
def At (s : State ι) : Queue ⊕ ι → Nat → Prop
  | .inl q, d => OnList s q d
  | .inr c, d => (s.call c).Holds d

/-- The object at `a` is one of a bucket of the given size. -/
def Extent (s : State ι) (a size : Nat) : Prop :=
  ∃ d, OnList s (.bucket size) d ∧ Slot (s.desc d).page size a

/-- What the allocator promises of every state. -/
structure HeapSound (s : State ι) : Prop where
  /-- A live object has at least the length asked for, all of it on one page. -/
  spans : ∀ a len, s.live a = some len →
    ∃ size, Extent s a size ∧ len ≤ size ∧ a + size ≤ pageOf a + pageSize
  /-- Two live objects do not overlap. -/
  disjoint : ∀ a b m n, s.live a ≠ none → s.live b ≠ none → a ≠ b → Extent s a m →
    Extent s b n → a + m ≤ b ∨ b + n ≤ a
  /-- The reference count of a bucket is the number of its live objects. -/
  refcnt : ∀ size d, OnList s (.bucket size) d →
    (s.desc d).refcnt = liveOn s.live (s.desc d).page
  /-- The free list of a bucket contains each other object of the page once. -/
  freeList : ∀ size d, OnList s (.bucket size) d →
    FreeList s.mem s.live (s.desc d).page size (s.desc d).freeptr
  /-- The lists end, contain no descriptor twice and nothing but descriptors. -/
  lists : ∀ q, ∃ l, Threads 0 s.next (s.head q) l ∧ l.Nodup ∧ ∀ d ∈ l, s.IsDesc d
  /-- Every descriptor is in exactly one place. -/
  placed : ∀ d, s.IsDesc d → ∃! w, At s w d

/-- What the allocator promises of every step: a page goes back exactly when its last live
object is freed, an object handed out was not live, and `kfree_s` knows every object it is
given. -/
def StepSound [DecidableEq ι] (s : State ι) : Prop :=
  ∀ e r, Allowed s e → stepOut s e = some r →
    (∀ p, .freePage p ∈ r.2 ↔ ∃ obj size, e = .kfreeS obj size ∧ s.live obj ≠ none ∧
      p = pageOf obj ∧ ∀ a, s.live a ≠ none → pageOf a = p → a = obj) ∧
    (∀ c retval, .returns c retval ∈ r.2 → retval = 0 ∨ s.live retval = none) ∧
    .panic ∉ r.2 ∧ ∀ obj size, .badAddress obj size ∉ r.2

section Runs

variable {s : State ι} {on : Queue → List Nat}

theorem Inv.onList_iff (h : Inv s on) {q : Queue} {d : Nat} : OnList s q d ↔ d ∈ on q := by
  constructor
  · rintro ⟨l, hl, hd⟩
    rwa [h.custody.family.eq_on hl] at hd
  · exact fun hd => ⟨on q, h.custody.family.threads q, hd⟩

/-- Objects of two different buckets are on different pages. -/
theorem Inv.extent_disjoint (h : Inv s on) {a b m n : Nat} (hne : a ≠ b) (ha : Extent s a m)
    (hb : Extent s b n) : a + m ≤ b ∨ b + n ≤ a := by
  obtain ⟨d, hd, hslot⟩ := ha
  obtain ⟨d', hd', hslot'⟩ := hb
  rw [h.onList_iff] at hd hd'
  by_cases hdd : d = d'
  · subst hdd
    obtain rfl := h.size_eq hd hd'
    exact hslot.disjoint hslot' hne
  · have hpages : (s.desc d).page ≠ (s.desc d').page := fun heq =>
      hdd (h.pages.inj d d' (inUse_of_on hd) (inUse_of_on hd') heq)
    have h1 := (h.pages.owned d (inUse_of_on hd)).aligned
    have h2 := (h.pages.owned d' (inUse_of_on hd')).aligned
    have h3 := hslot.onPage.1
    have h4 := hslot'.onPage.1
    have h5 := hslot.end_le
    have h6 := hslot'.end_le
    unfold pageSize at *
    omega

theorem Inv.placed (h : Inv s on) {d : Nat} (hd : s.IsDesc d) : ∃! w, At s w d := by
  rcases (h.custody.node_iff d).1 hd with ⟨q, hq⟩ | ⟨o, ho⟩
  · refine ⟨.inl q, h.onList_iff.2 hq, ?_⟩
    rintro (q' | c) hw
    · exact congrArg Sum.inl (h.custody.family.disjoint (h.onList_iff.1 hw) hq)
    · exact absurd hq (h.custody.held_not_on (c := some c) hw)
  · cases o with
    | none => cases ho
    | some c =>
      refine ⟨.inr c, ho, ?_⟩
      rintro (q | c') hw
      · exact absurd (h.onList_iff.1 hw) (h.custody.held_not_on ho)
      · have heq : some c' = some c := h.custody.holder_unique hw ho
        exact congrArg Sum.inr (Option.some.inj heq)

theorem Inv.heapSound (h : Inv s on) : HeapSound s where
  spans a len ha := by
    obtain ⟨size, d, hd, hslot, hlen⟩ := h.objects a len ha
    refine ⟨size, ⟨d, h.onList_iff.2 hd, hslot⟩, hlen, ?_⟩
    rw [pageOf_eq (h.pages.owned d (inUse_of_on hd)).aligned hslot.onPage]
    exact hslot.end_le
  disjoint a b m n _ _ hne := h.extent_disjoint hne
  refcnt size d hd := (h.buckets size d (h.onList_iff.1 hd)).refcnt
  freeList size d hd := (h.buckets size d (h.onList_iff.1 hd)).freeList
  lists q := ⟨on q, h.custody.family.threads q, h.custody.family.nodup q,
    fun _ hd => h.custody.node_of_on hd⟩
  placed _ hd := h.placed hd

theorem init_inv (desc : Nat → BucketDesc) (mem : Nat → Nat) :
    Inv (State.init desc mem : State ι) fun _ => [] where
  custody :=
    { family :=
        { threads := fun q => by cases q <;> rfl
          nodup := fun _ => List.nodup_nil
          disjoint := fun hd => by cases hd }
      node_iff := fun d => by
        constructor
        · rintro ⟨p, hp, -⟩
          cases hp
        · rintro (⟨q, hq⟩ | ⟨o, ho⟩)
          · cases hq
          · cases o <;> cases ho
      node_ne := by
        rintro d ⟨p, hp, -⟩
        cases hp
      held_not_on := fun {o d q} _ hd => by cases hd
      holder_unique := fun {o o' d} ho => by cases o <;> cases ho }
  pages :=
    { owned := by rintro d (⟨size, hd⟩ | ⟨c, hd⟩) <;> cases hd
      inj := by rintro d d' (⟨size, hd⟩ | ⟨c, hd⟩) <;> cases hd
      descs := fun p hp => by cases hp
      apart := fun d _ hd => by cases hd }
  buckets size d hd := by cases hd
  objects a len ha := by cases ha
  calls c := trivial

variable [DecidableEq ι]

/-- What is seen of the steps other than `kfree_s`. -/
theorem Inv.served (h : Inv s on) {e : Event ι} {r : State ι × List (Output ι)}
    (hallowed : Allowed s e) (hr : stepOut s e = some r) (hne : ∀ obj size, e ≠ .kfreeS obj size) :
    ∀ o ∈ r.2, Served s o := by
  cases e with
  | kmalloc c len =>
    cases hr
    exact (kmalloc_inv h hallowed len).2
  | getFreePage c page => exact (getFreePage_inv h hallowed hr).2
  | proceed c => exact (proceed_inv h hr).2
  | store a v =>
    cases hr
    simp
  | kfreeS obj size => exact absurd rfl (hne obj size)

theorem Inv.stepSound (h : Inv s on) : StepSound s := by
  intro e r hallowed hr
  by_cases hkfree : ∃ obj size, e = .kfreeS obj size
  · obtain ⟨obj, size, rfl⟩ := hkfree
    cases hr
    obtain ⟨-, hout, hlast⟩ := kfreeS_inv h hallowed
    refine ⟨fun p => ?_, fun c retval hret => ?_, fun hp => ?_, fun obj size hbad => ?_⟩
    · constructor
      · intro hp
        obtain rfl : p = pageOf obj := by simpa using hout _ hp
        obtain ⟨hlive, hall⟩ := hlast.1 hp
        exact ⟨obj, size, rfl, hlive, rfl, hall⟩
      · rintro ⟨obj', size', he, hlive, rfl, hall⟩
        cases he
        exact hlast.2 ⟨hlive, hall⟩
    · cases hout _ hret
    · cases hout _ hp
    · cases hout _ hbad
  · have hall := h.served hallowed hr fun obj size he => hkfree ⟨obj, size, he⟩
    refine ⟨fun p => ⟨fun hp => (hall _ hp).elim, ?_⟩, fun c retval hret => hall _ hret,
      fun hp => hall _ hp, fun obj size hbad => hall _ hbad⟩
    rintro ⟨obj, size, he, -⟩
    exact absurd ⟨obj, size, he⟩ hkfree

/-- **The heap invariant of `kmalloc`.**  In every state of every run the live objects are
disjoint and large enough, the buckets agree with their pages, every descriptor is in one
place, and a page is freed exactly with its last object. -/
theorem kmalloc_heap (desc : Nat → BucketDesc) (mem : Nat → Nat) {s : State ι}
    (h : Transition.Reach step Allowed (State.init desc mem) s) :
    HeapSound s ∧ StepSound s := by
  have hinv : ∃ on, Inv s on := by
    refine h.invariant (I := fun s => ∃ on, Inv s on) ⟨_, init_inv desc mem⟩ ?_
    rintro s e s' ⟨on, hs⟩ hallowed hstep
    obtain ⟨r, hr, rfl⟩ := Option.map_eq_some_iff.1 hstep
    exact step_inv hs hallowed hr
  obtain ⟨on, hs⟩ := hinv
  exact ⟨hs.heapSound, hs.stepSound⟩

end Runs

/-- Steps that are easily seen to be allowed. -/
def servesPage (s : State Unit) : Event Unit → Bool
  | .kmalloc c _ => s.call c = .idle
  | .getFreePage _ page => page % pageSize = 0 && !s.outstanding page
  | .proceed _ => true
  | _ => false

theorem allowed_of_servesPage (s : State Unit) (e : Event Unit) (h : servesPage s e = true) :
    Allowed s e := by
  cases e with
  | kmalloc c len => simpa [servesPage, Allowed] using h
  | getFreePage c page =>
    right
    simpa [servesPage] using h
  | proceed c => trivial
  | kfreeS | store => cases h

/-- Two objects of one page: the descriptors of page 4096 are initialised, page 8192 is cut
into two objects, and both are handed out. -/
theorem kmalloc_heap_two_objects :
    ∃ s : State Unit, s.live 8192 = some 2000 ∧ s.live 10240 = some 1500 ∧
      HeapSound s ∧ StepSound s := by
  have hrun : ((Transition.execOkFrom step servesPage
      (State.init (fun _ => ⟨0, 0, 0, 0, 0⟩) fun _ => 0)
      (.kmalloc () 2000 :: .getFreePage () 4096 :: (List.replicate 256 (Event.proceed ()) ++
        [.getFreePage () 8192, .proceed (), .proceed (), .proceed (), .kmalloc () 1500]))).map
      fun s => (s.live 8192, s.live 10240)) = some (some 2000, some 1500) := by
    decide +kernel
  obtain ⟨s, hs, hlive⟩ := Option.map_eq_some_iff.1 hrun
  have hreach := Transition.Reach.of_execOkFrom allowed_of_servesPage .init hs
  exact ⟨s, congrArg Prod.fst hlive, congrArg Prod.snd hlive, kmalloc_heap _ _ hreach⟩

end LinuxEvocation.Malloc
