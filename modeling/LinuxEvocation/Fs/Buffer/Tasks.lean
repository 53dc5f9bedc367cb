import LinuxEvocation.Fs.Buffer.Effect

/-!
# The tasks in the buffer cache

What holds in every state the tasks can reach, whatever they ask for: `b_count` is at least the
number of references that the tasks hold, so the buffers they refer to stay in the cache and keep
their identity, and the heads of the pages they are making are theirs alone.

* `Inv` — the invariant; `Inv.update` — what a step of one task has to show.
* `Ready` — a task runs; `Ready.next`, `Ready.quiet`, `Ready.jump` — it makes a step.
* `Ready.waitOn`, `Ready.release`, `Ready.checkNext`, `Ready.loadNext`, `Ready.grow` — the parts
  the functions share.
-/

namespace LinuxEvocation.Fs.Buffer

open Function (update_eq_self update_of_ne update_self)
open LinuxEvocation.Mm

variable {ι : Type}

/-! ## The invariant -/

/-- The references a task holds. -/
def refsOf (s : Sys ι) (t : ι) : List Nat := (s.pc t).refs ++ (s.own t).map Ref.bh

/-- The buffer is the one that was asked for. -/
def Right (c : Cache) (bh dev block size : Nat) : Prop :=
  c.dev bh = dev ∧ c.blocknr bh = block ∧ c.size bh = size

def AfterOk (c : Cache) (bh : Nat) : After → Prop
  | .found dev block size _ => Right c bh dev block size
  | .unhash dev _ _ _ => dev ≠ 0
  | .read todo all _ => ∀ x ∈ todo, x ∈ all
  | _ => True

/-- What a task relies on where it is. -/
def PcOk (c : Cache) : Pc → Prop
  | .wait bh k => AfterOk c bh k
  | .after bh k => AfterOk c bh k ∧ bh ∈ c.ring
  | .sync (.setBlocksize dev _) => dev ≠ 0
  | .io _ (.setBlocksize dev _) => dev ≠ 0
  | .setSize dev _ => dev ≠ 0
  | .unhash dev _ _ _ => dev ≠ 0
  | .read todo all _ => ∀ x ∈ todo, x ∈ all
  | _ => True

structure Inv [Fintype ι] (s : Sys ι) : Prop where
  cache : CacheOk s.cache
  counts : ∀ x, ∑ t, (refsOf s t).count x ≤ s.cache.count x
  alive : ∀ t, ∀ x ∈ refsOf s t, x ∈ s.cache.ring
  own : ∀ t, ∀ r ∈ s.own t, Right s.cache r.bh r.dev r.block r.size
  pcs : ∀ t, PcOk s.cache (s.pc t)
  asleep : ∀ t, s.cpu = some t ∨ (s.pc t).asleep = true
  heads : ∀ t, (s.pc t).heads.Nodup ∧ ∀ x ∈ (s.pc t).heads, x ∉ s.cache.ring
  apart : ∀ t u, t ≠ u → ∀ x ∈ (s.pc t).heads, x ∉ (s.pc u).heads

/-- A buffer that does not change is still the one that was asked for. -/
theorem Effect.right {c c' : Cache} {D : Nat → Prop} (heff : Effect c c' D) {x : Nat}
    (hx : ¬ D x) {dev block size : Nat} (h : Right c x dev block size) :
    Right c' x dev block size :=
  ⟨(heff.dev_eq hx).trans h.1, (heff.blocknr_eq hx).trans h.2.1, (heff.size_eq hx).trans h.2.2⟩

/-- What a task relies on where it is stays if the buffers it refers to stay, and it sleeps or no
buffer leaves the cache. -/
theorem PcOk.map {c c' : Cache} {p : Pc}
    (hright : ∀ x ∈ p.refs, ∀ {dev block size}, Right c x dev block size → Right c' x dev block size)
    (hring : p.asleep = true ∨ c'.ring = c.ring) (h : PcOk c p) : PcOk c' p := by
  have hafter : ∀ {bh k}, (∀ x ∈ k.refs bh, x ∈ p.refs) → AfterOk c bh k → AfterOk c' bh k := by
    intro bh k hk h
    cases k with
    | found dev block size k => exact hright bh (hk bh List.mem_cons_self) h
    | victim dev block size | unhash dev size i bhnext | read todo all f | release l f => exact h
  cases p with
  | wait bh k => exact hafter (fun x hx => List.mem_cons_of_mem bh hx) h
  | after bh k => exact ⟨hafter (fun x hx => hx) h.1, hring.resolve_left (by simp [Pc.asleep]) ▸ h.2⟩
  | sync k | io bh k =>
    cases k with
    | getblk dev block size => trivial
    | setBlocksize dev size => exact h
  | setSize dev size | unhash dev size i bh | read todo all f => exact h
  | idle | search dev block size k | scan dev block size | sleepOn dev block size | reading all f =>
    trivial

/-- What a sleeping task relies on stays when only heads that nobody refers to change. -/
theorem Effect.pcOk {c c' : Cache} {D : Nat → Prop} (heff : Effect c c' D) {p : Pc}
    (hsleep : p.asleep = true) (hrefs : ∀ x ∈ p.refs, ¬ D x) (h : PcOk c p) : PcOk c' p :=
  h.map (fun x hx => heff.right (hrefs x hx)) (.inl hsleep)

/-- One more reference, to a buffer that is counted once more. -/
theorem count_raise {bh : Nat} {l m : List Nat} (hl : l.Perm (bh :: m)) (n : Nat → Nat) (x : Nat) :
    l.count x + n x ≤ Function.update n bh (n bh + 1) x + m.count x := by
  rw [hl.count_eq x, List.count_cons]
  by_cases hx : x = bh
  · subst hx
    simp only [beq_self_eq_true, if_true, update_self]
    omega
  · rw [update_of_ne hx, if_neg (by simpa using fun heq => hx heq.symm)]
    omega

theorem Inv.count_pos [Fintype ι] {s : Sys ι} (h : Inv s) {u : ι} {x : Nat}
    (hx : x ∈ refsOf s u) : 0 < s.cache.count x := by
  have hle : (refsOf s u).count x ≤ ∑ t, (refsOf s t).count x :=
    Finset.single_le_sum (f := fun t => (refsOf s t).count x) (fun _ _ => Nat.zero_le _)
      (Finset.mem_univ u)
  have := List.count_pos_iff.2 hx
  have := h.counts x
  omega

theorem refsOf_update [DecidableEq ι] {s : Sys ι} {t : ι} (p : Pc) (cpu : Option ι) :
    refsOf { s with pc := Function.update s.pc t p, cpu := cpu } t =
      p.refs ++ (s.own t).map Ref.bh := by
  rw [refsOf]
  dsimp only
  rw [update_self]

section Step

variable [DecidableEq ι] [Fintype ι] {s : Sys ι} {t : ι}

theorem sum_update (f : ι → Nat) (t : ι) (v : Nat) :
    ∑ u, Function.update f t v u + f t = ∑ u, f u + v := by
  rw [Finset.sum_update_of_mem (Finset.mem_univ t), ← Finset.sum_sdiff (Finset.subset_univ {t}),
    Finset.sum_singleton]
  omega

/-- **A step of one task.**  The heads in `D` may change: nobody refers to them. -/
theorem Inv.update (h : Inv s) {D : Nat → Prop} {s' : Sys ι} {p : Pc} {o : List Ref}
    (hpc : s'.pc = Function.update s.pc t p) (hown : s'.own = Function.update s.own t o)
    (hcpu : (s'.cpu = some t ∨ p.asleep = true) ∧ ∀ u, u ≠ t → (s.pc u).asleep = true)
    (hcache : CacheOk s'.cache) (heff : Effect s.cache s'.cache D)
    (hfree : ∀ x, D x → x ∉ s.cache.ring ∨ s.cache.count x = 0)
    (hmine : ∀ x, D x → x ∉ s.cache.ring → ∀ u, u ≠ t → x ∉ (s.pc u).heads)
    (hcounts : ∀ x, ¬ D x → (p.refs ++ o.map Ref.bh).count x + s.cache.count x ≤
      s'.cache.count x + (refsOf s t).count x)
    (hcounts' : ∀ x, D x → (p.refs ++ o.map Ref.bh).count x ≤ s'.cache.count x)
    (halive : ∀ x ∈ p.refs ++ o.map Ref.bh, x ∈ s'.cache.ring)
    (hright : ∀ r ∈ o, Right s'.cache r.bh r.dev r.block r.size) (hok : PcOk s'.cache p)
    (hheads : p.heads.Nodup ∧ ∀ x ∈ p.heads, x ∉ s'.cache.ring)
    (hapart : ∀ u, u ≠ t → ∀ x ∈ p.heads, x ∉ (s.pc u).heads) : Inv s' := by
  -- nobody refers to a head in `D`
  have hnoref : ∀ u, ∀ x ∈ refsOf s u, ¬ D x := by
    intro u x hx hD
    rcases hfree x hD with hoff | hzero
    · exact hoff (h.alive u x hx)
    · exact absurd hzero (h.count_pos hx).ne'
  have hsame : ∀ u, u ≠ t → refsOf s' u = refsOf s u := by
    intro u hu
    rw [refsOf, refsOf, hpc, hown, update_of_ne hu, update_of_ne hu]
  have hself : refsOf s' t = p.refs ++ o.map Ref.bh := by
    rw [refsOf, hpc, hown, update_self, update_self]
  have hpc' : ∀ u, u ≠ t → s'.pc u = s.pc u := by
    intro u hu
    rw [hpc, update_of_ne hu]
  have hpct : s'.pc t = p := by rw [hpc, update_self]
  have hring : ∀ u, u ≠ t → ∀ x ∈ (s.pc u).heads, x ∉ s'.cache.ring := by
    intro u hu x hx hmem
    have hoff := (h.heads u).2 x hx
    have hD : ¬ D x := fun hD => hmine x hD hoff u hu hx
    exact hoff ((heff.ring x hD).1 hmem)
  refine ⟨hcache, fun x => ?_, fun u x hx => ?_, fun u r hr => ?_, fun u => ?_, fun u => ?_,
    fun u => ?_, fun u w huw x hx => ?_⟩
  · have hsum := sum_update (fun u => (refsOf s u).count x) t
      ((p.refs ++ o.map Ref.bh).count x)
    have hfun : (fun u => (refsOf s' u).count x) =
        Function.update (fun u => (refsOf s u).count x) t ((p.refs ++ o.map Ref.bh).count x) := by
      funext u
      by_cases hu : u = t
      · rw [hu, update_self, hself]
      · rw [update_of_ne hu, hsame u hu]
    rw [← hfun] at hsum
    by_cases hD : D x
    · have hzero : ∀ u, (refsOf s u).count x = 0 := by
        intro u
        exact List.count_eq_zero.2 fun hx => hnoref u x hx hD
      have := hcounts' x hD
      simp only [hzero, Finset.sum_const_zero] at hsum
      omega
    · have := hcounts x hD
      have := h.counts x
      dsimp only at hsum
      omega
  · by_cases hu : u = t
    · rw [hu, hself] at hx
      exact halive x hx
    · rw [hsame u hu] at hx
      exact (heff.ring x (hnoref u x hx)).2 (h.alive u x hx)
  · by_cases hu : u = t
    · rw [hu, hown, update_self] at hr
      exact hright r hr
    · rw [hown, update_of_ne hu] at hr
      refine heff.right (hnoref u r.bh ?_) (h.own u r hr)
      exact List.mem_append_right _ (List.mem_map_of_mem hr)
  · by_cases hu : u = t
    · rw [hu, hpct]
      exact hok
    · rw [hpc' u hu]
      exact heff.pcOk (hcpu.2 u hu)
        (fun x hx => hnoref u x (List.mem_append_left _ hx)) (h.pcs u)
  · by_cases hu : u = t
    · rw [hu, hpct]
      exact hcpu.1
    · rw [hpc' u hu]
      exact .inr (hcpu.2 u hu)
  · by_cases hu : u = t
    · rw [hu, hpct]
      exact hheads
    · rw [hpc' u hu]
      exact ⟨(h.heads u).1, hring u hu⟩
  · by_cases hu : u = t
    · rw [hu, hpct] at hx
      rw [hpc' w (fun heq => huw (hu.trans heq.symm))]
      exact hapart w (fun heq => huw (hu.trans heq.symm)) x hx
    · rw [hpc' u hu] at hx
      by_cases hw : w = t
      · rw [hw, hpct]
        exact fun hmem => hapart u hu x hmem hx
      · rw [hpc' w hw]
        exact h.apart u w huw x hx

/-! ## A task that runs -/

/-- The invariant holds with task `t` running at `p`. -/
def Ready (s : Sys ι) (t : ι) (p : Pc) : Prop :=
  Inv { s with pc := Function.update s.pc t p, cpu := some t }

theorem Ready.of_inv (h : Inv s) (hcpu : s.cpu = some t) : Ready s t (s.pc t) := by
  have hs : { s with pc := Function.update s.pc t (s.pc t), cpu := some t } = s := by
    rw [update_eq_self, ← hcpu]
  rw [Ready, hs]
  exact h

namespace Ready

variable {p : Pc}

theorem cacheOk (h : Ready s t p) : CacheOk s.cache := by
  have hcache := Inv.cache h
  exact hcache

theorem alive (h : Ready s t p) {x : Nat} (hx : x ∈ p.refs ∨ x ∈ (s.own t).map Ref.bh) :
    x ∈ s.cache.ring := by
  refine Inv.alive h t x ?_
  rw [refsOf_update, List.mem_append]
  exact hx

theorem ok (h : Ready s t p) : PcOk s.cache p := by
  have hpc := Inv.pcs h t
  dsimp only at hpc
  rw [update_self] at hpc
  exact hpc

theorem heads_off (h : Ready s t p) : p.heads.Nodup ∧ ∀ x ∈ p.heads, x ∉ s.cache.ring := by
  have hheads := Inv.heads h t
  dsimp only at hheads
  rw [update_self] at hheads
  exact hheads

theorem heads_apart (h : Ready s t p) {u : ι} (hu : u ≠ t) {x : Nat} (hx : x ∈ p.heads) :
    x ∉ (s.pc u).heads := by
  have hapart := Inv.apart h t u hu.symm x
  dsimp only at hapart
  rw [update_self, update_of_ne hu] at hapart
  exact hapart hx

theorem others (h : Ready s t p) {u : ι} (hu : u ≠ t) : (s.pc u).asleep = true := by
  rcases Inv.asleep h u with hcpu | hsleep
  · exact absurd (Option.some_inj.1 hcpu).symm hu
  · dsimp only at hsleep
    rw [update_of_ne hu] at hsleep
    exact hsleep

/-- **The running task makes a step.** -/
theorem next (h : Ready s t p) {D : Nat → Prop} {s' : Sys ι} {q : Pc} {o : List Ref}
    (hpc : s'.pc = Function.update s.pc t q) (hown : s'.own = Function.update s.own t o)
    (hcpu : s'.cpu = some t ∨ q.asleep = true) (hcache : CacheOk s'.cache)
    (heff : Effect s.cache s'.cache D) (hfree : ∀ x, D x → x ∉ s.cache.ring ∨ s.cache.count x = 0)
    (hmine : ∀ x, D x → x ∉ s.cache.ring → ∀ u, u ≠ t → x ∉ (s.pc u).heads)
    (hcounts : ∀ x, ¬ D x → (q.refs ++ o.map Ref.bh).count x + s.cache.count x ≤
      s'.cache.count x + (p.refs ++ (s.own t).map Ref.bh).count x)
    (hcounts' : ∀ x, D x → (q.refs ++ o.map Ref.bh).count x ≤ s'.cache.count x)
    (halive : ∀ x ∈ q.refs ++ o.map Ref.bh, x ∈ s'.cache.ring)
    (hright : ∀ r ∈ o, Right s'.cache r.bh r.dev r.block r.size) (hok : PcOk s'.cache q)
    (hheads : q.heads.Nodup ∧ ∀ x ∈ q.heads, x ∉ s'.cache.ring)
    (hapart : ∀ u, u ≠ t → ∀ x ∈ q.heads, x ∉ (s.pc u).heads) : Inv s' := by
  have hother : ∀ u, u ≠ t → Function.update s.pc t p u = s.pc u :=
    fun u hu => update_of_ne hu _ _
  refine Inv.update (t := t) (p := q) (o := o) h ?_ hown ⟨hcpu, fun u hu => ?_⟩ hcache heff hfree
    ?_ ?_ hcounts' halive hright hok hheads ?_
  · dsimp only
    rw [Function.update_idem, hpc]
  · dsimp only
    rw [hother u hu]
    exact h.others hu
  · intro x hD hx u hu
    dsimp only
    rw [hother u hu]
    exact hmine x hD hx u hu
  · intro x hD
    rw [refsOf_update]
    exact hcounts x hD
  · intro u hu x hx
    dsimp only
    rw [hother u hu]
    exact hapart u hu x hx

/-- A step that changes no head, and no buffer the task has got. -/
theorem quiet (h : Ready s t p) {s' : Sys ι} {q : Pc}
    (hpc : s'.pc = Function.update s.pc t q) (hown : s'.own = s.own)
    (hcpu : s'.cpu = some t ∨ q.asleep = true) (hcache : CacheOk s'.cache)
    (heff : Effect s.cache s'.cache nobody)
    (hcounts : ∀ x, q.refs.count x + s.cache.count x ≤ s'.cache.count x + p.refs.count x)
    (halive : ∀ x ∈ q.refs, x ∈ s.cache.ring) (hok : PcOk s'.cache q)
    (hheads : q.heads = p.heads) : Inv s' := by
  refine h.next (D := nobody) (o := s.own t) hpc (by rw [hown, update_eq_self]) hcpu hcache
    heff (fun _ hD => hD.elim) (fun _ hD => hD.elim) (fun x _ => ?_) (fun _ hD => hD.elim)
    (fun x hx => ?_) (fun r hr => ?_) hok ?_
    fun u hu x hx => ?_
  · have := hcounts x
    simp only [List.count_append]
    omega
  · refine (heff.ring x id).2 ?_
    rcases List.mem_append.1 hx with hx | hx
    · exact halive x hx
    · exact h.alive (.inr hx)
  · have hr' := Inv.own h t r hr
    exact heff.right id hr'
  · rw [hheads]
    obtain ⟨h1, h2⟩ := h.heads_off
    exact ⟨h1, fun x hx hmem => h2 x hx ((heff.ring x id).1 hmem)⟩
  · rw [hheads] at hx
    exact h.heads_apart hu hx

/-- A step that changes nothing but where the task is. -/
theorem jump (h : Ready s t p) {s' : Sys ι} {q : Pc} (hcache : s'.cache = s.cache)
    (hpc : s'.pc = Function.update s.pc t q) (hown : s'.own = s.own)
    (hcpu : s'.cpu = some t ∨ q.asleep = true) (hrefs : q.refs.Perm p.refs)
    (hok : PcOk s.cache q) (hheads : q.heads = p.heads) : Inv s' := by
  refine h.quiet hpc hown hcpu ?_ ?_ (fun x => ?_) (fun x hx => ?_) ?_ hheads
  · rw [hcache]
    exact h.cacheOk
  · rw [hcache]
    exact Effect.of_eq rfl rfl rfl rfl rfl rfl
  · rw [hcache, hrefs.count_eq x]
    omega
  · exact h.alive (.inl (hrefs.mem_iff.1 hx))
  · rw [hcache]
    exact hok

end Ready

end Step

/-! ## The parts the functions share -/

/-- The heads that get a block are some of the heads. -/
theorem zip_fst_sublist (heads b : List Nat) : ((heads.zip b).map Prod.fst).Sublist heads := by
  induction heads generalizing b with
  | nil => exact List.Sublist.refl _
  | cons x heads ih =>
    cases b with
    | nil => exact List.nil_sublist _
    | cons y b => exact (ih b).cons_cons x

section Parts

variable [DecidableEq ι] [Fintype ι] {s : Sys ι} {t : ι} {p : Pc}

/-- Stores to the counts, the flags, `mem_map` and the block sizes leave the lists alone. -/
theorem CacheOk.congr {c c' : Cache} (h : CacheOk c) (hring : c'.ring = c.ring)
    (hqueue : c'.queue = c.queue) (hdev : c'.dev = c.dev) (hblocknr : c'.blocknr = c.blocknr) :
    CacheOk c' := by
  refine ⟨hring ▸ h.nodup, hqueue ▸ h.queueNodup, fun i x hx => ?_, fun x hx => ?_⟩
  · rw [hqueue] at hx
    rw [hring, Cache.hash, hdev, hblocknr]
    exact h.hashed i x hx
  · rw [hring] at hx
    rw [hdev]
    exact h.off x hx

namespace Ready

/-- **`wait_on_buffer`.** -/
theorem waitOn (h : Ready s t p) {bh : Nat} {k : After} (hcpu : s.cpu = some t)
    (hrefs : (k.refs bh).Perm p.refs) (hok : AfterOk s.cache bh k) (hbh : bh ∈ s.cache.ring)
    (hheads : k.heads = p.heads) : Inv (s.waitOn t bh k) := by
  unfold Sys.waitOn
  split
  · refine h.quiet (q := .wait bh k) rfl rfl (.inr rfl) (h.cacheOk.congr rfl rfl rfl rfl)
      (Effect.of_eq rfl rfl rfl rfl rfl rfl) (fun x => ?_) (fun x hx => ?_) ?_ hheads
    · exact count_raise (hrefs.cons bh) s.cache.count x
    · rcases List.mem_cons.1 hx with rfl | hx
      · exact hbh
      · exact h.alive (.inl (hrefs.mem_iff.1 hx))
    · exact hok
  · exact h.jump (q := .after bh k) rfl rfl rfl (.inl hcpu) hrefs ⟨hok, hbh⟩ hheads

/-- A task gives up the heads it has made. -/
theorem giveUp (h : Ready s t p) {heads : List Nat} (hrefs : p.refs = [])
    (hheads : p.heads = heads) :
    Inv (Sys.block t .idle { s with cache := s.cache.clear heads }) := by
  subst hheads
  obtain ⟨hnodup, hoff⟩ := h.heads_off
  have heff := clear_effect (c := s.cache) p.heads
  have hown : ∀ x ∈ (s.own t).map Ref.bh, x ∉ p.heads :=
    fun x hx hmem => hoff x hmem (h.alive (.inr hx))
  refine h.next (q := .idle) (o := s.own t) rfl (update_eq_self _ _).symm (.inr rfl)
    (h.cacheOk.clear hoff) heff (fun x hx => .inl (hoff x hx))
    (fun x hx _ u hu => h.heads_apart hu hx) (fun x hx => ?_) (fun x hx => ?_) (fun x hx => ?_)
    (fun r hr => ?_) trivial ⟨List.nodup_nil, by simp [Pc.heads]⟩ fun u hu x hx => ?_
  · show _ ≤ (if x ∈ p.heads then 0 else s.cache.count x) + _
    rw [if_neg hx, hrefs]
    simp [Pc.refs, add_comm]
  · have hzero : ((s.own t).map Ref.bh).count x = 0 :=
      List.count_eq_zero.2 fun hmem => hown x hmem hx
    simp [Pc.refs, hzero]
  · have hx' : x ∈ (s.own t).map Ref.bh := by simpa [Pc.refs] using hx
    exact h.alive (.inr hx')
  · exact heff.right (hown r.bh (List.mem_map_of_mem hr)) (Inv.own h t r hr)
  · exact absurd hx (by simp [Pc.heads])

/-- **What follows the release of the buffers.** -/
theorem finish (h : Ready s t p) {f : Finish} (hrefs : p.refs = []) (hheads : p.heads = f.heads) :
    Inv (s.finish t f) := by
  have hnil : (Pc.idle).refs.Perm p.refs := by rw [hrefs]; exact List.Perm.refl _
  cases f with
  | done | loaded address =>
    exact h.jump (q := .idle) rfl rfl rfl (.inr rfl) hnil trivial hheads.symm
  | mapped page address | noGo page =>
    refine h.quiet (q := .idle) rfl rfl (.inr rfl) (h.cacheOk.congr rfl rfl rfl rfl)
      (Effect.of_eq rfl rfl rfl rfl rfl rfl) (fun x => ?_) (by simp [Pc.refs]) trivial hheads.symm
    rw [hrefs]
    exact (Nat.add_comm _ _).le
  | notAligned heads => exact h.giveUp hrefs hheads

/-- **`brelse` for each of the buffers.** -/
theorem release (h : Ready s t p) {f : Finish} {l : List Nat} (hcpu : s.cpu = some t)
    (hrefs : l.Perm p.refs) (hheads : f.heads = p.heads) : Inv (s.release t f l) := by
  cases l with
  | nil => exact h.finish hrefs.nil_eq.symm hheads.symm
  | cons bh l =>
    have hmem : bh ∈ p.refs := hrefs.mem_iff.1 List.mem_cons_self
    exact h.waitOn (k := .release l f) hcpu hrefs trivial (h.alive (.inl hmem)) hheads

/-- **The loop of `check_aligned`.** -/
theorem checkNext (h : Ready s t p) {dev size page address offset : Nat} {acc b : List Nat}
    (hcpu : s.cpu = some t) (hrefs : acc.Perm p.refs) (hheads : p.heads = []) :
    Inv (s.checkNext t dev size page address offset acc b) := by
  unfold Sys.checkNext
  split
  · cases b with
    | nil => exact h.release hcpu hrefs hheads.symm
    | cons block b =>
      dsimp only
      split
      · exact h.release hcpu hrefs hheads.symm
      · exact h.jump (q := .search dev block size (.check page address offset acc b)) rfl rfl rfl
          (.inl hcpu) hrefs trivial hheads.symm
  · exact h.jump (q := .reading acc.reverse (.mapped page address)) rfl rfl rfl (.inr rfl)
      ((List.reverse_perm acc).trans hrefs) trivial hheads.symm

/-- **The first loop of `try_to_load_aligned`, and what follows it.** -/
theorem loadNext (h : Ready s t p) {dev size address : Nat} {heads b rest : List Nat}
    (hcpu : s.cpu = some t) (hrefs : p.refs = []) (hheads : p.heads = heads) :
    Inv (s.loadNext t dev size address heads b rest) := by
  subst hheads
  cases rest with
  | cons block rest =>
    by_cases hblock : block = 0
    · rw [Sys.loadNext, if_pos hblock]
      exact h.finish (f := .notAligned p.heads) hrefs rfl
    · rw [Sys.loadNext, if_neg hblock]
      exact h.jump (q := .search dev block size (.load address p.heads b rest)) rfl rfl rfl
        (.inl hcpu) (by rw [hrefs]; exact List.Perm.refl _) trivial rfl
  | nil =>
    obtain ⟨hnodup, hoff⟩ := h.heads_off
    have hsub := zip_fst_sublist p.heads b
    have hoff' : ∀ x ∈ (p.heads.zip b).map Prod.fst, x ∉ s.cache.ring :=
      fun x hx => hoff x (hsub.subset hx)
    have hown : ∀ x ∈ (s.own t).map Ref.bh, x ∉ (p.heads.zip b).map Prod.fst :=
      fun x hx hmem => hoff' x hmem (h.alive (.inr hx))
    obtain ⟨hok, heff, hring, -, hcount, -⟩ := insertAll_effect dev h.cacheOk
      (hnodup.sublist hsub) hoff'
    have heff' := heff.memMap (Function.update (s.cache.insertAll dev (p.heads.zip b)).memMap
      (mapNr address) (mapAgain ((s.cache.insertAll dev (p.heads.zip b)).memMap (mapNr address))))
    refine h.next (q := .reading ((p.heads.zip b).map Prod.fst) (.loaded address)) (o := s.own t)
      rfl (update_eq_self _ _).symm (.inr rfl) (hok.congr rfl rfl rfl rfl) heff'
      (fun x hx => .inl (hoff' x hx)) (fun x hx _ u hu => h.heads_apart hu (hsub.subset hx))
      (fun x hx => ?_) (fun x hx => ?_) (fun x hx => ?_) (fun r hr => ?_) trivial
      ⟨List.nodup_nil, by simp [Pc.heads, Finish.heads]⟩ fun u hu x hx => ?_
    · have hzero : ((p.heads.zip b).map Prod.fst).count x = 0 := List.count_eq_zero.2 hx
      show _ ≤ (s.cache.insertAll dev (p.heads.zip b)).count x + _
      rw [hcount x, if_neg hx, hrefs]
      simp only [Pc.refs, List.count_append, hzero, List.nil_append]
      omega
    · have hone : ((p.heads.zip b).map Prod.fst).count x ≤ 1 :=
        List.nodup_iff_count_le_one.1 (hnodup.sublist hsub) x
      have hzero : ((s.own t).map Ref.bh).count x = 0 :=
        List.count_eq_zero.2 fun hmem => hown x hmem hx
      show _ ≤ (s.cache.insertAll dev (p.heads.zip b)).count x
      rw [hcount x, if_pos hx]
      simp only [Pc.refs, List.count_append, hzero]
      omega
    · show x ∈ (s.cache.insertAll dev (p.heads.zip b)).ring
      rw [hring, List.mem_append]
      rcases List.mem_append.1 hx with hx | hx
      · exact .inr hx
      · exact .inl (h.alive (.inr hx))
    · exact heff'.right (hown r.bh (List.mem_map_of_mem hr)) (Inv.own h t r hr)
    · exact absurd hx (by simp [Pc.heads, Finish.heads])

end Ready

end Parts

/-! ## References and heads -/

/-- The caches differ in flags, `mem_map` and block sizes only. -/
structure SameBuffers (c c' : Cache) : Prop where
  ring : c'.ring = c.ring
  queue : c'.queue = c.queue
  dev : c'.dev = c.dev
  blocknr : c'.blocknr = c.blocknr
  size : c'.size = c.size
  data : c'.data = c.data
  count : c'.count = c.count

theorem SameBuffers.pcOk {c c' : Cache} {p : Pc} (hc : SameBuffers c c') (h : PcOk c p) :
    PcOk c' p := by
  refine h.map (fun x _ dev block size h => ?_) (.inr hc.ring)
  rw [Right, hc.dev, hc.blocknr, hc.size]
  exact h

/-- Flags and `mem_map` are no matter of the invariant. -/
theorem Inv.congr [Fintype ι] {s s' : Sys ι} (h : Inv s) (hcache : SameBuffers s.cache s'.cache)
    (hpc : s'.pc = s.pc) (hcpu : s'.cpu = s.cpu) (hown : s'.own = s.own) : Inv s' := by
  have hrefs : ∀ u, refsOf s' u = refsOf s u := fun u => by rw [refsOf, refsOf, hpc, hown]
  refine ⟨h.cache.congr hcache.ring hcache.queue hcache.dev hcache.blocknr, fun x => ?_,
    fun u x hx => ?_, fun u r hr => ?_, fun u => ?_, fun u => ?_, fun u => ?_, ?_⟩
  · simp only [hrefs, hcache.count]
    exact h.counts x
  · rw [hrefs] at hx
    rw [hcache.ring]
    exact h.alive u x hx
  · rw [hown] at hr
    rw [Right, hcache.dev, hcache.blocknr, hcache.size]
    exact h.own u r hr
  · rw [hpc]
    exact hcache.pcOk (h.pcs u)
  · rw [hpc, hcpu]
    exact h.asleep u
  · rw [hpc, hcache.ring]
    exact h.heads u
  · rw [hpc]
    exact h.apart

section Steps

variable [DecidableEq ι] [Fintype ι] {s : Sys ι} {t : ι} {p : Pc}

/-- A task that sleeps may go on when nobody runs. -/
theorem Ready.of_none (h : Inv s) (hcpu : s.cpu = none) (t : ι) : Ready s t (s.pc t) := by
  have hpc : Function.update s.pc t (s.pc t) = s.pc := update_eq_self _ _
  rw [Ready, hpc]
  refine ⟨h.cache, h.counts, h.alive, h.own, h.pcs, fun u => .inr ?_, h.heads, h.apart⟩
  rcases h.asleep u with hrun | hsleep
  · rw [hcpu] at hrun
    cases hrun
  · exact hsleep

namespace Ready

theorem raise (h : Ready s t p) {bh : Nat} (hbh : bh ∈ s.cache.ring) (q : Pc) (cpu : Option ι)
    (hcpu : cpu = some t ∨ q.asleep = true) (hrefs : q.refs.Perm (bh :: p.refs))
    (hok : PcOk s.cache q) (hheads : q.heads = p.heads) :
    Inv { Sys.raise bh s with pc := Function.update s.pc t q, cpu := cpu } := by
  refine h.quiet (q := q) rfl rfl hcpu (h.cacheOk.congr rfl rfl rfl rfl)
    (Effect.of_eq rfl rfl rfl rfl rfl rfl) (fun x => ?_) (fun x hx => ?_) ?_ hheads
  · exact count_raise hrefs s.cache.count x
  · rcases List.mem_cons.1 (hrefs.mem_iff.1 hx) with rfl | hx
    · exact hbh
    · exact h.alive (.inl hx)
  · cases q <;> exact hok

theorem drop (h : Ready s t p) (bh : Nat) (q : Pc) (cpu : Option ι)
    (hcpu : cpu = some t ∨ q.asleep = true) (hrefs : p.refs.Perm (bh :: q.refs))
    (hok : PcOk s.cache q) (hheads : q.heads = p.heads) :
    Inv { Sys.drop bh s with pc := Function.update s.pc t q, cpu := cpu } := by
  have hmem : bh ∈ p.refs := hrefs.mem_iff.2 List.mem_cons_self
  have hpos : 0 < s.cache.count bh := by
    refine Inv.count_pos h (u := t) ?_
    rw [refsOf_update]
    exact List.mem_append_left _ hmem
  refine h.quiet (q := q) rfl rfl hcpu (h.cacheOk.congr rfl rfl rfl rfl)
    (Effect.of_eq rfl rfl rfl rfl rfl rfl) (fun x => ?_) (fun x hx => ?_) ?_ hheads
  · show _ + s.cache.count x ≤ Function.update s.cache.count bh (s.cache.count bh - 1) x + _
    rw [hrefs.count_eq x, List.count_cons]
    by_cases hx : x = bh
    · subst hx
      simp only [beq_self_eq_true, if_true, update_self]
      omega
    · rw [update_of_ne hx, if_neg (by simpa using fun heq => hx heq.symm)]
      omega
  · exact h.alive (.inl (hrefs.mem_iff.2 (List.mem_cons_of_mem bh hx)))
  · cases q <;> exact hok

/-- Heads that nobody has enter the cache, or are made. -/
theorem fresh (h : Ready s t p) {heads : List Nat} (hfresh : FreshUnused s heads) {c : Cache}
    {q : Pc}
    (hcache : CacheOk c) (heff : Effect s.cache c (· ∈ heads))
    (hcount : ∀ x, x ∉ heads → c.count x = s.cache.count x) (hrefs : q.refs.Perm p.refs)
    (hok : PcOk c q) (hheads : q.heads.Nodup ∧ ∀ x ∈ q.heads, x ∉ c.ring)
    (hapart : ∀ u, u ≠ t → ∀ x ∈ q.heads, x ∉ (s.pc u).heads) :
    Inv { s with cache := c, pc := Function.update s.pc t q, cpu := some t } := by
  have hin : ∀ x ∈ q.refs ++ (s.own t).map Ref.bh, x ∈ s.cache.ring := by
    intro x hx
    refine h.alive ((List.mem_append.1 hx).imp_left fun hx => hrefs.mem_iff.1 hx)
  have hoff : ∀ x ∈ q.refs ++ (s.own t).map Ref.bh, x ∉ heads :=
    fun x hx hmem => (hfresh.2 x hmem).2.1 (hin x hx)
  refine h.next (q := q) (o := s.own t) rfl (update_eq_self _ _).symm (.inl rfl) hcache heff
    (fun x hx => .inl (hfresh.2 x hx).2.1) (fun x hx _ u _ => (hfresh.2 x hx).2.2 u)
    (fun x hx => ?_) (fun x hx => ?_) (fun x hx => ?_) (fun r hr => ?_) hok hheads hapart
  · show _ ≤ c.count x + _
    rw [hcount x hx, List.count_append, List.count_append, hrefs.count_eq x]
    omega
  · rw [List.count_eq_zero.2 fun hmem => hoff x hmem hx]
    exact Nat.zero_le _
  · exact (heff.ring x (hoff x hx)).2 (hin x hx)
  · refine heff.right (hoff r.bh ?_) (Inv.own h t r hr)
    exact List.mem_append_right _ (List.mem_map_of_mem hr)

/-- **`grow_buffers`.** -/
theorem grow (h : Ready s t p) (size page : Nat) {heads : Option (List Nat)}
    (hfresh : ∀ l, heads = some l → FreshUnused s l) {q : Pc} (hrefs : q.refs.Perm p.refs)
    (hok : ∀ c, PcOk c q) (hheads : q.heads = []) :
    Inv { s with
      cache := s.cache.growBuffers size page heads
      pc := Function.update s.pc t q
      cpu := some t } := by
  have hcache : CacheOk (s.cache.growBuffers size page heads) := by
    refine h.cacheOk.growBuffers size page fun l hl => ?_
    exact ⟨(hfresh l hl).1, fun x hx => ((hfresh l hl).2 x hx).2.1⟩
  have hgrown : FreshUnused s (grown size page heads) := by
    rcases growBuffers_eq (c := s.cache) size page heads with ⟨-, hnil⟩ | ⟨l, hl, -, hgl, -⟩
    · rw [hnil]
      exact ⟨List.nodup_nil, by simp⟩
    · rw [hgl]
      exact hfresh l hl
  refine h.fresh hgrown hcache (growBuffers_effect size page) (fun x hx => ?_) hrefs (hok _) ?_ ?_
  · rcases growBuffers_eq (c := s.cache) size page heads with ⟨heq, -⟩ | ⟨l, -, -, hgl, heq⟩
    · rw [heq]
    · rw [heq]
      rw [hgl] at hx
      show (if x ∈ l then 0 else s.cache.count x) = _
      exact if_neg hx
  · rw [hheads]
    exact ⟨List.nodup_nil, by simp⟩
  · rw [hheads]
    simp

end Ready

end Steps

end LinuxEvocation.Fs.Buffer
