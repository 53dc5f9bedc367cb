import LinuxEvocation.Fs.Msdos.Chains

/-!
# What each step does to the chains

One lemma for each place where a call may have slept.  Calls for the same file do not overlap here;
calls for different files may, at every sleep.

* `Keeps` — the invariant is kept, and nothing is lost if nothing was.
* `Apart`, `keeps_step` — the condition on the steps, and all of them.
-/

namespace LinuxEvocation.Msdos

open Function (update update_eq_self update_of_ne update_self)
open LinkedList

/-- The invariant is kept, and nothing is lost. -/
def Keeps (s : State) (own : Owner → List Addr) (s' : State) : Prop :=
  ∃ own', Inv s' own' ∧ (Full s own → Full s' own')

/-! ## What the chains say about the table -/

section Table

variable {s : State} {own : Owner → List Addr} {o : Owner} {d nr : Nat}

theorem addr_of_ne {nr : Nat} (h : nr ≠ 0) (d : Nat) : addr d nr = (d, nr) := if_neg h

@[simp]
theorem addr_zero (d : Nat) : addr d 0 = nowhere := if_pos rfl

theorem pair_ne_nowhere {nr : Nat} (h : nr ≠ 0) (d : Nat) : (d, nr) ≠ nowhere := fun heq =>
  h (Prod.ext_iff.1 heq).2

/-- A cluster whose entry is not 0 is one. -/
theorem inRange_of_taken (h : s.taken (d, nr)) : (s.vol d).fat.inRange nr := Fat.inRange_of_access h

theorem ne_zero_of_inRange {v : Fat} (h : v.inRange nr) : nr ≠ 0 := by
  have hlo := h.1
  omega

theorem ne_zero_of_taken (h : s.taken (d, nr)) : nr ≠ 0 := ne_zero_of_inRange (inRange_of_taken h)

/-- The three answers of `fat_access` for a cluster on a list. -/
theorem access_cases (h : s.taken (d, nr)) :
    ((s.vol d).fat.access nr = none ∧ s.next (d, nr) = nowhere) ∨
      ∃ m, m ≠ 0 ∧ (s.vol d).fat.access nr = some m ∧ s.next (d, nr) = (d, m) := by
  unfold State.taken at h
  unfold State.next
  cases hacc : (s.vol d).fat.access nr with
  | none => exact .inl ⟨rfl, rfl⟩
  | some m =>
    have hm : m ≠ 0 := by
      rintro rfl
      exact h hacc
    exact .inr ⟨m, hm, rfl, by simp [addr_of_ne hm]⟩

/-- **The chain of a file is what the walk sees.** -/
theorem walk_eq (h : Chains s own) (f n : Nat) :
    ((own (.inl f))[n]? = none ∧ s.walk f n = 0) ∨
      ∃ nr, nr ≠ 0 ∧ (own (.inl f))[n]? = some ((s.file f).dev, nr) ∧ s.walk f n = nr := by
  have hthreads := h.family.threads (.inl f)
  induction n with
  | zero =>
    have hzero : (own (.inl f))[0]?.getD nowhere = addr (s.file f).dev (s.file f).start :=
      hthreads.getElem?_zero
    by_cases hstart : (s.file f).start = 0
    · rw [hstart, addr_zero] at hzero
      exact .inl ⟨hthreads.getElem?_none hzero, hstart⟩
    · rw [addr_of_ne hstart] at hzero
      exact .inr ⟨_, hstart, Threads.getElem?_some hzero (pair_ne_nowhere hstart _), rfl⟩
  | succ n ih =>
    rcases ih with ⟨hnone, hwalk⟩ | ⟨nr, hnr, hsome, hwalk⟩
    · refine .inl ⟨?_, ?_⟩
      · rw [List.getElem?_eq_none_iff] at hnone ⊢
        omega
      · rw [State.walk, hwalk]
        rfl
    · have hsucc := hthreads.getElem?_succ hsome
      have htaken := h.taken _ _ (List.mem_of_getElem? hsome)
      have hstep : s.walk f (n + 1) = ((s.vol (s.file f).dev).fat.access nr).getD 0 := by
        rw [State.walk, hwalk]
        cases nr with
        | zero => exact absurd rfl hnr
        | succ nr => rfl
      rcases access_cases htaken with ⟨hacc, hnext⟩ | ⟨m, hm, hacc, hnext⟩
      · rw [hacc] at hstep
        exact .inl ⟨hthreads.getElem?_none (hsucc.trans hnext), hstep⟩
      · rw [hacc] at hstep
        exact .inr ⟨m, hm, Threads.getElem?_some (hsucc.trans hnext) (pair_ne_nowhere hm _), hstep⟩

theorem walk_eq_getElem? (h : Chains s own) (f n : Nat) :
    s.walk f n = ((own (.inl f))[n]?.map Prod.snd).getD 0 := by
  rcases walk_eq h f n with ⟨hnone, hwalk⟩ | ⟨nr, -, hsome, hwalk⟩
  · rw [hnone, hwalk]
    rfl
  · rw [hsome, hwalk]
    rfl

/-- The first cluster of a file that has one. -/
theorem first_cluster (h : Chains s own) {f : Nat} (hstart : (s.file f).start ≠ 0) :
    (own (.inl f))[0]? = some ((s.file f).dev, (s.file f).start) := by
  rcases walk_eq h f 0 with ⟨-, hwalk⟩ | ⟨nr, -, hsome, hwalk⟩
  · exact absurd hwalk hstart
  · rw [hsome, ← hwalk]
    rfl

theorem own_nil (h : Chains s own) (hhead : s.head o = nowhere) : own o = [] :=
  (h.family.eq_on (l := []) hhead).symm

/-- The list of a file that has no cluster. -/
theorem own_file_nil (h : Chains s own) {f : Nat} (hstart : (s.file f).start = 0) :
    own (.inl f) = [] := own_nil h (by simp only [State.head, hstart, addr_zero])

end Table

/-! ## Steps that leave the table as it is -/

section Same

variable {s : State} {own : Owner → List Addr} {t f : Nat} {v : Volume} {cache : List CacheEntry}
  {q₀ q : Phase}

theorem Inv.alone (h : Inv s own) {c : Call} (hc : s.call t = some c) :
    ∀ u c', u ≠ t → s.call u = some c' → c'.file ≠ c.file :=
  fun u c' hu hc' hfile => hu (h.apart u t c' c hc' hc hfile)

theorem in_no_call {P : Call → Prop} (hc : s.call t = none) : ∀ c, s.call t = some c → P c := by
  intro c hc'
  rw [hc] at hc'
  cases hc'

theorem in_call {P : Call → Prop} {c₀ : Call} (hc : s.call t = some c₀) (hP : P c₀) :
    ∀ c, s.call t = some c → P c := by
  intro c hc'
  rw [hc] at hc'
  cases hc'
  exact hP

/-- A task that is in no call for which it needs the lock does not have it. -/
theorem Inv.lock_not_mine_of (h : Inv s own) (hc : ∀ c, s.call t = some c → c.phase.locked = false) :
    ¬ (s.volOf f).lock = some t := by
  intro hmine
  obtain ⟨c, hc', hlocked, -⟩ := (h.lock _ t).1 hmine
  rw [hc c hc'] at hlocked
  cases hlocked

theorem head_task {c : Call} (hc : s.call t = some c) :
    s.head (.inr t) = addr (s.file c.file).dev c.phase.holds := by
  simp only [State.head, hc]

/-- What a call knows depends on the table, and on `prev_free` while it searches. -/
theorem local_after {start : Nat} {p : Option Phase} (h : Local s own t ⟨f, q⟩)
    (hfat : v.fat = (s.volOf f).fat)
    (hprev : ∀ count, q = .addScan count → v.prevFree = (s.volOf f).prevFree) :
    Local (s.after t f v start cache p) own t ⟨f, q⟩ := by
  cases q with
  | addScan count =>
    have hcand : ∀ i, (s.after t f v start cache p).candidate f i = s.candidate f i := by
      intro i
      simp only [State.candidate, State.volOf, after_dev, after_vol_self, hprev count rfl, hfat]
    refine ⟨?_, fun i hi => ?_⟩
    · rw [after_dev, after_vol_self, hfat]
      exact h.1
    · rw [after_dev, after_taken hfat, hcand]
      exact h.2 i hi
  | addMark nr =>
    refine ⟨?_, ?_⟩
    · rw [after_dev, after_vol_self, hfat]
      exact h.1
    · rw [after_dev, after_taken hfat]
      exact h.2
  | _ => simpa only [Local, after_dev] using h

/-- The call is not one that needs the lock. -/
theorem unlocked_iff (hlock : ¬ v.lock = some t) (hq : q.locked = false) :
    v.lock = some t ↔ q.locked = true :=
  iff_of_false hlock (by simp [hq])

/-- A step that leaves the table, the file and what the call holds as they are. -/
theorem keeps_same (h : Inv s own) (halone : ∀ u c, u ≠ t → s.call u = some c → c.file ≠ f)
    (hcall : ∀ c, s.call t = some c → c.file = f) (hfat : v.fat = (s.volOf f).fat)
    (hv : (s.volOf f).Unseen v t) (hlock : v.lock = some t ↔ q.locked = true)
    (hholds : addr (s.file f).dev q.holds = s.head (.inr t)) (hlocal : Local s own t ⟨f, q⟩)
    (hprev : ∀ count, q = .addScan count → v.prevFree = (s.volOf f).prevFree)
    (hother : ∀ e ∈ cache, ∀ g ≠ f, e.isFor (s.file g) = true → e ∈ s.cache)
    (hcache : ∀ e ∈ cache, e.isFor (s.file f) = true → q.afterCut = false →
      (own (.inl f))[e.fileCluster]? = some ((s.file f).dev, e.diskCluster))
    (hcount : Full s own → v.freeClusters = -1 ∨ v.freeClusters = v.fat.zeros +
      (s.after t f v (s.file f).start cache (some q)).behind (s.file f).dev) :
    Keeps s own (s.after t f v (s.file f).start cache (some q)) := by
  refine ⟨own, ?_, fun hfull => ?_⟩
  · refine inv_after h halone (chains_after h.chains hfat rfl hholds) (fun _ _ _ => rfl) hv ?_ hcall
      ?_ hother fun e he hfor hcut => hcache e he hfor (hcut q rfl)
    · rw [hlock]
      constructor
      · exact fun hq => ⟨q, rfl, hq⟩
      · rintro ⟨q', hq', hlocked⟩
        rwa [Option.some.inj hq']
    · rintro q' hq'
      rw [← Option.some.inj hq']
      exact local_after hlocal hfat hprev
  · refine full_after h hfull hcall (fun a ha => ?_) (hcount hfull)
    exact hfull.covers a ((after_taken hfat a).1 ha)

/-- The entries of the cache are those that were there. -/
theorem Inv.cache_of_call (h : Inv s own) (halone : ∀ u c, u ≠ t → s.call u = some c → c.file ≠ f)
    (hcut : ∀ c, s.call t = some c → c.phase.afterCut = false) :
    ∀ e ∈ s.cache, e.isFor (s.file f) = true →
      (own (.inl f))[e.fileCluster]? = some ((s.file f).dev, e.diskCluster) := by
  refine fun e he hfor => h.cache e he f hfor ?_
  rintro ⟨u, c, hc, hfile, hafter⟩
  by_cases hu : u = t
  · subst hu
    rw [hcut c hc] at hafter
    cases hafter
  · exact halone u c hu hc hfile

theorem keeps_goto (h : Inv s own) (hc : s.call t = some ⟨f, q₀⟩) (hholds : q.holds = q₀.holds)
    (hlocked : q.locked = q₀.locked) (huncounted : q.uncounted = q₀.uncounted)
    (hcut : q₀.afterCut = false) (hlocal : Local s own t ⟨f, q⟩) : Keeps s own (s.goto t f q) := by
  rw [goto_eq_after]
  have halone := h.alone hc
  have hlock : (s.volOf f).lock = some t ↔ q.locked = true := by
    rw [hlocked]
    refine (h.lock _ t).trans ⟨?_, fun hq => ⟨_, hc, hq, rfl⟩⟩
    rintro ⟨c, hc', hq, -⟩
    rw [hc] at hc'
    cases hc'
    exact hq
  refine keeps_same h halone (in_call hc rfl) rfl (.refl _ t) hlock ?_ hlocal
    (fun _ _ => rfl) (fun e he _ _ _ => he) (fun e he hfor _ => h.cache_of_call halone (in_call hc hcut) e he hfor)
    fun hfull => ?_
  · rw [hholds]
    exact (head_task hc).symm
  · refine (hfull.count (s.file f).dev).imp_right fun hcount => hcount.trans ?_
    congr 1
    by_cases hmine : (s.volOf f).lock = some t
    · rw [behind_after_mine hmine, huncounted, State.behind,
        show (s.vol (s.file f).dev).lock = some t from hmine]
      simp only [hc]
    · exact (behind_after_other rfl hmine).symm

/-- So they are, if the task is in no call. -/
theorem Inv.valid_of_none (h : Inv s own) (hc : s.call t = none)
    (halone : ∀ u c, s.call u = some c → c.file ≠ f) :
    ∀ e ∈ s.cache, e.isFor (s.file f) = true →
      (own (.inl f))[e.fileCluster]? = some ((s.file f).dev, e.diskCluster) :=
  h.cache_of_call (fun u c _ => halone u c) (in_no_call hc)

theorem keeps_begin (h : Inv s own) (hc : s.call t = none)
    (halone : ∀ u c, s.call u = some c → c.file ≠ f) (hholds : q.holds = 0)
    (hlocked : q.locked = false) (hlocal : Local s own t ⟨f, q⟩) : Keeps s own (s.goto t f q) := by
  rw [goto_eq_after]
  have hlock : ¬ (s.volOf f).lock = some t := h.lock_not_mine_of (in_no_call hc)
  refine keeps_same h (fun u c _ => halone u c) (in_no_call hc) rfl (.refl _ t)
    (unlocked_iff hlock hlocked) ?_ hlocal (fun _ _ => rfl) (fun e he _ _ _ => he)
    (fun e he hfor _ => h.valid_of_none hc halone e he hfor) fun hfull => ?_
  · rw [hholds, addr_zero]
    simp only [State.head, hc]
  · refine (hfull.count (s.file f).dev).imp_right fun hcount => hcount.trans ?_
    congr 1
    exact (behind_after_other rfl hlock).symm

end Same

/-! ## The cache -/

section Cache

variable {i : Inode} {d : Nat} {l : List Addr} {es : List CacheEntry}

/-- The entries for the file are right. -/
def Valid (i : Inode) (l : List Addr) (es : List CacheEntry) : Prop :=
  ∀ e ∈ es, e.isFor i = true → l[e.fileCluster]? = some (i.dev, e.diskCluster)

/-- **A look-up in the cache** gives a cluster of the file, not behind the one that is wanted. -/
theorem cacheLookup_spec (hvalid : Valid i l es) {cluster : Option Nat} {p : Nat × Nat}
    (hp : l[p.1]? = some (i.dev, p.2)) (hle : ∀ n, cluster = some n → p.1 ≤ n) :
    l[(cacheLookup i cluster es p).1]? = some (i.dev, (cacheLookup i cluster es p).2) ∧
      ∀ n, cluster = some n → (cacheLookup i cluster es p).1 ≤ n := by
  induction es generalizing p with
  | nil => exact ⟨hp, hle⟩
  | cons e es ih =>
    have hrest : Valid i l es := fun e' he' => hvalid e' (List.mem_cons_of_mem _ he')
    rw [cacheLookup]
    split_ifs with hcond hexact
    · refine ⟨hvalid e List.mem_cons_self hcond.1, fun n hn => ?_⟩
      rw [hn] at hexact
      exact (Option.some.inj hexact).ge
    · exact ih hrest (hvalid e List.mem_cons_self hcond.1) hcond.2.1
    · exact ih hrest hp hle

theorem mem_cacheInvalInode {j : Inode} {e : CacheEntry} (he : e ∈ cacheInvalInode i es)
    (hj : j.dev ≠ 0) (hfor : e.isFor j = true) : e ∈ es ∧ e.isFor i = false := by
  obtain ⟨e', he', heq⟩ := List.mem_map.1 he
  by_cases hi : e'.isFor i = true
  · rw [if_pos hi] at heq
    rw [← heq] at hfor
    simp only [CacheEntry.isFor, Bool.and_eq_true, beq_iff_eq] at hfor
    exact absurd hfor.1.symm hj
  · rw [if_neg hi] at heq
    rw [← heq]
    exact ⟨he', by simpa using hi⟩

theorem cacheFind_eq {fclu : Nat} {l₁ l₂ : List CacheEntry} {e : CacheEntry}
    (h : cacheFind i fclu es = some (l₁, e, l₂)) : es = l₁ ++ e :: l₂ := by
  fun_induction cacheFind i fclu es generalizing l₁ with
  | case1 => cases h
  | case2 => cases h
  | case3 x y es hfound =>
    cases h
    rfl
  | case4 x y es hfound ih =>
    obtain ⟨⟨l₁', x', l₂'⟩, hrest, heq⟩ := Option.map_eq_some_iff.1 h
    simp only [Prod.mk.injEq] at heq
    obtain ⟨rfl, rfl, rfl⟩ := heq
    rw [ih hrest]
    rfl

theorem mem_cacheAdd {fclu dclu : Nat} {e : CacheEntry} (he : e ∈ cacheAdd i fclu dclu es) {j : Inode}
    (hj : j.dev ≠ 0) (hfor : e.isFor j = true) : e ∈ es ∨ e = ⟨i.dev, i.ino, fclu, dclu⟩ := by
  unfold cacheAdd at he
  cases hfind : cacheFind i fclu es with
  | none =>
    rw [hfind] at he
    rcases List.mem_cons.1 he with heq | hmem
    · exact .inr heq
    · exact .inl (List.mem_of_mem_dropLast hmem)
  | some r =>
    obtain ⟨l₁, e', l₂⟩ := r
    rw [hfind] at he
    dsimp only at he
    split_ifs at he with hdisk
    · exact .inl (mem_cacheInvalInode he hj hfor).1
    · left
      rw [cacheFind_eq hfind]
      rcases List.mem_cons.1 he with heq | hmem
      · simp [heq]
      · rcases List.mem_append.1 hmem with hmem | hmem
        · simp [hmem]
        · simp [hmem]

theorem Valid.cacheAdd (h : Valid i l es) (hi : i.dev ≠ 0) {fclu dclu : Nat}
    (hnew : l[fclu]? = some (i.dev, dclu)) : Valid i l (cacheAdd i fclu dclu es) := by
  intro e he hfor
  rcases mem_cacheAdd he hi hfor with hmem | rfl
  · exact h e hmem hfor
  · exact hnew

end Cache

/-! ## `get_cluster` -/

section Get

variable {s : State} {own : Owner → List Addr} {t f cluster : Nat}

theorem Inv.isFor_of_ne (h : Inv s own) {e : CacheEntry} {g : Nat}
    (hg : g ≠ f) (hfor : e.isFor (s.file g) = true) : e.isFor (s.file f) = false := by
  by_contra hf
  simp only [CacheEntry.isFor, Bool.and_eq_true, beq_iff_eq] at hfor hf
  have hf : e.device = (s.file f).dev ∧ e.ino = (s.file f).ino := by simpa using hf
  exact hg (h.keys g f (hfor.1.symm.trans hf.1) (hfor.2.symm.trans hf.2))

theorem Inv.mem_cacheAdd_other (h : Inv s own) {fclu dclu : Nat} {e : CacheEntry}
    (he : e ∈ cacheAdd (s.file f) fclu dclu s.cache) {g : Nat} (hg : g ≠ f)
    (hfor : e.isFor (s.file g) = true) : e ∈ s.cache := by
  refine (mem_cacheAdd he (h.devs g) hfor).resolve_right fun heq => ?_
  have hne := h.isFor_of_ne hg hfor
  rw [heq] at hne
  simp [CacheEntry.isFor] at hne

/-- The loop goes on, or ends with what it has found. -/
theorem keeps_getLoop (h : Inv s own) (halone : ∀ u c, u ≠ t → s.call u = some c → c.file ≠ f)
    (hc : s.call t = none ∨ ∃ n m, s.call t = some ⟨f, .getWalk cluster n m⟩) {count nr : Nat}
    (hcount : count ≤ cluster) (hnr : (own (.inl f))[count]? = some ((s.file f).dev, nr)) :
    Keeps s own (s.getLoop t f cluster count nr) := by
  have hcall : ∀ c, s.call t = some c → c.file = f ∧ c.phase.afterCut = false ∧
      c.phase.locked = false ∧ c.phase.holds = 0 := by
    rcases hc with hc | ⟨n, m, hc⟩
    · exact in_no_call hc
    · exact in_call hc ⟨rfl, rfl, rfl, rfl⟩
  have hlock : ¬ (s.volOf f).lock = some t := h.lock_not_mine_of fun c hc' => (hcall c hc').2.2.1
  have hhead : s.head (.inr t) = nowhere := by
    rcases hc with hc | ⟨n, m, hc⟩
    · simp only [State.head, hc]
    · rw [head_task hc]
      exact addr_zero _
  have hvalid : Valid (s.file f) (own (.inl f)) s.cache :=
    h.cache_of_call halone fun c hc' => (hcall c hc').2.1
  have hbehind : ∀ (cache : List CacheEntry) (q : Phase), Full s own →
      (s.volOf f).freeClusters = -1 ∨ (s.volOf f).freeClusters = (s.volOf f).fat.zeros +
        (s.after t f (s.volOf f) (s.file f).start cache (some q)).behind (s.file f).dev := by
    intro cache q hfull
    rw [behind_after_other rfl hlock]
    exact hfull.count (s.file f).dev
  unfold State.getLoop
  split_ifs with hlt
  · rw [goto_eq_after]
    exact keeps_same h halone (fun c hc' => (hcall c hc').1) rfl (.refl _ t)
      (unlocked_iff hlock rfl) (hhead.symm ▸ addr_zero _) ⟨hlt, hnr⟩ (fun _ hq => by cases hq) (fun e he _ _ _ => he)
      (fun e he hfor _ => hvalid e he hfor) (hbehind _ _)
  · have heq : count = cluster := by omega
    subst heq
    have hafter : ({ s with cache := cacheAdd (s.file f) count nr s.cache } : State).goto t f
        (.got count nr) = s.after t f (s.volOf f) (s.file f).start
          (cacheAdd (s.file f) count nr s.cache) (some (.got count nr)) := by
      simp [State.goto, State.after, State.setCall, State.volOf]
    rw [hafter]
    refine keeps_same h halone (fun c hc' => (hcall c hc').1) rfl (.refl _ t)
      (unlocked_iff hlock rfl) (hhead.symm ▸ addr_zero _) ?_ (fun _ hq => by cases hq)
      (fun e he g hg hfor => h.mem_cacheAdd_other he hg hfor)
      (fun e he hfor _ => hvalid.cacheAdd (h.devs f) hnr e he hfor) (hbehind _ _)
    change nr = ((own (.inl f))[count]?.map Prod.snd).getD 0
    rw [hnr]
    rfl

theorem keeps_getBegin (h : Inv s own) (hc : s.call t = none)
    (halone : ∀ u c, s.call u = some c → c.file ≠ f) : Keeps s own (s.getBegin t f cluster) := by
  unfold State.getBegin
  split_ifs with hstart hzero
  · refine keeps_begin h hc halone rfl rfl ?_
    change 0 = ((own (.inl f))[cluster]?.map Prod.snd).getD 0
    rw [own_file_nil h.chains hstart]
    rfl
  · refine keeps_begin h hc halone rfl rfl ?_
    change (s.file f).start = ((own (.inl f))[cluster]?.map Prod.snd).getD 0
    rw [hzero]
    exact walk_eq_getElem? h.chains f 0
  · have hfirst := first_cluster h.chains hstart
    have hle : ∀ n, some cluster = some n → (0, (s.file f).start).1 ≤ n := fun n _ => Nat.zero_le n
    obtain ⟨hfound, hle⟩ := cacheLookup_spec (p := (0, (s.file f).start))
      (h.valid_of_none hc halone) hfirst hle
    exact keeps_getLoop h (fun u c _ => halone u c) (.inl hc) (hle cluster rfl) hfound

theorem keeps_getWalk {count nr : Nat} {s' : State} (h : Inv s own)
    (hc : s.call t = some ⟨f, .getWalk cluster count nr⟩)
    (hs' : resume s t f (.getWalk cluster count nr) = some s') : Keeps s own s' := by
  obtain ⟨hlt, hnr⟩ : count < cluster ∧ (own (.inl f))[count]? = some ((s.file f).dev, nr) :=
    h.knows t _ hc
  have htaken := h.chains.taken _ _ (List.mem_of_getElem? hnr)
  have hthreads := h.chains.family.threads (.inl f)
  have hsucc := hthreads.getElem?_succ hnr
  rw [resume, State.access, State.volOf] at hs'
  rcases access_cases htaken with ⟨hacc, hnext⟩ | ⟨m, hm, hacc, hnext⟩
  · rw [hacc] at hs'
    cases hs'
    refine keeps_goto h hc rfl rfl rfl rfl ?_
    change 0 = ((own (.inl f))[cluster]?.map Prod.snd).getD 0
    have hend := hthreads.getElem?_none (hsucc.trans hnext)
    have hnone : (own (.inl f))[cluster]? = none := by
      rw [List.getElem?_eq_none_iff] at hend ⊢
      omega
    rw [hnone]
    rfl
  · rw [hacc] at hs'
    obtain ⟨m, rfl⟩ := Nat.exists_eq_succ_of_ne_zero hm
    cases hs'
    refine keeps_getLoop h (h.alone hc) (.inr ⟨count, nr, hc⟩) (by omega) ?_
    exact Threads.getElem?_some (hsucc.trans hnext) (pair_ne_nowhere m.succ_ne_zero _)

end Get

/-! ## `msdos_add_cluster` -/

section Store

variable {s : State} {t f : Nat} {v : Volume} {start nr value : Nat} {cache : List CacheEntry}
  {p : Option Phase}

/-- A change of the file system, and of the call. -/
theorem setVolOf_goto (v : Volume) (q : Phase) :
    (s.setVolOf f v).goto t f q = s.after t f v (s.file f).start s.cache (some q) := by
  simp [State.goto, State.after, State.setCall, State.setVolOf, State.setVol]

@[simp]
theorem setVolOf_volOf (v : Volume) : (s.setVolOf f v).volOf f = v := by
  simp [State.volOf, State.setVolOf, State.setVol]

@[simp]
theorem setVolOf_setVolOf (v v' : Volume) :
    (s.setVolOf f v).setVolOf f v' = s.setVolOf f v' := by
  simp [State.setVolOf, State.setVol]

theorem after_head :
    (s.after t f v start cache p).head =
      update (update s.head (.inl f) (addr (s.file f).dev start)) (.inr t)
        (addr (s.file f).dev ((p.map Phase.holds).getD 0)) := by
  funext o
  cases o with
  | inl g =>
    rw [update_of_ne (by simp)]
    by_cases hg : g = f
    · rw [hg, update_self, after_head_file_self]
    · rw [update_of_ne (by simpa using hg), after_head_file hg]
  | inr u =>
    by_cases hu : u = t
    · rw [hu, update_self, after_head_task_self]
    · rw [update_of_ne (by simpa using hu), update_of_ne (by simp),
        after_head_task hu]

theorem after_head_same :
    (s.after t f v (s.file f).start cache p).head =
      update s.head (.inr t) (addr (s.file f).dev ((p.map Phase.holds).getD 0)) := by
  have hhead : addr (s.file f).dev (s.file f).start = s.head (.inl f) := rfl
  rw [after_head, hhead, update_eq_self]

theorem after_next_store (hv : v.fat = (s.volOf f).fat.store nr value)
    (hvalue : value < (s.volOf f).fat.bound) :
    (s.after t f v start cache p).next =
      update s.next ((s.file f).dev, nr) (addr (s.file f).dev ((v.fat.access nr).getD 0)) := by
  funext a
  by_cases ha : a = ((s.file f).dev, nr)
  · rw [ha, update_self, State.next, after_vol_self]
  · rw [update_of_ne ha, State.next, after_next hv hvalue ha]
    rfl

theorem after_taken_store (hv : v.fat = (s.volOf f).fat.store nr value)
    (hvalue : value < (s.volOf f).fat.bound) {a : Addr} (ha : a ≠ ((s.file f).dev, nr)) :
    (s.after t f v start cache p).taken a ↔ s.taken a := by
  unfold State.taken
  rw [after_next hv hvalue ha]

theorem after_taken_store_self :
    (s.after t f v start cache p).taken ((s.file f).dev, nr) ↔ v.fat.access nr ≠ some 0 := by
  unfold State.taken
  rw [after_vol_self]

/-- A store that does not make a cluster free, or take it. -/
theorem zero_iff_store {v : Fat} {nr value : Nat} (hvalue : value < v.bound)
    (hself : (v.store nr value).access nr = some 0 ↔ v.access nr = some 0) (m : Nat) :
    (v.store nr value).access m = some 0 ↔ v.access m = some 0 := by
  by_cases hm : m = nr
  · rw [hm]
    exact hself
  · rw [Fat.access_store_of_ne v hm hvalue]

end Store

section Add

variable {s : State} {own : Owner → List Addr} {t f : Nat}

/-- The task has the lock of the file system. -/
theorem Inv.lock_mine (h : Inv s own) {q : Phase} (hc : s.call t = some ⟨f, q⟩)
    (hq : q.locked = true) : (s.volOf f).lock = some t := (h.lock _ t).2 ⟨_, hc, hq, rfl⟩

theorem Inv.lock_not_mine (h : Inv s own) {q : Phase} (hc : s.call t = some ⟨f, q⟩)
    (hq : q.locked = false) : ¬ (s.volOf f).lock = some t :=
  h.lock_not_mine_of (in_call hc hq)

/-- How far the count is behind, for a task with the lock. -/
theorem behind_mine {q : Phase} (hc : s.call t = some ⟨f, q⟩) (hlock : (s.volOf f).lock = some t) :
    s.behind (s.file f).dev = q.uncounted := by
  unfold State.behind
  rw [show (s.vol (s.file f).dev).lock = some t from hlock]
  simp only [hc]

/-- The cache is right for a file that has not been cut. -/
theorem Inv.valid (h : Inv s own) {q : Phase} (hc : s.call t = some ⟨f, q⟩)
    (hcut : q.afterCut = false) : Valid (s.file f) (own (.inl f)) s.cache :=
  h.cache_of_call (h.alone hc) (in_call hc hcut)

theorem keeps_addBegin (h : Inv s own) (hc : s.call t = none)
    (halone : ∀ u c, s.call u = some c → c.file ≠ f) : Keeps s own (s.addBegin t f) := by
  unfold State.addBegin
  split_ifs <;> exact keeps_begin h hc halone rfl rfl trivial

theorem keeps_lock {q₀ q : Phase} (h : Inv s own) (hc : s.call t = some ⟨f, q₀⟩)
    (hfree : (s.volOf f).lock = none) (hq₀ : q₀.uncounted = 0) (hq : q.uncounted = 0)
    (hlocked : q.locked = true) (hholds : q.holds = q₀.holds) (hcut : q.afterCut = q₀.afterCut)
    (hlocal : Local s own t ⟨f, q⟩) :
    Keeps s own ((s.setLock f (some t)).goto t f q) := by
  rw [State.setLock, setVolOf_goto]
  refine keeps_same h (h.alone hc) (in_call hc rfl) rfl ⟨fun u hu => ?_, fun u hu hlock => ?_⟩
    ⟨fun _ => hlocked, fun _ => rfl⟩ ?_ hlocal (fun _ _ => rfl) (fun e he _ _ _ => he)
    (fun e he hfor hq' => ?_) fun hfull => ?_
  · rw [hfree]
    exact ⟨fun heq => absurd (Option.some.inj heq).symm hu, fun heq => (by cases heq)⟩
  · rw [hfree] at hlock
    cases hlock
  · rw [hholds]
    exact (head_task hc).symm
  · exact h.valid hc (hcut ▸ hq') e he hfor
  · rw [behind_after_mine rfl, hq]
    refine (hfull.count (s.file f).dev).imp_right fun hcount => hcount.trans ?_
    unfold State.behind
    rw [show (s.vol (s.file f).dev).lock = none from hfree]
    rfl

theorem inRange_candidate (s : State) (f count : Nat) :
    (s.volOf f).fat.inRange (s.candidate f count) := by
  have hlt := Nat.mod_lt (count + (s.volOf f).prevFree) (s.volOf f).fat.pos
  unfold State.candidate Fat.inRange
  omega

/-- The search has looked at every cluster. -/
theorem zeros_eq_zero (h : ∀ i < (s.volOf f).fat.clusters,
    s.taken ((s.file f).dev, s.candidate f i)) : (s.volOf f).fat.zeros = 0 := by
  unfold Fat.zeros
  rw [Finset.card_eq_zero, Finset.filter_eq_empty_iff]
  intro j hj hzero
  rw [Finset.mem_range] at hj
  set n := (s.volOf f).fat.clusters with hn
  have hpos : 0 < n := (s.volOf f).fat.pos
  set prev := (s.volOf f).prevFree
  have hprev := Nat.mod_lt prev hpos
  have hlt : (j + (n - prev % n)) % n < n := Nat.mod_lt _ hpos
  refine h _ hlt ?_
  have hcand : s.candidate f ((j + (n - prev % n)) % n) = j + 2 := by
    unfold State.candidate
    change ((j + (n - prev % n)) % n + prev) % n + 2 = j + 2
    have hmod : ((j + (n - prev % n)) % n + prev) % n = j % n := by
      rw [Nat.mod_add_mod]
      have hsplit : j + (n - prev % n) + prev = j + n * (prev / n + 1) := by
        have hdiv := Nat.mod_add_div prev n
        rw [Nat.mul_add, Nat.mul_one]
        omega
      rw [hsplit, Nat.add_mul_mod_self_left]
    rw [hmod, Nat.mod_eq_of_lt hj]
  rw [hcand]
  exact hzero

theorem own_task_nil (h : Inv s own) {q : Phase} (hc : s.call t = some ⟨f, q⟩) (hq : q.holds = 0) :
    own (.inr t) = [] :=
  own_nil h.chains (by rw [head_task hc, hq, addr_zero])

theorem keeps_addScan {count : Nat} (h : Inv s own) (hc : s.call t = some ⟨f, .addScan count⟩) :
    Keeps s own (s.addScan t f count) := by
  have hmine := h.lock_mine hc rfl
  obtain ⟨hlt, hseen⟩ : count < (s.volOf f).fat.clusters ∧
      ∀ i < count, s.taken ((s.file f).dev, s.candidate f i) := h.knows t _ hc
  have hhead : s.head (.inr t) = nowhere := (head_task hc).trans (addr_zero _)
  have hvalid := h.valid hc rfl
  unfold State.addScan
  dsimp only
  split_ifs with hfree hmore
  · rw [State.setPrevFree, setVolOf_goto]
    set v : Volume := { (s.volOf f) with
      prevFree := (count + (s.volOf f).prevFree + 1) % (s.volOf f).fat.clusters }
    have hfat : v.fat = (s.volOf f).fat := rfl
    refine keeps_same h (h.alone hc) (in_call hc rfl) hfat (.of_lock hmine (.inl hmine))
      ⟨fun _ => rfl, fun _ => hmine⟩ (hhead.symm ▸ addr_zero _)
      ⟨inRange_candidate s f count, fun htaken => htaken hfree⟩ nofun (fun e he _ _ _ => he)
      (fun e he hfor _ => hvalid e he hfor) fun hfull => ?_
    · have hmine : v.lock = some t := hmine
      rw [behind_after_mine hmine]
      refine (hfull.count (s.file f).dev).imp_right fun hcount => hcount.trans ?_
      rw [behind_mine hc hmine]
      rfl
  · refine keeps_goto h hc rfl rfl rfl rfl ⟨hmore, fun i hi => ?_⟩
    rcases Nat.lt_succ_iff_lt_or_eq.1 hi with hlt | rfl
    · exact hseen i hlt
    · exact hfree
  · -- no cluster is free
    have hall : (s.volOf f).fat.zeros = 0 := by
      refine zeros_eq_zero fun i hi => ?_
      by_cases hic : i < count
      · exact hseen i hic
      · have heq : i = count := by omega
        rw [heq]
        exact hfree
    rw [State.setPrevFree, State.setFree, setVolOf_volOf, setVolOf_setVolOf, State.setLock,
      setVolOf_volOf, setVolOf_setVolOf, setVolOf_goto]
    refine keeps_same h (h.alone hc) (in_call hc rfl) rfl (.of_lock hmine (.inr rfl))
      (unlocked_iff nofun rfl) (hhead.symm ▸ addr_zero _) trivial nofun
      (fun e he _ _ _ => he) (fun e he hfor _ => hvalid e he hfor) fun _ => ?_
    rw [behind_after_none rfl]
    right
    change (0 : Int) = ((s.volOf f).fat.zeros : Int) + 0
    rw [hall]
    rfl

/-- The task with the lock takes a cluster, or frees one that it holds. -/
theorem keeps_held {q₀ q : Phase} {nr value : Nat} {l : List Addr} (h : Inv s own)
    (hc : s.call t = some ⟨f, q₀⟩) (hq₀ : q₀.locked = true) (hq : q.locked = true)
    (hcut : q.afterCut = q₀.afterCut) (hvalue : value < (s.volOf f).fat.bound)
    (hfamily : Family nowhere (update s.next ((s.file f).dev, nr)
        (addr (s.file f).dev ((((s.volOf f).fat.store nr value).access nr).getD 0)))
      (update s.head (.inr t) (addr (s.file f).dev q.holds)) (update own (.inr t) l))
    (hself : ((s.file f).dev, nr) ∈ l ↔ ((s.volOf f).fat.store nr value).access nr ≠ some 0)
    (hmem : ∀ a, a ≠ ((s.file f).dev, nr) → (a ∈ l ↔ a ∈ own (.inr t)))
    (hfresh : ∀ o, o ≠ .inr t → ((s.file f).dev, nr) ∉ own o)
    (hlocal : ∀ s' : State, (s'.file f).dev = (s.file f).dev →
      Local s' (update own (.inr t) l) t ⟨f, q⟩)
    (hzeros : ((s.volOf f).fat.zeros : Int) + q₀.uncounted =
      ((s.volOf f).fat.store nr value).zeros + q.uncounted) :
    Keeps s own ((s.store f nr value).goto t f q) := by
  have hmine := h.lock_mine hc hq₀
  rw [State.store, setVolOf_goto]
  set v : Volume := { (s.volOf f) with fat := (s.volOf f).fat.store nr value } with hv
  have hother : ∀ o, o ≠ .inr t → update own (.inr t) l o = own o := fun o ho =>
    update_of_ne ho _ _
  have hiff : ∀ o a, a ≠ ((s.file f).dev, nr) → (a ∈ update own (.inr t) l o ↔ a ∈ own o) := by
    intro o a ha
    by_cases ho : o = .inr t
    · rw [ho, update_self]
      exact hmem a ha
    · rw [hother o ho]
  refine ⟨update own (.inr t) l, inv_after h (h.alone hc) ⟨?_, fun o a ha => ?_⟩
    (fun o _ ho => hother o ho) (.of_lock hmine (.inl hmine)) ⟨fun _ => ⟨_, rfl, hq⟩, fun _ => hmine⟩
    (in_call hc rfl) ?_ (fun e he _ _ _ => he) (fun e he hfor hq' => ?_),
    fun hfull => full_after h hfull (in_call hc rfl) (fun a ha => ?_) ?_⟩
  · rwa [after_next_store (v := v) rfl hvalue, after_head_same]
  · by_cases heq : a = ((s.file f).dev, nr)
    · subst heq
      rw [after_taken_store_self]
      refine hself.1 ?_
      by_cases ho : o = .inr t
      · rwa [ho, update_self] at ha
      · rw [hother o ho] at ha
        exact absurd ha (hfresh o ho)
    · rw [after_taken_store rfl hvalue heq]
      exact h.chains.taken o a ((hiff o a heq).1 ha)
  · rintro q' hq'
    rw [← Option.some.inj hq']
    exact hlocal _ (after_dev f)
  · rw [hother _ (by simp)]
    exact h.valid hc (hcut ▸ hq' q rfl) e he hfor
  · by_cases heq : a = ((s.file f).dev, nr)
    · refine ⟨.inr t, ?_⟩
      rw [update_self, heq]
      exact hself.2 (after_taken_store_self.1 (heq ▸ ha))
    · obtain ⟨o, ho⟩ := hfull.covers a ((after_taken_store rfl hvalue heq).1 ha)
      exact ⟨o, (hiff o a heq).2 ho⟩
  · rw [behind_after_mine (v := v) hmine]
    refine (hfull.count (s.file f).dev).imp_right fun hcount => hcount.trans ?_
    rw [behind_mine hc hmine]
    exact hzeros

theorem keeps_addMark {nr : Nat} (h : Inv s own) (hc : s.call t = some ⟨f, .addMark nr⟩) :
    Keeps s own ((s.store f nr (s.volOf f).fat.eofMark).goto t f (.addCount nr)) := by
  obtain ⟨hrange, hfree⟩ : (s.volOf f).fat.inRange nr ∧ ¬ s.taken ((s.file f).dev, nr) :=
    h.knows t _ hc
  have hzero : (s.volOf f).fat.access nr = some 0 := by
    by_contra hne
    exact hfree hne
  have hnr := ne_zero_of_inRange hrange
  have hmark := Fat.access_store_eofMark (s.volOf f).fat hrange
  have hbound := (s.volOf f).fat.eofMark_lt_bound
  have hfresh : ∀ o, ((s.file f).dev, nr) ∉ own o := fun o ho => hfree (h.chains.taken o _ ho)
  refine keeps_held (l := [((s.file f).dev, nr)]) h hc rfl rfl rfl hbound ?_ ?_ (fun a ha => ?_)
    (fun o _ => hfresh o) (fun s' hdev => ?_) ?_
  · change Family _ _ (update _ _ (addr _ nr)) _
    rw [hmark, Option.getD_none, addr_zero, addr_of_ne hnr]
    exact h.chains.family.alloc hfresh (pair_ne_nowhere hnr _)
  · simp [hmark]
  · rw [own_task_nil h hc rfl]
    simpa using ha
  · change update own (.inr t) _ (.inr t) = [((s'.file f).dev, nr)]
    rw [update_self, hdev]
  · have hsucc : (s.volOf f).fat.zeros =
        ((s.volOf f).fat.store nr (s.volOf f).fat.eofMark).zeros + 1 := by
      refine zeros_succ (Fat.store_clusters ..).symm ((Fat.inRange_store ..).2 hrange) ?_ hzero
        fun m hm => (Fat.access_store_of_ne _ hm hbound).symm
      simp [hmark]
    change ((s.volOf f).fat.zeros : Int) + 0 = _ + 1
    rw [hsucc]
    push_cast
    ring

end Add

section Link

variable {s : State} {own : Owner → List Addr} {t f : Nat} {v : Volume} {start : Nat} {q : Phase}

/-- The lists of a file and of a task have changed. -/
def shift (own : Owner → List Addr) (f t : Nat) (l m : List Addr) : Owner → List Addr :=
  update (update own (.inl f) l) (.inr t) m

theorem shift_of_ne {l m : List Addr} {o : Owner} (hf : o ≠ .inl f) (ht : o ≠ .inr t) :
    shift own f t l m o = own o := by
  rw [shift, update_of_ne ht, update_of_ne hf]

@[simp]
theorem shift_file {l m : List Addr} : shift own f t l m (.inl f) = l := by
  rw [shift, update_of_ne (by simp), update_self]

@[simp]
theorem shift_task {l m : List Addr} : shift own f t l m (.inr t) = m := by
  rw [shift, update_self]

/-- Clusters go from the file to the task, or from the task to the file; none is taken or freed. -/
theorem keeps_shift (l m : List Addr) (h : Inv s own) (halone : ∀ u c, u ≠ t → s.call u = some c → c.file ≠ f)
    (hcall : ∀ c, s.call t = some c → c.file = f)
    (hzero : ∀ nr, v.fat.access nr = some 0 ↔ (s.volOf f).fat.access nr = some 0)
    (hfamily : Family nowhere (s.after t f v start s.cache (some q)).next
      (s.after t f v start s.cache (some q)).head (shift own f t l m))
    (hmem : ∀ a, (a ∈ own (.inl f) ∨ a ∈ own (.inr t)) ↔ (a ∈ l ∨ a ∈ m))
    (hv : (s.volOf f).Unseen v t) (hlock : v.lock = some t ↔ q.locked = true)
    (hlocal : Local (s.after t f v start s.cache (some q)) (shift own f t l m) t ⟨f, q⟩)
    (hcache : ∀ e ∈ s.cache, e.isFor (s.file f) = true → q.afterCut = false →
      l[e.fileCluster]? = some ((s.file f).dev, e.diskCluster))
    (hcount : Full s own → v.freeClusters = -1 ∨ v.freeClusters = v.fat.zeros +
      (s.after t f v start s.cache (some q)).behind (s.file f).dev) :
    Keeps s own (s.after t f v start s.cache (some q)) := by
  have htaken : ∀ a, (s.after t f v start s.cache (some q)).taken a ↔ s.taken a := by
    intro a
    unfold State.taken
    by_cases hd : a.1 = (s.file f).dev
    · rw [hd, after_vol_self]
      exact not_congr (hzero a.2)
    · rw [after_vol_of_ne hd]
  have hcases : ∀ {on on' : Owner → List Addr},
      (∀ o, o ≠ .inl f → o ≠ .inr t → on' o = on o) →
      (∀ a, (a ∈ on' (.inl f) ∨ a ∈ on' (.inr t)) → (a ∈ on (.inl f) ∨ a ∈ on (.inr t))) →
      ∀ a o, a ∈ on' o → ∃ o', a ∈ on o' := by
    intro on on' hsame hback a o ha
    by_cases hof : o = .inl f
    · rcases hback a (.inl (hof ▸ ha)) with ha | ha
      · exact ⟨_, ha⟩
      · exact ⟨_, ha⟩
    · by_cases hot : o = .inr t
      · rcases hback a (.inr (hot ▸ ha)) with ha | ha
        · exact ⟨_, ha⟩
        · exact ⟨_, ha⟩
      · exact ⟨o, hsame o hof hot ▸ ha⟩
  refine ⟨shift own f t l m, inv_after h halone ⟨hfamily, fun o a ha => ?_⟩
    (fun o => shift_of_ne) hv ?_ hcall ?_ (fun e he _ _ _ => he)
    (fun e he hfor hcut => ?_), fun hfull => full_after h hfull hcall (fun a ha => ?_) (hcount hfull)⟩
  · have hback : ∀ a, (a ∈ shift own f t l m (.inl f) ∨ a ∈ shift own f t l m (.inr t)) →
        (a ∈ own (.inl f) ∨ a ∈ own (.inr t)) := by
      intro a
      rw [shift_file, shift_task]
      exact (hmem a).2
    obtain ⟨o', ho'⟩ := hcases (fun o => shift_of_ne) hback a o ha
    exact (htaken a).2 (h.chains.taken o' a ho')
  · rw [hlock]
    constructor
    · exact fun hq => ⟨q, rfl, hq⟩
    · rintro ⟨q', hq', hlocked⟩
      rwa [Option.some.inj hq']
  · rintro q' hq'
    rw [← Option.some.inj hq']
    exact hlocal
  · rw [shift_file]
    exact hcache e he hfor (hcut q rfl)
  · obtain ⟨o, ho⟩ := hfull.covers a ((htaken a).1 ha)
    refine hcases (fun o hof hot => (shift_of_ne hof hot).symm) (fun a => ?_) a o ho
    rw [shift_file, shift_task]
    exact (hmem a).1

theorem addFree_eq (n : Int) : s.addFree f n = s.setVolOf f { (s.volOf f) with
    freeClusters := if (s.volOf f).freeClusters = -1 then -1
      else (s.volOf f).freeClusters + n } := by
  unfold State.addFree
  split_ifs with hfree
  · rw [← hfree]
    simp [State.setVolOf, State.setVol, State.volOf]
  · rfl

theorem setVolOf_setStart_goto (v : Volume) (nr : Nat) (q : Phase) :
    ((s.setVolOf f v).setStart f nr).goto t f q = s.after t f v nr s.cache (some q) := by
  simp [State.goto, State.after, State.setCall, State.setVolOf, State.setVol, State.setStart]

theorem count_done (hc : s.call t = some ⟨f, q⟩) (hmine : (s.volOf f).lock = some t)
    (hfull : Full s own) {k : Int} (hk : q.uncounted + k = 0) {n : Int}
    (hn : n = if (s.volOf f).freeClusters = -1 then -1 else (s.volOf f).freeClusters + k) :
    n = -1 ∨ n = ((s.volOf f).fat.zeros : Int) + 0 := by
  have hbefore := hfull.count (s.file f).dev
  rw [behind_mine hc hmine] at hbefore
  rw [hn]
  split_ifs with hunknown
  · exact .inl rfl
  · right
    rw [show (s.volOf f).freeClusters = _ from hbefore.resolve_left hunknown, add_assoc, hk]
    rfl

/-- The new cluster is counted, and the lock given back. -/
theorem keeps_addCount {nr : Nat} (h : Inv s own) (hc : s.call t = some ⟨f, .addCount nr⟩) :
    Keeps s own (((s.addFree f (-1)).setLock f none).addFind t f nr) := by
  have hmine := h.lock_mine hc rfl
  have hnew : own (.inr t) = [((s.file f).dev, nr)] := h.knows t _ hc
  have hvalid := h.valid hc rfl
  set v : Volume := { (s.volOf f) with
    freeClusters := if (s.volOf f).freeClusters = -1 then -1 else (s.volOf f).freeClusters + -1
    lock := none } with hv
  have hstate : (s.addFree f (-1)).setLock f none = s.setVolOf f v := by
    rw [addFree_eq, State.setLock, setVolOf_volOf, setVolOf_setVolOf]
  have hunseen : (s.volOf f).Unseen v t := .of_lock hmine (.inr rfl)
  have hcount : ∀ (start : Nat) (q : Phase), Full s own →
      v.freeClusters = -1 ∨ v.freeClusters = v.fat.zeros +
        (s.after t f v start s.cache (some q)).behind (s.file f).dev := by
    intro start q hfull
    rw [behind_after_none rfl]
    exact count_done hc hmine hfull (k := -1) rfl rfl
  have hcall : ∀ c, s.call t = some c → c.file = f := in_call hc rfl
  rw [hstate, State.addFind]
  have hstart : ((s.setVolOf f v).file f).start = (s.file f).start := rfl
  have hcache : (s.setVolOf f v).cache = s.cache := rfl
  rw [hstart, hcache]
  split_ifs with hzero
  · -- the file was empty
    rw [State.addTail, if_pos rfl, setVolOf_setStart_goto]
    have hnil := own_file_nil h.chains hzero
    have hgive := h.chains.family.give (q := .inl f) (r := .inr t) (by simp)
    rw [head_task hc] at hgive
    refine keeps_shift (own (.inr t)) [] h (h.alone hc) hcall (fun _ => Iff.rfl) ?_
      (fun a => ?_) hunseen (unlocked_iff nofun rfl) trivial (fun e he hfor _ => ?_) (hcount _ _)
    · rw [after_next_eq (v := v) rfl, after_head]
      exact hgive
    · rw [hnil]
      exact or_comm
    · have hentry := hvalid e he hfor
      rw [hnil] at hentry
      cases hentry
  · -- a cluster of the file, from the cache or the first
    have hfirst := first_cluster h.chains hzero
    have hle : ∀ n, none = some n → (0, (s.file f).start).1 ≤ n := fun n _ => Nat.zero_le n
    obtain ⟨hfound, -⟩ := cacheLookup_spec (p := (0, (s.file f).start)) hvalid hfirst hle
    have hmem := List.mem_of_getElem? hfound
    have hne := ne_zero_of_taken (h.chains.taken _ _ hmem)
    change Keeps s own (if (cacheLookup (s.file f) none s.cache (0, (s.file f).start)).2 = 0 then _
      else _)
    rw [if_neg hne, setVolOf_goto]
    exact keeps_same h (h.alone hc) hcall rfl hunseen (unlocked_iff nofun rfl) (head_task hc).symm
      ⟨hnew, hmem⟩ nofun (fun e he _ _ _ => he) (fun e he hfor _ => hvalid e he hfor) (hcount _ _)

/-- One link of the way to the last cluster. -/
theorem keeps_addWalk {nr current : Nat} (h : Inv s own)
    (hc : s.call t = some ⟨f, .addWalk nr current⟩) : Keeps s own (s.addWalk t f nr current) := by
  obtain ⟨hnew, hmem⟩ : own (.inr t) = [((s.file f).dev, nr)] ∧
      ((s.file f).dev, current) ∈ own (.inl f) := h.knows t _ hc
  have htaken := h.chains.taken _ _ hmem
  have hplace := (h.chains.family.threads (.inl f)).eq_append_of_mem hmem
  unfold State.addWalk State.access State.volOf
  rcases access_cases htaken with ⟨hacc, hnext⟩ | ⟨m, hm, hacc, hnext⟩
  · rw [hacc]
    dsimp only
    rw [State.addTail, if_neg (ne_zero_of_taken htaken)]
    refine keeps_goto h hc rfl rfl rfl rfl ⟨hnew, ?_⟩
    rcases hplace with ⟨-, hlast⟩ | ⟨hne, -⟩
    · exact hlast
    · exact absurd hnext hne
  · rw [hacc]
    obtain ⟨m, rfl⟩ := Nat.exists_eq_succ_of_ne_zero hm
    refine keeps_goto h hc rfl rfl rfl rfl ⟨hnew, ?_⟩
    rcases hplace with ⟨hend, -⟩ | ⟨-, l₁, l₂, hl⟩
    · rw [hnext] at hend
      exact absurd (congrArg Prod.snd hend) hm
    · change ((s.file f).dev, m + 1) ∈ own (.inl f)
      rw [hl, hnext]
      simp

theorem keeps_addLink {nr last : Nat} (h : Inv s own)
    (hc : s.call t = some ⟨f, .addLink nr last⟩) :
    Keeps s own ((s.store f last nr).goto t f (.ret 0)) := by
  obtain ⟨hnew, l, hl⟩ : own (.inr t) = [((s.file f).dev, nr)] ∧
      ∃ l, own (.inl f) = l ++ [((s.file f).dev, last)] := h.knows t _ hc
  have htakenNew := h.chains.taken (.inr t) ((s.file f).dev, nr) (by simp [hnew])
  have htakenLast := h.chains.taken (.inl f) ((s.file f).dev, last) (by simp [hl])
  have hrange : (s.volOf f).fat.inRange nr := inRange_of_taken htakenNew
  have hrangeLast : (s.volOf f).fat.inRange last := inRange_of_taken htakenLast
  have hbound : nr < (s.volOf f).fat.bound := lt_trans hrange.lt_eof (s.volOf f).fat.eof_lt_bound
  have hnr := ne_zero_of_inRange hrange
  have hlink := Fat.access_store_link (s.volOf f).fat hrangeLast hrange
  have hnotMine := h.lock_not_mine hc rfl
  rw [State.store, setVolOf_goto]
  set v : Volume := { (s.volOf f) with fat := (s.volOf f).fat.store last nr }
  have hzero : ∀ m, v.fat.access m = some 0 ↔ (s.volOf f).fat.access m = some 0 := by
    refine zero_iff_store hbound ?_
    rw [hlink]
    exact ⟨fun h0 => absurd (Option.some.inj h0) hnr, fun h0 => absurd h0 htakenLast⟩
  have hclusters : v.fat.clusters = (s.volOf f).fat.clusters := Fat.store_clusters ..
  refine keeps_shift (l ++ [((s.file f).dev, last)] ++ [((s.file f).dev, nr)]) [] h (h.alone hc)
    (in_call hc rfl) hzero ?_ (fun a => ?_) ⟨fun _ _ => Iff.rfl, fun _ _ _ => ⟨rfl, hclusters, hzero⟩⟩
    (unlocked_iff hnotMine rfl) trivial (fun e he hfor _ => ?_) fun hfull => ?_
  · rw [after_next_store (v := v) rfl hbound, after_head_same, show v.fat.access last = some nr
      from hlink, Option.getD_some, addr_of_ne hnr]
    exact h.chains.family.link (by simp) hl hnew
  · rw [hl, hnew]
    simp [or_assoc]
  · rw [← hl]
    have hentry := h.valid hc rfl e he hfor
    rw [List.getElem?_append_left]
    · exact hentry
    · exact (List.getElem?_eq_some_iff.1 hentry).1
  · rw [behind_after_other (v := v) rfl hnotMine, zeros_congr hclusters hzero]
    exact hfull.count (s.file f).dev

end Link

/-! ## `fat_free` -/

section Free

variable {s : State} {own : Owner → List Addr} {t f : Nat}

theorem keeps_freeBegin {skip : Nat} (h : Inv s own) (hc : s.call t = none)
    (halone : ∀ u c, s.call u = some c → c.file ≠ f) : Keeps s own (s.freeBegin t f skip) := by
  unfold State.freeBegin
  split_ifs with hstart hskip
  · exact keeps_begin h hc halone rfl rfl trivial
  · -- the whole file is cut off
    have hafter : (s.setStart f 0).goto t f (.freeLock (s.file f).start) =
        s.after t f (s.volOf f) 0 s.cache (some (.freeLock (s.file f).start)) := by
      simp [State.goto, State.after, State.setCall, State.setStart, State.volOf]
    rw [hafter]
    have hnotMine : ¬ (s.volOf f).lock = some t := h.lock_not_mine_of (in_no_call hc)
    have hgive := h.chains.family.give (q := .inr t) (r := .inl f) (by simp)
    refine keeps_shift [] (own (.inl f)) h (fun u c _ => halone u c) (in_no_call hc)
      (fun _ => Iff.rfl) ?_
      (fun a => ?_) (.refl _ t) (unlocked_iff hnotMine rfl) hstart
      (fun e he hfor hcut => (by cases hcut)) fun hfull => ?_
    · have hne : (Sum.inl f : Owner) ≠ .inr t := by simp
      rw [after_next_eq rfl, after_head, shift, addr_zero, Function.update_comm hne _ _ s.head,
        Function.update_comm hne _ _ own]
      exact hgive
    · rw [own_nil h.chains (o := .inr t) (by simp only [State.head, hc])]
      exact or_comm
    · rw [behind_after_other rfl hnotMine]
      exact hfull.count (s.file f).dev
  · exact keeps_begin h hc halone rfl rfl
      ⟨Nat.pos_of_ne_zero hskip, List.mem_of_getElem? (first_cluster h.chains hstart)⟩

theorem keeps_freeSkip {skip nr : Nat} (h : Inv s own)
    (hc : s.call t = some ⟨f, .freeSkip skip nr⟩) : Keeps s own (s.freeSkip t f skip nr) := by
  obtain ⟨hskip, hmem⟩ : 0 < skip ∧ ((s.file f).dev, nr) ∈ own (.inl f) := h.knows t _ hc
  have htaken := h.chains.taken _ _ hmem
  have hplace := (h.chains.family.threads (.inl f)).eq_append_of_mem hmem
  unfold State.freeSkip State.access State.volOf
  rcases access_cases htaken with ⟨hacc, hnext⟩ | ⟨m, hm, hacc, hnext⟩
  · rw [hacc]
    exact keeps_goto h hc rfl rfl rfl rfl trivial
  · rw [hacc]
    obtain ⟨l₁, l₂, hl⟩ : ∃ l₁ l₂, own (.inl f) = l₁ ++ ((s.file f).dev, nr) ::
        ((s.file f).dev, m) :: l₂ := by
      rcases hplace with ⟨hend, -⟩ | ⟨-, hl⟩
      · rw [hnext] at hend
        exact absurd (congrArg Prod.snd hend) hm
      · rwa [hnext] at hl
    obtain ⟨m, rfl⟩ := Nat.exists_eq_succ_of_ne_zero hm
    split_ifs with hone
    · exact keeps_goto h hc rfl rfl rfl rfl ⟨l₁, l₂, hl⟩
    · refine keeps_goto h hc rfl rfl rfl rfl ⟨by omega, ?_⟩
      change ((s.file f).dev, m + 1) ∈ own (.inl f)
      rw [hl]
      simp

theorem keeps_freeCut {nr last : Nat} (h : Inv s own) (hc : s.call t = some ⟨f, .freeCut nr last⟩) :
    Keeps s own ((s.store f last (s.volOf f).fat.eofMark).goto t f (.freeLock nr)) := by
  obtain ⟨l₁, l₂, hl⟩ : ∃ l₁ l₂, own (.inl f) = l₁ ++ ((s.file f).dev, last) ::
      ((s.file f).dev, nr) :: l₂ := h.knows t _ hc
  have htakenLast := h.chains.taken (.inl f) ((s.file f).dev, last) (by simp [hl])
  have htaken := h.chains.taken (.inl f) ((s.file f).dev, nr) (by simp [hl])
  have hnr := ne_zero_of_taken htaken
  have hrange : (s.volOf f).fat.inRange last := inRange_of_taken htakenLast
  have hbound := (s.volOf f).fat.eofMark_lt_bound
  have hmark := Fat.access_store_eofMark (s.volOf f).fat hrange
  have hnotMine := h.lock_not_mine hc rfl
  have hnext : s.next ((s.file f).dev, last) = ((s.file f).dev, nr) := by
    have hthreads := h.chains.family.threads (.inl f)
    rw [hl] at hthreads
    exact hthreads.of_append.1
  rw [State.store, setVolOf_goto]
  set v : Volume := { (s.volOf f) with
    fat := (s.volOf f).fat.store last (s.volOf f).fat.eofMark }
  have hzero : ∀ m, v.fat.access m = some 0 ↔ (s.volOf f).fat.access m = some 0 := by
    refine zero_iff_store hbound ?_
    rw [hmark]
    exact ⟨fun h0 => (by cases h0), fun h0 => absurd h0 htakenLast⟩
  have hclusters : v.fat.clusters = (s.volOf f).fat.clusters := Fat.store_clusters ..
  refine keeps_shift (l₁ ++ [((s.file f).dev, last)]) (((s.file f).dev, nr) :: l₂) h (h.alone hc)
    (in_call hc rfl) hzero ?_ (fun a => ?_) ⟨fun _ _ => Iff.rfl, fun _ _ _ => ⟨rfl, hclusters, hzero⟩⟩
    (unlocked_iff hnotMine rfl) hnr
    (fun e he hfor hcut => (by cases hcut)) fun hfull => ?_
  · have hholds : addr (s.file f).dev ((Option.map Phase.holds (some (.freeLock nr))).getD 0) =
        ((s.file f).dev, nr) := addr_of_ne hnr _
    rw [after_next_store (v := v) rfl hbound, after_head_same, show v.fat.access last = none
      from hmark, Option.getD_none, addr_zero, hholds]
    have hcut := h.chains.family.cut (r := .inr t) hl
    rwa [hnext] at hcut
  · rw [hl, own_task_nil h hc rfl]
    simp [or_assoc]
  · rw [behind_after_other (v := v) rfl hnotMine, zeros_congr hclusters hzero]
    exact hfull.count (s.file f).dev

theorem keeps_freeZero {nr : Nat} (h : Inv s own) (hc : s.call t = some ⟨f, .freeZero nr⟩) :
    Keeps s own (s.freeZero t f nr) := by
  have hnr : nr ≠ 0 := h.knows t _ hc
  have hthreads := h.chains.family.threads (.inr t)
  rw [head_task hc] at hthreads
  change Threads nowhere s.next (addr (s.file f).dev nr) _ at hthreads
  rw [addr_of_ne hnr] at hthreads
  obtain ⟨l, hl, htail⟩ := hthreads.exists_cons (pair_ne_nowhere hnr _)
  have htaken := h.chains.taken (.inr t) ((s.file f).dev, nr) (by simp [hl])
  have hrange : (s.volOf f).fat.inRange nr := inRange_of_taken htaken
  have hbound : 0 < (s.volOf f).fat.bound :=
    lt_of_le_of_lt (Nat.zero_le _) (s.volOf f).fat.eof_lt_bound
  -- `next` is what `fat_access` returns
  obtain ⟨next, hacc, hnz, hnext⟩ : ∃ next, (s.volOf f).fat.access nr = next ∧ next ≠ some 0 ∧
      s.next ((s.file f).dev, nr) = addr (s.file f).dev (next.getD 0) := by
    rcases access_cases htaken with ⟨hacc, hnext⟩ | ⟨m, hm, hacc, hnext⟩
    · exact ⟨none, hacc, by simp, by rw [hnext, Option.getD_none, addr_zero]⟩
    · refine ⟨some m, hacc, by simpa using hm, ?_⟩
      rw [hnext, Option.getD_some, addr_of_ne hm]
  have hstep : s.freeZero t f nr = (s.store f nr 0).goto t f (.freeCount next) := by
    rw [State.freeZero, State.access, hacc]
    split
    · rename_i heq
      exact absurd rfl hnz
    · rfl
  have hfree : ((s.volOf f).fat.store nr 0).access nr = some 0 := Fat.access_store_zero _ hrange
  have hnodup := h.chains.family.nodup (.inr t)
  rw [hl, List.nodup_cons] at hnodup
  rw [hstep]
  refine keeps_held (l := l) h hc rfl rfl rfl hbound ?_ ?_ (fun a ha => ?_) (fun o ho hmem => ?_)
    (fun _ _ => hnz) ?_
  · have hdrop := h.chains.family.dropFirst hl
      (addr (s.file f).dev ((((s.volOf f).fat.store nr 0).access nr).getD 0))
    rwa [hnext] at hdrop
  · exact iff_of_false hnodup.1 (not_not.2 hfree)
  · rw [hl, List.mem_cons, or_iff_right ha]
  · exact ho (h.chains.family.disjoint hmem (by rw [hl]; simp))
  · have hsucc : ((s.volOf f).fat.store nr 0).zeros = (s.volOf f).fat.zeros + 1 :=
      zeros_succ (Fat.store_clusters ..) hrange htaken hfree
        fun m hm => Fat.access_store_of_ne _ hm hbound
    change ((s.volOf f).fat.zeros : Int) + 0 = _ + -1
    rw [hsucc]
    push_cast
    ring

/-- The cluster is counted; at the end, the cache forgets the file, and the lock is given back. -/
theorem keeps_freeCount {next : Option Nat} (h : Inv s own)
    (hc : s.call t = some ⟨f, .freeCount next⟩) : Keeps s own (s.freeCount t f next) := by
  have hmine := h.lock_mine hc rfl
  have hnz : next ≠ some 0 := h.knows t _ hc
  cases next with
  | some nr =>
    rw [State.freeCount, addFree_eq, setVolOf_goto]
    set v : Volume := { (s.volOf f) with
      freeClusters := if (s.volOf f).freeClusters = -1 then -1
        else (s.volOf f).freeClusters + 1 }
    refine keeps_same h (h.alone hc) (in_call hc rfl) (v := v) rfl (.of_lock hmine (.inl hmine))
      ⟨fun _ => rfl, fun _ => hmine⟩ (head_task hc).symm ?_ (fun _ hq => by cases hq)
      (fun e he _ _ _ => he) (fun e he hfor hcut => (by cases hcut)) fun hfull => ?_
    · exact fun hzero => hnz (by rw [hzero])
    · rw [behind_after_mine (v := v) hmine]
      exact count_done hc hmine hfull (k := 1) rfl rfl
  | none =>
    set v : Volume := { (s.volOf f) with
      freeClusters := if (s.volOf f).freeClusters = -1 then -1
        else (s.volOf f).freeClusters + 1
      lock := none } with hv
    have hafter : s.freeCount t f none = s.after t f v (s.file f).start
        (cacheInvalInode (s.file f) s.cache) (some (.ret 0)) := by
      rw [State.freeCount, State.freeEnd, addFree_eq]
      simp [State.goto, State.after, State.setCall, State.setLock, State.setVolOf, State.setVol,
        State.volOf, hv]
    rw [hafter]
    refine keeps_same h (h.alone hc) (in_call hc rfl) (v := v) rfl (.of_lock hmine (.inr rfl))
      (unlocked_iff (Option.some_ne_none t).symm rfl) (head_task hc).symm trivial
      (fun _ hq => by cases hq) (fun e he g hg hfor => (mem_cacheInvalInode he (h.devs g) hfor).1)
      (fun e he hfor _ => ?_) fun hfull => ?_
    · have hnot := (mem_cacheInvalInode he (h.devs f) hfor).2
      rw [hfor] at hnot
      cases hnot
    · rw [behind_after_none rfl]
      exact count_done hc hmine hfull (k := 1) rfl rfl

end Free

/-! ## All steps -/

section All

variable {s s' : State} {own : Owner → List Addr}

/-- **The condition on a step**: a call begins only while no other call for the file is under way. -/
def Apart (s : State) : Event → Prop
  | .call _ f _ => ∀ u c, s.call u = some c → c.file ≠ f
  | _ => True

theorem keeps_leave {t f : Nat} {q : Phase} (h : Inv s own) (hc : s.call t = some ⟨f, q⟩)
    (hholds : q.holds = 0) (hlocked : q.locked = false) (hcut : q.afterCut = false) :
    Keeps s own (s.setCall t none) := by
  have hafter : s.setCall t none = s.after t f (s.volOf f) (s.file f).start s.cache none := by
    simp [State.after, State.setCall, State.volOf]
  have hnotMine := h.lock_not_mine hc hlocked
  rw [hafter]
  refine ⟨own, inv_after h (h.alone hc) (chains_after h.chains rfl rfl ?_) (fun _ _ _ => rfl)
    (.refl _ t) ⟨fun hl => absurd hl hnotMine, ?_⟩ (in_call hc rfl) (fun q' hq' => (by cases hq'))
    (fun e he _ _ _ => he) (fun e he hfor _ => h.valid hc hcut e he hfor),
    fun hfull => full_after h hfull (in_call hc rfl) (fun a ha => hfull.covers a ?_) ?_⟩
  · rw [head_task hc]
    change addr _ 0 = addr _ q.holds
    rw [hholds]
  · rintro ⟨q', hq', -⟩
    cases hq'
  · exact (after_taken rfl a).1 ha
  · rw [behind_after_other rfl hnotMine]
    exact hfull.count (s.file f).dev

/-- **Every step keeps the chains**, if calls for the same file do not overlap. -/
theorem keeps_step {e : Event} (h : Inv s own) (hapart : Apart s e) (hstep : step s e = some s') :
    Keeps s own s' := by
  cases e with
  | call t f op =>
    simp only [step] at hstep
    split_ifs at hstep with hc
    cases op with
    | get cluster =>
      cases hstep
      exact keeps_getBegin h hc hapart
    | add =>
      cases hstep
      exact keeps_addBegin h hc hapart
    | free skip =>
      cases hstep
      exact keeps_freeBegin h hc hapart
  | run t =>
    simp only [step] at hstep
    cases hc : s.call t with
    | none =>
      rw [hc] at hstep
      cases hstep
    | some c =>
      rw [hc] at hstep
      obtain ⟨f, q⟩ := c
      dsimp only at hstep
      cases q with
      | getWalk cluster count nr => exact keeps_getWalk h hc hstep
      | addLock =>
        rw [resume] at hstep
        split_ifs at hstep with hfree
        cases hstep
        exact keeps_lock h hc hfree rfl rfl rfl rfl rfl
          ⟨(s.volOf f).fat.pos, fun i hi => absurd hi (by omega)⟩
      | addScan count =>
        cases hstep
        exact keeps_addScan h hc
      | addMark nr =>
        cases hstep
        exact keeps_addMark h hc
      | addCount nr =>
        cases hstep
        exact keeps_addCount h hc
      | addWalk nr current =>
        cases hstep
        exact keeps_addWalk h hc
      | addLink nr last =>
        cases hstep
        exact keeps_addLink h hc
      | freeSkip skip nr =>
        cases hstep
        exact keeps_freeSkip h hc
      | freeCut nr last =>
        cases hstep
        exact keeps_freeCut h hc
      | freeLock nr =>
        have hnr : nr ≠ 0 := h.knows t _ hc
        rw [resume] at hstep
        split_ifs at hstep with hfree
        cases hstep
        exact keeps_lock h hc hfree rfl rfl rfl rfl rfl hnr
      | freeZero nr =>
        cases hstep
        exact keeps_freeZero h hc
      | freeCount next =>
        cases hstep
        exact keeps_freeCount h hc
      | got cluster nr => cases hstep
      | ret r => cases hstep
  | leave t =>
    simp only [step] at hstep
    split at hstep
    · rename_i hc
      cases hstep
      exact keeps_leave h hc rfl rfl rfl
    · rename_i hc
      cases hstep
      exact keeps_leave h hc rfl rfl rfl
    · cases hstep

end All

end LinuxEvocation.Msdos
