import LinuxEvocation.Fs.Msdos.Cluster
import LinuxEvocation.Lib.LinkedList
import LinuxEvocation.Lib.Transition

/-!
# The chains of clusters

The entries of the FAT thread lists through the clusters: one for each file, and one for each call that
has allocated a cluster, or has cut off a part of a file that is not free yet.

* `Addr`, `State.next`, `State.taken`, `State.head` — the lists: a cluster by device and number, the
  cluster that its entry names, whether the entry is not 0, and where the lists begin.
* `Chains` — no two lists have a cluster in common, and each one ends in an end-of-file mark.
* `Local`, `Inv` — what a call knows at each sleep, and the invariant, with the cache and the lock.
* `Full` — every entry that is not 0 is on a list, and the free clusters are counted.
* `State.after`, `inv_after`, `full_after` — one step of a call, for all of them.
-/

namespace LinuxEvocation.Msdos

open LinkedList

/-! ## Lists in the table -/

/-- A cluster, by device and number. -/
abbrev Addr := Nat × Nat

/-- Whose list it is: a file's, or that of a task. -/
abbrev Owner := Nat ⊕ Nat

/-- The end of the lists. -/
def nowhere : Addr := (0, 0)

/-- The address of a cluster number; 0 is none. -/
def addr (d nr : Nat) : Addr := if nr = 0 then nowhere else (d, nr)

/-- What the call has allocated and not linked, or cut off and not freed. -/
def Phase.holds : Phase → Nat
  | .addCount nr => nr
  | .addWalk nr _ => nr
  | .addLink nr _ => nr
  | .freeLock nr => nr
  | .freeZero nr => nr
  | .freeCount next => next.getD 0
  | _ => 0

/-- The call has the lock. -/
def Phase.locked : Phase → Bool
  | .addScan _ => true
  | .addMark _ => true
  | .addCount _ => true
  | .freeZero _ => true
  | .freeCount _ => true
  | _ => false

/-- The file has been cut, and the cache may not know it. -/
def Phase.afterCut : Phase → Bool
  | .freeLock _ => true
  | .freeZero _ => true
  | .freeCount _ => true
  | _ => false

namespace State

variable (s : State)

/-- The cluster that the entry names. -/
def next (a : Addr) : Addr := addr a.1 (((s.vol a.1).fat.access a.2).getD 0)

/-- The entry is not 0. -/
def taken (a : Addr) : Prop := (s.vol a.1).fat.access a.2 ≠ some 0

/-- Where the lists begin. -/
def head : Owner → Addr
  | .inl f => addr (s.file f).dev (s.file f).start
  | .inr t =>
    match s.call t with
    | none => nowhere
    | some c => addr (s.file c.file).dev c.phase.holds

end State

/-- The lists have no cluster in common, and each of them ends in an end-of-file mark. -/
structure Chains (s : State) (own : Owner → List Addr) : Prop where
  family : Family nowhere s.next s.head own
  taken : ∀ o, ∀ a ∈ own o, s.taken a

/-! ## One step of a call -/

/-- The state after a step of the task `t` in a call for the file `f`: the file system of `f` is now
`v`, the file begins at `start`, the cache has changed, and the call has gone on. -/
def State.after (s : State) (t f : Nat) (v : Volume) (start : Nat) (cache : List CacheEntry)
    (c : Option Phase) : State where
  vol := Function.update s.vol (s.file f).dev v
  file := Function.update s.file f { (s.file f) with start := start }
  cache := cache
  call := Function.update s.call t (c.map fun p => ⟨f, p⟩)

section After

variable {s : State} {t f : Nat} {v : Volume} {start : Nat} {cache : List CacheEntry}
  {p : Option Phase}

@[simp]
theorem after_call_self : (s.after t f v start cache p).call t = p.map fun p => ⟨f, p⟩ := by
  simp [State.after]

theorem after_call_of_ne {u : Nat} (h : u ≠ t) :
    (s.after t f v start cache p).call u = s.call u := by
  simp [State.after, h]

@[simp]
theorem after_dev (g : Nat) : ((s.after t f v start cache p).file g).dev = (s.file g).dev := by
  by_cases hg : g = f
  · subst hg
    simp [State.after]
  · simp [State.after, hg]

@[simp]
theorem after_ino (g : Nat) : ((s.after t f v start cache p).file g).ino = (s.file g).ino := by
  by_cases hg : g = f
  · subst hg
    simp [State.after]
  · simp [State.after, hg]

@[simp]
theorem after_start_self : ((s.after t f v start cache p).file f).start = start := by
  simp [State.after]

theorem after_start_of_ne {g : Nat} (h : g ≠ f) :
    ((s.after t f v start cache p).file g).start = (s.file g).start := by
  simp [State.after, h]

@[simp]
theorem after_vol_self : (s.after t f v start cache p).vol (s.file f).dev = v := by
  simp [State.after]

theorem after_vol_of_ne {d : Nat} (h : d ≠ (s.file f).dev) :
    (s.after t f v start cache p).vol d = s.vol d := by
  simp [State.after, h]

theorem goto_eq_after (t f : Nat) (p : Phase) :
    s.goto t f p = s.after t f (s.volOf f) (s.file f).start s.cache (some p) := by
  simp [State.goto, State.after, State.setCall, State.volOf]

theorem after_head_file_self :
    (s.after t f v start cache p).head (.inl f) = addr (s.file f).dev start := by
  simp [State.head]

theorem after_head_file {g : Nat} (h : g ≠ f) :
    (s.after t f v start cache p).head (.inl g) = s.head (.inl g) := by
  simp [State.head, after_start_of_ne h]

theorem after_head_task_self :
    (s.after t f v start cache p).head (.inr t) =
      addr (s.file f).dev ((p.map Phase.holds).getD 0) := by
  cases p with
  | none => simp [State.head, addr]
  | some p => simp [State.head]

theorem after_head_task {u : Nat} (h : u ≠ t) :
    (s.after t f v start cache p).head (.inr u) = s.head (.inr u) := by
  simp only [State.head, after_call_of_ne h, after_dev]

end After

/-- The stores to the table that a step can make. -/
theorem after_next {s : State} {t f : Nat} {v : Volume} {start : Nat} {cache : List CacheEntry}
    {p : Option Phase} {nr value : Nat} (hv : v.fat = (s.volOf f).fat.store nr value)
    (hvalue : value < (s.volOf f).fat.bound) {a : Addr} (ha : a ≠ ((s.file f).dev, nr)) :
    ((s.after t f v start cache p).vol a.1).fat.access a.2 = (s.vol a.1).fat.access a.2 := by
  by_cases hd : a.1 = (s.file f).dev
  · rw [hd, after_vol_self, hv]
    refine Fat.access_store_of_ne _ (fun heq => ha ?_) hvalue
    rw [← hd, ← heq]
  · rw [after_vol_of_ne hd]

/-! ## The invariant -/

/-- What a call knows at each sleep. -/
def Local (s : State) (own : Owner → List Addr) (t : Nat) (c : Call) : Prop :=
  let d := (s.file c.file).dev
  match c.phase with
  | .getWalk cluster count nr => count < cluster ∧ (own (.inl c.file))[count]? = some (d, nr)
  | .addScan count => count < (s.vol d).fat.clusters ∧
      ∀ i < count, s.taken (d, s.candidate c.file i)
  | .addMark nr => (s.vol d).fat.inRange nr ∧ ¬ s.taken (d, nr)
  | .addCount nr => own (.inr t) = [(d, nr)]
  | .addWalk nr current => own (.inr t) = [(d, nr)] ∧ (d, current) ∈ own (.inl c.file)
  | .addLink nr last => own (.inr t) = [(d, nr)] ∧ ∃ l, own (.inl c.file) = l ++ [(d, last)]
  | .freeSkip skip nr => 0 < skip ∧ (d, nr) ∈ own (.inl c.file)
  | .freeCut nr last => ∃ l₁ l₂, own (.inl c.file) = l₁ ++ (d, last) :: (d, nr) :: l₂
  | .freeLock nr => nr ≠ 0
  | .freeZero nr => nr ≠ 0
  | .freeCount next => next ≠ some 0
  | .got cluster nr => nr = ((own (.inl c.file))[cluster]?.map Prod.snd).getD 0
  | _ => True

/-- A call has cut the file, and is not done. -/
def Cutting (s : State) (f : Nat) : Prop :=
  ∃ t c, s.call t = some c ∧ c.file = f ∧ c.phase.afterCut = true

/-- **The invariant.** -/
structure Inv (s : State) (own : Owner → List Addr) : Prop where
  keys : ∀ f g, (s.file f).dev = (s.file g).dev → (s.file f).ino = (s.file g).ino → f = g
  devs : ∀ f, (s.file f).dev ≠ 0
  chains : Chains s own
  apart : ∀ t u c c', s.call t = some c → s.call u = some c' → c.file = c'.file → t = u
  lock : ∀ d t, (s.vol d).lock = some t ↔
    ∃ c, s.call t = some c ∧ c.phase.locked = true ∧ (s.file c.file).dev = d
  knows : ∀ t c, s.call t = some c → Local s own t c
  cache : ∀ e ∈ s.cache, ∀ f, e.isFor (s.file f) = true → ¬ Cutting s f →
    (own (.inl f))[e.fileCluster]? = some ((s.file f).dev, e.diskCluster)

/-- What a step may do to the file system of the file, as far as other tasks can see it. -/
structure Volume.Unseen (v v' : Volume) (t : Nat) : Prop where
  lock : ∀ u ≠ t, v'.lock = some u ↔ v.lock = some u
  held : ∀ u ≠ t, v.lock = some u → v'.prevFree = v.prevFree ∧
    v'.fat.clusters = v.fat.clusters ∧
      ∀ nr, v'.fat.access nr = some 0 ↔ v.fat.access nr = some 0

theorem Volume.Unseen.refl (v : Volume) (t : Nat) : v.Unseen v t :=
  ⟨fun _ _ => Iff.rfl, fun _ _ _ => ⟨rfl, rfl, fun _ => Iff.rfl⟩⟩

/-- Only the task with the lock changes anything. -/
theorem Volume.Unseen.of_lock {v v' : Volume} {t : Nat} (h : v.lock = some t)
    (h' : v'.lock = some t ∨ v'.lock = none) : v.Unseen v' t := by
  have hother : ∀ u ≠ t, ¬ v.lock = some u := by
    intro u hu hlock
    rw [h] at hlock
    exact hu (Option.some.inj hlock).symm
  refine ⟨fun u hu => ⟨fun hlock => ?_, fun hlock => absurd hlock (hother u hu)⟩,
    fun u hu hlock => absurd hlock (hother u hu)⟩
  rcases h' with h' | h'
  · rw [h'] at hlock
    exact absurd (Option.some.inj hlock).symm hu
  · rw [h'] at hlock
    cases hlock

section Step

variable {s : State} {own own' : Owner → List Addr} {t f : Nat} {v : Volume} {start : Nat}
  {cache : List CacheEntry} {p : Option Phase}

theorem Local.other (h : Inv s own) {u : Nat} {c : Call} (hu : u ≠ t) (hc : s.call u = some c)
    (hf : c.file ≠ f) (hown : ∀ o, o ≠ .inl f → o ≠ .inr t → own' o = own o)
    (hv : (s.volOf f).Unseen v t) : Local (s.after t f v start cache p) own' u c := by
  have hlocal := h.knows u c hc
  have hfile : own' (.inl c.file) = own (.inl c.file) := hown _ (by simpa using hf) (by simp)
  have htask : own' (.inr u) = own (.inr u) := hown _ (by simp) (by simpa using hu)
  -- the other task has the lock of its file system, in the phases where this counts
  have hheld : c.phase.locked = true →
      ((s.after t f v start cache p).vol (s.file c.file).dev).prevFree =
        (s.vol (s.file c.file).dev).prevFree ∧
      ((s.after t f v start cache p).vol (s.file c.file).dev).fat.clusters =
        (s.vol (s.file c.file).dev).fat.clusters ∧
      ∀ nr, ((s.after t f v start cache p).vol (s.file c.file).dev).fat.access nr = some 0 ↔
        (s.vol (s.file c.file).dev).fat.access nr = some 0 := by
    intro hlocked
    by_cases hd : (s.file c.file).dev = (s.file f).dev
    · rw [hd, after_vol_self]
      exact hv.held u hu ((h.lock _ u).2 ⟨c, hc, hlocked, hd⟩)
    · rw [after_vol_of_ne hd]
      exact ⟨rfl, rfl, fun _ => Iff.rfl⟩
  obtain ⟨g, q⟩ := c
  unfold Local at hlocal ⊢
  simp only [after_dev] at hlocal ⊢
  cases q with
  | addScan count =>
    obtain ⟨hprev, hclusters, haccess⟩ := hheld rfl
    refine ⟨by rw [hclusters]; exact hlocal.1, fun i hi => ?_⟩
    have hsame : (s.after t f v start cache p).candidate g i = s.candidate g i := by
      simp only [State.candidate, State.volOf, after_dev]
      rw [hprev, hclusters]
    rw [hsame]
    exact fun hzero => hlocal.2 i hi ((haccess _).1 hzero)
  | addMark nr =>
    obtain ⟨-, hclusters, haccess⟩ := hheld rfl
    refine ⟨?_, fun htaken => hlocal.2 fun hzero => htaken ((haccess nr).2 hzero)⟩
    have hrange := hlocal.1
    unfold Fat.inRange at hrange ⊢
    rw [hclusters]
    exact hrange
  | addLock => trivial
  | freeLock | freeZero | freeCount => exact hlocal
  | ret => trivial
  | _ => simpa only [hfile, htask] using hlocal

/-- **One step keeps the invariant**, if the lists, what the task knows, the lock and the cache are in
order after it. -/
theorem inv_after (h : Inv s own) (halone : ∀ u c, u ≠ t → s.call u = some c → c.file ≠ f)
    (hchains : Chains (s.after t f v start cache p) own')
    (hown : ∀ o, o ≠ .inl f → o ≠ .inr t → own' o = own o)
    (hv : (s.volOf f).Unseen v t)
    (hlock : v.lock = some t ↔ ∃ q, p = some q ∧ q.locked = true)
    (hcall : ∀ c, s.call t = some c → c.file = f)
    (hlocal : ∀ q, p = some q → Local (s.after t f v start cache p) own' t ⟨f, q⟩)
    (hother : ∀ e ∈ cache, ∀ g ≠ f, e.isFor (s.file g) = true → e ∈ s.cache)
    (hcache : ∀ e ∈ cache, e.isFor (s.file f) = true → (∀ q, p = some q → q.afterCut = false) →
      (own' (.inl f))[e.fileCluster]? = some ((s.file f).dev, e.diskCluster)) :
    Inv (s.after t f v start cache p) own' := by
  have hmine : ∀ {c}, (s.after t f v start cache p).call t = some c →
      ∃ q, p = some q ∧ c = ⟨f, q⟩ := by
    intro c hc
    rw [after_call_self] at hc
    obtain ⟨q, hq, heq⟩ := Option.map_eq_some_iff.1 hc
    exact ⟨q, hq, heq.symm⟩
  refine ⟨fun g g' hdev hino => ?_, fun g => ?_, hchains, fun u u' c c' hc hc' hfile => ?_,
    fun d u => ?_, fun u c hc => ?_, fun e he g hfor hcut => ?_⟩
  · rw [after_dev, after_dev] at hdev
    rw [after_ino, after_ino] at hino
    exact h.keys g g' hdev hino
  · rw [after_dev]
    exact h.devs g
  · by_cases hu : u = t <;> by_cases hu' : u' = t
    · exact hu.trans hu'.symm
    · subst hu
      obtain ⟨q, -, rfl⟩ := hmine hc
      rw [after_call_of_ne hu'] at hc'
      exact absurd hfile.symm (halone u' c' hu' hc')
    · subst hu'
      obtain ⟨q, -, rfl⟩ := hmine hc'
      rw [after_call_of_ne hu] at hc
      exact absurd hfile (halone u c hu hc)
    · rw [after_call_of_ne hu] at hc
      rw [after_call_of_ne hu'] at hc'
      exact h.apart u u' c c' hc hc' hfile
  · by_cases hu : u = t
    · subst hu
      rw [after_call_self]
      by_cases hd : d = (s.file f).dev
      · rw [hd, after_vol_self, hlock]
        constructor
        · rintro ⟨q, rfl, hq⟩
          exact ⟨⟨f, q⟩, rfl, hq, after_dev f⟩
        · rintro ⟨c, hc, hq, -⟩
          obtain ⟨q, rfl, rfl⟩ := Option.map_eq_some_iff.1 hc
          exact ⟨q, rfl, hq⟩
      · rw [after_vol_of_ne hd, h.lock]
        constructor
        · rintro ⟨c, hc, -, hdev⟩
          rw [hcall c hc] at hdev
          exact absurd hdev.symm hd
        · rintro ⟨c, hc, -, hdev⟩
          obtain ⟨q, rfl, rfl⟩ := Option.map_eq_some_iff.1 hc
          rw [after_dev] at hdev
          exact absurd hdev.symm hd
    · rw [after_call_of_ne hu]
      simp only [after_dev]
      rw [← h.lock d u]
      by_cases hd : d = (s.file f).dev
      · rw [hd, after_vol_self]
        exact hv.lock u hu
      · rw [after_vol_of_ne hd]
  · by_cases hu : u = t
    · subst hu
      obtain ⟨q, hq, rfl⟩ := hmine hc
      exact hlocal q hq
    · rw [after_call_of_ne hu] at hc
      exact Local.other h hu hc (halone u c hu hc) hown hv
  · have hisFor : ∀ g, e.isFor ((s.after t f v start cache p).file g) = e.isFor (s.file g) := by
      intro g
      simp only [CacheEntry.isFor, after_dev, after_ino]
    rw [hisFor] at hfor
    rw [after_dev]
    by_cases hg : g = f
    · subst hg
      refine hcache e he hfor fun q hq => ?_
      by_contra hafter
      refine hcut ⟨t, ⟨g, q⟩, ?_, rfl, by simpa using hafter⟩
      rw [after_call_self, hq]
      rfl
    · rw [hown _ (by simpa using hg) (by simp)]
      refine h.cache e (hother e he g hg hfor) g hfor ?_
      rintro ⟨u, c, hc, hfile, hafter⟩
      have hu : u ≠ t := by
        rintro rfl
        exact hg (hfile.symm.trans (hcall c hc))
      refine hcut ⟨u, c, ?_, hfile, hafter⟩
      rwa [after_call_of_ne hu]

end Step

/-! ## The free clusters -/

/-- The entries that are 0. -/
def Fat.zeros (v : Fat) : Nat := ((Finset.range v.clusters).filter fun i => v.access (i + 2) = some 0).card

theorem zeros_congr {v v' : Fat} (hclusters : v'.clusters = v.clusters)
    (h : ∀ nr, v'.access nr = some 0 ↔ v.access nr = some 0) : v'.zeros = v.zeros := by
  unfold Fat.zeros
  rw [hclusters]
  simp only [h]

theorem zeros_succ {v v' : Fat} {nr : Nat} (hclusters : v'.clusters = v.clusters)
    (hnr : v.inRange nr) (htaken : v.access nr ≠ some 0) (hfree : v'.access nr = some 0)
    (hother : ∀ m ≠ nr, v'.access m = v.access m) : v'.zeros = v.zeros + 1 := by
  have hset : (Finset.range v'.clusters).filter (fun i => v'.access (i + 2) = some 0) =
      insert (nr - 2) ((Finset.range v.clusters).filter fun i => v.access (i + 2) = some 0) := by
    obtain ⟨hlo, hhi⟩ := hnr
    ext i
    rw [Finset.mem_filter, Finset.mem_insert, Finset.mem_filter, Finset.mem_range, Finset.mem_range,
      hclusters]
    by_cases hi : i = nr - 2
    · have hnr : i + 2 = nr := by omega
      rw [hnr]
      exact ⟨fun _ => .inl hi, fun _ => ⟨by omega, hfree⟩⟩
    · rw [hother (i + 2) (by omega)]
      exact ⟨fun h => .inr h, fun h => h.resolve_left hi⟩
  unfold Fat.zeros
  rw [hset, Finset.card_insert_of_notMem]
  intro hmem
  have hzero := (Finset.mem_filter.1 hmem).2
  obtain ⟨hlo, hhi⟩ := hnr
  rw [show nr - 2 + 2 = nr by omega] at hzero
  exact htaken hzero

/-- How far the count is behind. -/
def Phase.uncounted : Phase → Int
  | .addCount _ => 1
  | .freeCount _ => -1
  | _ => 0

/-- How far the count of a file system is behind: only the task with the lock counts. -/
def State.behind (s : State) (d : Nat) : Int :=
  match (s.vol d).lock with
  | none => 0
  | some t =>
    match s.call t with
    | none => 0
    | some c => c.phase.uncounted

/-- **Nothing is lost**: every entry that is not 0 is on a list, and the free clusters are counted. -/
structure Full (s : State) (own : Owner → List Addr) : Prop where
  covers : ∀ a, s.taken a → ∃ o, a ∈ own o
  count : ∀ d, (s.vol d).freeClusters = -1 ∨
    (s.vol d).freeClusters = (s.vol d).fat.zeros + s.behind d

section Full

variable {s : State} {own own' : Owner → List Addr} {t f : Nat} {v : Volume} {start : Nat}
  {cache : List CacheEntry} {p : Option Phase}

theorem behind_after_of_ne (h : Inv s own) (hcall : ∀ c, s.call t = some c → c.file = f) {d : Nat}
    (hd : d ≠ (s.file f).dev) : (s.after t f v start cache p).behind d = s.behind d := by
  unfold State.behind
  rw [after_vol_of_ne hd]
  cases hlock : (s.vol d).lock with
  | none => rfl
  | some u =>
    have hu : u ≠ t := by
      rintro rfl
      obtain ⟨c, hc, -, hdev⟩ := (h.lock d u).1 hlock
      rw [hcall c hc] at hdev
      exact hd hdev.symm
    simp only [after_call_of_ne hu]

theorem behind_after_mine {q : Phase} (hlock : v.lock = some t) :
    (s.after t f v start cache (some q)).behind (s.file f).dev = q.uncounted := by
  unfold State.behind
  rw [after_vol_self, hlock]
  simp

theorem behind_after_none (hlock : v.lock = none) :
    (s.after t f v start cache p).behind (s.file f).dev = 0 := by
  unfold State.behind
  rw [after_vol_self, hlock]

theorem behind_after_other (hlock : v.lock = (s.volOf f).lock) (ht : v.lock ≠ some t) :
    (s.after t f v start cache p).behind (s.file f).dev = s.behind (s.file f).dev := by
  unfold State.behind
  rw [after_vol_self]
  have hsame : (s.vol (s.file f).dev).lock = v.lock := hlock.symm
  rw [hsame]
  cases hv : v.lock with
  | none => rfl
  | some u =>
    have hu : u ≠ t := by
      rintro rfl
      exact ht hv
    simp only [after_call_of_ne hu]

theorem full_after (h : Inv s own) (hfull : Full s own)
    (hcall : ∀ c, s.call t = some c → c.file = f)
    (hcovers : ∀ a, (s.after t f v start cache p).taken a → ∃ o, a ∈ own' o)
    (hcount : v.freeClusters = -1 ∨ v.freeClusters = v.fat.zeros +
      (s.after t f v start cache p).behind (s.file f).dev) :
    Full (s.after t f v start cache p) own' := by
  refine ⟨hcovers, fun d => ?_⟩
  by_cases hd : d = (s.file f).dev
  · rw [hd, after_vol_self]
    exact hcount
  · rw [after_vol_of_ne hd, behind_after_of_ne h hcall hd]
    exact hfull.count d

theorem after_taken (hfat : v.fat = (s.volOf f).fat) (a : Addr) :
    (s.after t f v start cache p).taken a ↔ s.taken a := by
  unfold State.taken
  by_cases hd : a.1 = (s.file f).dev
  · rw [hd, after_vol_self, hfat]
    rfl
  · rw [after_vol_of_ne hd]

theorem after_next_eq (hfat : v.fat = (s.volOf f).fat) :
    (s.after t f v start cache p).next = s.next := by
  funext a
  unfold State.next
  by_cases hd : a.1 = (s.file f).dev
  · rw [hd, after_vol_self, hfat]
    rfl
  · rw [after_vol_of_ne hd]

/-- Where the lists begin, if the file and what the call holds stay the same. -/
theorem after_head_eq (hstart : start = (s.file f).start)
    (hholds : addr (s.file f).dev ((p.map Phase.holds).getD 0) = s.head (.inr t)) :
    (s.after t f v start cache p).head = s.head := by
  funext o
  cases o with
  | inl g =>
    by_cases hg : g = f
    · rw [hg, after_head_file_self, hstart]
      rfl
    · exact after_head_file hg
  | inr u =>
    by_cases hu : u = t
    · rw [hu, after_head_task_self, hholds]
    · exact after_head_task hu

theorem chains_after (h : Chains s own) (hfat : v.fat = (s.volOf f).fat)
    (hstart : start = (s.file f).start)
    (hholds : addr (s.file f).dev ((p.map Phase.holds).getD 0) = s.head (.inr t)) :
    Chains (s.after t f v start cache p) own := by
  refine ⟨?_, fun o a ha => (after_taken hfat a).2 (h.taken o a ha)⟩
  rw [after_next_eq hfat, after_head_eq hstart hholds]
  exact h.family

end Full

end LinuxEvocation.Msdos
