import LinuxEvocation.Fs.Msdos.Steps

/-!
# Runs of look-ups, extensions and truncations

* `Chain`, `Start`, `Separate`, `Consistent` — the chain of a file, what holds before the first call,
  files that have no cluster in common, and a table in which nothing is lost and the free clusters are
  counted.
* `fat_consistent` — calls for the same file do not overlap: whenever no call is under way, the table
  is consistent.  `extend_truncate` — a call that extends a file while another one truncates it.
* `get_cluster_transparent` — calls come one after another: a look-up returns what the walk without a
  cache does.  `crosslinked_lookup` — two files that share a cluster.
-/

namespace LinuxEvocation.Msdos

open LinkedList Transition

/-! ## Consistent tables -/

/-- The chain of a file: from `i_start` on, each entry names the next cluster, and the last one is an
end-of-file mark. -/
def Chain (s : State) (f : Nat) (l : List Addr) : Prop :=
  Threads nowhere s.next (s.head (.inl f)) l ∧ ∀ a ∈ l, s.taken a

/-- No call is under way. -/
def Idle (s : State) : Prop := ∀ t, s.call t = none

/-- Before the first call: the files are different ones, no table is locked, and what the cache knows
is right. -/
structure Start (s : State) : Prop where
  idle : Idle s
  keys : ∀ f g, (s.file f).dev = (s.file g).dev → (s.file f).ino = (s.file g).ino → f = g
  devs : ∀ f, (s.file f).dev ≠ 0
  lock : ∀ d, (s.vol d).lock = none
  cache : ∀ e ∈ s.cache, ∀ f l, e.isFor (s.file f) = true → Chain s f l →
    l[e.fileCluster]? = some ((s.file f).dev, e.diskCluster)

/-- Every chain ends in an end-of-file mark, and no two have a cluster in common. -/
structure Separate (s : State) : Prop where
  chain : ∀ f, ∃ l, Chain s f l
  disjoint : ∀ f g a l l', Chain s f l → Chain s g l' → a ∈ l → a ∈ l' → f = g

/-- **A consistent table**: every chain ends in an end-of-file mark, every cluster whose entry is not 0
is in the chain of exactly one file, and the free clusters are counted, if their number is known. -/
structure Consistent (s : State) : Prop where
  chain : ∀ f, ∃ l, Chain s f l
  owner : ∀ a, s.taken a → ∃! f, ∃ l, Chain s f l ∧ a ∈ l
  count : ∀ d, (s.vol d).freeClusters = -1 ∨ (s.vol d).freeClusters = (s.vol d).fat.zeros

theorem Consistent.separate {s : State} (h : Consistent s) : Separate s := by
  refine ⟨h.chain, fun f g a l l' hl hl' ha ha' => ?_⟩
  exact (h.owner a (hl.2 a ha)).unique ⟨l, hl, ha⟩ ⟨l', hl', ha'⟩

section Consistent

variable {s : State} {own : Owner → List Addr}

/-- The chains are the lists of the files. -/
theorem Inv.chain (h : Inv s own) (f : Nat) : Chain s f (own (.inl f)) :=
  ⟨h.chains.family.threads (.inl f), h.chains.taken (.inl f)⟩

theorem Inv.chain_eq (h : Inv s own) {f : Nat} {l : List Addr} (hl : Chain s f l) :
    l = own (.inl f) := h.chains.family.eq_on hl.1

theorem head_idle (hidle : Idle s) (t : Nat) : s.head (.inr t) = nowhere := by
  simp only [State.head, hidle t]

theorem inv_start (h0 : Start s) (hsep : Separate s) :
    ∃ own, Inv s own ∧ ∀ f, Chain s f (own (.inl f)) := by
  choose chain hchain using hsep.chain
  set own : Owner → List Addr := Sum.elim chain fun _ => [] with hown
  refine ⟨own, ⟨h0.keys, h0.devs, ⟨⟨fun o => ?_, fun o => ?_, fun {o o' a} ha ha' => ?_⟩,
    fun o a ha => ?_⟩, fun t u c c' hc => ?_, fun d t => ?_, fun t c hc => ?_,
    fun e he f hfor _ => ?_⟩, hchain⟩
  · cases o with
    | inl f => exact (hchain f).1
    | inr t => exact head_idle h0.idle t
  · cases o with
    | inl f => exact (hchain f).1.nodup
    | inr t => exact List.nodup_nil
  · cases o with
    | inl f =>
      cases o' with
      | inl g => exact congrArg _ (hsep.disjoint f g a _ _ (hchain f) (hchain g) ha ha')
      | inr t => cases ha'
    | inr t => cases ha
  · cases o with
    | inl f => exact (hchain f).2 a ha
    | inr t => cases ha
  · rw [h0.idle t] at hc
    cases hc
  · rw [h0.lock d]
    constructor
    · exact fun hl => (by cases hl)
    · rintro ⟨c, hc, -⟩
      rw [h0.idle t] at hc
      cases hc
  · rw [h0.idle t] at hc
    cases hc
  · exact h0.cache e he f _ hfor (hchain f)

theorem full_start (hlock : ∀ d, (s.vol d).lock = none) (hcons : Consistent s) (h : Inv s own) :
    Full s own := by
  refine ⟨fun a ha => ?_, fun d => ?_⟩
  · obtain ⟨f, ⟨l, hl, hmem⟩, -⟩ := hcons.owner a ha
    exact ⟨.inl f, h.chain_eq hl ▸ hmem⟩
  · unfold State.behind
    rw [hlock d]
    simpa using hcons.count d

/-- When no call is under way, the table is consistent. -/
theorem Full.consistent (h : Inv s own) (hfull : Full s own) (hidle : Idle s) : Consistent s := by
  have hlock : ∀ d, (s.vol d).lock = none := by
    intro d
    cases hl : (s.vol d).lock with
    | none => rfl
    | some t =>
      obtain ⟨c, hc, -⟩ := (h.lock d t).1 hl
      rw [hidle t] at hc
      cases hc
  refine ⟨fun f => ⟨_, h.chain f⟩, fun a ha => ?_, fun d => ?_⟩
  · obtain ⟨o, ho⟩ := hfull.covers a ha
    cases o with
    | inl f =>
      refine ⟨f, ⟨_, h.chain f, ho⟩, ?_⟩
      rintro g ⟨l, hl, hmem⟩
      rw [h.chain_eq hl] at hmem
      exact Sum.inl.inj (h.chains.family.disjoint hmem ho)
    | inr t =>
      have hthreads := h.chains.family.threads (.inr t)
      rw [head_idle hidle t] at hthreads
      have hnil : own (.inr t) = [] := hthreads.unique rfl
      rw [hnil] at ho
      cases ho
  · have hcount := hfull.count d
    unfold State.behind at hcount
    rw [hlock d] at hcount
    simpa using hcount

end Consistent

/-! ## Calls that overlap -/

section Overlap

variable {s₀ s : State}

theorem inv_reach (h0 : Start s₀) (hsep : Separate s₀) (h : Reach step Apart s₀ s) :
    ∃ own, Inv s own := by
  refine h.invariant (I := fun s => ∃ own, Inv s own) ?_ ?_
  · obtain ⟨own, hinv, -⟩ := inv_start h0 hsep
    exact ⟨own, hinv⟩
  · rintro s e s' ⟨own, hinv⟩ hapart hstep
    obtain ⟨own', hinv', -⟩ := keeps_step hinv hapart hstep
    exact ⟨own', hinv'⟩

/-- **FAT chains stay disjoint and complete**, in every run in which calls for the same file do not
overlap. -/
theorem fat_consistent (h0 : Start s₀) (hcons : Consistent s₀) (h : Reach step Apart s₀ s)
    (hidle : Idle s) : Consistent s := by
  have hreach : ∃ own, Inv s own ∧ Full s own := by
    refine h.invariant (I := fun s => ∃ own, Inv s own ∧ Full s own) ?_ ?_
    · obtain ⟨own, hinv, -⟩ := inv_start h0 hcons.separate
      exact ⟨own, hinv, full_start h0.lock hcons hinv⟩
    · rintro s e s' ⟨own, hinv, hfull⟩ hapart hstep
      obtain ⟨own', hinv', hkeeps⟩ := keeps_step hinv hapart hstep
      exact ⟨own', hinv', hkeeps hfull⟩
  obtain ⟨own, hinv, hfull⟩ := hreach
  exact hfull.consistent hinv hidle

end Overlap

/-! ## Calls one after another -/

section Sequence

variable {s₀ s s' : State} {own : Owner → List Addr} {t f : Nat}

/-- Calls come one after another. -/
def InTurn (s : State) : Event → Prop
  | .call _ _ _ => Idle s
  | _ => True

theorem InTurn.apart {e : Event} (h : InTurn s e) : Apart s e := by
  cases e with
  | call t f op =>
    intro u c hc
    rw [h u] at hc
    cases hc
  | run t => trivial
  | leave t => trivial

/-- A look-up leaves the tables and the files as they are. -/
structure Untouched (s s' : State) : Prop where
  vol : s'.vol = s.vol
  file : s'.file = s.file

theorem Untouched.walk (h : Untouched s s') (f n : Nat) : s'.walk f n = s.walk f n := by
  induction n with
  | zero => rw [State.walk, State.walk, h.file]
  | succ n ih => simp only [State.walk, ih, State.access, State.volOf, h.vol, h.file]

theorem Untouched.trans {s'' : State} (h : Untouched s s') (h' : Untouched s' s'') :
    Untouched s s'' := ⟨h'.vol.trans h.vol, h'.file.trans h.file⟩

/-- The look-up is done, or on its way. -/
def Looking (s : State) (t f cluster count : Nat) : Prop :=
  (∃ nr, s.call t = some ⟨f, .got cluster nr⟩) ∨
    ∃ nr, s.call t = some ⟨f, .getWalk cluster count nr⟩

theorem looking_goto {p : Phase} : (s.goto t f p).call t = some ⟨f, p⟩ := by
  simp [State.goto, State.setCall]

theorem getLoop_looking {cluster count nr : Nat} :
    Looking (s.getLoop t f cluster count nr) t f cluster count ∧
      Untouched s (s.getLoop t f cluster count nr) := by
  unfold State.getLoop
  split_ifs
  · exact ⟨.inr ⟨nr, looking_goto⟩, rfl, rfl⟩
  · exact ⟨.inl ⟨nr, looking_goto⟩, rfl, rfl⟩

theorem getBegin_looking {cluster : Nat} :
    (∃ count, Looking (s.getBegin t f cluster) t f cluster count) ∧
      Untouched s (s.getBegin t f cluster) := by
  unfold State.getBegin
  split_ifs
  · exact ⟨⟨0, .inl ⟨0, looking_goto⟩⟩, rfl, rfl⟩
  · exact ⟨⟨0, .inl ⟨_, looking_goto⟩⟩, rfl, rfl⟩
  · exact ⟨⟨_, getLoop_looking.1⟩, getLoop_looking.2⟩

theorem run_looking {cluster count nr : Nat} (hc : s.call t = some ⟨f, .getWalk cluster count nr⟩) :
    ∃ s', step s (.run t) = some s' ∧ Looking s' t f cluster (count + 1) ∧ Untouched s s' := by
  simp only [step, hc, resume]
  cases hacc : s.access f nr with
  | none => exact ⟨_, rfl, .inl ⟨0, looking_goto⟩, rfl, rfl⟩
  | some m =>
    cases m with
    | zero => exact ⟨_, rfl, .inl ⟨0, looking_goto⟩, rfl, rfl⟩
    | succ m => exact ⟨_, rfl, getLoop_looking⟩

theorem get_returns {cluster count : Nat} (h : Inv s own) (hlook : Looking s t f cluster count) :
    ∃ k s', execFrom step s (List.replicate k (.run t)) = some s' ∧
      (∃ nr, s'.call t = some ⟨f, .got cluster nr⟩) ∧ Untouched s s' ∧ ∃ own', Inv s' own' := by
  -- by induction on the links that are left
  induction hd : cluster - count generalizing s own count with
  | zero =>
    rcases hlook with hgot | ⟨nr, hc⟩
    · exact ⟨0, s, rfl, hgot, ⟨rfl, rfl⟩, own, h⟩
    · have hlt : count < cluster := (h.knows t _ hc).1
      omega
  | succ d ih =>
    rcases hlook with hgot | ⟨nr, hc⟩
    · exact ⟨0, s, rfl, hgot, ⟨rfl, rfl⟩, own, h⟩
    · obtain ⟨s₁, hstep, hlook₁, hsame⟩ := run_looking hc
      have hapart : Apart s (.run t) := trivial
      obtain ⟨own₁, hinv₁, -⟩ := keeps_step h hapart hstep
      obtain ⟨k, s', hexec, hgot, hsame', hinv'⟩ := ih hinv₁ hlook₁ (by omega)
      refine ⟨k + 1, s', ?_, hgot, hsame.trans hsame', hinv'⟩
      rw [List.replicate_succ, execFrom, hstep]
      exact hexec

/-- **The cluster cache is transparent**: after every history of calls, one after another, on files
that have no cluster in common, `get_cluster` returns what the walk from `i_start` does. -/
theorem get_cluster_transparent (h0 : Start s₀) (hsep : Separate s₀) (h : Reach step InTurn s₀ s)
    (hidle : Idle s) (t f n : Nat) :
    ∃ k s', execFrom step s (.call t f (.get n) :: List.replicate k (.run t)) = some s' ∧
      s'.call t = some ⟨f, .got n (s.walk f n)⟩ := by
  obtain ⟨own, hinv⟩ := inv_reach h0 hsep (h.mono fun _ _ => InTurn.apart)
  have hbegin : step s (.call t f (.get n)) = some (s.getBegin t f n) := by
    simp only [step, if_pos (hidle t)]
  have hapart : Apart s (.call t f (.get n)) := InTurn.apart hidle
  obtain ⟨own₁, hinv₁, -⟩ := keeps_step hinv hapart hbegin
  obtain ⟨⟨count, hlook⟩, hsame⟩ : (∃ count, Looking (s.getBegin t f n) t f n count) ∧
      Untouched s (s.getBegin t f n) := getBegin_looking
  obtain ⟨k, s', hexec, ⟨nr, hgot⟩, hsame', own', hinv'⟩ := get_returns hinv₁ hlook
  refine ⟨k, s', ?_, ?_⟩
  · rw [execFrom, hbegin]
    exact hexec
  · have hnr : nr = ((own' (.inl f))[n]?.map Prod.snd).getD 0 := hinv'.knows t _ hgot
    rw [hgot, hnr, ← walk_eq_getElem? hinv'.chains f n, (hsame.trans hsame').walk f n]

end Sequence

/-! ## What a step leaves of the other calls -/

section Others

variable {s s' : State} {t f u : Nat}

theorem goto_call_of_ne (hu : u ≠ t) (p : Phase) : (s.goto t f p).call u = s.call u := by
  simp [State.goto, State.setCall, hu]

@[simp]
theorem setVolOf_call (v : Volume) : (s.setVolOf f v).call = s.call := rfl

@[simp]
theorem addFree_call (n : Int) : (s.addFree f n).call = s.call := by
  rw [addFree_eq]
  rfl

theorem addTail_call (hu : u ≠ t) (nr last : Nat) : (s.addTail t f nr last).call u = s.call u := by
  unfold State.addTail
  split_ifs
  · exact goto_call_of_ne hu _
  · exact goto_call_of_ne hu _

theorem addFind_call (hu : u ≠ t) (nr : Nat) : (s.addFind t f nr).call u = s.call u := by
  unfold State.addFind
  dsimp only
  split_ifs
  · exact addTail_call hu nr 0
  · exact addTail_call hu nr _
  · exact goto_call_of_ne hu _

theorem getLoop_call (hu : u ≠ t) (cluster count nr : Nat) :
    (s.getLoop t f cluster count nr).call u = s.call u := by
  unfold State.getLoop
  split_ifs
  · exact goto_call_of_ne hu _
  · exact goto_call_of_ne hu _

theorem freeEnd_call (hu : u ≠ t) : (s.freeEnd t f).call u = s.call u := goto_call_of_ne hu _

theorem resume_call {p : Phase} (hu : u ≠ t) (h : resume s t f p = some s') :
    s'.call u = s.call u := by
  cases p with
  | getWalk cluster count nr =>
    rw [resume] at h
    split at h
    · cases h
      exact goto_call_of_ne hu _
    · cases h
      exact goto_call_of_ne hu _
    · cases h
      exact getLoop_call hu _ _ _
  | addLock | freeLock nr =>
    rw [resume] at h
    split_ifs at h
    cases h
    exact goto_call_of_ne hu _
  | addScan count =>
    cases h
    unfold State.addScan
    dsimp only
    split_ifs <;> exact goto_call_of_ne hu _
  | addMark nr | addLink nr last | freeCut nr last =>
    cases h
    exact goto_call_of_ne hu _
  | addCount nr =>
    cases h
    rw [addFind_call hu, State.setLock, setVolOf_call, addFree_call]
  | addWalk nr current =>
    cases h
    unfold State.addWalk
    split
    · exact addTail_call hu nr current
    · exact goto_call_of_ne hu _
    · exact goto_call_of_ne hu _
  | freeSkip skip nr =>
    cases h
    unfold State.freeSkip
    split
    · exact goto_call_of_ne hu _
    · exact goto_call_of_ne hu _
    · split_ifs
      · exact goto_call_of_ne hu _
      · exact goto_call_of_ne hu _
  | freeZero nr =>
    cases h
    unfold State.freeZero
    split
    · exact freeEnd_call hu
    · exact goto_call_of_ne hu _
  | freeCount next =>
    cases h
    cases next with
    | none => rw [State.freeCount, freeEnd_call hu, addFree_call]
    | some nr => rw [State.freeCount, goto_call_of_ne hu, addFree_call]
  | got cluster nr | ret r => cases h

def Event.task : Event → Nat
  | .call t _ _ => t
  | .run t => t
  | .leave t => t

theorem step_call {e : Event} (hu : u ≠ e.task) (h : step s e = some s') : s'.call u = s.call u := by
  cases e with
  | call t f op =>
    have hu : u ≠ t := hu
    simp only [step] at h
    split_ifs at h
    cases op with
    | get cluster =>
      cases h
      unfold State.getBegin
      dsimp only
      split_ifs
      · exact goto_call_of_ne hu _
      · exact goto_call_of_ne hu _
      · exact getLoop_call hu _ _ _
    | add =>
      cases h
      unfold State.addBegin
      split_ifs <;> exact goto_call_of_ne hu _
    | free skip =>
      cases h
      unfold State.freeBegin
      split_ifs <;> exact goto_call_of_ne hu _
  | run t =>
    simp only [step] at h
    split at h
    · cases h
    · exact resume_call hu h
  | leave t =>
    have hu : u ≠ t := hu
    simp only [step] at h
    split at h
    · cases h
      simp [State.setCall, hu]
    · cases h
      simp [State.setCall, hu]
    · cases h

theorem execFrom_call {es : List Event} (hu : ∀ e ∈ es, u ≠ e.task)
    (h : execFrom step s es = some s') : s'.call u = s.call u := by
  induction es generalizing s with
  | nil =>
    cases h
    rfl
  | cons e es ih =>
    obtain ⟨s₁, hs₁, hrest⟩ := Option.bind_eq_some_iff.1 h
    rw [ih (fun e' he' => hu e' (List.mem_cons_of_mem _ he')) hrest,
      step_call (hu e List.mem_cons_self) hs₁]

end Others

/-! ## Examples -/

section Examples

/-- A table with four clusters, and 16 bits for an entry. -/
def table (entries : List Nat) : Fat where
  wide := true
  clusters := 4
  byte i := BitVec.ofNat 8 (if i % 2 = 0 then entries.getD (i / 2) 0 else entries.getD (i / 2) 0 / 256)
  pos := by decide
  fits := by decide

/-- A file system on the device 1.  The first file begins with the cluster 2, the second one with
`start`; the others are empty, as is the cache. -/
def floppy (entries : List Nat) (free : Int) (start : Nat) : State where
  vol d := if d = 1 then ⟨table entries, 0, free, none⟩ else ⟨table [], 0, -1, none⟩
  file f := ⟨1, f + 2, if f = 0 then 2 else if f = 1 then start else 0⟩
  cache := List.replicate 8 ⟨0, 0, 0, 0⟩
  call _ := none

theorem floppy_start (entries : List Nat) (free : Int) (start : Nat) :
    Start (floppy entries free start) := by
  refine ⟨fun _ => rfl, fun f g _ hino => ?_, fun f => ?_, fun d => ?_, fun e he f l hfor => ?_⟩
  · change f + 2 = g + 2 at hino
    omega
  · change 1 ≠ 0
    decide
  · unfold floppy
    dsimp only
    split_ifs <;> rfl
  · rw [List.eq_of_mem_replicate he] at hfor
    simp [CacheEntry.isFor, floppy] at hfor

/-- A whole call: `n` steps after the first one. -/
def whole (t f : Nat) (op : Op) (n : Nat) : List Event :=
  .call t f op :: (List.replicate n (Event.run t) ++ [.leave t])

/-- A whole call, after which no call is under way. -/
theorem reach_whole {s₀ s s' : State} {t f n : Nat} {op : Op} (h : Reach step InTurn s₀ s)
    (hidle : Idle s) (hexec : execFrom step s (whole t f op n) = some s') (hdone : s'.call t = none) :
    Reach step InTurn s₀ s' ∧ Idle s' := by
  constructor
  · obtain ⟨s₁, hs₁, hrest⟩ := Option.bind_eq_some_iff.1 hexec
    have hturn : InTurn s (.call t f op) := hidle
    have hreach : Reach step InTurn s₀ s₁ := h.step _ hturn hs₁
    have hquiet : ∀ e ∈ List.replicate n (.run t) ++ [.leave t], ∀ s, InTurn s e := by
      intro e he s
      rcases List.mem_append.1 he with he | he
      · rw [List.eq_of_mem_replicate he]
        trivial
      · rw [List.mem_singleton.1 he]
        trivial
    exact hreach.of_quiet hquiet hrest
  · intro u
    by_cases hu : u = t
    · rw [hu]
      exact hdone
    · rw [execFrom_call (fun e he => ?_) hexec]
      · exact hidle u
      · rcases List.mem_cons.1 he with rfl | he
        · exact hu
        · rcases List.mem_append.1 he with he | he
          · rw [List.eq_of_mem_replicate he]
            exact hu
          · rw [List.mem_singleton.1 he]
            exact hu

/-- The first file has the clusters 2 and 4; 3 and 5 are free. -/
def twoClusters : State := floppy [0xfff8, 0xffff, 4, 0, 0xfff8, 0] 2 0

theorem twoClusters_taken {a : Addr} (h : twoClusters.taken a) : a = (1, 2) ∨ a = (1, 4) := by
  obtain ⟨d, nr⟩ := a
  unfold State.taken at h
  have hrange := Fat.inRange_of_access h
  by_cases hd : d = 1
  · subst hd
    obtain ⟨hlo, hhi⟩ : 2 ≤ nr ∧ nr < 6 := hrange
    interval_cases nr
    · exact .inl rfl
    · exact absurd (by decide +kernel) h
    · exact .inr rfl
    · exact absurd (by decide +kernel) h
  · have hempty : (twoClusters.vol d).fat = table [] := by
      simp [twoClusters, floppy, hd]
    rw [hempty] at h hrange
    obtain ⟨hlo, hhi⟩ : 2 ≤ nr ∧ nr < 6 := hrange
    refine absurd ?_ h
    change (table []).access nr = some 0
    interval_cases nr <;> decide +kernel

theorem twoClusters_chain : Chain twoClusters 0 [(1, 2), (1, 4)] := by
  have hlast : twoClusters.next (1, 4) = nowhere := by decide +kernel
  refine ⟨⟨by decide +kernel, by decide, by decide +kernel, by decide, hlast⟩, fun a ha => ?_⟩
  unfold State.taken
  rcases List.mem_cons.1 ha with rfl | ha
  · decide +kernel
  · rw [List.mem_singleton.1 ha]
    decide +kernel

theorem twoClusters_empty {f : Nat} (hf : f ≠ 0) : Chain twoClusters f [] := by
  refine ⟨?_, fun a ha => (by cases ha)⟩
  simp [twoClusters, floppy, State.head, hf]

theorem twoClusters_consistent : Consistent twoClusters := by
  refine ⟨fun f => ?_, fun a ha => ?_, fun d => ?_⟩
  · by_cases hf : f = 0
    · subst hf
      exact ⟨_, twoClusters_chain⟩
    · exact ⟨_, twoClusters_empty hf⟩
  · have hmem : a ∈ [((1 : Nat), (2 : Nat)), (1, 4)] := by
      rcases twoClusters_taken ha with rfl | rfl <;> simp
    refine ⟨0, ⟨_, twoClusters_chain, hmem⟩, ?_⟩
    rintro g ⟨l, hl, hal⟩
    by_contra hg
    rw [hl.1.unique (twoClusters_empty hg).1] at hal
    cases hal
  · by_cases hd : d = 1
    · right
      subst hd
      decide +kernel
    · left
      simp [twoClusters, floppy, hd]

theorem idle_of_two {s s' : State} {es : List Event} (htasks : ∀ e ∈ es, e.task = 0 ∨ e.task = 1)
    (hidle : Idle s) (hs : execFrom step s es = some s') (hzero : s'.call 0 = none)
    (hone : s'.call 1 = none) : Idle s' := by
  intro u
  by_cases hu0 : u = 0
  · rw [hu0]
    exact hzero
  by_cases hu1 : u = 1
  · rw [hu1]
    exact hone
  · rw [execFrom_call (fun e he heq => ?_) hs]
    · exact hidle u
    · rcases htasks e he with h | h
      · exact hu0 (heq.trans h)
      · exact hu1 (heq.trans h)

/-- The second file waits for the table while the first one grows, and then grows as well. -/
def growBoth : List Event :=
  .call 0 0 .add :: .run 0 :: .call 1 1 .add :: (List.replicate 7 (Event.run 0) ++
    (List.replicate 5 (Event.run 1) ++ [.leave 0, .leave 1]))

theorem fat_consistent_extend : ∃ s, Start twoClusters ∧ Consistent twoClusters ∧
    Reach step Apart twoClusters s ∧ Idle s ∧ (s.vol 1).fat.access 4 = some 3 ∧
    (s.file 1).start = 5 ∧ Consistent s := by
  have hrun : (execFrom step twoClusters growBoth).map (fun s =>
      (s.call 0, s.call 1, (s.vol 1).fat.access 4, (s.file 1).start)) =
      some (none, none, some 3, 5) := by
    decide +kernel
  obtain ⟨s, hs, heq⟩ := Option.map_eq_some_iff.1 hrun
  simp only [Prod.mk.injEq] at heq
  obtain ⟨hzero, hone, hlink, hfirst⟩ := heq
  have hidle : Idle s := idle_of_two (by decide) (fun _ => rfl) hs hzero hone
  obtain ⟨s₁, hs₁, hrest⟩ := Option.bind_eq_some_iff.1 hs
  obtain ⟨s₂, hs₂, hrest⟩ := Option.bind_eq_some_iff.1 hrest
  obtain ⟨s₃, hs₃, hrest⟩ := Option.bind_eq_some_iff.1 hrest
  have hstart : Start twoClusters := floppy_start _ _ _
  have hcalls : execFrom step twoClusters [.call 0 0 .add, .run 0] = some s₂ := by
    rw [execFrom, hs₁, Option.bind_some, execFrom, hs₂]
    rfl
  have hapart : Apart s₂ (.call 1 1 .add) := by
    intro u c hc
    by_cases hu : u = 0
    · have hfile : (execFrom step twoClusters [.call 0 0 .add, .run 0]).map
          (fun s => (s.call 0).map Call.file) = some (some 0) := by
        decide +kernel
      rw [hu] at hc
      rw [hcalls, Option.map_some, Option.some_inj, hc] at hfile
      have hfirst : c.file = 0 := Option.some_inj.1 hfile
      omega
    · rw [execFrom_call (by simpa [Event.task] using hu) hcalls] at hc
      cases hc
  have hreach : Reach step Apart twoClusters s := by
    refine (((Reach.init.step _ ?_ hs₁).step _ trivial hs₂).step _ hapart hs₃).of_quiet
      (fun e he _ => ?_) hrest
    · intro u c hc
      cases hc
    · fin_cases he <;> trivial
  exact ⟨s, hstart, twoClusters_consistent, hreach, hidle, hlink, hfirst,
    fat_consistent hstart twoClusters_consistent hreach hidle⟩

/-- The look-up of the new cluster. -/
theorem get_cluster_transparent_extend : ∃ s, Start twoClusters ∧ Separate twoClusters ∧
    Reach step InTurn twoClusters s ∧ Idle s ∧ s.walk 0 2 = 3 ∧
      ∃ k s', execFrom step s (.call 0 0 (.get 2) :: List.replicate k (.run 0)) = some s' ∧
        s'.call 0 = some ⟨0, .got 2 (s.walk 0 2)⟩ := by
  have hrun : (execFrom step twoClusters (whole 0 0 .add 8)).map
      (fun s => (s.call 0, s.walk 0 2)) = some (none, 3) := by
    decide +kernel
  obtain ⟨s, hs, heq⟩ := Option.map_eq_some_iff.1 hrun
  simp only [Prod.mk.injEq] at heq
  obtain ⟨hreach, hidle⟩ := reach_whole .init (fun _ => rfl) hs heq.1
  have hstart : Start twoClusters := floppy_start _ _ _
  have hsep := twoClusters_consistent.separate
  exact ⟨s, hstart, hsep, hreach, hidle, heq.2,
    get_cluster_transparent hstart hsep hreach hidle 0 0 2⟩

/-- One task has found the last cluster of the file when another one frees it. -/
def race : List Event :=
  .call 0 0 .add :: (List.replicate 7 (Event.run 0) ++ Event.call 1 0 (.free 1) ::
    (List.replicate 5 (Event.run 1) ++ [.leave 1, .run 0, .leave 0]))

theorem extend_truncate : ∃ s, Start twoClusters ∧ Consistent twoClusters ∧
    Reach step anyStep twoClusters s ∧ Idle s ∧ ¬ Consistent s := by
  have hrun : (execFrom step twoClusters race).map (fun s => (s.call 0, s.call 1,
      (s.vol 1).freeClusters, (s.vol 1).fat.zeros)) = some (none, none, 2, 1) := by
    decide +kernel
  obtain ⟨s, hs, heq⟩ := Option.map_eq_some_iff.1 hrun
  simp only [Prod.mk.injEq] at heq
  obtain ⟨hzero, hone, hfree, hzeros⟩ := heq
  refine ⟨s, floppy_start _ _ _, twoClusters_consistent, Reach.of_execFrom .init hs,
    idle_of_two (by decide) (fun _ => rfl) hs hzero hone, fun hcons => ?_⟩
  rcases hcons.count 1 with hunknown | hcount
  · rw [hfree] at hunknown
    cases hunknown
  · rw [hfree, hzeros] at hcount
    cases hcount

/-- The first file: 2, 3, 4; the second one: 5, 3, 4. -/
def crosslinked : State := floppy [0xfff8, 0xffff, 3, 4, 0xfff8, 3] 0 5

theorem crosslinked_lookup : ∃ s s', Start crosslinked ∧ Reach step InTurn crosslinked s ∧ Idle s ∧
    step s (.call 0 1 (.get 2)) = some s' ∧ s'.call 0 = some ⟨1, .got 2 4⟩ ∧ s.walk 1 2 = 0 := by
  have hlook : (execFrom step crosslinked (whole 0 1 (.get 2) 2)).map (fun s => s.call 0) =
      some none := by
    decide +kernel
  obtain ⟨s₁, hs₁, hdone₁⟩ := Option.map_eq_some_iff.1 hlook
  obtain ⟨hreach₁, hidle₁⟩ := reach_whole .init (fun _ => rfl) hs₁ hdone₁
  have hfree : ((execFrom step crosslinked (whole 0 1 (.get 2) 2)).bind fun s =>
      (execFrom step s (whole 0 0 (.free 0) 7)).bind fun s =>
        (step s (.call 0 1 (.get 2))).map fun s' => (s.call 0, s'.call 0, s.walk 1 2)) =
      some (none, some ⟨1, .got 2 4⟩, 0) := by
    decide +kernel
  rw [hs₁, Option.bind_some] at hfree
  obtain ⟨s, hs, hnext⟩ := Option.bind_eq_some_iff.1 hfree
  obtain ⟨s', hs', heq⟩ := Option.map_eq_some_iff.1 hnext
  simp only [Prod.mk.injEq] at heq
  obtain ⟨hreach, hidle⟩ := reach_whole hreach₁ hidle₁ hs heq.1
  exact ⟨s, s', floppy_start _ _ _, hreach, hidle, hs', heq.2.1, heq.2.2⟩

end Examples

end LinuxEvocation.Msdos
