import LinuxEvocation.Fs.Buffer.Steps

/-!
# What a step does to the cache

Every step of the system is one of four: a task recycles a buffer in `getblk`, inserts the buffers
of a page in `try_to_load_aligned`, frees a page in `try_to_free`, or leaves the hashed buffers as
they are.

* `Change`, `Frees`, `Recycles`, `Loads` — the four kinds; `step_change` — there is no other.
* `Moves` — a step moves one task.
-/

namespace LinuxEvocation.Fs.Buffer

open Function (update update_eq_self update_of_ne)
open LinuxEvocation.Mm Transition

variable {ι : Type}

/-! ## What a step does to the cache -/

/-- Only heads that are not in the cache change, and they do not get hashed. -/
def Change (c c' : Cache) : Prop :=
  ∃ D, Effect c c' D ∧ (∀ x, D x → x ∉ c.ring) ∧ ∀ x, D x → ¬ c'.Hashed x

theorem Effect.change {c c' : Cache} (h : Effect c c' nobody) : Change c c' :=
  ⟨nobody, h, fun _ hD => hD.elim, fun _ hD => hD.elim⟩

theorem Change.of_same {c c' : Cache} (hring : c'.ring = c.ring) (hqueue : c'.queue = c.queue)
    (hdev : c'.dev = c.dev) (hblocknr : c'.blocknr = c.blocknr) (hsize : c'.size = c.size)
    (hdata : c'.data = c.data) : Change c c' :=
  (Effect.of_eq hring hqueue hdev hblocknr hsize hdata).change

/-- A head that is not in the cache is not hashed. -/
theorem CacheOk.not_hashed {c : Cache} (h : CacheOk c) {x : Nat} (hx : x ∉ c.ring) :
    ¬ c.Hashed x := fun hh => hx (h.hashed _ x hh).1

namespace Sys

variable [DecidableEq ι] {s : Sys ι} {t : ι}

theorem waitOn_change {bh : Nat} {k : After} : Change s.cache (s.waitOn t bh k).cache := by
  unfold waitOn
  split <;> exact Change.of_same rfl rfl rfl rfl rfl rfl

theorem finish_change {f : Finish} (hcache : CacheOk s.cache)
    (hoff : ∀ x ∈ f.heads, x ∉ s.cache.ring) : Change s.cache (s.finish t f).cache := by
  cases f with
  | done | mapped page address | noGo page => exact Change.of_same rfl rfl rfl rfl rfl rfl
  | notAligned heads =>
    refine ⟨(· ∈ heads), clear_effect heads, hoff, fun x hx => ?_⟩
    exact (hcache.clear hoff).not_hashed (hoff x hx)
  | loaded address => exact Change.of_same rfl rfl rfl rfl rfl rfl

theorem release_change {f : Finish} {l : List Nat} (hcache : CacheOk s.cache)
    (hoff : ∀ x ∈ f.heads, x ∉ s.cache.ring) : Change s.cache (s.release t f l).cache := by
  cases l with
  | nil => exact finish_change hcache hoff
  | cons bh l => exact waitOn_change

theorem checkNext_change {dev size page address offset : Nat} {acc b : List Nat}
    (hcache : CacheOk s.cache) :
    Change s.cache (s.checkNext t dev size page address offset acc b).cache := by
  have hrel : Change s.cache (s.release t (.noGo page) acc).cache :=
    release_change hcache (by simp [Finish.heads])
  unfold checkNext
  split
  · cases b with
    | nil => exact hrel
    | cons block b =>
      dsimp only
      split
      · exact hrel
      · exact Change.of_same rfl rfl rfl rfl rfl rfl
  · exact Change.of_same rfl rfl rfl rfl rfl rfl

end Sys

/-- `getblk` gives a buffer that nobody uses to a block it has not found. -/
def Recycles (s : Sys ι) (e : SysEvent ι) (s' : Sys ι) : Prop :=
  ∃ t env bh dev block size, e = .run t env ∧ s.pc t = .after bh (.victim dev block size) ∧
    bh ∈ s.cache.ring ∧ s.cache.count bh = 0 ∧ s.cache.size bh = size ∧
    s.cache.dirt bh = false ∧ s.cache.findBuffer dev block size = none ∧
    s'.cache = s.cache.reassign bh dev block

/-- `try_to_load_aligned` inserts the buffers of a page, the last of its blocks not found either. -/
def Loads (s : Sys ι) (e : SysEvent ι) (s' : Sys ι) : Prop :=
  ∃ t env dev block size address heads b memMap, e = .run t env ∧ s.cpu = some t ∧
    s.pc t = .search dev block size (.load address heads b []) ∧
    s.cache.findBuffer dev block size = none ∧
    s'.cache = { s.cache.insertAll dev (heads.zip b) with memMap := memMap }

section Change

variable [DecidableEq ι] {s s' : Sys ι} {t : ι} {env : Env}

namespace Sys

/-- What the callers of `get_hash_table` do when it has found the buffer. -/
theorem answerSome_change {bh dev block size : Nat} {k : Search} (hcache : CacheOk s.cache)
    (hbh : bh ∈ s.cache.ring) (hoff : ∀ x ∈ k.heads, x ∉ s.cache.ring) :
    Change s.cache (s.answer t env dev block size (some bh) k).cache := by
  cases k with
  | getblk =>
    unfold answer
    dsimp only
    split
    · exact (putLastFree_effect hbh).change
    · exact Change.of_same rfl rfl rfl rfl rfl rfl
  | share address b =>
    unfold answer
    dsimp only
    split
    · exact release_change hcache (by simp [Finish.heads])
    · have hmap : CacheOk { s.cache with
          memMap := update s.cache.memMap (mapNr (s.cache.data bh))
            (mapAgain (s.cache.memMap (mapNr (s.cache.data bh)))) } := hcache.congr rfl rfl rfl rfl
      obtain ⟨D, h1, h2, h3⟩ := checkNext_change (t := t) (s := { s with cache := _ }) hmap
      exact ⟨D, ⟨h1.ring, h1.ident, h1.hashed⟩, h2, h3⟩
  | check page address offset acc b =>
    unfold answer
    dsimp only
    split
    · exact release_change hcache (by simp [Finish.heads])
    · exact checkNext_change hcache
  | load address heads b rest => exact release_change hcache hoff

theorem growBuffers_change {c : Cache} (hcache : CacheOk c) (size page : Nat)
    {heads : Option (List Nat)}
    (hfresh : ∀ l, heads = some l → l.Nodup ∧ ∀ x ∈ l, x ∉ c.ring) :
    Change c (c.growBuffers size page heads) := by
  have hoff : ∀ x ∈ grown size page heads, x ∉ c.ring := by
    intro x hx
    rcases growBuffers_eq (c := c) size page heads with ⟨-, hnil⟩ | ⟨l, hl, -, hgl, -⟩
    · rw [hnil] at hx
      exact absurd hx (by simp)
    · rw [hgl] at hx
      exact (hfresh l hl).2 x hx
  refine ⟨_, growBuffers_effect size page, hoff, fun x hx hh => ?_⟩
  -- a new head has no device
  rcases growBuffers_eq (c := c) size page heads with ⟨heq, -⟩ | ⟨l, hl, -, hgl, heq⟩
  · rw [heq] at hh
    exact absurd hh (hcache.not_hashed (hoff x hx))
  · have hdev := ((hcache.growBuffers size page hfresh).hashed _ x hh).2.1
    rw [heq] at hdev
    rw [hgl] at hx
    exact hdev (if_pos hx)

/-- What they do when it has found nothing. -/
theorem answerNone_change {dev block size : Nat} {k : Search} (hcache : CacheOk s.cache)
    (hfresh : ∀ l, env.heads = some l → FreshUnused s l)
    (hheads : k.heads.Nodup ∧ ∀ x ∈ k.heads, x ∉ s.cache.ring) :
    Change s.cache (s.answer t env dev block size none k).cache ∨
      ∃ address heads b memMap, k = .load address heads b [] ∧
        (s.answer t env dev block size none k).cache =
          { s.cache.insertAll dev (heads.zip b) with memMap := memMap } := by
  cases k with
  | getblk =>
    left
    unfold answer
    dsimp only
    split
    · exact growBuffers_change hcache size env.page fun l hl =>
        ⟨(hfresh l hl).1, fun x hx => ((hfresh l hl).2 x hx).2.1⟩
    · exact Change.of_same rfl rfl rfl rfl rfl rfl
  | share address b =>
    left
    unfold answer
    dsimp only
    cases hl : env.heads with
    | none => exact Change.of_same rfl rfl rfl rfl rfl rfl
    | some heads =>
      dsimp only
      split
      · have hf := hfresh heads hl
        have hoff : ∀ x ∈ heads, x ∉ s.cache.ring := fun x hx => (hf.2 x hx).2.1
        have hmade := hcache.createBuffers address size hoff
        -- the page is made, and given up at once or later
        cases b with
        | nil =>
          unfold loadNext
          rw [List.zip_nil_right]
          refine ⟨(· ∈ heads), (createBuffers_effect address size heads).memMap _,
            hoff, fun x hx => ?_⟩
          exact hmade.not_hashed (hoff x hx)
        | cons block b =>
          by_cases hblock : block = 0
          · rw [loadNext, if_pos hblock]
            refine ⟨(· ∈ heads), (createBuffers_effect address size heads).trans (clear_effect heads),
              hoff, fun x hx => ?_⟩
            exact (hmade.clear hoff).not_hashed (hoff x hx)
          · rw [loadNext, if_neg hblock]
            refine ⟨(· ∈ heads), createBuffers_effect address size heads,
              hoff, fun x hx => ?_⟩
            exact hmade.not_hashed (hoff x hx)
      · exact Change.of_same rfl rfl rfl rfl rfl rfl
  | check page address offset acc b =>
    exact .inl (release_change hcache (by simp [Finish.heads]))
  | load address heads b rest =>
    cases rest with
    | nil => exact .inr ⟨address, heads, b, _, rfl, rfl⟩
    | cons block' rest =>
      left
      by_cases hblock : block' = 0
      · show Change s.cache (s.loadNext t dev size address heads b (block' :: rest)).cache
        rw [loadNext, if_pos hblock]
        exact finish_change (f := .notAligned heads) hcache hheads.2
      · show Change s.cache (s.loadNext t dev size address heads b (block' :: rest)).cache
        rw [loadNext, if_neg hblock]
        exact Change.of_same rfl rfl rfl rfl rfl rfl

end Sys

end Change

section StepChange

variable [DecidableEq ι] [Fintype ι] {s s' : Sys ι} {t : ι} {env : Env}

namespace Sys

theorem resume_change {bh : Nat} {k : After} (h : Inv s)
    (hpc : s.pc t = .after bh k) :
    Change s.cache (s.resume t env bh k).cache ∨
      Recycles s (.run t env) (s.resume t env bh k) := by
  have hok := h.pcs t
  rw [hpc] at hok
  obtain ⟨hafter, hbh⟩ := hok
  have hoff := (h.heads t).2
  rw [hpc] at hoff
  cases k with
  | found dev block size k =>
    left
    have hright : s.cache.dev bh = dev ∧ s.cache.blocknr bh = block ∧ s.cache.size bh = size :=
      hafter
    unfold resume
    dsimp only
    rw [if_pos hright]
    exact answerSome_change h.cache hbh hoff
  | victim dev block size =>
    unfold resume
    dsimp only
    split
    · exact .inl (Change.of_same rfl rfl rfl rfl rfl rfl)
    · rename_i hfree
      rw [not_or, not_not, not_not] at hfree
      split
      · exact .inl (Change.of_same rfl rfl rfl rfl rfl rfl)
      rename_i hdirt
      split
      · exact .inl (Change.of_same rfl rfl rfl rfl rfl rfl)
      · rename_i hfind
        right
        refine ⟨t, env, bh, dev, block, size, rfl, hpc, hbh, hfree.1, hfree.2, ?_, ?_, rfl⟩
        · simpa using hdirt
        · simpa using hfind
  | unhash dev size i bhnext =>
    left
    unfold resume
    dsimp only
    have hrem := removeFromHashQueue_effect (c := s.cache) bh
    split
    · have hrem' : Effect s.cache (Cache.removeFromHashQueue bh { s.cache with
          uptodate := update s.cache.uptodate bh false
          dirt := update s.cache.dirt bh false }) nobody :=
        ⟨hrem.ring, hrem.ident, hrem.hashed⟩
      exact hrem'.change
    · exact hrem.change
  | read todo all f => exact .inl (Change.of_same rfl rfl rfl rfl rfl rfl)
  | release l f =>
    left
    have hdrop : CacheOk (s.drop bh).cache := h.cache.congr rfl rfl rfl rfl
    obtain ⟨D, h1, h2, h3⟩ := release_change (t := t) (f := f) (l := l) hdrop hoff
    exact ⟨D, ⟨h1.ring, h1.ident, h1.hashed⟩, h2, h3⟩

end Sys

end StepChange

/-- `try_to_free` is called. -/
def Frees (s : Sys ι) (e : SysEvent ι) (s' : Sys ι) : Prop :=
  ∃ t bh, e = .call t (.tryToFree bh) ∧ s'.cache = s.cache.tryToFree bh

section Wake

variable [DecidableEq ι] {s s' : Sys ι} {t : ι} {env : Env}

theorem wake_change (hs' : s.wake t env = some s') : Change s.cache s'.cache := by
  have hwoke := Sys.woke hs'
  generalize s.pc t = p at hwoke
  cases hwoke <;> exact Change.of_same rfl rfl rfl rfl rfl rfl

end Wake

section Steps

variable [DecidableEq ι] [Fintype ι] {s s' : Sys ι} {t : ι} {env : Env}

theorem run_change (h : Inv s) (hcpu : s.cpu = some t)
    (hfresh : ∀ l, env.heads = some l → FreshUnused s l) (hs' : s.run t env = some s') :
    Change s.cache s'.cache ∨ Recycles s (.run t env) s' ∨ Loads s (.run t env) s' := by
  have hheads := h.heads t
  have hran := Sys.ran hs'
  generalize hpc : s.pc t = p at hheads hran
  cases hran with
  | @missed dev block size k hfind =>
    rcases Sys.answerNone_change (t := t) h.cache hfresh hheads with hch | hload
    · exact .inl hch
    · obtain ⟨address, heads, b, memMap, rfl, hcache⟩ := hload
      exact .inr (.inr ⟨t, env, dev, block, size, address, heads, b, memMap, rfl, hcpu, hpc, hfind,
        hcache⟩)
  | @found dev block size bh k hfind =>
    have hwait : Change (s.raise bh).cache
        (Sys.waitOn t bh (.found dev block size k) (s.raise bh)).cache := Sys.waitOn_change
    obtain ⟨D, h1, h2, h3⟩ := hwait
    exact .inl ⟨D, ⟨h1.ring, h1.ident, h1.hashed⟩, h2, h3⟩
  | @grown dev block size =>
    exact .inl (Sys.growBuffers_change h.cache size env.page fun l hl =>
      ⟨(hfresh l hl).1, fun x hx => ((hfresh l hl).2 x hx).2.1⟩)
  | starved => exact .inl (Change.of_same rfl rfl rfl rfl rfl rfl)
  | picked | reads => exact .inl Sys.waitOn_change
  | behind =>
    rcases Sys.resume_change h hpc with hch | hrec
    · exact .inl hch
    · exact .inr (.inl hrec)
  | released => exact .inl (Sys.release_change h.cache hheads.2)
  | sized | ended | skipped => exact .inl (Change.of_same rfl rfl rfl rfl rfl rfl)
  | waits => exact .inl Sys.waitOn_change

theorem call_change (h : Inv s) {c : Call} :
    Change s.cache (s.call t c).cache ∨ Frees s (.call t c) (s.call t c) := by
  cases c with
  | getblk dev block size | forget r => exact .inl (Change.of_same rfl rfl rfl rfl rfl rfl)
  | brelse r =>
    exact .inl (Sys.release_change
      (s := { s with cpu := some t, own := update s.own t ((s.own t).erase r) })
      (f := .done) h.cache (by simp [Finish.heads]))
  | breadPage address dev b size =>
    left
    unfold Sys.call
    dsimp only
    split <;> exact Change.of_same rfl rfl rfl rfl rfl rfl
  | setBlocksize dev size =>
    left
    unfold Sys.call
    dsimp only
    split
    · exact Change.of_same rfl rfl rfl rfl rfl rfl
    split
    · exact Change.of_same rfl rfl rfl rfl rfl rfl
    split <;> exact Change.of_same rfl rfl rfl rfl rfl rfl
  | tryToFree bh => exact .inr ⟨t, bh, rfl, rfl⟩

/-- **What a step does to the cache.** -/
theorem step_change (h : Inv s) {e : SysEvent ι} (hallowed : SysAllowed s e)
    (hs' : s.step e = some s') :
    Change s.cache s'.cache ∨ Frees s e s' ∨ Recycles s e s' ∨ Loads s e s' := by
  cases Sys.stepped hs' with
  | call =>
    rcases call_change h with hch | hfree
    · exact .inl hch
    · exact .inr (.inl hfree)
  | run hcpu hs' =>
    rcases run_change h hcpu hallowed.1 hs' with hch | hrest
    · exact .inl hch
    · exact .inr (.inr hrest)
  | wake _ hs' => exact .inl (wake_change hs')
  | flags | unmap => exact .inl (Change.of_same rfl rfl rfl rfl rfl rfl)

end Steps

/-! ## The other tasks -/

/-- Only `t` has moved. -/
def Moves [DecidableEq ι] (t : ι) (s s' : Sys ι) : Prop := ∃ p, s'.pc = update s.pc t p

theorem Moves.other [DecidableEq ι] {t u : ι} {s s' : Sys ι} (h : Moves t s s') (hu : u ≠ t) :
    s'.pc u = s.pc u := by
  obtain ⟨p, hp⟩ := h
  rw [hp, update_of_ne hu]

namespace Sys

variable [DecidableEq ι] {s s' : Sys ι} {t : ι} {env : Env}

theorem waitOn_moves {bh : Nat} {k : After} : Moves t s (s.waitOn t bh k) := by
  unfold waitOn
  split
  · exact ⟨_, rfl⟩
  · exact ⟨_, rfl⟩

theorem finish_moves {f : Finish} : Moves t s (s.finish t f) := by
  cases f <;> exact ⟨_, rfl⟩

theorem release_moves {f : Finish} {l : List Nat} : Moves t s (s.release t f l) := by
  cases l with
  | nil => exact finish_moves
  | cons bh l => exact waitOn_moves

theorem checkNext_moves {dev size page address offset : Nat} {acc b : List Nat} :
    Moves t s (s.checkNext t dev size page address offset acc b) := by
  unfold checkNext
  split
  · cases b with
    | nil => exact release_moves
    | cons block b =>
      dsimp only
      split
      · exact release_moves
      · exact ⟨_, rfl⟩
  · exact ⟨_, rfl⟩

theorem loadNext_moves {dev size address : Nat} {heads b rest : List Nat} :
    Moves t s (s.loadNext t dev size address heads b rest) := by
  cases rest with
  | nil => exact ⟨_, rfl⟩
  | cons block rest =>
    by_cases hblock : block = 0
    · rw [loadNext, if_pos hblock]
      exact finish_moves
    · rw [loadNext, if_neg hblock]
      exact ⟨_, rfl⟩

theorem answer_moves {dev block size : Nat} {r : Option Nat} {k : Search} :
    Moves t s (s.answer t env dev block size r k) := by
  cases k with
  | getblk =>
    cases r with
    | none => exact ⟨_, rfl⟩
    | some bh => exact ⟨_, rfl⟩
  | share address b =>
    unfold answer
    dsimp only
    split
    · split
      · exact release_moves
      · obtain ⟨p, hp⟩ := checkNext_moves (t := t) (s := { s with cache := _ })
        exact ⟨p, hp⟩
    · split
      · exact ⟨_, rfl⟩
      split
      · obtain ⟨p, hp⟩ := loadNext_moves (t := t) (s := { s with cache := _ })
        exact ⟨p, hp⟩
      · exact ⟨_, rfl⟩
  | check page address offset acc b =>
    unfold answer
    dsimp only
    split
    · split
      · exact release_moves
      · exact checkNext_moves
    · exact release_moves
  | load address heads b rest =>
    unfold answer
    dsimp only
    split
    · exact release_moves
    · exact loadNext_moves

theorem resume_moves {bh : Nat} {k : After} : Moves t s (s.resume t env bh k) := by
  cases k with
  | found dev block size k =>
    unfold resume
    dsimp only
    split
    · exact answer_moves
    · exact ⟨_, rfl⟩
  | victim dev block size =>
    unfold resume
    dsimp only
    split
    · exact ⟨_, rfl⟩
    split
    · exact ⟨_, rfl⟩
    split
    · exact ⟨_, rfl⟩
    · exact ⟨_, rfl⟩
  | unhash dev size i bhnext => exact ⟨_, rfl⟩
  | read todo all f => exact ⟨_, rfl⟩
  | release l f =>
    obtain ⟨p, hp⟩ := release_moves (t := t) (s := s.drop bh) (f := f) (l := l)
    exact ⟨p, hp⟩

theorem run_moves (hs' : s.run t env = some s') : Moves t s s' := by
  have hran := ran hs'
  generalize s.pc t = p at hran
  cases hran with
  | missed => exact answer_moves
  | @found dev block size bh k =>
    obtain ⟨p, hp⟩ := waitOn_moves (t := t) (s := s.raise bh)
    exact ⟨p, hp⟩
  | picked => exact waitOn_moves
  | behind => exact resume_moves
  | released => exact release_moves
  | reads | waits => exact waitOn_moves
  | _ => exact ⟨_, rfl⟩

theorem wake_moves (hs' : s.wake t env = some s') : Moves t s s' := by
  have hwoke := woke hs'
  generalize s.pc t = p at hwoke
  cases hwoke <;> exact ⟨_, rfl⟩

theorem call_moves {c : Call} : Moves t s (s.call t c) := by
  have hsame : ∀ s' : Sys ι, s'.pc = s.pc → Moves t s s' := fun s' h =>
    ⟨s.pc t, by rw [h, update_eq_self]⟩
  cases c with
  | getblk dev block size => exact ⟨_, rfl⟩
  | brelse r =>
    obtain ⟨p, hp⟩ := release_moves (t := t) (f := .done) (l := [r.bh])
      (s := { s with cpu := some t, own := update s.own t ((s.own t).erase r) })
    exact ⟨p, hp⟩
  | forget r => exact hsame _ rfl
  | breadPage address dev b size =>
    unfold call
    dsimp only
    split
    · exact hsame _ rfl
    · exact ⟨_, rfl⟩
  | setBlocksize dev size =>
    unfold call
    dsimp only
    split
    · exact hsame _ rfl
    split
    · exact hsame _ rfl
    split
    · exact hsame _ rfl
    · exact ⟨_, rfl⟩
  | tryToFree bh => exact hsame _ rfl

end Sys

/-! ## The promises can be checked -/

section Decide

variable [DecidableEq ι] [Fintype ι]

instance (s : Sys ι) (heads : List Nat) : Decidable (FreshUnused s heads) :=
  inferInstanceAs (Decidable (_ ∧ ∀ x ∈ heads, _ ∧ _ ∧ ∀ t, x ∉ (s.pc t).heads))

instance (s : Sys ι) (page : Nat) : Decidable (Unbuffered s page) :=
  inferInstanceAs (Decidable (_ ∧ ∀ x ∈ s.cache.ring, mapNr (s.cache.data x) ≠ mapNr page))

instance (s : Sys ι) (t : ι) (address : Nat) : Decidable (Private s t address) :=
  inferInstanceAs (Decidable (_ ∧ _ ∧ _ ∧ ∀ u, u ≠ t → (s.pc u).hold ≠ some (mapNr address)))

instance (s : Sys ι) : ∀ e, Decidable (SysAllowed s e)
  | .call _ (.getblk dev _ size) => inferInstanceAs (Decidable (size = s.cache.blockSize dev))
  | .call t (.brelse r) => inferInstanceAs (Decidable (r ∈ s.own t))
  | .call t (.forget r) => inferInstanceAs (Decidable (r ∈ s.own t))
  | .call _ (.breadPage _ dev b size) =>
    inferInstanceAs (Decidable (size = s.cache.blockSize dev ∧ b.length * size = pageSize))
  | .call _ (.setBlocksize dev size) =>
    inferInstanceAs (Decidable (dev ≠ 0 ∧ size ∈ [512, 1024, 2048, 4096]))
  | .call _ (.tryToFree bh) => inferInstanceAs (Decidable (bh ∈ s.cache.ring))
  | .run t env =>
    inferInstanceAs (Decidable ((∀ heads ∈ env.heads, FreshUnused s heads) ∧
      Unbuffered s env.page ∧ s.cache.memMap (mapNr env.page) = 0 ∧
      ∀ address ∈ (s.pc t).address, Private s t address))
  | .wake _ env => inferInstanceAs (Decidable (∀ bh ∈ env.pick, bh ∈ s.cache.ring))
  | .unlock _ _ => inferInstanceAs (Decidable True)
  | .lock bh => inferInstanceAs (Decidable (bh ∈ s.cache.ring))
  | .dirty bh => inferInstanceAs (Decidable (bh ∈ s.cache.ring))
  | .unmap _ => inferInstanceAs (Decidable True)

end Decide

/-- What a step finds: a page, heads, and whether `getblk` grows the cache. -/
def Env.of (page : Nat) (heads : Option (List Nat)) (grow : Bool) : Env :=
  ⟨page, heads, grow, false, none, 0⟩

/-- A step that needs nothing. -/
def Env.quiet : Env := Env.of 0 none false

end LinuxEvocation.Fs.Buffer
