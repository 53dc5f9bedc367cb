import LinuxEvocation.Fs.Buffer.Change

/-!
# One buffer for each block

`getblk` looks for its block once more before it inserts a buffer, and `try_to_load_aligned` does
not sleep between its search and its insertions, so no second buffer for a block gets into the hash
queues as long as the search sees the first one.  It does not see a buffer of another size: while
`set_blocksize` sleeps, buffers of the old size are hashed and looked past.

* `KeepsIdentity` — a buffer in use keeps its block; `Inv.keepsIdentity` — in every step.
* `UniqueInv` — the invariant, kept by every step in which no search meets the wrong block size.
* `buffers_unique_of_reach` — uniqueness and identity in every state of such a run.
* `references_counted` — no reference dangles, in any run.
* `buffer_twice` — the run in which `set_blocksize` sleeps.
-/

namespace LinuxEvocation.Fs.Buffer

open Function (update update_self)
open LinuxEvocation.Mm Transition

variable {ι : Type}

/-! ## Identity -/

/-- A buffer in use stays in the cache and keeps its identity. -/
def KeepsIdentity (c c' : Cache) : Prop :=
  ∀ x ∈ c.ring, 0 < c.count x → x ∈ c'.ring ∧ c'.ident x = c.ident x

variable {c : Cache}

theorem Effect.keepsIdentity {c' : Cache} {D : Nat → Prop} (h : Effect c c' D)
    (hfree : ∀ x, D x → x ∉ c.ring ∨ c.count x = 0) : KeepsIdentity c c' := by
  intro x hx hpos
  have hD : ¬ D x := by
    intro hD
    rcases hfree x hD with hoff | hzero
    · exact hoff hx
    · exact absurd hzero hpos.ne'
  exact ⟨(h.ring x hD).2 hx, h.ident x hD⟩

theorem zip_heads_off {heads b : List Nat} (h : heads.Nodup ∧ ∀ x ∈ heads, x ∉ c.ring) :
    ((heads.zip b).map Prod.fst).Nodup ∧ ∀ x ∈ (heads.zip b).map Prod.fst, x ∉ c.ring :=
  ⟨h.1.sublist (zip_fst_sublist heads b),
    fun x hx => h.2 x ((zip_fst_sublist heads b).subset hx)⟩

section Identity

variable [DecidableEq ι] [Fintype ι] {s s' : Sys ι} {e : SysEvent ι}

theorem Inv.keepsIdentity (h : Inv s) (hallowed : SysAllowed s e) (hs' : s.step e = some s') :
    KeepsIdentity s.cache s'.cache := by
  rcases step_change h hallowed hs' with hch | hfree | hrec | hload
  · obtain ⟨D, heff, hoff, -⟩ := hch
    exact heff.keepsIdentity fun x hx => .inl (hoff x hx)
  · obtain ⟨t, bh, -, hcache⟩ := hfree
    rw [hcache]
    rcases tryToFree_effect h.cache bh with heq | ⟨hzero, -, heff, -⟩
    · rw [heq]
      exact fun x hx _ => ⟨hx, rfl⟩
    · exact heff.keepsIdentity fun x hx => .inr (hzero x hx)
  · obtain ⟨t, env, bh, dev, block, size, -, -, hbh, hzero, -, -, -, hcache⟩ := hrec
    rw [hcache]
    exact (reassign_effect hbh dev block).keepsIdentity fun x hx => .inr (hx ▸ hzero)
  · obtain ⟨t, env, dev, block, size, address, heads, b, memMap, -, -, hpc, -, hcache⟩ := hload
    have hheads := h.heads t
    rw [hpc] at hheads
    obtain ⟨hnodup, hoff⟩ := zip_heads_off (b := b) hheads
    obtain ⟨-, heff, -⟩ := insertAll_effect dev h.cache hnodup hoff
    rw [hcache]
    exact (heff.memMap memMap).keepsIdentity fun x hx => .inl (hoff x hx)

end Identity

/-! ## Uniqueness -/

/-- At most one hashed buffer for a block. -/
def Unique (c : Cache) : Prop :=
  ∀ x y, c.Hashed x → c.Hashed y → c.dev x = c.dev y → c.blocknr x = c.blocknr y → x = y

/-- No hashed buffer for the block. -/
def Absent (c : Cache) (dev block : Nat) : Prop :=
  ∀ x, c.Hashed x → ¬ (c.dev x = dev ∧ c.blocknr x = block)

/-- `find_buffer` meets the block, with another size. -/
def WrongSize (c : Cache) (dev block size : Nat) : Prop :=
  ∃ x ∈ c.queue (hashfn dev block), c.dev x = dev ∧ c.blocknr x = block ∧ c.size x ≠ size

variable {dev block : Nat}

theorem findBuffer_absent {size : Nat}
    (hfind : c.findBuffer dev block size = none) (hsize : ¬ WrongSize c dev block size) :
    Absent c dev block := by
  intro x hx htest
  have hmem : x ∈ c.queue (hashfn dev block) := by
    rw [← htest.1, ← htest.2]
    exact hx
  rcases findBuffer_none hfind with hwrong | hnone
  · exact hsize hwrong
  · exact hnone x hmem htest

/-- Buffers that are hashed afterwards were hashed before, with the same identity. -/
theorem Unique.of_effect {c' : Cache} {D : Nat → Prop} (h : Unique c) (heff : Effect c c' D)
    (hD : ∀ x, D x → ¬ c'.Hashed x) : Unique c' := by
  intro x y hx hy hdev hblocknr
  have hnx : ¬ D x := fun hd => hD x hd hx
  have hny : ¬ D y := fun hd => hD y hd hy
  rw [heff.dev_eq hnx, heff.dev_eq hny] at hdev
  rw [heff.blocknr_eq hnx, heff.blocknr_eq hny] at hblocknr
  exact h x y (heff.hashed x hnx hx) (heff.hashed y hny hy) hdev hblocknr

/-- One buffer gets a block that is not in the cache. -/
theorem Unique.of_one {c' : Cache} {bh : Nat} (h : Unique c)
    (heff : Effect c c' (· = bh)) (hdev : c'.dev bh = dev) (hblocknr : c'.blocknr bh = block)
    (habsent : Absent c dev block) : Unique c' := by
  have hother : ∀ y, y ≠ bh → c'.Hashed y → ¬ (c'.dev y = dev ∧ c'.blocknr y = block) := by
    intro y hy hh htest
    rw [heff.dev_eq hy, heff.blocknr_eq hy] at htest
    exact habsent y (heff.hashed y hy hh) htest
  intro x y hx hy hd hb
  by_cases hxbh : x = bh
  · by_cases hybh : y = bh
    · rw [hxbh, hybh]
    · rw [hxbh, hdev] at hd
      rw [hxbh, hblocknr] at hb
      exact absurd ⟨hd.symm, hb.symm⟩ (hother y hybh hy)
  · by_cases hybh : y = bh
    · rw [hybh, hdev] at hd
      rw [hybh, hblocknr] at hb
      exact absurd ⟨hd, hb⟩ (hother x hxbh hx)
    · rw [heff.dev_eq hxbh, heff.dev_eq hybh] at hd
      rw [heff.blocknr_eq hxbh, heff.blocknr_eq hybh] at hb
      exact h x y (heff.hashed x hxbh hx) (heff.hashed y hybh hy) hd hb

/-- **The second loop of `try_to_load_aligned`** with blocks that are not in the cache. -/
theorem Unique.insertAll (dev : Nat) {l : List (Nat × Nat)} (h : Unique c)
    (hblocks : (l.map Prod.snd).Nodup) (habsent : ∀ p ∈ l, Absent c dev p.2) :
    Unique (c.insertAll dev l) := by
  induction l generalizing c with
  | nil => exact h
  | cons p l ih =>
    obtain ⟨bh, block⟩ := p
    rw [List.map_cons, List.nodup_cons] at hblocks
    have heff := withBlock_effect (c := c) bh dev block
    have hdev : ((withBlock bh dev block c).insertIntoQueues bh).dev bh = dev :=
      update_self _ _ _
    have hblocknr : ((withBlock bh dev block c).insertIntoQueues bh).blocknr bh = block :=
      update_self _ _ _
    rw [insertAll_cons]
    refine ih (h.of_one heff hdev hblocknr (habsent _ List.mem_cons_self)) hblocks.2 fun q hq => ?_
    -- the block just inserted is another one
    intro x hx htest
    by_cases hxbh : x = bh
    · rw [hxbh, hblocknr] at htest
      exact hblocks.1 (List.mem_map.2 ⟨q, hq, htest.2.symm⟩)
    · rw [heff.dev_eq hxbh, heff.blocknr_eq hxbh] at htest
      exact habsent q (List.mem_cons_of_mem _ hq) x (heff.hashed x hxbh hx) htest

/-! ## The invariant -/

/-- The blocks of a page: the holes apart, no block twice. -/
def Distinct (b : List Nat) : Prop := (b.filter (· ≠ 0)).Nodup

/-- What the first loop of `try_to_load_aligned` knows of the blocks it has looked for. -/
def LoadOk (c : Cache) : Pc → Prop
  | .search _ _ _ (.share _ b) => Distinct b
  | .search dev block _ (.load _ _ b rest) =>
    Distinct b ∧ ∃ dn, b = dn ++ block :: rest ∧ block ≠ 0 ∧ ∀ y ∈ dn, y ≠ 0 ∧ Absent c dev y
  | _ => True

structure UniqueInv (s : Sys ι) : Prop where
  unique : Unique s.cache
  load : ∀ t, LoadOk s.cache (s.pc t)

/-- The block that a task looks for in its next step. -/
def Pc.looksFor : Pc → Option (Nat × Nat × Nat)
  | .search dev block size _ => some (dev, block, size)
  | .after _ (.victim dev block size) => some (dev, block, size)
  | _ => none

/-- The blocks of a page that a task asks for. -/
def Call.blocks : Call → List Nat
  | .breadPage _ _ b _ => b
  | _ => []

/-- No search meets the wrong block size, and the blocks of a page are distinct. -/
def SameSize (s : Sys ι) : SysEvent ι → Prop
  | .run t _ => ∀ p ∈ (s.pc t).looksFor, ¬ WrongSize s.cache p.1 p.2.1 p.2.2
  | .call _ c => Distinct c.blocks
  | .wake _ _ => True
  | .unlock _ _ => True
  | .lock _ => True
  | .dirty _ => True
  | .unmap _ => True

theorem loadOk_of_asleep {p : Pc} (h : p.asleep = true) : LoadOk c p := by
  cases p with
  | search dev block size k => exact absurd h (by simp [Pc.asleep])
  | _ => trivial

/-- The task is not in the search of `try_to_share_buffers` or `try_to_load_aligned`. -/
def Plain (p : Pc) : Prop := ∀ c, LoadOk c p

namespace Sys

variable [DecidableEq ι] {s : Sys ι} {t : ι}

theorem waitOn_plain {bh : Nat} {k : After} : Plain ((s.waitOn t bh k).pc t) := by
  intro c
  unfold waitOn
  split
  · show LoadOk c (update s.pc t (.wait bh k) t)
    rw [update_self]
    trivial
  · show LoadOk c (update s.pc t (.after bh k) t)
    rw [update_self]
    trivial

theorem finish_plain {f : Finish} : Plain ((s.finish t f).pc t) := by
  intro c
  have hidle : (s.finish t f).pc t = .idle := by
    cases f <;> exact update_self _ _ _
  rw [hidle]
  trivial

theorem release_plain {f : Finish} {l : List Nat} : Plain ((s.release t f l).pc t) := by
  cases l with
  | nil => exact finish_plain
  | cons bh l => exact waitOn_plain

theorem goto_plain {p : Pc} (hp : Plain p) : Plain ((s.goto t p).pc t) := by
  show Plain (update s.pc t p t)
  rw [update_self]
  exact hp

theorem block_plain {p : Pc} (hp : Plain p) : Plain ((s.block t p).pc t) := by
  show Plain (update s.pc t p t)
  rw [update_self]
  exact hp

theorem checkNext_plain {dev size page address offset : Nat} {acc b : List Nat} :
    Plain ((s.checkNext t dev size page address offset acc b).pc t) := by
  unfold checkNext
  split
  · cases b with
    | nil => exact release_plain
    | cons block b =>
      dsimp only
      split
      · exact release_plain
      · exact goto_plain fun _ => trivial
  · exact block_plain fun _ => trivial

theorem answerSome_plain {env : Env} {bh dev block size : Nat} {k : Search} :
    Plain ((s.answer t env dev block size (some bh) k).pc t) := by
  cases k with
  | getblk => exact block_plain fun _ => trivial
  | share address b | check page address offset acc b =>
    unfold answer
    dsimp only
    split
    · exact release_plain
    · exact checkNext_plain
  | load address heads b rest => exact release_plain

theorem resume_plain {env : Env} {bh : Nat} {k : After}
    (hok : AfterOk s.cache bh k) : Plain ((s.resume t env bh k).pc t) := by
  cases k with
  | found dev block size k =>
    have hright : s.cache.dev bh = dev ∧ s.cache.blocknr bh = block ∧ s.cache.size bh = size := hok
    unfold resume
    dsimp only
    rw [if_pos hright]
    exact answerSome_plain
  | victim dev block size =>
    unfold resume
    dsimp only
    split
    · exact goto_plain fun _ => trivial
    split
    · exact block_plain fun _ => trivial
    split
    · exact goto_plain fun _ => trivial
    · exact block_plain fun _ => trivial
  | unhash dev size i bhnext | read todo all f => exact goto_plain fun _ => trivial
  | release l f => exact release_plain

/-- **The first loop of `try_to_load_aligned`.**  The blocks in `dn` have been looked for. -/
theorem loadNext_loadOk {dev size address : Nat} {heads b rest : List Nat} (dn : List Nat)
    (hdistinct : Distinct b) (hb : b = dn ++ rest)
    (hdn : ∀ y ∈ dn, y ≠ 0 ∧ Absent s.cache dev y) :
    LoadOk (s.loadNext t dev size address heads b rest).cache
      ((s.loadNext t dev size address heads b rest).pc t) := by
  cases rest with
  | nil =>
    have hplain : Plain ((s.loadNext t dev size address heads b []).pc t) :=
      block_plain fun _ => trivial
    exact hplain _
  | cons block rest =>
    by_cases hblock : block = 0
    · rw [loadNext, if_pos hblock]
      exact finish_plain _
    · rw [loadNext, if_neg hblock]
      show LoadOk s.cache (update s.pc t _ t)
      rw [update_self]
      exact ⟨hdistinct, dn, hb, hblock, hdn⟩

end Sys

theorem zip_snd_sublist (heads b : List Nat) : ((heads.zip b).map Prod.snd).Sublist b := by
  induction heads generalizing b with
  | nil => exact List.nil_sublist b
  | cons x heads ih =>
    cases b with
    | nil => exact List.Sublist.refl _
    | cons y b => exact (ih b).cons_cons y

theorem SameSize.search {s : Sys ι} {t : ι} {env : Env} (h : SameSize s (.run t env))
    {size : Nat} {k : Search} (hpc : s.pc t = .search dev block size k) :
    ¬ WrongSize s.cache dev block size := by
  refine h (dev, block, size) ?_
  rw [hpc]
  exact rfl

theorem SameSize.victim {s : Sys ι} {t : ι} {env : Env} (h : SameSize s (.run t env))
    {bh size : Nat} (hpc : s.pc t = .after bh (.victim dev block size)) :
    ¬ WrongSize s.cache dev block size := by
  refine h (dev, block, size) ?_
  rw [hpc]
  exact rfl


section Loads

variable [DecidableEq ι] {s s' : Sys ι} {t : ι} {env : Env}

theorem wake_loadOk (hs' : s.wake t env = some s') : LoadOk s'.cache (s'.pc t) := by
  have hwoke := Sys.woke hs'
  generalize s.pc t = p at hwoke
  cases hwoke <;> exact Sys.goto_plain (by intro _; trivial) _

theorem call_loadOk (hpc : s.pc t = .idle) {c : Call} (hsize : SameSize s (.call t c)) :
    LoadOk (s.call t c).cache ((s.call t c).pc t) := by
  have hidle : ∀ s' : Sys ι, s'.pc = s.pc → LoadOk s'.cache (s'.pc t) := by
    intro s' h
    rw [h, hpc]
    trivial
  cases c with
  | getblk dev block size => exact Sys.goto_plain (by intro _; trivial) _
  | brelse r => exact Sys.release_plain _
  | forget r => exact hidle _ rfl
  | breadPage address dev b size =>
    have hdistinct : Distinct b := hsize
    unfold Sys.call
    dsimp only
    split
    · exact hidle _ rfl
    · show LoadOk _ (update s.pc t _ t)
      rw [update_self]
      exact hdistinct
  | setBlocksize dev size =>
    unfold Sys.call
    dsimp only
    split
    · exact hidle _ rfl
    split
    · exact hidle _ rfl
    split
    · exact hidle _ rfl
    · exact Sys.goto_plain (by intro _; trivial) _
  | tryToFree bh => exact hidle _ rfl

end Loads

section Steps

variable [DecidableEq ι] [Fintype ι] {s s' : Sys ι} {t : ι} {env : Env} {e : SysEvent ι}

theorem run_loadOk (h : Inv s) (hu : UniqueInv s) (hsize : SameSize s (.run t env))
    (hs' : s.run t env = some s') : LoadOk s'.cache (s'.pc t) := by
  have hload := hu.load t
  have hok := h.pcs t
  have hran := Sys.ran hs'
  generalize hpc : s.pc t = p at hload hok hran
  cases hran with
  | found | picked | reads | waits => exact Sys.waitOn_plain _
  | @missed dev block size k hfind =>
    cases k with
    | getblk => exact Sys.goto_plain (by intro _; trivial) _
    | share address b =>
      unfold Sys.answer
      dsimp only
      cases env.heads with
      | none => exact Sys.block_plain (by intro _; trivial) _
      | some heads =>
        dsimp only
        split
        · exact Sys.loadNext_loadOk [] hload rfl (by simp)
        · exact Sys.block_plain (by intro _; trivial) _
    | check page address offset acc b => exact Sys.release_plain _
    | load address heads b rest =>
      obtain ⟨hdistinct, dn, hb, hblock, hdn⟩ := hload
      refine Sys.loadNext_loadOk (dn ++ [block]) hdistinct (by simpa using hb) ?_
      intro y hy
      rcases List.mem_append.1 hy with hy | hy
      · exact hdn y hy
      · rw [List.mem_singleton.1 hy]
        exact ⟨hblock, findBuffer_absent hfind (hsize.search hpc)⟩
  | grown | sized | skipped => exact Sys.goto_plain (by intro _; trivial) _
  | starved | ended => exact Sys.block_plain (by intro _; trivial) _
  | behind => exact Sys.resume_plain hok.1 _
  | released => exact Sys.release_plain _

/-- **A step that meets no wrong block size makes no second buffer for a block.** -/
theorem UniqueInv.unique_step (hu : UniqueInv s) (h : Inv s) (hallowed : SysAllowed s e)
    (hsize : SameSize s e) (hs' : s.step e = some s') : Unique s'.cache := by
  rcases step_change h hallowed hs' with hch | hfree | hrec | hload
  · obtain ⟨D, heff, -, hnot⟩ := hch
    exact hu.unique.of_effect heff hnot
  · obtain ⟨t, bh, -, hcache⟩ := hfree
    rw [hcache]
    rcases tryToFree_effect h.cache bh with heq | ⟨-, hok, heff, hring, -⟩
    · rw [heq]
      exact hu.unique
    · refine hu.unique.of_effect heff fun x hx => hok.not_hashed ?_
      exact fun hmem => ((hring x).1 hmem).2 hx
  · obtain ⟨t, env, bh, dev, block, size, rfl, hpc, hbh, -, -, -, hfind, hcache⟩ := hrec
    have hident := reassign_ident s.cache bh dev block
    rw [hcache]
    exact hu.unique.of_one (reassign_effect hbh dev block) (congrArg Prod.fst hident)
      (congrArg (fun p => p.2.1) hident) (findBuffer_absent hfind (hsize.victim hpc))
  · obtain ⟨t, env, dev, block, size, address, heads, b, memMap, rfl, -, hpc, hfind, hcache⟩ := hload
    have hload := hu.load t
    rw [hpc] at hload
    obtain ⟨hdistinct, dn, hb, hblock, hdn⟩ := hload
    have habsent : ∀ y ∈ b, y ≠ 0 ∧ Absent s.cache dev y := by
      intro y hy
      rw [hb, List.mem_append, List.mem_singleton] at hy
      rcases hy with hy | rfl
      · exact hdn y hy
      · exact ⟨hblock, findBuffer_absent hfind (hsize.search hpc)⟩
    have hnodup : b.Nodup := by
      rw [Distinct, List.filter_eq_self.2 fun y hy => by simpa using (habsent y hy).1] at hdistinct
      exact hdistinct
    have hins := hu.unique.insertAll dev (l := heads.zip b)
      (hnodup.sublist (zip_snd_sublist heads b)) fun p hp => (habsent p.2 (List.of_mem_zip hp).2).2
    rw [hcache]
    exact hins

/-- **Every step that meets no wrong block size keeps the invariant.** -/
theorem UniqueInv.step (hu : UniqueInv s) (h : Inv s) (hallowed : SysAllowed s e)
    (hsize : SameSize s e) (hs' : s.step e = some s') : UniqueInv s' := by
  -- while a task moves the others sleep
  have hmoves : ∀ {t : ι} {s' : Sys ι}, Moves t s s' → (∀ u, u ≠ t → s.cpu ≠ some u) →
      LoadOk s'.cache (s'.pc t) → ∀ u, LoadOk s'.cache (s'.pc u) := by
    intro t s' hm hcpu ht u
    by_cases hut : u = t
    · rw [hut]
      exact ht
    · rw [hm.other hut]
      exact loadOk_of_asleep ((h.asleep u).resolve_left (hcpu u hut))
  have hnobody : s.cpu = none → ∀ u : ι, s.cpu ≠ some u := fun hcpu u => by
    rw [hcpu]
    simp
  refine ⟨hu.unique_step h hallowed hsize hs', ?_⟩
  cases Sys.stepped hs' with
  | call hcpu hpc => exact hmoves Sys.call_moves (fun u _ => hnobody hcpu u) (call_loadOk hpc hsize)
  | run hcpu hs' =>
    refine hmoves (Sys.run_moves hs') (fun u hu => ?_) (run_loadOk h hu hsize hs')
    rw [hcpu]
    exact fun heq => hu (Option.some.inj heq).symm
  | wake hcpu hs' => exact hmoves (Sys.wake_moves hs') (fun u _ => hnobody hcpu u) (wake_loadOk hs')
  | flags => exact hu.load
  | unmap => exact hu.load

end Steps

/-! ## Whole runs -/


instance (c : Cache) (dev block size : Nat) : Decidable (WrongSize c dev block size) :=
  inferInstanceAs (Decidable (∃ x ∈ c.queue (hashfn dev block), _ ∧ _ ∧ _))

instance (b : List Nat) : Decidable (Distinct b) := inferInstanceAs (Decidable (List.Nodup _))

instance (s : Sys ι) : ∀ e, Decidable (SameSize s e)
  | .run t _ =>
    inferInstanceAs (Decidable (∀ p ∈ (s.pc t).looksFor, ¬ WrongSize s.cache p.1 p.2.1 p.2.2))
  | .call _ c => inferInstanceAs (Decidable (Distinct c.blocks))
  | .wake _ _ => inferInstanceAs (Decidable True)
  | .unlock _ _ => inferInstanceAs (Decidable True)
  | .lock _ => inferInstanceAs (Decidable True)
  | .dirty _ => inferInstanceAs (Decidable True)
  | .unmap _ => inferInstanceAs (Decidable True)

/-- **One buffer for each block**, in every state of a run in which no search meets the wrong block
size; the buffers that the tasks have got are the right ones and stay so while they are in use. -/
theorem buffers_unique_of_reach [DecidableEq ι] [Fintype ι] {hasBlksize : Nat → Bool}
    {blksize memMap : Nat → Nat} {s : Sys ι}
    (h : Reach Sys.step (fun s e => SysAllowed s e ∧ SameSize s e)
      (Sys.init hasBlksize blksize memMap) s) :
    Unique s.cache ∧
      (∀ t, ∀ r ∈ s.own t, r.bh ∈ s.cache.ring ∧ 0 < s.cache.count r.bh ∧
        Right s.cache r.bh r.dev r.block r.size) ∧
      (∀ t bh dev block size k, s.pc t = .after bh (.found dev block size k) →
        bh ∈ s.cache.ring ∧ Right s.cache bh dev block size) ∧
      ∀ e s', SysAllowed s e → s.step e = some s' → KeepsIdentity s.cache s'.cache := by
  have hinv : Inv s ∧ UniqueInv s := by
    have hinit : UniqueInv (Sys.init hasBlksize blksize memMap : Sys ι) := by
      refine ⟨fun x y hx => ?_, fun _ => trivial⟩
      exact absurd hx (by simp [Cache.Hashed, Sys.init])
    refine h.invariant (I := fun s => Inv s ∧ UniqueInv s)
      ⟨Inv.init hasBlksize blksize memMap, hinit⟩ ?_
    rintro s e s' ⟨hi, hu⟩ ⟨hallowed, hsize⟩ hs'
    exact ⟨hi.step hallowed hs', hu.step hi hallowed hsize hs'⟩
  obtain ⟨hi, hu⟩ := hinv
  refine ⟨hu.unique, fun t r hr => ?_, fun t bh dev block size k hpc => ?_,
    fun e s' hallowed hs' => hi.keepsIdentity hallowed hs'⟩
  · have hmem : r.bh ∈ refsOf s t := List.mem_append_right _ (List.mem_map_of_mem hr)
    exact ⟨hi.alive t _ hmem, hi.count_pos hmem, hi.own t r hr⟩
  · have hok := hi.pcs t
    rw [hpc] at hok
    exact ⟨hok.2, hok.1⟩

/-! ### A run with two block sizes -/

section ThreeTasks

local instance threeTasks : NeZero 3 := ⟨by decide⟩

/-- Task 1 gets blocks 6 and 5 of device 3 with the size 1024. -/
def getTwo : List (SysEvent (Fin 3)) :=
  [.call 1 (.getblk 3 6 1024), .run 1 (.of 4096 (some [1, 2, 3, 4]) true), .run 1 .quiet,
    .run 1 .quiet, .call 1 (.getblk 3 5 1024), .run 1 .quiet, .run 1 .quiet, .run 1 .quiet]

/-- `set_blocksize` sleeps on the first of them, the size of the device already set, and task 2
asks for block 5 with that size. -/
def getTwice : List (SysEvent (Fin 3)) :=
  getTwo ++ ([.call 0 (.setBlocksize 3 512), .lock 4, .wake 0 .quiet, .run 0 .quiet, .run 0 .quiet,
    .run 0 .quiet, .run 0 .quiet, .call 2 (.getblk 3 5 512),
    .run 2 (.of 8192 (some [5, 6, 7, 8, 9, 10, 11, 12]) true), .run 2 .quiet, .run 2 .quiet]
    : List (SysEvent (Fin 3)))

end ThreeTasks

/-- Every device has a table of block sizes, with no size set. -/
def startUnset : Sys (Fin 3) := Sys.init (fun _ => true) (fun _ => 0) fun _ => 0

theorem buffers_unique_getTwo :
    ∃ s, execOkFrom Sys.step (fun s e => decide (SysAllowed s e ∧ SameSize s e)) startUnset getTwo =
      some s ∧ s.own 1 = [⟨3, 3, 5, 1024⟩, ⟨4, 3, 6, 1024⟩] ∧ Unique s.cache ∧
      Right s.cache 3 3 5 1024 := by
  have hmap : (execOkFrom Sys.step (fun s e => decide (SysAllowed s e ∧ SameSize s e)) startUnset
      getTwo).map (fun s => s.own 1) = some [⟨3, 3, 5, 1024⟩, ⟨4, 3, 6, 1024⟩] := by
    decide +kernel
  obtain ⟨s, hs, hown⟩ := Option.map_eq_some_iff.1 hmap
  have hreach : Reach Sys.step (fun s e => SysAllowed s e ∧ SameSize s e) startUnset s :=
    Reach.of_execOkFrom (fun s e h => of_decide_eq_true h) .init hs
  obtain ⟨hunique, hright, -⟩ := buffers_unique_of_reach hreach
  have hmem : (⟨3, 3, 5, 1024⟩ : Ref) ∈ s.own 1 := by
    rw [hown]
    exact List.mem_cons_self
  exact ⟨s, hs, hown, hunique, (hright 1 _ hmem).2.2⟩

/-- **While `set_blocksize` sleeps, a second buffer for a block is made.** -/
theorem buffer_twice :
    ∃ s, Reach Sys.step SysAllowed startUnset s ∧ s.cache.queue (hashfn 3 5) = [12, 3] ∧
      ¬ Unique s.cache := by
  have hmap : (execOkFrom Sys.step (fun s e => decide (SysAllowed s e)) startUnset getTwice).map
      (fun s => (s.cache.queue (hashfn 3 5), [12, 3].map s.cache.dev, [12, 3].map s.cache.blocknr)) =
      some ([12, 3], [3, 3], [5, 5]) := by
    decide +kernel
  obtain ⟨s, hs, hq⟩ := Option.map_eq_some_iff.1 hmap
  have hreach : Reach Sys.step SysAllowed startUnset s :=
    Reach.of_execOkFrom (fun s e h => of_decide_eq_true h) .init hs
  simp only [Prod.mk.injEq, List.map_cons, List.map_nil, List.cons.injEq, and_true] at hq
  obtain ⟨hqueue, ⟨hdev, hdev'⟩, hblock, hblock'⟩ := hq
  refine ⟨s, hreach, hqueue, fun hunique => ?_⟩
  have h12 : s.cache.Hashed 12 := by
    rw [Cache.Hashed, Cache.hash, hdev, hblock, hqueue]
    simp
  have h3 : s.cache.Hashed 3 := by
    rw [Cache.Hashed, Cache.hash, hdev', hblock', hqueue]
    simp
  exact absurd (hunique 12 3 h12 h3 (hdev.trans hdev'.symm) (hblock.trans hblock'.symm)) (by decide)

end LinuxEvocation.Fs.Buffer
