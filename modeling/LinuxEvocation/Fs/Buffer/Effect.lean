import LinuxEvocation.Fs.Buffer.Cache

/-!
# What each function does to the cache

A function of the cache changes the identity of a few heads and leaves the others alone: the buffer
that `getblk` recycles, the heads of a new page, the heads of a page that is freed.

* `CacheOk` — the lists of the cache are consistent.
-/

namespace LinuxEvocation.Fs.Buffer

open Function (update update_of_ne update_self)
open LinuxEvocation.Mm

namespace Cache

/-- The block a buffer holds, its size, and where its data are. -/
def ident (c : Cache) (x : Nat) : Nat × Nat × Nat × Nat :=
  (c.dev x, c.blocknr x, c.size x, c.data x)

/-- The buffer is in the hash queue of its block. -/
def Hashed (c : Cache) (x : Nat) : Prop := x ∈ c.queue (c.hash x)

end Cache

/-- The lists of the cache: hashed buffers are in use, and only those in use have a device. -/
structure CacheOk (c : Cache) : Prop where
  nodup : c.ring.Nodup
  queueNodup : ∀ i, (c.queue i).Nodup
  hashed : ∀ i, ∀ x ∈ c.queue i, x ∈ c.ring ∧ c.dev x ≠ 0 ∧ c.hash x = i
  off : ∀ x, x ∉ c.ring → c.dev x = 0

/-- Only the heads in `D` enter or leave the cache, change identity or get hashed. -/
structure Effect (c c' : Cache) (D : Nat → Prop) : Prop where
  ring : ∀ x, ¬ D x → (x ∈ c'.ring ↔ x ∈ c.ring)
  ident : ∀ x, ¬ D x → c'.ident x = c.ident x
  hashed : ∀ x, ¬ D x → c'.Hashed x → c.Hashed x

/-- No head changes. -/
def nobody (_ : Nat) : Prop := False

namespace Effect

variable {c c' c'' : Cache} {D : Nat → Prop}

/-- Functions that leave the lists and the identities alone. -/
theorem of_eq (hring : c'.ring = c.ring) (hqueue : c'.queue = c.queue) (hdev : c'.dev = c.dev)
    (hblocknr : c'.blocknr = c.blocknr) (hsize : c'.size = c.size) (hdata : c'.data = c.data) :
    Effect c c' nobody := by
  refine ⟨fun x _ => by rw [hring], fun x _ => ?_, fun x _ h => ?_⟩
  · rw [Cache.ident, Cache.ident, hdev, hblocknr, hsize, hdata]
  · rw [Cache.Hashed, Cache.hash, hqueue, hdev, hblocknr] at h
    exact h

theorem trans (h : Effect c c' D) (h' : Effect c' c'' D) : Effect c c'' D :=
  ⟨fun x hx => (h'.ring x hx).trans (h.ring x hx), fun x hx => (h'.ident x hx).trans (h.ident x hx),
    fun x hx hh => h.hashed x hx (h'.hashed x hx hh)⟩

theorem mono {D' : Nat → Prop} (h : Effect c c' D) (hD : ∀ x, D x → D' x) : Effect c c' D' :=
  ⟨fun x hx => h.ring x fun hd => hx (hD x hd), fun x hx => h.ident x fun hd => hx (hD x hd),
    fun x hx => h.hashed x fun hd => hx (hD x hd)⟩

theorem memMap (h : Effect c c' D) (memMap : Nat → Nat) :
    Effect c { c' with memMap := memMap } D :=
  ⟨h.ring, h.ident, h.hashed⟩

variable {x : Nat}

theorem dev_eq (h : Effect c c' D) (hx : ¬ D x) : c'.dev x = c.dev x :=
  congrArg Prod.fst (h.ident x hx)

theorem blocknr_eq (h : Effect c c' D) (hx : ¬ D x) : c'.blocknr x = c.blocknr x :=
  congrArg (fun p => p.2.1) (h.ident x hx)

theorem size_eq (h : Effect c c' D) (hx : ¬ D x) : c'.size x = c.size x :=
  congrArg (fun p => p.2.2.1) (h.ident x hx)

theorem data_eq (h : Effect c c' D) (hx : ¬ D x) : c'.data x = c.data x :=
  congrArg (fun p => p.2.2.2) (h.ident x hx)

end Effect

variable {c : Cache}

/-! ## One buffer -/

theorem CacheOk.removeFromHashQueue (h : CacheOk c) (bh : Nat) :
    CacheOk (c.removeFromHashQueue bh) := by
  have hsub : ∀ i x, x ∈ (c.removeFromHashQueue bh).queue i → x ∈ c.queue i := by
    intro i x hx
    rw [Cache.removeFromHashQueue] at hx
    dsimp only at hx
    by_cases hi : i = c.hash bh
    · rw [hi, update_self] at hx
      rw [hi]
      exact List.mem_of_mem_erase hx
    · rw [update_of_ne hi] at hx
      exact hx
  refine ⟨h.nodup, fun i => ?_, fun i x hx => h.hashed i x (hsub i x hx), h.off⟩
  rw [Cache.removeFromHashQueue]
  dsimp only
  by_cases hi : i = c.hash bh
  · rw [hi, update_self]
    exact (h.queueNodup _).erase bh
  · rw [update_of_ne hi]
    exact h.queueNodup i

theorem removeFromHashQueue_effect (bh : Nat) : Effect c (c.removeFromHashQueue bh) nobody := by
  refine ⟨fun x _ => Iff.rfl, fun x _ => rfl, fun x _ hx => ?_⟩
  have hx' : x ∈ update c.queue (c.hash bh) ((c.queue (c.hash bh)).erase bh) (c.hash x) :=
    hx
  by_cases hi : c.hash x = c.hash bh
  · rw [hi, update_self] at hx'
    rw [Cache.Hashed, hi]
    exact List.mem_of_mem_erase hx'
  · rw [update_of_ne hi] at hx'
    exact hx'

/-- A buffer that has left its queue is in none. -/
theorem not_hashed_removeFromHashQueue (h : CacheOk c) (bh : Nat) :
    ∀ i, bh ∉ (c.removeFromHashQueue bh).queue i := by
  intro i hx
  have hx' : bh ∈ update c.queue (c.hash bh) ((c.queue (c.hash bh)).erase bh) i := hx
  by_cases hi : i = c.hash bh
  · rw [hi, update_self] at hx'
    exact (h.queueNodup _).not_mem_erase hx'
  · rw [update_of_ne hi] at hx'
    exact hi (h.hashed i bh hx').2.2.symm

theorem erase_append_perm {l : List Nat} {x : Nat} (hx : x ∈ l) : (l.erase x ++ [x]).Perm l :=
  (List.perm_append_singleton x _).trans (List.perm_cons_erase hx).symm

variable {bh : Nat}

theorem CacheOk.putLastFree (h : CacheOk c) (hbh : bh ∈ c.ring) :
    CacheOk (c.putLastFree bh) := by
  have hperm := erase_append_perm hbh
  refine ⟨hperm.nodup_iff.2 h.nodup, h.queueNodup, fun i x hx => ?_, fun x hx => h.off x ?_⟩
  · obtain ⟨h1, h2⟩ := h.hashed i x hx
    exact ⟨hperm.mem_iff.2 h1, h2⟩
  · exact fun hmem => hx (hperm.mem_iff.2 hmem)

theorem putLastFree_effect (hbh : bh ∈ c.ring) :
    Effect c (c.putLastFree bh) nobody :=
  ⟨fun _ _ => (erase_append_perm hbh).mem_iff, fun _ _ => rfl, fun _ _ hx => hx⟩

/-- **A head enters the cache with its block.** -/
theorem CacheOk.insertIntoQueues (h : CacheOk c) (bh : Nat) {c₁ : Cache} (hbh : bh ∉ c.ring)
    (hring : c₁.ring = c.ring) (hqueue : c₁.queue = c.queue)
    (hdev : ∀ x, x ≠ bh → c₁.dev x = c.dev x) (hblocknr : ∀ x, x ≠ bh → c₁.blocknr x = c.blocknr x) :
    CacheOk (c₁.insertIntoQueues bh) := by
  have hhash : ∀ x, x ≠ bh → c₁.hash x = c.hash x := by
    intro x hx
    rw [Cache.hash, Cache.hash, hdev x hx, hblocknr x hx]
  have hoff : ∀ i, bh ∉ c.queue i := fun i hmem => hbh (h.hashed i bh hmem).1
  have hmem : ∀ i x, x ∈ (c₁.insertIntoQueues bh).queue i →
      (x = bh ∧ c₁.dev bh ≠ 0 ∧ i = c₁.hash bh) ∨ x ∈ c.queue i := by
    intro i x hx
    have hx' : x ∈ (if c₁.dev bh = 0 then c₁.queue
      else update c₁.queue (c₁.hash bh) (bh :: c₁.queue (c₁.hash bh))) i := hx
    split at hx'
    · rw [hqueue] at hx'
      exact .inr hx'
    · rename_i hdev0
      by_cases hi : i = c₁.hash bh
      · rw [hi, update_self, List.mem_cons, hqueue] at hx'
        rw [hi]
        exact hx'.imp_left fun heq => ⟨heq, hdev0, rfl⟩
      · rw [update_of_ne hi, hqueue] at hx'
        exact .inr hx'
  refine ⟨?_, fun i => ?_, fun i x hx => ?_, fun x hx => ?_⟩
  · show (c₁.ring ++ [bh]).Nodup
    rw [hring]
    exact (List.perm_append_singleton bh _).nodup_iff.2 (List.nodup_cons.2 ⟨hbh, h.nodup⟩)
  · show ((if c₁.dev bh = 0 then c₁.queue
      else update c₁.queue (c₁.hash bh) (bh :: c₁.queue (c₁.hash bh))) i).Nodup
    rw [hqueue]
    split
    · exact h.queueNodup i
    · by_cases hi : i = c₁.hash bh
      · rw [hi, update_self]
        exact List.nodup_cons.2 ⟨hoff _, h.queueNodup _⟩
      · rw [update_of_ne hi]
        exact h.queueNodup i
  · show x ∈ c₁.ring ++ [bh] ∧ _
    rw [hring, List.mem_append, List.mem_singleton]
    rcases hmem i x hx with ⟨rfl, hdev0, rfl⟩ | hx
    · exact ⟨.inr rfl, hdev0, rfl⟩
    · have hxbh : x ≠ bh := fun heq => hoff i (heq ▸ hx)
      obtain ⟨h1, h2, h3⟩ := h.hashed i x hx
      refine ⟨.inl h1, ?_, (hhash x hxbh).trans h3⟩
      show c₁.dev x ≠ 0
      rw [hdev x hxbh]
      exact h2
  · have hx' : x ∉ c₁.ring ++ [bh] := hx
    rw [hring, List.mem_append, List.mem_singleton, not_or] at hx'
    show c₁.dev x = 0
    rw [hdev x hx'.2]
    exact h.off x hx'.1

theorem insertIntoQueues_hashed {x i : Nat} (hx : x ≠ bh)
    (hmem : x ∈ (c.insertIntoQueues bh).queue i) : x ∈ c.queue i := by
  have hmem' : x ∈ (if c.dev bh = 0 then c.queue
    else update c.queue (c.hash bh) (bh :: c.queue (c.hash bh))) i := hmem
  split at hmem'
  · exact hmem'
  · by_cases hi : i = c.hash bh
    · rw [hi, update_self] at hmem'
      rw [hi]
      exact (List.mem_cons.1 hmem').resolve_left hx
    · rw [update_of_ne hi] at hmem'
      exact hmem'

/-! ## Several buffers -/

/-- **The buffers of `l` are removed from the queues.** -/
theorem foldl_removeFromQueues {l : List Nat} (hnodup : c.ring.Nodup)
    (hqueue : ∀ i, (c.queue i).Nodup) (hhash : ∀ i, ∀ x ∈ c.queue i, c.hash x = i) :
    let c' := l.foldl (fun c x => c.removeFromQueues x) c
    (c'.ring.Nodup ∧ ∀ x, x ∈ c'.ring ↔ x ∈ c.ring ∧ x ∉ l) ∧
      ((∀ i, (c'.queue i).Nodup) ∧ ∀ i x, x ∈ c'.queue i ↔ x ∈ c.queue i ∧ x ∉ l) ∧
      c' = { c with ring := c'.ring, queue := c'.queue } := by
  induction l generalizing c with
  | nil => simp [hnodup, hqueue]
  | cons y l ih =>
    have hring' : ∀ x, x ∈ (c.removeFromQueues y).ring ↔ x ∈ c.ring ∧ x ≠ y := by
      intro x
      show x ∈ c.ring.erase y ↔ _
      rw [hnodup.mem_erase_iff, and_comm]
    have hqueue' : ∀ i x, x ∈ (c.removeFromQueues y).queue i ↔ x ∈ c.queue i ∧ x ≠ y := by
      intro i x
      show x ∈ update c.queue (c.hash y) ((c.queue (c.hash y)).erase y) i ↔ _
      by_cases hi : i = c.hash y
      · rw [hi, update_self, (hqueue _).mem_erase_iff, and_comm]
      · rw [update_of_ne hi]
        refine ⟨fun hx => ⟨hx, ?_⟩, fun hx => hx.1⟩
        rintro rfl
        exact hi (hhash i x hx).symm
    have hqnodup : ∀ i, ((c.removeFromQueues y).queue i).Nodup := by
      intro i
      show (update c.queue (c.hash y) ((c.queue (c.hash y)).erase y) i).Nodup
      by_cases hi : i = c.hash y
      · rw [hi, update_self]
        exact (hqueue _).erase y
      · rw [update_of_ne hi]
        exact hqueue i
    obtain ⟨⟨h1, h2⟩, ⟨h3, h4⟩, h5⟩ := ih (c := c.removeFromQueues y) (hnodup.erase y) hqnodup
      fun i x hx => hhash i x ((hqueue' i x).1 hx).1
    refine ⟨⟨h1, fun x => ?_⟩, ⟨h3, fun i x => ?_⟩, ?_⟩
    · rw [List.foldl_cons, h2 x, hring' x, List.mem_cons, not_or]
      tauto
    · rw [List.foldl_cons, h4 i x, hqueue' i x, List.mem_cons, not_or]
      tauto
    · rw [List.foldl_cons, h5]
      rfl

/-- **`getblk` recycles a buffer.** -/
theorem CacheOk.reassign (h : CacheOk c) (hbh : bh ∈ c.ring) (dev block : Nat) :
    CacheOk (c.reassign bh dev block) := by
  -- the cache without the buffer
  have hmid : CacheOk { c.removeFromQueues bh with dev := update c.dev bh 0 } := by
    have hun := h.removeFromHashQueue bh
    have hnot := not_hashed_removeFromHashQueue h bh
    refine ⟨h.nodup.erase bh, hun.queueNodup, fun i x hx => ?_, fun x hx => ?_⟩
    · have hxbh : x ≠ bh := by
        rintro rfl
        exact hnot i hx
      obtain ⟨h1, h2, h3⟩ := hun.hashed i x hx
      refine ⟨(List.mem_erase_of_ne hxbh).2 h1, ?_, ?_⟩
      · show update c.dev bh 0 x ≠ 0
        rw [update_of_ne hxbh]
        exact h2
      · show hashfn (update c.dev bh 0 x) _ = i
        rw [update_of_ne hxbh]
        exact h3
    · show update c.dev bh 0 x = 0
      by_cases hxbh : x = bh
      · rw [hxbh, update_self]
      · rw [update_of_ne hxbh]
        exact h.off x fun hmem => hx ((List.mem_erase_of_ne hxbh).2 hmem)
  refine hmid.insertIntoQueues bh h.nodup.not_mem_erase rfl rfl (fun x hx => ?_)
    fun x hx => ?_
  · show update c.dev bh dev x = update c.dev bh 0 x
    rw [update_of_ne hx, update_of_ne hx]
  · exact update_of_ne hx _ _

theorem reassign_ring {dev block : Nat} : (c.reassign bh dev block).ring = c.ring.erase bh ++ [bh] :=
  rfl

theorem reassign_effect (hbh : bh ∈ c.ring) (dev block : Nat) :
    Effect c (c.reassign bh dev block) (· = bh) := by
  refine ⟨fun x _ => ?_, fun x hx => ?_, fun x hx hh => ?_⟩
  · rw [reassign_ring, (erase_append_perm hbh).mem_iff]
  · show (update c.dev bh dev x, update c.blocknr bh block x, _) = _
    rw [update_of_ne hx, update_of_ne hx]
    rfl
  · have hmem := insertIntoQueues_hashed hx hh
    have hhash : (c.reassign bh dev block).hash x = c.hash x := by
      show hashfn (update c.dev bh dev x) (update c.blocknr bh block x) = _
      rw [update_of_ne hx, update_of_ne hx]
      rfl
    rw [Cache.Hashed, ← hhash]
    have hmem' : x ∈ (c.removeFromHashQueue bh).queue ((c.reassign bh dev block).hash x) := hmem
    rw [hhash] at hmem' ⊢
    exact (removeFromHashQueue_effect bh).hashed x (fun hf => hf) hmem'

theorem reassign_ident (c : Cache) (bh dev block : Nat) :
    (c.reassign bh dev block).ident bh = (dev, block, c.size bh, c.data bh) := by
  show (update c.dev bh dev bh, update c.blocknr bh block bh, _) = _
  rw [update_self, update_self]
  rfl

/-! ## Heads outside the cache -/

theorem clear_effect (heads : List Nat) : Effect c (c.clear heads) (· ∈ heads) := by
  refine ⟨fun _ _ => Iff.rfl, fun x hx => ?_, fun x hx hh => ?_⟩
  · simp only [Cache.ident, Cache.clear, if_neg hx]
  · have hhash : (c.clear heads).hash x = c.hash x := by
      simp only [Cache.hash, Cache.clear, if_neg hx]
    rw [Cache.Hashed, hhash] at hh
    exact hh

theorem CacheOk.clear (h : CacheOk c) {heads : List Nat} (hoff : ∀ x ∈ heads, x ∉ c.ring) :
    CacheOk (c.clear heads) := by
  refine ⟨h.nodup, h.queueNodup, fun i x hx => ?_, fun x hx => ?_⟩
  · obtain ⟨h1, h2, h3⟩ := h.hashed i x hx
    have hx' : x ∉ heads := fun hmem => hoff x hmem h1
    refine ⟨h1, ?_, ?_⟩
    · simp only [Cache.clear, if_neg hx']
      exact h2
    · simp only [Cache.hash, Cache.clear, if_neg hx']
      exact h3
  · show (if x ∈ heads then 0 else c.dev x) = 0
    split
    · rfl
    · exact h.off x hx

theorem createBuffers_effect (page size : Nat) (heads : List Nat) :
    Effect c (c.createBuffers page size heads) (· ∈ heads) := by
  refine ⟨fun _ _ => Iff.rfl, fun x hx => ?_, fun x hx hh => (clear_effect heads).hashed x hx hh⟩
  simp only [Cache.ident, Cache.createBuffers, Cache.clear, if_neg hx]

theorem CacheOk.createBuffers (h : CacheOk c) (page size : Nat) {heads : List Nat}
    (hoff : ∀ x ∈ heads, x ∉ c.ring) : CacheOk (c.createBuffers page size heads) := by
  have hclear := h.clear hoff
  exact ⟨hclear.nodup, hclear.queueNodup, hclear.hashed, hclear.off⟩

/-- The heads that `grow_buffers` adds. -/
def grown (size page : Nat) (heads : Option (List Nat)) : List Nat :=
  if size % 512 ≠ 0 ∨ size > pageSize then []
  else if page = 0 then []
  else
    match heads with
    | none => []
    | some heads => if heads.length * size = pageSize then heads else []

/-- **`grow_buffers`** adds heads without a device, or does nothing. -/
theorem growBuffers_eq (size page : Nat) (heads : Option (List Nat)) :
    (c.growBuffers size page heads = c ∧ grown size page heads = []) ∨
      ∃ l, heads = some l ∧ l.length * size = pageSize ∧ grown size page heads = l ∧
        c.growBuffers size page heads =
          { c.createBuffers page size l with
            ring := l.reverse ++ c.ring
            memMap := update c.memMap (mapNr page) 1 } := by
  unfold Cache.growBuffers grown
  split
  · exact .inl ⟨rfl, rfl⟩
  split
  · exact .inl ⟨rfl, rfl⟩
  cases heads with
  | none => exact .inl ⟨rfl, rfl⟩
  | some l =>
    dsimp only
    split
    · rename_i hlen
      exact .inr ⟨l, rfl, hlen, rfl, rfl⟩
    · exact .inl ⟨rfl, rfl⟩

theorem CacheOk.growBuffers (h : CacheOk c) (size page : Nat) {heads : Option (List Nat)}
    (hfresh : ∀ l, heads = some l → l.Nodup ∧ ∀ x ∈ l, x ∉ c.ring) :
    CacheOk (c.growBuffers size page heads) := by
  rcases growBuffers_eq (c := c) size page heads with ⟨heq, -⟩ | ⟨l, hl, -, -, heq⟩
  · rw [heq]
    exact h
  · obtain ⟨hnodup, hoff⟩ := hfresh l hl
    have hcreate := h.createBuffers page size hoff
    rw [heq]
    refine ⟨?_, hcreate.queueNodup, fun i x hx => ?_, fun x hx => ?_⟩
    · show (l.reverse ++ c.ring).Nodup
      refine List.nodup_append.2 ⟨List.nodup_reverse.2 hnodup, h.nodup, ?_⟩
      rintro x hx y hy rfl
      exact hoff x (List.mem_reverse.1 hx) hy
    · obtain ⟨h1, h2⟩ := hcreate.hashed i x hx
      exact ⟨List.mem_append_right _ h1, h2⟩
    · exact hcreate.off x fun hmem => hx (List.mem_append_right _ hmem)

theorem growBuffers_effect (size page : Nat) {heads : Option (List Nat)} :
    Effect c (c.growBuffers size page heads) (· ∈ grown size page heads) := by
  rcases growBuffers_eq (c := c) size page heads with ⟨heq, hnil⟩ | ⟨l, -, -, hl, heq⟩
  · rw [heq]
    exact ⟨fun _ _ => Iff.rfl, fun _ _ => rfl, fun _ _ hx => hx⟩
  · have hcreate := createBuffers_effect (c := c) page size l
    rw [heq, hl]
    refine ⟨fun x hx => ?_, hcreate.ident, hcreate.hashed⟩
    show x ∈ l.reverse ++ c.ring ↔ _
    rw [List.mem_append, List.mem_reverse]
    exact ⟨fun h => h.resolve_left hx, .inr⟩

/-! ## Pages that enter and leave the cache -/

/-- One head of an aligned page with its block. -/
def withBlock (bh dev block : Nat) (c : Cache) : Cache :=
  { c with
    count := update c.count bh 1
    dirt := update c.dirt bh false
    uptodate := update c.uptodate bh false
    dev := update c.dev bh dev
    blocknr := update c.blocknr bh block }

theorem insertAll_cons (dev bh block : Nat) (l : List (Nat × Nat)) :
    c.insertAll dev ((bh, block) :: l) =
      ((withBlock bh dev block c).insertIntoQueues bh).insertAll dev l := rfl

theorem withBlock_effect (bh dev block : Nat) :
    Effect c ((withBlock bh dev block c).insertIntoQueues bh) (· = bh) := by
  refine ⟨fun x hx => ?_, fun x hx => ?_, fun x hx hh => ?_⟩
  · show x ∈ c.ring ++ [bh] ↔ _
    rw [List.mem_append, List.mem_singleton]
    exact ⟨fun h => h.resolve_right hx, .inl⟩
  · show (update c.dev bh dev x, update c.blocknr bh block x, _) = _
    rw [update_of_ne hx, update_of_ne hx]
    rfl
  · have hmem := insertIntoQueues_hashed hx hh
    have hhash : ((withBlock bh dev block c).insertIntoQueues bh).hash x = c.hash x := by
      show hashfn (update c.dev bh dev x) (update c.blocknr bh block x) = _
      rw [update_of_ne hx, update_of_ne hx]
      rfl
    rw [hhash] at hmem
    exact hmem

theorem CacheOk.withBlock (h : CacheOk c) (hbh : bh ∉ c.ring) (dev block : Nat) :
    CacheOk ((withBlock bh dev block c).insertIntoQueues bh) :=
  h.insertIntoQueues bh hbh rfl rfl (fun _ hx => update_of_ne hx _ _)
    fun _ hx => update_of_ne hx _ _

/-- **The second loop of `try_to_load_aligned`.** -/
theorem insertAll_effect (dev : Nat) {l : List (Nat × Nat)} (h : CacheOk c)
    (hnodup : (l.map Prod.fst).Nodup) (hoff : ∀ x ∈ l.map Prod.fst, x ∉ c.ring) :
    CacheOk (c.insertAll dev l) ∧ Effect c (c.insertAll dev l) (· ∈ l.map Prod.fst) ∧
      (c.insertAll dev l).ring = c.ring ++ l.map Prod.fst ∧
      (∀ p ∈ l, (c.insertAll dev l).ident p.1 = (dev, p.2, c.size p.1, c.data p.1)) ∧
      (∀ x, (c.insertAll dev l).count x = if x ∈ l.map Prod.fst then 1 else c.count x) ∧
      (c.insertAll dev l).memMap = c.memMap := by
  induction l generalizing c with
  | nil =>
    refine ⟨h, ⟨fun _ _ => Iff.rfl, fun _ _ => rfl, fun _ _ hx => hx⟩, ?_, ?_, ?_, rfl⟩
    · simp [Cache.insertAll]
    · simp
    · simp [Cache.insertAll]
  | cons p l ih =>
    obtain ⟨bh, block⟩ := p
    rw [List.map_cons, List.nodup_cons] at hnodup
    have hbh : bh ∉ c.ring := hoff bh (by simp)
    have hok := h.withBlock hbh dev block
    have heff := withBlock_effect (c := c) bh dev block
    have hoff' : ∀ x ∈ l.map Prod.fst,
        x ∉ ((Buffer.withBlock bh dev block c).insertIntoQueues bh).ring := by
      intro x hx hmem
      have hxbh : x ≠ bh := fun heq => hnodup.1 (heq ▸ hx)
      exact hoff x (List.mem_cons_of_mem bh hx) ((heff.ring x hxbh).1 hmem)
    obtain ⟨h1, h2, h3, h4, h5, h6⟩ := ih hok hnodup.2 hoff'
    rw [insertAll_cons]
    refine ⟨h1, ?_, ?_, ?_, fun x => ?_, h6⟩
    · refine (heff.mono fun x hx => ?_).trans (h2.mono fun x hx => ?_)
      · rw [hx]
        exact List.mem_cons_self
      · exact List.mem_cons_of_mem bh hx
    · rw [h3]
      show c.ring ++ [bh] ++ l.map Prod.fst = _
      simp
    · rintro q hq
      rcases List.mem_cons.1 hq with rfl | hq
      · rw [h2.ident bh hnodup.1]
        show (update c.dev bh dev bh, update c.blocknr bh block bh, _) = _
        rw [update_self, update_self]
        rfl
      · exact h4 q hq
    · rw [h5 x, List.map_cons]
      by_cases hx : x ∈ l.map Prod.fst
      · rw [if_pos hx, if_pos (List.mem_cons_of_mem bh hx)]
      · rw [if_neg hx]
        show update c.count bh 1 x = _
        by_cases hxbh : x = bh
        · rw [hxbh, update_self, if_pos (by simp)]
        · rw [update_of_ne hxbh, if_neg]
          rw [List.mem_cons, not_or]
          exact ⟨hxbh, hx⟩

/-- **`try_to_free`** takes the buffers of a page out of the cache, or does nothing. -/
theorem tryToFree_effect (h : CacheOk c) (bh : Nat) :
    c.tryToFree bh = c ∨
      (∀ x ∈ c.pageHeads bh, c.count x = 0) ∧ CacheOk (c.tryToFree bh) ∧
        Effect c (c.tryToFree bh) (· ∈ c.pageHeads bh) ∧
        (∀ x, x ∈ (c.tryToFree bh).ring ↔ x ∈ c.ring ∧ x ∉ c.pageHeads bh) ∧
        (∀ x, x ∉ c.pageHeads bh → (c.tryToFree bh).count x = c.count x) ∧
        (c.tryToFree bh).memMap = update c.memMap (mapNr (c.data bh))
          (mapLess (c.memMap (mapNr (c.data bh)))) := by
  unfold Cache.tryToFree
  split
  · rename_i hidle
    right
    rw [List.all_eq_true] at hidle
    have hcount : ∀ x ∈ c.pageHeads bh, c.count x = 0 := by
      intro x hx
      have := hidle x hx
      rw [decide_eq_true_eq] at this
      exact this.1
    obtain ⟨⟨h1, h2⟩, ⟨h3, h4⟩, h5⟩ := foldl_removeFromQueues (l := c.pageHeads bh) h.nodup
      h.queueNodup fun i x hx => (h.hashed i x hx).2.2
    rw [h5]
    have hclear : ∀ {x}, x ∉ c.pageHeads bh → ∀ a b : Nat,
        (if x ∈ c.pageHeads bh then a else b) = b := fun hx a b => if_neg hx
    refine ⟨hcount, ⟨h1, h3, fun i x hx => ?_, fun x hx => ?_⟩, ⟨fun x hx => ?_, fun x hx => ?_,
      fun x hx hh => ?_⟩, h2, fun x hx => ?_, rfl⟩
    · obtain ⟨hx1, hx2⟩ := (h4 i x).1 hx
      obtain ⟨h6, h7, h8⟩ := h.hashed i x hx1
      refine ⟨(h2 x).2 ⟨h6, hx2⟩, ?_, ?_⟩
      · show (if x ∈ c.pageHeads bh then 0 else c.dev x) ≠ 0
        rw [hclear hx2]
        exact h7
      · show hashfn (if x ∈ c.pageHeads bh then 0 else c.dev x)
          (if x ∈ c.pageHeads bh then 0 else c.blocknr x) = i
        rw [hclear hx2, hclear hx2]
        exact h8
    · show (if x ∈ c.pageHeads bh then 0 else c.dev x) = 0
      split
      · rfl
      · rename_i hx'
        exact h.off x fun hmem => hx ((h2 x).2 ⟨hmem, hx'⟩)
    · show x ∈ (List.foldl _ c _).ring ↔ _
      rw [h2 x]
      exact ⟨fun hh => hh.1, fun hh => ⟨hh, hx⟩⟩
    · simp only [Cache.ident, Cache.clear, if_neg hx]
    · have hhash : ∀ c₀ : Cache, c₀.dev = (fun x => if x ∈ c.pageHeads bh then 0 else c.dev x) →
          c₀.blocknr = (fun x => if x ∈ c.pageHeads bh then 0 else c.blocknr x) →
          c₀.hash x = c.hash x := by
        intro c₀ hdev hblocknr
        rw [Cache.hash, hdev, hblocknr]
        dsimp only
        rw [hclear hx, hclear hx]
        rfl
      rw [Cache.Hashed, hhash _ rfl rfl] at hh
      exact ((h4 _ x).1 hh).1
    · show (if x ∈ c.pageHeads bh then 0 else c.count x) = c.count x
      exact hclear hx _ _
  · exact .inl rfl

/-! ## What the searches find -/

theorem findBuffer_mem {dev block size : Nat} (h : CacheOk c)
    (hfind : c.findBuffer dev block size = some bh) :
    bh ∈ c.ring ∧ c.Hashed bh ∧ c.dev bh = dev ∧ c.blocknr bh = block ∧ c.size bh = size := by
  unfold Cache.findBuffer at hfind
  split at hfind
  · rename_i tmp hsearch
    split at hfind
    · rename_i hsize
      cases hfind
      have hmem := List.mem_of_find?_eq_some hsearch
      have htest := List.find?_some hsearch
      rw [decide_eq_true_eq] at htest
      refine ⟨(h.hashed _ bh hmem).1, ?_, htest.1, htest.2, hsize⟩
      rw [Cache.Hashed, (h.hashed _ bh hmem).2.2]
      exact hmem
    · cases hfind
  · cases hfind

/-- A search that fails has met a buffer of another size, or the block is not in the cache. -/
theorem findBuffer_none {dev block size : Nat} (hfind : c.findBuffer dev block size = none) :
    (∃ x ∈ c.queue (hashfn dev block), c.dev x = dev ∧ c.blocknr x = block ∧ c.size x ≠ size) ∨
      ∀ x ∈ c.queue (hashfn dev block), ¬ (c.dev x = dev ∧ c.blocknr x = block) := by
  unfold Cache.findBuffer at hfind
  split at hfind
  · rename_i tmp hsearch
    split at hfind
    · cases hfind
    · rename_i hsize
      have htest := List.find?_some hsearch
      rw [decide_eq_true_eq] at htest
      exact .inl ⟨tmp, List.mem_of_find?_eq_some hsearch, htest.1, htest.2, hsize⟩
  · rename_i hsearch
    right
    intro x hx htest
    have := List.find?_eq_none.1 hsearch x hx
    rw [decide_eq_true_eq] at this
    exact this htest

/-- A buffer that `getblk` may take: unused, of the right size, its page not shared. -/
def Takeable (c : Cache) (size x : Nat) : Prop :=
  c.count x = 0 ∧ c.size x = size ∧ c.memMap (mapNr (c.data x)) = 1

theorem pickVictim_mem {size : Nat} {l : List Nat} {best : Option Nat}
    (hpick : c.pickVictim size l best = some bh) :
    (bh ∈ l ∧ Takeable c size bh) ∨ best = some bh := by
  induction l generalizing best with
  | nil => exact .inr hpick
  | cons tmp l ih =>
    have hlater : ∀ best', c.pickVictim size l best' = some bh →
        (bh ∈ tmp :: l ∧ Takeable c size bh) ∨ best' = some bh := fun best' h =>
      (ih h).imp_left fun h => ⟨List.mem_cons_of_mem tmp h.1, h.2⟩
    unfold Cache.pickVictim at hpick
    split at hpick
    · exact hlater best hpick
    split at hpick
    · exact hlater best hpick
    have htake : Takeable c size tmp := by
      rename_i h1 h2
      rw [not_or, not_not, not_not] at h1
      rw [not_not] at h2
      exact ⟨h1.1, h1.2, h2⟩
    split at hpick
    · split at hpick
      · cases hpick
        exact .inl ⟨List.mem_cons_self, htake⟩
      · rcases hlater _ hpick with h | h
        · exact .inl h
        · cases h
          exact .inl ⟨List.mem_cons_self, htake⟩
    · exact hlater best hpick

end LinuxEvocation.Fs.Buffer
