import LinuxEvocation.Fs.Buffer.Tasks

/-!
# Every step of the buffer cache keeps the invariant

The functions that the tasks run, one lemma each about the invariant of `Tasks`: `get_hash_table`
with what its callers do with the answer, `getblk`, `brelse`, `set_blocksize`, `try_to_free`.

* `Ready.answerSome`, `Ready.answerNone`, `Ready.resume` — a task that runs.
* `Inv.run`, `Inv.wake`, `Inv.call`, `Inv.step` — the steps of the system.
-/

namespace LinuxEvocation.Fs.Buffer

open Function (update update_eq_self update_of_ne update_self)
open LinuxEvocation.Mm

variable {ι : Type}

/-! ## The functions -/

section Functions

variable [DecidableEq ι] [Fintype ι] {s : Sys ι} {t : ι} {p : Pc}

namespace Ready

theorem congr (h : Ready s t p) {c : Cache} (hc : SameBuffers s.cache c) :
    Ready { s with cache := c } t p :=
  Inv.congr (s := { s with pc := Function.update s.pc t p, cpu := some t }) h hc rfl rfl rfl

/-- **`getblk` returns a buffer.** -/
theorem gotBlock (h : Ready s t p) {bh dev block size : Nat} (hrefs : p.refs.Perm [bh])
    (hright : Right s.cache bh dev block size) {c : Cache} (hcache : CacheOk c)
    (heff : Effect s.cache c nobody) (hcount : c.count = s.cache.count) :
    Inv (Sys.gotBlock t ⟨bh, dev, block, size⟩ { s with cache := c }) := by
  have hbh : bh ∈ s.cache.ring := h.alive (.inl (hrefs.mem_iff.2 (List.mem_singleton_self bh)))
  refine h.next (D := nobody) (q := .idle) (o := ⟨bh, dev, block, size⟩ :: s.own t) rfl rfl
    (.inr rfl) hcache heff (fun _ hD => hD.elim) (fun _ hD => hD.elim) (fun x _ => ?_)
    (fun _ hD => hD.elim) (fun x hx => ?_) (fun r hr => ?_) trivial
    ⟨List.nodup_nil, by simp [Pc.heads]⟩ fun u hu x hx => ?_
  · show ([] ++ bh :: (s.own t).map Ref.bh).count x + _ ≤ c.count x + _
    simp only [hcount, List.nil_append, List.count_append, List.count_cons, hrefs.count_eq x,
      List.count_nil]
    omega
  · refine (heff.ring x id).2 ?_
    have hx' : x = bh ∨ x ∈ (s.own t).map Ref.bh := by simpa [Pc.refs] using hx
    rcases hx' with rfl | hx'
    · exact hbh
    · exact h.alive (.inr hx')
  · rcases List.mem_cons.1 hr with rfl | hr
    · exact heff.right id hright
    · exact heff.right id (Inv.own h t r hr)
  · exact absurd hx (by simp [Pc.heads])

/-- **`get_hash_table` has found the buffer.** -/
theorem answerSome (h : Ready s t p) {env : Env} {bh dev block size : Nat} {k : Search}
    (hcpu : s.cpu = some t) (hrefs : p.refs.Perm (bh :: k.refs)) (hheads : p.heads = k.heads)
    (hright : Right s.cache bh dev block size) :
    Inv (s.answer t env dev block size (some bh) k) := by
  have hbh : bh ∈ s.cache.ring := h.alive (.inl (hrefs.mem_iff.2 List.mem_cons_self))
  cases k with
  | getblk =>
    unfold Sys.answer
    dsimp only
    split
    · exact h.gotBlock hrefs hright (h.cacheOk.putLastFree hbh) (putLastFree_effect hbh) rfl
    · exact h.gotBlock hrefs hright h.cacheOk (Effect.of_eq rfl rfl rfl rfl rfl rfl) rfl
  | share address b =>
    unfold Sys.answer
    dsimp only
    split
    · exact h.release hcpu hrefs.symm hheads.symm
    · have hready : Ready
          { s with cache := { s.cache with
            memMap := Function.update s.cache.memMap (mapNr (s.cache.data bh))
              (mapAgain (s.cache.memMap (mapNr (s.cache.data bh)))) } } t p :=
        h.congr ⟨rfl, rfl, rfl, rfl, rfl, rfl, rfl⟩
      exact hready.checkNext hcpu hrefs.symm hheads
  | check page address offset acc b =>
    unfold Sys.answer
    dsimp only
    split
    · exact h.release hcpu hrefs.symm hheads.symm
    · exact h.checkNext hcpu hrefs.symm hheads
  | load address heads b rest => exact h.release hcpu hrefs.symm hheads.symm

/-- **`get_hash_table` has found nothing.** -/
theorem answerNone (h : Ready s t p) {env : Env} {dev block size : Nat} {k : Search}
    (hcpu : s.cpu = some t) (hfresh : ∀ l, env.heads = some l → FreshUnused s l)
    (hrefs : p.refs.Perm k.refs) (hheads : p.heads = k.heads) :
    Inv (s.answer t env dev block size none k) := by
  cases k with
  | getblk =>
    unfold Sys.answer
    dsimp only
    split
    · have hgrow := h.grow size env.page hfresh (q := .scan dev block size) hrefs.symm
        (fun _ => trivial) rfl
      rw [← hcpu] at hgrow
      exact hgrow
    · exact h.jump (q := .scan dev block size) rfl rfl rfl (.inl hcpu) hrefs.symm trivial
        hheads.symm
  | share address b =>
    unfold Sys.answer
    dsimp only
    cases hheads' : env.heads with
    | none => exact h.jump (q := .idle) rfl rfl rfl (.inr rfl) hrefs.symm trivial hheads.symm
    | some heads =>
      dsimp only
      split
      · have hl := hfresh heads hheads'
        have hoff : ∀ x ∈ heads, x ∉ s.cache.ring := fun x hx => (hl.2 x hx).2.1
        have hmade := h.fresh hl (q := .search dev block size (.load address heads b b))
          (h.cacheOk.createBuffers address size hoff) (createBuffers_effect address size heads)
          (fun x hx => if_neg hx) hrefs.symm trivial ⟨hl.1, hoff⟩ fun u _ x hx => (hl.2 x hx).2.2 u
        have hready : Ready { s with cache := s.cache.createBuffers address size heads } t
            (.search dev block size (.load address heads b b)) := hmade
        exact hready.loadNext hcpu rfl rfl
      · exact h.jump (q := .idle) rfl rfl rfl (.inr rfl) hrefs.symm trivial hheads.symm
  | check page address offset acc b => exact h.release hcpu hrefs.symm hheads.symm
  | load address heads b rest => exact h.loadNext hcpu hrefs.eq_nil hheads

/-- **`getblk` recycles an unused buffer.** -/
theorem recycle (h : Ready s t p) {bh : Nat} (dev block : Nat) (hbh : bh ∈ s.cache.ring)
    (hzero : s.cache.count bh = 0) (hrefs : p.refs = []) :
    Inv (Sys.gotBlock t ⟨bh, dev, block, s.cache.size bh⟩
      { s with cache := s.cache.reassign bh dev block }) := by
  have heff := reassign_effect hbh dev block
  have hown : bh ∉ (s.own t).map Ref.bh := by
    intro hmem
    have hpos := Inv.count_pos h (u := t) (x := bh) (by
      rw [refsOf_update]
      exact List.mem_append_right _ hmem)
    exact absurd hzero hpos.ne'
  have hring : ∀ x ∈ s.cache.ring, x ∈ (s.cache.reassign bh dev block).ring := by
    intro x hx
    rw [reassign_ring]
    exact (erase_append_perm hbh).mem_iff.2 hx
  refine h.next (q := .idle) (o := ⟨bh, dev, block, s.cache.size bh⟩ :: s.own t) rfl rfl (.inr rfl)
    (h.cacheOk.reassign hbh dev block) heff (fun x hx => .inr (hx ▸ hzero))
    (fun x hx hoff => absurd hbh (hx ▸ hoff)) (fun x hx => ?_) (fun x hx => ?_) (fun x hx => ?_)
    (fun r hr => ?_) trivial ⟨List.nodup_nil, by simp [Pc.heads]⟩ fun u hu x hx => ?_
  · show _ ≤ Function.update s.cache.count bh 1 x + _
    rw [update_of_ne hx, hrefs]
    simp only [Pc.refs, List.nil_append, List.map_cons, List.count_cons]
    rw [if_neg (by simpa using fun heq => hx heq.symm)]
    omega
  · subst hx
    show _ ≤ Function.update s.cache.count x 1 x
    rw [update_self]
    simp only [Pc.refs, List.nil_append, List.map_cons, List.count_cons, beq_self_eq_true, if_true,
      List.count_eq_zero.2 hown]
    exact le_rfl
  · have hx' : x = bh ∨ x ∈ (s.own t).map Ref.bh := by simpa [Pc.refs] using hx
    rcases hx' with rfl | hx'
    · exact hring x hbh
    · exact hring x (h.alive (.inr hx'))
  · rcases List.mem_cons.1 hr with rfl | hr
    · have hident := reassign_ident s.cache bh dev block
      exact ⟨congrArg Prod.fst hident, congrArg (fun p => p.2.1) hident,
        congrArg (fun p => p.2.2.1) hident⟩
    · refine heff.right ?_ (Inv.own h t r hr)
      intro heq
      exact hown (heq ▸ List.mem_map_of_mem hr)
  · exact absurd hx (by simp [Pc.heads])

/-- **A task goes on behind `wait_on_buffer`.** -/
theorem resume {bh : Nat} {k : After} (h : Ready s t (.after bh k)) {env : Env}
    (hcpu : s.cpu = some t) : Inv (s.resume t env bh k) := by
  obtain ⟨hok, hbh⟩ := h.ok
  cases k with
  | found dev block size k =>
    have hright : s.cache.dev bh = dev ∧ s.cache.blocknr bh = block ∧ s.cache.size bh = size := hok
    unfold Sys.resume
    dsimp only
    rw [if_pos hright]
    exact h.answerSome hcpu (List.Perm.refl _) rfl hok
  | victim dev block size =>
    unfold Sys.resume
    dsimp only
    split
    · exact h.jump (q := .search dev block size .getblk) rfl rfl rfl (.inl hcpu)
        (List.Perm.refl _) trivial rfl
    · rename_i hfree
      rw [not_or, not_not, not_not] at hfree
      split
      · exact h.jump (q := .sync (.getblk dev block size)) rfl rfl rfl (.inr rfl)
          (List.Perm.refl _) trivial rfl
      split
      · exact h.jump (q := .search dev block size .getblk) rfl rfl rfl (.inl hcpu)
          (List.Perm.refl _) trivial rfl
      · rw [← hfree.2]
        exact h.recycle dev block hbh hfree.1 rfl
  | unhash dev size i bhnext =>
    unfold Sys.resume
    dsimp only
    split
    · have hflags : CacheOk { s.cache with
          uptodate := Function.update s.cache.uptodate bh false
          dirt := Function.update s.cache.dirt bh false } := h.cacheOk.congr rfl rfl rfl rfl
      refine h.quiet (q := .unhash dev size i bhnext) rfl rfl (.inl hcpu)
        (hflags.removeFromHashQueue bh) ?_ (fun x => (Nat.add_comm _ _).le) (by simp [Pc.refs])
        hok rfl
      have hrem := removeFromHashQueue_effect (c := s.cache) bh
      exact ⟨hrem.ring, hrem.ident, hrem.hashed⟩
    · exact h.quiet (q := .unhash dev size i bhnext) rfl rfl (.inl hcpu)
        (h.cacheOk.removeFromHashQueue bh) (removeFromHashQueue_effect bh)
        (fun x => (Nat.add_comm _ _).le) (by simp [Pc.refs]) hok rfl
  | read todo all f =>
    exact h.jump (q := .read todo all f) rfl rfl rfl (.inl hcpu) (List.Perm.refl _) hok rfl
  | release l f =>
    have hdrop := h.drop bh (.read [] l f) (some t) (.inl rfl) (List.Perm.refl _)
      (by simp [PcOk]) rfl
    have hready : Ready (s.drop bh) t (.read [] l f) := hdrop
    exact hready.release hcpu (List.Perm.refl _) rfl

end Ready

end Functions

/-! ## The steps of the system -/

/-- What the running task does, by where it is. -/
inductive Ran [DecidableEq ι] (s : Sys ι) (t : ι) (env : Env) : Pc → Sys ι → Prop
  | missed {dev block size : Nat} {k : Search}
      (hfind : s.cache.findBuffer dev block size = none) :
      Ran s t env (.search dev block size k) (s.answer t env dev block size none k)
  | found {dev block size bh : Nat} {k : Search}
      (hfind : s.cache.findBuffer dev block size = some bh) :
      Ran s t env (.search dev block size k) ((s.raise bh).waitOn t bh (.found dev block size k))
  | picked {dev block size bh : Nat}
      (hpick : s.cache.pickVictim size s.cache.ring none = some bh) :
      Ran s t env (.scan dev block size) (s.waitOn t bh (.victim dev block size))
  | grown {dev block size : Nat} : Ran s t env (.scan dev block size)
      (Sys.goto t (.search dev block size .getblk)
        { s with cache := s.cache.growBuffers size env.page env.heads })
  | starved {dev block size : Nat} :
      Ran s t env (.scan dev block size) (s.block t (.sleepOn dev block size))
  | behind {bh : Nat} {k : After} : Ran s t env (.after bh k) (s.resume t env bh k)
  | released {all : List Nat} {f : Finish} :
      Ran s t env (.read [] all f) (s.release t f all.reverse)
  | reads {bh : Nat} {todo all : List Nat} {f : Finish} :
      Ran s t env (.read (bh :: todo) all f) (s.waitOn t bh (.read todo all f))
  | sized {dev size : Nat} (i bh : Nat) : Ran s t env (.setSize dev size)
      (Sys.goto t (.unhash dev size i bh)
        { s with cache := { s.cache with blksize := update s.cache.blksize dev size } })
  | ended {dev size i bh : Nat} : Ran s t env (.unhash dev size i bh) (s.block t .idle)
  | skipped {dev size i bh : Nat} (bhnext : Nat) :
      Ran s t env (.unhash dev size i bh) (s.goto t (.unhash dev size (i - 1) bhnext))
  | waits {dev size i bh : Nat} (bhnext : Nat) (hdev : s.cache.dev bh = dev) :
      Ran s t env (.unhash dev size i bh) (s.waitOn t bh (.unhash dev size (i - 1) bhnext))

/-- What a task does that is woken up, by where it is. -/
inductive Woke [DecidableEq ι] (s : Sys ι) (t : ι) (env : Env) : Pc → Sys ι → Prop
  | unlocked {bh : Nat} {k : After} : Woke s t env (.wait bh k)
      (Sys.goto t (.after bh k) { s.drop bh with cpu := some t })
  | slept {dev block size : Nat} : Woke s t env (.sleepOn dev block size)
      (Sys.goto t (.search dev block size .getblk) { s with cpu := some t })
  | writes {bh : Nat} {k : AfterSync} (hpick : env.pick = some bh) :
      Woke s t env (.sync k) ((s.raise bh).goto t (.io bh k))
  | synced {dev block size : Nat} : Woke s t env (.sync (.getblk dev block size))
      (Sys.goto t (.search dev block size .getblk) { s with cpu := some t })
  | syncedAll {dev size : Nat} : Woke s t env (.sync (.setBlocksize dev size))
      (Sys.goto t (.setSize dev size) { s with cpu := some t })
  | written {bh : Nat} {k : AfterSync} : Woke s t env (.io bh k)
      (Sys.goto t (.sync k) { s.drop bh with cache := { (s.drop bh).cache with
        lock := update s.cache.lock bh true
        dirt := update s.cache.dirt bh false } })
  | read {all : List Nat} {f : Finish} : Woke s t env (.reading all f)
      (Sys.goto t (.read all all f) { s with cpu := some t })

/-- What a step is. -/
inductive Stepped [DecidableEq ι] (s : Sys ι) : SysEvent ι → Sys ι → Prop
  | call {t : ι} {c : Call} (hcpu : s.cpu = none) (hpc : s.pc t = .idle) :
      Stepped s (.call t c) (s.call t c)
  | run {t : ι} {env : Env} {s' : Sys ι} (hcpu : s.cpu = some t) (hs' : s.run t env = some s') :
      Stepped s (.run t env) s'
  | wake {t : ι} {env : Env} {s' : Sys ι} (hcpu : s.cpu = none) (hs' : s.wake t env = some s') :
      Stepped s (.wake t env) s'
  | flags {e : SysEvent ι} (lock uptodate dirt : Nat → Bool) : Stepped s e
      { s with cache := { s.cache with lock := lock, uptodate := uptodate, dirt := dirt } }
  | unmap {page : Nat} (hpos : 0 < s.maps page) : Stepped s (.unmap page)
      { s with
        cache := { s.cache with
          memMap := update s.cache.memMap page (mapLess (s.cache.memMap page)) }
        maps := update s.maps page (s.maps page - 1) }

namespace Sys

variable [DecidableEq ι] {s s' : Sys ι} {t : ι} {env : Env}

theorem ran (hs' : s.run t env = some s') : Ran s t env (s.pc t) s' := by
  unfold run at hs'
  generalize s.pc t = p at hs' ⊢
  split at hs'
  · split at hs'
    · cases hs'
      exact .missed ‹_›
    · cases hs'
      exact .found ‹_›
  · split at hs'
    · cases hs'
      exact .picked ‹_›
    · split at hs'
      · cases hs'
        exact .grown
      · cases hs'
        exact .starved
  · cases hs'
    exact .behind
  · split at hs'
    · cases hs'
      exact .released
    · cases hs'
      exact .reads
  · cases hs'
    exact .sized _ _
  · dsimp only at hs'
    split at hs'
    · cases hs'
      exact .ended
    split at hs'
    · cases hs'
      exact .skipped _
    · rename_i hsame
      rw [not_or, not_not] at hsame
      cases hs'
      exact .waits _ hsame.1
  · cases hs'

theorem woke (hs' : s.wake t env = some s') : Woke s t env (s.pc t) s' := by
  unfold wake at hs'
  generalize s.pc t = p at hs' ⊢
  split at hs'
  · split at hs'
    · cases hs'
    · cases hs'
      exact .unlocked
  · cases hs'
    exact .slept
  · split at hs'
    · cases hs'
      exact .writes ‹_›
    · split at hs'
      · cases hs'
        exact .synced
      · cases hs'
        exact .syncedAll
  · cases hs'
    exact .written
  · cases hs'
    exact .read
  · cases hs'

theorem stepped {e : SysEvent ι} (hs' : s.step e = some s') : Stepped s e s' := by
  cases e with
  | call t c =>
    unfold step at hs'
    dsimp only at hs'
    split at hs'
    · cases hs'
      exact .call ‹_› ‹_›
    · cases hs'
  | run t env =>
    obtain ⟨hcpu, hs'⟩ := Option.ite_none_right_eq_some.1 hs'
    exact .run hcpu hs'
  | wake t env =>
    obtain ⟨hcpu, hs'⟩ := Option.ite_none_right_eq_some.1 hs'
    exact .wake hcpu hs'
  | unlock bh uptodate =>
    cases hs'
    exact .flags _ _ _
  | lock bh | dirty bh =>
    obtain ⟨-, hs'⟩ := Option.ite_none_right_eq_some.1 hs'
    cases hs'
    exact .flags _ _ _
  | unmap page =>
    obtain ⟨hpos, hs'⟩ := Option.ite_none_right_eq_some.1 hs'
    cases hs'
    exact .unmap hpos.2

end Sys

section System

variable [DecidableEq ι] [Fintype ι] {s s' : Sys ι} {t : ι}

theorem Inv.run (h : Inv s) (hcpu : s.cpu = some t) {env : Env}
    (hfresh : ∀ l, env.heads = some l → FreshUnused s l) (hs' : s.run t env = some s') : Inv s' := by
  have hready := Ready.of_inv h hcpu
  have hran := Sys.ran hs'
  generalize s.pc t = p at hready hran
  cases hran with
  | missed => exact hready.answerNone hcpu hfresh (List.Perm.refl _) rfl
  | found hfind =>
    obtain ⟨hbh, -, hright⟩ := findBuffer_mem h.cache hfind
    have hready' := hready.raise hbh (.after _ (.found _ _ _ _)) (some t) (.inl rfl)
      (List.Perm.refl _) ⟨hright, hbh⟩ rfl
    exact Ready.waitOn hready' hcpu (List.Perm.refl _) hright hbh rfl
  | @grown dev block size =>
    have hgrow := hready.grow size env.page hfresh (q := .search dev block size .getblk)
      (List.Perm.refl _) (fun _ => trivial) rfl
    rw [← hcpu] at hgrow
    exact hgrow
  | starved | ended => exact hready.jump rfl rfl rfl (.inr rfl) (List.Perm.refl _) trivial rfl
  | picked hpick =>
    have hbh := (pickVictim_mem hpick).resolve_right (by simp)
    exact hready.waitOn hcpu (List.Perm.refl _) trivial hbh.1 rfl
  | behind => exact hready.resume hcpu
  | released => exact hready.release hcpu (List.reverse_perm _) rfl
  | @reads bh todo all f =>
    have hok : ∀ x ∈ bh :: todo, x ∈ all := hready.ok
    have hbh : bh ∈ s.cache.ring := hready.alive (.inl (hok bh List.mem_cons_self))
    exact hready.waitOn hcpu (List.Perm.refl _)
      (fun x hx => hok x (List.mem_cons_of_mem bh hx)) hbh rfl
  | sized =>
    exact hready.quiet rfl rfl (.inl hcpu) (h.cache.congr rfl rfl rfl rfl)
      (Effect.of_eq rfl rfl rfl rfl rfl rfl) (fun x => (Nat.add_comm _ _).le) (by simp [Pc.refs])
      hready.ok rfl
  | skipped => exact hready.jump rfl rfl rfl (.inl hcpu) (List.Perm.refl _) hready.ok rfl
  | @waits dev size i bh bhnext hdev =>
    have hdev0 : dev ≠ 0 := hready.ok
    -- a buffer with a device is in the cache
    have hbh : bh ∈ s.cache.ring := by
      by_contra hoff
      exact hdev0 (hdev.symm.trans (h.cache.off bh hoff))
    exact hready.waitOn hcpu (List.Perm.refl _) hdev0 hbh rfl

theorem Inv.wake (h : Inv s) (hcpu : s.cpu = none) {env : Env}
    (hpick : ∀ bh, env.pick = some bh → bh ∈ s.cache.ring) (hs' : s.wake t env = some s') :
    Inv s' := by
  have hready := Ready.of_none h hcpu t
  have hwoke := Sys.woke hs'
  generalize s.pc t = p at hready hwoke
  cases hwoke with
  | unlocked =>
    have hbh := hready.alive (.inl List.mem_cons_self)
    exact hready.drop _ (.after _ _) (some t) (.inl rfl) (List.Perm.refl _) ⟨hready.ok, hbh⟩ rfl
  | slept | synced => exact hready.jump rfl rfl rfl (.inl rfl) (List.Perm.refl _) trivial rfl
  | @writes bh k hp =>
    have hok : PcOk s.cache (.io bh k) := by
      have := hready.ok
      cases k with
      | getblk dev block size => trivial
      | setBlocksize dev size => exact this
    have hraise := hready.raise (hpick bh hp) (.io bh k) none (.inr rfl)
      (List.Perm.refl _) hok rfl
    rw [← hcpu] at hraise
    exact hraise
  | syncedAll => exact hready.jump rfl rfl rfl (.inl rfl) (List.Perm.refl _) hready.ok rfl
  | @written bh k =>
    have hok : PcOk s.cache (.sync k) := by
      have := hready.ok
      cases k with
      | getblk dev block size => trivial
      | setBlocksize dev size => exact this
    have hdrop := hready.drop bh (.sync k) none (.inr rfl) (List.Perm.refl _) hok rfl
    exact hdrop.congr ⟨rfl, rfl, rfl, rfl, rfl, rfl, rfl⟩ rfl hcpu rfl
  | read => exact hready.jump rfl rfl rfl (.inl rfl) (List.Perm.refl _) (fun x hx => hx) rfl

end System

theorem Inv.init [Fintype ι] (hasBlksize : Nat → Bool) (blksize memMap : Nat → Nat) :
    Inv (Sys.init hasBlksize blksize memMap : Sys ι) := by
  refine ⟨⟨List.nodup_nil, fun _ => List.nodup_nil, ?_, fun _ _ => rfl⟩, fun x => ?_, ?_, ?_,
    fun _ => trivial, fun _ => .inr rfl, fun _ => ⟨List.nodup_nil, ?_⟩, ?_⟩
  all_goals simp [Sys.init, refsOf, Pc.refs, Pc.heads]

section Calls

variable [DecidableEq ι] [Fintype ι] {s s' : Sys ι} {t : ι}

/-- A task gives up a buffer it has got; the reference goes to where it is. -/
theorem Ready.giveBack {p : Pc} (h : Ready s t p) {r : Ref} (hr : r ∈ s.own t) {q : Pc} {c : Cache}
    (cpu : Option ι) (hcpu : cpu = some t ∨ q.asleep = true) (hc : CacheOk c)
    (heff : Effect s.cache c nobody)
    (hcounts : ∀ x, q.refs.count x + s.cache.count x ≤ c.count x + (r.bh :: p.refs).count x)
    (halive : ∀ x ∈ q.refs, x ∈ s.cache.ring) (hok : PcOk c q) (hheads : q.heads = p.heads) :
    Inv { s with
      cache := c
      pc := Function.update s.pc t q
      cpu := cpu
      own := Function.update s.own t ((s.own t).erase r) } := by
  have hperm := (List.perm_cons_erase hr).map Ref.bh
  refine h.next (D := nobody) (q := q) (o := (s.own t).erase r) rfl rfl hcpu hc heff
    (fun _ hD => hD.elim) (fun _ hD => hD.elim) (fun x _ => ?_) (fun _ hD => hD.elim)
    (fun x hx => ?_) (fun r' hr' => ?_) hok ?_ fun u hu x hx => ?_
  · have hx := hcounts x
    have hown := hperm.count_eq x
    rw [List.map_cons] at hown
    show _ ≤ c.count x + _
    simp only [List.count_append, List.count_cons] at hx hown ⊢
    omega
  · refine (heff.ring x id).2 ?_
    rcases List.mem_append.1 hx with hx | hx
    · exact halive x hx
    · refine h.alive (.inr (hperm.mem_iff.2 ?_))
      rw [List.map_cons]
      exact List.mem_cons_of_mem _ hx
  · exact heff.right id (Inv.own h t r' (List.mem_of_mem_erase hr'))
  · rw [hheads]
    obtain ⟨h1, h2⟩ := h.heads_off
    exact ⟨h1, fun x hx hmem => h2 x hx ((heff.ring x id).1 hmem)⟩
  · rw [hheads] at hx
    exact h.heads_apart hu hx

/-- **`try_to_free`.** -/
theorem Inv.tryToFree (h : Inv s) (hcpu : s.cpu = none) (t : ι) (bh : Nat) :
    Inv { s with cache := s.cache.tryToFree bh } := by
  rcases tryToFree_effect h.cache bh with heq | ⟨hzero, hok, heff, hring, hcount, -⟩
  · rw [heq]
    exact h
  · have hready := Ready.of_none h hcpu t
    have hkeep : ∀ x, x ∈ refsOf s t → x ∉ s.cache.pageHeads bh := by
      intro x hx hmem
      exact absurd (hzero x hmem) (h.count_pos hx).ne'
    refine hready.next (q := s.pc t) (o := s.own t) (update_eq_self _ _).symm
      (update_eq_self _ _).symm ?_ hok heff (fun x hx => .inr (hzero x hx))
      (fun x hx hoff => absurd (List.mem_of_mem_filter hx) hoff) (fun x hx => ?_) (fun x hx => ?_)
      (fun x hx => ?_) (fun r hr => ?_) ?_ ?_ fun u hu x hx => ?_
    · exact .inr ((h.asleep t).resolve_left (by rw [hcpu]; simp))
    · rw [hcount x hx]
      omega
    · show (refsOf s t).count x ≤ _
      rw [List.count_eq_zero.2 fun hmem => hkeep x hmem hx]
      exact Nat.zero_le _
    · exact (hring x).2 ⟨h.alive t x hx, hkeep x hx⟩
    · refine heff.right (hkeep r.bh ?_) (h.own t r hr)
      exact List.mem_append_right _ (List.mem_map_of_mem hr)
    · have hsleep : (s.pc t).asleep = true := (h.asleep t).resolve_left (by rw [hcpu]; simp)
      exact heff.pcOk hsleep (fun x hx => hkeep x (List.mem_append_left _ hx)) (h.pcs t)
    · exact ⟨(h.heads t).1, fun x hx hmem => (h.heads t).2 x hx ((hring x).1 hmem).1⟩
    · exact h.apart t u hu.symm x hx

theorem Inv.call (h : Inv s) (hcpu : s.cpu = none) (hpc : s.pc t = .idle) {c : Call}
    (hallowed : SysAllowed s (.call t c)) : Inv (s.call t c) := by
  have hready := Ready.of_none h hcpu t
  rw [hpc] at hready
  cases c with
  | getblk dev block size =>
    exact hready.jump (q := .search dev block size .getblk) rfl rfl rfl (.inl rfl)
      (List.Perm.refl _) trivial rfl
  | brelse r =>
    have hr : r ∈ s.own t := hallowed
    have hbh : r.bh ∈ s.cache.ring := hready.alive (.inr (List.mem_map_of_mem hr))
    have hback := hready.giveBack hr (q := .read [] [r.bh] .done) (some t) (.inl rfl) h.cache
      (Effect.of_eq rfl rfl rfl rfl rfl rfl) (fun x => (Nat.add_comm _ _).le)
      (fun x hx => List.mem_singleton.1 hx ▸ hbh) (by simp [PcOk]) rfl
    have hready' : Ready
        { s with cpu := some t, own := Function.update s.own t ((s.own t).erase r) } t
        (.read [] [r.bh] .done) := hback
    exact hready'.release rfl (List.Perm.refl _) rfl
  | forget r =>
    have hr : r ∈ s.own t := hallowed
    have hpos : 0 < s.cache.count r.bh :=
      h.count_pos (u := t) (List.mem_append_right _ (List.mem_map_of_mem hr))
    have hcounts : ∀ x, (Pc.idle).refs.count x + s.cache.count x ≤
        Function.update s.cache.count r.bh (s.cache.count r.bh - 1) x +
          (r.bh :: (Pc.idle).refs).count x := by
      intro x
      show 0 + _ ≤ _ + [r.bh].count x
      by_cases hx : x = r.bh
      · rw [hx, update_self, List.count_singleton_self]
        omega
      · rw [update_of_ne hx]
        omega
    have hback := hready.giveBack hr (q := .idle)
      (c := { s.cache with
        count := Function.update s.cache.count r.bh (s.cache.count r.bh - 1) })
      none (.inr rfl) (h.cache.congr rfl rfl rfl rfl) (Effect.of_eq rfl rfl rfl rfl rfl rfl)
      hcounts (by simp [Pc.refs]) trivial rfl
    rw [← hpc, update_eq_self, ← hcpu] at hback
    exact hback
  | breadPage address dev b size =>
    unfold Sys.call
    dsimp only
    split
    · exact h
    · exact hready.jump (q := .search dev (b.headD 0) size (.share address b)) rfl rfl rfl (.inl rfl)
        (List.Perm.refl _) trivial rfl
  | setBlocksize dev size =>
    unfold Sys.call
    dsimp only
    split
    · exact h
    split
    · exact h.congr ⟨rfl, rfl, rfl, rfl, rfl, rfl, rfl⟩ rfl rfl rfl
    split
    · exact h
    · exact hready.jump (q := .sync (.setBlocksize dev size)) rfl rfl rfl (.inr rfl)
        (List.Perm.refl _) hallowed.1 rfl
  | tryToFree bh => exact h.tryToFree hcpu t bh

/-- **Every step keeps the invariant.** -/
theorem Inv.step (h : Inv s) {e : SysEvent ι} (hallowed : SysAllowed s e) (hs' : s.step e = some s') :
    Inv s' := by
  cases Sys.stepped hs' with
  | call hcpu hpc => exact h.call hcpu hpc hallowed
  | run hcpu hs' => exact h.run hcpu hallowed.1 hs'
  | wake hcpu hs' => exact h.wake hcpu hallowed hs'
  | flags | unmap => exact h.congr ⟨rfl, rfl, rfl, rfl, rfl, rfl, rfl⟩ rfl rfl rfl

end Calls

end LinuxEvocation.Fs.Buffer
