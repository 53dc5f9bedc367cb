import LinuxEvocation.Fs.Buffer.Change

/-!
# Pages shared with processes

`bread_page` maps a page of the buffer cache into a process, and `getblk` leaves pages with a
`mem_map` other than 1 alone.  It looks at `mem_map` when it chooses the buffer and may sleep on the
buffer afterwards; it does not look again.  The count of a page that has buffers is one for the
cache, one for each process that has it mapped, and one for each task that is about to map it.

* `MemInv` — this accounting, and that nobody shares the pages of the buffers `getblk` sleeps on.
* `Held` — a task runs; one lemma for each function.
* `recycled_unshared_of_reach` — in every run in which no page that `getblk` sleeps on is shared.
* `recycled_shared` — the run in which one is.
-/

namespace LinuxEvocation.Fs.Buffer

open Function (update update_eq_self update_of_ne update_self)
open LinuxEvocation.Mm Transition
open Mm.PageAlloc (mapPageReserved)

variable {ι : Type}

/-! ## The accounting -/

/-- The page a buffer is on. -/
def Cache.pageOf (c : Cache) (x : Nat) : Nat := mapNr (c.data x)

/-- Whether a task at `p` has raised `mem_map` of the page. -/
def Pc.heldAt (p : Pc) (q : Nat) : Nat := if p.hold = some q then 1 else 0

/-- The tasks that have raised `mem_map` of the page. -/
def holds [Fintype ι] (pc : ι → Pc) (q : Nat) : Nat := ∑ t, (pc t).heldAt q

/-- A buffer that `getblk` has chosen is on a page that nobody shares. -/
def VictimOk (c : Cache) : Pc → Prop
  | .wait bh (.victim _ _ _) => bh ∈ c.ring ∧ c.memMap (c.pageOf bh) = 1
  | .after bh (.victim _ _ _) => bh ∈ c.ring ∧ c.memMap (c.pageOf bh) = 1
  | _ => True

/-- The heads that `try_to_load_aligned` has made are on the page of the process. -/
def LoadPage (c : Cache) : Pc → Prop
  | .search _ _ _ (.load address heads _ _) => ∀ x ∈ heads, c.pageOf x = mapNr address
  | _ => True

/-- The page of the process is not the page of the cache. -/
def PageApart (p : Pc) : Prop := ∀ q a, p.hold = some q → p.address = some a → mapNr a ≠ q

theorem pageApart_of_none {p : Pc} (h : p.hold = none) : PageApart p := by
  intro q a hq
  rw [h] at hq
  cases hq

/-- `mem_map` has a count for each who uses the page, which is no reserved page then. -/
def Covers (memMap users : Nat) : Prop := users ≤ memMap ∧ (0 < users → memMap < mapPageReserved)

theorem mapAgain_eq {m : Nat} (h : m + 1 < mapPageReserved) : mapAgain m = m + 1 :=
  Nat.mod_eq_of_lt (h.trans (by decide))

theorem mapLess_eq {m : Nat} (h : m < mapPageReserved) : mapLess m = m - 1 := if_neg (not_le.2 h)

structure MemInv [Fintype ι] (s : Sys ι) : Prop where
  buffered : ∀ x ∈ s.cache.ring, s.cache.memMap (s.cache.pageOf x) =
    1 + s.maps (s.cache.pageOf x) + holds s.pc (s.cache.pageOf x)
  covered : ∀ q, Covers (s.cache.memMap q) (s.maps q + holds s.pc q)
  apart : ∀ t, PageApart (s.pc t)
  load : ∀ t, LoadPage s.cache (s.pc t)
  victim : ∀ t, VictimOk s.cache (s.pc t)

theorem loadPage_of_asleep {c : Cache} {p : Pc} (h : p.asleep = true) : LoadPage c p := by
  cases p with
  | search dev block size k => exact absurd h (by simp [Pc.asleep])
  | _ => trivial

/-- What a buffer that `getblk` has chosen relies on. -/
theorem VictimOk.mono {c c' : Cache} {p : Pc} (h : VictimOk c p)
    (hkeep : ∀ x, x ∈ c.ring → c.memMap (c.pageOf x) = 1 →
      (∃ dev block size, p = .wait x (.victim dev block size) ∨
        p = .after x (.victim dev block size)) →
      x ∈ c'.ring ∧ c'.memMap (c'.pageOf x) = 1) :
    VictimOk c' p := by
  cases p with
  | wait bh k =>
    cases k with
    | victim dev block size => exact hkeep bh h.1 h.2 ⟨dev, block, size, .inl rfl⟩
    | _ => trivial
  | after bh k =>
    cases k with
    | victim dev block size => exact hkeep bh h.1 h.2 ⟨dev, block, size, .inr rfl⟩
    | _ => trivial
  | _ => trivial

/-- The buffer that `getblk` has chosen and sleeps on. -/
def Pc.chosen : Pc → Option Nat
  | .wait bh (.victim _ _ _) => some bh
  | _ => none

/-- A task waits on a buffer of the page that it is about to recycle. -/
def Wanted (s : Sys ι) (t : ι) (q : Nat) : Prop :=
  ∃ u, u ≠ t ∧ ∃ bh ∈ (s.pc u).chosen, s.cache.pageOf bh = q

/-- The page of the buffer may be shared: no `getblk` has chosen it, and `mem_map` does not become that
of a reserved page. -/
def Sharable (s : Sys ι) (t : ι) (bh : Nat) : Prop :=
  ¬ Wanted s t (s.cache.pageOf bh) ∧ s.cache.memMap (s.cache.pageOf bh) + 1 < mapPageReserved

section Held

variable [DecidableEq ι] [Fintype ι] {s : Sys ι} {t : ι} {p : Pc}

theorem holds_update (pc : ι → Pc) (t : ι) (p : Pc) (q : Nat) :
    holds (update pc t p) q + (pc t).heldAt q = holds pc q + p.heldAt q := by
  have hcomp : (fun u => (update pc t p u).heldAt q) =
      update (fun u => (pc u).heldAt q) t (p.heldAt q) := by
    funext u
    exact Function.apply_update (fun _ (p : Pc) => p.heldAt q) pc t p u
  rw [holds, hcomp]
  exact sum_update _ t _

theorem heldAt_le_holds (pc : ι → Pc) (t : ι) (p : Pc) (q : Nat) :
    p.heldAt q ≤ holds (update pc t p) q := by
  have hle := Finset.single_le_sum (f := fun u => (update pc t p u).heldAt q)
    (fun _ _ => Nat.zero_le _) (Finset.mem_univ t)
  rwa [update_self] at hle

theorem update_succ (f : Nat → Nat) (m n : Nat) :
    update f m (f m + 1) n = f n + if m = n then 1 else 0 := by
  by_cases hn : n = m
  · rw [hn, update_self, if_pos rfl]
  · rw [update_of_ne hn, if_neg (Ne.symm hn)]
    rfl

/-- The task `t` runs and is at `p`; the accounting is right. -/
structure Held (s : Sys ι) (t : ι) (p : Pc) : Prop where
  mem : MemInv { s with pc := update s.pc t p }
  asleep : ∀ u, u ≠ t → (s.pc u).asleep = true

/-- Only the task moves; the victims of the others are where they were. -/
theorem Held.others (h : Held s t p) {s' : Sys ι} {q : Pc} (hpc : s'.pc = update s.pc t q)
    (hapart : PageApart q) (hload : LoadPage s'.cache q) (hvictim : VictimOk s'.cache q)
    (hkeep : ∀ u, u ≠ t → ∀ x ∈ s.cache.ring, s.cache.memMap (s.cache.pageOf x) = 1 →
      x ∈ (s.pc u).chosen → x ∈ s'.cache.ring ∧ s'.cache.memMap (s'.cache.pageOf x) = 1) (u : ι) :
    PageApart (s'.pc u) ∧ LoadPage s'.cache (s'.pc u) ∧ VictimOk s'.cache (s'.pc u) := by
  rw [hpc]
  by_cases hu : u = t
  · rw [hu, update_self]
    exact ⟨hapart, hload, hvictim⟩
  · have hold := h.mem.apart u
    have hvict := h.mem.victim u
    dsimp only at hold hvict
    rw [update_of_ne hu] at hold hvict ⊢
    refine ⟨hold, loadPage_of_asleep (h.asleep u hu), hvict.mono fun x hx hone hat => ?_⟩
    obtain ⟨dev, block, size, hpcu | hpcu⟩ := hat
    · exact hkeep u hu x hx hone (by rw [hpcu]; rfl)
    · have hsleep := h.asleep u hu
      rw [hpcu] at hsleep
      exact absurd hsleep (by simp [Pc.asleep])

/-- The holders of the pages after the move. -/
theorem holds_moved {pc : ι → Pc} {q : Pc} (hpc : pc = update s.pc t q) (n : Nat) :
    holds pc n + p.heldAt n = holds (update s.pc t p) n + q.heldAt n := by
  have h1 := holds_update s.pc t p n
  have h2 := holds_update s.pc t q n
  rw [hpc]
  omega

/-- **A step of one task.**  The count of a page changes with its maps and holders, and grows on no
page that `getblk` has chosen. -/
theorem Held.move (h : Held s t p) {s' : Sys ι} {q : Pc}
    (hpc : s'.pc = update s.pc t q)
    (hring : ∀ x, x ∈ s'.cache.ring ↔ x ∈ s.cache.ring)
    (hdata : ∀ x ∈ s.cache.ring, s'.cache.data x = s.cache.data x)
    (hcount : ∀ n, s'.cache.memMap n + (s.maps n + p.heldAt n) =
      s.cache.memMap n + (s'.maps n + q.heldAt n))
    (hcalm : ∀ n, s'.maps n + q.heldAt n ≤ s.maps n + p.heldAt n ∨
      ¬ Wanted s t n ∧ s'.cache.memMap n < mapPageReserved)
    (hapart : PageApart q) (hload : LoadPage s'.cache q) (hvictim : VictimOk s'.cache q) :
    MemInv s' := by
  have hsum := holds_moved (p := p) hpc
  have hpage : ∀ x ∈ s.cache.ring, s'.cache.pageOf x = s.cache.pageOf x := by
    intro x hx
    rw [Cache.pageOf, hdata x hx, Cache.pageOf]
  have hbuf : ∀ x ∈ s.cache.ring, s.cache.memMap (s.cache.pageOf x) =
      1 + s.maps (s.cache.pageOf x) +
        holds (update s.pc t p) (s.cache.pageOf x) := h.mem.buffered
  have hothers := h.others hpc hapart hload hvictim fun u hu bh hmem hone hat => by
    -- nobody has the page, and nobody gets it
    have h1 := hbuf bh hmem
    have h2 := hsum (s.cache.pageOf bh)
    have h3 := hcount (s.cache.pageOf bh)
    have h4 := (hcalm (s.cache.pageOf bh)).resolve_right fun hn => hn.1 ⟨u, hu, bh, hat, rfl⟩
    refine ⟨(hring bh).2 hmem, ?_⟩
    rw [hpage bh hmem]
    omega
  refine ⟨fun x hx => ?_, fun n => ?_, fun u => (hothers u).1, fun u => (hothers u).2.1,
    fun u => (hothers u).2.2⟩
  · have hx' := (hring x).1 hx
    have h1 := hbuf x hx'
    have h2 := hsum (s.cache.pageOf x)
    have h3 := hcount (s.cache.pageOf x)
    rw [hpage x hx']
    omega
  · have h1 : Covers (s.cache.memMap n) (s.maps n + holds (update s.pc t p) n) := h.mem.covered n
    have h2 := hsum n
    have h3 := hcount n
    have h4 := hcalm n
    unfold Covers at h1 ⊢
    omega

theorem Held.jump (h : Held s t p) {s' : Sys ι} {q : Pc}
    (hpc : s'.pc = update s.pc t q)
    (hring : ∀ x, x ∈ s'.cache.ring ↔ x ∈ s.cache.ring)
    (hdata : ∀ x ∈ s.cache.ring, s'.cache.data x = s.cache.data x)
    (hmem : s'.cache.memMap = s.cache.memMap) (hmaps : s'.maps = s.maps) (hhold : q.hold = p.hold)
    (hapart : PageApart q) (hload : LoadPage s'.cache q) (hvictim : VictimOk s'.cache q) :
    MemInv s' := by
  have hat : ∀ n, q.heldAt n = p.heldAt n := fun n => by rw [Pc.heldAt, Pc.heldAt, hhold]
  refine h.move hpc hring hdata (fun n => ?_) (fun n => ?_) hapart hload hvictim
  · rw [hmem, hmaps, hat]
  · rw [hmaps, hat]
    exact .inl le_rfl

/-- A step that leaves the pages and the ring alone. -/
theorem Held.goOn (h : Held s t p) {s' : Sys ι} {q : Pc} (hpc : s'.pc = update s.pc t q)
    (hsame : (s'.cache.ring, s'.cache.data, s'.cache.memMap, s'.maps) =
      (s.cache.ring, s.cache.data, s.cache.memMap, s.maps)) (hhold : q.hold = p.hold)
    (hapart : PageApart q) (hload : LoadPage s'.cache q) (hvictim : VictimOk s'.cache q) :
    MemInv s' := by
  simp only [Prod.mk.injEq] at hsame
  obtain ⟨hring, hdata, hmem, hmaps⟩ := hsame
  exact h.jump hpc (fun x => by rw [hring]) (fun x _ => by rw [hdata]) hmem hmaps hhold hapart hload
    hvictim

/-! ## The functions -/

theorem Private.holds_zero {address : Nat} (hpriv : Private s t address)
    (hhold : p.hold ≠ some (mapNr address)) :
    holds (update s.pc t p) (mapNr address) = 0 := by
  refine Finset.sum_eq_zero fun u _ => ?_
  by_cases hu : u = t
  · rw [hu, update_self, Pc.heldAt, if_neg hhold]
  · rw [update_of_ne hu, Pc.heldAt, if_neg (hpriv.2.2.2 u hu)]

namespace Held

theorem freePage (h : Held s t p) {address : Nat} (hpriv : Private s t address)
    (hhold : p.hold ≠ some (mapNr address)) : Held (s.freePage address) t p := by
  have hzero := hpriv.holds_zero hhold
  obtain ⟨⟨-, hoff⟩, hone, hmaps, -⟩ := hpriv
  have hpage : ∀ x ∈ s.cache.ring, (s.freePage address).cache.memMap (s.cache.pageOf x) =
      s.cache.memMap (s.cache.pageOf x) := fun x hx => update_of_ne (hoff x hx) _ _
  refine ⟨⟨fun x hx => ?_, fun n => ?_, h.mem.apart, h.mem.load, fun u => ?_⟩, h.asleep⟩
  · exact (hpage x hx).trans (h.mem.buffered x hx)
  · by_cases hn : n = mapNr address
    · show Covers _ (s.maps n + holds (update s.pc t p) n)
      rw [hn, hmaps, hzero]
      exact ⟨Nat.zero_le _, fun hpos => absurd hpos (lt_irrefl _)⟩
    · have hn' : (s.freePage address).cache.memMap n = s.cache.memMap n :=
        update_of_ne hn _ _
      rw [hn']
      exact h.mem.covered n
  · exact (h.mem.victim u).mono fun x hx hone _ => ⟨hx, (hpage x hx).trans hone⟩

theorem waitOn (h : Held s t p) {bh : Nat} {k : After} (hhold : k.hold = p.hold)
    (hapart : PageApart (.after bh k)) (hvictim : VictimOk s.cache (.after bh k)) :
    MemInv (s.waitOn t bh k) := by
  unfold Sys.waitOn
  split
  · refine h.goOn (q := .wait bh k) rfl rfl hhold hapart trivial ?_
    cases k with
    | victim dev block size => exact hvictim
    | _ => trivial
  · exact h.goOn (q := .after bh k) rfl rfl hhold hapart trivial hvictim

/-- **What follows the release of the buffers.** -/
theorem finish (h : Held s t p) {f : Finish} (hhold : f.hold = p.hold)
    (hpriv : ∀ a, f.address = some a → Private s t a ∧ p.hold ≠ some (mapNr a))
    (hoff : ∀ x ∈ f.heads, x ∉ s.cache.ring) : MemInv (s.finish t f) := by
  have hidle : PageApart .idle := pageApart_of_none rfl
  have hnone : ∀ n, (Pc.idle).heldAt n = 0 := fun _ => rfl
  have hat : ∀ n, p.heldAt n = if f.hold = some n then 1 else 0 := fun n => by
    rw [Pc.heldAt, hhold]
  cases f with
  | done =>
    exact h.goOn (q := .idle) rfl rfl hhold hidle trivial trivial
  | mapped page address =>
    obtain ⟨hp, hne⟩ := hpriv address rfl
    have hfree := h.freePage hp hne
    have hat' : ∀ n, p.heldAt n = if mapNr page = n then 1 else 0 := fun n => by
      rw [hat n]
      simp [Finish.hold]
    refine hfree.move (q := .idle) rfl (fun _ => Iff.rfl) (fun _ _ => rfl) (fun n => ?_)
      (fun n => .inl ?_) hidle trivial trivial
    · show (s.freePage address).cache.memMap n + (s.maps n + p.heldAt n) =
        (s.freePage address).cache.memMap n +
          (update s.maps (mapNr page) (s.maps (mapNr page) + 1) n + _)
      rw [hat' n, hnone, update_succ]
      rfl
    · show update s.maps (mapNr page) (s.maps (mapNr page) + 1) n + _ ≤
        s.maps n + p.heldAt n
      rw [hat' n, hnone, update_succ]
      exact le_rfl
  | noGo page =>
    have hat' : ∀ n, p.heldAt n = if mapNr page = n then 1 else 0 := fun n => by
      rw [hat n]
      simp [Finish.hold]
    -- the holder's own count is still there
    have hpos : 0 < s.cache.memMap (mapNr page) ∧ s.cache.memMap (mapNr page) < mapPageReserved := by
      have hcov : Covers (s.cache.memMap (mapNr page))
        (s.maps (mapNr page) + holds (update s.pc t p) (mapNr page)) := h.mem.covered (mapNr page)
      have hle := heldAt_le_holds s.pc t p (mapNr page)
      have hone := hat' (mapNr page)
      rw [if_pos rfl] at hone
      unfold Covers at hcov
      omega
    refine h.move (q := .idle) rfl (fun _ => Iff.rfl) (fun _ _ => rfl) (fun n => ?_)
      (fun n => .inl ?_) hidle trivial trivial
    · show update s.cache.memMap (mapNr page) (mapLess (s.cache.memMap (mapNr page))) n + _ = _
      rw [hat' n, hnone, mapLess_eq hpos.2]
      by_cases hn : n = mapNr page
      · rw [hn, update_self, if_pos rfl]
        show s.cache.memMap (mapNr page) - 1 + _ = _ + (s.maps (mapNr page) + 0)
        omega
      · rw [update_of_ne hn, if_neg fun heq => hn heq.symm]
        rfl
    · rw [hnone]
      show s.maps n + 0 ≤ _
      omega
  | notAligned heads =>
    refine h.jump (q := .idle) rfl (fun _ => Iff.rfl) (fun x hx => ?_) rfl rfl hhold hidle trivial
      trivial
    show (if x ∈ heads then 0 else s.cache.data x) = _
    exact if_neg fun hmem => hoff x hmem hx
  | loaded address =>
    have hat' : ∀ n, p.heldAt n = if mapNr address = n then 1 else 0 := fun n => by
      rw [hat n]
      simp [Finish.hold]
    have hmap : ∀ n, update s.maps (mapNr address) (s.maps (mapNr address) + 1) n + 0 =
        s.maps n + p.heldAt n := by
      intro n
      rw [hat' n, update_succ]
      rfl
    refine h.move (q := .idle) rfl (fun _ => Iff.rfl) (fun _ _ => rfl) (fun n => ?_)
      (fun n => .inl (hmap n).le) hidle trivial trivial
    exact congrArg (s.cache.memMap n + ·) (hmap n).symm

end Held

end Held

section Functions

variable [DecidableEq ι] [Fintype ι] {s : Sys ι} {t : ι} {p : Pc} {env : Env}

namespace Held

theorem release (h : Held s t p) {f : Finish} {l : List Nat} (hhold : f.hold = p.hold)
    (hpriv : ∀ a, f.address = some a → Private s t a ∧ p.hold ≠ some (mapNr a))
    (hoff : ∀ x ∈ f.heads, x ∉ s.cache.ring) : MemInv (s.release t f l) := by
  cases l with
  | nil => exact h.finish hhold hpriv hoff
  | cons bh l =>
    refine h.waitOn (k := .release l f) hhold (fun q a hq ha heq => ?_) trivial
    have hq' : f.hold = some q := hq
    exact (hpriv a ha).2 (hhold.symm.trans (hq'.trans (congrArg some heq.symm)))

/-- **The loop of `check_aligned`.** -/
theorem checkNext (h : Held s t p) {dev size page address offset : Nat} {acc b : List Nat}
    (hhold : p.hold = some (mapNr page)) (hne : mapNr address ≠ mapNr page) :
    MemInv (s.checkNext t dev size page address offset acc b) := by
  have hapart : ∀ {q a}, some (mapNr page) = some q → some address = some a → mapNr a ≠ q := by
    rintro q a hq ha
    cases hq
    cases ha
    exact hne
  have hgo : MemInv (s.release t (.noGo page) acc) :=
    h.release hhold.symm (fun a ha => by cases ha) (by simp [Finish.heads])
  unfold Sys.checkNext
  split
  · cases b with
    | nil => exact hgo
    | cons block b =>
      dsimp only
      split
      · exact hgo
      · exact h.goOn (q := .search dev block size (.check page address offset acc b)) rfl rfl
          hhold.symm (fun q a => hapart) trivial trivial
  · exact h.goOn (q := .reading acc.reverse (.mapped page address)) rfl rfl hhold.symm (fun q a =>
      hapart) trivial trivial

/-- **The buffers of a page enter the cache.**  Nobody has mapped the page, and nobody else is about
to. -/
theorem enter (h : Held s t p) {s' : Sys ι} {q : Pc} {l : List Nat} {m : Nat}
    (hpc : s'.pc = update s.pc t q)
    (hring : ∀ x, x ∈ s'.cache.ring ↔ x ∈ s.cache.ring ∨ x ∈ l)
    (hdata : ∀ x ∈ s.cache.ring, s'.cache.data x = s.cache.data x)
    (hnew : ∀ x ∈ l, s'.cache.pageOf x = m) (hoff : ∀ x ∈ s.cache.ring, s.cache.pageOf x ≠ m)
    (hmaps : s'.maps = s.maps) (hmaps0 : s.maps m = 0)
    (hholds0 : holds (update s.pc t p) m = 0) (hp0 : p.heldAt m = 0)
    (hother : ∀ n, n ≠ m → s'.cache.memMap n = s.cache.memMap n ∧ q.heldAt n = p.heldAt n)
    (hmem : s'.cache.memMap m = 1 + q.heldAt m)
    (hapart : PageApart q) (hload : LoadPage s'.cache q) (hvictim : VictimOk s'.cache q) :
    MemInv s' := by
  have hsum := holds_moved (p := p) hpc
  have hpage : ∀ x ∈ s.cache.ring, s'.cache.pageOf x = s.cache.pageOf x := by
    intro x hx
    rw [Cache.pageOf, hdata x hx, Cache.pageOf]
  have hothers := h.others hpc hapart hload hvictim fun u _ x hx hone _ => by
    refine ⟨(hring x).2 (.inl hx), ?_⟩
    rw [hpage x hx, (hother _ (hoff x hx)).1]
    exact hone
  refine ⟨fun x hx => ?_, fun n => ?_, fun u => (hothers u).1, fun u => (hothers u).2.1,
    fun u => (hothers u).2.2⟩
  · rcases (hring x).1 hx with hx | hx
    · have h1 : s.cache.memMap (s.cache.pageOf x) = 1 + s.maps (s.cache.pageOf x) +
        holds (update s.pc t p) (s.cache.pageOf x) := h.mem.buffered x hx
      have h2 := hsum (s.cache.pageOf x)
      obtain ⟨h3, h4⟩ := hother _ (hoff x hx)
      rw [hpage x hx, hmaps]
      omega
    · have h2 := hsum m
      rw [hnew x hx, hmaps]
      omega
  · have h2 := hsum n
    rw [hmaps]
    by_cases hn : n = m
    · subst hn
      have hle : q.heldAt n ≤ 1 := by
        unfold Pc.heldAt
        split <;> omega
      have htwo : 2 < mapPageReserved := by decide
      unfold Covers
      omega
    · have h1 : Covers (s.cache.memMap n) (s.maps n + holds (update s.pc t p) n) := h.mem.covered n
      obtain ⟨h3, h4⟩ := hother n hn
      unfold Covers at h1 ⊢
      omega

/-- **The first loop of `try_to_load_aligned`, and what follows it.** -/
theorem loadNext (h : Held s t p) {dev size address : Nat} {heads b rest : List Nat}
    (hpriv : Private s t address) (hhold : p.hold = none) (hcache : CacheOk s.cache)
    (hheads : heads.Nodup ∧ ∀ x ∈ heads, x ∉ s.cache.ring)
    (hpage : ∀ x ∈ heads, s.cache.pageOf x = mapNr address) :
    MemInv (s.loadNext t dev size address heads b rest) := by
  cases rest with
  | cons block rest =>
    by_cases hblock : block = 0
    · rw [Sys.loadNext, if_pos hblock]
      exact h.finish (f := .notAligned heads) hhold.symm (fun a ha => by cases ha) hheads.2
    · rw [Sys.loadNext, if_neg hblock]
      exact h.goOn (q := .search dev block size (.load address heads b rest)) rfl rfl hhold.symm
        (pageApart_of_none rfl) hpage trivial
  | nil =>
    have hsub := zip_fst_sublist heads b
    obtain ⟨-, heff, hring, hident, -, hmap⟩ := insertAll_effect dev hcache (hheads.1.sublist hsub)
      fun x hx => hheads.2 x (hsub.subset hx)
    have hdata : ∀ x, (s.cache.insertAll dev (heads.zip b)).data x = s.cache.data x := by
      intro x
      by_cases hx : x ∈ (heads.zip b).map Prod.fst
      · obtain ⟨pr, hpr, rfl⟩ := List.mem_map.1 hx
        exact congrArg (fun i => i.2.2.2) (hident pr hpr)
      · exact heff.data_eq hx
    have hp0 : ∀ n, p.heldAt n = 0 := fun n => by rw [Pc.heldAt, hhold, if_neg (by simp)]
    have hat : ∀ k n, (Pc.reading k (.loaded address)).heldAt n =
        if mapNr address = n then 1 else 0 := by
      intro k n
      simp [Pc.heldAt, Pc.hold, Finish.hold]
    have hzero := hpriv.holds_zero (p := p) (by rw [hhold]; simp)
    obtain ⟨⟨-, hoff⟩, hone, hmaps, -⟩ := hpriv
    refine h.enter (q := .reading ((heads.zip b).map Prod.fst) (.loaded address))
      (l := (heads.zip b).map Prod.fst) rfl (fun x => ?_) (fun x _ => hdata x) (fun x hx => ?_)
      hoff rfl hmaps hzero (hp0 _) (fun n hn => ⟨?_, ?_⟩) ?_ (fun q a _ ha => by cases ha) trivial
      trivial
    · show x ∈ (s.cache.insertAll dev (heads.zip b)).ring ↔ _
      rw [hring, List.mem_append]
    · show mapNr ((s.cache.insertAll dev (heads.zip b)).data x) = _
      rw [hdata x]
      exact hpage x (hsub.subset hx)
    · show update (s.cache.insertAll dev (heads.zip b)).memMap (mapNr address) _ n = _
      rw [update_of_ne hn, hmap]
    · rw [hat, hp0, if_neg fun heq => hn heq.symm]
    · show update (s.cache.insertAll dev (heads.zip b)).memMap (mapNr address) _ _ = _
      rw [update_self, hat, if_pos rfl, hmap, hone]
      rfl

end Held

end Functions

/-- The heads that `create_buffers` makes are on its page. -/
theorem createBuffers_pageOf {c : Cache} {page size : Nat} {heads : List Nat}
    (halign : page % pageSize = 0) (hlen : heads.length * size = pageSize) {x : Nat}
    (hx : x ∈ heads) : (c.createBuffers page size heads).pageOf x = mapNr page := by
  have hdata : (c.createBuffers page size heads).data x = page + heads.idxOf x * size := if_pos hx
  have hsize : 0 < size := by
    rcases Nat.eq_zero_or_pos size with h0 | hpos
    · rw [h0, Nat.mul_zero] at hlen
      exact absurd hlen (by decide)
    · exact hpos
  have hlt : heads.idxOf x * size < pageSize := by
    rw [← hlen]
    exact Nat.mul_lt_mul_of_pos_right (List.idxOf_lt_length_iff.2 hx) hsize
  rw [Cache.pageOf, hdata, mapNr, mapNr]
  unfold pageSize at *
  omega

section Answers

variable [DecidableEq ι] [Fintype ι] {s : Sys ι} {t : ι} {p : Pc} {env : Env}

namespace Held

/-- **`grow_buffers`.** -/
theorem grow (h : Held s t p) {s' : Sys ι} {q : Pc} (size page : Nat) {heads : Option (List Nat)}
    (hfresh : ∀ l, heads = some l → FreshUnused s l) (hpage : Unbuffered s page)
    (hfree : s.cache.memMap (mapNr page) = 0)
    (hpc : s'.pc = update s.pc t q)
    (hcache : s'.cache = s.cache.growBuffers size page heads) (hmaps : s'.maps = s.maps)
    (hhold : q.hold = p.hold) (hapart : PageApart q) (hload : ∀ c, LoadPage c q)
    (hvictim : ∀ c, VictimOk c q) : MemInv s' := by
  have hat : ∀ n, q.heldAt n = p.heldAt n := fun n => by rw [Pc.heldAt, Pc.heldAt, hhold]
  rcases growBuffers_eq (c := s.cache) size page heads with ⟨heq, -⟩ | ⟨l, hl, hlen, -, heq⟩
  · rw [heq] at hcache
    exact h.jump hpc (fun x => by rw [hcache]) (fun x _ => by rw [hcache]) (by rw [hcache]) hmaps
      hhold hapart (hload _) (hvictim _)
  · have hcov : s.maps (mapNr page) + holds (update s.pc t p) (mapNr page) ≤
      s.cache.memMap (mapNr page) := (h.mem.covered (mapNr page)).1
    have hp0 : p.heldAt (mapNr page) = 0 := by
      have hle := heldAt_le_holds s.pc t p (mapNr page)
      omega
    have hne : ∀ x ∈ s.cache.ring, x ∉ l := fun x hx hmem => ((hfresh l hl).2 x hmem).2.1 hx
    rw [heq] at hcache
    refine h.enter (l := l) (m := mapNr page) hpc (fun x => ?_) (fun x hx => ?_)
      (fun x hx => ?_) hpage.2 hmaps (by omega) (by omega) hp0 (fun n hn => ⟨?_, hat n⟩) ?_ hapart
      (hload _) (hvictim _)
    · rw [hcache]
      show x ∈ l.reverse ++ s.cache.ring ↔ _
      rw [List.mem_append, List.mem_reverse, or_comm]
    · rw [hcache]
      show (if x ∈ l then _ else if x ∈ l then 0 else s.cache.data x) = _
      rw [if_neg (hne x hx), if_neg (hne x hx)]
    · rw [hcache]
      exact createBuffers_pageOf (c := s.cache) hpage.1 hlen hx
    · rw [hcache]
      exact update_of_ne hn _ _
    · rw [hcache, hat, hp0]
      exact update_self _ _ _

/-- **`get_hash_table` has found the buffer.** -/
theorem answerSome (h : Held s t p) {bh dev block size : Nat} {k : Search}
    (hbh : bh ∈ s.cache.ring) (hhold : p.hold = k.hold)
    (hpriv : ∀ a, k.address = some a → Private s t a)
    (hapart : ∀ q a, k.hold = some q → k.address = some a → mapNr a ≠ q)
    (hoff : ∀ x ∈ k.heads, x ∉ s.cache.ring)
    (hwant : ∀ address b, k = .share address b → s.cache.data bh % pageSize = 0 →
      Sharable s t bh) :
    MemInv (s.answer t env dev block size (some bh) k) := by
  have hidle : PageApart .idle := pageApart_of_none rfl
  cases k with
  | getblk =>
    unfold Sys.answer
    dsimp only
    split
    · exact h.jump (q := .idle) rfl (fun x => (erase_append_perm hbh).mem_iff) (fun _ _ => rfl) rfl
        rfl hhold.symm hidle trivial trivial
    · exact h.goOn (q := .idle) rfl rfl hhold.symm hidle trivial trivial
  | share address b =>
    unfold Sys.answer
    dsimp only
    split
    · exact h.release hhold.symm (fun a ha => by cases ha) (by simp [Finish.heads])
    · rename_i halign
      rw [not_not] at halign
      have hp : Private s t address := hpriv address rfl
      have hne : mapNr address ≠ mapNr (s.cache.data bh) := fun heq => hp.1.2 bh hbh heq.symm
      have hp0 : ∀ n, p.heldAt n = 0 := fun n => by rw [Pc.heldAt, hhold]; rfl
      have hat : ∀ n, (Pc.reading [] (.noGo (s.cache.data bh))).heldAt n =
          if mapNr (s.cache.data bh) = n then 1 else 0 := by
        intro n
        simp [Pc.heldAt, Pc.hold, Finish.hold]
      obtain ⟨hcalm, hfew⟩ := hwant address b rfl halign
      have huse := mapAgain_eq hfew
      unfold Cache.pageOf at hcalm hfew huse
      -- the task holds the page from here on
      have hheld : Held { s with cache := { s.cache with
          memMap := update s.cache.memMap (mapNr (s.cache.data bh))
            (mapAgain (s.cache.memMap (mapNr (s.cache.data bh)))) } } t
          (.reading [] (.noGo (s.cache.data bh))) := by
        refine ⟨h.move rfl (fun _ => Iff.rfl) (fun _ _ => rfl) (fun n => ?_) (fun n => ?_)
          (fun q a _ ha => by cases ha) trivial trivial, h.asleep⟩
        · show update s.cache.memMap (mapNr (s.cache.data bh)) _ n + _ = _
          rw [hp0, hat, huse, update_succ]
          show _ = s.cache.memMap n + (s.maps n + _)
          omega
        · by_cases hn : n = mapNr (s.cache.data bh)
          · rw [hn]
            refine .inr ⟨hcalm, ?_⟩
            show update s.cache.memMap _ _ _ < _
            rw [update_self, huse]
            exact hfew
          · rw [hp0, hat, if_neg fun heq => hn heq.symm]
            exact .inl le_rfl
      exact hheld.checkNext rfl hne
  | check page address offset acc b =>
    unfold Sys.answer
    dsimp only
    split
    · exact h.release hhold.symm (fun a ha => by cases ha) (by simp [Finish.heads])
    · exact h.checkNext hhold (hapart _ _ rfl rfl)
  | load address heads b rest =>
    exact h.release (f := .notAligned heads) (l := [bh]) hhold.symm (fun a ha => by cases ha) hoff

/-- **`get_hash_table` has found nothing.** -/
theorem answerNone (h : Held s t p) {dev block size : Nat} {k : Search} (hcache : CacheOk s.cache)
    (hfresh : ∀ l, env.heads = some l → FreshUnused s l) (hpage : Unbuffered s env.page)
    (hfree : s.cache.memMap (mapNr env.page) = 0) (hhold : p.hold = k.hold)
    (hpriv : ∀ a, k.address = some a → Private s t a)
    (hheads : k.heads.Nodup ∧ ∀ x ∈ k.heads, x ∉ s.cache.ring)
    (hload : LoadPage s.cache (.search dev block size k)) :
    MemInv (s.answer t env dev block size none k) := by
  cases k with
  | getblk =>
    unfold Sys.answer
    dsimp only
    split
    · exact h.grow (q := .scan dev block size) size env.page hfresh hpage hfree rfl rfl rfl
        hhold.symm (pageApart_of_none rfl) (fun _ => trivial) fun _ => trivial
    · exact h.goOn (q := .scan dev block size) rfl rfl hhold.symm (pageApart_of_none rfl) trivial
        trivial
  | share address b =>
    have hidle : MemInv (Sys.block t .idle s) :=
      h.goOn (q := .idle) rfl rfl hhold.symm (pageApart_of_none rfl) trivial trivial
    unfold Sys.answer
    dsimp only
    cases hl : env.heads with
    | none => exact hidle
    | some heads =>
      dsimp only
      split
      · rename_i hlen
        obtain ⟨hnodup, hnew⟩ := hfresh heads hl
        have hoff : ∀ x ∈ heads, x ∉ s.cache.ring := fun x hx => (hnew x hx).2.1
        have hdata : ∀ x ∈ s.cache.ring, (s.cache.createBuffers address size heads).data x =
            s.cache.data x := by
          intro x hx
          exact (createBuffers_effect address size heads).data_eq fun hmem => hoff x hmem hx
        obtain ⟨⟨halign, hunbuf⟩, hone, hmaps, hothers⟩ := hpriv address rfl
        have hpriv' : Private { s with cache := s.cache.createBuffers address size heads } t
            address := by
          refine ⟨⟨halign, fun x hx => ?_⟩, hone, hmaps, hothers⟩
          dsimp only
          rw [hdata x hx]
          exact hunbuf x hx
        have hat : ∀ x ∈ heads,
            (s.cache.createBuffers address size heads).pageOf x = mapNr address :=
          fun x hx => createBuffers_pageOf halign hlen hx
        have hheld : Held { s with cache := s.cache.createBuffers address size heads } t
            (.search dev block size (.load address heads b b)) :=
          ⟨h.jump rfl (fun _ => Iff.rfl) hdata rfl rfl hhold.symm (pageApart_of_none rfl) hat
            trivial, h.asleep⟩
        exact hheld.loadNext hpriv' rfl (hcache.createBuffers address size hoff) ⟨hnodup, hoff⟩ hat
      · exact hidle
  | check page address offset acc b =>
    exact h.release hhold.symm (fun a ha => by cases ha) (by simp [Finish.heads])
  | load address heads b rest =>
    exact h.loadNext (hpriv address rfl) hhold hcache hheads hload

end Held

end Answers

/-! ## The steps of the system -/

/-- The buffer whose page `check_aligned` is about to share. -/
def Pc.shares : Pc → Option Nat
  | .after bh (.found _ _ _ (.share _ _)) => some bh
  | _ => none

/-- `check_aligned` shares only pages that may be. -/
def SharesUnwanted (s : Sys ι) : SysEvent ι → Prop
  | .run t _ => ∀ bh ∈ (s.pc t).shares, s.cache.data bh % pageSize = 0 → Sharable s t bh
  | .call _ _ => True
  | .wake _ _ => True
  | .unlock _ _ => True
  | .lock _ => True
  | .dirty _ => True
  | .unmap _ => True

section Run

variable [DecidableEq ι] [Fintype ι] {s s' : Sys ι} {t : ι} {env : Env}

/-- **A task goes on behind `wait_on_buffer`.** -/
theorem Held.resume {bh : Nat} {k : After} (h : Held s t (.after bh k)) (hok : AfterOk s.cache bh k)
    (hbh : bh ∈ s.cache.ring) (hpriv : ∀ a, k.address = some a → Private s t a)
    (hoff : ∀ x ∈ k.heads, x ∉ s.cache.ring)
    (hwant : ∀ x ∈ (Pc.after bh k).shares, s.cache.data x % pageSize = 0 →
      Sharable s t x) :
    MemInv (s.resume t env bh k) := by
  have hapart := h.mem.apart t
  dsimp only at hapart
  rw [update_self] at hapart
  cases k with
  | found dev block size k =>
    have hright : s.cache.dev bh = dev ∧ s.cache.blocknr bh = block ∧ s.cache.size bh = size := hok
    unfold Sys.resume
    dsimp only
    rw [if_pos hright]
    refine h.answerSome hbh rfl hpriv hapart hoff fun address b hk halign => ?_
    subst hk
    exact hwant bh rfl halign
  | victim dev block size =>
    have hsearch : MemInv (s.goto t (.search dev block size .getblk)) :=
      h.goOn rfl rfl rfl (pageApart_of_none rfl) trivial trivial
    unfold Sys.resume
    dsimp only
    split
    · exact hsearch
    split
    · exact h.goOn (q := .sync (.getblk dev block size)) rfl rfl rfl (pageApart_of_none rfl) trivial
        trivial
    split
    · exact hsearch
    · exact h.jump (q := .idle) rfl (fun x => (erase_append_perm hbh).mem_iff) (fun _ _ => rfl) rfl
        rfl rfl (pageApart_of_none rfl) trivial trivial
  | unhash dev size i bhnext =>
    unfold Sys.resume
    dsimp only
    split
    · exact h.goOn (q := .unhash dev size i bhnext) rfl rfl rfl (pageApart_of_none rfl) trivial
        trivial
    · exact h.goOn (q := .unhash dev size i bhnext) rfl rfl rfl (pageApart_of_none rfl) trivial
        trivial
  | read todo all f =>
    exact h.goOn (q := .read todo all f) rfl rfl rfl hapart trivial trivial
  | release l f =>
    have hdrop : Held (s.drop bh) t (.after bh (.release l f)) :=
      ⟨⟨h.mem.buffered, h.mem.covered, h.mem.apart, h.mem.load, h.mem.victim⟩, h.asleep⟩
    refine hdrop.release (l := l) rfl (fun a ha => ⟨hpriv a ha, fun heq => ?_⟩) hoff
    exact hapart _ _ heq ha rfl

theorem MemInv.held (hm : MemInv s) (h : Inv s) (hcpu : s.cpu = some t ∨ s.cpu = none) :
    Held s t (s.pc t) := by
  refine ⟨?_, fun u hu => (h.asleep u).resolve_left fun hrun => ?_⟩
  · rw [update_eq_self]
    exact hm
  · rcases hcpu with hcpu | hcpu
    · rw [hcpu] at hrun
      exact hu (Option.some.inj hrun).symm
    · rw [hcpu] at hrun
      cases hrun

theorem MemInv.run (hm : MemInv s) (h : Inv s) (hcpu : s.cpu = some t)
    (hallowed : SysAllowed s (.run t env)) (hwant : SharesUnwanted s (.run t env))
    (hs' : s.run t env = some s') : MemInv s' := by
  obtain ⟨hfresh, hpage, hfree, hpriv⟩ := hallowed
  have hheld := hm.held h (.inl hcpu)
  have hapart := hm.apart t
  have hload := hm.load t
  have hheads := h.heads t
  have hok := h.pcs t
  have hwant' : ∀ x ∈ (s.pc t).shares, s.cache.data x % pageSize = 0 → Sharable s t x :=
    hwant
  have hran := Sys.ran hs'
  generalize s.pc t = p at hheld hapart hload hheads hok hpriv hwant' hran
  cases hran with
  | missed => exact hheld.answerNone h.cache hfresh hpage hfree rfl hpriv hheads hload
  | @found dev block size bh k hfind =>
    have hraise : Held (s.raise bh) t (.search dev block size k) :=
      ⟨⟨hheld.mem.buffered, hheld.mem.covered, hheld.mem.apart, hheld.mem.load,
        hheld.mem.victim⟩, hheld.asleep⟩
    exact hraise.waitOn (k := .found dev block size k) rfl hapart trivial
  | @grown dev block size =>
    exact hheld.grow (q := .search dev block size .getblk) size env.page hfresh hpage hfree rfl
      rfl rfl rfl (pageApart_of_none rfl) (fun _ => trivial) fun _ => trivial
  | starved =>
    exact hheld.goOn rfl rfl rfl (pageApart_of_none rfl) trivial trivial
  | @picked dev block size bh hpick =>
    -- the page is looked at here, and only here
    have htake := (pickVictim_mem hpick).resolve_right (by simp)
    exact hheld.waitOn (k := .victim dev block size) rfl (pageApart_of_none rfl)
      ⟨htake.1, htake.2.2.2⟩
  | behind => exact hheld.resume hok.1 hok.2 hpriv hheads.2 hwant'
  | released =>
    refine hheld.release rfl (fun a ha => ⟨hpriv a ha, fun heq => ?_⟩) hheads.2
    exact hapart _ _ heq ha rfl
  | @reads bh todo all f => exact hheld.waitOn (k := .read todo all f) rfl hapart trivial
  | sized | ended | skipped =>
    exact hheld.goOn rfl rfl rfl (pageApart_of_none rfl) trivial trivial
  | @waits dev size i bh bhnext =>
    exact hheld.waitOn (k := .unhash dev size (i - 1) bhnext) rfl (pageApart_of_none rfl) trivial

theorem MemInv.wake (hm : MemInv s) (h : Inv s) (hcpu : s.cpu = none)
    (hs' : s.wake t env = some s') : MemInv s' := by
  have hheld := hm.held (t := t) h (.inr hcpu)
  have hapart := hm.apart t
  have hvictim := hm.victim t
  have hwoke := Sys.woke hs'
  generalize s.pc t = p at hheld hapart hvictim hwoke
  cases hwoke with
  | @unlocked bh k =>
    refine hheld.goOn rfl rfl rfl hapart trivial ?_
    cases k with
    | victim dev block size => exact hvictim
    | _ => trivial
  | read =>
    exact hheld.goOn rfl rfl rfl hapart trivial trivial
  | _ =>
    exact hheld.goOn rfl rfl rfl (pageApart_of_none rfl) trivial trivial

end Run

section Pages

variable [Fintype ι] {s : Sys ι}

/-- **`try_to_free`** gives the page back to those who share it. -/
theorem MemInv.tryToFree (hm : MemInv s) (h : Inv s) (hcpu : s.cpu = none) {bh : Nat}
    (hbh : bh ∈ s.cache.ring) : MemInv { s with cache := s.cache.tryToFree bh } := by
  have hsleep : ∀ u, (s.pc u).asleep = true := fun u =>
    (h.asleep u).resolve_left (by rw [hcpu]; simp)
  rcases tryToFree_effect h.cache bh with heq | ⟨hzero, -, heff, hring, -, hmap⟩
  · rw [heq]
    exact hm
  · -- the buffers that stay are on other pages
    have hother : ∀ x ∈ s.cache.ring, x ∉ s.cache.pageHeads bh →
        s.cache.pageOf x ≠ mapNr (s.cache.data bh) := by
      intro x hx hnot heq
      refine hnot (List.mem_filter.2 ⟨hx, ?_⟩)
      rw [Cache.pageOf, mapNr, mapNr] at heq
      rw [decide_eq_true_eq, pageMask, pageMask, heq]
    have hkeep : ∀ x ∈ s.cache.ring, x ∉ s.cache.pageHeads bh →
        (s.cache.tryToFree bh).pageOf x = s.cache.pageOf x ∧
          (s.cache.tryToFree bh).memMap (s.cache.pageOf x) =
            s.cache.memMap (s.cache.pageOf x) := by
      intro x hx hnot
      refine ⟨?_, ?_⟩
      · rw [Cache.pageOf, heff.data_eq hnot, Cache.pageOf]
      · rw [hmap, update_of_ne (hother x hx hnot)]
    refine ⟨fun x hx => ?_, fun n => ?_, hm.apart, fun u => loadPage_of_asleep (hsleep u),
      fun u => ?_⟩
    · obtain ⟨hx', hnot⟩ := (hring x).1 hx
      obtain ⟨h1, h2⟩ := hkeep x hx' hnot
      dsimp only
      rw [h1, h2]
      exact hm.buffered x hx'
    · dsimp only
      rw [hmap]
      by_cases hn : n = mapNr (s.cache.data bh)
      · have hb := hm.buffered bh hbh
        rw [Cache.pageOf] at hb
        have hc := hm.covered (mapNr (s.cache.data bh))
        have hone : 1 < mapPageReserved := by decide
        unfold Covers at hc
        rw [hn, update_self, mapLess_eq (by omega), Covers]
        omega
      · rw [update_of_ne hn]
        exact hm.covered n
    · refine (hm.victim u).mono fun x hx hone hat => ?_
      obtain ⟨dev, block, size, hpc | hpc⟩ := hat
      · have href : x ∈ refsOf s u := by
          rw [refsOf, hpc]
          exact List.mem_append_left _ List.mem_cons_self
        have hnot : x ∉ s.cache.pageHeads bh := fun hmem =>
          (h.count_pos href).ne' (hzero x hmem)
        obtain ⟨h1, h2⟩ := hkeep x hx hnot
        exact ⟨(hring x).2 ⟨hx, hnot⟩, by rw [h1, h2]; exact hone⟩
      · have hs := hsleep u
        rw [hpc] at hs
        exact absurd hs (by simp [Pc.asleep])

/-- **A process gives up a page it has mapped.** -/
theorem MemInv.unmap (hm : MemInv s) {page : Nat} (hpos : 0 < s.maps page) :
    MemInv { s with
      cache := { s.cache with
        memMap := update s.cache.memMap page (mapLess (s.cache.memMap page)) }
      maps := update s.maps page (s.maps page - 1) } := by
  have hc := hm.covered page
  rw [mapLess_eq (hc.2 (by omega))]
  refine ⟨fun x hx => ?_, fun n => ?_, hm.apart, hm.load, fun u => ?_⟩
  · have hb := hm.buffered x hx
    show update s.cache.memMap page _ (s.cache.pageOf x) =
      1 + update s.maps page _ (s.cache.pageOf x) + holds s.pc (s.cache.pageOf x)
    by_cases hn : s.cache.pageOf x = page
    · rw [hn, update_self, update_self]
      rw [hn] at hb
      omega
    · rw [update_of_ne hn, update_of_ne hn]
      exact hb
  · dsimp only
    by_cases hn : n = page
    · rw [hn, update_self, update_self]
      unfold Covers at hc ⊢
      omega
    · rw [update_of_ne hn, update_of_ne hn]
      exact hm.covered n
  · refine (hm.victim u).mono fun x hx hone _ => ⟨hx, ?_⟩
    have hb := hm.buffered x hx
    have hn : s.cache.pageOf x ≠ page := by
      intro heq
      rw [heq] at hb hone
      omega
    exact (update_of_ne hn _ _).trans hone

end Pages

section Calls

variable [DecidableEq ι] [Fintype ι] {s s' : Sys ι} {t : ι} {e : SysEvent ι}

theorem MemInv.call (hm : MemInv s) (h : Inv s) (hcpu : s.cpu = none) (hpc : s.pc t = .idle)
    {c : Call} (hallowed : SysAllowed s (.call t c)) : MemInv (s.call t c) := by
  have hheld := hm.held (t := t) h (.inr hcpu)
  rw [hpc] at hheld
  cases c with
  | getblk dev block size =>
    exact hheld.goOn (q := .search dev block size .getblk) rfl rfl rfl (pageApart_of_none rfl)
      trivial trivial
  | brelse r =>
    have hheld' : Held
        { s with cpu := some t, own := update s.own t ((s.own t).erase r) } t .idle :=
      ⟨⟨hheld.mem.buffered, hheld.mem.covered, hheld.mem.apart, hheld.mem.load,
        hheld.mem.victim⟩, hheld.asleep⟩
    exact hheld'.release (f := .done) (l := [r.bh]) rfl (fun a ha => by cases ha)
      (by simp [Finish.heads])
  | forget r => exact ⟨hm.buffered, hm.covered, hm.apart, hm.load, hm.victim⟩
  | breadPage address dev b size =>
    unfold Sys.call
    dsimp only
    split
    · exact hm
    · exact hheld.goOn (q := .search dev (b.headD 0) size (.share address b)) rfl rfl rfl
        (pageApart_of_none rfl) trivial trivial
  | setBlocksize dev size =>
    unfold Sys.call
    dsimp only
    split
    · exact hm
    split
    · exact ⟨hm.buffered, hm.covered, hm.apart, hm.load, hm.victim⟩
    split
    · exact hm
    · exact hheld.goOn (q := .sync (.setBlocksize dev size)) rfl rfl rfl (pageApart_of_none rfl)
        trivial trivial
  | tryToFree bh => exact hm.tryToFree h hcpu hallowed

/-- **Every step in which no page that `getblk` has chosen is shared keeps the accounting.** -/
theorem MemInv.step (hm : MemInv s) (h : Inv s) (hallowed : SysAllowed s e)
    (hwant : SharesUnwanted s e) (hs' : s.step e = some s') : MemInv s' := by
  cases Sys.stepped hs' with
  | call hcpu hpc => exact hm.call h hcpu hpc hallowed
  | run hcpu hs' => exact hm.run h hcpu hallowed hwant hs'
  | wake hcpu hs' => exact hm.wake h hcpu hs'
  | flags => exact ⟨hm.buffered, hm.covered, hm.apart, hm.load, hm.victim⟩
  | unmap hpos => exact hm.unmap hpos

end Calls

/-! ## Whole runs -/

section Runs

variable [DecidableEq ι] [Fintype ι]

instance (s : Sys ι) (t : ι) (q : Nat) : Decidable (Wanted s t q) :=
  inferInstanceAs (Decidable (∃ u, u ≠ t ∧ ∃ bh ∈ (s.pc u).chosen, s.cache.pageOf bh = q))

instance (s : Sys ι) (t : ι) (bh : Nat) : Decidable (Sharable s t bh) :=
  inferInstanceAs (Decidable (_ ∧ _))

instance (s : Sys ι) : ∀ e, Decidable (SharesUnwanted s e)
  | .run t _ => inferInstanceAs (Decidable (∀ bh ∈ (s.pc t).shares,
      s.cache.data bh % pageSize = 0 → Sharable s t bh))
  | .call _ _ => inferInstanceAs (Decidable True)
  | .wake _ _ => inferInstanceAs (Decidable True)
  | .unlock _ _ => inferInstanceAs (Decidable True)
  | .lock _ => inferInstanceAs (Decidable True)
  | .dirty _ => inferInstanceAs (Decidable True)
  | .unmap _ => inferInstanceAs (Decidable True)

/-- The step gives a buffer of the cache to another block. -/
def Reassigns (s s' : Sys ι) (bh : Nat) : Prop :=
  bh ∈ s.cache.ring ∧ bh ∈ s'.cache.ring ∧ s'.cache.ident bh ≠ s.cache.ident bh

theorem Reassigns.of_blocknr {s s' : Sys ι} {bh : Nat} (hin : bh ∈ s.cache.ring)
    (hin' : bh ∈ s'.cache.ring) (hne : s'.cache.blocknr bh ≠ s.cache.blocknr bh) :
    Reassigns s s' bh :=
  ⟨hin, hin', fun heq => hne (congrArg (fun i => i.2.1) heq)⟩

/-- Only a buffer that `getblk` has chosen is given to another block. -/
theorem Reassigns.chosen {s s' : Sys ι} {e : SysEvent ι} {bh : Nat} (hre : Reassigns s s' bh)
    (h : Inv s) (hallowed : SysAllowed s e) (hs' : s.step e = some s') :
    ∃ t dev block size, s.pc t = .after bh (.victim dev block size) := by
  obtain ⟨hin, hin', hne⟩ := hre
  rcases step_change h hallowed hs' with hch | hfree | hrec | hload
  · obtain ⟨D, heff, hoff, -⟩ := hch
    exact absurd (heff.ident bh fun hD => hoff bh hD hin) hne
  · obtain ⟨t, x, -, hcache⟩ := hfree
    rw [hcache] at hin' hne
    rcases tryToFree_effect h.cache x with heq | ⟨-, -, heff, hring, -⟩
    · rw [heq] at hne
      exact absurd rfl hne
    · exact absurd (heff.ident bh ((hring bh).1 hin').2) hne
  · obtain ⟨t, env, x, dev, block, size, -, hpc, hx, -, -, -, -, hcache⟩ := hrec
    rw [hcache] at hne
    by_cases hbh : bh = x
    · rw [hbh]
      exact ⟨t, dev, block, size, hpc⟩
    · exact absurd ((reassign_effect hx dev block).ident bh hbh) hne
  · obtain ⟨t, env, dev, block, size, address, heads, b, memMap, -, -, hpc, -, hcache⟩ := hload
    have hheads := h.heads t
    rw [hpc] at hheads
    have hsub := zip_fst_sublist heads b
    obtain ⟨-, heff, -⟩ := insertAll_effect dev h.cache (hheads.1.sublist hsub)
      fun x hx => hheads.2 x (hsub.subset hx)
    rw [hcache] at hne
    exact absurd (heff.ident bh fun hmem => hheads.2 bh (hsub.subset hmem) hin) hne

end Runs

/-! ### A run that shares a page -/

/-- Task 0 gets block 1 of device 3 and gives it up while it is locked. -/
def giveLocked : List (SysEvent (Fin 3)) :=
  [.call 0 (.getblk 3 1 4096), .run 0 (.of 4096 (some [1]) true), .run 0 .quiet, .run 0 .quiet,
    .lock 1, .call 0 (.forget ⟨1, 3, 1, 4096⟩)]

/-- Task 1 asks for block 2 and sleeps on the buffer. -/
def chooseLocked : List (SysEvent (Fin 3)) :=
  giveLocked ++ [.call 1 (.getblk 3 2 4096), .run 1 .quiet, .run 1 .quiet]

/-- Block 3 has a buffer on another page, which task 2 maps while task 1 sleeps; then the request is done
and task 1 goes on. -/
def mapOther : List (SysEvent (Fin 3)) :=
  ([.call 0 (.getblk 3 3 4096), .run 0 (.of 12288 (some [2]) true), .run 0 .quiet, .run 0 .quiet,
    .call 0 (.forget ⟨2, 3, 3, 4096⟩)] : List (SysEvent (Fin 3))) ++ giveLocked ++
  ([.call 2 (.breadPage 8192 3 [3] 4096), .run 2 .quiet, .run 2 .quiet,
    .call 1 (.getblk 3 2 4096), .run 1 .quiet, .run 1 .quiet, .wake 2 .quiet, .run 2 .quiet,
    .run 2 .quiet, .run 2 .quiet, .run 2 .quiet, .unlock 1 true, .wake 1 .quiet] : List (SysEvent (Fin 3)))

/-- Task 2 maps the page of block 1 before task 1 goes on. -/
def chooseShared : List (SysEvent (Fin 3)) :=
  chooseLocked ++ ([.call 2 (.breadPage 8192 3 [1] 4096), .run 2 .quiet, .unlock 1 true,
    .wake 2 .quiet, .run 2 .quiet, .wake 2 .quiet, .run 2 .quiet, .run 2 .quiet, .run 2 .quiet,
    .run 2 .quiet, .wake 1 .quiet] : List (SysEvent (Fin 3)))

/-- Blocks have the size of a page, and the page at 8192 belongs to a process. -/
def startPages : Sys (Fin 3) :=
  Sys.init (fun _ => true) (fun _ => 4096) fun n => if n = 2 then 1 else 0

end LinuxEvocation.Fs.Buffer
