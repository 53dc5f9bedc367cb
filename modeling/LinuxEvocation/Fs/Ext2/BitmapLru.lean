import LinuxEvocation.Fs.Ext2.BitmapCache
import LinuxEvocation.Lib.Transition

/-!
# The bitmaps of all groups, in every run

The block bitmaps and the inode bitmaps of a file system have slots of their own.  Whatever is asked
for, and however many groups there are, each bitmap is in one slot and its buffer is held once.

* `Loader.call`, `step` — the calls; `Cache.Exact` — the invariant.
* `Exact.push` — the slots in the order of their last use; `Exact.read` — a slot for each group.
* `bitmap_lru_exact` — the result over every run.
-/

namespace LinuxEvocation.Ext2

open Function (update update_of_ne update_self)
open Transition (Reach)

/-! ## The calls -/

/-- `load__block_bitmap`. -/
def load__blockBitmap (groups group : Nat) (c : Cache) : Option (Cache × Nat) :=
  if group ≥ groups then none else c.load groups group

/-- The functions that load a bitmap. -/
inductive Loader where
  | block_
  | block
  | inode

/-- What the slots are for. -/
inductive Kind where
  | block
  | inode
  deriving DecidableEq

namespace Loader

def kind : Loader → Kind
  | block_ | block => .block
  | inode => .inode

/-- The slot that is returned; `none` for a panic. -/
def call : Loader → Nat → Nat → Cache → Option (Cache × Nat)
  | block_ => load__blockBitmap
  | block => loadBlockBitmap
  | inode => loadInodeBitmap

end Loader

/-- A call on the slots of a mounted file system. -/
def Bitmaps.step (groups : Nat) (s : Kind → Cache) (e : Loader × Nat) : Option (Kind → Cache) :=
  (e.1.call groups e.2 (s e.1.kind)).map fun r => update s e.1.kind r.1

/-! ## The invariant -/

/-- **Each slot in use holds the bitmap of one group, and holds its buffer once.** -/
structure Cache.Exact (groups : Nat) (c : Cache) : Prop where
  slot : ∀ {i g}, c.buf i = some g → c.number i = g ∧ g < groups ∧ i < maxGroupLoaded
  distinct : ∀ {i j g}, c.buf i = some g → c.buf j = some g → i = j
  held : ∀ {i g}, c.buf i = some g → c.held g = 1
  free : ∀ {g}, (∀ i, c.buf i ≠ some g) → c.held g = 0
  few : groups ≤ maxGroupLoaded → c.loaded = 0 ∧ ∀ {i g}, c.buf i = some g → i = g
  many : maxGroupLoaded < groups → ∀ i, c.buf i = none ↔ c.loaded ≤ i
  loaded_le : c.loaded ≤ maxGroupLoaded

theorem Cache.exact_empty (groups : Nat) : Cache.empty.Exact groups := by
  refine ⟨nofun, nofun, nofun, fun _ => rfl, fun _ => ⟨rfl, nofun⟩, fun _ i => ?_, Nat.zero_le _⟩
  exact iff_of_true rfl (Nat.zero_le i)

/-- The front slot is taken, and the others move on. -/
theorem pushed_apply {α : Type*} (a : Nat → α) (x : α) (k j : Nat) :
    update (shift a k) 0 x j = if j = 0 then x else if j ≤ k then a (j - 1) else a j := by
  by_cases hj : j = 0
  · subst hj
    rw [update_self, if_pos rfl]
  · rw [update_of_ne hj, shift_apply, if_neg hj]
    by_cases hk : j ≤ k
    · rw [if_pos ⟨by omega, hk⟩, if_pos hk]
    · rw [if_neg fun h => hk h.2, if_neg hk]

namespace Cache.Exact

variable {groups group : Nat} {c c' : Cache}

theorem valid (h : c.Exact groups) : c.Valid groups := by
  refine ⟨fun hfew => ⟨(h.few hfew).1, fun i => ?_⟩, fun hmany i hi => ?_, h.loaded_le⟩
  · cases hbuf : c.buf i with
    | none => exact .inl rfl
    | some g =>
      obtain rfl := (h.few hfew).2 hbuf
      exact .inr ⟨rfl, (h.slot hbuf).1, (h.slot hbuf).2.1⟩
  · obtain ⟨g, hg⟩ := Option.ne_none_iff_exists'.1 fun hnone => hi.not_ge ((h.many hmany i).1 hnone)
    obtain ⟨hnumber, hlt, -⟩ := h.slot hg
    rw [hnumber]
    exact ⟨hg, hlt⟩

/-- **A bitmap comes to the front**, from slot `k` or in place of what was there. -/
theorem push (h : c.Exact groups) (hmany : maxGroupLoaded < groups) (hgroup : group < groups)
    {k : Nat} (hk : k < maxGroupLoaded) (hkl : k ≤ c.loaded)
    (hno : ∀ i, i ≠ k → c.buf i ≠ some group)
    (hnumber : c'.number = update (shift c.number k) 0 group)
    (hbuf : c'.buf = update (shift c.buf k) 0 (some group))
    (hloaded : c'.loaded = max c.loaded (k + 1)) (hself : c'.held group = 1)
    (hheld : ∀ g, g ≠ group → c'.held g = if c.buf k = some g then 0 else c.held g) :
    c'.Exact groups := by
  have hslot : ∀ {j g}, c'.buf j = some g →
      j = 0 ∧ g = group ∨ 0 < j ∧ ∃ i, i ≠ k ∧ c.buf i = some g ∧ j = if i < k then i + 1 else i := by
    intro j g hj
    rw [hbuf, pushed_apply] at hj
    split_ifs at hj with h0 hjk
    · exact .inl ⟨h0, (Option.some.inj hj).symm⟩
    · exact .inr ⟨by omega, j - 1, by omega, hj, by rw [if_pos (by omega)]; omega⟩
    · exact .inr ⟨by omega, j, by omega, hj, by rw [if_neg (by omega)]⟩
  have hfront : c'.buf 0 = some group := by rw [hbuf, update_self]
  refine ⟨fun {j g} hj => ?_, fun {i j g} hi hj => ?_, fun {j g} hj => ?_, fun {g} hg => ?_,
    fun hfew => absurd hmany (not_lt.2 hfew), fun _ j => ?_, by have := h.loaded_le; omega⟩
  · rw [hnumber, pushed_apply]
    rcases hslot hj with ⟨rfl, rfl⟩ | ⟨h0, i, hik, hi, rfl⟩
    · exact ⟨if_pos rfl, hgroup, by decide⟩
    · obtain ⟨h1, h2, h3⟩ := h.slot hi
      rw [if_neg h0.ne']
      by_cases hlt : i < k
      · rw [if_pos hlt, if_pos (by omega)]
        exact ⟨h1, h2, by omega⟩
      · rw [if_neg hlt, if_neg (by omega)]
        exact ⟨h1, h2, h3⟩
  · rcases hslot hi with ⟨rfl, rfl⟩ | ⟨-, i, hik, hi', rfl⟩ <;>
      rcases hslot hj with ⟨rfl, hg⟩ | ⟨-, j, hjk, hj', rfl⟩
    · rfl
    · exact absurd hj' (hno j hjk)
    · exact absurd (hg ▸ hi') (hno i hik)
    · rw [h.distinct hi' hj']
  · rcases hslot hj with ⟨-, rfl⟩ | ⟨-, i, hik, hi, -⟩
    · exact hself
    · rw [hheld g fun hg => hno i hik (hg ▸ hi), if_neg fun hg => hik (h.distinct hi hg)]
      exact h.held hi
  · rw [hheld g fun heq => hg 0 (heq ▸ hfront)]
    split_ifs with hkg
    · rfl
    · refine h.free fun i hi => ?_
      have hik : i ≠ k := by
        rintro rfl
        exact hkg hi
      have hout := hg (if i < k then i + 1 else i)
      rw [hbuf, pushed_apply] at hout
      by_cases hlt : i < k
      · rw [if_pos hlt, if_neg (by omega), if_pos (by omega)] at hout
        exact hout hi
      · rw [if_neg hlt, if_neg (by omega), if_neg (by omega)] at hout
        exact hout hi
  · rw [hbuf, pushed_apply, hloaded]
    split_ifs with h0 hjk
    · simp [h0]
    · rw [h.many hmany]
      omega
    · rw [h.many hmany]
      omega

/-- **The slots in the order of their last use.** -/
theorem loadLru (h : c.Exact groups) (hmany : maxGroupLoaded < groups) (hgroup : group < groups) :
    (c.loadLru group).Exact groups := by
  have hused := h.many hmany
  unfold Cache.loadLru
  dsimp only
  cases hfind : (List.range c.loaded).find? fun i => c.number i = group with
  | some i =>
    have hnumber : c.number i = group := by simpa using List.find?_some hfind
    have hi := List.mem_range.1 (List.mem_of_find?_eq_some hfind)
    have hg : c.buf i = some group := hnumber ▸ (h.valid.many hmany i hi).1
    refine h.push hmany hgroup (h.slot hg).2.2 hi.le (fun j hj hjg => hj (h.distinct hjg hg))
      (by dsimp only; rw [hnumber]) (by dsimp only; rw [hg]) (by dsimp only; omega) (h.held hg) fun g hne => ?_
    rw [hg, if_neg fun heq => hne (Option.some.inj heq).symm]
  | none =>
    have hno : ∀ i, c.buf i ≠ some group := by
      intro i hi
      have hlt : i < c.loaded := by
        by_contra hge
        rw [(hused i).2 (not_lt.1 hge)] at hi
        cases hi
      have hnot := List.find?_eq_none.1 hfind i (List.mem_range.2 hlt)
      exact hnot (by simpa using (h.slot hi).1)
    have hzero := h.free hno
    by_cases hlt : c.loaded < maxGroupLoaded
    · -- a slot that has not been used
      rw [if_pos hlt]
      refine h.push hmany hgroup hlt le_rfl (fun i _ => hno i) rfl rfl ?_ ?_ fun g hg => ?_
      · exact (max_eq_right (Nat.le_succ _)).symm
      · exact (update_self _ _ _).trans (by rw [hzero])
      · rw [(hused c.loaded).2 le_rfl, if_neg (by simp)]
        exact update_of_ne hg _ _
    · -- the last slot is given up
      have hfull : c.loaded = maxGroupLoaded := le_antisymm h.loaded_le (not_lt.1 hlt)
      have hlast := (h.valid.many hmany (maxGroupLoaded - 1) (by rw [hfull]; decide)).1
      generalize c.number (maxGroupLoaded - 1) = last at hlast
      have hne : last ≠ group := by
        rintro rfl
        exact hno _ hlast
      rw [if_neg hlt, Cache.release, hlast]
      refine h.push hmany hgroup (k := maxGroupLoaded - 1) (by decide) (by rw [hfull]; decide)
        (fun i _ => hno i) (by rw [← hfull]; rfl) (by rw [← hfull]; rfl)
        (hfull.trans (by rw [hfull]; rfl)) ?_ fun g hg => ?_
      · refine (update_self _ _ _).trans ?_
        dsimp only
        rw [update_of_ne hne.symm, hzero]
      · refine (update_of_ne hg _ _).trans ?_
        dsimp only
        by_cases hgl : last = g
        · subst hgl
          rw [if_pos hlast, update_self, h.held hlast]
        · rw [if_neg fun heq => hgl (Option.some.inj (hlast.symm.trans heq)),
            update_of_ne (Ne.symm hgl)]

/-- **A slot for each group.** -/
theorem read (h : c.Exact groups) (hfew : groups ≤ maxGroupLoaded) (hgroup : group < groups)
    (hnone : c.buf group = none) : (c.read group group).Exact groups := by
  obtain ⟨hloaded, hown⟩ := h.few hfew
  have hslot : ∀ i, (c.read group group).buf i = if i = group then some group else c.buf i :=
    fun i => Function.update_apply _ _ _ i
  have hsame : ∀ {i g}, (c.read group group).buf i = some g → i = g := by
    intro i g hi
    rw [hslot] at hi
    split_ifs at hi with hig
    · exact hig.trans (Option.some.inj hi)
    · exact hown hi
  refine ⟨fun {i g} hi => ?_, fun hi hj => (hsame hi).trans (hsame hj).symm, fun {i g} hi => ?_,
    fun {g} hg => ?_, fun _ => ⟨hloaded, hsame⟩, fun hmany => absurd hmany (not_lt.2 hfew),
    h.loaded_le⟩
  · obtain rfl := hsame hi
    by_cases hig : i = group
    · subst hig
      exact ⟨update_self _ _ _, hgroup, hgroup.trans_le hfew⟩
    · rw [hslot, if_neg hig] at hi
      exact ⟨(update_of_ne hig _ _).trans (h.slot hi).1, (h.slot hi).2⟩
  · obtain rfl := hsame hi
    by_cases hig : i = group
    · subst hig
      refine (update_self _ _ _).trans ?_
      rw [h.free fun j hj => ?_]
      rw [hown hj, hnone] at hj
      cases hj
    · rw [hslot, if_neg hig] at hi
      exact (update_of_ne hig _ _).trans (h.held hi)
  · have hgg : g ≠ group := by
      rintro rfl
      exact hg g ((hslot g).trans (if_pos rfl))
    refine (update_of_ne hgg _ _).trans (h.free fun i hi => hg i ?_)
    rw [hslot, if_neg (hown hi ▸ hgg)]
    exact hi

/-- **The part that the functions share.** -/
theorem load (h : c.Exact groups) (hgroup : group < groups) {nr : Nat}
    (hs : c.load groups group = some (c', nr)) : c'.Exact groups := by
  unfold Cache.load at hs
  by_cases hfew : groups ≤ maxGroupLoaded
  · rw [if_pos hfew] at hs
    cases hbuf : c.buf group with
    | none =>
      rw [hbuf] at hs
      cases hs
      exact h.read hfew hgroup hbuf
    | some g =>
      rw [hbuf] at hs
      obtain ⟨-, heq⟩ := Option.ite_none_left_eq_some.1 hs
      cases heq
      exact h
  · rw [if_neg hfew] at hs
    cases hs
    exact h.loadLru (not_le.1 hfew) hgroup

end Cache.Exact

/-! ## Runs -/

variable {groups group : Nat} {c c' : Cache} {nr : Nat} {f : Loader}

/-- **A call returns a slot that the bitmap is in**, if the file system has the group. -/
theorem Loader.call_spec (h : c.Exact groups) (f : Loader) (group : Nat) :
    groups ≤ group ∧ f.call groups group c = none ∨
      group < groups ∧ ∃ c' nr, f.call groups group c = some (c', nr) ∧ c'.buf nr = some group := by
  cases f with
  | block_ =>
    by_cases hge : group ≥ groups
    · exact .inl ⟨hge, if_pos hge⟩
    · obtain ⟨c', nr, heq, -, hbuf⟩ := Cache.load_spec h.valid (not_le.1 hge)
      exact .inr ⟨not_le.1 hge, c', nr, (if_neg hge).trans heq, hbuf⟩
  | block =>
    refine (loadBlockBitmap_spec h.valid group).imp_right fun ⟨hlt, c', nr, heq, _, hbuf⟩ => ?_
    exact ⟨hlt, c', nr, heq, hbuf⟩
  | inode =>
    refine (loadInodeBitmap_spec h.valid group).imp_right fun ⟨hlt, c', nr, heq, _, hbuf⟩ => ?_
    exact ⟨hlt, c', nr, heq, hbuf⟩

/-- **Every call keeps the slots.** -/
theorem Cache.Exact.call (h : c.Exact groups) (hs : f.call groups group c = some (c', nr)) :
    c'.Exact groups := by
  have hgroup : group < groups := by
    rcases Loader.call_spec h f group with ⟨-, hnone⟩ | ⟨hlt, -⟩
    · rw [hs] at hnone
      cases hnone
    · exact hlt
  cases f with
  | block_ => exact h.load hgroup (Option.ite_none_left_eq_some.1 hs).2
  | block =>
    simp only [Loader.call, loadBlockBitmap] at hs
    split_ifs at hs
    · cases hs
      exact h
    · cases hs
      exact h
    · exact h.load hgroup hs
  | inode =>
    simp only [Loader.call, loadInodeBitmap] at hs
    split_ifs at hs
    · cases hs
      exact h
    · exact h.load hgroup hs

/-- **Each bitmap is in one slot, and its buffer is held once**, whatever has been loaded, and every
call for a group of the file system returns the slot that the bitmap of the group is in. -/
theorem bitmap_lru_exact {s : Kind → Cache}
    (h : Reach (Bitmaps.step groups) Transition.anyStep (fun _ => Cache.empty) s) :
    (∀ k, (s k).Exact groups) ∧ ∀ f group,
      groups ≤ group ∧ Loader.call f groups group (s f.kind) = none ∨
        group < groups ∧ ∃ c' nr, f.call groups group (s f.kind) = some (c', nr) ∧
          c'.Exact groups ∧ c'.buf nr = some group := by
  have hexact : ∀ k, (s k).Exact groups := by
    refine h.invariant (I := fun s => ∀ k, (s k).Exact groups) (fun _ => Cache.exact_empty groups)
      fun s e s' hs _ he k => ?_
    obtain ⟨⟨c', nr⟩, hcall, rfl⟩ := Option.map_eq_some_iff.1 he
    by_cases hk : k = e.1.kind
    · rw [hk, update_self]
      exact (hs _).call hcall
    · rw [update_of_ne hk]
      exact hs k
  refine ⟨hexact, fun f group => ?_⟩
  refine (Loader.call_spec (hexact f.kind) f group).imp_right fun ⟨hlt, c', nr, heq, hbuf⟩ => ?_
  exact ⟨hlt, c', nr, heq, (hexact f.kind).call heq, hbuf⟩

/-- With ten groups, the bitmap of the first one has gone and comes back. -/
def tenGroups : List (Loader × Nat) := (.block, 0) :: (List.range 10).map (.inode, ·)

theorem bitmap_lru_exact_ten :
    ∃ s : Kind → Cache,
      Transition.execFrom (Bitmaps.step 10) (fun _ => Cache.empty) tenGroups = some s ∧
        (∀ k, (s k).Exact 10) ∧ ∀ f group,
          10 ≤ group ∧ Loader.call f 10 group (s f.kind) = none ∨
            group < 10 ∧ ∃ c' nr, f.call 10 group (s f.kind) = some (c', nr) ∧
              c'.Exact 10 ∧ c'.buf nr = some group := by
  obtain ⟨s, hs⟩ : ∃ s, Transition.execFrom (Bitmaps.step 10) (fun _ => Cache.empty) tenGroups =
      some s := Option.isSome_iff_exists.1 (by decide)
  exact ⟨s, hs, bitmap_lru_exact (.of_execFrom .init hs)⟩

end LinuxEvocation.Ext2
