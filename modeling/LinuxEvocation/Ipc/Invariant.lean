import LinuxEvocation.Ipc.Table

/-!
# What a step does to an identifier table

* `Effect`, `stepOut_effect` — the things a step can do, once and for all.
* `TableInv`, `Effect.tableInv` — what holds of every table: the slots under construction
  are those of the calls in `new*`, every object is in one slot, and no slot in use is above
  the bound.
-/

namespace LinuxEvocation.Ipc

open Function (update update_eq_self update_of_ne update_self)

variable {τ : Type*}

/-! ## The search -/

/-- A search that ends without the key has seen no slot under construction and no object
with that key. -/
theorem scan_absent {T : Table τ} {key : Int} {k id : Nat} (h : scan T key k id = .absent) :
    ∀ j, id ≤ j → j ≤ id + k → T.slot j ≠ .noid ∧ ∀ r, T.slot j = .used r → (T.obj r).key ≠ key := by
  induction k generalizing id with
  | zero =>
    intro j h1 h2
    obtain rfl : j = id := by omega
    unfold scan at h
    split at h
    · cases h
    · rename_i hslot
      simp [hslot]
    · rename_i r hslot
      split_ifs at h with hkey
      refine ⟨by simp [hslot], fun r' hr' heq => hkey ?_⟩
      rw [hslot] at hr'
      cases hr'
      exact heq.symm
  | succ k ih =>
    have hrest : T.slot id ≠ .noid ∧ (∀ r, T.slot id = .used r → (T.obj r).key ≠ key) ∧
        scan T key k (id + 1) = .absent := by
      unfold scan at h
      split at h
      · cases h
      · rename_i hslot
        exact ⟨by simp [hslot], by simp [hslot], h⟩
      · rename_i r hslot
        split_ifs at h with hkey
        refine ⟨by simp [hslot], fun r' hr' heq => hkey ?_, h⟩
        rw [hslot] at hr'
        cases hr'
        exact heq.symm
    obtain ⟨h1, h2, h3⟩ := hrest
    intro j hj hj'
    rcases Nat.eq_or_lt_of_le hj with rfl | hlt
    · exact ⟨h1, h2⟩
    · exact ih h3 j hlt (by omega)

theorem scan_found {T : Table τ} {key : Int} {k id j : Nat} (h : scan T key k id = .found j) :
    ∃ r, T.slot j = .used r ∧ (T.obj r).key = key := by
  induction k generalizing id with
  | zero =>
    unfold scan at h
    split at h
    · cases h
    · cases h
    · rename_i r hslot
      split_ifs at h with hkey
      cases h
      exact ⟨r, hslot, hkey.symm⟩
  | succ k ih =>
    unfold scan at h
    split at h
    · cases h
    · exact ih h
    · rename_i r hslot
      split_ifs at h with hkey
      · cases h
        exact ⟨r, hslot, hkey.symm⟩
      · exact ih h

/-! ## The things a step can do -/

/-- The call has the slot under construction. -/
def GetCall.Builds (id : Nat) : GetCall → Prop
  | .creating _ _ _ id' _ => id' = id
  | _ => False

/-- In the event the call `t`, with the flags, looks for the key from the slot `i` on. -/
def Sought (K : Kind) (T : Table τ) : Event τ → τ → Int → Flags → Nat → Prop
  | .get t key arg flg _, t', key', flg', i =>
    t' = t ∧ key' = key ∧ flg' = flg ∧ K.argOk arg = true ∧ key ≠ ipcPrivate ∧ i = 0
  | .resume t _, t', key', flg', i => t' = t ∧ ∃ arg, T.call t = .searching key' arg flg' i
  | _, _, _, _, _ => False

/-- What a step can do, and what a call returns in it. -/
inductive Effect [DecidableEq τ] (K : Kind) (T : Table τ) (e : Event τ) :
    Table τ → Option Int → Prop
  /-- A call sleeps in `findkey`, or returns without having changed anything. -/
  | settle {t : τ} {c : GetCall} {out : Option Int} (hold : ∀ id, ¬ (T.call t).Builds id)
      (hnew : ∀ id, ¬ c.Builds id)
      (hout : ∀ v, out = some v → 0 ≤ v → ∃ flg i id r, Sought K T e t (T.obj r).key flg i ∧
        ¬ (flg.creat ∧ flg.excl) ∧ T.slot id = .used r ∧
        v = ((T.obj r).seq.toNat * mni + id : Nat)) :
      Effect K T e { T with call := update T.call t c } out
  /-- A call takes a slot. -/
  | reserve {t : τ} {key : Int} {arg : Nat} {flg : Flags} {id space left : Nat}
      (hold : ∀ id, ¬ (T.call t).Builds id) (hslot : T.slot id = .unused) (hid : id < mni)
      (hkey : key = ipcPrivate ∨
        ∃ i, Sought K T e t key flg i ∧ flg.creat = true ∧ findkey T key i = .absent) :
      Effect K T e
        { T with
          slot := update T.slot id .noid
          space := space
          call := update T.call t (.creating key arg flg id left) } none
  /-- One of several allocations has succeeded. -/
  | proceed {t : τ} {key : Int} {arg : Nat} {flg : Flags} {id left left' : Nat}
      (hcall : T.call t = .creating key arg flg id left) :
      Effect K T e
        { T with call := update T.call t (.creating key arg flg id left') } none
  /-- An allocation has failed. -/
  | abandon {t : τ} {key : Int} {arg : Nat} {flg : Flags} {id left : Nat}
      (hcall : T.call t = .creating key arg flg id left) :
      Effect K T e (abandon K t arg id T) (some (-Errno.enomem))
  /-- The object is published. -/
  | finish {t : τ} {key : Int} {arg : Nat} {flg : Flags} {id left : Nat}
      (hcall : T.call t = .creating key arg flg id left) (hleft : left ≤ 1)
      (he : e = .kmalloc t true) :
      Effect K T e (finish K t key arg id T) (some (T.seq * mni + id : Nat))
  /-- The object is removed. -/
  | free {id r : Nat} (hslot : T.slot id = .used r) : Effect K T e (freeObj K id r T) none
  /-- The segment is marked. -/
  | mark {id r : Nat} (hslot : T.slot id = .used r) :
      Effect K T e { T with obj := update T.obj r { T.obj r with dest := true } } none

theorem getExisting_nonneg {T : Table τ} {arg : Nat} {flg : Flags} {denied : Bool} {id r : Nat}
    (hslot : T.slot id = .used r) (h : 0 ≤ getExisting arg flg denied id T) :
    ¬ (flg.creat ∧ flg.excl) ∧
      getExisting arg flg denied id T = ((T.obj r).seq.toNat * mni + id : Nat) := by
  unfold getExisting at h ⊢
  rw [hslot] at h ⊢
  simp only at h ⊢
  split_ifs at h ⊢ with hexcl
  · exact absurd h (by decide)
  · exact absurd h (by decide)
  · exact absurd h (by decide)
  · exact absurd h (by decide)
  · exact ⟨hexcl, rfl⟩

section Effects

variable [DecidableEq τ] {K : Kind} {T : Table τ} {e : Event τ} {t : τ}

theorem Effect.leave (hold : ∀ id, ¬ (T.call t).Builds id) {v : Int} (hv : v < 0) :
    Effect K T e (T.leave t) (some v) := by
  refine .settle hold (fun _ h => h) fun w hw hnonneg => ?_
  cases hw
  omega

theorem newObj_effect {key : Int} {arg : Nat} {flg : Flags}
    (hold : ∀ id, ¬ (T.call t).Builds id)
    (hrefuse : ∀ space e, K.refuses space arg = some e → 0 < e)
    (hkey : key = ipcPrivate ∨
      ∃ i, Sought K T e t key flg i ∧ flg.creat = true ∧ findkey T key i = .absent) :
    Effect K T e (newObj K t key arg flg T).1 (newObj K t key arg flg T).2 := by
  unfold newObj
  cases href : K.refuses T.space arg with
  | some err => exact .leave hold (Int.neg_neg_of_pos (hrefuse _ _ href))
  | none =>
    simp only
    cases hfind : (List.range mni).find? fun id => decide (T.slot id = .unused) with
    | none => exact .leave hold (by decide)
    | some id =>
      have hslot := List.find?_some hfind
      have hmem := List.mem_of_find?_eq_some hfind
      exact .reserve hold (by simpa using hslot) (List.mem_range.1 hmem) hkey

theorem search_effect {key : Int} {arg : Nat} {flg : Flags} {denied : Bool} {i : Nat}
    (hold : ∀ id, ¬ (T.call t).Builds id)
    (hrefuse : ∀ space e, K.refuses space arg = some e → 0 < e) (hsought : Sought K T e t key flg i) :
    Effect K T e (search K t key arg flg denied i T).1 (search K t key arg flg denied i T).2 := by
  unfold search
  cases hfind : findkey T key i with
  | asleep id => exact .settle hold (fun _ h => h) fun v hv => by cases hv
  | found id =>
    obtain ⟨r, hslot, hkey⟩ := scan_found hfind
    refine .settle hold (fun _ h => h) fun v hv hnonneg => ?_
    cases hv
    obtain ⟨hexcl, heq⟩ := getExisting_nonneg hslot hnonneg
    exact ⟨flg, i, id, r, hkey ▸ hsought, hexcl, hslot, heq⟩
  | absent =>
    simp only
    split_ifs with hcreat
    · exact newObj_effect hold hrefuse (.inr ⟨i, hsought, hcreat, hfind⟩)
    · exact .leave hold (by decide)

end Effects

/-- The errors of a table are errors. -/
def Kind.Sane (K : Kind) : Prop := ∀ space arg e, K.refuses space arg = some e → 0 < e

theorem Facility.sane (f : Facility) : f.kind.Sane := by
  intro space arg e h
  cases f with
  | sem =>
    simp only [kind, semKind] at h
    split_ifs at h <;> cases h <;> decide
  | msg => cases h
  | shm =>
    simp only [kind, shmKind] at h
    split_ifs at h <;> cases h <;> decide

/-- **Every step has one of the effects.** -/
theorem stepOut_effect [DecidableEq τ] {K : Kind} (hK : K.Sane) {T T' : Table τ} {e : Event τ}
    {out : Option Int} (h : stepOut K T e = some (T', out)) : Effect K T e T' out := by
  cases e with
  | get t key arg flg denied =>
    simp only [stepOut] at h
    split_ifs at h with hidle
    have hold : ∀ id, ¬ (T.call t).Builds id := by
      rw [hidle]
      exact fun _ h => h
    have heq : sysGet K t key arg flg denied T = (T', out) := Option.some.inj h
    rw [show T' = (sysGet K t key arg flg denied T).1 by rw [heq],
      show out = (sysGet K t key arg flg denied T).2 by rw [heq]]
    unfold sysGet
    split_ifs with harg hkey
    · exact newObj_effect hold (fun space e => hK space _ e) (.inl hkey)
    · exact search_effect hold (fun space e => hK space _ e) ⟨rfl, rfl, rfl, by simpa using harg, hkey, rfl⟩
    · have hself : Effect K T (.get t key arg flg denied)
          { T with call := update T.call t (T.call t) } (some (-Errno.einval)) := by
        refine .settle hold hold fun v hv hnonneg => ?_
        cases hv
        exact absurd hnonneg (by decide)
      rwa [update_eq_self] at hself
  | resume t denied =>
    simp only [stepOut, resume] at h
    cases hcall : T.call t with
    | searching key arg flg id =>
      rw [hcall] at h
      have hold : ∀ id, ¬ (T.call t).Builds id := by
        rw [hcall]
        exact fun _ h => h
      have heq : search K t key arg flg denied id T = (T', out) := Option.some.inj h
      rw [show T' = (search K t key arg flg denied id T).1 by rw [heq],
        show out = (search K t key arg flg denied id T).2 by rw [heq]]
      exact search_effect hold (fun space e => hK space _ e) ⟨rfl, arg, hcall⟩
    | idle | creating =>
      rw [hcall] at h
      cases h
  | kmalloc t ok =>
    simp only [stepOut, kmallocReturns] at h
    cases hcall : T.call t with
    | creating key arg flg id left =>
      rw [hcall] at h
      simp only at h
      split_ifs at h with hok hleft <;> cases h
      · exact .proceed hcall
      · obtain rfl : ok = true := by simpa using hok
        exact .finish hcall (Nat.le_of_not_lt hleft) rfl
      · exact .abandon hcall
    | idle | searching =>
      rw [hcall] at h
      cases h
  | free id =>
    simp only [stepOut] at h
    cases hslot : T.slot id with
    | used r =>
      rw [hslot] at h
      cases h
      exact .free hslot
    | unused | noid =>
      rw [hslot] at h
      cases h
  | mark id =>
    simp only [stepOut] at h
    cases hslot : T.slot id with
    | used r =>
      rw [hslot] at h
      simp only at h
      split_ifs at h
      cases h
      exact .mark hslot
    | unused | noid =>
      rw [hslot] at h
      cases h

/-! ## What holds of every table -/

structure TableInv (T : Table τ) : Prop where
  noid_iff : ∀ id, T.slot id = .noid ↔ ∃ t, (T.call t).Builds id
  builder_unique : ∀ {t t' id}, (T.call t).Builds id → (T.call t').Builds id → t = t'
  used_lt : ∀ {id r}, T.slot id = .used r → r < T.fresh
  used_inj : ∀ {id id' r}, T.slot id = .used r → T.slot id' = .used r → id = id'
  used_le : ∀ {id r}, T.slot id = .used r → id ≤ T.maxId
  slot_lt : ∀ {id}, T.slot id ≠ .unused → id < mni

theorem init_tableInv : TableInv (Table.init : Table τ) where
  noid_iff id := by
    constructor
    · intro h
      cases h
    · rintro ⟨t, h⟩
      cases h
  builder_unique h := by cases h
  used_lt h := by cases h
  used_inj h := by cases h
  used_le h := by cases h
  slot_lt h := absurd rfl h

/-- The bound is lowered to the next slot that is not unused. -/
theorem le_lowerMax {slot : Nat → Slot} {id m : Nat} (hlt : id < m) (hslot : slot id ≠ .unused) :
    id ≤ lowerMax slot m := by
  induction m with
  | zero => omega
  | succ m ih =>
    rw [lowerMax]
    split_ifs with hm
    · refine ih (lt_of_le_of_ne (Nat.le_of_lt_succ hlt) ?_)
      rintro rfl
      exact hslot hm
    · omega

/-- Only the slots, the bound and what the calls build matter. -/
theorem TableInv.congr {T T' : Table τ} (h : TableInv T) (hslot : T'.slot = T.slot)
    (hfresh : T'.fresh = T.fresh) (hmax : T'.maxId = T.maxId)
    (hbuilds : ∀ t id, (T'.call t).Builds id ↔ (T.call t).Builds id) : TableInv T' where
  noid_iff id := by
    rw [hslot, h.noid_iff]
    exact exists_congr fun t => (hbuilds t id).symm
  builder_unique h1 h2 := h.builder_unique ((hbuilds _ _).1 h1) ((hbuilds _ _).1 h2)
  used_lt h1 := by
    rw [hfresh]
    rw [hslot] at h1
    exact h.used_lt h1
  used_inj h1 h2 := by
    rw [hslot] at h1 h2
    exact h.used_inj h1 h2
  used_le h1 := by
    rw [hmax]
    rw [hslot] at h1
    exact h.used_le h1
  slot_lt h1 := by
    rw [hslot] at h1
    exact h.slot_lt h1

theorem TableInv.builds_ne {T : Table τ} (h : TableInv T) {t t' : τ} {id : Nat}
    (hb : (T.call t).Builds id) (hne : t' ≠ t) : ¬ (T.call t').Builds id :=
  fun hb' => hne (h.builder_unique hb' hb)

section Calls

variable [DecidableEq τ] {T : Table τ} {t : τ}

theorem builds_update {call : τ → GetCall} {c : GetCall} {t' : τ} {id : Nat} :
    (update call t c t').Builds id ↔
      t' = t ∧ c.Builds id ∨ t' ≠ t ∧ (call t').Builds id := by
  by_cases h : t' = t
  · subst h
    simp
  · simp [h]

/-- A call that begins to build a slot nobody builds. -/
theorem TableInv.reserve (h : TableInv T) {c : GetCall} {id : Nat} {space : Nat}
    (hold : ∀ id, ¬ (T.call t).Builds id) (hc : ∀ j, c.Builds j ↔ j = id)
    (hslot : T.slot id = .unused) (hid : id < mni) :
    TableInv { T with
      slot := update T.slot id .noid
      space := space
      call := update T.call t c } where
  noid_iff j := by
    simp only [builds_update, hc]
    by_cases hj : j = id
    · subst hj
      simp
    · rw [update_of_ne hj, h.noid_iff]
      refine exists_congr fun t' => ⟨fun hb => .inr ⟨?_, hb⟩, fun hb => ?_⟩
      · rintro rfl
        exact hold j hb
      · exact hb.elim (fun hb => absurd hb.2 hj) And.right
  builder_unique h1 h2 := by
    simp only [builds_update, hc] at h1 h2
    have hnone : ∀ t', ¬ (T.call t').Builds id := by
      intro t' hb
      have := (h.noid_iff id).2 ⟨t', hb⟩
      rw [hslot] at this
      cases this
    rcases h1 with ⟨rfl, rfl⟩ | ⟨hne, h1⟩ <;> rcases h2 with ⟨rfl, h2⟩ | ⟨hne', h2⟩
    · rfl
    · exact absurd h2 (hnone _)
    · exact absurd (h2 ▸ h1) (hnone _)
    · exact h.builder_unique h1 h2
  used_lt {j r} h1 := by
    by_cases hj : j = id
    · subst hj
      simp at h1
    · simp only [update_of_ne hj] at h1
      exact h.used_lt h1
  used_inj {j j' r} h1 h2 := by
    by_cases hj : j = id
    · subst hj
      simp at h1
    · by_cases hj' : j' = id
      · subst hj'
        simp at h2
      · simp only [update_of_ne hj, update_of_ne hj'] at h1 h2
        exact h.used_inj h1 h2
  used_le {j r} h1 := by
    by_cases hj : j = id
    · subst hj
      simp at h1
    · simp only [update_of_ne hj] at h1
      exact h.used_le h1
  slot_lt {j} h1 := by
    by_cases hj : j = id
    · exact hj ▸ hid
    · simp only [update_of_ne hj] at h1
      exact h.slot_lt h1

/-- The call that builds a slot gives it up or fills it. -/
theorem TableInv.close (h : TableInv T) {T' : Table τ} {id : Nat} {x : Slot}
    (hb : ∀ j, (T.call t).Builds j ↔ j = id)
    (hcall : T'.call = update T.call t .idle)
    (hslot : T'.slot = update T.slot id x)
    (hx : x = .unused ∧ T'.fresh = T.fresh ∨ x = .used T.fresh ∧ T'.fresh = T.fresh + 1)
    (hmax : T.maxId ≤ T'.maxId) (hmax' : id ≤ T'.maxId ∨ x = .unused) : TableInv T' := by
  have hnoid : T.slot id = .noid := (h.noid_iff id).2 ⟨t, (hb id).2 rfl⟩
  have hself : T'.slot id = x := by rw [hslot, update_self]
  have hother : ∀ {j}, j ≠ id → T'.slot j = T.slot j := by
    intro j hj
    rw [hslot, update_of_ne hj]
  have hbuilds : ∀ t' j, (T'.call t').Builds j ↔ t' ≠ t ∧ (T.call t').Builds j := by
    intro t' j
    rw [hcall, builds_update]
    simp [GetCall.Builds]
  have hfresh : T.fresh ≤ T'.fresh := by
    rcases hx with ⟨-, hf⟩ | ⟨-, hf⟩ <;> omega
  refine ⟨fun j => ?_, fun h1 h2 => ?_, fun {j r} h1 => ?_, fun {j j' r} h1 h2 => ?_,
    fun {j r} h1 => ?_, fun {j} h1 => ?_⟩
  · simp only [hbuilds]
    by_cases hj : j = id
    · subst hj
      rw [hself]
      constructor
      · intro hxn
        rcases hx with ⟨rfl, -⟩ | ⟨rfl, -⟩ <;> cases hxn
      · rintro ⟨t', hne, hb'⟩
        exact absurd hb' (h.builds_ne ((hb j).2 rfl) hne)
    · rw [hother hj, h.noid_iff]
      refine exists_congr fun t' => ⟨fun hb' => ⟨?_, hb'⟩, And.right⟩
      rintro rfl
      exact hj ((hb j).1 hb')
  · exact h.builder_unique ((hbuilds _ _).1 h1).2 ((hbuilds _ _).1 h2).2
  · by_cases hj : j = id
    · subst hj
      rw [hself] at h1
      rcases hx with ⟨rfl, -⟩ | ⟨rfl, hf⟩
      · cases h1
      · cases h1
        omega
    · rw [hother hj] at h1
      exact lt_of_lt_of_le (h.used_lt h1) hfresh
  · have hnew : ∀ {j r}, j ≠ id → T'.slot j = .used r → r ≠ T.fresh := by
      intro j r hj h1
      rw [hother hj] at h1
      exact (h.used_lt h1).ne
    have hid : ∀ {r}, T'.slot id = .used r → r = T.fresh := by
      intro r h1
      rw [hself] at h1
      rcases hx with ⟨rfl, -⟩ | ⟨rfl, -⟩
      · cases h1
      · exact (Slot.used.inj h1).symm
    by_cases hj : j = id <;> by_cases hj' : j' = id
    · exact hj.trans hj'.symm
    · exact absurd (hid (hj ▸ h1)) (hnew hj' h2)
    · exact absurd (hid (hj' ▸ h2)) (hnew hj h1)
    · rw [hother hj] at h1
      rw [hother hj'] at h2
      exact h.used_inj h1 h2
  · by_cases hj : j = id
    · subst hj
      rcases hmax' with hle | rfl
      · exact hle
      · rw [hself] at h1
        cases h1
    · rw [hother hj] at h1
      exact (h.used_le h1).trans hmax
  · by_cases hj : j = id
    · subst hj
      exact h.slot_lt (by simp [hnoid])
    · rw [hother hj] at h1
      exact h.slot_lt h1

end Calls

theorem TableInv.freeObj {T : Table τ} (h : TableInv T) (K : Kind) {id r : Nat}
    (hslot : T.slot id = .used r) : TableInv (freeObj K id r T) := by
  have hother : ∀ {j}, j ≠ id → (Ipc.freeObj K id r T).slot j = T.slot j :=
    fun hj => update_of_ne hj _ _
  have hself : (Ipc.freeObj K id r T).slot id = .unused := update_self ..
  have hne : ∀ {j r'}, (Ipc.freeObj K id r T).slot j = .used r' → j ≠ id := by
    rintro j r' h1 rfl
    rw [hself] at h1
    cases h1
  refine ⟨fun j => ?_, h.builder_unique, fun {j r'} h1 => ?_, fun {j j' r'} h1 h2 => ?_,
    fun {j r'} h1 => ?_, fun {j} h1 => ?_⟩
  · by_cases hj : j = id
    · subst hj
      rw [hself]
      constructor
      · intro hn
        cases hn
      · intro hb
        have := (h.noid_iff j).2 hb
        rw [hslot] at this
        cases this
    · rw [hother hj]
      exact h.noid_iff j
  · rw [hother (hne h1)] at h1
    exact h.used_lt h1
  · rw [hother (hne h1)] at h1
    rw [hother (hne h2)] at h2
    exact h.used_inj h1 h2
  · have hj := hne h1
    rw [hother hj] at h1
    have hle := h.used_le h1
    simp only [Ipc.freeObj]
    split_ifs with hmax
    · refine le_lowerMax (lt_of_le_of_ne hle ?_) (by simp [h1])
      rw [← hmax]
      exact hj
    · exact hle
  · by_cases hj : j = id
    · subst hj
      exact absurd hself h1
    · rw [hother hj] at h1
      exact h.slot_lt h1

/-- **Every step keeps the invariant.** -/
theorem Effect.tableInv [DecidableEq τ] {K : Kind} {T T' : Table τ} {e : Event τ}
    {out : Option Int} (h : TableInv T) (he : Effect K T e T' out) : TableInv T' := by
  cases he with
  | settle hold hnew =>
    refine h.congr rfl rfl rfl fun t' id => ?_
    rw [builds_update]
    constructor
    · rintro (⟨-, hb⟩ | ⟨-, hb⟩)
      · exact absurd hb (hnew id)
      · exact hb
    · intro hb
      refine .inr ⟨?_, hb⟩
      rintro rfl
      exact hold id hb
  | reserve hold hslot hid => exact h.reserve hold (fun j => eq_comm) hslot hid
  | @proceed t key arg flg id left left' hcall =>
    refine h.congr rfl rfl rfl fun t' j => ?_
    rw [builds_update]
    by_cases ht : t' = t
    · subst ht
      simp [hcall, GetCall.Builds]
    · simp [ht]
  | abandon hcall =>
    exact h.close (fun j => by rw [hcall]; exact eq_comm) rfl rfl (.inl ⟨rfl, rfl⟩) le_rfl
      (.inr rfl)
  | finish hcall =>
    refine h.close (fun j => by rw [hcall]; exact eq_comm) rfl rfl (.inr ⟨rfl, rfl⟩) ?_ (.inl ?_)
    · simp only [Ipc.finish]
      split_ifs <;> omega
    · simp only [Ipc.finish]
      split_ifs <;> omega
  | free hslot => exact h.freeObj K hslot
  | mark hslot => exact h.congr rfl rfl rfl fun _ _ => Iff.rfl

section Objects

variable [DecidableEq τ] {K : Kind} {T T' : Table τ} {e : Event τ} {out : Option Int}

/-- An object keeps the size it was made with. -/
theorem Effect.arg_eq (he : Effect K T e T' out) {r : Nat} (hr : r < T.fresh) :
    (T'.obj r).arg = (T.obj r).arg := by
  cases he with
  | settle | reserve | proceed | abandon => rfl
  | finish => simp only [Ipc.finish, update_of_ne hr.ne]
  | @free id r' _ =>
    by_cases h : r = r'
    · subst h
      simp only [freeObj, update_self]
    · simp only [freeObj, update_of_ne h]
  | @mark id r' _ =>
    by_cases h : r = r'
    · subst h
      simp only [update_self]
    · simp only [update_of_ne h]

theorem Effect.fresh_le (he : Effect K T e T' out) : T.fresh ≤ T'.fresh := by
  cases he with
  | settle | reserve | proceed | abandon | free | mark => exact le_rfl
  | finish => exact Nat.le_succ _

/-- An object that is in the table was there, or has just been made. -/
theorem Effect.used_old (he : Effect K T e T' out) {id r : Nat} (h : T'.slot id = .used r) :
    T.slot id = .used r ∨ r = T.fresh ∧ T'.fresh = T.fresh + 1 := by
  -- a slot that has been written holds `x`
  have hupdate : ∀ {j : Nat} {x : Slot}, update T.slot j x id = .used r →
      T.slot id = .used r ∨ x = .used r := by
    intro j x h
    by_cases hj : id = j
    · subst hj
      rw [update_self] at h
      exact .inr h
    · rw [update_of_ne hj] at h
      exact .inl h
  cases he with
  | settle | proceed | mark => exact .inl h
  | reserve | abandon | free => exact (hupdate h).imp_right fun hx => by cases hx
  | finish =>
    refine (hupdate h).imp_right fun hx => ?_
    cases hx
    exact ⟨rfl, rfl⟩

end Objects

theorem reach_tableInv [DecidableEq τ] (f : Facility) {ok : Table τ → Event τ → Prop}
    {T : Table τ} (h : Transition.Reach (step f.kind) ok Table.init T) : TableInv T := by
  refine h.invariant (I := TableInv) init_tableInv ?_
  intro s e s' hs _ hstep
  obtain ⟨⟨s'', out⟩, hout, rfl⟩ := Option.map_eq_some_iff.1 hstep
  exact (stepOut_effect f.sane hout).tableInv hs

end LinuxEvocation.Ipc
