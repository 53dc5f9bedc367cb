import LinuxEvocation.Ipc.Invariant

/-!
# Keys of System V IPC objects

A call with `IPC_CREAT` creates an object when `findkey` has not found the key.  A slot under
construction makes a search wait; but the search stops at the bound, which is raised only when
the construction is finished, and after a sleep it does not look at the slots it had passed.

* `Bears` — a slot holds, or is going to hold, an object with a key.
* `searchesAll` — the condition on a step: a search that ends has not missed a slot that bears
  its key.
* `keys_unique` — in every run whose steps meet it, no key is borne twice, and a call with
  `IPC_CREAT|IPC_EXCL` succeeds only when no object has the key.
* `keys_collide` — without it, two semaphore sets get the same key.
-/

namespace LinuxEvocation.Ipc

open Function (update update_of_ne update_self)

variable {τ : Type*}

/-- The call builds an object with the key in the slot. -/
def GetCall.BuildsFor (id : Nat) (key : Int) : GetCall → Prop
  | .creating key' _ _ id' _ => id' = id ∧ key' = key
  | _ => False

theorem GetCall.BuildsFor.builds {c : GetCall} {id : Nat} {key : Int} (h : c.BuildsFor id key) :
    c.Builds id := by
  cases c with
  | creating => exact h.1
  | idle | searching => cases h

/-- The slot holds an object with the key, or a call builds one there. -/
def Bears (T : Table τ) (id : Nat) (key : Int) : Prop :=
  (∃ r, T.slot id = .used r ∧ (T.obj r).key = key) ∨ ∃ t, (T.call t).BuildsFor id key

/-- A search that ends, having last slept at the slot `i`, has not looked at the slot since:
it is below `i`, or above the bound. -/
def Unseen (T : Table τ) (i id : Nat) : Prop := id < i ∨ max i T.maxId < id

/-- The condition on a step: when the search of a call with `IPC_CREAT` ends without the key,
no slot it has not looked at bears the key. -/
def searchesAll (K : Kind) (T : Table τ) (e : Event τ) : Prop :=
  ∀ t key flg i, Sought K T e t key flg i → flg.creat = true → findkey T key i = .absent →
    ∀ id, Unseen T i id → ¬ Bears T id key

/-- The call that acts in the event, with its key and flags. -/
def Acts (T : Table τ) : Event τ → τ → Int → Flags → Prop
  | .get t key _ flg _, t', key', flg' => t' = t ∧ key' = key ∧ flg' = flg
  | .resume t _, t', key', flg' => t' = t ∧ ∃ arg i, T.call t = .searching key' arg flg' i
  | .kmalloc t _, t', key', flg' => t' = t ∧ ∃ arg id left, T.call t = .creating key' arg flg' id left
  | _, _, _, _ => False

/-- The flags of a search are those of the call that acts. -/
theorem Sought.flags_eq {K : Kind} {T : Table τ} {e : Event τ} {t t' : τ} {key key' : Int}
    {flg flg' : Flags} {i : Nat} (h : Sought K T e t key flg i) (h' : Acts T e t' key' flg') :
    flg = flg' := by
  cases e with
  | get =>
    obtain ⟨-, -, rfl, -⟩ := h
    obtain ⟨-, -, rfl⟩ := h'
    rfl
  | resume =>
    obtain ⟨-, arg, hc⟩ := h
    obtain ⟨-, arg', i', hc'⟩ := h'
    rw [hc] at hc'
    cases hc'
    rfl
  | kmalloc | free | mark => cases h

/-- What holds of the keys. -/
structure KeyInv (T : Table τ) : Prop where
  table : TableInv T
  unique : ∀ {id id' key}, key ≠ ipcPrivate → Bears T id key → Bears T id' key → id = id'

/-- A search that has ended has missed no slot that bears the key, given the condition. -/
theorem not_bears_of_absent {K : Kind} {T : Table τ} {e : Event τ} {t : τ} {key : Int}
    {flg : Flags} {i : Nat} (h : TableInv T) (hall : searchesAll K T e)
    (hsought : Sought K T e t key flg i) (hcreat : flg.creat = true)
    (habsent : findkey T key i = .absent) (id : Nat) : ¬ Bears T id key := by
  by_cases hunseen : Unseen T i id
  · exact hall t key flg i hsought hcreat habsent id hunseen
  · -- the last stretch of the search went from `i` to the bound without sleeping
    unfold Unseen at hunseen
    obtain ⟨hnoid, hused⟩ := scan_absent habsent id (by omega) (by omega)
    rintro (⟨r, hr, hkey⟩ | ⟨t', hb⟩)
    · exact hused r hr hkey
    · exact hnoid ((h.noid_iff id).2 ⟨t', hb.builds⟩)

/-- While an object is built, no other object has its key. -/
theorem KeyInv.builds_alone {T : Table τ} (h : KeyInv T) {t : τ} {key : Int} {arg : Nat} {flg : Flags}
    {id left : Nat} (hcall : T.call t = .creating key arg flg id left) (hkey : key ≠ ipcPrivate)
    {j r : Nat} (hr : T.slot j = .used r) : (T.obj r).key ≠ key := by
  intro hk
  have hbuilds : (T.call t).BuildsFor id key := by
    rw [hcall]
    exact ⟨rfl, rfl⟩
  have heq := h.unique hkey (.inl ⟨r, hr, hk⟩) (.inr ⟨t, hbuilds⟩)
  have hnoid := (h.table.noid_iff id).2 ⟨t, hbuilds.builds⟩
  rw [← heq, hr] at hnoid
  cases hnoid

/-- No two live objects have the same key. -/
def KeysUnique (T : Table τ) : Prop :=
  ∀ id id' r r', T.slot id = .used r → T.slot id' = .used r' →
    (T.obj r).key = (T.obj r').key → (T.obj r).key ≠ ipcPrivate → id = id'

theorem init_keyInv : KeyInv (Table.init : Table τ) := by
  refine ⟨init_tableInv, fun {id id' key} _ hb => ?_⟩
  rcases hb with ⟨r, hr, -⟩ | ⟨t, hb⟩
  · cases hr
  · cases hb

section Steps

variable [DecidableEq τ] {K : Kind} {T T' : Table τ} {e : Event τ} {out : Option Int}

theorem buildsFor_update {call : τ → GetCall} {c : GetCall} {t t' : τ} {id : Nat} {key : Int}
    (h : (update call t c t').BuildsFor id key) :
    c.BuildsFor id key ∨ (call t').BuildsFor id key := by
  by_cases ht : t' = t
  · subst ht
    rw [update_self] at h
    exact .inl h
  · rw [update_of_ne ht] at h
    exact .inr h

/-- A slot that bears a key after a step did so before, unless the step has just taken it. -/
theorem Effect.bears (hinv : TableInv T) (he : Effect K T e T' out) {j : Nat} {key : Int}
    (hb : Bears T' j key) :
    Bears T j key ∨ key = ipcPrivate ∨
      ∃ t flg i, Sought K T e t key flg i ∧ flg.creat = true ∧ findkey T key i = .absent ∧
        ∀ j', Bears T' j' key → Bears T j' key ∨ j' = j := by
  cases he with
  | @settle t c out hold hnew =>
    rcases hb with hb | ⟨t', hb⟩
    · exact .inl (.inl hb)
    · rcases buildsFor_update hb with hb | hb
      · exact absurd hb.builds (hnew j)
      · exact .inl (.inr ⟨t', hb⟩)
  | @reserve t key' arg flg id space left hold hslot hid hkey =>
    -- a slot other than the one taken is as it was
    have hback : ∀ j' k, Bears { T with
        slot := update T.slot id .noid
        space := space
        call := update T.call t (.creating key' arg flg id left) } j' k →
        Bears T j' k ∨ id = j' ∧ key' = k := by
      rintro j' k (⟨r, hr, hk⟩ | ⟨t', hb⟩)
      · by_cases hj : j' = id
        · subst hj
          simp at hr
        · simp only [update_of_ne hj] at hr
          exact .inl (.inl ⟨r, hr, hk⟩)
      · rcases buildsFor_update hb with hb | hb
        · exact .inr hb
        · exact .inl (.inr ⟨t', hb⟩)
    rcases hback j key hb with hb | ⟨rfl, rfl⟩
    · exact .inl hb
    · rcases hkey with hkey | ⟨i, hsought, hcreat, habsent⟩
      · exact .inr (.inl hkey)
      · refine .inr (.inr ⟨t, flg, i, hsought, hcreat, habsent, fun j' hb' => ?_⟩)
        exact (hback j' key' hb').imp_right fun h => h.1.symm
  | @proceed t key' arg flg id left left' hcall =>
    rcases hb with hb | ⟨t', hb⟩
    · exact .inl (.inl hb)
    · rcases buildsFor_update hb with hb | hb
      · exact .inl (.inr ⟨t, by rw [hcall]; exact hb⟩)
      · exact .inl (.inr ⟨t', hb⟩)
  | @abandon t key' arg flg id left hcall =>
    rcases hb with ⟨r, hr, hk⟩ | ⟨t', hb⟩
    · by_cases hj : j = id
      · subst hj
        simp [Ipc.abandon] at hr
      · simp only [Ipc.abandon, update_of_ne hj] at hr
        exact .inl (.inl ⟨r, hr, hk⟩)
    · rcases buildsFor_update hb with hb | hb
      · cases hb
      · exact .inl (.inr ⟨t', hb⟩)
  | @finish t key' arg flg id left hcall =>
    rcases hb with ⟨r, hr, hk⟩ | ⟨t', hb⟩
    · by_cases hj : j = id
      · subst hj
        simp only [Ipc.finish, update_self, Slot.used.injEq] at hr
        subst hr
        simp only [Ipc.finish, update_self] at hk
        exact .inl (.inr ⟨t, by rw [hcall]; exact ⟨rfl, hk⟩⟩)
      · simp only [Ipc.finish, update_of_ne hj] at hr
        have hne : r ≠ T.fresh := (hinv.used_lt hr).ne
        simp only [Ipc.finish, update_of_ne hne] at hk
        exact .inl (.inl ⟨r, hr, hk⟩)
    · rcases buildsFor_update hb with hb | hb
      · cases hb
      · exact .inl (.inr ⟨t', hb⟩)
  | @free id r hslot =>
    rcases hb with ⟨r', hr, hk⟩ | hb
    · by_cases hj : j = id
      · subst hj
        simp [freeObj] at hr
      · simp only [freeObj, update_of_ne hj] at hr
        have hne : r' ≠ r := by
          rintro rfl
          exact hj (hinv.used_inj hr hslot)
        simp only [freeObj, update_of_ne hne] at hk
        exact .inl (.inl ⟨r', hr, hk⟩)
    · exact .inl (.inr hb)
  | @mark id r hslot =>
    rcases hb with ⟨r', hr, hk⟩ | hb
    · refine .inl (.inl ⟨r', hr, ?_⟩)
      by_cases hne : r' = r
      · subst hne
        simpa using hk
      · simpa [hne] using hk
    · exact .inl (.inr hb)

/-- A step that meets the condition keeps the keys apart. -/
theorem KeyInv.step (h : KeyInv T) (he : Effect K T e T' out) (hall : searchesAll K T e) :
    KeyInv T' := by
  refine ⟨he.tableInv h.table, fun {id id' key} hkey hb hb' => ?_⟩
  rcases he.bears h.table hb with h1 | h1 | ⟨t, flg, i, hsought, hcreat, habsent, hothers⟩
  · rcases he.bears h.table hb' with h2 | h2 | ⟨t, flg, i, hsought, hcreat, habsent, -⟩
    · exact h.unique hkey h1 h2
    · exact absurd h2 hkey
    · exact absurd h1 (not_bears_of_absent h.table hall hsought hcreat habsent id)
  · exact absurd h1 hkey
  · rcases hothers id' hb' with h2 | h2
    · exact absurd h2 (not_bears_of_absent h.table hall hsought hcreat habsent id')
    · exact h2.symm

/-- A call with `IPC_CREAT|IPC_EXCL` succeeds only when no live object has its key. -/
def ExclSound (K : Kind) (T : Table τ) : Prop :=
  ∀ e T' v t key flg, stepOut K T e = some (T', some v) → 0 ≤ v → Acts T e t key flg →
    flg.creat = true → flg.excl = true → key ≠ ipcPrivate →
    ∀ id r, T.slot id = .used r → (T.obj r).key ≠ key

theorem KeyInv.exclSound (h : KeyInv T) (hK : K.Sane) : ExclSound K T := by
  intro e T' v t key flg hstep hv hacts hcreat hexcl hkey id r hr
  cases stepOut_effect hK hstep with
  | settle hold hnew hout =>
    obtain ⟨flg', i, id', r', hsought, hflg, -⟩ := hout v rfl hv
    obtain rfl := hsought.flags_eq hacts
    exact absurd ⟨hcreat, hexcl⟩ hflg
  | abandon => exact absurd hv (by decide)
  | finish hcall hleft he =>
    subst he
    obtain ⟨rfl, arg', id', left', hcall'⟩ := hacts
    rw [hcall] at hcall'
    cases hcall'
    exact h.builds_alone hcall hkey hr

/-- **Keys are unique** in every run in which no search misses a slot that bears its key. -/
theorem keys_unique (f : Facility)
    (h : Transition.Reach (step f.kind) (searchesAll f.kind) Table.init T) :
    KeysUnique T ∧ ExclSound f.kind T := by
  have hinv : KeyInv T := by
    refine h.invariant (I := KeyInv) init_keyInv ?_
    intro s e s' hs hall hstep
    obtain ⟨⟨s'', out⟩, hout, rfl⟩ := Option.map_eq_some_iff.1 hstep
    exact hs.step (stepOut_effect f.sane hout) hall
  refine ⟨fun id id' r r' hr hr' hkey hne => ?_, hinv.exclSound f.sane⟩
  exact hinv.unique hne (.inl ⟨r, hr, rfl⟩) (.inl ⟨r', hr', hkey.symm⟩)

end Steps

/-! ## Two runs -/

/-- A search from the start, while nobody builds an object, looks at every slot in use. -/
theorem searchesAll_of_quiet {K : Kind} {T : Table τ} {e : Event τ} (h : TableInv T)
    (hquiet : ∀ t id, ¬ (T.call t).Builds id)
    (hstart : ∀ t key flg i, Sought K T e t key flg i → i = 0) : searchesAll K T e := by
  intro t key flg i hsought _ _ id hunseen
  obtain rfl := hstart t key flg i hsought
  rintro (⟨r, hr, -⟩ | ⟨t', hb⟩)
  · have := h.used_le hr
    unfold Unseen at hunseen
    omega
  · exact hquiet t' id hb.builds

/-- The table of a run of two tasks on semaphore sets. -/
def semRun (es : List (Event (Fin 2))) : Table (Fin 2) :=
  (Transition.execFrom (step semKind) Table.init es).getD Table.init

theorem semRun_reach {es : List (Event (Fin 2))}
    (h : (Transition.execFrom (step semKind) Table.init es).isSome = true) :
    Transition.Reach (step semKind) Transition.anyStep Table.init (semRun es) := by
  obtain ⟨T, hT⟩ := Option.isSome_iff_exists.1 h
  rw [semRun, hT]
  exact .of_execFrom .init hT

/-- One task creates a set while the other waits for it in `findkey` and then creates a set of
its own. -/
theorem keys_unique_two_sets :
    ∃ T : Table (Fin 2), T.slot 0 = .used 0 ∧ T.slot 1 = .used 1 ∧ KeysUnique T ∧
      ExclSound semKind T := by
  have h1 : Transition.Reach (step semKind) (searchesAll semKind) Table.init
      (semRun [.get 0 5 1 ⟨true, true⟩ false]) := by
    refine .step (.get 0 5 1 ⟨true, true⟩ false) .init ?_ rfl
    refine searchesAll_of_quiet init_tableInv (fun _ _ hb => hb) ?_
    rintro t key flg i ⟨-, -, -, -, -, rfl⟩
    rfl
  have h2 : Transition.Reach (step semKind) (searchesAll semKind) Table.init
      (semRun [.get 0 5 1 ⟨true, true⟩ false, .get 1 6 1 ⟨true, false⟩ false]) := by
    refine .step (.get 1 6 1 ⟨true, false⟩ false) h1 ?_ rfl
    rintro t key flg i ⟨-, rfl, -, -, -, rfl⟩ _ habsent
    cases habsent
  have h3 : Transition.Reach (step semKind) (searchesAll semKind) Table.init
      (semRun [.get 0 5 1 ⟨true, true⟩ false, .get 1 6 1 ⟨true, false⟩ false,
        .kmalloc 0 true]) := by
    refine .step (.kmalloc 0 true) h2 ?_ rfl
    rintro t key flg i hsought
    cases hsought
  have h4 : Transition.Reach (step semKind) (searchesAll semKind) Table.init
      (semRun [.get 0 5 1 ⟨true, true⟩ false, .get 1 6 1 ⟨true, false⟩ false,
        .kmalloc 0 true, .resume 1 false]) := by
    refine .step (.resume 1 false) h3 (searchesAll_of_quiet (reach_tableInv .sem h3) ?_ ?_) rfl
    · intro t id
      fin_cases t <;> exact fun hb => hb
    · rintro t key flg i ⟨rfl, arg, hcall⟩
      cases hcall
      rfl
  have h5 : Transition.Reach (step semKind) (searchesAll semKind) Table.init
      (semRun [.get 0 5 1 ⟨true, true⟩ false, .get 1 6 1 ⟨true, false⟩ false,
        .kmalloc 0 true, .resume 1 false, .kmalloc 1 true]) := by
    refine .step (.kmalloc 1 true) h4 ?_ rfl
    rintro t key flg i hsought
    cases hsought
  exact ⟨_, rfl, rfl, keys_unique .sem h5⟩

/-- **A slot above the bound is not waited for.**  A set with key 9 is in slot 0.  One task
begins to create a set with key 5 in slot 1; the other, with `IPC_CREAT|IPC_EXCL`, searches slot
0 only and creates a second one in slot 2. -/
theorem keys_collide :
    ¬ ∀ T : Table (Fin 2), Transition.Reach (step semKind) Transition.anyStep Table.init T →
      KeysUnique T := by
  intro hall
  have hreach : Transition.Reach (step semKind) Transition.anyStep Table.init
      (semRun [.get 0 9 1 ⟨true, false⟩ false, .kmalloc 0 true,
        .get 0 5 1 ⟨true, false⟩ false, .get 1 5 1 ⟨true, true⟩ false, .kmalloc 0 true,
        .kmalloc 1 true]) :=
    semRun_reach rfl
  have := hall _ hreach 1 2 1 2 rfl rfl rfl (by decide)
  cases this

end LinuxEvocation.Ipc
