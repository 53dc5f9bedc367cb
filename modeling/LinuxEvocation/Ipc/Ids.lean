import LinuxEvocation.Ipc.Invariant

/-!
# Identifiers of System V IPC objects

An identifier is `seq * 128 + id`: the slot of the object and the value of the table's counter
when the object was created.  The counter is an `int`, and the object keeps it in a `ushort`.

* `countsFit` — the condition on a step: an object is created while the counter fits.
* `IdInv`, `Effect.idInv` — what holds in every run whose steps meet it.
* `identifiers_valid` — then the identifier of a live object is accepted, a `*get` that finds
  the object returns the same identifier, and identifiers of removed objects are rejected.
* `identifier_rejected` — after 65536 removals a set is created whose identifier is rejected.
-/

namespace LinuxEvocation.Ipc

open Function (update update_of_ne update_self)

variable {τ : Type*}

/-- The condition on a step: if it completes an object, the counter fits in a `ushort`. -/
def countsFit (T : Table τ) (e : Event τ) : Prop :=
  ∀ t key arg flg id left, e = .kmalloc t true → T.call t = .creating key arg flg id left →
    left ≤ 1 → T.seq < 65536

/-- What holds of the identifiers. -/
structure IdInv (T : Table τ) : Prop where
  table : TableInv T
  ident : ∀ {id r}, T.slot id = .used r → (T.obj r).ident = (T.obj r).seq.toNat * mni + id
  epoch_le : ∀ {id r}, T.slot id = .used r → (T.obj r).epoch ≤ T.epoch
  seq_le : ∀ {id r}, T.slot id = .used r → (T.obj r).epoch = T.epoch →
    (T.obj r).seq.toNat ≤ T.seq
  gone_lt : ∀ i ∈ T.gone, i / mni < T.seq
  gone_used : ∀ i ∈ T.gone, ∀ r, T.slot (i % mni) = .used r → i / mni < (T.obj r).seq.toNat

theorem init_idInv : IdInv (Table.init : Table τ) where
  table := init_tableInv
  ident h := by cases h
  epoch_le h := by cases h
  seq_le h := by cases h
  gone_lt i hi := by cases hi
  gone_used i hi := by cases hi

/-- Only the live objects, the counter and the list of removed identifiers matter. -/
theorem IdInv.congr {T T' : Table τ} (h : IdInv T) (htable : TableInv T')
    (hseq : T'.seq = T.seq) (hepoch : T'.epoch = T.epoch) (hgone : T'.gone = T.gone)
    (hused : ∀ {id r}, T'.slot id = .used r → T.slot id = .used r ∧
      (T'.obj r).ident = (T.obj r).ident ∧ (T'.obj r).seq = (T.obj r).seq ∧
      (T'.obj r).epoch = (T.obj r).epoch) : IdInv T' where
  table := htable
  ident hr := by
    obtain ⟨h1, h2, h3, -⟩ := hused hr
    rw [h2, h3]
    exact h.ident h1
  epoch_le hr := by
    obtain ⟨h1, -, -, h4⟩ := hused hr
    rw [h4, hepoch]
    exact h.epoch_le h1
  seq_le hr he := by
    obtain ⟨h1, -, h3, h4⟩ := hused hr
    rw [h4, hepoch] at he
    rw [h3, hseq]
    exact h.seq_le h1 he
  gone_lt i hi := by
    rw [hgone] at hi
    rw [hseq]
    exact h.gone_lt i hi
  gone_used i hi r hr := by
    rw [hgone] at hi
    obtain ⟨h1, -, h3, -⟩ := hused hr
    rw [h3]
    exact h.gone_used i hi r h1

theorem mod_mni {n id : Nat} (h : id < mni) : (n * mni + id) % mni = id := by
  unfold mni at *
  omega

theorem div_mni {n id : Nat} (h : id < mni) : (n * mni + id) / mni = n := by
  unfold mni at *
  omega

/-- An identifier is accepted when its slot is in use and the sequence numbers agree. -/
theorem lookup_eq_ok {T : Table τ} {i r : Nat} :
    lookup T (i : Int) = .ok r ↔
      T.slot (i % mni) = .used r ∧ (T.obj r).seq.toNat = i / mni := by
  unfold lookup
  rw [if_neg (by omega), Int.toNat_natCast]
  cases hslot : T.slot (i % mni) with
  | used r' =>
    simp only [Slot.used.injEq]
    split_ifs with hne
    · constructor
      · intro h
        cases h
      · rintro ⟨rfl, heq⟩
        exact absurd heq hne
    · constructor
      · intro h
        cases h
        exact ⟨rfl, not_not.1 hne⟩
      · rintro ⟨rfl, -⟩
        rfl
  | unused | noid => simp

section Steps

variable [DecidableEq τ] {K : Kind} {T T' : Table τ} {e : Event τ} {out : Option Int}

/-- An object is published while the counter fits. -/
theorem IdInv.finish (h : IdInv T) {t : τ} {key : Int} {arg id : Nat}
    (htable : TableInv (finish K t key arg id T)) (hid : id < mni) (hfit : T.seq < 65536) :
    IdInv (finish K t key arg id T) := by
  have hself : (Ipc.finish K t key arg id T).slot id = .used T.fresh := update_self ..
  have hobj : (Ipc.finish K t key arg id T).obj T.fresh =
      { key := key
        seq := UInt16.ofNat T.seq
        arg := arg
        dest := false
        ident := T.seq * mni + id
        epoch := T.epoch } := update_self ..
  have hseq : (UInt16.ofNat T.seq).toNat = T.seq := by
    rw [UInt16.toNat_ofNat']
    exact Nat.mod_eq_of_lt hfit
  have hother : ∀ {j r}, (Ipc.finish K t key arg id T).slot j = .used r → j ≠ id →
      T.slot j = .used r ∧ (Ipc.finish K t key arg id T).obj r = T.obj r := by
    intro j r hr hj
    have hslot : T.slot j = .used r := (update_of_ne hj _ _).symm.trans hr
    exact ⟨hslot, update_of_ne (h.table.used_lt hslot).ne _ _⟩
  have hnew : ∀ {r}, (Ipc.finish K t key arg id T).slot id = .used r → r = T.fresh := by
    intro r hr
    exact (Slot.used.inj (hself.symm.trans hr)).symm
  refine ⟨htable, fun {j r} hr => ?_, fun {j r} hr => ?_, fun {j r} hr he => ?_, h.gone_lt,
    fun i hi r hr => ?_⟩
  · by_cases hj : j = id
    · subst hj
      rw [hnew hr, hobj]
      exact congrArg (fun n => n * mni + j) hseq.symm
    · obtain ⟨h1, h2⟩ := hother hr hj
      rw [h2]
      exact h.ident h1
  · by_cases hj : j = id
    · subst hj
      rw [hnew hr, hobj]
      exact le_rfl
    · obtain ⟨h1, h2⟩ := hother hr hj
      rw [h2]
      exact h.epoch_le h1
  · by_cases hj : j = id
    · subst hj
      rw [hnew hr, hobj]
      exact hseq.le
    · obtain ⟨h1, h2⟩ := hother hr hj
      rw [h2] at he ⊢
      exact h.seq_le h1 he
  · by_cases hj : i % mni = id
    · rw [hj] at hr
      rw [hnew hr, hobj]
      exact lt_of_lt_of_eq (h.gone_lt i hi) hseq.symm
    · obtain ⟨h1, h2⟩ := hother hr hj
      rw [h2]
      exact h.gone_used i hi r h1

end Steps

/-- The counter is reset, or goes up by one. -/
theorem bumpSeq_cases (n : Nat) : bumpSeq n = 0 ∨ bumpSeq n = n + 1 := by
  unfold bumpSeq
  split_ifs
  · exact .inl rfl
  · exact .inr rfl

theorem IdInv.freeObj {T : Table τ} (h : IdInv T) (K : Kind) {id r : Nat}
    (hslot : T.slot id = .used r) : IdInv (freeObj K id r T) := by
  have hother : ∀ {j r'}, (Ipc.freeObj K id r T).slot j = .used r' →
      j ≠ id ∧ T.slot j = .used r' ∧ (Ipc.freeObj K id r T).obj r' = T.obj r' := by
    intro j r' hr
    have hj : j ≠ id := by
      rintro rfl
      rw [show (Ipc.freeObj K j r T).slot j = .unused from update_self ..] at hr
      cases hr
    have hslot' : T.slot j = .used r' := (update_of_ne hj _ _).symm.trans hr
    refine ⟨hj, hslot', update_of_ne ?_ _ _⟩
    rintro rfl
    exact hj (h.table.used_inj hslot' hslot)
  have hid : id < mni := h.table.slot_lt (by simp [hslot])
  have hident := h.ident hslot
  refine ⟨h.table.freeObj K hslot, fun {j r'} hr => ?_, fun {j r'} hr => ?_,
    fun {j r'} hr he => ?_, fun i hi => ?_, fun i hi r' hr => ?_⟩
  · obtain ⟨-, h1, h2⟩ := hother hr
    rw [h2]
    exact h.ident h1
  · obtain ⟨-, h1, h2⟩ := hother hr
    have hle := h.epoch_le h1
    rw [h2]
    simp only [Ipc.freeObj]
    split_ifs <;> omega
  · obtain ⟨-, h1, h2⟩ := hother hr
    have hle := h.epoch_le h1
    rw [h2] at he ⊢
    rcases bumpSeq_cases T.seq with hb | hb
    · -- an object of the new epoch would be from the future
      simp only [Ipc.freeObj, hb, if_true] at he
      omega
    · simp only [Ipc.freeObj, hb, Nat.add_one_ne_zero, if_false] at he ⊢
      have := h.seq_le h1 he
      omega
  · simp only [Ipc.freeObj] at hi ⊢
    rcases bumpSeq_cases T.seq with hb | hb
    · simp [hb] at hi
    · simp only [hb, Nat.add_one_ne_zero, if_false] at hi ⊢
      split_ifs at hi with hepoch
      · rcases List.mem_cons.1 hi with rfl | hi
        · rw [hident, div_mni hid]
          exact Nat.lt_succ_of_le (h.seq_le hslot hepoch)
        · exact Nat.lt_succ_of_lt (h.gone_lt i hi)
      · exact Nat.lt_succ_of_lt (h.gone_lt i hi)
  · obtain ⟨hj, h1, h2⟩ := hother hr
    rw [h2]
    simp only [Ipc.freeObj] at hi
    rcases bumpSeq_cases T.seq with hb | hb
    · simp [hb] at hi
    · simp only [hb, Nat.add_one_ne_zero, if_false] at hi
      split_ifs at hi with hepoch
      · rcases List.mem_cons.1 hi with rfl | hi
        · rw [hident, mod_mni hid] at hj
          exact absurd rfl hj
        · exact h.gone_used i hi r' h1
      · exact h.gone_used i hi r' h1

section Runs

variable [DecidableEq τ] {K : Kind} {T T' : Table τ} {e : Event τ} {out : Option Int}

/-- A step that meets the condition keeps the identifiers valid. -/
theorem Effect.idInv (he : Effect K T e T' out) (h : IdInv T) (hfit : countsFit T e) :
    IdInv T' := by
  have htable := he.tableInv h.table
  cases he with
  | settle | proceed => exact h.congr htable rfl rfl rfl fun hr => ⟨hr, rfl, rfl, rfl⟩
  | @reserve t key arg flg id space left hold hslot =>
    refine h.congr htable rfl rfl rfl fun {j r} hr => ⟨?_, rfl, rfl, rfl⟩
    by_cases hj : j = id
    · subst hj
      simp at hr
    · simpa only [update_of_ne hj] using hr
  | @abandon t key arg flg id left hcall =>
    refine h.congr htable rfl rfl rfl fun {j r} hr => ⟨?_, rfl, rfl, rfl⟩
    by_cases hj : j = id
    · subst hj
      simp [Ipc.abandon] at hr
    · simpa only [Ipc.abandon, update_of_ne hj] using hr
  | @finish t key arg flg id left hcall hleft hkm =>
    refine h.finish htable ?_ (hfit t key arg flg id left hkm hcall hleft)
    have hnoid := (h.table.noid_iff id).2 ⟨t, by rw [hcall]; rfl⟩
    exact h.table.slot_lt (by simp [hnoid])
  | free hslot => exact h.freeObj K hslot
  | @mark id r hslot =>
    refine h.congr htable rfl rfl rfl fun {j r'} hr => ⟨hr, ?_⟩
    by_cases hne : r' = r
    · subst hne
      simp
    · simp [hne]

/-- What the identifiers promise of a state. -/
structure IdentsValid (K : Kind) (T : Table τ) : Prop where
  /-- The identifier of a live object is accepted. -/
  accepted : ∀ id r, T.slot id = .used r → lookup T (T.obj r).ident = .ok r
  /-- An identifier issued since the counter was last reset is rejected once its object is
  removed. -/
  rejected : ∀ i ∈ T.gone, ∀ r, lookup T (i : Nat) ≠ .ok r
  /-- A `*get` that succeeds returns the identifier of the object it has created, or of a live
  object with the key it looked for. -/
  returned : ∀ e T' v, stepOut K T e = some (T', some v) → 0 ≤ v →
    (∃ t key arg flg id left r, e = .kmalloc t true ∧
      T.call t = .creating key arg flg id left ∧ T'.slot id = .used r ∧
      (T'.obj r).key = key ∧ v = (T'.obj r).ident) ∨
    ∃ t flg i id r, Sought K T e t (T.obj r).key flg i ∧ T.slot id = .used r ∧
      v = (T.obj r).ident

theorem IdInv.identsValid (h : IdInv T) (hK : K.Sane) : IdentsValid K T where
  accepted id r hr := by
    have hid : id < mni := h.table.slot_lt (by simp [hr])
    rw [h.ident hr, lookup_eq_ok, mod_mni hid, div_mni hid]
    exact ⟨hr, rfl⟩
  rejected i hi r hlook := by
    obtain ⟨hslot, hseq⟩ := lookup_eq_ok.1 hlook
    have := h.gone_used i hi r hslot
    omega
  returned e T' v hstep hv := by
    cases stepOut_effect hK hstep with
    | @settle t c out hold hnew hout =>
      obtain ⟨flg, i, id, r, hsought, -, hslot, rfl⟩ := hout v rfl hv
      exact .inr ⟨t, flg, i, id, r, hsought, hslot, by rw [h.ident hslot]⟩
    | abandon => exact absurd hv (by decide)
    | @finish t key arg flg id left hcall hleft he =>
      refine .inl ⟨t, key, arg, flg, id, left, T.fresh, he, hcall, ?_, ?_, ?_⟩ <;>
        simp [Ipc.finish]

/-- **Identifiers are valid** in every run in which objects are created only while the counter
fits. -/
theorem identifiers_valid (f : Facility)
    (h : Transition.Reach (step f.kind) countsFit Table.init T) : IdentsValid f.kind T := by
  have hinv : IdInv T := by
    refine h.invariant (I := IdInv) init_idInv ?_
    intro s e s' hs hfit hstep
    obtain ⟨⟨s'', out⟩, hout, rfl⟩ := Option.map_eq_some_iff.1 hstep
    exact (stepOut_effect f.sane hout).idInv hs hfit
  exact hinv.identsValid f.sane

end Runs

/-! ## Two runs -/

/-- The slot of the first set is used again, and the identifier of the first set is rejected. -/
theorem identifiers_valid_reused_slot :
    ∃ T : Table Unit, T.slot 0 = .used 1 ∧ T.gone = [0] ∧ IdentsValid semKind T := by
  have hrun : (Transition.execOkFrom (step semKind) (fun T _ => T.seq < 65536) Table.init
      [.get () 0 1 ⟨true, false⟩ false, .kmalloc () true, .free 0,
        .get () 0 1 ⟨true, false⟩ false, .kmalloc () true]).map
      (fun T => (T.slot 0, T.gone)) = some (.used 1, [0]) := by
    decide +kernel
  obtain ⟨T, hT, hval⟩ := Option.map_eq_some_iff.1 hrun
  have hreach : Transition.Reach (step semKind) countsFit Table.init T := by
    refine Transition.Reach.of_execOkFrom (fun s e hs => ?_) .init hT
    exact fun _ _ _ _ _ _ _ _ _ => by simpa using hs
  exact ⟨T, congrArg Prod.fst hval, congrArg Prod.snd hval, identifiers_valid .sem hreach⟩

/-- A table without objects, after `n` removals. -/
structure Emptied (n : Nat) (T : Table Unit) : Prop where
  reach : Transition.Reach (step semKind) Transition.anyStep Table.init T
  slot : T.slot = fun _ => .unused
  call : T.call () = .idle
  seq : T.seq = n
  space : T.space = 0

/-- The table after a private set has been created in an empty one. -/
def createPrivate (T : Table Unit) : Table Unit :=
  finish semKind () 0 1 0 (newObj semKind () 0 1 ⟨true, false⟩ T).1

theorem createPrivate_reach {n : Nat} {T : Table Unit} (h : Emptied n T) :
    Transition.Reach (step semKind) Transition.anyStep Table.init (createPrivate T) := by
  have hget : stepOut semKind T (.get () 0 1 ⟨true, false⟩ false) =
      some (newObj semKind () 0 1 ⟨true, false⟩ T) := by
    rw [stepOut, if_pos h.call]
    rfl
  have hnew : (newObj semKind () 0 1 ⟨true, false⟩ T).1.call () =
      .creating 0 1 ⟨true, false⟩ 0 1 := by
    unfold newObj
    rw [h.slot, h.space]
    rfl
  have hkm : stepOut semKind (newObj semKind () 0 1 ⟨true, false⟩ T).1 (.kmalloc () true) =
      some (createPrivate T,
        some (((newObj semKind () 0 1 ⟨true, false⟩ T).1.seq * mni + 0 : Nat) : Int)) := by
    simp only [stepOut, kmallocReturns, hnew]
    rfl
  have hreach : Transition.Reach (step semKind) Transition.anyStep Table.init
      (newObj semKind () 0 1 ⟨true, false⟩ T).1 := by
    refine .step (.get () 0 1 ⟨true, false⟩ false) h.reach trivial ?_
    rw [step, hget]
    rfl
  refine .step (.kmalloc () true) hreach trivial ?_
  rw [step, hkm]
  rfl

theorem createPrivate_spec {n : Nat} {T : Table Unit} (h : Emptied n T) :
    (createPrivate T).slot = update (fun _ => .unused) 0 (.used T.fresh) ∧
      (createPrivate T).obj T.fresh = ⟨0, UInt16.ofNat n, 1, false, n * mni + 0, T.epoch⟩ ∧
      (createPrivate T).seq = n ∧ (createPrivate T).space = 1 ∧
      (createPrivate T).call () = .idle := by
  have hnew : newObj semKind () 0 1 ⟨true, false⟩ T =
      ({ T with
         slot := update T.slot 0 .noid
         space := 1
         call := update T.call () (.creating 0 1 ⟨true, false⟩ 0 1) }, none) := by
    unfold newObj
    rw [h.slot, h.space]
    rfl
  unfold createPrivate
  rw [hnew]
  simp [finish, h.slot, h.seq, semKind]

theorem Emptied.next {n : Nat} {T : Table Unit} (h : Emptied n T) (hn : n + 2 < 2 ^ 24) :
    ∃ T', Emptied (n + 1) T' := by
  obtain ⟨hslot, hobj, hseq, hspace, hcall⟩ := createPrivate_spec h
  have hused : (createPrivate T).slot 0 = .used T.fresh := by rw [hslot, update_self]
  refine ⟨freeObj semKind 0 T.fresh (createPrivate T), ?_, ?_, hcall, ?_, ?_⟩
  · refine .step (.free 0) (createPrivate_reach h) trivial ?_
    rw [step, stepOut, hused]
    rfl
  · funext id
    rw [freeObj, hslot]
    by_cases hid : id = 0
    · simp [hid]
    · simp [hid]
  · simp only [freeObj, hseq, bumpSeq, mni]
    rw [if_neg (by omega)]
  · simp only [freeObj, hspace, hobj, semKind]

theorem emptied (n : Nat) (hn : n + 1 < 2 ^ 24) : ∃ T, Emptied n T := by
  induction n with
  | zero => exact ⟨Table.init, .init, rfl, rfl, rfl, rfl⟩
  | succ n ih =>
    obtain ⟨T, hT⟩ := ih (by omega)
    exact hT.next (by omega)

/-- **The counter outgrows the field.**  After 65536 sets have been removed, the next one keeps
the sequence number 0 and its identifier, 8388608, is answered with `-EIDRM`. -/
theorem identifier_rejected :
    ¬ ∀ T : Table Unit, Transition.Reach (step semKind) Transition.anyStep Table.init T →
      ∀ id r, T.slot id = .used r → lookup T (T.obj r).ident = .ok r := by
  intro hall
  obtain ⟨T, hT⟩ := emptied 65536 (by decide)
  obtain ⟨hslot, hobj, -⟩ := createPrivate_spec hT
  have hused : (createPrivate T).slot 0 = .used T.fresh := by rw [hslot, update_self]
  have hok := hall _ (createPrivate_reach hT) 0 T.fresh hused
  rw [hobj, lookup_eq_ok, hobj] at hok
  have hzero : (UInt16.ofNat 65536).toNat = (65536 * mni + 0) / mni := hok.2
  exact absurd hzero (by decide)

end LinuxEvocation.Ipc
