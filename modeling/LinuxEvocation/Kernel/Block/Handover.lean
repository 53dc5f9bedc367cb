import LinuxEvocation.Kernel.Block.Requests

/-!
# What a step of `make_request` does

* `Handed`, `takeSlot_handed` — a buffer that is locked goes into a request that is there, gets one
  of its own, is given up, or waits.
* `Tried`, `takeLock_tried` — the same from `lock_buffer` on.
* `Made`, `makeRequest_made` — the same from the beginning.
-/

namespace LinuxEvocation.Requests

open Function (update)
open Block (Rw freeSlot)

variable {d : Device} {s s' : State} {t b : Nat} {rw : Rw}

/-! ## The queue -/

theorem insertAfter_perm {tmp : Block.Key} {req : Req} {rs : List Req} :
    (insertAfter tmp req rs).Perm (req :: rs) := by
  induction rs generalizing tmp with
  | nil => exact List.Perm.refl _
  | cons r rs ih =>
    rw [insertAfter]
    split
    · exact List.Perm.refl _
    · exact (ih.cons r).trans (List.Perm.swap req r rs)

theorem addRequest_perm {plug : Option Block.Key} {reqs : List Req} {req : Req} :
    (addRequest plug reqs req).Perm (req :: reqs) := by
  cases plug with
  | none =>
    cases reqs with
    | nil => exact List.Perm.refl _
    | cons r rs => exact (insertAfter_perm.cons r).trans (List.Perm.swap req r rs)
  | some k => exact insertAfter_perm

theorem freeSlot_eq_some {used : Nat → Bool} {n i : Nat} (h : freeSlot used n = some i) :
    used i = false := by
  induction n with
  | zero => cases h
  | succ n ih =>
    rw [freeSlot] at h
    split at h
    case isTrue => exact ih h
    case isFalse hn =>
      obtain rfl := Option.some.inj h
      exact Bool.eq_false_iff.mpr hn

/-- The search leaves out a part of the queue in front. -/
theorem untouched_append (h : candidates d s ≠ []) : untouched d s ++ candidates d s = s.reqs := by
  unfold untouched
  unfold candidates at h ⊢
  by_cases hm : d.major = 3 ∨ d.major = 8 ∨ d.major = 11
  · rw [if_pos hm] at h ⊢
    by_cases h3 : d.major = 3 ∧ s.plug.isNone = true
    · rw [if_pos h3, if_pos h3]
      cases s.reqs <;> rfl
    · rw [if_neg h3, if_neg h3]
      rfl
  · rw [if_neg hm] at h
    exact absurd rfl h

/-- One request of the list takes the buffer. -/
theorem mergeAny_eq_some {reqnext next : Nat → Nat} {cmd : Bool} {rs rs' : List Req}
    (h : mergeAny d reqnext cmd b rs = some (rs', next)) :
    ∃ l r r' l', rs = l ++ r :: l' ∧ mergeOne d reqnext cmd b r = some (r', next) ∧
      rs' = l ++ r' :: l' := by
  induction rs generalizing rs' with
  | nil => cases h
  | cons r rs ih =>
    rw [mergeAny] at h
    split at h
    case _ r' next' hone =>
      obtain ⟨rfl, rfl⟩ := Prod.mk.inj (Option.some.inj h)
      exact ⟨[], r, r', rs, rfl, hone, rfl⟩
    case _ =>
      obtain ⟨⟨rs'', next'⟩, hany, heq⟩ := Option.map_eq_some_iff.mp h
      obtain ⟨rfl, rfl⟩ := Prod.mk.inj heq
      obtain ⟨l, q, q', l', rfl, hone, rfl⟩ := ih hany
      exact ⟨r :: l, q, q', l', rfl, hone, rfl⟩

/-- The buffer fits behind the request, or before it. -/
theorem mergeOne_cases {reqnext next : Nat → Nat} {cmd : Bool} {r r' : Req}
    (h : mergeOne d reqnext cmd b r = some (r', next)) :
    r.dev = (d.bh b).dev ∧ r.cmd = cmd ∧ r.nrSectors < 254 ∧
      (r.sector + r.nrSectors = d.sector b ∧
          r' = { r with bhtail := b, nrSectors := r.nrSectors + d.count b } ∧
          next = update reqnext r.bhtail b ∨
        r.sector - d.count b = d.sector b ∧
          r' = { r with
            nrSectors := r.nrSectors + d.count b
            buffer := (d.bh b).data
            currentNrSectors := d.count b
            sector := d.sector b
            bh := b } ∧
          next = update reqnext b r.bh) := by
  rw [mergeOne] at h
  split at h
  case isTrue hback =>
    obtain ⟨rfl, rfl⟩ := Prod.mk.inj (Option.some.inj h)
    exact ⟨hback.1, hback.2.1, hback.2.2.2, .inl ⟨hback.2.2.1, rfl, rfl⟩⟩
  case isFalse =>
    split at h
    case isTrue hfront =>
      obtain ⟨rfl, rfl⟩ := Prod.mk.inj (Option.some.inj h)
      exact ⟨hfront.1, hfront.2.1, hfront.2.2.2, .inr ⟨hfront.2.2.1, rfl, rfl⟩⟩
    case isFalse => cases h

theorem mergeOne_slot {reqnext next : Nat → Nat} {cmd : Bool} {r r' : Req}
    (h : mergeOne d reqnext cmd b r = some (r', next)) : r'.slot = r.slot := by
  obtain ⟨-, -, -, ⟨-, rfl, -⟩ | ⟨-, rfl, -⟩⟩ := mergeOne_cases h <;> rfl

/-! ## The buffer is locked -/

/-- What happens to a buffer that is locked. -/
inductive Handed (d : Device) (s : State) (t : Nat) (rw : Rw) (b : Nat) : State → Prop
  | merged {l l' : List Req} {r r' : Req} {next : Nat → Nat} (hreqs : s.reqs = l ++ r :: l')
      (hr : r ∈ candidates d s) (hone : mergeOne d s.reqnext rw.isWrite b r = some (r', next)) :
      Handed d s t rw b
        { s.setCall t none with
          reqs := l ++ r' :: l'
          reqnext := next
          dirt := update s.dirt b false }
  | queued {i : Nat} (hfree : s.used i = false) :
      Handed d s t rw b
        { s.setCall t none with
          reqs := addRequest s.plug s.reqs (newReq d i rw.isWrite b)
          used := update s.used i true
          dirt := update s.dirt b false }
  | dropped (hahead : rw.ahead = true) : Handed d s t rw b ((s.unlock b).setCall t none)
  | waits : Handed d s t rw b (s.setCall t (some ⟨rw, b, .slotWait⟩))

theorem takeSlot_handed : Handed d s t rw b (takeSlot d s t rw b) := by
  unfold takeSlot
  split
  case _ s₁ hmerge =>
    obtain ⟨⟨rs, next⟩, hany, rfl⟩ := Option.map_eq_some_iff.mp hmerge
    obtain ⟨l, r, r', l', hc, hone, rfl⟩ := mergeAny_eq_some hany
    have hr : r ∈ candidates d s := by simp [hc]
    have hreqs : s.reqs = (untouched d s ++ l) ++ r :: l' := by
      rw [List.append_assoc, ← hc, untouched_append (List.ne_nil_of_mem hr)]
    have hmerged := Handed.merged (t := t) hreqs hr hone
    rw [List.append_assoc] at hmerged
    exact hmerged
  case _ =>
    split
    case _ i hi => exact .queued (freeSlot_eq_some hi)
    case _ =>
      split
      case isTrue hahead => exact .dropped hahead
      case isFalse => exact .waits

/-! ## The buffer is to be locked -/

/-- The state when a task has locked a buffer. -/
def State.locked (s : State) (rw : Rw) (b : Nat) : State :=
  { s with
    lock := update s.lock b true
    asked := update s.asked b rw.isWrite }

/-- What happens to a buffer from `lock_buffer` on. -/
inductive Tried (d : Device) (s : State) (t : Nat) (rw : Rw) (b : Nat) : State → Prop
  | lockWait (hlock : s.lock b = true) : Tried d s t rw b (s.setCall t (some ⟨rw, b, .lockWait⟩))
  | clean (hlock : s.lock b = false) (hclean : clean s rw b = true) :
      Tried d s t rw b ((s.unlock b).setCall t none)
  | handed {s' : State} (hlock : s.lock b = false) (hclean : Requests.clean s rw b = false)
      (h : Handed d (s.locked rw b) t rw b s') : Tried d s t rw b s'

theorem takeLock_tried : Tried d s t rw b (takeLock d s t rw b) := by
  unfold takeLock
  by_cases hlock : s.lock b = true
  · rw [if_pos hlock]
    exact .lockWait hlock
  · rw [if_neg hlock]
    rw [Bool.not_eq_true] at hlock
    by_cases hclean : clean s rw b = true
    · rw [if_pos hclean]
      exact .clean hlock hclean
    · rw [if_neg hclean]
      exact .handed hlock (Bool.not_eq_true _ ▸ hclean) takeSlot_handed

/-- What `make_request` does. -/
inductive Made (d : Device) (s : State) (t : Nat) (rw : Rw) (b : Nat) : State → Prop
  | ignored (hahead : rw.ahead = true ∧ s.lock b = true) : Made d s t rw b s
  | tooBig (hbig : d.tooBig b = true) :
      Made d s t rw b
        { s with
          dirt := update s.dirt b false
          uptodate := update s.uptodate b false }
  | tried {s' : State} (hbig : d.tooBig b = false) (h : Tried d s t rw b s') : Made d s t rw b s'

theorem makeRequest_made : Made d s t rw b (makeRequest d s t rw b) := by
  unfold makeRequest
  by_cases hahead : rw.ahead = true ∧ s.lock b = true
  · rw [if_pos hahead]
    exact .ignored hahead
  · rw [if_neg hahead]
    by_cases hbig : d.tooBig b = true
    · rw [if_pos hbig]
      exact .tooBig hbig
    · rw [if_neg hbig]
      exact .tried (Bool.not_eq_true _ ▸ hbig) takeLock_tried

end LinuxEvocation.Requests
