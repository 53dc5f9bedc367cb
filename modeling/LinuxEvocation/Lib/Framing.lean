import Mathlib.Tactic

/-!
# Frames on a line

Frames are sent with a mark at their end.  Where the mark, or the escape, is part of a frame, it is sent
as the escape and another symbol.  The decoder takes the symbols one by one; it drops an escape that is
followed by another symbol.

* `Marks α` — the four symbols.
* `stuff` — a frame as it is sent; `Decoder.step` — the decoder, with the frames that end.
* `feed_stuff` — a frame that was sent is appended to what the decoder has.
-/

namespace Framing

variable {α : Type*} [DecidableEq α]

/-- The mark and the escape, and what they are after an escape. -/
structure Marks (α : Type*) where
  fin : α
  esc : α
  escFin : α
  escEsc : α
  esc_ne_fin : esc ≠ fin
  escFin_ne_escEsc : escFin ≠ escEsc

/-- What a decoder knows: whether the last symbol was the escape, and the frame so far. -/
structure Decoder (α : Type*) where
  escape : Bool
  frame : List α

namespace Decoder

/-- No frame has begun. -/
def idle : Decoder α := { escape := false, frame := [] }

def push (d : Decoder α) (c : α) : Decoder α := { escape := false, frame := d.frame ++ [c] }

variable (m : Marks α)

/-- The symbol is the end of the frame. -/
def ends (d : Decoder α) (c : α) : Prop := d.escape = false ∧ c = m.fin

instance (d : Decoder α) (c : α) : Decidable (d.ends m c) := inferInstanceAs (Decidable (_ ∧ _))

def step (d : Decoder α) (c : α) : Decoder α :=
  if d.escape then
    if c = m.escEsc then d.push m.esc
    else if c = m.escFin then d.push m.fin
    else { d with escape := false }
  else if c = m.esc then { d with escape := true }
  else if c = m.fin then idle
  else d.push c

end Decoder

variable (m : Marks α)

/-- A symbol of a frame as it is sent. -/
def stuffOne (c : α) : List α :=
  if c = m.fin then [m.esc, m.escFin]
  else if c = m.esc then [m.esc, m.escEsc]
  else [c]

def stuff (p : List α) : List α := p.flatMap (stuffOne m)

@[simp]
theorem stuff_cons (c : α) (p : List α) : stuff m (c :: p) = stuffOne m c ++ stuff m p :=
  List.flatMap_cons

/-- **A run of a decoder over a symbol as it is sent**: what each of its steps does not end a frame, and
the symbol is appended. -/
theorem stuffOne_cases {d : Decoder α} (hd : d.escape = false) (c : α) :
    (∃ e, stuffOne m c = [m.esc, e] ∧ (d.step m m.esc).step m e = d.push c ∧
        (d.step m m.esc).escape = true) ∨
      stuffOne m c = [c] ∧ d.step m c = d.push c ∧ c ≠ m.fin := by
  have hesc : d.step m m.esc = { d with escape := true } := by simp [Decoder.step, hd]
  unfold stuffOne
  by_cases hfin : c = m.fin
  · left
    refine ⟨m.escFin, if_pos hfin, ?_, by rw [hesc]⟩
    rw [hesc, hfin]
    simp [Decoder.step, Decoder.push, m.escFin_ne_escEsc]
  · by_cases hc : c = m.esc
    · left
      refine ⟨m.escEsc, by rw [if_neg hfin, if_pos hc], ?_, by rw [hesc]⟩
      rw [hesc, hc]
      simp [Decoder.step, Decoder.push]
    · right
      refine ⟨by rw [if_neg hfin, if_neg hc], ?_, hfin⟩
      simp [Decoder.step, hd, hfin, hc]

/-- **The rule for a frame that is sent.**  What every step keeps that does not end a frame holds after
it, and the decoder has the frame. -/
theorem feed_stuff {σ : Type*} (view : σ → Decoder α) (next : σ → α → σ) {I : σ → Prop}
    (hview : ∀ s c, view (next s c) = (view s).step m c)
    (hkeep : ∀ s c, I s → ¬ (view s).ends m c → I (next s c)) (p : List α) {s : σ} (hs : I s)
    (hesc : (view s).escape = false) :
    I ((stuff m p).foldl next s) ∧
      view ((stuff m p).foldl next s) = { escape := false, frame := (view s).frame ++ p } := by
  induction p generalizing s with
  | nil =>
    refine ⟨hs, ?_⟩
    rw [List.append_nil, ← hesc]
    rfl
  | cons c p ih =>
    rw [stuff_cons, List.foldl_append]
    have hone : I ((stuffOne m c).foldl next s) ∧
        view ((stuffOne m c).foldl next s) = (view s).push c := by
      rcases stuffOne_cases m hesc c with ⟨e, heq, hpush, htrue⟩ | ⟨heq, hpush, hne⟩
      · rw [heq]
        constructor
        · refine hkeep _ e (hkeep s m.esc hs fun hends => m.esc_ne_fin hends.2) fun hends => ?_
          rw [hview, Decoder.ends, htrue] at hends
          exact Bool.noConfusion hends.1
        · rw [← hpush, ← hview, ← hview]
          rfl
      · rw [heq]
        exact ⟨hkeep s c hs fun hends => hne hends.2, (hview s c).trans hpush⟩
    obtain ⟨hI, hpush⟩ := hone
    obtain ⟨hI', heq⟩ := ih hI (by rw [hpush]; rfl)
    refine ⟨hI', ?_⟩
    rw [heq, hpush, Decoder.push, List.append_assoc, List.singleton_append]

end Framing
