import LinuxEvocation.Kernel.Signal.Passes

/-!
# Handlers that return to handlers

Every frame returns to the handler below it, and the first one that is built to where the process was
interrupted.

* `FrameAt`, `Frames` — one frame in memory, and all of them.
* `nested_handlers` — which handlers run, with what blocked, and where the process is afterwards.
-/

namespace LinuxEvocation.Signal

open WordMemory

/-! ## Frames -/

/-- Where the stores of a frame go. -/
def frameOffsets : List (BitVec 32) :=
  [0, 4, 8, 12, 16, 20, 24, 28, 32, 36, 40, 44, 48, 52, 56, 60, 64, 68, 72, 76, 80, 84, 88, 92,
    codeOffset + 0, codeOffset + 4, codeOffset + 8, codeOffset + 12, codeOffset + 16,
    codeOffset + 20, codeOffset + 24, codeOffset + 2, codeOffset + 7]

/-- Nothing has touched a frame since it was built. -/
def FrameAt (mem : Mem) (frame eip : BitVec 32) (regs : PtRegs) (signr oldmask : BitVec 32) : Prop :=
  ∃ m, ∀ a, a - frame < 128 → mem a = putAll m frame (frameWords frame eip regs signr oldmask) a

section Frame

variable {mem mem' : Mem} {frame eip signr oldmask : BitVec 32} {regs : PtRegs}

theorem map_frameWords :
    (frameWords frame eip regs signr oldmask).map Prod.fst = frameOffsets :=
  rfl

/-- A word of a frame that has not been changed. -/
theorem FrameAt.word (h : FrameAt mem frame eip regs signr oldmask) {k : BitVec 32}
    (hkept : ∀ a, k ≤ a - frame → a - frame < 128 → mem' a = mem a) {n : Nat} {o v : BitVec 32}
    (hn : (frameWords frame eip regs signr oldmask)[n]? = some (o, v))
    (ho : k.toNat ≤ o.toNat ∧ o.toNat + 4 ≤ 128)
    (hlast : (frameOffsets.drop (n + 1)).all (Apart o ·) = true) : get mem' (frame + o) = v := by
  obtain ⟨m, hm⟩ := h
  have hapart : ∀ p ∈ frameOffsets.drop (n + 1), Apart o p := fun p hp =>
    of_decide_eq_true (List.all_eq_true.mp hlast p hp)
  rw [← get_putAll (m := m) (f := frame) hn (by rwa [map_frameWords])]
  apply get_congr
  intro a ha
  have hin : k ≤ a - frame ∧ a - frame < 128 := by
    rw [sub_add_eq_sub_sub] at ha
    generalize a - frame = d at *
    have hfour : (4 : BitVec 32).toNat = 4 := rfl
    have h128 : (128 : BitVec 32).toNat = 128 := rfl
    simp only [BitVec.lt_def, BitVec.le_def, BitVec.toNat_sub] at *
    omega
  rw [hkept a hin.1 hin.2, hm a hin.2]

theorem frameAt_setupFrame {fp : BitVec 32} :
    FrameAt (setupFrame fp eip regs signr oldmask mem).2 (fp - 4 * 32) eip regs signr oldmask :=
  ⟨mem, fun _ _ => rfl⟩

theorem setupFrame_of_outside {fp a : BitVec 32} (h : 128 ≤ a - (fp - 4 * 32)) :
    (setupFrame fp eip regs signr oldmask mem).2 a = mem a := by
  have hoffsets : ∀ o ∈ frameOffsets, o.toNat + 4 ≤ (128 : BitVec 32).toNat := by
    intro o ho
    have hall : frameOffsets.all (fun o => o.toNat + 4 ≤ 128) = true := by decide
    simpa using List.all_eq_true.mp hall o ho
  rw [← @map_frameWords (fp - 4 * 32) eip signr oldmask regs] at hoffsets
  exact putAll_of_outside hoffsets h

theorem FrameAt.congr (h : FrameAt mem frame eip regs signr oldmask)
    (hkept : ∀ a, a - frame < 128 → mem' a = mem a) :
    FrameAt mem' frame eip regs signr oldmask := by
  obtain ⟨m, hm⟩ := h
  exact ⟨m, fun a ha => (hkept a ha).trans (hm a ha)⟩

/-- A handler that has returned goes on with the return code of its frame, which restores the registers
of the process, blocks what the frame says, and leaves for where the frame says. -/
theorem returnCode_eq {top : BitVec 32} {mask : Mask} {u u' : User}
    (h : FrameAt u.mem u.cpu.esp eip regs signr mask.bits) (hh : Handled top u u')
    (hkept : ∀ a, 8 ≤ a - u.cpu.esp → a - u.cpu.esp < 128 → u'.mem a = u.mem a)
    (hcs : u.cpu.cs = regs.cs) (hss : u.cpu.ss = regs.ss) :
    returnCode u' =
      ⟨{ regs.toCpu with eip := eip, esp := u.cpu.esp + 128 }, mask, u'.mem⟩ := by
  have hword (n : Nat) (o : BitVec 32) {p v : BitVec 32}
      (hn : (frameWords u.cpu.esp eip regs signr mask.bits)[n]? = some (p, v)) (hp : 4 + o = p)
      (ho : (8 : BitVec 32).toNat ≤ p.toNat ∧ p.toNat + 4 ≤ 128)
      (hlast : (frameOffsets.drop (n + 1)).all (Apart p ·) = true) :
      get u'.mem (u'.cpu.esp + o) = v := by
    rw [hh.esp, add_assoc, hp]
    exact h.word hkept hn ho hlast
  have heip : u'.cpu.eip = u.cpu.esp + codeOffset := by
    have hret : get u.mem (u.cpu.esp + 0) = u.cpu.esp + codeOffset :=
      h.word (k := 0) (fun _ _ _ => rfl) (n := 0) rfl (by decide) rfl
    rw [add_zero] at hret
    rw [hh.eip, hret]
  have hmask : get u'.mem (u'.cpu.eip + 7) = mask.bits := by
    rw [heip, add_assoc]
    exact h.word hkept (n := 32) rfl (by decide) rfl
  have hsegment (x : BitVec 16) : (x.setWidth 32).setWidth 16 = x := by
    rw [BitVec.setWidth_setWidth_of_le _ (by decide), BitVec.setWidth_eq]
  have hesp : u'.cpu.esp + 92 + 32 = u.cpu.esp + 128 := by
    rw [hh.esp, add_assoc, add_assoc]
    rfl
  unfold returnCode
  simp only
  rw [hmask, Mask.of_bits, hesp, hh.cs, hh.ss, hcs, hss,
    hword 2 4 rfl rfl (by decide) rfl,
    hword 3 8 rfl rfl (by decide) rfl,
    hword 4 12 rfl rfl (by decide) rfl,
    hword 5 16 rfl rfl (by decide) rfl,
    hword 6 20 rfl rfl (by decide) rfl,
    hword 7 24 rfl rfl (by decide) rfl,
    hword 8 28 rfl rfl (by decide) rfl,
    hword 10 36 rfl rfl (by decide) rfl,
    hword 11 40 rfl rfl (by decide) rfl,
    hword 12 44 rfl rfl (by decide) rfl,
    hword 13 48 rfl rfl (by decide) rfl,
    hword 22 84 rfl rfl (by decide) rfl,
    hword 23 88 rfl rfl (by decide) rfl, hsegment, hsegment, hsegment, hsegment]

end Frame

/-! ## All frames -/

/-- Where the frame of the `k`th handler is, for a process with the stack at `top`. -/
def fp (top : BitVec 32) (k : Nat) : BitVec 32 := top - BitVec.ofNat 32 (128 * k)

section Frames

variable (sa : Nat → Sigaction) (regs : PtRegs) (oldmask : Mask)

/-- Where the last frame returns to below handlers, the last one first. -/
def eipOf : List Nat → BitVec 32
  | [] => regs.eip
  | s :: _ => (sa s).handler

/-- A mask to which those of handlers have been added. -/
def maskOf : List Nat → Mask
  | [] => oldmask
  | s :: l => (maskOf l).union (sa s).mask

/-- The frames of handlers are on the stack, the last one first. -/
def Frames (mem : Mem) : List Nat → Prop
  | [] => True
  | s :: l =>
    FrameAt mem (fp regs.esp (l.length + 1)) (eipOf sa regs l) regs (BitVec.ofNat 32 (s + 1))
      (maskOf sa oldmask l).bits ∧ Frames mem l

/-- An action after its handler has been called. -/
def spent (sa : Sigaction) : Sigaction :=
  if sa.flags &&& saOneshot ≠ 0 then { sa with handler := sigDfl } else sa

/-- What the second pass has built for handlers, the last one first. -/
structure Built (t : Task) (b : Build) (l : List Nat) : Prop where
  frame : b.frame = fp regs.esp l.length
  eip : b.eip = eipOf t.sigaction regs l
  mask : b.oldmask = maskOf t.sigaction oldmask l
  task : b.task =
    { t with
      sigaction := fun s => if s ∈ l then spent (t.sigaction s) else t.sigaction s
      blocked := maskOf t.sigaction t.blocked l }
  frames : Frames t.sigaction regs oldmask b.mem l

variable {sa regs oldmask} {t : Task} {mem mem' : Mem} {top a : BitVec 32} {l : List Nat}

theorem fp_succ (top : BitVec 32) (k : Nat) : fp top k - 4 * 32 = fp top (k + 1) := by
  rw [fp, fp, sub_sub, Nat.mul_succ, BitVec.ofNat_add]
  rfl

theorem toNat_sub_fp {k : Nat} (hk : k ≤ 32) :
    (a - fp top k).toNat = ((a - top).toNat + 128 * k) % 2 ^ 32 := by
  have hoff : (BitVec.ofNat 32 (128 * k)).toNat = 128 * k := by
    rw [BitVec.toNat_ofNat, Nat.mod_eq_of_lt (by omega)]
  rw [fp, ← sub_add, BitVec.toNat_add, hoff]

/-- A frame lies between the last one and the stack of the process. -/
theorem below_top {j k : Nat} (hj : 0 < j) (hjk : j ≤ k) (hk : k ≤ 32) (h : a - fp top j < 128) :
    a - fp top k < top - fp top k := by
  have h128 : (128 : BitVec 32).toNat = 128 := rfl
  have htop : (top - top).toNat = 0 := by rw [sub_self]; rfl
  rw [BitVec.lt_def, toNat_sub_fp (hjk.trans hk), h128] at h
  rw [BitVec.lt_def, toNat_sub_fp hk, toNat_sub_fp hk, htop]
  omega

theorem fp_zero (top : BitVec 32) : fp top 0 = top :=
  sub_zero top

theorem fp_succ_add (top : BitVec 32) (k : Nat) : fp top (k + 1) + 128 = fp top k := by
  rw [← fp_succ]
  exact sub_add_cancel _ _

theorem Frames.congr (h : Frames sa regs oldmask mem l) {k : Nat} (hlk : l.length ≤ k) (hk : k ≤ 32)
    (hkept : ∀ a, a - fp regs.esp k < regs.esp - fp regs.esp k → mem' a = mem a) :
    Frames sa regs oldmask mem' l := by
  induction l with
  | nil => trivial
  | cons s l ih =>
    obtain ⟨hs, hl⟩ := h
    rw [List.length_cons] at hlk
    refine ⟨hs.congr fun a ha => hkept a (below_top (Nat.succ_pos _) hlk hk ha), ih hl (by omega)⟩

theorem buildFrame_built {b : Build} {s : Nat} (hb : Built regs oldmask t b l) (hs : s ∉ l)
    (hl : l.length < 32) : Built regs oldmask t (buildFrame regs b s) (s :: l) := by
  have hsa : b.task.sigaction s = t.sigaction s := by
    rw [hb.task]
    exact if_neg hs
  have hmem : (buildFrame regs b s).mem =
      (setupFrame b.frame b.eip regs (BitVec.ofNat 32 (s + 1)) b.oldmask.bits b.mem).2 := rfl
  have hnext : b.frame - 4 * 32 = fp regs.esp (l.length + 1) := by rw [hb.frame, fp_succ]
  constructor
  case frame => exact hnext
  case eip => exact congrArg Sigaction.handler hsa
  case mask =>
    simp only [buildFrame]
    rw [hb.mask, hsa, maskOf]
  case task =>
    simp only [buildFrame]
    rw [hsa, hb.task, maskOf]
    simp only [Task.mk.injEq, true_and, and_true]
    funext r
    by_cases hr : r = s
    · subst hr
      rw [if_pos List.mem_cons_self, spent]
      split
      · rw [Function.update_self]
      · exact if_neg hs
    · have hcons : r ∈ s :: l ↔ r ∈ l := by rw [List.mem_cons, or_iff_right hr]
      simp only [hcons]
      split
      · rw [Function.update_of_ne hr]
      · rfl
  case frames =>
    rw [hmem]
    refine ⟨?_, hb.frames.congr (Nat.le_refl _) (by omega) fun a ha => setupFrame_of_outside ?_⟩
    · have hframe := @frameAt_setupFrame b.mem b.eip (BitVec.ofNat 32 (s + 1)) b.oldmask.bits regs
        b.frame
      rw [hnext] at hframe
      rw [← hb.eip, ← hb.mask]
      exact hframe
    · -- the new frame ends where the others begin
      rw [hnext]
      have h128 : (128 : BitVec 32).toNat = 128 := rfl
      have htop : (regs.esp - regs.esp).toNat = 0 := by rw [sub_self]; rfl
      rw [BitVec.lt_def, toNat_sub_fp (by omega), toNat_sub_fp (by omega), htop] at ha
      rw [BitVec.le_def, toNat_sub_fp (by omega), h128]
      omega

theorem foldl_buildFrame {b : Build} {picked : List Nat} (hb : Built regs oldmask t b l)
    (hnodup : (picked.reverse ++ l).Nodup) (hlen : picked.length + l.length ≤ 32) :
    Built regs oldmask t (picked.foldl (buildFrame regs) b) (picked.reverse ++ l) := by
  induction picked generalizing b l with
  | nil => exact hb
  | cons s picked ih =>
    rw [List.reverse_cons, List.append_assoc, List.singleton_append] at hnodup ⊢
    rw [List.length_cons] at hlen
    have hs : s ∉ l := (List.nodup_cons.mp (List.nodup_append.mp hnodup).2.1).1
    refine ih (buildFrame_built hb hs (by omega)) hnodup ?_
    rw [List.length_cons]
    omega

/-! ## The handlers run -/

/-- The calls of handlers, the first of which has `blocked` blocked and every other one what the frame
above it says. -/
def calls (sa : Nat → Sigaction) (oldmask : Mask) (blocked : Mask) : List Nat → List Call
  | [] => []
  | s :: l => ⟨(sa s).handler, BitVec.ofNat 32 (s + 1), blocked⟩ ::
      calls sa oldmask (maskOf sa oldmask l) l

theorem Handled.kept {u u' : User} (h : Handled top u u') (h8 : 8 ≤ a - u.cpu.esp)
    (hlt : a - u.cpu.esp < top - u.cpu.esp) : u'.mem a = u.mem a := by
  apply h.mem
  rw [sub_add_eq_sub_sub, sub_add_eq_sub_sub]
  have height : (8 : BitVec 32).toNat = 8 := rfl
  simp only [BitVec.lt_def, BitVec.le_def, BitVec.toNat_sub] at *
  omega

theorem runs_eq {u u' : User} {cs : List Call} (h : Runs regs.esp u cs u')
    (hn : cs.length = l.length) (hl : l.length ≤ 32) (heip : u.cpu.eip = eipOf sa regs l)
    (hesp : u.cpu.esp = fp regs.esp l.length) (hcs : u.cpu.cs = regs.cs) (hss : u.cpu.ss = regs.ss)
    (hframes : Frames sa regs oldmask u.mem l) :
    cs = calls sa oldmask u.blocked l ∧
      (l = [] ∧ u' = u ∨ l ≠ [] ∧ u'.cpu = regs.toCpu ∧ u'.blocked = oldmask) := by
  induction l generalizing u cs with
  | nil =>
    cases h with
    | done => exact ⟨rfl, .inl ⟨rfl, rfl⟩⟩
    | handler => exact absurd hn (Nat.succ_ne_zero _)
  | cons s l ih =>
    cases h with
    | done => exact absurd hn.symm (Nat.succ_ne_zero _)
    | handler hh hrest =>
      rename_i u₁ cs
      obtain ⟨hframe, hframes⟩ := hframes
      rw [List.length_cons] at hn hl hesp
      rw [← hesp] at hframe
      have hsignr : get u.mem (u.cpu.esp + 4) = BitVec.ofNat 32 (s + 1) :=
        hframe.word (k := 4) (fun _ _ _ => rfl) (n := 1) rfl (by decide) rfl
      have hkept : ∀ a, 8 ≤ a - u.cpu.esp → a - u.cpu.esp < 128 → u₁.mem a = u.mem a := by
        intro a h8 ha
        apply hh.kept h8
        rw [hesp] at ha ⊢
        exact below_top (Nat.succ_pos _) le_rfl hl ha
      have habove : ∀ a, a - fp regs.esp l.length < regs.esp - fp regs.esp l.length →
          u₁.mem a = u.mem a := by
        intro a ha
        have height : (8 : BitVec 32).toNat = 8 := rfl
        have htop : (regs.esp - regs.esp).toNat = 0 := by rw [sub_self]; rfl
        rw [BitVec.lt_def, toNat_sub_fp (by omega), toNat_sub_fp (by omega), htop] at ha
        apply hh.kept <;> rw [hesp]
        · rw [BitVec.le_def, toNat_sub_fp hl, height]
          omega
        · rw [BitVec.lt_def, toNat_sub_fp hl, toNat_sub_fp hl, htop]
          omega
      have hreturn := returnCode_eq hframe hh hkept hcs hss
      rw [hesp, fp_succ_add] at hreturn
      rw [hreturn] at hrest
      obtain ⟨hcalls, hend⟩ := ih hrest (Nat.succ.inj hn) (by omega) rfl rfl rfl rfl
        (hframes.congr le_rfl (by omega) habove)
      refine ⟨?_, .inr ⟨List.cons_ne_nil _ _, ?_⟩⟩
      · rw [hcalls, calls, User.call, heip, hsignr]
        rfl
      · rcases hend with ⟨rfl, rfl⟩ | ⟨-, hcpu, hblocked⟩
        · exact ⟨congrArg (fun esp => { regs.toCpu with esp }) (fp_zero regs.esp), rfl⟩
        · exact ⟨hcpu, hblocked⟩

/-- A call by its place: the first has `blocked` blocked, the others what is right for the signals from
theirs down. -/
theorem getElem?_calls {blocked : Mask} {i s : Nat} (h : l[i]? = some s) :
    ∃ rest, l.drop i = s :: rest ∧ (calls sa oldmask blocked l)[i]? =
      some ⟨(sa s).handler, BitVec.ofNat 32 (s + 1),
        if i = 0 then blocked else maskOf sa oldmask (s :: rest)⟩ := by
  induction l generalizing i blocked with
  | nil => exact absurd h.symm (Option.some_ne_none _)
  | cons r l ih =>
    cases i with
    | zero =>
      obtain rfl : r = s := Option.some.inj h
      exact ⟨l, rfl, rfl⟩
    | succ i =>
      obtain ⟨rest, hdrop, hcall⟩ := @ih (maskOf sa oldmask l) i h
      refine ⟨rest, hdrop, hcall.trans ?_⟩
      rw [if_neg (Nat.succ_ne_zero i)]
      split
      next hi =>
        subst hi
        rw [List.drop_zero] at hdrop
        rw [hdrop]
      next => rfl

theorem maskOf_contains : (maskOf sa oldmask l).Contains oldmask := by
  induction l with
  | nil => exact BitVec.and_self
  | cons s l ih => exact ih.trans (Mask.contains_union_left _ _)

end Frames

/-! ## The whole call -/

theorem selected_lt {t : Task} {s : Nat} (h : s ∈ selected t) : s < 32 := by
  have := (pick_bounds h).2.1
  omega

theorem bitsOf_eq_zero {l : List Nat} (hl : ∀ s ∈ l, s < 32) : bitsOf l = 0 ↔ l = [] := by
  constructor
  · intro h
    by_contra hne
    obtain ⟨s, hs⟩ := List.exists_mem_of_ne_nil l hne
    have hbit := getLsbD_bitsOf hl s
    rw [h, getLsbD_empty, decide_eq_true hs] at hbit
    exact absurd hbit (by decide)
  · rintro rfl
    rfl

/-- The process with no signal of a list pending. -/
def Task.clear (t : Task) (l : List Nat) : Task := { t with signal := t.signal &&& ~~~ bitsOf l }

theorem esp_adjusted (sas : List Sigaction) (regs : PtRegs) :
    (adjusted sas regs).esp = regs.esp := by
  rw [adjusted]
  split
  · rfl
  · split
    · rfl
    · split <;> rfl

theorem deliver_eq {fuel : Nat} (hfuel : 32 < fuel) (oldmask : Mask) {l : List Nat}
    (hl : ∀ s ∈ l, s < 32) (hs : l.Pairwise (· < ·)) (t : Task) (r : PtRegs) (mem : Mem) {b : Build}
    (hb : l.foldl (buildFrame r) ⟨r.esp, r.eip, oldmask, t, mem⟩ = b) :
    ∃ d, deliver fuel oldmask (bitsOf l) t r mem = some d ∧ d.task = b.task ∧ d.mem = b.mem ∧
      d.regs = { r with esp := b.frame, eip := b.eip } := by
  by_cases hnil : l = []
  · subst hnil
    subst hb
    exact ⟨_, if_pos rfl, rfl, rfl, rfl⟩
  · have hloop := @secondPass_eq r (bitsOf l) fuel 32 0 ⟨r.esp, r.eip, oldmask, t, mem⟩ rfl hfuel
    rw [filter_bitsOf hl hs, hb] at hloop
    have hfirst : secondPass r (bitsOf l) fuel 1 0 ⟨r.esp, r.eip, oldmask, t, mem⟩ = some b := hloop
    rw [deliver, if_neg fun h => hnil ((bitsOf_eq_zero hl).mp h), hfirst]
    exact ⟨_, rfl, rfl, rfl, rfl⟩

/-- The call builds the frames of the selected signals over the adjusted registers. -/
theorem doSignal_eq (env : Others) (oldmask : Mask) (t : Task) (regs : PtRegs) (mem : Mem)
    {fuel : Nat} (hfuel : 32 < fuel) (hu : t.ptraced = false)
    (hh : AllHandled t.sigaction t.signal (~~~ t.blocked.bits)) {r : PtRegs}
    (hr : adjusted ((selected t).map t.sigaction) regs = r) {b : Build}
    (hb : (selected t).foldl (buildFrame r) ⟨r.esp, r.eip, oldmask, t.clear (selected t), mem⟩ = b) :
    ∃ d, doSignal env fuel oldmask t regs mem = some (.ok d) ∧ d.task = b.task ∧ d.mem = b.mem ∧
      d.regs = { r with esp := b.frame, eip := b.eip } := by
  have hpass := @firstPass_eq env fuel 32 0 ⟨t, regs, ~~~ t.blocked.bits, 0⟩ rfl hu hh
    (fun j hj => absurd hj (Nat.not_lt_zero j)) hfuel
  obtain ⟨d, hd, hrest⟩ := deliver_eq hfuel oldmask (fun s => selected_lt) pick_sorted
    (t.clear (selected t)) r mem hb
  refine ⟨d, ?_, hrest⟩
  rw [doSignal, hpass]
  simp only
  rw [foldl_choose_regs, foldl_choose_handler_signal, foldl_choose_task, restart_interrupts]
  have hzero : 0 ||| bitsOf (selected t) = bitsOf (selected t) := BitVec.zero_or
  rw [← hr, ← hzero] at hd
  exact congrArg (Option.map Except.ok) hd

/-- What the call leaves of the process, and what every run of as many handlers makes of it. -/
theorem doSignal_runs (env : Others) (oldmask : Mask) (t : Task) (regs : PtRegs) (mem : Mem)
    {fuel : Nat} (hfuel : 32 < fuel) (hu : t.ptraced = false)
    (hh : AllHandled t.sigaction t.signal (~~~ t.blocked.bits)) :
    ∃ d, doSignal env fuel oldmask t regs mem = some (.ok d) ∧
      d.task.signal = t.signal &&& ~~~ bitsOf (selected t) ∧
      (∀ s, d.task.sigaction s =
        if s ∈ selected t then spent (t.sigaction s) else t.sigaction s) ∧
      ∀ cs u, Runs regs.esp d.user cs u → cs.length = (selected t).length →
        cs = calls t.sigaction oldmask (maskOf t.sigaction t.blocked (selected t).reverse)
          (selected t).reverse ∧
        u.cpu = (adjusted ((selected t).map t.sigaction) regs).toCpu ∧
        u.blocked = if selected t = [] then t.blocked else oldmask := by
  obtain ⟨r, hr⟩ : ∃ r, adjusted ((selected t).map t.sigaction) regs = r := ⟨_, rfl⟩
  obtain ⟨d, hd, htask, hmem, hregs⟩ := doSignal_eq env oldmask t regs mem hfuel hu hh hr rfl
  have hesp : r.esp = regs.esp := by rw [← hr, esp_adjusted]
  have hnodup : ((selected t).reverse ++ []).Nodup := by
    rw [List.append_nil, List.nodup_reverse]
    exact pick_sorted.imp Nat.ne_of_lt
  have hlen : (selected t).length ≤ 32 := length_pick_le
  have hstart : Built r oldmask (t.clear (selected t))
      ⟨r.esp, r.eip, oldmask, t.clear (selected t), mem⟩ [] :=
    ⟨(fp_zero _).symm, rfl, rfl, by simp [maskOf, Task.clear], trivial⟩
  have hbuilt := foldl_buildFrame hstart hnodup (by rwa [List.length_nil, Nat.add_zero])
  rw [List.append_nil] at hbuilt
  refine ⟨d, hd, ?_, ?_, ?_⟩
  · rw [htask, hbuilt.task]
    rfl
  · intro s
    rw [htask, hbuilt.task]
    simp only [List.mem_reverse]
    rfl
  · intro cs u hruns hcs
    have huser : d.user = ⟨{ r.toCpu with
        eip := eipOf t.sigaction r (selected t).reverse
        esp := fp r.esp (selected t).reverse.length },
        maskOf t.sigaction t.blocked (selected t).reverse, d.mem⟩ := by
      rw [Delivered.user, hregs, htask, hbuilt.task, hbuilt.eip, hbuilt.frame]
      rfl
    rw [← hesp, huser] at hruns
    have hframes := hbuilt.frames
    rw [← hmem] at hframes
    obtain ⟨hcalls, hend⟩ := runs_eq hruns (by rw [hcs, List.length_reverse])
      (by rwa [List.length_reverse]) rfl rfl rfl rfl hframes
    refine ⟨hcalls, ?_⟩
    rw [hr]
    rcases hend with ⟨hnil, rfl⟩ | ⟨hne, hcpu, hblocked⟩
    · rw [hnil]
      rw [List.reverse_eq_nil_iff] at hnil
      rw [if_pos hnil]
      exact ⟨congrArg (fun esp => { r.toCpu with esp }) (fp_zero r.esp), rfl⟩
    · rw [if_neg fun h => hne (List.reverse_eq_nil_iff.mpr h)]
      exact ⟨hcpu, hblocked⟩

/-- **Nested handlers.**  The selected handlers run once each, the highest signal first, each with its
own mask blocked, and with what was blocked at the call if it is the first and with `oldmask` if not.
Then the process is where it was interrupted, with `oldmask` blocked.  The other signals stay
pending. -/
theorem nested_handlers (env : Others) (oldmask : Mask) (t : Task) (regs : PtRegs) (mem : Mem)
    {fuel : Nat} (hfuel : 32 < fuel) (hu : t.ptraced = false)
    (hh : AllHandled t.sigaction t.signal (~~~ t.blocked.bits)) :
    ∃ d, doSignal env fuel oldmask t regs mem = some (.ok d) ∧
      (∀ s, d.task.signal.getLsbD s = (t.signal.getLsbD s && decide (s ∉ selected t))) ∧
      (∀ s, d.task.sigaction s =
        if s ∈ selected t then spent (t.sigaction s) else t.sigaction s) ∧
      ∀ cs u, Runs regs.esp d.user cs u → cs.length = (selected t).length →
        (∀ i s, (selected t).reverse[i]? = some s → ∃ blocked : Mask,
          cs[i]? = some ⟨(t.sigaction s).handler, BitVec.ofNat 32 (s + 1), blocked⟩ ∧
          blocked.Contains (t.sigaction s).mask ∧
          blocked.Contains (if i = 0 then t.blocked else oldmask)) ∧
        u.cpu = (adjusted ((selected t).map t.sigaction) regs).toCpu ∧
        u.blocked = if selected t = [] then t.blocked else oldmask := by
  obtain ⟨d, hd, hsignal, hspent, hrun⟩ := doSignal_runs env oldmask t regs mem hfuel hu hh
  refine ⟨d, hd, ?_, hspent, ?_⟩
  · intro s
    rw [hsignal, getLsbD_diff, getLsbD_bitsOf fun s => selected_lt, decide_not]
  · intro cs u hruns hcs
    obtain ⟨hcalls, hend⟩ := hrun cs u hruns hcs
    refine ⟨?_, hend⟩
    intro i s hs
    obtain ⟨rest, hdrop, hcall⟩ := @getElem?_calls t.sigaction oldmask _
      (maskOf t.sigaction t.blocked (selected t).reverse) i s hs
    refine ⟨_, hcalls ▸ hcall, ?_, ?_⟩
    · split
      next hi =>
        subst hi
        rw [List.drop_zero] at hdrop
        rw [hdrop]
        exact Mask.contains_union_right _ _
      next => exact Mask.contains_union_right _ _
    · split
      · exact maskOf_contains
      · exact maskOf_contains

theorem exists_run (top : BitVec 32) (n : Nat) (u : User) :
    ∃ cs u', Runs top u cs u' ∧ cs.length = n := by
  induction n generalizing u with
  | zero => exact ⟨[], u, .done u, rfl⟩
  | succ n ih =>
    have hh : Handled top u
        { u with cpu := { u.cpu with eip := get u.mem u.cpu.esp, esp := u.cpu.esp + 4 } } :=
      ⟨rfl, rfl, rfl, rfl, fun _ _ => rfl⟩
    obtain ⟨cs, u', hrun, hcs⟩ := ih (returnCode
      { u with cpu := { u.cpu with eip := get u.mem u.cpu.esp, esp := u.cpu.esp + 4 } })
    exact ⟨_, u', .handler hh hrun, congrArg Nat.succ hcs⟩

/-! ## Two signals -/

/-- A process with signals 1 and 2 pending, which has handlers for all signals. -/
def twoPending (blocked : Mask) : Task where
  signal := 0x3
  blocked := blocked
  sigaction s := ⟨if s = 0 then 0x1000 else 0x2000, Mask.of (if s < 2 then sBit (s + 1) else 0), 0⟩
  ptraced := false
  pid := 2
  exitCode := 0

theorem twoPending_handled (blocked : Mask) (mask : BitVec 32) :
    AllHandled (twoPending blocked).sigaction (twoPending blocked).signal mask := by
  intro s _ _
  by_cases hs : s = 0 <;> simp [twoPending, hs, sigDfl, sigIgn]

/-- A process that has been interrupted at `0x400`. -/
def interrupted : PtRegs where
  ebx := 1
  ecx := 2
  edx := 3
  esi := 4
  edi := 5
  ebp := 6
  eax := 7
  ds := userDs
  es := userDs
  fs := userDs
  gs := userDs
  eip := 0x400
  cs := userCs
  eflags := 0x202
  esp := 0x8000
  ss := userDs
  orig_eax := -1

/-- No other process does anything. -/
def alone : Others := ⟨id, id, false⟩

theorem nested_handlers_two :
    ∃ d cs u, doSignal alone 33 (Mask.of 0) (twoPending (Mask.of 0)) interrupted (fun _ => 0) =
        some (.ok d) ∧ Runs 0x8000 d.user cs u ∧ cs.map Call.handler = [0x2000, 0x1000] ∧
      u.cpu = interrupted.toCpu ∧ u.blocked = Mask.of 0 := by
  obtain ⟨d, hd, -, -, hrun⟩ := nested_handlers alone (Mask.of 0) (twoPending (Mask.of 0)) interrupted
    (fun _ => 0) (by decide : 32 < 33) rfl (twoPending_handled _ _)
  have hsel : selected (twoPending (Mask.of 0)) = [0, 1] := by decide
  obtain ⟨cs, u, hu, hcs⟩ := exists_run 0x8000 2 d.user
  obtain ⟨hcalls, hcpu, hblocked⟩ := hrun cs u hu (by rw [hcs, hsel]; rfl)
  rw [hsel] at hcalls hcpu hblocked
  obtain ⟨b₁, hfirst, -⟩ := hcalls 0 1 rfl
  obtain ⟨b₂, hsecond, -⟩ := hcalls 1 0 rfl
  obtain ⟨c₁, c₂, rfl⟩ := List.length_eq_two.mp hcs
  obtain rfl := Option.some.inj hfirst
  obtain rfl := Option.some.inj hsecond
  exact ⟨d, _, u, hd, hu, rfl, hcpu, hblocked⟩

/-- `sigsuspend` with signal 3 blocked instead of signal 4, when signals 1 and 2 come: the handler of 2
runs without what was blocked before, and that of 1 without what was blocked at the call. -/
theorem handlers_lose_a_mask :
    ∃ d cs u, doSignal alone 33 (Mask.of (sBit 4)) (twoPending (Mask.of (sBit 3))) interrupted
        (fun _ => 0) = some (.ok d) ∧ Runs 0x8000 d.user cs u ∧ cs.length = 2 ∧
      ¬ (∀ c ∈ cs, c.blocked.Contains (Mask.of (sBit 4))) ∧
      ¬ (∀ c ∈ cs, c.blocked.Contains (Mask.of (sBit 3))) := by
  obtain ⟨d, hd, -, -, hrun⟩ := doSignal_runs alone (Mask.of (sBit 4)) (twoPending (Mask.of (sBit 3)))
    interrupted (fun _ => 0) (by decide : 32 < 33) rfl (twoPending_handled _ _)
  have hsel : selected (twoPending (Mask.of (sBit 3))) = [0, 1] := by decide
  obtain ⟨cs, u, hu, hcs⟩ := exists_run 0x8000 2 d.user
  obtain ⟨rfl, -⟩ := hrun cs u hu (by rw [hcs, hsel]; rfl)
  refine ⟨d, _, u, hd, hu, hcs, ?_⟩
  rw [hsel]
  unfold Mask.Contains
  constructor
  · intro h
    exact absurd (h _ List.mem_cons_self) (by decide)
  · intro h
    exact absurd (h _ (List.mem_cons_of_mem _ List.mem_cons_self)) (by decide)

end LinuxEvocation.Signal
