import LinuxEvocation.Lib.Masks
import LinuxEvocation.Lib.Transition

/-!
# The routing table

The routes are on one list, which should go from the specific to the general, so that the first route
that matches an address is the best one.  `rt_add` goes through the list once: it replaces a route to
the same destination, or stores the new route in front of the first one that is as general, whichever
it comes to first.  It compares with the destination that it was called with, also where the route gets
another one.

* `Rtable`, `rtAdd`, `rtDel`, `rtFlush`, `rtRoute` — the functions.
* `zeros` — how general an address is; `and_mask_eq_zero` — what the mask of an address says.
* `Represents` — the list is sorted, and has the routes of a table with one for each destination.
* `Clean` — the additions for which the pass over the list comes to the right place.
* `routes_exact` — the runs of clean calls, the next call, and what `rt_route` finds.
-/

namespace LinuxEvocation.Route

open Function (update update_of_ne update_self)
open Transition (Reach)

/-! ## The functions -/

/-- An Internet address, in network order in memory: its first octet is the lowest byte. -/
abbrev Addr := BitVec 32

/-- A route. -/
structure Rtable where
  dst : Addr
  gateway : Addr
  flags : BitVec 8
  dev : Nat
  deriving DecidableEq

/-- `rt_flags & RTF_HOST`. -/
def Rtable.host (r : Rtable) : Bool := r.flags &&& 4 ≠ 0

/-- The destination of a new route: that of a network route from a redirect is truncated. -/
def rtDst (flags : BitVec 16) (dst : Addr) : Addr :=
  if flags &&& 0x10 ≠ 0 then if flags &&& 4 ≠ 0 then dst else dst &&& 0x00ffffff
  else dst

/-- The entry that is allocated. -/
def newEntry (flags : BitVec 16) (dst gw : Addr) (dev : Nat) : Rtable where
  dst := rtDst flags dst
  gateway := gw
  flags := (flags ||| 1).setWidth 8 ||| if gw ≠ 0 then 2 else 0
  dev := dev

/-- The loop that computes the mask of an address. -/
def maskLoop (dst : Addr) : Nat → BitVec 32 → BitVec 32
  | 0, mask => mask
  | fuel + 1, mask =>
    if mask = 0xffffffff then mask
    else if mask &&& dst ≠ 0 then mask <<< 8
    else maskLoop dst fuel (mask.sshiftRight 8 ||| mask)

def mask (dst : Addr) : BitVec 32 := maskLoop dst 4 0xff000000

/-- The pass over the list. -/
def insert (rt : Rtable) (dst : Addr) : List Rtable → List Rtable
  | [] => [rt]
  | r :: rest =>
    if r.dst = dst then rt :: rest
    else if r.dst &&& mask dst = 0 then rt :: r :: rest
    else r :: insert rt dst rest

def rtAdd (flags : BitVec 16) (dst gw : Addr) (dev : Nat) (base : List Rtable) : List Rtable :=
  insert (newEntry flags dst gw dev) dst base

def rtDel (dst : Addr) (base : List Rtable) : List Rtable := base.filter fun r => r.dst ≠ dst

def rtFlush (dev : Nat) (base : List Rtable) : List Rtable := base.filter fun r => r.dev ≠ dev

/-- The loop of `ip_addr_match`. -/
def matchLoop : Nat → Addr → Addr → Bool
  | 0, _, _ => true
  | n + 1, me, him =>
    if me &&& 0xff ≠ him &&& 0xff then !(me ≠ 0 && me ≠ 255)
    else matchLoop n (me >>> 8) (him >>> 8)

def ipAddrMatch (me him : Addr) : Bool := me = him || matchLoop 4 me him

/-- The interfaces, as `rt_route` sees them: which addresses are ours, `my_addr`, and which interfaces
can broadcast to which address. -/
structure Interfaces where
  own : Addr → Bool
  myAddr : Addr
  broadcast : Nat → Bool
  brdaddr : Nat → Addr

def rtRoute (net : Interfaces) (daddr : Addr) (base : List Rtable) : Option Rtable :=
  let daddr := if net.own daddr then net.myAddr else daddr
  match base.find? fun rt => rt.host && rt.dst = daddr with
  | some rt => some rt
  | none => base.find? fun rt => !rt.host && ipAddrMatch rt.dst daddr ||
      net.broadcast rt.dev && ipAddrMatch (net.brdaddr rt.dev) daddr

/-! ## How general an address is -/

/-- The number of octets at its end that are zero. -/
def zeros (a : Addr) : Nat :=
  if a.toNat = 0 then 4
  else if a.toNat < 2 ^ 8 then 3
  else if a.toNat < 2 ^ 16 then 2
  else if a.toNat < 2 ^ 24 then 1
  else 0

/-- A new route goes in front of the routes that have as many zero octets; the first octet alone counts
as all of them. -/
def stop (a : Addr) : Nat := if zeros a = 3 then 4 else zeros a

/-! ## What the list is for -/

/-- The routes by destination. -/
abbrev Table := Addr → Option Rtable

structure State where
  base : List Rtable
  table : Table

inductive Event where
  | add (flags : BitVec 16) (dst gw : Addr) (dev : Nat)
  | del (dst : Addr)
  | flush (dev : Nat)

/-- A call, and what it should do to the table: a new route replaces the one to its destination. -/
def step (s : State) : Event → Option State
  | .add flags dst gw dev => some {
      base := rtAdd flags dst gw dev s.base
      table := update s.table (rtDst flags dst) (some (newEntry flags dst gw dev)) }
  | .del dst => some {
      base := rtDel dst s.base
      table := update s.table dst none }
  | .flush dev => some {
      base := rtFlush dev s.base
      table := fun dst => (s.table dst).filter fun r => r.dev ≠ dev }

/-- The list is sorted and has one route for each destination, that of the table. -/
structure Represents (base : List Rtable) (table : Table) : Prop where
  sorted : base.Pairwise fun r r' => zeros r.dst ≤ zeros r'.dst
  nodup : (base.map Rtable.dst).Nodup
  mem_iff : ∀ r, r ∈ base ↔ table r.dst = some r
  table_dst : ∀ dst r, table dst = some r → r.dst = dst

/-- Among the routes of a table, a host route for the address, or else one of the most specific networks
that match. -/
def Best (table : Table) (daddr : Addr) (found : Option Rtable) : Prop :=
  (∀ r, table daddr = some r → r.host = true → found = some r) ∧
    ((∀ r, table daddr = some r → r.host = false) →
      (∀ r, found = some r → table r.dst = some r ∧ r.host = false ∧ ipAddrMatch r.dst daddr = true ∧
        ∀ r', table r'.dst = some r' → r'.host = false → ipAddrMatch r'.dst daddr = true →
          zeros r.dst ≤ zeros r'.dst) ∧
      (found = none → ∀ r, table r.dst = some r → r.host = false →
        ipAddrMatch r.dst daddr = false))

/-- Where the destination of a route is the one that `rt_add` is called with, no route in front of one
to the same destination is as general.  Where it is truncated, the first route is not one to the address
that was given and is not more specific, and there is no route to the destination. -/
def Clean (s : State) : Event → Prop
  | .add flags dst _ _ =>
    if rtDst flags dst = dst then
      ∀ pre r post, s.base = pre ++ r :: post → r.dst = dst → ∀ x ∈ pre, zeros x.dst < stop dst
    else
      (∀ head rest, s.base = head :: rest →
        head.dst ≠ dst ∧ zeros (rtDst flags dst) ≤ zeros head.dst) ∧
      ∀ r ∈ s.base, r.dst ≠ rtDst flags dst
  | _ => True

section Proofs

variable {d dst : Addr} {r rt : Rtable} {base pre post : List Rtable} {table : Table}
  {flags : BitVec 16}

/-! ## Masks -/

theorem and_high_eq_zero (a : Addr) (k : Nat) :
    a &&& ~~~ BitVec.ofNat 32 (2 ^ k - 1) = 0 ↔ a.toNat < 2 ^ k := by
  have hmask := Masks.toNat_and_not_mask a k
  have hpos := Nat.two_pow_pos k
  rw [← Nat.div_eq_zero_iff_lt hpos]
  constructor
  · intro h
    rw [h] at hmask
    have hzero : (0 : Addr).toNat = 0 := by decide
    rw [hzero] at hmask
    exact (Nat.mul_eq_zero.mp hmask.symm).resolve_right hpos.ne'
  · intro h
    apply BitVec.eq_of_toNat_eq
    rw [hmask, h, Nat.zero_mul]
    rfl

theorem mask_eq (dst : Addr) : mask dst =
    if dst.toNat < 2 ^ 24 then
      if dst.toNat < 2 ^ 16 then
        if dst.toNat < 2 ^ 8 then 0xffffffff else 0xffff0000
      else 0xff000000
    else 0 := by
  have h24 : (0xff000000 : BitVec 32) &&& dst = 0 ↔ dst.toNat < 2 ^ 24 := by
    rw [BitVec.and_comm]
    exact and_high_eq_zero dst 24
  have h16 : (0xffff0000 : BitVec 32) &&& dst = 0 ↔ dst.toNat < 2 ^ 16 := by
    rw [BitVec.and_comm]
    exact and_high_eq_zero dst 16
  have h8 : (0xffffff00 : BitVec 32) &&& dst = 0 ↔ dst.toNat < 2 ^ 8 := by
    rw [BitVec.and_comm]
    exact and_high_eq_zero dst 8
  have hshift24 : (0xff000000 : BitVec 32).sshiftRight 8 ||| 0xff000000 = 0xffff0000 := by decide
  have hshift16 : (0xffff0000 : BitVec 32).sshiftRight 8 ||| 0xffff0000 = 0xffffff00 := by decide
  have hshift8 : (0xffffff00 : BitVec 32).sshiftRight 8 ||| 0xffffff00 = 0xffffffff := by decide
  have hstep (n : Nat) (m : BitVec 32) (hm : m ≠ 0xffffffff) : maskLoop dst (n + 1) m =
      if m &&& dst = 0 then maskLoop dst n (m.sshiftRight 8 ||| m) else m <<< 8 := by
    rw [maskLoop, if_neg hm, ite_not]
  have hlast : maskLoop dst 1 0xffffffff = 0xffffffff := if_pos rfl
  rw [mask, hstep 3 _ (by decide), hshift24, hstep 2 _ (by decide), hshift16, hstep 1 _ (by decide),
    hshift8, hlast]
  simp only [h24, h16, h8]
  rfl

/-- **What the mask says**: where the pass stops. -/
theorem and_mask_eq_zero (a d : Addr) : a &&& mask d = 0 ↔ stop d ≤ zeros a := by
  have h32 := a.isLt
  have h24 := and_high_eq_zero a 24
  have h16 := and_high_eq_zero a 16
  have h0 := and_high_eq_zero a 0
  by_cases hd : d.toNat < 2 ^ 24
  · rw [mask_eq, if_pos hd, stop, zeros, zeros]
    change a &&& 0xff000000 = 0 ↔ _ at h24
    change a &&& 0xffff0000 = 0 ↔ _ at h16
    change a &&& 0xffffffff = 0 ↔ _ at h0
    split_ifs <;> simp only [h24, h16, h0] <;> omega
  · have hzero : stop d = 0 := by
      unfold stop zeros
      split_ifs <;> omega
    rw [mask_eq, if_neg hd, hzero]
    exact iff_of_true BitVec.and_zero (Nat.zero_le _)

/-- An address that is truncated is not general at all. -/
theorem stop_of_truncated (h : rtDst flags d ≠ d) : stop d = 0 := by
  have hd : ¬ d.toNat < 2 ^ 24 := by
    intro hlt
    apply h
    have hand : d &&& 0x00ffffff = d := by
      apply BitVec.eq_of_toNat_eq
      have hmask := Masks.toNat_and_mask d 24
      rw [Nat.mod_eq_of_lt hlt] at hmask
      exact hmask
    rw [rtDst, hand]
    split_ifs <;> rfl
  unfold stop zeros
  split_ifs <;> omega

/-! ## The pass over the list -/

/-- Where the pass comes to: a route to the destination, or the first one that is as general. -/
theorem insert_split (rt : Rtable) (d : Addr) (base : List Rtable) :
    ∃ pre post, (∀ x ∈ pre, x.dst ≠ d ∧ zeros x.dst < stop d) ∧ insert rt d base = pre ++ rt :: post ∧
      ((∃ r, base = pre ++ r :: post ∧ r.dst = d) ∨
        base = pre ++ post ∧ ∀ head rest, post = head :: rest →
          head.dst ≠ d ∧ stop d ≤ zeros head.dst) := by
  induction base with
  | nil =>
    refine ⟨[], [], ?_, rfl, .inr ⟨rfl, ?_⟩⟩
    · intro x hx
      cases hx
    · intro head rest h
      cases h
  | cons r base ih =>
    rw [insert]
    by_cases hdst : r.dst = d
    · refine ⟨[], base, ?_, if_pos hdst, .inl ⟨r, rfl, hdst⟩⟩
      intro x hx
      cases hx
    · rw [if_neg hdst]
      by_cases hmask : r.dst &&& mask d = 0
      · refine ⟨[], r :: base, ?_, if_pos hmask, .inr ⟨rfl, ?_⟩⟩
        · intro x hx
          cases hx
        · intro head rest h
          cases h
          exact ⟨hdst, (and_mask_eq_zero _ _).mp hmask⟩
      · obtain ⟨pre, post, hpre, hinsert, hbase⟩ := ih
        refine ⟨r :: pre, post, ?_, ?_, ?_⟩
        · intro x hx
          rcases List.mem_cons.mp hx with rfl | hx
          · exact ⟨hdst, not_le.mp (mt (and_mask_eq_zero _ _).mpr hmask)⟩
          · exact hpre x hx
        · rw [if_neg hmask, hinsert, List.cons_append]
        · rcases hbase with ⟨r', hbase, hr'⟩ | ⟨hbase, hpost⟩
          · exact .inl ⟨r', by rw [hbase, List.cons_append], hr'⟩
          · exact .inr ⟨by rw [hbase, List.cons_append], hpost⟩

theorem Represents.sorted_map (h : Represents base table) :
    (base.map Rtable.dst).Pairwise fun x y => zeros x ≤ zeros y := List.pairwise_map.mpr h.sorted

/-- A route is the only one to its destination. -/
theorem Represents.eq_of_dst (h : Represents base table) {r r' : Rtable} (hr : r ∈ base)
    (hr' : r' ∈ base) (hdst : r.dst = r'.dst) : r = r' := by
  have hsome := (h.mem_iff r).mp hr
  rw [hdst, (h.mem_iff r').mp hr', Option.some.injEq] at hsome
  exact hsome.symm

/-- The table has the new route in the place of the one to its destination. -/
theorem update_table_dst (h : Represents base table) {x : Addr}
    (hx : update table rt.dst (some rt) x = some r) : r.dst = x := by
  by_cases hdst : x = rt.dst
  · rw [hdst, update_self, Option.some.injEq] at hx
    rw [hdst, hx]
  · rw [update_of_ne hdst] at hx
    exact h.table_dst x r hx

/-- A route to a new destination, between more specific and more general ones. -/
theorem represents_between (h : Represents (pre ++ post) table)
    (hnew : ∀ r ∈ pre ++ post, r.dst ≠ rt.dst) (hpre : ∀ x ∈ pre, zeros x.dst ≤ zeros rt.dst)
    (hpost : ∀ x ∈ post, zeros rt.dst ≤ zeros x.dst) :
    Represents (pre ++ rt :: post) (update table rt.dst (some rt)) := by
  have hsorted := List.pairwise_append.mp h.sorted
  have hperm : (pre ++ rt :: post).Perm (rt :: (pre ++ post)) := List.perm_middle
  refine ⟨?_, ?_, ?_, fun x r => update_table_dst h⟩
  · rw [List.pairwise_append, List.pairwise_cons]
    refine ⟨hsorted.1, ⟨hpost, hsorted.2.1⟩, ?_⟩
    intro x hx y hy
    rcases List.mem_cons.mp hy with rfl | hy
    · exact hpre x hx
    · exact hsorted.2.2 x hx y hy
  · rw [(hperm.map Rtable.dst).nodup_iff, List.map_cons, List.nodup_cons]
    refine ⟨?_, h.nodup⟩
    intro hmem
    obtain ⟨r, hr, hdst⟩ := List.mem_map.mp hmem
    exact hnew r hr hdst
  · intro r
    rw [hperm.mem_iff, List.mem_cons]
    by_cases hdst : r.dst = rt.dst
    · rw [hdst, update_self, Option.some.injEq]
      refine ⟨?_, fun heq => .inl heq.symm⟩
      rintro (rfl | hr)
      · rfl
      · exact absurd hdst (hnew r hr)
    · rw [update_of_ne hdst, ← h.mem_iff]
      refine ⟨fun hr => hr.resolve_left ?_, .inr⟩
      rintro rfl
      exact hdst rfl

/-- A route in the place of another one to its destination. -/
theorem represents_replace (h : Represents (pre ++ r :: post) table) (hdst : r.dst = rt.dst) :
    Represents (pre ++ rt :: post) (update table rt.dst (some rt)) := by
  have hmap : (pre ++ rt :: post).map Rtable.dst = (pre ++ r :: post).map Rtable.dst := by
    rw [List.map_append, List.map_append, List.map_cons, List.map_cons, hdst]
  have hnodup : ((pre ++ rt :: post).map Rtable.dst).Nodup := hmap ▸ h.nodup
  have hsorted := h.sorted_map
  rw [← hmap] at hsorted
  refine ⟨(List.pairwise_map (R := fun x y => zeros x ≤ zeros y)).mp hsorted, hnodup, ?_,
    fun x r => update_table_dst h⟩
  intro r'
  have hrt : rt ∈ pre ++ rt :: post := List.mem_append_right _ List.mem_cons_self
  by_cases hdst' : r'.dst = rt.dst
  · rw [hdst', update_self, Option.some.injEq]
    refine ⟨fun hr' => ?_, fun heq => heq ▸ hrt⟩
    exact (List.inj_on_of_nodup_map hnodup hr' hrt hdst').symm
  · rw [update_of_ne hdst', ← h.mem_iff]
    have hne : r' ≠ rt := fun heq => hdst' (heq ▸ rfl)
    have hne' : r' ≠ r := fun heq => hdst' (heq ▸ hdst)
    simp [hne, hne']

theorem zeros_le_stop (d : Addr) : zeros d ≤ stop d := by
  unfold stop
  split_ifs <;> omega

theorem le_zeros_of_lt_stop {z : Nat} (h : z < stop d) : z ≤ zeros d := by
  unfold stop at h
  split_ifs at h <;> omega

/-- Of two places of a route to a destination in the list, the second is not behind the first. -/
theorem mem_of_split (h : Represents (pre ++ r :: post) table) {pre' post' : List Rtable} {r' : Rtable}
    (heq : pre ++ r :: post = pre' ++ r' :: post') (hdst : r.dst = r'.dst) {x : Rtable} (hx : x ∈ pre') :
    x ∈ pre := by
  rcases List.append_eq_append_iff.mp heq with ⟨mid, hpre, hmid⟩ | ⟨mid, hpre, -⟩
  · cases mid with
    | nil => rwa [hpre, List.append_nil] at hx
    | cons y mid =>
      obtain ⟨rfl, rfl⟩ := List.cons.inj hmid
      have hnodup := h.nodup
      simp [List.nodup_append, hdst] at hnodup
  · rw [hpre]
    exact List.mem_append_left _ hx

/-- Where the pass compares with the destination of the route, it keeps the table if no route in front
of one to the destination is as general. -/
theorem represents_insert (h : Represents base table) (hdst : rt.dst = d) :
    Represents (insert rt d base) (update table rt.dst (some rt)) ↔
      ∀ pre r post, base = pre ++ r :: post → r.dst = d → ∀ x ∈ pre, zeros x.dst < stop d := by
  obtain ⟨pre, post, hpre, hinsert, ⟨r, rfl, hr⟩ | ⟨rfl, hhead⟩⟩ := insert_split rt d base
  · rw [hinsert]
    refine iff_of_true (represents_replace h (hr.trans hdst.symm)) ?_
    intro pre' r' post' heq hr' x hx
    exact (hpre x (mem_of_split h heq (hr.trans hr'.symm) hx)).2
  · rw [hinsert]
    constructor
    · -- a route to the destination that is still there is a second one
      intro hnew pre' r post' heq hr
      have hnodup := hnew.nodup
      rw [(List.perm_middle.map Rtable.dst).nodup_iff, List.map_cons, List.nodup_cons, heq] at hnodup
      refine absurd (List.mem_map.mpr ⟨r, ?_, hr.trans hdst.symm⟩) hnodup.1
      exact List.mem_append_right _ List.mem_cons_self
    · intro hclean
      have hpost : ∀ x ∈ post, x.dst ≠ d ∧ zeros d ≤ zeros x.dst := by
        intro x hx
        cases post with
        | nil => cases hx
        | cons head rest =>
          obtain ⟨hne, hle⟩ := hhead head rest rfl
          rcases List.mem_cons.mp hx with rfl | hx
          · exact ⟨hne, (zeros_le_stop d).trans hle⟩
          have hsorted := (List.pairwise_append.mp h.sorted).2.1
          refine ⟨?_, ((zeros_le_stop d).trans hle).trans (List.rel_of_pairwise_cons hsorted hx)⟩
          intro hxd
          obtain ⟨mid, rest', rfl⟩ := List.append_of_mem hx
          have hlt := hclean (pre ++ head :: mid) x rest' (by simp) hxd head (by simp)
          omega
      subst hdst
      refine represents_between h ?_ ?_ ?_
      · intro x hx
        rcases List.mem_append.mp hx with hx | hx
        · exact (hpre x hx).1
        · exact (hpost x hx).1
      · intro x hx
        exact le_zeros_of_lt_stop (hpre x hx).2
      · intro x hx
        exact (hpost x hx).2

/-- Where it compares with another address, it stops at the first route. -/
theorem represents_truncated (h : Represents base table) (hdst : rt.dst ≠ d) (hstop : stop d = 0) :
    Represents (insert rt d base) (update table rt.dst (some rt)) ↔
      (∀ head rest, base = head :: rest → head.dst ≠ d ∧ zeros rt.dst ≤ zeros head.dst) ∧
        ∀ r ∈ base, r.dst ≠ rt.dst := by
  cases base with
  | nil =>
    refine iff_of_true (represents_between (show Represents ([] ++ []) table from h) ?_ ?_ ?_)
      ⟨?_, ?_⟩ <;> intros <;> contradiction
  | cons head rest =>
    have hmask : head.dst &&& mask d = 0 := by
      rw [and_mask_eq_zero, hstop]
      exact Nat.zero_le _
    constructor
    · intro hnew
      have hhead : head.dst ≠ d := by
        -- the first route would be lost
        intro heq
        rw [insert, if_pos heq] at hnew
        have hmem := (hnew.mem_iff head).mpr (by
          rw [update_of_ne (heq ▸ hdst.symm)]
          exact (h.mem_iff head).mp List.mem_cons_self)
        rcases List.mem_cons.mp hmem with rfl | hmem
        · exact hdst heq
        · have hnodup := h.nodup
          rw [List.map_cons, List.nodup_cons] at hnodup
          exact hnodup.1 (List.mem_map_of_mem hmem)
      rw [insert, if_neg hhead, if_pos hmask] at hnew
      refine ⟨?_, ?_⟩
      · rintro _ _ ⟨⟩
        exact ⟨hhead, List.rel_of_pairwise_cons hnew.sorted List.mem_cons_self⟩
      · intro r hr heq
        have hnodup := hnew.nodup
        rw [List.map_cons, List.nodup_cons] at hnodup
        exact hnodup.1 (List.mem_map.mpr ⟨r, hr, heq⟩)
    · rintro ⟨hhead, hnew⟩
      obtain ⟨hne, hle⟩ := hhead head rest rfl
      rw [insert, if_neg hne, if_pos hmask]
      refine represents_between (show Represents ([] ++ head :: rest) table from h) hnew ?_ ?_
      · intro x hx
        cases hx
      · intro x hx
        rcases List.mem_cons.mp hx with rfl | hx
        · exact hle
        · exact hle.trans (List.rel_of_pairwise_cons h.sorted hx)

/-- **What an addition keeps.** -/
theorem represents_add (h : Represents base table) (gw : Addr) (dev : Nat) :
    Represents (rtAdd flags dst gw dev base)
        (update table (rtDst flags dst) (some (newEntry flags dst gw dev))) ↔
      Clean ⟨base, table⟩ (.add flags dst gw dev) := by
  by_cases hdst : rtDst flags dst = dst
  · simp only [Clean, if_pos hdst]
    exact represents_insert h hdst
  · simp only [Clean, if_neg hdst]
    exact represents_truncated h hdst (stop_of_truncated hdst)

theorem represents_filter (h : Represents base table) (p : Rtable → Bool) :
    Represents (base.filter p) fun x => (table x).filter p := by
  refine ⟨h.sorted.filter _, h.nodup.sublist (List.filter_sublist.map _), ?_, ?_⟩
  · intro r
    rw [List.mem_filter, h.mem_iff]
    constructor
    · rintro ⟨hr, hp⟩
      rw [hr]
      exact Option.filter_some_pos hp
    · intro hr
      exact Option.filter_eq_some_iff.mp hr
  · intro x r hr
    exact h.table_dst x r (Option.filter_eq_some_iff.mp hr).1

/-- **What a call keeps.** -/
theorem represents_step {s s' : State} {e : Event} (h : Represents s.base s.table)
    (hstep : step s e = some s') : Represents s'.base s'.table ↔ Clean s e := by
  cases e with
  | add flags dst gw dev =>
    cases hstep
    exact represents_add h gw dev
  | del dst =>
    cases hstep
    refine iff_of_true ?_ trivial
    have htable : update s.table dst none =
        fun x => (s.table x).filter fun r => decide (r.dst ≠ dst) := by
      funext x
      by_cases hx : x = dst
      · rw [hx, update_self]
        symm
        rw [Option.filter_eq_none_iff]
        intro r hr
        simpa using h.table_dst dst r hr
      · rw [update_of_ne hx]
        cases hr : s.table x with
        | none => rfl
        | some r =>
          have hdst : r.dst ≠ dst := by rwa [h.table_dst x r hr]
          simp [Option.filter, hdst]
    change Represents (rtDel dst s.base) (update s.table dst none)
    rw [htable]
    exact represents_filter h _
  | flush dev =>
    cases hstep
    exact iff_of_true (represents_filter h _) trivial

/-! ## What is found -/

/-- **The best route is found.** -/
theorem rtRoute_best (h : Represents base table) (net : Interfaces) (daddr : Addr)
    (hown : net.own daddr = false) (hbroadcast : ∀ dev, net.broadcast dev = false) :
    Best table daddr (rtRoute net daddr base) := by
  unfold rtRoute
  simp only [hown, hbroadcast, Bool.false_and, Bool.or_false, Bool.false_eq_true, if_false]
  constructor
  · intro r hr hhost
    have hdst := h.table_dst daddr r hr
    have hmem : r ∈ base := (h.mem_iff r).mpr (hdst ▸ hr)
    have hsome : (base.find? fun rt => rt.host && rt.dst = daddr).isSome := by
      rw [List.find?_isSome]
      exact ⟨r, hmem, by simp [hhost, hdst]⟩
    obtain ⟨r', hr'⟩ := Option.isSome_iff_exists.mp hsome
    have hmatch := List.find?_some hr'
    simp only [Bool.and_eq_true, decide_eq_true_eq] at hmatch
    rw [hr', h.eq_of_dst (List.mem_of_find?_eq_some hr') hmem (hmatch.2.trans hdst.symm)]
  · intro hnet
    have hnone : (base.find? fun rt => rt.host && rt.dst = daddr) = none := by
      rw [List.find?_eq_none]
      intro r hr hmatch
      simp only [Bool.and_eq_true, decide_eq_true_eq] at hmatch
      have hsome := (h.mem_iff r).mp hr
      rw [hmatch.2] at hsome
      exact absurd (hnet r hsome) (by simp [hmatch.1])
    rw [hnone]
    constructor
    · intro r hr
      obtain ⟨hmatch, pre, post, rfl, hpre⟩ := List.find?_eq_some_iff_append.mp hr
      simp only [Bool.and_eq_true, Bool.not_eq_true'] at hmatch
      refine ⟨(h.mem_iff r).mp (by simp), hmatch.1, hmatch.2, ?_⟩
      intro r' hr' hnet' hmatch'
      have hmem := (h.mem_iff r').mpr hr'
      rcases List.mem_append.mp hmem with hr' | hr'
      · have hno := hpre r' hr'
        simp [hnet', hmatch'] at hno
      · rcases List.mem_cons.mp hr' with rfl | hr'
        · exact le_rfl
        · exact List.rel_of_pairwise_cons (List.pairwise_append.mp h.sorted).2.1 hr'
    · intro hr r htable hnet'
      have hno := List.find?_eq_none.mp hr r ((h.mem_iff r).mpr htable)
      simpa [hnet'] using hno

end Proofs

/-! ## The runs -/

/-- No routes. -/
def boot : State := { base := [], table := fun _ => none }

/-- **The list is the table** in every run of clean calls; from a state of such a run, a call keeps it
exactly if it is clean, and the best route is found, if no interface can broadcast. -/
theorem routes_exact {s : State} (h : Reach step Clean boot s) :
    Represents s.base s.table ∧
      (∀ e s', step s e = some s' → (Represents s'.base s'.table ↔ Clean s e)) ∧
      ∀ (net : Interfaces) daddr, net.own daddr = false → (∀ dev, net.broadcast dev = false) →
        Best s.table daddr (rtRoute net daddr s.base) := by
  have hrep : Represents s.base s.table := by
    refine h.invariant (I := fun s => Represents s.base s.table) ?_ ?_
    · refine ⟨List.Pairwise.nil, List.nodup_nil, ?_, ?_⟩
      · intro r
        simp [boot]
      · intro x r hr
        cases hr
    · intro s e s' hs hclean hstep
      exact (represents_step hs hstep).mpr hclean
  exact ⟨hrep, fun e s' => represents_step hrep, fun net daddr => rtRoute_best hrep net daddr⟩

/-- A new route to the first destination of the list, or to none of the others. -/
theorem clean_of_tail {s : State} {flags : BitVec 16} {dst gw : Addr} {dev : Nat}
    (hdst : rtDst flags dst = dst) (h : ∀ r ∈ s.base.tail, r.dst ≠ dst) :
    Clean s (.add flags dst gw dev) := by
  rw [Clean, if_pos hdst]
  intro pre r post hbase hr x hx
  cases pre with
  | nil => cases hx
  | cons y pre => exact absurd hr (h r (by rw [hbase]; simp))

/-- Two hosts, their network, and another route to the second host. -/
def hostReplaced : List Event :=
  [.add 4 0x0100000a 0 0, .add 4 0x0200000a 0 0, .add 0 0x0000000a 0 0, .add 4 0x0200000a 0 1]

theorem routes_replaced : ∃ s, Transition.execFrom step boot hostReplaced = some s ∧
    Reach step Clean boot s ∧
    s.base.map (fun r => (r.dst, r.dev)) = [(0x0200000a, 1), (0x0100000a, 0), (0x0000000a, 0)] ∧
    Represents s.base s.table ∧ ∀ net : Interfaces, net.own 0x0300000a = false →
      (∀ dev, net.broadcast dev = false) →
      Best s.table 0x0300000a (rtRoute net 0x0300000a s.base) := by
  have hone := (Reach.init : Reach step Clean boot boot).step (.add 4 0x0100000a 0 0)
    (clean_of_tail (by decide) (by decide)) rfl
  have htwo := hone.step (.add 4 0x0200000a 0 0) (clean_of_tail (by decide) (by decide)) rfl
  have hnet := htwo.step (.add 0 0x0000000a 0 0) (clean_of_tail (by decide) (by decide)) rfl
  have hs := hnet.step (.add 4 0x0200000a 0 1) (clean_of_tail (by decide) (by decide)) rfl
  have hexact := routes_exact hs
  exact ⟨_, rfl, hs, by decide, hexact.1, fun net => hexact.2.2 net _⟩

/-- Two hosts, and the first again. -/
def hostAgain : List Event := [.add 4 0x0100000a 0 0, .add 4 0x0200000a 0 0, .add 4 0x0100000a 0 1]

/-- The pass stops in front of the second host, and the first has two routes. -/
theorem host_twice : ∃ s, Reach step Transition.anyStep boot s ∧ ¬ (s.base.map Rtable.dst).Nodup := by
  obtain ⟨s, hs, hbase⟩ : ∃ s, Transition.execFrom step boot hostAgain = some s ∧
      s.base.map Rtable.dst = [0x0100000a, 0x0200000a, 0x0100000a] := ⟨_, rfl, by decide⟩
  refine ⟨s, Reach.of_execFrom .init hs, ?_⟩
  rw [hbase]
  decide

end LinuxEvocation.Route
