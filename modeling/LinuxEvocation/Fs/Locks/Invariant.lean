import LinuxEvocation.Fs.Locks.System
import Mathlib.Data.List.TakeWhile

/-!
# What holds in every reachable state of the lock table

These facts need no assumption on the requests: they survive even the calls that
leave an owner's records out of order.

* `Table` — the lists and the free list share out the table, a record has an owner
  exactly when it is on a list, the records of one owner stand together, and the
  locks of different owners exclude each other.
* `Small`, `step_small` — a step of the machine is made of at most two small ones,
  each of which does one thing to the state.
* `Small.table` — each of them keeps `Table`.
-/

namespace LinuxEvocation.Locks

open Transition

variable {Task Inode : Type}

/-! ## Blocks -/

/-- Between two records of one owner stand only records of that owner. -/
def Contiguous (l : List (Entry Task)) : Prop :=
  ∀ x y z, [x, y, z].Sublist l → x.fl.flOwner = z.fl.flOwner → y.fl.flOwner = x.fl.flOwner

/-- A block of one owner's records put in the place of another keeps the records of the
other owners together. -/
theorem Contiguous.replace {A G G' B : List (Entry Task)} {o : Option Task}
    (h : Contiguous (A ++ G ++ B)) (hA : ∀ n ∈ A, n.fl.flOwner ≠ o)
    (hB : ∀ n ∈ B, n.fl.flOwner ≠ o) (hG : ∀ n ∈ G, n.fl.flOwner = o) (hGB : G = [] → B = [])
    (hG' : ∀ n ∈ G', n.fl.flOwner = o) : Contiguous (A ++ G' ++ B) := by
  intro x y z hsub hxz
  rw [List.append_assoc] at hsub
  obtain ⟨l₁, l₂, hl, h1, h2⟩ := List.sublist_append_iff.1 hsub
  obtain ⟨l₃, l₄, rfl, h3, h4⟩ := List.sublist_append_iff.1 h2
  by_cases hx : x.fl.flOwner = o
  · -- both ends are in the block, so is what is between them
    have hl1 : l₁ = [] := by
      cases l₁ with
      | nil => rfl
      | cons a l =>
        simp only [List.cons_append, List.cons.injEq] at hl
        exact absurd hx (hl.1 ▸ hA a (h1.subset (by simp)))
    have hl4 : l₄ = [] := by
      rcases List.eq_nil_or_concat l₄ with rfl | ⟨l, b, rfl⟩
      · rfl
      · have hzb : z = b := by
          have := congrArg List.getLast? hl
          simpa using this
        exact absurd (hxz.symm.trans hx) (hzb ▸ hB b (h4.subset (by simp)))
    subst hl1 hl4
    simp only [List.nil_append, List.append_nil] at hl
    rw [hG' y (h3.subset (by simp [← hl])), hx]
  · by_cases hy : y.fl.flOwner = o
    · -- the block stands between two records of another owner, and did before
      have hyA : y ∉ A := fun hmem => hA y hmem hy
      have hyB : y ∉ B := fun hmem => hB y hmem hy
      have hxG : x ∉ G' := fun hmem => hx (hG' x hmem)
      have hzG : z ∉ G' := fun hmem => hx (hxz.trans (hG' z hmem))
      have hxz' : x ∈ A ∧ z ∈ B := by
        have m1 := h1.subset
        have m3 := h3.subset
        have m4 := h4.subset
        rcases l₁ with _ | ⟨a, _ | ⟨b, l₁⟩⟩ <;> rcases l₃ with _ | ⟨c, _ | ⟨d, l₃⟩⟩ <;>
          rcases l₄ with _ | ⟨e, _ | ⟨f, l₄⟩⟩ <;> simp at hl m1 m3 m4 <;> grind
      have hGne : G ≠ [] := fun hG0 => by
        rw [hGB hG0] at hxz'
        exact absurd hxz'.2 (by simp)
      obtain ⟨g, hg⟩ := List.exists_mem_of_ne_nil G hGne
      have hsub' : [x, g, z].Sublist (A ++ G ++ B) :=
        ((List.singleton_sublist.2 hxz'.1).append (List.singleton_sublist.2 hg)).append
          (List.singleton_sublist.2 hxz'.2)
      exact hy.trans ((hG g hg).symm.trans (h x g z hsub' hxz))
    · -- none of the three is in the block
      have hz : z.fl.flOwner ≠ o := hxz ▸ hx
      have hf : [x, y, z].Sublist (A ++ G ++ B) := by
        classical
        have hfil := hsub.filter fun n => decide (n.fl.flOwner ≠ o)
        have hkeep : ∀ l : List (Entry Task), (∀ n ∈ l, n.fl.flOwner ≠ o) →
            l.filter (fun n => decide (n.fl.flOwner ≠ o)) = l := fun l hl' =>
          List.filter_eq_self.2 fun n hn => decide_eq_true (hl' n hn)
        have hdrop : G'.filter (fun n => decide (n.fl.flOwner ≠ o)) = [] :=
          List.filter_eq_nil_iff.2 fun n hn => by simp [hG' n hn]
        rw [List.filter_append, List.filter_append, hkeep A hA, hkeep B hB, hdrop,
          hkeep [x, y, z] (by simp [hx, hy, hz])] at hfil
        refine hfil.trans ?_
        rw [List.append_assoc]
        exact (List.sublist_append_right G B).append_left A
      exact h x y z hf hxz

section

variable [DecidableEq Task]

/-- The records of one owner on a list. -/
def block (o : Task) (l : List (Entry Task)) : List (Entry Task) :=
  l.filter fun n => decide (n.fl.flOwner = some o)

theorem mem_block {o : Task} {l : List (Entry Task)} {n : Entry Task} :
    n ∈ block o l ↔ n ∈ l ∧ n.fl.flOwner = some o := by
  simp [block]

/-- A list as `lock_it` and `fcntl_remove_locks` see it: `A` and `B` are of other owners,
and there is no `B` without a block before it. -/
structure Framed (o : Task) (l A B : List (Entry Task)) : Prop where
  eq : l = A ++ block o l ++ B
  left : ∀ n ∈ A, n.fl.flOwner ≠ some o
  right : ∀ n ∈ B, n.fl.flOwner ≠ some o
  empty : block o l = [] → B = []

/-- The records of an owner are where the two loops look for them. -/
theorem Contiguous.framed {l : List (Entry Task)} (h : Contiguous l) (o : Task) :
    Framed o l (l.takeWhile fun n => decide (n.fl.flOwner ≠ some o))
      ((l.dropWhile fun n => decide (n.fl.flOwner ≠ some o)).dropWhile
        fun n => decide (n.fl.flOwner = some o)) := by
  set A := l.takeWhile fun n => decide (n.fl.flOwner ≠ some o) with hAdef
  set R := l.dropWhile fun n => decide (n.fl.flOwner ≠ some o) with hRdef
  set G := R.takeWhile fun n => decide (n.fl.flOwner = some o) with hGdef
  set B := R.dropWhile fun n => decide (n.fl.flOwner = some o) with hBdef
  have hlR : l = A ++ R := (List.takeWhile_append_dropWhile).symm
  have hRG : R = G ++ B := (List.takeWhile_append_dropWhile).symm
  have hA : ∀ n ∈ A, n.fl.flOwner ≠ some o := fun n hn => by
    simpa using List.mem_takeWhile_imp hn
  have hG : ∀ n ∈ G, n.fl.flOwner = some o := fun n hn => by
    simpa using List.mem_takeWhile_imp hn
  have hGB : G = [] → B = [] := by
    intro hG0
    cases hR : R with
    | nil => rw [hBdef, hR]; rfl
    | cons n R' =>
      have hn : ¬ decide (n.fl.flOwner ≠ some o) = true := by
        have := List.head?_dropWhile_not (fun n => decide (n.fl.flOwner ≠ some o)) l
        rw [← hRdef, hR] at this
        simpa using this
      have : G ≠ [] := by
        rw [hGdef, hR, List.takeWhile_cons_of_pos (by simpa using hn)]
        simp
      exact absurd hG0 this
  have hB : ∀ n ∈ B, n.fl.flOwner ≠ some o := by
    intro n hn ho
    cases hBc : B with
    | nil => rw [hBc] at hn; cases hn
    | cons b B' =>
      have hb : b.fl.flOwner ≠ some o := by
        have := List.head?_dropWhile_not (fun n => decide (n.fl.flOwner = some o)) R
        rw [← hBdef, hBc] at this
        simpa using this
      have hGne : G ≠ [] := fun hG0 => by
        rw [hGB hG0] at hBc
        cases hBc
      obtain ⟨g, hg⟩ := List.exists_mem_of_ne_nil G hGne
      have hnB' : n ∈ B' := by
        rw [hBc] at hn
        rcases List.mem_cons.1 hn with rfl | hn
        · exact absurd ho hb
        · exact hn
      have hsub : [g, b, n].Sublist l := by
        rw [hlR, hRG, hBc]
        refine List.Sublist.trans ?_ (List.sublist_append_right A _)
        exact (List.singleton_sublist.2 hg).append
          ((List.singleton_sublist.2 hnB').cons_cons b)
      exact hb ((h g b n hsub ((hG g hg).trans ho.symm)).trans (hG g hg))
  have hblock : block o l = G := by
    unfold block
    have h1 : A.filter (fun n => decide (n.fl.flOwner = some o)) = [] :=
      List.filter_eq_nil_iff.2 fun n hn => by simpa using hA n hn
    have h2 : B.filter (fun n => decide (n.fl.flOwner = some o)) = [] :=
      List.filter_eq_nil_iff.2 fun n hn => by simpa using hB n hn
    have h3 : G.filter (fun n => decide (n.fl.flOwner = some o)) = G :=
      List.filter_eq_self.2 fun n hn => by simpa using hG n hn
    rw [hlR, hRG, List.filter_append, List.filter_append, h1, h2, h3, List.nil_append,
      List.append_nil]
  refine ⟨?_, hA, hB, fun h => hGB (hblock ▸ h)⟩
  rw [hblock, List.append_assoc, ← hRG, ← hlR]

end

/-! ## Requests -/

/-- A record as `fcntl_setlk` hands it to `lock_it`. -/
structure Request (t : Task) (fl : FileLock Task) : Prop where
  proper : fl.Proper
  owner : fl.flOwner = some t
  type : fl.flType = .rdlck ∨ fl.flType = .wrlck ∨ fl.flType = .unlck

theorem offT_bounds (x : Int) : -2147483648 ≤ offT x ∧ offT x ≤ offsetMax := by
  unfold offT offsetMax
  omega

/-- `copy_flock` accepts no empty range and no range that leaves the offsets. -/
theorem copyFlock_proper {t : Task} {filp : File Inode} {l : Flock} {fl : FileLock Task}
    (h : copyFlock t filp l = some fl) : fl.Proper ∧ fl.flOwner = some t := by
  unfold copyFlock at h
  split at h
  · rename_i i type base _ _ _
    simp only at h
    split at h
    · cases h
    · rename_i hcond
      obtain ⟨-, hstart, hlen⟩ : filp.isReg = true ∧ 0 ≤ offT (base + l.lStart.toInt) ∧
          0 ≤ l.lLen.toInt := by
        push Not at hcond
        exact ⟨by simpa using hcond.1, hcond.2.1, hcond.2.2⟩
      have hsb := offT_bounds (base + l.lStart.toInt)
      have hlb : l.lLen.toInt < 2147483648 := l.lLen.toInt_lt
      cases h
      refine ⟨⟨hstart, ?_, ?_⟩, rfl⟩
      · simp only
        split
        · exact hsb.2
        · rename_i hne
          push Not at hne
          have hpos : l.lLen.toInt ≠ 0 := fun h0 => hne.1 (Int32.toInt_inj.1 h0)
          have hfin := hne.2
          unfold offT at hfin hsb hstart ⊢
          unfold offsetMax at hsb
          omega
      · simp only
        split
        · exact le_rfl
        · exact (offT_bounds _).2
  · cases h

theorem fcntlSetlkArgs_request {t : Task} {fd : Nat} {filp : Option (File Inode)} {verify : Int}
    {flock : Flock} {i : Inode} {fl : FileLock Task}
    (h : fcntlSetlkArgs t fd filp verify flock = .ok (i, fl)) : Request t fl := by
  unfold fcntlSetlkArgs at h
  split at h
  · cases h
  · split at h
    · cases h
    · split at h
      · cases h
      · split at h
        · rename_i fl' i' hcopy _
          obtain ⟨hp, ho⟩ := copyFlock_proper hcopy
          cases ht : fl'.flType with
          | rdlck | wrlck =>
            simp only [ht] at h
            split at h
            · cases h
            · cases h
              exact ⟨hp, ho, by simp [ht]⟩
          | shlck | exlck =>
            simp only [ht] at h
            split at h
            · cases h
            · cases h
              exact ⟨⟨hp.1, hp.2, hp.3⟩, ho, by simp⟩
          | unlck =>
            simp only [ht] at h
            cases h
            exact ⟨hp, ho, by simp [ht]⟩
        · cases h

/-! ## Small steps -/

section

variable [DecidableEq Task] [DecidableEq Inode]

/-- The things a step is made of.  `ok` is what is known of a call of `lock_it`. -/
inductive Small (ok : State Task Inode → Task → Inode → FileLock Task → Prop)
    (s : State Task Inode) : State Task Inode → Prop
  | idle : Small ok s s
  | signal (t : Task) :
      Small ok s { s with asleep := fun u => if u = t then false else s.asleep u }
  | wokenUp (t : Task) (w : Wait Task Inode) : s.waiting t = some w → s.asleep t = false →
      Small ok s (s.wokenUp t w)
  | sleepOn (t : Task) (i : Inode) (n : Entry Task) (fl : FileLock Task) :
      s.waiting t = none → Request t fl → n ∈ s.iFlock i → conflict fl n.fl = true →
      Small ok s (s.sleepOn t i n.addr fl)
  | lock (t : Task) (i : Inode) (fl : FileLock Task) : Request t fl →
      (∀ n ∈ s.iFlock i, conflict fl n.fl = false) → ok s t i fl →
      Small ok s (s.lock t i fl).2
  | remove (t : Task) (i : Inode) : Small ok s (fcntlRemoveLocks s t i)

variable {ok : State Task Inode → Task → Inode → FileLock Task → Prop}

variable {fl : FileLock Task}

theorem conflict_unlck (h : fl.flType = .unlck) (sysFl : FileLock Task) :
    conflict fl sysFl = false := by
  unfold conflict
  rw [h]
  split_ifs <;> rfl

/-- `lock_it` is called only when nothing conflicts. -/
theorem scan_lock {l : List (Entry Task)} {cmd : Nat} {sig : Bool}
    (h : scan l fl cmd sig = .lock) : ∀ n ∈ l, conflict fl n.fl = false := by
  intro n hn
  unfold scan at h
  by_cases hu : fl.flType = .unlck
  · exact conflict_unlck hu n.fl
  · rw [if_pos hu] at h
    split at h
    · rename_i hnone
      simpa using List.find?_eq_none.1 hnone n hn
    · split_ifs at h

theorem scan_sleep {l : List (Entry Task)} {cmd : Nat} {sig : Bool}
    {a : Slot} (h : scan l fl cmd sig = .sleep a) :
    ∃ n ∈ l, n.addr = a ∧ conflict fl n.fl = true := by
  unfold scan at h
  by_cases hu : fl.flType = .unlck
  · simp [hu] at h
  · rw [if_pos hu] at h
    cases hf : l.find? fun n => conflict fl n.fl with
    | none => simp [hf] at h
    | some n =>
      simp only [hf] at h
      split_ifs at h
      cases h
      exact ⟨n, List.mem_of_find?_eq_some hf, rfl, by simpa using List.find?_some hf⟩

theorem State.setlk_small {s : State Task Inode} {t : Task} {i : Inode}
    {cmd : Nat} {sig : Bool} (hreq : Request t fl) (hwait : s.waiting t = none)
    (hok : scan (s.iFlock i) fl cmd sig = .lock → ok s t i fl) :
    Small ok s (s.setlk t i fl cmd sig).2 := by
  unfold State.setlk
  cases hv : scan (s.iFlock i) fl cmd sig with
  | ret value => exact .idle
  | sleep a =>
    obtain ⟨n, hn, rfl, hc⟩ := scan_sleep hv
    exact .sleepOn t i n fl hwait hreq hn hc
  | lock => exact .lock t i fl hreq (scan_lock hv) (hok hv)

/-- **A step is made of at most two small ones.** -/
theorem step_small {s s' : State Task Inode} {e : Event Task Inode}
    (hreq : ∀ t w, s.waiting t = some w → Request t w.request)
    (hok : ∀ s₀ t i fl, lockCall s e = some (s₀, t, i, fl) → ok s₀ t i fl)
    (h : step s e = some s') : ∃ s₁, Small ok s s₁ ∧ Small ok s₁ s' := by
  cases e with
  | setlk t fd filp verify cmd flock sig =>
    simp only [step] at h
    split at h
    · cases h
    · rename_i hwait
      cases h
      refine ⟨s, .idle, ?_⟩
      unfold fcntlSetlk
      cases ha : fcntlSetlkArgs t fd filp verify flock with
      | error e => exact .idle
      | ok p =>
        obtain ⟨i, fl⟩ := p
        refine State.setlk_small (fcntlSetlkArgs_request ha) hwait fun hv => hok s t i fl ?_
        simp [lockCall, ha, hv]
  | resume t sig =>
    simp only [step] at h
    split at h
    · cases h
    · rename_i w hw
      split at h
      · cases h
      · rename_i hasleep
        cases h
        refine ⟨s.wokenUp t w, .wokenUp t w hw (by simpa using hasleep), ?_⟩
        unfold State.resume
        cases sig with
        | true => exact .idle
        | false =>
          refine State.setlk_small (hreq t w hw) (by simp [State.wokenUp]) fun hv => ?_
          refine hok (s.wokenUp t w) t w.inode w.request ?_
          simp [lockCall, hw, hv]
  | signal t =>
    simp only [step, Option.some.injEq] at h
    subst h
    exact ⟨s, .idle, .signal t⟩
  | removeLocks t i =>
    simp only [step, Option.some.injEq] at h
    subst h
    exact ⟨s, .idle, .remove t i⟩

end

/-! ## The table -/

/-- A byte that records of two owners cover is read-locked by both. -/
def Exclusive (l : List (Entry Task)) : Prop :=
  ∀ x ∈ l, ∀ y ∈ l, x.fl.flOwner ≠ y.fl.flOwner → ∀ b, x.fl.Has b → y.fl.Has b →
    x.fl.flType = .rdlck ∧ y.fl.flType = .rdlck

/-- What holds of one inode's list. -/
structure ListOk (l : List (Entry Task)) : Prop where
  owned : ∀ n ∈ l, n.fl.flOwner ≠ none
  contiguous : Contiguous l
  inRange : ∀ n ∈ l, n.fl.InRange
  typed : ∀ n ∈ l, n.fl.flType = .rdlck ∨ n.fl.flType = .wrlck
  exclusive : Exclusive l

/-- What holds in every reachable state. -/
structure Table (s : State Task Inode) : Prop where
  nodup : ∀ i, (addrs (s.iFlock i) ++ addrs s.free).Nodup
  apart : ∀ i j, i ≠ j → ∀ a ∈ addrs (s.iFlock i), a ∉ addrs (s.iFlock j)
  cover : ∀ a : Slot, a ∈ addrs s.free ∨ ∃ i, a ∈ addrs (s.iFlock i)
  unowned : ∀ n ∈ s.free, n.fl.flOwner = none
  lists : ∀ i, ListOk (s.iFlock i)
  panicked : s.panicked = false
  requests : ∀ t w, s.waiting t = some w → Request t w.request

variable {l : List (Entry Task)}

/-- Changing queues changes nothing of what `ListOk` is about. -/
theorem ListOk.of_map (h : ListOk l) (f : Entry Task → Entry Task)
    (hf : ∀ n, (f n).fl.flOwner = n.fl.flOwner ∧ (f n).fl.flType = n.fl.flType ∧
      (f n).fl.flStart = n.fl.flStart ∧ (f n).fl.flEnd = n.fl.flEnd) : ListOk (l.map f) := by
  have hmem : ∀ {P : Entry Task → Prop}, (∀ n ∈ l, P (f n)) → ∀ n ∈ l.map f, P n := by
    intro P hP n hn
    obtain ⟨m, hm, rfl⟩ := List.mem_map.1 hn
    exact hP m hm
  have hhas : ∀ n b, (f n).fl.Has b ↔ n.fl.Has b := by
    intro n b
    unfold FileLock.Has
    rw [(hf n).2.2.1, (hf n).2.2.2]
  refine ⟨hmem fun n hn => ?_, ?_, hmem fun n hn => ?_, hmem fun n hn => ?_, ?_⟩
  · rw [(hf n).1]
    exact h.owned n hn
  · intro x y z hsub hxz
    obtain ⟨l', hl', hmap⟩ := List.sublist_map_iff.1 hsub
    obtain ⟨x', l₁, rfl, rfl, hmap₁⟩ := List.map_eq_cons_iff.1 hmap.symm
    obtain ⟨y', l₂, rfl, rfl, hmap₂⟩ := List.map_eq_cons_iff.1 hmap₁
    obtain ⟨z', l₃, rfl, rfl, hmap₃⟩ := List.map_eq_cons_iff.1 hmap₂
    obtain rfl := List.map_eq_nil_iff.1 hmap₃
    rw [(hf x').1, (hf z').1] at hxz
    rw [(hf y').1, (hf x').1]
    exact h.contiguous x' y' z' hl' hxz
  · obtain ⟨h1, h2, h3, h4⟩ := h.inRange n hn
    refine ⟨?_, ?_, ?_, ?_⟩ <;> simpa [(hf n).2.2.1, (hf n).2.2.2]
  · rw [(hf n).2.1]
    exact h.typed n hn
  · intro x hx y hy hne b hxb hyb
    obtain ⟨x', hx', rfl⟩ := List.mem_map.1 hx
    obtain ⟨y', hy', rfl⟩ := List.mem_map.1 hy
    rw [(hf x').1, (hf y').1] at hne
    rw [(hf x').2.1, (hf y').2.1]
    exact h.exclusive x' hx' y' hy' hne b ((hhas x' b).1 hxb) ((hhas y' b).1 hyb)

theorem ListOk.modifyWait (h : ListOk l) (a : Slot) (g : List Task → List Task) :
    ListOk (modifyAt a (fun fl => { fl with flWait := g fl.flWait }) l) := by
  refine h.of_map _ fun n => ?_
  split <;> simp

theorem ListOk.sublist {l' : List (Entry Task)} (h : ListOk l) (hs : l'.Sublist l) :
    ListOk l' :=
  ⟨fun n hn => h.owned n (hs.subset hn), fun x y z hxyz => h.contiguous x y z (hxyz.trans hs),
    fun n hn => h.inRange n (hs.subset hn), fun n hn => h.typed n (hs.subset hn),
    fun x hx y hy => h.exclusive x (hs.subset hx) y (hs.subset hy)⟩

theorem Table.init : Table (fcntlInitLocks : State Task Inode) := by
  have haddr : addrs (fcntlInitLocks : State Task Inode).free = List.finRange nrFileLocks := by
    simp only [fcntlInitLocks, addrs, List.map_map]
    exact List.map_id _
  refine ⟨fun i => ?_, ?_, fun a => .inl ?_, ?_, fun i => ?_, rfl, ?_⟩
  · rw [haddr]
    exact List.nodup_finRange _
  · intro i j _ a ha
    cases ha
  · rw [haddr]
    exact List.mem_finRange a
  · intro n hn
    obtain ⟨a, -, rfl⟩ := List.mem_map.1 hn
    rfl
  · refine ⟨?_, ?_, ?_, ?_, ?_⟩
    · intro n hn
      cases hn
    · intro x y z hsub
      cases hsub
    · intro n hn
      cases hn
    · intro n hn
      cases hn
    · intro x hx
      cases hx
  · intro t w hw
    cases hw

/-! ## Keeping the table -/

section

variable [DecidableEq Inode]

@[simp] theorem State.setFlock_self (s : State Task Inode) (i : Inode) (l : List (Entry Task)) :
    s.setFlock i l i = l := if_pos rfl

theorem State.setFlock_of_ne (s : State Task Inode) {i j : Inode} (h : j ≠ i)
    (l : List (Entry Task)) : s.setFlock i l j = s.iFlock j := if_neg h

/-- Moving records between one inode's list and the free list. -/
theorem Table.of_update {s s' : State Task Inode} (h : Table s) {i : Inode}
    {l : List (Entry Task)} (hl : s'.iFlock = s.setFlock i l)
    (hperm : (addrs l ++ addrs s'.free).Perm (addrs (s.iFlock i) ++ addrs s.free))
    (hfree : ∀ n ∈ s'.free, n.fl.flOwner = none) (hok : ListOk l) (hpan : s'.panicked = false)
    (hwait : s'.waiting = s.waiting) : Table s' := by
  have hother : ∀ j, j ≠ i → ∀ a ∈ addrs (s.iFlock i) ++ addrs s.free, a ∉ addrs (s.iFlock j) := by
    intro j hj a ha haj
    rcases List.mem_append.1 ha with ha | ha
    · exact h.apart i j (Ne.symm hj) a ha haj
    · exact (List.nodup_append.1 (h.nodup j)).2.2 a haj a ha rfl
  have hnew : ∀ j, j ≠ i → ∀ a ∈ addrs l ++ addrs s'.free, a ∉ addrs (s.iFlock j) :=
    fun j hj a ha => hother j hj a (hperm.subset ha)
  refine ⟨fun j => ?_, ?_, fun a => ?_, hfree, fun j => ?_, hpan, ?_⟩
  · rw [hl]
    by_cases hj : j = i
    · subst hj
      rw [State.setFlock_self]
      exact hperm.nodup_iff.2 (h.nodup j)
    · rw [s.setFlock_of_ne hj]
      refine List.nodup_append.2 ⟨(List.nodup_append.1 (h.nodup j)).1,
        (List.nodup_append.1 (hperm.nodup_iff.2 (h.nodup i))).2.1, ?_⟩
      intro a ha b hb hab
      exact hnew j hj b (List.mem_append_right _ hb) (hab ▸ ha)
  · intro j k hjk a ha
    rw [hl] at ha ⊢
    by_cases hj : j = i
    · subst hj
      rw [State.setFlock_self] at ha
      rw [s.setFlock_of_ne (Ne.symm hjk)]
      exact hnew k (Ne.symm hjk) a (List.mem_append_left _ ha)
    · rw [s.setFlock_of_ne hj] at ha
      by_cases hk : k = i
      · subst hk
        rw [State.setFlock_self]
        exact fun hmem => hnew j hj a (List.mem_append_left _ hmem) ha
      · rw [s.setFlock_of_ne hk]
        exact h.apart j k hjk a ha
  · have hin : a ∈ addrs (s.iFlock i) ++ addrs s.free →
        a ∈ addrs s'.free ∨ ∃ j, a ∈ addrs (s'.iFlock j) := by
      intro ha
      rcases List.mem_append.1 (hperm.symm.subset ha) with ha | ha
      · exact .inr ⟨i, by rw [hl, State.setFlock_self]; exact ha⟩
      · exact .inl ha
    rcases h.cover a with ha | ⟨j, ha⟩
    · exact hin (List.mem_append_right _ ha)
    · by_cases hj : j = i
      · subst hj
        exact hin (List.mem_append_left _ ha)
      · exact .inr ⟨j, by rw [hl, s.setFlock_of_ne hj]; exact ha⟩
  · rw [hl]
    by_cases hj : j = i
    · subst hj
      rw [State.setFlock_self]
      exact hok
    · rw [s.setFlock_of_ne hj]
      exact h.lists j
  · rw [hwait]
    exact h.requests

end

/-- Two records that share a byte overlap in the sense of the source. -/
theorem overlap_of_has {fl₁ fl₂ : FileLock Task} {b : Int} (h1 : fl₁.Has b) (h2 : fl₂.Has b) :
    overlap fl₁ fl₂ = true := by
  obtain ⟨h1, h1'⟩ := h1
  obtain ⟨h2, h2'⟩ := h2
  simp only [overlap, Bool.and_eq_true, decide_eq_true_eq]
  omega

section

variable [DecidableEq Task]

variable {t : Task} {fl : FileLock Task}

/-- **What `lock_it` does to a list**: it works on the block of its owner and leaves the rest
alone. -/
theorem Contiguous.lockIt_eq {l free : List (Entry Task)} (h : Contiguous l)
    (hnd : (addrs l ++ addrs free).Nodup) (hfree : ∀ n ∈ free, n.fl.flOwner = none)
    (howner : fl.flOwner = some t) : ∃ A B, Framed t l A B ∧
      lockIt t l free fl = (lockGroup t (block t l) free fl).within A B ∧
      (addrs (block t l) ++ addrs free).Nodup := by
  have hfr := h.framed t
  generalize (l.takeWhile fun n => decide (n.fl.flOwner ≠ some t)) = A at hfr
  generalize ((l.dropWhile fun n => decide (n.fl.flOwner ≠ some t)).dropWhile
    fun n => decide (n.fl.flOwner = some t)) = B at hfr
  have hown : ∀ n ∈ block t l, n.fl.flOwner = some t := fun n hn => (mem_block.1 hn).2
  rw [hfr.eq] at hnd
  simp only [addrs_append] at hnd
  obtain ⟨hn1, hn2, hn3⟩ := List.nodup_append.1 hnd
  obtain ⟨hn4, hn5, hn6⟩ := List.nodup_append.1 hn1
  obtain ⟨-, hn8, hn9⟩ := List.nodup_append.1 hn4
  have hA : Apart (addrs (block t l) ++ addrs free) A := by
    intro a ha haA
    rcases List.mem_append.1 ha with ha | ha
    · exact hn9 a haA a ha rfl
    · exact hn3 a (by simp [haA]) a ha rfl
  have hB : Apart (addrs (block t l) ++ addrs free) B := by
    intro a ha haB
    rcases List.mem_append.1 ha with ha | ha
    · exact hn6 a (by simp [ha]) a haB rfl
    · exact hn3 a (by simp [haB]) a ha rfl
  refine ⟨A, B, hfr, ?_, ?_⟩
  · have := lockIt_frame howner hfr.left hown hfr.right hfr.empty hfree hA hB
    rwa [← hfr.eq] at this
  · exact List.nodup_append.2 ⟨hn8, hn2, fun a ha b hb => hn3 a (by simp [ha]) b hb⟩

variable {s : State Task Inode}

/-- What `lock_it` does to an inode's list in a reachable state. -/
theorem Table.lockIt_eq (h : Table s)
    (hreq : Request t fl) (i : Inode) : ∃ A B, Framed t (s.iFlock i) A B ∧
      lockIt t (s.iFlock i) s.free fl = (lockGroup t (block t (s.iFlock i)) s.free fl).within A B ∧
      (lockGroup t (block t (s.iFlock i)) s.free fl).Sound t
        (addrs (block t (s.iFlock i)) ++ addrs s.free) ∧
      (addrs (block t (s.iFlock i)) ++ addrs s.free).Nodup := by
  obtain ⟨A, B, hfr, heq, hnodup⟩ :=
    (h.lists i).contiguous.lockIt_eq (h.nodup i) h.unowned hreq.owner
  have hown : ∀ n ∈ block t (s.iFlock i), n.fl.flOwner = some t := fun n hn => (mem_block.1 hn).2
  exact ⟨A, B, hfr, heq, lockGroup_sound hreq.owner hown h.unowned, hnodup⟩

/-- A request that does not conflict with a record it shares a byte with is a read lock,
and so is the record. -/
theorem rdlck_of_not_conflict {sysFl : FileLock Task} (h : conflict fl sysFl = false)
    (hne : fl.flOwner ≠ sysFl.flOwner) (ht : fl.flType = .rdlck ∨ fl.flType = .wrlck) {b : Int}
    (h1 : fl.Has b) (h2 : sysFl.Has b) : fl.flType = .rdlck ∧ sysFl.flType = .rdlck := by
  unfold conflict at h
  rw [if_neg hne, if_neg (by simp [overlap_of_has h1 h2])] at h
  rcases ht with ht | ht
  · rw [ht] at h
    exact ⟨ht, by simpa using h⟩
  · rw [ht] at h
    simp at h

/-- The block `lock_it` leaves, in its place in the list. -/
theorem ListOk.lock {A B G free : List (Entry Task)}
    (h : ListOk (A ++ G ++ B)) (hreq : Request t fl) (hA : ∀ n ∈ A, n.fl.flOwner ≠ some t)
    (hB : ∀ n ∈ B, n.fl.flOwner ≠ some t) (hG : ∀ n ∈ G, n.fl.flOwner = some t)
    (hGB : G = [] → B = []) (hfree : ∀ n ∈ free, n.fl.flOwner = none)
    (hnodup : (addrs G ++ addrs free).Nodup) (hconf : ∀ n ∈ A ++ G ++ B, conflict fl n.fl = false) :
    ListOk (A ++ (lockGroup t G free fl).list ++ B) := by
  set o := lockGroup t G free fl with ho
  have hsound : o.Sound t (addrs G ++ addrs free) := lockGroup_sound hreq.owner hG hfree
  have hmemG : ∀ n ∈ G, n ∈ A ++ G ++ B := fun n hn => by simp [hn]
  have hext := lockGroup_extent hreq.owner hreq.proper hG (fun n hn => h.inRange n (hmemG n hn))
    hfree hnodup
  rw [← ho] at hext
  have htyped : ∀ n ∈ o.list, n.fl.flType = .rdlck ∨ n.fl.flType = .wrlck := by
    intro n hn
    rcases lockGroup_typed hreq.owner hG hfree n hn with ⟨ht, hu⟩ | ⟨y, hy, ht⟩
    · rw [ht]
      rcases hreq.type with h1 | h1 | h1
      · exact .inl h1
      · exact .inr h1
      · exact absurd h1 hu
    · rw [← ht]
      exact h.typed y (hmemG y hy)
  -- a record of the list afterwards is an old one of another owner, or one of the block
  have hcases : ∀ n ∈ A ++ o.list ++ B,
      (n ∈ A ++ G ++ B ∧ n.fl.flOwner ≠ some t) ∨ n ∈ o.list := by
    intro n hn
    simp only [List.mem_append] at hn ⊢
    rcases hn with (hn | hn) | hn
    · exact .inl ⟨.inl (.inl hn), hA n hn⟩
    · exact .inr hn
    · exact .inl ⟨.inr hn, hB n hn⟩
  -- a record of the block and one of another owner
  have hmixed : ∀ x ∈ o.list, ∀ y ∈ A ++ G ++ B, y.fl.flOwner ≠ some t → ∀ b, x.fl.Has b →
      y.fl.Has b → x.fl.flType = .rdlck ∧ y.fl.flType = .rdlck := by
    intro x hx y hy hyo b hxb hyb
    rcases (hext x hx).allowed b hxb with ⟨ht, hb⟩ | ⟨z, hz, ht, hb⟩
    · have hne : fl.flOwner ≠ y.fl.flOwner := fun heq => hyo (heq.symm.trans hreq.owner)
      have htx := htyped x hx
      rw [ht] at htx ⊢
      exact rdlck_of_not_conflict (hconf y hy) hne htx hb hyb
    · rw [← ht]
      exact h.exclusive z (hmemG z hz) y hy (fun heq => hyo (heq.symm.trans (hG z hz))) b hb hyb
  refine ⟨?_, h.contiguous.replace hA hB hG hGB hsound.own, ?_, ?_, ?_⟩
  · intro n hn
    rcases hcases n hn with hn | hn
    · exact h.owned n hn.1
    · rw [hsound.own n hn]
      simp
  · intro n hn
    rcases hcases n hn with hn | hn
    · exact h.inRange n hn.1
    · exact (hext n hn).inRange
  · intro n hn
    rcases hcases n hn with hn | hn
    · exact h.typed n hn.1
    · exact htyped n hn
  · intro x hx y hy hne b hxb hyb
    rcases hcases x hx with ⟨hx, hxo⟩ | hx <;> rcases hcases y hy with ⟨hy, hyo⟩ | hy
    · exact h.exclusive x hx y hy hne b hxb hyb
    · exact (hmixed y hy x hx hxo b hyb hxb).symm
    · exact hmixed x hx y hy hyo b hxb hyb
    · exact absurd ((hsound.own x hx).trans (hsound.own y hy).symm) hne

/-- The loop of `fcntl_remove_locks` frees the block it starts at. -/
theorem removeLoop_block {B : List (Entry Task)}
    (hB : ∀ n ∈ B, n.fl.flOwner ≠ some t) (G free : List (Entry Task)) (woken : List Task)
    (hG : ∀ n ∈ G, n.fl.flOwner = some t) :
    removeLoop t (G ++ B) free woken =
      (B, (G.map freedEntry).reverse ++ free, woken ++ G.flatMap fun n => n.fl.flWait) := by
  induction G generalizing free woken with
  | nil =>
    cases B with
    | nil => simp [removeLoop]
    | cons n B => simp [removeLoop, hB n]
  | cons n G ih =>
    rw [List.cons_append, removeLoop, if_pos (hG n (by simp)),
      ih _ _ fun m hm => hG m (by simp [hm])]
    simp

theorem Table.wokenUp (h : Table s) (t : Task) (w : Wait Task Inode) :
    Table (s.wokenUp t w) := by
  refine ⟨fun i => ?_, fun i j hij => ?_, fun a => ?_, ?_, fun i => ?_, h.panicked, ?_⟩
  · simpa [State.wokenUp] using h.nodup i
  · simpa [State.wokenUp] using h.apart i j hij
  · simpa [State.wokenUp] using h.cover a
  · intro n hn
    simp only [State.wokenUp] at hn
    rcases mem_modifyAt hn with hn | ⟨m, hm, -, rfl⟩
    · exact h.unowned n hn
    · exact h.unowned m hm
  · exact (h.lists i).modifyWait w.slot fun l => l.erase t
  · intro u w' hu
    simp only [State.wokenUp] at hu
    split_ifs at hu
    exact h.requests u w' hu

variable [DecidableEq Inode]

theorem Table.lock (h : Table s)
    (hreq : Request t fl) {i : Inode} (hconf : ∀ n ∈ s.iFlock i, conflict fl n.fl = false) :
    Table (s.lock t i fl).2 := by
  obtain ⟨A, B, hfr, heq, hsound, hnodup⟩ := h.lockIt_eq hreq i
  set G := block t (s.iFlock i) with hG
  set o := lockGroup t G s.free fl with ho
  have hown : ∀ n ∈ G, n.fl.flOwner = some t := fun n hn => (mem_block.1 hn).2
  refine h.of_update (i := i) (l := A ++ o.list ++ B) ?_ ?_ ?_ ?_ ?_ rfl
  · simp only [State.lock, heq, Outcome.within]
  · simp only [State.lock, heq, Outcome.within]
    rw [hfr.eq]
    simp only [addrs_append]
    calc (addrs A ++ addrs o.list ++ addrs B ++ addrs o.free).Perm
          (addrs A ++ addrs B ++ (addrs o.list ++ addrs o.free)) := by
            simp only [List.append_assoc]
            refine List.Perm.append_left _ ?_
            simp only [← List.append_assoc]
            exact List.Perm.append_right _ List.perm_append_comm
      _ |>.Perm (addrs A ++ addrs B ++ (addrs G ++ addrs s.free)) := hsound.perm.append_left _
      _ |>.Perm (addrs A ++ addrs G ++ addrs B ++ addrs s.free) := by
            simp only [List.append_assoc]
            refine List.Perm.append_left _ ?_
            simp only [← List.append_assoc]
            exact List.Perm.append_right _ List.perm_append_comm
  · simp only [State.lock, heq, Outcome.within]
    exact hsound.unowned
  · have hl := h.lists i
    rw [hfr.eq] at hl hconf
    exact hl.lock hreq hfr.left hfr.right hown hfr.empty h.unowned hnodup hconf
  · simp only [State.lock, heq, Outcome.within]
    rw [h.panicked, hsound.panicked]
    rfl

/-- What `fcntl_remove_locks` does in a reachable state. -/
theorem Table.remove_eq (h : Table s) (t : Task) (i : Inode) :
    ∃ A B, Framed t (s.iFlock i) A B ∧ fcntlRemoveLocks s t i = { s with
      iFlock := s.setFlock i (A ++ B)
      free := ((block t (s.iFlock i)).map freedEntry).reverse ++ s.free
      asleep := fun u => s.asleep u &&
        !decide (u ∈ (block t (s.iFlock i)).flatMap fun n => n.fl.flWait) } := by
  have hfr := (h.lists i).contiguous.framed t
  refine ⟨_, _, hfr, ?_⟩
  have hdrop : (s.iFlock i).dropWhile (fun n => decide (n.fl.flOwner ≠ some t)) =
      block t (s.iFlock i) ++ ((s.iFlock i).dropWhile
        fun n => decide (n.fl.flOwner ≠ some t)).dropWhile
          fun n => decide (n.fl.flOwner = some t) := by
    have heq := hfr.eq
    nth_rewrite 1 [← List.takeWhile_append_dropWhile
      (p := fun n => decide (n.fl.flOwner ≠ some t)) (l := s.iFlock i)] at heq
    rw [List.append_assoc] at heq
    exact List.append_cancel_left heq
  have hloop := removeLoop_block hfr.right (block t (s.iFlock i)) s.free []
    fun n hn => (mem_block.1 hn).2
  unfold fcntlRemoveLocks
  rw [← hdrop] at hloop
  simp only [hloop, List.nil_append]

theorem Table.remove (h : Table s) (t : Task) (i : Inode) :
    Table (fcntlRemoveLocks s t i) := by
  obtain ⟨A, B, hfr, heq⟩ := h.remove_eq t i
  set G := block t (s.iFlock i) with hG
  have hfreed : addrs (G.map freedEntry).reverse = (addrs G).reverse := by
    simp only [addrs, List.map_reverse, List.map_map]
    rfl
  rw [heq]
  refine h.of_update (i := i) (l := A ++ B) rfl ?_ ?_ ?_ h.panicked rfl
  · rw [hfr.eq]
    simp only [addrs_append, hfreed, List.append_assoc]
    refine List.Perm.append_left _ ?_
    calc (addrs B ++ ((addrs G).reverse ++ addrs s.free)).Perm
          (addrs B ++ (addrs G ++ addrs s.free)) :=
            ((List.reverse_perm _).append_right _).append_left _
      _ |>.Perm (addrs G ++ (addrs B ++ addrs s.free)) := by
            simp only [← List.append_assoc]
            exact List.Perm.append_right _ List.perm_append_comm
  · intro n hn
    rcases List.mem_append.1 hn with hn | hn
    · obtain ⟨m, -, rfl⟩ := List.mem_map.1 (List.mem_reverse.1 hn)
      rfl
    · exact h.unowned n hn
  · refine (h.lists i).sublist ?_
    rw [hfr.eq, List.append_assoc]
    exact (List.sublist_append_right _ _).append_left A

theorem Table.sleepOn (h : Table s) (i : Inode) (a : Slot)
    (hreq : Request t fl) : Table (s.sleepOn t i a fl) := by
  have haddr : ∀ j, addrs ((s.sleepOn t i a fl).iFlock j) = addrs (s.iFlock j) := by
    intro j
    simp only [State.sleepOn, State.setFlock]
    split_ifs with hj
    · rw [hj, addrs_modifyAt]
    · rfl
  refine ⟨fun j => ?_, fun j k hjk => ?_, fun b => ?_, h.unowned, fun j => ?_, h.panicked, ?_⟩
  · rw [haddr]
    exact h.nodup j
  · rw [haddr, haddr]
    exact h.apart j k hjk
  · simp only [haddr]
    exact h.cover b
  · simp only [State.sleepOn, State.setFlock]
    split_ifs with hj
    · exact (h.lists i).modifyWait a fun l => l ++ [t]
    · exact h.lists j
  · intro u w hu
    simp only [State.sleepOn] at hu
    split_ifs at hu with hut
    · cases hu
      exact hut ▸ hreq
    · exact h.requests u w hu

variable {ok : State Task Inode → Task → Inode → FileLock Task → Prop}

/-- **Every small step keeps the table.** -/
theorem Small.table {s' : State Task Inode} (h : Table s) (hs : Small ok s s') : Table s' := by
  cases hs with
  | idle => exact h
  | signal t =>
    obtain ⟨h1, h2, h3, h4, h5, h6, h7⟩ := h
    exact ⟨h1, h2, h3, h4, h5, h6, h7⟩
  | wokenUp t w => exact h.wokenUp t w
  | sleepOn t i n fl _ hreq => exact h.sleepOn i n.addr hreq
  | lock t i fl hreq hconf => exact h.lock hreq hconf
  | remove t i => exact h.remove t i

/-- What every small step keeps, beside the table, holds in every state of a run all of
whose calls of `lock_it` meet `R`. -/
theorem reach_invariant {R : State Task Inode → Task → Inode → FileLock Task → Prop}
    {I : State Task Inode → Prop} (h0 : I fcntlInitLocks)
    (hsmall : ∀ s s', Table s → I s → Small R s s' → I s')
    (h : Reach step (fun s e => ∀ s₀ t i fl, lockCall s e = some (s₀, t, i, fl) → R s₀ t i fl)
      fcntlInitLocks s) : Table s ∧ I s := by
  refine Reach.invariant (I := fun s => Table s ∧ I s) ⟨Table.init, h0⟩ ?_ h
  intro s e s' hinv hok hstep
  obtain ⟨s₁, hs₁, hs'⟩ := step_small hinv.1.requests hok hstep
  have h1 := hs₁.table hinv.1
  exact ⟨hs'.table h1, hsmall s₁ s' h1 (hsmall s s₁ hinv.1 hinv.2 hs₁) hs'⟩

theorem Table.of_reach (h : Reach step anyStep fcntlInitLocks s) :
    Table s :=
  (reach_invariant (R := fun _ _ _ _ => True) (I := fun _ => True) trivial
    (fun _ _ _ _ _ => trivial) (h.mono fun _ _ _ _ _ _ _ _ => trivial)).1

/-- **Record locks exclude each other.**  In every reachable state, two records of
different owners on one inode that share a byte are both read locks. -/
theorem recordLocks_exclusive (h : Reach step anyStep fcntlInitLocks s)
    (i : Inode) : ∀ x ∈ s.iFlock i, ∀ y ∈ s.iFlock i, x.fl.flOwner ≠ y.fl.flOwner →
      (∃ b, x.fl.Has b ∧ y.fl.Has b) → x.fl.flType = .rdlck ∧ y.fl.flType = .rdlck := by
  rintro x hx y hy hne ⟨b, hxb, hyb⟩
  exact ((Table.of_reach h).lists i).exclusive x hx y hy hne b hxb hyb

end

/-! ### Two readers -/

/-- A regular file of the one inode, open for reading and writing. -/
def openFile : File Unit := { fInode := some (), fMode := 3, fPos := 0, isReg := true, iSize := 0 }

/-- A call of `fcntl_setlk` on that file with a range given from its start. -/
def setlkEvent (task : Fin 2) (cmd : Nat) (type : Int16) (start len : Int32) :
    Event (Fin 2) Unit :=
  .setlk task 0 (some openFile) 0 cmd
    { lType := type, lWhence := 0, lStart := start, lLen := len } false

/-- The state after some calls. -/
def after (es : List (Event (Fin 2) Unit)) : State (Fin 2) Unit :=
  (execFrom step fcntlInitLocks es).getD fcntlInitLocks

theorem reach_after {es : List (Event (Fin 2) Unit)}
    (h : (execFrom step (fcntlInitLocks : State (Fin 2) Unit) es).isSome = true) :
    Reach step anyStep fcntlInitLocks (after es) := by
  obtain ⟨s, hs⟩ := Option.isSome_iff_exists.1 h
  rw [after, hs]
  exact Reach.of_execFrom .init hs

/-- Two tasks read-lock ranges that share the byte 7. -/
theorem recordLocks_exclusive_readers :
    let es := [setlkEvent 0 fSetlk 0 0 10, setlkEvent 1 fSetlk 0 5 10]
    ∃ x ∈ (after es).iFlock (), ∃ y ∈ (after es).iFlock (), x.fl.flOwner ≠ y.fl.flOwner ∧
      x.fl.Has 7 ∧ y.fl.Has 7 ∧ x.fl.flType = .rdlck ∧ y.fl.flType = .rdlck := by
  intro es
  have hlist : (after es).iFlock () =
      [⟨0, ⟨some 0, [], .rdlck, 0, 0, 9⟩⟩, ⟨1, ⟨some 1, [], .rdlck, 0, 5, 14⟩⟩] := by
    decide +kernel
  have hreach : Reach step anyStep fcntlInitLocks (after es) := reach_after (by decide +kernel)
  refine ⟨⟨0, ⟨some 0, [], .rdlck, 0, 0, 9⟩⟩, by simp [hlist],
    ⟨1, ⟨some 1, [], .rdlck, 0, 5, 14⟩⟩, by simp [hlist], by decide, by decide, by decide, ?_⟩
  exact recordLocks_exclusive hreach () _ (by simp [hlist]) _ (by simp [hlist]) (by decide)
    ⟨7, by decide, by decide⟩

end LinuxEvocation.Locks
