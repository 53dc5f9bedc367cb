import LinuxEvocation.Fs.Locks.Invariant

/-!
# `F_GETLK` and `F_SETLK`

`fcntl_getlk` tells which lock would block a request.  It shares `copy_flock` and `conflict` with
`fcntl_setlk`, but not the `switch` in between, which turns `F_SHLCK` into `F_RDLCK` and `F_EXLCK`
into `F_WRLCK`; and `conflict` never finds anything to block a request of the other two types.

* `fcntlGetlk` — the call.
* `getlk_predicts_setlk_iff` — the requests for which the answer is right.
-/

namespace LinuxEvocation.Locks

variable {Task Inode : Type}

/-! ## The call -/

/-- The value of a type in `l_type`. -/
def LockType.toRaw : LockType → Int16
  | .rdlck => 0
  | .wrlck => 1
  | .unlck => 2
  | .exlck => 4
  | .shlck => 8

/-- `struct flock` with the field that only `fcntl_getlk` writes. -/
structure FlockPid extends Flock where
  lPid : Int32
  deriving DecidableEq

/-- The answer that describes the lock `fl`. -/
def getlkReply (pid : Task → Int32) (flock : FlockPid) (fl : FileLock Task) : FlockPid :=
  { lPid := match fl.flOwner with
      | some owner => pid owner
      | none => flock.lPid
    lStart := Int32.ofInt fl.flStart
    lLen := if fl.flEnd = offsetMax then 0 else Int32.ofInt (fl.flEnd - fl.flStart + 1)
    lWhence := Int16.ofInt fl.flWhence
    lType := fl.flType.toRaw }

section

variable [DecidableEq Task]

/-- `fcntl_getlk`: the error it returns, or the `struct flock` it copies to the caller. -/
def fcntlGetlk (pid : Task → Int32) (s : State Task Inode) (current : Task) (fd : Nat)
    (filp : Option (File Inode)) (verify : Int) (flock : FlockPid) : Except Int FlockPid :=
  match filp with
  | none => .error (-Errno.ebadf)
  | some f =>
    if fd ≥ nrOpen then .error (-Errno.ebadf)
    else if verify ≠ 0 then .error verify
    else if flock.lType = LockType.unlck.toRaw then .error (-Errno.einval)
    else
      match copyFlock current f flock.toFlock, f.fInode with
      | some fl, some inode =>
        match (s.iFlock inode).find? fun n => conflict fl n.fl with
        | some n => .ok (getlkReply pid flock n.fl)
        | none => .ok { flock with lType := LockType.unlck.toRaw }
      | _, _ => .error (-Errno.einval)

end

/-! ## How `fcntl_setlk` prepares a request -/

/-- The `switch` of `fcntl_setlk`. -/
def LockType.effective : LockType → LockType
  | .shlck => .rdlck
  | .exlck => .wrlck
  | type => type

theorem LockType.toRaw_inj {type type' : LockType} : type.toRaw = type'.toRaw ↔ type = type' := by
  cases type <;> cases type' <;> decide

theorem LockType.toRaw_of_ofRaw {n : Int16} {type : LockType} (h : LockType.ofRaw n = some type) :
    n = type.toRaw := by
  unfold LockType.ofRaw at h
  split_ifs at h with h0 h1 h2 h4 h8 <;> cases h <;> assumption

variable {t : Task} {fl : FileLock Task}

/-- A request keeps the type it came with. -/
theorem copyFlock_type {f : File Inode} {l : Flock}
    (h : copyFlock t f l = some fl) : l.lType = fl.flType.toRaw ∧ fl.flOwner = some t := by
  unfold copyFlock at h
  split at h
  · rename_i inode type base hinode htype hbase
    simp only [Option.ite_none_left_eq_some, Option.some.injEq] at h
    rw [← h.2]
    exact ⟨LockType.toRaw_of_ofRaw htype, rfl⟩
  · cases h

variable {filp : Option (File Inode)}

/-- **The two calls start from the same record**; `fcntl_setlk` rewrites its type. -/
theorem fcntlSetlkArgs_ok {fd : Nat} {verify : Int} {l : Flock} {i : Inode}
    (h : fcntlSetlkArgs t fd filp verify l = .ok (i, fl)) :
    ∃ f fl₀, filp = some f ∧ ¬ fd ≥ nrOpen ∧ verify = 0 ∧ copyFlock t f l = some fl₀ ∧
      f.fInode = some i ∧ fl = { fl₀ with flType := fl₀.flType.effective } := by
  unfold fcntlSetlkArgs at h
  cases filp with
  | none => cases h
  | some f =>
    simp only at h
    by_cases hfd : fd ≥ nrOpen
    · rw [if_pos hfd] at h
      cases h
    by_cases hver : verify ≠ 0
    · rw [if_neg hfd, if_pos hver] at h
      cases h
    rw [if_neg hfd, if_neg hver] at h
    split at h
    · rename_i fl₀ inode hcopy hinode
      refine ⟨f, fl₀, rfl, hfd, not_not.1 hver, hcopy, ?_⟩
      obtain ⟨owner, wait, type, whence, start, fin⟩ := fl₀
      cases type <;> simp only at h
      · split_ifs at h
        cases h
        exact ⟨hinode, rfl⟩
      · split_ifs at h
        cases h
        exact ⟨hinode, rfl⟩
      · cases h
        exact ⟨hinode, rfl⟩
      · split_ifs at h
        cases h
        exact ⟨hinode, rfl⟩
      · split_ifs at h
        cases h
        exact ⟨hinode, rfl⟩
    · cases h

/-! ## When the second call is blocked -/

variable [DecidableEq Task]

/-- Nothing blocks a request that is neither for reading nor for writing. -/
theorem conflict_of_type (h1 : fl.flType ≠ .rdlck) (h2 : fl.flType ≠ .wrlck)
    (sysFl : FileLock Task) : conflict fl sysFl = false := by
  unfold conflict
  split_ifs
  · rfl
  · split
    · rename_i ht
      exact absurd ht h1
    · rename_i ht
      exact absurd ht h2
    · rfl
  · rfl

/-- What blocks a request is a lock of somebody else on bytes of the request. -/
theorem conflict_spec {sysFl : FileLock Task} (h : conflict fl sysFl = true) :
    overlap fl sysFl = true ∧ sysFl.flOwner ≠ fl.flOwner := by
  unfold conflict at h
  split_ifs at h with howner hover
  exact ⟨by simpa using hover, fun heq => howner heq.symm⟩

theorem lockIt_ret (t : Task) (l free : List (Entry Task)) (fl : FileLock Task) :
    (lockIt t l free fl).ret = 0 ∨ (lockIt t l free fl).ret = -Errno.einval ∨
      (lockIt t l free fl).ret = -Errno.enolck := by
  have hsplit : ∀ (added : Bool) (c : Scan Task) (rest : List (Entry Task)),
      (c.split t added rest).ret = 0 ∨ (c.split t added rest).ret = -Errno.enolck := by
    intro added c rest
    unfold Scan.split
    split
    · split_ifs
      · split
        · exact .inl rfl
        · split <;> exact .inr rfl
      · exact .inl rfl
    · exact .inl rfl
  have hfinish : ∀ (c : Scan Task) (rest : List (Entry Task)), (c.finish t rest).ret = 0 ∨
      (c.finish t rest).ret = -Errno.einval ∨ (c.finish t rest).ret = -Errno.enolck := by
    intro c rest
    unfold Scan.finish
    split_ifs
    · exact (hsplit true c rest).imp_right .inr
    · exact .inr (.inl rfl)
    · split
      · exact .inr (.inr rfl)
      · exact (hsplit false _ _).imp_right .inr
  exact hfinish _ _

variable [DecidableEq Inode]

/-- **When `F_SETLK` is told to try again**: exactly when a lock of the list conflicts. -/
theorem fcntlSetlk_eagain_iff {s : State Task Inode} {fd : Nat}
    {verify : Int} {l : Flock} {i : Inode}
    (h : fcntlSetlkArgs t fd filp verify l = .ok (i, fl)) (hlock : fl.flType ≠ .unlck)
    (sig : Bool) :
    (fcntlSetlk s t fd filp verify fSetlk l sig).1 = some (-Errno.eagain) ↔
      ∃ n ∈ s.iFlock i, conflict fl n.fl = true := by
  rw [fcntlSetlk, h]
  simp only [State.setlk, scan]
  rw [if_pos hlock]
  cases hfind : (s.iFlock i).find? fun n => conflict fl n.fl with
  | none =>
    rw [List.find?_eq_none] at hfind
    refine iff_of_false ?_ ?_
    · intro heq
      have hret : (lockIt t (s.iFlock i) s.free fl).ret = -Errno.eagain := Option.some.inj heq
      rcases lockIt_ret t (s.iFlock i) s.free fl with h | h | h <;> rw [hret] at h <;>
        exact absurd h (by decide)
    · rintro ⟨n, hn, hc⟩
      exact hfind n hn hc
  | some n =>
    refine iff_of_true ?_ ⟨n, List.mem_of_find?_eq_some hfind, ?_⟩
    · have hcmd : fSetlk ≠ fSetlkw := by decide
      simp only
      rw [if_neg hcmd]
    · have := List.find?_some hfind
      exact this

/-! ## The prediction -/

/-- `F_GETLK` answered `reply`, and `F_SETLK` with the same request, issued immediately
afterwards, returns `ret`. -/
structure Predicts (pid : Task → Int32) (s : State Task Inode) (t : Task) (i : Inode)
    (fl : FileLock Task) (flock reply : FlockPid) (ret : Option Int) : Prop where
  /-- `F_UNLCK` is reported exactly when the lock would not be refused, ... -/
  unlck_iff : reply.lType = LockType.unlck.toRaw ↔ ret ≠ some (-Errno.eagain)
  /-- ... and otherwise a lock of another owner that overlaps the request. -/
  blocker : reply.lType ≠ LockType.unlck.toRaw → ∃ n ∈ s.iFlock i,
    overlap fl n.fl = true ∧ n.fl.flOwner ≠ some t ∧ reply = getlkReply pid flock n.fl

/-- **`F_GETLK` predicts `F_SETLK`** exactly for the requests of type `F_RDLCK` and `F_WRLCK`,
and for those of type `F_SHLCK` and `F_EXLCK` that nothing would block. -/
theorem getlk_predicts_setlk_iff {s : State Task Inode} {fd : Nat}
    {verify : Int} {flock : FlockPid} {i : Inode} (pid : Task → Int32)
    (hlist : ∀ n ∈ s.iFlock i, n.fl.flType = .rdlck ∨ n.fl.flType = .wrlck)
    (hargs : fcntlSetlkArgs t fd filp verify flock.toFlock = .ok (i, fl))
    (hlock : flock.lType ≠ LockType.unlck.toRaw) (sig : Bool) :
    (∃ reply, fcntlGetlk pid s t fd filp verify flock = .ok reply ∧
        Predicts pid s t i fl flock reply
          (fcntlSetlk s t fd filp verify fSetlk flock.toFlock sig).1) ↔
      flock.lType = LockType.rdlck.toRaw ∨ flock.lType = LockType.wrlck.toRaw ∨
        ∀ n ∈ s.iFlock i, conflict fl n.fl = false := by
  obtain ⟨f, fl₀, rfl, hfd, hverify, hcopy, hinode, hfl⟩ := fcntlSetlkArgs_ok hargs
  obtain ⟨htype, howner⟩ := copyFlock_type hcopy
  have hne₀ : fl₀.flType ≠ .unlck := by
    rw [htype, Ne, LockType.toRaw_inj] at hlock
    exact hlock
  have hne : fl.flType ≠ .unlck := by
    rw [hfl]
    cases ht : fl₀.flType <;> simp_all [LockType.effective]
  have heagain := fcntlSetlk_eagain_iff (s := s) hargs hne sig
  -- the answer of `F_GETLK`
  have hget : fcntlGetlk pid s t fd (some f) verify flock =
      match (s.iFlock i).find? fun n => conflict fl₀ n.fl with
      | some n => .ok (getlkReply pid flock n.fl)
      | none => .ok { flock with lType := LockType.unlck.toRaw } := by
    simp only [fcntlGetlk]
    rw [if_neg hfd, if_neg (not_not.2 hverify), if_neg hlock, hcopy, hinode]
  rw [htype, LockType.toRaw_inj, LockType.toRaw_inj, hget]
  by_cases hkeep : fl₀.flType = .rdlck ∨ fl₀.flType = .wrlck
  · -- the two calls test the same record
    have heq : fl = fl₀ := by
      rw [hfl]
      rcases hkeep with h | h <;> rw [h] <;> simp [LockType.effective, ← h]
    refine iff_of_true ?_ (by tauto)
    subst heq
    cases hfind : (s.iFlock i).find? fun n => conflict fl n.fl with
    | none =>
      rw [List.find?_eq_none] at hfind
      refine ⟨_, rfl, iff_of_true rfl fun hret => ?_, fun h => absurd rfl h⟩
      obtain ⟨n, hn, hc⟩ := heagain.1 hret
      exact hfind n hn hc
    | some n =>
      have hn := List.mem_of_find?_eq_some hfind
      have hc : conflict fl n.fl = true := by
        have := List.find?_some hfind
        exact this
      obtain ⟨hover, hother⟩ := conflict_spec hc
      refine ⟨_, rfl, iff_of_false (fun h => ?_) (fun h => h (heagain.2 ⟨n, hn, hc⟩)), fun _ => ?_⟩
      · have hu : n.fl.flType = .unlck := LockType.toRaw_inj.1 h
        rcases hlist n hn with ht | ht <;> rw [ht] at hu <;> cases hu
      · exact ⟨n, hn, hover, by rwa [howner] at hother, rfl⟩
  · -- `F_GETLK` finds nothing, whatever there is
    have hnone : ((s.iFlock i).find? fun n => conflict fl₀ n.fl) = none := by
      rw [List.find?_eq_none]
      intro n _
      rw [conflict_of_type (fun h => hkeep (.inl h)) (fun h => hkeep (.inr h))]
      simp
    rw [hnone]
    constructor
    · rintro ⟨reply, hreply, hp⟩
      cases hreply
      refine .inr (.inr fun n hn => ?_)
      by_contra hc
      exact hp.unlck_iff.1 rfl (heagain.2 ⟨n, hn, by simpa using hc⟩)
    · rintro (h | h | hall)
      · exact absurd (.inl h) hkeep
      · exact absurd (.inr h) hkeep
      · refine ⟨_, rfl, iff_of_true rfl fun hret => ?_, fun h => absurd rfl h⟩
        obtain ⟨n, hn, hc⟩ := heagain.1 hret
        rw [hall n hn] at hc
        cases hc

/-! ## Two requests -/

/-- The table after task 1 has locked the bytes 0 to 99 for writing. -/
def writeLocked : State (Fin 2) Unit := after [setlkEvent 1 fSetlk 1 0 100]

/-- The process identifiers of the two tasks. -/
def pidOf (t : Fin 2) : Int32 := Int32.ofNat t

/-- A request for the bytes 50 to 59. -/
def requestFor (type : Int16) : FlockPid :=
  { lType := type, lWhence := 0, lStart := 50, lLen := 10, lPid := 0 }

/-- The write lock is reported to a task that asks for one. -/
theorem getlk_predicts_setlk_iff_write :
    ∃ reply, fcntlGetlk pidOf writeLocked 0 3 (some openFile) 0 (requestFor 1) = .ok reply ∧
      reply.lPid = 1 ∧ reply.lLen = 100 := by
  have hlist : ∀ n ∈ writeLocked.iFlock (), n.fl.flType = .rdlck ∨ n.fl.flType = .wrlck := by
    decide
  obtain ⟨fl, hargs⟩ : ∃ fl : FileLock (Fin 2),
      fcntlSetlkArgs 0 3 (some openFile) 0 (requestFor 1).toFlock = .ok ((), fl) := ⟨_, rfl⟩
  have hlock : (requestFor 1).lType ≠ LockType.unlck.toRaw := by decide
  obtain ⟨reply, hreply, -⟩ := (getlk_predicts_setlk_iff pidOf hlist hargs
    hlock false).2 (.inr (.inl rfl))
  refine ⟨reply, hreply, ?_⟩
  cases hreply
  decide

/-- **A request for an exclusive lock is answered with `F_UNLCK`**, and then refused. -/
theorem getlk_misses_exclusive :
    (∃ reply, fcntlGetlk pidOf writeLocked 0 3 (some openFile) 0
        (requestFor 4) = .ok reply ∧ reply.lType = LockType.unlck.toRaw) ∧
      (fcntlSetlk writeLocked 0 3 (some openFile) 0 fSetlk (requestFor 4).toFlock false).1 =
        some (-Errno.eagain) :=
  ⟨⟨_, rfl, by decide⟩, by decide⟩

end LinuxEvocation.Locks
