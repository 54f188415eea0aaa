import Sam.Operation.Atomic

/-!
# Readers and writers

A shared mutex over the interleavings of `InlineHandler`, given back by those only that have it. The
entries that let somebody in are counted by mode: the one of the request, and that of the list for
an `unlock` or `unlock_shared` that lets waiters in. A blocking `lock_shared` waits in `waiters_`,
so what it is given counts as an exclusive lock.
-/

namespace Sam

open LockScope Transition

universe u v

variable {ι : Type u} [DecidableEq ι] {τ : Type v} [DecidableEq τ]

namespace SharedMutexImpl

/-- The mode in which an entry lets others in. -/
def grantMode (m : SharedMutexImpl (Op ι)) : (Kind.sharedMutex.primitive ι).Entry → Mode
  | .call .tryLockShared | .call (.lockShared _) | .call (.asyncLockShared ..) => .shared
  | .call .unlock => if m.sharedWaiters = [] then .exclusive else .shared
  | _ => .exclusive

/-- The requests that an entry grants in this mode. -/
def grantsIn (mode : Mode) (m : SharedMutexImpl (Op ι))
    (e : (Kind.sharedMutex.primitive ι).Entry) : Nat :=
  if m.grantMode e = mode then e.grants m else 0

/-- Whether an entry gives a lock of this mode back. -/
def releasesIn (mode : Mode) (_ : SharedMutexImpl (Op ι)) :
    (Kind.sharedMutex.primitive ι).Entry → Nat
  | .call .unlock => if mode = .exclusive then 1 else 0
  | .call .unlockShared => if mode = .shared then 1 else 0
  | _ => 0

/-- What an entry gives back is there. -/
def Owed (m : SharedMutexImpl (Op ι)) : (Kind.sharedMutex.primitive ι).Entry → Prop
  | .call .unlock => m.locked = true
  | .call .unlockShared => 0 < m.lockedShared
  | _ => True

/-- The locks of this mode that a shared mutex has given away and not got back. -/
def out (mode : Mode) (m : SharedMutexImpl (Op ι)) : Nat :=
  match mode with
  | .exclusive => m.taken
  | .shared => m.lockedShared

/-- A shared mutex that is locked is not shared. -/
def Excludes (m : SharedMutexImpl (Op ι)) : Prop := m.locked = true → m.lockedShared = 0

/-- What a call changes: the locks of one mode, by what it grants and gives back. -/
structure Accounts (m t : SharedMutexImpl (Op ι)) (mode back : Mode) (granted released : Nat) :
    Prop where
  excludes : t.Excludes
  balance : ∀ md, out md t + (if md = back then released else 0) =
    out md m + if mode = md then granted else 0

variable {m t : SharedMutexImpl (Op ι)}

omit [DecidableEq ι] in
/-- Nobody is let in. -/
theorem Accounts.same {mode back : Mode} (hexcludes : t.Excludes)
    (hsame : ∀ md, out md t = out md m) : Accounts m t mode back 0 0 := by
  refine ⟨hexcludes, fun md => ?_⟩
  rw [ite_self, ite_self, hsame md]

omit [DecidableEq ι] in
/-- A free mutex is locked. -/
theorem Accounts.locks {back : Mode} (hfree : m.locked = false) (hnone : m.lockedShared = 0) :
    Accounts m { m with locked := true } .exclusive back 1 0 := by
  refine ⟨fun _ => hnone, fun md => ?_⟩
  cases md <;> simp [out, MutexImpl.taken, hfree]

omit [DecidableEq ι] in
/-- A mutex that is not locked is shared. -/
theorem Accounts.shares {back : Mode} (hfree : m.locked = false) :
    Accounts m { m with lockedShared := m.lockedShared + 1 } .shared back 1 0 := by
  refine ⟨fun h => absurd (hfree.symm.trans h) Bool.false_ne_true, fun md => ?_⟩
  cases md <;> simp [out]

omit [DecidableEq ι] in
/-- A request takes what it asks for, if it is granted. -/
theorem Asks.accounts {op : Op ι} {mode : Mode} {outcome : Outcome}
    (h : Asks m op mode outcome t) (hexcludes : m.Excludes) :
    Accounts m t mode mode (if outcome = .granted then 1 else 0) 0 := by
  cases h with
  | locked hfree hnone => exact Accounts.locks hfree hnone
  | shared hfree => exact Accounts.shares hfree
  | queued | queuedShared | refused | failed =>
      exact Accounts.same hexcludes fun md => by cases md <;> rfl

omit [DecidableEq ι] in
/-- `try_lock`. -/
theorem tryLock_accounts (hexcludes : m.Excludes) :
    Accounts m m.tryLock.state .exclusive .exclusive
      (if m.tryLock.outcome = .granted then 1 else 0) 0 := by
  unfold tryLock
  split
  · exact Accounts.same hexcludes fun _ => rfl
  · rename_i hfree
    simp only [Bool.or_eq_true, decide_eq_true_eq, not_or, Bool.not_eq_true] at hfree
    exact Accounts.locks hfree.1 (by omega)

omit [DecidableEq ι] in
/-- `try_lock_shared`. -/
theorem tryLockShared_accounts (hexcludes : m.Excludes) :
    Accounts m m.tryLockShared.state .shared .shared
      (if m.tryLockShared.outcome = .granted then 1 else 0) 0 := by
  unfold tryLockShared
  split
  · exact Accounts.same hexcludes fun _ => rfl
  · rename_i hfree
    exact Accounts.shares (by simpa using hfree)

/-- A blocking `lock_shared`, whose op may be in the list of the writers. -/
theorem lockShared_accounts {op : Op ι} (hexcludes : m.Excludes) :
    Accounts m (m.lockShared op).state .shared .shared
      (if (m.lockShared op).outcome = .granted then 1 else 0) 0 := by
  cases hlocked : m.locked with
  | true =>
      have hasks : Asks m op .shared (m.lockShared op).outcome (m.lockShared op).state := by
        rw [lockShared_of_locked hlocked]
        split
        · exact .queued _
        · exact .failed _ _
      exact hasks.accounts hexcludes
  | false =>
      cases hmode : m.enabled <;>
        simp only [lockShared, tryLockShared, hmode, hlocked, addWaiter, MutexImpl.addWaiter,
          unlink, Bool.not_false, Bool.not_true, Bool.false_eq_true, if_true, if_false]
      all_goals
        refine ⟨fun he => ?_, fun md => ?_⟩
        · simp [hlocked] at he
        · cases md <;> simp [out, MutexImpl.taken, hlocked]

/-- A blocking `lock`. -/
theorem lock_accounts {op : Op ι} (h : m.Attended) (hexcludes : m.Excludes) :
    Accounts m (m.lock op).state .exclusive .exclusive
      (if (m.lock op).outcome = .granted then 1 else 0) 0 := by
  by_cases htaken : m.locked = true ∨ 0 < m.lockedShared
  · have hasks : Asks m op .exclusive (m.lock op).outcome (m.lock op).state := by
      rw [lock_of_taken htaken]
      split
      · exact .queued _
      · exact .failed _ _
    exact hasks.accounts hexcludes
  · have hwaiters : m.waiters = [] := by
      by_contra hwaiters
      exact htaken (h.1 hwaiters)
    have hshared : m.sharedWaiters = [] := by
      by_contra hshared
      exact htaken (Or.inl (h.2 hshared))
    exact (lock_asks (by simp [hwaiters, hshared])).accounts hexcludes

/-- The loop of `unlock` does not lock. -/
theorem wakeShared_locked {line : List (Op ι)} :
    (m.wakeShared line).locked = m.locked := by
  induction line generalizing m with
  | nil => rfl
  | cons op rest ih => exact ih

/-- An `unlock` by who has the lock. -/
theorem unlock_accounts (hexcludes : m.Excludes) (hlocked : m.locked = true) :
    Accounts m m.unlock.state (if m.sharedWaiters = [] then .exclusive else .shared) .exclusive
      m.unlock.completed.length 1 := by
  have hnone : m.lockedShared = 0 := hexcludes hlocked
  cases hline : m.sharedWaiters with
  | nil =>
      cases hwaiters : m.waiters with
      | nil =>
          rw [unlock_of_none hline hwaiters]
          refine ⟨fun _ => hnone, fun md => ?_⟩
          cases md <;> simp [out, MutexImpl.taken, hlocked]
      | cons w rest =>
          rw [unlock_of_waiter hline hwaiters]
          refine ⟨fun _ => hnone, fun md => ?_⟩
          cases md <;> simp [out, MutexImpl.taken, hlocked]
  | cons w rest =>
      have hunlock : m.unlock =
          { state := { m with locked := false }.wakeShared (w :: rest), outcome := .returned,
            completed := w :: rest } := by
        simp only [unlock, hline]
      obtain ⟨-, hcount⟩ := @wakeShared_spec _ _ { m with locked := false } _ hline
      have hfree : ({ m with locked := false }.wakeShared (w :: rest)).locked = false :=
        wakeShared_locked
      rw [hunlock, if_neg (List.cons_ne_nil w rest)]
      refine ⟨fun h => absurd (hfree.symm.trans h) Bool.false_ne_true, fun md => ?_⟩
      cases md <;> simp [out, MutexImpl.taken, hlocked, hfree, hcount]

/-- An `unlock_shared` by one of those who share the lock. -/
theorem unlockShared_accounts (hexcludes : m.Excludes) (hshared : 0 < m.lockedShared) :
    Accounts m m.unlockShared.state .exclusive .shared m.unlockShared.completed.length 1 := by
  have hlocked : m.locked = false := by
    by_contra hlocked
    have hnone := hexcludes (Bool.not_eq_false _ ▸ hlocked)
    omega
  rw [unlockShared_eq]
  split
  · have hlast : m.lockedShared = 1 := by omega
    cases hwaiters : m.waiters with
    | nil =>
        refine ⟨fun _ => rfl, fun md => ?_⟩
        cases md <;> simp [out, MutexImpl.taken, hlocked, hlast]
    | cons w rest =>
        refine ⟨fun _ => rfl, fun md => ?_⟩
        cases md <;> simp [out, MutexImpl.taken, unlink, hlocked, hlast]
  · refine ⟨fun h => absurd (hlocked.symm.trans h) Bool.false_ne_true, fun md => ?_⟩
    cases md <;> simp [out, MutexImpl.taken, hlocked]
    omega

/-- Requests complete nobody. -/
theorem completed_of_request {c : Call ι} (hunlock : c ≠ .unlock) (hshared : c ≠ .unlockShared) :
    (c.run m).completed = [] := by
  cases c with
  | unlock => exact absurd rfl hunlock
  | unlockShared => exact absurd rfl hshared
  | _ =>
      simp only [Call.run, tryLock, tryLockShared, asyncLock, asyncLockShared, lock, lockShared]
      repeat' split
      all_goals rfl

/-- The releases have no outcome, but complete those who waited. -/
theorem grants_of_returned {c : Call ι} (h : (c.run m).outcome = .returned) :
    Primitive.Entry.grants (P := Kind.sharedMutex.primitive ι) m (.call c) =
      (c.run m).completed.length := by
  show (if (c.run m).outcome = .granted then 1 else 0) + (c.run m).completed.length = _
  rw [h, if_neg (by simp), Nat.zero_add]

theorem unlock_returned : m.unlock.outcome = .returned := by
  unfold unlock
  split
  · rfl
  · split <;> rfl

theorem unlockShared_returned : m.unlockShared.outcome = .returned := by
  rw [unlockShared_eq]
  split
  · split <;> rfl
  · rfl

/-- A call changes what it grants and gives back. -/
theorem Accounts.call {c : Call ι} {mode back : Mode} {granted released : Nat}
    (h : Accounts m (c.run m).state mode back granted released)
    (hmode : m.grantMode (.call c) = mode)
    (hgranted : Primitive.Entry.grants (P := Kind.sharedMutex.primitive ι) m (.call c) = granted)
    (hreleased : ∀ md, m.releasesIn md (.call c) = if md = back then released else 0) (md : Mode) :
    out md (c.run m).state + m.releasesIn md (.call c) =
      out md m + m.grantsIn md (.call c) := by
  rw [hreleased, grantsIn, hmode, hgranted]
  exact h.balance md

/-- A request changes what it is granted. -/
theorem Accounts.request {c : Call ι} {mode : Mode}
    (h : Accounts m (c.run m).state mode mode (if (c.run m).outcome = .granted then 1 else 0) 0)
    (hmode : m.grantMode (.call c) = mode) (hunlock : c ≠ .unlock) (hshared : c ≠ .unlockShared) :
    (c.run m).state.Excludes ∧ ∀ md, out md (c.run m).state + m.releasesIn md (.call c) =
      out md m + m.grantsIn md (.call c) := by
  refine ⟨h.excludes, h.call hmode ?_ fun md => ?_⟩
  · show (if (c.run m).outcome = .granted then 1 else 0) + (c.run m).completed.length = _
    rw [completed_of_request hunlock hshared]
    rfl
  · rw [ite_self]
    cases c with
    | unlock => exact absurd rfl hunlock
    | unlockShared => exact absurd rfl hshared
    | _ => rfl

/-- What a call changes. -/
theorem call_accounts (h : m.Attended) (hexcludes : m.Excludes) {c : Call ι}
    (howed : m.Owed (.call c)) :
    (c.run m).state.Excludes ∧ ∀ md, out md (c.run m).state + m.releasesIn md (.call c) =
      out md m + m.grantsIn md (.call c) := by
  cases c with
  | tryLock => exact (tryLock_accounts hexcludes).request rfl nofun nofun
  | lock id => exact (lock_accounts h hexcludes).request rfl nofun nofun
  | asyncLock id slot => exact (asyncLock_asks.accounts hexcludes).request rfl nofun nofun
  | tryLockShared => exact (tryLockShared_accounts hexcludes).request rfl nofun nofun
  | lockShared id => exact (lockShared_accounts hexcludes).request rfl nofun nofun
  | asyncLockShared id slot =>
      exact (asyncLockShared_asks.accounts hexcludes).request rfl nofun nofun
  | unlock =>
      have haccounts := unlock_accounts hexcludes howed
      exact ⟨haccounts.excludes,
        haccounts.call (c := .unlock) rfl (grants_of_returned unlock_returned) fun _ => rfl⟩
  | unlockShared =>
      have haccounts := unlockShared_accounts hexcludes howed
      exact ⟨haccounts.excludes, haccounts.call (c := .unlockShared) rfl
        (grants_of_returned unlockShared_returned) fun _ => rfl⟩

/-- What an entry changes. -/
theorem accounts_apply (h : m.Attended) (hexcludes : m.Excludes)
    {e : (Kind.sharedMutex.primitive ι).Entry} (howed : m.Owed e) :
    Excludes (e.apply m) ∧ ∀ md, out md (e.apply m) + m.releasesIn md e =
      out md m + m.grantsIn md e := by
  cases e with
  | call c => exact call_accounts h hexcludes howed
  | cancel op =>
      refine ⟨hexcludes, fun md => ?_⟩
      show out md (m.unlink op) + 0 = out md m + if Mode.exclusive = md then 0 else 0
      rw [ite_self]
      cases md <;> rfl

end SharedMutexImpl

namespace InlineHandler

/-- Each entry, after those before it, gives back what is there. -/
def Owing (s : (Kind.sharedMutex.primitive ι).State) :
    List (τ × (Kind.sharedMutex.primitive ι).Entry) → Prop
  | [] => True
  | x :: rest => SharedMutexImpl.Owed s x.2 ∧ Owing (x.2.apply s) rest

omit [DecidableEq τ] in
/-- So do those of any prefix. -/
theorem Owing.first {s : (Kind.sharedMutex.primitive ι).State}
    {before rest : List (τ × (Kind.sharedMutex.primitive ι).Entry)}
    (h : Owing s (before ++ rest)) : Owing s before := by
  induction before generalizing s with
  | nil => trivial
  | cons x before ih => exact ⟨h.1, ih h.2⟩

omit [DecidableEq τ] in
/-- What entries that give back what is there change. -/
theorem accounts_serially {s : (Kind.sharedMutex.primitive ι).State}
    (hs : Kind.sharedMutex.Attended s) (hexcludes : SharedMutexImpl.Excludes s)
    {entries : List (τ × (Kind.sharedMutex.primitive ι).Entry)} (howing : Owing s entries) :
    SharedMutexImpl.Excludes (serially s entries) ∧
      ∀ md, SharedMutexImpl.out md (serially s entries) +
          total .sharedMutex (SharedMutexImpl.releasesIn md) s entries =
        SharedMutexImpl.out md s +
          total .sharedMutex (SharedMutexImpl.grantsIn md) s entries := by
  induction entries generalizing s with
  | nil => exact ⟨hexcludes, fun _ => rfl⟩
  | cons x rest ih =>
      obtain ⟨hfirst, hone⟩ :=
        SharedMutexImpl.accounts_apply hs hexcludes howing.1
      obtain ⟨hlast, hall⟩ := ih (hs.apply x.2) hfirst howing.2
      refine ⟨hlast, fun md => ?_⟩
      have hx := hone md
      have hr := hall md
      show SharedMutexImpl.out md (serially (x.2.apply s) rest) +
          (SharedMutexImpl.releasesIn md s x.2 + _) =
        SharedMutexImpl.out md s + (SharedMutexImpl.grantsIn md s x.2 + _)
      omega

/-- A new shared mutex. -/
def fresh (enabled : Bool) : (Kind.sharedMutex.primitive ι).State := SharedMutexImpl.init enabled

/-- The locks of this mode that the entries granted. -/
def given (mode : Mode) (s : (Kind.sharedMutex.primitive ι).State)
    (entries : List (τ × (Kind.sharedMutex.primitive ι).Entry)) : Nat :=
  total .sharedMutex (SharedMutexImpl.grantsIn mode) s entries

/-- The locks of this mode that the entries gave back. -/
def gotBack (mode : Mode) (s : (Kind.sharedMutex.primitive ι).State)
    (entries : List (τ × (Kind.sharedMutex.primitive ι).Entry)) : Nat :=
  total .sharedMutex (SharedMutexImpl.releasesIn mode) s entries

omit [DecidableEq τ] in
/-- What is out after entries that give back what is there, on a new shared mutex. -/
theorem out_serially {enabled : Bool} {entries : List (τ × (Kind.sharedMutex.primitive ι).Entry)}
    (howing : Owing (fresh enabled) entries) :
    SharedMutexImpl.Excludes (serially (fresh enabled) entries) ∧
      ∀ md, SharedMutexImpl.out md (serially (fresh enabled) entries) +
        gotBack md (fresh enabled) entries = given md (fresh enabled) entries := by
  obtain ⟨hlast, hall⟩ := accounts_serially (s := fresh enabled)
    ⟨fun h => absurd rfl h, fun h => absurd rfl h⟩ (fun _ => rfl) howing
  refine ⟨hlast, fun md => (hall md).trans ?_⟩
  have hnone : SharedMutexImpl.out md (fresh enabled : (Kind.sharedMutex.primitive ι).State) = 0 :=
    by cases md <;> rfl
  rw [hnone, Nat.zero_add]
  rfl

/-- How often the entries of a run on a new shared mutex grant each lock and give it back.
`given_first`: at any point, nothing was given back more often than it was granted. `one_writer`:
the exclusive lock was granted at most once more often than it was given back. `no_reader`: while it
has not been given back, every shared one has been. `balance`: whenever nobody has `mtx_`, what the
mutex counts is what has not been given back. -/
structure ReadersOrWriter (late : (Kind.sharedMutex.primitive ι).Late) (enabled : Bool)
    (ls : List (Label .sharedMutex ι τ)) (m : Threads .sharedMutex ι τ) : Prop where
  given_first : ∀ before, before <+: order late (fresh enabled) ls →
    ∀ md, gotBack md (fresh enabled) before ≤ given md (fresh enabled) before
  one_writer : ∀ before, before <+: order late (fresh enabled) ls →
    given .exclusive (fresh enabled) before ≤ gotBack .exclusive (fresh enabled) before + 1
  no_reader : ∀ before, before <+: order late (fresh enabled) ls →
    gotBack .exclusive (fresh enabled) before < given .exclusive (fresh enabled) before →
      given .shared (fresh enabled) before = gotBack .shared (fresh enabled) before
  balance : m.owner = none → ∀ md, SharedMutexImpl.out md m.shared +
      gotBack md (fresh enabled) (order late (fresh enabled) ls) =
    given md (fresh enabled) (order late (fresh enabled) ls)

/-- **Readers and a writer exclude each other.** In every run of any number of threads on a new
shared mutex in which a cancellation handler that obtains `mtx_` finds its op still queued, if every
`unlock` finds the mutex locked and every `unlock_shared` finds it shared, in the order in which the
entries took `mtx_`. -/
theorem readers_or_writer {late : (Kind.sharedMutex.primitive ι).Late} {enabled : Bool}
    {ls : List (Label .sharedMutex ι τ)} {m : Threads .sharedMutex ι τ}
    (hrun : run (step late) (.init (fresh enabled)) ls = some m)
    (hqueued : ∀ u l, Takes (step late) (.init (fresh enabled)) ls u l → StillQueued u l)
    (howing : Owing (fresh enabled) (order late (fresh enabled) ls)) :
    ReadersOrWriter late enabled ls m := by
  have hfirst : ∀ before, before <+: order late (fresh enabled) ls →
      Owing (fresh enabled) before := fun before hbefore => by
    obtain ⟨rest, hrest⟩ := hbefore
    exact (hrest ▸ howing).first
  have hone : ∀ before : List (τ × (Kind.sharedMutex.primitive ι).Entry),
      SharedMutexImpl.out .exclusive (serially (fresh enabled) before) ≤ 1 := fun before =>
    MutexImpl.taken_le_one (serially (fresh enabled) before).toMutexImpl
  refine ⟨fun before hbefore md => ?_, fun before hbefore => ?_, fun before hbefore hout => ?_,
    fun hfree md => ?_⟩
  · obtain ⟨-, hall⟩ := out_serially (hfirst before hbefore)
    exact (hall md) ▸ Nat.le_add_left ..
  · obtain ⟨-, hall⟩ := out_serially (hfirst before hbefore)
    have hexclusive := hall .exclusive
    have htaken := hone before
    omega
  · obtain ⟨hexcludes, hall⟩ := out_serially (hfirst before hbefore)
    have hexclusive := hall .exclusive
    have hshared := hall .shared
    have htaken : SharedMutexImpl.out .exclusive (serially (fresh enabled) before) ≠ 0 := by omega
    have hlocked : (serially (fresh enabled) before).locked = true := by
      by_contra hlocked
      exact htaken (if_neg hlocked)
    have hnone : SharedMutexImpl.out .shared (serially (fresh enabled) before) = 0 :=
      hexcludes hlocked
    omega
  · rw [shared_eq (by decide) hrun hqueued hfree]
    exact (out_serially howing).2 md

/-- A late handler leaves its op in the list of the writers again. -/
def rejoins : (Kind.sharedMutex.primitive Nat).Late := fun op m => SharedMutexImpl.addWaiter m op

/-- One thread shares the lock, another one waits for it, a third request is cancelled, and the
other one gets the lock when the first one gives it back. -/
def readerThenWriter : List (Label .sharedMutex Nat (Fin 2)) :=
  .call 0 (.call SharedMutexImpl.Call.tryLockShared) false :: List.replicate 5 (.act 0) ++
    .call 1 (.call (SharedMutexImpl.Call.asyncLock 1 none)) false :: List.replicate 6 (.act 1) ++
    .call 1 (.call (SharedMutexImpl.Call.asyncLock 2 (some 7))) false ::
      List.replicate 6 (.act 1) ++
    [.call 1 (.cancel (.async 2 (some 7))) false,
      .call 0 (.call SharedMutexImpl.Call.unlockShared) false, .act 1, .act 1, .act 1, .act 1,
      .act 0, .act 0, .act 0, .act 0]

/-- Both locks are granted once. -/
theorem readers_or_writer_both :
    ∃ m : Threads .sharedMutex Nat (Fin 2),
      run (step rejoins) (.init (fresh true)) readerThenWriter = some m ∧ m.owner = none ∧
      given .shared (fresh true) (order rejoins (fresh true) readerThenWriter) = 1 ∧
      given .exclusive (fresh true) (order rejoins (fresh true) readerThenWriter) = 1 ∧
      ReadersOrWriter rejoins true readerThenWriter m := by
  obtain ⟨m, hchecked, hfree⟩ : ∃ m : Threads .sharedMutex Nat (Fin 2),
      run (checked StillQueued (step rejoins)) (.init (fresh true)) readerThenWriter = some m ∧
        m.owner = none := ⟨_, rfl, rfl⟩
  have howing : Owing (fresh true) (order rejoins (fresh true) readerThenWriter) :=
    ⟨trivial, trivial, trivial, trivial, Nat.zero_lt_one, trivial⟩
  obtain ⟨hrun, hqueued⟩ := run_of_checked hchecked
  exact ⟨m, hrun, hfree, rfl, rfl, readers_or_writer hrun hqueued howing⟩

end InlineHandler

end Sam
