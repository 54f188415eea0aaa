import Sam.SharedMutex.Holders

/-!
# `shared_lock_guard`

Runs of a shared mutex in which shared locks are also taken with the free functions `lock_shared`
and `async_lock_shared`, which return a `shared_lock_guard`, and in which these guards are
destroyed. `lock_shared` calls `lock`, the destructor calls `unlock_shared`. `Sound` says that the
guards hold the mutex in shared mode and give back what they took; `shared_lock_guard_iff` says that
this fails as soon as a `lock_shared` gets the lock. -/

namespace Sam.SharedLockGuard

open SharedMutex Transition

universe u

/-- A shared mutex, and the calls whose guard is not destroyed. The guard is not empty while its
call is one of the holders. -/
structure State (ι : Type u) where
  mutex : SharedMutex.Run ι
  guards : List ι
  deriving DecidableEq, Repr

/-- What happens next: any critical section of the mutex, one of the two free functions, the
destructor of the guard that a call returned, or the shutdown of the context. -/
inductive Label (ι : Type u) where
  | call (l : SharedMutex.Label ι)
  | lockShared (request : ι)
  | asyncLockShared (request : ι)
  | destroy (request : ι)
  | shutdown
  deriving DecidableEq, Repr

variable {ι : Type u}

/-- A new shared mutex that nobody has used. -/
def State.init (enabled : Bool) : State ι := ⟨.init enabled, []⟩

/-- `shutdown`: the ops in both lists end with an error. -/
def shutdown (s : SharedMutex.Run ι) : SharedMutex.Run ι :=
  { s with impl := { s.impl with waiters := [], sharedWaiters := [] } }

section Model

variable [DecidableEq ι]

/-- `lock_shared(mtx)` and `lock_shared(mtx, ec)`: both call `mtx.lock`. -/
def lockShared (m : SharedMutexImpl ι) (op : ι) : Result (SharedMutexImpl ι) ι := m.lock op

/-- One step. Only the destructor of its guard gives the lock of a guarded call back. -/
def step (s : State ι) : Label ι → Option (State ι)
  | .call l =>
      if ∀ r ∈ s.guards, l ≠ .unlockShared r then
        (SharedMutex.step s.mutex l).map (⟨·, s.guards⟩)
      else none
  | .lockShared r =>
      (ask s.mutex .shared r (lockShared s.mutex.impl r)).map fun mutex =>
        ⟨mutex.block r (lockShared s.mutex.impl r).outcome, s.guards ++ [r]⟩
  | .asyncLockShared r =>
      (SharedMutex.step s.mutex (.asyncLockShared r)).map (⟨·, s.guards ++ [r]⟩)
  | .destroy r =>
      if r ∈ s.guards then
        (SharedMutex.step s.mutex (.unlockShared r)).map (⟨·, s.guards.erase r⟩)
      else none
  | .shutdown => some ⟨shutdown s.mutex, s.guards⟩

/-- The holder `r` of a shared lock left: the oldest exclusive waiter is granted if `r` was the last
holder, and nobody otherwise. -/
structure Left (s t : SharedMutex.Run ι) (r : ι) : Prop where
  exclusive : t.exclusive = if s.shared = [r] then s.impl.waiters.take 1 else []
  shared : t.shared = s.shared.erase r
  waiters : t.impl.waiters =
    if s.shared = [r] then s.impl.waiters.drop 1 else s.impl.waiters
  sharedWaiters : t.impl.sharedWaiters = s.impl.sharedWaiters

/-- What is asked of a run. `held` is about every non-empty guard, `taken` about the calls that get
the lock at once, and `restored` about any two moments with the same holders: the guards taken in
between were destroyed. -/
structure Sound (enabled : Bool) (ls : List (Label ι)) : Prop where
  holders : ∀ t, Visits step (State.init enabled) ls t → Holders t.mutex
  held : ∀ t, Visits step (State.init enabled) ls t → ∀ r ∈ t.guards, r ∈ t.mutex.shared →
    t.mutex.impl.locked = false ∧ t.mutex.impl.tryLockShared.outcome = .granted
  taken : ∀ s l r t, l ∈ [.lockShared r, .asyncLockShared r] →
    Takes step (State.init enabled) ls s l → step s l = some t →
    t.mutex.shared = s.mutex.shared ++ [r] →
    t.mutex.impl.locked = false ∧ t.mutex.impl.lockedShared = s.mutex.impl.lockedShared + 1
  left : ∀ s r t, Takes step (State.init enabled) ls s (.destroy r) →
    step s (.destroy r) = some t → Left s.mutex t.mutex r
  restored : ∀ s t, Visits step (State.init enabled) ls s → Visits step (State.init enabled) ls t →
    t.mutex.exclusive = s.mutex.exclusive → t.mutex.shared.Perm s.mutex.shared →
    t.mutex.impl.locked = s.mutex.impl.locked ∧
      t.mutex.impl.lockedShared = s.mutex.impl.lockedShared

end Model

/-- The step grants no exclusive lock to a call that asked for a shared one: `lock_shared` is not
called on a free mutex, and no release hands the exclusive lock to such a call. -/
def GrantsAsAsked (s : State ι) : Label ι → Prop
  | .call l => SharedMutex.GrantsAsAsked s.mutex l
  | .lockShared _ => s.mutex.impl.locked = true ∨ 0 < s.mutex.impl.lockedShared
  | .asyncLockShared _ => True
  | .destroy r => SharedMutex.GrantsAsAsked s.mutex (.unlockShared r)
  | .shutdown => True

variable [DecidableEq ι] {s t : State ι} {r : ι} {l : Label ι}

/-! ## One step -/

omit [DecidableEq ι] in
/-- Shutting the context down keeps the holders. -/
theorem inv_shutdown {m : SharedMutex.Run ι} (h : Inv m) : Inv (shutdown m) where
  holders := h.holders
  sharedWaiters_asked _ hw := absurd hw List.not_mem_nil
  waiters_issued _ hw := absurd hw List.not_mem_nil
  asked_issued := h.asked_issued
  nodup := List.nodup_nil

/-- A step that grants as asked keeps the invariant of the mutex. -/
theorem step_inv (h : Inv s.mutex) (hgrants : GrantsAsAsked s l) (hstep : step s l = some t) :
    Inv t.mutex := by
  cases l with
  | call l =>
      obtain ⟨-, mutex, hmutex, rfl⟩ := guard_map_iff.mp hstep
      exact h.step hgrants hmutex
  | lockShared r =>
      obtain ⟨mutex, hmutex, rfl⟩ := Option.map_eq_some_iff.mp hstep
      -- the mutex has holders, so the call waits or fails, as a request of either mode may
      have hasks : s.mutex.impl.Asks r .shared (lockShared s.mutex.impl r).outcome
          (lockShared s.mutex.impl r).state := by
        rw [lockShared, SharedMutexImpl.lock_of_taken hgrants]
        cases s.mutex.impl.enabled with
        | false => exact .failed _ _
        | true => exact .queued _
      exact (h.ask hasks hmutex).block _
  | asyncLockShared r =>
      obtain ⟨mutex, hmutex, rfl⟩ := Option.map_eq_some_iff.mp hstep
      exact h.step (l := .asyncLockShared r) (fun hhands => hhands.elim) hmutex
  | destroy r =>
      obtain ⟨-, mutex, hmutex, rfl⟩ := guard_map_iff.mp hstep
      exact h.step hgrants hmutex
  | shutdown =>
      obtain rfl := Option.some.inj hstep
      exact inv_shutdown h

/-- `lock_shared` on a free mutex takes the exclusive lock. -/
theorem lockShared_of_free (h : Inv s.mutex) (hfree : s.mutex.impl.locked = false)
    (hcount : s.mutex.impl.lockedShared = 0) (hstep : step s (.lockShared r) = some t) :
    r ∈ t.mutex.shared ∧ t.mutex.impl.locked = true := by
  obtain ⟨mutex, hmutex, rfl⟩ := Option.map_eq_some_iff.mp hstep
  obtain ⟨hr, rfl⟩ := guard_iff.mp hmutex
  rw [lockShared, SharedMutexImpl.lock_of_free (h.not_waiting hr) hfree hcount]
  simp [SharedMutex.Run.block, SharedMutex.Run.request, SharedMutex.Run.grant]

/-- A step that does not grant as asked leaves the mutex locked without an exclusive holder. -/
theorem step_misgrant (h : Inv s.mutex) (hgrants : ¬ GrantsAsAsked s l)
    (hstep : step s l = some t) : ¬ Holders t.mutex := by
  cases l with
  | call l =>
      obtain ⟨-, mutex, hmutex, rfl⟩ := guard_map_iff.mp hstep
      exact h.step_misgrant hgrants hmutex
  | lockShared r =>
      have hfree : s.mutex.impl.locked = false ∧ s.mutex.impl.lockedShared = 0 := by
        simpa [GrantsAsAsked] using hgrants
      obtain ⟨hr, hlocked⟩ := lockShared_of_free h hfree.1 hfree.2 hstep
      intro hholders
      have hunlocked := (hholders.of_shared hr).2.1
      rw [hlocked] at hunlocked
      cases hunlocked
  | asyncLockShared r => exact absurd trivial hgrants
  | destroy r =>
      obtain ⟨-, mutex, hmutex, rfl⟩ := guard_map_iff.mp hstep
      exact h.step_misgrant hgrants hmutex
  | shutdown => exact absurd trivial hgrants

/-- **A shared holder leaves** and hands over as it should. -/
theorem left_of_inv {m : SharedMutex.Run ι} (h : Inv m) (hr : r ∈ m.shared)
    (hgrants : SharedMutex.GrantsAsAsked m (.unlockShared r)) :
    Left m (m.releaseShared r m.impl.unlockShared) r := by
  obtain ⟨hnone, hfree, hpos⟩ := h.holders.of_shared hr
  have hcount := h.holders.2.1
  by_cases hlast : m.shared = [r]
  · have hone : m.impl.lockedShared = 1 := by rw [hcount, hlast, List.length_singleton]
    cases hwaiters : m.impl.waiters with
    | nil =>
        rw [SharedMutexImpl.unlockShared_of_none hone hwaiters]
        constructor <;> simp [SharedMutex.Run.releaseShared, SharedMutex.Run.grant, hlast, hnone,
          hwaiters]
    | cons op rest =>
        have hasked : op ∉ m.askedShared := hgrants hone op (by simp [hwaiters])
        rw [SharedMutexImpl.unlockShared_of_waiter h.nodup hone hwaiters]
        constructor <;> simp [SharedMutex.Run.releaseShared, SharedMutex.Run.grant, hlast, hnone,
          hwaiters, hasked]
  · have hmore : 1 < m.impl.lockedShared := by
      by_contra hle
      obtain ⟨q, hq⟩ := List.length_eq_one_iff.mp (show m.shared.length = 1 by omega)
      rw [hq, List.mem_singleton] at hr
      exact hlast (hr ▸ hq)
    rw [SharedMutexImpl.unlockShared_of_more hmore]
    constructor <;> simp [SharedMutex.Run.releaseShared, SharedMutex.Run.grant, hlast, hnone]

/-! ## Whole runs -/

/-- **When shared guards hold a shared lock.** The guards hold the mutex in shared mode and give
back what they took, in every run of a shared mutex in which no call of `lock_shared` finds the
mutex free and no release hands the exclusive lock to a call that asked for a shared one, and in no
other run. -/
theorem shared_lock_guard_iff (enabled : Bool) (ls : List (Label ι)) :
    Sound enabled ls ↔
      ∀ s l, Takes step (State.init enabled) ls s l → GrantsAsAsked s l := by
  have hinv : (∀ t, Visits step (State.init enabled) ls t → Inv t.mutex) ↔
      ∀ s l, Takes step (State.init enabled) ls s l → GrantsAsAsked s l :=
    visits_iff_takes (I := fun s : State ι => Inv s.mutex) (P := fun s => Inv s.mutex)
      (fun _ _ _ h hgrants hstep => step_inv h hgrants hstep) (fun _ h => h)
      (fun _ _ _ h hgrants hstep ht => step_misgrant h hgrants hstep ht.holders)
      (Inv.init enabled) ls
  have hholders : (∀ t, Visits step (State.init enabled) ls t → Holders t.mutex) ↔
      ∀ s l, Takes step (State.init enabled) ls s l → GrantsAsAsked s l :=
    visits_iff_takes (I := fun s : State ι => Inv s.mutex) (P := fun s => Holders s.mutex)
      (fun _ _ _ h hgrants hstep => step_inv h hgrants hstep) (fun _ h => h.holders)
      (fun _ _ _ h hgrants hstep => step_misgrant h hgrants hstep) (Inv.init enabled) ls
  constructor
  · intro hsound
    exact hholders.mp hsound.holders
  · intro hgrants
    have hall := hinv.mpr hgrants
    refine ⟨fun t ht => (hall t ht).holders, ?_, ?_, ?_, ?_⟩
    · intro t ht r _ hr
      have hfree := ((hall t ht).holders.of_shared hr).2.1
      exact ⟨hfree, by simp [SharedMutexImpl.tryLockShared, hfree]⟩
    · intro s l r t _ htakes hstep hshared
      have hbefore := (hall s htakes.visits).holders
      have hafter := (hall t (htakes.visits_next hstep)).holders
      exact hbefore.shared_joins hafter hshared
    · intro s r t htakes hstep
      obtain ⟨-, mutex, hmutex, rfl⟩ := guard_map_iff.mp hstep
      obtain ⟨hr, rfl⟩ := guard_iff.mp hmutex
      exact left_of_inv (hall s htakes.visits) hr (hgrants s _ htakes)
    · intro s t hs ht hexclusive hshared
      exact (hall s hs).holders.determine (hall t ht).holders hexclusive hshared

/-- `lock_shared` on a new mutex: the guard holds the exclusive lock, nobody else gets a shared one,
and after the guard is destroyed the mutex stays locked. -/
theorem lock_shared_stays_locked :
    (∃ s : State Nat, run step (State.init true) [.lockShared 0] = some s ∧
      s.guards = [0] ∧ s.mutex.shared = [0] ∧ s.mutex.impl.locked = true ∧
      s.mutex.impl.lockedShared = 0 ∧ s.mutex.impl.tryLockShared.outcome = .refused) ∧
    (∃ s : State Nat, run step (State.init true) [.lockShared 0, .destroy 0] = some s ∧
      s.guards = [] ∧ s.mutex.shared = [] ∧ s.mutex.exclusive = [] ∧
      s.mutex.impl.locked = true) ∧
    ¬ Sound true [.lockShared 0, .destroy 0] := by
  refine ⟨⟨_, rfl, rfl, rfl, rfl, rfl, rfl⟩, ⟨_, rfl, rfl, rfl, rfl, rfl⟩, fun hsound => ?_⟩
  have hholders := hsound.holders _ ⟨_, List.prefix_refl _, rfl⟩
  exact absurd hholders (by decide)

end Sam.SharedLockGuard
