import Sam.Detail.SharedMutexImpl
import Sam.Guard.Guardable

/-!
# What a `lock_guard` needs of a mutex

`lock_guard` locks with `lock` or `async_lock` and calls `unlock` through a pointer to a
`mutex_impl`, which may be a `shared_mutex_impl`. `Lockable` adds the blocking `lock` and the flag
`locked_` to what `guarded` needs. A shared mutex without shared locks is a mutex: its sections do
what those of the mutex do (`tryLock_exclusive` and so on).
-/

namespace Sam

universe u

/-- A mutex. `take` is `lock`, whose op is not queued yet. -/
structure Lockable (ι : Type u) [DecidableEq ι] extends Guardable ι where
  take : State → ι → Result State ι
  locked : State → Bool
  limit_eq : limit = 1
  locked_iff : ∀ s, Ok s → (locked s = true ↔ free s = 0)
  take_ok : ∀ s op, Ok s → op ∉ waiters s → Ok (take s op).state ∧
    Requested (free s) (waiters s) op (take s op).outcome (free (take s op).state)
      (waiters (take s op).state)
  take_outcome : ∀ s op, Ok s → op ∉ waiters s → (take s op).outcome = .granted ∨
    (take s op).outcome = .queued ∨ (take s op).outcome = .failed .inProgress

variable {ι : Type u} [DecidableEq ι]

namespace MutexImpl

/-- A mutex. -/
def lockable (enabled : Bool) : Lockable ι where
  toGuardable := guardable enabled
  take := lock
  locked := locked
  limit_eq := rfl
  locked_iff _ _ := locked_iff
  take_ok _ _ h hop := ⟨(lock_cases hop).1.trans h, lock_requested hop⟩
  take_outcome _ _ _ hop := (lock_cases hop).2

end MutexImpl

namespace SharedMutexImpl

/-- A shared mutex that nobody uses for shared locks. -/
def exclusive (m : MutexImpl ι) : SharedMutexImpl ι := ⟨m, 0, []⟩

/-- What a section of a mutex leaves, in a shared mutex. -/
def exclusively (r : Result (MutexImpl ι) ι) : Result (SharedMutexImpl ι) ι :=
  { state := exclusive r.state, outcome := r.outcome, completed := r.completed,
    asserted := r.asserted }

/-- No shared lock is held or asked for. -/
def Exclusive (m : SharedMutexImpl ι) : Prop := m.lockedShared = 0 ∧ m.sharedWaiters = []

omit [DecidableEq ι] in
theorem Exclusive.eq {m : SharedMutexImpl ι} (h : m.Exclusive) : m = exclusive m.toMutexImpl := by
  obtain ⟨mutex, lockedShared, sharedWaiters⟩ := m
  obtain ⟨rfl, rfl⟩ := h
  rfl

variable (m : MutexImpl ι) (op : ι)

omit [DecidableEq ι] in
theorem tryLock_exclusive : (exclusive m).tryLock = exclusively m.tryLock := by
  cases hlocked : m.locked <;>
    simp [tryLock, MutexImpl.tryLock, exclusive, exclusively, hlocked]

omit [DecidableEq ι] in
theorem asyncLock_exclusive : (exclusive m).asyncLock op = exclusively (m.asyncLock op) := by
  cases hlocked : m.locked <;>
    simp [asyncLock, MutexImpl.asyncLock, exclusive, exclusively, addWaiter, hlocked]

theorem lock_exclusive : (exclusive m).lock op = exclusively (m.lock op) := by
  cases hlocked : m.locked <;> cases hmode : m.enabled <;>
    simp [lock, MutexImpl.lock, tryLock, MutexImpl.tryLock, exclusive, exclusively, addWaiter,
      MutexImpl.addWaiter, unlink, MutexImpl.unlink, hlocked, hmode]

theorem unlock_exclusive : (exclusive m).unlock = exclusively m.unlock := by
  cases hwaiters : m.waiters <;>
    simp [unlock, MutexImpl.unlock, exclusive, exclusively, unlink, MutexImpl.unlink, hwaiters]

theorem unlink_exclusive : (exclusive m).unlink op = exclusive (m.unlink op) := by
  simp [exclusive, unlink, MutexImpl.unlink]

/-- What a shared mutex keeps as long as nobody uses it for shared locks. -/
def Exclusively (enabled : Bool) (m : SharedMutexImpl ι) : Prop :=
  m.Exclusive ∧ m.enabled = enabled

section

variable {m : SharedMutexImpl ι} {enabled : Bool} (h : m.Exclusively enabled) (op : ι)
include h

omit [DecidableEq ι] in
theorem tryLock_ok : m.tryLock.state.Exclusively enabled ∧
    Requested m.permits m.waiters op m.tryLock.outcome m.tryLock.state.permits
      m.tryLock.state.waiters := by
  rw [h.1.eq, tryLock_exclusive]
  exact ⟨⟨⟨rfl, rfl⟩, MutexImpl.tryLock_cases.1.trans h.2⟩, MutexImpl.tryLock_requested⟩

omit [DecidableEq ι] in
theorem tryLock_outcome : m.tryLock.outcome = .granted ∨ m.tryLock.outcome = .refused := by
  rw [h.1.eq, tryLock_exclusive]
  exact MutexImpl.tryLock_cases.2

omit [DecidableEq ι] in
theorem asyncLock_ok : (m.asyncLock op).state.Exclusively enabled ∧
    Requested m.permits m.waiters op (m.asyncLock op).outcome (m.asyncLock op).state.permits
      (m.asyncLock op).state.waiters := by
  rw [h.1.eq, asyncLock_exclusive]
  exact ⟨⟨⟨rfl, rfl⟩, (MutexImpl.asyncLock_cases op).1.trans h.2⟩, MutexImpl.asyncLock_requested⟩

omit [DecidableEq ι] in
theorem asyncLock_outcome :
    (m.asyncLock op).outcome = .granted ∨ (m.asyncLock op).outcome = .queued := by
  rw [h.1.eq, asyncLock_exclusive]
  exact (MutexImpl.asyncLock_cases op).2

theorem lock_ok (hop : op ∉ m.waiters) : (m.lock op).state.Exclusively enabled ∧
    Requested m.permits m.waiters op (m.lock op).outcome (m.lock op).state.permits
      (m.lock op).state.waiters := by
  rw [h.1.eq, lock_exclusive]
  exact ⟨⟨⟨rfl, rfl⟩, (MutexImpl.lock_cases hop).1.trans h.2⟩, MutexImpl.lock_requested hop⟩

theorem lock_outcome (hop : op ∉ m.waiters) : (m.lock op).outcome = .granted ∨
    (m.lock op).outcome = .queued ∨ (m.lock op).outcome = .failed .inProgress := by
  rw [h.1.eq, lock_exclusive]
  exact (MutexImpl.lock_cases hop).2

theorem unlock_ok (htaken : m.permits < 1) : m.unlock.state.Exclusively enabled ∧
    Released m.permits m.waiters m.unlock.completed m.unlock.state.permits
      m.unlock.state.waiters := by
  rw [h.1.eq, unlock_exclusive]
  exact ⟨⟨⟨rfl, rfl⟩, MutexImpl.unlock_enabled.trans h.2⟩,
    MutexImpl.unlock_released (MutexImpl.locked_of_permits_lt htaken)⟩

theorem unlink_ok : (m.unlink op).Exclusively enabled ∧ (m.unlink op).permits = m.permits ∧
    (m.unlink op).waiters = m.waiters.erase op := by
  rw [h.1.eq, unlink_exclusive]
  exact ⟨⟨⟨rfl, rfl⟩, h.2⟩, rfl, rfl⟩

omit [DecidableEq ι] in
theorem eq_init (hfree : m.permits = 1) (hwaiters : m.waiters = []) : m = .init enabled := by
  rw [h.1.eq, MutexImpl.eq_init h.2 hfree hwaiters]
  rfl

end

/-- A shared mutex that nobody uses for shared locks. -/
def lockable (enabled : Bool) : Lockable ι where
  State := SharedMutexImpl ι
  init := .init enabled
  tryTake := tryLock
  asyncTake := asyncLock
  take := lock
  give := unlock
  unlink := unlink
  limit := 1
  free m := m.permits
  waiters m := m.waiters
  locked m := m.locked
  Ok := Exclusively enabled
  init_ok := ⟨⟨⟨rfl, rfl⟩, rfl⟩, rfl, rfl⟩
  limit_eq := rfl
  locked_iff _ _ := MutexImpl.locked_iff
  free_nonneg _ _ := MutexImpl.permits_nonneg
  tryTake_ok _ op h := tryLock_ok h op
  tryTake_outcome _ h := tryLock_outcome h
  asyncTake_ok _ op h := asyncLock_ok h op
  asyncTake_outcome _ op h := asyncLock_outcome h op
  give_ok _ h htaken := unlock_ok h htaken
  unlink_ok _ op h := unlink_ok h op
  eq_init _ h hfree hwaiters := eq_init h hfree hwaiters
  take_ok _ op h hop := lock_ok h op hop
  take_outcome _ op h hop := lock_outcome h op hop

end SharedMutexImpl

end Sam
