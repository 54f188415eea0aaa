import Sam.Mutex.HandOff
import Sam.Semaphore.Permits

/-!
# What a guard needs of a primitive

`guarded` and `lock_guard` are written once for several primitives. `Guardable` collects the calls
that `guarded` makes and what they do to the free permits and to the waiters; `Ok` describes the
states that these calls reach. The semaphore has as many permits as its initial count, the mutex
has one.
-/

namespace Sam

universe u

/-- A primitive with permits that are taken and given back. `tryTake`, `asyncTake` and `give` are
the critical sections, and `unlink` is what a cancellation does to a queued op. -/
structure Guardable (ι : Type u) [DecidableEq ι] where
  State : Type u
  init : State
  tryTake : State → Result State ι
  asyncTake : State → ι → Result State ι
  give : State → Result State ι
  unlink : State → ι → State
  limit : Int
  free : State → Int
  waiters : State → List ι
  Ok : State → Prop
  init_ok : Ok init ∧ free init = limit ∧ waiters init = []
  free_nonneg : ∀ s, Ok s → 0 ≤ free s
  tryTake_ok : ∀ s op, Ok s → Ok (tryTake s).state ∧
    Requested (free s) (waiters s) op (tryTake s).outcome (free (tryTake s).state)
      (waiters (tryTake s).state)
  tryTake_outcome : ∀ s, Ok s →
    (tryTake s).outcome = .granted ∨ (tryTake s).outcome = .refused
  asyncTake_ok : ∀ s op, Ok s → Ok (asyncTake s op).state ∧
    Requested (free s) (waiters s) op (asyncTake s op).outcome (free (asyncTake s op).state)
      (waiters (asyncTake s op).state)
  asyncTake_outcome : ∀ s op, Ok s →
    (asyncTake s op).outcome = .granted ∨ (asyncTake s op).outcome = .queued
  /-- A permit that was taken is given back. -/
  give_ok : ∀ s, Ok s → free s < limit → Ok (give s).state ∧
    Released (free s) (waiters s) (give s).completed (free (give s).state)
      (waiters (give s).state)
  unlink_ok : ∀ s op, Ok s → Ok (unlink s op) ∧ free (unlink s op) = free s ∧
    waiters (unlink s op) = (waiters s).erase op
  /-- Nothing but the permits and the waiters changes. -/
  eq_init : ∀ s, Ok s → free s = limit → waiters s = [] → s = init

variable {ι : Type u} [DecidableEq ι]

namespace SemaphoreImpl

variable {m : SemaphoreImpl ι} {enabled : Bool} {op : ι}

/-- The mode does not change, and the counter stays above zero. -/
def Counts (enabled : Bool) (m : SemaphoreImpl ι) : Prop := m.enabled = enabled ∧ 0 ≤ m.count

omit [DecidableEq ι] in
theorem Counts.tryAcquire (h : m.Counts enabled) : m.tryAcquire.state.Counts enabled ∧
    (m.tryAcquire.outcome = .granted ∨ m.tryAcquire.outcome = .refused) := by
  unfold SemaphoreImpl.tryAcquire
  split
  · rename_i hfree
    exact ⟨⟨h.1, by show 0 ≤ m.count - 1; omega⟩, Or.inl rfl⟩
  · exact ⟨h, Or.inr rfl⟩

omit [DecidableEq ι] in
theorem Counts.asyncAcquire (h : m.Counts enabled) (op : ι) :
    (m.asyncAcquire op).state.Counts enabled ∧
      ((m.asyncAcquire op).outcome = .granted ∨ (m.asyncAcquire op).outcome = .queued) := by
  unfold SemaphoreImpl.asyncAcquire
  split
  · rename_i hfree
    exact ⟨⟨h.1, by show 0 ≤ m.count - 1; omega⟩, Or.inl rfl⟩
  · exact ⟨h, Or.inr rfl⟩

theorem Counts.release (h : m.Counts enabled) : m.release.state.Counts enabled := by
  obtain ⟨hmode, hcount⟩ := h
  unfold SemaphoreImpl.release
  dsimp only
  split
  · exact ⟨hmode, by show 0 ≤ m.count + 1; omega⟩
  · exact ⟨hmode, by show 0 ≤ m.count + 1 - 1; omega⟩

omit [DecidableEq ι] in
/-- The mode, the counter and the waiters are all there is. -/
theorem Counts.eq_init {k : Nat} (h : m.Counts enabled) (hcount : m.count = k)
    (hwaiters : m.waiters = []) : m = .init enabled k := by
  obtain ⟨mode, count, waiters⟩ := m
  obtain ⟨rfl, -⟩ := h
  simp only [SemaphoreImpl.init, SemaphoreImpl.mk.injEq]
  exact ⟨trivial, hcount, hwaiters⟩

/-- The semaphore with `k` permits. -/
def guardable (enabled : Bool) (k : Nat) : Guardable ι where
  State := SemaphoreImpl ι
  init := .init enabled k
  tryTake := SemaphoreImpl.tryAcquire
  asyncTake := SemaphoreImpl.asyncAcquire
  give := SemaphoreImpl.release
  unlink := unlink
  limit := k
  free := count
  waiters := waiters
  Ok := Counts enabled
  init_ok := ⟨⟨rfl, Int.natCast_nonneg k⟩, rfl, rfl⟩
  free_nonneg _ h := h.2
  tryTake_ok _ _ h := ⟨h.tryAcquire.1, tryAcquire_requested⟩
  tryTake_outcome _ h := h.tryAcquire.2
  asyncTake_ok _ op h := ⟨(h.asyncAcquire op).1, asyncAcquire_requested h.2⟩
  asyncTake_outcome _ op h := (h.asyncAcquire op).2
  give_ok _ h _ := ⟨h.release, release_released⟩
  unlink_ok _ _ h := ⟨h, rfl, rfl⟩
  eq_init _ h hcount hwaiters := h.eq_init hcount hwaiters

end SemaphoreImpl

namespace MutexImpl

variable {m : MutexImpl ι}

omit [DecidableEq ι] in
/-- There are no permits, or one. -/
theorem permits_nonneg : 0 ≤ m.permits := by
  cases hlocked : m.locked <;> simp [permits, hlocked]

omit [DecidableEq ι] in
/-- Without its permit the mutex is locked. -/
theorem locked_of_permits_lt (h : m.permits < 1) : m.locked = true := by
  have hnonneg := permits_nonneg (m := m)
  exact locked_iff.mpr (by omega)

omit [DecidableEq ι] in
/-- The mode, the permit and the waiters are all there is. -/
theorem eq_init {enabled : Bool} (hmode : m.enabled = enabled) (hfree : m.permits = 1)
    (hwaiters : m.waiters = []) : m = .init enabled := by
  obtain ⟨mode, locked, waiters⟩ := m
  cases locked with
  | true => exact absurd hfree (by simp [permits])
  | false =>
      simp only [MutexImpl.init, MutexImpl.mk.injEq]
      exact ⟨hmode, trivial, hwaiters⟩

/-- The mutex has one permit. -/
def guardable (enabled : Bool) : Guardable ι where
  State := MutexImpl ι
  init := .init enabled
  tryTake := tryLock
  asyncTake := asyncLock
  give := unlock
  unlink := unlink
  limit := 1
  free := permits
  waiters := waiters
  Ok m := m.enabled = enabled
  init_ok := ⟨rfl, rfl, rfl⟩
  free_nonneg _ _ := permits_nonneg
  tryTake_ok _ _ h := ⟨tryLock_cases.1.trans h, tryLock_requested⟩
  tryTake_outcome _ _ := tryLock_cases.2
  asyncTake_ok _ op h := ⟨(asyncLock_cases op).1.trans h, asyncLock_requested⟩
  asyncTake_outcome _ op _ := (asyncLock_cases op).2
  give_ok _ h htaken := ⟨unlock_enabled.trans h, unlock_released (locked_of_permits_lt htaken)⟩
  unlink_ok _ _ h := ⟨h, rfl, rfl⟩
  eq_init _ h hfree hwaiters := eq_init h hfree hwaiters

end MutexImpl

end Sam
