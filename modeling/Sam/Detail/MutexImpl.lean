import Sam.Detail.CriticalSection

/-!
# `mutex_impl`

The critical sections of `detail/mutex_impl.hpp`, `detail/impl/mutex_impl.ipp` and
`impl/basic_mutex.hpp`, over the sequence of ops that the intrusive list `waiters_` holds. Linking
an op before the list's root appends it, unlinking an op erases it.
-/

namespace Sam

universe u

/-- The lock flag and the waiter list. `enabled` is `mtx_.enabled()`: multi-threaded mode. -/
structure MutexImpl (ι : Type u) where
  enabled : Bool
  locked : Bool
  waiters : List ι
  deriving DecidableEq, Repr

namespace MutexImpl

variable {ι : Type u}

/-- A new mutex. -/
def init (enabled : Bool) : MutexImpl ι := ⟨enabled, false, []⟩

/-- `add_waiter`. -/
def addWaiter (m : MutexImpl ι) (waiter : ι) : MutexImpl ι :=
  { m with waiters := m.waiters ++ [waiter] }

/-- `try_lock`. -/
def tryLock (m : MutexImpl ι) : Result (MutexImpl ι) ι :=
  if m.locked then { state := m, outcome := .refused }
  else { state := { m with locked := true }, outcome := .granted }

/-- `async_lock_op`: locks, or queues the op made of the handler. -/
def asyncLock (m : MutexImpl ι) (op : ι) : Result (MutexImpl ι) ι :=
  if !m.locked then { state := { m with locked := true }, outcome := .granted }
  else { state := m.addWaiter op, outcome := .queued }

variable [DecidableEq ι]

/-- `unlink` of a queued op. -/
def unlink (m : MutexImpl ι) (op : ι) : MutexImpl ι :=
  { m with waiters := m.waiters.erase op }

/-- `lock`. In multi-threaded mode it queues its own op before it looks at the flag. -/
def lock (m : MutexImpl ι) (op : ι) : Result (MutexImpl ι) ι :=
  if !m.enabled then
    match m.tryLock.outcome with
    | .granted => m.tryLock
    | _ => { state := m, outcome := .failed .inProgress }
  else
    let queued := m.addWaiter op
    if !queued.locked then
      { state := { queued with locked := true }.unlink op, outcome := .granted }
    else { state := queued, outcome := .queued }

/-- `unlock`: hands the lock to the first waiter, which leaves the flag set. -/
def unlock (m : MutexImpl ι) : Result (MutexImpl ι) ι :=
  match m.waiters with
  | [] => { state := { m with locked := false }, outcome := .returned }
  | op :: _ => { state := m.unlink op, outcome := .returned, completed := [op] }

/-! ## What each section does, case by case -/

/-- Inserting an op and removing it again leaves the list as it was. -/
theorem unlink_addWaiter {m : MutexImpl ι} {op : ι} (h : op ∉ m.waiters) :
    (m.addWaiter op).unlink op = m := by
  simp [addWaiter, unlink, List.erase_append_right _ h]

/-- The blocking form on a free mutex takes the lock and leaves the waiters alone. -/
theorem lock_of_free {m : MutexImpl ι} {op : ι} (hop : op ∉ m.waiters)
    (hfree : m.locked = false) :
    m.lock op = { state := { m with locked := true }, outcome := .granted } := by
  cases hmode : m.enabled
  · simp [lock, tryLock, hmode, hfree]
  · simp [lock, hmode, addWaiter, unlink, hfree, List.erase_append_right _ hop]

/-- The blocking form on a taken mutex waits, or fails in single-threaded mode. -/
theorem lock_of_locked {m : MutexImpl ι} {op : ι} (hlocked : m.locked = true) :
    m.lock op = if m.enabled then { state := m.addWaiter op, outcome := .queued }
      else { state := m, outcome := .failed .inProgress } := by
  cases hmode : m.enabled <;> simp [lock, tryLock, addWaiter, hmode, hlocked]

/-- Without waiters `unlock` frees the lock. -/
theorem unlock_of_none {m : MutexImpl ι} (hwaiters : m.waiters = []) :
    m.unlock = { state := { m with locked := false }, outcome := .returned } := by
  unfold unlock
  split <;> simp_all

/-- With waiters `unlock` hands the lock to the first one. -/
theorem unlock_of_waiter {m : MutexImpl ι} {op : ι} {rest : List ι}
    (hwaiters : m.waiters = op :: rest) :
    m.unlock =
      { state := { m with waiters := rest }, outcome := .returned, completed := [op] } := by
  unfold unlock
  split <;> simp_all [unlink]

end MutexImpl

end Sam
