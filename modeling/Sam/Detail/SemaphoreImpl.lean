import Sam.Detail.CriticalSection

/-!
# `semaphore_impl`

The critical sections of `detail/semaphore_impl.hpp`, `detail/impl/semaphore_impl.ipp` and
`impl/basic_semaphore.hpp`, over the sequence of ops that the intrusive list `waiters_` holds. The
counter is an unbounded integer: the sections are read for counts below `INT_MAX`.
-/

namespace Sam

universe u

/-- The counter and the waiter list. `enabled` is `mtx_.enabled()`: multi-threaded mode. -/
structure SemaphoreImpl (ι : Type u) where
  enabled : Bool
  count : Int
  waiters : List ι
  deriving DecidableEq, Repr

namespace SemaphoreImpl

variable {ι : Type u}

/-- A new semaphore. -/
def init (enabled : Bool) (initialCount : Int) : SemaphoreImpl ι := ⟨enabled, initialCount, []⟩

/-- `add_waiter`. -/
def addWaiter (m : SemaphoreImpl ι) (waiter : ι) : SemaphoreImpl ι :=
  { m with waiters := m.waiters ++ [waiter] }

/-- `decrement`, with its assertion. -/
def decrement (m : SemaphoreImpl ι) : Bool × SemaphoreImpl ι :=
  (decide (0 < m.count), { m with count := m.count - 1 })

/-- `value`. -/
def value (m : SemaphoreImpl ι) : Int :=
  match m.waiters with
  | [] => m.count
  | _ => m.count - m.waiters.length

/-- `value` subtracts the waiters from the counter. -/
theorem value_eq {m : SemaphoreImpl ι} : m.value = m.count - m.waiters.length := by
  unfold value
  split <;> simp_all

/-- `try_acquire`. -/
def tryAcquire (m : SemaphoreImpl ι) : Result (SemaphoreImpl ι) ι :=
  if 0 < m.count then { state := { m with count := m.count - 1 }, outcome := .granted }
  else { state := m, outcome := .refused }

/-- `async_aquire_op`: takes a permit, or queues the op made of the handler. -/
def asyncAcquire (m : SemaphoreImpl ι) (op : ι) : Result (SemaphoreImpl ι) ι :=
  if 0 < m.count then
    let (asserted, taken) := m.decrement
    { state := taken, outcome := .granted, asserted }
  else { state := m.addWaiter op, outcome := .queued }

variable [DecidableEq ι]

/-- `unlink` of a queued op. -/
def unlink (m : SemaphoreImpl ι) (op : ι) : SemaphoreImpl ι :=
  { m with waiters := m.waiters.erase op }

/-- `acquire`. In multi-threaded mode it queues its own op before it looks at the counter. -/
def acquire (m : SemaphoreImpl ι) (op : ι) : Result (SemaphoreImpl ι) ι :=
  if !m.enabled then
    match m.tryAcquire.outcome with
    | .granted => m.tryAcquire
    | _ => { state := m, outcome := .failed .inProgress }
  else
    let queued := m.addWaiter op
    if 0 < queued.count then
      let (asserted, taken) := queued.decrement
      { state := taken.unlink op, outcome := .granted, asserted }
    else { state := queued, outcome := .queued }

/-- `release`: the permit goes through the counter even when it is handed to the first waiter. -/
def release (m : SemaphoreImpl ι) : Result (SemaphoreImpl ι) ι :=
  let released := { m with count := m.count + 1 }
  match released.waiters with
  | [] => { state := released, outcome := .returned }
  | op :: _ =>
      let (asserted, taken) := released.decrement
      { state := taken.unlink op, outcome := .returned, completed := [op], asserted }

/-! ## What each section does, case by case -/

/-- The blocking form takes a free permit and leaves the waiters alone. -/
theorem acquire_of_free {m : SemaphoreImpl ι} {op : ι} (hop : op ∉ m.waiters)
    (hfree : 0 < m.count) :
    m.acquire op = { state := { m with count := m.count - 1 }, outcome := .granted } := by
  cases hmode : m.enabled
  · simp [acquire, tryAcquire, hmode, hfree]
  · simp [acquire, decrement, addWaiter, unlink, hmode, hfree, List.erase_append_right _ hop]

/-- Without a free permit the blocking form waits, or fails in single-threaded mode. -/
theorem acquire_of_none {m : SemaphoreImpl ι} {op : ι} (hnone : ¬ 0 < m.count) :
    m.acquire op = if m.enabled then { state := m.addWaiter op, outcome := .queued }
      else { state := m, outcome := .failed .inProgress } := by
  cases hmode : m.enabled <;> simp [acquire, tryAcquire, addWaiter, hmode, hnone]

/-- Without waiters `release` counts up. -/
theorem release_of_none {m : SemaphoreImpl ι} (hwaiters : m.waiters = []) :
    m.release = { state := { m with count := m.count + 1 }, outcome := .returned } := by
  simp [release, hwaiters]

/-- With waiters `release` hands the permit to the first one. -/
theorem release_of_waiter {m : SemaphoreImpl ι} {op : ι} {rest : List ι}
    (hwaiters : m.waiters = op :: rest) :
    m.release =
      { state := { m with waiters := rest }
        outcome := .returned
        completed := [op]
        asserted := decide (0 < m.count + 1) } := by
  simp [release, decrement, unlink, hwaiters]

end SemaphoreImpl

end Sam
