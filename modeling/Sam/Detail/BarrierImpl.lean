import Sam.Detail.CriticalSection

/-!
# `barrier_impl`

The critical sections of `detail/barrier_impl.hpp`, `detail/impl/barrier_impl.ipp` and
`impl/basic_barrier.hpp`, over the sequence of ops that the intrusive list `waiters_` holds.
`async_arrive_op` has two sections: `tryArrive` and, when that refuses, `asyncArrive`.
-/

namespace Sam

universe u

/-- The size of a phase, the arrivals it still waits for and the waiter list. `enabled` is
`mtx_.enabled()`: multi-threaded mode. -/
structure BarrierImpl (ι : Type u) where
  enabled : Bool
  init : Int
  counter : Int
  waiters : List ι
  deriving DecidableEq, Repr

namespace BarrierImpl

variable {ι : Type u}

/-- A new barrier for phases of `init` arrivals. -/
def new (enabled : Bool) (init : Int) : BarrierImpl ι := ⟨enabled, init, init, []⟩

/-- `add_waiter`. -/
def addWaiter (m : BarrierImpl ι) (waiter : ι) : BarrierImpl ι :=
  { m with waiters := m.waiters ++ [waiter] }

/-- `decrement`. -/
def decrement (m : BarrierImpl ι) : BarrierImpl ι := { m with counter := m.counter - 1 }

/-- `waiters_.complete_all`: every waiter is completed with success, first to last. -/
def completeAll (m : BarrierImpl ι) : BarrierImpl ι := { m with waiters := [] }

/-- `try_arrive`: ends the phase as its last arrival, or takes its own arrival back. -/
def tryArrive (m : BarrierImpl ι) : Result (BarrierImpl ι) ι :=
  let arrived := m.decrement
  if arrived.counter = 0 then
    { state := { arrived.completeAll with counter := m.init }, outcome := .granted,
      completed := arrived.waiters }
  else { state := { arrived with counter := arrived.counter + 1 }, outcome := .refused }

/-- The second section of `async_arrive_op`: counts the arrival and queues the op made of the
handler, without looking at the counter again. -/
def asyncArrive (m : BarrierImpl ι) (op : ι) : Result (BarrierImpl ι) ι :=
  { state := m.decrement.addWaiter op, outcome := .queued }

/-- `async_arrive_op` as a whole, with nothing between its two sections. -/
def asyncArriveOp (m : BarrierImpl ι) (op : ι) : Result (BarrierImpl ι) ι :=
  match m.tryArrive.outcome with
  | .granted => m.tryArrive
  | _ => m.tryArrive.state.asyncArrive op

variable [DecidableEq ι]

/-- `unlink` of a queued op. -/
def unlink (m : BarrierImpl ι) (op : ι) : BarrierImpl ι :=
  { m with waiters := m.waiters.erase op }

/-- `arrive`. In multi-threaded mode it queues its own op first; the last arrival completes it with
the others. -/
def arrive (m : BarrierImpl ι) (op : ι) : Result (BarrierImpl ι) ι :=
  if !m.enabled then
    match m.tryArrive.outcome with
    | .granted => m.tryArrive
    | _ => { state := m, outcome := .failed .inProgress }
  else
    let arrived := (m.addWaiter op).decrement
    if arrived.counter = 0 then
      { state := { arrived.completeAll with counter := m.init }.unlink op, outcome := .granted,
        completed := arrived.waiters }
    else { state := arrived, outcome := .queued }

/-! ## What each section does, case by case -/

variable {m : BarrierImpl ι} {op : ι}

omit [DecidableEq ι] in
/-- The last arrival completes the waiters and starts the next phase. -/
theorem tryArrive_of_last (hlast : m.counter = 1) :
    m.tryArrive =
      { state := { m with counter := m.init, waiters := [] }
        outcome := .granted
        completed := m.waiters } := by
  simp [tryArrive, decrement, completeAll, hlast]

omit [DecidableEq ι] in
/-- Before the last arrival `try_arrive` changes nothing. -/
theorem tryArrive_of_more (hmore : m.counter ≠ 1) :
    m.tryArrive = { state := m, outcome := .refused } := by
  have hcounter : m.counter - 1 ≠ 0 := by omega
  simp [tryArrive, decrement, hcounter]

/-- The last arrival completes the waiters, its own op among them, and starts the next phase. -/
theorem arrive_of_last (henabled : m.enabled = true) (hlast : m.counter = 1) :
    m.arrive op =
      { state := { m with counter := m.init, waiters := [] }
        outcome := .granted
        completed := m.waiters ++ [op] } := by
  simp [arrive, addWaiter, decrement, completeAll, unlink, henabled, hlast]

/-- Before the last arrival `arrive` counts and waits. -/
theorem arrive_of_more (henabled : m.enabled = true) (hmore : m.counter ≠ 1) :
    m.arrive op =
      { state := { m with counter := m.counter - 1, waiters := m.waiters ++ [op] }
        outcome := .queued } := by
  have hcounter : m.counter - 1 ≠ 0 := by omega
  simp [arrive, addWaiter, decrement, henabled, hcounter]

/-- In single-threaded mode `arrive` is `try_arrive` that fails where the latter refuses. -/
theorem arrive_of_disabled (henabled : m.enabled = false) :
    m.arrive op = if m.counter = 1 then m.tryArrive
      else { state := m, outcome := .failed .inProgress } := by
  by_cases hlast : m.counter = 1
  · simp [arrive, henabled, hlast, tryArrive_of_last hlast]
  · simp [arrive, henabled, hlast, tryArrive_of_more hlast]

end BarrierImpl

end Sam
