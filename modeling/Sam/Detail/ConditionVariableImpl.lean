import Mathlib.Data.List.Nodup
import Sam.Detail.CriticalSection

/-!
# `condition_variable_impl`

The critical sections of `detail/impl/condition_variable_impl.ipp` and
`impl/basic_condition_variable.hpp`, over the sequence of ops that the intrusive list `waiters_`
holds. A notification takes what the predicates of the ops return when it asks for them; the
predicate of `async_wait` always returns true.
-/

namespace Sam

universe u

/-- The waiter list. -/
structure ConditionVariableImpl (ι : Type u) where
  waiters : List ι
  deriving DecidableEq, Repr

namespace ConditionVariableImpl

variable {ι : Type u}

/-- A new condition variable. -/
def init : ConditionVariableImpl ι := ⟨[]⟩

/-- `add_waiter`. -/
def addWaiter (m : ConditionVariableImpl ι) (waiter : ι) : ConditionVariableImpl ι :=
  { m with waiters := m.waiters ++ [waiter] }

/-- `async_wait_op` and `async_predicate_wait_op`: queue the op made of the handler and the
predicate. -/
def asyncWait (m : ConditionVariableImpl ι) (op : ι) : Result (ConditionVariableImpl ι) ι :=
  { state := m.addWaiter op, outcome := .queued }

variable [DecidableEq ι]

/-- `unlink` of a queued op. -/
def unlink (m : ConditionVariableImpl ι) (op : ι) : ConditionVariableImpl ι :=
  { m with waiters := m.waiters.erase op }

/-- `notify_one`: looks at the first waiter only. -/
def notifyOne (m : ConditionVariableImpl ι) (done : ι → Bool) :
    Result (ConditionVariableImpl ι) ι :=
  match m.waiters with
  | [] => { state := m, outcome := .returned }
  | op :: _ =>
      if done op then { state := m.unlink op, outcome := .returned, completed := [op] }
      else { state := m, outcome := .returned }

/-- The loop of `notify_all` over the waiters from here on. -/
def notifyLoop (done : ι → Bool) (r : Result (ConditionVariableImpl ι) ι) :
    List ι → Result (ConditionVariableImpl ι) ι
  | [] => r
  | op :: rest =>
      if done op then
        notifyLoop done { r with state := r.state.unlink op, completed := r.completed ++ [op] } rest
      else notifyLoop done r rest

/-- `notify_all`. -/
def notifyAll (m : ConditionVariableImpl ι) (done : ι → Bool) :
    Result (ConditionVariableImpl ι) ι :=
  notifyLoop done { state := m, outcome := .returned } m.waiters

/-! ## What the notifications complete -/

variable {m : ConditionVariableImpl ι} {done : ι → Bool}

/-- Without waiters `notify_one` does nothing. -/
theorem notifyOne_of_none (hwaiters : m.waiters = []) :
    m.notifyOne done = { state := m, outcome := .returned } := by
  simp only [notifyOne, hwaiters]

/-- `notify_one` completes the first waiter if that one is done. -/
theorem notifyOne_of_waiter {op : ι} {rest : List ι} (hwaiters : m.waiters = op :: rest) :
    m.notifyOne done =
      if done op then { state := ⟨rest⟩, outcome := .returned, completed := [op] }
      else { state := m, outcome := .returned } := by
  unfold notifyOne
  split <;> simp_all [unlink]

/-- The loop completes the ops that are done and keeps the others, which `skipped` leads. -/
theorem notifyLoop_eq {r : Result (ConditionVariableImpl ι) ι} {skipped rest : List ι}
    (hwaiters : r.state.waiters = skipped ++ rest) (hnodup : r.state.waiters.Nodup) :
    notifyLoop done r rest =
      { r with
        state := { waiters := skipped ++ rest.filter (! done ·) }
        completed := r.completed ++ rest.filter done } := by
  induction rest generalizing r skipped with
  | nil =>
      rw [List.append_nil] at hwaiters
      simp [notifyLoop, ← hwaiters]
  | cons op rest ih =>
      cases hdone : done op with
      | false =>
          have hskip : r.state.waiters = (skipped ++ [op]) ++ rest := by
            simpa using hwaiters
          rw [notifyLoop, if_neg (by simp [hdone]), ih hskip hnodup]
          simp [hdone]
      | true =>
          have hop : op ∉ skipped := fun hmem =>
            (List.nodup_append.mp (hwaiters ▸ hnodup)).2.2 op hmem op (List.mem_cons_self ..) rfl
          have herase : r.state.waiters.erase op = skipped ++ rest := by
            rw [hwaiters, List.erase_append_right _ hop, List.erase_cons_head]
          rw [notifyLoop, if_pos hdone, ih herase (hnodup.erase op)]
          simp [hdone]

/-- `notify_all` completes the waiters that are done, first to last. -/
theorem notifyAll_eq (hnodup : m.waiters.Nodup) :
    m.notifyAll done =
      { state := { waiters := m.waiters.filter (! done ·) }
        outcome := .returned
        completed := m.waiters.filter done } :=
  @notifyLoop_eq _ _ _ { state := m, outcome := .returned } [] _ rfl hnodup

end ConditionVariableImpl

end Sam
