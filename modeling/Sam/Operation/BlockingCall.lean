import Sam.Barrier.Cancellation
import Sam.Operation.CancelledWait
import Sam.Operation.ErrorCode

/-!
# What the blocking calls tell their callers

`lock`, `lock_shared`, `acquire` and `arrive` with an `error_code`. The single-threaded path that
succeeds and the multi-threaded path that does not wait leave the variable alone; the last
multi-threaded arrival at a barrier completes its own op, which writes it. A shutdown takes a
waiting request back, except that an arrival stays counted. `told_iff` puts the four primitives
together. -/

namespace Sam

open Transition Withdrawal ErrorCodes

universe u v

variable {ι : Type u}

/-! ## The calls that leave the variable alone -/

/-- `lock` on a free mutex. -/
def MutexImpl.Call.untouched (m : MutexImpl (Op ι)) : MutexImpl.Call ι → Bool
  | .lock _ => !m.locked
  | _ => false

/-- `lock` without holders, and `lock_shared` without an exclusive one. -/
def SharedMutexImpl.Call.untouched (m : SharedMutexImpl (Op ι)) : SharedMutexImpl.Call ι → Bool
  | .lock _ => !m.locked && m.lockedShared == 0
  | .lockShared _ => !m.locked
  | _ => false

/-- `acquire` with a free permit. -/
def SemaphoreImpl.Call.untouched (m : SemaphoreImpl (Op ι)) : SemaphoreImpl.Call ι → Bool
  | .acquire _ => decide (0 < m.count)
  | _ => false

/-- `arrive` as the last arrival, in single-threaded mode. -/
def BarrierImpl.Call.untouched (m : BarrierImpl (Op ι)) : BarrierImpl.Call ι → Bool
  | .arrive _ => !m.enabled && m.counter == 1
  | _ => false

/-- Membership in the only list of a primitive. -/
theorem mem_of_flatten {op : Op ι} {ops : List (Op ι)} (h : op ∈ [ops].flatten) : op ∈ ops := by
  rwa [List.flatten_singleton] at h

theorem not_mem_flatten {op : Op ι} {ops : List (Op ι)} (h : op ∉ [ops].flatten) : op ∉ ops := by
  rwa [List.flatten_singleton] at h

theorem not_mem_flatten_pair {op : Op ι} {ops more : List (Op ι)} (h : op ∉ [ops, more].flatten) :
    op ∉ ops ++ more := by
  simpa using h

variable [DecidableEq ι]

/-! ## The ways out -/

namespace MutexImpl

variable {m : MutexImpl (Op ι)} {c : Call ι} {id : ι}

omit [DecidableEq ι] in
/-- Only `lock` has a variable. -/
theorem Call.untouched_blocks (h : c.untouched m = true) :
    ∃ id, c.request = some (.blocking id) := by
  cases c with
  | lock id => exact ⟨id, rfl⟩
  | _ => cases h

/-- `lock` takes a free mutex and leaves the variable alone, fails or waits. -/
theorem Call.way (hreq : c.request = some (.blocking id)) (hop : .blocking id ∉ m.waiters) :
    Way (P := primitive) m (.blocking id) (c.run m) (c.untouched m) := by
  cases c with
  | lock own =>
      obtain rfl : own = id := by simpa [request] using hreq
      cases hlocked : m.locked with
      | false =>
          rw [untouched, hlocked, run, lock_of_free hop hlocked]
          exact .taken rfl List.not_mem_nil
      | true =>
          rw [untouched, hlocked, run, lock_of_locked hlocked]
          cases m.enabled with
          | false => exact .failed rfl rfl
          | true => exact .queued rfl
  | _ => cases hreq

/-- The codes of a mutex. -/
def coded : Coded (primitive (ι := ι)) where
  toRetraction := retraction
  untouched m c := c.untouched m
  restored := true
  way _ _ _ hreq hop := Call.way hreq (not_mem_flatten hop)
  untouched_blocks _ _ h := Call.untouched_blocks h
  restored_iff _ _ := iff_of_true rfl rfl
  valid_takeAll _ _ := trivial

end MutexImpl

namespace SharedMutexImpl

variable {m : SharedMutexImpl (Op ι)} {c : Call ι} {id : ι}

omit [DecidableEq ι] in
/-- Only `lock` and `lock_shared` have a variable. -/
theorem Call.untouched_blocks (h : c.untouched m = true) :
    ∃ id, c.request = some (.blocking id) := by
  cases c with
  | lock id | lockShared id => exact ⟨id, rfl⟩
  | _ => cases h

/-- `lock` and `lock_shared` take the mutex and leave the variable alone, fail or wait. -/
theorem Call.way (hreq : c.request = some (.blocking id))
    (hop : .blocking id ∉ m.waiters ++ m.sharedWaiters) :
    Way (P := primitive) m (.blocking id) (c.run m) (c.untouched m) := by
  cases c with
  | lock own =>
      obtain rfl : own = id := by simpa [request] using hreq
      by_cases htaken : m.locked = true ∨ 0 < m.lockedShared
      · have huntouched : untouched m (.lock own) = false := by
          simpa [untouched, imp_iff_or_not, Nat.pos_iff_ne_zero, or_comm] using htaken
        rw [huntouched, run, lock_of_taken htaken]
        cases m.enabled with
        | false => exact .failed rfl rfl
        | true => exact .queued rfl
      · have hfree : m.locked = false ∧ m.lockedShared = 0 := by simpa using htaken
        rw [show untouched m (.lock own) = true by simp [untouched, hfree.1, hfree.2], run,
          lock_of_free hop hfree.1 hfree.2]
        exact .taken rfl List.not_mem_nil
  | lockShared own =>
      obtain rfl : own = id := by simpa [request] using hreq
      cases hlocked : m.locked with
      | false =>
          rw [untouched, hlocked, run, lockShared_of_free hop hlocked]
          exact .taken rfl List.not_mem_nil
      | true =>
          rw [untouched, hlocked, run, lockShared_of_locked hlocked]
          cases m.enabled with
          | false => exact .failed rfl rfl
          | true => exact .queued rfl
  | _ => cases hreq

/-- The codes of a shared mutex. -/
def coded : Coded (primitive (ι := ι)) where
  toRetraction := retraction
  untouched m c := c.untouched m
  restored := true
  way _ _ _ hreq hop := Call.way hreq (not_mem_flatten_pair hop)
  untouched_blocks _ _ h := Call.untouched_blocks h
  restored_iff _ _ := iff_of_true rfl rfl
  valid_takeAll _ _ := trivial

end SharedMutexImpl

namespace SemaphoreImpl

variable {m : SemaphoreImpl (Op ι)} {c : Call ι} {id : ι}

omit [DecidableEq ι] in
/-- Only `acquire` has a variable. -/
theorem Call.untouched_blocks (h : c.untouched m = true) :
    ∃ id, c.request = some (.blocking id) := by
  cases c with
  | acquire id => exact ⟨id, rfl⟩
  | _ => cases h

/-- `acquire` takes a free permit and leaves the variable alone, fails or waits. -/
theorem Call.way (hreq : c.request = some (.blocking id)) (hop : .blocking id ∉ m.waiters) :
    Way (P := primitive) m (.blocking id) (c.run m) (c.untouched m) := by
  cases c with
  | acquire own =>
      obtain rfl : own = id := by simpa [request] using hreq
      by_cases hfree : 0 < m.count
      · rw [show untouched m (.acquire own) = true by simp [untouched, hfree], run,
          acquire_of_free hop hfree]
        exact .taken rfl List.not_mem_nil
      · rw [show untouched m (.acquire own) = false by simpa [untouched] using hfree, run,
          acquire_of_none hfree]
        cases m.enabled with
        | false => exact .failed rfl rfl
        | true => exact .queued rfl
  | _ => cases hreq

/-- The codes of a semaphore. -/
def coded : Coded (primitive (ι := ι)) where
  toRetraction := retraction
  untouched m c := c.untouched m
  restored := true
  way _ _ _ hreq hop := Call.way hreq (not_mem_flatten hop)
  untouched_blocks _ _ h := Call.untouched_blocks h
  restored_iff _ _ := iff_of_true rfl rfl
  valid_takeAll _ _ := trivial

end SemaphoreImpl

namespace BarrierImpl

variable {m : BarrierImpl (Op ι)} {c : Call ι} {id : ι} {op : Op ι}

omit [DecidableEq ι] in
/-- Only `arrive` has a variable. -/
theorem Call.untouched_blocks (h : c.untouched m = true) :
    ∃ id, c.request = some (.blocking id) := by
  cases c with
  | arrive id => exact ⟨id, rfl⟩
  | _ => cases h

/-- `arrive` takes as the last arrival, fails or waits. It leaves the variable alone when it has no
op. -/
theorem Call.way (hreq : c.request = some (.blocking id)) (hop : .blocking id ∉ m.waiters) :
    Way (P := primitive) m (.blocking id) (c.run m) (c.untouched m) := by
  cases c with
  | arrive own =>
      obtain rfl : own = id := by simpa [request] using hreq
      cases hmode : m.enabled with
      | false =>
          rw [run, arrive_of_disabled hmode]
          by_cases hlast : m.counter = 1
          · rw [show untouched m (.arrive own) = true by simp [untouched, hmode, hlast],
              if_pos hlast, tryArrive_of_last hlast]
            exact .taken rfl hop
          · rw [show untouched m (.arrive own) = false by simp [untouched, hlast], if_neg hlast]
            exact .failed rfl rfl
      | true =>
          rw [show untouched m (.arrive own) = false by simp [untouched, hmode], run]
          by_cases hlast : m.counter = 1
          · rw [arrive_of_last hmode hlast]
            exact .last rfl (by simp)
          · rw [arrive_of_more hmode hlast]
            exact .queued rfl
  | _ => cases hreq

/-- The phases of the barrier wait for somebody, or they never end: a barrier for no arrivals counts
below zero. -/
def Steady (m : BarrierImpl (Op ι)) : Prop :=
  m.Counts ∨ m.counter ≤ 0 ∧ m.init ≤ 0 ∧ (m.waiters ≠ [] → m.counter < 0)

omit [DecidableEq ι] in
/-- With somebody in line, the next arrival is not the last one but one. -/
theorem Steady.counter_ne_zero (h : m.Steady) (hop : op ∈ m.waiters) : m.counter ≠ 0 := by
  rcases h with h | ⟨-, -, hline⟩
  · exact h.counter_ne_zero
  · have hneg := hline (List.ne_nil_of_mem hop)
    omega

/-- Every arrival keeps this. -/
theorem Steady.call (h : m.Steady) (c : Call ι) : (c.run m).state.Steady := by
  rcases h with h | ⟨hcounter, hinit, hline⟩
  · exact Or.inl (h.call c)
  · have hmore : m.counter ≠ 1 := by omega
    have hlength := c.joins_length m.enabled
    rw [Call.run_of_more hmore]
    refine Or.inr ⟨?_, hinit, fun hwaiters => ?_⟩
    · show m.counter - ((c.joins m.enabled).length : Int) ≤ 0
      omega
    · show m.counter - ((c.joins m.enabled).length : Int) < 0
      rcases hjoins : c.joins m.enabled with _ | ⟨own, rest⟩
      · have hbefore : m.waiters ≠ [] := by simpa [hjoins] using hwaiters
        have hneg := hline hbefore
        simpa using hneg
      · rw [List.length_cons]
        omega

omit [DecidableEq ι] in
/-- A new barrier, for any number of arrivals. -/
theorem steady_new (enabled : Bool) (init : Int) :
    (BarrierImpl.new enabled init : BarrierImpl (Op ι)).Steady := by
  by_cases hinit : 1 ≤ init
  · exact Or.inl ⟨hinit, hinit⟩
  · have hle : init ≤ 0 := by omega
    exact Or.inr ⟨hle, hle, fun hwaiters => absurd rfl hwaiters⟩

/-- Taking ops out of the line keeps this. -/
theorem Steady.unlink (h : m.Steady) (op : Op ι) : (m.unlink op).Steady := by
  rcases h with h | ⟨hcounter, hinit, hline⟩
  · exact Or.inl h
  · refine Or.inr ⟨hcounter, hinit, fun hwaiters => hline fun hnone => hwaiters ?_⟩
    show m.waiters.erase op = []
    rw [hnone, List.erase_nil]

omit [DecidableEq ι] in
/-- A shutdown keeps this. -/
theorem Steady.takeAll (h : m.Steady) : ({ m with waiters := [] } : BarrierImpl (Op ι)).Steady := by
  rcases h with h | ⟨hcounter, hinit, -⟩
  · exact Or.inl h
  · exact Or.inr ⟨hcounter, hinit, fun hwaiters => absurd rfl hwaiters⟩

/-- A shutdown does not give an arrival back. -/
theorem takeAll_ne_retract (m : BarrierImpl (Op ι)) (op : Op ι) :
    ({ m with waiters := [] } : BarrierImpl (Op ι)) ≠ { m.retract op with waiters := [] } := by
  intro heq
  have hcounter : m.counter = m.counter + 1 := congrArg BarrierImpl.counter heq
  omega

/-- The codes of a barrier. -/
def coded : Coded (primitive (ι := ι)) where
  retract := retract
  Valid := Steady
  valid_call _ c h := h.call c
  valid_unlink _ op h := h.unlink op
  request _ _ _ _ hreq hop hqueued := Call.retract_run hreq (not_mem_flatten hop) hqueued
  call _ _ _ h _ hop _ hdone :=
    Call.run_retract (h.counter_ne_zero (mem_of_flatten hop)) (mem_of_flatten hop) hdone
  unlink := retraction.unlink
  mem_queued := retraction.mem_queued
  untouched m c := c.untouched m
  restored := false
  way _ _ _ hreq hop := Call.way hreq (not_mem_flatten hop)
  untouched_blocks _ _ h := Call.untouched_blocks h
  restored_iff m op := iff_of_false (takeAll_ne_retract m op) Bool.false_ne_true
  valid_takeAll _ h := h.takeAll

end BarrierImpl

namespace ErrorCodes

/-! ## The four primitives -/

/-- A new primitive with blocking calls. -/
inductive Subject where
  | mutex (enabled : Bool)
  | sharedMutex (enabled : Bool)
  | semaphore (enabled : Bool) (initialCount : Int)
  | barrier (enabled : Bool) (init : Int)
  deriving DecidableEq, Repr

namespace Subject

/-- Its calls. -/
def primitive (ι : Type u) [DecidableEq ι] : Subject → Primitive ι
  | mutex _ => MutexImpl.primitive
  | sharedMutex _ => SharedMutexImpl.primitive
  | semaphore _ _ => SemaphoreImpl.primitive
  | barrier _ _ => BarrierImpl.primitive

/-- Its first state. -/
def start : (x : Subject) → (x.primitive ι).State
  | mutex enabled => MutexImpl.init enabled
  | sharedMutex enabled => SharedMutexImpl.init enabled
  | semaphore enabled initialCount => SemaphoreImpl.init enabled initialCount
  | barrier enabled init => BarrierImpl.new enabled init

/-- The codes of its calls. -/
def coded : (x : Subject) → Coded (x.primitive ι)
  | mutex _ => MutexImpl.coded
  | sharedMutex _ => SharedMutexImpl.coded
  | semaphore _ _ => SemaphoreImpl.coded
  | barrier _ _ => BarrierImpl.coded

/-- Nobody waits at first. -/
theorem start_spec (x : Subject) :
    (x.primitive ι).queued x.start = [] ∧ (x.coded (ι := ι)).Valid x.start := by
  cases x with
  | mutex enabled | sharedMutex enabled | semaphore enabled initialCount => exact ⟨rfl, trivial⟩
  | barrier enabled init => exact ⟨rfl, BarrierImpl.steady_new enabled init⟩

end Subject

/-- **What an error code tells.** In every state of a run, every blocking call that has returned
knows from its variable whether it acquired, and an error means that the primitive is as if the call
had not been made, exactly when every call that takes at once and leaves its variable alone found it
clear, and no shutdown of a barrier found a blocking arrival. -/
theorem told_iff {ε : Type v} (x : Subject) (ls : List (Label (x.primitive ι) ε)) :
    (∀ t, Visits step (State.init x.start) ls t → AllTold t) ↔
      ∀ t l, Takes step (State.init x.start) ls t l → Clean x.coded t l :=
  allTold_iff x.start_spec.1 x.start_spec.2 ls

/-- `lock(mtx, ec)` on a free mutex with an old error in `ec` returns an empty guard and leaves the
mutex locked; an arrival that a shutdown wakes with an error stays counted. -/
theorem stale_code_hides_lock :
    (∃ t : State (MutexImpl.primitive (ι := Nat)) Empty,
      run step (State.init (MutexImpl.init true))
          [.call (MutexImpl.Call.lock 0) (.known .inProgress)] = some t ∧
        t.world.impl.locked = true ∧ t.ec (.blocking 0) = .known .inProgress ∧
        (t.ec (.blocking 0)).guards = false ∧ ¬ AllTold t) ∧
    (∃ t : State (BarrierImpl.primitive (ι := Nat)) Empty,
      run step (State.init (BarrierImpl.new true 2))
          [.call (BarrierImpl.Call.arrive 0) .success, .shutdown] = some t ∧
        t.ec (.blocking 0) = .known .shutDown ∧ t.world.impl.counter = 1 ∧
        (t.without (.blocking 0)).counter = 2 ∧ ¬ AllTold t) := by
  refine ⟨⟨_, rfl, rfl, rfl, rfl, fun hall => ?_⟩, ⟨_, rfl, rfl, rfl, rfl, fun hall => ?_⟩⟩
  · have htells := hall (.blocking 0) trivial (by decide) (by decide)
    have hcode := htells.success_iff.mpr (by decide)
    cases hcode
  · have htells := hall (.blocking 0) trivial (by decide) (by decide)
    have hunmade := htells.unmade fun heq => nomatch Code.known.inj heq
    exact absurd (congrArg BarrierImpl.counter hunmade) (by decide)

end ErrorCodes

end Sam
