import Sam.Detail.BarrierImpl
import Sam.Library.Transition

/-!
# Arrivals that fall between the two sections of `async_arrive`

Runs of `basic_barrier` in which every step is one critical section. An `async_arrive` takes `mtx_`
twice: it tests the counter in the first section and counts and queues in the second one, and other
threads may arrive in between. `Balanced` says that the counter and the waiters make up the phase.
`balanced_iff` gives the runs that keep it exactly: those in which no second section finds that its
arrival is the last one.
-/

namespace Sam.Barrier

open Transition

universe u

/-- The barrier and the calls of `async_arrive` that are between their two sections. -/
structure Run (ι : Type u) where
  impl : BarrierImpl ι
  between : List ι
  deriving DecidableEq, Repr

/-- The critical sections of a run. `asyncTry` and `asyncQueue` are those of `async_arrive`. -/
inductive Label (ι : Type u) where
  | tryArrive
  | arrive (call : ι)
  | asyncTry (call : ι)
  | asyncQueue (call : ι)
  deriving DecidableEq, Repr

variable {ι : Type u}

/-- A new barrier that nobody has used. -/
def Run.init (enabled : Bool) (init : Int) : Run ι := ⟨.new enabled init, []⟩

/-- One critical section. Any call may enter its first section at any time; it enters the second
section of `async_arrive` after `try_arrive` refused. -/
def step [DecidableEq ι] (s : Run ι) : Label ι → Option (Run ι)
  | .tryArrive => some { s with impl := s.impl.tryArrive.state }
  | .arrive r => some { s with impl := (s.impl.arrive r).state }
  | .asyncTry r =>
      match s.impl.tryArrive.outcome with
      | .granted => some { s with impl := s.impl.tryArrive.state }
      | _ => some { impl := s.impl.tryArrive.state, between := s.between ++ [r] }
  | .asyncQueue r =>
      if r ∈ s.between then
        some { impl := (s.impl.asyncArrive r).state, between := s.between.erase r }
      else none

/-- The phase still waits for at least one arrival, and counts every waiter. -/
def Balanced (init : Int) (s : Run ι) : Prop :=
  (1 ≤ s.impl.counter ∧ s.impl.counter ≤ init) ∧ s.impl.counter + s.impl.waiters.length = init

/-- The step does not queue the last arrival of a phase. -/
def QueuesEarly (s : Run ι) : Label ι → Prop
  | .asyncQueue _ => s.impl.counter ≠ 1
  | _ => True

/-- What every step keeps that does not queue the last arrival. -/
structure Inv (init : Int) (s : Run ι) : Prop where
  balanced : Balanced init s
  init_eq : s.impl.init = init

namespace Inv

variable {init : Int} {s : Run ι}

/-- A balanced barrier has fewer waiters than a phase has arrivals. -/
theorem waiters_lt (h : Inv init s) : s.impl.waiters.length < init := by
  obtain ⟨⟨hlow, -⟩, hsum⟩ := h.balanced
  omega

/-- A new barrier is balanced. -/
theorem start (enabled : Bool) (hinit : 1 ≤ init) : Inv init (Run.init enabled init : Run ι) :=
  ⟨⟨⟨hinit, Int.le_refl init⟩, by simp [Run.init, BarrierImpl.new]⟩, rfl⟩

/-- The next phase is balanced. -/
theorem next_phase (h : Inv init s) :
    Inv init { s with impl := { s.impl with counter := s.impl.init, waiters := [] } } := by
  obtain ⟨⟨hlow, hhigh⟩, -⟩ := h.balanced
  have hinit := h.init_eq
  exact ⟨⟨⟨by show 1 ≤ s.impl.init; omega, by show s.impl.init ≤ init; omega⟩,
    by simpa using hinit⟩, hinit⟩

/-- Counting and queueing an arrival that is not the last one keeps the balance. -/
theorem queue (h : Inv init s) (hmore : s.impl.counter ≠ 1) (call : ι) :
    Inv init { s with impl := { s.impl with
      counter := s.impl.counter - 1, waiters := s.impl.waiters ++ [call] } } := by
  obtain ⟨⟨hlow, hhigh⟩, hsum⟩ := h.balanced
  refine ⟨⟨⟨?_, ?_⟩, ?_⟩, h.init_eq⟩
  · show 1 ≤ s.impl.counter - 1
    omega
  · show s.impl.counter - 1 ≤ init
    omega
  · show s.impl.counter - 1 + (s.impl.waiters ++ [call]).length = init
    rw [List.length_append, List.length_singleton]
    omega

/-- `try_arrive` keeps the invariant. -/
theorem tryArrive (h : Inv init s) : Inv init { s with impl := s.impl.tryArrive.state } := by
  by_cases hlast : s.impl.counter = 1
  · rw [BarrierImpl.tryArrive_of_last hlast]
    exact h.next_phase
  · rw [BarrierImpl.tryArrive_of_more hlast]
    exact h

variable [DecidableEq ι]

/-- `arrive` keeps the invariant in both modes. -/
theorem arrive (h : Inv init s) (call : ι) :
    Inv init { s with impl := (s.impl.arrive call).state } := by
  by_cases hlast : s.impl.counter = 1 <;> cases henabled : s.impl.enabled
  · rw [BarrierImpl.arrive_of_disabled henabled, if_pos hlast]
    exact h.tryArrive
  · rw [BarrierImpl.arrive_of_last henabled hlast]
    exact h.next_phase
  · rw [BarrierImpl.arrive_of_disabled henabled, if_neg hlast]
    exact h
  · rw [BarrierImpl.arrive_of_more henabled hlast]
    exact h.queue hlast call

/-- Every critical section that does not queue the last arrival keeps the invariant. -/
theorem step {l : Label ι} {t : Run ι} (h : Inv init s) (hearly : QueuesEarly s l)
    (hstep : step s l = some t) : Inv init t := by
  cases l with
  | tryArrive =>
      obtain rfl := Option.some.inj hstep
      exact h.tryArrive
  | arrive call =>
      obtain rfl := Option.some.inj hstep
      exact h.arrive call
  | asyncTry call =>
      have hkeep := h.tryArrive
      simp only [Barrier.step] at hstep
      split at hstep
      all_goals
        obtain rfl := Option.some.inj hstep
        exact ⟨hkeep.balanced, hkeep.init_eq⟩
  | asyncQueue call =>
      obtain ⟨-, rfl⟩ := guard_iff.mp hstep
      have hkeep := h.queue hearly call
      exact ⟨hkeep.balanced, hkeep.init_eq⟩

/-- Queueing the last arrival leaves nobody to end the phase. -/
theorem step_late {l : Label ι} {t : Run ι} (hearly : ¬ QueuesEarly s l)
    (hstep : Barrier.step s l = some t) : ¬ Balanced init t := by
  cases l with
  | asyncQueue call =>
      obtain ⟨-, rfl⟩ := guard_iff.mp hstep
      have hlast : s.impl.counter = 1 := not_not.mp hearly
      intro hbalanced
      have hlow : 1 ≤ s.impl.counter - 1 := hbalanced.1.1
      omega
  | _ => exact absurd trivial hearly

end Inv

variable [DecidableEq ι]

/-- **When the barrier is balanced.** For phases of at least one arrival, the counter and the
waiters make up the phase in every state of a run, with fewer waiters than a phase has arrivals,
exactly when no second section of `async_arrive` finds the counter at 1. -/
theorem balanced_iff (enabled : Bool) {init : Int} (hinit : 1 ≤ init) (ls : List (Label ι)) :
    (∀ t, Visits step (Run.init enabled init) ls t →
        Balanced init t ∧ t.impl.waiters.length < init) ↔
      ∀ t l, Takes step (Run.init enabled init) ls t l → QueuesEarly t l :=
  visits_iff_takes (fun _ _ _ h hearly hstep => h.step hearly hstep)
    (fun _ h => ⟨h.balanced, h.waiters_lt⟩)
    (fun _ _ _ _ hearly hstep hall => Inv.step_late hearly hstep hall.1)
    (Inv.start enabled hinit) ls

/-- The equivalence for two threads that arrive one after the other. -/
theorem balanced_iff_two :
    (∀ t, Visits step (Run.init true 2) [Label.asyncTry 0, .asyncQueue 0, .asyncTry 1] t →
        Balanced 2 t ∧ t.impl.waiters.length < (2 : Int)) ↔
      ∀ t l, Takes step (Run.init true 2) [Label.asyncTry 0, .asyncQueue 0, .asyncTry 1] t l →
        QueuesEarly t l :=
  balanced_iff true (by decide) _

/-- Both threads test the counter before either of them counts: both are queued, and nobody is left
to release them. -/
theorem both_arrivals_queued :
    ∃ s : Run Nat, run step (Run.init true 2)
        [.asyncTry 0, .asyncTry 1, .asyncQueue 0, .asyncQueue 1] = some s ∧
      s.impl.counter = 0 ∧ s.impl.waiters = [0, 1] ∧ ¬ Balanced 2 s :=
  ⟨_, rfl, rfl, rfl, fun h => absurd h.1.1 (by decide)⟩

end Sam.Barrier
