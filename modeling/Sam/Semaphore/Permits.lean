import Sam.Detail.SemaphoreImpl
import Sam.Detail.History

/-!
# The semaphore keeps account of its permits

Runs of `basic_semaphore` in which every step is one critical section. The counter and the waiter
list are the state of the abstract permit counter itself (`Run.queue`), and `step_refines` shows
that every critical section is the event of it that its label names (`Label.event`).
`permit_accounting` collects what follows for every run: the balance of the permits, what `value`
reports, that the assertion in `decrement` never fails, the order of the grants, and that nobody is
granted who was cancelled. -/

namespace Sam

open PermitQueue Transition

universe u

namespace SemaphoreImpl

variable {ι : Type u} {m : SemaphoreImpl ι} {op : ι}

/-- `try_acquire` is a request that does not wait. -/
theorem tryAcquire_requested :
    Requested m.count m.waiters op m.tryAcquire.outcome m.tryAcquire.state.count
      m.tryAcquire.state.waiters := by
  by_cases hfree : 0 < m.count
  · simpa [tryAcquire, hfree] using Requested.granted hfree
  · simpa [tryAcquire, hfree] using Requested.refused

/-- `try_acquire` is granted a free permit and never queued. -/
theorem tryAcquire_answered : Answered m.count false m.tryAcquire.outcome := by
  by_cases hfree : 0 < m.count <;> simp [Answered, tryAcquire, hfree]

/-- `async_aquire_op` is a request that waits in the queue. -/
theorem asyncAcquire_requested (hcount : 0 ≤ m.count) :
    Requested m.count m.waiters op (m.asyncAcquire op).outcome (m.asyncAcquire op).state.count
      (m.asyncAcquire op).state.waiters := by
  by_cases hfree : 0 < m.count
  · simpa [asyncAcquire, decrement, hfree] using Requested.granted hfree
  · simpa [asyncAcquire, addWaiter, hfree] using Requested.queued (by omega : m.count = 0)

/-- `async_aquire_op` is granted a free permit and queued if there is none. -/
theorem asyncAcquire_answered : Answered m.count true (m.asyncAcquire op).outcome := by
  by_cases hfree : 0 < m.count <;> simp [Answered, asyncAcquire, hfree]

/-- `try_acquire` keeps the mode and asserts nothing. -/
theorem tryAcquire_keeps (m : SemaphoreImpl ι) :
    m.tryAcquire.state.enabled = m.enabled ∧ m.tryAcquire.asserted = true := by
  by_cases hfree : 0 < m.count <;> simp [tryAcquire, hfree]

/-- `async_aquire_op` keeps the mode and decrements only a positive counter. -/
theorem asyncAcquire_keeps (m : SemaphoreImpl ι) (op : ι) :
    (m.asyncAcquire op).state.enabled = m.enabled ∧ (m.asyncAcquire op).asserted = true := by
  by_cases hfree : 0 < m.count <;> simp [asyncAcquire, decrement, addWaiter, hfree]

variable [DecidableEq ι]

/-- `acquire` is a request that waits in the queue, or fails in single-threaded mode. -/
theorem acquire_requested (hcount : 0 ≤ m.count) (hop : op ∉ m.waiters) :
    Requested m.count m.waiters op (m.acquire op).outcome (m.acquire op).state.count
      (m.acquire op).state.waiters := by
  by_cases hfree : 0 < m.count
  · rw [acquire_of_free hop hfree]
    exact Requested.granted hfree
  · rw [acquire_of_none hfree]
    cases m.enabled
    · exact Requested.failed .inProgress
    · exact Requested.queued (by omega)

/-- `acquire` is granted a free permit; if there is none it is queued in multi-threaded mode. -/
theorem acquire_answered (hop : op ∉ m.waiters) :
    Answered m.count m.enabled (m.acquire op).outcome := by
  by_cases hfree : 0 < m.count
  · simp [Answered, acquire_of_free hop hfree, hfree]
  · cases henabled : m.enabled <;> simp [Answered, acquire_of_none hfree, henabled, hfree]

/-- `release` gives a permit back. -/
theorem release_released :
    Released m.count m.waiters m.release.completed m.release.state.count
      m.release.state.waiters := by
  cases hwaiters : m.waiters with
  | nil => simpa [release, hwaiters] using Released.freed
  | cons w rest => simpa [release, decrement, unlink, hwaiters] using Released.handed w rest

/-- `acquire` keeps the mode and decrements only a positive counter. -/
theorem acquire_keeps (m : SemaphoreImpl ι) (hop : op ∉ m.waiters) :
    (m.acquire op).state.enabled = m.enabled ∧ (m.acquire op).asserted = true := by
  by_cases hfree : 0 < m.count
  · simp [acquire_of_free hop hfree]
  · cases henabled : m.enabled <;> simp [acquire_of_none hfree, henabled, addWaiter]

/-- `release` keeps the mode and increments the counter before it decrements it. -/
theorem release_keeps (m : SemaphoreImpl ι) (hcount : 0 ≤ m.count) :
    m.release.state.enabled = m.enabled ∧ m.release.asserted = true := by
  have hpos : 0 < m.count + 1 := by omega
  cases hwaiters : m.waiters <;> simp [release, decrement, unlink, hwaiters, hpos]

end SemaphoreImpl

namespace Semaphore

/-- The semaphore, the history of its requests, the calls of `acquire` that wait on their op, and
whether every assertion evaluated so far held. -/
structure Run (ι : Type u) where
  impl : SemaphoreImpl ι
  history : History ι
  blocked : List ι
  asserted : Bool
  deriving DecidableEq, Repr

/-- The critical sections of a run. -/
inductive Label (ι : Type u) where
  | tryAcquire (request : ι)
  | acquire (request : ι)
  | asyncAcquire (request : ι)
  | release
  | cancel (request : ι)
  deriving DecidableEq, Repr

variable {ι : Type u} [DecidableEq ι]

namespace Run

/-- A new semaphore that nobody has used. -/
def init (enabled : Bool) (initialCount : Int) : Run ι :=
  ⟨.init enabled initialCount, .empty, [], true⟩

/-- A call asked for a permit and left this result. -/
def request (s : Run ι) (r : ι) (result : Result (SemaphoreImpl ι) ι) : Run ι :=
  { s with
    impl := result.state
    history := s.history.request r result.outcome
    asserted := s.asserted && result.asserted }

/-- The call waits if its op was queued. -/
def block (s : Run ι) (r : ι) (outcome : Outcome) : Run ι :=
  { s with blocked := if outcome = .queued then s.blocked ++ [r] else s.blocked }

/-- A permit was given back, with this result. -/
def release (s : Run ι) (result : Result (SemaphoreImpl ι) ι) : Run ι :=
  { s with
    impl := result.state
    history := s.history.release result.completed
    asserted := s.asserted && result.asserted }

/-- The cancellation handler of the queued op `r` completed it with `operation_aborted`. -/
def cancel (s : Run ι) (r : ι) : Run ι :=
  { s with impl := s.impl.unlink r, history := s.history.cancel r }

/-- The counter and the waiters as a permit counter. -/
def queue (s : Run ι) : PermitQueue.State ι := s.history.queue s.impl.count s.impl.waiters

end Run

/-- One critical section. Requests are new; only a queued asynchronous operation is cancelled; a
release needs no earlier grant. -/
def step (s : Run ι) : Label ι → Option (Run ι)
  | .tryAcquire r =>
      if r ∉ s.history.issued then some (s.request r s.impl.tryAcquire) else none
  | .acquire r =>
      if r ∉ s.history.issued then
        some ((s.request r (s.impl.acquire r)).block r (s.impl.acquire r).outcome)
      else none
  | .asyncAcquire r =>
      if r ∉ s.history.issued then some (s.request r (s.impl.asyncAcquire r)) else none
  | .release => some (s.release s.impl.release)
  | .cancel r =>
      if r ∈ s.impl.waiters ∧ r ∉ s.blocked then some (s.cancel r) else none

/-- What this critical section is to a permit counter, by the mode. Only in multi-threaded mode does
`acquire` wait. -/
def Label.event (enabled : Bool) : Label ι → Event ι
  | .tryAcquire r => .ask false r
  | .acquire r => .ask enabled r
  | .asyncAcquire r => .ask true r
  | .release => .give
  | .cancel r => .drop r

/-- What every critical section keeps. -/
structure Inv (enabled : Bool) (initial : Int) (s : Run ι) : Prop where
  counts : s.history.Counts initial s.impl.count s.impl.waiters
  mode : s.impl.enabled = enabled
  asserted : s.asserted = true

namespace Inv

variable {enabled : Bool} {initial : Int} {s : Run ι} {r : ι}

/-- The invariant holds at the start. -/
theorem init (h : 0 ≤ initial) : Inv enabled initial (Run.init enabled initial : Run ι) where
  counts := .empty h
  mode := rfl
  asserted := rfl

/-- The counter is not negative. -/
theorem count_nonneg (h : Inv enabled initial s) : 0 ≤ s.impl.count := h.counts.ok.free_nonneg

/-- A request keeps the invariant and is one event of the counter. -/
theorem request (h : Inv enabled initial s) (hr : r ∉ s.history.issued)
    {result : Result (SemaphoreImpl ι) ι} {waits : Bool}
    (hreq : Requested s.impl.count s.impl.waiters r result.outcome result.state.count
      result.state.waiters) (hanswer : Answered s.impl.count waits result.outcome)
    (hmode : result.state.enabled = s.impl.enabled) (hasserted : result.asserted = true) :
    Inv enabled initial (s.request r result) ∧
      PermitQueue.step s.queue (.ask waits r) = some (s.request r result).queue := by
  obtain ⟨hcounts, hevent⟩ := h.counts.request hr hreq hanswer
  exact ⟨⟨hcounts, hmode.trans h.mode, by simp [Run.request, h.asserted, hasserted]⟩, hevent⟩

end Inv

/-- **Refinement.** Every critical section is the event of the permit counter that it names. -/
theorem step_refines (enabled : Bool) (initial : Int) :
    Refines (step (ι := ι)) (Inv enabled initial) Run.queue fun l => some (l.event enabled) := by
  intro s l t h hstep
  have hcount := h.count_nonneg
  cases l with
  | tryAcquire r =>
      obtain ⟨hr, rfl⟩ := guard_iff.mp hstep
      obtain ⟨hmode, hasserted⟩ := s.impl.tryAcquire_keeps
      exact h.request hr SemaphoreImpl.tryAcquire_requested SemaphoreImpl.tryAcquire_answered
        hmode hasserted
  | acquire r =>
      obtain ⟨hr, rfl⟩ := guard_iff.mp hstep
      have hwait : r ∉ s.impl.waiters := fun hmem => hr (h.counts.issued_of_waiting hmem)
      have hanswer := SemaphoreImpl.acquire_answered hwait
      obtain ⟨hmode, hasserted⟩ := s.impl.acquire_keeps hwait
      obtain ⟨hinv, hevent⟩ := h.request hr (SemaphoreImpl.acquire_requested hcount hwait)
        (h.mode ▸ hanswer) hmode hasserted
      exact ⟨⟨hinv.counts, hinv.mode, hinv.asserted⟩, hevent⟩
  | asyncAcquire r =>
      obtain ⟨hr, rfl⟩ := guard_iff.mp hstep
      obtain ⟨hmode, hasserted⟩ := s.impl.asyncAcquire_keeps r
      exact h.request hr (SemaphoreImpl.asyncAcquire_requested hcount)
        SemaphoreImpl.asyncAcquire_answered hmode hasserted
  | release =>
      obtain rfl := by simpa only [step, Option.some.injEq] using hstep
      obtain ⟨hcounts, hevent⟩ := h.counts.release s.impl.release_released
      obtain ⟨hmode, hasserted⟩ := s.impl.release_keeps hcount
      exact ⟨⟨hcounts, hmode.trans h.mode, by simp [Run.release, h.asserted, hasserted]⟩, hevent⟩
  | cancel r =>
      obtain ⟨⟨hr, -⟩, rfl⟩ := guard_iff.mp hstep
      obtain ⟨hcounts, hevent⟩ := h.counts.cancel hr
      exact ⟨⟨hcounts, h.mode, h.asserted⟩, hevent⟩

/-- What the run labelled `ls` says about a semaphore that started with `initial` permits, in the
state `s` that it leads to. `order`: waiters are granted in the order in which they were queued, the
cancelled ones left out. `cancelled`: nobody is granted who was cancelled. `no_overtaking`: a
request made while `w` waits is not granted before `w` was granted or cancelled. `refines`: the run
is one of the abstract permit counter, event by event. -/
structure Accounting (enabled : Bool) (initial : Int) (ls : List (Label ι)) (s : Run ι) : Prop where
  count_nonneg : 0 ≤ s.impl.count
  count_of_waiting : s.impl.waiters ≠ [] → s.impl.count = 0
  balance : initial + s.history.given = s.impl.count + s.history.granted.length
  value : s.impl.value =
    initial + s.history.given - s.history.granted.length - s.impl.waiters.length
  asserted : s.asserted = true
  order : s.history.arrived.filter (· ∉ s.history.dropped) = s.history.served ++ s.impl.waiters
  cancelled : ∀ r, .cancel r ∈ ls →
    r ∈ s.history.dropped ∧ r ∉ s.history.granted ∧ r ∉ s.impl.waiters
  no_overtaking : ∀ w ∈ s.impl.waiters, ∀ r ∉ s.history.issued, ∀ more t l u,
    run step s more = some t → step t l = some u →
      r ∉ t.history.granted → r ∈ u.history.granted →
        w ∈ t.history.served ∨ w ∈ t.history.dropped
  refines : run PermitQueue.step (.init initial) (ls.map (Label.event enabled)) = some s.queue

/-- **The semaphore keeps account of its permits**, in every state of every run. -/
theorem permit_accounting {enabled : Bool} {initial : Int} (hinitial : 0 ≤ initial)
    {ls : List (Label ι)} {s : Run ι} (hrun : run step (Run.init enabled initial) ls = some s) :
    Accounting enabled initial ls s := by
  obtain ⟨h, hrefines⟩ := (step_refines enabled initial).run (.init hinitial) hrun
  rw [List.filterMap_eq_map'] at hrefines
  have hok := h.counts.ok
  have hbalance : initial + s.history.given = s.impl.count + s.history.granted.length :=
    hok.balance
  refine ⟨h.count_nonneg, hok.free_of_line, hbalance, ?_, h.asserted, hok.order, ?_, ?_, hrefines⟩
  · rw [SemaphoreImpl.value_eq]
    omega
  · intro r hr
    have hdrop : .drop r ∈ ls.map (Label.event enabled) := List.mem_map.mpr ⟨.cancel r, hr, rfl⟩
    exact not_granted_of_drop (Ok.init hinitial) hrefines hdrop
  · intro w hw r hr more t l u hmore hl hbefore hafter
    exact (step_refines enabled initial).no_overtaking (fun _ ha => ha.counts.ok) h hmore hl hw
      (fun hmem => hr (h.counts.issued r hmem)) hbefore hafter

/-- A run through every kind of step, in which `1` and then `3` are granted and `2` is cancelled. -/
theorem permit_accounting_cancelled :
    ∃ (ls : List (Label Nat)) (s : Run Nat), .cancel 2 ∈ ls ∧ s.history.granted = [0, 1, 3] ∧
      s.impl.value = 1 ∧ Accounting true 1 ls s :=
  have hrun : run step (Run.init true 1) [.tryAcquire 0, .acquire 1, .asyncAcquire 2,
      .asyncAcquire 3, .tryAcquire 4, .cancel 2, .release, .release, .release] =
        some (_ : Run Nat) := rfl
  ⟨_, _, by decide, rfl, rfl, permit_accounting (by decide) hrun⟩

end Semaphore

end Sam
