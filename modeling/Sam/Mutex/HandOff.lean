import Sam.Detail.MutexImpl
import Sam.Detail.History

/-!
# The mutex is a first-come-first-served hand-off lock

Runs of `basic_mutex` in which every step is one critical section. A request is a value of `ι`; the
op it may queue carries the same value. `Run.queue` reads the lock flag as one permit that is free
or not, and `step_refines` shows that every critical section is the event of the abstract permit
counter that its label names (`Label.event`). `hand_off` collects what follows for every run:
exclusion, the order of the grants, that nobody is granted the lock who was cancelled, and that a
blocked `lock` returns only after the lock was handed to it. -/

namespace Sam

open PermitQueue Transition

universe u

namespace MutexImpl

variable {ι : Type u} {m : MutexImpl ι} {op : ι}

/-- The permits of a mutex: one while it is free. -/
def permits (m : MutexImpl ι) : Int := if m.locked then 0 else 1

@[simp] theorem permits_of_locked (h : m.locked = true) : m.permits = 0 := by simp [permits, h]

@[simp] theorem permits_of_free (h : m.locked = false) : m.permits = 1 := by simp [permits, h]

/-- The mutex is locked exactly when no permit is free. -/
theorem locked_iff : m.locked = true ↔ m.permits = 0 := by
  cases h : m.locked <;> simp [permits, h]

/-- `try_lock` is a request that does not wait. -/
theorem tryLock_requested :
    Requested m.permits m.waiters op m.tryLock.outcome m.tryLock.state.permits
      m.tryLock.state.waiters := by
  cases hlocked : m.locked
  · have hgranted : Requested 1 m.waiters op .granted (1 - 1) m.waiters := .granted Int.one_pos
    simpa [tryLock, permits, hlocked] using hgranted
  · simpa [tryLock, permits, hlocked] using Requested.refused

/-- `try_lock` is granted a free lock and never queued. -/
theorem tryLock_answered : Answered m.permits false m.tryLock.outcome := by
  cases hlocked : m.locked <;> simp [Answered, tryLock, permits, hlocked]

/-- `async_lock_op` is a request that waits in the queue. -/
theorem asyncLock_requested :
    Requested m.permits m.waiters op (m.asyncLock op).outcome (m.asyncLock op).state.permits
      (m.asyncLock op).state.waiters := by
  cases hlocked : m.locked
  · simpa [asyncLock, permits, hlocked] using
      Requested.granted (r := op) (show (0 : Int) < 1 by decide)
  · simpa [asyncLock, addWaiter, permits, hlocked] using Requested.queued (r := op) rfl

/-- `async_lock_op` is granted a free lock and queued if it is taken. -/
theorem asyncLock_answered : Answered m.permits true (m.asyncLock op).outcome := by
  cases hlocked : m.locked <;> simp [Answered, asyncLock, permits, hlocked]

/-- `try_lock` has two ways out of its section. -/
theorem tryLock_cases : m.tryLock.state.enabled = m.enabled ∧
    (m.tryLock.outcome = .granted ∨ m.tryLock.outcome = .refused) := by
  cases hlocked : m.locked <;> simp [tryLock, hlocked]

/-- `async_lock_op` has two ways out of its section. -/
theorem asyncLock_cases (op : ι) : (m.asyncLock op).state.enabled = m.enabled ∧
    ((m.asyncLock op).outcome = .granted ∨ (m.asyncLock op).outcome = .queued) := by
  cases hlocked : m.locked <;> simp [asyncLock, addWaiter, hlocked]

variable [DecidableEq ι]

/-- `lock` is a request that waits in the queue, or fails in single-threaded mode. -/
theorem lock_requested (hop : op ∉ m.waiters) :
    Requested m.permits m.waiters op (m.lock op).outcome (m.lock op).state.permits
      (m.lock op).state.waiters := by
  cases hlocked : m.locked
  · rw [lock_of_free hop hlocked]
    simpa [permits, hlocked] using Requested.granted (r := op) (show (0 : Int) < 1 by decide)
  · rw [lock_of_locked hlocked]
    cases m.enabled
    · exact Requested.failed .inProgress
    · simpa [addWaiter, permits, hlocked] using Requested.queued (r := op) rfl

/-- `lock` is granted a free lock; if it is taken, `lock` is queued in multi-threaded mode. -/
theorem lock_answered (hop : op ∉ m.waiters) :
    Answered m.permits m.enabled (m.lock op).outcome := by
  cases hlocked : m.locked
  · simp [Answered, lock_of_free hop hlocked, permits, hlocked]
  · cases henabled : m.enabled <;>
      simp [Answered, lock_of_locked hlocked, henabled, permits, hlocked]

/-- `lock` has three ways out of its section. -/
theorem lock_cases (hop : op ∉ m.waiters) : (m.lock op).state.enabled = m.enabled ∧
    ((m.lock op).outcome = .granted ∨ (m.lock op).outcome = .queued ∨
      (m.lock op).outcome = .failed .inProgress) := by
  cases hlocked : m.locked with
  | false => simp [lock_of_free hop hlocked]
  | true => cases hmode : m.enabled <;> simp [lock_of_locked hlocked, hmode, addWaiter]

/-- `unlock` keeps the mode. -/
theorem unlock_enabled : m.unlock.state.enabled = m.enabled := by
  cases hwaiters : m.waiters <;> simp [unlock, unlink, hwaiters]

/-- `unlock` of a locked mutex gives its permit back. -/
theorem unlock_released (hlocked : m.locked = true) :
    Released m.permits m.waiters m.unlock.completed m.unlock.state.permits
      m.unlock.state.waiters := by
  cases hwaiters : m.waiters with
  | nil =>
      have hfreed : Released (0 : Int) ([] : List ι) [] 1 [] := Released.freed
      simpa [unlock, permits, hlocked, hwaiters] using hfreed
  | cons w rest => simpa [unlock, unlink, permits, hlocked, hwaiters] using Released.handed w rest

end MutexImpl

namespace Mutex

/-- The mutex, the history of its requests and who holds it. `blocked` are the calls of `lock` that
wait on their op, `done` the ops of such calls that were completed, with the error code they got,
and `returned` what the calls returned after waiting. -/
structure Run (ι : Type u) where
  impl : MutexImpl ι
  history : History ι
  holders : List ι
  blocked : List ι
  done : List (ι × ErrorCode)
  returned : List (ι × ErrorCode)
  deriving DecidableEq, Repr

/-- The critical sections of a run. `resume` is a wake-up, spurious or not, of a blocked `lock`. -/
inductive Label (ι : Type u) where
  | tryLock (request : ι)
  | lock (request : ι)
  | asyncLock (request : ι)
  | unlock (holder : ι)
  | cancel (request : ι)
  | resume (request : ι)
  deriving DecidableEq, Repr

variable {ι : Type u} [DecidableEq ι]

namespace Run

/-- A new mutex that nobody has used. -/
def init (enabled : Bool) : Run ι := ⟨.init enabled, .empty, [], [], [], []⟩

/-- A call asked for the lock and left this result. -/
def request (s : Run ι) (r : ι) (result : Result (MutexImpl ι) ι) : Run ι :=
  { s with
    impl := result.state
    history := s.history.request r result.outcome
    holders := if result.outcome = .granted then s.holders ++ [r] else s.holders }

/-- The call waits if its op was queued. -/
def block (s : Run ι) (r : ι) (outcome : Outcome) : Run ι :=
  { s with blocked := if outcome = .queued then s.blocked ++ [r] else s.blocked }

/-- The holder `r` left this result when it unlocked the mutex. Completing the op of a blocked call
sets its `done` flag and its error code. -/
def release (s : Run ι) (r : ι) (result : Result (MutexImpl ι) ι) : Run ι :=
  { s with
    impl := result.state
    history := s.history.release result.completed
    holders := s.holders.erase r ++ result.completed
    done := s.done ++ (result.completed.filter (· ∈ s.blocked)).map (·, .success) }

/-- The cancellation handler of the queued op `r` completed it with `operation_aborted`. -/
def cancel (s : Run ι) (r : ι) : Run ι :=
  { s with impl := s.impl.unlink r, history := s.history.cancel r }

/-- A blocked call tests the `done` flag of its op: it returns the op's error code or waits on. -/
def resume (s : Run ι) (r : ι) : Run ι :=
  match s.done.find? (·.1 = r) with
  | some (_, ec) => { s with blocked := s.blocked.erase r, returned := s.returned ++ [(r, ec)] }
  | none => s

/-- The lock flag and the waiters as a permit counter. -/
def queue (s : Run ι) : PermitQueue.State ι := s.history.queue s.impl.permits s.impl.waiters

end Run

/-- One critical section. Requests are new; only a holder unlocks; only a queued asynchronous
operation is cancelled. -/
def step (s : Run ι) : Label ι → Option (Run ι)
  | .tryLock r =>
      if r ∉ s.history.issued then some (s.request r s.impl.tryLock) else none
  | .lock r =>
      if r ∉ s.history.issued then
        some ((s.request r (s.impl.lock r)).block r (s.impl.lock r).outcome)
      else none
  | .asyncLock r =>
      if r ∉ s.history.issued then some (s.request r (s.impl.asyncLock r)) else none
  | .unlock r => if r ∈ s.holders then some (s.release r s.impl.unlock) else none
  | .cancel r =>
      if r ∈ s.impl.waiters ∧ r ∉ s.blocked then some (s.cancel r) else none
  | .resume r => if r ∈ s.blocked then some (s.resume r) else none

/-- What this critical section is to a permit counter, by the mode: a wake-up is nothing to it. Only
in multi-threaded mode does `lock` wait. -/
def Label.event (enabled : Bool) : Label ι → Option (Event ι)
  | .tryLock r => some (.ask false r)
  | .lock r => some (.ask enabled r)
  | .asyncLock r => some (.ask true r)
  | .unlock _ => some .give
  | .cancel r => some (.drop r)
  | .resume _ => none

/-- What every critical section keeps. `outstanding` counts the grants that were not released. -/
structure Inv (enabled : Bool) (s : Run ι) : Prop where
  counts : s.history.Counts 1 s.impl.permits s.impl.waiters
  mode : s.impl.enabled = enabled
  outstanding : s.holders.length + s.history.given = s.history.granted.length
  held : ∀ r ∈ s.holders, r ∈ s.history.granted
  woken : ∀ p ∈ s.done, p.1 ∈ s.history.served
  returned : ∀ p ∈ s.returned, p ∈ s.done

namespace Inv

variable {enabled : Bool} {s : Run ι} {r : ι}

/-- The invariant holds at the start. -/
theorem init (enabled : Bool) : Inv enabled (Run.init enabled : Run ι) where
  counts := .empty (by decide)
  mode := rfl
  outstanding := rfl
  held r hr := by simp [Run.init] at hr
  woken p hp := by simp [Run.init] at hp
  returned p hp := by simp [Run.init] at hp

/-- The free permit and the outstanding grants make one. -/
theorem one_permit (h : Inv enabled s) : s.impl.permits + s.holders.length = 1 := by
  have hbalance : (1 : Int) + s.history.given = s.impl.permits + s.history.granted.length :=
    h.counts.ok.balance
  have houtstanding := h.outstanding
  omega

/-- A mutex with a holder is locked. -/
theorem locked_of_holder (h : Inv enabled s) (hr : r ∈ s.holders) : s.impl.locked = true := by
  have hone := h.one_permit
  have hpos := List.length_pos_of_mem hr
  have hfree : 0 ≤ s.impl.permits := h.counts.ok.free_nonneg
  exact MutexImpl.locked_iff.mpr (by omega)

/-- A request keeps the invariant and is one event of the counter. -/
theorem request (h : Inv enabled s) (hr : r ∉ s.history.issued) {result : Result (MutexImpl ι) ι}
    {waits : Bool}
    (hreq : Requested s.impl.permits s.impl.waiters r result.outcome result.state.permits
      result.state.waiters) (hanswer : Answered s.impl.permits waits result.outcome)
    (hmode : result.state.enabled = s.impl.enabled) :
    Inv enabled (s.request r result) ∧
      PermitQueue.step s.queue (.ask waits r) = some (s.request r result).queue := by
  obtain ⟨hcounts, hevent⟩ := h.counts.request hr hreq hanswer
  have hserved : (s.history.request r result.outcome).served = s.history.served := by
    cases result.outcome <;> rfl
  refine ⟨⟨hcounts, hmode.trans h.mode, ?_, ?_, fun p hp => ?_, h.returned⟩, hevent⟩
  · have houtstanding := h.outstanding
    cases ho : result.outcome <;>
      simp only [Run.request, History.request, History.granted, ho, List.length_append,
        List.length_cons, List.length_nil, if_true, reduceCtorEq, if_false] at houtstanding ⊢ <;>
      omega
  · intro q hq
    have hheld := h.held q
    cases ho : result.outcome <;>
      simp only [Run.request, History.request, History.granted, ho, List.mem_append, if_true,
        reduceCtorEq, if_false] at hq hheld ⊢ <;>
      tauto
  · show p.1 ∈ (s.history.request r result.outcome).served
    exact hserved.symm ▸ h.woken p hp

/-- An unlock by a holder keeps the invariant and is one event of the counter. -/
theorem release (h : Inv enabled s) (hr : r ∈ s.holders) :
    Inv enabled (s.release r s.impl.unlock) ∧
      PermitQueue.step s.queue .give = some (s.release r s.impl.unlock).queue := by
  have hrel := MutexImpl.unlock_released (h.locked_of_holder hr)
  obtain ⟨hcounts, hevent⟩ := h.counts.release hrel
  have hmode : s.impl.unlock.state.enabled = s.impl.enabled :=
    MutexImpl.unlock_enabled
  refine ⟨⟨hcounts, hmode.trans h.mode, ?_, ?_, ?_, ?_⟩, hevent⟩
  · have houtstanding := h.outstanding
    have herase := List.length_erase_of_mem hr
    have hpos := List.length_pos_of_mem hr
    simp only [Run.release, History.release, History.granted, List.length_append] at houtstanding ⊢
    omega
  · intro q hq
    show q ∈ s.history.admitted ++ (s.history.served ++ s.impl.unlock.completed)
    rw [← List.append_assoc]
    rcases List.mem_append.mp hq with hq | hq
    · exact List.mem_append_left _ (h.held q (List.mem_of_mem_erase hq))
    · exact List.mem_append_right _ hq
  · intro p hp
    rcases List.mem_append.mp hp with hp | hp
    · exact List.mem_append_left _ (h.woken p hp)
    · obtain ⟨q, hq, rfl⟩ := List.mem_map.mp hp
      exact List.mem_append_right _ (List.mem_of_mem_filter hq)
  · exact fun p hp => List.mem_append_left _ (h.returned p hp)

/-- A wake-up keeps the invariant and does not touch the lock. -/
theorem resume (h : Inv enabled s) :
    Inv enabled (s.resume r) ∧ (s.resume r).queue = s.queue := by
  unfold Run.resume
  split
  · rename_i q ec hfind
    have hq : q = r := by simpa using List.find?_some hfind
    refine ⟨⟨h.counts, h.mode, h.outstanding, h.held, h.woken, fun p hp => ?_⟩, rfl⟩
    rcases List.mem_append.mp hp with hp | hp
    · exact h.returned p hp
    · rw [List.mem_singleton.mp hp, ← hq]
      exact List.mem_of_find?_eq_some hfind
  · exact ⟨h, rfl⟩

end Inv

/-- **Refinement.** Every critical section is the event of the permit counter that it names. -/
theorem step_refines (enabled : Bool) :
    Refines (step (ι := ι)) (Inv enabled) Run.queue (Label.event enabled) := by
  intro s l t h hstep
  cases l with
  | tryLock r =>
      obtain ⟨hr, rfl⟩ := guard_iff.mp hstep
      exact h.request hr MutexImpl.tryLock_requested MutexImpl.tryLock_answered
        MutexImpl.tryLock_cases.1
  | lock r =>
      obtain ⟨hr, rfl⟩ := guard_iff.mp hstep
      have hwait : r ∉ s.impl.waiters := fun hmem => hr (h.counts.issued_of_waiting hmem)
      have hanswer := MutexImpl.lock_answered hwait
      obtain ⟨hinv, hevent⟩ := h.request hr (MutexImpl.lock_requested hwait) (h.mode ▸ hanswer)
        (MutexImpl.lock_cases hwait).1
      exact ⟨⟨hinv.counts, hinv.mode, hinv.outstanding, hinv.held, hinv.woken, hinv.returned⟩,
        hevent⟩
  | asyncLock r =>
      obtain ⟨hr, rfl⟩ := guard_iff.mp hstep
      exact h.request hr MutexImpl.asyncLock_requested MutexImpl.asyncLock_answered
        (MutexImpl.asyncLock_cases r).1
  | unlock r =>
      obtain ⟨hr, rfl⟩ := guard_iff.mp hstep
      exact h.release hr
  | cancel r =>
      obtain ⟨⟨hr, -⟩, rfl⟩ := guard_iff.mp hstep
      obtain ⟨hcounts, hevent⟩ := h.counts.cancel hr
      exact ⟨⟨hcounts, h.mode, h.outstanding, h.held, h.woken, h.returned⟩, hevent⟩
  | resume r =>
      obtain ⟨-, rfl⟩ := guard_iff.mp hstep
      exact h.resume

/-- What the run labelled `ls` says about the lock, in the state `s` that it leads to. `order`: the
lock is handed to the waiters in the order in which they were queued, the cancelled ones left out.
`cancelled`: nobody is granted the lock who was cancelled. `no_overtaking`: a request made while `w`
waits is not granted before `w` was served or cancelled. `refines`: the run is one of the abstract
lock with one permit, event by event. -/
structure HandOff (enabled : Bool) (ls : List (Label ι)) (s : Run ι) : Prop where
  locked_iff : s.impl.locked = true ↔ s.holders.length = 1
  at_most_one : s.holders.length ≤ 1
  outstanding : s.holders.length + s.history.given = s.history.granted.length
  locked_of_waiting : s.impl.waiters ≠ [] → s.impl.locked = true
  order : s.history.arrived.filter (· ∉ s.history.dropped) = s.history.served ++ s.impl.waiters
  cancelled : ∀ r, .cancel r ∈ ls →
    r ∈ s.history.dropped ∧ r ∉ s.history.granted ∧ r ∉ s.impl.waiters
  no_overtaking : ∀ w ∈ s.impl.waiters, ∀ r ∉ s.history.issued, ∀ more t l u,
    run step s more = some t → step t l = some u →
      r ∉ t.history.granted → r ∈ u.history.granted →
        w ∈ t.history.served ∨ w ∈ t.history.dropped
  returned : ∀ r, (r, ErrorCode.success) ∈ s.returned → r ∈ s.history.served
  refines : run PermitQueue.step (.init 1) (ls.filterMap (Label.event enabled)) = some s.queue

/-- The invariant gives the exclusion of the hand-off lock. -/
theorem Inv.exclusion {enabled : Bool} {s : Run ι} (h : Inv enabled s) :
    (s.impl.locked = true ↔ s.holders.length = 1) ∧ s.holders.length ≤ 1 ∧
      (s.impl.waiters ≠ [] → s.impl.locked = true) := by
  have hone := h.one_permit
  have hfree : 0 ≤ s.impl.permits := h.counts.ok.free_nonneg
  refine ⟨MutexImpl.locked_iff.trans (by omega), by omega, fun hwaiting => ?_⟩
  exact MutexImpl.locked_iff.mpr (h.counts.ok.free_of_line hwaiting)

/-- **The mutex hands the lock on first come, first served**, in every state of every run. -/
theorem hand_off {enabled : Bool} {ls : List (Label ι)} {s : Run ι}
    (hrun : run step (Run.init enabled) ls = some s) : HandOff enabled ls s := by
  obtain ⟨h, hrefines⟩ := (step_refines enabled).run (Inv.init enabled) hrun
  obtain ⟨hlocked, hone, hwaiting⟩ := h.exclusion
  refine ⟨hlocked, hone, h.outstanding, hwaiting, h.counts.ok.order, ?_, ?_, ?_, hrefines⟩
  · intro r hr
    have hdrop : .drop r ∈ ls.filterMap (Label.event enabled) :=
      List.mem_filterMap.mpr ⟨.cancel r, hr, rfl⟩
    exact not_granted_of_drop (Ok.init Int.one_nonneg) hrefines hdrop
  · intro w hw r hr more t l u hmore hl hbefore hafter
    exact (step_refines enabled).no_overtaking (fun _ ha => ha.counts.ok) h hmore hl hw
      (fun hmem => hr (h.counts.issued r hmem)) hbefore hafter
  · exact fun r hr => h.woken _ (h.returned _ hr)

/-- A run through every kind of step: `2` blocks, `3` is cancelled, and `2` returns with the lock
that `0` handed to it. -/
theorem hand_off_to_blocked :
    ∃ (ls : List (Label Nat)) (s : Run Nat), .cancel 3 ∈ ls ∧ s.holders = [2] ∧
      s.returned = [(2, .success)] ∧ HandOff true ls s :=
  have hrun : run step (Run.init true) [.tryLock 0, .tryLock 1, .lock 2, .asyncLock 3, .resume 2,
      .cancel 3, .unlock 0, .resume 2] = some (_ : Run Nat) := rfl
  ⟨_, _, by decide, rfl, rfl, hand_off hrun⟩

end Mutex

end Sam
