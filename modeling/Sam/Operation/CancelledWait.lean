import Sam.Operation.Withdrawal

/-!
# A cancelled wait leaves no trace

For the mutex, the shared mutex and the semaphore, unlinking a queued op retracts its request: a
call that looks at the op at all completes it. `leaves_no_trace` is what follows for runs: deleting
the request and the cancellation of an op changes nothing for anybody else.
-/

namespace Sam

universe u

variable {ι : Type u} [DecidableEq ι]

/-- Taking another op out of a list before or after one is queued. -/
theorem erase_concat {ops : List (Op ι)} {op q : Op ι} (h : q ≠ op) :
    ops.erase op ++ [q] = (ops ++ [q]).erase op := by
  by_cases hop : op ∈ ops
  · rw [List.erase_append_left _ hop]
  · have hq : op ∉ [q] := fun hmem => h (List.mem_singleton.mp hmem).symm
    rw [List.erase_of_not_mem hop, List.erase_of_not_mem (by simpa [hop] using hq)]

/-- Queueing an op and taking it out again. -/
theorem concat_erase {ops : List (Op ι)} {op : Op ι} (h : op ∉ ops) :
    (ops ++ [op]).erase op = ops := by
  rw [List.erase_append_right _ h]
  simp

/-- Without its first op, a list that keeps its head. -/
theorem erase_cons_tail {ops rest : List (Op ι)} {op q : Op ι} (h : ops = q :: rest) (hq : q ≠ op) :
    ops.erase op = q :: rest.erase op := by
  rw [h, List.erase_cons_tail (by simpa using hq)]

namespace MutexImpl

open Withdrawal

/-- A call on a mutex does not see a waiter that it does not complete. -/
theorem Call.run_unlink {m : MutexImpl (Op ι)} {op : Op ι} {c : Call ι} (hop : op ∈ m.waiters)
    (hnew : ∀ q ∈ c.request, q ∉ m.waiters) (hdone : op ∉ (c.run m).completed) :
    c.run (m.unlink op) = { c.run m with state := (c.run m).state.unlink op } := by
  have hne : ∀ q ∈ c.request, q ≠ op := fun q hq he => hnew q hq (he ▸ hop)
  cases c with
  | tryLock => cases hlocked : m.locked <;> simp [run, MutexImpl.tryLock, unlink, hlocked]
  | asyncLock id slot =>
      cases hlocked : m.locked <;>
        simp [run, MutexImpl.asyncLock, addWaiter, unlink, hlocked, erase_concat (hne _ rfl)]
  | lock id =>
      have hnew' : Op.blocking id ∉ (m.unlink op).waiters :=
        fun hmem => hnew _ rfl (List.mem_of_mem_erase hmem)
      cases hlocked : m.locked with
      | false =>
          have hfree : (m.unlink op).locked = false := hlocked
          rw [run, run, lock_of_free (hnew _ rfl) hlocked, lock_of_free hnew' hfree]
          rfl
      | true =>
          have htaken : (m.unlink op).locked = true := hlocked
          rw [run, run, lock_of_locked hlocked, lock_of_locked htaken]
          cases hmode : m.enabled <;>
            simp [addWaiter, unlink, hmode, erase_concat (hne _ rfl)]
  | unlock =>
      cases hwaiters : m.waiters with
      | nil => simp [hwaiters] at hop
      | cons w rest =>
          have hw : w ≠ op := by
            rintro rfl
            simp [run, MutexImpl.unlock, hwaiters] at hdone
          simp [run, MutexImpl.unlock, unlink, hwaiters, hw]

/-- A request that waits only queues its op. -/
theorem Call.run_queued {m : MutexImpl (Op ι)} {op : Op ι} {c : Call ι}
    (hreq : c.request = some op) (hop : op ∉ m.waiters) (hqueued : (c.run m).outcome = .queued) :
    (c.run m).state = m.addWaiter op := by
  cases c with
  | lock id =>
      obtain rfl := Option.some.inj hreq
      cases hlocked : m.locked with
      | false => simp [run, lock_of_free hop hlocked] at hqueued
      | true =>
          cases hmode : m.enabled <;> simp_all [run, lock_of_locked]
  | asyncLock id slot =>
      obtain rfl := Option.some.inj hreq
      cases hlocked : m.locked <;> simp_all [run, MutexImpl.asyncLock]
  | tryLock => cases hreq
  | unlock => cases hreq

/-- Unlinking a waiter of a mutex retracts its request. -/
def retraction : Retraction (primitive (ι := ι)) where
  retract := unlink
  Valid _ := True
  valid_call _ _ _ := trivial
  valid_unlink _ _ _ := trivial
  request m c op _ hreq hop hqueued := by
    have hwaiters : op ∉ m.waiters := by simpa [Primitive.queued, primitive] using hop
    have hstate := Call.run_queued hreq hwaiters hqueued
    show (Call.run m c).state.unlink op = m
    rw [hstate, unlink_addWaiter hwaiters]
  call m c op _ _ hop hnew hdone := by
    have hwaiters : op ∈ m.waiters := by simpa [Primitive.queued, primitive] using hop
    exact Call.run_unlink hwaiters (by simpa [Primitive.queued, primitive] using hnew) hdone
  unlink m op q := by simp [primitive, unlink, List.erase_comm]
  mem_queued m op q hne hq := by
    have hwaiters : q ∈ m.waiters := by simpa [Primitive.queued, primitive] using hq
    simpa [Primitive.queued, primitive, unlink] using (List.mem_erase_of_ne hne).mpr hwaiters

end MutexImpl

namespace SharedMutexImpl

open Withdrawal

variable {m : SharedMutexImpl (Op ι)} {op q : Op ι}

theorem unlink_locked : (m.unlink op).locked = m.locked := rfl

theorem unlink_lockedShared : (m.unlink op).lockedShared = m.lockedShared := rfl

theorem unlink_enabled : (m.unlink op).enabled = m.enabled := rfl

/-- Queueing an op and taking another one out, in either order. -/
theorem addWaiter_unlink (h : q ≠ op) : (m.unlink op).addWaiter q = (m.addWaiter q).unlink op := by
  simp [addWaiter, MutexImpl.addWaiter, unlink, erase_concat h]

/-- Queueing a shared op and taking another one out, in either order. -/
theorem addSharedWaiter_unlink (h : q ≠ op) :
    (m.unlink op).addSharedWaiter q = (m.addSharedWaiter q).unlink op := by
  simp [addSharedWaiter, unlink, erase_concat h]

/-- `unlock` does not see a waiter that it does not complete. -/
theorem unlock_unlink (hnodup : (m.waiters ++ m.sharedWaiters).Nodup)
    (hop : op ∈ m.waiters ++ m.sharedWaiters) (hdone : op ∉ m.unlock.completed) :
    (m.unlink op).unlock = { m.unlock with state := m.unlock.state.unlink op } := by
  by_cases hshared : m.sharedWaiters = []
  · have hshared' : (m.unlink op).sharedWaiters = [] := by simp [unlink, hshared]
    cases hwaiters : m.waiters with
    | nil => simp [hshared, hwaiters] at hop
    | cons w rest =>
        rw [unlock_of_waiter hshared hwaiters] at hdone ⊢
        have hw : w ≠ op := fun he => hdone (by simp [he])
        have hwaiters' : (m.unlink op).waiters = w :: rest.erase op := erase_cons_tail hwaiters hw
        rw [unlock_of_waiter hshared' hwaiters']
        simp [unlink]
  · -- all shared waiters are completed, so the op is an exclusive one
    rw [unlock_of_shared hnodup hshared] at hdone ⊢
    have hsame : (m.unlink op).sharedWaiters = m.sharedWaiters := List.erase_of_not_mem hdone
    have hnodup' : ((m.unlink op).waiters ++ (m.unlink op).sharedWaiters).Nodup :=
      hnodup.sublist (List.erase_sublist.append List.erase_sublist)
    rw [unlock_of_shared hnodup' (by rwa [hsame]), hsame]
    simp [unlink]

/-- `unlock_shared` does not see a waiter that it does not complete. -/
theorem unlockShared_unlink (hdone : op ∉ m.unlockShared.completed) :
    (m.unlink op).unlockShared =
      { m.unlockShared with state := m.unlockShared.state.unlink op } := by
  rw [unlockShared_eq] at hdone
  rw [unlockShared_eq, unlockShared_eq, unlink_lockedShared]
  by_cases hlast : m.lockedShared ≤ 1
  · simp only [if_pos hlast] at hdone ⊢
    cases hwaiters : m.waiters with
    | nil => simp [unlink, hwaiters]
    | cons w rest =>
        have hw : w ≠ op := fun he => hdone (by simp [hwaiters, he])
        simp [unlink, hwaiters, hw, List.erase_comm]
  · simp only [if_neg hlast]
    rfl

/-- A call on a shared mutex does not see a waiter that it does not complete. -/
theorem Call.run_unlink {c : Call ι} (hnodup : (m.waiters ++ m.sharedWaiters).Nodup)
    (hop : op ∈ m.waiters ++ m.sharedWaiters)
    (hnew : ∀ q ∈ c.request, q ∉ m.waiters ++ m.sharedWaiters)
    (hdone : op ∉ (c.run m).completed) :
    c.run (m.unlink op) = { c.run m with state := (c.run m).state.unlink op } := by
  have hne : ∀ q ∈ c.request, q ≠ op := fun q hq he => hnew q hq (he ▸ hop)
  have hnew' : ∀ q ∈ c.request, q ∉ (m.unlink op).waiters ++ (m.unlink op).sharedWaiters :=
    fun q hq hmem => hnew q hq ((List.erase_sublist.append List.erase_sublist).subset hmem)
  cases c with
  | tryLock =>
      simp only [run, SharedMutexImpl.tryLock]
      rw [unlink_locked, unlink_lockedShared]
      split <;> rfl
  | tryLockShared =>
      simp only [run, SharedMutexImpl.tryLockShared]
      rw [unlink_locked]
      split <;> rfl
  | asyncLock id slot =>
      simp only [run, SharedMutexImpl.asyncLock, addWaiter_unlink (hne _ rfl)]
      rw [unlink_locked, unlink_lockedShared]
      split <;> rfl
  | asyncLockShared id slot =>
      simp only [run, SharedMutexImpl.asyncLockShared, addSharedWaiter_unlink (hne _ rfl)]
      rw [unlink_locked]
      split <;> rfl
  | lock id =>
      by_cases htaken : m.locked = true ∨ 0 < m.lockedShared
      · have htaken' : (m.unlink op).locked = true ∨ 0 < (m.unlink op).lockedShared := htaken
        rw [run, run, lock_of_taken htaken, lock_of_taken htaken', addWaiter_unlink (hne _ rfl),
          unlink_enabled]
        split <;> rfl
      · have hfree : m.locked = false ∧ m.lockedShared = 0 := by simpa using htaken
        have hfree' : (m.unlink op).locked = false ∧ (m.unlink op).lockedShared = 0 := hfree
        rw [run, run, lock_of_free (hnew _ rfl) hfree.1 hfree.2,
          lock_of_free (hnew' _ rfl) hfree'.1 hfree'.2]
        rfl
  | lockShared id =>
      cases hlocked : m.locked with
      | false =>
          have hfree : (m.unlink op).locked = false := hlocked
          rw [run, run, lockShared_of_free (hnew _ rfl) hlocked,
            lockShared_of_free (hnew' _ rfl) hfree]
          rfl
      | true =>
          have htaken : (m.unlink op).locked = true := hlocked
          rw [run, run, lockShared_of_locked hlocked, lockShared_of_locked htaken,
            addWaiter_unlink (hne _ rfl), unlink_enabled]
          split <;> rfl
  | unlock => exact unlock_unlink hnodup hop hdone
  | unlockShared => exact unlockShared_unlink hdone

/-- A request that waits only queues its op, in either list. -/
theorem Call.run_queued {c : Call ι} (hreq : c.request = some op)
    (hop : op ∉ m.waiters ++ m.sharedWaiters) (hqueued : (c.run m).outcome = .queued) :
    (c.run m).state = m.addWaiter op ∨ (c.run m).state = m.addSharedWaiter op := by
  cases c with
  | lock id =>
      obtain rfl := Option.some.inj hreq
      by_cases htaken : m.locked = true ∨ 0 < m.lockedShared
      · cases hmode : m.enabled <;> simp_all [run, lock_of_taken htaken]
      · have hfree : m.locked = false ∧ m.lockedShared = 0 := by simpa using htaken
        simp [run, lock_of_free hop hfree.1 hfree.2] at hqueued
  | asyncLock id slot =>
      obtain rfl := Option.some.inj hreq
      simp only [run, SharedMutexImpl.asyncLock] at hqueued ⊢
      split at hqueued
      · cases hqueued
      · rename_i htaken
        exact Or.inl (by rw [if_neg htaken])
  | lockShared id =>
      obtain rfl := Option.some.inj hreq
      cases hlocked : m.locked with
      | false => simp [run, lockShared_of_free hop hlocked] at hqueued
      | true => cases hmode : m.enabled <;> simp_all [run, lockShared_of_locked hlocked]
  | asyncLockShared id slot =>
      obtain rfl := Option.some.inj hreq
      simp only [run, SharedMutexImpl.asyncLockShared] at hqueued ⊢
      split at hqueued
      · cases hqueued
      · rename_i hlocked
        exact Or.inr (by rw [if_neg hlocked])
  | tryLock | unlock | tryLockShared | unlockShared => cases hreq

/-- Unlinking a waiter of a shared mutex retracts its request. -/
def retraction : Retraction (primitive (ι := ι)) where
  retract := unlink
  Valid _ := True
  valid_call _ _ _ := trivial
  valid_unlink _ _ _ := trivial
  request m c op _ hreq hop hqueued := by
    have hwaiters : op ∉ m.waiters ++ m.sharedWaiters := by
      simpa [Primitive.queued, primitive] using hop
    show (Call.run m c).state.unlink op = m
    rcases Call.run_queued hreq hwaiters hqueued with hstate | hstate <;> rw [hstate]
    · exact unlink_addWaiter hwaiters
    · simp only [List.mem_append, not_or] at hwaiters
      simp only [addSharedWaiter, unlink, List.erase_of_not_mem hwaiters.1,
        concat_erase hwaiters.2]
      rfl
  call m c op _ hnodup hop hnew hdone := by
    have hnodup' : (m.waiters ++ m.sharedWaiters).Nodup := by
      simpa [Primitive.queued, primitive] using hnodup
    have hop' : op ∈ m.waiters ++ m.sharedWaiters := by
      simpa [Primitive.queued, primitive] using hop
    exact Call.run_unlink hnodup' hop' (by simpa [Primitive.queued, primitive] using hnew) hdone
  unlink m op q := by simp [primitive, unlink, List.erase_comm]
  mem_queued m op q hne hq := by
    have hwaiters : q ∈ m.waiters ∨ q ∈ m.sharedWaiters := by
      simpa [Primitive.queued, primitive] using hq
    simpa [Primitive.queued, primitive, unlink, List.mem_erase_of_ne hne] using hwaiters

end SharedMutexImpl

namespace SemaphoreImpl

open Withdrawal

variable {m : SemaphoreImpl (Op ι)} {op : Op ι} {c : Call ι}

/-- A call on a semaphore does not see a waiter that it does not complete. -/
theorem Call.run_unlink (hop : op ∈ m.waiters) (hnew : ∀ q ∈ c.request, q ∉ m.waiters)
    (hdone : op ∉ (c.run m).completed) :
    c.run (m.unlink op) = { c.run m with state := (c.run m).state.unlink op } := by
  have hne : ∀ q ∈ c.request, q ≠ op := fun q hq he => hnew q hq (he ▸ hop)
  have hcount : (m.unlink op).count = m.count := rfl
  cases c with
  | tryAcquire =>
      simp only [run, SemaphoreImpl.tryAcquire, hcount]
      split <;> rfl
  | asyncAcquire id slot =>
      simp only [run, SemaphoreImpl.asyncAcquire, hcount]
      split
      · rfl
      · simp [addWaiter, unlink, erase_concat (hne _ rfl)]
  | acquire id =>
      by_cases hfree : 0 < m.count
      · have hnew' : Op.blocking id ∉ (m.unlink op).waiters :=
          fun hmem => hnew _ rfl (List.mem_of_mem_erase hmem)
        have hfree' : 0 < (m.unlink op).count := hfree
        rw [run, run, acquire_of_free (hnew _ rfl) hfree, acquire_of_free hnew' hfree']
        rfl
      · have hnone : ¬ 0 < (m.unlink op).count := hfree
        rw [run, run, acquire_of_none hfree, acquire_of_none hnone]
        cases hmode : m.enabled <;> simp [addWaiter, unlink, hmode, erase_concat (hne _ rfl)]
  | release =>
      cases hwaiters : m.waiters with
      | nil => simp [hwaiters] at hop
      | cons w rest =>
          have hw : w ≠ op := by
            rintro rfl
            simp [run, SemaphoreImpl.release, hwaiters] at hdone
          simp [run, SemaphoreImpl.release, decrement, unlink, hwaiters, hw]

/-- A request that waits only queues its op. -/
theorem Call.run_queued (hreq : c.request = some op) (hop : op ∉ m.waiters)
    (hqueued : (c.run m).outcome = .queued) : (c.run m).state = m.addWaiter op := by
  cases c with
  | acquire id =>
      obtain rfl := Option.some.inj hreq
      by_cases hfree : 0 < m.count
      · simp [run, acquire_of_free hop hfree] at hqueued
      · cases hmode : m.enabled <;> simp_all [run, acquire_of_none hfree]
  | asyncAcquire id slot =>
      obtain rfl := Option.some.inj hreq
      simp only [run, SemaphoreImpl.asyncAcquire] at hqueued ⊢
      split at hqueued
      · cases hqueued
      · rename_i hnone
        rw [if_neg hnone]
  | tryAcquire | release => cases hreq

/-- Unlinking a waiter of a semaphore retracts its request. -/
def retraction : Retraction (primitive (ι := ι)) where
  retract := unlink
  Valid _ := True
  valid_call _ _ _ := trivial
  valid_unlink _ _ _ := trivial
  request m c op _ hreq hop hqueued := by
    have hwaiters : op ∉ m.waiters := by simpa [Primitive.queued, primitive] using hop
    have hstate := Call.run_queued hreq hwaiters hqueued
    show (Call.run m c).state.unlink op = m
    rw [hstate]
    simp only [addWaiter, unlink, concat_erase hwaiters]
    rfl
  call m c op _ _ hop hnew hdone := by
    have hwaiters : op ∈ m.waiters := by simpa [Primitive.queued, primitive] using hop
    exact Call.run_unlink hwaiters (by simpa [Primitive.queued, primitive] using hnew) hdone
  unlink m op q := by simp [primitive, unlink, List.erase_comm]
  mem_queued m op q hne hq := by
    have hwaiters : q ∈ m.waiters := by simpa [Primitive.queued, primitive] using hq
    simpa [Primitive.queued, primitive, unlink] using (List.mem_erase_of_ne hne).mpr hwaiters

end SemaphoreImpl

namespace Withdrawal

open Transition

/-- **A cancelled wait leaves no trace.** A run in which a request was queued and cancelled is
possible without the request and its cancellation. It ends in the same state, and every other call
and op has the same outcome, in the same order. -/
theorem leaves_no_trace {k : Kind} (hk : k = .mutex ∨ k = .sharedMutex ∨ k = .semaphore)
    {s₀ : (k.primitive ι).State} (hs : (k.primitive ι).queued s₀ = []) {c : (k.primitive ι).Call}
    {op : Op ι} (hreq : (k.primitive ι).request c = some op)
    {before between after : List (Label (k.primitive ι))} {s : Observed (k.primitive ι)}
    (hrun : run step (Observed.init s₀) (before ++ .call c :: between ++ .cancel op :: after) =
      some s) :
    ∃ t, run step (Observed.init s₀) (before ++ between ++ after) = some t ∧
      t.world.impl = s.world.impl ∧ t.trace = others op s.trace := by
  have hretracted : ∃ R : Retraction (k.primitive ι),
      R.retract = (k.primitive ι).unlink ∧ R.Valid s₀ := by
    rcases hk with rfl | rfl | rfl
    · exact ⟨MutexImpl.retraction, rfl, trivial⟩
    · exact ⟨SharedMutexImpl.retraction, rfl, trivial⟩
    · exact ⟨SemaphoreImpl.retraction, rfl, trivial⟩
  obtain ⟨R, hunlink, hvalid⟩ := hretracted
  obtain ⟨t, ht, hforgotten⟩ := forgotten_of_run R hunlink hs hvalid hreq hrun
  exact ⟨t, ht, hforgotten.impl, hforgotten.trace⟩

/-- Two requests wait for a permit, the first one is cancelled, and a permit is released. -/
theorem leaves_no_trace_two :
    let first : SemaphoreImpl.Call Nat := .asyncAcquire 0 (some 0)
    let second : SemaphoreImpl.Call Nat := .asyncAcquire 1 none
    let third : SemaphoreImpl.Call Nat := .release
    let start : Observed (SemaphoreImpl.primitive (ι := Nat)) := .init (SemaphoreImpl.init true 0)
    ∃ s t,
      run step start [.call first, .call second, .cancel (.async 0 (some 0)), .call third] =
        some s ∧
      run step start [.call second, .call third] = some t ∧
      t.world.impl = s.world.impl ∧ t.trace = others (.async 0 (some 0)) s.trace := by
  intro first second third start
  have hrun : ∃ s, run step start
      ([] ++ .call first :: [.call second] ++ .cancel (.async 0 (some 0)) :: [.call third]) =
        some s := ⟨_, rfl⟩
  obtain ⟨s, hs⟩ := hrun
  obtain ⟨t, ht, himpl, htrace⟩ := leaves_no_trace (k := .semaphore) (by simp) rfl rfl hs
  exact ⟨s, t, hs, ht, himpl, htrace⟩

end Withdrawal

end Sam
