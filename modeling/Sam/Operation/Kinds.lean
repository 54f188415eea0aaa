import Sam.Operation.Primitive

/-!
# The five kinds of primitives

The mutex, the shared mutex, the semaphore, the condition variable and the barrier as a `Primitive`.
Each one names its calls, translates them to the critical sections, and proves the laws from what is
known about the sections.
-/

namespace Sam

universe u

variable {ι : Type u}

/-- The calls of a mutex. -/
inductive MutexImpl.Call (ι : Type u) where
  | tryLock
  | lock (id : ι)
  | asyncLock (id : ι) (slot : Option Nat)
  | unlock
  deriving DecidableEq, Repr

/-- The calls of a shared mutex. -/
inductive SharedMutexImpl.Call (ι : Type u) where
  | tryLock
  | lock (id : ι)
  | asyncLock (id : ι) (slot : Option Nat)
  | unlock
  | tryLockShared
  | lockShared (id : ι)
  | asyncLockShared (id : ι) (slot : Option Nat)
  | unlockShared
  deriving DecidableEq, Repr

/-- The calls of a semaphore. -/
inductive SemaphoreImpl.Call (ι : Type u) where
  | tryAcquire
  | acquire (id : ι)
  | asyncAcquire (id : ι) (slot : Option Nat)
  | release
  deriving DecidableEq, Repr

/-- The calls of a condition variable. A notification comes with the answers of the predicates. -/
inductive ConditionVariableImpl.Call (ι : Type u) where
  | asyncWait (id : ι) (slot : Option Nat)
  | notifyOne (done : Op ι → Bool)
  | notifyAll (done : Op ι → Bool)

/-- The calls of a barrier. -/
inductive BarrierImpl.Call (ι : Type u) where
  | tryArrive
  | arrive (id : ι)
  | asyncArrive (id : ι) (slot : Option Nat)
  deriving DecidableEq, Repr

variable [DecidableEq ι]

namespace MutexImpl

/-- The critical section of a call. -/
def Call.run (m : MutexImpl (Op ι)) : Call ι → Result (MutexImpl (Op ι)) (Op ι)
  | .tryLock => m.tryLock
  | .lock id => m.lock (.blocking id)
  | .asyncLock id slot => m.asyncLock (.async id slot)
  | .unlock => m.unlock

/-- The op of a call. -/
def Call.request : Call ι → Option (Op ι)
  | .lock id => some (.blocking id)
  | .asyncLock id slot => some (.async id slot)
  | _ => none

/-- Whether a request waits. -/
def Call.waits (m : MutexImpl (Op ι)) : Call ι → Bool
  | .lock _ => m.enabled && m.locked
  | .asyncLock _ _ => m.locked
  | _ => false

/-- What the sections do to the waiters. -/
theorem Call.run_effect (m : MutexImpl (Op ι)) (c : Call ι)
    (hop : ∀ op ∈ c.request, op ∉ m.waiters) :
    Effect m.waiters c.request (c.waits m) (c.run m).outcome (c.run m).completed
      (c.run m).state.waiters := by
  cases c with
  | tryLock =>
      have hsame : m.tryLock.completed ++ m.tryLock.state.waiters = m.waiters := by
        unfold MutexImpl.tryLock
        split <;> rfl
      exact .plain (by rw [← hsame]; rfl)
  | lock id =>
      cases hlocked : m.locked with
      | false =>
          simp only [run, waits, hlocked, Bool.and_false, lock_of_free (hop _ rfl) hlocked]
          exact .granted _ (.refl _)
      | true =>
          simp only [run, waits, hlocked, Bool.and_true, lock_of_locked hlocked]
          cases m.enabled with
          | false => exact .failed id _
          | true => exact .queued _ (.refl _)
  | asyncLock id slot =>
      simp only [run, waits, MutexImpl.asyncLock]
      cases hlocked : m.locked with
      | false => exact .granted _ (.refl _)
      | true => exact .queued _ (.refl _)
  | unlock =>
      refine .plain ?_
      cases hwaiters : m.waiters <;> simp [run, MutexImpl.unlock, unlink, hwaiters]

/-- The mutex as a primitive. -/
def primitive : Primitive ι where
  State := MutexImpl (Op ι)
  Call := Call ι
  call m c := c.run m
  request := Call.request
  lists m := [m.waiters]
  unlink := unlink
  takeAll m := { m with waiters := [] }
  waits m c := c.waits m
  rechecks := false
  effect m c _ hop := by simpa using Call.run_effect m c (by simpa using hop)
  unlink_perm _ _ _ hop := flatten_erase_perm hop
  takeAll_lists m := rfl

end MutexImpl

namespace SharedMutexImpl

/-- The critical section of a call. -/
def Call.run (m : SharedMutexImpl (Op ι)) : Call ι → Result (SharedMutexImpl (Op ι)) (Op ι)
  | .tryLock => m.tryLock
  | .lock id => m.lock (.blocking id)
  | .asyncLock id slot => m.asyncLock (.async id slot)
  | .unlock => m.unlock
  | .tryLockShared => m.tryLockShared
  | .lockShared id => m.lockShared (.blocking id)
  | .asyncLockShared id slot => m.asyncLockShared (.async id slot)
  | .unlockShared => m.unlockShared

/-- The op of a call. -/
def Call.request : Call ι → Option (Op ι)
  | .lock id | .lockShared id => some (.blocking id)
  | .asyncLock id slot | .asyncLockShared id slot => some (.async id slot)
  | _ => none

/-- Whether a request waits. -/
def Call.waits (m : SharedMutexImpl (Op ι)) : Call ι → Bool
  | .lock _ => m.enabled && (m.locked || decide (0 < m.lockedShared))
  | .asyncLock _ _ => m.locked || decide (0 < m.lockedShared)
  | .lockShared _ => m.enabled && m.locked
  | .asyncLockShared _ _ => m.locked
  | _ => false

/-- Unlinking takes the op out of the list that it is in. -/
theorem unlink_lists {m : SharedMutexImpl (Op ι)} {op : Op ι}
    (hnodup : (m.waiters ++ m.sharedWaiters).Nodup) :
    (m.unlink op).waiters ++ (m.unlink op).sharedWaiters =
      (m.waiters ++ m.sharedWaiters).erase op := by
  rw [List.erase_append]
  split
  · rename_i hop
    have hshared : op ∉ m.sharedWaiters := fun hmem =>
      (List.nodup_append.mp hnodup).2.2 op hop op hmem rfl
    simp [unlink, List.erase_of_not_mem hshared]
  · rename_i hop
    simp [unlink, List.erase_of_not_mem hop]

omit [DecidableEq ι] in
/-- An op that joins the exclusive waiters is queued. -/
theorem addWaiter_perm (m : SharedMutexImpl (Op ι)) (op : Op ι) :
    ((m.addWaiter op).waiters ++ (m.addWaiter op).sharedWaiters).Perm
      (m.waiters ++ m.sharedWaiters ++ [op]) := by
  simpa [addWaiter, MutexImpl.addWaiter] using
    (List.perm_append_singleton op m.sharedWaiters).symm.append_left m.waiters

/-- `unlock` completes all shared waiters, the first exclusive one or nobody. -/
theorem unlock_perm {m : SharedMutexImpl (Op ι)} (hnodup : (m.waiters ++ m.sharedWaiters).Nodup) :
    (m.unlock.completed ++ (m.unlock.state.waiters ++ m.unlock.state.sharedWaiters)).Perm
      (m.waiters ++ m.sharedWaiters) := by
  cases hshared : m.sharedWaiters with
  | cons op rest =>
      have hcomm : (m.sharedWaiters ++ m.waiters).Perm (m.waiters ++ m.sharedWaiters) :=
        List.perm_append_comm
      rw [unlock_of_shared hnodup (by simp [hshared])]
      simpa [hshared] using hcomm
  | nil =>
      cases hwaiters : m.waiters with
      | nil => simp [unlock_of_none hshared hwaiters, hshared, hwaiters]
      | cons op rest => simp [unlock_of_waiter hshared hwaiters, hshared]

/-- `unlock_shared` completes the first exclusive waiter or nobody. -/
theorem unlockShared_perm {m : SharedMutexImpl (Op ι)}
    (hnodup : (m.waiters ++ m.sharedWaiters).Nodup) :
    (m.unlockShared.completed ++
        (m.unlockShared.state.waiters ++ m.unlockShared.state.sharedWaiters)).Perm
      (m.waiters ++ m.sharedWaiters) := by
  unfold unlockShared
  -- counting down leaves the lists alone
  generalize hreleased : (if 0 < m.lockedShared then
    { m with lockedShared := m.lockedShared - 1 } else m) = released
  have hlists : released.waiters = m.waiters ∧ released.sharedWaiters = m.sharedWaiters := by
    rw [← hreleased]
    split <;> exact ⟨rfl, rfl⟩
  rw [← hlists.1, ← hlists.2] at hnodup ⊢
  dsimp only
  split
  · cases hwaiters : released.waiters with
    | nil => simp [hwaiters]
    | cons op rest =>
        have hshared : op ∉ released.sharedWaiters := fun hmem =>
          (List.nodup_append.mp hnodup).2.2 op (by simp [hwaiters]) op hmem rfl
        simp [unlink, List.erase_of_not_mem hshared]
  · simp

/-- What the sections do to the waiters of both lists. -/
theorem Call.run_effect (m : SharedMutexImpl (Op ι)) (c : Call ι)
    (hnodup : (m.waiters ++ m.sharedWaiters).Nodup)
    (hop : ∀ op ∈ c.request, op ∉ m.waiters ++ m.sharedWaiters) :
    Effect (m.waiters ++ m.sharedWaiters) c.request (c.waits m) (c.run m).outcome
      (c.run m).completed ((c.run m).state.waiters ++ (c.run m).state.sharedWaiters) := by
  cases c with
  | tryLock =>
      refine .plain ?_
      simp only [run, SharedMutexImpl.tryLock]
      split <;> simp
  | lock id =>
      by_cases htaken : m.locked = true ∨ 0 < m.lockedShared
      · have hwaits : waits m (.lock id) = m.enabled := by
          simpa [waits] using fun _ => htaken
        rw [run, hwaits, lock_of_taken htaken]
        cases m.enabled with
        | false => exact .failed id _
        | true => exact .queued _ (addWaiter_perm m _)
      · have hfree : m.locked = false ∧ m.lockedShared = 0 := by simpa using htaken
        rw [run, show waits m (.lock id) = false by simp [waits, hfree.1, hfree.2],
          lock_of_free (hop _ rfl) hfree.1 hfree.2]
        exact .granted _ (.refl _)
  | asyncLock id slot =>
      simp only [run, waits, SharedMutexImpl.asyncLock]
      by_cases htaken : m.locked = true ∨ 0 < m.lockedShared
      · have hcond : (!m.locked && m.lockedShared == 0) = false := by
          simpa [imp_iff_or_not, Nat.pos_iff_ne_zero, or_comm] using htaken
        have hwaits : (m.locked || decide (0 < m.lockedShared)) = true := by simpa using htaken
        rw [hcond, hwaits]
        exact .queued _ (addWaiter_perm m _)
      · have hfree : m.locked = false ∧ m.lockedShared = 0 := by simpa using htaken
        simp only [hfree.1, hfree.2]
        exact .granted _ (.refl _)
  | unlock => exact .plain (unlock_perm hnodup)
  | tryLockShared =>
      refine .plain ?_
      simp only [run, SharedMutexImpl.tryLockShared]
      split <;> simp
  | lockShared id =>
      cases hlocked : m.locked with
      | false =>
          simp only [run, waits, hlocked, Bool.and_false, lockShared_of_free (hop _ rfl) hlocked]
          exact .granted _ (.refl _)
      | true =>
          simp only [run, waits, hlocked, Bool.and_true, lockShared_of_locked hlocked]
          cases m.enabled with
          | false => exact .failed id _
          -- it joins the exclusive waiters, as `lock` does
          | true => exact .queued _ (addWaiter_perm m _)
  | asyncLockShared id slot =>
      simp only [run, waits, SharedMutexImpl.asyncLockShared]
      cases hlocked : m.locked with
      | false => exact .granted _ (.refl _)
      | true => exact .queued _ (by simp [addSharedWaiter])
  | unlockShared => exact .plain (unlockShared_perm hnodup)

/-- The shared mutex as a primitive. -/
def primitive : Primitive ι where
  State := SharedMutexImpl (Op ι)
  Call := Call ι
  call m c := c.run m
  request := Call.request
  lists m := [m.waiters, m.sharedWaiters]
  unlink := unlink
  takeAll m := { m with waiters := [], sharedWaiters := [] }
  waits m c := c.waits m
  rechecks := false
  effect m c hnodup hop := by
    simpa using Call.run_effect m c (by simpa using hnodup) (by simpa using hop)
  unlink_perm m op hnodup hop := by
    have hnodup' : (m.waiters ++ m.sharedWaiters).Nodup := by simpa using hnodup
    have hop' : op ∈ m.waiters ++ m.sharedWaiters := by simpa using hop
    simp only [List.flatten_cons, List.flatten_nil, List.append_nil, unlink_lists hnodup']
    exact (List.perm_cons_erase hop').symm
  takeAll_lists m := rfl

end SharedMutexImpl

namespace SemaphoreImpl

/-- The critical section of a call. -/
def Call.run (m : SemaphoreImpl (Op ι)) : Call ι → Result (SemaphoreImpl (Op ι)) (Op ι)
  | .tryAcquire => m.tryAcquire
  | .acquire id => m.acquire (.blocking id)
  | .asyncAcquire id slot => m.asyncAcquire (.async id slot)
  | .release => m.release

/-- The op of a call. -/
def Call.request : Call ι → Option (Op ι)
  | .acquire id => some (.blocking id)
  | .asyncAcquire id slot => some (.async id slot)
  | _ => none

/-- Whether a request waits. -/
def Call.waits (m : SemaphoreImpl (Op ι)) : Call ι → Bool
  | .acquire _ => m.enabled && ! decide (0 < m.count)
  | .asyncAcquire _ _ => ! decide (0 < m.count)
  | _ => false

/-- What the sections do to the waiters. -/
theorem Call.run_effect (m : SemaphoreImpl (Op ι)) (c : Call ι)
    (hop : ∀ op ∈ c.request, op ∉ m.waiters) :
    Effect m.waiters c.request (c.waits m) (c.run m).outcome (c.run m).completed
      (c.run m).state.waiters := by
  cases c with
  | tryAcquire =>
      have hsame : m.tryAcquire.completed ++ m.tryAcquire.state.waiters = m.waiters := by
        unfold SemaphoreImpl.tryAcquire
        split <;> rfl
      exact .plain (by rw [← hsame]; rfl)
  | acquire id =>
      by_cases hfree : 0 < m.count
      · simp only [run, waits, hfree, decide_true, Bool.not_true, Bool.and_false,
          acquire_of_free (hop _ rfl) hfree]
        exact .granted _ (.refl _)
      · simp only [run, waits, hfree, decide_false, Bool.not_false, Bool.and_true,
          acquire_of_none hfree]
        cases m.enabled with
        | false => exact .failed id _
        | true => exact .queued _ (.refl _)
  | asyncAcquire id slot =>
      simp only [run, waits, SemaphoreImpl.asyncAcquire]
      by_cases hfree : 0 < m.count
      · simp only [hfree, decide_true, if_true]
        exact .granted _ (.refl _)
      · simp only [hfree, decide_false, if_false]
        exact .queued _ (.refl _)
  | release =>
      refine .plain ?_
      cases hwaiters : m.waiters <;>
        simp [run, SemaphoreImpl.release, decrement, unlink, hwaiters]

/-- The semaphore as a primitive. -/
def primitive : Primitive ι where
  State := SemaphoreImpl (Op ι)
  Call := Call ι
  call m c := c.run m
  request := Call.request
  lists m := [m.waiters]
  unlink := unlink
  takeAll m := { m with waiters := [] }
  waits m c := c.waits m
  rechecks := true
  effect m c _ hop := by simpa using Call.run_effect m c (by simpa using hop)
  unlink_perm _ _ _ hop := flatten_erase_perm hop
  takeAll_lists m := rfl

end SemaphoreImpl

namespace ConditionVariableImpl

/-- The critical section of a call. -/
def Call.run (m : ConditionVariableImpl (Op ι)) :
    Call ι → Result (ConditionVariableImpl (Op ι)) (Op ι)
  | .asyncWait id slot => m.asyncWait (.async id slot)
  | .notifyOne done => m.notifyOne done
  | .notifyAll done => m.notifyAll done

/-- The op of a call. -/
def Call.request : Call ι → Option (Op ι)
  | .asyncWait id slot => some (.async id slot)
  | _ => none

/-- What the sections do to the waiters. -/
theorem Call.run_effect (m : ConditionVariableImpl (Op ι)) (c : Call ι) (hnodup : m.waiters.Nodup) :
    Effect m.waiters c.request true (c.run m).outcome (c.run m).completed
      (c.run m).state.waiters := by
  cases c with
  | asyncWait id slot => exact .queued _ (.refl _)
  | notifyOne done =>
      refine .plain ?_
      cases hwaiters : m.waiters with
      | nil => simp [run, ConditionVariableImpl.notifyOne, hwaiters]
      | cons op rest =>
          cases hdone : done op <;>
            simp [run, ConditionVariableImpl.notifyOne, unlink, hwaiters, hdone]
  | notifyAll done =>
      refine .plain ?_
      rw [run, notifyAll_eq hnodup]
      exact List.filter_append_perm done m.waiters

/-- The condition variable as a primitive. Every request waits. -/
def primitive : Primitive ι where
  State := ConditionVariableImpl (Op ι)
  Call := Call ι
  call m c := c.run m
  request := Call.request
  lists m := [m.waiters]
  unlink := unlink
  takeAll m := { m with waiters := [] }
  waits _ _ := true
  rechecks := true
  effect m c hnodup _ := by simpa using Call.run_effect m c (by simpa using hnodup)
  unlink_perm _ _ _ hop := flatten_erase_perm hop
  takeAll_lists m := rfl

end ConditionVariableImpl

namespace BarrierImpl

/-- The critical section of a call. -/
def Call.run (m : BarrierImpl (Op ι)) : Call ι → Result (BarrierImpl (Op ι)) (Op ι)
  | .tryArrive => m.tryArrive
  | .arrive id => m.arrive (.blocking id)
  | .asyncArrive id slot => m.asyncArriveOp (.async id slot)

/-- The op of a call. -/
def Call.request : Call ι → Option (Op ι)
  | .tryArrive => none
  | .arrive id => some (.blocking id)
  | .asyncArrive id slot => some (.async id slot)

/-- Whether a request waits. -/
def Call.waits (m : BarrierImpl (Op ι)) : Call ι → Bool
  | .tryArrive => false
  | .arrive _ => m.enabled && ! decide (m.counter = 1)
  | .asyncArrive _ _ => ! decide (m.counter = 1)

/-- What the sections do to the waiters. -/
theorem Call.run_effect (m : BarrierImpl (Op ι)) (c : Call ι) :
    Effect m.waiters c.request (c.waits m) (c.run m).outcome (c.run m).completed
      (c.run m).state.waiters := by
  by_cases hlast : m.counter = 1
  · cases c with
    | tryArrive => exact .plain (by simp [run, tryArrive_of_last hlast])
    | arrive id =>
        simp only [run, waits, hlast, decide_true, Bool.not_true, Bool.and_false]
        cases henabled : m.enabled with
        | false =>
            rw [arrive_of_disabled henabled, if_pos hlast, tryArrive_of_last hlast]
            exact .granted _ (by simp)
        | true =>
            rw [arrive_of_last henabled hlast]
            exact .last id (by simp) (by simp)
    | asyncArrive id slot =>
        simp only [run, waits, hlast, decide_true, Bool.not_true, asyncArriveOp,
          tryArrive_of_last hlast]
        exact .granted _ (by simp)
  · cases c with
    | tryArrive => exact .plain (by simp [run, tryArrive_of_more hlast])
    | arrive id =>
        simp only [run, waits, hlast, decide_false, Bool.not_false, Bool.and_true]
        cases henabled : m.enabled with
        | false =>
            rw [arrive_of_disabled henabled, if_neg hlast]
            exact .failed id _
        | true =>
            rw [arrive_of_more henabled hlast]
            exact .queued _ (.refl _)
    | asyncArrive id slot =>
        simp only [run, waits, hlast, decide_false, Bool.not_false, asyncArriveOp,
          tryArrive_of_more hlast]
        exact .queued _ (.refl _)

/-- The barrier as a primitive. -/
def primitive : Primitive ι where
  State := BarrierImpl (Op ι)
  Call := Call ι
  call m c := c.run m
  request := Call.request
  lists m := [m.waiters]
  unlink := unlink
  takeAll m := { m with waiters := [] }
  waits m c := c.waits m
  rechecks := true
  effect m c _ _ := by simpa using Call.run_effect m c
  unlink_perm _ _ _ hop := flatten_erase_perm hop
  takeAll_lists m := rfl

end BarrierImpl

/-- The kinds of primitives. -/
inductive Kind where
  | mutex
  | sharedMutex
  | semaphore
  | conditionVariable
  | barrier
  deriving DecidableEq, Repr

/-- The primitive of a kind. -/
def Kind.primitive (ι : Type u) [DecidableEq ι] : Kind → Primitive ι
  | mutex => MutexImpl.primitive
  | sharedMutex => SharedMutexImpl.primitive
  | semaphore => SemaphoreImpl.primitive
  | conditionVariable => ConditionVariableImpl.primitive
  | barrier => BarrierImpl.primitive

end Sam
