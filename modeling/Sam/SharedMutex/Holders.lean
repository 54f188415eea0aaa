import Sam.Detail.SharedMutexImpl
import Sam.Library.Transition

/-!
# Who holds the shared mutex

Runs of `basic_shared_mutex` in which every step is one critical section, with the holders as ghost
lists: a granted op joins the list of the kind of lock that its request asked for. `Holders` says
that the flag and the counter agree with these lists and that an exclusive holder is alone.
A blocking `lock_shared` waits in the list of the exclusive requests, and both releases hand the
exclusive lock to the head of that list. `holders_iff` gives the runs on which `Holders` is kept
exactly: those in which no release takes the op of a `lock_shared` from that list.
-/

namespace Sam.SharedMutex

open Transition

universe u

/-- The shared mutex, the requests made, those of them that asked for a shared lock, the blocking
calls that wait on their op, and the exclusive and the shared holders. -/
structure Run (ι : Type u) where
  impl : SharedMutexImpl ι
  issued : List ι
  askedShared : List ι
  blocked : List ι
  exclusive : List ι
  shared : List ι
  deriving DecidableEq, Repr

/-- The critical sections of a run. -/
inductive Label (ι : Type u) where
  | tryLock (request : ι)
  | lock (request : ι)
  | asyncLock (request : ι)
  | unlock (holder : ι)
  | tryLockShared (request : ι)
  | lockShared (request : ι)
  | asyncLockShared (request : ι)
  | unlockShared (holder : ι)
  | cancel (request : ι)
  deriving DecidableEq, Repr

variable {ι : Type u}

namespace Run

/-- A new shared mutex that nobody has used. -/
def init (enabled : Bool) : Run ι := ⟨.init enabled, [], [], [], [], []⟩

variable [DecidableEq ι]

/-- These requests were granted what they asked for. -/
def grant (s : Run ι) (granted : List ι) : Run ι :=
  { s with
    exclusive := s.exclusive ++ granted.filter (· ∉ s.askedShared)
    shared := s.shared ++ granted.filter (· ∈ s.askedShared) }

/-- A call asked for a lock of this mode and left this result. -/
def request (s : Run ι) (mode : Mode) (r : ι) (result : Result (SharedMutexImpl ι) ι) : Run ι :=
  let asked := { s with
    impl := result.state
    issued := s.issued ++ [r]
    askedShared := if mode = .shared then s.askedShared ++ [r] else s.askedShared }
  if result.outcome = .granted then asked.grant [r] else asked

/-- The call waits if its op was queued. -/
def block (s : Run ι) (r : ι) (outcome : Outcome) : Run ι :=
  { s with blocked := if outcome = .queued then s.blocked ++ [r] else s.blocked }

/-- The exclusive holder `r` left this result when it unlocked. -/
def release (s : Run ι) (r : ι) (result : Result (SharedMutexImpl ι) ι) : Run ι :=
  { s with impl := result.state, exclusive := s.exclusive.erase r }.grant result.completed

/-- The shared holder `r` left this result when it unlocked. -/
def releaseShared (s : Run ι) (r : ι) (result : Result (SharedMutexImpl ι) ι) : Run ι :=
  { s with impl := result.state, shared := s.shared.erase r }.grant result.completed

/-- The cancellation handler of the queued op `r` completed it with `operation_aborted`. -/
def cancel (s : Run ι) (r : ι) : Run ι := { s with impl := s.impl.unlink r }

end Run

/-- A request that is made once, with the result of its critical section. -/
def ask [DecidableEq ι] (s : Run ι) (mode : Mode) (r : ι) (result : Result (SharedMutexImpl ι) ι) :
    Option (Run ι) :=
  if r ∉ s.issued then some (s.request mode r result) else none

/-- One critical section. Requests are new; only a holder unlocks; only a queued asynchronous
operation is cancelled. -/
def step [DecidableEq ι] (s : Run ι) : Label ι → Option (Run ι)
  | .tryLock r => ask s .exclusive r s.impl.tryLock
  | .lock r =>
      (ask s .exclusive r (s.impl.lock r)).map (·.block r (s.impl.lock r).outcome)
  | .asyncLock r => ask s .exclusive r (s.impl.asyncLock r)
  | .unlock r => if r ∈ s.exclusive then some (s.release r s.impl.unlock) else none
  | .tryLockShared r => ask s .shared r s.impl.tryLockShared
  | .lockShared r =>
      (ask s .shared r (s.impl.lockShared r)).map (·.block r (s.impl.lockShared r).outcome)
  | .asyncLockShared r => ask s .shared r (s.impl.asyncLockShared r)
  | .unlockShared r =>
      if r ∈ s.shared then some (s.releaseShared r s.impl.unlockShared) else none
  | .cancel r =>
      if r ∈ s.impl.waiters ++ s.impl.sharedWaiters ∧ r ∉ s.blocked then some (s.cancel r)
      else none

/-- The flag says whether there is an exclusive holder, the counter counts the shared holders, and
an exclusive holder is the only holder. -/
def Holders (s : Run ι) : Prop :=
  (s.impl.locked = true ↔ s.exclusive.length = 1) ∧ s.impl.lockedShared = s.shared.length ∧
    (s.exclusive ≠ [] → s.exclusive.length = 1 ∧ s.shared = [])

instance (s : Run ι) : Decidable (Holders s) :=
  inferInstanceAs (Decidable ((_ ↔ _) ∧ _ ∧ (_ → _)))

/-- The steps that hand the exclusive lock to the head of `waiters`, if there is one. -/
def HandsOver (s : Run ι) : Label ι → Prop
  | .unlock _ => s.impl.sharedWaiters = []
  | .unlockShared _ => s.impl.lockedShared = 1
  | _ => False

/-- The step does not hand the exclusive lock to a request that asked for a shared one. -/
def GrantsAsAsked (s : Run ι) (l : Label ι) : Prop :=
  HandsOver s l → ∀ w ∈ s.impl.waiters.head?, w ∉ s.askedShared

/-- What every step that grants as asked keeps. -/
structure Inv (s : Run ι) : Prop where
  holders : Holders s
  sharedWaiters_asked : ∀ w ∈ s.impl.sharedWaiters, w ∈ s.askedShared
  waiters_issued : ∀ w ∈ s.impl.waiters ++ s.impl.sharedWaiters, w ∈ s.issued
  asked_issued : ∀ r ∈ s.askedShared, r ∈ s.issued
  nodup : (s.impl.waiters ++ s.impl.sharedWaiters).Nodup

namespace Holders

variable {s : Run ι}

/-- A free mutex has no exclusive holder. -/
theorem exclusive_of_free (h : Holders s) (hfree : s.impl.locked = false) : s.exclusive = [] := by
  by_contra hne
  have hlocked := h.1.mpr (h.2.2 hne).1
  simp [hfree] at hlocked

/-- The exclusive holder is the only holder. -/
theorem of_exclusive (h : Holders s) {r : ι} (hr : r ∈ s.exclusive) :
    s.exclusive = [r] ∧ s.shared = [] ∧ s.impl.locked = true ∧ s.impl.lockedShared = 0 := by
  obtain ⟨hone, hshared⟩ := h.2.2 (List.ne_nil_of_mem hr)
  obtain ⟨q, hq⟩ := List.length_eq_one_iff.mp hone
  rw [hq, List.mem_singleton] at hr
  exact ⟨hr ▸ hq, hshared, h.1.mpr hone, by rw [h.2.1, hshared, List.length_nil]⟩

/-- A shared holder excludes exclusive holders. -/
theorem of_shared (h : Holders s) {r : ι} (hr : r ∈ s.shared) :
    s.exclusive = [] ∧ s.impl.locked = false ∧ 0 < s.impl.lockedShared := by
  have hnil : s.exclusive = [] := by
    by_contra hne
    simp [(h.2.2 hne).2] at hr
  have hpos := List.length_pos_of_mem hr
  refine ⟨hnil, ?_, by rw [h.2.1]; exact hpos⟩
  rw [← Bool.not_eq_true, h.1, hnil, List.length_nil]
  decide

/-- One more shared holder is one more on the counter, and the flag is down. -/
theorem shared_joins {t : Run ι} (h : Holders s) (h' : Holders t) {r : ι}
    (hshared : t.shared = s.shared ++ [r]) :
    t.impl.locked = false ∧ t.impl.lockedShared = s.impl.lockedShared + 1 := by
  have hr : r ∈ t.shared := by simp [hshared]
  refine ⟨(h'.of_shared hr).2.1, ?_⟩
  rw [h'.2.1, h.2.1, hshared, List.length_append, List.length_singleton]

/-- The holders determine the lock state. -/
theorem determine {t : Run ι} (h : Holders s) (h' : Holders t)
    (hexclusive : t.exclusive = s.exclusive) (hshared : t.shared.Perm s.shared) :
    t.impl.locked = s.impl.locked ∧ t.impl.lockedShared = s.impl.lockedShared := by
  constructor
  · rw [Bool.eq_iff_iff, h.1, h'.1, hexclusive]
  · rw [h.2.1, h'.2.1, hshared.length_eq]

end Holders

namespace Inv

variable {s : Run ι} {r : ι}

/-- The invariant holds at the start. -/
theorem init (enabled : Bool) : Inv (Run.init enabled : Run ι) where
  holders := by simp [Holders, Run.init, SharedMutexImpl.init, MutexImpl.init]
  sharedWaiters_asked w hw := by simp [Run.init, SharedMutexImpl.init] at hw
  waiters_issued w hw := by simp [Run.init, SharedMutexImpl.init, MutexImpl.init] at hw
  asked_issued r hr := by simp [Run.init] at hr
  nodup := by simp [Run.init, SharedMutexImpl.init, MutexImpl.init]

/-- A request is not queued before it is made. -/
theorem not_waiting (h : Inv s) (hr : r ∉ s.issued) :
    r ∉ s.impl.waiters ++ s.impl.sharedWaiters :=
  fun hmem => hr (h.waiters_issued r hmem)

/-- What asked for a shared lock was issued, with a new request. -/
theorem asked_issued_request (h : Inv s) (r : ι) (mode : Mode) :
    ∀ q ∈ if mode = .shared then s.askedShared ++ [r] else s.askedShared, q ∈ s.issued ++ [r] := by
  intro q hq
  have hold := h.asked_issued q
  split at hq <;> simp only [List.mem_append] at hq ⊢ <;> tauto

/-- The shared waiters asked for a shared lock, whatever is asked for next. -/
theorem sharedWaiters_asked_request (h : Inv s) (r : ι) (mode : Mode) :
    ∀ w ∈ s.impl.sharedWaiters,
      w ∈ if mode = .shared then s.askedShared ++ [r] else s.askedShared := by
  intro w hw
  have hold := h.sharedWaiters_asked w hw
  split
  · exact List.mem_append_left _ hold
  · exact hold

/-- Wherever a new request is queued, nobody is queued twice. -/
theorem nodup_request (h : Inv s) (hr : r ∉ s.issued) {first rest : List ι}
    (heq : first ++ rest = s.impl.waiters ++ s.impl.sharedWaiters) : (first ++ r :: rest).Nodup :=
  List.perm_middle.nodup_iff.mpr (List.nodup_cons.mpr ⟨heq ▸ h.not_waiting hr, heq ▸ h.nodup⟩)

/-- Who waits does not matter to the invariant. -/
theorem block (h : Inv s) (o : Outcome) : Inv (s.block r o) :=
  ⟨h.holders, h.sharedWaiters_asked, h.waiters_issued, h.asked_issued, h.nodup⟩

variable [DecidableEq ι]

/-- A request of either mode keeps the invariant. -/
theorem request (h : Inv s) (hr : r ∉ s.issued) {mode : Mode}
    {result : Result (SharedMutexImpl ι) ι}
    (hasks : s.impl.Asks r mode result.outcome result.state) : Inv (s.request mode r result) := by
  have hnew : r ∉ s.askedShared := fun hmem => hr (h.asked_issued r hmem)
  have hissued : ∀ w ∈ s.impl.waiters ++ s.impl.sharedWaiters, w ∈ s.issued ++ [r] :=
    fun w hw => List.mem_append_left _ (h.waiters_issued w hw)
  have hasked := h.asked_issued_request r mode
  have hshared := h.sharedWaiters_asked_request r mode
  obtain ⟨state, outcome, completed, asserted⟩ := result
  cases hasks with
  | locked hfree hcount =>
      have hnone := h.holders.exclusive_of_free hfree
      have hzero : s.shared = [] := List.length_eq_zero_iff.mp (h.holders.2.1 ▸ hcount)
      refine ⟨?_, hshared, hissued, hasked, h.nodup⟩
      simp [Holders, Run.request, Run.grant, hnone, hzero, hnew, hcount]
  | shared hfree =>
      have hnone := h.holders.exclusive_of_free hfree
      have hcount := h.holders.2.1
      refine ⟨?_, hshared, hissued, hasked, h.nodup⟩
      simp [Holders, Run.request, Run.grant, hnone, hfree, hcount]
  | queued =>
      refine ⟨h.holders, hshared, ?_, hasked, ?_⟩
      · intro w hw
        have hold := hissued w
        simp only [Run.request, MutexImpl.addWaiter, reduceCtorEq, if_false,
          List.mem_append] at hw hold ⊢
        tauto
      · simpa [Run.request, SharedMutexImpl.addWaiter, MutexImpl.addWaiter] using
          h.nodup_request hr (Eq.refl (s.impl.waiters ++ s.impl.sharedWaiters))
  | queuedShared =>
      refine ⟨h.holders, ?_, ?_, hasked, ?_⟩
      · intro w hw
        have hold := h.sharedWaiters_asked w
        simp only [Run.request, reduceCtorEq, if_true, if_false, List.mem_append] at hw hold ⊢
        tauto
      · intro w hw
        have hold := hissued w
        simp only [Run.request, reduceCtorEq, if_false, List.mem_append] at hw hold ⊢
        tauto
      · simpa [Run.request, SharedMutexImpl.addSharedWaiter] using
          h.nodup_request hr (List.append_nil (s.impl.waiters ++ s.impl.sharedWaiters))
  | refused => exact ⟨h.holders, hshared, hissued, hasked, h.nodup⟩
  | failed => exact ⟨h.holders, hshared, hissued, hasked, h.nodup⟩

/-- A cancellation keeps the invariant. -/
theorem cancel (h : Inv s) : Inv (s.cancel r) where
  holders := h.holders
  sharedWaiters_asked w hw := h.sharedWaiters_asked w (List.mem_of_mem_erase hw)
  waiters_issued w hw := by
    refine h.waiters_issued w ?_
    rcases List.mem_append.mp hw with hw | hw
    · exact List.mem_append_left _ (List.mem_of_mem_erase hw)
    · exact List.mem_append_right _ (List.mem_of_mem_erase hw)
  asked_issued := h.asked_issued
  nodup := h.nodup.sublist (List.erase_sublist.append List.erase_sublist)

/-- All shared waiters asked for a shared lock, so granting them makes shared holders of them. -/
theorem filter_sharedWaiters (h : Inv s) :
    s.impl.sharedWaiters.filter (· ∈ s.askedShared) = s.impl.sharedWaiters ∧
      s.impl.sharedWaiters.filter (· ∉ s.askedShared) = [] := by
  constructor
  · exact List.filter_eq_self.mpr fun w hw => by simpa using h.sharedWaiters_asked w hw
  · exact List.filter_eq_nil_iff.mpr fun w hw => by simpa using h.sharedWaiters_asked w hw

/-- An unlock that grants as asked keeps the invariant. -/
theorem release (h : Inv s) (hr : r ∈ s.exclusive)
    (hgrants : GrantsAsAsked s (.unlock r)) : Inv (s.release r s.impl.unlock) := by
  obtain ⟨hexclusive, hnone, hlocked, hcount⟩ := h.holders.of_exclusive hr
  by_cases hshared : s.impl.sharedWaiters = []
  · cases hwaiters : s.impl.waiters with
    | nil =>
        rw [SharedMutexImpl.unlock_of_none hshared hwaiters]
        refine ⟨?_, h.sharedWaiters_asked, h.waiters_issued, h.asked_issued, h.nodup⟩
        simp [Holders, Run.release, Run.grant, hexclusive, hnone, hcount]
    | cons op rest =>
        have hasked : op ∉ s.askedShared := hgrants hshared op (by simp [hwaiters])
        have hsub : (rest ++ s.impl.sharedWaiters).Sublist
            (s.impl.waiters ++ s.impl.sharedWaiters) := by
          rw [hwaiters]
          exact List.sublist_cons_self _ _
        rw [SharedMutexImpl.unlock_of_waiter hshared hwaiters]
        refine ⟨?_, h.sharedWaiters_asked, fun w hw => h.waiters_issued w (hsub.subset hw),
          h.asked_issued, h.nodup.sublist hsub⟩
        simp [Holders, Run.release, Run.grant, hexclusive, hnone, hlocked, hcount, hasked]
  · obtain ⟨hasked, hexcluded⟩ := h.filter_sharedWaiters
    rw [SharedMutexImpl.unlock_of_shared h.nodup hshared]
    refine ⟨?_, fun w hw => absurd hw List.not_mem_nil, fun w hw => ?_, h.asked_issued, ?_⟩
    · simp only [Holders, Run.release, Run.grant, hexclusive, hnone, hcount, hasked, hexcluded]
      simp
    · exact h.waiters_issued w (List.mem_append_left _ (by simpa [Run.release, Run.grant] using hw))
    · simpa [Run.release, Run.grant] using (List.nodup_append.mp h.nodup).1

/-- An `unlock_shared` that grants as asked keeps the invariant. -/
theorem releaseShared (h : Inv s) (hr : r ∈ s.shared)
    (hgrants : GrantsAsAsked s (.unlockShared r)) :
    Inv (s.releaseShared r s.impl.unlockShared) := by
  obtain ⟨hnone, hfree, hpos⟩ := h.holders.of_shared hr
  have hcount := h.holders.2.1
  have herase : (s.shared.erase r).length = s.shared.length - 1 := List.length_erase_of_mem hr
  by_cases hlast : s.impl.lockedShared = 1
  · have hempty : s.shared.erase r = [] := List.length_eq_zero_iff.mp (by omega)
    cases hwaiters : s.impl.waiters with
    | nil =>
        rw [SharedMutexImpl.unlockShared_of_none hlast hwaiters]
        refine ⟨?_, h.sharedWaiters_asked, h.waiters_issued, h.asked_issued, h.nodup⟩
        simp [Holders, Run.releaseShared, Run.grant, hnone, hfree, hempty]
    | cons op rest =>
        have hasked : op ∉ s.askedShared := hgrants hlast op (by simp [hwaiters])
        have hsub : (rest ++ s.impl.sharedWaiters).Sublist
            (s.impl.waiters ++ s.impl.sharedWaiters) := by
          rw [hwaiters]
          exact List.sublist_cons_self _ _
        rw [SharedMutexImpl.unlockShared_of_waiter h.nodup hlast hwaiters]
        refine ⟨?_, h.sharedWaiters_asked, fun w hw => h.waiters_issued w (hsub.subset hw),
          h.asked_issued, h.nodup.sublist hsub⟩
        simp [Holders, Run.releaseShared, Run.grant, hnone, hempty, hasked]
  · rw [SharedMutexImpl.unlockShared_of_more (by omega)]
    refine ⟨?_, h.sharedWaiters_asked, h.waiters_issued, h.asked_issued, h.nodup⟩
    simp [Holders, Run.releaseShared, Run.grant, hnone, hfree, hcount, herase]

/-- A request that is made keeps the invariant. -/
theorem ask (h : Inv s) {mode : Mode} {result : Result (SharedMutexImpl ι) ι} {t : Run ι}
    (hasks : s.impl.Asks r mode result.outcome result.state) (ht : ask s mode r result = some t) :
    Inv t := by
  obtain ⟨hr, rfl⟩ := guard_iff.mp ht
  exact h.request hr hasks

/-- Every critical section that grants as asked keeps the invariant. -/
theorem step {l : Label ι} {t : Run ι} (h : Inv s) (hgrants : GrantsAsAsked s l)
    (hstep : step s l = some t) : Inv t := by
  cases l with
  | tryLock r => exact h.ask SharedMutexImpl.tryLock_asks hstep
  | asyncLock r => exact h.ask SharedMutexImpl.asyncLock_asks hstep
  | tryLockShared r => exact h.ask SharedMutexImpl.tryLockShared_asks hstep
  | asyncLockShared r => exact h.ask SharedMutexImpl.asyncLockShared_asks hstep
  | lock r =>
      obtain ⟨u, hu, rfl⟩ := Option.map_eq_some_iff.mp hstep
      have hr : r ∉ s.issued := (Option.ite_none_right_eq_some.mp hu).1
      exact (h.ask (SharedMutexImpl.lock_asks (h.not_waiting hr)) hu).block _
  | lockShared r =>
      obtain ⟨u, hu, rfl⟩ := Option.map_eq_some_iff.mp hstep
      have hr : r ∉ s.issued := (Option.ite_none_right_eq_some.mp hu).1
      exact (h.ask (SharedMutexImpl.lockShared_asks (h.not_waiting hr)) hu).block _
  | unlock r =>
      obtain ⟨hr, rfl⟩ := guard_iff.mp hstep
      exact h.release hr hgrants
  | unlockShared r =>
      obtain ⟨hr, rfl⟩ := guard_iff.mp hstep
      exact h.releaseShared hr hgrants
  | cancel r =>
      obtain ⟨-, rfl⟩ := guard_iff.mp hstep
      exact h.cancel

/-- A release that hands the exclusive lock to a shared request leaves the flag set without an
exclusive holder. -/
theorem step_misgrant {l : Label ι} {t : Run ι} (h : Inv s) (hgrants : ¬ GrantsAsAsked s l)
    (hstep : SharedMutex.step s l = some t) : ¬ Holders t := by
  simp only [GrantsAsAsked, Classical.not_imp, not_forall, not_not] at hgrants
  obtain ⟨hhands, op, hop, hasked⟩ := hgrants
  obtain ⟨rest, hwaiters⟩ := List.head?_eq_some_iff.mp hop
  intro hholders
  cases l with
  | unlock r =>
      obtain ⟨hr, rfl⟩ := guard_iff.mp hstep
      obtain ⟨hexclusive, -, hlocked, -⟩ := h.holders.of_exclusive hr
      rw [SharedMutexImpl.unlock_of_waiter hhands hwaiters] at hholders
      simp [Holders, Run.release, Run.grant, hexclusive, hlocked, hasked] at hholders
  | unlockShared r =>
      obtain ⟨hr, rfl⟩ := guard_iff.mp hstep
      obtain ⟨hnone, -, -⟩ := h.holders.of_shared hr
      rw [SharedMutexImpl.unlockShared_of_waiter h.nodup hhands hwaiters] at hholders
      simp [Holders, Run.releaseShared, Run.grant, hnone, hasked] at hholders
  | _ => exact hhands

end Inv

variable [DecidableEq ι]

/-- **When the holders are recorded.** The flag and the counter agree with the holders in every
state of a run exactly when no step of it hands the exclusive lock to a request that asked for a
shared one. -/
theorem holders_iff (enabled : Bool) (ls : List (Label ι)) :
    (∀ t, Visits step (Run.init enabled) ls t → Holders t) ↔
      ∀ t l, Takes step (Run.init enabled) ls t l → GrantsAsAsked t l :=
  visits_iff_takes (fun _ _ _ h hgrants hstep => h.step hgrants hstep) (fun _ h => h.holders)
    (fun _ _ _ h hgrants hstep => h.step_misgrant hgrants hstep) (Inv.init enabled) ls

/-- A blocked `lock_shared` that is woken by `unlock` has a shared lock, but the mutex has recorded
an exclusive one. -/
theorem lock_shared_misgranted :
    ∃ s : Run Nat, run step (Run.init true) [.tryLock 0, .lockShared 1, .unlock 0] = some s ∧
      s.shared = [1] ∧ s.exclusive = [] ∧ s.impl.locked = true ∧ s.impl.lockedShared = 0 ∧
      ¬ Holders s :=
  ⟨_, rfl, rfl, rfl, rfl, rfl, by decide⟩

end Sam.SharedMutex
