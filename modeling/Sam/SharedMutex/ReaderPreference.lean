import Sam.Library.ReadWriteLock
import Sam.SharedMutex.Holders

/-!
# The single-threaded shared mutex is a read/write lock

In single-threaded mode no call blocks, so that every queued op was made of a handler and waits in
the list of its own kind. `step_refines` shows that every critical section is then one event of a
read/write lock that prefers readers. `reader_preferring` collects what follows for every run: who
excludes whom, that nobody waits who could be admitted, and whom the two releases grant the lock.
-/

namespace Sam

universe u

namespace SharedMutexImpl

variable {ι : Type u} {m : SharedMutexImpl ι} {op : ι}

/-- A lock of this mode can be taken. -/
def Free (m : SharedMutexImpl ι) : Mode → Prop
  | .exclusive => m.locked = false ∧ m.lockedShared = 0
  | .shared => m.locked = false

/-- A lock of this mode was taken. -/
def take (m : SharedMutexImpl ι) : Mode → SharedMutexImpl ι
  | .exclusive => { m with locked := true }
  | .shared => { m with lockedShared := m.lockedShared + 1 }

/-- The op waits in the list of its mode. -/
def enqueue (m : SharedMutexImpl ι) (op : ι) : Mode → SharedMutexImpl ι
  | .exclusive => m.addWaiter op
  | .shared => m.addSharedWaiter op

/-- How a request of this mode is answered in single-threaded mode, by whether it may wait. -/
inductive Answers (m : SharedMutexImpl ι) (op : ι) (mode : Mode) :
    Bool → Result (SharedMutexImpl ι) ι → Prop where
  | granted {waits : Bool} (hfree : m.Free mode) :
      Answers m op mode waits { state := m.take mode, outcome := .granted }
  | queued (hfree : ¬ m.Free mode) :
      Answers m op mode true { state := m.enqueue op mode, outcome := .queued }
  | refused {o : Outcome} (hfree : ¬ m.Free mode) (ho : o ≠ .granted ∧ o ≠ .queued) :
      Answers m op mode false { state := m, outcome := o }

/-- `try_lock`. -/
theorem tryLock_answers : Answers m op .exclusive false m.tryLock := by
  unfold tryLock
  split
  · rename_i htaken
    refine .refused (fun hfree => ?_) (by simp)
    simp [hfree.1, hfree.2] at htaken
  · rename_i htaken
    have hfree : m.locked = false ∧ m.lockedShared = 0 := by simpa using htaken
    exact .granted hfree

/-- `try_lock_shared`. -/
theorem tryLockShared_answers : Answers m op .shared false m.tryLockShared := by
  unfold tryLockShared
  split
  · rename_i htaken
    exact .refused (fun hfree => by simp [show m.locked = false from hfree] at htaken) (by simp)
  · rename_i htaken
    exact .granted (show m.locked = false by simpa using htaken)

/-- `async_lock_op`. -/
theorem asyncLock_answers : Answers m op .exclusive true (m.asyncLock op) := by
  unfold asyncLock
  split
  · rename_i hfree
    have hfree : m.locked = false ∧ m.lockedShared = 0 := by simpa using hfree
    exact .granted hfree
  · rename_i htaken
    exact .queued fun hfree => htaken (by simp [hfree.1, hfree.2])

/-- `async_lock_shared_op`. -/
theorem asyncLockShared_answers : Answers m op .shared true (m.asyncLockShared op) := by
  unfold asyncLockShared
  split
  · rename_i hfree
    exact .granted (show m.locked = false by simpa using hfree)
  · rename_i htaken
    exact .queued fun hfree => htaken (by simp [show m.locked = false from hfree])

variable [DecidableEq ι]

/-- `lock`, which is `try_lock` that fails where the latter refuses. -/
theorem lock_answers (hmode : m.enabled = false) : Answers m op .exclusive false (m.lock op) := by
  have hanswers : Answers m op .exclusive false m.tryLock := tryLock_answers
  unfold lock
  simp only [hmode, Bool.not_false, if_true]
  generalize m.tryLock = result at hanswers
  cases hanswers with
  | granted hfree => exact .granted hfree
  | refused hfree ho => split <;> simp_all [Answers.refused]

/-- `lock_shared`, which is `try_lock_shared` that fails where the latter refuses. -/
theorem lockShared_answers (hmode : m.enabled = false) :
    Answers m op .shared false (m.lockShared op) := by
  have hanswers : Answers m op .shared false m.tryLockShared := tryLockShared_answers
  unfold lockShared
  simp only [hmode, Bool.not_false, if_true]
  generalize m.tryLockShared = result at hanswers
  cases hanswers with
  | granted hfree => exact .granted hfree
  | refused hfree ho => split <;> simp_all [Answers.refused]

end SharedMutexImpl

namespace SharedMutex

open Transition

variable {ι : Type u}

/-- What a lock of this mode is to a read/write lock. -/
def access : Mode → ReadWriteLock.Mode
  | .exclusive => .write
  | .shared => .read

/-- The mutex and its holders as a read/write lock. -/
def Run.lock (s : Run ι) : ReadWriteLock.State ι where
  writer := s.exclusive.head?
  readers := s.shared
  writerLine := s.impl.waiters
  readerLine := s.impl.sharedWaiters
  requests := s.issued

/-- A critical section as an event of a read/write lock. In single-threaded mode only the
asynchronous requests wait. -/
def Label.event : Label ι → ReadWriteLock.Event ι
  | .tryLock r | .lock r => .ask .write false r
  | .asyncLock r => .ask .write true r
  | .unlock r => .endWrite r
  | .tryLockShared r | .lockShared r => .ask .read false r
  | .asyncLockShared r => .ask .read true r
  | .unlockShared r => .endRead r
  | .cancel r => .withdraw r

/-- Nobody is blocked, and the exclusive list holds no shared request. -/
structure SingleThreaded (s : Run ι) : Prop where
  disabled : s.impl.enabled = false
  unblocked : s.blocked = []
  waiters_exclusive : ∀ w ∈ s.impl.waiters, w ∉ s.askedShared

variable [DecidableEq ι] {s t : Run ι} {r : ι}

omit [DecidableEq ι] in
/-- The read/write lock admits a request exactly when the flag and the counter let it pass. -/
theorem admits_iff (h : Holders s) (mode : Mode) :
    s.lock.Admits (access mode) ↔ s.impl.Free mode := by
  have hwriter : s.exclusive.head? = none ↔ s.impl.locked = false := by
    rw [List.head?_eq_none_iff]
    refine ⟨fun hnil => ?_, h.exclusive_of_free⟩
    rw [← Bool.not_eq_true, h.1, hnil, List.length_nil]
    decide
  have hreaders : s.shared = [] ↔ s.impl.lockedShared = 0 := by
    rw [h.2.1, List.length_eq_zero_iff]
  cases mode with
  | exclusive => exact and_congr hwriter hreaders
  | shared => exact hwriter

/-- A single-threaded request is a request of the read/write lock. -/
theorem ask_refines (h : Inv s) (hs : SingleThreaded s) {mode : Mode} {waits : Bool}
    {result : Result (SharedMutexImpl ι) ι} (hanswers : s.impl.Answers r mode waits result)
    (hstep : ask s mode r result = some t) :
    ReadWriteLock.step s.lock (.ask (access mode) waits r) = some t.lock ∧ SingleThreaded t ∧
      (waits = false → result.outcome ≠ .queued) := by
  obtain ⟨hr, rfl⟩ := guard_iff.mp hstep
  have hnew : r ∉ s.askedShared := fun hmem => hr (h.asked_issued r hmem)
  have hadmits := admits_iff h.holders mode
  have hnone : s.impl.Free mode → s.exclusive = [] := by
    cases mode with
    | exclusive => exact fun hfree => h.holders.exclusive_of_free hfree.1
    | shared => exact fun hfree => h.holders.exclusive_of_free hfree
  -- a request is never issued twice, so the waiters did not ask for this lock
  have hwaiters : ∀ w ∈ s.impl.waiters,
      w ∉ if mode = .shared then s.askedShared ++ [r] else s.askedShared := by
    intro w hw
    have hold := hs.waiters_exclusive w hw
    have hwr : w ≠ r := fun he =>
      hr (he ▸ h.waiters_issued w (List.mem_append_left _ hw))
    split <;> simp [hold, hwr]
  have hrequests : r ∉ s.lock.requests := hr
  rw [ReadWriteLock.step, if_neg hrequests]
  dsimp only
  cases hanswers with
  | granted hfree =>
      rw [if_pos (hadmits.mpr hfree)]
      have hempty := hnone hfree
      cases mode <;>
        exact ⟨by simp [Run.lock, ReadWriteLock.State.letIn, Run.request, Run.grant, access,
          SharedMutexImpl.take, hnew, hempty], ⟨hs.disabled, hs.unblocked, hwaiters⟩, by simp⟩
  | queued hfree =>
      rw [if_neg (hadmits.not.mpr hfree), if_pos rfl]
      cases mode with
      | exclusive =>
          refine ⟨rfl, ⟨hs.disabled, hs.unblocked, ?_⟩, by simp⟩
          intro w hw
          rcases List.mem_append.mp hw with hw | hw
          · exact hs.waiters_exclusive w hw
          · exact List.mem_singleton.mp hw ▸ hnew
      | shared => exact ⟨rfl, ⟨hs.disabled, hs.unblocked, hwaiters⟩, by simp⟩
  | refused hfree ho =>
      rw [if_neg (hadmits.not.mpr hfree), if_neg (by simp)]
      exact ⟨by simp [Run.request, ho.1, Run.lock], ⟨by simpa [Run.request, ho.1] using hs.disabled,
        by simpa [Run.request, ho.1] using hs.unblocked,
        by simpa [Run.request, ho.1] using hwaiters⟩, fun _ => ho.2⟩

/-- What `unlock` leaves when the exclusive holder calls it, by whom it grants the lock. -/
theorem unlock_cases (h : Inv s) (hr : r ∈ s.exclusive) :
    (s.impl.sharedWaiters ≠ [] ∧ s.impl.unlock.completed = s.impl.sharedWaiters ∧
      s.impl.unlock.state = { s.impl with
        locked := false
        lockedShared := s.impl.sharedWaiters.length
        sharedWaiters := [] }) ∨
    (s.impl.sharedWaiters = [] ∧ s.impl.waiters = [] ∧ s.impl.unlock.completed = [] ∧
      s.impl.unlock.state = { s.impl with locked := false }) ∨
    ∃ w rest, s.impl.sharedWaiters = [] ∧ s.impl.waiters = w :: rest ∧
      s.impl.unlock.completed = [w] ∧ s.impl.unlock.state = { s.impl with waiters := rest } := by
  obtain ⟨-, -, -, hcount⟩ := h.holders.of_exclusive hr
  by_cases hshared : s.impl.sharedWaiters = []
  · cases hwaiters : s.impl.waiters with
    | nil =>
        rw [SharedMutexImpl.unlock_of_none hshared hwaiters]
        exact Or.inr (Or.inl ⟨hshared, rfl, rfl, by simp [hwaiters]⟩)
    | cons w rest =>
        rw [SharedMutexImpl.unlock_of_waiter hshared hwaiters]
        exact Or.inr (Or.inr ⟨w, rest, hshared, rfl, rfl, rfl⟩)
  · rw [SharedMutexImpl.unlock_of_shared h.nodup hshared, hcount, Nat.zero_add]
    exact Or.inl ⟨hshared, rfl, rfl⟩

/-- What `unlock_shared` leaves when a shared holder calls it, by whom it grants the lock. -/
theorem unlockShared_cases (h : Inv s) (hr : r ∈ s.shared) :
    (s.shared.erase r ≠ [] ∧ s.impl.unlockShared.completed = [] ∧
      s.impl.unlockShared.state = { s.impl with lockedShared := s.impl.lockedShared - 1 }) ∨
    (s.shared.erase r = [] ∧ s.impl.waiters = [] ∧ s.impl.unlockShared.completed = [] ∧
      s.impl.unlockShared.state = { s.impl with lockedShared := 0 }) ∨
    ∃ w rest, s.shared.erase r = [] ∧ s.impl.waiters = w :: rest ∧
      s.impl.unlockShared.completed = [w] ∧
      s.impl.unlockShared.state =
        { s.impl with locked := true, lockedShared := 0, waiters := rest } := by
  have hcount := h.holders.2.1
  have hpos := List.length_pos_of_mem hr
  have herase : (s.shared.erase r).length = s.shared.length - 1 := List.length_erase_of_mem hr
  by_cases hlast : s.shared.erase r = []
  · have hone : s.impl.lockedShared = 1 := by
      rw [hlast, List.length_nil] at herase
      omega
    cases hwaiters : s.impl.waiters with
    | nil =>
        rw [SharedMutexImpl.unlockShared_of_none hone hwaiters]
        exact Or.inr (Or.inl ⟨hlast, rfl, rfl, rfl⟩)
    | cons w rest =>
        rw [SharedMutexImpl.unlockShared_of_waiter h.nodup hone hwaiters]
        exact Or.inr (Or.inr ⟨w, rest, hlast, rfl, rfl, rfl⟩)
  · have hmore : 1 < s.impl.lockedShared := by
      have := List.length_pos_iff.mpr hlast
      omega
    rw [SharedMutexImpl.unlockShared_of_more hmore]
    exact Or.inl ⟨hlast, rfl, rfl⟩

/-- Whom the exclusive holder grants the lock: all shared waiters, or the first exclusive one. -/
theorem unlock_completed (h : Inv s) (hr : r ∈ s.exclusive) : s.impl.unlock.completed =
    if s.impl.sharedWaiters ≠ [] then s.impl.sharedWaiters else s.impl.waiters.take 1 := by
  rcases unlock_cases h hr with ⟨hwaiting, hcompleted, -⟩ | ⟨hnone, hwaiters, hcompleted, -⟩ |
    ⟨w, rest, hnone, hwaiters, hcompleted, -⟩
  · rw [if_pos hwaiting, hcompleted]
  · rw [if_neg (not_not.mpr hnone), hcompleted, hwaiters, List.take_nil]
  · rw [if_neg (not_not.mpr hnone), hcompleted, hwaiters]
    rfl

/-- Whom a shared holder grants the lock: the first exclusive waiter, if it was the last holder. -/
theorem unlockShared_completed (h : Inv s) (hr : r ∈ s.shared) : s.impl.unlockShared.completed =
    if s.shared = [r] then s.impl.waiters.take 1 else [] := by
  have hlast : s.shared = [r] ↔ s.shared.erase r = [] := by
    refine ⟨fun hone => by simp [hone], fun hnil => ?_⟩
    have hperm := List.perm_cons_erase hr
    rw [hnil] at hperm
    exact List.perm_singleton.mp hperm
  rcases unlockShared_cases h hr with ⟨hmore, hcompleted, -⟩ | ⟨hnil, hwaiters, hcompleted, -⟩ |
    ⟨w, rest, hnil, hwaiters, hcompleted, -⟩
  · rw [if_neg (hlast.not.mpr hmore), hcompleted]
  · rw [if_pos (hlast.mpr hnil), hcompleted, hwaiters, List.take_nil]
  · rw [if_pos (hlast.mpr hnil), hcompleted, hwaiters]
    rfl

omit [DecidableEq ι] in
/-- A mutex stays single-threaded while nobody blocks and nobody joins the exclusive waiters. -/
theorem SingleThreaded.shrink (hs : SingleThreaded s) (hblocked : t.blocked = s.blocked)
    (hasked : t.askedShared = s.askedShared) (henabled : t.impl.enabled = s.impl.enabled)
    (hwaiters : t.impl.waiters ⊆ s.impl.waiters) : SingleThreaded t := by
  refine ⟨henabled.trans hs.disabled, hblocked.trans hs.unblocked, fun w hw => ?_⟩
  rw [hasked]
  exact hs.waiters_exclusive w (hwaiters hw)

/-- A single-threaded `unlock` is the writer leaving. -/
theorem unlock_refines (h : Inv s) (hs : SingleThreaded s) (hr : r ∈ s.exclusive) :
    ReadWriteLock.step s.lock (.endWrite r) = some (s.release r s.impl.unlock).lock ∧
      SingleThreaded (s.release r s.impl.unlock) := by
  obtain ⟨hexclusive, hnone, -, -⟩ := h.holders.of_exclusive hr
  have hwriter : s.lock.writer = some r := by simp [Run.lock, hexclusive]
  rw [ReadWriteLock.step, if_pos hwriter]
  rcases unlock_cases h hr with ⟨hshared, hcompleted, hstate⟩ |
    ⟨hshared, hwaiters, hcompleted, hstate⟩ | ⟨w, rest, hshared, hwaiters, hcompleted, hstate⟩
  · obtain ⟨hasked, hexcluded⟩ := h.filter_sharedWaiters
    rw [ReadWriteLock.State.reopen_of_ne_nil hshared]
    refine ⟨?_, ?_⟩
    · simp only [Run.lock, Run.release, Run.grant, hcompleted, hstate, hasked, hexcluded,
        hexclusive, hnone]
      simp
    · exact hs.shrink rfl rfl (by simp [Run.release, Run.grant, hstate])
        (by simp [Run.release, Run.grant, hstate])
  · rw [ReadWriteLock.State.reopen_of_nil hshared, ReadWriteLock.State.handOver_of_nil hwaiters]
    refine ⟨?_, ?_⟩
    · simp [Run.lock, Run.release, Run.grant, hcompleted, hstate, hexclusive]
    · exact hs.shrink rfl rfl (by simp [Run.release, Run.grant, hstate])
        (by simp [Run.release, Run.grant, hstate])
  · have hw : w ∉ s.askedShared := hs.waiters_exclusive w (by simp [hwaiters])
    rw [ReadWriteLock.State.reopen_of_nil hshared, ReadWriteLock.State.handOver_of_cons hwaiters]
    refine ⟨?_, ?_⟩
    · simp [Run.lock, Run.release, Run.grant, hcompleted, hstate, hexclusive, hw]
    · exact hs.shrink rfl rfl (by simp [Run.release, Run.grant, hstate])
        (by simp [Run.release, Run.grant, hstate, hwaiters])

/-- A single-threaded `unlock_shared` is a reader leaving. -/
theorem unlockShared_refines (h : Inv s) (hs : SingleThreaded s) (hr : r ∈ s.shared) :
    ReadWriteLock.step s.lock (.endRead r) =
        some (s.releaseShared r s.impl.unlockShared).lock ∧
      SingleThreaded (s.releaseShared r s.impl.unlockShared) := by
  obtain ⟨hnone, -, -⟩ := h.holders.of_shared hr
  have hreader : r ∈ s.lock.readers := hr
  rw [ReadWriteLock.step, if_pos hreader]
  dsimp only
  rcases unlockShared_cases h hr with ⟨hmore, hcompleted, hstate⟩ |
    ⟨hlast, hwaiters, hcompleted, hstate⟩ | ⟨w, rest, hlast, hwaiters, hcompleted, hstate⟩
  · have hmore' : ¬ s.lock.readers.erase r = [] := hmore
    rw [if_neg hmore']
    refine ⟨?_, ?_⟩
    · simp [Run.lock, Run.releaseShared, Run.grant, hcompleted, hstate]
    · exact hs.shrink rfl rfl (by simp [Run.releaseShared, Run.grant, hstate])
        (by simp [Run.releaseShared, Run.grant, hstate])
  · have hlast' : s.lock.readers.erase r = [] := hlast
    rw [if_pos hlast', ReadWriteLock.State.handOver_of_nil hwaiters]
    refine ⟨?_, ?_⟩
    · simp [Run.lock, Run.releaseShared, Run.grant, hcompleted, hstate]
    · exact hs.shrink rfl rfl (by simp [Run.releaseShared, Run.grant, hstate])
        (by simp [Run.releaseShared, Run.grant, hstate])
  · have hlast' : s.lock.readers.erase r = [] := hlast
    have hw : w ∉ s.askedShared := hs.waiters_exclusive w (by simp [hwaiters])
    rw [if_pos hlast', ReadWriteLock.State.handOver_of_cons hwaiters]
    refine ⟨?_, ?_⟩
    · simp [Run.lock, Run.releaseShared, Run.grant, hcompleted, hstate, hnone, hw]
    · exact hs.shrink rfl rfl (by simp [Run.releaseShared, Run.grant, hstate])
        (by simp [Run.releaseShared, Run.grant, hstate, hwaiters])

/-- **Refinement.** Every critical section is one event of the read/write lock. -/
theorem step_refines {l : Label ι} (h : Inv s) (hs : SingleThreaded s)
    (hstep : step s l = some t) :
    ReadWriteLock.step s.lock l.event = some t.lock ∧ Inv t ∧ SingleThreaded t := by
  have hgrants : GrantsAsAsked s l := fun _ w hw =>
    hs.waiters_exclusive w (List.mem_of_mem_head? hw)
  have hrefines : ReadWriteLock.step s.lock l.event = some t.lock ∧ SingleThreaded t := by
    cases l with
    | tryLock r =>
        obtain ⟨hlock, hsingle, -⟩ := ask_refines h hs SharedMutexImpl.tryLock_answers hstep
        exact ⟨hlock, hsingle⟩
    | asyncLock r =>
        obtain ⟨hlock, hsingle, -⟩ := ask_refines h hs SharedMutexImpl.asyncLock_answers hstep
        exact ⟨hlock, hsingle⟩
    | tryLockShared r =>
        obtain ⟨hlock, hsingle, -⟩ := ask_refines h hs SharedMutexImpl.tryLockShared_answers hstep
        exact ⟨hlock, hsingle⟩
    | asyncLockShared r =>
        obtain ⟨hlock, hsingle, -⟩ :=
          ask_refines h hs SharedMutexImpl.asyncLockShared_answers hstep
        exact ⟨hlock, hsingle⟩
    | lock r =>
        obtain ⟨u, hu, rfl⟩ := Option.map_eq_some_iff.mp hstep
        obtain ⟨hlock, hsingle, hwaits⟩ :=
          ask_refines h hs (SharedMutexImpl.lock_answers hs.disabled) hu
        refine ⟨hlock, hsingle.disabled, ?_, hsingle.waiters_exclusive⟩
        simp [Run.block, hwaits rfl, hsingle.unblocked]
    | lockShared r =>
        obtain ⟨u, hu, rfl⟩ := Option.map_eq_some_iff.mp hstep
        obtain ⟨hlock, hsingle, hwaits⟩ :=
          ask_refines h hs (SharedMutexImpl.lockShared_answers hs.disabled) hu
        refine ⟨hlock, hsingle.disabled, ?_, hsingle.waiters_exclusive⟩
        simp [Run.block, hwaits rfl, hsingle.unblocked]
    | unlock r =>
        obtain ⟨hr, rfl⟩ := guard_iff.mp hstep
        exact unlock_refines h hs hr
    | unlockShared r =>
        obtain ⟨hr, rfl⟩ := guard_iff.mp hstep
        exact unlockShared_refines h hs hr
    | cancel r =>
        obtain ⟨⟨hr, -⟩, rfl⟩ := guard_iff.mp hstep
        have hline : r ∈ s.lock.writerLine ++ s.lock.readerLine := hr
        refine ⟨by rw [Label.event, ReadWriteLock.step, if_pos hline]; rfl, hs.disabled,
          hs.unblocked, fun w hw => hs.waiters_exclusive w (List.mem_of_mem_erase hw)⟩
  exact ⟨hrefines.1, h.step hgrants hstep, hrefines.2⟩

/-- What a state of a run says about a single-threaded shared mutex. `unlock_grants` and
`unlock_shared_grants` say whom a release by a holder grants the lock, in order. `in_order`: a
waiter that is granted the exclusive lock has nobody in front of it any more. `refines`: the run is
one of the abstract lock, event by event. -/
structure ReaderPreferring (ls : List (Label ι)) (s : Run ι) : Prop where
  exclusion : ¬ (s.impl.locked = true ∧ 0 < s.impl.lockedShared)
  shared_wait : s.impl.sharedWaiters ≠ [] → s.impl.locked = true
  exclusive_wait : s.impl.waiters ≠ [] → s.impl.locked = true ∨ 0 < s.impl.lockedShared
  one_exclusive : s.exclusive.length ≤ 1
  unlock_grants : ∀ r ∈ s.exclusive, s.impl.unlock.completed =
    if s.impl.sharedWaiters ≠ [] then s.impl.sharedWaiters else s.impl.waiters.take 1
  unlock_shared_grants : ∀ r ∈ s.shared, s.impl.unlockShared.completed =
    if s.shared = [r] then s.impl.waiters.take 1 else []
  in_order : ∀ w r, [w, r].Sublist s.impl.waiters → ∀ more t l u, run step s more = some t →
    step t l = some u → r ∉ t.exclusive → r ∈ u.exclusive → w ∉ t.impl.waiters
  refines : run ReadWriteLock.step .init (ls.map Label.event) = some s.lock

/-- A run is a run of the read/write lock. -/
theorem run_refines {ls : List (Label ι)} (h : Inv s) (hs : SingleThreaded s)
    (hrun : run step s ls = some t) :
    run ReadWriteLock.step s.lock (ls.map Label.event) = some t.lock ∧ Inv t ∧
      SingleThreaded t := by
  induction ls generalizing s with
  | nil =>
      obtain rfl := Option.some.inj hrun
      exact ⟨rfl, h, hs⟩
  | cons l ls ih =>
      obtain ⟨u, hu, hrest⟩ := run_cons.mp hrun
      obtain ⟨hlock, hinv, hsingle⟩ := step_refines h hs hu
      obtain ⟨hlocks, hlast⟩ := ih hinv hsingle hrest
      exact ⟨run_cons.mpr ⟨_, hlock, hlocks⟩, hlast⟩

omit [DecidableEq ι] in
/-- Shared requests wait for an exclusive holder, exclusive ones for any holder. -/
theorem waits_for_holder (h : Inv s) (hok : ReadWriteLock.Ok s.lock) :
    (s.impl.sharedWaiters ≠ [] → s.impl.locked = true) ∧
      (s.impl.waiters ≠ [] → s.impl.locked = true ∨ 0 < s.impl.lockedShared) := by
  constructor
  · intro hline
    by_contra hfree
    have hunlocked : s.impl.locked = false := by simpa using hfree
    exact hok.readers_wait hline ((admits_iff h.holders .shared).mpr hunlocked)
  · intro hline
    by_contra hfree
    have hunlocked : s.impl.locked = false ∧ s.impl.lockedShared = 0 := by simpa using hfree
    have hadmits := (admits_iff h.holders .exclusive).mpr hunlocked
    rcases hok.writers_wait hline with hwriter | hreaders
    · exact hwriter hadmits.1
    · exact hreaders hadmits.2

/-- A waiter that gets the exclusive lock has nobody in front of it any more. -/
theorem not_overtaken (h : Inv s) (hs : SingleThreaded s) (hok : ReadWriteLock.Ok s.lock)
    {w r : ι} (hline : [w, r].Sublist s.impl.waiters) {more : List (Label ι)} {l : Label ι}
    {u : Run ι} (hmore : run step s more = some t) (hstep : step t l = some u)
    (hbefore : r ∉ t.exclusive) (hafter : r ∈ u.exclusive) : w ∉ t.impl.waiters := by
  obtain ⟨hlocks, ht, hst⟩ := run_refines h hs hmore
  obtain ⟨hlock, hu, -⟩ := step_refines ht hst hstep
  have hwriter : t.lock.writer ≠ some r := fun he => hbefore (List.mem_of_mem_head? he)
  have hwriter' : u.lock.writer = some r := by
    simp [Run.lock, (hu.holders.of_exclusive hafter).1]
  exact ReadWriteLock.no_overtaking hok hline hlocks hlock hwriter hwriter'

/-- **The single-threaded shared mutex is a read/write lock that prefers readers**, in every state
of every run. -/
theorem reader_preferring {ls : List (Label ι)} (hrun : run step (Run.init false) ls = some s) :
    ReaderPreferring ls s := by
  have hstart : SingleThreaded (Run.init false : Run ι) :=
    ⟨rfl, rfl, fun w hw => by simp [Run.init, SharedMutexImpl.init, MutexImpl.init] at hw⟩
  obtain ⟨hlocks, h, hs⟩ := run_refines (Inv.init false) hstart hrun
  have hok : ReadWriteLock.Ok s.lock := ReadWriteLock.Ok.init.run hlocks
  obtain ⟨hshared, hexclusive⟩ := waits_for_holder h hok
  refine ⟨?_, hshared, hexclusive, ?_, fun r hr => unlock_completed h hr,
    fun r hr => unlockShared_completed h hr, ?_, hlocks⟩
  · intro hboth
    have hone := h.holders.1.mp hboth.1
    obtain ⟨r, hr⟩ := List.length_eq_one_iff.mp hone
    have halone := h.holders.of_exclusive (r := r) (by simp [hr])
    omega
  · by_cases hnil : s.exclusive = []
    · simp [hnil]
    · exact Nat.le_of_eq (h.holders.2.2 hnil).1
  · intro w r hline more t l u hmore hstep hbefore hafter
    exact not_overtaken h hs hok hline hmore hstep hbefore hafter

/-- A run in which the waiting readers `1` and `2` are granted together, a waiting writer is
cancelled, and the last reader hands over to the other writer. -/
theorem reader_preferring_both :
    ∃ s : Run Nat, s.exclusive = [5] ∧ s.shared = [] ∧ s.impl.waiters = [6] ∧
      ReaderPreferring [.tryLock 0, .asyncLockShared 1, .asyncLock 4, .asyncLockShared 2,
        .asyncLock 5, .lock 3, .unlock 0, .cancel 4, .asyncLock 6, .unlockShared 1,
        .unlockShared 2] s :=
  ⟨_, rfl, rfl, rfl, reader_preferring rfl⟩

end SharedMutex

end Sam
