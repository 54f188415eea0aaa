import Sam.Detail.SharedMutexImpl
import Sam.Linked.Placed

/-!
# The two mutexes in memory

The critical sections of `mutex_impl` and `shared_mutex_impl` over the nodes of their waiter lists,
in `detail/impl/mutex_impl.ipp`, `detail/impl/shared_mutex_impl.ipp`, `impl/basic_mutex.hpp` and
`impl/basic_shared_mutex.hpp`. `MutexObject.linked` and `SharedMutexObject.linked` say that they
refine the sections over sequences of ops. -/

namespace Sam

open Links

universe u

variable {α : Type u} [DecidableEq α]

namespace MutexObject

/-- Write `locked_`. -/
def setLocked (s : Placed α (MutexObject α)) (locked : Bool) : Placed α (MutexObject α) :=
  { s with object := { s.object with locked } }

/-- `add_waiter` of a new op. -/
def addWaiter (s : Placed α (MutexObject α)) (waiter : α) : Placed α (MutexObject α) :=
  { s with memory := s.memory.enqueue s.object.waiters waiter }

/-- `try_lock`. -/
def tryLock (s : Placed α (MutexObject α)) : Return α (MutexObject α) :=
  if s.object.locked then ⟨.refused, s⟩ else ⟨.granted, setLocked s true⟩

/-- `async_lock_op`. -/
def asyncLock (s : Placed α (MutexObject α)) (op : α) : Return α (MutexObject α) :=
  if !s.object.locked then ⟨.granted, setLocked s true⟩ else ⟨.queued, addWaiter s op⟩

/-- `lock`. -/
def lock (s : Placed α (MutexObject α)) (op : α) : Return α (MutexObject α) :=
  if !s.enabled then
    match (tryLock s).outcome with
    | .granted => tryLock s
    | _ => ⟨.failed .inProgress, s⟩
  else
    let queued := addWaiter s op
    if !queued.object.locked then
      -- the local op leaves the list before it goes out of scope
      let locked := setLocked queued true
      ⟨.granted, { locked with memory := locked.memory.unlink op }⟩
    else ⟨.queued, queued⟩

/-- `unlock`. -/
def unlock (s : Placed α (MutexObject α)) : Return α (MutexObject α) :=
  let first := s.memory.links.next s.object.waiters
  if first = s.object.waiters then ⟨.returned, setLocked s false⟩
  else ⟨.returned, { s with memory := s.memory.complete first .success }⟩

/-- The mutex in memory has these waiters and this flag. -/
structure Represents (s : Placed α (MutexObject α)) (m : MutexImpl α) : Prop where
  rings : Rings s.memory.links [(s.object.waiters, m.waiters)]
  locked : s.object.locked = m.locked
  enabled : s.enabled = m.enabled

variable {s : Placed α (MutexObject α)} {m : MutexImpl α} {op : α}

/-- `lock` on a free mutex takes the lock; its op was in the list for a moment. -/
theorem lock_of_free (hfree : s.object.locked = false) :
    lock s op = ⟨.granted, setLocked
      { s with memory := s.memory.passThrough s.enabled s.object.waiters op } true⟩ := by
  cases hmode : s.enabled <;>
    simp [lock, tryLock, addWaiter, setLocked, Memory.passThrough, hmode, hfree]

/-- `lock` on a taken mutex waits, or fails in single-threaded mode. -/
theorem lock_of_locked (hlocked : s.object.locked = true) :
    lock s op = if s.enabled then ⟨.queued, addWaiter s op⟩ else ⟨.failed .inProgress, s⟩ := by
  cases hmode : s.enabled <;> simp [lock, tryLock, addWaiter, hmode, hlocked]

namespace Represents

omit [DecidableEq α] in
/-- An op that is new is not in the list. -/
theorem not_mem_nodes (hop : op ∉ [s.object.waiters] ++ m.waiters) :
    op ∉ nodes [(s.object.waiters, m.waiters)] := by
  simpa using hop

omit [DecidableEq α] in
/-- The flag is written. -/
theorem setLocked (h : Represents s m) (locked : Bool) :
    Represents (setLocked s locked) { m with locked } :=
  ⟨h.rings, rfl, h.enabled⟩

/-- A new op joins the waiters. -/
theorem addWaiter (h : Represents s m) (hop : op ∉ [s.object.waiters] ++ m.waiters) :
    Represents (addWaiter s op) (m.addWaiter op) :=
  ⟨Memory.enqueue_rings h.rings (not_mem_nodes hop), h.locked, h.enabled⟩

/-- An op joined the waiters and left them. -/
theorem passThrough (h : Represents s m) (hop : op ∉ [s.object.waiters] ++ m.waiters) :
    Represents { s with memory := s.memory.passThrough s.enabled s.object.waiters op } m :=
  ⟨Memory.passThrough_rings h.rings (not_mem_nodes hop) _, h.locked, h.enabled⟩

omit [DecidableEq α] in
/-- `try_lock`. -/
theorem tryLock (h : Represents s m) : RefinesResult Represents s (tryLock s) m.tryLock := by
  unfold MutexObject.tryLock MutexImpl.tryLock
  rw [h.locked]
  split
  · exact ⟨rfl, h, by simp⟩
  · exact ⟨rfl, h.setLocked true, by simp [MutexObject.setLocked]⟩

/-- `async_lock`. -/
theorem asyncLock (h : Represents s m) (hop : op ∉ [s.object.waiters] ++ m.waiters) :
    RefinesResult Represents s (asyncLock s op) (m.asyncLock op) := by
  unfold MutexObject.asyncLock MutexImpl.asyncLock
  rw [h.locked]
  split
  · exact ⟨rfl, h.setLocked true, by simp [MutexObject.setLocked]⟩
  · exact ⟨rfl, h.addWaiter hop, by simp [MutexObject.addWaiter, Memory.enqueue]⟩

/-- `lock`. -/
theorem lock (h : Represents s m) (hop : op ∉ [s.object.waiters] ++ m.waiters) :
    RefinesResult Represents s (lock s op) (m.lock op) := by
  have hout : op ∉ m.waiters := fun hmem => hop (List.mem_append_right _ hmem)
  cases hlocked : m.locked with
  | false =>
      rw [lock_of_free (h.locked.trans hlocked), MutexImpl.lock_of_free hout hlocked]
      exact ⟨rfl, (h.passThrough hop).setLocked true, by simp [MutexObject.setLocked]⟩
  | true =>
      rw [lock_of_locked (h.locked.trans hlocked), MutexImpl.lock_of_locked hlocked, h.enabled]
      split
      · exact ⟨rfl, h.addWaiter hop, by simp [MutexObject.addWaiter, Memory.enqueue]⟩
      · exact ⟨rfl, h, by simp⟩

/-- `unlock`. -/
theorem unlock (h : Represents s m) : RefinesResult Represents s (unlock s) m.unlock := by
  have hempty := h.rings.head.next_root_eq_iff
  unfold MutexObject.unlock
  cases hwaiters : m.waiters with
  | nil =>
      rw [if_pos (hempty.mpr hwaiters), MutexImpl.unlock_of_none hwaiters]
      exact ⟨rfl, h.setLocked false, by simp [MutexObject.setLocked]⟩
  | cons op rest =>
      have hrings := h.rings
      rw [hwaiters] at hrings
      rw [if_neg (hempty.not.mpr (by simp [hwaiters])), hrings.head.next_root,
        MutexImpl.unlock_of_waiter hwaiters]
      exact ⟨rfl, ⟨Memory.complete_rings hrings .success, h.locked, h.enabled⟩, rfl⟩

/-- A queued op is cancelled. -/
theorem cancel (h : Represents s m) (hop : op ∈ m.waiters) :
    Represents { s with memory := s.memory.complete op .operationAborted } (m.unlink op) :=
  ⟨BilistNode.unlink_rings h.rings hop, h.locked, h.enabled⟩

end Represents

/-- The calls of a mutex in memory, with the nodes of their ops. -/
inductive Call (α : Type u) where
  | tryLock
  | lock (op : α)
  | asyncLock (op : α)
  | unlock
  deriving DecidableEq, Repr

/-- The op of a call. -/
def Call.request : Call α → Option α
  | .lock op | .asyncLock op => some op
  | _ => none

/-- The critical section of a call in memory. -/
def Call.onLinks (s : Placed α (MutexObject α)) : Call α → Return α (MutexObject α)
  | .tryLock => MutexObject.tryLock s
  | .lock op => MutexObject.lock s op
  | .asyncLock op => MutexObject.asyncLock s op
  | .unlock => MutexObject.unlock s

/-- The critical section of a call over sequences. -/
def Call.onLists (m : MutexImpl α) : Call α → Result (MutexImpl α) α
  | .tryLock => m.tryLock
  | .lock op => m.lock op
  | .asyncLock op => m.asyncLock op
  | .unlock => m.unlock

/-- Every call in memory does what it does over sequences. -/
theorem Call.refines (h : Represents s m) {c : Call α}
    (hop : ∀ op ∈ c.request, op ∉ [s.object.waiters] ++ m.waiters) :
    RefinesResult Represents s (c.onLinks s) (c.onLists m) := by
  cases c with
  | tryLock => exact h.tryLock
  | lock op => exact h.lock (hop op rfl)
  | asyncLock op => exact h.asyncLock (hop op rfl)
  | unlock => exact h.unlock

/-- No call moves the list to another root. -/
theorem Call.onLinks_waiters (s : Placed α (MutexObject α)) (c : Call α) :
    (c.onLinks s).state.object.waiters = s.object.waiters := by
  cases c with
  | tryLock =>
      simp only [onLinks, MutexObject.tryLock]
      split <;> rfl
  | lock op =>
      cases hlocked : s.object.locked with
      | false =>
          rw [onLinks, lock_of_free hlocked]
          rfl
      | true =>
          rw [onLinks, lock_of_locked hlocked]
          split <;> rfl
  | asyncLock op =>
      simp only [onLinks, MutexObject.asyncLock]
      split <;> rfl
  | unlock =>
      simp only [onLinks, MutexObject.unlock]
      split <;> rfl

/-- The mutex in memory refines the mutex. -/
def linked : Linked α where
  Object := MutexObject α
  Impl := MutexImpl α
  Call := Call α
  request := Call.request
  roots o := [o.waiters]
  queued m := m.waiters
  unlink := MutexImpl.unlink
  onLists m c := c.onLists m
  onLinks _ s c := some (c.onLinks s)
  Represents := Represents
  refines h hop _ := ⟨_, rfl, Call.refines h hop, by rw [Call.onLinks_waiters]⟩
  cancels h hop := h.cancel hop

end MutexObject

namespace SharedMutexObject

/-- Write `locked_`. -/
def setLocked (s : Placed α (SharedMutexObject α)) (locked : Bool) :
    Placed α (SharedMutexObject α) :=
  { s with object := { s.object with locked } }

/-- Write `locked_shared_`. -/
def setShared (s : Placed α (SharedMutexObject α)) (lockedShared : Nat) :
    Placed α (SharedMutexObject α) :=
  { s with object := { s.object with lockedShared } }

/-- `add_waiter` of a new op. -/
def addWaiter (s : Placed α (SharedMutexObject α)) (waiter : α) : Placed α (SharedMutexObject α) :=
  { s with memory := s.memory.enqueue s.object.waiters waiter }

/-- `add_shared_waiter` of a new op. -/
def addSharedWaiter (s : Placed α (SharedMutexObject α)) (waiter : α) :
    Placed α (SharedMutexObject α) :=
  { s with memory := s.memory.enqueue s.object.sharedWaiters waiter }

/-- `try_lock`. -/
def tryLock (s : Placed α (SharedMutexObject α)) : Return α (SharedMutexObject α) :=
  if s.object.locked || decide (0 < s.object.lockedShared) then ⟨.refused, s⟩
  else ⟨.granted, setLocked s true⟩

/-- `try_lock_shared`. -/
def tryLockShared (s : Placed α (SharedMutexObject α)) : Return α (SharedMutexObject α) :=
  if s.object.locked then ⟨.refused, s⟩
  else ⟨.granted, setShared s (s.object.lockedShared + 1)⟩

/-- `async_lock_op`. -/
def asyncLock (s : Placed α (SharedMutexObject α)) (op : α) : Return α (SharedMutexObject α) :=
  if !s.object.locked && s.object.lockedShared == 0 then ⟨.granted, setLocked s true⟩
  else ⟨.queued, addWaiter s op⟩

/-- `async_lock_shared_op`. -/
def asyncLockShared (s : Placed α (SharedMutexObject α)) (op : α) :
    Return α (SharedMutexObject α) :=
  if !s.object.locked then ⟨.granted, setShared s (s.object.lockedShared + 1)⟩
  else ⟨.queued, addSharedWaiter s op⟩

/-- `lock`. -/
def lock (s : Placed α (SharedMutexObject α)) (op : α) : Return α (SharedMutexObject α) :=
  if !s.enabled then
    match (tryLock s).outcome with
    | .granted => tryLock s
    | _ => ⟨.failed .inProgress, s⟩
  else
    let queued := addWaiter s op
    if !queued.object.locked && queued.object.lockedShared == 0 then
      let locked := setLocked queued true
      ⟨.granted, { locked with memory := locked.memory.unlink op }⟩
    else ⟨.queued, queued⟩

/-- `lock_shared`. It queues its op with `add_waiter`. -/
def lockShared (s : Placed α (SharedMutexObject α)) (op : α) : Return α (SharedMutexObject α) :=
  if !s.enabled then
    match (tryLockShared s).outcome with
    | .granted => tryLockShared s
    | _ => ⟨.failed .inProgress, s⟩
  else
    let queued := addWaiter s op
    if !queued.object.locked then
      let locked := setShared queued (queued.object.lockedShared + 1)
      ⟨.granted, { locked with memory := locked.memory.unlink op }⟩
    else ⟨.queued, queued⟩

/-- The loop of `unlock` over the shared waiters. It gives up when `fuel` runs out. -/
def wakeShared : Nat → Placed α (SharedMutexObject α) → Option (Placed α (SharedMutexObject α))
  | 0, _ => none
  | fuel + 1, s =>
      let first := s.memory.links.next s.object.sharedWaiters
      if first = s.object.sharedWaiters then some s
      else
        let counted := setShared s (s.object.lockedShared + 1)
        -- `complete` unlinks the op, and the next one is the first
        wakeShared fuel { counted with memory := counted.memory.complete first .success }

/-- `unlock`. -/
def unlock (fuel : Nat) (s : Placed α (SharedMutexObject α)) :
    Option (Return α (SharedMutexObject α)) :=
  if s.memory.links.next s.object.sharedWaiters ≠ s.object.sharedWaiters then
    (wakeShared fuel (setLocked s false)).map (⟨.returned, ·⟩)
  else
    let first := s.memory.links.next s.object.waiters
    if first = s.object.waiters then some ⟨.returned, setLocked s false⟩
    else some ⟨.returned, { s with memory := s.memory.complete first .success }⟩

/-- `unlock_shared`. -/
def unlockShared (s : Placed α (SharedMutexObject α)) : Return α (SharedMutexObject α) :=
  let released :=
    if 0 < s.object.lockedShared then setShared s (s.object.lockedShared - 1) else s
  if released.object.lockedShared = 0 then
    let first := released.memory.links.next released.object.waiters
    if first ≠ released.object.waiters then
      let locked := setLocked released true
      ⟨.returned, { locked with memory := locked.memory.complete first .success }⟩
    else ⟨.returned, released⟩
  else ⟨.returned, released⟩

/-- The shared mutex in memory has these waiters, this flag and this count. -/
structure Represents (s : Placed α (SharedMutexObject α)) (m : SharedMutexImpl α) : Prop where
  rings : Rings s.memory.links
    [(s.object.waiters, m.waiters), (s.object.sharedWaiters, m.sharedWaiters)]
  locked : s.object.locked = m.locked
  shared : s.object.lockedShared = m.lockedShared
  enabled : s.enabled = m.enabled

variable {s : Placed α (SharedMutexObject α)} {m : SharedMutexImpl α} {op : α}

/-- `lock` on a free mutex takes the lock; its op was in the list for a moment. -/
theorem lock_of_free (hfree : s.object.locked = false) (hshared : s.object.lockedShared = 0) :
    lock s op = ⟨.granted, setLocked
      { s with memory := s.memory.passThrough s.enabled s.object.waiters op } true⟩ := by
  cases hmode : s.enabled <;>
    simp [lock, tryLock, addWaiter, setLocked, Memory.passThrough, hmode, hfree, hshared]

/-- `lock` on a taken mutex waits, or fails in single-threaded mode. -/
theorem lock_of_taken (htaken : s.object.locked = true ∨ 0 < s.object.lockedShared) :
    lock s op = if s.enabled then ⟨.queued, addWaiter s op⟩ else ⟨.failed .inProgress, s⟩ := by
  have hcond : (!s.object.locked && s.object.lockedShared == 0) = false := by
    simpa [imp_iff_or_not, Nat.pos_iff_ne_zero, or_comm] using htaken
  cases hmode : s.enabled with
  | false => simp [lock, tryLock, hmode, htaken]
  | true =>
      have hqueued : (!(addWaiter s op).object.locked &&
          (addWaiter s op).object.lockedShared == 0) = false := hcond
      simp only [lock, hmode, Bool.not_true, Bool.false_eq_true, if_false, hqueued, if_true]

/-- `lock_shared` without an exclusive holder joins the shared ones. -/
theorem lockShared_of_free (hfree : s.object.locked = false) :
    lockShared s op = ⟨.granted, setShared
      { s with memory := s.memory.passThrough s.enabled s.object.waiters op }
      (s.object.lockedShared + 1)⟩ := by
  cases hmode : s.enabled <;>
    simp [lockShared, tryLockShared, addWaiter, setShared, Memory.passThrough, hmode, hfree]

/-- `lock_shared` with an exclusive holder waits, or fails in single-threaded mode. -/
theorem lockShared_of_locked (hlocked : s.object.locked = true) :
    lockShared s op =
      if s.enabled then ⟨.queued, addWaiter s op⟩ else ⟨.failed .inProgress, s⟩ := by
  cases hmode : s.enabled <;> simp [lockShared, tryLockShared, addWaiter, hmode, hlocked]

namespace Represents

omit [DecidableEq α] in
/-- The lists of waiters share no op. -/
theorem nodup (h : Represents s m) : (m.waiters ++ m.sharedWaiters).Nodup := by
  have hnodes := h.rings.1
  simp only [nodes, List.flatMap_cons, List.flatMap_nil, List.append_nil] at hnodes
  obtain ⟨hfirst, hsecond, hdisj⟩ := List.nodup_append.mp hnodes
  refine List.nodup_append.mpr ⟨(List.nodup_cons.mp hfirst).2, (List.nodup_cons.mp hsecond).2, ?_⟩
  exact fun a ha b hb => hdisj a (List.mem_cons_of_mem _ ha) b (List.mem_cons_of_mem _ hb)

omit [DecidableEq α] in
/-- An op that is new is in neither list. -/
theorem not_mem_nodes
    (hop : op ∉ [s.object.waiters, s.object.sharedWaiters] ++ (m.waiters ++ m.sharedWaiters)) :
    op ∉ nodes [(s.object.waiters, m.waiters), (s.object.sharedWaiters, m.sharedWaiters)] := by
  simp only [List.mem_append, List.mem_cons, List.not_mem_nil, or_false, not_or] at hop
  simp only [mem_nodes_cons, nodes_nil, List.not_mem_nil, or_false, not_or]
  tauto

omit [DecidableEq α] in
/-- The shared waiters first. -/
theorem swap (h : Represents s m) : Rings s.memory.links
    [(s.object.sharedWaiters, m.sharedWaiters), (s.object.waiters, m.waiters)] :=
  h.rings.bring [_]

omit [DecidableEq α] in
/-- The flag is written. -/
theorem setLocked (h : Represents s m) (locked : Bool) :
    Represents (setLocked s locked) { m with locked } :=
  ⟨h.rings, rfl, h.shared, h.enabled⟩

omit [DecidableEq α] in
/-- The count is written. -/
theorem setShared (h : Represents s m) (lockedShared : Nat) :
    Represents (setShared s lockedShared) { m with lockedShared } :=
  ⟨h.rings, h.locked, rfl, h.enabled⟩

section Requests

variable
  (hop : op ∉ [s.object.waiters, s.object.sharedWaiters] ++ (m.waiters ++ m.sharedWaiters))

include hop

/-- A new op joins the exclusive waiters. -/
theorem addWaiter (h : Represents s m) : Represents (addWaiter s op) (m.addWaiter op) :=
  ⟨Memory.enqueue_rings h.rings (not_mem_nodes hop), h.locked, h.shared, h.enabled⟩

/-- A new op joins the shared waiters. -/
theorem addSharedWaiter (h : Represents s m) :
    Represents (addSharedWaiter s op) (m.addSharedWaiter op) := by
  have hnew := (mem_nodes_perm (List.Perm.swap (s.object.sharedWaiters, m.sharedWaiters)
    (s.object.waiters, m.waiters) [])).not.mp (not_mem_nodes hop)
  exact ⟨(Memory.enqueue_rings h.swap hnew).bring [_], h.locked, h.shared, h.enabled⟩

/-- An op joined the exclusive waiters and left them. -/
theorem passThrough (h : Represents s m) :
    Represents { s with memory := s.memory.passThrough s.enabled s.object.waiters op } m :=
  ⟨Memory.passThrough_rings h.rings (not_mem_nodes hop) _, h.locked, h.shared, h.enabled⟩

/-- `async_lock`. -/
theorem asyncLock (h : Represents s m) :
    RefinesResult Represents s (asyncLock s op) (m.asyncLock op) := by
  unfold SharedMutexObject.asyncLock SharedMutexImpl.asyncLock
  rw [h.locked, h.shared]
  split
  · exact ⟨rfl, h.setLocked true, by simp [SharedMutexObject.setLocked]⟩
  · exact ⟨rfl, h.addWaiter hop, by simp [SharedMutexObject.addWaiter, Memory.enqueue]⟩

/-- `async_lock_shared`. -/
theorem asyncLockShared (h : Represents s m) :
    RefinesResult Represents s (asyncLockShared s op) (m.asyncLockShared op) := by
  unfold SharedMutexObject.asyncLockShared SharedMutexImpl.asyncLockShared
  rw [h.locked, h.shared]
  split
  · exact ⟨rfl, h.setShared _, by simp [SharedMutexObject.setShared]⟩
  · exact ⟨rfl, h.addSharedWaiter hop, by simp [SharedMutexObject.addSharedWaiter, Memory.enqueue]⟩

/-- `lock`. -/
theorem lock (h : Represents s m) : RefinesResult Represents s (lock s op) (m.lock op) := by
  have hout : op ∉ m.waiters ++ m.sharedWaiters := fun hmem => hop (List.mem_append_right _ hmem)
  by_cases htaken : m.locked = true ∨ 0 < m.lockedShared
  · rw [lock_of_taken (by rwa [h.locked, h.shared]), SharedMutexImpl.lock_of_taken htaken,
      h.enabled]
    split
    · exact ⟨rfl, h.addWaiter hop, by simp [SharedMutexObject.addWaiter, Memory.enqueue]⟩
    · exact ⟨rfl, h, by simp⟩
  · have hfree : m.locked = false ∧ m.lockedShared = 0 := by simpa using htaken
    rw [lock_of_free (h.locked.trans hfree.1) (h.shared.trans hfree.2),
      SharedMutexImpl.lock_of_free hout hfree.1 hfree.2]
    exact ⟨rfl, (h.passThrough hop).setLocked true, by simp [SharedMutexObject.setLocked]⟩

/-- `lock_shared`. -/
theorem lockShared (h : Represents s m) :
    RefinesResult Represents s (lockShared s op) (m.lockShared op) := by
  have hout : op ∉ m.waiters ++ m.sharedWaiters := fun hmem => hop (List.mem_append_right _ hmem)
  cases hlocked : m.locked with
  | false =>
      rw [lockShared_of_free (h.locked.trans hlocked), h.shared,
        SharedMutexImpl.lockShared_of_free hout hlocked]
      exact ⟨rfl, (h.passThrough hop).setShared _, by simp [SharedMutexObject.setShared]⟩
  | true =>
      rw [lockShared_of_locked (h.locked.trans hlocked),
        SharedMutexImpl.lockShared_of_locked hlocked, h.enabled]
      split
      · exact ⟨rfl, h.addWaiter hop, by simp [SharedMutexObject.addWaiter, Memory.enqueue]⟩
      · exact ⟨rfl, h, by simp⟩

end Requests

omit [DecidableEq α] in
/-- `try_lock`. -/
theorem tryLock (h : Represents s m) : RefinesResult Represents s (tryLock s) m.tryLock := by
  unfold SharedMutexObject.tryLock SharedMutexImpl.tryLock
  rw [h.locked, h.shared]
  split
  · exact ⟨rfl, h, by simp⟩
  · exact ⟨rfl, h.setLocked true, by simp [SharedMutexObject.setLocked]⟩

omit [DecidableEq α] in
/-- `try_lock_shared`. -/
theorem tryLockShared (h : Represents s m) :
    RefinesResult Represents s (tryLockShared s) m.tryLockShared := by
  unfold SharedMutexObject.tryLockShared SharedMutexImpl.tryLockShared
  rw [h.locked, h.shared]
  split
  · exact ⟨rfl, h, by simp⟩
  · exact ⟨rfl, h.setShared _, by simp [SharedMutexObject.setShared]⟩

/-- The loop of `unlock` counts and completes all shared waiters. -/
theorem wakeShared {X XS : List α} {fuel : Nat}
    (h : Rings s.memory.links [(s.object.sharedWaiters, XS), (s.object.waiters, X)])
    (hfuel : XS.length < fuel) :
    ∃ links, wakeShared fuel s =
        some { s with
          memory :=
            { s.memory with
              links, completed := s.memory.completed ++ XS.map (·, .success) }
          object := { s.object with lockedShared := s.object.lockedShared + XS.length } } ∧
      Rings links [(s.object.sharedWaiters, []), (s.object.waiters, X)] := by
  -- one op leaves in each turn, counted before it is completed
  induction XS generalizing s fuel with
  | nil =>
      cases fuel with
      | zero => simp at hfuel
      | succ fuel =>
          have hempty := h.head.next_root_eq_iff.mpr rfl
          exact ⟨s.memory.links, by simp [SharedMutexObject.wakeShared, hempty], h⟩
  | cons op XS ih =>
      cases fuel with
      | zero => simp at hfuel
      | succ fuel =>
          have hne : op ≠ s.object.sharedWaiters := fun he =>
            h.head.root_not_mem (he ▸ List.mem_cons_self)
          have hcounted := Memory.complete_rings h .success
          obtain ⟨links, hrun, hrings⟩ := ih
            (s := { SharedMutexObject.setShared s (s.object.lockedShared + 1) with
              memory := s.memory.complete op .success })
            hcounted (Nat.lt_of_succ_lt_succ hfuel)
          refine ⟨links, ?_, hrings⟩
          rw [SharedMutexObject.wakeShared, h.head.next_root, if_neg hne]
          refine hrun.trans ?_
          have hcount : s.object.lockedShared + 1 + XS.length =
              s.object.lockedShared + (op :: XS).length := by
            rw [List.length_cons]
            omega
          simp [SharedMutexObject.setShared, Memory.complete, hcount]

/-- `unlock`. -/
theorem unlock (h : Represents s m) {fuel : Nat}
    (hfuel : (m.waiters ++ m.sharedWaiters).length < fuel) :
    ∃ r, unlock fuel s = some r ∧ RefinesResult Represents s r m.unlock ∧
      r.state.object.waiters = s.object.waiters ∧
      r.state.object.sharedWaiters = s.object.sharedWaiters := by
  have hempty := h.rings.head.next_root_eq_iff
  have hemptyShared := h.swap.head.next_root_eq_iff
  unfold SharedMutexObject.unlock
  by_cases hshared : m.sharedWaiters = []
  · rw [if_neg (not_not.mpr (hemptyShared.mpr hshared))]
    cases hwaiters : m.waiters with
    | nil =>
        rw [if_pos (hempty.mpr hwaiters), SharedMutexImpl.unlock_of_none hshared hwaiters]
        exact ⟨_, rfl, ⟨rfl, h.setLocked false, by simp [SharedMutexObject.setLocked]⟩, rfl, rfl⟩
    | cons op rest =>
        have hrings := h.rings
        rw [hwaiters] at hrings
        rw [if_neg (hempty.not.mpr (by simp [hwaiters])), hrings.head.next_root,
          SharedMutexImpl.unlock_of_waiter hshared hwaiters]
        exact ⟨_, rfl, ⟨rfl, ⟨Memory.complete_rings hrings .success, h.locked, h.shared,
          h.enabled⟩, rfl⟩, rfl, rfl⟩
  · have hfuel' : m.sharedWaiters.length < fuel := by
      rw [List.length_append] at hfuel
      omega
    have hfreed : Rings (SharedMutexObject.setLocked s false).memory.links
        [(s.object.sharedWaiters, m.sharedWaiters), (s.object.waiters, m.waiters)] := h.swap
    obtain ⟨links, hrun, hrings⟩ := wakeShared (s := SharedMutexObject.setLocked s false)
      hfreed hfuel'
    rw [if_pos (hemptyShared.not.mpr hshared), hrun,
      SharedMutexImpl.unlock_of_shared h.nodup hshared]
    refine ⟨_, rfl, ⟨rfl, ⟨hrings.bring [_], rfl, ?_, h.enabled⟩, rfl⟩, rfl, rfl⟩
    exact congrArg (· + _) h.shared

/-- `unlock_shared`. -/
theorem unlockShared (h : Represents s m) :
    RefinesResult Represents s (unlockShared s) m.unlockShared := by
  -- the count goes down first, which leaves the lists alone
  have hreleased : Represents
      (if 0 < s.object.lockedShared then
        SharedMutexObject.setShared s (s.object.lockedShared - 1) else s)
      (if 0 < m.lockedShared then { m with lockedShared := m.lockedShared - 1 } else m) := by
    rw [h.shared]
    split
    · exact h.setShared _
    · exact h
  have hsame : (if 0 < s.object.lockedShared then
      SharedMutexObject.setShared s (s.object.lockedShared - 1) else s).memory = s.memory := by
    split <;> rfl
  unfold SharedMutexObject.unlockShared SharedMutexImpl.unlockShared
  generalize (if 0 < s.object.lockedShared then
    SharedMutexObject.setShared s (s.object.lockedShared - 1) else s) = t at hreleased hsame ⊢
  generalize (if 0 < m.lockedShared then { m with lockedShared := m.lockedShared - 1 } else m) = n
    at hreleased ⊢
  have hempty := hreleased.rings.head.next_root_eq_iff
  by_cases hlast : n.lockedShared = 0
  · simp only [hreleased.shared, hlast, beq_self_eq_true, if_true]
    cases hwaiters : n.waiters with
    | nil =>
        rw [if_neg (not_not.mpr (hempty.mpr hwaiters))]
        exact ⟨rfl, hreleased, by simp [hsame]⟩
    | cons op rest =>
        have hrings := hreleased.rings
        rw [hwaiters] at hrings
        have hop : op ∉ n.sharedWaiters := fun hmem =>
          (List.nodup_append.mp hreleased.nodup).2.2 op (by simp [hwaiters]) op hmem rfl
        rw [if_pos (hempty.not.mpr (by simp [hwaiters])), hrings.head.next_root]
        refine ⟨rfl, ⟨?_, rfl, hreleased.shared.trans hlast, hreleased.enabled⟩, ?_⟩
        · simpa [SharedMutexObject.setLocked, SharedMutexImpl.unlink, hwaiters,
            List.erase_of_not_mem hop] using Memory.complete_rings hrings .success
        · simp [SharedMutexObject.setLocked, Memory.complete, hsame]
  · simp only [hreleased.shared, hlast, beq_iff_eq, if_false]
    exact ⟨rfl, hreleased, by simp [hsame]⟩

/-- A queued op is cancelled. -/
theorem cancel (h : Represents s m) (hop : op ∈ m.waiters ++ m.sharedWaiters) :
    Represents { s with memory := s.memory.complete op .operationAborted } (m.unlink op) := by
  refine ⟨?_, h.locked, h.shared, h.enabled⟩
  have hdisj := (List.nodup_append.mp h.nodup).2.2
  rcases List.mem_append.mp hop with hmem | hmem
  · have hshared : op ∉ m.sharedWaiters := fun hout => hdisj op hmem op hout rfl
    show Rings _ [(_, m.waiters.erase op), (_, m.sharedWaiters.erase op)]
    rw [List.erase_of_not_mem hshared]
    exact BilistNode.unlink_rings h.rings hmem
  · have hwaiters : op ∉ m.waiters := fun hout => hdisj op hout op hmem rfl
    show Rings _ [(_, m.waiters.erase op), (_, m.sharedWaiters.erase op)]
    rw [List.erase_of_not_mem hwaiters]
    exact (BilistNode.unlink_rings h.swap hmem).bring [_]

end Represents

/-- The calls of a shared mutex in memory, with the nodes of their ops. -/
inductive Call (α : Type u) where
  | tryLock
  | lock (op : α)
  | asyncLock (op : α)
  | unlock
  | tryLockShared
  | lockShared (op : α)
  | asyncLockShared (op : α)
  | unlockShared
  deriving DecidableEq, Repr

/-- The op of a call. -/
def Call.request : Call α → Option α
  | .lock op | .asyncLock op | .lockShared op | .asyncLockShared op => some op
  | _ => none

/-- The critical section of a call in memory. -/
def Call.onLinks (fuel : Nat) (s : Placed α (SharedMutexObject α)) :
    Call α → Option (Return α (SharedMutexObject α))
  | .tryLock => some (SharedMutexObject.tryLock s)
  | .lock op => some (SharedMutexObject.lock s op)
  | .asyncLock op => some (SharedMutexObject.asyncLock s op)
  | .unlock => SharedMutexObject.unlock fuel s
  | .tryLockShared => some (SharedMutexObject.tryLockShared s)
  | .lockShared op => some (SharedMutexObject.lockShared s op)
  | .asyncLockShared op => some (SharedMutexObject.asyncLockShared s op)
  | .unlockShared => some (SharedMutexObject.unlockShared s)

/-- The critical section of a call over sequences. -/
def Call.onLists (m : SharedMutexImpl α) : Call α → Result (SharedMutexImpl α) α
  | .tryLock => m.tryLock
  | .lock op => m.lock op
  | .asyncLock op => m.asyncLock op
  | .unlock => m.unlock
  | .tryLockShared => m.tryLockShared
  | .lockShared op => m.lockShared op
  | .asyncLockShared op => m.asyncLockShared op
  | .unlockShared => m.unlockShared

/-- The lists hang on the same roots. -/
def SameRoots (s t : Placed α (SharedMutexObject α)) : Prop :=
  t.object.waiters = s.object.waiters ∧ t.object.sharedWaiters = s.object.sharedWaiters

/-- The three forms of `lock` do not move the lists. -/
theorem lock_sameRoots (s : Placed α (SharedMutexObject α)) (op : α) :
    SameRoots s (tryLock s).state ∧ SameRoots s (asyncLock s op).state ∧
      SameRoots s (lock s op).state := by
  refine ⟨?_, ?_, ?_⟩
  · unfold tryLock
    split <;> exact ⟨rfl, rfl⟩
  · unfold asyncLock
    split <;> exact ⟨rfl, rfl⟩
  · by_cases htaken : s.object.locked = true ∨ 0 < s.object.lockedShared
    · rw [lock_of_taken htaken]
      split <;> exact ⟨rfl, rfl⟩
    · have hfree : s.object.locked = false ∧ s.object.lockedShared = 0 := by simpa using htaken
      rw [lock_of_free hfree.1 hfree.2]
      exact ⟨rfl, rfl⟩

/-- The three forms of `lock_shared` do not move the lists. -/
theorem lockShared_sameRoots (s : Placed α (SharedMutexObject α)) (op : α) :
    SameRoots s (tryLockShared s).state ∧ SameRoots s (asyncLockShared s op).state ∧
      SameRoots s (lockShared s op).state := by
  refine ⟨?_, ?_, ?_⟩
  · unfold tryLockShared
    split <;> exact ⟨rfl, rfl⟩
  · unfold asyncLockShared
    split <;> exact ⟨rfl, rfl⟩
  · cases hlocked : s.object.locked with
    | false =>
        rw [lockShared_of_free hlocked]
        exact ⟨rfl, rfl⟩
    | true =>
        rw [lockShared_of_locked hlocked]
        split <;> exact ⟨rfl, rfl⟩

/-- `unlock_shared` does not move the lists. -/
theorem unlockShared_sameRoots (s : Placed α (SharedMutexObject α)) :
    SameRoots s (unlockShared s).state := by
  simp only [unlockShared]
  repeat' split
  all_goals exact ⟨rfl, rfl⟩

/-- Every call in memory does what it does over sequences. -/
theorem Call.refines (h : Represents s m) {c : Call α} {fuel : Nat}
    (hop : ∀ op ∈ c.request, op ∉ [s.object.waiters, s.object.sharedWaiters] ++
      (m.waiters ++ m.sharedWaiters))
    (hfuel : (m.waiters ++ m.sharedWaiters).length + 1 < fuel) :
    ∃ r, c.onLinks fuel s = some r ∧ RefinesResult Represents s r (c.onLists m) ∧
      SameRoots s r.state := by
  cases c with
  | tryLock => exact ⟨_, rfl, h.tryLock, (lock_sameRoots s s.object.waiters).1⟩
  | lock op => exact ⟨_, rfl, h.lock (hop op rfl), (lock_sameRoots s op).2.2⟩
  | asyncLock op => exact ⟨_, rfl, h.asyncLock (hop op rfl), (lock_sameRoots s op).2.1⟩
  | unlock => exact h.unlock (Nat.lt_of_succ_lt hfuel)
  | tryLockShared => exact ⟨_, rfl, h.tryLockShared, (lockShared_sameRoots s s.object.waiters).1⟩
  | lockShared op => exact ⟨_, rfl, h.lockShared (hop op rfl), (lockShared_sameRoots s op).2.2⟩
  | asyncLockShared op =>
      exact ⟨_, rfl, h.asyncLockShared (hop op rfl), (lockShared_sameRoots s op).2.1⟩
  | unlockShared => exact ⟨_, rfl, h.unlockShared, unlockShared_sameRoots s⟩

/-- The shared mutex in memory refines the shared mutex. -/
def linked : Linked α where
  Object := SharedMutexObject α
  Impl := SharedMutexImpl α
  Call := Call α
  request := Call.request
  roots o := [o.waiters, o.sharedWaiters]
  queued m := m.waiters ++ m.sharedWaiters
  unlink := SharedMutexImpl.unlink
  onLists m c := c.onLists m
  onLinks fuel s c := c.onLinks fuel s
  Represents := Represents
  refines h hop hfuel := by
    obtain ⟨r, hr, hrefines, hwaiters, hshared⟩ := Call.refines h hop hfuel
    exact ⟨r, hr, hrefines, by rw [hwaiters, hshared]⟩
  cancels h hop := h.cancel hop

end SharedMutexObject

end Sam
