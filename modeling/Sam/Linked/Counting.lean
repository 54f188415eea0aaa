import Sam.Detail.BarrierImpl
import Sam.Detail.SemaphoreImpl
import Sam.Linked.Placed

/-!
# The semaphore and the barrier in memory

The critical sections of `semaphore_impl` and `barrier_impl` over the nodes of their waiter lists,
in `detail/impl/semaphore_impl.ipp`, `detail/impl/barrier_impl.ipp`, `impl/basic_semaphore.hpp` and
`impl/basic_barrier.hpp`. The last blocking arrival at a barrier completes its own op with the
others and unlinks it once more; `unlinkLast` says why this changes nothing. -/

namespace Sam

open Links

universe u

variable {α : Type u} [DecidableEq α]

namespace SemaphoreObject

/-- Write `count_`. -/
def setCount (s : Placed α (SemaphoreObject α)) (count : Int) : Placed α (SemaphoreObject α) :=
  { s with object := { s.object with count } }

/-- `add_waiter` of a new op. -/
def addWaiter (s : Placed α (SemaphoreObject α)) (waiter : α) : Placed α (SemaphoreObject α) :=
  { s with memory := s.memory.enqueue s.object.waiters waiter }

/-- `try_acquire`. -/
def tryAcquire (s : Placed α (SemaphoreObject α)) : Return α (SemaphoreObject α) :=
  if 0 < s.object.count then ⟨.granted, setCount s (s.object.count - 1)⟩ else ⟨.refused, s⟩

/-- `async_aquire_op`. -/
def asyncAcquire (s : Placed α (SemaphoreObject α)) (op : α) : Return α (SemaphoreObject α) :=
  if 0 < s.object.count then ⟨.granted, setCount s (s.object.count - 1)⟩
  else ⟨.queued, addWaiter s op⟩

/-- `acquire`. -/
def acquire (s : Placed α (SemaphoreObject α)) (op : α) : Return α (SemaphoreObject α) :=
  if !s.enabled then
    match (tryAcquire s).outcome with
    | .granted => tryAcquire s
    | _ => ⟨.failed .inProgress, s⟩
  else
    let queued := addWaiter s op
    if 0 < queued.object.count then
      let taken := setCount queued (queued.object.count - 1)
      ⟨.granted, { taken with memory := taken.memory.unlink op }⟩
    else ⟨.queued, queued⟩

/-- `release`. -/
def release (s : Placed α (SemaphoreObject α)) : Return α (SemaphoreObject α) :=
  let released := setCount s (s.object.count + 1)
  let first := released.memory.links.next released.object.waiters
  if first = released.object.waiters then ⟨.returned, released⟩
  else
    let taken := setCount released (released.object.count - 1)
    ⟨.returned, { taken with memory := taken.memory.complete first .success }⟩

/-- The semaphore in memory has these waiters and this counter. -/
structure Represents (s : Placed α (SemaphoreObject α)) (m : SemaphoreImpl α) : Prop where
  rings : Rings s.memory.links [(s.object.waiters, m.waiters)]
  count : s.object.count = m.count
  enabled : s.enabled = m.enabled

variable {s : Placed α (SemaphoreObject α)} {m : SemaphoreImpl α} {op : α}

/-- `acquire` takes a free permit; its op was in the list for a moment. -/
theorem acquire_of_free (hfree : 0 < s.object.count) :
    acquire s op = ⟨.granted, setCount
      { s with memory := s.memory.passThrough s.enabled s.object.waiters op }
      (s.object.count - 1)⟩ := by
  cases hmode : s.enabled <;>
    simp [acquire, tryAcquire, addWaiter, setCount, Memory.passThrough, hmode, hfree]

/-- Without a free permit `acquire` waits, or fails in single-threaded mode. -/
theorem acquire_of_none (hnone : ¬ 0 < s.object.count) :
    acquire s op = if s.enabled then ⟨.queued, addWaiter s op⟩ else ⟨.failed .inProgress, s⟩ := by
  cases hmode : s.enabled <;> simp [acquire, tryAcquire, addWaiter, hmode, hnone]

namespace Represents

omit [DecidableEq α] in
/-- The counter is written. -/
theorem setCount (h : Represents s m) (count : Int) :
    Represents (setCount s count) { m with count } :=
  ⟨h.rings, rfl, h.enabled⟩

/-- A new op joins the waiters. -/
theorem addWaiter (h : Represents s m) (hop : op ∉ [s.object.waiters] ++ m.waiters) :
    Represents (addWaiter s op) (m.addWaiter op) :=
  ⟨Memory.enqueue_rings h.rings (by simpa using hop), h.count, h.enabled⟩

/-- An op joined the waiters and left them. -/
theorem passThrough (h : Represents s m) (hop : op ∉ [s.object.waiters] ++ m.waiters) :
    Represents { s with memory := s.memory.passThrough s.enabled s.object.waiters op } m :=
  ⟨Memory.passThrough_rings h.rings (by simpa using hop) _, h.count, h.enabled⟩

omit [DecidableEq α] in
/-- `try_acquire`. -/
theorem tryAcquire (h : Represents s m) :
    RefinesResult Represents s (tryAcquire s) m.tryAcquire := by
  unfold SemaphoreObject.tryAcquire SemaphoreImpl.tryAcquire
  rw [h.count]
  split
  · exact ⟨rfl, h.setCount _, by simp [SemaphoreObject.setCount]⟩
  · exact ⟨rfl, h, by simp⟩

/-- `async_acquire`. -/
theorem asyncAcquire (h : Represents s m) (hop : op ∉ [s.object.waiters] ++ m.waiters) :
    RefinesResult Represents s (asyncAcquire s op) (m.asyncAcquire op) := by
  unfold SemaphoreObject.asyncAcquire SemaphoreImpl.asyncAcquire
  rw [h.count]
  split
  · exact ⟨rfl, h.setCount _, by simp [SemaphoreObject.setCount]⟩
  · exact ⟨rfl, h.addWaiter hop, by simp [SemaphoreObject.addWaiter, Memory.enqueue]⟩

/-- `acquire`. -/
theorem acquire (h : Represents s m) (hop : op ∉ [s.object.waiters] ++ m.waiters) :
    RefinesResult Represents s (acquire s op) (m.acquire op) := by
  have hout : op ∉ m.waiters := fun hmem => hop (List.mem_append_right _ hmem)
  by_cases hfree : 0 < m.count
  · rw [acquire_of_free (by rwa [h.count]), h.count, SemaphoreImpl.acquire_of_free hout hfree]
    exact ⟨rfl, (h.passThrough hop).setCount _, by simp [SemaphoreObject.setCount]⟩
  · rw [acquire_of_none (by rwa [h.count]), SemaphoreImpl.acquire_of_none hfree, h.enabled]
    split
    · exact ⟨rfl, h.addWaiter hop, by simp [SemaphoreObject.addWaiter, Memory.enqueue]⟩
    · exact ⟨rfl, h, by simp⟩

/-- `release`. -/
theorem release (h : Represents s m) : RefinesResult Represents s (release s) m.release := by
  have hempty : s.memory.links.next s.object.waiters = s.object.waiters ↔ m.waiters = [] :=
    h.rings.head.next_root_eq_iff
  have hrelease : SemaphoreObject.release s =
      if s.memory.links.next s.object.waiters = s.object.waiters then
        ⟨.returned, SemaphoreObject.setCount s (s.object.count + 1)⟩
      else
        ⟨.returned, s.memory.complete (s.memory.links.next s.object.waiters) .success, s.object,
          s.enabled⟩ := by
    simp [SemaphoreObject.release, SemaphoreObject.setCount]
  rw [hrelease]
  cases hwaiters : m.waiters with
  | nil =>
      rw [if_pos (hempty.mpr hwaiters), SemaphoreImpl.release_of_none hwaiters, h.count]
      exact ⟨rfl, h.setCount _, by simp [SemaphoreObject.setCount]⟩
  | cons op rest =>
      have hrings := h.rings
      rw [hwaiters] at hrings
      rw [if_neg (hempty.not.mpr (by simp [hwaiters])), hrings.head.next_root,
        SemaphoreImpl.release_of_waiter hwaiters]
      exact ⟨rfl, ⟨Memory.complete_rings hrings .success, h.count, h.enabled⟩, rfl⟩

/-- A queued op is cancelled. -/
theorem cancel (h : Represents s m) (hop : op ∈ m.waiters) :
    Represents { s with memory := s.memory.complete op .operationAborted } (m.unlink op) :=
  ⟨BilistNode.unlink_rings h.rings hop, h.count, h.enabled⟩

end Represents

/-- The calls of a semaphore in memory, with the nodes of their ops. -/
inductive Call (α : Type u) where
  | tryAcquire
  | acquire (op : α)
  | asyncAcquire (op : α)
  | release
  deriving DecidableEq, Repr

/-- The op of a call. -/
def Call.request : Call α → Option α
  | .acquire op | .asyncAcquire op => some op
  | _ => none

/-- The critical section of a call in memory. -/
def Call.onLinks (s : Placed α (SemaphoreObject α)) : Call α → Return α (SemaphoreObject α)
  | .tryAcquire => SemaphoreObject.tryAcquire s
  | .acquire op => SemaphoreObject.acquire s op
  | .asyncAcquire op => SemaphoreObject.asyncAcquire s op
  | .release => SemaphoreObject.release s

/-- The critical section of a call over sequences. -/
def Call.onLists (m : SemaphoreImpl α) : Call α → Result (SemaphoreImpl α) α
  | .tryAcquire => m.tryAcquire
  | .acquire op => m.acquire op
  | .asyncAcquire op => m.asyncAcquire op
  | .release => m.release

/-- Every call in memory does what it does over sequences. -/
theorem Call.refines (h : Represents s m) {c : Call α}
    (hop : ∀ op ∈ c.request, op ∉ [s.object.waiters] ++ m.waiters) :
    RefinesResult Represents s (c.onLinks s) (c.onLists m) := by
  cases c with
  | tryAcquire => exact h.tryAcquire
  | acquire op => exact h.acquire (hop op rfl)
  | asyncAcquire op => exact h.asyncAcquire (hop op rfl)
  | release => exact h.release

/-- No call moves the list to another root. -/
theorem Call.onLinks_waiters (s : Placed α (SemaphoreObject α)) (c : Call α) :
    (c.onLinks s).state.object.waiters = s.object.waiters := by
  cases c with
  | tryAcquire =>
      simp only [onLinks, SemaphoreObject.tryAcquire]
      split <;> rfl
  | acquire op =>
      by_cases hfree : 0 < s.object.count
      · rw [onLinks, acquire_of_free hfree]
        rfl
      · rw [onLinks, acquire_of_none hfree]
        split <;> rfl
  | asyncAcquire op =>
      simp only [onLinks, SemaphoreObject.asyncAcquire]
      split <;> rfl
  | release =>
      simp only [onLinks, SemaphoreObject.release]
      split <;> rfl

/-- The semaphore in memory refines the semaphore. -/
def linked : Linked α where
  Object := SemaphoreObject α
  Impl := SemaphoreImpl α
  Call := Call α
  request := Call.request
  roots o := [o.waiters]
  queued m := m.waiters
  unlink := SemaphoreImpl.unlink
  onLists m c := c.onLists m
  onLinks _ s c := some (c.onLinks s)
  Represents := Represents
  refines h hop _ := ⟨_, rfl, Call.refines h hop, by rw [Call.onLinks_waiters]⟩
  cancels h hop := h.cancel hop

end SemaphoreObject

namespace BarrierObject

/-- Write `counter_`. -/
def setCounter (s : Placed α (BarrierObject α)) (counter : Int) : Placed α (BarrierObject α) :=
  { s with object := { s.object with counter } }

/-- `decrement`. -/
def decrement (s : Placed α (BarrierObject α)) : Placed α (BarrierObject α) :=
  setCounter s (s.object.counter - 1)

/-- `add_waiter` of a new op. -/
def addWaiter (s : Placed α (BarrierObject α)) (waiter : α) : Placed α (BarrierObject α) :=
  { s with memory := s.memory.enqueue s.object.waiters waiter }

/-- `waiters_.complete_all`. It gives up when `fuel` runs out. -/
def completeAll (fuel : Nat) (s : Placed α (BarrierObject α)) :
    Option (Placed α (BarrierObject α)) :=
  (s.memory.completeAll s.object.waiters .success fuel).map fun memory => { s with memory }

/-- `try_arrive`. -/
def tryArrive (fuel : Nat) (s : Placed α (BarrierObject α)) : Option (Return α (BarrierObject α)) :=
  let arrived := decrement s
  if arrived.object.counter = 0 then
    (completeAll fuel arrived).map fun s => ⟨.granted, setCounter s s.object.init⟩
  else some ⟨.refused, setCounter arrived (arrived.object.counter + 1)⟩

/-- `async_arrive_op`, with nothing between its two sections. -/
def asyncArriveOp (fuel : Nat) (s : Placed α (BarrierObject α)) (op : α) :
    Option (Return α (BarrierObject α)) :=
  (tryArrive fuel s).map fun r =>
    match r.outcome with
    | .granted => r
    | _ => ⟨.queued, addWaiter (decrement r.state) op⟩

/-- `arrive`. The last arrival completes its own op and then unlinks it. -/
def arrive (fuel : Nat) (s : Placed α (BarrierObject α)) (op : α) :
    Option (Return α (BarrierObject α)) :=
  if !s.enabled then
    (tryArrive fuel s).map fun r =>
      match r.outcome with
      | .granted => r
      | _ => ⟨.failed .inProgress, r.state⟩
  else
    let arrived := decrement (addWaiter s op)
    if arrived.object.counter = 0 then
      (completeAll fuel arrived).map fun s =>
        let s := setCounter s s.object.init
        -- `complete` has unlinked the op already
        ⟨.granted, { s with memory := s.memory.unlink op }⟩
    else some ⟨.queued, arrived⟩

/-- The barrier in memory has these waiters and these counters. -/
structure Represents (s : Placed α (BarrierObject α)) (m : BarrierImpl α) : Prop where
  rings : Rings s.memory.links [(s.object.waiters, m.waiters)]
  init : s.object.init = m.init
  counter : s.object.counter = m.counter
  enabled : s.enabled = m.enabled

variable {s : Placed α (BarrierObject α)} {m : BarrierImpl α} {op : α} {fuel : Nat}

/-- Before the last arrival `try_arrive` changes nothing. -/
theorem tryArrive_of_more (hmore : s.object.counter ≠ 1) :
    tryArrive fuel s = some ⟨.refused, s⟩ := by
  have hcounter : s.object.counter - 1 ≠ 0 := by omega
  simp [tryArrive, decrement, setCounter, hcounter]

/-- The last arrival completes the waiters and starts the next phase. -/
theorem tryArrive_of_last (hlast : s.object.counter = 1) :
    tryArrive fuel s =
      (s.memory.completeAll s.object.waiters .success fuel).map fun memory =>
        ⟨.granted, setCounter { s with memory } s.object.init⟩ := by
  simp [tryArrive, decrement, setCounter, completeAll, hlast, Function.comp_def]

/-- `async_arrive` as the last arrival is `try_arrive`. -/
theorem asyncArriveOp_of_last (hlast : s.object.counter = 1) :
    asyncArriveOp fuel s op = tryArrive fuel s := by
  rw [asyncArriveOp, tryArrive_of_last hlast]
  simp [Function.comp_def]

/-- Before the last arrival `async_arrive` counts and queues its op. -/
theorem asyncArriveOp_of_more (hmore : s.object.counter ≠ 1) :
    asyncArriveOp fuel s op = some ⟨.queued, addWaiter (decrement s) op⟩ := by
  simp [asyncArriveOp, tryArrive_of_more hmore]

/-- In single-threaded mode `arrive` is `try_arrive` that fails where the latter refuses. -/
theorem arrive_of_disabled (hmode : s.enabled = false) :
    arrive fuel s op =
      if s.object.counter = 1 then tryArrive fuel s else some ⟨.failed .inProgress, s⟩ := by
  by_cases hlast : s.object.counter = 1
  · rw [if_pos hlast, arrive, hmode, tryArrive_of_last hlast]
    simp [Function.comp_def]
  · simp [arrive, hmode, tryArrive_of_more hlast, hlast]

/-- Before the last arrival `arrive` counts and waits. -/
theorem arrive_of_more (hmode : s.enabled = true) (hmore : s.object.counter ≠ 1) :
    arrive fuel s op = some ⟨.queued, decrement (addWaiter s op)⟩ := by
  have hcounter : s.object.counter - 1 ≠ 0 := by omega
  simp [arrive, hmode, decrement, setCounter, addWaiter, hcounter]

/-- The last arrival completes the waiters, its own op among them, and starts the next phase. -/
theorem arrive_of_last (hmode : s.enabled = true) (hlast : s.object.counter = 1) :
    arrive fuel s op =
      ((s.memory.enqueue s.object.waiters op).completeAll s.object.waiters .success fuel).map
        fun memory =>
          ⟨.granted, setCounter { s with memory := memory.unlink op } s.object.init⟩ := by
  simp [arrive, hmode, decrement, setCounter, addWaiter, completeAll, hlast, Function.comp_def]

/-- **The second `unlink`** of the last blocking arrival changes nothing: `complete_all` left its op
with pointers to the root, and nothing hangs on the root. -/
theorem unlinkLast {memory memory' : Memory α} {root : α} {X : List α}
    (h : Rings memory.links [(root, X)]) (hop : op ∉ nodes [(root, X)])
    (hrun : (memory.enqueue root op).completeAll root .success fuel = some memory')
    (hempty : IsRing memory'.links root []) : memory'.unlink op = memory' := by
  obtain ⟨hnext, hprev⟩ := Memory.completeAll_last (Memory.enqueue_rings h hop).head hrun
  have hlinks : BilistNode.unlink memory'.links op = memory'.links :=
    BilistNode.unlink_of_detached hempty hprev hnext
  rw [Memory.unlink, hlinks]

namespace Represents

omit [DecidableEq α] in
/-- The counter is written. -/
theorem setCounter (h : Represents s m) (counter : Int) :
    Represents (setCounter s counter) { m with counter } :=
  ⟨h.rings, h.init, rfl, h.enabled⟩

/-- A new op joins the waiters. -/
theorem addWaiter (h : Represents s m) (hop : op ∉ [s.object.waiters] ++ m.waiters) :
    Represents (addWaiter s op) (m.addWaiter op) :=
  ⟨Memory.enqueue_rings h.rings (by simpa using hop), h.init, h.counter, h.enabled⟩

/-- `try_arrive`. -/
theorem tryArrive (h : Represents s m) (hfuel : m.waiters.length < fuel) :
    ∃ r, tryArrive fuel s = some r ∧ RefinesResult Represents s r m.tryArrive ∧
      r.state.object.waiters = s.object.waiters := by
  by_cases hlast : m.counter = 1
  · obtain ⟨links, hrun, hrings⟩ := Memory.completeAll_rings h.rings .success hfuel
    rw [tryArrive_of_last (h.counter.trans hlast), hrun, BarrierImpl.tryArrive_of_last hlast]
    exact ⟨_, rfl, ⟨rfl, ⟨hrings, h.init, h.init, h.enabled⟩, rfl⟩, rfl⟩
  · rw [tryArrive_of_more (by rwa [h.counter]), BarrierImpl.tryArrive_of_more hlast]
    exact ⟨_, rfl, ⟨rfl, h, by simp⟩, rfl⟩

/-- `async_arrive`. -/
theorem asyncArriveOp (h : Represents s m) (hop : op ∉ [s.object.waiters] ++ m.waiters)
    (hfuel : m.waiters.length < fuel) :
    ∃ r, asyncArriveOp fuel s op = some r ∧ RefinesResult Represents s r (m.asyncArriveOp op) ∧
      r.state.object.waiters = s.object.waiters := by
  by_cases hlast : m.counter = 1
  · have hlists : m.asyncArriveOp op = m.tryArrive := by
      simp [BarrierImpl.asyncArriveOp, BarrierImpl.tryArrive_of_last hlast]
    rw [asyncArriveOp_of_last (h.counter.trans hlast), hlists]
    exact h.tryArrive hfuel
  · have hlists : m.asyncArriveOp op = m.asyncArrive op := by
      simp [BarrierImpl.asyncArriveOp, BarrierImpl.tryArrive_of_more hlast]
    have hcounted : Represents (decrement s) m.decrement := by
      rw [BarrierImpl.decrement, ← h.counter]
      exact h.setCounter _
    rw [asyncArriveOp_of_more (by rwa [h.counter]), hlists]
    refine ⟨_, rfl, ⟨rfl, hcounted.addWaiter hop, ?_⟩, rfl⟩
    simp [BarrierObject.addWaiter, Memory.enqueue, decrement, BarrierObject.setCounter,
      BarrierImpl.asyncArrive]

/-- `arrive`. -/
theorem arrive (h : Represents s m) (hop : op ∉ [s.object.waiters] ++ m.waiters)
    (hfuel : m.waiters.length + 1 < fuel) :
    ∃ r, arrive fuel s op = some r ∧ RefinesResult Represents s r (m.arrive op) ∧
      r.state.object.waiters = s.object.waiters := by
  cases hmode : m.enabled with
  | false =>
      rw [arrive_of_disabled (h.enabled.trans hmode), BarrierImpl.arrive_of_disabled hmode,
        h.counter]
      split
      · exact h.tryArrive (Nat.lt_of_succ_lt hfuel)
      · exact ⟨_, rfl, ⟨rfl, h, by simp⟩, rfl⟩
  | true =>
      have hnew : op ∉ nodes [(s.object.waiters, m.waiters)] := by simpa using hop
      by_cases hlast : m.counter = 1
      · obtain ⟨links, hrun, hrings⟩ :=
          Memory.completeAll_rings (Memory.enqueue_rings h.rings hnew) .success
            (by simpa using hfuel)
        rw [arrive_of_last (h.enabled.trans hmode) (h.counter.trans hlast),
          BarrierImpl.arrive_of_last hmode hlast, hrun, Option.map_some,
          unlinkLast h.rings hnew hrun hrings.head]
        exact ⟨_, rfl, ⟨rfl, ⟨hrings, h.init, h.init, h.enabled⟩, rfl⟩, rfl⟩
      · rw [arrive_of_more (h.enabled.trans hmode) (by rwa [h.counter]),
          BarrierImpl.arrive_of_more hmode hlast]
        refine ⟨_, rfl, ⟨rfl, ?_, ?_⟩, rfl⟩
        · rw [← h.counter]
          exact (h.addWaiter hop).setCounter _
        · simp [BarrierObject.addWaiter, Memory.enqueue, decrement, BarrierObject.setCounter]

/-- A queued op is cancelled. -/
theorem cancel (h : Represents s m) (hop : op ∈ m.waiters) :
    Represents { s with memory := s.memory.complete op .operationAborted } (m.unlink op) :=
  ⟨BilistNode.unlink_rings h.rings hop, h.init, h.counter, h.enabled⟩

end Represents

/-- The calls of a barrier in memory, with the nodes of their ops. -/
inductive Call (α : Type u) where
  | tryArrive
  | arrive (op : α)
  | asyncArrive (op : α)
  deriving DecidableEq, Repr

/-- The op of a call. -/
def Call.request : Call α → Option α
  | .tryArrive => none
  | .arrive op | .asyncArrive op => some op

/-- The critical section of a call in memory. -/
def Call.onLinks (fuel : Nat) (s : Placed α (BarrierObject α)) :
    Call α → Option (Return α (BarrierObject α))
  | .tryArrive => BarrierObject.tryArrive fuel s
  | .arrive op => BarrierObject.arrive fuel s op
  | .asyncArrive op => BarrierObject.asyncArriveOp fuel s op

/-- The critical section of a call over sequences. -/
def Call.onLists (m : BarrierImpl α) : Call α → Result (BarrierImpl α) α
  | .tryArrive => m.tryArrive
  | .arrive op => m.arrive op
  | .asyncArrive op => m.asyncArriveOp op

/-- Every call in memory does what it does over sequences. -/
theorem Call.refines (h : Represents s m) {c : Call α}
    (hop : ∀ op ∈ c.request, op ∉ [s.object.waiters] ++ m.waiters)
    (hfuel : m.waiters.length + 1 < fuel) :
    ∃ r, c.onLinks fuel s = some r ∧ RefinesResult Represents s r (c.onLists m) ∧
      [r.state.object.waiters] = [s.object.waiters] := by
  cases c with
  | tryArrive =>
      obtain ⟨r, hr, hrefines, hroot⟩ := h.tryArrive (Nat.lt_of_succ_lt hfuel)
      exact ⟨r, hr, hrefines, congrArg ([·]) hroot⟩
  | arrive op =>
      obtain ⟨r, hr, hrefines, hroot⟩ := h.arrive (hop op rfl) hfuel
      exact ⟨r, hr, hrefines, congrArg ([·]) hroot⟩
  | asyncArrive op =>
      obtain ⟨r, hr, hrefines, hroot⟩ := h.asyncArriveOp (hop op rfl) (Nat.lt_of_succ_lt hfuel)
      exact ⟨r, hr, hrefines, congrArg ([·]) hroot⟩

/-- The barrier in memory refines the barrier. -/
def linked : Linked α where
  Object := BarrierObject α
  Impl := BarrierImpl α
  Call := Call α
  request := Call.request
  roots o := [o.waiters]
  queued m := m.waiters
  unlink := BarrierImpl.unlink
  onLists m c := c.onLists m
  onLinks fuel s c := c.onLinks fuel s
  Represents := Represents
  refines h hop hfuel := Call.refines h hop hfuel
  cancels h hop := h.cancel hop

end BarrierObject

end Sam
