import Sam.Linked.Counting
import Sam.Linked.Mutex

/-!
# Trying, blocking and asynchronous entry points

Each primitive tests in three places whether a request can be granted at once: in the `try_` form,
in the blocking form, which in multi-threaded mode queues its own op first, and in the asynchronous
form. `Agree` says that the three grant in the same states and leave the same behind;
`entry_points_agree` proves it for every kind of request, in every memory whose waiter lists are
well formed. In single-threaded mode the blocking form does not wait when the request is not
granted either, but fails. -/

namespace Sam

open Links

universe u

variable {α : Type u} [DecidableEq α]

/-- The trying form `t`, the asynchronous form `a` and the blocking form `b` of a request with the
op `op`, each made in `s`. They grant in the same states. What a granted request leaves has the same
flags and counters, the same waiters, and the same pointers but for the op and the ops that were
completed. The same waiters were completed in the same order; the blocking form then also completed
the ops `own`. -/
structure Agree {O I : Type u} (Represents : Placed α O → I → Prop) (s : Placed α O) (op : α)
    (own : List α) (t a b : Return α O) : Prop where
  async : t.outcome = .granted ↔ a.outcome = .granted
  blocking : t.outcome = .granted ↔ b.outcome = .granted
  same : t.outcome = .granted → ∃ m done,
    (∀ r ∈ [t, a, b], Represents r.state m ∧ r.state.object = t.state.object ∧
      SameOff (op :: done) t.state.memory.links r.state.memory.links) ∧
    (∀ r ∈ [t, a], r.state.memory.completed = s.memory.completed ++ done.map (·, .success)) ∧
    b.state.memory.completed = s.memory.completed ++ (done ++ own).map (·, .success)

omit [DecidableEq α] in
/-- Forms that all refuse agree. -/
theorem Agree.of_refused {O I : Type u} {Represents : Placed α O → I → Prop} {s : Placed α O}
    {op : α} {own : List α} {t a b : Return α O} (ht : t.outcome ≠ .granted)
    (ha : a.outcome ≠ .granted) (hb : b.outcome ≠ .granted) :
    Agree Represents s op own t a b :=
  ⟨iff_of_false ht ha, iff_of_false ht hb, fun h => absurd h ht⟩

/-- Forms that grant agree when the asynchronous one does what the trying one does, and the blocking
one differs in the memory only. -/
theorem Agree.of_granted {O I : Type u} {Represents : Placed α O → I → Prop} {s u : Placed α O}
    {op root : α} {X : List α} {m : I} (hring : IsRing s.memory.links root X)
    (hop : op ∉ root :: X) (hmemory : u.memory = s.memory) (ht : Represents u m)
    (hb : Represents { u with memory := s.memory.passThrough s.enabled root op } m) :
    Agree Represents s op [] ⟨.granted, u⟩ ⟨.granted, u⟩
      ⟨.granted, { u with memory := s.memory.passThrough s.enabled root op }⟩ := by
  refine ⟨Iff.rfl, Iff.rfl, fun _ => ⟨m, [], fun r hr => ?_, fun r hr => ?_, by simp⟩⟩
  · simp only [List.mem_cons, List.not_mem_nil, or_false] at hr
    rcases hr with rfl | rfl | rfl
    · exact ⟨ht, rfl, SameOff.refl _⟩
    · exact ⟨ht, rfl, SameOff.refl _⟩
    · exact ⟨hb, rfl, hmemory ▸ Memory.passThrough_sameOff hring hop s.enabled⟩
  · simp only [List.mem_cons, List.not_mem_nil, or_false] at hr
    rcases hr with rfl | rfl <;> simp [hmemory]

/-! ## The mutexes and the semaphore -/

/-- The three forms of locking a mutex. -/
theorem MutexObject.lock_agree {s : Placed α (MutexObject α)} {m : MutexImpl α} {op : α}
    (h : Represents s m) (hop : op ∉ [s.object.waiters] ++ m.waiters) :
    Agree Represents s op [] (tryLock s) (asyncLock s op) (lock s op) := by
  cases hlocked : s.object.locked with
  | false =>
      have htry : tryLock s = ⟨.granted, setLocked s true⟩ := by simp [tryLock, hlocked]
      have hasync : asyncLock s op = ⟨.granted, setLocked s true⟩ := by simp [asyncLock, hlocked]
      rw [htry, hasync, lock_of_free hlocked]
      exact .of_granted (u := setLocked s true) h.rings.head hop rfl (h.setLocked true)
        ((h.passThrough hop).setLocked true)
  | true =>
      refine .of_refused (by simp [tryLock, hlocked]) (by simp [asyncLock, hlocked]) ?_
      rw [lock_of_locked hlocked]
      split <;> simp

/-- The three forms of locking a shared mutex. -/
theorem SharedMutexObject.lock_agree {s : Placed α (SharedMutexObject α)} {m : SharedMutexImpl α}
    {op : α} (h : Represents s m)
    (hop : op ∉ [s.object.waiters, s.object.sharedWaiters] ++ (m.waiters ++ m.sharedWaiters)) :
    Agree Represents s op [] (tryLock s) (asyncLock s op) (lock s op) := by
  by_cases htaken : s.object.locked = true ∨ 0 < s.object.lockedShared
  · have hcond : (!s.object.locked && s.object.lockedShared == 0) = false := by
      simpa [imp_iff_or_not, Nat.pos_iff_ne_zero, or_comm] using htaken
    refine .of_refused (by simp [tryLock, htaken]) (by simp [asyncLock, hcond]) ?_
    rw [lock_of_taken htaken]
    split <;> simp
  · have hfree : s.object.locked = false ∧ s.object.lockedShared = 0 := by simpa using htaken
    have htry : tryLock s = ⟨.granted, setLocked s true⟩ := by simp [tryLock, hfree]
    have hasync : asyncLock s op = ⟨.granted, setLocked s true⟩ := by simp [asyncLock, hfree]
    rw [htry, hasync, lock_of_free hfree.1 hfree.2]
    exact .of_granted (u := setLocked s true) h.rings.head (by grind) rfl (h.setLocked true)
      ((h.passThrough hop).setLocked true)

/-- The three forms of sharing a shared mutex. -/
theorem SharedMutexObject.lockShared_agree {s : Placed α (SharedMutexObject α)}
    {m : SharedMutexImpl α} {op : α} (h : Represents s m)
    (hop : op ∉ [s.object.waiters, s.object.sharedWaiters] ++ (m.waiters ++ m.sharedWaiters)) :
    Agree Represents s op [] (tryLockShared s) (asyncLockShared s op) (lockShared s op) := by
  cases hlocked : s.object.locked with
  | false =>
      have htry : tryLockShared s = ⟨.granted, setShared s (s.object.lockedShared + 1)⟩ := by
        simp [tryLockShared, hlocked]
      have hasync : asyncLockShared s op = ⟨.granted, setShared s (s.object.lockedShared + 1)⟩ := by
        simp [asyncLockShared, hlocked]
      rw [htry, hasync, lockShared_of_free hlocked]
      exact .of_granted (u := setShared s (s.object.lockedShared + 1)) h.rings.head (by grind) rfl
        (h.setShared _) ((h.passThrough hop).setShared _)
  | true =>
      refine .of_refused (by simp [tryLockShared, hlocked]) (by simp [asyncLockShared, hlocked]) ?_
      rw [lockShared_of_locked hlocked]
      split <;> simp

/-- The three forms of acquiring a semaphore. -/
theorem SemaphoreObject.acquire_agree {s : Placed α (SemaphoreObject α)} {m : SemaphoreImpl α}
    {op : α} (h : Represents s m) (hop : op ∉ [s.object.waiters] ++ m.waiters) :
    Agree Represents s op [] (tryAcquire s) (asyncAcquire s op) (acquire s op) := by
  by_cases hfree : 0 < s.object.count
  · have htry : tryAcquire s = ⟨.granted, setCount s (s.object.count - 1)⟩ := if_pos hfree
    have hasync : asyncAcquire s op = ⟨.granted, setCount s (s.object.count - 1)⟩ := if_pos hfree
    rw [htry, hasync, acquire_of_free hfree]
    exact .of_granted (u := setCount s (s.object.count - 1)) h.rings.head hop rfl (h.setCount _)
      ((h.passThrough hop).setCount _)
  · refine .of_refused (by simp [tryAcquire, hfree]) (by simp [asyncAcquire, hfree]) ?_
    rw [acquire_of_none hfree]
    split <;> simp

/-! ## The barrier -/

/-- The barrier after a phase: these pointers, and these ops completed. -/
def BarrierObject.opened (s : Placed α (BarrierObject α)) (links : Links α) (done : List α) :
    Placed α (BarrierObject α) :=
  setCounter { s with memory := ⟨links, s.memory.service,
    s.memory.completed ++ done.map (·, .success)⟩ } s.object.init

/-- The last blocking arrival queues its op with the waiters and completes all of them. -/
theorem BarrierObject.last_arrive {s : Placed α (BarrierObject α)} {m : BarrierImpl α} {op : α}
    {fuel : Nat} (h : Represents s m) (hop : op ∉ [s.object.waiters] ++ m.waiters)
    (hfuel : m.waiters.length + 1 < fuel) (hmode : s.enabled = true)
    (hlast : s.object.counter = 1) :
    ∃ links, arrive fuel s op = some ⟨.granted, opened s links (m.waiters ++ [op])⟩ ∧
      IsRing links s.object.waiters [] ∧
      SameOff (op :: s.object.waiters :: m.waiters) s.memory.links links := by
  have hnew : op ∉ nodes [(s.object.waiters, m.waiters)] := by simpa using hop
  have hqueued := Memory.enqueue_rings h.rings hnew
  have hlength : (m.waiters ++ [op]).length < fuel := by simpa using hfuel
  obtain ⟨links, hrun, hring, hsame⟩ := Memory.completeAll_holds hqueued.head .success hlength
  refine ⟨links, ?_, hring, (Memory.enqueue_sameOff h.rings.head hop).trans (hsame.mono ?_)⟩
  · rw [arrive_of_last hmode hlast, hrun, Option.map_some, unlinkLast h.rings hnew hrun hring]
    rfl
  · intro a ha
    simp only [List.mem_cons, List.mem_append, List.not_mem_nil, or_false] at ha ⊢
    tauto

omit [DecidableEq α] in
/-- Two ways to end a phase agree: they differ in the pointers of the ops completed at most. -/
theorem BarrierObject.agree_of_opened {s : Placed α (BarrierObject α)} {m : BarrierImpl α}
    {op : α} {own : List α} {links links' : Links α} (h : Represents s m)
    (hring : IsRing links s.object.waiters []) (hring' : IsRing links' s.object.waiters [])
    (hsame : SameOff (s.object.waiters :: m.waiters) s.memory.links links)
    (hsame' : SameOff (op :: s.object.waiters :: m.waiters) s.memory.links links') :
    Agree Represents s op own ⟨.granted, opened s links m.waiters⟩
      ⟨.granted, opened s links m.waiters⟩ ⟨.granted, opened s links' (m.waiters ++ own)⟩ := by
  have hempty : ∀ l : Links α, IsRing l s.object.waiters [] →
      Rings l [(s.object.waiters, ([] : List α))] :=
    fun l hl => Rings.cons_iff.mpr ⟨hl, ⟨List.nodup_nil, by simp⟩, by simp⟩
  have hnext : ∀ l done, IsRing l s.object.waiters [] →
      Represents (opened s l done) { m with counter := m.init, waiters := [] } :=
    fun l done hl => ⟨hempty l hl, h.init, h.init, h.enabled⟩
  have hdiff : SameOff (op :: m.waiters) links links' := by
    have hboth : SameOff (op :: s.object.waiters :: m.waiters) links links' :=
      (hsame.mono (List.subset_cons_self ..)).symm.trans hsame'
    refine hboth.of_ring hring hring' fun a ha => ?_
    simp only [List.mem_cons, List.not_mem_nil, or_false] at ha ⊢
    tauto
  refine ⟨Iff.rfl, Iff.rfl, fun _ => ⟨{ m with counter := m.init, waiters := [] }, m.waiters,
    fun r hr => ?_, fun r hr => ?_, rfl⟩⟩
  · simp only [List.mem_cons, List.not_mem_nil, or_false] at hr
    rcases hr with rfl | rfl | rfl
    · exact ⟨hnext links _ hring, rfl, SameOff.refl _⟩
    · exact ⟨hnext links _ hring, rfl, SameOff.refl _⟩
    · exact ⟨hnext links' _ hring', rfl, hdiff⟩
  · simp only [List.mem_cons, List.not_mem_nil, or_false] at hr
    rcases hr with rfl | rfl <;> rfl

/-- The three forms of arriving at a barrier. In multi-threaded mode the blocking form also
completes its own op. -/
theorem BarrierObject.arrive_agree {s : Placed α (BarrierObject α)} {m : BarrierImpl α} {op : α}
    {fuel : Nat} (h : Represents s m) (hop : op ∉ [s.object.waiters] ++ m.waiters)
    (hfuel : m.waiters.length + 1 < fuel) :
    ∃ t a b, tryArrive fuel s = some t ∧ asyncArriveOp fuel s op = some a ∧
      arrive fuel s op = some b ∧
      Agree Represents s op (if s.enabled then [op] else []) t a b := by
  by_cases hlast : s.object.counter = 1
  · have hlength : m.waiters.length < fuel := Nat.lt_of_succ_lt hfuel
    obtain ⟨links, hrun, hring, hsame⟩ := Memory.completeAll_holds h.rings.head .success hlength
    have htry : tryArrive fuel s = some ⟨.granted, opened s links m.waiters⟩ := by
      rw [tryArrive_of_last hlast, hrun]
      rfl
    have hasync : asyncArriveOp fuel s op = _ := (asyncArriveOp_of_last hlast).trans htry
    cases hmode : s.enabled with
    | false =>
        have harrive : arrive fuel s op = _ :=
          (arrive_of_disabled hmode).trans ((if_pos hlast).trans htry)
        rw [← List.append_nil m.waiters] at harrive
        exact ⟨_, _, _, htry, hasync, harrive, agree_of_opened h hring hring hsame
          (hsame.mono (List.subset_cons_self ..))⟩
    | true =>
        obtain ⟨links', harrive, hring', hsame'⟩ := last_arrive h hop hfuel hmode hlast
        exact ⟨_, _, _, htry, hasync, harrive, agree_of_opened h hring hring' hsame hsame'⟩
  · have htry : tryArrive fuel s = _ := tryArrive_of_more hlast
    have hasync : asyncArriveOp fuel s op = _ := asyncArriveOp_of_more hlast
    cases hmode : s.enabled with
    | false =>
        have harrive : arrive fuel s op = _ := (arrive_of_disabled hmode).trans (if_neg hlast)
        exact ⟨_, _, _, htry, hasync, harrive, .of_refused (by simp) (by simp) (by simp)⟩
    | true =>
        have harrive : arrive fuel s op = _ := arrive_of_more hmode hlast
        exact ⟨_, _, _, htry, hasync, harrive, .of_refused (by simp) (by simp) (by simp)⟩

/-! ## All of them -/

/-- **The entry points agree**, for every kind of request and in both threading modes: the trying
form succeeds exactly when the asynchronous form completes at once and exactly when the blocking
form takes what it asked for without waiting, and then all three leave the same. The states are all
those whose waiter lists are well formed, and the op of the call is a new node. -/
theorem entry_points_agree :
    (∀ (s : Placed α (MutexObject α)) m op, MutexObject.Represents s m →
        op ∉ [s.object.waiters] ++ m.waiters →
        Agree MutexObject.Represents s op [] (MutexObject.tryLock s)
          (MutexObject.asyncLock s op) (MutexObject.lock s op)) ∧
      (∀ (s : Placed α (SharedMutexObject α)) m op, SharedMutexObject.Represents s m →
        op ∉ [s.object.waiters, s.object.sharedWaiters] ++ (m.waiters ++ m.sharedWaiters) →
        Agree SharedMutexObject.Represents s op [] (SharedMutexObject.tryLock s)
            (SharedMutexObject.asyncLock s op) (SharedMutexObject.lock s op) ∧
          Agree SharedMutexObject.Represents s op [] (SharedMutexObject.tryLockShared s)
            (SharedMutexObject.asyncLockShared s op) (SharedMutexObject.lockShared s op)) ∧
      (∀ (s : Placed α (SemaphoreObject α)) m op, SemaphoreObject.Represents s m →
        op ∉ [s.object.waiters] ++ m.waiters →
        Agree SemaphoreObject.Represents s op [] (SemaphoreObject.tryAcquire s)
          (SemaphoreObject.asyncAcquire s op) (SemaphoreObject.acquire s op)) ∧
      ∀ (s : Placed α (BarrierObject α)) m op fuel, BarrierObject.Represents s m →
        op ∉ [s.object.waiters] ++ m.waiters → m.waiters.length + 1 < fuel →
        ∃ t a b, BarrierObject.tryArrive fuel s = some t ∧
          BarrierObject.asyncArriveOp fuel s op = some a ∧
          BarrierObject.arrive fuel s op = some b ∧
          Agree BarrierObject.Represents s op (if s.enabled then [op] else []) t a b :=
  ⟨fun _ _ _ h hop => MutexObject.lock_agree h hop,
    fun _ _ _ h hop =>
      ⟨SharedMutexObject.lock_agree h hop, SharedMutexObject.lockShared_agree h hop⟩,
    fun _ _ _ h hop => SemaphoreObject.acquire_agree h hop,
    fun _ _ _ _ h hop hfuel => BarrierObject.arrive_agree h hop hfuel⟩

/-- A barrier for two arrivals, `1` at the root `0` being the first of them: when `2` arrives, the
three forms complete `1`, and the blocking form also completes `2`. -/
theorem entry_points_agree_two :
    ∃ (s : Placed Nat (BarrierObject Nat)) (t a b : Return Nat (BarrierObject Nat)),
      s.object.counter = 1 ∧ BarrierObject.tryArrive 3 s = some t ∧
        BarrierObject.asyncArriveOp 3 s 2 = some a ∧ BarrierObject.arrive 3 s 2 = some b ∧
        Agree BarrierObject.Represents s 2 [2] t a b := by
  let s : Placed Nat (BarrierObject Nat) :=
    ⟨⟨BilistNode.linkBefore ⟨id, id⟩ 1 0, fun _ => none, []⟩, ⟨9, 0, 2, 1⟩, true⟩
  have hs : BarrierObject.Represents s ⟨true, 2, 1, [1]⟩ := ⟨by decide, rfl, rfl, rfl⟩
  obtain ⟨t, a, b, ht, ha, hb, hagree⟩ :=
    entry_points_agree.2.2.2 s ⟨true, 2, 1, [1]⟩ 2 3 hs (by decide) (by decide)
  exact ⟨s, t, a, b, rfl, ht, ha, hb, hagree⟩

/-- A mutex that was locked in single-threaded mode: `try_lock` fails, and `lock` returns without
waiting. -/
theorem lock_returns_without_waiting :
    ∃ s u : Placed Nat (MutexObject Nat),
      s.enabled = false ∧ MutexObject.Represents s (.init false) ∧
      u = (MutexObject.tryLock s).state ∧
      ¬ ((MutexObject.tryLock u).outcome = .granted ↔ (MutexObject.lock u 1).outcome ≠ .queued) :=
  ⟨⟨⟨⟨id, id⟩, fun _ => none, []⟩, ⟨9, 0, false⟩, false⟩, _, rfl, ⟨by decide, rfl, rfl⟩, rfl,
    by decide⟩

/-! ## Runs -/

/-- **The rings carry out the sequences.** From any state whose waiter lists are well formed and for
every sequence of calls and cancellations, in either threading mode, the linked nodes of the four
primitives give the outcomes and the completions of the sequences, in order, and end up with the
rings of the ops that wait. -/
theorem linked_simulates :
    (MutexObject.linked (α := α)).Simulates ∧ (SharedMutexObject.linked (α := α)).Simulates ∧
      (SemaphoreObject.linked (α := α)).Simulates ∧ (BarrierObject.linked (α := α)).Simulates :=
  ⟨Linked.simulates _, Linked.simulates _, Linked.simulates _, Linked.simulates _⟩

end Sam
