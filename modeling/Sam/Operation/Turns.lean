import Sam.Library.Turns
import Sam.Operation.Atomic

/-!
# Waiting is bounded

Over the interleavings of `InlineHandler`: whoever waits for a mutex or a permit is served after as
many releases as there are others ahead, and whoever waits to share a mutex after one `unlock`.
-/

namespace Sam

open LockScope Transition Turns

universe u v

variable {ι : Type u} [DecidableEq ι] {τ : Type v} [DecidableEq τ]

/-- The ops that an entry completes with success. -/
def Primitive.Entry.completed {P : Primitive ι} (s : P.State) : P.Entry → List (Op ι)
  | .call c => (P.call s c).completed
  | .cancel _ => []

/-- The ops that wait their turn: those of `waiters_`, and for a shared mutex those of
`shared_waiters_`. -/
def Kind.line (kind : Kind) (s : (kind.primitive ι).State) : List (Op ι) :=
  match kind with
  | .mutex => MutexImpl.waiters s
  | .sharedMutex => SharedMutexImpl.sharedWaiters s
  | .semaphore => SemaphoreImpl.waiters s
  | .conditionVariable | .barrier => []

/-- Whether the entry is an `unlock` or a `release`. -/
def Kind.handsOn (kind : Kind) (e : (kind.primitive ι).Entry) : Bool :=
  match kind, e with
  | .mutex, .call .unlock => true
  | .sharedMutex, .call .unlock => true
  | .semaphore, .call .release => true
  | _, _ => false

/-- A mutex hands the lock to the first waiter. -/
theorem MutexImpl.Attended.advances {m : MutexImpl (Op ι)} (h : m.Attended) {op : Op ι}
    {e : (Kind.mutex.primitive ι).Entry} (he : e ≠ .cancel op) :
    Advances op (Kind.mutex.handsOn e).toNat m.waiters (e.completed m)
      (MutexImpl.waiters (e.apply m)) := by
  cases e with
  | cancel x =>
      exact .leave fun hx => he (hx ▸ rfl)
  | call c =>
      show Advances op _ m.waiters (c.run m).completed (c.run m).state.waiters
      cases hwaiters : m.waiters with
      | nil => exact .nil
      | cons w rest =>
          have hlocked : m.locked = true := h (by simp [hwaiters])
          rw [← hwaiters]
          cases c with
          | unlock =>
              rw [Call.run, unlock_of_waiter hwaiters, hwaiters]
              exact .first
          | tryLock =>
              rw [Call.run, tryLock, if_pos hlocked]
              exact .stay
          | lock id =>
              rw [Call.run, lock_of_locked hlocked]
              split
              · exact .join
              · exact .stay
          | asyncLock id slot =>
              rw [Call.run, asyncLock, if_neg (by simp [hlocked])]
              exact .join

/-- A semaphore hands the permit to the first waiter. -/
theorem SemaphoreImpl.Attended.advances {m : SemaphoreImpl (Op ι)} (h : m.Attended) {op : Op ι}
    {e : (Kind.semaphore.primitive ι).Entry} (he : e ≠ .cancel op) :
    Advances op (Kind.semaphore.handsOn e).toNat m.waiters (e.completed m)
      (SemaphoreImpl.waiters (e.apply m)) := by
  cases e with
  | cancel x =>
      exact .leave fun hx => he (hx ▸ rfl)
  | call c =>
      show Advances op _ m.waiters (c.run m).completed (c.run m).state.waiters
      cases hwaiters : m.waiters with
      | nil => exact .nil
      | cons w rest =>
          have hnone : ¬ 0 < m.count := Int.not_lt.mpr (h (by simp [hwaiters]))
          rw [← hwaiters]
          cases c with
          | release =>
              rw [Call.run, release_of_waiter hwaiters, hwaiters]
              exact .first
          | tryAcquire =>
              rw [Call.run, tryAcquire, if_neg hnone]
              exact .stay
          | acquire id =>
              rw [Call.run, acquire_of_none hnone]
              split
              · exact .join
              · exact .stay
          | asyncAcquire id slot =>
              rw [Call.run, asyncAcquire, if_neg hnone]
              exact .join

/-- A shared mutex lets all in that wait to share it. -/
theorem SharedMutexImpl.Attended.advances {m : SharedMutexImpl (Op ι)} (h : m.Attended)
    {op : Op ι} {e : (Kind.sharedMutex.primitive ι).Entry} (he : e ≠ .cancel op) :
    Advances op (Kind.sharedMutex.handsOn e).toNat m.sharedWaiters (e.completed m)
      (SharedMutexImpl.sharedWaiters (e.apply m)) := by
  cases e with
  | cancel x =>
      exact .leave fun hx => he (hx ▸ rfl)
  | call c =>
      show Advances op _ m.sharedWaiters (c.run m).completed (c.run m).state.sharedWaiters
      cases hline : m.sharedWaiters with
      | nil => exact .nil
      | cons w rest =>
          have hlocked : m.locked = true := h.2 (by simp [hline])
          have htaken : m.locked = true ∨ 0 < m.lockedShared := Or.inl hlocked
          rw [← hline]
          cases c with
          | unlock =>
              have hall : m.unlock.completed = m.sharedWaiters := by simp only [unlock, hline]
              rw [Call.run, hall]
              exact .all
          | unlockShared =>
              rw [Call.run, unlockShared_eq]
              split
              · cases hwaiters : m.waiters with
                | nil => exact .stay
                | cons x others => exact .pick
              · exact .stay
          | tryLock =>
              rw [Call.run, tryLock, if_pos (by simp [hlocked])]
              exact .stay
          | tryLockShared =>
              rw [Call.run, tryLockShared, if_pos hlocked]
              exact .stay
          | lock id =>
              rw [Call.run, lock_of_taken htaken]
              split <;> exact .stay
          | lockShared id =>
              rw [Call.run, lockShared_of_locked hlocked]
              split <;> exact .stay
          | asyncLock id slot =>
              rw [Call.run, asyncLock, if_neg (by simp [hlocked])]
              exact .stay
          | asyncLockShared id slot =>
              rw [Call.run, asyncLockShared, if_neg (by simp [hlocked])]
              exact .join

/-- What an entry does to the line of its primitive. -/
theorem Kind.Attended.advances {kind : Kind} {s : (kind.primitive ι).State} (h : kind.Attended s)
    {op : Op ι} {e : (kind.primitive ι).Entry} (he : e ≠ .cancel op) :
    Advances op (kind.handsOn e).toNat (kind.line s) (e.completed s) (kind.line (e.apply s)) := by
  cases kind with
  | mutex => exact MutexImpl.Attended.advances h he
  | sharedMutex => exact SharedMutexImpl.Attended.advances h he
  | semaphore => exact SemaphoreImpl.Attended.advances h he
  | conditionVariable | barrier => exact .nil

namespace InlineHandler

variable {kind : Kind} {late : (kind.primitive ι).Late}

/-- The releases among some entries. -/
def releases (entries : List (τ × (kind.primitive ι).Entry)) : Nat :=
  entries.countP fun x => kind.handsOn x.2

/-- One of the entries completes `op`, after no more releases than this. -/
def Serves (s : (kind.primitive ι).State) (entries : List (τ × (kind.primitive ι).Entry))
    (op : Op ι) (bound : Nat) : Prop :=
  ∃ before x after, entries = before ++ x :: after ∧
    op ∈ x.2.completed (serially s before) ∧ releases before ≤ bound

/-- What a run labelled `rest`, from `m` to `m'`, makes of the op that waits behind those `ahead`:
one of the entries that take `mtx_` completes it, after no more releases than there were ops ahead
of it; or there were no more releases than that, and whenever nobody has `mtx_`, the op still waits,
nobody has got ahead of it, and each release went to one of those that were. -/
def ServedInTurn (late : (kind.primitive ι).Late) (m : Threads kind ι τ)
    (rest : List (Label kind ι τ)) (m' : Threads kind ι τ) (op : Op ι) (ahead : List (Op ι)) :
    Prop :=
  Serves m.shared (Machine.order (kind.code late) m rest) op ahead.length ∨
    (releases (Machine.order (kind.code late) m rest) ≤ ahead.length ∧
      (m'.owner = none → ∃ ahead' behind', kind.line m'.shared = ahead' ++ op :: behind' ∧
        ahead'.Sublist ahead ∧
        ahead'.length + releases (Machine.order (kind.code late) m rest) ≤ ahead.length))

/-- **Waiting is bounded.** In every run of any number of threads in which a cancellation handler
that obtains `mtx_` finds its op still queued: an op that waits for its turn while nobody has
`mtx_`, and is not cancelled in the rest of the run, is served in turn. -/
theorem served_in_turn {s : (kind.primitive ι).State} (hs : kind.Attended s)
    {first rest : List (Label kind ι τ)} {m m' : Threads kind ι τ}
    (hfirst : run (step late) (.init s) first = some m) (hfree : m.owner = none)
    (hrest : run (step late) m rest = some m')
    (hqueued : ∀ u l, Takes (step late) (.init s) (first ++ rest) u l → StillQueued u l)
    {op : Op ι} {ahead behind : List (Op ι)}
    (hline : kind.line m.shared = ahead ++ op :: behind)
    (hcancel : ∀ x ∈ Machine.order (kind.code late) m rest, x.2 ≠ .cancel op) :
    ServedInTurn late m rest m' op ahead := by
  have hkind : kind ≠ .barrier := by
    rintro rfl
    cases ahead <;> cases hline
  have hbefore : ∀ u l, Takes (step late) (.init s) first u l → StillQueued u l :=
    fun u l htakes => hqueued u l (htakes.append rest)
  have hshared : m'.owner = none →
      m'.shared = serially m.shared (Machine.order (kind.code late) m rest) := by
    intro hfree'
    rw [shared_eq hkind (run_append.mpr ⟨m, hfirst, hrest⟩) hqueued hfree',
      shared_eq hkind hfirst hbefore hfree, order, Machine.order_append hfirst]
    exact List.foldl_append
  have hentries : ∀ s, kind.Attended s → ∀ x ∈ Machine.order (kind.code late) m rest,
      Advances op (kind.handsOn x.2).toNat (kind.line s) (x.2.completed s)
        (kind.line (x.2.apply s)) :=
    fun _ h x hx => h.advances (hcancel x hx)
  have hturns := served_or_waits (fun _ h x _ => h.apply x.2) hentries
    (attended_of_free hs hfirst hbefore hfree) hline
  rcases hturns with hserved | ⟨ahead', behind', hlast, hsub, hcount⟩
  · exact Or.inl hserved
  · refine Or.inr ⟨Nat.le_trans (Nat.le_add_left ..) hcount, fun hfree' => ?_⟩
    rw [hshared hfree']
    exact ⟨ahead', behind', hlast, hsub, hcount⟩

/-- A mutex is locked, and three more requests wait for it. -/
def threeWaiting : List (Label .mutex Nat Nat) :=
  .call 0 (.call (MutexImpl.Call.asyncLock 0 none)) false :: List.replicate 6 (.act 0) ++
    .call 1 (.call (MutexImpl.Call.asyncLock 1 none)) false :: List.replicate 6 (.act 1) ++
    .call 2 (.call (MutexImpl.Call.asyncLock 2 (some 7))) false :: List.replicate 6 (.act 2) ++
    .call 3 (.call (MutexImpl.Call.asyncLock 3 none)) false :: List.replicate 6 (.act 3)

/-- The second of them is cancelled, and the mutex is unlocked twice, by two threads at once. -/
def twoUnlocks : List (Label .mutex Nat Nat) :=
  .call 2 (.cancel (.async 2 (some 7))) false :: List.replicate 5 (.act 2) ++
    [.call 0 (.call MutexImpl.Call.unlock) false, .call 1 (.call MutexImpl.Call.unlock) false,
      .act 1, .act 1, .act 1, .act 1, .act 0, .act 0, .act 0, .act 0]

/-- The third one gets the lock, after no more than two releases. -/
theorem served_in_turn_two :
    ∃ m : Threads .mutex Nat Nat, run (step relinks) (.init unlocked) threeWaiting = some m ∧
      Serves m.shared (Machine.order (Kind.mutex.code relinks) m twoUnlocks) (.async 3 none) 2 := by
  have hattended : Kind.mutex.Attended unlocked := fun h => absurd rfl h
  obtain ⟨m', hchecked, hfree', hempty⟩ : ∃ m' : Threads .mutex Nat Nat,
      run (checked StillQueued (step relinks)) (.init unlocked) (threeWaiting ++ twoUnlocks) =
        some m' ∧ m'.owner = none ∧ Kind.mutex.line m'.shared = [] := ⟨_, rfl, rfl, rfl⟩
  obtain ⟨m, hm, hfree, hline, hothers⟩ : ∃ m : Threads .mutex Nat Nat,
      run (step relinks) (.init unlocked) threeWaiting = some m ∧ m.owner = none ∧
        Kind.mutex.line m.shared =
          [.async 1 none, .async 2 (some 7)] ++ Op.async 3 none :: [] ∧
        (Machine.order (Kind.mutex.code relinks) m twoUnlocks).map (·.2) =
          [.cancel (.async 2 (some 7)), .call MutexImpl.Call.unlock,
            .call MutexImpl.Call.unlock] := ⟨_, rfl, rfl, rfl, rfl⟩
  obtain ⟨hrun, hqueued⟩ := run_of_checked hchecked
  obtain ⟨u, hu, hm'⟩ := run_append.mp hrun
  obtain rfl := Option.some.inj (hm.symm.trans hu)
  have hkept : ∀ x ∈ Machine.order (Kind.mutex.code relinks) m twoUnlocks,
      x.2 ≠ .cancel (.async 3 none) := by
    intro x hx hcancel
    have hmem : x.2 ∈ (Machine.order (Kind.mutex.code relinks) m twoUnlocks).map (·.2) :=
      List.mem_map.mpr ⟨x, hx, rfl⟩
    rw [hothers, hcancel] at hmem
    simp at hmem
  refine ⟨m, hm, (served_in_turn hattended hm hfree hm' hqueued hline hkept).resolve_right ?_⟩
  -- nobody waits in the end
  rintro ⟨-, hwaits⟩
  obtain ⟨ahead, behind, hlast, -⟩ := hwaits hfree'
  simp [hempty] at hlast

end InlineHandler

end Sam
