import Sam.Library.Reentrant
import Sam.Operation.Atomic

/-!
# Single-threaded mode

In single-threaded mode `mtx_` is disabled: locking it does nothing, and a handler that is
dispatched in the scope of a lock calls the primitive in the middle of the initiation. A blocking
call fails where it would have to wait. `nested_calls` says that neither the handlers nor what they
call can tell: the calls are those of the primitive one after the other, and all of them return.
-/

namespace Sam

open LockScope Transition

universe u

variable {ι : Type u} [DecidableEq ι]

/-! ## Sections without a lock -/

/-- Every call dispatches its handler last. -/
theorem Kind.code_last (kind : Kind) (late : (kind.primitive ι).Late)
    (e : (kind.primitive ι).Entry) : (kind.code late e).last = true := by
  cases e with
  | cancel op => cases kind <;> rfl
  | call c => cases kind <;> cases c <;> rfl

/-- A call that does not have to wait, or that asks for nothing. -/
theorem Primitive.sectionCode_waits {P : Primitive ι} {c : P.Call} {s : P.State}
    (h : P.waits s c = false ∨ P.request c = none) : (P.sectionCode c).waits s = false := by
  rcases h with h | h <;> simp [sectionCode, Code.waits, h]

/-! ## The mode stays -/

/-- No call of a mutex changes whether `mtx_` is enabled. -/
theorem MutexImpl.Call.run_enabled (m : MutexImpl (Op ι)) (c : Call ι) :
    (c.run m).state.enabled = m.enabled := by
  cases c <;>
    simp only [run, MutexImpl.tryLock, MutexImpl.lock, MutexImpl.asyncLock, MutexImpl.unlock] <;>
    repeat' split
  all_goals rfl

/-- Handing out the shared locks is no exception. -/
theorem SharedMutexImpl.wakeShared_enabled {m : SharedMutexImpl (Op ι)} {line : List (Op ι)} :
    (m.wakeShared line).enabled = m.enabled := by
  induction line generalizing m with
  | nil => rfl
  | cons op rest ih => exact ih

/-- No call of a shared mutex changes it. -/
theorem SharedMutexImpl.Call.run_enabled (m : SharedMutexImpl (Op ι)) (c : Call ι) :
    (c.run m).state.enabled = m.enabled := by
  cases c with
  | unlock =>
      simp only [run, SharedMutexImpl.unlock]
      split
      · exact wakeShared_enabled
      · split <;> rfl
  | unlockShared =>
      rw [run, unlockShared_eq]
      split
      · split <;> rfl
      · rfl
  | _ =>
      simp only [run, SharedMutexImpl.tryLock, SharedMutexImpl.tryLockShared,
        SharedMutexImpl.asyncLock, SharedMutexImpl.asyncLockShared, SharedMutexImpl.lock,
        SharedMutexImpl.lockShared]
      repeat' split
      all_goals rfl

/-- No call of a semaphore changes it. -/
theorem SemaphoreImpl.Call.run_enabled (m : SemaphoreImpl (Op ι)) (c : Call ι) :
    (c.run m).state.enabled = m.enabled := by
  cases c <;>
    simp only [run, SemaphoreImpl.tryAcquire, SemaphoreImpl.acquire, SemaphoreImpl.asyncAcquire,
      SemaphoreImpl.release] <;>
    repeat' split
  all_goals rfl

/-- No call of a barrier changes it. -/
theorem BarrierImpl.Call.run_enabled (m : BarrierImpl (Op ι)) (c : Call ι) :
    (c.run m).state.enabled = m.enabled := by
  cases c <;>
    simp only [run, BarrierImpl.tryArrive, BarrierImpl.arrive, BarrierImpl.asyncArriveOp] <;>
    repeat' split
  all_goals rfl

/-- `mtx_` is disabled. The calls of a condition variable do not ask whether it is. -/
def Kind.Disabled : (kind : Kind) → (kind.primitive ι).State → Prop
  | mutex, m => MutexImpl.enabled m = false
  | sharedMutex, m => MutexImpl.enabled (SharedMutexImpl.toMutexImpl m) = false
  | semaphore, m => SemaphoreImpl.enabled m = false
  | conditionVariable, _ => True
  | barrier, m => BarrierImpl.enabled m = false

namespace Kind.Disabled

variable {kind : Kind} {s : (kind.primitive ι).State}

/-- A blocking call does not wait in single-threaded mode. -/
theorem waits (h : kind.Disabled s) {c : (kind.primitive ι).Call}
    (hblocking : ∀ id slot, (kind.primitive ι).request c ≠ some (.async id slot)) :
    (kind.primitive ι).waits s c = false ∨ (kind.primitive ι).request c = none := by
  cases kind with
  | mutex | sharedMutex | semaphore | barrier =>
      -- a blocking call asks for `mtx_.enabled()` first
      cases c <;> first
        | exact Or.inr rfl
        | exact absurd rfl (hblocking _ _)
        | exact Or.inl (Bool.and_eq_false_imp.mpr fun henabled =>
            Bool.noConfusion (h.symm.trans henabled))
  | conditionVariable =>
      cases c with
      | asyncWait id slot => exact absurd rfl (hblocking id slot)
      | notifyOne done | notifyAll done => exact Or.inr rfl

/-- A call of these shapes does not wait in single-threaded mode. -/
theorem shape_waits (h : kind.Disabled s) {c : (kind.primitive ι).Call}
    {code : Code (kind.primitive ι).State} (hshape : (kind.primitive ι).Shape c code) :
    code.waits s = false := by
  cases hshape with
  | initiation => simp [takeOrQueue, Code.waits]
  | waits => rfl
  | wholeSection hblocking => exact Primitive.sectionCode_waits (h.waits hblocking)

/-- Nobody waits in single-threaded mode. -/
theorem code_waits (h : kind.Disabled s) (late : (kind.primitive ι).Late)
    (e : (kind.primitive ι).Entry) : (kind.code late e).waits s = false := by
  cases e with
  | cancel op =>
      show (Primitive.cancelCode _ late op).waits s = false
      simp [Primitive.cancelCode, Code.waits]
  | call c =>
      by_cases hkind : kind = .barrier
      · subst hkind
        cases c with
        | asyncArrive id slot =>
            show (BarrierImpl.Initiation.asyncArriveOp (.async id slot)).waits s = false
            simp [BarrierImpl.Initiation.asyncArriveOp, Code.waits]
        | _ => exact Primitive.sectionCode_waits (h.waits fun _ _ h => by cases h)
      · exact h.shape_waits (Kind.shape hkind c)

/-- The mode stays. -/
theorem apply (h : kind.Disabled s) (e : (kind.primitive ι).Entry) : kind.Disabled (e.apply s) := by
  cases e with
  | cancel op => cases kind <;> exact h
  | call c =>
      cases kind with
      | mutex => exact (MutexImpl.Call.run_enabled s c).trans h
      | sharedMutex => exact (SharedMutexImpl.Call.run_enabled s c).trans h
      | semaphore => exact (SemaphoreImpl.Call.run_enabled s c).trans h
      | conditionVariable => trivial
      | barrier => exact (BarrierImpl.Call.run_enabled s c).trans h

end Kind.Disabled

/-- A handler of `async_arrive` is dispatched by the last arrival. -/
theorem BarrierImpl.Call.granted_of_invokes {c : BarrierImpl.Call ι} {m : BarrierImpl (Op ι)}
    (h : c.code.invokes m = true) : (c.run m).outcome = .granted := by
  cases c with
  | asyncArrive id slot =>
      change (Initiation.asyncArriveOp (.async id slot)).invokes m = true at h
      show (m.asyncArriveOp (.async id slot)).outcome = .granted
      by_cases hlast : m.counter = 1
      · rw [asyncArriveOp, tryArrive_of_last hlast]
      · have hmore : m.counter - 1 ≠ 0 := by omega
        simp [Initiation.asyncArriveOp, Code.invokes, decrement, hmore] at h
  | _ => exact Primitive.sectionCode_invokes (P := primitive) h

namespace SingleThreaded

/-- A primitive and the thread that uses it. -/
abbrev Thread (kind : Kind) (ι : Type u) [DecidableEq ι] :=
  Nest (kind.primitive ι).State (kind.primitive ι).Entry

/-- The steps of the thread. A call comes with whether its handler's immediate executor runs
functions inline. -/
abbrev Label (kind : Kind) (ι : Type u) [DecidableEq ι] :=
  Nest.Label (kind.primitive ι).Entry

/-- The code of the thread. Nobody gets ahead of a cancellation handler here, so a late one is one
that is not installed: there is nothing to unlink. -/
def code (kind : Kind) : (kind.primitive ι).Entry → Code (kind.primitive ι).State :=
  kind.code fun op s => (kind.primitive ι).unlink s op

/-- The thread goes on. -/
def step {kind : Kind} : Thread kind ι → Label kind ι → Option (Thread kind ι) :=
  Nest.step (code kind)

/-- Entries one after the other. -/
def serially {kind : Kind} (s : (kind.primitive ι).State)
    (entries : List (kind.primitive ι).Entry) : (kind.primitive ι).State :=
  entries.foldl (fun s e => e.apply s) s

variable {kind : Kind}

/-- Undisturbed code. -/
theorem code_finish (e : (kind.primitive ι).Entry) (s : (kind.primitive ι).State) :
    (code kind e).finish s = e.apply s := by
  cases e with
  | call c => exact kind.callCode_finish c s
  | cancel op => exact ite_self _

/-- Codes one after the other are entries one after the other. -/
theorem serially_eq (s : (kind.primitive ι).State) (entries : List (kind.primitive ι).Entry) :
    Nest.serially (code kind) s entries = serially s entries := by
  simp only [Nest.serially, serially, code_finish]

/-- **Handlers may call the primitive that dispatches them.** For every kind, in single-threaded
mode, in every run of calls, cancellations, handlers that are dispatched inline and whatever these
call: outside of all calls and in every handler, the primitive is as the entries leave it one after
the other, in the order in which they were made; a handler is about to be dispatched by the last one
of them only, which is granted after the others; and if no more calls are made, the thread never
waits until all have returned, in a bounded number of steps. -/
theorem nested_calls {s : (kind.primitive ι).State} (hs : kind.Disabled s)
    {ls : List (Label kind ι)} {m : Thread kind ι} (hrun : run step ⟨s, []⟩ ls = some m) :
    (m.Between → m.shared = serially s (Nest.calls ls)) ∧
    (∀ c inline rest frames, m.stack = .code (.call c) inline (.invoke rest) :: frames →
      ∃ before, Nest.calls ls = before ++ [.call c] ∧
        ((kind.primitive ι).call (serially s before) c).outcome = .granted) ∧
    ∀ more (t : Thread kind ι), Nest.calls more = [] → run step m more = some t →
      more.length ≤ m.left ∧ ((∀ l, Nest.calls [l] = [] → step t l = none) → t.stack = []) := by
  have hlast : ∀ e : (kind.primitive ι).Entry, (code kind e).last = true := kind.code_last _
  have hwaits : ∀ e (s : (kind.primitive ι).State), kind.Disabled s →
      (code kind e).waits s = false := fun e _ h => h.code_waits _ e
  have hkeep : ∀ e (s : (kind.primitive ι).State), kind.Disabled s →
      kind.Disabled ((code kind e).finish s) := fun e s h => code_finish e s ▸ h.apply e
  refine ⟨fun hbetween => ?_, fun c inline rest frames hstack => ?_, fun more t hcalls hmore => ?_⟩
  · rw [← serially_eq]
    exact Nest.shared_eq_serially hlast hwaits hkeep hs hrun hbetween
  · obtain ⟨before, hbefore, hinvokes⟩ :=
      Nest.invokes_last hlast hwaits hkeep hs hrun hstack
    rw [serially_eq] at hinvokes
    refine ⟨before, hbefore, ?_⟩
    cases kind with
    | barrier => exact BarrierImpl.Call.granted_of_invokes hinvokes
    | _ => exact Kind.granted_of_invokes (by decide) hinvokes
  · exact Nest.returns hlast hwaits hkeep hs hrun hcalls hmore

/-- A mutex in single-threaded mode. -/
def alone : (Kind.mutex.primitive Nat).State := MutexImpl.init false

/-- A handler is dispatched inline, and unlocks the mutex before the initiation is over. -/
def unlockInside : List (Label .mutex Nat) :=
  .call (.call (MutexImpl.Call.asyncLock 0 none)) true :: List.replicate 4 .act ++
    .call (.call MutexImpl.Call.unlock) false :: List.replicate 5 .act

/-- In the handler, the mutex is locked and unlocked. -/
theorem nested_calls_unlocked :
    ∃ m : Thread .mutex Nat, run step ⟨alone, []⟩ unlockInside = some m ∧
      m.stack.length = 2 ∧ m.shared = serially alone (Nest.calls unlockInside) ∧
      ∀ more (t : Thread .mutex Nat), Nest.calls more = [] → run step m more = some t →
        more.length ≤ 3 ∧ ((∀ l, Nest.calls [l] = [] → step t l = none) → t.stack = []) := by
  obtain ⟨m, hm, hlength, hleft, hbetween⟩ : ∃ m : Thread .mutex Nat,
      run step ⟨alone, []⟩ unlockInside = some m ∧ m.stack.length = 2 ∧ m.left = 3 ∧
        m.Between := ⟨_, rfl, rfl, rfl, nofun⟩
  have hdisabled : Kind.mutex.Disabled alone := rfl
  have hcalls := nested_calls hdisabled hm
  exact ⟨m, hm, hlength, hcalls.1 hbetween, hleft ▸ hcalls.2.2⟩

end SingleThreaded

end Sam
