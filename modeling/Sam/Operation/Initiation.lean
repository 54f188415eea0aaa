import Sam.Library.LockScope
import Sam.Operation.Kinds

/-!
# The initiations, line by line

The six `operator()(Handler &&)` as code around `mtx_`: where the lock is taken and released, where
the state changes, where `construct` can throw and where the handler is dispatched. The assignment
of the cancellation handler, between the construction and the enqueue, touches neither the lock nor
the state. The other calls are sections as a whole (`Kind.shape`). `Kind.callCode_finish` says that
undisturbed code is the critical section of its call.
-/

namespace Sam

open LockScope

universe u

variable {ι : Type u}

/-- What the initiations that dispatch in the scope of their lock have in common: they `take` what
they ask for if it is `free`, and otherwise make their op and `queue` it. -/
def takeOrQueue {σ : Type u} (free : σ → Bool) (take queue : σ → σ) : Code σ :=
  .lock <| .test free
    -- `return net::dispatch(...)` in the scope of `l`
    (.update take <| .invoke <| .unlock .done)
    (.create <| .update queue <| .unlock .done)

/-- `async_lock_op`. -/
def MutexImpl.Initiation.asyncLockOp (op : ι) : Code (MutexImpl ι) :=
  takeOrQueue (fun m => !m.locked) (fun m => { m with locked := true }) fun m => m.addWaiter op

/-- `async_lock_op`. -/
def SharedMutexImpl.Initiation.asyncLockOp (op : ι) : Code (SharedMutexImpl ι) :=
  takeOrQueue (fun m => !m.locked && m.lockedShared == 0) (fun m => { m with locked := true })
    fun m => m.addWaiter op

/-- `async_lock_shared_op`. -/
def SharedMutexImpl.Initiation.asyncLockSharedOp (op : ι) : Code (SharedMutexImpl ι) :=
  takeOrQueue (fun m => !m.locked) (fun m => { m with lockedShared := m.lockedShared + 1 })
    fun m => m.addSharedWaiter op

/-- `async_aquire_op`. -/
def SemaphoreImpl.Initiation.asyncAquireOp (op : ι) : Code (SemaphoreImpl ι) :=
  takeOrQueue (fun m => decide (0 < m.count)) (fun m => m.decrement.2) fun m => m.addWaiter op

/-- `async_wait_op` and `async_predicate_wait_op`. -/
def ConditionVariableImpl.Initiation.asyncWaitOp (op : ι) : Code (ConditionVariableImpl ι) :=
  .lock <| .create <| .update (fun m => m.addWaiter op) <| .unlock .done

/-- `async_arrive_op`: the section of `try_arrive`, after which the handler is dispatched, and a
second one, which counts the arrival before the op is made. -/
def BarrierImpl.Initiation.asyncArriveOp (op : ι) : Code (BarrierImpl ι) :=
  .lock <| .update (fun m => m.decrement) <| .test (fun m => m.counter = 0)
    -- `try_arrive` returns true, without its lock
    (.update (fun m => { m.completeAll with counter := m.init }) <| .unlock <| .invoke .done)
    (.update (fun m => { m with counter := m.counter + 1 }) <| .unlock <|
      -- the second lock, and the decrement before `construct`
      .lock <| .update (fun m => m.decrement) <| .create <|
        .update (fun m => m.addWaiter op) <| .unlock .done)

variable [DecidableEq ι]

namespace Primitive

/-- Any other call: its section, in which a blocking call releases the lock until its op is no
longer queued, and locks again. -/
def sectionCode (P : Primitive ι) (c : P.Call) : Code P.State :=
  .lock <| .test (fun s => P.waits s c)
    (.update (fun s => (P.call s c).state) <| .unlock <|
      -- `var.wait` comes back with the lock
      .wait (fun s => (P.request c).all fun op => op ∉ P.queued s) <| .lock <| .unlock .done)
    (.update (fun s => (P.call s c).state) <| .unlock .done)

/-- What a cancellation handler makes of the primitive that gets `mtx_` when its op is gone. The
source does not ask whether it is, and nothing is said of what `complete` does then. -/
abbrev Late (P : Primitive ι) := Op ι → P.State → P.State

/-- The cancellation handler of an op: `complete`, under the lock, which unlinks the op if it is
there. -/
def cancelCode (P : Primitive ι) (late : P.Late) (op : Op ι) : Code P.State :=
  .lock <| .test (fun s => op ∈ P.queued s)
    (.update (fun s => P.unlink s op) <| .unlock .done)
    -- the model was completed, and destroyed, while the handler waited for `mtx_`
    (.update (late op) <| .unlock .done)

/-- What a thread runs: a call, or the cancellation handler of an op. -/
inductive Entry (P : Primitive ι) where
  | call (c : P.Call)
  | cancel (op : Op ι)

/-- The code of an entry, by that of the calls. -/
def Entry.code {P : Primitive ι} (code : P.Call → Code P.State) (late : P.Late) :
    P.Entry → Code P.State
  | .call c => code c
  | .cancel op => P.cancelCode late op

end Primitive

/-! ## The calls of each kind -/

/-- The calls of a mutex. -/
def MutexImpl.Call.code : Call ι → Code (MutexImpl (Op ι))
  | .asyncLock id slot => Initiation.asyncLockOp (.async id slot)
  | c => primitive.sectionCode c

/-- The calls of a shared mutex. -/
def SharedMutexImpl.Call.code : Call ι → Code (SharedMutexImpl (Op ι))
  | .asyncLock id slot => Initiation.asyncLockOp (.async id slot)
  | .asyncLockShared id slot => Initiation.asyncLockSharedOp (.async id slot)
  | c => primitive.sectionCode c

/-- The calls of a semaphore. -/
def SemaphoreImpl.Call.code : Call ι → Code (SemaphoreImpl (Op ι))
  | .asyncAcquire id slot => Initiation.asyncAquireOp (.async id slot)
  | c => primitive.sectionCode c

/-- The calls of a condition variable. -/
def ConditionVariableImpl.Call.code : Call ι → Code (ConditionVariableImpl (Op ι))
  | .asyncWait id slot => Initiation.asyncWaitOp (.async id slot)
  | c => primitive.sectionCode c

/-- The calls of a barrier. -/
def BarrierImpl.Call.code : Call ι → Code (BarrierImpl (Op ι))
  | .asyncArrive id slot => Initiation.asyncArriveOp (.async id slot)
  | c => primitive.sectionCode c

namespace Kind

/-- The code of a call. -/
def callCode : (kind : Kind) → (kind.primitive ι).Call → Code (kind.primitive ι).State
  | mutex => MutexImpl.Call.code
  | sharedMutex => SharedMutexImpl.Call.code
  | semaphore => SemaphoreImpl.Call.code
  | conditionVariable => ConditionVariableImpl.Call.code
  | barrier => BarrierImpl.Call.code

/-- The code that a thread runs. -/
def code (kind : Kind) (late : (kind.primitive ι).Late) :
    (kind.primitive ι).Entry → Code (kind.primitive ι).State :=
  Primitive.Entry.code kind.callCode late

/-- Whether the initiations dispatch in the scope of their lock: all of them but `async_arrive`. -/
def dispatchesInside (kind : Kind) : Bool := kind ≠ .barrier

end Kind

/-! ## The code and the sections -/

variable {P : Primitive ι}

/-- Undisturbed code of a section. -/
@[simp] theorem Primitive.sectionCode_finish (c : P.Call) (s : P.State) :
    (P.sectionCode c).finish s = (P.call s c).state := by
  simp only [sectionCode, Code.finish, ite_self]

/-- A section makes no op of a handler. -/
@[simp] theorem Primitive.sectionCode_fails (c : P.Call) (s : P.State) :
    (P.sectionCode c).fails s = none :=
  Code.fails_of_not_creates rfl s

/-- What the code of a call is, and what this means for the call. -/
inductive Primitive.Shape (P : Primitive ι) (c : P.Call) : Code P.State → Prop where
  | initiation {free : P.State → Bool} {take queue : P.State → P.State}
      (hrequest : ∃ id slot, P.request c = some (.async id slot))
      (hwaits : ∀ s, P.waits s c = !free s)
      (hstate : ∀ s, (P.call s c).state = if free s then take s else queue s)
      (hgranted : ∀ s, free s = true → (P.call s c).outcome = .granted) :
      Shape P c (takeOrQueue free take queue)
  | waits {queue : P.State → P.State}
      (hrequest : ∃ id slot, P.request c = some (.async id slot))
      (hwaits : ∀ s, P.waits s c = true) (hstate : ∀ s, (P.call s c).state = queue s) :
      Shape P c (.lock <| .create <| .update queue <| .unlock .done)
  | wholeSection (hrequest : ∀ id slot, P.request c ≠ some (.async id slot)) :
      Shape P c (P.sectionCode c)

omit [DecidableEq ι] in
/-- The mutex is shared. -/
theorem SharedMutexImpl.decide_lockedShared_pos (m : SharedMutexImpl (Op ι)) :
    decide (0 < m.lockedShared) = !(m.lockedShared == 0) := by
  by_cases hshared : m.lockedShared = 0 <;> simp [hshared, Nat.pos_iff_ne_zero]

/-- **The calls of all kinds but the barrier** have one of these shapes. -/
theorem Kind.shape {kind : Kind} (hkind : kind ≠ .barrier) (c : (kind.primitive ι).Call) :
    (kind.primitive ι).Shape c (kind.callCode c) := by
  cases kind with
  | mutex =>
      cases c with
      | asyncLock id slot =>
          refine .initiation ⟨id, slot, rfl⟩ (fun m => ?_) (fun m => ?_) fun m h => ?_
          · exact (Bool.not_not _).symm
          · exact apply_ite Result.state ..
          · exact congrArg Result.outcome (if_pos h)
      | _ => exact .wholeSection fun _ _ h => by cases h
  | sharedMutex =>
      cases c with
      | asyncLock id slot =>
          refine .initiation ⟨id, slot, rfl⟩ (fun m => ?_) (fun m => ?_) fun m h => ?_
          · rw [Bool.not_and, Bool.not_not]
            exact congrArg (m.locked || ·) (SharedMutexImpl.decide_lockedShared_pos m)
          · exact apply_ite Result.state ..
          · exact congrArg Result.outcome (if_pos h)
      | asyncLockShared id slot =>
          refine .initiation ⟨id, slot, rfl⟩ (fun m => ?_) (fun m => ?_) fun m h => ?_
          · exact (Bool.not_not _).symm
          · exact apply_ite Result.state ..
          · exact congrArg Result.outcome (if_pos h)
      | _ => exact .wholeSection fun _ _ h => by cases h
  | semaphore =>
      cases c with
      | asyncAcquire id slot =>
          refine .initiation ⟨id, slot, rfl⟩ (fun m => rfl) (fun m => ?_) fun m h => ?_
          · simp only [decide_eq_true_eq]
            exact apply_ite Result.state ..
          · exact congrArg Result.outcome (if_pos (of_decide_eq_true h))
      | _ => exact .wholeSection fun _ _ h => by cases h
  | conditionVariable =>
      cases c with
      | asyncWait id slot => exact .waits ⟨id, slot, rfl⟩ (fun _ => rfl) fun _ => rfl
      | _ => exact .wholeSection fun _ _ h => by cases h
  | barrier => exact absurd rfl hkind

namespace Primitive.Shape

variable {c : P.Call} {code : Code P.State} {s : P.State}

/-- Undisturbed code of such a call. -/
theorem finish (h : P.Shape c code) (s : P.State) : code.finish s = (P.call s c).state := by
  cases h with
  | initiation _ _ hstate _ | waits _ _ hstate => exact (hstate s).symm
  | wholeSection => exact sectionCode_finish c s

/-- It gets to `construct` when it asks for an op of a handler and has to wait. -/
theorem isSome_iff (h : P.Shape c code) (s : P.State) : (code.fails s).isSome ↔
    (∃ id slot, P.request c = some (.async id slot)) ∧ P.waits s c = true := by
  cases h with
  | @initiation free take queue hrequest hwaits =>
      refine Iff.trans ?_ (and_iff_right hrequest).symm
      rw [hwaits s]
      cases hfree : free s <;> simp [takeOrQueue, Code.fails, hfree]
  | waits hrequest hwaits => exact iff_of_true rfl ⟨hrequest, hwaits s⟩
  | wholeSection hrequest =>
      rw [sectionCode_fails]
      exact iff_of_false Bool.false_ne_true fun h => h.1.elim fun id h => h.elim (hrequest id)

end Primitive.Shape

/-- Undisturbed code of `async_arrive` is the section of `try_arrive`, and the second one if that
fails. -/
theorem BarrierImpl.Call.code_finish (c : BarrierImpl.Call ι) (m : BarrierImpl (Op ι)) :
    c.code.finish m = (c.run m).state := by
  cases c with
  | asyncArrive id slot =>
      show (Initiation.asyncArriveOp (.async id slot)).finish m =
        (m.asyncArriveOp (.async id slot)).state
      simp only [Initiation.asyncArriveOp, Code.finish, BarrierImpl.asyncArriveOp,
        BarrierImpl.tryArrive, decide_eq_true_eq]
      split <;> rfl
  | _ => exact Primitive.sectionCode_finish (P := primitive) _ m

/-- **Undisturbed code is the critical section of its call.** -/
theorem Kind.callCode_finish (kind : Kind) (c : (kind.primitive ι).Call)
    (s : (kind.primitive ι).State) :
    (kind.callCode c).finish s = ((kind.primitive ι).call s c).state := by
  by_cases hkind : kind = .barrier
  · subst hkind
    exact BarrierImpl.Call.code_finish c s
  · exact (Kind.shape hkind c).finish s

/-- The code of every entry locks and unlocks in turn and dispatches on one side of the lock. -/
theorem Kind.code_balanced (kind : Kind) (late : (kind.primitive ι).Late)
    (e : (kind.primitive ι).Entry) :
    (kind.code late e).balanced kind.dispatchesInside false = true := by
  cases e with
  | cancel op => cases kind <;> rfl
  | call c =>
      cases kind <;> cases c <;> rfl

/-- All initiations but `async_arrive` make the op before they change anything. -/
theorem Kind.callCode_clean {kind : Kind} (h : kind ≠ .barrier) (c : (kind.primitive ι).Call) :
    (kind.callCode c).clean = true := by
  cases kind with
  | barrier => exact absurd rfl h
  | _ => cases c <;> rfl

/-! ## Which calls make an op -/

/-- The last arrival makes none. -/
theorem BarrierImpl.Call.code_isSome_iff (c : BarrierImpl.Call ι) (m : BarrierImpl (Op ι)) :
    (c.code.fails m).isSome ↔
      (∃ id slot, c.request = some (.async id slot)) ∧ c.waits m = true := by
  cases c with
  | asyncArrive id slot =>
      refine Iff.trans ?_ (and_iff_right ⟨id, slot, rfl⟩).symm
      show ((Initiation.asyncArriveOp (.async id slot)).fails m).isSome ↔
        waits m (.asyncArrive id slot) = true
      have hcounter : m.counter - 1 = 0 ↔ m.counter = 1 := by omega
      by_cases hlast : m.counter = 1 <;>
        simp [Initiation.asyncArriveOp, Code.fails, decrement, waits, hcounter, hlast]
  | _ =>
      refine iff_of_false ?_ fun h => by simp [request] at h
      rw [Code.fails_of_not_creates rfl]
      exact Bool.false_ne_true

/-- **Exactly the initiations that have to wait get to `construct`.** -/
theorem Kind.callCode_isSome_iff {kind : Kind} (c : (kind.primitive ι).Call)
    (s : (kind.primitive ι).State) : ((kind.callCode c).fails s).isSome ↔
      (∃ id slot, (kind.primitive ι).request c = some (.async id slot)) ∧
        (kind.primitive ι).waits s c = true := by
  by_cases hkind : kind = .barrier
  · subst hkind
    exact BarrierImpl.Call.code_isSome_iff c s
  · exact (Kind.shape hkind c).isSome_iff s

end Sam
