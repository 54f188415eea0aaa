import Sam.Operation.Initiation

/-!
# Handlers that run inline

In multi-threaded mode a handler is dispatched by the initiation when it has what it asked for. An
associated immediate executor may run it inside `dispatch`, and its body may call the primitive
again. All initiations but `async_arrive` dispatch in the scope of their lock, so that such a body
runs under `mtx_`. Posted handlers never run inside a call. The threads run the code of
`Kind.code`; read `released_iff_outside` for the result.
-/

namespace Sam.InlineHandler

open LockScope Transition

universe u v

variable {ι : Type u} [DecidableEq ι] {τ : Type v} [DecidableEq τ]

/-- A primitive and the threads that use it. -/
abbrev Threads (kind : Kind) (ι : Type u) [DecidableEq ι] (τ : Type v) :=
  Machine (kind.primitive ι).State τ (kind.primitive ι).Entry

/-- The steps of the threads. A call comes with whether its handler's immediate executor runs
functions inline. -/
abbrev Label (kind : Kind) (ι : Type u) [DecidableEq ι] (τ : Type v) :=
  LockScope.Label τ (kind.primitive ι).Entry

/-- The threads go on. -/
def step {kind : Kind} (late : (kind.primitive ι).Late) :
    Threads kind ι τ → Label kind ι τ → Option (Threads kind ι τ) :=
  Machine.step (kind.code late)

/-- The step dispatches a handler whose immediate executor runs it inline. -/
def DispatchesInline {kind : Kind} (s : Threads kind ι τ) (l : Label kind ι τ) : Prop :=
  ∃ t e rest frames, l = .act t ∧ s.stack t = .code e true (.invoke rest) :: frames

/-- **Handlers run under the lock exactly when one is dispatched inline by another initiation than
`async_arrive`.** For every kind of primitive, from any state of it, in every run of any number of
threads, their calls, their handlers and whatever these call, and whatever late cancellation
handlers do under `mtx_`: in all states of the run no handler body runs while its thread has `mtx_`
and no thread locks an `mtx_` that it has, if and only if no `async_lock`, `async_lock_shared` or
`async_acquire` that is granted at once dispatches a handler inline. -/
theorem released_iff_outside (kind : Kind) (late : (kind.primitive ι).Late)
    (s : (kind.primitive ι).State) (ls : List (Label kind ι τ)) :
    (∀ t, Visits (step late) (.init s : Threads kind ι τ) ls t → t.Released) ↔
      ∀ t l, Takes (step late) (.init s : Threads kind ι τ) ls t l → DispatchesInline t l →
        kind = .barrier := by
  have houtside : ∀ (t : Threads kind ι τ) (l : Label kind ι τ),
      t.Outside (fun _ => kind.dispatchesInside) l ↔ (DispatchesInline t l → kind = .barrier) := by
    intro t l
    constructor
    · rintro houtside ⟨r, e, rest, frames, hl, hstack⟩
      simpa [Kind.dispatchesInside] using houtside r e rest frames hl hstack
    · intro hbarrier r e rest frames hl hstack
      simpa [Kind.dispatchesInside] using hbarrier ⟨r, e, rest, frames, hl, hstack⟩
  simp only [← houtside]
  exact Machine.released_iff (kind.code_balanced late) s ls

/-- No handler is late in the runs below. -/
def neverLate : (Kind.mutex.primitive Nat).Late := fun _ m => m

/-- A thread locks a free mutex with a handler that runs inline and unlocks it again. -/
def relock : List (Label .mutex Nat Unit) :=
  [.call () (.call (.asyncLock 0 none)) true, .act (), .act (), .act (), .act (),
    .call () (.call .unlock) false]

/-- The handler runs under `mtx_`, and the thread waits for itself, whatever happens next. -/
theorem relock_deadlocks :
    (∃ s : Threads .mutex Nat Unit,
      run (step neverLate) (.init (.init true) : Threads .mutex Nat Unit) relock = some s ∧
        ¬ s.Released) ∧
    ∀ (more : List (Label .mutex Nat Unit)) (s : Threads .mutex Nat Unit),
      run (step neverLate) (.init (.init true) : Threads .mutex Nat Unit) (relock ++ more) =
        some s → s.Deadlocked () := by
  have hrelock : ∃ s : Threads .mutex Nat Unit,
      run (step neverLate) (.init (.init true) : Threads .mutex Nat Unit) relock = some s ∧
        s.Deadlocked () := ⟨_, rfl, rfl, _, _, _, _, rfl⟩
  obtain ⟨s, hs, hdead⟩ := hrelock
  obtain ⟨howner, e, inline, rest, frames, hstack⟩ := hdead
  refine ⟨⟨s, hs, fun hreleased => hreleased.relock () e inline rest frames hstack howner⟩, ?_⟩
  intro more t ht
  obtain ⟨u, hu, hmore⟩ := run_append.mp ht
  obtain rfl := Option.some.inj (hs.symm.trans hu)
  exact Machine.Deadlocked.run ⟨howner, e, inline, rest, frames, hstack⟩ hmore

end Sam.InlineHandler
