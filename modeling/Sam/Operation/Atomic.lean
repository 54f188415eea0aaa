import Mathlib.Data.List.Induction
import Sam.Library.Serial
import Sam.Operation.InlineHandler

/-!
# Calls are atomic

In multi-threaded mode the threads of `InlineHandler` go on line by line. `calls_atomic` says that
every interleaving of them is a sequence of whole calls, in the order in which these took `mtx_`:
the critical sections of `Kind.primitive`, one after the other. It leaves out the barrier, whose
`async_arrive` has two sections, and the runs in which a cancellation handler gets `mtx_` after its
op was completed (`StillQueued`). What every call keeps therefore holds whenever nobody has `mtx_`,
and with it that nobody waits for something that is free.
-/

namespace Sam

open LockScope Transition

universe u v

variable {ι : Type u} [DecidableEq ι] {τ : Type v} [DecidableEq τ]

/-! ## An entry by itself -/

/-- What an entry does when nobody else runs: a call its section, and a cancellation handler
`complete`, which unlinks the op. -/
def Primitive.Entry.apply {P : Primitive ι} (s : P.State) : P.Entry → P.State
  | .call c => (P.call s c).state
  | .cancel op => P.unlink s op

/-- A cancellation handler finds its op in a waiter list. -/
def Primitive.Entry.Timely {P : Primitive ι} (s : P.State) : P.Entry → Prop
  | .call _ => True
  | .cancel op => op ∈ P.queued s

instance {P : Primitive ι} (s : P.State) : (e : P.Entry) → Decidable (e.Timely s)
  | .call _ => inferInstanceAs (Decidable True)
  | .cancel op => inferInstanceAs (Decidable (op ∈ P.queued s))

/-- The code of an entry, without anybody in between. -/
theorem Kind.code_finish (kind : Kind) (late : (kind.primitive ι).Late)
    {e : (kind.primitive ι).Entry} {s : (kind.primitive ι).State} (h : e.Timely s) :
    (kind.code late e).finish s = e.apply s := by
  cases e with
  | call c => exact kind.callCode_finish c s
  | cancel op =>
      have hop : op ∈ (kind.primitive ι).queued s := h
      simp [code, Primitive.Entry.code, Primitive.cancelCode, Code.finish, Primitive.Entry.apply,
        hop]

/-- Every entry but `async_arrive` has one section. -/
theorem Kind.code_oneSection {kind : Kind} (hkind : kind ≠ .barrier)
    (late : (kind.primitive ι).Late) (e : (kind.primitive ι).Entry) :
    (kind.code late e).OneSection := by
  cases e with
  | cancel op => exact ⟨_, rfl, rfl, List.all_eq_true.mp rfl⟩
  | call c =>
      cases kind with
      | barrier => exact absurd rfl hkind
      | _ => cases c <;> exact ⟨_, rfl, rfl, List.all_eq_true.mp rfl⟩

/-- A section dispatches no handler. -/
theorem Primitive.sectionCode_invokes {P : Primitive ι} {c : P.Call} {s : P.State}
    (h : (P.sectionCode c).invokes s = true) : (P.call s c).outcome = .granted := by
  simp [sectionCode, Code.invokes] at h

/-- An initiation dispatches its handler when it has what it asks for. -/
theorem Primitive.Shape.granted_of_invokes {P : Primitive ι} {c : P.Call} {code : Code P.State}
    (h : P.Shape c code) {s : P.State} (hinvokes : code.invokes s = true) :
    (P.call s c).outcome = .granted := by
  cases h with
  | @initiation free take queue _ _ _ hgranted =>
      refine hgranted s ?_
      by_contra hfree
      simp [takeOrQueue, Code.invokes, hfree] at hinvokes
  | waits => cases hinvokes
  | wholeSection => exact sectionCode_invokes hinvokes

/-- **A handler is dispatched with what it asks for.** The condition variable dispatches none. -/
theorem Kind.granted_of_invokes {kind : Kind} (hkind : kind ≠ .barrier)
    {c : (kind.primitive ι).Call} {s : (kind.primitive ι).State}
    (h : (kind.callCode c).invokes s = true) :
    ((kind.primitive ι).call s c).outcome = .granted :=
  (Kind.shape hkind c).granted_of_invokes h

namespace InlineHandler

variable {kind : Kind} {late : (kind.primitive ι).Late}

/-- The entries of a run, in the order in which they take `mtx_`, with the threads they run on. -/
def order (late : (kind.primitive ι).Late) (s : (kind.primitive ι).State)
    (ls : List (Label kind ι τ)) : List (τ × (kind.primitive ι).Entry) :=
  Machine.order (kind.code late) (.init s) ls

/-- Entries one after the other. -/
def serially (s : (kind.primitive ι).State) (entries : List (τ × (kind.primitive ι).Entry)) :
    (kind.primitive ι).State :=
  entries.foldl (fun s x => x.2.apply s) s

/-- A cancellation handler that obtains `mtx_` finds its op in a waiter list. -/
def StillQueued (m : Threads kind ι τ) (l : Label kind ι τ) : Prop :=
  ∀ x ∈ m.enters l, x.call.Timely m.shared

instance (m : Threads kind ι τ) (l : Label kind ι τ) : Decidable (StillQueued m l) :=
  inferInstanceAs (Decidable (∀ x ∈ m.enters l, x.call.Timely m.shared))

/-- Each cancellation handler, after the entries before it, finds its op. -/
def Timely (s : (kind.primitive ι).State) : List (τ × (kind.primitive ι).Entry) → Prop
  | [] => True
  | x :: rest => x.2.Timely s ∧ Timely (x.2.apply s) rest

omit [DecidableEq τ] in
/-- Entries of two parts. -/
theorem timely_append {s : (kind.primitive ι).State}
    {before rest : List (τ × (kind.primitive ι).Entry)} :
    Timely s (before ++ rest) ↔ Timely s before ∧ Timely (serially s before) rest := by
  induction before generalizing s with
  | nil => exact (true_and _).to_iff.symm
  | cons x before ih => exact (and_congr_right fun _ => ih).trans and_assoc.symm

omit [DecidableEq τ] in
/-- Codes one after the other are entries one after the other. -/
theorem serially_eq {s : (kind.primitive ι).State}
    {entries : List (τ × (kind.primitive ι).Entry)} (h : Timely s entries) :
    Machine.serially (kind.code late) s entries = serially s entries := by
  induction entries generalizing s with
  | nil => rfl
  | cons x entries ih =>
      have hfirst := kind.code_finish late h.1
      show Machine.serially _ ((kind.code late x.2).finish s) entries = _
      rw [hfirst]
      exact ih h.2

/-- **The order of a run is timely** if its cancellation handlers find their ops when they obtain
`mtx_`. -/
theorem order_timely (hkind : kind ≠ .barrier) {s : (kind.primitive ι).State}
    {ls : List (Label kind ι τ)} {m : Threads kind ι τ}
    (hrun : run (step late) (.init s) ls = some m)
    (hqueued : ∀ u l, Takes (step late) (.init s) ls u l → StillQueued u l) :
    Timely s (order late s ls) := by
  induction ls using List.reverseRecOn generalizing m with
  | nil => trivial
  | append_singleton ls l ih =>
      obtain ⟨u, hu, hlast⟩ := run_append.mp hrun
      obtain ⟨v, hv, -⟩ := run_cons.mp hlast
      have hbefore : Timely s (order late s ls) :=
        ih hu fun w k htakes => hqueued w k (htakes.append [l])
      have horder : order late s (ls ++ [l]) =
          order late s ls ++ Machine.callsIn (u.enters l).toList := by
        have hone : Machine.entered (kind.code late) u [l] = (u.enters l).toList := by
          have hstep : Machine.step (kind.code late) u l = some v := hv
          simp [Machine.entered, hstep]
        rw [order, Machine.order_append hu, Machine.order, Machine.order, hone]
        rfl
      rw [horder]
      refine timely_append.mpr ⟨hbefore, ?_⟩
      cases henters : u.enters l with
      | none => trivial
      | some x =>
          -- the section is entered while nobody has `mtx_`
          have hfree : u.owner = none := Machine.owner_of_enters henters hv
          have hshared : u.shared = serially s (order late s ls) := by
            rw [← serially_eq hbefore]
            exact Machine.shared_eq_serially (kind.code_balanced late)
              (Kind.code_oneSection hkind late) hu hfree
          have htimely : x.call.Timely u.shared :=
            hqueued u l ⟨ls, v, List.prefix_rfl, hu, hv⟩ x henters
          rw [hshared] at htimely
          cases hidle : x.code.idle
          · simpa [Machine.callsIn, hidle, Timely] using htimely
          · simp [Machine.callsIn, hidle, Timely]

/-- Whenever nobody has `mtx_`, the primitive is as its entries leave it. -/
theorem shared_eq (hkind : kind ≠ .barrier) {s : (kind.primitive ι).State}
    {ls : List (Label kind ι τ)} {m : Threads kind ι τ}
    (hrun : run (step late) (.init s) ls = some m)
    (hqueued : ∀ u l, Takes (step late) (.init s) ls u l → StillQueued u l)
    (hfree : m.owner = none) : m.shared = serially s (order late s ls) := by
  rw [← serially_eq (order_timely hkind hrun hqueued)]
  exact Machine.shared_eq_serially (kind.code_balanced late) (Kind.code_oneSection hkind late) hrun
    hfree

/-- What a run of threads says about the order in which the entries took `mtx_`. `shared`: whenever
nobody has `mtx_`, the primitive is as the entries leave it one after the other. `program`: the
entries of each thread are those that it made, as it made them, but for one that waits for `mtx_`.
`kept`: an entry that took `mtx_` keeps its place. -/
structure AtomicCalls (late : (kind.primitive ι).Late) (s : (kind.primitive ι).State)
    (ls : List (Label kind ι τ)) (m : Threads kind ι τ) : Prop where
  shared : m.owner = none → m.shared = serially s (order late s ls)
  program : ∀ t, Machine.calls t ls =
    ((order late s ls).filter fun x => x.1 = t).map (·.2) ++ Machine.pending (m.stack t)
  kept : ∀ before, before <+: ls → order late s before <+: order late s ls

/-- **Calls are atomic.** For every kind but the barrier, from any state of it, in every run of any
number of threads, their calls, cancellations, handlers and whatever these call, in which a
cancellation handler that obtains `mtx_` finds its op still queued. -/
theorem calls_atomic (hkind : kind ≠ .barrier) {s : (kind.primitive ι).State}
    {ls : List (Label kind ι τ)} {m : Threads kind ι τ}
    (hrun : run (step late) (.init s) ls = some m)
    (hqueued : ∀ u l, Takes (step late) (.init s) ls u l → StillQueued u l) :
    AtomicCalls late s ls m where
  shared := shared_eq hkind hrun hqueued
  program t := Machine.order_calls (Kind.code_oneSection hkind late) hrun t
  kept before hbefore := by
    obtain ⟨rest, rfl⟩ := hbefore
    obtain ⟨u, hu, -⟩ := run_append.mp hrun
    exact ⟨_, (Machine.order_append hu).symm⟩

/-- A mutex that is free. -/
def unlocked : (Kind.mutex.primitive Nat).State := MutexImpl.init true

/-- A late handler leaves its op in the list again. -/
def relinks : (Kind.mutex.primitive Nat).Late := fun op m => MutexImpl.addWaiter m op

/-- One thread locks it and a second one is queued; another request is queued and cancelled, and a
third thread unlocks the mutex. -/
def contended : List (Label .mutex Nat (Fin 3)) :=
  [.call 0 (.call (MutexImpl.Call.asyncLock 0 none)) false,
    .call 1 (.call (MutexImpl.Call.asyncLock 1 none)) false, .act 0, .act 0, .act 0, .act 0,
    .act 0, .act 1, .call 2 (.call MutexImpl.Call.unlock) false, .act 1, .act 1, .act 1, .act 1,
    .act 1, .act 0, .call 0 (.call (MutexImpl.Call.asyncLock 2 (some 7))) false, .act 0, .act 0,
    .act 0, .act 0, .act 0, .act 0, .call 1 (.cancel (.async 2 (some 7))) false, .act 1, .act 1,
    .act 1, .act 1, .act 2, .act 2, .act 2, .act 2]

/-- The lock goes from the first thread to the second one. -/
theorem calls_atomic_contended :
    ∃ m : Threads .mutex Nat (Fin 3), run (step relinks) (.init unlocked) contended = some m ∧
      m.owner = none ∧ m.shared = (⟨true, true, []⟩ : MutexImpl (Op Nat)) ∧
        AtomicCalls relinks unlocked contended m := by
  obtain ⟨m, hchecked, hfree, hshared⟩ : ∃ m : Threads .mutex Nat (Fin 3),
      run (checked StillQueued (step relinks)) (.init unlocked) contended = some m ∧
        m.owner = none ∧ m.shared = (⟨true, true, []⟩ : MutexImpl (Op Nat)) := ⟨_, rfl, rfl, rfl⟩
  obtain ⟨hrun, hqueued⟩ := run_of_checked hchecked
  exact ⟨m, hrun, hfree, hshared, calls_atomic (by decide) hrun hqueued⟩

/-- **A handler is dispatched with what it asks for**, and still has it. In every run in which a
cancellation handler that obtains `mtx_` finds its op still queued, when a thread dispatches its
handler, its call is the last one that took `mtx_`, and run after the others it is granted. -/
theorem dispatched_granted (hkind : kind ≠ .barrier) {s : (kind.primitive ι).State}
    {ls : List (Label kind ι τ)} {m : Threads kind ι τ}
    (hrun : run (step late) (.init s) ls = some m)
    (hqueued : ∀ u l, Takes (step late) (.init s) ls u l → StillQueued u l)
    {t : τ} {c : (kind.primitive ι).Call} {inline : Bool}
    {rest : Code (kind.primitive ι).State}
    {frames : List (Frame (kind.primitive ι).State (kind.primitive ι).Entry)}
    (hstack : m.stack t = .code (.call c) inline (.invoke rest) :: frames) :
    ∃ before, order late s ls = before ++ [(t, .call c)] ∧
      ((kind.primitive ι).call (serially s before) c).outcome = .granted := by
  have hinside : kind.dispatchesInside = true := by simpa [Kind.dispatchesInside] using hkind
  obtain ⟨before, horder, hinvokes⟩ := Machine.invokes_of_inside (kind.code_balanced late)
    (Kind.code_oneSection hkind late) hrun hstack hinside
  have hlast : order late s ls = before ++ [(t, .call c)] := horder
  have htimely := order_timely hkind hrun hqueued
  rw [hlast, timely_append] at htimely
  rw [serially_eq htimely.1] at hinvokes
  exact ⟨before, hlast, Kind.granted_of_invokes hkind hinvokes⟩

/-- The first thread is about to dispatch its handler. -/
theorem dispatched_granted_contended :
    ∃ m : Threads .mutex Nat (Fin 3),
      run (step relinks) (.init unlocked) (contended.take 5) = some m ∧
      ∃ before, order relinks unlocked (contended.take 5) =
          before ++ [(0, .call (MutexImpl.Call.asyncLock 0 none))] ∧
        ((Kind.mutex.primitive Nat).call (serially unlocked before)
          (MutexImpl.Call.asyncLock 0 none)).outcome = .granted := by
  have hchecked : run (checked StillQueued (step relinks)) (.init unlocked) (contended.take 5) =
      some (_ : Threads .mutex Nat (Fin 3)) := rfl
  obtain ⟨hrun, hqueued⟩ := run_of_checked hchecked
  exact ⟨_, hrun, dispatched_granted (by decide) hrun hqueued rfl⟩

omit [DecidableEq τ] in
/-- What every entry keeps, entries one after the other keep. -/
theorem serially_invariant {I : (kind.primitive ι).State → Prop}
    (happly : ∀ s (e : (kind.primitive ι).Entry), I s → I (e.apply s))
    {s : (kind.primitive ι).State} (hs : I s) (entries : List (τ × (kind.primitive ι).Entry)) :
    I (serially s entries) := by
  induction entries generalizing s with
  | nil => exact hs
  | cons x entries ih => exact ih (happly s x.2 hs)

end InlineHandler

/-! ## Nobody waits for what is free -/

/-- Whoever waits for the mutex waits for one that is locked. -/
def MutexImpl.Attended (m : MutexImpl ι) : Prop := m.waiters ≠ [] → m.locked = true

/-- Whoever waits in line for the mutex waits for one that is taken, and whoever waits to share it
for one that is locked. -/
def SharedMutexImpl.Attended (m : SharedMutexImpl ι) : Prop :=
  (m.waiters ≠ [] → m.locked = true ∨ 0 < m.lockedShared) ∧
    (m.sharedWaiters ≠ [] → m.locked = true)

/-- Whoever waits for a permit waits for one that nobody has. -/
def SemaphoreImpl.Attended (m : SemaphoreImpl ι) : Prop := m.waiters ≠ [] → m.count ≤ 0

/-- A mutex with waiters stays locked. -/
theorem MutexImpl.Attended.apply {m : MutexImpl (Op ι)} (h : m.Attended)
    (e : (Kind.mutex.primitive ι).Entry) : MutexImpl.Attended (e.apply m) := by
  cases e with
  | cancel op =>
      show MutexImpl.Attended (m.unlink op)
      exact fun hleft => h fun hnone => hleft (by simp [unlink, hnone])
  | call c =>
      show MutexImpl.Attended (c.run m).state
      cases hlocked : m.locked with
      | true =>
          cases c with
          | unlock =>
              rw [Call.run]
              cases hwaiters : m.waiters with
              | nil => simp [unlock_of_none hwaiters, Attended, hwaiters]
              | cons w rest => simp [unlock_of_waiter hwaiters, Attended, hlocked]
          | lock id =>
              rw [Call.run, lock_of_locked hlocked]
              split <;> exact fun _ => hlocked
          | tryLock | asyncLock => simp [Attended, Call.run, tryLock, asyncLock, addWaiter, hlocked]
      | false =>
          have hwaiters : m.waiters = [] := by
            by_contra hwaiters
            exact Bool.false_ne_true (hlocked.symm.trans (h hwaiters))
          cases c with
          | unlock => simp [Call.run, unlock_of_none hwaiters, Attended, hwaiters]
          | lock id => simp [Call.run, lock_of_free, Attended, hwaiters, hlocked]
          | tryLock | asyncLock => simp [Attended, Call.run, tryLock, asyncLock, hlocked]

/-- A semaphore with waiters has no permit. -/
theorem SemaphoreImpl.Attended.apply {m : SemaphoreImpl (Op ι)} (h : m.Attended)
    (e : (Kind.semaphore.primitive ι).Entry) : SemaphoreImpl.Attended (e.apply m) := by
  cases e with
  | cancel op =>
      show SemaphoreImpl.Attended (m.unlink op)
      exact fun hleft => h fun hnone => hleft (by simp [unlink, hnone])
  | call c =>
      show SemaphoreImpl.Attended (c.run m).state
      by_cases hfree : 0 < m.count
      · have hwaiters : m.waiters = [] := by
          by_contra hwaiters
          have hnone := h hwaiters
          omega
        cases c with
        | release => simp [Call.run, release_of_none hwaiters, Attended, hwaiters]
        | acquire id => simp [Call.run, acquire_of_free, Attended, hwaiters, hfree]
        | tryAcquire | asyncAcquire =>
            simp [Call.run, tryAcquire, asyncAcquire, decrement, Attended, hwaiters, hfree]
      · have hnone : m.count ≤ 0 := by omega
        cases c with
        | release =>
            rw [Call.run]
            cases hwaiters : m.waiters with
            | nil => simp [release_of_none hwaiters, Attended, hwaiters]
            | cons w rest => simp [release_of_waiter hwaiters, Attended, hnone]
        | acquire id =>
            rw [Call.run, acquire_of_none hfree]
            split <;> exact fun _ => hnone
        | tryAcquire | asyncAcquire =>
            simp [Call.run, tryAcquire, asyncAcquire, addWaiter, Attended, hfree, hnone]

/-- The loop of `unlock` counts every waiter that it completes, and leaves nobody. -/
theorem SharedMutexImpl.wakeShared_spec {m : SharedMutexImpl ι} {line : List ι}
    (hline : m.sharedWaiters = line) :
    (m.wakeShared line).sharedWaiters = [] ∧
      (m.wakeShared line).lockedShared = m.lockedShared + line.length := by
  induction line generalizing m with
  | nil => exact ⟨hline, rfl⟩
  | cons op rest ih =>
      obtain ⟨hnone, hcount⟩ :=
        @ih ({ m with lockedShared := m.lockedShared + 1 }.unlink op) (by simp [unlink, hline])
      refine ⟨hnone, hcount.trans ?_⟩
      simp only [unlink, List.length_cons]
      omega

namespace SharedMutexImpl.Attended

variable {m : SharedMutexImpl (Op ι)}

omit [DecidableEq ι] in
/-- Anybody may wait for a mutex that is locked. -/
theorem of_locked (hlocked : m.locked = true) : m.Attended :=
  ⟨fun _ => Or.inl hlocked, fun _ => hlocked⟩

omit [DecidableEq ι] in
/-- For one that is shared, those may wait who want to lock it. -/
theorem of_shared (hshared : 0 < m.lockedShared) (hline : m.sharedWaiters = []) : m.Attended :=
  ⟨fun _ => Or.inr hshared, fun hleft => absurd hline hleft⟩

omit [DecidableEq ι] in
/-- Nobody waits to share a mutex that is not locked. -/
theorem sharedWaiters_eq_nil (h : m.Attended) (hlocked : m.locked = false) :
    m.sharedWaiters = [] := by
  by_contra hline
  exact Bool.false_ne_true (hlocked.symm.trans (h.2 hline))

omit [DecidableEq ι] in
/-- Nobody waits for a mutex that is free. -/
theorem waiters_eq_nil (h : m.Attended) (hfree : ¬ (m.locked = true ∨ 0 < m.lockedShared)) :
    m.waiters = [] := by
  by_contra hwaiters
  exact hfree (h.1 hwaiters)

/-- An op leaves. -/
theorem after_unlink (h : m.Attended) (op : Op ι) : (m.unlink op).Attended :=
  ⟨fun hleft => h.1 fun hnone => hleft (by simp [unlink, hnone]),
    fun hleft => h.2 fun hnone => hleft (by simp [unlink, hnone])⟩

/-- `unlock`. -/
theorem after_unlock (h : m.Attended) : m.unlock.state.Attended := by
  cases hline : m.sharedWaiters with
  | nil =>
      cases hwaiters : m.waiters with
      | nil => simp [unlock_of_none hline hwaiters, Attended, hline, hwaiters]
      | cons w rest =>
          -- the lock is handed on, or there was none and the shared ones keep the rest waiting
          rw [unlock_of_waiter hline hwaiters]
          rcases h.1 (by simp [hwaiters]) with hlocked | hshared
          · exact of_locked hlocked
          · exact of_shared hshared hline
  | cons w rest =>
      obtain ⟨hnone, hcount⟩ := @wakeShared_spec _ _ { m with locked := false } _ hline
      have hunlock : m.unlock.state = { m with locked := false }.wakeShared (w :: rest) := by
        simp only [unlock, hline]
      rw [hunlock]
      refine of_shared ?_ hnone
      rw [hcount, List.length_cons]
      omega

/-- `unlock_shared`. -/
theorem after_unlockShared (h : m.Attended) : m.unlockShared.state.Attended := by
  rw [unlockShared_eq]
  split
  · cases hwaiters : m.waiters with
    | nil => exact ⟨fun hleft => absurd hwaiters hleft, h.2⟩
    | cons w rest => exact of_locked rfl
  · have hleft : 0 < m.lockedShared - 1 := by omega
    exact ⟨fun _ => Or.inr hleft, h.2⟩

/-- `lock`. -/
theorem after_lock (h : m.Attended) (op : Op ι) : (m.lock op).state.Attended := by
  by_cases htaken : m.locked = true ∨ 0 < m.lockedShared
  · rw [lock_of_taken htaken]
    split
    · exact ⟨fun _ => htaken, h.2⟩
    · exact h
  · obtain ⟨hlocked, hshared⟩ := not_or.mp htaken
    have hline := h.sharedWaiters_eq_nil (eq_false_of_ne_true hlocked)
    rw [lock_of_free (by simp [hline, h.waiters_eq_nil htaken]) (eq_false_of_ne_true hlocked)
      (by omega)]
    exact of_locked rfl

omit [DecidableEq ι] in
/-- `async_lock`. -/
theorem after_asyncLock (h : m.Attended) (op : Op ι) : (m.asyncLock op).state.Attended := by
  rw [asyncLock]
  split
  · exact of_locked rfl
  · rename_i htaken
    have htaken : m.locked = true ∨ 0 < m.lockedShared := by
      simpa [imp_iff_not_or, Nat.pos_iff_ne_zero] using htaken
    exact ⟨fun _ => htaken, h.2⟩

omit [DecidableEq ι] in
/-- `try_lock`. -/
theorem after_tryLock (h : m.Attended) : m.tryLock.state.Attended := by
  rw [tryLock]
  split
  · exact h
  · exact of_locked rfl

omit [DecidableEq ι] in
/-- `try_lock_shared`. -/
theorem after_tryLockShared (h : m.Attended) : m.tryLockShared.state.Attended := by
  rw [tryLockShared]
  split
  · exact h
  · exact ⟨fun _ => Or.inr (Nat.succ_pos _), h.2⟩

/-- `lock_shared`. -/
theorem after_lockShared (h : m.Attended) (op : Op ι) : (m.lockShared op).state.Attended := by
  cases hlocked : m.locked with
  | true =>
      rw [lockShared_of_locked hlocked]
      split
      · exact of_locked hlocked
      · exact h
  | false =>
      have hline := h.sharedWaiters_eq_nil hlocked
      cases henabled : m.enabled <;>
        simp [lockShared, tryLockShared, addWaiter,
          MutexImpl.addWaiter, unlink, Attended, hlocked, hline, henabled]

omit [DecidableEq ι] in
/-- `async_lock_shared`. -/
theorem after_asyncLockShared (h : m.Attended) (op : Op ι) : (m.asyncLockShared op).state.Attended := by
  rw [asyncLockShared]
  split
  · exact ⟨fun _ => Or.inr (Nat.succ_pos _), h.2⟩
  · rename_i hfree
    have hlocked : m.locked = true := by simpa using hfree
    exact of_locked hlocked

/-- A shared mutex with waiters stays taken. -/
theorem apply (h : m.Attended) (e : (Kind.sharedMutex.primitive ι).Entry) :
    SharedMutexImpl.Attended (e.apply m) := by
  cases e with
  | cancel op => exact h.after_unlink op
  | call c =>
      cases c with
      | tryLock => exact h.after_tryLock
      | lock id => exact h.after_lock _
      | asyncLock id slot => exact h.after_asyncLock _
      | unlock => exact h.after_unlock
      | tryLockShared => exact h.after_tryLockShared
      | lockShared id => exact h.after_lockShared _
      | asyncLockShared id slot => exact h.after_asyncLockShared _
      | unlockShared => exact h.after_unlockShared

end SharedMutexImpl.Attended

/-- Whoever waits has somebody to wait for. A condition variable and a barrier have nothing that is
free. -/
def Kind.Attended : (kind : Kind) → (kind.primitive ι).State → Prop
  | mutex, m => MutexImpl.Attended m
  | sharedMutex, m => SharedMutexImpl.Attended m
  | semaphore, m => SemaphoreImpl.Attended m
  | conditionVariable, _ | barrier, _ => True

/-- Every entry leaves it so. -/
theorem Kind.Attended.apply {kind : Kind} {s : (kind.primitive ι).State} (h : kind.Attended s)
    (e : (kind.primitive ι).Entry) : kind.Attended (e.apply s) := by
  cases kind with
  | mutex => exact MutexImpl.Attended.apply h e
  | sharedMutex => exact SharedMutexImpl.Attended.apply h e
  | semaphore => exact SemaphoreImpl.Attended.apply h e
  | conditionVariable | barrier => trivial

namespace InlineHandler

variable {kind : Kind} {late : (kind.primitive ι).Late}

omit [DecidableEq τ] in
/-- Entries leave nobody waiting for what is free. -/
theorem attended_serially {s : (kind.primitive ι).State} (h : kind.Attended s)
    (entries : List (τ × (kind.primitive ι).Entry)) : kind.Attended (serially s entries) :=
  serially_invariant (fun _ e h => h.apply e) h entries

/-- Whenever nobody has `mtx_`, nobody waits for what is free. -/
theorem attended_of_free {s : (kind.primitive ι).State} (hs : kind.Attended s)
    {ls : List (Label kind ι τ)} {m : Threads kind ι τ}
    (hrun : run (step late) (.init s) ls = some m)
    (hqueued : ∀ u l, Takes (step late) (.init s) ls u l → StillQueued u l)
    (hfree : m.owner = none) : kind.Attended m.shared := by
  by_cases hkind : kind = .barrier
  · subst hkind
    trivial
  · rw [shared_eq hkind hrun hqueued hfree]
    exact attended_serially hs _

/-- **Nobody waits for what is free.** In every run of any number of threads, whoever unlocks and
however often, in which a cancellation handler that obtains `mtx_` finds its op still queued:
whenever nobody has `mtx_`, a mutex with waiters is locked, a shared mutex with waiters is taken,
and locked if some of them wait to share it, and a semaphore with waiters has no permit. -/
theorem run_attended {s : (kind.primitive ι).State} (hs : kind.Attended s)
    {ls : List (Label kind ι τ)} {m : Threads kind ι τ}
    (hrun : run (step late) (.init s) ls = some m)
    (hqueued : ∀ u l, Takes (step late) (.init s) ls u l → StillQueued u l)
    (hfree : m.owner = none) : kind.Attended m.shared :=
  attended_of_free hs hrun hqueued hfree

/-- While one request waits and another one was cancelled, the mutex is locked. -/
theorem run_attended_contended :
    ∃ m : Threads .mutex Nat (Fin 3),
      run (step relinks) (.init unlocked) (contended.take 27) = some m ∧ m.owner = none ∧
        MutexImpl.waiters m.shared = [.async 1 none] ∧ Kind.mutex.Attended m.shared := by
  have hattended : Kind.mutex.Attended unlocked := fun h => absurd rfl h
  obtain ⟨m, hchecked, hfree, hwaiters⟩ : ∃ m : Threads .mutex Nat (Fin 3),
      run (checked StillQueued (step relinks)) (.init unlocked) (contended.take 27) = some m ∧
        m.owner = none ∧ MutexImpl.waiters m.shared = [.async 1 none] := ⟨_, rfl, rfl, rfl⟩
  obtain ⟨hrun, hqueued⟩ := run_of_checked hchecked
  exact ⟨m, hrun, hfree, hwaiters, run_attended hattended hrun hqueued hfree⟩

end InlineHandler

/-! ## Grants and releases -/

/-- The requests that an entry grants: its own one, and those that it completes. -/
def Primitive.Entry.grants {P : Primitive ι} (s : P.State) : P.Entry → Nat
  | .call c =>
      (if (P.call s c).outcome = .granted then 1 else 0) + (P.call s c).completed.length
  | .cancel _ => 0

/-- Whether the entry is an `unlock` of a mutex that is locked. -/
def MutexImpl.releases (m : MutexImpl (Op ι)) : (Kind.mutex.primitive ι).Entry → Nat
  | .call .unlock => if m.locked then 1 else 0
  | _ => 0

/-- Whether the entry is a `release`. -/
def SemaphoreImpl.releases (_ : SemaphoreImpl (Op ι)) : (Kind.semaphore.primitive ι).Entry → Nat
  | .call .release => 1
  | _ => 0

/-- The locks that a mutex has given away and not got back. -/
def MutexImpl.taken (m : MutexImpl (Op ι)) : Nat := if m.locked then 1 else 0

omit [DecidableEq ι] in
/-- There is one lock. -/
theorem MutexImpl.taken_le_one (m : MutexImpl (Op ι)) : m.taken ≤ 1 := by
  unfold taken
  split <;> omega

/-- An entry grants the lock when it was free, or hands over the one that it gets back. -/
theorem MutexImpl.taken_apply {m : MutexImpl (Op ι)} (h : m.Attended)
    (e : (Kind.mutex.primitive ι).Entry) :
    MutexImpl.taken (e.apply m) + m.releases e = m.taken + e.grants m := by
  cases e with
  | cancel op =>
      rfl
  | call c =>
      show MutexImpl.taken (c.run m).state + m.releases (.call c) = m.taken +
        ((if (c.run m).outcome = .granted then 1 else 0) + (c.run m).completed.length)
      cases hlocked : m.locked with
      | true =>
          cases c with
          | unlock =>
              cases hwaiters : m.waiters with
              | nil => simp [Call.run, unlock_of_none hwaiters, taken, releases, hlocked]
              | cons w rest => simp [Call.run, unlock_of_waiter hwaiters, taken, releases, hlocked]
          | lock id =>
              rw [Call.run, lock_of_locked hlocked]
              cases m.enabled <;> simp [addWaiter, taken, releases, hlocked]
          | tryLock | asyncLock =>
              simp [Call.run, tryLock, asyncLock, addWaiter, taken, releases, hlocked]
      | false =>
          have hwaiters : m.waiters = [] := by
            by_contra hwaiters
            exact Bool.false_ne_true (hlocked.symm.trans (h hwaiters))
          cases c with
          | unlock => simp [Call.run, unlock_of_none hwaiters, taken, releases, hlocked]
          | lock id => simp [Call.run, lock_of_free, taken, releases, hwaiters, hlocked]
          | tryLock | asyncLock =>
              simp [Call.run, tryLock, asyncLock, taken, releases, hlocked]

/-- An entry takes free permits, adds one, or hands one over. -/
theorem SemaphoreImpl.count_apply (m : SemaphoreImpl (Op ι))
    (e : (Kind.semaphore.primitive ι).Entry) :
    SemaphoreImpl.count (e.apply m) + e.grants m = m.count + m.releases e := by
  cases e with
  | cancel op =>
      show m.count + 0 = m.count + 0
      rfl
  | call c =>
      show SemaphoreImpl.count (c.run m).state +
          (((if (c.run m).outcome = .granted then 1 else 0) + (c.run m).completed.length : Nat) :
            Int) =
        m.count + m.releases (.call c)
      cases c with
      | release =>
          cases hwaiters : m.waiters with
          | nil => simp [Call.run, release_of_none hwaiters, releases]
          | cons w rest => simp [Call.run, release_of_waiter hwaiters, releases]
      | acquire id =>
          by_cases hfree : 0 < m.count
          · cases henabled : m.enabled <;>
              simp [Call.run, acquire, tryAcquire, decrement, addWaiter, unlink, releases, hfree,
                henabled]
          · rw [Call.run, acquire_of_none hfree]
            cases m.enabled <;> simp [addWaiter, releases]
      | tryAcquire | asyncAcquire =>
          by_cases hfree : 0 < m.count <;>
            simp [Call.run, tryAcquire, asyncAcquire, decrement, addWaiter, releases, hfree]

/-- An entry takes free permits only. -/
theorem SemaphoreImpl.count_nonneg_apply {m : SemaphoreImpl (Op ι)} (h : 0 ≤ m.count)
    (e : (Kind.semaphore.primitive ι).Entry) : 0 ≤ SemaphoreImpl.count (e.apply m) := by
  cases e with
  | cancel op =>
      exact h
  | call c =>
      show 0 ≤ (c.run m).state.count
      cases c with
      | release =>
          cases hwaiters : m.waiters with
          | nil =>
              simp only [Call.run, release_of_none hwaiters]
              omega
          | cons w rest => simpa [Call.run, release_of_waiter hwaiters] using h
      | acquire id =>
          by_cases hfree : 0 < m.count
          · cases henabled : m.enabled <;>
              simp [Call.run, acquire, tryAcquire, decrement, addWaiter, unlink, hfree,
                henabled] <;> omega
          · rw [Call.run, acquire_of_none hfree]
            cases m.enabled <;> simpa [addWaiter] using h
      | tryAcquire | asyncAcquire =>
          by_cases hfree : 0 < m.count <;>
            simp [Call.run, tryAcquire, asyncAcquire, decrement, addWaiter, hfree] <;> omega

namespace InlineHandler

/-- The sum over entries that run one after the other. -/
def total (kind : Kind) (f : (kind.primitive ι).State → (kind.primitive ι).Entry → Nat)
    (s : (kind.primitive ι).State) : List (τ × (kind.primitive ι).Entry) → Nat
  | [] => 0
  | x :: rest => f s x.2 + total kind f (x.2.apply s) rest

omit [DecidableEq τ] in
/-- The locks that a mutex has given away are those granted and not got back. -/
theorem taken_serially {m : (Kind.mutex.primitive ι).State} (h : Kind.mutex.Attended m)
    (entries : List (τ × (Kind.mutex.primitive ι).Entry)) :
    MutexImpl.taken (serially m entries) + total .mutex MutexImpl.releases m entries =
      MutexImpl.taken m + total .mutex Primitive.Entry.grants m entries := by
  induction entries generalizing m with
  | nil => rfl
  | cons x rest ih =>
      have hfirst := MutexImpl.taken_apply h x.2
      have hrest := ih (h.apply x.2)
      show MutexImpl.taken (serially (x.2.apply m) rest) + (MutexImpl.releases m x.2 + _) =
        MutexImpl.taken m + (x.2.grants m + _)
      omega

omit [DecidableEq τ] in
/-- The permits of a semaphore are those released and not granted. -/
theorem count_serially (m : (Kind.semaphore.primitive ι).State)
    (entries : List (τ × (Kind.semaphore.primitive ι).Entry)) :
    SemaphoreImpl.count (serially m entries) + total .semaphore Primitive.Entry.grants m entries =
      SemaphoreImpl.count m + total .semaphore SemaphoreImpl.releases m entries := by
  induction entries generalizing m with
  | nil => rfl
  | cons x rest ih =>
      have hfirst := SemaphoreImpl.count_apply m x.2
      have hrest := ih (x.2.apply m)
      simp only [total, Int.natCast_add]
      change SemaphoreImpl.count (serially (x.2.apply m) rest) + _ = _ at hrest
      show SemaphoreImpl.count (serially (x.2.apply m) rest) + _ = _
      omega

omit [DecidableEq τ] in
/-- A semaphore that has not less than no permit keeps it so. -/
theorem count_nonneg_serially {m : (Kind.semaphore.primitive ι).State}
    (h : 0 ≤ SemaphoreImpl.count m) (entries : List (τ × (Kind.semaphore.primitive ι).Entry)) :
    0 ≤ SemaphoreImpl.count (serially m entries) :=
  serially_invariant (I := fun s : (Kind.semaphore.primitive ι).State => 0 ≤ SemaphoreImpl.count s)
    (fun _ e h => SemaphoreImpl.count_nonneg_apply h e) h entries

/-- How often entries grant the lock of a mutex and give it back. `stretch`: those of any stretch
grant it at most once more often than they give it back. `balance`: whenever nobody has `mtx_`, the
mutex is locked just if the lock was given away once more often than got back. `waited_for`: and so
it is while somebody waits. -/
structure LockedOnce (late : (Kind.mutex.primitive ι).Late) (s : (Kind.mutex.primitive ι).State)
    (ls : List (Label .mutex ι τ)) (m : Threads .mutex ι τ) : Prop where
  stretch : ∀ before between : List (τ × (Kind.mutex.primitive ι).Entry),
    total .mutex Primitive.Entry.grants (serially s before) between ≤
      total .mutex MutexImpl.releases (serially s before) between + 1
  balance : m.owner = none →
    MutexImpl.taken m.shared + total .mutex MutexImpl.releases s (order late s ls) =
      MutexImpl.taken s + total .mutex Primitive.Entry.grants s (order late s ls)
  waited_for : m.owner = none → MutexImpl.waiters m.shared ≠ [] →
    1 + total .mutex MutexImpl.releases s (order late s ls) =
      MutexImpl.taken s + total .mutex Primitive.Entry.grants s (order late s ls)

/-- **A mutex is held once.** In every run of any number of threads, whoever unlocks and however
often, in which a cancellation handler that obtains `mtx_` finds its op still queued. -/
theorem locked_once {late : (Kind.mutex.primitive ι).Late} {s : (Kind.mutex.primitive ι).State}
    (hs : Kind.mutex.Attended s) {ls : List (Label .mutex ι τ)} {m : Threads .mutex ι τ}
    (hrun : run (step late) (.init s) ls = some m)
    (hqueued : ∀ u l, Takes (step late) (.init s) ls u l → StillQueued u l) :
    LockedOnce late s ls m := by
  have hfinal : m.owner = none → MutexImpl.taken m.shared +
      total .mutex MutexImpl.releases s (order late s ls) =
        MutexImpl.taken s + total .mutex Primitive.Entry.grants s (order late s ls) := by
    intro hfree
    rw [shared_eq (by decide) hrun hqueued hfree]
    exact taken_serially hs _
  refine ⟨fun before between => ?_, hfinal, fun hfree hwaiters => ?_⟩
  · have hstretch := taken_serially (attended_serially hs before) between
    have hone := MutexImpl.taken_le_one (serially (serially s before) between)
    omega
  · have hlocked : MutexImpl.locked m.shared = true :=
      attended_of_free hs hrun hqueued hfree hwaiters
    have htaken : MutexImpl.taken m.shared = 1 := if_pos hlocked
    exact htaken ▸ hfinal hfree

/-- The lock is granted twice and given back once. -/
theorem locked_once_contended :
    ∃ m : Threads .mutex Nat (Fin 3), run (step relinks) (.init unlocked) contended = some m ∧
      total .mutex Primitive.Entry.grants unlocked (order relinks unlocked contended) = 2 ∧
      total .mutex MutexImpl.releases unlocked (order relinks unlocked contended) = 1 ∧
      LockedOnce relinks unlocked contended m := by
  have hattended : Kind.mutex.Attended unlocked := fun h => absurd rfl h
  have hchecked : run (checked StillQueued (step relinks)) (.init unlocked) contended =
      some (_ : Threads .mutex Nat (Fin 3)) := rfl
  obtain ⟨hrun, hqueued⟩ := run_of_checked hchecked
  exact ⟨_, hrun, rfl, rfl, locked_once hattended hrun hqueued⟩

/-- How many permits entries grant and release. `stretch`: entries never grant more than there were
and they release. `balance`: whenever nobody has `mtx_`, the semaphore counts those that are left.
`waited_for`: and while somebody waits, all of them are granted. -/
structure PermitsConserved (late : (Kind.semaphore.primitive ι).Late)
    (s : (Kind.semaphore.primitive ι).State) (ls : List (Label .semaphore ι τ))
    (m : Threads .semaphore ι τ) : Prop where
  stretch : ∀ before : List (τ × (Kind.semaphore.primitive ι).Entry),
    total .semaphore Primitive.Entry.grants s before ≤
      SemaphoreImpl.count s + total .semaphore SemaphoreImpl.releases s before
  balance : m.owner = none →
    SemaphoreImpl.count m.shared +
        total .semaphore Primitive.Entry.grants s (order late s ls) =
      SemaphoreImpl.count s + total .semaphore SemaphoreImpl.releases s (order late s ls)
  waited_for : m.owner = none → SemaphoreImpl.waiters m.shared ≠ [] →
    total .semaphore Primitive.Entry.grants s (order late s ls) =
      SemaphoreImpl.count s + total .semaphore SemaphoreImpl.releases s (order late s ls)

/-- **No permit is made up and none is lost.** In every run of any number of threads, from a
semaphore that nobody waits for while it has a permit, in which a cancellation handler that obtains
`mtx_` finds its op still queued. -/
theorem permits_conserved {late : (Kind.semaphore.primitive ι).Late}
    {s : (Kind.semaphore.primitive ι).State} (hs : Kind.semaphore.Attended s)
    (hcount : 0 ≤ SemaphoreImpl.count s) {ls : List (Label .semaphore ι τ)}
    {m : Threads .semaphore ι τ} (hrun : run (step late) (.init s) ls = some m)
    (hqueued : ∀ u l, Takes (step late) (.init s) ls u l → StillQueued u l) :
    PermitsConserved late s ls m := by
  have hfinal : m.owner = none → m.shared = serially s (order late s ls) :=
    shared_eq (by decide) hrun hqueued
  refine ⟨fun before => ?_, fun hfree => ?_, fun hfree hwaiters => ?_⟩
  · have hbefore := count_serially s before
    have hleft := count_nonneg_serially hcount before
    omega
  · rw [hfinal hfree]
    exact count_serially s _
  · have hnone : SemaphoreImpl.count m.shared ≤ 0 :=
      attended_of_free hs hrun hqueued hfree hwaiters
    rw [hfinal hfree] at hnone
    have hall := count_serially s (order late s ls)
    have hleft := count_nonneg_serially hcount (order late s ls)
    omega

/-- A semaphore with one permit. -/
def onePermit : (Kind.semaphore.primitive Nat).State := SemaphoreImpl.init true 1

/-- A late handler leaves its op in the list again, where it would take a permit. -/
def swallows : (Kind.semaphore.primitive Nat).Late := fun op m => SemaphoreImpl.addWaiter m op

/-- The permit is granted, and released while somebody waits for it and somebody else is cancelled.
-/
def released : List (Label .semaphore Nat (Fin 3)) :=
  .call 0 (.call (SemaphoreImpl.Call.asyncAcquire 0 none)) false :: List.replicate 6 (.act 0) ++
    .call 1 (.call (SemaphoreImpl.Call.asyncAcquire 1 (some 7))) false ::
      List.replicate 6 (.act 1) ++
    .call 0 (.call (SemaphoreImpl.Call.asyncAcquire 2 none)) false :: List.replicate 6 (.act 0) ++
    [.call 1 (.cancel (.async 1 (some 7))) false, .call 2 (.call SemaphoreImpl.Call.release) false,
      .act 1, .act 1, .act 1, .act 1, .act 2, .act 2, .act 2, .act 2]

/-- The permit is granted twice and released once. -/
theorem permits_conserved_released :
    ∃ m : Threads .semaphore Nat (Fin 3), run (step swallows) (.init onePermit) released = some m ∧
      total .semaphore Primitive.Entry.grants onePermit (order swallows onePermit released) = 2 ∧
      total .semaphore SemaphoreImpl.releases onePermit (order swallows onePermit released) = 1 ∧
      PermitsConserved swallows onePermit released m := by
  have hattended : Kind.semaphore.Attended onePermit := fun h => absurd rfl h
  have hchecked : run (checked StillQueued (step swallows)) (.init onePermit) released =
      some (_ : Threads .semaphore Nat (Fin 3)) := rfl
  obtain ⟨hrun, hqueued⟩ := run_of_checked hchecked
  exact ⟨_, hrun, rfl, rfl, permits_conserved hattended (by decide) hrun hqueued⟩

end InlineHandler

end Sam
