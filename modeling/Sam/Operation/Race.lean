import Sam.Library.Transition
import Sam.Operation.Kinds
import Sam.Operation.World

/-!
# A cancellation that races with a completion

Runs in which a cancellation handler is entered in one step and obtains the lock in a later one,
with the calls of other threads in between. Clearing a slot does not stop a handler that was
entered, and does not change whether the slot is connected, which is all that a handler asks once it
has the lock. `complete_once_iff` gives the runs in which no op is completed twice exactly. -/

namespace Sam.Race

open Transition

universe u

/-- A primitive with its ops, and the ops whose cancellation handler waits for the lock. -/
structure Racing {ι : Type u} [DecidableEq ι] (P : Primitive ι) where
  world : World P
  entered : List (Op ι)

/-- The steps of a run. -/
inductive Label {ι : Type u} [DecidableEq ι] (P : Primitive ι) where
  | call (c : P.Call)
  | enter (slot : Nat) (type : UInt32)
  | resume (op : Op ι)

variable {ι : Type u} [DecidableEq ι] {P : Primitive ι}

/-- A new primitive. -/
def Racing.init (s : P.State) : Racing P := ⟨.init s, []⟩

/-- One step: a call, an emit that enters a handler, or a handler that obtains the lock. -/
def step (s : Racing P) : Label P → Option (Racing P)
  | .call c => if s.world.Fresh c then some { s with world := s.world.call c } else none
  | .enter k type => some { s with entered := s.entered ++ (s.world.handler k type).toList }
  | .resume op =>
      if op ∈ s.entered then
        some { world := s.world.cancel op, entered := s.entered.erase op }
      else none

/-- `complete()` was run on an op that was made of a handler. -/
def isPosted : Ended → Bool
  | .posted _ => true
  | _ => false

/-- How often `complete()` was run on an op that was made of a handler. -/
def completions (s : Racing P) (op : Op ι) : Nat := (s.world.endings op).countP isPosted

/-- No op was completed twice. -/
def CompletedOnce (s : Racing P) : Prop := ∀ op, op.Async → completions s op ≤ 1

/-- A handler that obtains the lock finds its op in a waiter list. -/
def StillQueued (s : Racing P) : Label P → Prop
  | .resume op => op ∈ P.queued s.world.impl
  | _ => True

/-- What every step keeps whose handler finds its op: the op of an entered handler still waits or
was completed. -/
structure Inv (s : Racing P) : Prop where
  world : s.world.Inv
  entered : ∀ op ∈ s.entered, op.slot ≠ none ∧
    (op ∈ P.queued s.world.impl ∨ ∃ ec, (op, .posted ec) ∈ s.world.log)

namespace Inv

variable {s t : Racing P} {l : Label P} {op : Op ι}

omit [DecidableEq ι] in
/-- An op that was made of a handler is posted by `complete()`. -/
theorem completed_of_slot (hslot : op.slot ≠ none) (ec : ErrorCode) :
    op.completed ec = .posted ec := by
  obtain ⟨k, hk⟩ := Option.ne_none_iff_exists'.mp hslot
  exact (Op.async_ends (Op.async_of_slot hk) .queued ec).2.1

/-- Nobody has entered a handler yet. -/
theorem start {s : P.State} (hs : P.queued s = []) : Inv (Racing.init s) :=
  ⟨World.Inv.init hs, fun _ hop => nomatch hop⟩

/-- A call completes an op of an entered handler, or leaves it alone. -/
theorem call {c : P.Call} (h : Inv s) (hfresh : s.world.Fresh c) :
    Inv { s with world := s.world.call c } := by
  obtain ⟨hnodup, hnew, heffect⟩ := World.effect h.world.append_nil hfresh
  refine ⟨h.world.call hfresh, fun op hop => ?_⟩
  obtain ⟨hslot, hstate⟩ := h.entered op hop
  have hlog : (s.world.call c).log = s.world.log ++ s.world.entries c := World.call_eq.2.2
  refine ⟨hslot, ?_⟩
  show op ∈ P.queued (s.world.call c).impl ∨ ∃ ec, (op, .posted ec) ∈ (s.world.call c).log
  rw [heffect.mem_left hnodup hnew, hlog]
  rcases hstate with hqueued | ⟨ec, hposted⟩
  · -- the call of another thread may complete the op while its handler waits for the lock
    by_cases hdone : op ∈ (P.call s.world.impl c).completed
    · have hmem := World.mem_entries hdone
      rw [completed_of_slot hslot] at hmem
      exact Or.inr ⟨_, List.mem_append_right _ hmem⟩
    · exact Or.inl (Or.inl ⟨hqueued, hdone⟩)
  · exact Or.inr ⟨ec, List.mem_append_left _ hposted⟩

/-- A handler that is entered belongs to an op that waits. -/
theorem enter (h : Inv s) (k : Nat) (type : UInt32) :
    Inv { s with entered := s.entered ++ (s.world.handler k type).toList } := by
  refine ⟨h.world, fun op hop => ?_⟩
  rcases List.mem_append.mp hop with hold | hnew
  · exact h.entered op hold
  · rw [Option.mem_toList, World.handler, Option.ite_none_right_eq_some] at hnew
    obtain ⟨hslot, hmem⟩ := h.world.slots k op hnew.2
    exact ⟨by simp [hslot], Or.inl hmem⟩

/-- A handler that finds its op completes it. -/
theorem resume (h : Inv s) (hop : op ∈ s.entered) (hqueued : op ∈ P.queued s.world.impl) :
    Inv { world := s.world.cancel op, entered := s.entered.erase op } := by
  refine ⟨h.world.cancel hqueued, fun q hq => ?_⟩
  obtain ⟨hslot, hstate⟩ := h.entered q (List.mem_of_mem_erase hq)
  refine ⟨hslot, ?_⟩
  show q ∈ P.queued (s.world.cancel op).impl ∨ ∃ ec, (q, .posted ec) ∈ (s.world.cancel op).log
  have hslot' : op.slot ≠ none := (h.entered op hop).1
  rw [World.cancel_eq hslot', World.finish_impl, World.finish_log, completed_of_slot hslot']
  rcases hstate with hwaits | ⟨ec, hposted⟩
  · by_cases hqop : q = op
    · exact Or.inr ⟨.operationAborted, List.mem_append_right _ (by simp [hqop])⟩
    · have hperm := P.unlink_perm s.world.impl op h.world.balanced.pending_nodup hqueued
      exact Or.inl ((List.mem_cons.mp (hperm.mem_iff.mpr hwaits)).resolve_left hqop)
  · exact Or.inr ⟨ec, List.mem_append_left _ hposted⟩

/-- Every step whose handler finds its op keeps the invariant. -/
theorem step (h : Inv s) (hqueued : StillQueued s l) (hstep : step s l = some t) : Inv t := by
  cases l with
  | call c =>
      obtain ⟨hfresh, rfl⟩ := guard_iff.mp hstep
      exact h.call hfresh
  | enter k type =>
      obtain rfl := Option.some.inj hstep
      exact h.enter k type
  | resume op =>
      obtain ⟨hop, rfl⟩ := guard_iff.mp hstep
      exact h.resume hop hqueued

/-- While the invariant holds, no op was completed twice. -/
theorem completedOnce (h : Inv s) : CompletedOnce s :=
  fun op _ => Nat.le_trans List.countP_le_length (h.world.balanced.endings_length_le op)

/-- A handler that does not find its op completes it a second time. -/
theorem step_late (h : Inv s) (hlate : ¬ StillQueued s l) (hstep : Race.step s l = some t) :
    ¬ CompletedOnce t := by
  cases l with
  | resume op =>
      obtain ⟨hop, rfl⟩ := guard_iff.mp hstep
      obtain ⟨hslot, hstate⟩ := h.entered op hop
      obtain ⟨ec, hposted⟩ := hstate.resolve_left hlate
      have hbefore : 0 < completions s op :=
        List.countP_pos_iff.mpr ⟨_, Ledger.mem_endings.mpr hposted, rfl⟩
      have hafter : completions ⟨s.world.cancel op, s.entered.erase op⟩ op =
          completions s op + 1 := by
        simp [completions, World.endings, Ledger.endings, World.ledger, World.cancel_eq hslot,
          completed_of_slot hslot, isPosted]
      obtain ⟨k, hk⟩ := Option.ne_none_iff_exists'.mp hslot
      intro honce
      have hle := honce op (Op.async_of_slot hk)
      omega
  | _ => exact absurd trivial hlate

end Inv

/-- **When no op is completed twice.** For each kind of primitive and every run from its
construction: `complete()` is run at most once on every op in every state of the run exactly when
every cancellation handler that obtains the lock still finds its op in a waiter list. -/
theorem complete_once_iff (kind : Kind) {impl : (kind.primitive ι).State}
    (himpl : (kind.primitive ι).queued impl = []) (ls : List (Label (kind.primitive ι))) :
    (∀ t, Visits step (Racing.init impl) ls t → CompletedOnce t) ↔
      ∀ t l, Takes step (Racing.init impl) ls t l → StillQueued t l :=
  visits_iff_takes (fun _ _ _ h hqueued hstep => h.step hqueued hstep)
    (fun _ h => h.completedOnce) (fun _ _ _ h hlate hstep => h.step_late hlate hstep)
    (Inv.start himpl) ls

/-- The equivalence for a semaphore whose release wins against the cancellation. -/
theorem complete_once_iff_release :
    (∀ t, Visits step
        (Racing.init (P := Kind.semaphore.primitive Nat) (SemaphoreImpl.init true 0))
        [.call (SemaphoreImpl.Call.asyncAcquire 0 (some 7)), .enter 7 1,
          .call SemaphoreImpl.Call.release, .resume (.async 0 (some 7))] t → CompletedOnce t) ↔
      ∀ t l, Takes step
        (Racing.init (P := Kind.semaphore.primitive Nat) (SemaphoreImpl.init true 0))
        [.call (SemaphoreImpl.Call.asyncAcquire 0 (some 7)), .enter 7 1,
          .call SemaphoreImpl.Call.release, .resume (.async 0 (some 7))] t l → StillQueued t l :=
  complete_once_iff .semaphore rfl _

/-- The release completes the op between the two steps of its cancellation handler, and the handler
completes it again: the semaphore looks at the slot once more, the mutex does not. -/
theorem completed_twice :
    (∃ t : Racing (Kind.semaphore.primitive Nat),
      run step (Racing.init (SemaphoreImpl.init true 0))
        [.call (SemaphoreImpl.Call.asyncAcquire 0 (some 7)), .enter 7 1,
          .call SemaphoreImpl.Call.release, .resume (.async 0 (some 7))] = some t ∧
      completions t (.async 0 (some 7)) = 2 ∧ ¬ CompletedOnce t) ∧
    ∃ t : Racing (Kind.mutex.primitive Nat),
      run step (Racing.init (MutexImpl.init true))
        [.call MutexImpl.Call.tryLock, .call (MutexImpl.Call.asyncLock 0 (some 7)), .enter 7 1,
          .call MutexImpl.Call.unlock, .resume (.async 0 (some 7))] = some t ∧
      completions t (.async 0 (some 7)) = 2 ∧ ¬ CompletedOnce t := by
  refine ⟨⟨_, rfl, rfl, fun h => ?_⟩, ⟨_, rfl, rfl, fun h => ?_⟩⟩
  all_goals
    exact absurd (h (.async 0 (some 7)) (fun hblocks => hblocks)) (by decide)

end Sam.Race
