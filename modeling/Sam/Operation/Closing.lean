import Sam.Library.Transition
import Sam.Operation.Kinds
import Sam.Operation.World

/-!
# Blocking calls and the shutdown of a primitive

Runs in which `shutdown()` of a primitive takes the waiter lists under the lock and then shuts down
the ops that it took, with the calls of other threads before, in between and afterwards. Nothing
records that the primitive was shut down, so a call made afterwards is treated like any other one.
`none_blocked_iff` gives the runs exactly in which nobody is left waiting.
-/

namespace Sam.Closing

open Transition

universe u

/-- A primitive with its ops, and what is left of the ops that `shutdown()` took, once it did. -/
structure Run {ι : Type u} [DecidableEq ι] (P : Primitive ι) where
  world : World P
  taken : Option (List (Op ι))

/-- The steps of a run. -/
inductive Label {ι : Type u} [DecidableEq ι] (P : Primitive ι) where
  | call (c : P.Call)
  | take
  | next

variable {ι : Type u} [DecidableEq ι] {P : Primitive ι}

/-- A new primitive. -/
def Run.init (s : P.State) : Run P := ⟨.init s, none⟩

/-- One step: a call, the section of `shutdown()`, or the shutdown of one of the ops it took. -/
def step (s : Run P) : Label P → Option (Run P)
  | .call c => if s.world.Fresh c then some { s with world := s.world.call c } else none
  | .take =>
      match s.taken with
      | none =>
          some
            { world := { s.world with impl := P.takeAll s.world.impl }
              taken := some (P.queued s.world.impl) }
      | some _ => none
  | .next =>
      match s.taken with
      | some (op :: rest) => some { world := s.world.finish Op.shutDown op, taken := some rest }
      | _ => none

/-- Once `shutdown()` has taken the waiter lists, no blocking call is queued in them. -/
def NoneBlocked (s : Run P) : Prop :=
  s.taken ≠ none → ∀ op ∈ P.queued s.world.impl, ¬ op.Blocks

/-- The blocking calls among the ops that were taken are woken with `shut_down`, one at a time. -/
def WakesTaken (s : Run P) : Prop :=
  ∀ ops, s.taken = some ops → ∃ t, run step s (List.replicate ops.length .next) = some t ∧
    ∀ op ∈ ops, op.Blocks → (op, .woken .shutDown) ∈ t.world.log

/-- A blocking call that is made after the lists were taken does not have to wait. -/
def CallAdmitted (s : Run P) : Label P → Prop
  | .call c => s.taken ≠ none → ∀ op ∈ P.request c, op.Blocks → P.waits s.world.impl c = false
  | _ => True

/-- What every step keeps that admits its call. -/
structure Inv (s : Run P) : Prop where
  balanced : (s.world.ledger (P.queued s.world.impl ++ s.taken.getD [])).Balanced
  none_blocked : NoneBlocked s

variable {s t : Run P} {l : Label P}

/-- What was taken is shut down, one op at a time. -/
theorem run_next {ops : List (Op ι)} (htaken : s.taken = some ops) :
    ∃ t, run step s (List.replicate ops.length .next) = some t ∧
      t.world.log = s.world.log ++ ops.map fun op => (op, op.shutDown) := by
  induction ops generalizing s with
  | nil => exact ⟨s, rfl, by simp⟩
  | cons op ops ih =>
      obtain ⟨t, hrun, hlog⟩ :=
        @ih { world := s.world.finish Op.shutDown op, taken := some ops } rfl
      refine ⟨t, run_cons.mpr ⟨_, by simp [step, htaken], hrun⟩, ?_⟩
      simpa using hlog

/-- `shutdown()` wakes everybody it took. -/
theorem wakes_taken (s : Run P) : WakesTaken s := by
  intro ops htaken
  obtain ⟨t, hrun, hlog⟩ := run_next htaken
  refine ⟨t, hrun, fun op hop hblocks => ?_⟩
  have hend : op.shutDown = .woken .shutDown := by
    cases op with
    | blocking id => rfl
    | async id slot => exact absurd hblocks fun h => h
  rw [hlog, ← hend]
  exact List.mem_append_right _ (List.mem_map.mpr ⟨op, hop, rfl⟩)

namespace Inv

/-- A new primitive has no waiters. -/
theorem start {s : P.State} (hs : P.queued s = []) : Inv (Run.init s) :=
  ⟨(World.Inv.init hs).append_nil, fun htaken => absurd rfl htaken⟩

/-- A call that does not have to wait leaves nobody waiting. -/
theorem call {c : P.Call} (h : Inv s) (hfresh : s.world.Fresh c)
    (hadmitted : CallAdmitted s (.call c)) : Inv { s with world := s.world.call c } := by
  obtain ⟨hnodup, hnew, heffect⟩ := World.effect h.balanced hfresh
  refine ⟨World.call_balanced h.balanced hfresh, fun htaken op hop hblocks => ?_⟩
  rcases (heffect.mem_left hnodup hnew).mp hop with ⟨hold, -⟩ | ⟨hreq, hqueued⟩
  · exact h.none_blocked htaken op hold hblocks
  · have hwaits := (heffect.waits_of_queued hreq).mp hqueued
    rw [hadmitted htaken op hreq hblocks] at hwaits
    cases hwaits

/-- A blocking call that has to wait after the lists were taken is left in them. -/
theorem call_late {c : P.Call} (h : Inv s) (hfresh : s.world.Fresh c)
    (hlate : ¬ CallAdmitted s (.call c)) : ¬ NoneBlocked { s with world := s.world.call c } := by
  obtain ⟨hnodup, hnew, heffect⟩ := World.effect h.balanced hfresh
  simp only [CallAdmitted, not_forall, Bool.not_eq_false] at hlate
  obtain ⟨htaken, op, hreq, hblocks, hwaits⟩ := hlate
  intro hnone
  have hqueued := (heffect.waits_of_queued hreq).mpr hwaits
  exact hnone htaken op ((heffect.mem_left hnodup hnew).mpr (Or.inr ⟨hreq, hqueued⟩)) hblocks

/-- Every step that admits its call keeps the invariant. -/
theorem step (h : Inv s) (hadmitted : CallAdmitted s l) (hstep : step s l = some t) : Inv t := by
  cases l with
  | call c =>
      obtain ⟨hfresh, rfl⟩ := guard_iff.mp hstep
      exact h.call hfresh hadmitted
  | take =>
      have hbalanced := h.balanced
      simp only [Closing.step] at hstep
      split at hstep
      · rename_i htaken
        obtain rfl := Option.some.inj hstep
        -- what was queued is pending as taken now
        have hempty : P.queued (P.takeAll s.world.impl) = [] := P.takeAll_lists s.world.impl
        rw [htaken] at hbalanced
        refine ⟨?_, fun _ op hop => ?_⟩
        · simpa [hempty, World.ledger] using hbalanced
        · exact absurd hop (hempty ▸ List.not_mem_nil)
      · cases hstep
  | next =>
      have hbalanced := h.balanced
      simp only [Closing.step] at hstep
      split at hstep
      · rename_i op rest htaken
        obtain rfl := Option.some.inj hstep
        rw [htaken] at hbalanced
        have hwaiting : P.queued (s.world.finish Op.shutDown op).impl = P.queued s.world.impl := by
          rw [World.finish_impl]
        refine ⟨?_, fun _ => ?_⟩
        · refine World.finish_balanced hbalanced Op.shutDown [op] ?_ (by simp) (by simp)
          rw [hwaiting]
          show (op :: (P.queued s.world.impl ++ rest)).Perm (P.queued s.world.impl ++ op :: rest)
          exact List.perm_middle.symm
        · show ∀ q ∈ P.queued (s.world.finish Op.shutDown op).impl, ¬ q.Blocks
          rw [hwaiting]
          exact h.none_blocked (by simp [htaken])
      · cases hstep

/-- Leaving a blocking call waiting is the only way to miss the property. -/
theorem step_late (h : Inv s) (hlate : ¬ CallAdmitted s l) (hstep : Closing.step s l = some t) :
    ¬ NoneBlocked t := by
  cases l with
  | call c =>
      obtain ⟨hfresh, rfl⟩ := guard_iff.mp hstep
      exact h.call_late hfresh hlate
  | _ => exact absurd trivial hlate

end Inv

/-- **When nobody is left blocked.** For each kind of primitive and every run from its construction:
once `shutdown()` has taken the waiter lists, no blocking call is queued in them, and those that
were are woken with `shut_down`, exactly when no blocking call made after that has to wait. -/
theorem none_blocked_iff (kind : Kind) {impl : (kind.primitive ι).State}
    (himpl : (kind.primitive ι).queued impl = []) (ls : List (Label (kind.primitive ι))) :
    (∀ t, Visits step (Run.init impl) ls t → NoneBlocked t ∧ WakesTaken t) ↔
      ∀ t l, Takes step (Run.init impl) ls t l → CallAdmitted t l :=
  visits_iff_takes (fun _ _ _ h hadmitted hstep => h.step hadmitted hstep)
    (fun s h => ⟨h.none_blocked, wakes_taken s⟩)
    (fun _ _ _ h hlate hstep hall => h.step_late hlate hstep hall.1) (Inv.start himpl) ls

/-- The equivalence for a mutex that is taken: one call of `lock` waits before the shutdown. -/
theorem none_blocked_iff_before :
    (∀ t, Visits step (Run.init (P := Kind.mutex.primitive Nat) (MutexImpl.init true))
        [.call MutexImpl.Call.tryLock, .call (MutexImpl.Call.lock 0), .take, .next] t →
        NoneBlocked t ∧ WakesTaken t) ↔
      ∀ t l, Takes step (Run.init (P := Kind.mutex.primitive Nat) (MutexImpl.init true))
        [.call MutexImpl.Call.tryLock, .call (MutexImpl.Call.lock 0), .take, .next] t l →
        CallAdmitted t l :=
  none_blocked_iff .mutex rfl _

/-- A call of `lock` on a taken mutex that comes after the shutdown waits, and stays queued. -/
theorem blocked_after_shutdown :
    ∃ t : Run (Kind.mutex.primitive Nat),
      run step (Run.init (MutexImpl.init true))
        [.call MutexImpl.Call.tryLock, .take, .call (MutexImpl.Call.lock 0)] = some t ∧
      t.taken = some [] ∧ .blocking 0 ∈ (Kind.mutex.primitive Nat).queued t.world.impl ∧
      ¬ NoneBlocked t :=
  ⟨_, rfl, rfl, List.mem_singleton_self _,
    fun h => h (by simp) (.blocking 0) (List.mem_singleton_self _) trivial⟩

end Sam.Closing
