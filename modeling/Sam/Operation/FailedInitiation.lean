import Sam.Operation.Initiation
import Sam.Operation.Withdrawal

/-!
# Initiations whose `construct` throws

Runs of calls, cancellations and initiations that fail: `construct` throws because the allocation
fails or because a move of the handler or of the executor throws. `Twin` runs a primitive next to
one on which the failed calls are not made at all. All initiations but `async_arrive` make the op
before they change anything; `async_arrive` has counted its arrival by then. Read `same_iff_clean`
for the result.
-/

namespace Sam.FailedInitiation

open LockScope Transition Withdrawal

universe u

variable {ι : Type u} [DecidableEq ι] {kind : Kind}

/-- The same calls with the ones that failed and without them, and what callers have seen. -/
structure Twin (kind : Kind) (ι : Type u) [DecidableEq ι] where
  actual : Observed (kind.primitive ι)
  without : Observed (kind.primitive ι)

/-- The steps of a run: those that do not throw, or an initiation whose `construct` throws. -/
inductive Label (kind : Kind) (ι : Type u) [DecidableEq ι] where
  | ok (l : Withdrawal.Label (kind.primitive ι))
  | fail (c : (kind.primitive ι).Call)

namespace Twin

/-- A new primitive, twice. -/
def init (s : (kind.primitive ι).State) : Twin kind ι := ⟨.init s, .init s⟩

/-- The failed call of an initiation leaves what its code had done by then. The handler is gone
with the exception, so its op may be used again. -/
def fail (w : World (kind.primitive ι)) (c : (kind.primitive ι).Call) :
    Option (World (kind.primitive ι)) :=
  ((kind.callCode c).fails w.impl).map fun s => { w with impl := s }

/-- One step. Only an initiation that has to queue its op gets to `construct`. -/
def step (s : Twin kind ι) : Label kind ι → Option (Twin kind ι)
  | .ok l =>
      -- both runs make the call
      match Withdrawal.step s.actual l, Withdrawal.step s.without l with
      | some actual, some without => some ⟨actual, without⟩
      | _, _ => none
  | .fail c =>
      if s.actual.world.Fresh c then
        (fail s.actual.world c).map fun w => { s with actual.world := w }
      else none

end Twin

/-! ## What a failed call leaves -/

omit [DecidableEq ι] in
/-- A failed `async_arrive` has counted its arrival. -/
theorem arrive_fails {id : ι} {slot : Option Nat} {m n : BarrierImpl (Op ι)}
    (h : (BarrierImpl.Initiation.asyncArriveOp (.async id slot)).fails m = some n) :
    n = m.decrement := by
  simp only [BarrierImpl.Initiation.asyncArriveOp, Code.fails] at h
  split at h
  · cases h
  · -- the arrival that `try_arrive` took back is counted again
    simpa [BarrierImpl.decrement] using (Option.some.inj h).symm

/-- Every failed call on a barrier changes it. -/
theorem barrier_fails {c : BarrierImpl.Call ι} {m n : BarrierImpl (Op ι)}
    (h : (BarrierImpl.Call.code c).fails m = some n) : n ≠ m := by
  cases c with
  | asyncArrive id slot =>
      intro hsame
      have hcounter : m.decrement.counter = m.counter := by rw [← arrive_fails h, hsame]
      simp only [BarrierImpl.decrement] at hcounter
      omega
  | tryArrive =>
      have hnone := Primitive.sectionCode_fails (P := BarrierImpl.primitive) .tryArrive m
      cases hnone.symm.trans h
  | arrive id =>
      have hnone := Primitive.sectionCode_fails (P := BarrierImpl.primitive) (.arrive id) m
      cases hnone.symm.trans h

/-! ## Runs -/

namespace Twin

variable {s t : Twin kind ι} {l : Label kind ι}

/-- A step of a run in which nothing but an `async_arrive` may change anything before it fails. -/
theorem step_same (h : s.actual = s.without) (hclean : ∀ c, l = .fail c → kind ≠ .barrier)
    (hstep : step s l = some t) : t.actual = t.without := by
  cases l with
  | ok l =>
      simp only [step, h] at hstep
      split at hstep
      · rename_i actual without hactual hwithout
        obtain rfl := Option.some.inj hstep
        exact Option.some.inj (hactual.symm.trans hwithout)
      · cases hstep
  | fail c =>
      obtain ⟨-, w, hw, rfl⟩ := guard_map_iff.mp hstep
      obtain ⟨m, hm, rfl⟩ := Option.map_eq_some_iff.mp hw
      -- clean code has changed nothing when it throws
      have himpl := Code.fails_of_clean (Kind.callCode_clean (hclean c rfl) c) hm
      subst himpl
      exact h

/-- A failed call on a barrier. -/
theorem step_differs {c : (kind.primitive ι).Call} (h : s.actual = s.without)
    (hkind : kind = .barrier) (hstep : step s (.fail c) = some t) : t.actual ≠ t.without := by
  subst hkind
  obtain ⟨-, w, hw, rfl⟩ := guard_map_iff.mp hstep
  obtain ⟨m, hm, rfl⟩ := Option.map_eq_some_iff.mp hw
  intro hsame
  refine barrier_fails hm ?_
  have himpl := congrArg (fun o => o.world.impl) (hsame.trans h.symm)
  exact himpl

end Twin

/-- **A failing initiation leaves the primitive as it was, but for `async_arrive`.** In all states
of a run of calls, cancellations and failing initiations, of any kind of primitive and from any
state of it, the primitive, its slots and what callers have seen are as if the failed calls had not
been made, if and only if none of them was a call of `async_arrive`. -/
theorem same_iff_clean (kind : Kind) (s : (kind.primitive ι).State) (ls : List (Label kind ι)) :
    (∀ t, Visits Twin.step (Twin.init s) ls t → t.actual = t.without) ↔
      ∀ t l, Takes Twin.step (Twin.init s) ls t l → ∀ c, l = .fail c → kind ≠ .barrier := by
  refine visits_iff_takes (I := fun t => t.actual = t.without)
    (C := fun _ l => ∀ c, l = .fail c → kind ≠ .barrier)
    (fun _ _ _ h hclean hstep => Twin.step_same h hclean hstep) (fun _ h => h) ?_
    (s := Twin.init s) rfl ls
  intro s l t h hdirty hstep
  push Not at hdirty
  obtain ⟨c, rfl, hkind⟩ := hdirty
  exact Twin.step_differs h hkind hstep

/-- A failed `async_arrive` at a barrier for two: the only arrival that is made afterwards opens it.
Without the failed call it waits. -/
theorem failed_arrive_counts :
    ∃ t : Twin .barrier Nat,
      run Twin.step (.init (.new true 2) : Twin .barrier Nat)
        ([.fail (.asyncArrive 0 none), .ok (.call (.asyncArrive 1 none))] :
          List (Label .barrier Nat)) = some t ∧
      t.actual.world.log = [(.async 1 none, .dispatched)] ∧
      t.without.world.log = [] ∧ t.actual ≠ t.without := by
  refine ⟨_, rfl, rfl, rfl, fun h => ?_⟩
  have hlog := congrArg (fun o => o.world.log.length) h
  cases hlog

end Sam.FailedInitiation
