import Sam.Guard.Guarded

/-!
# How the operation under a guard ends

`guarded` gives its permit back in the third entry, which is the handler of the inner operation. An
inner operation can also end without that entry: it throws out of its initiating function, or it
destroys the handler. Nothing in the first two entries owns the permit, so neither of them gives it
back. `Guarding` is a run of guarded calls whose inner operations end in any of these ways. Read
`returned_iff_invoked` for the result.
-/

namespace Sam.Guarded

open Tally Transition

universe u v

variable {ι : Type u} [DecidableEq ι] {α : Type v}

/-- How an inner operation ends. `threw` is an exception out of its initiating function, on either
path; `destroyed` drops the handler, and with it the composed operation. -/
inductive Ending (α : Type v) where
  | invoked (args : α)
  | threw
  | destroyed

/-- The handler was called. -/
def Ending.Invoked : Ending α → Prop
  | .invoked _ => True
  | _ => False

/-- Guarded calls, and those whose inner operation has ended, in order. -/
structure Guarding (P : Guardable ι) (α : Type v) where
  run : Run P α
  ended : List ι

/-- What happens next: another step of the calls, or an inner operation ends. -/
inductive InnerLabel (ι : Type u) (α : Type v) where
  | entry (l : Label ι α)
  | ends (call : ι) (how : Ending α)

namespace Guarding

variable {P : Guardable ι} {s t : Guarding P α}

/-- Nobody has used the primitive. -/
def init (P : Guardable ι) : Guarding P α := ⟨.init P, []⟩

/-- One step, for the steps of the composed operation. The third entry is called by the inner
operation only; an exception or a dropped handler leaves the primitive as it is. -/
def step (guardBy : Run P α → Label ι α → Option (Run P α)) (s : Guarding P α) :
    InnerLabel ι α → Option (Guarding P α)
  | .entry (.complete _ _) => none
  | .entry l => (guardBy s.run l).map fun r => ⟨r, s.ended⟩
  | .ends i how =>
      if i ∉ s.ended ∧ (s.run.stage i).isRunning then
        match how with
        | .invoked args => (guardBy s.run (.complete i args)).map fun r => ⟨r, s.ended ++ [i]⟩
        -- no entry is called, and nothing owns the permit
        | .threw | .destroyed => some ⟨s.run, s.ended ++ [i]⟩
      else none

/-- The inner operations that were started and have not ended. -/
def working (s : Guarding P α) : Nat :=
  s.run.calls.countP fun i => (s.run.stage i).isRunning ∧ i ∉ s.ended

/-- A call has given its permit back once if its inner operation is over, and not at all before;
a permit that is not free is in flight or held for an inner operation that goes on. -/
structure Returned (s : Guarding P α) : Prop where
  once : ∀ i, s.run.releases.count i = if i ∈ s.ended then 1 else 0
  balance : (s.working + s.run.inFlight : Int) + P.free s.run.impl = P.limit

/-- The permits are accounted for, and those of the operations that are over were given back. -/
structure Kept (s : Guarding P α) : Prop where
  inv : Inv 0 s.run
  ended : s.ended = s.run.releases

end Guarding

/-! ## Releases -/

variable {P : Guardable ι} {s t : Run P α} {i : ι}

/-- A grant gives nothing back. -/
theorem Run.grant_releases (s : Run P α) (ops : List ι) : (s.grant ops).releases = s.releases := by
  induction ops generalizing s with
  | nil => rfl
  | cons j ops ih => exact ih _

/-- The first entry gives nothing back. -/
theorem Run.start_releases (s : Run P α) (i : ι) (cancelled : Bool) :
    (s.start i cancelled).releases = s.releases := by
  unfold Run.start
  dsimp only
  split
  · rfl
  · split <;> rfl

/-- Nor does the request. -/
theorem Run.acquire_releases (s : Run P α) (i : ι) : (s.acquire i).releases = s.releases := by
  unfold Run.acquire
  dsimp only
  split <;> rfl

/-- Nor does the second entry. -/
theorem Run.obtained_releases (s : Run P α) (i : ι) (ec : ErrorCode) :
    (s.obtained i ec).releases = s.releases := by
  unfold Run.obtained
  split <;> rfl

/-- **Only the third entry gives a permit back**, and that of its own call. -/
theorem step_releases {l : Label ι α} (hstep : step s l = some t) :
    t.releases = match l with
      | .complete i _ => s.releases ++ [i]
      | _ => s.releases := by
  cases entered hstep with
  | start => exact s.start_releases _ _
  | acquire => exact s.acquire_releases _
  | cancel => rfl
  | obtained => exact s.obtained_releases _ _
  | aborted => exact s.obtained_releases _ _
  | complete => exact Run.grant_releases _ _

/-! ## Runs with inner operations that end in any way -/

namespace Guarding

variable {s t : Guarding P α}

/-- Nobody has used the primitive. -/
theorem Kept.init : (init P : Guarding P α).Kept := ⟨.init, rfl⟩

/-- An operation that goes on has not given its permit back. -/
theorem Kept.running (h : s.Kept) {i : ι} (hi : (s.run.stage i).isRunning) :
    i ∉ s.run.releases := by
  rw [h.inv.releases.mem_iff]
  intro hdone
  cases hstage : s.run.stage i <;> simp_all [Stage.isRunning, Stage.Done]

/-- Such a state is balanced. -/
theorem Kept.returned (h : s.Kept) : s.Returned := by
  refine ⟨fun i => ?_, ?_⟩
  · rw [h.ended]
    exact h.inv.releases.nodup.count
  · -- all operations that are over have given their permits back
    have hworking : s.working = s.run.running := by
      refine List.countP_congr fun i _ => ?_
      rw [h.ended]
      simpa using fun hi => h.running hi
    have hbalance := h.inv.balance
    rw [hworking]
    omega

/-- A step after which every inner operation that is over has called its handler. -/
theorem Kept.step {l : InnerLabel ι α} (h : s.Kept)
    (hinvoked : ∀ i how, l = .ends i how → how.Invoked)
    (hstep : Guarding.step Guarded.step s l = some t) : t.Kept := by
  cases l with
  | entry l =>
      cases l with
      | complete i args => cases hstep
      | _ =>
          obtain ⟨r, hr, rfl⟩ := Option.map_eq_some_iff.mp hstep
          exact ⟨h.inv.step hr, h.ended.trans (step_releases hr).symm⟩
  | ends i how =>
      obtain ⟨-, hstep⟩ := Option.ite_none_right_eq_some.mp hstep
      cases how with
      | invoked args =>
          obtain ⟨r, hr, rfl⟩ := Option.map_eq_some_iff.mp hstep
          refine ⟨h.inv.step hr, ?_⟩
          show s.ended ++ [i] = r.releases
          rw [step_releases hr, h.ended]
      | threw => exact (hinvoked i .threw rfl).elim
      | destroyed => exact (hinvoked i .destroyed rfl).elim

/-- An inner operation that ends without its handler keeps the permit. -/
theorem Kept.leaks {i : ι} {how : Ending α} (h : s.Kept) (hhow : ¬ how.Invoked)
    (hstep : Guarding.step Guarded.step s (.ends i how) = some t) : ¬ t.Returned := by
  obtain ⟨⟨-, hrunning⟩, hstep⟩ := Option.ite_none_right_eq_some.mp hstep
  have hnext : t = ⟨s.run, s.ended ++ [i]⟩ := by
    cases how with
    | invoked args => exact (hhow trivial).elim
    | threw => exact (Option.some.inj hstep).symm
    | destroyed => exact (Option.some.inj hstep).symm
  intro hreturned
  have honce := hreturned.once i
  subst hnext
  rw [List.count_eq_zero_of_not_mem (h.running hrunning), if_pos (by simp)] at honce
  cases honce

end Guarding

/-- **A permit is given back exactly when the inner operation calls its handler.** In every run of
guarded calls that alone use a semaphore or a mutex, on the immediate and on the queued path: every
call whose inner operation is over has given its permit back, once, in all states of the run if and
only if every inner operation that ended in it had invoked its handler. -/
theorem returned_iff_invoked (kind : Kind) (enabled : Bool) (ls : List (InnerLabel ι α)) :
    (∀ t, Visits (Guarding.step (kind.guardBy enabled))
        (Guarding.init (kind.guardable ι enabled)) ls t → t.Returned) ↔
      ∀ t l, Takes (Guarding.step (kind.guardBy enabled))
        (Guarding.init (kind.guardable ι enabled)) ls t l →
          ∀ i how, l = .ends i how → how.Invoked := by
  rw [kind.guardBy_eq]
  refine visits_iff_takes (I := Guarding.Kept)
    (C := fun _ l => ∀ i how, l = .ends i how → how.Invoked)
    (fun s l t h hC hstep => h.step hC hstep) (fun s h => h.returned) ?_ Guarding.Kept.init ls
  intro s l t h hC hstep
  push Not at hC
  obtain ⟨i, how, rfl, hhow⟩ := hC
  exact h.leaks hhow hstep

/-- The only permit is lost with an exception: the first call is over and has given nothing back,
and the second one waits with nobody left to let it in. -/
theorem threw_keeps_permit :
    ∃ s : Guarding ((Kind.semaphore 1).guardable Nat true) Unit,
      run (Guarding.step ((Kind.semaphore 1).guardBy true))
        (Guarding.init ((Kind.semaphore 1).guardable Nat true))
        [.entry (.start 0 false), .ends 0 .threw, .entry (.start 1 false), .entry (.acquire 1)] =
          some s ∧
      0 ∈ s.ended ∧ s.run.releases.count 0 = 0 ∧ ¬ s.Returned ∧
      ((Kind.semaphore 1).guardable Nat true).free s.run.impl = 0 ∧ s.run.stage 1 = .waiting ∧
      s.working = 0 ∧ s.run.inFlight = 0 := by
  refine ⟨_, rfl, by decide, rfl, fun h => ?_, rfl, rfl, rfl, rfl⟩
  exact absurd (h.once 0) (by decide)

end Sam.Guarded
