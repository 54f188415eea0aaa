import Sam.Guard.Guardable
import Sam.Library.Tally

/-!
# `guarded`

Runs of any number of `guarded(...)` calls that alone use a primitive. A call is a composed
operation with three entries: the first one tries to take a permit and asks for one if that fails,
the second one is the completion of that request, the third one is the completion of the guarded
operation. Other calls run between the entries, and in the first one between the try and the
request. `Run.calls` are the calls made so far; `acquisitions` and `releases` are ghost logs. Read
`guarded_within_limit` for the result.
-/

namespace Sam.Guarded

open Tally Transition

universe u v

/-- Where a call is. `acquired` and `aborting` are completions of the request in flight; `failed`
and `done` are the completions of the call, with an error of its own or with what the guarded
operation was completed with. -/
inductive Stage (α : Type v) where
  | idle
  | tried
  | waiting
  | acquired
  | aborting
  | running
  | failed (ec : ErrorCode)
  | done (args : α)

namespace Stage

variable {α : Type v}

/-- The call was made. -/
def Started : Stage α → Prop
  | idle => False
  | _ => True

/-- Its request is queued. -/
def Waiting : Stage α → Prop
  | waiting => True
  | _ => False

/-- It was given a permit. -/
def Admitted : Stage α → Prop
  | acquired | running | done _ => True
  | _ => False

/-- The guarded operation was completed. -/
def Done : Stage α → Prop
  | done _ => True
  | _ => False

/-- The call is completed. -/
def Ended : Stage α → Prop
  | failed _ | done _ => True
  | _ => False

/-- What the call holds: a permit, in flight or in use. -/
def held : Stage α → Nat
  | acquired | running => 1
  | _ => 0

/-- The guarded operation was started and is not completed. -/
def isRunning : Stage α → Bool
  | running => true
  | _ => false

/-- A permit is on its way to the call. -/
def isInFlight : Stage α → Bool
  | acquired => true
  | _ => false

/-- A permit is in flight or in use. -/
theorem held_eq (st : Stage α) : st.held =
    weight (fun st : Stage α => st.isRunning) st +
      weight (fun st : Stage α => st.isInFlight) st := by
  cases st <;> rfl

end Stage

variable {ι : Type u} [DecidableEq ι] {α : Type v}

/-- The primitive and the calls. -/
structure Run (P : Guardable ι) (α : Type v) where
  impl : P.State
  calls : List ι
  stage : ι → Stage α
  acquisitions : List ι
  releases : List ι

/-- What happens next. `cancelled` says whether the call was cancelled before it starts; `complete`
is the completion of the guarded operation with these arguments. -/
inductive Label (ι : Type u) (α : Type v) where
  | start (call : ι) (cancelled : Bool)
  | acquire (call : ι)
  | cancel (call : ι)
  | deliver (call : ι)
  | complete (call : ι) (args : α)

variable {P : Guardable ι}

namespace Run

/-- Nobody has used the primitive. -/
def init (P : Guardable ι) : Run P α := ⟨P.init, [], fun _ => .idle, [], []⟩

/-- The guarded operations that were started and are not completed. -/
def running (s : Run P α) : Nat := tally s.calls s.stage fun st => st.isRunning

/-- The grants in flight. -/
def inFlight (s : Run P α) : Nat := tally s.calls s.stage fun st => st.isInFlight

/-- The call goes on to this stage. -/
def move (s : Run P α) (i : ι) (st : Stage α) : Run P α :=
  { s with stage := Function.update s.stage i st }

/-- `operator()(Self &&)`, as far as the try. -/
def start (s : Run P α) (i : ι) (cancelled : Bool) : Run P α :=
  let s := { s with calls := s.calls ++ [i] }
  if cancelled then s.move i (.failed .operationAborted)
  else
    let r := P.tryTake s.impl
    match r.outcome with
    | .granted => { s with impl := r.state, acquisitions := s.acquisitions ++ [i] }.move i .running
    | _ => { s with impl := r.state }.move i .tried

/-- `operator()(Self &&)`, the request after a try that failed. -/
def acquire (s : Run P α) (i : ι) : Run P α :=
  let r := P.asyncTake s.impl i
  match r.outcome with
  | .granted => { s with impl := r.state, acquisitions := s.acquisitions ++ [i] }.move i .acquired
  | _ => { s with impl := r.state }.move i .waiting

/-- The cancellation handler of a queued request. -/
def cancel (s : Run P α) (i : ι) : Run P α :=
  { s with impl := P.unlink s.impl i }.move i .aborting

/-- `operator()(Self &&, semaphore_tag, error_code)`. -/
def obtained (s : Run P α) (i : ι) (ec : ErrorCode) : Run P α :=
  if ec ≠ .success then s.move i (.failed ec) else s.move i .running

/-- A release grants these requests. -/
def grant (s : Run P α) (ops : List ι) : Run P α :=
  ops.foldl (fun s j => { s with acquisitions := s.acquisitions ++ [j] }.move j .acquired) s

/-- `operator()(Self &&, op_tag, Args_ &&...)`: gives the permit back, then completes. -/
def completed (s : Run P α) (i : ι) (args : α) : Run P α :=
  let r := P.give s.impl
  ({ s with impl := r.state, releases := s.releases ++ [i] }.grant r.completed).move i (.done args)

end Run

/-- One step. Every label goes with one stage of its call. -/
def step (s : Run P α) : Label ι α → Option (Run P α)
  | .start i cancelled =>
      match s.stage i with
      | .idle => some (s.start i cancelled)
      | _ => none
  | .acquire i =>
      match s.stage i with
      | .tried => some (s.acquire i)
      | _ => none
  | .cancel i =>
      match s.stage i with
      | .waiting => some (s.cancel i)
      | _ => none
  | .deliver i =>
      match s.stage i with
      | .acquired => some (s.obtained i .success)
      | .aborting => some (s.obtained i .operationAborted)
      | _ => none
  | .complete i args =>
      match s.stage i with
      | .running => some (s.completed i args)
      | _ => none

/-- `guard_by_semaphore_op`. -/
def guardBySemaphoreOp (enabled : Bool) (k : Nat) :
    Run (SemaphoreImpl.guardable (ι := ι) enabled k) α → Label ι α →
      Option (Run (SemaphoreImpl.guardable (ι := ι) enabled k) α) := step

/-- `guard_by_mutex_op`. -/
def guardByMutexOp (enabled : Bool) :
    Run (MutexImpl.guardable (ι := ι) enabled) α → Label ι α →
      Option (Run (MutexImpl.guardable (ι := ι) enabled) α) := step

/-- What a step does: an entry of a call in the stage that the entry is for. -/
inductive Entered (s : Run P α) : Label ι α → Run P α → Prop where
  | start {i : ι} {cancelled : Bool} (hidle : s.stage i = .idle) :
      Entered s (.start i cancelled) (s.start i cancelled)
  | acquire {i : ι} (htried : s.stage i = .tried) : Entered s (.acquire i) (s.acquire i)
  | cancel {i : ι} (hwaiting : s.stage i = .waiting) : Entered s (.cancel i) (s.cancel i)
  | obtained {i : ι} (hacquired : s.stage i = .acquired) :
      Entered s (.deliver i) (s.obtained i .success)
  | aborted {i : ι} (haborting : s.stage i = .aborting) :
      Entered s (.deliver i) (s.obtained i .operationAborted)
  | complete {i : ι} {args : α} (hrunning : s.stage i = .running) :
      Entered s (.complete i args) (s.completed i args)

/-- Every step is such an entry. -/
theorem entered {s t : Run P α} {l : Label ι α} (hstep : step s l = some t) : Entered s l t := by
  cases l with
  | start i cancelled =>
      simp only [step] at hstep
      split at hstep
      · exact Option.some.inj hstep ▸ .start ‹_›
      · cases hstep
  | acquire i =>
      simp only [step] at hstep
      split at hstep
      · exact Option.some.inj hstep ▸ .acquire ‹_›
      · cases hstep
  | cancel i =>
      simp only [step] at hstep
      split at hstep
      · exact Option.some.inj hstep ▸ .cancel ‹_›
      · cases hstep
  | deliver i =>
      simp only [step] at hstep
      split at hstep
      · exact Option.some.inj hstep ▸ .obtained ‹_›
      · exact Option.some.inj hstep ▸ .aborted ‹_›
      · cases hstep
  | complete i args =>
      simp only [step] at hstep
      split at hstep
      · exact Option.some.inj hstep ▸ .complete ‹_›
      · cases hstep

/-! ## What every step keeps -/

/-- Where the permits are. `spare` permits were given back and are not in the primitive yet. -/
structure Inv (spare : Int) (s : Run P α) : Prop where
  ok : P.Ok s.impl
  calls : Roster s.calls s.stage Stage.Started
  line : Roster (P.waiters s.impl) s.stage Stage.Waiting
  acquisitions : Roster s.acquisitions s.stage Stage.Admitted
  releases : Roster s.releases s.stage Stage.Done
  balance : (s.running + s.inFlight : Int) + P.free s.impl + spare = P.limit

namespace Inv

variable {s t : Run P α} {i : ι} {spare : Int}

/-- Nobody has used the primitive. -/
theorem init : Inv 0 (Run.init P : Run P α) := by
  obtain ⟨hok, hfree, hwaiters⟩ := P.init_ok
  refine ⟨hok, .empty fun _ h => h, ?_, .empty fun _ h => h, .empty fun _ h => h, ?_⟩
  · show Roster (P.waiters P.init) _ _
    rw [hwaiters]
    exact .empty fun _ h => h
  · show ((0 : Nat) + (0 : Nat) : Int) + P.free P.init + 0 = P.limit
    omega

/-- The permits that are held when a call starts. -/
theorem held_enter (h : Inv spare s) (hidle : s.stage i = .idle) (st : Stage α) :
    tally (s.calls ++ [i]) (Function.update s.stage i st) (fun st => st.isRunning) +
        tally (s.calls ++ [i]) (Function.update s.stage i st) (fun st => st.isInFlight) =
      s.running + s.inFlight + st.held := by
  have hout : i ∉ s.calls := by
    rw [h.calls.mem_iff, hidle]
    exact id
  have hafter := st.held_eq
  simp only [tally_concat, tally_update_of_not_mem hout, Function.update_self, Run.running,
    Run.inFlight]
  omega

/-- A call starts and goes on to this stage. -/
theorem enter (h : Inv spare s) (hidle : s.stage i = .idle) (st : Stage α) (hst : st.Started)
    {impl : P.State} {acquisitions : List ι} (hok : P.Ok impl)
    (hline : Roster (P.waiters impl) (Function.update s.stage i st) Stage.Waiting)
    (hacquisitions : Roster acquisitions (Function.update s.stage i st) Stage.Admitted)
    (hreleases : Roster s.releases (Function.update s.stage i st) Stage.Done)
    (hfree : P.free impl + st.held = P.free s.impl) :
    Inv spare ⟨impl, s.calls ++ [i], Function.update s.stage i st, acquisitions, s.releases⟩ := by
  refine ⟨hok, h.calls.join hidle id hst, hline, hacquisitions, hreleases, ?_⟩
  have hheld := h.held_enter hidle st
  have hbalance := h.balance
  simp only [Run.running, Run.inFlight] at hheld hbalance ⊢
  omega

/-- The permits that are held when a call goes on to another stage. -/
theorem held_move (h : Inv spare s) (hstarted : (s.stage i).Started) (st : Stage α) :
    (s.move i st).running + (s.move i st).inFlight + (s.stage i).held =
      s.running + s.inFlight + st.held := by
  have hcall : i ∈ s.calls := (h.calls.mem_iff i).mpr hstarted
  have hrunning := tally_update (f := s.stage) (p := fun st => st.isRunning) h.calls.nodup hcall st
  have hflight := tally_update (f := s.stage) (p := fun st => st.isInFlight) h.calls.nodup hcall st
  have hbefore := (s.stage i).held_eq
  have hafter := st.held_eq
  simp only [Run.running, Run.inFlight, Run.move]
  omega

/-- A call goes on to another stage. -/
theorem move {before : Stage α} {spare' : Int} (h : Inv spare s) (hstage : s.stage i = before)
    (hbefore : before.Started) (st : Stage α) (hst : st.Started) {impl : P.State}
    {acquisitions releases : List ι} (hok : P.Ok impl)
    (hline : Roster (P.waiters impl) (Function.update s.stage i st) Stage.Waiting)
    (hacquisitions : Roster acquisitions (Function.update s.stage i st) Stage.Admitted)
    (hreleases : Roster releases (Function.update s.stage i st) Stage.Done)
    (hfree : P.free impl + st.held + spare' = P.free s.impl + before.held + spare) :
    Inv spare' ⟨impl, s.calls, Function.update s.stage i st, acquisitions, releases⟩ := by
  have hsame : before.Started ↔ st.Started := iff_of_true hbefore hst
  refine ⟨hok, h.calls.stay hstage hsame, hline, hacquisitions, hreleases, ?_⟩
  have hheld := h.held_move (hstage ▸ hbefore) st
  have hbalance := h.balance
  rw [hstage] at hheld
  simp only [Run.running, Run.inFlight, Run.move] at hheld hbalance ⊢
  omega

/-- The first entry. -/
theorem start (h : Inv 0 s) (hidle : s.stage i = .idle) (cancelled : Bool) :
    Inv 0 (s.start i cancelled) := by
  cases cancelled with
  | true =>
      exact h.enter hidle (.failed .operationAborted) trivial h.ok (h.line.stay hidle Iff.rfl)
        (h.acquisitions.stay hidle Iff.rfl) (h.releases.stay hidle Iff.rfl) (by simp [Stage.held])
  | false =>
      obtain ⟨hok, hreq⟩ := P.tryTake_ok s.impl i h.ok
      rcases P.tryTake_outcome s.impl h.ok with houtcome | houtcome <;> rw [houtcome] at hreq
      · obtain ⟨hfree, hwaiters⟩ := hreq.of_granted
        have hnext : s.start i false = ⟨(P.tryTake s.impl).state, s.calls ++ [i],
            Function.update s.stage i .running, s.acquisitions ++ [i], s.releases⟩ := by
          simp only [Run.start, houtcome]
          rfl
        rw [hnext]
        refine h.enter hidle .running trivial hok ?_ (h.acquisitions.join hidle id trivial)
          (h.releases.stay hidle Iff.rfl) (by rw [hfree]; simp [Stage.held])
        rw [hwaiters]
        exact h.line.stay hidle Iff.rfl
      · obtain ⟨hfree, hwaiters⟩ := hreq.of_refused
        have hnext : s.start i false = ⟨(P.tryTake s.impl).state, s.calls ++ [i],
            Function.update s.stage i .tried, s.acquisitions, s.releases⟩ := by
          simp only [Run.start, houtcome]
          rfl
        rw [hnext]
        refine h.enter hidle .tried trivial hok ?_ (h.acquisitions.stay hidle Iff.rfl)
          (h.releases.stay hidle Iff.rfl) (by rw [hfree]; simp [Stage.held])
        rw [hwaiters]
        exact h.line.stay hidle Iff.rfl

/-- The request after a try that failed. -/
theorem acquire (h : Inv 0 s) (htried : s.stage i = .tried) : Inv 0 (s.acquire i) := by
  obtain ⟨hok, hreq⟩ := P.asyncTake_ok s.impl i h.ok
  rcases P.asyncTake_outcome s.impl i h.ok with houtcome | houtcome <;> rw [houtcome] at hreq
  · obtain ⟨hfree, hwaiters⟩ := hreq.of_granted
    have hnext : s.acquire i = ⟨(P.asyncTake s.impl i).state, s.calls,
        Function.update s.stage i .acquired, s.acquisitions ++ [i], s.releases⟩ := by
      simp only [Run.acquire, houtcome]
      rfl
    rw [hnext]
    refine h.move htried trivial .acquired trivial hok ?_ (h.acquisitions.join htried id trivial)
      (h.releases.stay htried Iff.rfl) (by rw [hfree]; simp [Stage.held])
    rw [hwaiters]
    exact h.line.stay htried Iff.rfl
  · obtain ⟨hfree, hwaiters⟩ := hreq.of_queued
    have hnext : s.acquire i = ⟨(P.asyncTake s.impl i).state, s.calls,
        Function.update s.stage i .waiting, s.acquisitions, s.releases⟩ := by
      simp only [Run.acquire, houtcome]
      rfl
    rw [hnext]
    refine h.move htried trivial .waiting trivial hok ?_ (h.acquisitions.stay htried Iff.rfl)
      (h.releases.stay htried Iff.rfl) (by rw [hfree]; simp [Stage.held])
    rw [hwaiters]
    exact h.line.join htried id trivial

/-- The cancellation of a queued request. -/
theorem cancel (h : Inv 0 s) (hwaiting : s.stage i = .waiting) : Inv 0 (s.cancel i) := by
  obtain ⟨hok, hfree, hwaiters⟩ := P.unlink_ok s.impl i h.ok
  refine h.move hwaiting trivial .aborting trivial hok ?_ (h.acquisitions.stay hwaiting Iff.rfl)
    (h.releases.stay hwaiting Iff.rfl) (by rw [hfree]; simp [Stage.held])
  rw [hwaiters]
  exact h.line.leave id

/-- The second entry. -/
theorem obtained (h : Inv 0 s) (i : ι) :
    (s.stage i = .acquired → Inv 0 (s.obtained i .success)) ∧
      (s.stage i = .aborting → Inv 0 (s.obtained i .operationAborted)) := by
  constructor
  · intro hstage
    exact h.move hstage trivial .running trivial h.ok (h.line.stay hstage Iff.rfl)
      (h.acquisitions.stay hstage Iff.rfl) (h.releases.stay hstage Iff.rfl) (by simp [Stage.held])
  · intro hstage
    exact h.move hstage trivial (.failed .operationAborted) trivial h.ok
      (h.line.stay hstage Iff.rfl) (h.acquisitions.stay hstage Iff.rfl)
      (h.releases.stay hstage Iff.rfl) (by simp [Stage.held])

/-- The third entry. The permit that it gives back is free or goes to the first waiter. -/
theorem completed (h : Inv 0 s) (hrunning : s.stage i = .running) (args : α) :
    Inv 0 (s.completed i args) := by
  have hcall : i ∈ s.calls := (h.calls.mem_iff i).mpr (by rw [hrunning]; trivial)
  have htaken : P.free s.impl < P.limit := by
    have hpositive : 0 < s.running := tally_pos hcall (by rw [hrunning]; rfl)
    have hbalance := h.balance
    omega
  obtain ⟨hok, hrel⟩ := P.give_ok s.impl h.ok htaken
  generalize hcompleted : (P.give s.impl).completed = completed at hrel
  generalize hfree : P.free (P.give s.impl).state = free at hrel
  generalize hwaiters : P.waiters (P.give s.impl).state = rest at hrel
  generalize hline : P.waiters s.impl = line at hrel
  cases hrel with
  | freed =>
      have hnext : s.completed i args = ⟨(P.give s.impl).state, s.calls,
          Function.update s.stage i (.done args), s.acquisitions, s.releases ++ [i]⟩ := by
        simp only [Run.completed, hcompleted]
        rfl
      rw [hnext]
      refine h.move hrunning trivial (.done args) trivial hok ?_
        (h.acquisitions.stay hrunning Iff.rfl) (h.releases.join hrunning id trivial)
        (by rw [hfree]; simp [Stage.held])
      rw [hwaiters, ← hline]
      exact h.line.stay hrunning Iff.rfl
  | handed j =>
      have hroster : Roster (j :: rest) s.stage Stage.Waiting := hline ▸ h.line
      have hj : s.stage j = .waiting := by
        have hwaits := (hroster.mem_iff j).mp List.mem_cons_self
        cases hstage : s.stage j <;> simp_all [Stage.Waiting]
      -- first the waiter goes on with the permit, then the call is over
      have hgranted : Inv (-1) (⟨(P.give s.impl).state, s.calls,
          Function.update s.stage j .acquired, s.acquisitions ++ [j], s.releases⟩ : Run P α) := by
        refine h.move hj trivial .acquired trivial hok ?_ (h.acquisitions.join hj id trivial)
          (h.releases.stay hj Iff.rfl) (by rw [hfree]; simp only [Stage.held]; omega)
        rw [hwaiters]
        exact hroster.leave_head id
      have hnext : s.completed i args = ⟨(P.give s.impl).state, s.calls,
          Function.update (Function.update s.stage j .acquired) i (.done args),
          s.acquisitions ++ [j], s.releases ++ [i]⟩ := by
        simp only [Run.completed, hcompleted]
        rfl
      rw [hnext]
      have hi : Function.update s.stage j .acquired i = .running := by
        have hne : i ≠ j := by
          rintro rfl
          rw [hrunning] at hj
          cases hj
        rw [Function.update_of_ne hne, hrunning]
      exact hgranted.move hi trivial (.done args) trivial hok (hgranted.line.stay hi Iff.rfl)
        (hgranted.acquisitions.stay hi Iff.rfl) (hgranted.releases.join hi id trivial)
        (by simp only [Stage.held]; omega)

/-- **Every step keeps account of the permits.** -/
theorem step {l : Label ι α} (h : Inv 0 s) (hstep : Guarded.step s l = some t) : Inv 0 t := by
  cases entered hstep with
  | start hidle => exact h.start hidle _
  | acquire htried => exact h.acquire htried
  | cancel hwaiting => exact h.cancel hwaiting
  | obtained hacquired => exact (h.obtained _).1 hacquired
  | aborted haborting => exact (h.obtained _).2 haborting
  | complete hrunning => exact h.completed hrunning _

/-- Nothing is held any more, and nobody waits, when all calls are completed. -/
theorem all_ended (h : Inv 0 s) (hended : ∀ i ∈ s.calls, (s.stage i).Ended) : s.impl = P.init := by
  have hbusy : ∀ p : Stage α → Bool, (∀ st : Stage α, st.Ended → p st = false) →
      tally s.calls s.stage (fun st => p st) = 0 := by
    intro p hp
    rw [tally_eq_zero]
    intro i hi
    simp [hp _ (hended i hi)]
  have hrunning : s.running = 0 := hbusy Stage.isRunning fun st hst => by cases st <;> trivial
  have hflight : s.inFlight = 0 := hbusy Stage.isInFlight fun st hst => by cases st <;> trivial
  have hbalance := h.balance
  have hwaiters : P.waiters s.impl = [] := by
    refine List.eq_nil_iff_forall_not_mem.mpr fun i hi => ?_
    have hwaits := (h.line.mem_iff i).mp hi
    have hcall : i ∈ s.calls := (h.calls.mem_iff i).mpr (by
      cases hstage : s.stage i <;> simp_all [Stage.Waiting, Stage.Started])
    have hend := hended i hcall
    cases hstage : s.stage i <;> simp_all [Stage.Waiting, Stage.Ended]
  exact P.eq_init s.impl h.ok (by omega) hwaiters

end Inv

/-! ## Runs of the guarded calls on a semaphore or a mutex -/

/-- What is guarded with. -/
inductive Kind where
  | semaphore (k : Nat)
  | mutex
  deriving DecidableEq, Repr

namespace Kind

/-- The permits of the primitive. -/
def limit : Kind → Nat
  | semaphore k => k
  | mutex => 1

/-- The primitive. -/
def guardable (ι : Type u) [DecidableEq ι] (enabled : Bool) : Kind → Guardable ι
  | semaphore k => SemaphoreImpl.guardable enabled k
  | mutex => MutexImpl.guardable enabled

/-- The composed operation. -/
def guardBy (enabled : Bool) : (kind : Kind) →
    Run (kind.guardable ι enabled) α → Label ι α → Option (Run (kind.guardable ι enabled) α)
  | semaphore k => guardBySemaphoreOp enabled k
  | mutex => guardByMutexOp enabled

/-- Both composed operations make the same steps. -/
theorem guardBy_eq (enabled : Bool) (kind : Kind) :
    kind.guardBy (ι := ι) (α := α) enabled = step := by
  cases kind <;> rfl

/-- The permits of the model are those of the primitive. -/
theorem guardable_limit (enabled : Bool) (kind : Kind) :
    (kind.guardable ι enabled).limit = kind.limit := by
  cases kind <;> rfl

end Kind

/-- **Guarded calls stay within the limit and give everything back.** In every state of a run of
guarded calls that alone use a semaphore or a mutex: the operations that run, the grants in flight
and the free permits make up the limit; a call that was completed with `operation_aborted` was
never given a permit and gives none back; and when all calls are completed, the primitive is in its
initial state. -/
theorem guarded_within_limit (kind : Kind) (enabled : Bool) (ls : List (Label ι α))
    (s : Run (kind.guardable ι enabled) α)
    (hrun : run (kind.guardBy enabled) (Run.init (kind.guardable ι enabled)) ls = some s) :
    ((s.running + s.inFlight : Int) + (kind.guardable ι enabled).free s.impl = kind.limit ∧
        s.running ≤ kind.limit) ∧
      (∀ i, s.stage i = .failed .operationAborted → i ∉ s.acquisitions ∧ i ∉ s.releases) ∧
      ((∀ i ∈ s.calls, (s.stage i).Ended) → s.impl = (kind.guardable ι enabled).init ∧
        (kind.guardable ι enabled).waiters s.impl = []) := by
  rw [kind.guardBy_eq] at hrun
  have h : Inv 0 s := run_invariant (fun _ _ _ h hstep => h.step hstep) Inv.init hrun
  have hbalance := h.balance
  rw [kind.guardable_limit] at hbalance
  have hfree := (kind.guardable ι enabled).free_nonneg s.impl h.ok
  refine ⟨⟨by omega, by omega⟩, fun i hi => ⟨?_, ?_⟩, fun hended => ?_⟩
  · rw [h.acquisitions.mem_iff, hi]
    exact id
  · rw [h.releases.mem_iff, hi]
    exact id
  · have himpl := h.all_ended hended
    exact ⟨himpl, himpl ▸ (kind.guardable ι enabled).init_ok.2.2⟩

/-- Three calls share one permit: the second one waits for the first one, the third one is cancelled
while it waits, and in the end the permit is free again. -/
theorem guarded_within_limit_three :
    ∃ s t : Run ((Kind.semaphore 1).guardable Nat true) Unit,
      run ((Kind.semaphore 1).guardBy true) (Run.init ((Kind.semaphore 1).guardable Nat true))
        [.start 0 false, .start 1 false, .acquire 1, .start 2 false, .acquire 2, .cancel 2,
          .complete 0 (), .deliver 1, .deliver 2] = some s ∧
      (s.running + s.inFlight : Int) +
        ((Kind.semaphore 1).guardable Nat true).free s.impl = (Kind.semaphore 1).limit ∧
      s.running = 1 ∧ 2 ∉ s.acquisitions ∧ 2 ∉ s.releases ∧
      run ((Kind.semaphore 1).guardBy true) s [.complete 1 ()] = some t ∧
      (∀ i ∈ t.calls, (t.stage i).Ended) ∧
      t.releases = [0, 1] ∧ t.impl = ((Kind.semaphore 1).guardable Nat true).init := by
  obtain ⟨s, t, hs, haborted, hrunning, ht, hstages, hcalls, hreleases⟩ : ∃ s t,
      run ((Kind.semaphore 1).guardBy (ι := Nat) (α := Unit) true)
        (Run.init ((Kind.semaphore 1).guardable Nat true))
          [.start 0 false, .start 1 false, .acquire 1, .start 2 false, .acquire 2, .cancel 2,
            .complete 0 (), .deliver 1, .deliver 2] = some s ∧
      s.stage 2 = .failed .operationAborted ∧ s.running = 1 ∧
      run ((Kind.semaphore 1).guardBy true) s [.complete 1 ()] = some t ∧
      (t.stage 0 = .done () ∧ t.stage 1 = .done () ∧ t.stage 2 = .failed .operationAborted) ∧
      t.calls = [0, 1, 2] ∧ t.releases = [0, 1] :=
    ⟨_, _, rfl, rfl, rfl, rfl, ⟨rfl, rfl, rfl⟩, rfl, rfl⟩
  have hended : ∀ i ∈ t.calls, (t.stage i).Ended := by
    simp [hcalls, hstages, Stage.Ended]
  have hrun := run_append.mpr ⟨s, hs, ht⟩
  obtain ⟨⟨hbalance, -⟩, habort, -⟩ := guarded_within_limit (.semaphore 1) true _ s hs
  obtain ⟨-, -, hover⟩ := guarded_within_limit (.semaphore 1) true _ t hrun
  obtain ⟨hacquisitions, hnone⟩ := habort 2 haborted
  exact ⟨s, t, hs, hbalance, hrunning, hacquisitions, hnone, ht, hended, hreleases,
    (hover hended).1⟩

end Sam.Guarded
