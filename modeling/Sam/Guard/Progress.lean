import Sam.Guard.Guarded
import Sam.Guard.LockGuard

/-!
# Guarded calls and lock guards come to an end

A call waits for its permit only while all permits are in use. Once no more calls are made, every
further step brings the calls closer to their end, and there is a next step until all of them have
got there. The results are `work_conserving`, `calls_end` and `guards_end`.
-/

namespace Sam

open Tally Transition

universe u v w

variable {ι : Type u} [DecidableEq ι]

/-- Whoever waits waits for permits that are not free. -/
def Guardable.Attended (P : Guardable ι) (s : P.State) : Prop := P.waiters s ≠ [] → P.free s = 0

omit [DecidableEq ι] in
/-- A request waits only if no permit is free. -/
theorem Requested.attended {free free' : Int} {waiters waiters' : List ι} {r : ι}
    {outcome : Outcome} (h : Requested free waiters r outcome free' waiters')
    (hattended : waiters ≠ [] → free = 0) (hwaiters : waiters' ≠ []) : free' = 0 := by
  cases h with
  | granted hfree =>
      have hnone := hattended hwaiters
      omega
  | queued hfree => exact hfree
  | refused | failed => exact hattended hwaiters

omit [DecidableEq ι] in
/-- A permit that is given back is free only if nobody waits. -/
theorem Released.attended {free free' : Int} {waiters waiters' completed : List ι}
    (h : Released free waiters completed free' waiters') (hattended : waiters ≠ [] → free = 0)
    (hwaiters : waiters' ≠ []) : free' = 0 := by
  cases h with
  | freed => exact absurd rfl hwaiters
  | handed r rest => exact hattended (List.cons_ne_nil r waiters')

omit [DecidableEq ι] in
/-- A permit that is given back goes to nobody, or to somebody who waits. -/
theorem Released.completed_cases {free free' : Int} {waiters waiters' completed : List ι}
    (h : Released free waiters completed free' waiters') :
    completed = [] ∨ ∃ r, completed = [r] ∧ r ∈ waiters := by
  cases h with
  | freed => exact Or.inl rfl
  | handed r rest => exact Or.inr ⟨r, rfl, List.mem_cons_self⟩

namespace Guardable

variable {P : Guardable ι}

/-- Nobody waits for a new primitive. -/
theorem attended_init : P.Attended P.init := fun h => absurd P.init_ok.2.2 h

/-- A request that leaves the line leaves the others waiting. -/
theorem Attended.unlink {s : P.State} (h : P.Attended s) (hok : P.Ok s) (op : ι) :
    P.Attended (P.unlink s op) := by
  intro hwaiters
  obtain ⟨-, hfree, hline⟩ := P.unlink_ok s op hok
  rw [hfree]
  exact h fun hnone => hwaiters (by rw [hline, hnone, List.erase_nil])

end Guardable

namespace Guarded

variable {α : Type v} {P : Guardable ι} {s t : Run P α} {l : Label ι α} {i : ι}

/-- The steps that are left for a call in this stage, at most. -/
def Stage.left : Stage α → Nat
  | tried => 4
  | waiting => 3
  | acquired => 2
  | running | aborting => 1
  | idle | failed _ | done _ => 0

/-- The steps that are left for all calls, at most. -/
def Run.left (s : Run P α) : Nat := total s.calls s.stage Stage.left

/-- The permit of a call that is over is free, or goes to a call that waits. -/
theorem Inv.completed_cases (h : Inv 0 s) (hrunning : s.stage i = .running) (args : α) :
    Released (P.free s.impl) (P.waiters s.impl) (P.give s.impl).completed
        (P.free (P.give s.impl).state) (P.waiters (P.give s.impl).state) ∧
      ((s.completed i args).calls = s.calls ∧
        (s.completed i args).impl = (P.give s.impl).state) ∧
      ((s.completed i args).stage = Function.update s.stage i (.done args) ∨
        ∃ j, s.stage j = .waiting ∧ (s.completed i args).stage =
          Function.update (Function.update s.stage j .acquired) i (.done args)) := by
  have hcall : i ∈ s.calls := (h.calls.mem_iff i).mpr (by rw [hrunning]; trivial)
  have htaken : P.free s.impl < P.limit := by
    have hpositive : 0 < s.running := tally_pos hcall (by rw [hrunning]; rfl)
    have hbalance := h.balance
    omega
  obtain ⟨-, hrel⟩ := P.give_ok s.impl h.ok htaken
  refine ⟨hrel, ?_⟩
  rcases hrel.completed_cases with hnone | ⟨j, hone, hj⟩
  · have hnext : s.completed i args = ⟨(P.give s.impl).state, s.calls,
        Function.update s.stage i (.done args), s.acquisitions, s.releases ++ [i]⟩ := by
      simp only [Run.completed, hnone]
      rfl
    rw [hnext]
    exact ⟨⟨rfl, rfl⟩, Or.inl rfl⟩
  · have hwaits := (h.line.mem_iff j).mp hj
    have hstage : s.stage j = .waiting := by
      cases hstage : s.stage j <;> simp_all [Stage.Waiting]
    have hnext : s.completed i args = ⟨(P.give s.impl).state, s.calls,
        Function.update (Function.update s.stage j .acquired) i (.done args),
        s.acquisitions ++ [j], s.releases ++ [i]⟩ := by
      simp only [Run.completed, hone]
      rfl
    rw [hnext]
    exact ⟨⟨rfl, rfl⟩, Or.inr ⟨j, hstage, rfl⟩⟩

/-- A call that starts, or asks for a permit, waits only if none is free. -/
theorem attended_step (h : Inv 0 s) (hattended : P.Attended s.impl) (hstep : step s l = some t) :
    P.Attended t.impl := by
  cases entered hstep with
  | @start i cancelled hidle =>
      cases cancelled with
      | true => exact hattended
      | false =>
          have himpl : (s.start i false).impl = (P.tryTake s.impl).state := by
            simp only [Run.start, Bool.false_eq_true, if_false]
            split <;> rfl
          rw [himpl]
          exact (P.tryTake_ok s.impl i h.ok).2.attended hattended
  | @acquire i htried =>
      have himpl : (s.acquire i).impl = (P.asyncTake s.impl i).state := by
        simp only [Run.acquire]
        split <;> rfl
      rw [himpl]
      exact (P.asyncTake_ok s.impl i h.ok).2.attended hattended
  | @cancel i hwaiting => exact hattended.unlink h.ok i
  | obtained hacquired | aborted haborting => exact hattended
  | @complete i args hrunning =>
      obtain ⟨hrel, ⟨-, himpl⟩, -⟩ := h.completed_cases hrunning args
      rw [himpl]
      exact hrel.attended hattended

/-- **Every step but the start of a call brings the calls closer to their end.** -/
theorem left_step (h : Inv 0 s) (hstep : step s l = some t) (hl : ∀ i c, l ≠ .start i c) :
    t.left < s.left := by
  have hmember : ∀ {i : ι} {st : Stage α}, s.stage i = st → st.Started → i ∈ s.calls :=
    fun hstage hstarted => (h.calls.mem_iff _).mpr (hstage ▸ hstarted)
  -- a call that goes on to another stage has fewer steps left
  have hmoves : ∀ {i : ι} {before : Stage α} (st : Stage α), s.stage i = before →
      before.Started → st.left < before.left →
      total s.calls (Function.update s.stage i st) Stage.left < s.left := by
    intro i before st hstage hstarted hless
    have hmoved := total_update (f := s.stage) (w := Stage.left) h.calls.nodup
      (hmember hstage hstarted) st
    rw [hstage] at hmoved
    show _ < total s.calls s.stage Stage.left
    omega
  cases entered hstep with
  | start hidle => exact absurd rfl (hl _ _)
  | @acquire i htried =>
      simp only [Run.acquire]
      split
      · exact hmoves .acquired htried trivial (by simp [Stage.left])
      · exact hmoves .waiting htried trivial (by simp [Stage.left])
  | cancel hwaiting => exact hmoves .aborting hwaiting trivial (by simp [Stage.left])
  | obtained hacquired => exact hmoves .running hacquired trivial (by simp [Stage.left])
  | aborted haborting =>
      exact hmoves (.failed .operationAborted) haborting trivial (by simp [Stage.left])
  | @complete i args hrunning =>
      obtain ⟨-, ⟨hcalls, -⟩, hstage⟩ := h.completed_cases hrunning args
      show total (s.completed i args).calls (s.completed i args).stage Stage.left < _
      rw [hcalls]
      rcases hstage with hstage | ⟨j, hj, hstage⟩ <;> rw [hstage]
      · exact hmoves (.done args) hrunning trivial (by simp [Stage.left])
      · have hfirst := hmoves .acquired hj trivial (by simp [Stage.left])
        have hne : i ≠ j := by
          rintro rfl
          rw [hrunning] at hj
          cases hj
        have hmoved := total_update (f := Function.update s.stage j .acquired) (w := Stage.left)
          h.calls.nodup (hmember hrunning trivial) (.done args)
        rw [Function.update_of_ne hne, hrunning] at hmoved
        have hdone : (Stage.done args).left = 0 := rfl
        omega

/-- In every state of a run the permits are accounted for, and whoever waits has to. -/
theorem run_attended_inv {ls : List (Label ι α)} (hrun : run step (Run.init P) ls = some s) :
    Inv 0 s ∧ P.Attended s.impl :=
  run_invariant (I := fun s => Inv 0 s ∧ P.Attended s.impl)
    (fun _ _ _ h hstep => ⟨h.1.step hstep, attended_step h.1 h.2 hstep⟩)
    ⟨Inv.init, Guardable.attended_init⟩ hrun

/-- A call that waits has left no permit free. -/
theorem busy_of_waiting (h : Inv 0 s) (hattended : P.Attended s.impl)
    (hwaiting : s.stage i = .waiting) : (s.running + s.inFlight : Int) = P.limit := by
  have hmem : i ∈ P.waiters s.impl := (h.line.mem_iff i).mpr (by rw [hwaiting]; trivial)
  have hfree := hattended (List.ne_nil_of_mem hmem)
  have hbalance := h.balance
  omega

/-- **Permits are not left idle.** In every state of a run of guarded calls that alone use a
semaphore or a mutex, while a call waits for a permit, all permits are used by guarded operations
that run, or on their way to one. -/
theorem work_conserving (kind : Kind) (enabled : Bool) (ls : List (Label ι α))
    (s : Run (kind.guardable ι enabled) α)
    (hrun : run (kind.guardBy enabled) (Run.init (kind.guardable ι enabled)) ls = some s)
    (hwaiting : ∃ i, s.stage i = .waiting) : s.running + s.inFlight = kind.limit := by
  rw [kind.guardBy_eq] at hrun
  obtain ⟨h, hattended⟩ := run_attended_inv hrun
  obtain ⟨i, hi⟩ := hwaiting
  have hbusy := busy_of_waiting h hattended hi
  rw [kind.guardable_limit] at hbusy
  omega

/-- The second call waits for the permit of the first one. -/
theorem work_conserving_two :
    ∃ s : Run ((Kind.semaphore 1).guardable Nat true) Unit,
      run ((Kind.semaphore 1).guardBy true) (Run.init ((Kind.semaphore 1).guardable Nat true))
        [.start 0 false, .start 1 false, .acquire 1] = some s ∧
      s.running + s.inFlight = 1 := by
  obtain ⟨s, hs, hwaiting⟩ : ∃ s, run ((Kind.semaphore 1).guardBy (ι := Nat) (α := Unit) true)
      (Run.init ((Kind.semaphore 1).guardable Nat true))
        [.start 0 false, .start 1 false, .acquire 1] = some s ∧
      s.stage 1 = .waiting := ⟨_, rfl, rfl⟩
  exact ⟨s, hs, work_conserving (.semaphore 1) true _ s hs ⟨1, hwaiting⟩⟩

/-- Somebody whose stage is counted is a call in such a stage. -/
theorem exists_of_busy (hbusy : 0 < s.running + s.inFlight) :
    ∃ i, s.stage i = .running ∨ s.stage i = .acquired := by
  by_contra hnone
  push Not at hnone
  have hrunning : s.running = 0 := tally_eq_zero.mpr fun i _ => by
    have hi := (hnone i).1
    cases hstage : s.stage i <;> simp_all [Stage.isRunning]
  have hflight : s.inFlight = 0 := tally_eq_zero.mpr fun i _ => by
    have hi := (hnone i).2
    cases hstage : s.stage i <;> simp_all [Stage.isInFlight]
  omega

/-- A step of a call that was made: nobody starts or cancels one. -/
def Label.Proceeds : Label ι α → Prop
  | .acquire _ | .deliver _ | .complete .. => True
  | .start .. | .cancel _ => False

/-- No call that was made can take a step. -/
def Stuck (next : Run P α → Label ι α → Option (Run P α)) (s : Run P α) : Prop :=
  ∀ l : Label ι α, l.Proceeds → next s l = none

/-- All calls are over, and the primitive is as it was constructed. -/
def Over (s : Run P α) : Prop := (∀ i ∈ s.calls, (s.stage i).Ended) ∧ s.impl = P.init

/-- Calls that are stuck are over. -/
theorem over_of_stuck [Inhabited α] (h : Inv 0 s) (hattended : P.Attended s.impl)
    (hlimit : 0 < P.limit) (hstuck : Stuck step s) : Over s := by
  have hrunning : ∀ i, s.stage i ≠ .running := by
    intro i hi
    have hnone := hstuck (.complete i default) trivial
    simp [step, hi] at hnone
  have hacquired : ∀ i, s.stage i ≠ .acquired := by
    intro i hi
    have hnone := hstuck (.deliver i) trivial
    simp [step, hi] at hnone
  have hended : ∀ i ∈ s.calls, (s.stage i).Ended := by
    intro i hi
    have hstarted := (h.calls.mem_iff i).mp hi
    cases hstage : s.stage i with
    | idle =>
        rw [hstage] at hstarted
        exact hstarted.elim
    | tried =>
        have hnone := hstuck (.acquire i) trivial
        simp [step, hstage] at hnone
    | waiting =>
        -- it waits, so somebody else holds a permit, and is not stuck
        have hbusy := busy_of_waiting h hattended hstage
        obtain ⟨j, hj⟩ := exists_of_busy (s := s) (by omega)
        exact absurd hj (not_or.mpr ⟨hrunning j, hacquired j⟩)
    | acquired => exact absurd hstage (hacquired i)
    | aborting =>
        have hnone := hstuck (.deliver i) trivial
        simp [step, hstage] at hnone
    | running => exact absurd hstage (hrunning i)
    | failed ec | done args => trivial
  exact ⟨hended, h.all_ended hended⟩

/-- Calls that are over take no more steps. -/
theorem stuck_of_over (h : Inv 0 s) (hover : Over s) : Stuck step s := by
  intro l hl
  refine Option.eq_none_iff_forall_ne_some.mpr fun t hstep => ?_
  have hended : ∀ {i : ι} {st : Stage α}, s.stage i = st → st.Started → st.Ended :=
    fun hstage hstarted =>
      hstage ▸ hover.1 _ ((h.calls.mem_iff _).mpr (hstage ▸ hstarted))
  cases entered hstep with
  | start hidle => exact hl
  | cancel hwaiting => exact hl
  | acquire htried => exact hended htried trivial
  | obtained hacquired => exact hended hacquired trivial
  | aborted haborting => exact hended haborting trivial
  | complete hrunning => exact hended hrunning trivial

/-- What is left to do for the calls of `s` when no more calls start; `more` is what happens until
`t`. -/
structure ComesToAnEnd (kind : Kind) (enabled : Bool) (s : Run (kind.guardable ι enabled) α)
    (more : List (Label ι α)) (t : Run (kind.guardable ι enabled) α) : Prop where
  /-- at most four steps for each call -/
  bounded : more.length ≤ 4 * s.calls.length
  /-- the calls go on by themselves until they are over -/
  over_iff : Stuck (kind.guardBy enabled) t ↔ Over t

/-- **Guarded calls come to an end.** From every state of a run of guarded calls that alone use a
semaphore with permits or a mutex: if no more calls start, at most four steps are left for each of
them, in whatever order they are taken and whoever is cancelled; and some call can take a step of
its own until every call is over and the primitive is as it was constructed. -/
theorem calls_end [Inhabited α] (kind : Kind) (hlimit : 0 < kind.limit) (enabled : Bool)
    (ls : List (Label ι α)) (s : Run (kind.guardable ι enabled) α)
    (hrun : run (kind.guardBy enabled) (Run.init (kind.guardable ι enabled)) ls = some s)
    (more : List (Label ι α)) (hmore : ∀ l ∈ more, ∀ i c, l ≠ .start i c)
    (t : Run (kind.guardable ι enabled) α) (hrun' : run (kind.guardBy enabled) s more = some t) :
    ComesToAnEnd kind enabled s more t := by
  rw [kind.guardBy_eq] at hrun hrun'
  have hs := run_attended_inv hrun
  have ht := run_attended_inv (run_append.mpr ⟨s, hrun, hrun'⟩)
  constructor
  · have hlength := run_length_le Run.left (I := Inv 0)
      (fun u l v hl h hstep => ⟨h.step hstep, left_step h hstep (hmore l hl)⟩) hs.1 hrun'
    have hleft : s.left ≤ 4 * s.calls.length :=
      total_le fun i _ => by cases s.stage i <;> simp [Stage.left]
    omega
  · rw [kind.guardBy_eq]
    exact ⟨over_of_stuck ht.1 ht.2 (by rw [kind.guardable_limit]; omega), stuck_of_over ht.1⟩

/-- The two calls come to an end: neither can take another step. -/
theorem calls_end_two :
    ∃ s t : Run ((Kind.semaphore 1).guardable Nat true) Unit,
      run ((Kind.semaphore 1).guardBy true) (Run.init ((Kind.semaphore 1).guardable Nat true))
        [.start 0 false, .start 1 false, .acquire 1] = some s ∧
      run ((Kind.semaphore 1).guardBy true) s [.complete 0 (), .deliver 1, .complete 1 ()] =
        some t ∧ t.calls = [0, 1] ∧ t.releases = [0, 1] ∧ 3 ≤ 4 * s.calls.length ∧
      Stuck ((Kind.semaphore 1).guardBy true) t ∧ Over t := by
  obtain ⟨s, t, hs, ht, hcalls, hreleases, hzero, hone, hothers⟩ : ∃ s t,
      run ((Kind.semaphore 1).guardBy (ι := Nat) (α := Unit) true)
        (Run.init ((Kind.semaphore 1).guardable Nat true))
          [.start 0 false, .start 1 false, .acquire 1] = some s ∧
      run ((Kind.semaphore 1).guardBy true) s [.complete 0 (), .deliver 1, .complete 1 ()] =
        some t ∧ t.calls = [0, 1] ∧ t.releases = [0, 1] ∧
      t.stage 0 = .done () ∧ t.stage 1 = .done () ∧ ∀ i, t.stage (i + 2) = .idle :=
    ⟨_, _, rfl, rfl, rfl, rfl, rfl, rfl, fun i => rfl⟩
  have hend := calls_end (.semaphore 1) Nat.zero_lt_one true _ s hs _
    (fun l hl i c hstart => by simp [hstart] at hl) t ht
  have hstages : ∀ i, t.stage i = .done () ∨ t.stage i = .idle := by
    intro i
    rcases i with _ | _ | i
    · exact Or.inl hzero
    · exact Or.inl hone
    · exact Or.inr (hothers i)
  have hstuck : Stuck ((Kind.semaphore 1).guardBy true) t := by
    intro l hl
    show step t l = none
    cases l with
    | start i cancelled => exact hl.elim
    | acquire i | cancel i | deliver i | complete i args =>
        rcases hstages i with hdone | hidle
        · simp [step, hdone]
        · simp [step, hidle]
  exact ⟨s, t, hs, ht, hcalls, hreleases, hend.bounded, hstuck, hend.over_iff.mp hstuck⟩

end Guarded

namespace LockGuard

variable {μ : Type v} {γ : Type w} [DecidableEq μ] [DecidableEq γ] {L : μ → Lockable ι}
  {s t : Run L γ} {l : Label ι μ γ} {g : γ}

/-- The steps that are left for a call in this stage, at most. -/
def Stage.left : Stage μ → Nat
  | blocked _ | waiting _ => 3
  | granted _ | aborted => 2
  | idle | locked | failed => 0

/-- The steps that are left for all calls and guards, at most. -/
def Run.left (s : Run L γ) : Nat := total s.calls s.stage Stage.left + s.guards.length

/-- The end of a wait or of a guard: no call and no move. -/
def Label.WindsDown : Label ι μ γ → Prop
  | .cancel _ | .deliver .. | .destroy _ => True
  | _ => False

/-- At every mutex, whoever waits has to. -/
def Attended (s : Run L γ) : Prop := ∀ m, (L m).Attended (s.impl m)

omit [DecidableEq γ] in
/-- The others are as they were. -/
theorem Attended.update (h : Attended s) {m : μ} {impl : (L m).State} (hm : (L m).Attended impl)
    (n : μ) : (L n).Attended (Function.update s.impl m impl n) := by
  by_cases hn : n = m
  · subst hn
    rwa [Function.update_self]
  · rw [Function.update_of_ne hn]
    exact h n

omit [DecidableEq μ] [DecidableEq γ] in
/-- A grant changes the stages of calls only. -/
theorem grant_same (s : Run L γ) (m : μ) (ops : List ι) :
    (s.grant m ops).impl = s.impl ∧ (s.grant m ops).calls = s.calls ∧
      (s.grant m ops).guards = s.guards := by
  induction ops generalizing s with
  | nil => exact ⟨rfl, rfl, rfl⟩
  | cons j ops ih => exact ih (s.move j (.granted m))

/-- The lock of a guard that is destroyed is free, or goes to a call that waits. -/
theorem destroy_cases (h : Inv none s) (hattended : Attended s) (hg : g ∈ s.guards) :
    Attended (s.destroy g) ∧ (s.destroy g).calls = s.calls ∧
      (s.destroy g).guards = s.guards.erase g ∧
      ((s.destroy g).stage = s.stage ∨ ∃ j m, (s.stage j).WaitsFor m ∧
        (s.destroy g).stage = Function.update s.stage j (.granted m)) := by
  have hhand := h.erase hg
  cases hmtx : s.mtx g with
  | none =>
      have hnext : s.destroy g = { s with guards := s.guards.erase g } := by
        simp only [Run.destroy, hmtx]
      rw [hnext]
      exact ⟨hattended, rfl, rfl, Or.inl rfl⟩
  | some p =>
      obtain ⟨m, i⟩ := p
      rw [hmtx] at hhand
      have htaken : (L m).free (s.impl m) < (L m).limit := by
        have hbalance := (hhand.accounts m).balance
        change _ + (L m).free (s.impl m) = 1 at hbalance
        have htoken : weight (RefersTo m) (some (m, i)) = 1 := weight_of rfl
        have hlimit := (L m).limit_eq
        omega
      obtain ⟨-, hrel⟩ := (L m).give_ok (s.impl m) (h.accounts m).ok htaken
      simp only [Run.destroy, hmtx]
      obtain ⟨himpl, hcalls, hguards⟩ := grant_same (s := { s with
        guards := s.guards.erase g
        impl := Function.update s.impl m ((L m).give (s.impl m)).state
        unlocks := s.unlocks ++ [i] }) m ((L m).give (s.impl m)).completed
      refine ⟨?_, hcalls, hguards, ?_⟩
      · intro n
        rw [himpl]
        exact hattended.update (hrel.attended (hattended m)) n
      · rcases hrel.completed_cases with hnone | ⟨j, hone, hj⟩
        · rw [hnone]
          exact Or.inl rfl
        · rw [hone]
          exact Or.inr ⟨j, m, ((h.accounts m).line.mem_iff j).mp hj, rfl⟩

/-- A call waits only if the lock is not free. -/
theorem attended_step (h : Inv none s) (hattended : Attended s) (hstep : step s l = some t) :
    Attended t := by
  cases l with
  | lock i m throws g =>
      obtain ⟨⟨hidle, hg⟩, rfl⟩ := guard_iff.mp hstep
      have hop : i ∉ (L m).waiters (s.impl m) := by
        rw [(h.accounts m).line.mem_iff, hidle]
        exact id
      have himpl : (s.lock i m throws g).impl =
          Function.update s.impl m ((L m).take (s.impl m) i).state := by
        simp only [Run.lock]
        split
        · rfl
        · rfl
        · split <;> rfl
      intro n
      rw [himpl]
      exact hattended.update
        (((L m).take_ok (s.impl m) i (h.accounts m).ok hop).2.attended (hattended m)) n
  | asyncLock i m =>
      obtain ⟨hidle, rfl⟩ := guard_iff.mp hstep
      have himpl : (s.asyncLock i m).impl =
          Function.update s.impl m ((L m).asyncTake (s.impl m) i).state := by
        simp only [Run.asyncLock]
        split <;> rfl
      intro n
      rw [himpl]
      exact hattended.update
        (((L m).asyncTake_ok (s.impl m) i (h.accounts m).ok).2.attended (hattended m)) n
  | cancel i =>
      simp only [step] at hstep
      split at hstep
      · obtain rfl := Option.some.inj hstep
        exact hattended.update ((hattended _).unlink (h.accounts _).ok i)
      · cases hstep
  | deliver i g =>
      obtain ⟨-, hstep⟩ := Option.ite_none_right_eq_some.mp hstep
      split at hstep
      · exact Option.some.inj hstep ▸ hattended
      · exact Option.some.inj hstep ▸ hattended
      · cases hstep
  | moveConstruct g lhs | moveAssign g lhs =>
      obtain ⟨-, rfl⟩ := guard_iff.mp hstep
      exact hattended
  | destroy g =>
      obtain ⟨hg, rfl⟩ := guard_iff.mp hstep
      exact (destroy_cases h hattended hg).1

/-- **Every step but a call and a move brings the calls and guards closer to their end.** -/
theorem left_step (h : Inv none s) (hattended : Attended s) (hstep : step s l = some t)
    (hdown : l.WindsDown) : t.left < s.left := by
  have hmoved : ∀ {i : ι} {before : Stage μ} (st : Stage μ), s.stage i = before →
      before.Started → total s.calls (Function.update s.stage i st) Stage.left + before.left =
        total s.calls s.stage Stage.left + st.left := by
    intro i before st hstage hstarted
    have hcall : i ∈ s.calls := (h.calls.mem_iff i).mpr (hstage ▸ hstarted)
    rw [← hstage]
    exact total_update h.calls.nodup hcall st
  cases l with
  | lock | asyncLock | moveConstruct | moveAssign => exact hdown.elim
  | cancel i =>
      simp only [step] at hstep
      split at hstep
      · rename_i m hstage
        obtain rfl := Option.some.inj hstep
        have hcalls := hmoved .aborted hstage trivial
        simp only [Stage.left] at hcalls
        show total s.calls (Function.update s.stage i .aborted) Stage.left + s.guards.length <
          total s.calls s.stage Stage.left + s.guards.length
        omega
      · cases hstep
  | deliver i g =>
      obtain ⟨-, hstep⟩ := Option.ite_none_right_eq_some.mp hstep
      have hcreated : ∀ {before : Stage μ} (st : Stage μ) (p : Option (μ × ι)),
          s.stage i = before → before.Started → before.left = 2 → st.left = 0 →
          ((s.move i st).create g p).left < s.left := by
        intro before st p hstage hstarted hbefore hafter
        have hcalls := hmoved st hstage hstarted
        show total s.calls (Function.update s.stage i st) Stage.left + (s.guards ++ [g]).length <
          total s.calls s.stage Stage.left + s.guards.length
        rw [List.length_append, List.length_singleton]
        omega
      split at hstep
      · rename_i m hstage
        exact Option.some.inj hstep ▸ hcreated .locked (some (m, i)) hstage trivial rfl rfl
      · rename_i hstage
        exact Option.some.inj hstep ▸ hcreated .failed none hstage trivial rfl rfl
      · cases hstep
  | destroy g =>
      obtain ⟨hg, rfl⟩ := guard_iff.mp hstep
      obtain ⟨-, hcalls, hguards, hstage⟩ := destroy_cases h hattended hg
      have hlength : (s.guards.erase g).length + 1 = s.guards.length :=
        List.length_erase_add_one hg
      show total (s.destroy g).calls (s.destroy g).stage Stage.left + (s.destroy g).guards.length <
        total s.calls s.stage Stage.left + s.guards.length
      rw [hcalls, hguards]
      rcases hstage with hstage | ⟨j, m, hj, hstage⟩ <;> rw [hstage]
      · omega
      · have hgranted := hmoved (.granted m) rfl hj.facts.1
        have hbefore : (s.stage j).left = 3 := by
          cases hstage : s.stage j <;> simp_all [Stage.WaitsFor, Stage.left]
        have hafter : (Stage.granted m).left = 2 := rfl
        omega

/-- In every state of a run the locks are accounted for, and whoever waits has to. -/
theorem run_attended_inv {ls : List (Label ι μ γ)} (hrun : run step (Run.init L) ls = some s) :
    Inv none s ∧ Attended s :=
  run_invariant (I := fun s => Inv none s ∧ Attended s)
    (fun _ _ _ h hstep => ⟨h.1.step hstep, attended_step h.1 h.2 hstep⟩)
    ⟨Inv.init, fun _ => Guardable.attended_init⟩ hrun

/-- A completion is delivered or a guard destroyed: nobody calls, moves or cancels. -/
def Label.Proceeds : Label ι μ γ → Prop
  | .deliver .. | .destroy _ => True
  | _ => False

/-- There is no completion to deliver and no guard to destroy. -/
def Stuck (s : Run L γ) : Prop := ∀ l : Label ι μ γ, l.Proceeds → step s l = none

/-- Every call has returned, and every lock that a call got was given back once. -/
structure Over (s : Run L γ) : Prop where
  guards : s.guards = []
  returned : ∀ i ∈ s.calls, s.stage i = .locked ∨ s.stage i = .failed
  unlocked : ∀ i, s.stage i = .locked → s.unlocks.count i = 1
  impl : ∀ m, s.impl m = (L m).init

/-- Calls and guards that are stuck are over. -/
theorem over_of_stuck [Inhabited γ] (h : Inv none s) (hattended : Attended s) (hstuck : Stuck s) :
    Over s := by
  have hguards : s.guards = [] := by
    refine List.eq_nil_iff_forall_not_mem.mpr fun g hg => ?_
    have hnone := hstuck (.destroy g) trivial
    simp [step, hg] at hnone
  have hflight : ∀ i m, s.stage i ≠ .granted m := by
    intro i m hi
    have hnone := hstuck (.deliver i default) trivial
    simp [step, hguards, hi] at hnone
  have haborted : ∀ i, s.stage i ≠ .aborted := by
    intro i hi
    have hnone := hstuck (.deliver i default) trivial
    simp [step, hguards, hi] at hnone
  have hfree : ∀ m, (L m).free (s.impl m) = 1 := by
    intro m
    have hbalance := (h.accounts m).balance
    have howners : s.owners m = 0 := by simp [Run.owners, hguards]
    have hgranted : s.inFlight m = 0 := tally_eq_zero.mpr fun i _ => by
      have hi := hflight i m
      cases hstage : s.stage i <;> simp_all [Stage.GrantedBy]
    rw [weight_refersTo_none] at hbalance
    omega
  have hwaiters : ∀ m, (L m).waiters (s.impl m) = [] := by
    intro m
    by_contra hwaits
    have hnone := hattended m hwaits
    have hone := hfree m
    omega
  refine ⟨hguards, fun i hi => ?_, fun i hi => ?_, fun m => ?_⟩
  · have hstarted := (h.calls.mem_iff i).mp hi
    cases hstage : s.stage i with
    | idle =>
        rw [hstage] at hstarted
        exact hstarted.elim
    | blocked m | waiting m =>
        have hmem : i ∈ (L m).waiters (s.impl m) :=
          ((h.accounts m).line.mem_iff i).mpr (by rw [hstage]; rfl)
        rw [hwaiters m] at hmem
        exact absurd hmem List.not_mem_nil
    | granted m => exact absurd hstage (hflight i m)
    | aborted => exact absurd hstage (haborted i)
    | locked => exact Or.inl rfl
    | failed => exact Or.inr rfl
  · have htoken := h.tokens i
    have howning : s.owning i = 0 := by simp [Run.owning, hguards]
    have hone : weight Stage.Locked (s.stage i) = 1 := weight_of (by rw [hi]; trivial)
    rw [weight_owns_none] at htoken
    omega
  · exact (L m).eq_init (s.impl m) (h.accounts m).ok (by rw [hfree m, (L m).limit_eq])
      (hwaiters m)

/-- When all is over there is nothing to deliver and nothing to destroy. -/
theorem stuck_of_over (h : Inv none s) (hover : Over s) : Stuck s := by
  have hended : ∀ i, s.stage i = .idle ∨ s.stage i = .locked ∨ s.stage i = .failed := by
    intro i
    by_cases hi : i ∈ s.calls
    · exact Or.inr (hover.returned i hi)
    · have hstarted := mt (h.calls.mem_iff i).mpr hi
      cases hstage : s.stage i <;> simp_all [Stage.Started]
  intro l hl
  cases l with
  | deliver i g => rcases hended i with hi | hi | hi <;> simp [step, hi]
  | destroy g => simp [step, hover.guards]
  | lock | asyncLock | cancel | moveConstruct | moveAssign => exact hl.elim

/-- What is left to do for the calls and guards of `s` when no more calls are made and no more
guards are moved; `more` is what happens until `t`. -/
structure ComesToAnEnd (s : Run L γ) (more : List (Label ι μ γ)) (t : Run L γ) : Prop where
  /-- at most three steps for each call, and one for each guard -/
  bounded : more.length ≤ 3 * s.calls.length + s.guards.length
  /-- there is one to take until all is over -/
  over_iff : Stuck t ↔ Over t

/-- **Lock guards come to an end.** From every state of a run in which mutexes are locked with the
free functions only: if no more calls are made and no more guards are moved, at most three steps are
left for each call and one for each guard, in whatever order they are taken and whoever is
cancelled; and there is a completion to deliver or a guard to destroy until there are no guards,
every call has returned, every lock that a call got was given back once, and every mutex is as it
was constructed. -/
theorem guards_end [Inhabited γ] (kind : μ → Kind) (enabled : μ → Bool) (ls : List (Label ι μ γ))
    (s : Run (fun m => (kind m).lockable ι (enabled m)) γ)
    (hrun : run step (Run.init fun m => (kind m).lockable ι (enabled m)) ls = some s)
    (more : List (Label ι μ γ)) (hmore : ∀ l ∈ more, l.WindsDown)
    (t : Run (fun m => (kind m).lockable ι (enabled m)) γ) (hrun' : run step s more = some t) :
    ComesToAnEnd s more t := by
  have hs := run_attended_inv hrun
  have ht := run_attended_inv (run_append.mpr ⟨s, hrun, hrun'⟩)
  refine ⟨?_, over_of_stuck ht.1 ht.2, stuck_of_over ht.1⟩
  have hlength := run_length_le Run.left (I := fun s => Inv none s ∧ Attended s)
    (fun u l v hl h hstep => ⟨⟨h.1.step hstep, attended_step h.1 h.2 hstep⟩,
      left_step h.1 h.2 hstep (hmore l hl)⟩) hs hrun'
  have hleft : total s.calls s.stage Stage.left ≤ 3 * s.calls.length :=
    total_le fun i _ => by cases s.stage i <;> simp [Stage.left]
  have hsum : s.left = total s.calls s.stage Stage.left + s.guards.length := rfl
  omega

/-- A guard is destroyed, the lock goes to a call that waits, and its guard is destroyed as well:
nothing is left to do. -/
theorem guards_end_two :
    ∃ s t : Run (fun _ : Unit => Kind.mutex.lockable Nat true) Nat,
      run step (Run.init fun _ : Unit => Kind.mutex.lockable Nat true)
        [.lock 0 () true 0, .asyncLock 1 ()] = some s ∧
      run step s [.destroy 0, .deliver 1 1, .destroy 1] = some t ∧ t.calls = [0, 1] ∧
      t.unlocks = [0, 1] ∧ 3 ≤ 3 * s.calls.length + s.guards.length ∧ Stuck t ∧ Over t := by
  obtain ⟨s, t, hs, ht, hcalls, hunlocks, hguards, hzero, hone, hothers⟩ : ∃ s t,
      run step (Run.init fun _ : Unit => Kind.mutex.lockable Nat true)
        [.lock 0 () true 0, .asyncLock 1 ()] = some s ∧
      run step s [.destroy 0, .deliver 1 1, .destroy 1] = some t ∧ t.calls = [0, 1] ∧
      t.unlocks = [0, 1] ∧ t.guards = [] ∧
      t.stage 0 = .locked ∧ t.stage 1 = .locked ∧ ∀ i, t.stage (i + 2) = .idle :=
    ⟨_, _, rfl, rfl, rfl, rfl, rfl, rfl, rfl, fun i => rfl⟩
  have hwinds : ∀ l ∈ [.destroy 0, .deliver 1 1, .destroy 1],
      (l : Label Nat Unit Nat).WindsDown := by
    intro l hl
    simp only [List.mem_cons, List.not_mem_nil, or_false] at hl
    rcases hl with rfl | rfl | rfl <;> trivial
  have hend := guards_end (fun _ : Unit => Kind.mutex) (fun _ => true) _ s hs _ hwinds t ht
  have hstages : ∀ i, t.stage i = .locked ∨ t.stage i = .idle := by
    intro i
    rcases i with _ | _ | i
    · exact Or.inl hzero
    · exact Or.inl hone
    · exact Or.inr (hothers i)
  have hstuck : Stuck t := by
    intro l hl
    cases l with
    | deliver i g => rcases hstages i with hi | hi <;> simp [step, hi]
    | destroy g => simp [step, hguards]
    | lock | asyncLock | cancel | moveConstruct | moveAssign => exact hl.elim
  exact ⟨s, t, hs, ht, hcalls, hunlocks, hend.bounded, hstuck, hend.over_iff.mp hstuck⟩

end LockGuard

end Sam
