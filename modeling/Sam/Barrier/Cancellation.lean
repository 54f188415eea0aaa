import Sam.Barrier.Interleaving
import Sam.Operation.Withdrawal

/-!
# Cancelled arrivals

The cancellation handler of `async_arrive` completes its op, which unlinks it, and leaves the
counter alone: the arrival stays counted. The retraction of a queued arrival would have to give it
back, as `try_arrive` does. `withdrawn_iff` says which runs treat a cancelled arrival as withdrawn,
namely those without one, and that phases are full there. The sections of `async_arrive` are taken
together here; what falls between them is the subject of the module on interleaved arrivals.
-/

namespace Sam.BarrierImpl

open Transition Withdrawal

universe u

variable {ι : Type u} [DecidableEq ι] {m : BarrierImpl (Op ι)} {op : Op ι} {c : Call ι}

/-! ## An arrival, by whether it is the last one -/

/-- The op that an arrival queues when it is not the last one. -/
def Call.joins (enabled : Bool) : Call ι → List (Op ι)
  | .tryArrive => []
  | .arrive id => if enabled then [.blocking id] else []
  | .asyncArrive id slot => [.async id slot]

/-- How an arrival leaves when it is not the last one. -/
def Call.early (enabled : Bool) : Call ι → Outcome
  | .tryArrive => .refused
  | .arrive _ => if enabled then .queued else .failed .inProgress
  | .asyncArrive _ _ => .queued

/-- An arrival before the last one counts if it waits, and completes nobody. -/
theorem Call.run_of_more (hmore : m.counter ≠ 1) :
    c.run m =
      { state := { m with
          counter := m.counter - (c.joins m.enabled).length
          waiters := m.waiters ++ c.joins m.enabled }
        outcome := c.early m.enabled } := by
  cases c with
  | tryArrive => simp [run, tryArrive_of_more hmore, joins, early]
  | arrive id =>
      cases henabled : m.enabled with
      | false =>
          simp [run, arrive_of_disabled henabled, if_neg hmore, joins, early]
          rw [← henabled]
      | true => simp [run, arrive_of_more henabled hmore, joins, early, henabled]
  | asyncArrive id slot =>
      simp [run, asyncArriveOp, BarrierImpl.asyncArrive, tryArrive_of_more hmore, decrement,
        addWaiter, joins, early]

/-- The last arrival completes the waiters, possibly with its own op, and starts a phase. -/
theorem Call.run_of_last (hlast : m.counter = 1) :
    (c.run m).state = { m with counter := m.init, waiters := [] } ∧
      (c.run m).outcome = .granted ∧
      ((c.run m).completed = m.waiters ∨
        ∃ own ∈ c.request, (c.run m).completed = m.waiters ++ [own]) := by
  cases c with
  | tryArrive => simp [run, tryArrive_of_last hlast]
  | arrive id =>
      cases henabled : m.enabled with
      | false =>
          simp [run, arrive_of_disabled henabled, hlast, tryArrive_of_last hlast, henabled]
      | true => simp [run, arrive_of_last henabled hlast, request, henabled]
  | asyncArrive id slot => simp [run, asyncArriveOp, tryArrive_of_last hlast]

omit [DecidableEq ι] in
/-- An arrival before the last one is not granted. -/
theorem Call.early_ne_granted (c : Call ι) (enabled : Bool) : c.early enabled ≠ .granted := by
  cases c <;> cases enabled <;> simp [early]

/-- How many arrivals get their success from a call that ends a phase: the ops that it completes,
and the call itself when its own op is not among them. -/
def Call.arrivals (m : BarrierImpl (Op ι)) (c : Call ι) : Nat :=
  (c.run m).completed.length + if ∃ own ∈ c.request, own ∈ (c.run m).completed then 0 else 1

/-- The last arrival releases the waiters and itself. -/
theorem Call.arrivals_of_last (hlast : m.counter = 1) (hnew : ∀ own ∈ c.request, own ∉ m.waiters) :
    c.arrivals m = m.waiters.length + 1 := by
  obtain ⟨-, -, hcompleted | ⟨own, hown, hcompleted⟩⟩ := run_of_last (c := c) hlast
  · have hout : ¬ ∃ own ∈ c.request, own ∈ (c.run m).completed := by
      rintro ⟨own, hown, hmem⟩
      exact hnew own hown (hcompleted ▸ hmem)
    rw [arrivals, if_neg hout, hcompleted]
  · have hin : ∃ own ∈ c.request, own ∈ (c.run m).completed := ⟨own, hown, by simp [hcompleted]⟩
    rw [arrivals, if_pos hin, hcompleted, List.length_append, List.length_singleton]

/-! ## What the retraction of an arrival would be -/

/-- The barrier without a queued arrival: it is not counted either. -/
def retract (m : BarrierImpl (Op ι)) (op : Op ι) : BarrierImpl (Op ι) :=
  { m with counter := m.counter + 1, waiters := m.waiters.erase op }

/-- A phase waits for at least one arrival. -/
def Counts (m : BarrierImpl (Op ι)) : Prop := 1 ≤ m.counter ∧ 1 ≤ m.init

omit [DecidableEq ι] in
theorem Counts.counter_ne_zero (h : m.Counts) : m.counter ≠ 0 := by
  obtain ⟨hcounter, -⟩ := h
  omega

omit [DecidableEq ι] in
/-- An arrival before the last one queues at most one op. -/
theorem Call.joins_length (c : Call ι) (enabled : Bool) : (c.joins enabled).length ≤ 1 := by
  cases c <;> cases enabled <;> simp [joins]

/-- Every arrival leaves a phase that waits for somebody. -/
theorem Counts.call (h : m.Counts) (c : Call ι) : (c.run m).state.Counts := by
  obtain ⟨hcounter, hinit⟩ := h
  by_cases hlast : m.counter = 1
  · rw [(Call.run_of_last hlast).1]
    exact ⟨hinit, hinit⟩
  · have hlength := c.joins_length m.enabled
    rw [Call.run_of_more hlast]
    refine ⟨?_, hinit⟩
    show 1 ≤ m.counter - ((c.joins m.enabled).length : Int)
    omega

/-- Only requests queue an op. -/
theorem Call.joins_of_queued (hreq : c.request = some op) (hqueued : (c.run m).outcome = .queued) :
    m.counter ≠ 1 ∧ c.joins m.enabled = [op] := by
  have hmore : m.counter ≠ 1 := by
    intro hlast
    rw [(run_of_last hlast).2.1] at hqueued
    cases hqueued
  rw [run_of_more hmore] at hqueued
  refine ⟨hmore, ?_⟩
  cases c with
  | tryArrive => cases hreq
  | arrive id =>
      obtain rfl := Option.some.inj hreq
      cases henabled : m.enabled <;> simp [early, joins, henabled] at hqueued ⊢
  | asyncArrive id slot =>
      obtain rfl := Option.some.inj hreq
      rfl

/-- An arrival does not see a waiter that it does not complete, if that one is retracted. -/
theorem Call.run_retract (hcounter : m.counter ≠ 0) (hop : op ∈ m.waiters)
    (hdone : op ∉ (c.run m).completed) :
    c.run (m.retract op) = { c.run m with state := (c.run m).state.retract op } := by
  have hmore : m.counter ≠ 1 := by
    intro hlast
    obtain ⟨-, -, hcompleted | ⟨own, -, hcompleted⟩⟩ := run_of_last (c := c) hlast <;>
      exact hdone (by simp [hcompleted, hop])
  have hmore' : (m.retract op).counter ≠ 1 := by
    show m.counter + 1 ≠ 1
    omega
  rw [run_of_more hmore, run_of_more hmore']
  simp only [retract, List.erase_append_left _ hop]
  congr 2
  omega

/-- Queueing an arrival and retracting it again changes nothing. -/
theorem Call.retract_run (hreq : c.request = some op) (hop : op ∉ m.waiters)
    (hqueued : (c.run m).outcome = .queued) : (c.run m).state.retract op = m := by
  obtain ⟨hmore, hjoins⟩ := joins_of_queued hreq hqueued
  rw [run_of_more hmore, hjoins]
  simp [retract, List.erase_append_right _ hop]

/-- The retraction of a queued arrival. Unlinking its op is not enough. -/
def retraction : Retraction (primitive (ι := ι)) where
  retract := retract
  Valid := Counts
  valid_call _ c h := h.call c
  valid_unlink _ _ h := h
  request m c op _ hreq hop hqueued := by
    have hwaiters : op ∉ m.waiters := by simpa [Primitive.queued, primitive] using hop
    exact Call.retract_run hreq hwaiters hqueued
  call m c op h _ hop _ hdone := by
    have hwaiters : op ∈ m.waiters := by simpa [Primitive.queued, primitive] using hop
    exact Call.run_retract h.counter_ne_zero hwaiters hdone
  unlink m op q := by simp [primitive, unlink, retract, List.erase_comm]
  mem_queued m op q hne hq := by
    have hwaiters : q ∈ m.waiters := by simpa [Primitive.queued, primitive] using hq
    simpa [Primitive.queued, primitive, retract] using (List.mem_erase_of_ne hne).mpr hwaiters

/-! ## Runs with and without an arrival that was cancelled -/

/-- The barrier when it waits for one arrival more. -/
def oneMore (m : BarrierImpl (Op ι)) : BarrierImpl (Op ι) := { m with counter := m.counter + 1 }

/-- With one arrival more to come, no arrival is the last one. -/
theorem Call.outcome_oneMore (h : m.Counts) (c : Call ι) :
    (c.run m.oneMore).outcome ≠ .granted := by
  have hmore : m.oneMore.counter ≠ 1 := by
    have hcounter := h.1
    show m.counter + 1 ≠ 1
    omega
  rw [run_of_more hmore]
  exact c.early_ne_granted _

/-- Before the last arrival, nobody sees whether there is one more to come. -/
theorem Call.run_oneMore (h : m.Counts) (hmore : m.counter ≠ 1) :
    c.run m.oneMore = { c.run m with state := (c.run m).state.oneMore } := by
  have hmore' : m.oneMore.counter ≠ 1 := by
    have hcounter := h.1
    show m.counter + 1 ≠ 1
    omega
  rw [run_of_more hmore, run_of_more hmore']
  simp only [oneMore]
  congr 2
  omega

variable {s t s' t' : Observed (primitive (ι := ι))} {l : Label (primitive (ι := ι))}

/-- `t` waits for one arrival more than `s`: that of `op`, which was cancelled in `s` and never made
in `t`. -/
structure Short (op : Op ι) (s t : Observed (primitive (ι := ι))) : Prop where
  gone : Gone op s
  counts : Counts s.world.impl
  impl : t.world.impl = s.world.impl.oneMore
  trace : t.trace = others op s.trace

/-- What was seen in the two runs differs from some place on. -/
def Diverged (op : Op ι) (s t : Observed (primitive (ι := ι))) : Prop :=
  ∃ same e e', e ≠ e' ∧ same ++ [e] <+: others op s.trace ∧ same ++ [e'] <+: t.trace

/-- What was seen stays different. -/
theorem Diverged.step (h : Diverged op s t) (hs : Withdrawal.step s l = some s')
    (ht : Withdrawal.step t l = some t') : Diverged op s' t' := by
  obtain ⟨same, e, e', hne, hfirst, hsecond⟩ := h
  obtain ⟨more, hmore⟩ := step_trace hs
  obtain ⟨more', hmore'⟩ := step_trace ht
  refine ⟨same, e, e', hne, ?_, ?_⟩
  · rw [hmore, others_append]
    exact hfirst.trans (List.prefix_append _ _)
  · rw [hmore']
    exact hsecond.trans (List.prefix_append _ _)

/-- Runs that diverged do not look the same. -/
theorem Diverged.trace_ne (h : Diverged op s t) : t.trace ≠ others op s.trace := by
  obtain ⟨same, e, e', hne, ⟨rest, hrest⟩, ⟨rest', hrest'⟩⟩ := h
  intro heq
  rw [← hrest, ← hrest'] at heq
  simp only [List.append_assoc, List.append_cancel_left_eq, List.singleton_append,
    List.cons.injEq] at heq
  exact hne heq.1.symm

/-- **One arrival short.** An arrival is the last one of a phase in one of the runs only, and then
its caller sees it; until then the missing arrival stays missing. -/
theorem Short.step (h : Short op s t) (hs : Withdrawal.step s l = some s')
    (ht : Withdrawal.step t l = some t') : Short op s' t' ∨ Diverged op s' t' := by
  have hgone := h.gone.step hs
  have hcounts : Counts s'.world.impl := step_valid (R := retraction) h.counts hs
  cases l with
  | cancel q =>
      obtain ⟨⟨hq, hslot⟩, rfl⟩ := guard_iff.mp hs
      obtain ⟨-, rfl⟩ := guard_iff.mp ht
      have hne : q ≠ op := fun he => h.gone.not_queued (he ▸ hq)
      refine Or.inl ⟨hgone, hcounts, ?_, ?_⟩
      · simp only [World.cancel_eq hslot, World.finish_impl, h.impl]
        rfl
      · rw [others_append, h.trace]
        simp [others, Event.About, hne]
  | call c =>
      obtain ⟨hfresh, rfl⟩ := guard_iff.mp hs
      obtain ⟨-, rfl⟩ := guard_iff.mp ht
      obtain ⟨hnodup, hnew, heffect⟩ := World.effect h.gone.inv.append_nil hfresh
      have hreq : c.request ≠ some op := fun hreq => hfresh op hreq h.gone.initiated
      have hdone : op ∉ (c.run s.world.impl).completed := fun hdone =>
        h.gone.not_queued (heffect.completed_subset hreq hdone)
      have hothers := others_seen (w := s.world) (c := c) hreq hdone
      have himpl : t.world.impl = s.world.impl.oneMore := h.impl
      by_cases hlast : s.world.impl.counter = 1
      · right
        have hlate : (primitive.call t.world.impl c).outcome ≠ .granted := by
          rw [himpl]
          exact Call.outcome_oneMore h.counts c
        have hgranted : (primitive.call s.world.impl c).outcome = .granted :=
          (Call.run_of_last hlast).2.1
        refine ⟨others op s.trace, .left c .granted,
          .left c (primitive.call t.world.impl c).outcome, ?_, ?_, ?_⟩
        · exact fun heq => hlate (Event.left.inj heq).2.symm
        · rw [others_append, hothers, ← hgranted]
          exact (List.prefix_append_right_inj _).mpr ⟨_, rfl⟩
        · rw [h.trace]
          exact (List.prefix_append_right_inj _).mpr ⟨_, rfl⟩
      · left
        have hcall : primitive.call t.world.impl c =
            { primitive.call s.world.impl c with
              state := oneMore (primitive.call s.world.impl c).state } := by
          rw [himpl]
          exact Call.run_oneMore h.counts hlast
        refine ⟨hgone, hcounts, ?_, ?_⟩
        · rw [World.call_eq.1, World.call_eq.1, hcall]
        · have hseen : seen t.world c = seen s.world c :=
            seen_congr (by rw [hcall]) (by rw [hcall])
          rw [others_append, hothers, h.trace, hseen]

/-! ## Which runs withdraw what they cancel -/

/-- A new barrier for phases of `init` arrivals. -/
def start (enabled : Bool) (init : Int) : Observed (primitive (ι := ι)) :=
  .init (BarrierImpl.new enabled init : BarrierImpl (Op ι))

/-- **Cancelled arrivals are withdrawn**: without the request of a cancelled op and its cancellation
the run ends in the same state, and the others see the same. -/
def Withdrawn (s₀ : Observed (primitive (ι := ι))) (ls : List (Label (primitive (ι := ι))))
    (s : Observed (primitive (ι := ι))) : Prop :=
  ∀ before (c : Call ι) between op after, c.request = some op →
    ls = before ++ .call c :: between ++ .cancel op :: after →
    ∃ t, run Withdrawal.step s₀ (before ++ between ++ after) = some t ∧
      t.world.impl = s.world.impl ∧ t.trace = others op s.trace

/-- **Full phases**: an arrival that ends a phase releases a phase of arrivals. -/
def FullPhases (init : Int) (s₀ : Observed (primitive (ι := ι)))
    (ls : List (Label (primitive (ι := ι)))) : Prop :=
  ∀ s (c : Call ι), Takes Withdrawal.step s₀ ls s (.call c) →
    (c.run s.world.impl).outcome = .granted → (c.arrivals s.world.impl : Int) = init

variable {ls : List (Label (primitive (ι := ι)))} {init : Int}

/-- The counter and the waiters make up a phase: what a call keeps. -/
theorem call_inv {m : BarrierImpl (Op ι)} (h : Barrier.Inv init ⟨m, []⟩) (c : Call ι) :
    Barrier.Inv init ⟨(c.run m).state, []⟩ := by
  cases c with
  | tryArrive => exact h.tryArrive
  | arrive id => exact h.arrive (.blocking id)
  | asyncArrive id slot =>
      show Barrier.Inv init ⟨(m.asyncArriveOp (.async id slot)).state, []⟩
      by_cases hlast : m.counter = 1
      · rw [asyncArriveOp, tryArrive_of_last hlast]
        exact h.next_phase
      · rw [asyncArriveOp, tryArrive_of_more hlast]
        exact h.queue hlast (.async id slot)

/-- As long as nothing is cancelled, the counter and the waiters make up a phase. -/
theorem run_balanced {enabled : Bool} (hinit : 1 ≤ init) (hkeep : ∀ op, .cancel op ∉ ls)
    (hrun : run Withdrawal.step (start enabled init) ls = some s) :
    Barrier.Inv init ⟨s.world.impl, []⟩ := by
  let Phase (a : Observed (primitive (ι := ι))) : Prop := Barrier.Inv init ⟨a.world.impl, []⟩
  have hcalls : ∀ a l b, l ∈ ls → Phase a → Withdrawal.step a l = some b → Phase b := by
    intro a l b hl ha hab
    rcases step_impl hab with ⟨c, rfl, himpl⟩ | ⟨op, rfl, -⟩
    · show Barrier.Inv init ⟨b.world.impl, []⟩
      rw [himpl]
      exact call_inv ha c
    · exact absurd hl (hkeep op)
  have hstart : Phase (start enabled init) := Barrier.Inv.start enabled hinit
  exact run_invariant_of_mem (I := Phase) hcalls hstart hrun

/-- Without cancellations every phase is full. -/
theorem fullPhases_of_not_cancel {enabled : Bool} (hinit : 1 ≤ init)
    (hkeep : ∀ op, .cancel op ∉ ls) : FullPhases init (start enabled init) ls := by
  rintro s c ⟨before, next, htaken, hrun, hstep⟩ hgranted
  have hbefore : ∀ op, .cancel op ∉ before := fun op hmem =>
    hkeep op (htaken.subset (List.mem_append_left _ hmem))
  have hsum : s.world.impl.counter + s.world.impl.waiters.length = init :=
    (run_balanced hinit hbefore hrun).balanced.2
  have hlast : s.world.impl.counter = 1 := by
    by_contra hmore
    rw [Call.run_of_more hmore] at hgranted
    exact c.early_ne_granted _ hgranted
  have hinv := (run_inv (by rfl) hrun).1
  obtain ⟨hfresh, -⟩ := Option.ite_none_right_eq_some.mp hstep
  obtain ⟨-, hnew, -⟩ := World.effect hinv.append_nil hfresh
  have hwaiters : ∀ own ∈ c.request, own ∉ s.world.impl.waiters := by
    simpa [Primitive.queued, primitive] using hnew
  rw [Call.arrivals_of_last hlast hwaiters]
  omega

/-- A cancelled arrival stays counted: the run without it waits for one arrival more. -/
theorem short_of_cancel {u v w : Observed (primitive (ι := ι))} (h : Hidden retraction op u w)
    (hstep : Withdrawal.step u (.cancel op) = some v) : Short op v w := by
  obtain ⟨hgone, himpl, -, htrace⟩ := h.unlinked hstep
  refine ⟨hgone, step_valid (R := retraction) h.valid hstep, ?_, htrace⟩
  rw [h.impl, himpl]
  rfl

/-- A run that cancels an arrival does not withdraw it. -/
theorem not_withdrawn_of_cancel {enabled : Bool} (hinit : 1 ≤ init)
    (hrun : run Withdrawal.step (start enabled init) ls = some s) (hcancel : .cancel op ∈ ls) :
    ¬ Withdrawn (start enabled init) ls s := by
  intro hwithdrawn
  obtain ⟨first, after, rfl⟩ := List.append_of_mem hcancel
  obtain ⟨u, hu, hrest⟩ := run_append.mp hrun
  obtain ⟨v, hv, hafter⟩ := run_cons.mp hrest
  have hqueued := (Option.ite_none_right_eq_some.mp hv).1.1
  -- the op was requested by a call of the first part
  have hopened := (run_inv (by rfl) hu).1.balanced.opened_of_pending hqueued
  obtain ⟨before, c, between, rfl, hreq⟩ := requested_of_run List.not_mem_nil hu hopened
  obtain ⟨t, ht, himpl, htrace⟩ := hwithdrawn before c between op after hreq rfl
  -- without the call the run reaches a barrier that waits for one arrival more
  have hcounts : (BarrierImpl.new enabled init : BarrierImpl (Op ι)).Counts := ⟨hinit, hinit⟩
  obtain ⟨w, hw, hhidden⟩ := hidden_of_run retraction (by rfl) hcounts hreq hu hqueued
  obtain ⟨w', hw', hlast⟩ := run_append.mp ht
  obtain rfl := Option.some.inj (hw.symm.trans hw')
  have hend : Short op s t ∨ Diverged op s t := by
    have hstep : ∀ (a b : Observed (primitive (ι := ι))) l a' b', Short op a b ∨ Diverged op a b →
        Withdrawal.step a l = some a' → Withdrawal.step b l = some b' →
        Short op a' b' ∨ Diverged op a' b' := by
      intro a b l a' b' hab ha hb
      exact hab.elim (fun h => h.step ha hb) (fun h => Or.inr (h.step ha hb))
    exact run_lockstep hstep (Or.inl (short_of_cancel hhidden hv)) hafter hlast
  rcases hend with hshort | hdiverged
  · have hcounter := congrArg BarrierImpl.counter (hshort.impl.symm.trans himpl)
    simp only [oneMore] at hcounter
    omega
  · exact hdiverged.trace_ne htrace

/-- **When a cancelled arrival is withdrawn.** For phases of at least one arrival, in either mode: a
run withdraws the arrivals that it cancels, and has full phases, exactly when it cancels none. The
arrival of a cancelled op stays counted, so its phase ends with one arrival too few. -/
theorem withdrawn_iff (enabled : Bool) (hinit : 1 ≤ init)
    (hrun : run Withdrawal.step (start enabled init) ls = some s) :
    Withdrawn (start enabled init) ls s ∧ FullPhases init (start enabled init) ls ↔
      ∀ op, .cancel op ∉ ls := by
  constructor
  · intro hboth op hmem
    exact not_withdrawn_of_cancel hinit hrun hmem hboth.1
  · intro hkeep
    refine ⟨?_, fullPhases_of_not_cancel hinit hkeep⟩
    rintro before c between op after - rfl
    exact absurd (by simp) (hkeep op)

/-- The equivalence for a phase of two that nobody leaves. -/
theorem withdrawn_iff_two :
    let arrive : Label (primitive (ι := Nat)) := .call (Call.asyncArrive 0 (some 0))
    let last : Label (primitive (ι := Nat)) := .call Call.tryArrive
    ∃ s, run Withdrawal.step (start true 2) [arrive, last] = some s ∧
      (Withdrawn (start true 2) [arrive, last] s ∧ FullPhases 2 (start true 2) [arrive, last] ↔
        ∀ op, .cancel op ∉ [arrive, last]) :=
  ⟨_, rfl, withdrawn_iff true (by decide) rfl⟩

/-- One of two arrivals is cancelled: the next one opens the barrier alone. -/
theorem opens_one_short :
    let arrive : Label (primitive (ι := Nat)) := .call (Call.asyncArrive 0 (some 0))
    let cancel : Label (primitive (ι := Nat)) := .cancel (.async 0 (some 0))
    let last : Label (primitive (ι := Nat)) := .call Call.tryArrive
    ∃ s, run Withdrawal.step (start true 2) [arrive, cancel, last] = some s ∧
      ¬ (Withdrawn (start true 2) [arrive, cancel, last] s ∧
        FullPhases 2 (start true 2) [arrive, cancel, last]) := by
  intro arrive cancel last
  refine ⟨_, rfl, fun hboth => ?_⟩
  have htakes : ∃ s, Takes Withdrawal.step (start true 2) [arrive, cancel, last] s last ∧
      (Call.run s.world.impl Call.tryArrive).outcome = .granted ∧
      Call.arrivals s.world.impl Call.tryArrive = 1 :=
    ⟨_, ⟨[arrive, cancel], _, List.prefix_refl _, rfl, rfl⟩, rfl, rfl⟩
  obtain ⟨s, hs, hgranted, harrivals⟩ := htakes
  have hfull := hboth.2 s Call.tryArrive hs hgranted
  rw [harrivals] at hfull
  exact absurd hfull (by decide)

end Sam.BarrierImpl
