import Sam.Library.Transition
import Sam.Operation.Kinds
import Sam.Operation.World

/-!
# Withdrawing a request

Runs of calls and cancellations with a trace of what the callers see. A `Retraction` says how the
state of a primitive looks without one of its queued ops, and that no call sees the difference
unless it completes that op. `Hidden` relates a run to the same run without the request of a queued
op, and `Withdrawn` goes on from there once the op has been cancelled; what a cancellation leaves
behind is the difference between `unlink` and the retraction.
-/

namespace Sam.Withdrawal

open Transition

universe u

variable {ι : Type u} [DecidableEq ι]

/-- What callers see: how a call left its section, and how an op ended. -/
inductive Event (P : Primitive ι) where
  | left (c : P.Call) (outcome : Outcome)
  | ended (op : Op ι) (how : Ended)

/-- A primitive with its ops, and what callers have seen, in order. -/
structure Observed (P : Primitive ι) where
  world : World P
  trace : List (Event P)

/-- The steps of a run: a call, or a signal whose handler cancels an op that waits. -/
inductive Label (P : Primitive ι) where
  | call (c : P.Call)
  | cancel (op : Op ι)

variable {P : Primitive ι}

/-- A new primitive. -/
def Observed.init (s : P.State) : Observed P := ⟨.init s, []⟩

/-- What the callers see of a call. -/
def seen (w : World P) (c : P.Call) : List (Event P) :=
  .left c (P.call w.impl c).outcome :: (w.entries c).map fun e => .ended e.1 e.2

/-- One step. Requests are new; only an op that waits and has a slot is cancelled. -/
def step (s : Observed P) : Label P → Option (Observed P)
  | .call c =>
      if s.world.Fresh c then
        some { world := s.world.call c, trace := s.trace ++ seen s.world c }
      else none
  | .cancel op =>
      if op ∈ P.queued s.world.impl ∧ op.slot ≠ none then
        some
          { world := s.world.cancel op
            trace := s.trace ++ [.ended op (op.completed .operationAborted)] }
      else none

/-- The event concerns the request of this op. -/
def Event.About (op : Op ι) : Event P → Prop
  | .left c _ => P.request c = some op
  | .ended q _ => q = op

instance (op : Op ι) : DecidablePred (Event.About (P := P) op) := fun e => by
  cases e
  · exact inferInstanceAs (Decidable (_ = some op))
  · exact inferInstanceAs (Decidable (_ = op))

/-- What the others see. -/
def others (op : Op ι) (trace : List (Event P)) : List (Event P) :=
  trace.filter fun e => ¬ e.About op

theorem others_append (op : Op ι) (first rest : List (Event P)) :
    others op (first ++ rest) = others op first ++ others op rest := List.filter_append ..

/-- How a primitive looks without one of its queued ops. The laws hold in the states that satisfy
`Valid`. -/
structure Retraction (P : Primitive ι) where
  retract : P.State → Op ι → P.State
  Valid : P.State → Prop
  valid_call : ∀ s c, Valid s → Valid (P.call s c).state
  valid_unlink : ∀ s op, Valid s → Valid (P.unlink s op)
  /-- Queueing an op and retracting it again changes nothing. -/
  request : ∀ s c op, Valid s → P.request c = some op → op ∉ P.queued s →
    (P.call s c).outcome = .queued → retract (P.call s c).state op = s
  /-- A call that does not complete the op does not see it. -/
  call : ∀ s c op, Valid s → (P.queued s).Nodup → op ∈ P.queued s →
    (∀ q ∈ P.request c, q ∉ P.queued s) → op ∉ (P.call s c).completed →
    P.call (retract s op) c = { P.call s c with state := retract (P.call s c).state op }
  /-- Nor does a cancellation of another op. -/
  unlink : ∀ s op q, P.unlink (retract s op) q = retract (P.unlink s q) op
  mem_queued : ∀ s op q, q ≠ op → q ∈ P.queued s → q ∈ P.queued (retract s op)

/-! ## A run and the same run without a request -/

variable {R : Retraction P} {s s' t : Observed P} {l : Label P} {op : Op ι}

/-- `t` is `s` without the request of the queued op `op`. -/
structure Hidden (R : Retraction P) (op : Op ι) (s t : Observed P) : Prop where
  inv : s.world.Inv
  valid : R.Valid s.world.impl
  queued : op ∈ P.queued s.world.impl
  impl : t.world.impl = R.retract s.world.impl op
  initiated : t.world.initiated ⊆ s.world.initiated
  trace : t.trace = others op s.trace

/-- The op was requested and does not wait any more. -/
structure Gone (op : Op ι) (s : Observed P) : Prop where
  inv : s.world.Inv
  initiated : op ∈ s.world.initiated
  not_queued : op ∉ P.queued s.world.impl

/-- Every step keeps the invariant, and the retraction's condition. -/
theorem step_inv (h : s.world.Inv) (hstep : step s l = some s') : s'.world.Inv := by
  cases l with
  | call c =>
      obtain ⟨hfresh, rfl⟩ := guard_iff.mp hstep
      exact h.call hfresh
  | cancel q =>
      obtain ⟨⟨hq, -⟩, rfl⟩ := guard_iff.mp hstep
      exact h.cancel hq

/-- What a step leaves in the primitive. -/
theorem step_impl (hstep : step s l = some s') :
    (∃ c, l = .call c ∧ s'.world.impl = (P.call s.world.impl c).state) ∨
      ∃ q, l = .cancel q ∧ s'.world.impl = P.unlink s.world.impl q := by
  cases l with
  | call c =>
      obtain ⟨-, rfl⟩ := guard_iff.mp hstep
      exact Or.inl ⟨c, rfl, World.call_eq.1⟩
  | cancel q =>
      obtain ⟨⟨-, hslot⟩, rfl⟩ := guard_iff.mp hstep
      exact Or.inr ⟨q, rfl, by rw [World.cancel_eq hslot, World.finish_impl]⟩

/-- Every step keeps the condition of a retraction. -/
theorem step_valid (h : R.Valid s.world.impl) (hstep : step s l = some s') :
    R.Valid s'.world.impl := by
  rcases step_impl hstep with ⟨c, -, himpl⟩ | ⟨q, -, himpl⟩ <;> rw [himpl]
  · exact R.valid_call _ c h
  · exact R.valid_unlink _ q h

/-- Requests are never forgotten. -/
theorem step_initiated (hstep : step s l = some s') : s.world.initiated ⊆ s'.world.initiated := by
  cases l with
  | call c =>
      obtain ⟨-, rfl⟩ := guard_iff.mp hstep
      rw [World.call_eq.2.1]
      exact List.subset_append_left _ _
  | cancel q =>
      obtain ⟨⟨-, hslot⟩, rfl⟩ := guard_iff.mp hstep
      rw [World.cancel_eq hslot, World.finish_initiated]
      exact List.Subset.refl _

/-- An op that does not wait any more never waits again. -/
theorem Gone.step (h : Gone op s) (hstep : step s l = some s') : Gone op s' := by
  refine ⟨step_inv h.inv hstep, step_initiated hstep h.initiated, fun hmem => h.not_queued ?_⟩
  cases l with
  | call c =>
      obtain ⟨hfresh, rfl⟩ := guard_iff.mp hstep
      obtain ⟨hnodup, hnew, heffect⟩ := World.effect h.inv.append_nil hfresh
      rcases (heffect.mem_left hnodup hnew).mp hmem with ⟨hold, -⟩ | ⟨hreq, -⟩
      · exact hold
      · exact absurd h.initiated (hfresh op hreq)
  | cancel q =>
      obtain ⟨⟨hq, hslot⟩, rfl⟩ := guard_iff.mp hstep
      rw [World.cancel_eq hslot, World.finish_impl] at hmem
      have hleft := P.unlink_perm _ q h.inv.balanced.pending_nodup hq
      exact hleft.subset (List.mem_cons_of_mem q hmem)

/-- Nobody else is among what is seen of a call that neither makes nor completes the request. -/
theorem others_seen {w : World P} {c : P.Call} (hreq : P.request c ≠ some op)
    (hdone : op ∉ (P.call w.impl c).completed) : others op (seen w c) = seen w c := by
  refine List.filter_eq_self.mpr fun e he => ?_
  rcases List.mem_cons.mp he with rfl | he
  · exact decide_eq_true hreq
  · obtain ⟨⟨q, how⟩, hq, rfl⟩ := List.mem_map.mp he
    have hmem : q ∈ (P.call w.impl c).completed ∨ P.request c = some q := by
      rcases List.mem_append.mp hq with hq | hq
      · obtain ⟨q', hq', heq⟩ := List.mem_map.mp hq
        exact Or.inl ((Prod.mk.inj heq).1 ▸ hq')
      · obtain ⟨q', hq', heq⟩ := List.mem_map.mp hq
        obtain rfl := (Prod.mk.inj heq).1
        exact Or.inr (by simpa using (List.mem_filter.mp hq').1)
    have hne : q ≠ op := by
      rintro rfl
      exact hmem.elim hdone hreq
    exact decide_eq_true hne

/-- What is seen of a call depends on its outcome and on the ops it completes only. -/
theorem seen_congr {w v : World P} {c : P.Call}
    (hcompleted : (P.call v.impl c).completed = (P.call w.impl c).completed)
    (houtcome : (P.call v.impl c).outcome = (P.call w.impl c).outcome) : seen v c = seen w c := by
  simp only [seen, World.entries, hcompleted, houtcome]

/-- The same call in both runs adds the same to what the others see. -/
theorem call_others {c : P.Call} (hinitiated : t.world.initiated ⊆ s.world.initiated)
    (htrace : t.trace = others op s.trace) (hreq : P.request c ≠ some op)
    (hdone : op ∉ (P.call s.world.impl c).completed)
    (hcompleted : (P.call t.world.impl c).completed = (P.call s.world.impl c).completed)
    (houtcome : (P.call t.world.impl c).outcome = (P.call s.world.impl c).outcome) :
    (t.world.call c).initiated ⊆ (s.world.call c).initiated ∧
      t.trace ++ seen t.world c = others op (s.trace ++ seen s.world c) := by
  constructor
  · rw [World.call_eq.2.1, World.call_eq.2.1]
    have hold := List.Subset.trans hinitiated
      (List.subset_append_left s.world.initiated (P.request c).toList)
    exact List.append_subset_of_subset_of_subset hold (List.subset_append_right _ _)
  · rw [others_append, others_seen hreq hdone, htrace, seen_congr hcompleted houtcome]

/-- **The request stays hidden** as long as its op waits: the same step is possible without it, and
the others see the same. -/
theorem Hidden.step (h : Hidden R op s t) (hstep : step s l = some s')
    (hqueued : op ∈ P.queued s'.world.impl) : ∃ t', step t l = some t' ∧ Hidden R op s' t' := by
  have hinv := step_inv h.inv hstep
  have hvalid := step_valid h.valid hstep
  have hinitiated := h.inv.balanced.opened_of_pending h.queued
  cases l with
  | call c =>
      obtain ⟨hfresh, rfl⟩ := guard_iff.mp hstep
      obtain ⟨hnodup, hnew, heffect⟩ := World.effect h.inv.append_nil hfresh
      have hreq : P.request c ≠ some op := fun hreq => hfresh op hreq hinitiated
      have hdone : op ∉ (P.call s.world.impl c).completed := by
        rcases (heffect.mem_left hnodup hnew).mp hqueued with ⟨-, hdone⟩ | ⟨hown, -⟩
        · exact hdone
        · exact absurd hown hreq
      have hcall := R.call _ c op h.valid hnodup h.queued hnew hdone
      rw [← h.impl] at hcall
      obtain ⟨hsub, htrace⟩ := call_others h.initiated h.trace hreq hdone (by rw [hcall])
        (by rw [hcall])
      refine ⟨{ world := t.world.call c, trace := t.trace ++ seen t.world c }, ?_, hinv, hvalid,
        hqueued, ?_, hsub, htrace⟩
      · exact if_pos fun q hq hmem => hfresh q hq (h.initiated hmem)
      · rw [World.call_eq.1, World.call_eq.1, hcall]
  | cancel q =>
      obtain ⟨⟨hq, hslot⟩, rfl⟩ := guard_iff.mp hstep
      have hleft := P.unlink_perm _ q h.inv.balanced.pending_nodup hq
      rw [World.cancel_eq hslot, World.finish_impl] at hqueued
      have hne : q ≠ op := by
        rintro rfl
        have hnodup := hleft.nodup_iff.mpr h.inv.balanced.pending_nodup
        exact (List.nodup_cons.mp hnodup).1 hqueued
      have hmem : q ∈ P.queued t.world.impl := by
        rw [h.impl]
        exact R.mem_queued _ op q hne hq
      refine ⟨_, if_pos ⟨hmem, hslot⟩, hinv, hvalid, ?_, ?_, ?_, ?_⟩
      · rwa [World.cancel_eq hslot, World.finish_impl]
      · simp only [World.cancel_eq hslot, World.finish_impl, h.impl, R.unlink]
      · simp only [World.cancel_eq hslot, World.finish_initiated]
        exact h.initiated
      · rw [others_append, h.trace]
        simp [others, Event.About, hne]

/-- A run that the op waits through is possible without its request. -/
theorem Hidden.run {ls : List (Label P)} (h : Hidden R op s t)
    (hrun : run Withdrawal.step s ls = some s') (hqueued : op ∈ P.queued s'.world.impl) :
    ∃ t', run Withdrawal.step t ls = some t' ∧ Hidden R op s' t' := by
  induction ls generalizing s t with
  | nil =>
      obtain rfl := Option.some.inj hrun
      exact ⟨t, rfl, h⟩
  | cons l ls ih =>
      obtain ⟨u, hu, hrest⟩ := run_cons.mp hrun
      by_cases hmem : op ∈ P.queued u.world.impl
      · obtain ⟨v, hv, hhidden⟩ := h.step hu hmem
        obtain ⟨t', ht', hlast⟩ := ih hhidden hrest
        exact ⟨t', run_cons.mpr ⟨v, hv, ht'⟩, hlast⟩
      · -- once it is gone the op does not come back
        have hgone : Gone op u := by
          refine ⟨step_inv h.inv hu, ?_, hmem⟩
          have hinitiated := h.inv.balanced.opened_of_pending h.queued
          exact step_initiated hu hinitiated
        have hkeep : ∀ (a : Observed P) (k : Label P) (b : Observed P), Gone op a →
            Withdrawal.step a k = some b → Gone op b := fun _ _ _ ha hk => ha.step hk
        exact absurd hqueued (run_invariant hkeep hgone hrest).not_queued

/-- What was seen concerns requests that were made. -/
def Known (s : Observed P) : Prop :=
  ∀ e ∈ s.trace, ∀ op, e.About op → op ∈ s.world.initiated

/-- Every step keeps `Known`. -/
theorem step_known (hinv : s.world.Inv) (h : Known s) (hstep : step s l = some s') : Known s' := by
  have hinitiated := step_initiated hstep
  have hlast := step_inv hinv hstep
  intro e he op hop
  cases l with
  | call c =>
      obtain ⟨hfresh, rfl⟩ := guard_iff.mp hstep
      rcases List.mem_append.mp he with he | he
      · exact hinitiated (h e he op hop)
      · by_contra hmem
        have hreq : P.request c ≠ some op := fun hreq => hmem (by
          rw [World.call_eq.2.1, hreq]
          exact List.mem_append_right _ (List.mem_singleton_self op))
        have hdone : op ∉ (P.call s.world.impl c).completed := by
          intro hdone
          have hlog : (op, op.completed .success) ∈ (s.world.call c).log := by
            rw [World.call_eq.2.2]
            exact List.mem_append_right _ (World.mem_entries hdone)
          exact hmem (hlast.balanced.opened_of_settled hlog)
        have hothers := others_seen hreq hdone
        rw [← hothers] at he
        exact of_decide_eq_true (List.mem_filter.mp he).2 hop
  | cancel q =>
      obtain ⟨⟨hq, -⟩, rfl⟩ := guard_iff.mp hstep
      rcases List.mem_append.mp he with he | he
      · exact hinitiated (h e he op hop)
      · obtain rfl := List.mem_singleton.mp he
        obtain rfl : q = op := hop
        exact hinitiated (hinv.balanced.opened_of_pending hq)

/-- A step only adds to what was seen. -/
theorem step_trace (hstep : step s l = some s') : ∃ more, s'.trace = s.trace ++ more := by
  cases l with
  | call c =>
      obtain ⟨-, rfl⟩ := guard_iff.mp hstep
      exact ⟨_, rfl⟩
  | cancel q =>
      obtain ⟨-, rfl⟩ := guard_iff.mp hstep
      exact ⟨_, rfl⟩

/-- A request that was not made before a run is made by one of its calls. -/
theorem requested_of_run {ls : List (Label P)} (hbefore : op ∉ s.world.initiated)
    (hrun : run step s ls = some s') (hafter : op ∈ s'.world.initiated) :
    ∃ before c between, ls = before ++ .call c :: between ∧ P.request c = some op := by
  induction ls generalizing s with
  | nil =>
      obtain rfl := Option.some.inj hrun
      exact absurd hafter hbefore
  | cons l ls ih =>
      obtain ⟨u, hu, hrest⟩ := run_cons.mp hrun
      by_cases hmem : op ∈ u.world.initiated
      · cases l with
        | call c =>
            obtain ⟨-, rfl⟩ := guard_iff.mp hu
            rw [World.call_eq.2.1, List.mem_append, Option.mem_toList] at hmem
            exact ⟨[], c, ls, rfl, hmem.resolve_left hbefore⟩
        | cancel q =>
            obtain ⟨⟨-, hslot⟩, rfl⟩ := guard_iff.mp hu
            rw [World.cancel_eq hslot, World.finish_initiated] at hmem
            exact absurd hmem hbefore
      · obtain ⟨before, c, between, rfl, hreq⟩ := ih hmem hrest
        exact ⟨l :: before, c, between, rfl, hreq⟩

/-- A request that has to wait is hidden from the state before it. -/
theorem Hidden.start {c : P.Call} (hinv : s.world.Inv) (hvalid : R.Valid s.world.impl)
    (hknown : Known s) (hstep : Withdrawal.step s (.call c) = some s')
    (hreq : P.request c = some op) (hqueued : op ∈ P.queued s'.world.impl) :
    Hidden R op s' s := by
  have hinv' := step_inv hinv hstep
  have hvalid' := step_valid hvalid hstep
  obtain ⟨hfresh, rfl⟩ := guard_iff.mp hstep
  obtain ⟨hnodup, hnew, heffect⟩ := World.effect hinv.append_nil hfresh
  have houtcome : (P.call s.world.impl c).outcome = .queued := by
    rcases (heffect.mem_left hnodup hnew).mp hqueued with ⟨hold, -⟩ | ⟨-, houtcome⟩
    · exact absurd hold (hnew op hreq)
    · exact houtcome
  have hcompleted : (P.call s.world.impl c).completed = [] := heffect.completed_of_queued houtcome
    (by simp [hreq])
  refine ⟨hinv', hvalid', hqueued, ?_, step_initiated hstep, ?_⟩
  · rw [World.call_eq.1, R.request _ c op hvalid hreq (hnew op hreq) houtcome]
  · have hbefore : others op s.trace = s.trace := List.filter_eq_self.mpr fun e he =>
      decide_eq_true fun hop => hfresh op hreq (hknown e he op hop)
    have hseen : others op (seen s.world c) = [] := by
      simp [others, seen, World.entries, houtcome, hcompleted, Event.About, hreq]
    rw [others_append, hbefore, hseen, List.append_nil]

/-- A cancellation unlinks the op, and the others do not see it. -/
theorem Hidden.unlinked (h : Hidden R op s t) (hstep : Withdrawal.step s (.cancel op) = some s') :
    Gone op s' ∧ s'.world.impl = P.unlink s.world.impl op ∧
      t.world.initiated ⊆ s'.world.initiated ∧ t.trace = others op s'.trace := by
  have hinv := step_inv h.inv hstep
  have hinitiated := h.inv.balanced.opened_of_pending h.queued
  obtain ⟨⟨hq, hslot⟩, rfl⟩ := guard_iff.mp hstep
  have hnodup := (P.unlink_perm _ op h.inv.balanced.pending_nodup hq).nodup_iff.mpr
    h.inv.balanced.pending_nodup
  refine ⟨⟨hinv, step_initiated hstep hinitiated, ?_⟩, ?_, ?_, ?_⟩
  · rw [World.cancel_eq hslot, World.finish_impl]
    exact (List.nodup_cons.mp hnodup).1
  · rw [World.cancel_eq hslot, World.finish_impl]
  · exact List.Subset.trans h.initiated (step_initiated hstep)
  · rw [others_append, h.trace]
    simp [others, Event.About]

/-- `t` is `s` without the request of an op that was cancelled, and nothing is left of it. -/
structure Forgotten (op : Op ι) (s t : Observed P) : Prop where
  gone : Gone op s
  impl : t.world.impl = s.world.impl
  initiated : t.world.initiated ⊆ s.world.initiated
  trace : t.trace = others op s.trace

/-- A cancelled op is forgotten if unlinking it retracts its request. -/
theorem Hidden.cancel (h : Hidden R op s t) (hunlink : R.retract = P.unlink)
    (hstep : Withdrawal.step s (.cancel op) = some s') : Forgotten op s' t := by
  obtain ⟨hgone, himpl, hinitiated, htrace⟩ := h.unlinked hstep
  exact ⟨hgone, by rw [himpl, h.impl, hunlink], hinitiated, htrace⟩

/-- **A forgotten request stays forgotten**: the runs go on step by step. -/
theorem Forgotten.step (h : Forgotten op s t) (hstep : Withdrawal.step s l = some s') :
    ∃ t', Withdrawal.step t l = some t' ∧ Forgotten op s' t' := by
  have hgone := h.gone.step hstep
  cases l with
  | call c =>
      obtain ⟨hfresh, rfl⟩ := guard_iff.mp hstep
      obtain ⟨hnodup, hnew, heffect⟩ := World.effect h.gone.inv.append_nil hfresh
      have hreq : P.request c ≠ some op := fun hreq => hfresh op hreq h.gone.initiated
      have hdone : op ∉ (P.call s.world.impl c).completed := fun hdone =>
        h.gone.not_queued (heffect.completed_subset hreq hdone)
      obtain ⟨hsub, htrace⟩ := call_others h.initiated h.trace hreq hdone (by rw [h.impl])
        (by rw [h.impl])
      refine ⟨_, if_pos fun q hq hmem => hfresh q hq (h.initiated hmem), hgone, ?_, hsub, htrace⟩
      rw [World.call_eq.1, World.call_eq.1, h.impl]
  | cancel q =>
      obtain ⟨⟨hq, hslot⟩, rfl⟩ := guard_iff.mp hstep
      have hne : q ≠ op := fun he => h.gone.not_queued (he ▸ hq)
      refine ⟨_, if_pos ⟨by rw [h.impl]; exact hq, hslot⟩, hgone, ?_, ?_, ?_⟩
      · simp only [World.cancel_eq hslot, World.finish_impl, h.impl]
      · simp only [World.cancel_eq hslot, World.finish_initiated]
        exact h.initiated
      · rw [others_append, h.trace]
        simp [others, Event.About, hne]

/-! ## Whole runs -/

/-- What every step keeps. -/
theorem run_inv {s₀ : P.State} (hs : P.queued s₀ = []) {ls : List (Label P)}
    (hrun : run step (Observed.init s₀) ls = some s) : s.world.Inv ∧ Known s := by
  have hstart : (Observed.init s₀).world.Inv ∧ Known (Observed.init s₀) :=
    ⟨World.Inv.init hs, fun e he => nomatch he⟩
  have hkeep : ∀ (a : Observed P) (k : Label P) (b : Observed P), a.world.Inv ∧ Known a →
      step a k = some b → b.world.Inv ∧ Known b :=
    fun _ _ _ h hk => ⟨step_inv h.1 hk, step_known h.1 h.2 hk⟩
  exact run_invariant hkeep hstart hrun

/-- A run in which the op of some call still waits is possible without that call. -/
theorem hidden_of_run (R : Retraction P) {s₀ : P.State} (hs : P.queued s₀ = [])
    (hvalid : R.Valid s₀) {c : P.Call} (hreq : P.request c = some op)
    {before between : List (Label P)}
    (hrun : run step (Observed.init s₀) (before ++ .call c :: between) = some s)
    (hqueued : op ∈ P.queued s.world.impl) :
    ∃ t, run step (Observed.init s₀) (before ++ between) = some t ∧ Hidden R op s t := by
  obtain ⟨u, hbefore, hrest⟩ := run_append.mp hrun
  obtain ⟨v, hcall, hbetween⟩ := run_cons.mp hrest
  obtain ⟨hinv, hknown⟩ := run_inv hs hbefore
  have hvalidu : R.Valid u.world.impl := by
    have hkeep : ∀ (a : Observed P) (k : Label P) (b : Observed P), R.Valid a.world.impl →
        step a k = some b → R.Valid b.world.impl := fun _ _ _ h hk => step_valid h hk
    exact run_invariant hkeep (show R.Valid (Observed.init s₀).world.impl from hvalid) hbefore
  have hmem : op ∈ P.queued v.world.impl := by
    by_contra hmem
    have hinitiated : op ∈ v.world.initiated := by
      obtain ⟨-, rfl⟩ := guard_iff.mp hcall
      rw [World.call_eq.2.1, hreq]
      exact List.mem_append_right _ (List.mem_singleton_self op)
    have hkeep : ∀ (a : Observed P) (k : Label P) (b : Observed P), Gone op a →
        step a k = some b → Gone op b := fun _ _ _ ha hk => ha.step hk
    have hgone : Gone op v := ⟨step_inv hinv hcall, hinitiated, hmem⟩
    exact (run_invariant hkeep hgone hbetween).not_queued hqueued
  obtain ⟨t, ht, hhidden⟩ :=
    (Hidden.start hinv hvalidu hknown hcall hreq hmem).run hbetween hqueued
  exact ⟨t, run_append.mpr ⟨u, hbefore, ht⟩, hhidden⟩

/-- A forgotten request stays forgotten over a whole run. -/
theorem Forgotten.run {ls : List (Label P)} (h : Forgotten op s t)
    (hrun : run Withdrawal.step s ls = some s') :
    ∃ t', run Withdrawal.step t ls = some t' ∧ Forgotten op s' t' := by
  induction ls generalizing s t with
  | nil =>
      obtain rfl := Option.some.inj hrun
      exact ⟨t, rfl, h⟩
  | cons l ls ih =>
      obtain ⟨u, hu, hrest⟩ := run_cons.mp hrun
      obtain ⟨v, hv, hforgotten⟩ := h.step hu
      obtain ⟨t', ht', hlast⟩ := ih hforgotten hrest
      exact ⟨t', run_cons.mpr ⟨v, hv, ht'⟩, hlast⟩

/-- **Nothing is left of a cancelled request** if unlinking its op retracts it: without the call and
the cancellation the run ends in the same state, and the others see the same. -/
theorem forgotten_of_run (R : Retraction P) (hunlink : R.retract = P.unlink) {s₀ : P.State}
    (hs : P.queued s₀ = []) (hvalid : R.Valid s₀) {c : P.Call} (hreq : P.request c = some op)
    {before between after : List (Label P)}
    (hrun : run step (Observed.init s₀) (before ++ .call c :: between ++ .cancel op :: after) =
      some s) :
    ∃ t, run step (Observed.init s₀) (before ++ between ++ after) = some t ∧
      Forgotten op s t := by
  obtain ⟨u, hfirst, hrest⟩ := run_append.mp hrun
  obtain ⟨v, hcancel, hafter⟩ := run_cons.mp hrest
  have hqueued : op ∈ P.queued u.world.impl := (Option.ite_none_right_eq_some.mp hcancel).1.1
  obtain ⟨w, hw, hhidden⟩ := hidden_of_run R hs hvalid hreq hfirst hqueued
  obtain ⟨t, ht, hforgotten⟩ := (hhidden.cancel hunlink hcancel).run hafter
  exact ⟨t, run_append.mpr ⟨w, hw, ht⟩, hforgotten⟩

end Sam.Withdrawal
