import Sam.Library.Transition
import Sam.Operation.Kinds
import Sam.Operation.World

/-!
# Every asynchronous operation ends exactly once

Runs of a primitive from its construction to its destruction and beyond: calls, emits of
cancellation signals, the shutdown of its service and its destructor, each one step. `EndsOnce`
says where an asynchronous operation can be: it waits once, in one list, or it has ended once, in
one of four ways; and which step ends it in which way. `ends_once` is that of every state of every
run. -/

namespace Sam.Endings

open Transition

universe u

/-- A primitive with its ops, and whether it exists. -/
structure Lifetime {ι : Type u} [DecidableEq ι] (P : Primitive ι) where
  world : World P
  alive : Bool

/-- The steps of a run. -/
inductive Label {ι : Type u} [DecidableEq ι] (P : Primitive ι) where
  | call (c : P.Call)
  | emit (slot : Nat) (type : UInt32)
  | shutdown
  | destroy

variable {ι : Type u} [DecidableEq ι] {P : Primitive ι}

/-- A new primitive. -/
def Lifetime.init (s : P.State) : Lifetime P := ⟨.init s, true⟩

/-- One step. The primitive is used as long as it exists; a signal is emitted at any time. -/
def step (s : Lifetime P) : Label P → Option (Lifetime P)
  | .call c =>
      if s.alive ∧ s.world.Fresh c then some { s with world := s.world.call c } else none
  | .emit k type =>
      match s.world.handler k type with
      | some op => some { s with world := s.world.cancel op }
      | none => some s
  | .shutdown =>
      if s.alive then
        some { s with world := s.world.drain Op.shutDown (P.queued s.world.impl) }
      else none
  | .destroy =>
      if s.alive then
        some
          { world := s.world.drain (Op.completed .operationAborted)
              (P.lists s.world.impl).reverse.flatten
            alive := false }
      else none

/-- How a step may end a handler. -/
def Label.Ends : Label P → Ended → Prop
  | .call _, how => how = .dispatched ∨ how = .posted .success
  | .emit _ _, how => how = .posted .operationAborted
  | .shutdown, how => how = .destroyed
  | .destroy, how => how = .posted .operationAborted

/-- No step ends a handler in another way. -/
theorem Label.Ends.ofHandler {l : Label P} {how : Ended} (h : l.Ends how) : how.OfHandler := by
  cases l with
  | call c => exact h.elim Or.inl fun h => Or.inr (Or.inl h)
  | emit k type => exact Or.inr (Or.inr (Or.inl h))
  | shutdown => exact Or.inr (Or.inr (Or.inr h))
  | destroy => exact Or.inr (Or.inr (Or.inl h))

namespace Lifetime

/-- The op is queued, once, by a primitive that exists, and has not ended. -/
def Waits (s : Lifetime P) (op : Op ι) : Prop :=
  s.alive = true ∧ (P.queued s.world.impl).count op = 1 ∧ s.world.endings op = []

/-- The op is not queued and has ended, once, in this way. -/
def EndedBy (s : Lifetime P) (op : Op ι) (how : Ended) : Prop :=
  op ∉ P.queued s.world.impl ∧ s.world.endings op = [how]

/-- No other op was made for this slot. -/
def OnlyFor (s : Lifetime P) (k : Nat) (op : Op ι) : Prop :=
  op.slot = some k ∧ ∀ q ∈ s.world.initiated, q.slot = some k → q = op

/-- What every step keeps. A primitive that is gone has no waiters. -/
structure Inv (s : Lifetime P) : Prop where
  world : s.world.Inv
  gone : s.alive = false → P.queued s.world.impl = []

/-- The handler of an op that waits is installed, if the slot was given to no other op. -/
def Installed (s : Lifetime P) : Prop :=
  ∀ op k, op ∈ P.queued s.world.impl → s.OnlyFor k op → s.world.slots k = some op

/-- A new primitive. -/
theorem Inv.init {impl : P.State} (h : P.queued impl = []) : (Lifetime.init impl).Inv :=
  ⟨.init h, nofun⟩

/-- A request waits or has ended, once. -/
theorem Inv.once {s : Lifetime P} (h : s.Inv) {op : Op ι} (hop : op ∈ s.world.initiated) :
    s.Waits op ∨ ∃ how, s.EndedBy op how := by
  rcases h.world.balanced.once hop with ⟨hqueued, hnone⟩ | ⟨hout, how, hended⟩
  · have halive : s.alive = true := by
      by_contra hdead
      rw [World.ledger, h.gone (Bool.not_eq_true _ ▸ hdead)] at hqueued
      simp at hqueued
    exact Or.inl ⟨halive, hqueued, hnone⟩
  · exact Or.inr ⟨how, hout, hended⟩

/-- What the log says of a request is how it has ended. -/
theorem Inv.endedBy {s : Lifetime P} (h : s.Inv) {op : Op ι} {how : Ended}
    (hmem : (op, how) ∈ s.world.log) : s.EndedBy op how := by
  have hend : how ∈ s.world.endings op := Ledger.mem_endings.mpr hmem
  rcases h.once (h.world.balanced.opened_of_settled hmem) with ⟨-, -, hnone⟩ | ⟨other, hout, hone⟩
  · simp [hnone] at hend
  · obtain rfl : how = other := by simpa [hone] using hend
    exact ⟨hout, hone⟩

end Lifetime

/-! ## What one step does -/

variable {s t : Lifetime P} {l : Label P} {op : Op ι}

/-- An emit runs the handler of an op that waits on that slot, or does nothing. -/
theorem step_emit {k : Nat} {type : UInt32} (h : s.world.Inv)
    (hstep : step s (.emit k type) = some t) :
    (t = s) ∨ ∃ op ∈ P.queued s.world.impl, op.slot = some k ∧
      t = { s with world := s.world.cancel op } := by
  simp only [step, World.handler] at hstep
  by_cases htype : type ≠ 0
  · rw [if_pos htype] at hstep
    split at hstep
    · rename_i op hslot
      obtain ⟨hop, hmem⟩ := h.slots k op hslot
      exact Or.inr ⟨op, hmem, hop, (Option.some.inj hstep).symm⟩
    · exact Or.inl (Option.some.inj hstep).symm
  · rw [if_neg htype] at hstep
    exact Or.inl (Option.some.inj hstep).symm

/-- Every step keeps the invariant. -/
theorem step_inv (h : s.Inv) (hstep : step s l = some t) : t.Inv := by
  cases l with
  | call c =>
      obtain ⟨⟨halive, hfresh⟩, rfl⟩ := guard_iff.mp hstep
      exact ⟨h.world.call hfresh, fun hdead => absurd (halive.symm.trans hdead) nofun⟩
  | emit k type =>
      rcases step_emit h.world hstep with rfl | ⟨op, hmem, -, rfl⟩
      · exact h
      · refine ⟨h.world.cancel hmem, fun hdead => ?_⟩
        rw [h.gone hdead] at hmem
        cases hmem
  | shutdown =>
      obtain ⟨-, rfl⟩ := guard_iff.mp hstep
      exact ⟨h.world.drain _ (.refl _), fun _ => World.drain_queued⟩
  | destroy =>
      obtain ⟨-, rfl⟩ := guard_iff.mp hstep
      exact ⟨h.world.drain _ (List.reverse_perm _).flatten, fun _ => World.drain_queued⟩

/-- A call keeps the handlers of the ops that go on waiting, and installs that of its own. -/
theorem call_installed (h : s.Inv) (hs : s.Installed) {c : P.Call} (hfresh : s.world.Fresh c) :
    ({ s with world := s.world.call c } : Lifetime P).Installed := by
  intro op k hop honly
  obtain ⟨hnodup, hnew, heffect⟩ := World.effect h.world.append_nil hfresh
  have hinit : (s.world.call c).initiated = s.world.initiated ++ (P.request c).toList :=
    World.call_eq.2.1
  have hslot : op.slot = some k := honly.1
  have hothers : ∀ q ∈ s.world.initiated ++ (P.request c).toList, q.slot = some k → q = op :=
    fun q hq => honly.2 q (hinit ▸ hq)
  rcases (heffect.mem_left hnodup hnew).mp hop with ⟨hold, hkept⟩ | ⟨hreq, hqueued⟩
  · have hknown : op ∈ s.world.initiated := h.world.balanced.opened_of_pending hold
    have hown : ∀ q ∈ P.request c, q.slot ≠ some k := by
      intro q hq hqk
      obtain rfl := hothers q (List.mem_append_right _ (by simpa using hq)) hqk
      exact hfresh q hq hknown
    have hdone : ∀ q ∈ (P.call s.world.impl c).completed, q.slot ≠ some k := by
      intro q hq hqk
      have hq' : q ∈ s.world.initiated := by
        by_cases hreq : P.request c = some q
        · exact absurd hqk (hown q hreq)
        · exact h.world.balanced.opened_of_pending (heffect.completed_subset hreq hq)
      obtain rfl := hothers q (List.mem_append_left _ hq') hqk
      exact hkept hq
    show (s.world.call c).slots k = some op
    rw [World.call_slots_of_ne hdone hown]
    exact hs op k hold ⟨hslot, fun q hq => hothers q (List.mem_append_left _ hq)⟩
  · exact World.call_slots_self hreq hqueued hslot

/-- Every step keeps the handlers of the ops that go on waiting. -/
theorem step_installed (h : s.Inv) (hs : s.Installed) (hstep : step s l = some t) :
    t.Installed := by
  cases l with
  | call c =>
      obtain ⟨⟨-, hfresh⟩, rfl⟩ := guard_iff.mp hstep
      exact call_installed h hs hfresh
  | emit k type =>
      rcases step_emit h.world hstep with rfl | ⟨other, hmem, -, rfl⟩
      · exact hs
      · intro op j hop honly
        obtain ⟨hinit, hin, hslots⟩ := World.cancel_keeps h.world hmem hop
        have hold : s.OnlyFor j op := ⟨honly.1, fun q hq => honly.2 q (hinit.symm ▸ hq)⟩
        have hinstalled := hs op j hin hold
        refine (hslots fun hother => ?_).trans hinstalled
        exact hold.2 other (h.world.balanced.opened_of_pending hmem) hother
  | shutdown | destroy =>
      obtain ⟨-, rfl⟩ := guard_iff.mp hstep
      intro op k hop
      rw [World.drain_queued] at hop
      cases hop

/-- Every step only adds to the log, and ends handlers in its own way. -/
theorem step_log (h : s.world.Inv) (hstep : step s l = some t) :
    ∃ new, t.world.log = s.world.log ++ new ∧ ∀ e ∈ new, e.1.Async → l.Ends e.2 := by
  cases l with
  | call c =>
      obtain ⟨-, rfl⟩ := guard_iff.mp hstep
      exact ⟨_, World.call_eq.2.2, fun e he hasync => World.entries_ends he hasync⟩
  | emit k type =>
      rcases step_emit h hstep with rfl | ⟨op, -, -, rfl⟩
      · exact ⟨[], by simp, by simp⟩
      · rcases s.world.cancel_log op with hlog | hlog
        · exact ⟨[], by simpa using hlog, by simp⟩
        · refine ⟨_, hlog, fun e he hasync => ?_⟩
          obtain rfl := List.mem_singleton.mp he
          exact (Op.async_ends hasync .queued _).2.1
  | shutdown =>
      obtain ⟨-, rfl⟩ := guard_iff.mp hstep
      refine ⟨_, World.finishAll_log _, fun e he hasync => ?_⟩
      obtain ⟨op, -, rfl⟩ := List.mem_map.mp he
      exact (Op.async_ends hasync .queued .success).2.2
  | destroy =>
      obtain ⟨-, rfl⟩ := guard_iff.mp hstep
      refine ⟨_, World.finishAll_log _, fun e he hasync => ?_⟩
      obtain ⟨op, -, rfl⟩ := List.mem_map.mp he
      exact (Op.async_ends hasync .queued _).2.1

/-! ## Which step ends an op -/

/-- A call posts the ops that it completes, and dispatches its own handler if it grants it at once.
-/
theorem call_ends (h : s.Inv) {c : P.Call} (hstep : step s (.call c) = some t)
    (hasync : op.Async) :
    (op ∈ (P.call s.world.impl c).completed → t.EndedBy op (.posted .success)) ∧
      (P.request c = some op → (P.call s.world.impl c).outcome ≠ .queued →
        op ∉ (P.call s.world.impl c).completed → t.EndedBy op .dispatched) := by
  have hinv := step_inv h hstep
  obtain ⟨-, rfl⟩ := guard_iff.mp hstep
  have hlog : (s.world.call c).log = s.world.log ++ s.world.entries c := World.call_eq.2.2
  refine ⟨fun hop => hinv.endedBy ?_, fun hreq hout hop => hinv.endedBy ?_⟩
  · obtain ⟨-, hposted, -⟩ := Op.async_ends hasync .queued .success
    exact hlog ▸ List.mem_append_right _ (hposted ▸ World.mem_entries hop)
  · obtain ⟨hdispatched, -, -⟩ :=
      Op.async_ends hasync (P.call s.world.impl c).outcome .success
    refine hlog ▸ List.mem_append_right _ (List.mem_append_right _ ?_)
    exact List.mem_map.mpr ⟨op, by simp [hreq, hout, hop], by rw [hdispatched]⟩

/-- An emit aborts the op whose handler the slot holds. -/
theorem emit_ends (h : s.Inv) {k : Nat} {type : UInt32} (htype : type ≠ 0)
    (hslot : s.world.slots k = some op) (hstep : step s (.emit k type) = some t) :
    t.EndedBy op (.posted .operationAborted) := by
  have hinv := step_inv h hstep
  have hhandler : s.world.handler k type = some op := (if_pos htype).trans hslot
  have hop : op.slot = some k := (h.world.slots k op hslot).1
  have hasync : op.Async := by
    cases op with
    | blocking id => cases hop
    | async id slot => exact fun hblocks => hblocks
  obtain rfl : { s with world := s.world.cancel op } = t := by
    simpa [step, hhandler] using hstep
  obtain ⟨-, hposted, -⟩ := Op.async_ends hasync .queued .operationAborted
  refine hinv.endedBy ?_
  show _ ∈ (s.world.cancel op).log
  rw [World.cancel_eq (by simp [hop]), World.finish_log, hposted]
  exact List.mem_append_right _ (List.mem_singleton_self _)

/-- `shutdown` destroys what waits. -/
theorem shutdown_ends (h : s.Inv) (hstep : step s .shutdown = some t) (hasync : op.Async)
    (hop : op ∈ P.queued s.world.impl) : t.EndedBy op .destroyed := by
  have hinv := step_inv h hstep
  obtain ⟨-, rfl⟩ := guard_iff.mp hstep
  obtain ⟨-, -, hdestroyed⟩ := Op.async_ends hasync .queued .success
  refine hinv.endedBy ?_
  show _ ∈ (World.drain _ _ _).log
  rw [World.drain, World.finishAll_log]
  exact List.mem_append_right _ (List.mem_map.mpr ⟨op, hop, by rw [hdestroyed]⟩)

/-- The destructor aborts what waits. -/
theorem destroy_ends (h : s.Inv) (hstep : step s .destroy = some t) (hasync : op.Async)
    (hop : op ∈ P.queued s.world.impl) : t.EndedBy op (.posted .operationAborted) := by
  have hinv := step_inv h hstep
  obtain ⟨-, rfl⟩ := guard_iff.mp hstep
  obtain ⟨-, hposted, -⟩ := Op.async_ends hasync .queued .operationAborted
  have hmem : op ∈ (P.lists s.world.impl).reverse.flatten :=
    (List.reverse_perm _).flatten.mem_iff.mpr hop
  refine hinv.endedBy ?_
  show _ ∈ (World.drain _ _ _).log
  rw [World.drain, World.finishAll_log]
  exact List.mem_append_right _ (List.mem_map.mpr ⟨op, hmem, by rw [hposted]⟩)

/-! ## What a whole run does -/

/-- Every state of a run meets the invariant, and its log extends those of the states before. -/
theorem run_keeps (h : s.Inv) {ls : List (Label P)} (hrun : run step s ls = some t) :
    t.Inv ∧ s.world.log <+: t.world.log := by
  refine run_invariant (I := fun u => u.Inv ∧ s.world.log <+: u.world.log) ?_
    ⟨h, List.prefix_rfl⟩ hrun
  intro u l v hu hstep
  obtain ⟨hinv, hlog⟩ := hu
  obtain ⟨new, hnew, -⟩ := step_log hinv.world hstep
  exact ⟨step_inv hinv hstep, hlog.trans (hnew ▸ List.prefix_append _ _)⟩

/-- What a run logs ends handlers in one of the four ways, and the handlers of what waits are
installed. -/
theorem run_ends {impl : P.State} (himpl : P.queued impl = []) {ls : List (Label P)}
    (hrun : run step (Lifetime.init impl) ls = some t) :
    t.Inv ∧ t.Installed ∧ ∀ e ∈ t.world.log, e.1.Async → e.2.OfHandler := by
  refine run_invariant (I := fun u => u.Inv ∧ u.Installed ∧
    ∀ e ∈ u.world.log, e.1.Async → e.2.OfHandler) ?_ ⟨.init himpl, ?_, nofun⟩ hrun
  · intro u l v hu hstep
    obtain ⟨hinv, hinstalled, hlog⟩ := hu
    obtain ⟨new, hnew, hends⟩ := step_log hinv.world hstep
    refine ⟨step_inv hinv hstep, step_installed hinv hinstalled hstep, fun e he hasync => ?_⟩
    rw [hnew] at he
    rcases List.mem_append.mp he with hold | hnow
    · exact hlog e hold hasync
    · exact (hends e hnow hasync).ofHandler
  · intro op k hop
    have hnone : op ∈ P.queued impl := hop
    simp [himpl] at hnone

/-- What a state of a run says about the asynchronous operations. `one_state`: each is queued once,
in one list, and has not ended, or it is not queued and has ended once: dispatched, or posted with
success or `operation_aborted`, or destroyed. `in_its_way`: a step ends operations only in the way
it stands for. `for_good`: an ended one stays ended in the same way. `granted`, `dispatched`,
`cancelled`, `shut_down` and `destroyed` say which operations each step ends. `late`: an emit does
nothing unless an op waits on its slot. -/
structure EndsOnce (t : Lifetime P) : Prop where
  one_state : ∀ op ∈ t.world.initiated, op.Async →
    t.Waits op ∨ ∃ how : Ended, how.OfHandler ∧ t.EndedBy op how
  in_its_way : ∀ l u, step t l = some u →
    ∃ new, u.world.log = t.world.log ++ new ∧ ∀ e ∈ new, e.1.Async → l.Ends e.2
  for_good : ∀ op how ms u, t.EndedBy op how → run step t ms = some u → u.EndedBy op how
  granted : ∀ c u, step t (.call c) = some u → ∀ op ∈ (P.call t.world.impl c).completed,
    op.Async → u.EndedBy op (.posted .success)
  dispatched : ∀ c u, step t (.call c) = some u → ∀ op, P.request c = some op → op.Async →
    (P.call t.world.impl c).outcome ≠ .queued → op ∉ (P.call t.world.impl c).completed →
      u.EndedBy op .dispatched
  cancelled : ∀ k type u, type ≠ 0 → step t (.emit k type) = some u → ∀ op, t.Waits op →
    t.OnlyFor k op → u.EndedBy op (.posted .operationAborted)
  shut_down : ∀ u, step t .shutdown = some u → ∀ op, op.Async → t.Waits op →
    u.EndedBy op .destroyed
  destroyed : ∀ u, step t .destroy = some u → ∀ op, op.Async → t.Waits op →
    u.EndedBy op (.posted .operationAborted)
  late : ∀ k type, (∀ op, t.Waits op → op.slot ≠ some k) → step t (.emit k type) = some t

/-- An op that is queued waits. -/
theorem Lifetime.Inv.waits (h : t.Inv) (hop : op ∈ P.queued t.world.impl) : t.Waits op := by
  rcases h.once (h.world.balanced.opened_of_pending hop) with hwaits | ⟨how, hout, -⟩
  · exact hwaits
  · exact absurd hop hout

/-- An op that waits is queued. -/
theorem Lifetime.Waits.queued (h : t.Waits op) : op ∈ P.queued t.world.impl :=
  List.count_pos_iff.mp (h.2.1 ▸ Nat.one_pos)

/-- **Every asynchronous operation ends exactly once**: for each kind of primitive, in every state
of every run. -/
theorem ends_once (kind : Kind) {t : Lifetime (kind.primitive ι)} {ls : List (Label _)}
    {impl : (kind.primitive ι).State} (himpl : (kind.primitive ι).queued impl = [])
    (hrun : run step (Lifetime.init impl) ls = some t) : EndsOnce t := by
  obtain ⟨hinv, hinstalled, hends⟩ := run_ends himpl hrun
  exact {
    one_state := fun op hop hasync => by
      refine (hinv.once hop).imp_right fun hended => ?_
      obtain ⟨how, hout, hone⟩ := hended
      have hmem : (op, how) ∈ t.world.log :=
        Ledger.mem_endings.mp (hone ▸ List.mem_singleton_self how)
      exact ⟨how, hends _ hmem hasync, hout, hone⟩
    in_its_way := fun l u hstep => step_log hinv.world hstep
    for_good := fun op how ms u hended hms => by
      obtain ⟨hinv', hlog⟩ := run_keeps hinv hms
      exact hinv'.world.balanced.settled_for_good hlog hended.2
    granted := fun c u hstep op hop hasync => (call_ends hinv hstep hasync).1 hop
    dispatched := fun c u hstep op hreq hasync => (call_ends hinv hstep hasync).2 hreq
    cancelled := fun k type u htype hstep op hwaits honly =>
      emit_ends hinv htype (hinstalled op k hwaits.queued honly) hstep
    shut_down := fun u hstep op hasync hwaits => shutdown_ends hinv hstep hasync hwaits.queued
    destroyed := fun u hstep op hasync hwaits => destroy_ends hinv hstep hasync hwaits.queued
    late := fun k type hfree => by
      have hnone : t.world.handler k type = none := by
        rw [World.handler]
        split
        · refine Option.eq_none_iff_forall_ne_some.mpr fun op hslot => ?_
          obtain ⟨hop, hmem⟩ := hinv.world.slots k op hslot
          exact hfree op (hinv.waits hmem) hop
        · rfl
      simp [step, hnone] }

/-- Five operations on a mutex, ended in all ways: `0` is dispatched, `1` is cancelled through its
slot, `2` is granted by `unlock`, `3` is destroyed by the shutdown and `4` is aborted by the
destructor. -/
theorem ends_once_cancelled :
    ∃ t : Lifetime (Kind.mutex.primitive Nat),
      run step (Lifetime.init (MutexImpl.init true))
          [.call (MutexImpl.Call.asyncLock 0 none), .call (MutexImpl.Call.asyncLock 1 (some 7)),
            .call (MutexImpl.Call.asyncLock 2 none), .call (MutexImpl.Call.asyncLock 3 none),
            .emit 7 1, .call MutexImpl.Call.unlock, .shutdown,
            .call (MutexImpl.Call.asyncLock 4 none), .destroy, .emit 7 1] = some t ∧
      t.EndedBy (.async 0 none) .dispatched ∧
      t.EndedBy (.async 1 (some 7)) (.posted .operationAborted) ∧
      t.EndedBy (.async 2 none) (.posted .success) ∧ t.EndedBy (.async 3 none) .destroyed ∧
      t.EndedBy (.async 4 none) (.posted .operationAborted) ∧ EndsOnce t := by
  have hrun : run step (Lifetime.init (P := Kind.mutex.primitive Nat) (MutexImpl.init true))
      [.call (MutexImpl.Call.asyncLock 0 none), .call (MutexImpl.Call.asyncLock 1 (some 7)),
        .call (MutexImpl.Call.asyncLock 2 none), .call (MutexImpl.Call.asyncLock 3 none),
        .emit 7 1, .call MutexImpl.Call.unlock, .shutdown,
        .call (MutexImpl.Call.asyncLock 4 none), .destroy, .emit 7 1] =
      some (_ : Lifetime (Kind.mutex.primitive Nat)) := rfl
  exact ⟨_, hrun, ⟨by decide, rfl⟩, ⟨by decide, rfl⟩, ⟨by decide, rfl⟩, ⟨by decide, rfl⟩,
    ⟨by decide, rfl⟩, ends_once .mutex rfl hrun⟩

end Sam.Endings
