import Mathlib.Data.List.Basic
import Sam.Operation.Endings
import Sam.Operation.FailedInitiation

/-!
# What an op holds while it waits

An op that is made of a handler holds memory of the allocator of the handler and work of its
executor. The lines of `basic_op_model` and `predicate_op_model` that take these and give them back
are logged here for every op, over whole runs in which initiations throw in `construct` or in
`slot.assign`; what `dispatch` and `post` throw is left out. `Holding` says which lines make sense,
by what an op has: `lives` is that the lines of an op do and leave it with what its state calls for,
and `posted_with_work` is what this means between any two lines. `held_while_waiting` says when no
op holds anything but while it waits: `slot.assign` must not throw, because nobody owns the new
model by then.
-/

namespace Sam.Resources

open Transition

universe u

/-- A line of `construct`, of an initiation, of `complete` or of `shutdown`. -/
inductive Event where
  | allocate
  | deallocate
  | startWork
  | finishWork
  | assign
  | clear
  | link
  | unlink
  | post (ec : ErrorCode)
  | dispatch
  | destroyHandler
  deriving DecidableEq, Repr

/-- Where an initiation throws that has to queue its op: a move into the parameters of `construct`,
`traits::allocate`, a move into the parameters of the constructor, which the handler may be one of
by then, a move into `work_guard_`, `handler_` or `predicate_`, or `slot.assign`. -/
inductive Failure where
  | arguments
  | allocate
  | parameters (moved : Bool)
  | executor
  | handler
  | predicate
  | assign
  deriving DecidableEq, Repr

/-! ## What an op may hold -/

/-- What an op has: memory, work of its executor, a cancellation handler in its slot and a place in
a waiter list; and how its handler has ended, if it has. -/
structure Holding where
  memory : Bool
  work : Bool
  slot : Bool
  linked : Bool
  ended : Option Ended
  deriving DecidableEq, Repr

namespace Holding

/-- Nothing yet. -/
def nothing : Holding := ⟨false, false, false, false, none⟩

/-- Nothing any more. -/
def spent (how : Ended) : Holding := ⟨false, false, false, false, some how⟩

/-- Nobody finds the op, in a list or through its slot. -/
def Unreachable (h : Holding) : Prop := h.slot = false ∧ h.linked = false

instance (h : Holding) : Decidable h.Unreachable := inferInstanceAs (Decidable (_ ∧ _))

/-- What a line makes of it; `none` if the line uses what the op does not have, takes what it has
already, or takes something away from an op that can still be found. -/
def step (h : Holding) : Event → Option Holding
  | .allocate => if h.memory = false ∧ h.ended = none then some { h with memory := true } else none
  | .startWork =>
      if h.memory = true ∧ h.work = false ∧ h.ended = none then some { h with work := true }
      else none
  | .assign =>
      if h.memory = true ∧ h.work = true ∧ h.slot = false ∧ h.ended = none then
        some { h with slot := true }
      else none
  | .link =>
      if h.memory = true ∧ h.work = true ∧ h.linked = false ∧ h.ended = none then
        some { h with linked := true }
      else none
  | .clear => if h.slot = true then some { h with slot := false } else none
  | .unlink => if h.linked = true ∧ h.slot = false then some { h with linked := false } else none
  | .deallocate =>
      if h.memory = true ∧ h.Unreachable then some { h with memory := false } else none
  | .finishWork => if h.work = true ∧ h.Unreachable then some { h with work := false } else none
  | .post ec =>
      if h.work = true ∧ h.memory = false ∧ h.Unreachable ∧ h.ended = none then
        some { h with ended := some (.posted ec) }
      else none
  | .dispatch => if h = nothing then some (spent .dispatched) else none
  | .destroyHandler =>
      if h.Unreachable ∧ h.ended = none then some { h with ended := some .destroyed } else none

/-- An op that can be found has memory, work and its handler. -/
def Sound (h : Holding) : Prop :=
  h.slot = true ∨ h.linked = true → h.memory = true ∧ h.work = true ∧ h.ended = none

variable {h h' : Holding} {line : Event} {lines : List Event}

/-- **Every line** keeps it so. -/
theorem Sound.step (hs : h.Sound) (hstep : h.step line = some h') : h'.Sound := by
  cases line with
  | allocate =>
      obtain ⟨-, rfl⟩ := guard_iff.mp hstep
      exact fun hfound => ⟨rfl, (hs hfound).2⟩
  | startWork =>
      obtain ⟨-, rfl⟩ := guard_iff.mp hstep
      exact fun hfound => ⟨(hs hfound).1, rfl, (hs hfound).2.2⟩
  | assign =>
      obtain ⟨⟨hmemory, hwork, -, hended⟩, rfl⟩ := guard_iff.mp hstep
      exact fun _ => ⟨hmemory, hwork, hended⟩
  | link =>
      obtain ⟨⟨hmemory, hwork, -, hended⟩, rfl⟩ := guard_iff.mp hstep
      exact fun _ => ⟨hmemory, hwork, hended⟩
  | clear =>
      obtain ⟨hslot, rfl⟩ := guard_iff.mp hstep
      exact fun _ => hs (Or.inl hslot)
  | unlink =>
      obtain ⟨⟨hlinked, -⟩, rfl⟩ := guard_iff.mp hstep
      exact fun _ => hs (Or.inr hlinked)
  | deallocate | finishWork =>
      obtain ⟨⟨-, hslot, hlinked⟩, rfl⟩ := guard_iff.mp hstep
      exact fun hfound => absurd hfound (by simp [hslot, hlinked])
  | post ec =>
      obtain ⟨⟨-, -, ⟨hslot, hlinked⟩, -⟩, rfl⟩ := guard_iff.mp hstep
      exact fun hfound => absurd hfound (by simp [hslot, hlinked])
  | dispatch =>
      obtain ⟨-, rfl⟩ := guard_iff.mp hstep
      exact fun hfound => absurd hfound (by simp [spent])
  | destroyHandler =>
      obtain ⟨⟨⟨hslot, hlinked⟩, -⟩, rfl⟩ := guard_iff.mp hstep
      exact fun hfound => absurd hfound (by simp [hslot, hlinked])

/-- A handler that has ended stays as it is, and is not posted again. -/
theorem step_of_ended (hended : h.ended ≠ none) (hstep : h.step line = some h') :
    h'.ended = h.ended ∧ ∀ ec, line ≠ .post ec := by
  cases line with
  | clear | unlink | deallocate | finishWork =>
      obtain ⟨-, rfl⟩ := guard_iff.mp hstep
      exact ⟨rfl, nofun⟩
  | allocate => exact absurd (guard_iff.mp hstep).1.2 hended
  | startWork => exact absurd (guard_iff.mp hstep).1.2.2 hended
  | assign | link => exact absurd (guard_iff.mp hstep).1.2.2.2 hended
  | post ec => exact absurd (guard_iff.mp hstep).1.2.2.2 hended
  | dispatch => exact absurd (congrArg ended (guard_iff.mp hstep).1) hended
  | destroyHandler => exact absurd (guard_iff.mp hstep).1.2 hended

/-- **Posted once.** Nothing is posted any more for a handler that has ended. -/
theorem not_posted_of_ended (hended : h.ended ≠ none) (hrun : run step h lines = some h') :
    h'.ended ≠ none ∧ ∀ ec, .post ec ∉ lines := by
  induction lines generalizing h with
  | nil =>
      obtain rfl := Option.some.inj hrun
      exact ⟨hended, fun _ => List.not_mem_nil⟩
  | cons line lines ih =>
      obtain ⟨u, hu, hrest⟩ := run_cons.mp hrun
      obtain ⟨hkept, hne⟩ := step_of_ended hended hu
      obtain ⟨hlast, hnone⟩ := ih (hkept ▸ hended) hrest
      refine ⟨hlast, fun ec hmem => ?_⟩
      rcases List.mem_cons.mp hmem with he | hmem
      · exact hne ec he.symm
      · exact hnone ec hmem

/-- Nothing was posted for a handler that has not ended. -/
theorem not_posted_of_kept (hkept : h'.ended = none) (hrun : run step h lines = some h')
    (ec : ErrorCode) : .post ec ∉ lines := by
  intro hmem
  obtain ⟨first, rest, rfl⟩ := List.append_of_mem hmem
  obtain ⟨u, -, hrest⟩ := run_append.mp hrun
  obtain ⟨v, hv, hlast⟩ := run_cons.mp hrest
  obtain ⟨-, rfl⟩ := guard_iff.mp hv
  exact (not_posted_of_ended (by simp) hlast).1 hkept

end Holding

/-! ## The lines -/

section Model

variable {ι : Type u}

/-- A line that does something to a connected slot only. -/
def slotLine (op : Op ι) (line : Event) : List Event := if op.slot = none then [] else [line]

/-- An initiation that queues its op: `construct`, `slot.assign` and `add_waiter`. The op of a
blocking call is on its stack. -/
def queue : Op ι → List Event
  | .blocking _ => []
  | .async id slot =>
      [.allocate, .startWork] ++ slotLine (.async id slot) .assign ++ [.link]

/-- `complete`. The work guard and the handler are moved out of the model, which is then destroyed;
the guard gives its work back at the end of the scope. -/
def complete (op : Op ι) (ec : ErrorCode) : List Event :=
  slotLine op .clear ++ [.unlink, .deallocate, .post ec, .finishWork]

/-- `shutdown`. The model is destroyed with its handler and its work guard. -/
def shutdown (op : Op ι) : List Event :=
  slotLine op .clear ++ [.unlink, .destroyHandler, .finishWork, .deallocate]

/-- The lines that end a request. Those of a blocking call touch nothing of all this. -/
def ending (op : Op ι) : Ended → List Event
  | .dispatched => [.dispatch]
  | .posted ec => complete op ec
  | .destroyed => shutdown op
  | .returned _ | .woken _ => []

/-- The lines of an initiation that throws. The handler is destroyed where the last move has left
it: in a parameter of `construct`, which outlives the memory, in one of the constructor, or in the
model, whose members are destroyed from the last to the first. -/
def Failure.lines : Failure → List Event
  | arguments | allocate => [.destroyHandler]
  | parameters false => [.allocate, .deallocate, .destroyHandler]
  | parameters true | executor => [.allocate, .destroyHandler, .deallocate]
  | handler => [.allocate, .startWork, .finishWork, .destroyHandler, .deallocate]
  | predicate => [.allocate, .startWork, .destroyHandler, .finishWork, .deallocate]
  -- the model stays where it is
  | assign => [.allocate, .startWork]

/-- The lines of one op. -/
def log (op : Op ι) (lines : List Event) : List (Op ι × Event) := lines.map fun line => (op, line)

/-- The lines that end these requests. -/
def logEndings (ended : List (Op ι × Ended)) : List (Op ι × Event) :=
  ended.flatMap fun e => log e.1 (ending e.1 e.2)

variable [DecidableEq ι] {P : Primitive ι}

/-- The request that a step makes. -/
def request : Endings.Label P → Option (Op ι)
  | .call c => P.request c
  | .emit .. | .shutdown | .destroy => none

/-- The op that a step queues. -/
def queued (w : World P) : Endings.Label P → Option (Op ι)
  | .call c => if (P.call w.impl c).outcome = .queued then P.request c else none
  | .emit .. | .shutdown | .destroy => none

/-- The requests that a step ends. -/
def ended (w : World P) : Endings.Label P → List (Op ι × Ended)
  | .call c => w.entries c
  | .emit k type =>
      ((w.handler k type).toList.filter fun op => ¬ (P.rechecks ∧ op.slot = none)).map fun op =>
        (op, op.completed .operationAborted)
  | .shutdown => (P.queued w.impl).map fun op => (op, op.shutDown)
  | .destroy => (P.lists w.impl).reverse.flatten.map fun op => (op, op.completed .operationAborted)

end Model

/-- A primitive with its ops, the initiations that have thrown, and what was done so far. -/
structure Traced (kind : Kind) (ι : Type u) [DecidableEq ι] where
  lifetime : Endings.Lifetime (kind.primitive ι)
  failed : List (Op ι × Failure)
  trace : List (Op ι × Event)

/-- The steps of a run: those that do not throw, or an initiation that throws. -/
inductive Label (kind : Kind) (ι : Type u) [DecidableEq ι] where
  | ok (l : Endings.Label (kind.primitive ι))
  | fail (c : (kind.primitive ι).Call) (failure : Failure)

section Model

variable {ι : Type u} [DecidableEq ι] {kind : Kind}

/-- A new primitive. -/
def Traced.init (s : (kind.primitive ι).State) : Traced kind ι := ⟨.init s, [], []⟩

/-- What was done for an op. -/
def Traced.of (s : Traced kind ι) (op : Op ι) : List Event :=
  (s.trace.filter (·.1 = op)).map Prod.snd

/-- The op of an initiation that has thrown. -/
def Traced.Failed (s : Traced kind ι) (op : Op ι) : Prop := op ∈ s.failed.map Prod.fst

instance (s : Traced kind ι) (op : Op ι) : Decidable (s.Failed op) :=
  inferInstanceAs (Decidable (op ∈ s.failed.map Prod.fst))

/-- One step. An initiation that throws leaves the primitive as it is by then, and its op is not
used again. Only the ops of a condition variable have a predicate. -/
def step (s : Traced kind ι) : Label kind ι → Option (Traced kind ι)
  | .ok l =>
      if ∀ op ∈ request l, ¬ s.Failed op then
        (Endings.step s.lifetime l).map fun lifetime =>
          { s with
            lifetime
            trace := s.trace ++ logEndings (ended s.lifetime.world l) ++
              (queued s.lifetime.world l).toList.flatMap fun op => log op (queue op) }
      else none
  | .fail c failure =>
      match (kind.primitive ι).request c, (kind.callCode c).fails s.lifetime.world.impl with
      | some op, some impl =>
          if s.lifetime.alive ∧ s.lifetime.world.Fresh c ∧ ¬ s.Failed op ∧
              (failure = .assign → op.slot ≠ none) ∧
              (failure = .predicate → kind = .conditionVariable) then
            some
              { lifetime := { s.lifetime with world.impl := impl }
                failed := s.failed ++ [(op, failure)]
                trace := s.trace ++ log op failure.lines }
          else none
      | _, _ => none

end Model

/-! ## What a step ends and queues -/

section Step

variable {ι : Type u} [DecidableEq ι] {P : Primitive ι} {s t : Endings.Lifetime P}
  {l : Endings.Label P} {op : Op ι} {how : Ended}

/-- What a step adds to the requests and to those that have ended. -/
theorem step_ended (hstep : Endings.step s l = some t) :
    t.world.initiated = s.world.initiated ++ (request l).toList ∧
      t.world.log = s.world.log ++ ended s.world l := by
  cases l with
  | call c =>
      obtain ⟨-, rfl⟩ := guard_iff.mp hstep
      exact World.call_eq.2
  | emit k type =>
      simp only [Endings.step] at hstep
      simp only [ended, request]
      split at hstep
      · rename_i op hop
        obtain rfl := Option.some.inj hstep
        rw [hop, World.cancel]
        split
        · rename_i hout
          simp [hout]
        · rename_i hin
          have hkept : [op].filter (fun op => ¬ (P.rechecks ∧ op.slot = none)) = [op] :=
            List.filter_cons_of_pos (decide_eq_true hin)
          rw [Option.toList_some, hkept]
          simp
      · rename_i hnone
        obtain rfl := Option.some.inj hstep
        simp [hnone]
  | shutdown =>
      obtain ⟨-, rfl⟩ := guard_iff.mp hstep
      simp [World.drain, request, ended]
  | destroy =>
      obtain ⟨-, rfl⟩ := guard_iff.mp hstep
      simp [World.drain, request, ended]

/-- A step makes a request that was not made before. -/
theorem step_fresh (hstep : Endings.step s l = some t) (hop : request l = some op) :
    op ∉ s.world.initiated := by
  cases l with
  | call c =>
      obtain ⟨⟨-, hfresh⟩, -⟩ := guard_iff.mp hstep
      exact hfresh op hop
  | emit | shutdown | destroy => cases hop

/-- A call completes ops of handlers that are queued. -/
theorem queued_of_completed {queued completed left : List (Op ι)} {req : Option (Op ι)}
    {waits : Bool} {o : Outcome} (h : Effect queued req waits o completed left) (hasync : op.Async)
    (hop : op ∈ completed) : op ∈ queued := by
  by_cases hreq : req = some op
  · cases h with
    | plain => cases hreq
    | granted own h => exact h.subset (List.mem_append_left _ hop)
    | last id hid h =>
        obtain rfl := Option.some.inj hreq
        exact absurd trivial hasync
    | queued | failed => cases hop
  · exact h.completed_subset hreq hop

/-- **A step ends ops that are queued** by posting or destroying their handlers, and dispatches the
handlers of others. -/
theorem ended_dispatched (h : s.world.Inv) (hstep : Endings.step s l = some t)
    (hmem : (op, how) ∈ ended s.world l) (hasync : op.Async) :
    how = .dispatched ↔ op ∉ P.queued s.world.impl := by
  cases l with
  | call c =>
      obtain ⟨⟨-, hfresh⟩, -⟩ := guard_iff.mp hstep
      obtain ⟨-, hnew, heffect⟩ := World.effect h.append_nil hfresh
      rcases List.mem_append.mp hmem with hdone | hown
      · obtain ⟨done, hqueued, he⟩ := List.mem_map.mp hdone
        obtain ⟨rfl, rfl⟩ := Prod.mk.inj he
        rw [(Op.async_ends hasync .queued .success).2.1]
        exact iff_of_false nofun (not_not.mpr (queued_of_completed heffect hasync hqueued))
      · obtain ⟨own, hgranted, he⟩ := List.mem_map.mp hown
        obtain ⟨rfl, rfl⟩ := Prod.mk.inj he
        rw [(Op.async_ends hasync _ .success).1]
        exact iff_of_true rfl (hnew own (by simpa using List.mem_of_mem_filter hgranted))
  | emit k type =>
      obtain ⟨other, hother, he⟩ := List.mem_map.mp hmem
      obtain ⟨rfl, rfl⟩ := Prod.mk.inj he
      have hslot : s.world.slots k = some other := by
        have hhandler : s.world.handler k type = some other := by
          simpa using List.mem_of_mem_filter hother
        exact (Option.ite_none_right_eq_some.mp hhandler).2
      rw [(Op.async_ends hasync .queued _).2.1]
      exact iff_of_false nofun (not_not.mpr (h.slots k other hslot).2)
  | shutdown =>
      obtain ⟨other, hother, he⟩ := List.mem_map.mp hmem
      obtain ⟨rfl, rfl⟩ := Prod.mk.inj he
      rw [(Op.async_ends hasync .queued .success).2.2]
      exact iff_of_false nofun (not_not.mpr hother)
  | destroy =>
      obtain ⟨other, hother, he⟩ := List.mem_map.mp hmem
      obtain ⟨rfl, rfl⟩ := Prod.mk.inj he
      rw [(Op.async_ends hasync .queued _).2.1]
      exact iff_of_false nofun
        (not_not.mpr ((List.reverse_perm _).flatten.mem_iff.mp hother))

/-- A step ends the request that it makes, or queues its op. -/
theorem request_ended (h : s.world.Inv) (hstep : Endings.step s l = some t)
    (hop : request l = some op) :
    queued s.world l = some op ∧ (∀ how, (op, how) ∉ ended s.world l) ∨
      queued s.world l = none ∧ ∃ how, (op, how) ∈ ended s.world l := by
  cases l with
  | call c =>
      obtain ⟨⟨-, hfresh⟩, -⟩ := guard_iff.mp hstep
      obtain ⟨-, -, heffect⟩ := World.effect h.append_nil hfresh
      have hreq : P.request c = some op := hop
      simp only [queued]
      by_cases hqueued : (P.call s.world.impl c).outcome = .queued
      · have hnobody := heffect.completed_of_queued hqueued (by simp [hreq])
        refine Or.inl ⟨by rw [if_pos hqueued, hreq], fun how hmem => ?_⟩
        simp [ended, World.entries, hnobody, hqueued] at hmem
      · refine Or.inr ⟨if_neg hqueued, ?_⟩
        by_cases hdone : op ∈ (P.call s.world.impl c).completed
        · exact ⟨_, World.mem_entries hdone⟩
        · exact ⟨_, List.mem_append_right _ (List.mem_map.mpr
            ⟨op, by simp [hreq, hqueued, hdone], rfl⟩)⟩
  | emit | shutdown | destroy => cases hop

/-- What a step queues, it was asked for. -/
theorem request_of_queued {w : World P} (hop : queued w l = some op) : request l = some op := by
  cases l with
  | call c => exact (Option.ite_none_right_eq_some.mp hop).2
  | emit | shutdown | destroy => cases hop

end Step

/-! ## The lines of an op -/

section Lines

variable {ι : Type u} [DecidableEq ι] {P : Primitive ι} {w : World P}
  {s t : Endings.Lifetime P} {l : Endings.Label P} {op : Op ι}

omit [DecidableEq ι] in
/-- The lines of a request that has ended in this way. -/
def life (op : Op ι) (how : Ended) : List Event :=
  if how = .dispatched then [.dispatch] else queue op ++ ending op how

/-- The lines of a request, by what has become of it. -/
def lines (w : World P) (op : Op ι) : List Event :=
  (if op ∈ P.queued w.impl then queue op else []) ++ (w.endings op).flatMap (life op)

/-- A request waits until it has ended. -/
theorem mem_queued_iff (h : w.Inv) (hop : op ∈ w.initiated) :
    op ∈ P.queued w.impl ↔ w.endings op = [] := by
  rcases h.balanced.once hop with ⟨hwaits, hnone⟩ | ⟨hout, how, hone⟩
  · have hmem : op ∈ P.queued w.impl := List.count_pos_iff.mp (hwaits ▸ Nat.one_pos)
    exact iff_of_true hmem hnone
  · refine iff_of_false hout fun hnone => ?_
    exact List.cons_ne_nil _ _ (hone.symm.trans hnone)

/-- What was not requested neither waits nor has ended. -/
theorem lines_of_new (h : w.Inv) (hop : op ∉ w.initiated) :
    op ∉ P.queued w.impl ∧ w.endings op = [] := by
  refine ⟨fun hmem => hop (h.balanced.opened_of_pending hmem), ?_⟩
  refine List.eq_nil_iff_forall_not_mem.mpr fun how hmem => hop ?_
  exact h.balanced.opened_of_settled (Ledger.mem_endings.mp hmem)

/-- **One step** adds its own lines of an op to those that the op has. -/
theorem lines_step (hinv : s.Inv) (hstep : Endings.step s l = some t) (hasync : op.Async) :
    lines t.world op = lines s.world op ++
      (((ended s.world l).filter (·.1 = op)).map Prod.snd).flatMap (ending op) ++
        if queued s.world l = some op then queue op else [] := by
  have h := hinv.world
  obtain ⟨hinit, hlog⟩ := step_ended hstep
  have h' : t.world.Inv := (Endings.step_inv hinv hstep).world
  have hendings : t.world.endings op =
      s.world.endings op ++ ((ended s.world l).filter (·.1 = op)).map Prod.snd := by
    simp only [World.endings, World.ledger, Ledger.endings, hlog, List.filter_append,
      List.map_append]
  have hmem : ∀ how, how ∈ ((ended s.world l).filter (·.1 = op)).map Prod.snd ↔
      (op, how) ∈ ended s.world l := by
    simp
  generalize ((ended s.world l).filter (·.1 = op)).map Prod.snd = new at hendings hmem
  cases new with
  | nil =>
      have hsame : t.world.endings op = s.world.endings op := by simpa using hendings
      have hnone : ∀ how, (op, how) ∉ ended s.world l :=
        fun how he => List.not_mem_nil ((hmem how).mpr he)
      by_cases hreq : request l = some op
      · -- the op is queued by this step
        have hold := lines_of_new h (step_fresh hstep hreq)
        have hqueued : queued s.world l = some op :=
          ((request_ended h hstep hreq).resolve_right fun he => he.2.elim hnone).1
        have hin : op ∈ P.queued t.world.impl := by
          refine (mem_queued_iff h' ?_).mpr (hsame.trans hold.2)
          simp [hinit, hreq]
        simp [lines, hsame, hold, hqueued, hin]
      · have hqueued : queued s.world l ≠ some op := fun he => hreq (request_of_queued he)
        have hinit' : op ∈ t.world.initiated ↔ op ∈ s.world.initiated := by
          simp [hinit, hreq]
        have hin : op ∈ P.queued t.world.impl ↔ op ∈ P.queued s.world.impl := by
          by_cases hop : op ∈ s.world.initiated
          · rw [mem_queued_iff h hop, mem_queued_iff h' (hinit'.mpr hop), hsame]
          · exact iff_of_false (lines_of_new h' (hinit'.not.mpr hop)).1 (lines_of_new h hop).1
        simp [lines, hsame, hqueued, hin]
  | cons how rest =>
      have hhow : (op, how) ∈ ended s.world l := (hmem how).mp List.mem_cons_self
      -- nothing ends twice
      have hlength := h'.balanced.endings_length_le op
      change (t.world.endings op).length ≤ 1 at hlength
      rw [hendings, List.length_append, List.length_cons] at hlength
      have hold : s.world.endings op = [] := List.length_eq_zero_iff.mp (by omega)
      obtain rfl : rest = [] := List.length_eq_zero_iff.mp (by omega)
      have hone : t.world.endings op = [how] := by simp [hendings, hold]
      have hout : op ∉ P.queued t.world.impl := by
        have hop : op ∈ t.world.initiated := h'.balanced.opened_of_settled
          (Ledger.mem_endings.mp (hone ▸ List.mem_singleton_self how))
        rw [mem_queued_iff h' hop, hone]
        exact List.cons_ne_nil _ _
      have hqueued : queued s.world l ≠ some op := by
        intro he
        rcases request_ended h hstep (request_of_queued he) with hleft | hright
        · exact hleft.2 how hhow
        · exact Option.some_ne_none _ (he.symm.trans hright.1)
      have hdispatched := ended_dispatched h hstep hhow hasync
      by_cases hin : op ∈ P.queued s.world.impl
      · have hne : how ≠ .dispatched := fun he => hdispatched.mp he hin
        simp [lines, life, hold, hone, hout, hqueued, hin, hne]
      · obtain rfl := hdispatched.mpr hin
        simp [lines, life, ending, hold, hone, hout, hqueued, hin]

end Lines

/-! ## Runs -/

section Runs

variable {ι : Type u} [DecidableEq ι] {kind : Kind} {s t : Traced kind ι} {l : Label kind ι}
  {op : Op ι}

/-- Lines are those of one op. -/
theorem filter_log (other : Op ι) (lines : List Event) :
    ((log other lines).filter (·.1 = op)).map Prod.snd = if other = op then lines else [] := by
  induction lines with
  | nil => simp [log]
  | cons line lines ih =>
      rw [log] at ih
      by_cases hop : other = op <;> simp_all [log]

/-- The lines that end an op. -/
theorem filter_logEndings (ended : List (Op ι × Ended)) :
    ((logEndings ended).filter (·.1 = op)).map Prod.snd =
      ((ended.filter (·.1 = op)).map Prod.snd).flatMap (ending op) := by
  induction ended with
  | nil => rfl
  | cons e ended ih =>
      rw [logEndings] at ih
      rw [logEndings, List.flatMap_cons, List.filter_append, List.map_append, filter_log, ih]
      by_cases hop : e.1 = op <;> simp [hop]

/-- The lines of failed initiations. -/
def failedLines (s : Traced kind ι) (op : Op ι) : List Event :=
  (s.failed.filter (·.1 = op)).flatMap fun e => e.2.lines

/-- What a run keeps: the trace has the lines that fit what has become of every op. -/
structure Inv (s : Traced kind ι) : Prop where
  lifetime : s.lifetime.Inv
  nodup : (s.failed.map Prod.fst).Nodup
  failed : ∀ op, s.Failed op → op.Async ∧ op ∉ s.lifetime.world.initiated
  logged : ∀ op, op.Async → s.of op = failedLines s op ++ lines s.lifetime.world op
  ends : ∀ e ∈ s.lifetime.world.log, e.1.Async → e.2.OfHandler

/-- The primitive and its requests fit each other. -/
theorem Inv.world (h : Inv s) : s.lifetime.world.Inv := h.lifetime.world

/-- An initiation that throws leaves the waiters alone. -/
theorem fails_lists {c : (kind.primitive ι).Call} {impl left : (kind.primitive ι).State}
    (h : (kind.callCode c).fails impl = some left) :
    (kind.primitive ι).lists left = (kind.primitive ι).lists impl := by
  by_cases hkind : kind = .barrier
  · subst hkind
    cases c with
    | asyncArrive id slot =>
        obtain rfl := FailedInitiation.arrive_fails h
        rfl
    | tryArrive =>
        exact nomatch h.symm.trans
          (Primitive.sectionCode_fails (P := BarrierImpl.primitive) .tryArrive impl)
    | arrive id =>
        exact nomatch h.symm.trans
          (Primitive.sectionCode_fails (P := BarrierImpl.primitive) (.arrive id) impl)
  · rw [LockScope.Code.fails_of_clean (Kind.callCode_clean hkind c) h]

/-- A step that throws nothing. -/
theorem Inv.step_ok (h : Inv s) {l : Endings.Label (kind.primitive ι)}
    (hstep : step s (.ok l) = some t) : Inv t := by
  obtain ⟨hnew, lifetime, hlifetime, rfl⟩ := guard_map_iff.mp hstep
  obtain ⟨hinit, -⟩ := step_ended hlifetime
  refine ⟨Endings.step_inv h.lifetime hlifetime, h.nodup, fun op hop => ?_, fun op hasync => ?_,
    fun e he hasync => ?_⟩
  · refine ⟨(h.failed op hop).1, fun hmem => ?_⟩
    change op ∈ lifetime.world.initiated at hmem
    rw [hinit] at hmem
    rcases List.mem_append.mp hmem with hold | hreq
    · exact (h.failed op hop).2 hold
    · exact hnew op (by simpa using hreq) hop
  · have hqueued : (((queued s.lifetime.world l).toList.flatMap fun op => log op (queue op)).filter
        fun e : Op ι × Event => e.1 = op).map Prod.snd =
          if queued s.lifetime.world l = some op then queue op else [] := by
      cases queued s.lifetime.world l with
      | none => rfl
      | some other =>
          rw [Option.toList_some, List.flatMap_singleton, filter_log]
          by_cases hop : other = op <;> simp [hop]
    have hold : (s.trace.filter fun e => e.1 = op).map Prod.snd = _ := h.logged op hasync
    simp only [Traced.of, List.filter_append, List.map_append, filter_logEndings, hqueued, hold]
    show _ = failedLines s op ++ lines lifetime.world op
    rw [lines_step h.lifetime hlifetime hasync]
    simp only [List.append_assoc]
  · obtain ⟨new, hlog, hends⟩ := Endings.step_log h.world hlifetime
    change e ∈ lifetime.world.log at he
    rw [hlog] at he
    rcases List.mem_append.mp he with hold | hnow
    · exact h.ends e hold hasync
    · exact (hends e hnow hasync).ofHandler

/-- **An initiation that throws.** -/
theorem Inv.step_fail (h : Inv s) {c : (kind.primitive ι).Call} {failure : Failure}
    (hstep : step s (.fail c failure) = some t) : Inv t := by
  simp only [step] at hstep
  split at hstep
  · rename_i op left hreq hfails
    obtain ⟨⟨halive, hfresh, hnot, -⟩, rfl⟩ := guard_iff.mp hstep
    have hlists := fails_lists hfails
    have hqueued : (kind.primitive ι).queued left = (kind.primitive ι).queued _ :=
      congrArg List.flatten hlists
    have hasync : op.Async := by
      obtain ⟨⟨id, slot, hasync⟩, -⟩ :=
        (Kind.callCode_isSome_iff c s.lifetime.world.impl).mp (by rw [hfails]; rfl)
      obtain rfl := Option.some.inj (hreq.symm.trans hasync)
      exact fun hblocks => hblocks
    refine ⟨⟨⟨?_, ?_⟩, fun hdead => absurd (halive.symm.trans hdead) nofun⟩, ?_,
      fun other hother => ?_, fun other hother => ?_, h.ends⟩
    · have hbalanced := h.world.balanced
      rw [← hqueued] at hbalanced
      exact hbalanced
    · have hslots := h.world.slots
      rw [← hqueued] at hslots
      exact hslots
    · rw [List.map_append]
      refine List.nodup_append.mpr ⟨h.nodup, List.nodup_singleton _, fun a ha b hb hab => hnot ?_⟩
      obtain rfl : b = op := List.mem_singleton.mp hb
      exact hab ▸ ha
    · have hother : other ∈ s.failed.map Prod.fst ∨ other = op := by
        simpa [Traced.Failed] using hother
      rcases hother with hold | rfl
      · exact h.failed other hold
      · exact ⟨hasync, hfresh other hreq⟩
    · have hlines : lines { s.lifetime.world with impl := left } other =
          lines s.lifetime.world other := by
        simp only [lines, World.endings, World.ledger, hqueued]
      show ((s.trace ++ log op failure.lines).filter (·.1 = other)).map Prod.snd =
        ((s.failed ++ [(op, failure)]).filter (·.1 = other)).flatMap _ ++
          lines { s.lifetime.world with impl := left } other
      rw [hlines, List.filter_append, List.map_append, filter_log]
      show s.of other ++ _ = _
      rw [h.logged other hother, failedLines]
      by_cases hop : op = other
      · subst hop
        have hnone := lines_of_new h.world (hfresh op hreq)
        simp [lines, hnone]
      · simp [hop]
  · cases hstep

/-- A new primitive. -/
theorem Inv.init {impl : (kind.primitive ι).State} (himpl : (kind.primitive ι).queued impl = []) :
    Inv (Traced.init impl : Traced kind ι) := by
  refine ⟨.init himpl, List.nodup_nil, fun op hop => (nomatch hop), fun op _ => ?_,
    fun e he => nomatch he⟩
  show [] = [] ++ lines (World.init impl) op
  simp [lines, World.endings, World.ledger, World.init, Ledger.endings, himpl]

/-- Every step keeps it. -/
theorem Inv.step (h : Inv s) (hstep : step s l = some t) : Inv t := by
  cases l with
  | ok l => exact h.step_ok hstep
  | fail c failure => exact h.step_fail hstep

/-- Every state of a run has it. -/
theorem run_inv {impl : (kind.primitive ι).State} (himpl : (kind.primitive ι).queued impl = [])
    {ls : List (Label kind ι)} (hrun : run step (.init impl) ls = some t) : Inv t :=
  run_invariant (fun _ _ _ h hstep => h.step hstep) (Inv.init himpl) hrun

/-- A failed initiation has its own lines. -/
theorem Inv.of_failed (h : Inv t) {failure : Failure} (hmem : (op, failure) ∈ t.failed) :
    t.of op = failure.lines := by
  obtain ⟨hasync, hnew⟩ := h.failed op (List.mem_map.mpr ⟨_, hmem, rfl⟩)
  have hnone := lines_of_new h.world hnew
  have hone : t.failed.filter (·.1 = op) = [(op, failure)] := by
    have hfailed := h.nodup
    generalize t.failed = failed at hmem hfailed
    induction failed with
    | nil => cases hmem
    | cons e failed ih =>
        rw [List.map_cons, List.nodup_cons] at hfailed
        rcases List.mem_cons.mp hmem with rfl | hrest
        · rw [List.filter_cons_of_pos (by simp), List.filter_eq_nil_iff.mpr]
          intro e he heq
          exact hfailed.1 (List.mem_map.mpr ⟨e, he, of_decide_eq_true heq⟩)
        · have hne : e.1 ≠ op := fun he => hfailed.1 (he ▸ List.mem_map.mpr ⟨_, hrest, rfl⟩)
          rw [List.filter_cons_of_neg (by simpa using hne)]
          exact ih hrest hfailed.2
  simp [h.logged op hasync, failedLines, hone, lines, hnone]

/-- An initiation that has not failed has the lines of its request. -/
theorem Inv.of_not_failed (h : Inv t) (hasync : op.Async) (hnot : ¬ t.Failed op) :
    t.of op = lines t.lifetime.world op := by
  have hnone : t.failed.filter (·.1 = op) = [] := by
    refine List.filter_eq_nil_iff.mpr fun e he heq => hnot ?_
    exact List.mem_map.mpr ⟨e, he, of_decide_eq_true heq⟩
  rw [h.logged op hasync, failedLines, hnone]
  rfl

/-- What the lines of an op can be. -/
theorem lives_of_inv (h : Inv t) (hasync : op.Async) :
    (∃ failure, (op, failure) ∈ t.failed ∧ t.of op = failure.lines) ∨
      (op ∉ t.lifetime.world.initiated ∧ t.of op = []) ∨
      (t.lifetime.Waits op ∧ t.of op = queue op) ∨
      (t.lifetime.EndedBy op .dispatched ∧ t.of op = [.dispatch]) ∨
      (∃ ec, (ec = .success ∨ ec = .operationAborted) ∧ t.lifetime.EndedBy op (.posted ec) ∧
        t.of op = queue op ++ complete op ec) ∨
      (t.lifetime.EndedBy op .destroyed ∧ t.of op = queue op ++ shutdown op) := by
  by_cases hfailed : t.Failed op
  · obtain ⟨e, he, rfl⟩ := List.mem_map.mp hfailed
    exact Or.inl ⟨e.2, he, h.of_failed he⟩
  · have hof := h.of_not_failed hasync hfailed
    right
    by_cases hop : op ∈ t.lifetime.world.initiated
    · right
      rcases h.lifetime.once hop with hwaits | ⟨how, hqueued, hended⟩
      · refine Or.inl ⟨hwaits, ?_⟩
        rw [hof, lines, if_pos hwaits.queued, hwaits.2.2]
        simp
      · have hlife : t.of op = life op how := by
          rw [hof, lines, if_neg hqueued, hended]
          simp
        have hhow : how.OfHandler := h.ends (op, how)
          (Ledger.mem_endings.mp (hended ▸ List.mem_singleton_self how : how ∈ _)) hasync
        right
        rcases hhow with rfl | rfl | rfl | rfl
        · exact Or.inl ⟨⟨hqueued, hended⟩, hlife⟩
        · exact Or.inr (Or.inl ⟨_, Or.inl rfl, ⟨hqueued, hended⟩, hlife⟩)
        · exact Or.inr (Or.inl ⟨_, Or.inr rfl, ⟨hqueued, hended⟩, hlife⟩)
        · exact Or.inr (Or.inr ⟨⟨hqueued, hended⟩, hlife⟩)
    · have hnone := lines_of_new h.world hop
      exact Or.inl ⟨hop, by simp [hof, lines, hnone]⟩

/-- What an op has after these lines; `none` if one of them made no sense. -/
def holding (trace : List (Op ι × Event)) (op : Op ι) : Option Holding :=
  run Holding.step .nothing ((trace.filter (·.1 = op)).map Prod.snd)

/-- The lives of an op, with what it has at the end of each. -/
inductive Traced.Lives (t : Traced kind ι) (op : Op ι) : Prop where
  | unborn (hop : op ∉ t.lifetime.world.initiated) (hof : t.of op = [])
  | failed (failure : Failure) (hop : (op, failure) ∈ t.failed) (hfailure : failure ≠ .assign)
      (hof : holding t.trace op = some (.spent .destroyed))
  | leaked (hop : (op, .assign) ∈ t.failed)
      (hof : holding t.trace op = some ⟨true, true, false, false, none⟩)
  | waits (hop : t.lifetime.Waits op)
      (hof : holding t.trace op = some ⟨true, true, op.slot.isSome, true, none⟩)
  | ended (how : Ended) (hhow : how.OfHandler) (hop : t.lifetime.EndedBy op how)
      (hof : holding t.trace op = some (.spent how))

/-- **The lives of an op.** For each kind of primitive, in every state of every run, of calls,
emits, initiations that throw, a shutdown and a destructor: the lines that were run for an op of a
handler make sense in their order, and leave it with nothing, its handler destroyed, if its
initiation has thrown elsewhere than in `slot.assign`, with memory and work, but no list, if it has
thrown there; with memory, work, a handler in its slot and a place in a list, if it waits; and with
nothing, its handler dispatched, posted or destroyed, when it has ended so. -/
theorem lives (kind : Kind) {impl : (kind.primitive ι).State}
    (himpl : (kind.primitive ι).queued impl = []) {ls : List (Label kind ι)} {t : Traced kind ι}
    (hrun : run step (.init impl) ls = some t) {op : Op ι} (hasync : op.Async) : t.Lives op := by
  have hholding : holding t.trace op = run Holding.step .nothing (t.of op) := rfl
  cases op with
  | blocking id => exact absurd trivial hasync
  | async id slot =>
      rcases lives_of_inv (run_inv himpl hrun) hasync with ⟨failure, hop, hof⟩ | ⟨hop, hof⟩ |
        ⟨hop, hof⟩ | ⟨hop, hof⟩ | ⟨ec, hec, hop, hof⟩ | ⟨hop, hof⟩
      · rw [hof] at hholding
        cases failure with
        | assign => exact .leaked hop hholding
        | parameters moved => cases moved <;> exact .failed _ hop nofun hholding
        | arguments | allocate | executor | handler | predicate =>
            exact .failed _ hop nofun hholding
      · exact .unborn hop hof
      · rw [hof] at hholding
        cases slot <;> exact .waits hop hholding
      · rw [hof] at hholding
        exact .ended _ (Or.inl rfl) hop hholding
      · rw [hof] at hholding
        have hhow : (Ended.posted ec).OfHandler := by
          rcases hec with rfl | rfl <;> simp [Ended.OfHandler]
        cases slot <;> exact .ended _ hhow hop hholding
      · rw [hof] at hholding
        have hhow : Ended.destroyed.OfHandler := by simp [Ended.OfHandler]
        cases slot <;> exact .ended _ hhow hop hholding

/-- A mutex that is taken: the operation `0` is cancelled through its slot, a move of the handler of
the operation `1` throws, and the operation `2` waits. -/
theorem lives_cancelled :
    ∃ t : Traced .mutex Nat,
      run step (.init (MutexImpl.init true) : Traced .mutex Nat)
          [.ok (.call MutexImpl.Call.tryLock), .ok (.call (MutexImpl.Call.asyncLock 0 (some 7))),
            .fail (MutexImpl.Call.asyncLock 1 none) .handler,
            .ok (.call (MutexImpl.Call.asyncLock 2 (some 8))), .ok (.emit 7 1)] = some t ∧
      t.of (.async 0 (some 7)) = [.allocate, .startWork, .assign, .link, .clear, .unlink,
        .deallocate, .post .operationAborted, .finishWork] ∧
      t.of (.async 1 none) =
        [.allocate, .startWork, .finishWork, .destroyHandler, .deallocate] ∧
      t.of (.async 2 (some 8)) = [.allocate, .startWork, .assign, .link] ∧
      t.Lives (.async 0 (some 7)) ∧ t.Lives (.async 1 none) ∧ t.Lives (.async 2 (some 8)) := by
  obtain ⟨t, hrun, hlines⟩ : ∃ t : Traced .mutex Nat,
      run step (.init (MutexImpl.init true) : Traced .mutex Nat)
          [.ok (.call MutexImpl.Call.tryLock), .ok (.call (MutexImpl.Call.asyncLock 0 (some 7))),
            .fail (MutexImpl.Call.asyncLock 1 none) .handler,
            .ok (.call (MutexImpl.Call.asyncLock 2 (some 8))), .ok (.emit 7 1)] = some t ∧
      t.of (.async 0 (some 7)) = [.allocate, .startWork, .assign, .link, .clear, .unlink,
        .deallocate, .post .operationAborted, .finishWork] ∧
      t.of (.async 1 none) =
        [.allocate, .startWork, .finishWork, .destroyHandler, .deallocate] ∧
      t.of (.async 2 (some 8)) = [.allocate, .startWork, .assign, .link] := ⟨_, rfl, rfl, rfl, rfl⟩
  obtain ⟨hcancelled, hfailed, hwaits⟩ := hlines
  exact ⟨t, hrun, hcancelled, hfailed, hwaits, lives .mutex rfl hrun fun h => h,
    lives .mutex rfl hrun fun h => h, lives .mutex rfl hrun fun h => h⟩

/-! ## Memory and work -/

/-- The op has memory and work. -/
def Traced.Holds (s : Traced kind ι) (op : Op ι) : Prop :=
  (s.of op).count .allocate = (s.of op).count .deallocate + 1 ∧
    (s.of op).count .startWork = (s.of op).count .finishWork + 1

/-- The op has given back what it had. -/
def Traced.Released (s : Traced kind ι) (op : Op ι) : Prop :=
  (s.of op).count .allocate = (s.of op).count .deallocate ∧
    (s.of op).count .startWork = (s.of op).count .finishWork

omit [DecidableEq ι] in
/-- Lines for the slot are not those of memory and work. -/
theorem count_slotLine {line other : Event} (h : line ≠ other) (op : Op ι) :
    (slotLine op line).count other = 0 := by
  unfold slotLine
  split
  · rfl
  · exact List.count_eq_zero.mpr fun hmem => h (List.mem_singleton.mp hmem).symm

omit [DecidableEq ι] in
/-- An initiation takes memory and work. -/
theorem queue_holds (hasync : op.Async) :
    (queue op).count .allocate = (queue op).count .deallocate + 1 ∧
      (queue op).count .startWork = (queue op).count .finishWork + 1 := by
  cases op with
  | blocking id => exact absurd trivial hasync
  | async id slot => simp [queue, count_slotLine]

omit [DecidableEq ι] in
/-- `complete` gives both back. -/
theorem complete_releases (hasync : op.Async) (ec : ErrorCode) :
    (queue op ++ complete op ec).count .allocate = (queue op ++ complete op ec).count .deallocate ∧
      (queue op ++ complete op ec).count .startWork =
        (queue op ++ complete op ec).count .finishWork := by
  obtain ⟨hmemory, hwork⟩ := queue_holds hasync
  simp only [List.count_append, hmemory, hwork, complete]
  simp [count_slotLine]

omit [DecidableEq ι] in
/-- `shutdown` gives both back. -/
theorem shutdown_releases (hasync : op.Async) :
    (queue op ++ shutdown op).count .allocate = (queue op ++ shutdown op).count .deallocate ∧
      (queue op ++ shutdown op).count .startWork =
        (queue op ++ shutdown op).count .finishWork := by
  obtain ⟨hmemory, hwork⟩ := queue_holds hasync
  simp only [List.count_append, hmemory, hwork, shutdown]
  simp [count_slotLine]

/-- A step adds the initiation that it throws out of. -/
theorem failed_step {failure : Failure} (hstep : step s l = some t) :
    (∃ op, (op, failure) ∈ t.failed) ↔
      (∃ op, (op, failure) ∈ s.failed) ∨ ∃ c, l = .fail c failure := by
  cases l with
  | ok l =>
      obtain ⟨-, lifetime, -, rfl⟩ := guard_map_iff.mp hstep
      simp
  | fail c other =>
      simp only [step] at hstep
      split at hstep
      · obtain ⟨-, rfl⟩ := guard_iff.mp hstep
        simp only [List.mem_append, List.mem_singleton, Prod.mk.injEq, exists_or]
        refine or_congr_right ⟨?_, ?_⟩
        · rintro ⟨op, -, rfl⟩
          exact ⟨c, rfl⟩
        · rintro ⟨c', he⟩
          exact ⟨_, rfl, (Label.fail.inj he).2.symm⟩
      · cases hstep

/-- A run has the initiations that it throws out of. -/
theorem failed_run (failure : Failure) {ls : List (Label kind ι)} (hrun : run step s ls = some t) :
    (∃ op, (op, failure) ∈ t.failed) ↔
      (∃ op, (op, failure) ∈ s.failed) ∨ ∃ c, .fail c failure ∈ ls := by
  induction ls generalizing s with
  | nil =>
      obtain rfl := Option.some.inj hrun
      simp
  | cons l ls ih =>
      obtain ⟨u, hu, hrest⟩ := run_cons.mp hrun
      rw [ih hrest, failed_step hu]
      simp only [List.mem_cons, exists_or, eq_comm, or_assoc]

/-- **Memory and work are held while an op waits, and no longer.** For each kind of primitive and
every run, of calls, emits, initiations that throw, a shutdown and a destructor: an op of a handler
has memory and work just if it waits, exactly when no `slot.assign` has thrown. -/
theorem held_while_waiting (kind : Kind) {impl : (kind.primitive ι).State}
    (himpl : (kind.primitive ι).queued impl = []) {ls : List (Label kind ι)} {t : Traced kind ι}
    (hrun : run step (.init impl) ls = some t) :
    (∀ op : Op ι, op.Async →
        (op ∈ (kind.primitive ι).queued t.lifetime.world.impl ∧ t.Holds op) ∨
        (op ∉ (kind.primitive ι).queued t.lifetime.world.impl ∧ t.Released op)) ↔
      ∀ c, .fail c .assign ∉ ls := by
  have h := run_inv himpl hrun
  have hfailed := failed_run .assign hrun
  simp only [Traced.init, List.not_mem_nil, exists_false, false_or] at hfailed
  constructor
  · intro hheld c hc
    obtain ⟨op, hop⟩ := hfailed.mpr ⟨c, hc⟩
    have hof := h.of_failed hop
    obtain ⟨hasync, hnew⟩ := h.failed op (List.mem_map.mpr ⟨_, hop, rfl⟩)
    rcases hheld op hasync with ⟨hin, -⟩ | ⟨-, hreleased, -⟩
    · exact (lines_of_new h.world hnew).1 hin
    · rw [hof] at hreleased
      exact absurd hreleased (by decide)
  · intro hassign op hasync
    rcases lives_of_inv h hasync with ⟨failure, hmem, hof⟩ | ⟨hnew, hof⟩ | ⟨hone, hof⟩ |
      ⟨hended, hof⟩ | ⟨ec, -, hended, hof⟩ | ⟨hended, hof⟩
    · have hnew := (h.failed op (List.mem_map.mpr ⟨_, hmem, rfl⟩)).2
      refine Or.inr ⟨(lines_of_new h.world hnew).1, ?_⟩
      rw [Traced.Released, hof]
      cases failure with
      | assign => exact absurd (hfailed.mp ⟨op, hmem⟩) fun hthrown => hthrown.elim hassign
      | parameters moved => cases moved <;> decide
      | arguments | allocate | executor | handler | predicate => decide
    · exact Or.inr ⟨(lines_of_new h.world hnew).1, by rw [Traced.Released, hof]; decide⟩
    · exact Or.inl ⟨hone.queued, by rw [Traced.Holds, hof]; exact queue_holds hasync⟩
    · exact Or.inr ⟨hended.1, by rw [Traced.Released, hof]; decide⟩
    · exact Or.inr ⟨hended.1, by rw [Traced.Released, hof]; exact complete_releases hasync ec⟩
    · exact Or.inr ⟨hended.1, by rw [Traced.Released, hof]; exact shutdown_releases hasync⟩

/-- The operation `0` waits when the slot of the operation `1` takes no handler. -/
theorem held_while_waiting_leaked :
    ∃ t : Traced .mutex Nat,
      run step (.init (MutexImpl.init true) : Traced .mutex Nat)
          [.ok (.call MutexImpl.Call.tryLock), .ok (.call (MutexImpl.Call.asyncLock 0 none)),
            .fail (MutexImpl.Call.asyncLock 1 (some 7)) .assign, .ok .destroy] = some t ∧
      t.Released (.async 0 none) ∧ t.Holds (.async 1 (some 7)) ∧
      ((∀ op : Op Nat, op.Async →
          (op ∈ (Kind.mutex.primitive Nat).queued t.lifetime.world.impl ∧ t.Holds op) ∨
          (op ∉ (Kind.mutex.primitive Nat).queued t.lifetime.world.impl ∧ t.Released op)) ↔
        ∀ c : (Kind.mutex.primitive Nat).Call, Label.fail c .assign ∉
          ([.ok (.call MutexImpl.Call.tryLock), .ok (.call (MutexImpl.Call.asyncLock 0 none)),
            .fail (MutexImpl.Call.asyncLock 1 (some 7)) .assign, .ok .destroy] :
              List (Label .mutex Nat))) := by
  obtain ⟨t, hrun, hreleased, hholds⟩ : ∃ t : Traced .mutex Nat,
      run step (.init (MutexImpl.init true) : Traced .mutex Nat)
          [.ok (.call MutexImpl.Call.tryLock), .ok (.call (MutexImpl.Call.asyncLock 0 none)),
            .fail (MutexImpl.Call.asyncLock 1 (some 7)) .assign, .ok .destroy] = some t ∧
      t.Released (.async 0 none) ∧ t.Holds (.async 1 (some 7)) :=
    ⟨_, rfl, ⟨rfl, rfl⟩, ⟨rfl, rfl⟩⟩
  exact ⟨t, hrun, hreleased, hholds, held_while_waiting .mutex rfl hrun⟩

/-! ## Between two lines -/

/-- After any of the lines of a run the op has something that makes sense. -/
theorem holding_isSome {before rest : List (Op ι × Event)} {h : Holding}
    (hall : holding (before ++ rest) op = some h) :
    ∃ h', holding before op = some h' ∧
      run Holding.step h' ((rest.filter (·.1 = op)).map Prod.snd) = some h := by
  rw [holding, List.filter_append, List.map_append] at hall
  exact run_append.mp hall

/-- A line of an op in the trace is one of its lines. -/
theorem mem_filter_trace {trace : List (Op ι × Event)} {line : Event} :
    line ∈ (trace.filter (·.1 = op)).map Prod.snd ↔ (op, line) ∈ trace := by
  simp

/-- What an op has between two lines, `before` being those up to there and `rest` the others. If its
handler is posted next, then it was not posted before and is not posted again. -/
structure Between (before rest : List (Op ι × Event)) (op : Op ι) (h : Holding) : Prop where
  holding : holding before op = some h
  sound : h.Sound
  posted : ∀ ec after, rest = (op, .post ec) :: after →
    h = ⟨false, true, false, false, none⟩ ∧ ∀ code, (op, .post code) ∉ before ++ after

/-- **A handler is posted after everything it needs is given back, but for the work.** For each kind
of primitive and every run, of calls, emits, initiations that throw, a shutdown and a destructor,
and between any two lines of it: an op that is in a list, or whose slot holds its cancellation
handler, has its memory, its work and its handler; and when its handler is posted, the op is in no
list, its slot is empty and its memory was given back, while its executor has work; and it is posted
once. -/
theorem posted_with_work (kind : Kind) {impl : (kind.primitive ι).State}
    (himpl : (kind.primitive ι).queued impl = []) {ls : List (Label kind ι)} {t : Traced kind ι}
    (hrun : run step (.init impl) ls = some t) {op : Op ι} (hasync : op.Async)
    {before rest : List (Op ι × Event)} (htrace : t.trace = before ++ rest) :
    ∃ h, Between before rest op h := by
  obtain ⟨last, hlast⟩ : ∃ last, holding (before ++ rest) op = some last := by
    rw [← htrace]
    cases lives kind himpl hrun hasync with
    | unborn hop hof => exact ⟨.nothing, by rw [holding]; exact congrArg (run _ _) hof⟩
    | failed _ _ _ hof | leaked _ hof | waits _ hof | ended _ _ _ hof => exact ⟨_, hof⟩
  obtain ⟨h, hbefore, hrest⟩ := holding_isSome hlast
  have hsound : h.Sound := run_invariant (fun _ _ _ hs hk => hs.step hk) (I := Holding.Sound)
    (by simp [Holding.Sound, Holding.nothing]) hbefore
  refine ⟨h, hbefore, hsound, fun ec after hpost => ?_⟩
  subst hpost
  rw [List.filter_cons_of_pos (by simp), List.map_cons] at hrest
  obtain ⟨u, hu, hafter⟩ := run_cons.mp hrest
  obtain ⟨⟨hwork, hmemory, ⟨hslot, hlinked⟩, hkept⟩, rfl⟩ := guard_iff.mp hu
  refine ⟨?_, fun code hmem => ?_⟩
  · obtain ⟨memory, work, slot, linked, ended⟩ := h
    simp_all
  · rcases List.mem_append.mp hmem with hmem | hmem
    · exact Holding.not_posted_of_kept hkept hbefore code (mem_filter_trace.mpr hmem)
    · have hended : some (Ended.posted ec) ≠ none := nofun
      exact (Holding.not_posted_of_ended hended hafter).2 code (mem_filter_trace.mpr hmem)

/-- The lock is handed to the operation `0`. -/
theorem posted_with_work_unlock :
    ∃ (t : Traced .mutex Nat) (before after : List (Op Nat × Event)) (h : Holding),
      run step (.init (MutexImpl.init true) : Traced .mutex Nat)
          [.ok (.call MutexImpl.Call.tryLock),
            .ok (.call (MutexImpl.Call.asyncLock 0 (some 7))),
            .ok (.call MutexImpl.Call.unlock)] = some t ∧
      t.trace = before ++ (.async 0 (some 7), .post .success) :: after ∧
      Between before ((.async 0 (some 7), .post .success) :: after) (.async 0 (some 7)) h := by
  obtain ⟨t, hrun, before, after, htrace⟩ : ∃ t : Traced .mutex Nat,
      run step (.init (MutexImpl.init true) : Traced .mutex Nat)
          [.ok (.call MutexImpl.Call.tryLock),
            .ok (.call (MutexImpl.Call.asyncLock 0 (some 7))),
            .ok (.call MutexImpl.Call.unlock)] = some t ∧
      ∃ before after, t.trace = before ++ (.async 0 (some 7), .post .success) :: after :=
    ⟨_, rfl, (log (.async 0 (some 7)) [.allocate, .startWork, .assign, .link, .clear, .unlink,
      .deallocate]), [(.async 0 (some 7), .finishWork)], rfl⟩
  have hasync : (Op.async 0 (some 7)).Async := fun h => h
  obtain ⟨h, hbetween⟩ := posted_with_work .mutex rfl hrun hasync htrace
  exact ⟨t, before, after, h, hrun, htrace, hbetween⟩

end Runs

end Sam.Resources
