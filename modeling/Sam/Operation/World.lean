import Mathlib.Logic.Function.Basic
import Sam.Library.Ledger
import Sam.Operation.Primitive

/-!
# The life of an op

What happens around the critical sections of a primitive: an op is made and its cancellation handler
installed, and later the op is completed or shut down, which clears its slot. `World` is a primitive
with the slots of its ops and a log of what became of every request; `World.ledger` reads it as a
ledger. The atomic steps, the race of a cancellation and the race of a shutdown are all put together
from the functions of this module, and `World.Inv` is what they keep.
-/

namespace Sam

universe u

/-- What became of a request. `dispatched`, `posted` and `destroyed` are the ends of a handler,
`returned` and `woken` those of a blocking call; both of the latter come with the error that the
call returns. -/
inductive Ended where
  | dispatched
  | posted (ec : ErrorCode)
  | destroyed
  | returned (ec : ErrorCode)
  | woken (ec : ErrorCode)
  deriving DecidableEq, Repr

/-- The ways in which a handler ends. -/
def Ended.OfHandler (how : Ended) : Prop :=
  how = .dispatched ∨ how = .posted .success ∨ how = .posted .operationAborted ∨ how = .destroyed

namespace Op

variable {ι : Type u}

/-- The call is granted, or fails, without an op: a handler is dispatched, a blocking call returns.
-/
def immediate : Outcome → Op ι → Ended
  | _, async _ _ => .dispatched
  | .failed ec, blocking _ => .returned ec
  | _, blocking _ => .returned .success

/-- `complete`: a handler is posted, a blocking call is woken. -/
def completed (ec : ErrorCode) : Op ι → Ended
  | async _ _ => .posted ec
  | blocking _ => .woken ec

/-- `shutdown`: a handler is destroyed, a blocking call is woken with an error. -/
def shutDown : Op ι → Ended
  | async _ _ => .destroyed
  | blocking _ => .woken .shutDown

/-- How the handlers end. -/
theorem async_ends {op : Op ι} (h : op.Async) (o : Outcome) (ec : ErrorCode) :
    op.immediate o = .dispatched ∧ op.completed ec = .posted ec ∧ op.shutDown = .destroyed := by
  cases op with
  | blocking id => exact absurd trivial h
  | async id slot => cases o <;> exact ⟨rfl, rfl, rfl⟩

end Op

/-- A primitive, the op whose cancellation handler each slot holds, the requests made so far and
what became of those that have ended, in order. -/
structure World {ι : Type u} [DecidableEq ι] (P : Primitive ι) where
  impl : P.State
  slots : Nat → Option (Op ι)
  initiated : List (Op ι)
  log : List (Op ι × Ended)

namespace World

variable {ι : Type u} [DecidableEq ι] {P : Primitive ι}

/-- A primitive that nobody has used. -/
def init (s : P.State) : World P := ⟨s, fun _ => none, [], []⟩

/-- `slot.assign`, when the slot of the op is connected. -/
def assign (w : World P) (op : Op ι) : World P :=
  match op.slot with
  | some k => { w with slots := Function.update w.slots k (some op) }
  | none => w

/-- `slot.clear()`, when the slot of the op is connected. -/
def clear (w : World P) (op : Op ι) : World P :=
  match op.slot with
  | some k => { w with slots := Function.update w.slots k none }
  | none => w

/-- The end of a request. -/
def record (w : World P) (op : Op ι) (how : Ended) : World P :=
  { w with log := w.log ++ [(op, how)] }

/-- `complete` or `shutdown` of an op, apart from its unlinking. -/
def finish (how : Op ι → Ended) (w : World P) (op : Op ι) : World P :=
  (w.clear op).record op (how op)

/-- `complete` or `shutdown` of these ops, one after the other. -/
def finishAll (how : Op ι → Ended) (w : World P) (ops : List (Op ι)) : World P :=
  ops.foldl (finish how) w

/-- A call: its critical section, the ops that this completes, and what becomes of its own op. -/
def call (w : World P) (c : P.Call) : World P :=
  let r := P.call w.impl c
  let w := { w with impl := r.state, initiated := w.initiated ++ (P.request c).toList }
  let w := w.finishAll (Op.completed .success) r.completed
  match P.request c with
  | none => w
  | some op =>
      -- the last arrival at a barrier completes its own op with the others
      if r.outcome = .queued then w.assign op
      else if op ∈ r.completed then w
      else w.record op (op.immediate r.outcome)

/-- The cancellation handler of an op, once it has the lock. A handler that checks the slot again
only learns whether the slot is connected. -/
def cancel (w : World P) (op : Op ι) : World P :=
  -- `!sl.is_connected()`, which `clear()` does not make true
  if P.rechecks ∧ op.slot = none then w
  else { w with impl := P.unlink w.impl op }.finish (Op.completed .operationAborted) op

/-- The cancellation handler that an emit for this slot runs, by its op. A type of `0` is
`cancellation_type::none`. -/
def handler (w : World P) (k : Nat) (type : UInt32) : Option (Op ι) :=
  if type ≠ 0 then w.slots k else none

/-- The waiter lists are taken, and the ops on them are shut down or completed. -/
def drain (how : Op ι → Ended) (w : World P) (ops : List (Op ι)) : World P :=
  { w with impl := P.takeAll w.impl }.finishAll how ops

/-- The requests as a ledger, when these ops are still pending. -/
def ledger (w : World P) (pending : List (Op ι)) : Ledger (Op ι) Ended :=
  ⟨w.initiated, pending, w.log⟩

/-- How a request has ended, each time. -/
def endings (w : World P) (op : Op ι) : List Ended := (w.ledger (P.queued w.impl)).endings op

/-! ## Ending ops -/

section Finish

variable {how : Op ι → Ended} {w : World P} {op : Op ι} {k : Nat}

@[simp] theorem assign_impl : (w.assign op).impl = w.impl := by unfold assign; split <;> rfl

@[simp] theorem assign_initiated : (w.assign op).initiated = w.initiated := by
  unfold assign; split <;> rfl

@[simp] theorem assign_log : (w.assign op).log = w.log := by unfold assign; split <;> rfl

@[simp] theorem finish_impl : (w.finish how op).impl = w.impl := by
  unfold finish clear; split <;> rfl

@[simp] theorem finish_initiated : (w.finish how op).initiated = w.initiated := by
  unfold finish clear; split <;> rfl

@[simp] theorem finish_log : (w.finish how op).log = w.log ++ [(op, how op)] := by
  unfold finish clear; split <;> rfl

/-- Which handlers are installed after `slot.assign`. -/
theorem assign_slots {q : Op ι} (h : (w.assign op).slots k = some q) :
    w.slots k = some q ∨ (q = op ∧ op.slot = some k) := by
  unfold assign at h
  split at h
  · rename_i j hslot
    have h : Function.update w.slots j (some op) k = some q := h
    by_cases hk : k = j
    · subst hk
      rw [Function.update_self] at h
      exact Or.inr ⟨(Option.some.inj h).symm, hslot⟩
    · rw [Function.update_of_ne hk] at h
      exact Or.inl h
  · exact Or.inl h

/-- The slot of an op that ended is empty. -/
theorem finish_slots {q : Op ι} (h : (w.finish how op).slots k = some q) :
    w.slots k = some q ∧ op.slot ≠ some k := by
  unfold finish clear at h
  split at h
  · rename_i j hslot
    have h : Function.update w.slots j none k = some q := h
    by_cases hk : k = j
    · subst hk
      rw [Function.update_self] at h
      cases h
    · rw [Function.update_of_ne hk] at h
      rw [hslot]
      exact ⟨h, fun he => hk (Option.some.inj he).symm⟩
  · rename_i hslot
    exact ⟨h, by simp [hslot]⟩

/-- `slot.assign` installs the handler of the op. -/
theorem assign_slots_self (h : op.slot = some k) : (w.assign op).slots k = some op := by
  simp only [assign, h, Function.update_self]

/-- `slot.assign` leaves the other slots alone. -/
theorem assign_slots_of_ne (h : op.slot ≠ some k) : (w.assign op).slots k = w.slots k := by
  unfold assign
  split
  · rename_i j hslot
    have hk : k ≠ j := fun he => h (he ▸ hslot)
    exact Function.update_of_ne hk _ _
  · rfl

/-- Ending an op leaves the slots of others alone. -/
theorem finish_slots_of_ne (h : op.slot ≠ some k) : (w.finish how op).slots k = w.slots k := by
  unfold finish clear
  split
  · rename_i j hslot
    have hk : k ≠ j := fun he => h (he ▸ hslot)
    exact Function.update_of_ne hk _ _
  · rfl

theorem finishAll_cons (ops : List (Op ι)) :
    w.finishAll how (op :: ops) = (w.finish how op).finishAll how ops := rfl

@[simp] theorem finishAll_impl (ops : List (Op ι)) : (w.finishAll how ops).impl = w.impl := by
  induction ops generalizing w with
  | nil => rfl
  | cons op ops ih => rw [finishAll_cons, ih, finish_impl]

@[simp] theorem finishAll_initiated (ops : List (Op ι)) :
    (w.finishAll how ops).initiated = w.initiated := by
  induction ops generalizing w with
  | nil => rfl
  | cons op ops ih => rw [finishAll_cons, ih, finish_initiated]

@[simp] theorem finishAll_log (ops : List (Op ι)) :
    (w.finishAll how ops).log = w.log ++ ops.map fun op => (op, how op) := by
  induction ops generalizing w with
  | nil => simp [finishAll]
  | cons op ops ih => simp [finishAll_cons, ih]

/-- The slots of ops that ended are empty. -/
theorem finishAll_slots {ops : List (Op ι)} {q : Op ι}
    (h : (w.finishAll how ops).slots k = some q) :
    w.slots k = some q ∧ ∀ op ∈ ops, op.slot ≠ some k := by
  induction ops generalizing w with
  | nil => exact ⟨h, by simp⟩
  | cons op ops ih =>
      obtain ⟨hslots, hops⟩ := @ih (w.finish how op) h
      obtain ⟨hold, hop⟩ := finish_slots hslots
      exact ⟨hold, List.forall_mem_cons.mpr ⟨hop, hops⟩⟩

/-- Ending ops leaves the slots of others alone. -/
theorem finishAll_slots_of_ne {ops : List (Op ι)} (h : ∀ op ∈ ops, op.slot ≠ some k) :
    (w.finishAll how ops).slots k = w.slots k := by
  induction ops generalizing w with
  | nil => rfl
  | cons op ops ih =>
      obtain ⟨hop, hops⟩ := List.forall_mem_cons.mp h
      rw [finishAll_cons, ih hops, finish_slots_of_ne hop]

end Finish

/-! ## Calls -/

section Call

variable {w : World P} {c : P.Call} {k : Nat}

/-- What a call logs. -/
def entries (w : World P) (c : P.Call) : List (Op ι × Ended) :=
  let r := P.call w.impl c
  r.completed.map (fun op => (op, op.completed .success)) ++
    ((P.request c).toList.filter fun op => r.outcome ≠ .queued ∧ op ∉ r.completed).map
      fun op => (op, op.immediate r.outcome)

/-- A call as a change of state. -/
theorem call_eq : (w.call c).impl = (P.call w.impl c).state ∧
    (w.call c).initiated = w.initiated ++ (P.request c).toList ∧
      (w.call c).log = w.log ++ w.entries c := by
  unfold call entries
  cases hreq : P.request c with
  | none => simp
  | some op =>
      by_cases hqueued : (P.call w.impl c).outcome = .queued
      · simp [hqueued]
      · by_cases hcompleted : op ∈ (P.call w.impl c).completed <;>
          simp [hqueued, hcompleted, record]

/-- Which handlers are installed after a call. -/
theorem call_slots {q : Op ι} (h : (w.call c).slots k = some q) :
    (w.slots k = some q ∧ ∀ op ∈ (P.call w.impl c).completed, op.slot ≠ some k) ∨
      (P.request c = some q ∧ q.slot = some k ∧ (P.call w.impl c).outcome = .queued) := by
  have hfinish : ({ w with
      impl := (P.call w.impl c).state
      initiated := w.initiated ++ (P.request c).toList }.finishAll (Op.completed .success)
        (P.call w.impl c).completed).slots k = some q →
      w.slots k = some q ∧ ∀ op ∈ (P.call w.impl c).completed, op.slot ≠ some k := by
    intro hslots
    have hold := finishAll_slots hslots
    exact hold
  unfold call at h
  cases hreq : P.request c with
  | none =>
      rw [hreq] at h hfinish
      exact Or.inl (hfinish h)
  | some op =>
      rw [hreq] at h hfinish
      dsimp only at h
      split_ifs at h with hqueued hcompleted
      · rcases assign_slots h with hold | ⟨rfl, hslot⟩
        · exact Or.inl (hfinish hold)
        · exact Or.inr ⟨rfl, hslot, hqueued⟩
      · exact Or.inl (hfinish h)
      · exact Or.inl (hfinish h)

/-- A call that queues its op installs the handler. -/
theorem call_slots_self {op : Op ι} (hreq : P.request c = some op)
    (hqueued : (P.call w.impl c).outcome = .queued) (hslot : op.slot = some k) :
    (w.call c).slots k = some op := by
  simp only [call, hreq, hqueued, if_true]
  exact assign_slots_self hslot

/-- A call leaves the slots alone of ops that it neither completes nor queues. -/
theorem call_slots_of_ne (hcompleted : ∀ op ∈ (P.call w.impl c).completed, op.slot ≠ some k)
    (hreq : ∀ op ∈ P.request c, op.slot ≠ some k) : (w.call c).slots k = w.slots k := by
  unfold call
  cases hrequest : P.request c with
  | none => exact finishAll_slots_of_ne hcompleted
  | some op =>
      dsimp only
      split_ifs
      · rw [assign_slots_of_ne (hreq op hrequest)]
        exact finishAll_slots_of_ne hcompleted
      · exact finishAll_slots_of_ne hcompleted
      · exact finishAll_slots_of_ne hcompleted

/-- What a call completes is logged. -/
theorem mem_entries {op : Op ι} (hop : op ∈ (P.call w.impl c).completed) :
    (op, op.completed .success) ∈ w.entries c :=
  List.mem_append_left _ (List.mem_map.mpr ⟨op, hop, rfl⟩)

/-- A call dispatches its own handler or posts others, all with success. -/
theorem entries_ends {e : Op ι × Ended} (he : e ∈ w.entries c) (hasync : e.1.Async) :
    e.2 = .dispatched ∨ e.2 = .posted .success := by
  rcases List.mem_append.mp he with hdone | hown
  · obtain ⟨op, -, rfl⟩ := List.mem_map.mp hdone
    exact Or.inr (Op.async_ends hasync .queued .success).2.1
  · obtain ⟨op, -, rfl⟩ := List.mem_map.mp hown
    exact Or.inl (Op.async_ends hasync _ .success).1

/-- The second look at the slot makes no difference to a handler, whose slot was connected. -/
theorem cancel_eq {op : Op ι} (hslot : op.slot ≠ none) :
    w.cancel op =
      { w with impl := P.unlink w.impl op }.finish (Op.completed .operationAborted) op := by
  rw [cancel, if_neg fun h => hslot h.2]

/-- A cancellation logs at most the end of its op. -/
theorem cancel_log (w : World P) (op : Op ι) : (w.cancel op).log = w.log ∨
    (w.cancel op).log = w.log ++ [(op, op.completed .operationAborted)] := by
  unfold cancel
  split
  · exact Or.inl rfl
  · exact Or.inr finish_log

end Call

/-! ## What every step keeps -/

/-- Every request waits in a list or has ended, once, and a handler is only installed for an op that
waits. -/
structure Inv (w : World P) : Prop where
  balanced : (w.ledger (P.queued w.impl)).Balanced
  slots : ∀ k op, w.slots k = some op → op.slot = some k ∧ op ∈ P.queued w.impl

/-- A call makes a request that was not made before. -/
def Fresh (w : World P) (c : P.Call) : Prop := ∀ op ∈ P.request c, op ∉ w.initiated

instance (w : World P) (c : P.Call) : Decidable (w.Fresh c) :=
  inferInstanceAs (Decidable (∀ op ∈ P.request c, op ∉ w.initiated))

section Inv

variable {w : World P} {c : P.Call} {op : Op ι} {pending taken : List (Op ι)}

/-- What is pending was requested, so a fresh call meets the law of its primitive. -/
theorem effect (h : (w.ledger (P.queued w.impl ++ taken)).Balanced) (hfresh : w.Fresh c) :
    (P.queued w.impl).Nodup ∧ (∀ op ∈ P.request c, op ∉ P.queued w.impl) ∧
      Effect (P.queued w.impl) (P.request c) (P.waits w.impl c) (P.call w.impl c).outcome
        (P.call w.impl c).completed (P.queued (w.call c).impl) := by
  have hnodup : (P.queued w.impl).Nodup := (List.nodup_append.mp h.pending_nodup).1
  have hnew : ∀ op ∈ P.request c, op ∉ P.queued w.impl := fun op hop hmem =>
    hfresh op hop (h.opened_of_pending (List.mem_append_left taken hmem))
  refine ⟨hnodup, hnew, ?_⟩
  rw [call_eq.1]
  exact P.effect w.impl c hnodup hnew

/-- A call keeps the ledger balanced. -/
theorem call_balanced (h : (w.ledger (P.queued w.impl ++ taken)).Balanced) (hfresh : w.Fresh c) :
    ((w.call c).ledger (P.queued (w.call c).impl ++ taken)).Balanced := by
  obtain ⟨-, hnew, heffect⟩ := effect h hfresh
  have hopened : (w.initiated ++ (P.request c).toList).Nodup := by
    refine List.nodup_append.mpr ⟨h.nodup, by cases P.request c <;> simp, ?_⟩
    intro a ha b hb hab
    exact hfresh b (by simpa using hb) (hab ▸ ha)
  have hentries : (w.entries c).map Prod.fst = (P.call w.impl c).completed ++
      (P.request c).toList.filter fun op =>
        (P.call w.impl c).outcome ≠ .queued ∧ op ∉ (P.call w.impl c).completed := by
    simp [entries, Function.comp_def]
  have hperm : ((w.entries c).map Prod.fst ++ (P.queued (w.call c).impl ++ taken)).Perm
      (P.queued w.impl ++ taken ++ (P.request c).toList) := by
    rw [hentries, ← List.append_assoc]
    refine ((heffect.perm hnew).append_right taken).trans ?_
    simpa using List.perm_append_comm.append_left (P.queued w.impl)
  obtain ⟨-, hinit, hlog⟩ := @call_eq ι _ P w c
  rw [ledger, hinit, hlog]
  exact h.update _ _ _ hopened hperm

/-- Ending ops that were pending keeps the ledger balanced. -/
theorem finish_balanced {w' : World P} {left : List (Op ι)} (h : (w.ledger pending).Balanced)
    (how : Op ι → Ended) (ops : List (Op ι)) (hperm : (ops ++ left).Perm pending)
    (hinit : w'.initiated = w.initiated)
    (hlog : w'.log = w.log ++ ops.map fun op => (op, how op)) : (w'.ledger left).Balanced := by
  have hnodup : (w.initiated ++ []).Nodup := by
    rw [List.append_nil]
    exact h.nodup
  have hpending : ((ops.map fun op => (op, how op)).map Prod.fst ++ left).Perm (pending ++ []) := by
    simpa [Function.comp_def] using hperm
  have hupdate := h.update [] left (ops.map fun op => (op, how op)) hnodup hpending
  rw [ledger, hinit, hlog, ← List.append_nil w.initiated]
  exact hupdate

/-- A primitive without waiters, and nothing else yet. -/
theorem Inv.init {s : P.State} (hs : P.queued s = []) : (World.init s).Inv := by
  refine ⟨?_, fun k op hslot => nomatch hslot⟩
  have hempty : (World.init s).ledger (P.queued (World.init s).impl) = ⟨[], [], []⟩ := by
    simp [World.init, ledger, hs]
  exact hempty ▸ Ledger.Balanced.empty

theorem Inv.append_nil (h : w.Inv) : (w.ledger (P.queued w.impl ++ [])).Balanced := by
  simpa using h.balanced

/-- **Calls** keep the invariant. -/
theorem Inv.call (h : w.Inv) (hfresh : w.Fresh c) : (w.call c).Inv := by
  obtain ⟨hnodup, hnew, heffect⟩ := effect h.append_nil hfresh
  refine ⟨by simpa using call_balanced h.append_nil hfresh, fun k op hslot => ?_⟩
  rcases call_slots hslot with ⟨hold, hcleared⟩ | ⟨hreq, hop, hqueued⟩
  · -- a handler that is still installed belongs to an op that was not completed
    obtain ⟨hop, hmem⟩ := h.slots k op hold
    exact ⟨hop, (heffect.mem_left hnodup hnew).mpr
      (Or.inl ⟨hmem, fun hdone => hcleared op hdone hop⟩)⟩
  · exact ⟨hop, (heffect.mem_left hnodup hnew).mpr (Or.inr ⟨hreq, hqueued⟩)⟩

/-- **Ending ops** that waited keeps the invariant. -/
theorem Inv.finishAll (h : w.Inv) (how : Op ι → Ended) (ops : List (Op ι)) {s : P.State}
    (hperm : (ops ++ P.queued s).Perm (P.queued w.impl)) :
    ({ w with impl := s }.finishAll how ops).Inv := by
  refine ⟨?_, fun k op hslot => ?_⟩
  · rw [finishAll_impl]
    exact finish_balanced h.balanced how ops hperm (by simp) (by simp)
  · obtain ⟨hold, hcleared⟩ := finishAll_slots hslot
    obtain ⟨hop, hmem⟩ := h.slots k op hold
    rw [finishAll_impl]
    refine ⟨hop, (List.mem_append.mp (hperm.mem_iff.mpr hmem)).resolve_left fun hdone => ?_⟩
    exact hcleared op hdone hop

/-- **A cancellation** of an op that waits keeps the invariant. -/
theorem Inv.cancel (h : w.Inv) (hop : op ∈ P.queued w.impl) : (w.cancel op).Inv := by
  unfold World.cancel
  split
  · exact h
  · exact h.finishAll _ [op] (P.unlink_perm w.impl op h.balanced.pending_nodup hop)

/-- **Draining** the waiter lists keeps the invariant. -/
theorem Inv.drain (h : w.Inv) (how : Op ι → Ended) {ops : List (Op ι)}
    (hops : ops.Perm (P.queued w.impl)) : (w.drain how ops).Inv := by
  refine h.finishAll how ops ?_
  rw [Primitive.queued, P.takeAll_lists, List.append_nil]
  exact hops

/-- Draining leaves nobody in a waiter list. -/
theorem drain_queued {how : Op ι → Ended} {ops : List (Op ι)} :
    P.queued (w.drain how ops).impl = [] := by
  rw [drain, finishAll_impl, Primitive.queued]
  exact P.takeAll_lists w.impl

/-- A cancellation of an op leaves the others where they are, with their handlers. -/
theorem cancel_keeps (h : w.Inv) (hop : op ∈ P.queued w.impl) {q : Op ι}
    (hq : q ∈ P.queued (w.cancel op).impl) :
    (w.cancel op).initiated = w.initiated ∧ q ∈ P.queued w.impl ∧
      ∀ {k}, (op.slot = some k → op = q) → (w.cancel op).slots k = w.slots k := by
  unfold World.cancel at hq ⊢
  split at hq
  · rename_i hout
    rw [if_pos hout]
    exact ⟨rfl, hq, fun _ => rfl⟩
  · rename_i hin
    rw [if_neg hin]
    rw [finish_impl] at hq
    have hperm := P.unlink_perm w.impl op h.balanced.pending_nodup hop
    have hne : op ≠ q := by
      rintro rfl
      exact (List.nodup_cons.mp (hperm.nodup_iff.mpr h.balanced.pending_nodup)).1 hq
    refine ⟨finish_initiated, hperm.subset (List.mem_cons_of_mem _ hq), fun hslot => ?_⟩
    exact finish_slots_of_ne fun he => hne (hslot he)

end Inv

end World

end Sam
