import Mathlib.Data.List.Nodup
import Sam.Detail.BarrierImpl
import Sam.Detail.ConditionVariableImpl
import Sam.Detail.SemaphoreImpl
import Sam.Detail.SharedMutexImpl

/-!
# The five primitives as one

What the life of an op needs to know about a primitive: its critical sections, its waiter lists and
how an op leaves them. The fields that state a law are proved for each primitive once; nothing after
this module looks at a single primitive again. `Kind.primitive` lists the five of them.
-/

namespace Sam

universe u

/-- An op. A blocking call waits on an op of its own; an asynchronous one makes an op of its
handler, which may come with a cancellation slot that is connected to a signal. -/
inductive Op (ι : Type u) where
  | blocking (id : ι)
  | async (id : ι) (slot : Option Nat)
  deriving DecidableEq, Repr

namespace Op

variable {ι : Type u}

/-- Some thread waits for the op. -/
def Blocks : Op ι → Prop
  | blocking _ => True
  | async _ _ => False

/-- The op was made of a handler. -/
def Async (op : Op ι) : Prop := ¬ op.Blocks

/-- `get_cancellation_slot`, when the slot is connected. -/
def slot : Op ι → Option Nat
  | blocking _ => none
  | async _ slot => slot

/-- Whether an op is in a list can be decided. -/
instance [DecidableEq ι] (op : Op ι) (ops : List (Op ι)) : Decidable (op ∈ ops) := inferInstance

/-- A thread waits for the op of a blocking call. -/
theorem Blocks.exists_id {op : Op ι} (h : op.Blocks) : ∃ id, op = blocking id := by
  cases op with
  | blocking id => exact ⟨id, rfl⟩
  | async id slot => exact h.elim

/-- Only handlers come with a slot. -/
theorem async_of_slot {op : Op ι} {k : Nat} (h : op.slot = some k) : op.Async := by
  cases op with
  | blocking id => cases h
  | async id slot => exact fun h => h

end Op

/-- What a critical section may do to the ops in the waiter lists, by the op of its call, by whether
the call has to wait and by its outcome: which ops it completes and which ops are queued
afterwards. -/
inductive Effect {ι : Type u} (queued : List (Op ι)) :
    Option (Op ι) → Bool → Outcome → List (Op ι) → List (Op ι) → Prop where
  /-- The call has no op. -/
  | plain {waits : Bool} {o : Outcome} {completed left : List (Op ι)}
      (h : (completed ++ left).Perm queued) : Effect queued none waits o completed left
  /-- The call has what it asked for. -/
  | granted (op : Op ι) {completed left : List (Op ι)} (h : (completed ++ left).Perm queued) :
      Effect queued (some op) false .granted completed left
  /-- The last blocking arrival at a barrier completes its own op with the others. -/
  | last (id : ι) {completed left : List (Op ι)} (hid : .blocking id ∈ completed)
      (h : (completed ++ left).Perm (queued ++ [.blocking id])) :
      Effect queued (some (.blocking id)) false .granted completed left
  /-- The op waits. -/
  | queued (op : Op ι) {left : List (Op ι)} (h : left.Perm (queued ++ [op])) :
      Effect queued (some op) true .queued [] left
  /-- Single-threaded mode. -/
  | failed (id : ι) (ec : ErrorCode) :
      Effect queued (some (.blocking id)) false (.failed ec) [] queued

namespace Effect

variable {ι : Type u} {queued completed left : List (Op ι)} {req : Option (Op ι)} {waits : Bool}
  {o : Outcome} {op : Op ι}

/-- In a list without repetitions, what is not completed is left. -/
theorem mem_rest {whole : List (Op ι)} (h : (completed ++ left).Perm whole) (hnodup : whole.Nodup) :
    op ∈ left ↔ op ∈ whole ∧ op ∉ completed := by
  have hdisj := (List.nodup_append.mp (h.nodup_iff.mpr hnodup)).2.2
  rw [← h.mem_iff, List.mem_append]
  constructor
  · exact fun hop => ⟨Or.inr hop, fun hmem => hdisj op hmem op hop rfl⟩
  · exact fun hop => hop.1.resolve_left hop.2

/-- Nothing is lost: a section completes or keeps what is queued, and the op of the call, unless the
call is over without it. -/
theorem perm [DecidableEq ι] (h : Effect queued req waits o completed left)
    (hfresh : ∀ op ∈ req, op ∉ queued) :
    (completed ++ req.toList.filter (fun op => o ≠ .queued ∧ op ∉ completed) ++ left).Perm
      (queued ++ req.toList) := by
  cases h with
  | plain h => simpa using h
  | granted op h =>
      have hop : op ∉ completed := fun hmem =>
        hfresh op rfl (h.subset (List.mem_append_left _ hmem))
      have hlast : (completed ++ op :: left).Perm (queued ++ [op]) :=
        (List.perm_middle.trans (h.cons op)).trans (List.perm_append_singleton op queued).symm
      simpa [hop] using hlast
  | last id hid h => simpa [hid] using h
  | queued op h => simpa using h
  | failed id ec => simpa using (List.perm_append_singleton (Op.blocking id) queued).symm

/-- What a section does not complete stays queued, and its own op may join. -/
theorem mem_left (h : Effect queued req waits o completed left) (hnodup : queued.Nodup)
    (hfresh : ∀ op ∈ req, op ∉ queued) :
    op ∈ left ↔ (op ∈ queued ∧ op ∉ completed) ∨ (req = some op ∧ o = .queued) := by
  cases h with
  | plain h => simp [mem_rest h hnodup]
  | granted own h => simp [mem_rest h hnodup]
  | last id hid h =>
      have hnodup' : (queued ++ [Op.blocking id]).Nodup :=
        List.nodup_append.mpr ⟨hnodup, List.nodup_singleton _, by grind⟩
      rw [mem_rest h hnodup']
      grind
  | queued own h => simp [h.mem_iff, eq_comm]
  | failed id ec => simp

/-- A request that has to wait completes nobody. -/
theorem completed_of_queued (h : Effect queued req waits o completed left) (ho : o = .queued)
    (hreq : req ≠ none) : completed = [] := by
  cases h <;> simp_all

/-- A section completes ops that are queued, or the op of its own call. -/
theorem completed_subset (h : Effect queued req waits o completed left) (hreq : req ≠ some op)
    (hop : op ∈ completed) : op ∈ queued := by
  cases h with
  | plain h => exact h.subset (List.mem_append_left _ hop)
  | granted own h => exact h.subset (List.mem_append_left _ hop)
  | last id hid h =>
      rcases List.mem_append.mp (h.subset (List.mem_append_left _ hop)) with hmem | hmem
      · exact hmem
      · exact absurd (congrArg some (List.mem_singleton.mp hmem).symm) hreq
  | queued own h => cases hop
  | failed id ec => cases hop

/-- A request that fails completes nobody else. -/
theorem queued_of_failed {ec : ErrorCode} (h : Effect queued req waits o completed left)
    (ho : o = .failed ec) (hop : op ∈ completed) : op ∈ queued := by
  cases h with
  | plain h => exact h.subset (List.mem_append_left _ hop)
  | failed id ec => cases hop
  | granted | last | queued => cases ho

/-- A request that waits has to. -/
theorem waits_of_queued (h : Effect queued req waits o completed left) (hreq : req = some op) :
    o = .queued ↔ waits = true := by
  cases h <;> simp_all

end Effect

/-- Erasing an op from the only waiter list. -/
theorem flatten_erase_perm {ι : Type u} [DecidableEq ι] {op : Op ι} {ops : List (Op ι)}
    (h : op ∈ [ops].flatten) : (op :: [ops.erase op].flatten).Perm [ops].flatten := by
  rw [List.flatten_singleton] at h ⊢
  rw [List.flatten_singleton]
  exact (List.perm_cons_erase h).symm

/-- A primitive. `lists` are its waiter lists, in the order in which `shutdown()` drains them; the
destructors drain them in the opposite order. `waits` says whether a request made in this state has
to wait. `rechecks` says whether the cancellation handlers look at the slot again once they have the
lock. -/
structure Primitive (ι : Type u) [DecidableEq ι] where
  State : Type u
  Call : Type u
  call : State → Call → Result State (Op ι)
  request : Call → Option (Op ι)
  lists : State → List (List (Op ι))
  unlink : State → Op ι → State
  takeAll : State → State
  waits : State → Call → Bool
  rechecks : Bool
  effect : ∀ s c, (lists s).flatten.Nodup → (∀ op ∈ request c, op ∉ (lists s).flatten) →
    Effect (lists s).flatten (request c) (waits s c) (call s c).outcome (call s c).completed
      (lists (call s c).state).flatten
  unlink_perm : ∀ s op, (lists s).flatten.Nodup → op ∈ (lists s).flatten →
    (op :: (lists (unlink s op)).flatten).Perm (lists s).flatten
  takeAll_lists : ∀ s, (lists (takeAll s)).flatten = []

/-- Every op in a waiter list of the primitive. -/
def Primitive.queued {ι : Type u} [DecidableEq ι] (P : Primitive ι) (s : P.State) : List (Op ι) :=
  (P.lists s).flatten

end Sam
