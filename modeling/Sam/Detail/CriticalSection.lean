import Mathlib.Data.List.Basic

/-!
# What a critical section leaves behind

Every public call of a primitive runs under the primitive's `mtx_`. `Result` is what such a section
leaves: the new state, how the request of the call fared, and the waiting ops that were completed
with success, in order. Ops are values of an arbitrary type `ι`.
-/

namespace Sam

universe u v

/-- The error codes the library hands out. -/
inductive ErrorCode where
  | success
  | operationAborted
  | inProgress
  | shutDown
  deriving DecidableEq, Repr

/-- How a call leaves its critical section. `granted`: the call has what it asked for. `refused`:
a `try_` form returns `false`. `failed`: a blocking form assigns the error and returns. `queued`:
the op of the call is in a waiter list. `returned`: the call asked for nothing. -/
inductive Outcome where
  | granted
  | refused
  | failed (ec : ErrorCode)
  | queued
  | returned
  deriving DecidableEq, Repr

/-- The state a critical section leaves, the outcome of the call, the waiting ops on which it called
`complete` with success, in order, and whether the assertions it evaluated held. -/
structure Result (State : Type u) (ι : Type v) where
  state : State
  outcome : Outcome
  completed : List ι := []
  asserted : Bool := true

end Sam
