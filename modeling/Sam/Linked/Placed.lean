import Sam.Detail.MoveAssignment
import Sam.Library.Transition

/-!
# Primitives in memory

A primitive whose waiter lists are rings of nodes in a `Memory`. `Linked` pairs the critical
sections of such a primitive with those of its `_impl` over sequences of ops; its laws say that the
former refine the latter. `Linked.run_refines` carries this to sequences of calls and cancellations:
what a primitive in memory answers and completes depends only on what it represents, not on where
it is placed. -/

namespace Sam

open Links Transition

universe u

/-- A primitive in memory. `enabled` is `mtx_.enabled()`: multi-threaded mode. -/
structure Placed (α O : Type u) where
  memory : Memory α
  object : O
  enabled : Bool

/-- The outcome of a call and what its critical section leaves. -/
structure Return (α O : Type u) where
  outcome : Outcome
  state : Placed α O

namespace Memory

variable {α : Type u} [DecidableEq α]

/-- A new op is linked before the root of a list. -/
def enqueue (m : Memory α) (root op : α) : Memory α :=
  { m with links := BilistNode.linkBefore (BilistNode.construct m.links op) op root }

/-- `unlink` of an op. -/
def unlink (m : Memory α) (op : α) : Memory α :=
  { m with links := BilistNode.unlink m.links op }

/-- A new op that joins a list in multi-threaded mode and leaves it again at once. -/
def passThrough (m : Memory α) (enabled : Bool) (root op : α) : Memory α :=
  if enabled then (m.enqueue root op).unlink op else m

variable {m : Memory α} {root op : α} {xs : List α} {rest : List (α × List α)}

/-- A new op is the last one in the list. -/
theorem enqueue_rings (h : Rings m.links ((root, xs) :: rest))
    (hop : op ∉ nodes ((root, xs) :: rest)) :
    Rings (m.enqueue root op).links ((root, xs ++ [op]) :: rest) := by
  have hnew : Rings (BilistNode.construct m.links op) ((root, xs) :: rest) :=
    h.frame BilistNode.construct_sameOff fun a ha => List.mem_singleton.mp ha ▸ hop
  exact BilistNode.linkBefore_rings hnew hop

/-- An op leaves the list that it is in. -/
theorem unlink_rings (h : Rings m.links ((root, xs) :: rest)) (hop : op ∈ xs) :
    Rings (m.unlink op).links ((root, xs.erase op) :: rest) :=
  BilistNode.unlink_rings h hop

/-- An op that joined a list and left it again left nothing behind. -/
theorem passThrough_rings (h : Rings m.links ((root, xs) :: rest))
    (hop : op ∉ nodes ((root, xs) :: rest)) (enabled : Bool) :
    Rings (m.passThrough enabled root op).links ((root, xs) :: rest) := by
  cases enabled with
  | false => exact h
  | true =>
      have hxs : op ∉ xs := fun hmem => hop (mem_nodes_cons.mpr (Or.inr (Or.inl hmem)))
      have hback := unlink_rings (enqueue_rings h hop) (List.mem_append_right xs List.mem_cons_self)
      rwa [List.erase_append_right _ hxs, List.erase_cons_head, List.append_nil] at hback

/-- A new op that joins a list changes nodes of that list only. -/
theorem enqueue_sameOff (h : IsRing m.links root xs) (hop : op ∉ root :: xs) :
    SameOff (op :: root :: xs) m.links (m.enqueue root op).links := by
  have hconstruct : SameOff (op :: root :: xs) m.links (BilistNode.construct m.links op) :=
    BilistNode.construct_sameOff.mono (by simp)
  have hnew : IsRing (BilistNode.construct m.links op) root xs :=
    h.frame BilistNode.construct_sameOff fun a ha hmem => hop (List.mem_singleton.mp hmem ▸ ha)
  exact hconstruct.trans (BilistNode.linkBefore_ring hnew hop).2

/-- An op that joined a list and left it again changed no node but its own. -/
theorem passThrough_sameOff (h : IsRing m.links root xs) (hop : op ∉ root :: xs)
    (enabled : Bool) : SameOff [op] m.links (m.passThrough enabled root op).links := by
  cases enabled with
  | false => exact SameOff.refl _
  | true =>
      have hrings : Rings m.links [(root, xs)] :=
        Rings.cons_iff.mpr ⟨h, ⟨List.nodup_nil, by simp⟩, by simp⟩
      have hnew : op ∉ nodes [(root, xs)] := by simpa using hop
      have hback := (passThrough_rings hrings hnew true).head
      have hqueued := (enqueue_rings hrings hnew).head
      have hunlink := (BilistNode.unlink_ring hqueued (n := op) (by simp)).2
      refine ((enqueue_sameOff h hop).trans (hunlink.mono fun a ha => ?_)).of_ring h hback ?_
      · simp only [List.mem_cons, List.mem_append, List.not_mem_nil, or_false] at ha ⊢
        tauto
      · simp

/-- Nothing is completed meanwhile. -/
@[simp] theorem passThrough_completed (m : Memory α) (enabled : Bool) (root op : α) :
    (m.passThrough enabled root op).completed = m.completed := by
  cases enabled <;> rfl

end Memory

/-- A call in memory does what the call of the `_impl` does: the same outcome, the same ops
completed in the same order, and what is left represents what the `_impl` leaves. -/
structure RefinesResult {α O I : Type u} (Represents : Placed α O → I → Prop) (s : Placed α O)
    (r : Return α O) (r' : Result I α) : Prop where
  outcome : r.outcome = r'.outcome
  state : Represents r.state r'.state
  completed : r.state.memory.completed = s.memory.completed ++ r'.completed.map (·, .success)

/-- A primitive in memory and its `_impl`. `roots` are the nodes of the object that lists hang on;
`onLinks` is the critical section of a call, which may run out of fuel in a loop over a list. -/
structure Linked (α : Type u) [DecidableEq α] where
  Object : Type u
  Impl : Type u
  Call : Type u
  request : Call → Option α
  roots : Object → List α
  queued : Impl → List α
  unlink : Impl → α → Impl
  onLists : Impl → Call → Result Impl α
  onLinks : Nat → Placed α Object → Call → Option (Return α Object)
  Represents : Placed α Object → Impl → Prop
  refines : ∀ {s m c fuel}, Represents s m →
    (∀ op ∈ request c, op ∉ roots s.object ++ queued m) → (queued m).length + 1 < fuel →
    ∃ r, onLinks fuel s c = some r ∧ RefinesResult Represents s r (onLists m c) ∧
      roots r.state.object = roots s.object
  cancels : ∀ {s m op}, Represents s m → op ∈ queued m →
    Represents { s with memory := s.memory.complete op .operationAborted } (unlink m op)

namespace Linked

variable {α : Type u} [DecidableEq α]

/-- What is done with a primitive: a call, or the cancellation of a queued op. -/
inductive Event (L : Linked α) where
  | call (c : L.Call)
  | cancel (op : α)

/-- An `_impl` with the outcomes of the calls and the completions so far, in order. -/
structure Trace (L : Linked α) where
  impl : L.Impl
  outcomes : List Outcome
  completed : List (α × ErrorCode)

/-- An event in memory. -/
def linkStep (L : Linked α) (fuel : Nat) (s : Placed α L.Object × List Outcome) :
    L.Event → Option (Placed α L.Object × List Outcome)
  | .call c => (L.onLinks fuel s.1 c).map fun r => (r.state, s.2 ++ [r.outcome])
  | .cancel op => some ({ s.1 with memory := s.1.memory.complete op .operationAborted }, s.2)

/-- An event over the sequences. The op of a call is a new node that is none of the nodes `avoid`,
and only a queued op is cancelled. -/
def listStep (L : Linked α) (avoid : List α) (t : L.Trace) : L.Event → Option L.Trace
  | .call c =>
      let r := L.onLists t.impl c
      if ∀ op ∈ L.request c, op ∉ avoid ++ L.queued t.impl then
        some ⟨r.state, t.outcomes ++ [r.outcome], t.completed ++ r.completed.map (·, .success)⟩
      else none
  | .cancel op =>
      if op ∈ L.queued t.impl then
        some ⟨L.unlink t.impl op, t.outcomes, t.completed ++ [(op, .operationAborted)]⟩
      else none

/-- The two placed primitives give the same outcomes and the same completions for every sequence of
calls and cancellations, with enough fuel. -/
def SameBehaviour (L : Linked α) (avoid : List α) (m : L.Impl) (s t : Placed α L.Object) : Prop :=
  ∀ events final, run (L.listStep avoid) ⟨m, [], s.memory.completed⟩ events = some final →
    ∃ bound, ∀ fuel, bound < fuel → ∃ s' t',
      run (L.linkStep fuel) (s, []) events = some (s', final.outcomes) ∧
      run (L.linkStep fuel) (t, []) events = some (t', final.outcomes) ∧
      s'.memory.completed = final.completed ∧ t'.memory.completed = final.completed

variable {L : Linked α} {avoid : List α} {t t' : L.Trace} {s s' : Placed α L.Object} {m : L.Impl}

/-- The placed primitive is where the sequences are. -/
structure Matches (L : Linked α) (avoid : List α) (s : Placed α L.Object) (t : L.Trace) : Prop where
  represents : L.Represents s t.impl
  roots : L.roots s.object ⊆ avoid
  completed : s.memory.completed = t.completed

/-- **One event** in memory does what it does over the sequences. -/
theorem Matches.step (h : Matches L avoid s t) {e : L.Event}
    (hstep : L.listStep avoid t e = some t')
    {fuel : Nat} (hfuel : (L.queued t.impl).length + 1 < fuel) :
    ∃ s', L.linkStep fuel (s, t.outcomes) e = some (s', t'.outcomes) ∧ Matches L avoid s' t' := by
  cases e with
  | call c =>
      obtain ⟨hfresh, rfl⟩ := guard_iff.mp hstep
      have hfresh' : ∀ op ∈ L.request c, op ∉ L.roots s.object ++ L.queued t.impl := by
        intro op hop hmem
        refine hfresh op hop (List.mem_append.mpr ?_)
        exact (List.mem_append.mp hmem).imp_left fun hroot => h.roots hroot
      obtain ⟨r, hr, hrefines, hroots⟩ := L.refines h.represents hfresh' hfuel
      refine ⟨r.state, ?_, hrefines.state, hroots ▸ h.roots, ?_⟩
      · rw [linkStep, hr, ← hrefines.outcome]
        rfl
      · rw [hrefines.completed, h.completed]
  | cancel op =>
      obtain ⟨hop, rfl⟩ := guard_iff.mp hstep
      refine ⟨_, rfl, L.cancels h.represents hop, h.roots, ?_⟩
      show s.memory.completed ++ [(op, ErrorCode.operationAborted)] = _
      rw [h.completed]

/-- **Sequences of events.** How much fuel they need depends on the sequences of ops only. -/
theorem run_refines {events : List L.Event} (hrun : run (L.listStep avoid) t events = some t') :
    ∃ bound, ∀ fuel, bound < fuel → ∀ s, Matches L avoid s t →
      ∃ s', run (L.linkStep fuel) (s, t.outcomes) events = some (s', t'.outcomes) ∧
        Matches L avoid s' t' := by
  -- the lists of the `_impl` are the same for every placement, and so is the bound
  induction events generalizing t with
  | nil =>
      obtain rfl := Option.some.inj hrun
      exact ⟨0, fun fuel _ s h => ⟨s, rfl, h⟩⟩
  | cons e events ih =>
      obtain ⟨u, hstep, hrest⟩ := run_cons.mp hrun
      obtain ⟨bound, hevents⟩ := ih hrest
      refine ⟨max ((L.queued t.impl).length + 1) bound, fun fuel hfuel s h => ?_⟩
      obtain ⟨hfirst, hothers⟩ := Nat.max_lt.mp hfuel
      obtain ⟨v, hv, hmatches⟩ := h.step hstep hfirst
      obtain ⟨s', hs', hfinal⟩ := hevents fuel hothers v hmatches
      exact ⟨s', run_cons.mpr ⟨(v, u.outcomes), hv, hs'⟩, hfinal⟩

/-- Every sequence of calls and cancellations gives in memory the outcomes and the completions that
it gives over the sequences, with enough fuel, and leaves in memory what it leaves there. -/
def Simulates (L : Linked α) : Prop :=
  ∀ s m, L.Represents s m → ∀ events final,
    run (L.listStep (L.roots s.object)) ⟨m, [], s.memory.completed⟩ events = some final →
      ∃ bound, ∀ fuel, bound < fuel → ∃ s',
        run (L.linkStep fuel) (s, []) events = some (s', final.outcomes) ∧
          L.Represents s' final.impl ∧ s'.memory.completed = final.completed

/-- **A primitive in memory** does what its `_impl` does. -/
theorem simulates (L : Linked α) : L.Simulates := by
  intro s m hs events final hrun
  obtain ⟨bound, hevents⟩ := run_refines hrun
  refine ⟨bound, fun fuel hfuel => ?_⟩
  obtain ⟨s', hs', hfinal⟩ := hevents fuel hfuel s ⟨hs, List.Subset.refl _, rfl⟩
  exact ⟨s', hs', hfinal.represents, hfinal.completed⟩

/-- **Where a primitive is placed does not matter.** Two placed primitives that represent the same
`_impl` behave the same. -/
theorem sameBehaviour_of_represents {s t : Placed α L.Object} (hs : L.Represents s m)
    (ht : L.Represents t m) (hsroots : L.roots s.object ⊆ avoid)
    (htroots : L.roots t.object ⊆ avoid) (hcompleted : t.memory.completed = s.memory.completed) :
    L.SameBehaviour avoid m s t := by
  intro events final hrun
  obtain ⟨bound, hevents⟩ := run_refines hrun
  refine ⟨bound, fun fuel hfuel => ?_⟩
  obtain ⟨s', hs', hsfinal⟩ := hevents fuel hfuel s ⟨hs, hsroots, rfl⟩
  obtain ⟨t', ht', htfinal⟩ := hevents fuel hfuel t ⟨ht, htroots, hcompleted⟩
  exact ⟨s', t', hs', ht', hsfinal.completed, htfinal.completed⟩

end Linked

end Sam
