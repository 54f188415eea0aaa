import Sam.Detail.MoveAssignment
import Sam.Library.Tail
import Sam.Library.Transition

/-!
# Contexts come and go

A program makes execution contexts, and on them members of `service_member`, which it move
constructs, move assigns and destroys; and it shuts contexts down and destroys them, in any order.
`op_list_service::shutdown` runs line by line, and while it shuts a member down the handlers that
this destroys may do any of the other steps. Every step first looks at the nodes that it reads and
writes through pointers. `members_iff` says when no step touches a destroyed node and every member
is where its service pointer says.
-/

namespace Sam.Contexts

open Links

universe u

/-- A running `op_list_service::shutdown`, with its local variables. `nnx` has a value from where it
is read to where `nx` takes it over: meanwhile `nx` is shut down. -/
structure Shutdown (α : Type u) where
  context : α
  e : α
  nx : α
  nnx : Option α

/-- The member that the loop goes on with. -/
def Shutdown.next {α : Type u} (w : Shutdown α) : α := w.nnx.getD w.nx

/-- The pointers, the members that are not destroyed, the contexts that are not destroyed (each
named by the list of its service), those of them that were shut down, the shutdown that runs, and
whether a null pointer or a destroyed node was used. -/
structure State (α : Type u) where
  memory : Memory α
  live : List α
  contexts : List α
  shut : List α
  walk : Option (Shutdown α)
  fault : Bool

/-- Before there is any context. -/
def State.start (α : Type u) : State α := ⟨⟨⟨id, id⟩, fun _ => none, []⟩, [], [], [], none, false⟩

/-- The steps of a program. A service is made with its context here, and destroyed with it. -/
inductive Action (α : Type u) where
  | openContext (context : α)
  | closeContext (context : α)
  | construct (this context : α)
  | moveConstruct (this sm : α)
  | moveAssign (this sm : α)
  | destroy (this : α)
  | beginShutdown (context e : α)
  | beginTurn
  | endTurn
  | endShutdown
  deriving DecidableEq, Repr

section Model

variable {α : Type u}

/-- The context that is being shut down. -/
def State.closing (s : State α) : Option α := s.walk.map Shutdown.context

/-- The program runs: no shutdown does, or the shutdown of a member has called back. -/
def State.Running (s : State α) : Prop := ∀ w ∈ s.walk, w.nnx ≠ none

/-- The address is that of no object. -/
def State.Fresh (s : State α) (n : α) : Prop :=
  n ∉ s.live ∧ n ∉ s.contexts ∧ ∀ w ∈ s.walk, w.e ≠ n

/-- The node is not destroyed. -/
def State.Usable (s : State α) (n : α) : Prop :=
  n ∈ s.live ∨ n ∈ s.contexts ∨ ∃ w ∈ s.walk, w.e = n

variable [DecidableEq α]

/-- What a program does on purpose. One context at a time is shut down, each of them once, before
it is destroyed; the `shutdown` that runs goes on with the member that it has read. -/
def State.Enabled (s : State α) : Action α → Prop
  | .openContext context => s.Running ∧ s.Fresh context
  | .closeContext context => s.Running ∧ context ∈ s.contexts ∧ context ∈ s.shut
  | .construct this context => s.Running ∧ s.Fresh this ∧ context ∈ s.contexts
  | .moveConstruct this sm => s.Running ∧ s.Fresh this ∧ sm ∈ s.live
  | .moveAssign this sm => s.Running ∧ this ∈ s.live ∧ sm ∈ s.live
  | .destroy this => s.Running ∧ this ∈ s.live
  | .beginShutdown context e =>
      s.walk = none ∧ context ∈ s.contexts ∧ context ∉ s.shut ∧ s.Fresh e
  | .beginTurn => ∃ w ∈ s.walk, w.nnx = none ∧ w.nx ≠ w.e
  | .endTurn => ∃ w ∈ s.walk, w.nnx ≠ none
  | .endShutdown => ∃ w ∈ s.walk, w.nnx = none ∧ w.nx = w.e

/-- The nodes that a step reads or writes through pointers, apart from those that it is given. -/
def State.touched (s : State α) : Action α → List α
  -- `register_queue`
  | .construct _ context => [s.memory.links.prev context]
  | .moveConstruct _ sm =>
      (s.memory.service sm).elim [] fun entries => [entries, s.memory.links.prev entries]
  -- `unregister_queue` and `register_queue`
  | .moveAssign this sm =>
      if s.memory.service sm = s.memory.service this then []
      else (s.memory.service this).elim [] fun entries =>
        [s.memory.links.prev this, s.memory.links.next this, entries,
          s.memory.links.prev entries]
  -- `unregister_queue`
  | .destroy this =>
      if s.memory.service this = none then []
      else [s.memory.links.prev this, s.memory.links.next this]
  -- the move constructor of the list
  | .beginShutdown context _ => [s.memory.links.next context, s.memory.links.prev context]
  | .beginTurn => (s.walk.map Shutdown.nx).toList
  | .openContext _ | .closeContext _ | .endTurn | .endShutdown => []

/-- What a step does; `none` when it uses a null pointer. -/
def State.exec (s : State α) : Action α → Option (State α)
  | .openContext context =>
      some { s with
        memory.links := BilistNode.construct s.memory.links context
        contexts := context :: s.contexts }
  | .closeContext context =>
      some { s with contexts := s.contexts.erase context, shut := s.shut.erase context }
  | .construct this context =>
      some { s with memory := s.memory.constructMember this context, live := this :: s.live }
  | .moveConstruct this sm =>
      (s.memory.moveConstructMember this sm).map fun memory =>
        { s with memory, live := this :: s.live }
  | .moveAssign this sm => (s.memory.moveAssignMember this sm).map fun memory => { s with memory }
  | .destroy this =>
      some { s with memory := s.memory.destroyMember this, live := s.live.erase this }
  | .beginShutdown context e =>
      let links := BilistNode.moveConstruct s.memory.links e context
      some { s with memory.links := links, walk := some ⟨context, e, links.next e, none⟩ }
  | .beginTurn =>
      s.walk.map fun w =>
        { s with
          memory := s.memory.setService w.nx none
          walk := some { w with nnx := some (s.memory.links.next w.nx) } }
  | .endTurn =>
      s.walk.map fun w =>
        { s with
          memory.links := s.memory.links.setNext w.e w.next
          walk := some { w with nx := w.next, nnx := none } }
  | .endShutdown => s.walk.map fun w => { s with walk := none, shut := w.context :: s.shut }

instance (s : State α) : Decidable s.Running := inferInstanceAs (Decidable (∀ w ∈ s.walk, _))

instance (s : State α) (n : α) : Decidable (s.Fresh n) := inferInstanceAs (Decidable (_ ∧ _ ∧ _))

instance (s : State α) (n : α) : Decidable (s.Usable n) := inferInstanceAs (Decidable (_ ∨ _ ∨ _))

instance (s : State α) : DecidablePred s.Enabled := fun a => by
  cases a <;> unfold State.Enabled <;> infer_instance

/-- One step. Nothing comes after a fault. -/
def step (s : State α) (a : Action α) : Option (State α) :=
  if s.fault = false ∧ s.Enabled a then
    some ((if ∀ n ∈ s.touched a, s.Usable n then s.exec a else none).getD { s with fault := true })
  else none

end Model

section Specification

variable {α : Type u}

/-- Every live member is in the ring of the service that its pointer names, or in the rest of the
list that is being shut down, once; and the loop goes on with the first one of the rest. -/
structure Registered (s : State α) (members : α → List α) (rest : List α) : Prop where
  sound : s.fault = false
  contexts_nodup : s.contexts.Nodup
  live_nodup : s.live.Nodup
  rings : Rings s.memory.links (Rings.family s.contexts members)
  mem : ∀ context ∈ s.contexts, ∀ x,
    (x ∈ members context ∨ x ∈ rest ∧ s.closing = some context) ↔
      x ∈ s.live ∧ s.memory.service x = some context
  named : ∀ x ∈ s.live, ∀ context, s.memory.service x = some context → context ∈ s.contexts
  walk : ∀ w, s.walk = some w → w.context ∈ s.contexts ∧ w.context ∉ s.shut ∧
    IsTail s.memory.links w.e rest ∧ w.next = rest.headD w.e ∧
      ∀ a ∈ rest ++ [w.e], a ∉ nodes (Rings.family s.contexts members)
  root : ∀ w, s.walk = some w → w.e ∉ s.live

/-- The members are where their service pointers say, and nothing has gone wrong. -/
def Consistent (s : State α) : Prop := ∃ members rest, Registered s members rest

variable [DecidableEq α]

/-- What a program must not do: move construct from a member that has outlived its context, move
assign between different services, destroy the member that a running shutdown goes on with, or
destroy a context while a member is registered with it. -/
def State.Keeps (s : State α) : Action α → Prop
  | .moveConstruct _ sm => s.memory.service sm ≠ none
  | .moveAssign this sm => s.memory.service sm = s.memory.service this
  | .destroy this => ∀ w ∈ s.walk, w.next ≠ this
  | .closeContext context => ∀ x ∈ s.live, s.memory.service x ≠ some context
  | _ => True

end Specification

variable {α : Type u} {s t : State α} {members : α → List α} {rest : List α}
  {this sm context e n x : α} {w : Shutdown α}

namespace Registered

/-! ## Nodes -/

/-- A registered member is not destroyed. -/
theorem live_of_mem (h : Registered s members rest) (hcontext : context ∈ s.contexts)
    (hx : x ∈ members context) : x ∈ s.live ∧ s.memory.service x = some context :=
  (h.mem context hcontext x).mp (Or.inl hx)

/-- Neither is a member that is still to be shut down. -/
theorem live_of_rest (h : Registered s members rest) (hw : s.walk = some w) (hx : x ∈ rest) :
    x ∈ s.live ∧ s.memory.service x = some w.context :=
  (h.mem w.context (h.walk w hw).1 x).mp (Or.inr ⟨hx, by rw [State.closing, hw]; rfl⟩)

/-- The nodes of the rings are used. -/
theorem usable_of_node (h : Registered s members rest)
    (hn : n ∈ nodes (Rings.family s.contexts members)) : s.Usable n := by
  rcases Rings.mem_nodes_family.mp hn with hroot | ⟨context, hcontext, hmem⟩
  · exact Or.inr (Or.inl hroot)
  · exact Or.inl (h.live_of_mem hcontext hmem).1

/-- The nodes of the list that is being shut down are used. -/
theorem usable_of_tail (h : Registered s members rest) (hw : s.walk = some w)
    (hn : n ∈ rest ++ [w.e]) : s.Usable n := by
  rcases List.mem_append.mp hn with hmem | hroot
  · exact Or.inl (h.live_of_rest hw hmem).1
  · exact Or.inr (Or.inr ⟨w, hw, (List.mem_singleton.mp hroot).symm⟩)

/-- A new object is at none of these nodes. -/
theorem not_node_of_fresh (h : Registered s members rest) (hfresh : s.Fresh n) :
    n ∉ nodes (Rings.family s.contexts members) := by
  rw [Rings.mem_nodes_family]
  rintro (hroot | ⟨context, hcontext, hmem⟩)
  · exact hfresh.2.1 hroot
  · exact hfresh.1 (h.live_of_mem hcontext hmem).1

/-- Nor is it in the list that is being shut down. -/
theorem not_tail_of_fresh (h : Registered s members rest) (hfresh : s.Fresh n)
    (hw : s.walk = some w) : n ∉ rest ++ [w.e] := by
  intro hn
  rcases List.mem_append.mp hn with hmem | hroot
  · exact hfresh.1 (h.live_of_rest hw hmem).1
  · exact hfresh.2.2 w hw (List.mem_singleton.mp hroot).symm

/-- The node before a node of a ring, and the one after it. -/
theorem usable_of_points (h : Registered s members rest) (hcontext : context ∈ s.contexts)
    (hx : x ∈ context :: members context) (hpoints : s.memory.links.Points x n) : s.Usable n := by
  have hring := Rings.ring_of_family h.rings hcontext
  exact h.usable_of_node (Rings.mem_nodes_of_ring hcontext (hring.mem_of_points hx hpoints))

variable [DecidableEq α]

/-- The ring of one service, and those of the others. -/
theorem split (h : Registered s members rest) (hcontext : context ∈ s.contexts) :
    Rings s.memory.links
      ((context, members context) :: Rings.family (s.contexts.erase context) members) :=
  h.rings.perm (Rings.family_perm h.contexts_nodup hcontext)

/-- **A new member** registers with one of the services. -/
theorem construct (h : Registered s members rest) (hfresh : s.Fresh this)
    (hcontext : context ∈ s.contexts) :
    Registered
      { s with memory := s.memory.constructMember this context, live := this :: s.live }
      (Function.update members context (members context ++ [this])) rest := by
  have hsplit := h.split hcontext
  have hnode := h.not_node_of_fresh hfresh
  have hnew : this ∉ nodes ((context, members context) ::
      Rings.family (s.contexts.erase context) members) := by
    rwa [← mem_nodes_perm (Rings.family_perm h.contexts_nodup hcontext)]
  have hsame : SameOff (this :: context :: members context) s.memory.links
      (s.memory.constructMember this context).links := by
    have hthis : this ∉ context :: members context := fun hmem => hnew (by
      simpa [or_assoc] using Or.inl (List.mem_cons.mp hmem))
    have hring : IsRing (BilistNode.construct s.memory.links this) context (members context) :=
      hsplit.head.frame BilistNode.construct_sameOff fun a ha hmem =>
        hthis (List.mem_singleton.mp hmem ▸ ha)
    exact (BilistNode.construct_sameOff.mono (by simp)).trans
      (BilistNode.linkBefore_ring hring hthis).2
  refine ⟨h.sound, h.contexts_nodup, List.nodup_cons.mpr ⟨hfresh.1, h.live_nodup⟩, ?_, ?_, ?_, ?_,
    fun w hw hmem => ?_⟩
  · exact (Memory.constructMember_rings hsplit hnew).perm
      (Rings.family_update h.contexts_nodup hcontext _).symm
  · intro c hc x
    have hmem := h.mem c hc x
    simp only [Memory.constructMember_service, List.mem_cons]
    by_cases hx : x = this
    · subst hx
      have hout : ¬ (x ∈ members c ∨ x ∈ rest ∧ s.closing = some c) := fun hin =>
        hfresh.1 (hmem.mp hin).1
      rw [Function.update_self, Option.some.injEq]
      by_cases hcc : c = context
      · subst hcc
        simp
      · rw [Function.update_of_ne hcc]
        exact iff_of_false hout fun hnamed => hcc hnamed.2.symm
    · rw [Function.update_of_ne hx, or_iff_right hx, ← hmem]
      by_cases hcc : c = context
      · subst hcc
        simp [hx, State.closing]
      · rw [Function.update_of_ne hcc]
        rfl
  · intro x hx c hservice
    rcases List.mem_cons.mp hx with rfl | hlive
    · have hnamed : Function.update s.memory.service x (some context) x = some c := hservice
      rw [Function.update_self] at hnamed
      exact Option.some.inj hnamed ▸ hcontext
    · have hne : x ≠ this := fun he => hfresh.1 (he ▸ hlive)
      exact h.named x hlive c ((Function.update_of_ne hne ..).symm.trans hservice)
  · intro w hw
    obtain ⟨hclosing, hshut, htail, hnext, hapart⟩ := h.walk w hw
    have hthis : this ∉ rest ++ [w.e] := h.not_tail_of_fresh hfresh hw
    refine ⟨hclosing, hshut, htail.frame hsame fun a ha hmem => ?_, hnext, fun a ha hmem => ?_⟩
    · rcases List.mem_cons.mp hmem with rfl | hold
      · exact hthis ha
      · exact hapart a ha (Rings.mem_nodes_of_ring hcontext hold)
    · rcases Rings.mem_nodes_update hmem with hold | hnow
      · exact hapart a ha hold
      · rcases List.mem_append.mp hnow with hmember | hnew
        · exact hapart a ha (Rings.mem_nodes_of_ring hcontext (List.mem_cons_of_mem _ hmember))
        · exact hthis (List.mem_singleton.mp hnew ▸ ha)
  · rcases List.mem_cons.mp hmem with he | hlive
    · exact hfresh.2.2 w hw he
    · exact h.root w hw hlive

/-- **A registered member that is destroyed** leaves the ring of its service. -/
theorem destroy_member (h : Registered s members rest) (hcontext : context ∈ s.contexts)
    (hthis : this ∈ members context) :
    Registered { s with memory := s.memory.destroyMember this, live := s.live.erase this }
      (Function.update members context ((members context).erase this)) rest := by
  obtain ⟨hlive, hservice⟩ := h.live_of_mem hcontext hthis
  have hsplit := h.split hcontext
  have hring := Rings.ring_of_family h.rings hcontext
  obtain ⟨-, -, hsame⟩ := Memory.destroyMember_ring hservice hring hthis
  have hkeep : (s.memory.destroyMember this).service = s.memory.service := by
    rw [Memory.destroyMember, hservice]
    rfl
  have hnodes : ∀ a ∈ context :: members context, a ∈ nodes (Rings.family s.contexts members) :=
    fun a ha => Rings.mem_nodes_of_ring hcontext ha
  have hrest : this ∉ rest ∨ s.closing = none := by
    cases hw : s.walk with
    | none => exact Or.inr (by rw [State.closing, hw]; rfl)
    | some w =>
        refine Or.inl fun hmem => ?_
        exact (h.walk w hw).2.2.2.2 this (List.mem_append_left _ hmem)
          (hnodes this (List.mem_cons_of_mem _ hthis))
  refine ⟨h.sound, h.contexts_nodup, h.live_nodup.erase this, ?_, ?_, ?_, ?_,
    fun w hw hmem => h.root w hw (List.mem_of_mem_erase hmem)⟩
  · exact (Memory.destroyMember_rings hsplit hservice hthis).2.perm
      (Rings.family_update h.contexts_nodup hcontext _).symm
  · intro c hc x
    show _ ↔ x ∈ s.live.erase this ∧ (s.memory.destroyMember this).service x = some c
    rw [hkeep, h.live_nodup.mem_erase_iff, and_assoc, ← h.mem c hc x]
    show _ ∨ x ∈ rest ∧ s.closing = some c ↔ _
    by_cases hcc : c = context
    · subst hcc
      rw [Function.update_self, (List.nodup_cons.mp hring.nodup).2.mem_erase_iff]
      by_cases hx : x = this
      · subst hx
        rcases hrest with hout | hnone <;> simp_all
      · simp [hx]
    · rw [Function.update_of_ne hcc]
      refine (and_iff_right_of_imp fun hin he => hcc ?_).symm
      have hnamed := ((h.mem c hc x).mp hin).2
      rw [he, hservice] at hnamed
      exact (Option.some.inj hnamed).symm
  · intro x hx c hnamed
    exact h.named x (List.mem_of_mem_erase hx) c (hkeep ▸ hnamed)
  · intro w hw
    obtain ⟨hclosing, hshut, htail, hnext, hapart⟩ := h.walk w hw
    refine ⟨hclosing, hshut, htail.frame hsame fun a ha hmem => hapart a ha (hnodes a hmem), hnext,
      fun a ha hmem => hapart a ha ?_⟩
    rcases Rings.mem_nodes_update hmem with hold | hmember
    · exact hold
    · exact hnodes a (List.mem_cons_of_mem _ (List.mem_of_mem_erase hmember))

/-- **A member without a service** leaves no ring. -/
theorem destroy_null (h : Registered s members rest) (hservice : s.memory.service this = none) :
    Registered { s with memory := s.memory.destroyMember this, live := s.live.erase this } members
      rest := by
  have hsame : s.memory.destroyMember this = s.memory := by
    rw [Memory.destroyMember, hservice]
  rw [hsame]
  refine ⟨h.sound, h.contexts_nodup, h.live_nodup.erase this, h.rings, fun c hc x => ?_,
    fun x hx => h.named x (List.mem_of_mem_erase hx), h.walk,
    fun w hw hmem => h.root w hw (List.mem_of_mem_erase hmem)⟩
  show _ ↔ x ∈ s.live.erase this ∧ s.memory.service x = some c
  rw [h.live_nodup.mem_erase_iff, and_assoc, ← h.mem c hc x]
  refine (and_iff_right_of_imp fun hin he => ?_).symm
  have hnamed := ((h.mem c hc x).mp hin).2
  rw [he, hservice] at hnamed
  cases hnamed

/-- **A member that is still to be shut down**, but is not the next one, leaves the list. -/
theorem destroy_rest (h : Registered s members rest) (hw : s.walk = some w) (hthis : this ∈ rest)
    (hfirst : this ∉ rest.head?) :
    Registered { s with memory := s.memory.destroyMember this, live := s.live.erase this } members
      (rest.erase this) := by
  obtain ⟨hclosing, hshut, htail, hnext, hapart⟩ := h.walk w hw
  obtain ⟨hlive, hservice⟩ := h.live_of_rest hw hthis
  obtain ⟨htail', hhead⟩ := htail.remove hthis hfirst
  obtain ⟨hprev, hafter⟩ := htail.neighbours_mem hthis hfirst
  have hmemory : s.memory.destroyMember this = s.memory.unregisterQueue this := by
    rw [Memory.destroyMember, hservice]
  rw [hmemory]
  have hsame : SameOff (rest ++ [w.e]) s.memory.links (s.memory.unregisterQueue this).links :=
    SameOff.link (List.mem_append_left _ hprev) hafter
  have herase : ∀ a ∈ rest.erase this ++ [w.e], a ∈ rest ++ [w.e] := by
    intro a ha
    rcases List.mem_append.mp ha with hmem | hroot
    · exact List.mem_append_left _ (List.mem_of_mem_erase hmem)
    · exact List.mem_append_right _ hroot
  refine ⟨h.sound, h.contexts_nodup, h.live_nodup.erase this, h.rings.frame hsame hapart, ?_, ?_,
    fun v hv => ?_, fun v hv hmem => h.root v hv (List.mem_of_mem_erase hmem)⟩
  · intro c hc x
    show _ ↔ x ∈ s.live.erase this ∧ s.memory.service x = some c
    rw [h.live_nodup.mem_erase_iff, and_assoc, ← h.mem c hc x, htail.members_nodup.mem_erase_iff]
    show x ∈ members c ∨ (x ≠ this ∧ x ∈ rest) ∧ s.closing = some c ↔ _
    have hout : x ∈ members c → x ≠ this := fun hmem he =>
      hapart this (List.mem_append_left _ hthis)
        (Rings.mem_nodes_of_ring hc (List.mem_cons_of_mem _ (he ▸ hmem)))
    tauto
  · exact fun x hx => h.named x (List.mem_of_mem_erase hx)
  · obtain rfl : w = v := Option.some.inj (hw.symm.trans hv)
    refine ⟨hclosing, hshut, htail', ?_, fun a ha => hapart a (herase a ha)⟩
    rw [hnext, List.headD_eq_head?_getD, List.headD_eq_head?_getD, hhead]

/-- **A new context** has no members. -/
theorem openContext (h : Registered s members rest) (hfresh : s.Fresh context) :
    Registered
      { s with
        memory.links := BilistNode.construct s.memory.links context
        contexts := context :: s.contexts } (Function.update members context []) rest := by
  have hnode := h.not_node_of_fresh hfresh
  have hnodup : (context :: s.contexts).Nodup := List.nodup_cons.mpr ⟨hfresh.2.1, h.contexts_nodup⟩
  have hold : ∀ c ∈ s.contexts, c ≠ context := fun c hc he => hfresh.2.1 (he ▸ hc)
  have hunnamed : ∀ x ∈ s.live, s.memory.service x ≠ some context := fun x hx hservice =>
    hfresh.2.1 (h.named x hx context hservice)
  have hfamily : (Rings.family (context :: s.contexts) (Function.update members context [])).Perm
      ((context, []) :: Rings.family s.contexts members) := by
    have hperm := @Rings.family_update _ _ _ _ members hnodup List.mem_cons_self []
    rwa [List.erase_cons_head] at hperm
  have hframe : Rings (BilistNode.construct s.memory.links context)
      (Rings.family s.contexts members) :=
    h.rings.frame BilistNode.construct_sameOff fun a ha => List.mem_singleton.mp ha ▸ hnode
  refine ⟨h.sound, hnodup, h.live_nodup, ?_, fun c hc x => ?_, fun x hx c hservice => ?_,
    fun w hw => ?_, h.root⟩
  · refine Rings.perm (Rings.cons_iff.mpr ⟨BilistNode.construct_ring, hframe, ?_⟩) hfamily.symm
    exact fun a ha => List.mem_singleton.mp ha ▸ hnode
  · rcases List.mem_cons.mp hc with rfl | hc
    · have hclosing : s.closing ≠ some c := by
        intro hclosing
        obtain ⟨w, hw, rfl⟩ := Option.map_eq_some_iff.mp hclosing
        exact hfresh.2.1 (h.walk w hw).1
      refine iff_of_false (fun hin => ?_) fun hin => hunnamed x hin.1 hin.2
      rcases hin with hmem | hrest
      · rw [Function.update_self] at hmem
        cases hmem
      · exact hclosing hrest.2
    · rw [Function.update_of_ne (hold c hc)]
      exact h.mem c hc x
  · exact List.mem_cons_of_mem _ (h.named x hx c hservice)
  · obtain ⟨hclosing, hshut, htail, hnext, hapart⟩ := h.walk w hw
    have hout := h.not_tail_of_fresh hfresh hw
    refine ⟨List.mem_cons_of_mem _ hclosing, hshut, htail.frame BilistNode.construct_sameOff
      fun a ha hmem => hout (List.mem_singleton.mp hmem ▸ ha), hnext, fun a ha hmem => ?_⟩
    rw [mem_nodes_perm hfamily] at hmem
    rcases mem_nodes_cons.mp hmem with rfl | hnil | hnodes
    · exact hout ha
    · cases hnil
    · exact hapart a ha hnodes

/-- **A context that is destroyed** has no members. -/
theorem closeContext (h : Registered s members rest)
    (hshut : context ∈ s.shut) (hnone : ∀ x ∈ s.live, s.memory.service x ≠ some context) :
    Registered { s with contexts := s.contexts.erase context, shut := s.shut.erase context } members
      rest := by
  have hsub : (Rings.family (s.contexts.erase context) members).Sublist
      (Rings.family s.contexts members) := List.erase_sublist.map _
  refine ⟨h.sound, h.contexts_nodup.erase context, h.live_nodup, h.rings.sublist hsub,
    fun c hc => h.mem c (List.mem_of_mem_erase hc), fun x hx c hservice => ?_, fun w hw => ?_,
    h.root⟩
  · have hne : c ≠ context := fun he => hnone x hx (he ▸ hservice)
    exact (List.mem_erase_of_ne hne).mpr (h.named x hx c hservice)
  · obtain ⟨hclosing, hopen, htail, hnext, hapart⟩ := h.walk w hw
    have hne : w.context ≠ context := fun he => hopen (he ▸ hshut)
    refine ⟨(List.mem_erase_of_ne hne).mpr hclosing, fun hmem => hopen (List.mem_of_mem_erase hmem),
      htail, hnext, fun a ha hmem => hapart a ha ?_⟩
    exact (hsub.flatMap _).subset hmem

/-! ## The loop of `shutdown` -/

/-- **The list is moved** to the local root. -/
theorem beginShutdown (h : Registered s members rest) (hwalk : s.walk = none)
    (hcontext : context ∈ s.contexts) (hshut : context ∉ s.shut) (hfresh : s.Fresh e) :
    Registered
      { s with
        memory.links := BilistNode.moveConstruct s.memory.links e context
        walk := some
          ⟨context, e, (BilistNode.moveConstruct s.memory.links e context).next e, none⟩ }
      (Function.update members context []) (members context) := by
  have hnew : e ∉ nodes ((context, members context) ::
      Rings.family (s.contexts.erase context) members) := by
    rw [← mem_nodes_perm (Rings.family_perm h.contexts_nodup hcontext)]
    exact h.not_node_of_fresh hfresh
  have hperm := @Rings.family_update _ _ _ _ members h.contexts_nodup hcontext []
  obtain ⟨hring, hrings, hapart⟩ :=
    Rings.cons_iff.mp (BilistNode.moveConstruct_rings (h.split hcontext) hnew)
  have hclosing : s.closing = none := by rw [State.closing, hwalk]; rfl
  refine ⟨h.sound, h.contexts_nodup, h.live_nodup, hrings.perm hperm.symm, fun c hc x => ?_,
    h.named, fun w hw => ?_, fun w hw => Option.some.inj hw ▸ hfresh.1⟩
  · show _ ∨ x ∈ members context ∧ some context = some c ↔ x ∈ s.live ∧ s.memory.service x = some c
    rw [← h.mem c hc x, hclosing]
    by_cases hcc : c = context
    · subst hcc
      simp
    · rw [Function.update_of_ne hcc]
      simp [Ne.symm hcc]
  · obtain rfl := Option.some.inj hw
    refine ⟨hcontext, hshut, hring.isTail, ?_, fun a ha hmem => ?_⟩
    · show (BilistNode.moveConstruct s.memory.links e context).next e = _
      cases hlist : members context with
      | nil => exact (IsRing.nil_iff.mp (hlist ▸ hring)).1
      | cons x xs => exact IsRing.next_root (hlist ▸ hring)
    · rw [mem_nodes_perm hperm] at hmem
      exact hapart a (by simpa [or_comm] using ha) hmem

/-- **A turn begins**: the member is let go. -/
theorem beginTurn (h : Registered s members rest) (hw : s.walk = some w) (hnnx : w.nnx = none)
    (hnx : w.nx ≠ w.e) :
    ∃ rest', w.nx ∈ s.live ∧ Registered
      { s with
        memory := s.memory.setService w.nx none
        walk := some { w with nnx := some (s.memory.links.next w.nx) } } members rest' := by
  obtain ⟨hclosing, hshut, htail, hnext, hapart⟩ := h.walk w hw
  have hfirst : w.nx = rest.headD w.e := by rw [← hnext, Shutdown.next, hnnx]; rfl
  have hclosing' : s.closing = some w.context := by rw [State.closing, hw]; rfl
  cases rest with
  | nil => exact absurd hfirst hnx
  | cons m rest =>
      obtain rfl : w.nx = m := hfirst
      obtain ⟨hlive, hservice⟩ := h.live_of_rest hw List.mem_cons_self
      have hout : w.nx ∉ rest := (List.nodup_cons.mp htail.members_nodup).1
      refine ⟨rest, hlive, h.sound, h.contexts_nodup, h.live_nodup, h.rings, fun c hc x => ?_,
        fun x hx c hnamed => ?_, fun v hv => ?_, fun v hv => ?_⟩
      · show x ∈ members c ∨ x ∈ rest ∧ some w.context = some c ↔
          x ∈ s.live ∧ Function.update s.memory.service w.nx none x = some c
        have hmem := h.mem c hc x
        rw [hclosing'] at hmem
        by_cases hx : x = w.nx
        · subst hx
          have hnot : w.nx ∉ members c := fun hin => hapart w.nx (by simp)
            (Rings.mem_nodes_of_ring hc (List.mem_cons_of_mem _ hin))
          simp [hnot, hout]
        · rw [Function.update_of_ne hx, ← hmem]
          simp [hx]
      · have hne : x ≠ w.nx := by
          rintro rfl
          exact nomatch (Function.update_self ..).symm.trans hnamed
        exact h.named x hx c ((Function.update_of_ne hne ..).symm.trans hnamed)
      · obtain rfl := Option.some.inj hv
        exact ⟨hclosing, hshut, htail.tail, htail.next_first,
          fun a ha => hapart a (List.mem_cons_of_mem _ ha)⟩
      · obtain rfl := Option.some.inj hv
        exact h.root w hw

/-- **A turn ends.** -/
theorem endTurn (h : Registered s members rest) (hw : s.walk = some w) :
    Registered
      { s with
        memory.links := s.memory.links.setNext w.e w.next
        walk := some { w with nx := w.next, nnx := none } } members rest := by
  obtain ⟨hclosing, hshut, htail, hnext, hapart⟩ := h.walk w hw
  have hclosing' : s.closing = some w.context := by rw [State.closing, hw]; rfl
  have hsame : SameOff [w.e] s.memory.links (s.memory.links.setNext w.e w.next) := by
    intro a ha
    exact ⟨by rw [setNext_next, if_neg (List.mem_singleton.not.mp ha)], rfl⟩
  have hroot : w.e ∉ nodes (Rings.family s.contexts members) := hapart w.e (by simp)
  refine ⟨h.sound, h.contexts_nodup, h.live_nodup,
    h.rings.frame hsame fun a ha => List.mem_singleton.mp ha ▸ hroot, fun c hc x => ?_, h.named,
    fun v hv => ?_, fun v hv => ?_⟩
  · have hmem := h.mem c hc x
    rw [hclosing'] at hmem
    exact hmem
  · obtain rfl := Option.some.inj hv
    exact ⟨hclosing, hshut, htail.setNext_root, hnext, hapart⟩
  · obtain rfl := Option.some.inj hv
    exact h.root w hw

omit [DecidableEq α] in
/-- **The loop ends** when no member is left. -/
theorem endShutdown (h : Registered s members rest) (hw : s.walk = some w) (hnnx : w.nnx = none)
    (hnx : w.nx = w.e) :
    Registered { s with walk := none, shut := w.context :: s.shut } members [] := by
  obtain ⟨-, -, htail, hnext, -⟩ := h.walk w hw
  have hfirst : w.e = rest.headD w.e := by rw [← hnext, Shutdown.next, hnnx]; exact hnx.symm
  obtain rfl : rest = [] := by
    cases rest with
    | nil => rfl
    | cons m rest => exact absurd (hfirst ▸ List.mem_cons_self) htail.root_not_mem
  refine ⟨h.sound, h.contexts_nodup, h.live_nodup, h.rings, fun c hc x => ?_, h.named,
    fun v hv => (nomatch hv), fun v hv => nomatch hv⟩
  have hmem := h.mem c hc x
  simpa using hmem

end Registered

/-! ## Steps -/

variable [DecidableEq α] {a : Action α}

/-- A step that uses neither a null pointer nor a destroyed node. -/
theorem step_exec (htouched : ∀ n ∈ s.touched a, s.Usable n) {u : State α}
    (hexec : s.exec a = some u) (hstep : step s a = some t) : t = u := by
  obtain ⟨-, ht⟩ := Transition.guard_iff.mp hstep
  rw [if_pos htouched, hexec] at ht
  exact ht.symm

omit [DecidableEq α] in
/-- Nothing is registered at the start. -/
theorem consistent_start : Consistent (State.start α) := by
  refine ⟨fun _ => [], [], rfl, List.nodup_nil, List.nodup_nil, ⟨List.nodup_nil, ?_⟩, ?_, ?_, ?_,
    ?_⟩
  · exact fun ring hring => nomatch hring
  · exact fun context hcontext => nomatch hcontext
  · exact fun x hx => nomatch hx
  · exact fun w hw => nomatch hw
  · exact fun w hw => nomatch hw

/-- The nodes that a move construction reads. -/
theorem Registered.usable_moveConstruct (h : Registered s members rest)
    (hcontext : context ∈ s.contexts) (hservice : s.memory.service sm = some context) :
    ∀ n ∈ s.touched (.moveConstruct this sm), s.Usable n := by
  intro n hn
  rw [State.touched, hservice] at hn
  rcases List.mem_cons.mp hn with rfl | hn
  · exact Or.inr (Or.inl hcontext)
  · exact List.mem_singleton.mp hn ▸
      h.usable_of_points hcontext List.mem_cons_self (Or.inr rfl)

omit [DecidableEq α] in
/-- A member that does not come next is not the first of the rest. -/
theorem Registered.not_first (h : Registered s members rest) {w : Shutdown α}
    (hw : s.walk = some w) (hnext : w.next ≠ this) : this ∉ rest.head? := by
  intro hhead
  obtain ⟨-, -, -, hfirst, -⟩ := h.walk w hw
  refine hnext ?_
  rw [hfirst, List.headD_eq_head?_getD, Option.mem_def.mp hhead]
  rfl

/-- The neighbours of a member in the ring of its service. -/
theorem Registered.usable_member (h : Registered s members rest) (hcontext : context ∈ s.contexts)
    (hmem : this ∈ members context) (hservice : s.memory.service this = some context) :
    ∀ n ∈ s.touched (.destroy this), s.Usable n := by
  intro n hn
  rw [State.touched, if_neg (by simp [hservice])] at hn
  have hpoints : s.memory.links.Points this n := by
    simpa [Points, eq_comm, or_comm] using hn
  exact h.usable_of_points hcontext (List.mem_cons_of_mem _ hmem) hpoints

/-- And in the list that is being shut down. -/
theorem Registered.usable_rest (h : Registered s members rest) {w : Shutdown α}
    (hw : s.walk = some w) (hrest : this ∈ rest) (hfirst : this ∉ rest.head?)
    (hservice : s.memory.service this = some context) :
    ∀ n ∈ s.touched (.destroy this), s.Usable n := by
  intro n hn
  rw [State.touched, if_neg (by simp [hservice])] at hn
  obtain ⟨-, -, htail, -⟩ := h.walk w hw
  obtain ⟨hprev, hafter⟩ := htail.neighbours_mem hrest hfirst
  rcases List.mem_cons.mp hn with rfl | hn
  · exact h.usable_of_tail hw (List.mem_append_left _ hprev)
  · exact List.mem_singleton.mp hn ▸ h.usable_of_tail hw hafter

/-- A member is destroyed that the loop does not go on with. -/
theorem Registered.destroys (h : Registered s members rest) (hthis : this ∈ s.live)
    (hkeeps : s.Keeps (.destroy this)) (hstep : Contexts.step s (.destroy this) = some t) :
    Consistent t := by
  cases hservice : s.memory.service this with
  | none =>
      have htouched : ∀ n ∈ s.touched (.destroy this), s.Usable n := by
        rw [State.touched, if_pos hservice]
        exact fun n hn => nomatch hn
      obtain rfl := step_exec htouched rfl hstep
      exact ⟨_, _, h.destroy_null hservice⟩
  | some context =>
      have hcontext := h.named this hthis context hservice
      rcases (h.mem context hcontext this).mpr ⟨hthis, hservice⟩ with hmem | ⟨hrest, hclosing⟩
      · obtain rfl := step_exec (h.usable_member hcontext hmem hservice) rfl hstep
        exact ⟨_, _, h.destroy_member hcontext hmem⟩
      · obtain ⟨w, hw, -⟩ := Option.map_eq_some_iff.mp hclosing
        have hfirst := h.not_first hw (hkeeps w hw)
        obtain rfl := step_exec (h.usable_rest hw hrest hfirst hservice) rfl hstep
        exact ⟨_, _, h.destroy_rest hw hrest hfirst⟩

/-- **One step** of a program that keeps the rules. -/
theorem Consistent.step (h : Consistent s) (hkeeps : s.Keeps a)
    (hstep : Contexts.step s a = some t) : Consistent t := by
  obtain ⟨members, rest, h⟩ := h
  obtain ⟨⟨-, henabled⟩, -⟩ := Transition.guard_iff.mp hstep
  cases a with
  | openContext context =>
      obtain rfl := step_exec (fun n hn => absurd hn List.not_mem_nil) rfl hstep
      exact ⟨_, _, h.openContext henabled.2⟩
  | closeContext context =>
      obtain rfl := step_exec (fun n hn => absurd hn List.not_mem_nil) rfl hstep
      exact ⟨_, _, h.closeContext henabled.2.2 hkeeps⟩
  | construct this context =>
      obtain ⟨-, hfresh, hcontext⟩ := henabled
      obtain rfl := step_exec (fun n hn => List.mem_singleton.mp hn ▸
        h.usable_of_points hcontext List.mem_cons_self (Or.inr rfl)) rfl hstep
      exact ⟨_, _, h.construct hfresh hcontext⟩
  | moveConstruct this sm =>
      obtain ⟨-, hfresh, hsm⟩ := henabled
      obtain ⟨context, hservice⟩ := Option.ne_none_iff_exists'.mp hkeeps
      have hcontext := h.named sm hsm context hservice
      obtain rfl := step_exec (h.usable_moveConstruct hcontext hservice)
        (by rw [State.exec, Memory.moveConstructMember_eq hservice]; rfl) hstep
      exact ⟨_, _, h.construct hfresh hcontext⟩
  | moveAssign this sm =>
      have hsame : s.memory.service sm = s.memory.service this := hkeeps
      have htouched : ∀ n ∈ s.touched (.moveAssign this sm), s.Usable n := by
        rw [State.touched, if_pos hsame]
        exact fun n hn => nomatch hn
      obtain rfl := step_exec htouched
        (by rw [State.exec, Memory.moveAssignMember, if_neg (not_not.mpr hsame)]; rfl) hstep
      exact ⟨_, _, h⟩
  | destroy this => exact h.destroys henabled.2 hkeeps hstep
  | beginShutdown context e =>
      obtain ⟨hwalk, hcontext, hshut, hfresh⟩ := henabled
      have htouched : ∀ n ∈ s.touched (.beginShutdown context e), s.Usable n := by
        intro n hn
        have hpoints : s.memory.links.Points context n := by
          simpa [State.touched, Points, eq_comm] using hn
        exact h.usable_of_points hcontext List.mem_cons_self hpoints
      obtain rfl := step_exec htouched rfl hstep
      exact ⟨_, _, h.beginShutdown hwalk hcontext hshut hfresh⟩
  | beginTurn =>
      obtain ⟨w, hw, hnnx, hnx⟩ := henabled
      have hw : s.walk = some w := hw
      obtain ⟨rest', hlive, h'⟩ := h.beginTurn hw hnnx hnx
      have htouched : ∀ n ∈ s.touched .beginTurn, s.Usable n := by
        intro n hn
        rw [State.touched, hw] at hn
        exact Or.inl (List.mem_singleton.mp hn ▸ hlive)
      obtain rfl := step_exec htouched (by rw [State.exec, hw]; rfl) hstep
      exact ⟨_, _, h'⟩
  | endTurn =>
      obtain ⟨w, hw, -⟩ := henabled
      have hw : s.walk = some w := hw
      obtain rfl := step_exec (fun n hn => absurd hn List.not_mem_nil)
        (by rw [State.exec, hw]; rfl) hstep
      exact ⟨_, _, h.endTurn hw⟩
  | endShutdown =>
      obtain ⟨w, hw, hnnx, hnx⟩ := henabled
      have hw : s.walk = some w := hw
      obtain rfl := step_exec (fun n hn => absurd hn List.not_mem_nil)
        (by rw [State.exec, hw]; rfl) hstep
      exact ⟨_, _, h.endShutdown hw hnnx hnx⟩

/-! ## Steps that break the rules -/

/-- A step ends in a fault, or does what it does. -/
theorem step_cases (hstep : step s a = some t) : t.fault = true ∨ s.exec a = some t := by
  obtain ⟨-, ht⟩ := Transition.guard_iff.mp hstep
  split at ht
  · cases hexec : s.exec a with
    | none =>
        rw [hexec] at ht
        exact Or.inl (ht ▸ rfl)
    | some u =>
        rw [hexec] at ht
        exact Or.inr (congrArg some ht)
  · exact Or.inl (ht ▸ rfl)

omit [DecidableEq α] in
/-- Nothing is consistent after a fault. -/
theorem not_consistent_of_fault (h : t.fault = true) : ¬ Consistent t := by
  rintro ⟨members, rest, h'⟩
  exact Bool.noConfusion (h.symm.trans h'.sound)

/-- The pointers after a move assignment between different services. -/
theorem moveAssignMember_of_ne {m m' : Memory α} {entries : α}
    (hne : m.service sm ≠ m.service this) (hservice : m.service this = some entries)
    (hassign : m.moveAssignMember this sm = some m') :
    m'.service = Function.update m.service sm (some entries) ∧
      m'.links = BilistNode.linkBefore (BilistNode.unlink m.links this) this entries := by
  rw [Memory.moveAssignMember, if_pos hne, hservice] at hassign
  obtain rfl := Option.some.inj hassign
  exact ⟨rfl, rfl⟩

/-- Where a node points that was linked before a root. -/
theorem next_linkBefore (m : Links α) (this root : α) :
    (BilistNode.linkBefore m this root).next this = this ∨
      (BilistNode.linkBefore m this root).next this = root := by
  rw [BilistNode.linkBefore]
  simp only [setPrev_next, setNext_next, if_true]
  exact ite_eq_or_eq _ _ _

section Drifts

variable {memory : Memory α} {members' : α → List α} {rest' : List α} {w : Shutdown α}

/-- The assignment links `this` into the ring of its service again, and no other. -/
theorem Registered.drifts_member (h : Registered s members rest)
    (h' : Registered { s with memory } members' rest') (hcontext : context ∈ s.contexts)
    (hmem : this ∈ members context)
    (hlinks : memory.links =
      BilistNode.linkBefore (BilistNode.unlink s.memory.links this) this context) :
    (∀ x ∈ members' context, x ∈ members context ∨ x = this) ∧
      ∀ w, s.walk = some w → ∀ x ∈ rest', x ∈ rest := by
  have hring' : IsRing memory.links context (members' context) :=
    Rings.ring_of_family h'.rings hcontext
  obtain ⟨hring, hsame⟩ := BilistNode.unlink_ring (Rings.ring_of_family h.rings hcontext) hmem
  have hout : this ∉ context :: (members context).erase this := by
    have hnodup := List.nodup_cons.mp (Rings.ring_of_family h.rings hcontext).nodup
    rw [List.mem_cons, not_or]
    exact ⟨fun he => hnodup.1 (he ▸ hmem), hnodup.2.not_mem_erase⟩
  obtain ⟨hring, hsame'⟩ := BilistNode.linkBefore_ring hring hout
  rw [← hlinks] at hring hsame'
  refine ⟨fun x hx => ?_, fun w hw x hx => ?_⟩
  · rw [hring'.unique hring] at hx
    rcases List.mem_append.mp hx with hx | hx
    · exact Or.inl (List.mem_of_mem_erase hx)
    · exact Or.inr (List.mem_singleton.mp hx)
  · obtain ⟨-, -, htail, hnext, hapart⟩ := h.walk w hw
    obtain ⟨-, -, htail', hnext', -⟩ := h'.walk w hw
    have htouched : SameOff (context :: members context) s.memory.links memory.links := by
      refine hsame.trans (hsame'.mono fun c hc => ?_)
      rcases List.mem_cons.mp hc with rfl | hc
      · exact List.mem_cons_of_mem _ hmem
      · exact List.cons_subset_cons context List.erase_subset hc
    have hframe : IsTail memory.links w.e rest := htail.frame htouched fun c hc hin =>
      hapart c hc (Rings.mem_nodes_of_ring hcontext hin)
    exact htail'.unique hframe (hnext'.symm.trans hnext) ▸ hx

/-- A loop that goes on with `this` would find it in another ring. -/
theorem Registered.drifts_first (h : Registered s members rest)
    (h' : Registered { s with memory } members' rest') (hw : s.walk = some w)
    (hcontext : w.context ∈ s.contexts) (hmem : this ∈ rest) (hfirst : this ∈ rest.head?)
    (hlinks : memory.links =
      BilistNode.linkBefore (BilistNode.unlink s.memory.links this) this w.context) : False := by
  obtain ⟨-, -, htail, hnext, -⟩ := h.walk w hw
  obtain ⟨-, -, htail', hnext', hapart'⟩ := h'.walk w hw
  have hroot : this ≠ w.e := fun he => htail.root_not_mem (he ▸ hmem)
  have hhead : rest'.headD w.e = this := by
    rw [← hnext', hnext, List.headD_eq_head?_getD, Option.mem_def.mp hfirst]
    rfl
  cases rest' with
  | nil => exact hroot hhead.symm
  | cons first rest' =>
      obtain rfl : first = this := hhead
      have hpoints := htail'.next_first
      have hnodup := List.nodup_cons.mp htail'.nodup
      have hlater : rest'.headD w.e ∈ rest' ++ [w.e] := by
        cases rest' <;> simp
      rw [← show memory.links.next first = _ from hpoints, hlinks] at hlater
      rcases next_linkBefore (BilistNode.unlink s.memory.links first) first w.context
        with he | he <;> rw [he] at hlater
      · exact hnodup.1 hlater
      · exact hapart' w.context (List.mem_cons_of_mem _ hlater)
          (Rings.mem_nodes_of_ring hcontext List.mem_cons_self)

/-- Another member of the list goes from there into the ring. -/
theorem Registered.drifts_rest (h : Registered s members rest)
    (h' : Registered { s with memory } members' rest') (hw : s.walk = some w)
    (hcontext : w.context ∈ s.contexts) (hmem : this ∈ rest) (hfirst : this ∉ rest.head?)
    (hlinks : memory.links =
      BilistNode.linkBefore (BilistNode.unlink s.memory.links this) this w.context) :
    (∀ x ∈ members' w.context, x ∈ members w.context ∨ x = this) ∧
      ∀ w, s.walk = some w → ∀ x ∈ rest', x ∈ rest := by
  have hring' : IsRing memory.links w.context (members' w.context) :=
    Rings.ring_of_family h'.rings hcontext
  obtain ⟨-, -, htail, hnext, hapart⟩ := h.walk w hw
  obtain ⟨-, -, htail', hnext', -⟩ := h'.walk w hw
  have hroot : this ≠ w.e := fun he => htail.root_not_mem (he ▸ hmem)
  obtain ⟨hremoved, hhead⟩ := htail.remove hmem hfirst
  obtain ⟨hprev, hafter⟩ := htail.neighbours_mem hmem hfirst
  have hsame : SameOff (rest ++ [w.e]) s.memory.links (BilistNode.unlink s.memory.links this) :=
    SameOff.link (List.mem_append_left _ hprev) hafter
  have hnode : ∀ c ∈ w.context :: members w.context,
      c ∈ nodes (Rings.family s.contexts members) :=
    fun c hc => Rings.mem_nodes_of_ring hcontext hc
  have hout : this ∉ w.context :: members w.context := fun hin =>
    hapart this (List.mem_append_left _ hmem) (hnode this hin)
  have hring : IsRing (BilistNode.unlink s.memory.links this) w.context (members w.context) :=
    (Rings.ring_of_family h.rings hcontext).frame hsame fun c hc hin => hapart c hin (hnode c hc)
  obtain ⟨hring, hsame'⟩ := BilistNode.linkBefore_ring hring hout
  rw [← hlinks] at hring hsame'
  refine ⟨fun x hx => ?_, fun v hv x hx => ?_⟩
  · rw [hring'.unique hring] at hx
    rcases List.mem_append.mp hx with hx | hx
    · exact Or.inl hx
    · exact Or.inr (List.mem_singleton.mp hx)
  · obtain rfl : w = v := Option.some.inj (hw.symm.trans hv)
    have hframe : IsTail memory.links w.e (rest.erase this) :=
      IsTail.frame hremoved hsame' fun c hc hin => by
        have hc' : c ∈ rest ++ [w.e] := (List.mem_append.mp hc).elim
          (fun hc => List.mem_append_left _ (List.mem_of_mem_erase hc))
          (fun hc => List.mem_append_right _ hc)
        rcases List.mem_cons.mp hin with rfl | hin
        · rcases List.mem_append.mp hc with hc | hc
          · exact htail.members_nodup.not_mem_erase hc
          · exact hroot (List.mem_singleton.mp hc)
        · exact hapart c hc' (hnode c hin)
    have hheads : rest'.headD w.e = (rest.erase this).headD w.e := by
      rw [← hnext', hnext, List.headD_eq_head?_getD, List.headD_eq_head?_getD, hhead]
    exact List.mem_of_mem_erase (htail'.unique hframe hheads ▸ hx)

/-- **A move assignment between different services** leaves `sm` with a pointer to a service that
it is not registered with. -/
theorem Registered.drifts (h : Registered s members rest) (hthis : this ∈ s.live)
    (hsm : sm ∈ s.live) (hne : s.memory.service sm ≠ s.memory.service this)
    (hassign : s.memory.moveAssignMember this sm = some memory) :
    ¬ Consistent { s with memory } := by
  cases hservice : s.memory.service this with
  | none =>
      -- only a member without a service can be assigned here
      rw [Memory.moveAssignMember_of_null hservice, if_neg (hservice ▸ hne)] at hassign
      cases hassign
  | some context =>
      have hcontext := h.named this hthis context hservice
      obtain ⟨hservice', hlinks⟩ := moveAssignMember_of_ne hne hservice hassign
      have hsm' : sm ≠ this := fun he => hne (he ▸ rfl)
      have hold : sm ∉ members context := fun hmem =>
        hne ((h.live_of_mem hcontext hmem).2.trans hservice.symm)
      rintro ⟨members', rest', h'⟩
      have hin : sm ∈ members' context ∨ sm ∈ rest' ∧ s.closing = some context :=
        (h'.mem context hcontext sm).mpr ⟨hsm, by
          show memory.service sm = some context
          rw [hservice', Function.update_self]⟩
      -- the ring has got nothing but `this`, and the list nothing at all
      have hkept : ((∀ x ∈ members' context, x ∈ members context ∨ x = this) ∧
          ∀ w, s.walk = some w → ∀ x ∈ rest', x ∈ rest) → False := by
        rintro ⟨hmembers, hrest⟩
        rcases hin with hmem | ⟨hmem, hclosing⟩
        · exact (hmembers sm hmem).elim hold hsm'
        · obtain ⟨w, hw, rfl⟩ := Option.map_eq_some_iff.mp hclosing
          exact hne ((h.live_of_rest hw (hrest w hw sm hmem)).2.trans hservice.symm)
      rcases (h.mem context hcontext this).mpr ⟨hthis, hservice⟩ with hmem | ⟨hmem, hclosing⟩
      · exact hkept (h.drifts_member h' hcontext hmem hlinks)
      · obtain ⟨w, hw, rfl⟩ := Option.map_eq_some_iff.mp hclosing
        by_cases hfirst : this ∈ rest.head?
        · exact h.drifts_first h' hw hcontext hmem hfirst hlinks
        · exact hkept (h.drifts_rest h' hw hcontext hmem hfirst hlinks)

end Drifts

/-- **A step that breaks the rules** leaves nothing consistent. -/
theorem Consistent.breaks (h : Consistent s) (hbreaks : ¬ s.Keeps a)
    (hstep : Contexts.step s a = some t) : ¬ Consistent t := by
  obtain ⟨members, rest, h⟩ := h
  obtain ⟨⟨-, henabled⟩, -⟩ := Transition.guard_iff.mp hstep
  rcases step_cases hstep with hfault | hexec
  · exact not_consistent_of_fault hfault
  · cases a with
    | closeContext context =>
        obtain rfl := Option.some.inj hexec
        simp only [State.Keeps, not_forall, not_not] at hbreaks
        obtain ⟨x, hx, hservice⟩ := hbreaks
        rintro ⟨members', rest', h'⟩
        -- its pointer names a service that is gone
        exact h.contexts_nodup.not_mem_erase (h'.named x hx context hservice)
    | moveConstruct this sm =>
        rw [State.exec, Memory.moveConstructMember_of_null (not_not.mp hbreaks)] at hexec
        cases hexec
    | moveAssign this sm =>
        obtain ⟨memory, hassign, rfl⟩ := Option.map_eq_some_iff.mp hexec
        exact h.drifts henabled.2.1 henabled.2.2 hbreaks hassign
    | destroy this =>
        obtain rfl := Option.some.inj hexec
        simp only [State.Keeps, not_forall, not_not] at hbreaks
        obtain ⟨w, hw, rfl⟩ := hbreaks
        rintro ⟨members', rest', h'⟩
        -- the loop goes on with a member that is gone
        obtain ⟨-, -, -, hnext, -⟩ := h'.walk w hw
        cases rest' with
        | nil =>
            have hroot : w.next = w.e := hnext
            exact h.root w hw (hroot ▸ henabled.2)
        | cons first rest' =>
            obtain rfl : w.next = first := hnext
            exact h.live_nodup.not_mem_erase (h'.live_of_rest hw List.mem_cons_self).1
    | openContext | construct | beginShutdown | beginTurn | endTurn | endShutdown =>
        exact absurd trivial hbreaks

/-- **When members and contexts may come and go.** In all states of a run, in which contexts are
made, shut down line by line and destroyed, and members are constructed, moved, assigned and
destroyed, also by the handlers that a shutdown destroys: no null pointer and no destroyed node was
used, every member is in the list that its service pointer names or still to be shut down, and the
shutdown that runs goes on with a member that is live or with the end of its list, if and only if no
step of the run move constructs from a member whose service is gone, assigns between different
services, destroys the member that a running shutdown goes on with, or destroys a context with
members. One context at a time is shut down, and each of them once. -/
theorem members_iff (actions : List (Action α)) :
    (∀ t, Transition.Visits step (State.start α) actions t → Consistent t) ↔
      ∀ s a, Transition.Takes step (State.start α) actions s a → s.Keeps a :=
  Transition.visits_iff_takes (fun _ _ _ h hkeeps hstep => h.step hkeeps hstep) (fun _ h => h)
    (fun _ _ _ h hbreaks hstep => h.breaks hbreaks hstep) consistent_start actions

/-- The context `0` is shut down with the members `1` and `2`, which outlive it: destroying the
member `3` in the turn of `1` is fine, and so is move constructing before that. -/
def outlived : List (Action Nat) :=
  [.openContext 0, .construct 1 0, .construct 2 0, .moveConstruct 3 1, .beginShutdown 0 4,
    .beginTurn, .destroy 3, .endTurn, .beginTurn, .endTurn, .endShutdown, .closeContext 0,
    .moveAssign 1 2, .destroy 1, .destroy 2]

/-- Nobody has a service in the end. -/
theorem members_iff_outlived : ∃ t, Transition.run step (State.start Nat) outlived = some t ∧
    t.fault = false ∧ t.live = [] ∧ t.contexts = [] ∧
      ((∀ t, Transition.Visits step (State.start Nat) outlived t → Consistent t) ↔
        ∀ s a, Transition.Takes step (State.start Nat) outlived s a → s.Keeps a) :=
  ⟨_, rfl, rfl, rfl, rfl, members_iff outlived⟩

/-- A member that has outlived its context is moved from. -/
example : (Transition.run step (State.start Nat) [.openContext 0, .construct 1 0,
    .beginShutdown 0 2, .beginTurn, .endTurn, .endShutdown, .moveConstruct 3 1]).map State.fault =
      some true := rfl

/-- In the turn of the member `1` the member `2` is destroyed, and its address is not used again. -/
example : (Transition.run step (State.start Nat) [.openContext 0, .construct 1 0, .construct 2 0,
    .beginShutdown 0 3, .beginTurn, .destroy 2, .endTurn, .beginTurn]).map State.fault =
      some true := rfl

end Sam.Contexts
