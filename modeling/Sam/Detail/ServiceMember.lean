import Sam.Detail.BasicOp

/-!
# `service_member`

The constructors, the move assignment and the destructor of `service_member` in
`detail/service.hpp`, which keep the ring of the members that are registered with a service. A
member that outlived its service has a null service pointer; registering through a null pointer is
`none`. -/

namespace Sam.Memory

open Links

universe u

variable {α : Type u} [DecidableEq α]

/-- `register_queue`. -/
def registerQueue (m : Memory α) (entries sm : α) : Memory α :=
  { m with links := BilistNode.linkBefore m.links sm entries }

/-- `unregister_queue`. -/
def unregisterQueue (m : Memory α) (sm : α) : Memory α :=
  { m with links := BilistNode.unlink m.links sm }

/-- Write the service pointer of a member. -/
def setService (m : Memory α) (sm : α) (service : Option α) : Memory α :=
  { m with service := Function.update m.service sm service }

/-- The constructor of `service_member`, for the context whose service has these `entries`. -/
def constructMember (m : Memory α) (this entries : α) : Memory α :=
  ({ m with links := BilistNode.construct m.links this }.setService this
    (some entries)).registerQueue entries this

/-- The move constructor of `service_member`: `this` registers with the service of `sm`. -/
def moveConstructMember (m : Memory α) (this sm : α) : Option (Memory α) :=
  let m := { m with links := BilistNode.construct m.links this }.setService this (m.service sm)
  (m.service this).map fun entries => m.registerQueue entries this

/-- The move assignment of `service_member`. With different services it registers `this` with its
own service again and makes `sm` point at it. -/
def moveAssignMember (m : Memory α) (this sm : α) : Option (Memory α) :=
  if m.service sm ≠ m.service this then
    (m.service this).map fun entries =>
      ((m.unregisterQueue this).setService sm (some entries)).registerQueue entries this
  else some m

/-- The destructor of `service_member`. -/
def destroyMember (m : Memory α) (this : α) : Memory α :=
  match m.service this with
  | some _ => m.unregisterQueue this
  | none => m

/-- The memory after these calls of `link_before`, each of a node and the root it goes to, with all
members registered with `service`. -/
def linked (service : α) (calls : List (α × α)) : Memory α where
  links := calls.foldl (fun m call => BilistNode.linkBefore m call.1 call.2) ⟨id, id⟩
  service := fun _ => some service
  completed := []

/-! ## The ring of a service -/

variable {m : Memory α} {entries this sm : α} {members : List α}

/-- Which service a new member points at. -/
theorem constructMember_service (m : Memory α) (this entries : α) :
    (m.constructMember this entries).service = Function.update m.service this (some entries) := rfl

/-- A member that moves is constructed with the service of its source. -/
theorem moveConstructMember_eq (hservice : m.service sm = some entries) :
    m.moveConstructMember this sm = some (m.constructMember this entries) := by
  simp [moveConstructMember, constructMember, setService, hservice]

/-- Without a service the move constructor reads through a null pointer. -/
theorem moveConstructMember_of_null (hservice : m.service sm = none) :
    m.moveConstructMember this sm = none := by
  simp [moveConstructMember, setService, hservice]

/-- Destroying a registered member takes it out of the ring. -/
theorem destroyMember_ring (hservice : m.service this = some entries)
    (h : m.Holds entries members) (hthis : this ∈ members) :
    (m.destroyMember this).Holds entries (members.erase this) ∧
      (m.destroyMember this).completed = m.completed ∧
      SameOff (entries :: members) m.links (m.destroyMember this).links := by
  obtain ⟨hring, hsame⟩ := BilistNode.unlink_ring h hthis
  simp only [destroyMember, hservice]
  exact ⟨hring, rfl, hsame⟩

/-- The move assignment puts `this` behind the other members of its own service, and leaves all
pointers of other nodes alone. -/
theorem moveAssignMember_eq (hservice : m.service this = some entries)
    (h : m.Holds entries members) (hthis : this ∈ members) (sm : α) :
    ∃ m', m.moveAssignMember this sm = some m' ∧ m'.completed = m.completed ∧
      SameOff (entries :: members) m.links m'.links := by
  unfold moveAssignMember
  split
  · obtain ⟨hring, hsame⟩ := BilistNode.unlink_ring h hthis
    have hout : this ∉ entries :: members.erase this := by
      have hnodup := List.nodup_cons.mp h.nodup
      rw [List.mem_cons, not_or]
      exact ⟨fun he => hnodup.1 (he ▸ hthis), hnodup.2.not_mem_erase⟩
    obtain ⟨-, hsame'⟩ := BilistNode.linkBefore_ring hring hout
    rw [hservice]
    refine ⟨_, rfl, rfl, hsame.trans (hsame'.mono ?_)⟩
    intro a ha
    rcases List.mem_cons.mp ha with rfl | ha
    · exact List.mem_cons_of_mem _ hthis
    · exact List.cons_subset_cons entries List.erase_subset ha
  · exact ⟨m, rfl, rfl, SameOff.refl _⟩

/-- Without a service of its own, a member is only assigned from another one without a service. -/
theorem moveAssignMember_of_null (hservice : m.service this = none) :
    m.moveAssignMember this sm = if m.service sm = none then some m else none := by
  by_cases hsm : m.service sm = none <;> simp [moveAssignMember, hservice, hsm]

end Sam.Memory
