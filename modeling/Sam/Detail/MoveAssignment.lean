import Sam.Detail.ServiceMember

/-!
# Moving the primitives

The move constructors, move assignments and destructors of the five `_impl` types, over the nodes of
the objects in memory: `member` is the `service_member` base, `waiters` and `sharedWaiters` are the
roots of the waiter lists. A holder of a list is moved as `bilist_node` is. `swap` of two values is
`std::swap`: a temporary is move constructed from the first one, the first is assigned from the
second and the second from the temporary, and the temporary is destroyed.
-/

namespace Sam

universe u

/-- A `mutex_impl`. -/
structure MutexObject (α : Type u) where
  member : α
  waiters : α
  locked : Bool

/-- A `shared_mutex_impl`. -/
structure SharedMutexObject (α : Type u) extends MutexObject α where
  sharedWaiters : α
  lockedShared : Nat

/-- A `semaphore_impl`. -/
structure SemaphoreObject (α : Type u) where
  waiters : α
  count : Int

/-- A `condition_variable_impl`. -/
structure ConditionVariableObject (α : Type u) where
  member : α
  waiters : α

/-- A `barrier_impl`. -/
structure BarrierObject (α : Type u) where
  member : α
  waiters : α
  init : Int
  counter : Int

variable {α : Type u} [DecidableEq α]

namespace Memory

/-- Move construct the list holder `this` from `lhs`. -/
def moveConstructHolder (m : Memory α) (this lhs : α) : Memory α :=
  { m with links := BilistNode.moveConstruct m.links this lhs }

/-- Move assign the list holder `this` from `lhs`. -/
def moveAssignHolder (m : Memory α) (this lhs : α) : Memory α :=
  { m with links := BilistNode.moveAssign m.links this lhs }

/-- `std::swap` of the list holders `a` and `b`, with the temporary `tmp`. -/
def swapHolders (fuel : Nat) (m : Memory α) (a b tmp : α) : Option (Memory α) :=
  let m := m.moveConstructHolder tmp a
  let m := m.moveAssignHolder a b
  let m := m.moveAssignHolder b tmp
  m.destroyHolder tmp fuel

end Memory

namespace MutexObject

/-- The move constructor: `this` is new, `mi` is left unlocked. -/
def moveConstruct (m : Memory α) (this mi : MutexObject α) :
    Option (Memory α × MutexObject α × MutexObject α) :=
  (m.moveConstructMember this.member mi.member).map fun m =>
    (m.moveConstructHolder this.waiters mi.waiters, { this with locked := mi.locked },
      { mi with locked := false })

/-- The move assignment. The list of `lhs` is assigned from the list of `this`. -/
def moveAssign (m : Memory α) (this lhs : MutexObject α) :
    Memory α × MutexObject α × MutexObject α :=
  (m.moveAssignHolder lhs.waiters this.waiters, { this with locked := lhs.locked },
    { lhs with locked := false })

/-- The destructor. -/
def destroy (fuel : Nat) (m : Memory α) (this : MutexObject α) : Option (Memory α) :=
  (m.destroyHolder this.waiters fuel).map (·.destroyMember this.member)

/-- `std::swap` with the temporary `tmp`: the cross-executor assignment of `basic_mutex`. -/
def swap (fuel : Nat) (m : Memory α) (a b tmp : MutexObject α) :
    Option (Memory α × MutexObject α × MutexObject α) :=
  (moveConstruct m tmp a).bind fun (m, tmp, a) =>
    let (m, a, b) := moveAssign m a b
    let (m, b, tmp) := moveAssign m b tmp
    (destroy fuel m tmp).map (·, a, b)

end MutexObject

namespace SharedMutexObject

/-- The move constructor. It leaves `locked_shared_` of `mi` as it was. -/
def moveConstruct (m : Memory α) (this mi : SharedMutexObject α) :
    Option (Memory α × SharedMutexObject α × SharedMutexObject α) :=
  (MutexObject.moveConstruct m this.toMutexObject mi.toMutexObject).map fun (m, base, source) =>
    (m.moveConstructHolder this.sharedWaiters mi.sharedWaiters,
      { this with toMutexObject := base, lockedShared := mi.lockedShared },
      { mi with toMutexObject := source })

/-- The move assignment. The lists of `lhs` are assigned from the lists of `this`. -/
def moveAssign (m : Memory α) (this lhs : SharedMutexObject α) :
    Memory α × SharedMutexObject α × SharedMutexObject α :=
  ((m.moveAssignHolder lhs.waiters this.waiters).moveAssignHolder lhs.sharedWaiters
      this.sharedWaiters,
    { this with locked := lhs.locked, lockedShared := lhs.lockedShared },
    { lhs with locked := false, lockedShared := 0 })

/-- The destructor: the shared waiters go first. -/
def destroy (fuel : Nat) (m : Memory α) (this : SharedMutexObject α) : Option (Memory α) :=
  (m.destroyHolder this.sharedWaiters fuel).bind (MutexObject.destroy fuel · this.toMutexObject)

/-- `std::swap` with the temporary `tmp`: the cross-executor assignment of `basic_shared_mutex`. -/
def swap (fuel : Nat) (m : Memory α) (a b tmp : SharedMutexObject α) :
    Option (Memory α × SharedMutexObject α × SharedMutexObject α) :=
  (moveConstruct m tmp a).bind fun (m, tmp, a) =>
    let (m, a, b) := moveAssign m a b
    let (m, b, tmp) := moveAssign m b tmp
    (destroy fuel m tmp).map (·, a, b)

end SharedMutexObject

/-- The move assignment of `semaphore_impl`: swaps the lists with `std::swap`. -/
def SemaphoreObject.moveAssign (fuel : Nat) (m : Memory α) (this lhs : SemaphoreObject α)
    (tmp : α) : Option (Memory α × SemaphoreObject α) :=
  (m.swapHolders fuel lhs.waiters this.waiters tmp).map (·, { this with count := lhs.count })

/-- The move assignment of `condition_variable_impl`: swaps the lists with `std::swap`. -/
def ConditionVariableObject.moveAssign (fuel : Nat) (m : Memory α)
    (this lhs : ConditionVariableObject α) (tmp : α) : Option (Memory α) :=
  (m.moveAssignMember this.member lhs.member).bind
    (·.swapHolders fuel lhs.waiters this.waiters tmp)

/-- The move assignment of `barrier_impl`: assigns the list. -/
def BarrierObject.moveAssign (m : Memory α) (this rhs : BarrierObject α) :
    Option (Memory α × BarrierObject α) :=
  (m.moveAssignMember this.member rhs.member).map fun m =>
    (m.moveAssignHolder this.waiters rhs.waiters,
      { this with init := rhs.init, counter := rhs.counter })

/-! ## What happens to the lists -/

open Links

variable {m : Memory α} {X Y A B M : List α} {rest : List (α × List α)} {fuel : Nat}

namespace Memory

variable {this lhs a b tmp root : α}

/-- A list that is move constructed takes the ops of its source. -/
theorem moveConstructHolder_rings (h : Rings m.links ((lhs, X) :: rest))
    (hthis : this ∉ nodes ((lhs, X) :: rest)) :
    Rings (m.moveConstructHolder this lhs).links ((this, X) :: (lhs, []) :: rest) :=
  BilistNode.moveConstruct_rings h hthis

/-- A list that is move assigned is emptied by an empty source and otherwise left as it was. -/
theorem moveAssignHolder_rings (h : Rings m.links ((this, X) :: (lhs, Y) :: rest)) :
    Rings (m.moveAssignHolder this lhs).links
      ((this, if Y = [] then [] else X) :: (lhs, Y) :: rest) := by
  obtain ⟨hthis, hrest, hdisj⟩ := Rings.cons_iff.mp h
  by_cases hempty : Y = []
  · subst hempty
    obtain ⟨hring, hsame⟩ := BilistNode.moveAssign_of_empty hrest.head
    have hthis' : ∀ c ∈ [this], c ∉ nodes ((lhs, []) :: rest) :=
      fun c hc => hdisj c (List.mem_singleton.mp hc ▸ List.mem_cons_self ..)
    exact h.edit hring hsame hthis' hthis'
  · have hsame : (m.moveAssignHolder this lhs).links = m.links :=
      BilistNode.moveAssign_of_nonempty hrest.head hempty hthis
    rw [if_neg hempty, hsame]
    exact h

/-- A list that is destroyed aborts its ops. -/
theorem destroyHolder_rings (h : Rings m.links ((root, X) :: rest)) (hfuel : X.length < fuel) :
    ∃ links, m.destroyHolder root fuel =
        some { m with links, completed := m.completed ++ X.map (·, .operationAborted) } ∧
      Rings links ((root, []) :: rest) :=
  completeAll_rings h .operationAborted hfuel

/-- **`std::swap` of two lists** aborts the ops of the first list and leaves it empty. The second
list keeps its ops, unless the first one was empty: then it is emptied as well. -/
theorem swapHolders_rings (h : Rings m.links ((a, A) :: (b, B) :: rest))
    (htmp : tmp ∉ nodes ((a, A) :: (b, B) :: rest)) (hfuel : A.length < fuel) :
    ∃ links, m.swapHolders fuel a b tmp =
        some { m with links, completed := m.completed ++ A.map (·, .operationAborted) } ∧
      Rings links ((a, []) :: (b, if A = [] then [] else B) :: rest) := by
  have hmoved := moveConstructHolder_rings h htmp
  have hassigned := moveAssignHolder_rings ((hmoved.bring [_, _]).bring [_, _])
  rw [ite_self] at hassigned
  have hback := moveAssignHolder_rings ((hassigned.bring [_, _]).bring [_, _])
  obtain ⟨links, hrun, hrings⟩ := destroyHolder_rings (hback.bring [_]) hfuel
  exact ⟨links, hrun, hrings.tail.bring [_]⟩

/-- A new member joins the ring of its service. -/
theorem constructMember_rings {entries : α} (h : Rings m.links ((entries, M) :: rest))
    (hthis : this ∉ nodes ((entries, M) :: rest)) :
    Rings (m.constructMember this entries).links ((entries, M ++ [this]) :: rest) := by
  have hnew : Rings (BilistNode.construct m.links this) ((entries, M) :: rest) :=
    h.frame BilistNode.construct_sameOff fun c hc => List.mem_singleton.mp hc ▸ hthis
  exact BilistNode.linkBefore_rings hnew hthis

/-- A member that is move constructed registers in the ring of the service. -/
theorem moveConstructMember_rings {entries sm : α} (h : Rings m.links ((entries, M) :: rest))
    (hservice : m.service sm = some entries) (hthis : this ∉ nodes ((entries, M) :: rest)) :
    ∃ m', m.moveConstructMember this sm = some m' ∧ m'.service this = some entries ∧
      m'.completed = m.completed ∧ Rings m'.links ((entries, M ++ [this]) :: rest) :=
  ⟨_, moveConstructMember_eq hservice, by rw [constructMember_service, Function.update_self], rfl,
    constructMember_rings h hthis⟩

/-- A registered member that is destroyed leaves the ring of the service. -/
theorem destroyMember_rings {entries : α} (h : Rings m.links ((entries, M) :: rest))
    (hservice : m.service this = some entries) (hthis : this ∈ M) :
    (m.destroyMember this).completed = m.completed ∧
      Rings (m.destroyMember this).links ((entries, M.erase this) :: rest) := by
  obtain ⟨hring, -, hdisj⟩ := Rings.cons_iff.mp h
  obtain ⟨hring', hcompleted, hsame⟩ := destroyMember_ring hservice hring hthis
  refine ⟨hcompleted, h.edit hring' hsame hdisj fun c hc => hdisj c ?_⟩
  exact List.cons_subset_cons entries List.erase_subset hc

/-- Assigning a registered member leaves the other rings alone. -/
theorem moveAssignMember_rings {entries : α} (h : Rings m.links ((entries, M) :: rest))
    (hservice : m.service this = some entries) (hthis : this ∈ M) (sm : α) :
    ∃ m', m.moveAssignMember this sm = some m' ∧ m'.completed = m.completed ∧
      Rings m'.links rest := by
  obtain ⟨hring, hrest, hdisj⟩ := Rings.cons_iff.mp h
  obtain ⟨m', heq, hcompleted, hsame⟩ := moveAssignMember_eq hservice hring hthis sm
  exact ⟨m', heq, hcompleted, hrest.frame hsame hdisj⟩

end Memory

namespace MutexObject

variable {this mi x y tmp : MutexObject α} {entries : α}

/-- A mutex that is move constructed takes the lock state and the waiters of its source, and
registers with the service of its source. -/
theorem moveConstruct_rings (h : Rings m.links ((mi.waiters, X) :: (entries, M) :: rest))
    (hservice : m.service mi.member = some entries)
    (hmember : this.member ∉ nodes ((mi.waiters, X) :: (entries, M) :: rest))
    (hwaiters : this.waiters ∉ nodes ((mi.waiters, X) :: (entries, M) :: rest))
    (hne : this.waiters ≠ this.member) :
    ∃ m', moveConstruct m this mi =
        some (m', { this with locked := mi.locked }, { mi with locked := false }) ∧
      m'.service this.member = some entries ∧ m'.completed = m.completed ∧
      Rings m'.links ((this.waiters, X) :: (mi.waiters, []) :: (entries, M ++ [this.member]) ::
        rest) := by
  have hperm : ∀ c, c ∈ nodes ((entries, M) :: (mi.waiters, X) :: rest) ↔
      c ∈ nodes ((mi.waiters, X) :: (entries, M) :: rest) := fun c =>
    mem_nodes_perm (List.Perm.swap (mi.waiters, X) (entries, M) rest)
  obtain ⟨m', heq, hservice', hcompleted, hrings⟩ :=
    Memory.moveConstructMember_rings (h.bring [_]) hservice ((hperm _).not.mpr hmember)
  have hnew : this.waiters ∉ nodes ((mi.waiters, X) :: (entries, M ++ [this.member]) :: rest) := by
    simp only [mem_nodes_cons] at hwaiters ⊢
    grind
  have heq' : moveConstruct m this mi = some (m'.moveConstructHolder this.waiters mi.waiters,
      { this with locked := mi.locked }, { mi with locked := false }) := by
    simp [moveConstruct, heq]
  exact ⟨_, heq', hservice', hcompleted,
    Memory.moveConstructHolder_rings (hrings.bring [_]) hnew⟩

/-- A mutex that is destroyed aborts its waiters and leaves the ring of its service. -/
theorem destroy_rings (h : Rings m.links ((this.waiters, X) :: (entries, M) :: rest))
    (hservice : m.service this.member = some entries) (hmember : this.member ∈ M)
    (hfuel : X.length < fuel) :
    ∃ m', destroy fuel m this = some m' ∧
      m'.completed = m.completed ++ X.map (·, .operationAborted) ∧
      Rings m'.links ((entries, M.erase this.member) :: (this.waiters, []) :: rest) := by
  obtain ⟨links, hrun, hrings⟩ := Memory.destroyHolder_rings h hfuel
  obtain ⟨hcompleted, hrings'⟩ := Memory.destroyMember_rings
    (m := { m with links, completed := m.completed ++ X.map (·, .operationAborted) })
    (hrings.bring [_]) hservice hmember
  exact ⟨_, by rw [destroy, hrun]; rfl, hcompleted, hrings'⟩

/-- **Move assignment** keeps the list of the target, and empties the list of the source if the
target's list is empty. -/
theorem moveAssign_rings (h : Rings m.links ((x.waiters, X) :: (y.waiters, Y) :: rest)) :
    Rings (moveAssign m x y).1.links
      ((x.waiters, X) :: (y.waiters, if X = [] then [] else Y) :: rest) :=
  (Memory.moveAssignHolder_rings (h.bring [_])).bring [_]

/-- **`std::swap` of two mutexes** leaves both lists empty and completes nobody. -/
theorem swap_rings (h : Rings m.links ((x.waiters, X) :: (y.waiters, Y) :: (entries, M) :: rest))
    (hservice : m.service x.member = some entries)
    (hmember : tmp.member ∉ nodes ((x.waiters, X) :: (y.waiters, Y) :: (entries, M) :: rest))
    (hwaiters : tmp.waiters ∉ nodes ((x.waiters, X) :: (y.waiters, Y) :: (entries, M) :: rest))
    (hne : tmp.waiters ≠ tmp.member) (hfuel : 0 < fuel) :
    ∃ m', swap fuel m x y tmp =
        some (m', { x with locked := y.locked }, { y with locked := x.locked }) ∧
      m'.completed = m.completed ∧
      Rings m'.links ((x.waiters, []) :: (y.waiters, []) :: rest) := by
  have hperm : ∀ c, c ∈ nodes ((x.waiters, X) :: (entries, M) :: (y.waiters, Y) :: rest) ↔
      c ∈ nodes ((x.waiters, X) :: (y.waiters, Y) :: (entries, M) :: rest) := fun c =>
    mem_nodes_perm ((List.Perm.swap (y.waiters, Y) (entries, M) rest).cons (x.waiters, X))
  obtain ⟨m', hconstruct, hservice', hcompleted, hmoved⟩ := moveConstruct_rings
    ((h.bring [_, _]).bring [_]) hservice ((hperm _).not.mpr hmember) ((hperm _).not.mpr hwaiters)
    hne
  -- the list of `x` is empty now, so the assignment from `y` empties the list of `y`
  have hassigned := moveAssign_rings (x := { x with locked := false })
    ((hmoved.bring [_, _, _]).bring [_, _])
  rw [if_pos rfl] at hassigned
  -- and the assignment from the temporary empties the list of the temporary
  have hback := moveAssign_rings (m := (moveAssign m' x y).1) (x := y) (y := tmp)
    ((hassigned.bring [_, _]).bring [_, _])
  rw [if_pos rfl] at hback
  obtain ⟨m'', hdestroy, hcompleted', hrings⟩ := destroy_rings
    ((hback.bring [_, _, _]).bring [_, _]) hservice' (by simp)
    (show ([] : List α).length < fuel from hfuel)
  have hswap : swap fuel m x y tmp =
      some (m'', { x with locked := y.locked }, { y with locked := x.locked }) := by
    simp only [swap, hconstruct, Option.bind_some]
    show (destroy fuel (moveAssign (moveAssign m' x y).1 y tmp).1 tmp).map _ = _
    rw [hdestroy]
    rfl
  refine ⟨m'', hswap, ?_, hrings.tail.tail.bring [_]⟩
  rw [hcompleted', List.map_nil, List.append_nil]
  exact hcompleted

end MutexObject

namespace SharedMutexObject

variable {this mi x y tmp : SharedMutexObject α} {entries : α} {XS YS : List α}

/-- A shared mutex that is move constructed takes the lock state and both lists of its source, and
registers with the service of its source. -/
theorem moveConstruct_rings
    (h : Rings m.links ((mi.waiters, X) :: (mi.sharedWaiters, XS) :: (entries, M) :: rest))
    (hservice : m.service mi.member = some entries)
    (hnew : ∀ n ∈ [this.member, this.waiters, this.sharedWaiters],
      n ∉ nodes ((mi.waiters, X) :: (mi.sharedWaiters, XS) :: (entries, M) :: rest))
    (hnodup : [this.member, this.waiters, this.sharedWaiters].Nodup) :
    ∃ m', moveConstruct m this mi =
        some (m', { this with locked := mi.locked, lockedShared := mi.lockedShared },
          { mi with locked := false }) ∧
      m'.service this.member = some entries ∧ m'.completed = m.completed ∧
      Rings m'.links ((this.waiters, X) :: (this.sharedWaiters, XS) :: (mi.waiters, []) ::
        (mi.sharedWaiters, []) :: (entries, M ++ [this.member]) :: rest) := by
  have hperm : ((mi.waiters, X) :: (entries, M) :: (mi.sharedWaiters, XS) :: rest).Perm
      ((mi.waiters, X) :: (mi.sharedWaiters, XS) :: (entries, M) :: rest) :=
    (List.Perm.swap (mi.sharedWaiters, XS) (entries, M) rest).cons (mi.waiters, X)
  have hfree : ∀ n ∈ [this.member, this.waiters, this.sharedWaiters],
      n ∉ nodes ((mi.waiters, X) :: (entries, M) :: (mi.sharedWaiters, XS) :: rest) :=
    fun n hn => (mem_nodes_perm hperm).not.mpr (hnew n hn)
  have hne : this.waiters ≠ this.member := fun heq =>
    (List.nodup_cons.mp hnodup).1 (heq ▸ List.mem_cons_self)
  obtain ⟨m', heq, hservice', hcompleted, hrings⟩ := MutexObject.moveConstruct_rings
    (h.perm hperm.symm) hservice (hfree this.member (by simp)) (hfree this.waiters (by simp)) hne
  have hrings' : Rings m'.links ((mi.sharedWaiters, XS) :: (this.waiters, X) :: (mi.waiters, []) ::
      (entries, M ++ [this.member]) :: rest) := hrings.bring [_, _, _]
  have hnew' : this.sharedWaiters ∉ nodes ((mi.sharedWaiters, XS) :: (this.waiters, X) ::
      (mi.waiters, []) :: (entries, M ++ [this.member]) :: rest) := by
    have hshared := hfree this.sharedWaiters (by simp)
    simp only [mem_nodes_cons] at hshared ⊢
    grind
  have hshared := Memory.moveConstructHolder_rings hrings' hnew'
  have hmoved : moveConstruct m this mi =
      some (m'.moveConstructHolder this.sharedWaiters mi.sharedWaiters,
        { this with locked := mi.locked, lockedShared := mi.lockedShared },
        { mi with locked := false }) := by
    simp [moveConstruct, heq]
  exact ⟨_, hmoved, hservice', hcompleted, hshared.perm (by grind)⟩

/-- A shared mutex that is destroyed aborts its waiters and leaves the ring of its service. -/
theorem destroy_rings
    (h : Rings m.links ((this.waiters, X) :: (this.sharedWaiters, XS) :: (entries, M) :: rest))
    (hservice : m.service this.member = some entries) (hmember : this.member ∈ M)
    (hfuel : X.length < fuel) (hfuel' : XS.length < fuel) :
    ∃ m', destroy fuel m this = some m' ∧
      m'.completed = m.completed ++ (XS ++ X).map (·, .operationAborted) ∧
      Rings m'.links ((this.waiters, []) :: (this.sharedWaiters, []) ::
        (entries, M.erase this.member) :: rest) := by
  obtain ⟨links, hrun, hrings⟩ := Memory.destroyHolder_rings (h.bring [_]) hfuel'
  have hrings' : Rings links
      ((this.waiters, X) :: (entries, M) :: (this.sharedWaiters, []) :: rest) :=
    hrings.perm (by grind)
  obtain ⟨m', hrun', hcompleted, hrings''⟩ := MutexObject.destroy_rings
    (m := { m with links, completed := m.completed ++ XS.map (·, .operationAborted) })
    hrings' hservice hmember hfuel
  refine ⟨m', by rw [destroy, hrun]; exact hrun', ?_, hrings''.perm (by grind)⟩
  rw [hcompleted, List.map_append, List.append_assoc]

/-- **Move assignment** keeps both lists of the target, and empties a list of the source if the
corresponding list of the target is empty. -/
theorem moveAssign_rings (h : Rings m.links ((x.waiters, X) :: (x.sharedWaiters, XS) ::
      (y.waiters, Y) :: (y.sharedWaiters, YS) :: rest)) :
    Rings (moveAssign m x y).1.links ((x.waiters, X) :: (x.sharedWaiters, XS) ::
      (y.waiters, if X = [] then [] else Y) :: (y.sharedWaiters, if XS = [] then [] else YS) ::
        rest) := by
  have h' : Rings m.links ((y.waiters, Y) :: (x.waiters, X) :: (x.sharedWaiters, XS) ::
      (y.sharedWaiters, YS) :: rest) := h.bring [_, _]
  have hfirst : Rings (m.moveAssignHolder y.waiters x.waiters).links ((y.sharedWaiters, YS) ::
      (x.sharedWaiters, XS) :: (x.waiters, X) :: (y.waiters, if X = [] then [] else Y) :: rest) :=
    (Memory.moveAssignHolder_rings h').perm (by grind)
  exact (Memory.moveAssignHolder_rings hfirst).perm (by grind)

/-- **`std::swap` of two shared mutexes** leaves all lists empty and completes nobody. -/
theorem swap_rings (h : Rings m.links ((x.waiters, X) :: (x.sharedWaiters, XS) ::
      (y.waiters, Y) :: (y.sharedWaiters, YS) :: (entries, M) :: rest))
    (hservice : m.service x.member = some entries)
    (hnew : ∀ n ∈ [tmp.member, tmp.waiters, tmp.sharedWaiters],
      n ∉ nodes ((x.waiters, X) :: (x.sharedWaiters, XS) :: (y.waiters, Y) ::
        (y.sharedWaiters, YS) :: (entries, M) :: rest))
    (hnodup : [tmp.member, tmp.waiters, tmp.sharedWaiters].Nodup) (hfuel : 0 < fuel) :
    ∃ m', swap fuel m x y tmp =
        some (m', { x with locked := y.locked, lockedShared := y.lockedShared },
          { y with locked := x.locked, lockedShared := x.lockedShared }) ∧
      m'.completed = m.completed ∧
      Rings m'.links ((x.waiters, []) :: (x.sharedWaiters, []) :: (y.waiters, []) ::
        (y.sharedWaiters, []) :: rest) := by
  have hperm : ((x.waiters, X) :: (x.sharedWaiters, XS) :: (entries, M) ::
        (y.waiters, Y) :: (y.sharedWaiters, YS) :: rest).Perm
      ((x.waiters, X) :: (x.sharedWaiters, XS) :: (y.waiters, Y) ::
        (y.sharedWaiters, YS) :: (entries, M) :: rest) := by
    grind
  obtain ⟨m', hconstruct, hservice', hcompleted, hmoved⟩ := moveConstruct_rings
    (h.perm hperm.symm) hservice (fun n hn => (mem_nodes_perm hperm).not.mpr (hnew n hn)) hnodup
  have hmoved' : Rings m'.links ((x.waiters, []) :: (x.sharedWaiters, []) :: (y.waiters, Y) ::
      (y.sharedWaiters, YS) :: (tmp.waiters, X) :: (tmp.sharedWaiters, XS) ::
        (entries, M ++ [tmp.member]) :: rest) := hmoved.perm (by grind)
  -- the lists of `x` are empty now, so the assignment from `y` empties the lists of `y`
  have hassigned := moveAssign_rings hmoved'
  rw [if_pos rfl, if_pos rfl] at hassigned
  have hassigned' : Rings (moveAssign m' x y).1.links ((y.waiters, []) :: (y.sharedWaiters, []) ::
      (tmp.waiters, X) :: (tmp.sharedWaiters, XS) :: (x.waiters, []) :: (x.sharedWaiters, []) ::
        (entries, M ++ [tmp.member]) :: rest) := hassigned.perm (by grind)
  -- and the assignment from the temporary empties the lists of the temporary
  have hback := moveAssign_rings hassigned'
  rw [if_pos rfl, if_pos rfl] at hback
  have hback' : Rings (moveAssign (moveAssign m' x y).1 y tmp).1.links ((tmp.waiters, []) ::
      (tmp.sharedWaiters, []) :: (entries, M ++ [tmp.member]) :: (x.waiters, []) ::
        (x.sharedWaiters, []) :: (y.waiters, []) :: (y.sharedWaiters, []) :: rest) :=
    hback.perm (by grind)
  obtain ⟨m'', hdestroy, hcompleted', hrings⟩ := destroy_rings hback' hservice' (by simp)
    (show ([] : List α).length < fuel from hfuel) (show ([] : List α).length < fuel from hfuel)
  have hswap : swap fuel m x y tmp =
      some (m'', { x with locked := y.locked, lockedShared := y.lockedShared },
        { y with locked := x.locked, lockedShared := x.lockedShared }) := by
    simp only [swap, hconstruct, Option.bind_some]
    show (destroy fuel (moveAssign (moveAssign m' x y).1 y tmp).1 tmp).map _ = _
    rw [hdestroy]
    rfl
  refine ⟨m'', hswap, ?_, hrings.tail.tail.tail⟩
  rw [hcompleted', List.append_nil, List.map_nil, List.append_nil]
  exact hcompleted

end SharedMutexObject

end Sam
