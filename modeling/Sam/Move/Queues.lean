import Sam.Move.Mutex

/-!
# Move assignment of the semaphore, the condition variable and the barrier

What `x = std::move(y)` does to the waiters of two semaphores, condition variables or barriers. The
first two swap the lists with `std::swap`, whose temporary aborts the waiters of `y`; the third one
assigns the list. `queue_move_iff` says exactly when `x` takes the waiters of `y` over and no op is
lost: when nobody waits for either object.
-/

namespace Sam

open Links

universe u

variable {α : Type u} [DecidableEq α]

/-- The list on `x` holds exactly the ops `Y` that waited for `y`, none of which was aborted, and
every op of `X` that waited for `x` is once in the two lists or was completed. -/
structure HandedOver (m : Memory α) (x y : α) (X Y : List α) : Prop where
  takes : m.Holds x Y
  not_aborted : ∀ op ∈ Y, (op, ErrorCode.operationAborted) ∉ m.completed
  kept : ∀ op ∈ X, (∃ X' Y', m.Holds x X' ∧ m.Holds y Y' ∧ (X' ++ Y').count op = 1) ∨
    ∃ ec, (op, ec) ∈ m.completed

namespace HandedOver

variable {m : Memory α} {x y : α} {X Y : List α}

/-- An op that is in neither list is not handed over unless it was completed. -/
theorem nil_of_lost (h : HandedOver m x y X Y) (hx : m.Holds x []) (hy : m.Holds y [])
    (hpending : ∀ op ∈ X, ∀ ec, (op, ec) ∉ m.completed) : X = [] := by
  refine List.eq_nil_iff_forall_not_mem.mpr fun op hop => ?_
  rcases h.kept op hop with ⟨X', Y', hX', hY', hcount⟩ | ⟨ec, hec⟩
  · rw [IsRing.unique hX' hx, IsRing.unique hY' hy] at hcount
    exact absurd hcount (by simp)
  · exact hpending op hop ec hec

/-- Nothing has to be done for two empty lists. -/
theorem of_nil (h : m.Holds x []) : HandedOver m x y [] [] :=
  ⟨h, fun _ hop => absurd hop List.not_mem_nil, fun _ hop => absurd hop List.not_mem_nil⟩

end HandedOver

variable {m : Memory α} {X Y : List α} {fuel : Nat} {tmp : α}

/-- `std::swap` of the lists of `y` and `x` hands the waiters over exactly when nobody waits. -/
theorem swapHolders_handed_iff {x y : α} (h : TwoLists m x y X Y)
    (htmp : tmp ∉ nodes [(x, X), (y, Y)]) (hfuel : Y.length < fuel) :
    (∃ m', m.swapHolders fuel y x tmp = some m' ∧ HandedOver m' x y X Y) ↔ X = [] ∧ Y = [] := by
  have hrings : Rings m.links [(y, Y), (x, X)] := h.rings.bring [_]
  have hnew : tmp ∉ nodes [(y, Y), (x, X)] := by
    simp only [mem_nodes_cons] at htmp ⊢
    tauto
  obtain ⟨links, hswap, hswapped⟩ := Memory.swapHolders_rings hrings hnew hfuel
  rw [hswap]
  constructor
  · intro hhands
    obtain ⟨m', hm', hhanded⟩ := hhands
    obtain rfl := Option.some.inj hm'
    -- the temporary aborts what waited for `y`
    have hY : Y = [] := List.eq_nil_iff_forall_not_mem.mpr fun op hop =>
      hhanded.not_aborted op hop (by simp [hop])
    subst hY
    refine ⟨hhanded.nil_of_lost hswapped.tail.head hswapped.head fun op hop ec => ?_, rfl⟩
    simpa using h.pending op (by simpa using hop) ec
  · intro hnil
    obtain ⟨rfl, rfl⟩ := hnil
    exact ⟨_, rfl, .of_nil hswapped.tail.head⟩

/-- The members of `x` and `y` are nodes of the ring of a service, apart from the waiter lists. -/
def Registered (m : Memory α) (member x y : α) (X Y : List α) : Prop :=
  ∀ entries, m.service member = some entries →
    ∃ M, Rings m.links [(x, X), (y, Y), (entries, M)] ∧ member ∈ M

/-- The move assignment of the member leaves the waiter lists alone, or reads through a null
pointer. -/
theorem moveAssignMember_lists {member x y : α} (h : TwoLists m x y X Y)
    (hreg : Registered m member x y X Y) (other : α) :
    (m.moveAssignMember member other = none ∧ m.service member = none ∧ m.service other ≠ none) ∨
      ((m.service member ≠ none ∨ m.service other = none) ∧
        ∃ m', m.moveAssignMember member other = some m' ∧ TwoLists m' x y X Y) := by
  cases hservice : m.service member with
  | none =>
      rw [Memory.moveAssignMember_of_null hservice]
      by_cases hother : m.service other = none
      · exact Or.inr ⟨Or.inr hother, m, if_pos hother, h⟩
      · exact Or.inl ⟨if_neg hother, rfl, hother⟩
  | some entries =>
      obtain ⟨M, hrings, hmember⟩ := hreg entries hservice
      have hrings' : Rings m.links [(entries, M), (x, X), (y, Y)] := hrings.bring [_, _]
      obtain ⟨m', heq, hcompleted, hlists⟩ :=
        Memory.moveAssignMember_rings hrings' hservice hmember other
      exact Or.inr ⟨Or.inl (by simp), m', heq, hlists, hcompleted ▸ h.pending⟩

/-- After `x = std::move(y)` the semaphore `x` has the counter and the waiters of `y`. -/
def SemaphoreObject.Taken (fuel : Nat) (m : Memory α) (x y : SemaphoreObject α) (tmp : α)
    (X Y : List α) : Prop :=
  ∃ m' x', x.moveAssign fuel m y tmp = some (m', x') ∧ x'.count = y.count ∧
    HandedOver m' x.waiters y.waiters X Y

/-- After `x = std::move(y)` the condition variable `x` has the waiters of `y`. -/
def ConditionVariableObject.Taken (fuel : Nat) (m : Memory α) (x y : ConditionVariableObject α)
    (tmp : α) (X Y : List α) : Prop :=
  ∃ m', x.moveAssign fuel m y tmp = some m' ∧ HandedOver m' x.waiters y.waiters X Y

/-- After `x = std::move(y)` the barrier `x` has the phase and the waiters of `y`. -/
def BarrierObject.Taken (m : Memory α) (x y : BarrierObject α) (X Y : List α) : Prop :=
  ∃ m' x', x.moveAssign m y = some (m', x') ∧ x'.init = y.init ∧ x'.counter = y.counter ∧
    HandedOver m' x.waiters y.waiters X Y

/-- A semaphore takes everything over exactly when nobody waits. -/
theorem SemaphoreObject.moveAssign_taken_iff {x y : SemaphoreObject α}
    (h : TwoLists m x.waiters y.waiters X Y)
    (htmp : tmp ∉ nodes [(x.waiters, X), (y.waiters, Y)]) (hfuel : Y.length < fuel) :
    SemaphoreObject.Taken fuel m x y tmp X Y ↔ X = [] ∧ Y = [] := by
  rw [← swapHolders_handed_iff h htmp hfuel]
  constructor
  · intro hhands
    obtain ⟨m', x', hassign, -, hhanded⟩ := hhands
    obtain ⟨m'', hswap, heq⟩ := Option.map_eq_some_iff.mp hassign
    obtain ⟨rfl, -⟩ := Prod.mk.inj heq
    exact ⟨m'', hswap, hhanded⟩
  · intro hhands
    obtain ⟨m', hswap, hhanded⟩ := hhands
    exact ⟨m', { x with count := y.count }, by rw [SemaphoreObject.moveAssign, hswap]; rfl, rfl,
      hhanded⟩

/-- A condition variable takes everything over exactly when nobody waits, and its service still
exists if that of the source does. -/
theorem ConditionVariableObject.moveAssign_taken_iff {x y : ConditionVariableObject α}
    (h : TwoLists m x.waiters y.waiters X Y) (hreg : Registered m x.member x.waiters y.waiters X Y)
    (htmp : tmp ∉ nodes [(x.waiters, X), (y.waiters, Y)]) (hfuel : Y.length < fuel) :
    ConditionVariableObject.Taken fuel m x y tmp X Y ↔
      (X = [] ∧ Y = []) ∧ (m.service x.member ≠ none ∨ m.service y.member = none) := by
  rcases moveAssignMember_lists h hreg y.member with
    ⟨hnone, hx, hy⟩ | ⟨hservice, m', hmember, hlists⟩
  · refine iff_of_false ?_ (fun hall => hall.2.elim (· hx) hy)
    intro hhands
    obtain ⟨m', hassign, -⟩ := hhands
    simp [ConditionVariableObject.moveAssign, hnone] at hassign
  · rw [and_iff_left hservice, ← swapHolders_handed_iff hlists htmp hfuel]
    simp [ConditionVariableObject.Taken, ConditionVariableObject.moveAssign, hmember]

/-- A barrier takes everything over exactly when nobody waits, and its service still exists if that
of the source does. -/
theorem BarrierObject.moveAssign_taken_iff {x y : BarrierObject α}
    (h : TwoLists m x.waiters y.waiters X Y)
    (hreg : Registered m x.member x.waiters y.waiters X Y) :
    BarrierObject.Taken m x y X Y ↔
      (X = [] ∧ Y = []) ∧ (m.service x.member ≠ none ∨ m.service y.member = none) := by
  rcases moveAssignMember_lists h hreg y.member with
    ⟨hnone, hx, hy⟩ | ⟨hservice, m', hmember, hlists⟩
  · refine iff_of_false ?_ (fun hall => hall.2.elim (· hx) hy)
    intro hhands
    obtain ⟨m', x', hassign, -⟩ := hhands
    simp [BarrierObject.moveAssign, hnone] at hassign
  · rw [and_iff_left hservice]
    have hrings := Memory.moveAssignHolder_rings hlists.rings
    have hassign : x.moveAssign m y = some (m'.moveAssignHolder x.waiters y.waiters,
        { x with init := y.init, counter := y.counter }) := by
      simp [BarrierObject.moveAssign, hmember]
    constructor
    · intro hhands
      obtain ⟨m'', x', hassign', -, -, hhanded⟩ := hhands
      obtain ⟨rfl, -⟩ := Prod.mk.inj (Option.some.inj (hassign.symm.trans hassign'))
      -- an assignment never takes the waiters of `y`, and empties `x` if there are none
      have hY : Y = [] := by
        by_contra hne
        rw [if_neg hne] at hrings
        have hsame : Y = X := IsRing.unique hhanded.takes hrings.head
        obtain ⟨op, hop⟩ := List.exists_mem_of_ne_nil Y hne
        obtain ⟨-, -, hdisj⟩ := Rings.cons_iff.mp hlists.rings
        exact hdisj op (List.mem_cons_of_mem _ (hsame ▸ hop)) (by simp [hop])
      subst hY
      rw [if_pos rfl] at hrings
      exact ⟨hhanded.nil_of_lost hrings.head hrings.tail.head
        fun op hop => hlists.pending op (by simpa using hop), rfl⟩
    · intro hnil
      obtain ⟨rfl, rfl⟩ := hnil
      rw [if_pos rfl] at hrings
      exact ⟨_, _, hassign, rfl, rfl, .of_nil hrings.head⟩

/-- **When moving a queue loses nothing.** `x = std::move(y)` gives `x` the waiters of `y`, none of
them aborted, and loses no waiter of `x`, exactly when nobody waits for `x` or `y`; a condition
variable and a barrier also need that the service of `x` exists if that of `y` does. -/
theorem queue_move_iff {x y : SemaphoreObject α} (h : TwoLists m x.waiters y.waiters X Y)
    (htmp : tmp ∉ nodes [(x.waiters, X), (y.waiters, Y)]) (hfuel : Y.length < fuel)
    {n : Memory α} {u v : ConditionVariableObject α} {U V : List α}
    (hcv : TwoLists n u.waiters v.waiters U V)
    (hcvreg : Registered n u.member u.waiters v.waiters U V)
    (hcvtmp : tmp ∉ nodes [(u.waiters, U), (v.waiters, V)]) (hcvfuel : V.length < fuel)
    {o : Memory α} {a b : BarrierObject α} {A B : List α}
    (hb : TwoLists o a.waiters b.waiters A B)
    (hbreg : Registered o a.member a.waiters b.waiters A B) :
    (SemaphoreObject.Taken fuel m x y tmp X Y ↔ X = [] ∧ Y = []) ∧
      (ConditionVariableObject.Taken fuel n u v tmp U V ↔
        (U = [] ∧ V = []) ∧ (n.service u.member ≠ none ∨ n.service v.member = none)) ∧
      (BarrierObject.Taken o a b A B ↔
        (A = [] ∧ B = []) ∧ (o.service a.member ≠ none ∨ o.service b.member = none)) :=
  ⟨SemaphoreObject.moveAssign_taken_iff h htmp hfuel,
    ConditionVariableObject.moveAssign_taken_iff hcv hcvreg hcvtmp hcvfuel,
    BarrierObject.moveAssign_taken_iff hb hbreg⟩

/-- The equivalences for objects with a waiter `11` of `y`: members `0` and `2`, roots `1` and `3`,
a service with the entries `4`. -/
theorem queue_move_iff_waiting :
    (SemaphoreObject.Taken 2 (Memory.linked 4 [(0, 4), (2, 4), (11, 3)]) ⟨1, 5⟩ ⟨3, 0⟩ 8 [] [11] ↔
        ([] : List Nat) = [] ∧ [11] = []) ∧
      (ConditionVariableObject.Taken 2 (Memory.linked 4 [(0, 4), (2, 4), (11, 3)]) ⟨0, 1⟩ ⟨2, 3⟩ 8
          [] [11] ↔
        (([] : List Nat) = [] ∧ [11] = []) ∧ (some 4 ≠ none ∨ some 4 = (none : Option Nat))) ∧
      (BarrierObject.Taken (Memory.linked 4 [(0, 4), (2, 4), (11, 3)]) ⟨0, 1, 2, 2⟩ ⟨2, 3, 2, 1⟩
          [] [11] ↔
        (([] : List Nat) = [] ∧ [11] = []) ∧ (some 4 ≠ none ∨ some 4 = (none : Option Nat))) :=
  queue_move_iff ⟨by decide, by simp [Memory.linked]⟩ (by decide) (by decide)
    ⟨by decide, by simp [Memory.linked]⟩ (fun entries he => ⟨[0, 2], by cases he; decide⟩)
    (by decide) (by decide)
    ⟨by decide, by simp [Memory.linked]⟩ (fun entries he => ⟨[0, 2], by cases he; decide⟩)

/-- The waiter `11` of `y` is aborted when the semaphore is moved, the waiter `10` of `x` is lost
when nobody waits for `y`, and an assigned barrier does not get the waiter of `y`. -/
theorem waiter_not_handed_over :
    ¬ SemaphoreObject.Taken 2 (Memory.linked 4 [(0, 4), (2, 4), (11, 3)]) ⟨1, 5⟩ ⟨3, 0⟩ 8 [] [11] ∧
      ¬ ConditionVariableObject.Taken 2 (Memory.linked 4 [(0, 4), (2, 4), (10, 1)]) ⟨0, 1⟩ ⟨2, 3⟩ 8
        [10] [] ∧
      ¬ BarrierObject.Taken (Memory.linked 4 [(0, 4), (2, 4), (11, 3)]) ⟨0, 1, 2, 2⟩ ⟨2, 3, 2, 1⟩
        [] [11] := by
  have hy : TwoLists (Memory.linked 4 [(0, 4), (2, 4), (11, 3)]) 1 3 [] [11] :=
    ⟨by decide, by simp [Memory.linked]⟩
  have hx : TwoLists (Memory.linked 4 [(0, 4), (2, 4), (10, 1)]) 1 3 [10] [] :=
    ⟨by decide, by simp [Memory.linked]⟩
  refine ⟨fun h => ?_, fun h => ?_, fun h => ?_⟩
  · have hnil := (SemaphoreObject.moveAssign_taken_iff hy (by decide) (by decide)).mp h
    simp at hnil
  · have hreg : Registered (Memory.linked 4 [(0, 4), (2, 4), (10, 1)]) 0 1 3 [10] [] :=
      fun entries he => ⟨[0, 2], by cases he; decide⟩
    have hnil :=
      (ConditionVariableObject.moveAssign_taken_iff hx hreg (by decide) (by decide)).mp h
    simp at hnil
  · have hreg : Registered (Memory.linked 4 [(0, 4), (2, 4), (11, 3)]) 0 1 3 [] [11] :=
      fun entries he => ⟨[0, 2], by cases he; decide⟩
    have hnil := (BarrierObject.moveAssign_taken_iff hy hreg).mp h
    simp at hnil

end Sam
