import Sam.Detail.MoveAssignment

/-!
# Move assignment of the mutexes

What `x = std::move(y)` and `std::swap` do to the waiters of two mutexes or two shared mutexes. The
assignment assigns the list of `y` from the list of `x`, and the move assignment of a list takes
nothing over. `mutex_move_iff` says exactly when no op is lost: an assignment needs that nobody
waits for `y`, a swap that nobody waits at all. -/

namespace Sam

open Links

universe u

variable {α : Type u}

/-- The lists on `a` and `b` hold these ops, none of which was completed. -/
structure TwoLists (m : Memory α) (a b : α) (A B : List α) : Prop where
  rings : Rings m.links [(a, A), (b, B)]
  pending : ∀ op ∈ A ++ B, ∀ ec, (op, ec) ∉ m.completed

/-- The op is in one of these lists, or it was completed. -/
def Memory.Accounted (m : Memory α) (roots : List α) (op : α) : Prop :=
  (∃ root ∈ roots, ∃ ops, m.Holds root ops ∧ op ∈ ops) ∨ ∃ ec, (op, ec) ∈ m.completed

namespace Memory

variable {m : Memory α} {roots : List α} {op : α} {ops : List α}

/-- An op in one of the lists is accounted for. -/
theorem Accounted.of_mem {root : α} (hroot : root ∈ roots) (h : m.Holds root ops)
    (hop : op ∈ ops) : m.Accounted roots op :=
  Or.inl ⟨root, hroot, ops, h, hop⟩

/-- An op that waits in no list and was not completed is lost. -/
theorem not_accounted (hempty : ∀ root ∈ roots, m.Holds root [])
    (hpending : ∀ ec, (op, ec) ∉ m.completed) : ¬ m.Accounted roots op := by
  intro haccounted
  rcases haccounted with ⟨root, hroot, ops, hops, hop⟩ | ⟨ec, hec⟩
  · rw [IsRing.unique hops (hempty root hroot)] at hop
    exact List.not_mem_nil hop
  · exact hpending ec hec

end Memory

variable [DecidableEq α]

namespace MutexObject

/-- After `x = std::move(y)` the mutex `x` has the lock state of `y` and its waiters, in order, `y`
is unlocked, and no waiter is lost. -/
structure Taken (m : Memory α) (x y : MutexObject α) (X Y : List α) : Prop where
  locked : (moveAssign m x y).2.1.locked = y.locked
  takes : ∃ X', (moveAssign m x y).1.Holds x.waiters X' ∧ Y.Sublist X'
  unlocked : (moveAssign m x y).2.2.locked = false
  kept : ∀ op ∈ X ++ Y, (moveAssign m x y).1.Accounted [x.waiters, y.waiters] op

/-- After `std::swap(x, y)` no waiter of the two mutexes is lost. -/
def SwapKeeps (fuel : Nat) (m : Memory α) (x y tmp : MutexObject α) (X Y : List α) : Prop :=
  ∃ m' x' y', swap fuel m x y tmp = some (m', x', y') ∧
    ∀ op ∈ X ++ Y, m'.Accounted [x.waiters, y.waiters] op

variable {m : Memory α} {x y tmp : MutexObject α} {X Y : List α} {fuel : Nat}

/-- A move assignment takes everything over exactly when nobody waits for the source. -/
theorem moveAssign_taken_iff (h : TwoLists m x.waiters y.waiters X Y) :
    Taken m x y X Y ↔ Y = [] := by
  have hrings := moveAssign_rings h.rings
  constructor
  · intro htaken
    obtain ⟨X', hX', hsub⟩ := htaken.takes
    obtain rfl : X' = X := IsRing.unique hX' hrings.head
    -- the lists have no common op, so `Y` is a sublist of `X` only if it is empty
    obtain ⟨-, -, hdisj⟩ := Rings.cons_iff.mp h.rings
    refine List.eq_nil_iff_forall_not_mem.mpr fun op hop => ?_
    exact hdisj op (List.mem_cons_of_mem _ (hsub.subset hop)) (by simp [hop])
  · rintro rfl
    refine ⟨rfl, ⟨X, hrings.head, List.nil_sublist X⟩, rfl, fun op hop => ?_⟩
    rw [List.append_nil] at hop
    exact .of_mem (List.mem_cons_self ..) hrings.head hop

/-- The temporary of `std::swap` is new, and so are its nodes; the ring of the service that `x` is
registered with shares no node with the waiter lists. -/
structure Swappable (m : Memory α) (x y tmp : MutexObject α) (X Y : List α) : Prop where
  registered : ∀ entries, m.service x.member = some entries → ∃ M,
    Rings m.links [(x.waiters, X), (y.waiters, Y), (entries, M)] ∧
      ∀ n ∈ [tmp.member, tmp.waiters],
        n ∉ nodes [(x.waiters, X), (y.waiters, Y), (entries, M)]
  distinct : tmp.waiters ≠ tmp.member

/-- A swap keeps every waiter of both mutexes exactly when there is none, and the temporary finds a
service to register with. -/
theorem swap_kept_iff (h : TwoLists m x.waiters y.waiters X Y) (htmp : Swappable m x y tmp X Y)
    (hfuel : 0 < fuel) :
    SwapKeeps fuel m x y tmp X Y ↔ X = [] ∧ Y = [] ∧ m.service x.member ≠ none := by
  cases hservice : m.service x.member with
  | none =>
      have hnone : swap fuel m x y tmp = none := by
        simp [swap, moveConstruct, Memory.moveConstructMember_of_null hservice]
      simp [SwapKeeps, hnone]
  | some entries =>
      obtain ⟨M, hrings, hnew⟩ := htmp.registered entries hservice
      obtain ⟨m', hswap, hcompleted, hempty⟩ := swap_rings hrings hservice
        (hnew _ (by simp)) (hnew _ (by simp)) htmp.distinct hfuel
      have hlists : ∀ root ∈ [x.waiters, y.waiters], m'.Holds root [] := by
        intro root hroot
        simp only [List.mem_cons, List.not_mem_nil, or_false] at hroot
        rcases hroot with rfl | rfl
        · exact hempty.head
        · exact hempty.tail.head
      constructor
      · intro hkeeps
        obtain ⟨m'', x', y', hswap', hkept⟩ := hkeeps
        obtain ⟨rfl, -, -⟩ : m' = m'' ∧ _ ∧ _ := by simpa using hswap.symm.trans hswap'
        have hnil : X ++ Y = [] := List.eq_nil_iff_forall_not_mem.mpr fun op hop =>
          Memory.not_accounted hlists (hcompleted ▸ h.pending op hop) (hkept op hop)
        exact ⟨(List.append_eq_nil_iff.mp hnil).1, (List.append_eq_nil_iff.mp hnil).2, by simp⟩
      · intro hnil
        obtain ⟨rfl, rfl, -⟩ := hnil
        exact ⟨m', _, _, hswap, by simp⟩

end MutexObject

namespace SharedMutexObject

/-- After `x = std::move(y)` the shared mutex `x` has the lock state of `y` and its waiters, in
order, `y` is unlocked, and no waiter is lost. -/
structure Taken (m : Memory α) (x y : SharedMutexObject α) (X XS Y YS : List α) : Prop where
  locked : (moveAssign m x y).2.1.locked = y.locked
  lockedShared : (moveAssign m x y).2.1.lockedShared = y.lockedShared
  takes : ∃ X', (moveAssign m x y).1.Holds x.waiters X' ∧ Y.Sublist X'
  takesShared : ∃ X', (moveAssign m x y).1.Holds x.sharedWaiters X' ∧ YS.Sublist X'
  unlocked : (moveAssign m x y).2.2.locked = false
  unlockedShared : (moveAssign m x y).2.2.lockedShared = 0
  kept : ∀ op ∈ X ++ XS ++ Y ++ YS, (moveAssign m x y).1.Accounted
    [x.waiters, x.sharedWaiters, y.waiters, y.sharedWaiters] op

/-- After `std::swap(x, y)` no waiter of the two shared mutexes is lost. -/
def SwapKeeps (fuel : Nat) (m : Memory α) (x y tmp : SharedMutexObject α)
    (X XS Y YS : List α) : Prop :=
  ∃ m' x' y', swap fuel m x y tmp = some (m', x', y') ∧
    ∀ op ∈ X ++ XS ++ Y ++ YS,
      m'.Accounted [x.waiters, x.sharedWaiters, y.waiters, y.sharedWaiters] op

/-- The four lists of two shared mutexes hold these ops, none of which was completed. -/
structure FourLists (m : Memory α) (x y : SharedMutexObject α) (X XS Y YS : List α) : Prop where
  rings : Rings m.links [(x.waiters, X), (x.sharedWaiters, XS), (y.waiters, Y),
    (y.sharedWaiters, YS)]
  pending : ∀ op ∈ X ++ XS ++ Y ++ YS, ∀ ec, (op, ec) ∉ m.completed

variable {m : Memory α} {x y tmp : SharedMutexObject α} {X XS Y YS : List α} {fuel : Nat}

/-- A move assignment takes everything over exactly when nobody waits for the source. -/
theorem moveAssign_taken_iff (h : FourLists m x y X XS Y YS) :
    Taken m x y X XS Y YS ↔ Y = [] ∧ YS = [] := by
  have hrings := moveAssign_rings h.rings
  constructor
  · intro htaken
    obtain ⟨X', hX', hsub⟩ := htaken.takes
    obtain ⟨XS', hXS', hsub'⟩ := htaken.takesShared
    obtain rfl : X' = X := IsRing.unique hX' hrings.head
    obtain rfl : XS' = XS := IsRing.unique hXS' hrings.tail.head
    obtain ⟨-, htail, hdisj⟩ := Rings.cons_iff.mp h.rings
    obtain ⟨-, -, hdisj'⟩ := Rings.cons_iff.mp htail
    refine ⟨List.eq_nil_iff_forall_not_mem.mpr fun op hop => ?_,
      List.eq_nil_iff_forall_not_mem.mpr fun op hop => ?_⟩
    · exact hdisj op (List.mem_cons_of_mem _ (hsub.subset hop)) (by simp [hop])
    · exact hdisj' op (List.mem_cons_of_mem _ (hsub'.subset hop)) (by simp [hop])
  · intro hnil
    obtain ⟨rfl, rfl⟩ := hnil
    refine ⟨rfl, rfl, ⟨X, hrings.head, List.nil_sublist X⟩,
      ⟨XS, hrings.tail.head, List.nil_sublist XS⟩, rfl, rfl, fun op hop => ?_⟩
    rw [List.append_nil, List.append_nil] at hop
    rcases List.mem_append.mp hop with hop | hop
    · exact .of_mem (List.mem_cons_self ..) hrings.head hop
    · exact .of_mem (by simp) hrings.tail.head hop

/-- The temporary of `std::swap` is new, and so are its nodes; the ring of the service that `x` is
registered with shares no node with the waiter lists. -/
structure Swappable (m : Memory α) (x y tmp : SharedMutexObject α) (X XS Y YS : List α) :
    Prop where
  registered : ∀ entries, m.service x.member = some entries → ∃ M,
    Rings m.links [(x.waiters, X), (x.sharedWaiters, XS), (y.waiters, Y), (y.sharedWaiters, YS),
        (entries, M)] ∧
      ∀ n ∈ [tmp.member, tmp.waiters, tmp.sharedWaiters],
        n ∉ nodes [(x.waiters, X), (x.sharedWaiters, XS), (y.waiters, Y), (y.sharedWaiters, YS),
          (entries, M)]
  distinct : [tmp.member, tmp.waiters, tmp.sharedWaiters].Nodup

/-- A swap keeps every waiter of both shared mutexes exactly when there is none, and the temporary
finds a service to register with. -/
theorem swap_kept_iff (h : FourLists m x y X XS Y YS) (htmp : Swappable m x y tmp X XS Y YS)
    (hfuel : 0 < fuel) :
    SwapKeeps fuel m x y tmp X XS Y YS ↔
      (X ++ XS = [] ∧ Y ++ YS = []) ∧ m.service x.member ≠ none := by
  cases hservice : m.service x.member with
  | none =>
      have hnone : swap fuel m x y tmp = none := by
        simp [swap, moveConstruct, MutexObject.moveConstruct,
          Memory.moveConstructMember_of_null hservice]
      simp [SwapKeeps, hnone]
  | some entries =>
      obtain ⟨M, hrings, hnew⟩ := htmp.registered entries hservice
      obtain ⟨m', hswap, hcompleted, hempty⟩ :=
        swap_rings hrings hservice hnew htmp.distinct hfuel
      have hlists : ∀ root ∈ [x.waiters, x.sharedWaiters, y.waiters, y.sharedWaiters],
          m'.Holds root [] := by
        intro root hroot
        simp only [List.mem_cons, List.not_mem_nil, or_false] at hroot
        rcases hroot with rfl | rfl | rfl | rfl
        · exact hempty.head
        · exact hempty.tail.head
        · exact hempty.tail.tail.head
        · exact hempty.tail.tail.tail.head
      constructor
      · intro hkeeps
        obtain ⟨m'', x', y', hswap', hkept⟩ := hkeeps
        obtain ⟨rfl, -, -⟩ : m' = m'' ∧ _ ∧ _ := by simpa using hswap.symm.trans hswap'
        have hnil : X ++ XS ++ Y ++ YS = [] := List.eq_nil_iff_forall_not_mem.mpr fun op hop =>
          Memory.not_accounted hlists (hcompleted ▸ h.pending op hop) (hkept op hop)
        rw [List.append_assoc] at hnil
        exact ⟨List.append_eq_nil_iff.mp hnil, by simp⟩
      · intro hnil
        obtain ⟨⟨hX, hY⟩, -⟩ := hnil
        refine ⟨m', _, _, hswap, fun op hop => ?_⟩
        rw [List.append_assoc, hX, hY] at hop
        exact absurd hop List.not_mem_nil

end SharedMutexObject

/-- **When moving a mutex loses nothing.** For mutexes and for shared mutexes, in any lock state and
with any waiters: `x = std::move(y)` takes everything over exactly when nobody waits for `y`, and
the assignment across executors, a swap, keeps every waiter exactly when nobody waits for either of
them and the service of `x` still exists. -/
theorem mutex_move_iff {fuel : Nat} (hfuel : 0 < fuel) {m n : Memory α}
    {x y tmp : MutexObject α} {X Y : List α} (h : TwoLists m x.waiters y.waiters X Y)
    (htmp : MutexObject.Swappable m x y tmp X Y)
    {u v aux : SharedMutexObject α} {U US V VS : List α}
    (hs : SharedMutexObject.FourLists n u v U US V VS)
    (haux : SharedMutexObject.Swappable n u v aux U US V VS) :
    (MutexObject.Taken m x y X Y ↔ Y = []) ∧
      (MutexObject.SwapKeeps fuel m x y tmp X Y ↔
        X = [] ∧ Y = [] ∧ m.service x.member ≠ none) ∧
      (SharedMutexObject.Taken n u v U US V VS ↔ V = [] ∧ VS = []) ∧
      (SharedMutexObject.SwapKeeps fuel n u v aux U US V VS ↔
        (U ++ US = [] ∧ V ++ VS = []) ∧ n.service u.member ≠ none) :=
  ⟨MutexObject.moveAssign_taken_iff h, MutexObject.swap_kept_iff h htmp hfuel,
    SharedMutexObject.moveAssign_taken_iff hs, SharedMutexObject.swap_kept_iff hs haux hfuel⟩

/-- The equivalences for objects with waiters `10` and `11`: members `0` and `2`, roots `1` and `3`,
for the shared mutexes also `5` and `6`, and a service with the entries `4`. -/
theorem mutex_move_iff_waiting :
    (MutexObject.Taken (Memory.linked 4 [(0, 4), (2, 4), (10, 1), (11, 3)])
        ⟨0, 1, true⟩ ⟨2, 3, true⟩ [10] [11] ↔ [11] = []) ∧
      (MutexObject.SwapKeeps 1 (Memory.linked 4 [(0, 4), (2, 4), (10, 1), (11, 3)])
        ⟨0, 1, true⟩ ⟨2, 3, true⟩ ⟨7, 8, false⟩ [10] [11] ↔
          [10] = [] ∧ [11] = [] ∧ some 4 ≠ (none : Option Nat)) ∧
      (SharedMutexObject.Taken (Memory.linked 4 [(0, 4), (2, 4), (10, 5), (11, 3)])
        ⟨⟨0, 1, true⟩, 5, 0⟩ ⟨⟨2, 3, true⟩, 6, 0⟩ [] [10] [11] [] ↔
          [11] = [] ∧ ([] : List Nat) = []) ∧
      (SharedMutexObject.SwapKeeps 1 (Memory.linked 4 [(0, 4), (2, 4), (10, 5), (11, 3)])
        ⟨⟨0, 1, true⟩, 5, 0⟩ ⟨⟨2, 3, true⟩, 6, 0⟩ ⟨⟨7, 8, false⟩, 9, 0⟩ [] [10] [11] [] ↔
          ([] ++ [10] = [] ∧ [11] ++ [] = []) ∧ some 4 ≠ (none : Option Nat)) :=
  mutex_move_iff (by decide) ⟨by decide, by simp [Memory.linked]⟩
    ⟨fun entries he => ⟨[0, 2], by cases he; decide⟩, by decide⟩
    ⟨by decide, by simp [Memory.linked]⟩
    ⟨fun entries he => ⟨[0, 2], by cases he; decide⟩, by decide⟩

/-- The waiter `11` of a locked mutex is lost when the mutex is moved to an unused one: afterwards
it is in neither list, and it was not completed. -/
theorem waiter_lost_in_move :
    (Memory.linked 4 [(0, 4), (2, 4), (11, 3)]).Holds 3 [11] ∧
      (MutexObject.moveAssign (Memory.linked 4 [(0, 4), (2, 4), (11, 3)])
        ⟨0, 1, false⟩ ⟨2, 3, true⟩).1.Holds 1 [] ∧
      (MutexObject.moveAssign (Memory.linked 4 [(0, 4), (2, 4), (11, 3)])
        ⟨0, 1, false⟩ ⟨2, 3, true⟩).1.Holds 3 [] ∧
      ¬ MutexObject.Taken (Memory.linked 4 [(0, 4), (2, 4), (11, 3)])
        ⟨0, 1, false⟩ ⟨2, 3, true⟩ [] [11] :=
  ⟨by decide, by decide, by decide, fun h => by
    have hlists : TwoLists (Memory.linked 4 [(0, 4), (2, 4), (11, 3)]) 1 3 [] [11] :=
      ⟨by decide, by simp [Memory.linked]⟩
    exact absurd ((MutexObject.moveAssign_taken_iff hlists).mp h) (by decide)⟩

end Sam
