import Sam.Linked.Mutex

/-!
# Move construction of the mutexes

When the move constructors of `mutex_impl` and `shared_mutex_impl` hand everything over: the new
object has the lock state and the waiters of its source and behaves like it, and the source is left
as a new, unlocked mutex. `handsOver_iff` gives the exact condition. The constructor of
`shared_mutex_impl` copies `locked_shared_` and, unlike its move assignment, does not reset it. -/

namespace Sam

open Links

universe u

variable {α : Type u} [DecidableEq α]

/-- What a move construction from `mi` in the memory `m` should leave, when `mi` represents `impl`
and a new primitive represents `fresh`: `moved` is what it does leave. The new object represents
`impl` and behaves as `mi` would have, and `mi` is like new: `tryLock` succeeds on it and `unlock`
completes nobody. -/
def Linked.HandsOver (L : Linked α) (avoid : List α) (m : Memory α) (enabled : Bool) (mi : L.Object)
    (impl fresh : L.Impl) (tryLock unlock : L.Call)
    (moved : Option (Memory α × L.Object × L.Object)) : Prop :=
  ∃ m' this source, moved = some (m', this, source) ∧ m'.completed = m.completed ∧
    L.Represents ⟨m', this, enabled⟩ impl ∧
    L.SameBehaviour avoid impl ⟨m, mi, enabled⟩ ⟨m', this, enabled⟩ ∧
    L.Represents ⟨m', source, enabled⟩ fresh ∧
    ∀ fuel, 1 < fuel →
      (∃ r, L.onLinks fuel ⟨m', source, enabled⟩ tryLock = some r ∧ r.outcome = .granted) ∧
      ∃ r, L.onLinks fuel ⟨m', source, enabled⟩ unlock = some r ∧
        r.state.memory.completed = m'.completed

/-- A mutex with the waiters `X` that is move constructed into the new object `this`. -/
def MutexObject.HandsOver (m : Memory α) (enabled : Bool) (this mi : MutexObject α) (X : List α) :
    Prop :=
  linked.HandsOver [mi.waiters, this.waiters] m enabled mi ⟨enabled, mi.locked, X⟩ (.init enabled)
    Call.tryLock Call.unlock (moveConstruct m this mi)

/-- A shared mutex with the waiters `X` and `XS` that is move constructed into the new object
`this`. -/
def SharedMutexObject.HandsOver (m : Memory α) (enabled : Bool) (this mi : SharedMutexObject α)
    (X XS : List α) : Prop :=
  linked.HandsOver [mi.waiters, mi.sharedWaiters, this.waiters, this.sharedWaiters] m enabled mi
    ⟨⟨enabled, mi.locked, X⟩, mi.lockedShared, XS⟩ (.init enabled) Call.tryLock Call.unlock
    (moveConstruct m this mi)

/-- A move construction hands over when the new object represents what the source did, and the
source a new primitive. -/
theorem Linked.HandsOver.of_represents {L : Linked α} {avoid : List α} {m m' : Memory α}
    {enabled : Bool} {mi this source : L.Object} {impl fresh : L.Impl} {tryLock unlock : L.Call}
    (hcompleted : m'.completed = m.completed) (hmi : L.Represents ⟨m, mi, enabled⟩ impl)
    (hthis : L.Represents ⟨m', this, enabled⟩ impl)
    (hsource : L.Represents ⟨m', source, enabled⟩ fresh)
    (hroots : L.roots mi ⊆ avoid) (hroots' : L.roots this ⊆ avoid)
    (hempty : L.queued fresh = []) (hnone : L.request tryLock = none)
    (hnone' : L.request unlock = none) (hfree : (L.onLists fresh tryLock).outcome = .granted)
    (hnobody : (L.onLists fresh unlock).completed = []) :
    L.HandsOver avoid m enabled mi impl fresh tryLock unlock (some (m', this, source)) := by
  refine ⟨m', this, source, rfl, hcompleted, hthis,
    L.sameBehaviour_of_represents hmi hthis hroots hroots' hcompleted, hsource,
    fun fuel hfuel => ?_⟩
  have hfuel' : (L.queued fresh).length + 1 < fuel := by simpa [hempty] using hfuel
  have hnew : ∀ c, L.request c = none → ∀ op ∈ L.request c, op ∉ L.roots source ++ L.queued fresh :=
    fun c hc op hop => absurd hop (by simp [hc])
  constructor
  · obtain ⟨r, hr, hrefines, -⟩ := L.refines hsource (hnew tryLock hnone) hfuel'
    exact ⟨r, hr, hrefines.outcome.trans hfree⟩
  · obtain ⟨r, hr, hrefines, -⟩ := L.refines hsource (hnew unlock hnone') hfuel'
    exact ⟨r, hr, by simpa [hnobody] using hrefines.completed⟩

variable {m : Memory α} {enabled : Bool} {X XS : List α} {rest : List (α × List α)}

omit [DecidableEq α] in
/-- One of the other rings may come behind the first ones. -/
theorem exists_perm_next {ring : α × List α} (rings : List (α × List α)) (h : ring ∈ rest) :
    ∃ others, (rings ++ rest).Perm (rings ++ ring :: others) := by
  obtain ⟨before, after, rfl⟩ := List.append_of_mem h
  exact ⟨before ++ after, List.perm_middle.append_left rings⟩

/-- **Move construction of a mutex** hands everything over unless its service is gone. -/
theorem MutexObject.handsOver_iff {this mi : MutexObject α}
    (h : Rings m.links ((mi.waiters, X) :: rest))
    (hservice : ∀ e ∈ m.service mi.member, ∃ M, (e, M) ∈ rest)
    (hnew : ∀ n ∈ [this.member, this.waiters], n ∉ nodes ((mi.waiters, X) :: rest))
    (hnodup : [this.member, this.waiters].Nodup) :
    HandsOver m enabled this mi X ↔ m.service mi.member ≠ none := by
  constructor
  · rintro ⟨m', this', source, hmoved, -⟩ hnull
    simp [moveConstruct, Memory.moveConstructMember_of_null hnull] at hmoved
  · intro hregistered
    obtain ⟨e, he⟩ := Option.ne_none_iff_exists'.mp hregistered
    obtain ⟨M, hM⟩ := hservice e he
    obtain ⟨others, hperm⟩ := exists_perm_next [(mi.waiters, X)] hM
    have hfree : ∀ n ∈ [this.member, this.waiters],
        n ∉ nodes ((mi.waiters, X) :: (e, M) :: others) :=
      fun n hn => (mem_nodes_perm hperm).not.mp (hnew n hn)
    have hne : this.waiters ≠ this.member := fun heq =>
      (List.nodup_cons.mp hnodup).1 (heq ▸ List.mem_cons_self)
    obtain ⟨m', hmoved, -, hcompleted, hrings⟩ := moveConstruct_rings (h.perm hperm) he
      (hfree _ (by simp)) (hfree _ (by simp)) hne
    have hsource : Rings m'.links [(mi.waiters, [])] := hrings.tail.sublist (by simp)
    rw [HandsOver, hmoved]
    refine .of_represents hcompleted ⟨h.sublist (by simp), rfl, rfl⟩
      ⟨hrings.sublist (by simp), rfl, rfl⟩ ⟨hsource, rfl, rfl⟩ ?_ ?_ rfl rfl rfl rfl rfl
    · exact List.cons_subset.mpr ⟨by simp, List.nil_subset _⟩
    · exact List.cons_subset.mpr ⟨by simp, List.nil_subset _⟩

/-- **Move construction of a shared mutex** hands everything over exactly when nobody shares the
source: the count of the source is not reset. -/
theorem SharedMutexObject.handsOver_iff {this mi : SharedMutexObject α}
    (h : Rings m.links ((mi.waiters, X) :: (mi.sharedWaiters, XS) :: rest))
    (hservice : ∀ e ∈ m.service mi.member, ∃ M, (e, M) ∈ rest)
    (hnew : ∀ n ∈ [this.member, this.waiters, this.sharedWaiters],
      n ∉ nodes ((mi.waiters, X) :: (mi.sharedWaiters, XS) :: rest))
    (hnodup : [this.member, this.waiters, this.sharedWaiters].Nodup) :
    HandsOver m enabled this mi X XS ↔ m.service mi.member ≠ none ∧ mi.lockedShared = 0 := by
  by_cases hnull : m.service mi.member = none
  · refine iff_of_false ?_ fun hboth => hboth.1 hnull
    rintro ⟨m', this', source, hmoved, -⟩
    simp [moveConstruct, MutexObject.moveConstruct, Memory.moveConstructMember_of_null hnull]
      at hmoved
  · obtain ⟨e, he⟩ := Option.ne_none_iff_exists'.mp hnull
    obtain ⟨M, hM⟩ := hservice e he
    obtain ⟨others, hperm⟩ := exists_perm_next [(mi.waiters, X), (mi.sharedWaiters, XS)] hM
    obtain ⟨m', hmoved, -, hcompleted, hrings⟩ := moveConstruct_rings (h.perm hperm) he
      (fun n hn => (mem_nodes_perm hperm).not.mp (hnew n hn)) hnodup
    have hempty : Rings m'.links [(mi.waiters, []), (mi.sharedWaiters, [])] :=
      hrings.tail.tail.sublist (by simp)
    rw [HandsOver, hmoved, and_iff_right hnull]
    constructor
    · rintro ⟨m'', this', source, heq, -, -, -, hsource, -⟩
      have hsame : { mi with locked := false } = source :=
        congrArg (fun moved => moved.2.2) (Option.some.inj heq)
      have hfresh : Represents ⟨m'', source, enabled⟩ (.init enabled) := hsource
      rw [← hsame] at hfresh
      exact hfresh.shared
    · intro hshared
      refine .of_represents hcompleted ⟨h.sublist (by simp), rfl, rfl, rfl⟩
        ⟨hrings.sublist (by simp), rfl, rfl, rfl⟩ ⟨hempty, rfl, hshared, rfl⟩ ?_ ?_ rfl rfl rfl rfl
        rfl
      · intro n hn
        simp only [linked, List.mem_cons, List.not_mem_nil, or_false] at hn ⊢
        tauto
      · intro n hn
        simp only [linked, List.mem_cons, List.not_mem_nil, or_false] at hn ⊢
        tauto

/-- **Move construction** of a mutex or a shared mutex that is registered with its service, into
nodes that are new: when it hands everything over. -/
theorem moveConstruct_handsOver_iff :
    (∀ (m : Memory α) enabled (this mi : MutexObject α) X rest,
        Rings m.links ((mi.waiters, X) :: rest) →
        (∀ e ∈ m.service mi.member, ∃ M, (e, M) ∈ rest) →
        (∀ n ∈ [this.member, this.waiters], n ∉ nodes ((mi.waiters, X) :: rest)) →
        [this.member, this.waiters].Nodup →
        (MutexObject.HandsOver m enabled this mi X ↔ m.service mi.member ≠ none)) ∧
      ∀ (m : Memory α) enabled (this mi : SharedMutexObject α) X XS rest,
        Rings m.links ((mi.waiters, X) :: (mi.sharedWaiters, XS) :: rest) →
        (∀ e ∈ m.service mi.member, ∃ M, (e, M) ∈ rest) →
        (∀ n ∈ [this.member, this.waiters, this.sharedWaiters],
          n ∉ nodes ((mi.waiters, X) :: (mi.sharedWaiters, XS) :: rest)) →
        [this.member, this.waiters, this.sharedWaiters].Nodup →
        (SharedMutexObject.HandsOver m enabled this mi X XS ↔
          m.service mi.member ≠ none ∧ mi.lockedShared = 0) :=
  ⟨fun _ _ _ _ _ _ h hservice hnew hnodup => MutexObject.handsOver_iff h hservice hnew hnodup,
    fun _ _ _ _ _ _ _ h hservice hnew hnodup =>
      SharedMutexObject.handsOver_iff h hservice hnew hnodup⟩

/-- A locked shared mutex with one exclusive and one shared waiter is handed over. The service is
the node `0`. -/
theorem moveConstruct_handsOver_locked :
    SharedMutexObject.HandsOver (Memory.linked 0 [(1, 0), (7, 2), (8, 3)]) true
      ⟨⟨4, 5, false⟩, 6, 0⟩ ⟨⟨1, 2, true⟩, 3, 0⟩ [7] [8] :=
  (moveConstruct_handsOver_iff.2 (Memory.linked 0 [(1, 0), (7, 2), (8, 3)]) true
    ⟨⟨4, 5, false⟩, 6, 0⟩ ⟨⟨1, 2, true⟩, 3, 0⟩ [7] [8] [(0, [1])] (by decide)
    (fun e he => ⟨[1], by simpa [Memory.linked, eq_comm] using he⟩) (by decide)
    (by decide)).mpr ⟨by simp [Memory.linked], rfl⟩

/-- A shared mutex that is shared once is moved from. It keeps the count, and cannot be locked any
more. -/
theorem moveConstruct_keeps_count :
    ¬ SharedMutexObject.HandsOver (Memory.linked 0 [(1, 0)]) true ⟨⟨4, 5, false⟩, 6, 0⟩
        ⟨⟨1, 2, false⟩, 3, 1⟩ [] [] ∧
      ∃ m' this source,
        SharedMutexObject.moveConstruct (Memory.linked 0 [(1, 0)]) ⟨⟨4, 5, false⟩, 6, 0⟩
          ⟨⟨1, 2, false⟩, 3, 1⟩ = some (m', this, source) ∧
        source.lockedShared = 1 ∧
        (SharedMutexObject.tryLock ⟨m', source, true⟩).outcome = .refused := by
  have hrings : Rings (Memory.linked 0 [(1, 0)]).links [(2, []), (3, []), (0, [1])] := by decide
  have hiff : SharedMutexObject.HandsOver (Memory.linked 0 [(1, 0)]) true ⟨⟨4, 5, false⟩, 6, 0⟩
      ⟨⟨1, 2, false⟩, 3, 1⟩ [] [] ↔ _ :=
    SharedMutexObject.handsOver_iff hrings
      (fun e he => ⟨[1], by simpa [Memory.linked, eq_comm] using he⟩) (by decide) (by decide)
  exact ⟨fun h => absurd (hiff.mp h).2 (by decide), _, _, _, rfl, rfl, rfl⟩

end Sam
