import Sam.ConditionVariable.Heap

/-!
# Whom the notifications wake

`notify_one` and `notify_all` on every heap that a run of calls can leave, for any answers of the
predicates. `notify_all` parts the waiters by their answers. `notify_one` asks the first waiter
only: if that one cannot go on, the notification is lost, although `notify_all` would find a waiter
behind it. -/

namespace Sam.ConditionVariable

open Links Transition

universe u

variable {α : Type u} [DecidableEq α]

/-- `notify_one` completes, with success, the first waiter whose predicate returns true, if there is
one, and keeps all others in order. -/
def WakesFirst (root : α) (done : α → Bool) (s : Heap α) (ops : List α) : Prop :=
  ∃ s', notifyOne root done s = .ok s' ∧
    s'.memory.completed = s.memory.completed ++ (ops.find? done).toList.map (·, .success) ∧
    s'.memory.Holds root (ops.eraseP done)

/-- `notify_all` ended in the state `s'` without a fault: it asked every waiter once, completed
those that answered true, with success, destroyed them and kept the others, all in order. -/
structure Partitions (root : α) (done : α → Bool) (s s' : Heap α) (ops : List α) : Prop where
  asked : s'.asked = s.asked ++ ops
  completed :
    s'.memory.completed = s.memory.completed ++ (ops.filter done).map (·, .success)
  kept : s'.memory.Holds root (ops.filter (! done ·))
  alive : s'.alive.Perm (ops.filter (! done ·))

variable {root : α} {links : Links α} {ls : List (Label α)} {s : Heap α}

/-- A `notify_one` that wakes nobody is right exactly when nobody can go on. -/
theorem wakesFirst_of_refused {ops : List α} {done : α → Bool} {s' : Heap α}
    (hs' : notifyOne root done s = .ok s')
    (hcompleted : s'.memory.completed = s.memory.completed)
    (hring : s'.memory.Holds root ops) :
    WakesFirst root done s ops ↔ ∀ op ∈ ops, done op = false := by
  constructor
  · -- nobody is completed, so there was nobody to complete
    intro hwakes
    obtain ⟨t, ht, hfirst, -⟩ := hwakes
    obtain rfl : s' = t := Except.ok.inj (hs'.symm.trans ht)
    rw [hcompleted, List.self_eq_append_right] at hfirst
    have hnone : ops.find? done = none := by simpa using hfirst
    exact fun q hq => by simpa using List.find?_eq_none.mp hnone q hq
  · intro hall
    have hrefuses : ∀ q ∈ ops, ¬ done q = true := fun q hq => by simp [hall q hq]
    refine ⟨s', hs', ?_, ?_⟩
    · rw [List.find?_eq_none.mpr hrefuses, hcompleted]
      simp
    · rwa [List.eraseP_of_forall_not hrefuses]

/-- `notify_one` on a heap with these waiters. -/
theorem wakesFirst_iff {ops : List α} (h : Represents root s ops) (done : α → Bool) :
    WakesFirst root done s ops ↔
      (∀ op ∈ ops.head?, done op = true) ∨ ∀ op ∈ ops, done op = false := by
  obtain ⟨s', hs', hrep, hcompleted⟩ := notifyOne_ok (m := ⟨ops⟩) h done
  cases ops with
  | nil =>
      rw [ConditionVariableImpl.notifyOne_of_none rfl] at hrep hcompleted
      refine iff_of_true ⟨s', hs', ?_, hrep.ring⟩ (Or.inr fun op hop => absurd hop List.not_mem_nil)
      simpa using hcompleted
  | cons op rest =>
      rw [ConditionVariableImpl.notifyOne_of_waiter rfl] at hrep hcompleted
      cases hdone : done op with
      | true =>
          rw [if_pos hdone] at hrep hcompleted
          refine iff_of_true ⟨s', hs', ?_, ?_⟩ (Or.inl fun q hq => ?_)
          · rw [List.find?_cons_of_pos hdone]
            exact hcompleted
          · rw [List.eraseP_cons_of_pos hdone]
            exact hrep.ring
          · obtain rfl : op = q := Option.some.inj hq
            exact hdone
      | false =>
          rw [if_neg (by simp [hdone])] at hrep hcompleted
          rw [wakesFirst_of_refused hs' (by simpa using hcompleted) hrep.ring]
          refine ⟨Or.inr, fun hcond => hcond.resolve_left fun hhead => ?_⟩
          rw [hhead op rfl] at hdone
          cases hdone

/-- **When `notify_one` wakes a waiter that can go on.** After every run and for all answers of the
predicates: exactly when the first waiter answers true, or nobody does. -/
theorem notify_one_iff (hrun : run (step root) (Heap.init links root) ls = some s)
    (done : α → Bool) : ∃ ops, s.memory.Holds root ops ∧
      (WakesFirst root done s ops ↔
        (∀ op ∈ ops.head?, done op = true) ∨ ∀ op ∈ ops, done op = false) := by
  obtain ⟨ops, h⟩ := run_wellFormed hrun
  exact ⟨ops, h.ring, wakesFirst_iff h done⟩

/-- Two waiters, the first of which answers true. -/
theorem notify_one_iff_two : ∃ s : Heap Nat,
    run (step 0) (Heap.init ⟨id, id⟩ 0) [.asyncWait 1, .asyncWait 2] = some s ∧
      ∃ ops, s.memory.Holds 0 ops ∧
        (WakesFirst 0 (· == 1) s ops ↔
          (∀ op ∈ ops.head?, (op == 1) = true) ∨ ∀ op ∈ ops, (op == 1) = false) := by
  have hrun : ∃ s, run (step 0) (Heap.init ⟨id, id⟩ 0) [.asyncWait 1, .asyncWait 2] = some s :=
    ⟨_, rfl⟩
  obtain ⟨s, hs⟩ := hrun
  exact ⟨s, hs, notify_one_iff hs (· == 1)⟩

/-- Two waiters, the second of which answers true: `notify_one` wakes nobody, and so does every
later one. -/
theorem notification_lost : ∃ s : Heap Nat,
    run (step 0) (Heap.init ⟨id, id⟩ 0) [.asyncWait 1, .asyncWait 2] = some s ∧
      s.memory.Holds 0 [1, 2] ∧ ¬ WakesFirst 0 (· == 2) s [1, 2] ∧
      ∃ t, run (step 0) s [.notifyOne (· == 2), .notifyOne (· == 2)] = some t ∧
        t.memory.completed = [] ∧ t.memory.Holds 0 [1, 2] := by
  refine ⟨_, rfl, by decide, ?_, _, rfl, rfl, by decide⟩
  rintro ⟨t, ht, hcompleted, -⟩
  obtain rfl := Except.ok.inj ht
  exact absurd hcompleted (by decide)

/-- **`notify_all` parts the waiters**, after every run and for all answers of the predicates. With
more turns than waiters it ends, and it touches no op that is destroyed. -/
theorem notify_all_partitions (hrun : run (step root) (Heap.init links root) ls = some s)
    (done : α → Bool) : ∃ ops, s.memory.Holds root ops ∧
      ∀ fuel, ops.length < fuel →
        ∃ s', notifyAll root done fuel s = .ok s' ∧ Partitions root done s s' ops := by
  obtain ⟨ops, h⟩ := run_wellFormed hrun
  refine ⟨ops, h.ring, fun fuel hfuel => ?_⟩
  obtain ⟨s', hs', hrep, hcompleted, hasked⟩ := notifyAll_ok (m := ⟨ops⟩) h done hfuel
  rw [ConditionVariableImpl.notifyAll_eq h.nodup] at hrep hcompleted
  exact ⟨s', hs', hasked, hcompleted, hrep.ring, hrep.alive⟩

/-- Three waiters, of which the first and the last answer true. -/
theorem notify_all_partitions_three : ∃ s s' : Heap Nat,
    run (step 0) (Heap.init ⟨id, id⟩ 0) [.asyncWait 1, .asyncWait 2, .asyncWait 3] = some s ∧
      s.memory.Holds 0 [1, 2, 3] ∧ notifyAll 0 (· != 2) 4 s = .ok s' ∧
      Partitions 0 (· != 2) s s' [1, 2, 3] ∧ s'.memory.Holds 0 [2] := by
  obtain ⟨s, hs, hring⟩ : ∃ s, run (step 0) (Heap.init ⟨id, id⟩ 0)
      [.asyncWait 1, .asyncWait 2, .asyncWait 3] = some s ∧ s.memory.Holds 0 [1, 2, 3] :=
    ⟨_, rfl, by decide⟩
  obtain ⟨ops, hops, hall⟩ := notify_all_partitions hs (· != 2)
  obtain rfl : ops = [1, 2, 3] := IsRing.unique hops hring
  obtain ⟨s', hs', hparts⟩ := hall 4 (by decide)
  exact ⟨s, s', hs, hring, hs', hparts, hparts.kept⟩

end Sam.ConditionVariable
