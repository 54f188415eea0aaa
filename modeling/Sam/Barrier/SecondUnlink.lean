import Sam.Barrier.Reachable

/-!
# The second `unlink` of the last arrival

The last blocking arrival at a barrier queues its own op, completes it with the others and then
unlinks it once more. `unlink` leaves the pointers of its node as they are, so the second call
writes through stale ones. `second_unlink_harmless` says where these lead in every reachable heap.
-/

namespace Sam.Barrier.Heap

open Links Service Transition

universe u

variable {α : Type u} [DecidableEq α] {s t : Heap α} {root op : α} {fuel : Nat}
  {enabled : Bool} {init counter : Int} {entry : ErrorCode}

/-- A waiter ring: it hangs on `root`, and its members wait. -/
structure WaiterRing (s : Heap α) (root : α) (waiters : List α) : Prop where
  ring : IsRing s.links root waiters
  waiting : ∀ w ∈ waiters, s.Waiting w

/-- What the last blocking arrival does in the heap `s`, where the waiter ring `waiters` hangs on
`root`. `mid` is the heap in which it calls `op.unlink()`, and `t` the one in which it returns. By
then every waiter was completed with success, once, and then the op; `writes` says which links the
call writes, and `unlink` that it does nothing else. -/
structure Harmless (s mid t : Heap α) (root op : α) (waiters : List α) : Prop where
  completed : mid.completed = s.completed ++ (waiters ++ [op]).map (·, .success)
  once : ∀ w ∈ waiters, (mid.completed.drop s.completed.length).filter (·.1 = w) = [(w, .success)]
  released : ∀ w ∈ waiters, ¬ mid.Waiting w
  writes : ∀ w ∈ BilistNode.unlinkWrites mid.links op, w.node = root
  unlink : mid.unlink op =
    .ok { mid with links := (BilistNode.unlinkWrites mid.links op).foldl Links.write mid.links }
  returned : (mid.unlink op).map (·.assign op none) = .ok t
  empty : IsRing t.links root []
  ec : t.ec op = .success

variable {mid : Heap α} {ops : List α} {rest : List (α × List α)} {scope : Set α}

omit [DecidableEq α] in
/-- The rings of the invariant are waiter rings. -/
theorem Inv.waiterRing (h : Inv s scope ((root, ops) :: rest)) : WaiterRing s root ops := by
  refine ⟨h.linked.head, fun w hw => h.waits ?_⟩
  rw [List.flatMap_cons]
  exact List.mem_append_left _ hw

omit [DecidableEq α] in
/-- **A waiter ring suffices** for the invariant of a part of the heap: its nodes and a new one.
What the nodes outside hold, and where their pointers lead, does not matter. -/
theorem WaiterRing.inv (h : WaiterRing s root ops) (hroot : s.IsRoot root)
    (hop : s.node op = none) : Inv s {n | n = op ∨ n ∈ root :: ops} [(root, ops)] := by
  have hwaits : ¬ s.Waiting op := by simp [Waiting, hop]
  have hnew : ¬ s.IsRoot op := by simp [IsRoot, hop]
  have hne : op ≠ root := fun he => hnew (he ▸ hroot)
  have hout : op ∉ ops := fun hmem => hwaits (h.waiting op hmem)
  have hlinked : Rings s.links [(root, ops)] :=
    Rings.cons_iff.mpr ⟨h.ring, ⟨List.nodup_nil, by simp⟩, by simp [nodes]⟩
  refine ⟨hlinked, fun n hn => Or.inr (by simpa [nodes] using hn), fun n hn => ?_, fun n hn => ?_⟩
  · have hmember : n ∈ ops → ¬ s.IsRoot n := fun hmem hr => hr.not_waiting (h.waiting n hmem)
    have hcases : n = op ∨ n ∈ root :: ops := hn
    simp only [List.map_cons, List.map_nil, List.mem_singleton]
    grind
  · have hroot' : ¬ s.Waiting root := hroot.not_waiting
    have hmember : n ∈ ops → s.Waiting n := h.waiting n
    have hcases : n = op ∨ n ∈ root :: ops := hn
    simp only [List.flatMap_cons, List.flatMap_nil, List.append_nil]
    grind

/-- The calls on different ops are one call on each. -/
theorem filter_calls (hnodup : ops.Nodup) {w : α} (hw : w ∈ ops) (ec : ErrorCode) :
    (ops.map (·, ec)).filter (·.1 = w) = [(w, ec)] := by
  have hcount : ops.count w = 1 := List.count_eq_one_of_mem hnodup hw
  rw [List.filter_map]
  show (ops.filter (· = w)).map (·, ec) = _
  rw [List.filter_eq, hcount]
  rfl

/-- **The stale pointers** lead to the root, so the second `unlink` writes what the root holds. -/
theorem PhaseEnded.harmless (h : Inv s scope ((root, ops) :: rest)) (hop : s.node op = none)
    (hmid : PhaseEnded scope root op ops rest init (s.enter op entry) mid) :
    Harmless s mid (mid.assign op none) root op ops := by
  have hwrites : BilistNode.unlinkWrites mid.links op = [.prev root root, .next root root] := by
    rw [BilistNode.unlinkWrites, hmid.next, hmid.prev]
  have hsame : BilistNode.unlink mid.links op = mid.links :=
    BilistNode.unlink_of_detached hmid.inv.linked.head hmid.prev hmid.next
  have hnew : (ops ++ [op]).Nodup := by
    have hout : op ∉ ops := List.not_mem_of_not_mem_cons (h.fresh_head hop)
    have hnodup := (List.nodup_cons.mp h.linked.head.nodup).2
    grind
  have hcompleted : mid.completed = s.completed ++ (ops ++ [op]).map (·, .success) :=
    hmid.completed
  refine ⟨hcompleted, fun w hw => ?_, fun w hw => ?_, ?_, ?_, ?_, hmid.inv.linked.head, hmid.ec⟩
  · rw [hcompleted, List.drop_left]
    exact filter_calls hnew (List.mem_append_left [op] hw) .success
  · have hnode : mid.node w = (s.node w).bind Node.left := hmid.waiters w hw
    rw [Waiting, hnode]
    cases s.node w with
    | none => exact Bool.false_ne_true
    | some k => simp [k.left_eq.2]
  · intro w hw
    rw [hwrites] at hw
    simp only [List.mem_cons, List.not_mem_nil, or_false] at hw
    rcases hw with rfl | rfl <;> rfl
  · rw [hmid.unlink, ← BilistNode.unlink_eq_writes, hsame]
  · rw [hmid.unlink]
    rfl

/-- **The second `unlink` is harmless.** Let a blocking `arrive` in multi-threaded mode be the last
arrival of its phase, in a heap that a program reaches. Whatever waiter ring hangs on the barrier,
the call ends, and its second `unlink` writes no link but those of the root, which is left empty. It
tells success, and has completed every earlier waiter once. A waiter ring hangs there unless a move
assignment has dropped waiters. -/
theorem second_unlink_harmless {links : Links α} {ec : α → ErrorCode} {events : List (Event α)}
    (hrun : run (step fuel) (empty links ec) events = some s)
    (hlast : s.node root = some (.barrier true init 1)) (hop : s.node op = none)
    (entry : ErrorCode) :
    (∀ waiters, WaiterRing s root waiters → ∃ mid t, Harmless s mid t root op waiters ∧
      ∀ more, waiters.length + 2 ≤ more →
        (s.enter op entry).lastArrival root op init more = .ok mid ∧
          s.arrive root op entry more = .ok t) ∧
    (Keeps fuel (empty links ec) events → ∃ waiters, WaiterRing s root waiters) := by
  have hroot : s.IsRoot root := by
    rw [IsRoot, hlast]
    rfl
  constructor
  · intro waiters hwaiters
    have h := hwaiters.inv hroot hop
    have hentered : Inv (s.enter op entry) _ [(root, waiters)] := h.same rfl rfl
    obtain ⟨mid, hmid, henough, -⟩ := lastArrival_ends hentered (Or.inl rfl) hop init
    refine ⟨mid, mid.assign op none, hmid.harmless h hop, fun more hmore => ?_⟩
    refine ⟨henough more hmore, ?_⟩
    rw [arrive_of_last hlast]
    show (s.enter op entry).lastArrival root op init more >>= _ = _
    rw [henough more hmore]
    exact congrArg (Except.map (·.assign op none)) hmid.unlink
  · intro hkeeps
    obtain ⟨rings, h⟩ := run_wellFormed hkeeps hrun
    obtain ⟨waiters, rest, h⟩ := h.of_root trivial hroot
    exact ⟨waiters, h.waiterRing⟩

/-- A blocking arrival, an asynchronous one, and the last of three. -/
theorem second_unlink_harmless_three :
    ∃ s mid t : Heap Nat,
      run (step 3) (empty ⟨id, id⟩ fun _ => .inProgress)
        [.construct 0 true 3, .arrive 0 1 .inProgress, .asyncTry 0 2, .asyncQueue 0 2] = some s ∧
      WaiterRing s 0 [1, 2] ∧ Harmless s mid t 0 3 [1, 2] ∧ s.arrive 0 3 .inProgress 4 = .ok t ∧
      mid.completed = [(1, .success), (2, .success), (3, .success)] := by
  obtain ⟨s, hrun, hlast, hop, hring, hnone⟩ : ∃ s : Heap Nat,
      run (step 3) (empty ⟨id, id⟩ fun _ => .inProgress)
        [.construct 0 true 3, .arrive 0 1 .inProgress, .asyncTry 0 2, .asyncQueue 0 2] = some s ∧
      s.node 0 = some (.barrier true 3 1) ∧ s.node 3 = none ∧ IsRing s.links 0 [1, 2] ∧
      s.completed = [] := ⟨_, rfl, rfl, rfl, by decide, rfl⟩
  obtain ⟨hharmless, hkept⟩ := second_unlink_harmless hrun hlast hop .inProgress
  obtain ⟨waiters, hwaiters⟩ := hkept fun t e htakes => by
    obtain ⟨before, next, hprefix, -, -⟩ := htakes
    have hmem := hprefix.subset (List.mem_append_right before List.mem_cons_self)
    simp only [List.mem_cons, List.not_mem_nil, or_false] at hmem
    rcases hmem with rfl | rfl | rfl | rfl <;> trivial
  obtain rfl : waiters = [1, 2] := hwaiters.ring.unique hring
  obtain ⟨mid, t, h, hends⟩ := hharmless [1, 2] hwaiters
  refine ⟨s, mid, t, hrun, hwaiters, h, (hends 4 (Nat.le_refl 4)).2, ?_⟩
  rw [h.completed, hnone]
  rfl

end Sam.Barrier.Heap
