import Mathlib.Data.List.Nodup
import Sam.Detail.BasicOp
import Sam.Detail.ConditionVariableImpl
import Sam.Library.Transition
import Sam.Service.Shutdown

/-!
# The condition variable on the heap

`condition_variable_impl` over the linked nodes of its ops, which destroy themselves when they are
completed or shut down: reading or writing a link of a destroyed op is a fault. `Represents` says
that a heap holds the waiters of a `ConditionVariableImpl`, and each section is shown to do to the
heap what its counterpart does to the list. The walk of `notify_all` is `notifyLoop_ok`: the ring is
the waiters that it kept, followed by those that it has not visited. -/

namespace Sam.ConditionVariable

open Links Service

universe u

/-- The nodes, the ops that are not destroyed, and the predicates evaluated so far, in order. -/
structure Heap (α : Type u) where
  memory : Memory α
  alive : List α
  asked : List α

section Model

variable {α : Type u} [DecidableEq α]

/-- A new condition variable whose `waiters_` is the node `root`. -/
def Heap.init (links : Links α) (root : α) : Heap α :=
  ⟨⟨BilistNode.construct links root, fun _ => none, []⟩, [], []⟩

/-- The links of these nodes may be read and written. -/
def Heap.Usable (s : Heap α) (root : α) (nodes : List α) : Prop :=
  ∀ n ∈ nodes, n = root ∨ n ∈ s.alive

instance (s : Heap α) (root : α) (nodes : List α) : Decidable (s.Usable root nodes) :=
  inferInstanceAs (Decidable (∀ n ∈ nodes, _))

/-- `unlink` and `destroy` of an op. -/
def Heap.drop (s : Heap α) (root op : α) : Except Fault (Heap α) :=
  if s.Usable root [op, s.memory.links.prev op, s.memory.links.next op] then
    .ok { s with
      memory := { s.memory with links := BilistNode.unlink s.memory.links op }
      alive := s.alive.erase op }
  else .error .destroyed

/-- `predicate_op_model::complete`: the op unlinks and destroys itself; its handler is posted. -/
def Heap.complete (s : Heap α) (root op : α) (ec : ErrorCode) : Except Fault (Heap α) :=
  (s.drop root op).map fun s =>
    { s with memory := { s.memory with completed := s.memory.completed ++ [(op, ec)] } }

/-- `add_waiter` of a new op. -/
def addWaiter (s : Heap α) (root waiter : α) : Except Fault (Heap α) :=
  if s.Usable root [s.memory.links.prev root] then
    .ok { s with
      memory := { s.memory with
        links := BilistNode.linkBefore (BilistNode.construct s.memory.links waiter) waiter root }
      alive := s.alive ++ [waiter] }
  else .error .destroyed

/-- `op->done()`, which reads the op. -/
def Heap.ask (s : Heap α) (op : α) : Except Fault (Heap α) :=
  if op ∈ s.alive then .ok { s with asked := s.asked ++ [op] } else .error .destroyed

/-- `notify_one`. -/
def notifyOne (root : α) (done : α → Bool) (s : Heap α) : Except Fault (Heap α) :=
  let op := s.memory.links.next root
  if op = root then .ok s
  else
    s.ask op >>= fun s => if done op then s.complete root op .success else .ok s

/-- The loop of `notify_all` from the node `c` on. -/
def notifyLoop (root : α) (done : α → Bool) : Nat → Heap α → α → Except Fault (Heap α)
  | 0, _, _ => .error .fuel
  | fuel + 1, s, c =>
      if c = root then .ok s
      else
        let op := c
        -- `c = c->next_` comes before `op->done()`, and both read the op
        let c := s.memory.links.next c
        s.ask op >>= fun s =>
          if done op then s.complete root op .success >>= fun s => notifyLoop root done fuel s c
          else notifyLoop root done fuel s c

/-- `notify_all`. -/
def notifyAll (root : α) (done : α → Bool) (fuel : Nat) (s : Heap α) : Except Fault (Heap α) :=
  notifyLoop root done fuel s (s.memory.links.next root)

/-- The loop of `predicate_bilist_holder::shutdown` over the local list `bn`; `nx` is a reference to
`bn.next_`. -/
def shutdownLoop (bn : α) : Nat → Heap α → Except Fault (Heap α)
  | 0, _ => .error .fuel
  | fuel + 1, s =>
      let nx := s.memory.links.next bn
      if nx = bn then .ok s
      else if nx ∉ s.alive then .error .destroyed
      else
        let nx2 := s.memory.links.next nx
        s.drop bn nx >>= fun s =>
          shutdownLoop bn fuel
            { s with memory := { s.memory with links := s.memory.links.setNext bn nx2 } }

/-- `shutdown`: the ops are moved to the local list `bn` and destroyed there. -/
def shutdown (root bn : α) (fuel : Nat) (s : Heap α) : Except Fault (Heap α) :=
  shutdownLoop bn fuel
    { s with memory :=
      { s.memory with links := BilistNode.moveConstruct s.memory.links bn root } }

end Model

variable {α : Type u} {root op : α} {ops kept rest : List α} {s : Heap α}

/-- The ring on `root` holds these ops, which are the ones that are alive. -/
structure Represents (root : α) (s : Heap α) (ops : List α) : Prop where
  ring : s.memory.Holds root ops
  alive : s.alive.Perm ops

namespace Represents

/-- The waiters are different ops. -/
theorem nodup (h : Represents root s ops) : ops.Nodup := (List.nodup_cons.mp h.ring.nodup).2

/-- A waiter is not the root. -/
theorem ne_root (h : Represents root s ops) (hop : op ∈ ops) : op ≠ root :=
  fun he => (List.nodup_cons.mp h.ring.nodup).1 (he ▸ hop)

/-- The nodes of the ring may be used. -/
theorem usable (h : Represents root s ops) {nodes : List α}
    (hnodes : ∀ n ∈ nodes, n ∈ root :: ops) : s.Usable root nodes := by
  intro n hn
  rcases List.mem_cons.mp (hnodes n hn) with rfl | hn
  · exact Or.inl rfl
  · exact Or.inr (h.alive.mem_iff.mpr hn)

/-- The first waiter, or the root. -/
theorem next_root (h : Represents root s ops) : s.memory.links.next root = ops.headD root := by
  cases ops with
  | nil => exact (IsRing.nil_iff.mp h.ring).1
  | cons op ops => exact IsRing.next_root h.ring

/-- The waiter behind one of them, or the root. -/
theorem next_waiter (h : Represents root s (kept ++ op :: rest)) :
    s.memory.links.next op = rest.headD root := by
  rw [(IsRing.neighbours h.ring).2]
  cases rest <;> rfl

end Represents

variable [DecidableEq α] {ec : ErrorCode} {done : α → Bool} {fuel : Nat}

/-- A condition variable has no waiters at first. -/
theorem represents_init (links : Links α) (root : α) : Represents root (Heap.init links root) [] :=
  ⟨BilistNode.construct_ring, List.Perm.refl []⟩

/-! ## One op -/

/-- **An op that is dropped** leaves the ring and is destroyed. -/
theorem drop_ok (h : Represents root s (kept ++ op :: rest)) :
    ∃ s', s.drop root op = .ok s' ∧ Represents root s' (kept ++ rest) ∧
      s'.memory.completed = s.memory.completed ∧ s'.asked = s.asked ∧
      SameOff (root :: (kept ++ op :: rest)) s.memory.links s'.memory.links := by
  have hop : op ∈ root :: (kept ++ op :: rest) := by simp
  have husable : s.Usable root [op, s.memory.links.prev op, s.memory.links.next op] := by
    refine h.usable fun n hn => ?_
    simp only [List.mem_cons, List.not_mem_nil, or_false] at hn
    rcases hn with rfl | rfl | rfl
    · exact hop
    · exact h.ring.mem_of_points hop (Or.inr rfl)
    · exact h.ring.mem_of_points hop (Or.inl rfl)
  refine ⟨_, if_pos husable, ⟨?_, ?_⟩, rfl, rfl, IsRing.sameOff_remove h.ring⟩
  · show IsRing (BilistNode.unlink s.memory.links op) root (kept ++ rest)
    rw [BilistNode.unlink_eq]
    exact IsRing.remove h.ring
  · have hmiddle : (op :: (kept ++ rest)).Perm (kept ++ op :: rest) := List.perm_middle.symm
    exact (List.perm_cons_erase (h.alive.mem_iff.mpr (by simp))).symm.trans
      (h.alive.trans hmiddle.symm) |>.cons_inv

/-- **An op that is completed** leaves the ring, is destroyed and has its handler posted. -/
theorem complete_ok (h : Represents root s (kept ++ op :: rest)) (ec : ErrorCode) :
    ∃ s', s.complete root op ec = .ok s' ∧ Represents root s' (kept ++ rest) ∧
      s'.memory.completed = s.memory.completed ++ [(op, ec)] ∧ s'.asked = s.asked := by
  obtain ⟨t, ht, hrep, hcompleted, hasked, -⟩ := drop_ok h
  refine ⟨{ t with memory := { t.memory with completed := t.memory.completed ++ [(op, ec)] } },
    ?_, ⟨hrep.ring, hrep.alive⟩, ?_, hasked⟩
  · rw [Heap.complete, ht]
    rfl
  · show t.memory.completed ++ [(op, ec)] = _
    rw [hcompleted]

/-- The predicate of a waiter can be evaluated. -/
theorem ask_ok (h : Represents root s ops) (hop : op ∈ ops) :
    s.ask op = .ok { s with asked := s.asked ++ [op] } :=
  if_pos (h.alive.mem_iff.mpr hop)

/-- **A new op** is the last one in line, as in `asyncWait`. -/
theorem addWaiter_ok (h : Represents root s ops) (hop : op ∉ root :: ops) :
    ∃ s', addWaiter s root op = .ok s' ∧ Represents root s' (ops ++ [op]) ∧
      s'.memory.completed = s.memory.completed ∧ s'.asked = s.asked := by
  have hprev : s.memory.links.prev root ∈ root :: ops :=
    h.ring.mem_of_points List.mem_cons_self (Or.inr rfl)
  have husable : s.Usable root [s.memory.links.prev root] :=
    h.usable fun n hn => List.mem_singleton.mp hn ▸ hprev
  have hnew : IsRing (BilistNode.construct s.memory.links op) root ops :=
    h.ring.frame BilistNode.construct_sameOff fun a ha hmem =>
      hop (List.mem_singleton.mp hmem ▸ ha)
  refine ⟨_, if_pos husable, ⟨(BilistNode.linkBefore_ring hnew hop).1, ?_⟩, rfl, rfl⟩
  exact h.alive.append_right [op]

/-! ## The notifications -/

/-- **`notify_one`** does to the heap what it does to the list. -/
theorem notifyOne_ok {m : ConditionVariableImpl α} (h : Represents root s m.waiters)
    (done : α → Bool) :
    ∃ s', notifyOne root done s = .ok s' ∧
      Represents root s' (m.notifyOne done).state.waiters ∧
      s'.memory.completed =
        s.memory.completed ++ (m.notifyOne done).completed.map (·, .success) := by
  unfold notifyOne
  rw [h.next_root]
  cases hwaiters : m.waiters with
  | nil =>
      rw [ConditionVariableImpl.notifyOne_of_none hwaiters]
      exact ⟨s, if_pos rfl, h, by simp⟩
  | cons op rest =>
      have hsame : Represents root s ([] ++ op :: rest) := hwaiters ▸ h
      have hop : op ∈ [] ++ op :: rest := List.mem_cons_self
      have hasked : Represents root { s with asked := s.asked ++ [op] } ([] ++ op :: rest) :=
        ⟨hsame.ring, hsame.alive⟩
      rw [ConditionVariableImpl.notifyOne_of_waiter hwaiters, List.headD_cons,
        if_neg (hsame.ne_root hop), ask_ok hsame hop]
      cases hdone : done op with
      | false => exact ⟨{ s with asked := s.asked ++ [op] }, rfl, ⟨h.ring, h.alive⟩, by simp⟩
      | true =>
          obtain ⟨s', hs', hrep, hcompleted, -⟩ := complete_ok hasked .success
          exact ⟨s', hs', hrep, hcompleted⟩

/-- One turn of the walk. The walk has left the op before the op is asked. -/
theorem notifyLoop_waiter (h : Represents root s (kept ++ op :: rest)) (fuel : Nat) :
    notifyLoop root done (fuel + 1) s op =
      if done op then
        Heap.complete { s with asked := s.asked ++ [op] } root op .success >>= fun s =>
          notifyLoop root done fuel s (rest.headD root)
      else notifyLoop root done fuel { s with asked := s.asked ++ [op] } (rest.headD root) := by
  have hop : op ∈ kept ++ op :: rest := by simp
  rw [notifyLoop, if_neg (h.ne_root hop), h.next_waiter]
  show (s.ask op >>= _) = _
  rw [ask_ok h hop]
  rfl

/-- **The walk of `notify_all`**, when it has kept some waiters and has not visited the rest. It
visits each of the rest once, completes those whose predicate returns true and keeps the others. -/
theorem notifyLoop_ok (h : Represents root s (kept ++ rest)) (hfuel : rest.length < fuel) :
    ∃ s', notifyLoop root done fuel s (rest.headD root) = .ok s' ∧
      Represents root s' (kept ++ rest.filter (! done ·)) ∧
      s'.memory.completed = s.memory.completed ++ (rest.filter done).map (·, .success) ∧
      s'.asked = s.asked ++ rest := by
  induction rest generalizing s kept fuel with
  | nil =>
      obtain ⟨fuel, rfl⟩ := Nat.exists_eq_add_of_lt hfuel
      exact ⟨s, by simp [notifyLoop], by simpa using h, by simp, by simp⟩
  | cons op rest ih =>
      cases fuel with
      | zero => simp at hfuel
      | succ fuel =>
          have hfuel' : rest.length < fuel := Nat.lt_of_succ_lt_succ hfuel
          have hasked : Represents root { s with asked := s.asked ++ [op] } (kept ++ op :: rest) :=
            ⟨h.ring, h.alive⟩
          rw [List.headD_cons, notifyLoop_waiter h]
          cases hdone : done op with
          | true =>
              obtain ⟨t, ht, hrep, hcompleted, htasked⟩ := complete_ok hasked .success
              obtain ⟨s', hs', hrep', hcompleted', hasked'⟩ := ih hrep hfuel'
              refine ⟨s', ?_, by simpa [hdone] using hrep', ?_, ?_⟩
              · rw [if_pos rfl, ht]
                exact hs'
              · rw [hcompleted', hcompleted]
                simp [hdone]
              · rw [hasked', htasked]
                simp
          | false =>
              have hkept : Represents root { s with asked := s.asked ++ [op] }
                  ((kept ++ [op]) ++ rest) := by
                simpa using hasked
              obtain ⟨s', hs', hrep', hcompleted', hasked'⟩ := ih hkept hfuel'
              refine ⟨s', by simpa using hs', by simpa [hdone] using hrep', ?_, ?_⟩
              · rw [hcompleted']
                simp [hdone]
              · rw [hasked']
                simp

/-- **`notify_all`** does to the heap what it does to the list, and asks every waiter once. -/
theorem notifyAll_ok {m : ConditionVariableImpl α} (h : Represents root s m.waiters)
    (done : α → Bool) (hfuel : m.waiters.length < fuel) :
    ∃ s', notifyAll root done fuel s = .ok s' ∧
      Represents root s' (m.notifyAll done).state.waiters ∧
      s'.memory.completed =
        s.memory.completed ++ (m.notifyAll done).completed.map (·, .success) ∧
      s'.asked = s.asked ++ m.waiters := by
  have hwalk : Represents root s ([] ++ m.waiters) := h
  rw [notifyAll, h.next_root, ConditionVariableImpl.notifyAll_eq h.nodup]
  exact notifyLoop_ok hwalk hfuel

/-! ## Shutdown -/

/-- The loop of `shutdown` destroys every op. -/
theorem shutdownLoop_ok {bn : α} (h : Represents bn s ops) (hfuel : ops.length < fuel) :
    ∃ s', shutdownLoop bn fuel s = .ok s' ∧ s'.alive = [] ∧
      s'.memory.completed = s.memory.completed ∧ s'.asked = s.asked ∧
      SameOff (bn :: ops) s.memory.links s'.memory.links := by
  induction ops generalizing s fuel with
  | nil =>
      obtain ⟨fuel, rfl⟩ := Nat.exists_eq_add_of_lt hfuel
      exact ⟨s, by simp [shutdownLoop, h.next_root], List.perm_nil.mp h.alive, rfl, rfl,
        SameOff.refl _⟩
  | cons op ops ih =>
      cases fuel with
      | zero => simp at hfuel
      | succ fuel =>
          have hfirst : Represents bn s ([] ++ op :: ops) := h
          have hop : op ∈ op :: ops := List.mem_cons_self
          obtain ⟨t, ht, hrep, hcompleted, hasked, hsame⟩ := drop_ok hfirst
          -- the op has already written what the loop writes
          have hwrite : t.memory.links.setNext bn (ops.headD bn) = t.memory.links := by
            have hnext : t.memory.links.next bn = ops.headD bn := hrep.next_root
            ext a
            · rw [setNext_next]
              split <;> simp_all
            · rfl
          obtain ⟨s', hs', halive, hcompleted', hasked', hsame'⟩ :=
            ih hrep (Nat.lt_of_succ_lt_succ hfuel)
          refine ⟨s', ?_, halive, hcompleted'.trans hcompleted, hasked'.trans hasked,
            hsame.trans (hsame'.mono ?_)⟩
          · rw [shutdownLoop, h.next_root, List.headD_cons, if_neg (h.ne_root hop),
              if_neg (not_not.mpr (h.alive.mem_iff.mpr hop)), hfirst.next_waiter, ht]
            show shutdownLoop bn fuel { t with memory :=
              { t.memory with links := t.memory.links.setNext bn (ops.headD bn) } } = _
            rw [hwrite]
            exact hs'
          · exact List.cons_subset_cons bn (List.subset_cons_self op ops)

/-- **`shutdown`** destroys all waiters and completes nobody. -/
theorem shutdown_ok {bn : α} (h : Represents root s ops) (hbn : bn ∉ root :: ops)
    (hfuel : ops.length < fuel) :
    ∃ s', shutdown root bn fuel s = .ok s' ∧ Represents root s' [] ∧
      s'.memory.completed = s.memory.completed ∧ s'.asked = s.asked := by
  obtain ⟨hmoved, hempty, -⟩ := BilistNode.moveConstruct_ring h.ring hbn
  obtain ⟨s', hs', halive, hcompleted, hasked, hsame⟩ :=
    shutdownLoop_ok (s := { s with memory :=
      { s.memory with links := BilistNode.moveConstruct s.memory.links bn root } })
      ⟨hmoved, h.alive⟩ hfuel
  refine ⟨s', hs', ⟨hempty.frame hsame ?_, by rw [halive]⟩, hcompleted, hasked⟩
  intro a ha hmem
  obtain rfl := List.mem_singleton.mp ha
  rcases List.mem_cons.mp hmem with rfl | hmem
  · exact hbn List.mem_cons_self
  · exact h.ne_root hmem rfl

/-! ## Runs -/

/-- The calls on a condition variable. `bn` is the address of the local list of `shutdown`. -/
inductive Label (α : Type u) where
  | asyncWait (op : α)
  | cancel (op : α)
  | notifyOne (done : α → Bool)
  | notifyAll (done : α → Bool)
  | shutdown (bn : α)

/-- One call. The loops have one turn more than there are ops. -/
def call (root : α) (s : Heap α) : Label α → Except Fault (Heap α)
  | .asyncWait op => addWaiter s root op
  | .cancel op => s.complete root op .operationAborted
  | .notifyOne done => notifyOne root done s
  | .notifyAll done => notifyAll root done (s.alive.length + 1) s
  | .shutdown bn => shutdown root bn (s.alive.length + 1) s

/-- A new op or list is no node that is in use, and only an op that is not destroyed is
cancelled. -/
def Allowed (root : α) (s : Heap α) : Label α → Prop
  | .asyncWait op => op ∉ root :: s.alive
  | .cancel op => op ∈ s.alive
  | .notifyOne _ => True
  | .notifyAll _ => True
  | .shutdown bn => bn ∉ root :: s.alive

instance (root : α) (s : Heap α) : DecidablePred (Allowed root s) := fun l => by
  cases l <;> unfold Allowed <;> infer_instance

/-- One step of a run, which ends at a fault. -/
def step (root : α) (s : Heap α) (l : Label α) : Option (Heap α) :=
  if Allowed root s l then (call root s l).toOption else none

/-- The heap holds some condition variable. -/
def WellFormed (root : α) (s : Heap α) : Prop := ∃ ops, Represents root s ops

/-- **No call faults** on a well-formed heap, and it leaves one. -/
theorem call_ok {l : Label α} (h : WellFormed root s) (hallowed : Allowed root s l) :
    ∃ s', call root s l = .ok s' ∧ WellFormed root s' := by
  obtain ⟨ops, h⟩ := h
  have hfuel : ops.length < s.alive.length + 1 := by
    rw [h.alive.length_eq]
    exact Nat.lt_succ_self _
  have hmem : ∀ n, n ∈ root :: s.alive ↔ n ∈ root :: ops := fun n => by
    rw [List.mem_cons, List.mem_cons, h.alive.mem_iff]
  cases l with
  | asyncWait op =>
      obtain ⟨s', hs', hrep, -⟩ := addWaiter_ok h ((hmem op).not.mp hallowed)
      exact ⟨s', hs', _, hrep⟩
  | cancel op =>
      obtain ⟨kept, rest, rfl⟩ := List.append_of_mem (h.alive.mem_iff.mp hallowed)
      obtain ⟨s', hs', hrep, -⟩ := complete_ok h .operationAborted
      exact ⟨s', hs', _, hrep⟩
  | notifyOne done =>
      obtain ⟨s', hs', hrep, -⟩ := notifyOne_ok (m := ⟨ops⟩) h done
      exact ⟨s', hs', _, hrep⟩
  | notifyAll done =>
      obtain ⟨s', hs', hrep, -⟩ := notifyAll_ok (m := ⟨ops⟩) h done hfuel
      exact ⟨s', hs', _, hrep⟩
  | shutdown bn =>
      obtain ⟨s', hs', hrep, -⟩ := shutdown_ok h ((hmem bn).not.mp hallowed) hfuel
      exact ⟨s', hs', _, hrep⟩

/-- The heap stays well-formed over a whole run. -/
theorem run_wellFormed {links : Links α} {ls : List (Label α)}
    (hrun : Transition.run (step root) (Heap.init links root) ls = some s) : WellFormed root s := by
  refine Transition.run_invariant (I := WellFormed root) ?_ ⟨[], represents_init links root⟩ hrun
  intro s l t h hstep
  obtain ⟨hallowed, hcall⟩ := Option.ite_none_right_eq_some.mp hstep
  obtain ⟨s', hs', hwell⟩ := call_ok h hallowed
  rw [hs'] at hcall
  exact Option.some.inj hcall ▸ hwell

end Sam.ConditionVariable
