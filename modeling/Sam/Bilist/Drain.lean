import Mathlib.Data.Finset.Basic
import Mathlib.Data.Finset.SDiff
import Sam.Detail.BasicOp
import Sam.Service.Shutdown

/-!
# Draining a list of ops

The loops of `basic_bilist_holder` and `predicate_bilist_holder` in `detail/basic_op.hpp` and
`detail/predicate_op.hpp`, over a heap on which every op destroys itself when it is completed or
shut down. The loop variable is a reference to the `next_` of the root, which the op rewrites when
it unlinks itself. `call_first` is one turn; `drain_ok` and `shutdownLoop_ok` are the loops. -/

namespace Sam

open Links Service

universe u

/-- What is called on an op. -/
inductive OpCall where
  | complete (ec : ErrorCode)
  | shutdown
  deriving DecidableEq, Repr

/-- The pointers of all nodes, the nodes that are not destroyed, and the calls made on ops so far,
in order. -/
structure OpHeap (α : Type u) where
  links : Links α
  live : Finset α
  calls : List (α × OpCall)

section Model

variable {α : Type u} [DecidableEq α]

/-- `complete` or `shutdown` of an op: it unlinks itself, which reads its pointers and writes those
of its neighbours, and destroys itself. -/
def OpHeap.call (s : OpHeap α) (op : α) (c : OpCall) : Except Fault (OpHeap α) :=
  if ∀ n ∈ [op, s.links.prev op, s.links.next op], n ∈ s.live then
    .ok ⟨BilistNode.unlink s.links op, s.live.erase op, s.calls ++ [(op, c)]⟩
  else .error .destroyed

/-- The loop that completes the first op until there is none; `nx` is a reference to the `next_` of
the root. -/
def OpHeap.drain (root : α) (ec : ErrorCode) : Nat → OpHeap α → Except Fault (OpHeap α)
  | 0, _ => .error .fuel
  | fuel + 1, s =>
      if root ∉ s.live then .error .destroyed
      else
        let nx := s.links.next root
        if nx = root then .ok s
        -- the op unlinks itself, which writes `nx`
        else s.call nx (.complete ec) >>= OpHeap.drain root ec fuel

/-- The loop of `shutdown` over the local list `bn`; `nx` is a reference to `bn.next_`. -/
def OpHeap.shutdownLoop (bn : α) : Nat → OpHeap α → Except Fault (OpHeap α)
  | 0, _ => .error .fuel
  | fuel + 1, s =>
      if bn ∉ s.live then .error .destroyed
      else
        let nx := s.links.next bn
        if nx = bn then .ok s
        else if nx ∉ s.live then .error .destroyed
        else
          -- read before the op is destroyed
          let nx2 := s.links.next nx
          s.call nx .shutdown >>= fun s =>
            OpHeap.shutdownLoop bn fuel { s with links := s.links.setNext bn nx2 }

/-- `shutdown`: the ops are moved to the new local list `bn` and shut down there. The heap is that
before `bn` goes out of scope. -/
def OpHeap.shutdown (root bn : α) (fuel : Nat) (s : OpHeap α) : Except Fault (OpHeap α) :=
  if ∀ n ∈ [root, s.links.next root, s.links.prev root], n ∈ s.live then
    OpHeap.shutdownLoop bn fuel
      { s with links := BilistNode.moveConstruct s.links bn root, live := insert bn s.live }
  else .error .destroyed

namespace BasicBilistHolder

/-- `complete_all`. -/
def completeAll (root : α) (ec : ErrorCode) : Nat → OpHeap α → Except Fault (OpHeap α) :=
  OpHeap.drain root ec

/-- The destructor. -/
def destroy (root : α) : Nat → OpHeap α → Except Fault (OpHeap α) :=
  OpHeap.drain root .operationAborted

/-- `shutdown`. -/
def shutdown (root bn : α) : Nat → OpHeap α → Except Fault (OpHeap α) := OpHeap.shutdown root bn

end BasicBilistHolder

namespace PredicateBilistHolder

/-- The destructor. -/
def destroy (root : α) : Nat → OpHeap α → Except Fault (OpHeap α) :=
  OpHeap.drain root .operationAborted

/-- `shutdown`. -/
def shutdown (root bn : α) : Nat → OpHeap α → Except Fault (OpHeap α) := OpHeap.shutdown root bn

end PredicateBilistHolder

end Model

namespace OpHeap

variable {α : Type u} [DecidableEq α] {s s' t : OpHeap α} {root bn op : α} {ops : List α}
  {c : OpCall} {ec : ErrorCode} {fuel : Nat}

/-- The ring on `root` holds these ops, and none of its nodes is destroyed. -/
structure Holds (s : OpHeap α) (root : α) (ops : List α) : Prop where
  ring : IsRing s.links root ops
  live : ∀ n ∈ root :: ops, n ∈ s.live

/-- From `s` to `s'` each of the ops was called once, in this order, and is destroyed; nothing hangs
on the root, and the pointers of all other nodes are what they were. -/
structure Drained (root : α) (ops : List α) (c : OpCall) (s s' : OpHeap α) : Prop where
  empty : IsRing s'.links root []
  calls : s'.calls = s.calls ++ ops.map (·, c)
  live : s'.live = s.live \ ops.toFinset
  same : SameOff (root :: ops) s.links s'.links

/-! ## One turn -/

omit [DecidableEq α] in
/-- The node after the root is the first op or the root. -/
theorem Holds.next_root (h : s.Holds root ops) : s.links.next root = ops.headD root := by
  cases ops with
  | nil => exact (IsRing.nil_iff.mp h.ring).1
  | cons op ops => exact h.ring.next_root

omit [DecidableEq α] in
/-- The pointers of a node of the ring lead to nodes that are not destroyed. -/
theorem Holds.live_of_points (h : s.Holds root ops) {a b : α} (ha : a ∈ root :: ops)
    (hab : s.links.Points a b) : b ∈ s.live :=
  h.live b (h.ring.mem_of_points ha hab)

/-- **One turn.** The first op leaves the ring and is destroyed. What it writes to the `next_` of
the root is the node that came after it. -/
theorem call_first (h : s.Holds root (op :: ops)) (c : OpCall) :
    ∃ t, s.call op c = .ok t ∧ t.Holds root ops ∧ t.links.next root = s.links.next op ∧
      t.calls = s.calls ++ [(op, c)] ∧ t.live = s.live.erase op ∧
      SameOff (root :: op :: ops) s.links t.links := by
  have hop : op ∈ root :: op :: ops := by simp
  have hlive : ∀ n ∈ [op, s.links.prev op, s.links.next op], n ∈ s.live := by
    intro n hn
    simp only [List.mem_cons, List.not_mem_nil, or_false] at hn
    rcases hn with rfl | rfl | rfl
    · exact h.live _ hop
    · exact h.live_of_points hop (Or.inr rfl)
    · exact h.live_of_points hop (Or.inl rfl)
  obtain ⟨hring, hsame⟩ := BilistNode.unlink_ring h.ring (List.mem_cons_self ..)
  rw [List.erase_cons_head] at hring
  have hprev : s.links.prev op = root := h.ring.prev_first
  have hout : op ∉ root :: ops := by
    have hnodup := h.ring.nodup
    grind
  refine ⟨_, if_pos hlive, ⟨hring, fun n hn => ?_⟩, ?_, rfl, rfl, hsame⟩
  · have hmem : n ∈ root :: op :: ops := by grind
    exact Finset.mem_erase.mpr ⟨ne_of_mem_of_not_mem hn hout, h.live n hmem⟩
  · rw [BilistNode.unlink_eq, link_next, if_pos hprev.symm]

/-- An op that was called, and then the others. -/
theorem Drained.cons (hcalls : t.calls = s.calls ++ [(op, c)]) (hlive : t.live = s.live.erase op)
    (hsame : SameOff (root :: op :: ops) s.links t.links) (h : Drained root ops c t s') :
    Drained root (op :: ops) c s s' := by
  refine ⟨h.empty, ?_, ?_, hsame.trans (h.same.mono ?_)⟩
  · rw [h.calls, hcalls]
    simp
  · rw [h.live, hlive]
    ext n
    simp only [Finset.mem_sdiff, Finset.mem_erase, List.mem_toFinset, List.mem_cons]
    tauto
  · exact List.cons_subset_cons root (List.subset_cons_self op ops)

/-- Nothing is called when there is no op. -/
theorem Drained.nil (h : s.Holds root []) : Drained root [] c s s :=
  ⟨h.ring, by simp, by simp, SameOff.refl _⟩

/-! ## The loops -/

/-- **The loop of `complete_all`** and of the destructors ends, and completes each op once. -/
theorem drain_ok (h : s.Holds root ops) (hfuel : ops.length < fuel) :
    ∃ s', drain root ec fuel s = .ok s' ∧ Drained root ops (.complete ec) s s' := by
  -- a turn takes the first op out of the ring, so the induction is on the ops
  induction ops generalizing s fuel with
  | nil =>
      obtain ⟨fuel, rfl⟩ := Nat.exists_eq_add_of_lt hfuel
      have hroot : root ∈ s.live := h.live root List.mem_cons_self
      exact ⟨s, by simp [drain, hroot, h.next_root], .nil h⟩
  | cons op ops ih =>
      cases fuel with
      | zero => simp at hfuel
      | succ fuel =>
          have hroot : root ∈ s.live := h.live root List.mem_cons_self
          have hne : op ≠ root := fun he => h.ring.root_not_mem (he ▸ List.mem_cons_self ..)
          obtain ⟨t, hcall, hrest, -, hcalls, hlive, hsame⟩ := call_first h (.complete ec)
          obtain ⟨s', hdrain, hdrained⟩ := ih hrest (Nat.lt_of_succ_lt_succ hfuel)
          refine ⟨s', ?_, hdrained.cons hcalls hlive hsame⟩
          rw [drain, if_neg (not_not.mpr hroot), h.next_root, List.headD_cons, if_neg hne, hcall]
          exact hdrain

/-- **The loop of `shutdown`** ends, and shuts each op down once. The pointer saved before the op
was destroyed is the one that the op left in the root. -/
theorem shutdownLoop_ok (h : s.Holds bn ops) (hfuel : ops.length < fuel) :
    ∃ s', shutdownLoop bn fuel s = .ok s' ∧ Drained bn ops .shutdown s s' := by
  induction ops generalizing s fuel with
  | nil =>
      obtain ⟨fuel, rfl⟩ := Nat.exists_eq_add_of_lt hfuel
      have hroot : bn ∈ s.live := h.live bn List.mem_cons_self
      exact ⟨s, by simp [shutdownLoop, hroot, h.next_root], .nil h⟩
  | cons op ops ih =>
      cases fuel with
      | zero => simp at hfuel
      | succ fuel =>
          have hroot : bn ∈ s.live := h.live bn List.mem_cons_self
          have hop : op ∈ s.live := h.live op (by simp)
          have hne : op ≠ bn := fun he => h.ring.root_not_mem (he ▸ List.mem_cons_self ..)
          obtain ⟨t, hcall, hrest, hnext, hcalls, hlive, hsame⟩ := call_first h .shutdown
          have hwrite : t.links.setNext bn (s.links.next op) = t.links := by
            rw [← hnext]
            exact Links.ext (Function.update_eq_self ..) rfl
          obtain ⟨s', hloop, hdrained⟩ := ih hrest (Nat.lt_of_succ_lt_succ hfuel)
          refine ⟨s', ?_, hdrained.cons hcalls hlive hsame⟩
          rw [shutdownLoop, if_neg (not_not.mpr hroot), h.next_root, List.headD_cons, if_neg hne,
            if_neg (not_not.mpr hop), hcall]
          show shutdownLoop bn fuel { t with links := t.links.setNext bn (s.links.next op) } = _
          rw [hwrite]
          exact hloop

/-- **`shutdown`** shuts each op down once and leaves both lists empty. -/
theorem shutdown_ok (h : s.Holds root ops) (hbn : bn ∉ root :: ops) (hfuel : ops.length < fuel) :
    ∃ s', shutdown root bn fuel s = .ok s' ∧ IsRing s'.links root [] ∧ IsRing s'.links bn [] ∧
      s'.calls = s.calls ++ ops.map (·, .shutdown) ∧
      s'.live = insert bn s.live \ ops.toFinset ∧
      SameOff (bn :: root :: ops) s.links s'.links := by
  have hlive : ∀ n ∈ [root, s.links.next root, s.links.prev root], n ∈ s.live := by
    intro n hn
    simp only [List.mem_cons, List.not_mem_nil, or_false] at hn
    rcases hn with rfl | rfl | rfl
    · exact h.live _ List.mem_cons_self
    · exact h.live_of_points List.mem_cons_self (Or.inl rfl)
    · exact h.live_of_points List.mem_cons_self (Or.inr rfl)
  obtain ⟨hmoved, hempty, hsame⟩ := BilistNode.moveConstruct_ring h.ring hbn
  have hholds : Holds ⟨BilistNode.moveConstruct s.links bn root, insert bn s.live, s.calls⟩
      bn ops := by
    refine ⟨hmoved, fun n hn => ?_⟩
    rcases List.mem_cons.mp hn with rfl | hn
    · exact Finset.mem_insert_self ..
    · exact Finset.mem_insert_of_mem (h.live n (List.mem_cons_of_mem root hn))
  obtain ⟨s', hloop, hdrained⟩ := shutdownLoop_ok hholds hfuel
  refine ⟨s', by rw [shutdown, if_pos hlive, hloop], ?_, hdrained.empty, hdrained.calls,
    hdrained.live, hsame.trans (hdrained.same.mono ?_)⟩
  · refine hempty.frame hdrained.same fun a ha hmem => ?_
    obtain rfl : a = root := List.mem_singleton.mp ha
    rcases List.mem_cons.mp hmem with rfl | hmem
    · exact hbn List.mem_cons_self
    · exact h.ring.root_not_mem hmem
  · exact List.cons_subset_cons bn (List.subset_cons_self root ops)

/-- **The drain loops visit every op once.** On any list, `complete_all`, both destructors and both
`shutdown()` end without touching a destroyed op, call each op once in queue order, and leave the
root, and the local root of `shutdown`, without ops. -/
theorem drains_once (h : s.Holds root ops) (hfuel : ops.length < fuel) :
    (∀ ec, ∃ s', BasicBilistHolder.completeAll root ec fuel s = .ok s' ∧
        Drained root ops (.complete ec) s s') ∧
      (∃ s', BasicBilistHolder.destroy root fuel s = .ok s' ∧
        Drained root ops (.complete .operationAborted) s s') ∧
      (∃ s', PredicateBilistHolder.destroy root fuel s = .ok s' ∧
        Drained root ops (.complete .operationAborted) s s') ∧
      ∀ bn ∉ root :: ops, ∀ shutdown ∈ [BasicBilistHolder.shutdown root bn,
          PredicateBilistHolder.shutdown root bn],
        ∃ s', shutdown fuel s = .ok s' ∧ IsRing s'.links root [] ∧ IsRing s'.links bn [] ∧
          s'.calls = s.calls ++ ops.map (·, .shutdown) ∧
          s'.live = insert bn s.live \ ops.toFinset ∧
          SameOff (bn :: root :: ops) s.links s'.links := by
  refine ⟨fun ec => drain_ok h hfuel, drain_ok h hfuel, drain_ok h hfuel, fun bn hbn f hf => ?_⟩
  simp only [List.mem_cons, List.not_mem_nil, or_false] at hf
  rcases hf with rfl | rfl <;> exact shutdown_ok h hbn hfuel

/-- Three ops on the root `0`. -/
theorem drains_once_three :
    ∃ s s' : OpHeap Nat, s.Holds 0 [1, 2, 3] ∧ BasicBilistHolder.shutdown 0 9 4 s = .ok s' ∧
      s'.calls = [(1, .shutdown), (2, .shutdown), (3, .shutdown)] := by
  let links := [1, 2, 3].foldl (fun m op => BilistNode.linkBefore m op 0) ⟨id, id⟩
  have hholds : Holds ⟨links, {0, 1, 2, 3}, []⟩ 0 [1, 2, 3] := ⟨by decide, by decide⟩
  have hfuel : [1, 2, 3].length < 4 := by decide
  obtain ⟨-, -, -, hshutdown⟩ := drains_once hholds hfuel
  obtain ⟨s', hs', -, -, hcalls, -⟩ := hshutdown 9 (by decide) _ List.mem_cons_self
  exact ⟨_, s', hholds, hs', hcalls⟩

end OpHeap

end Sam
