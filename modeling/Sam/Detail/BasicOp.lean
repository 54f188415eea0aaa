import Sam.Detail.BilistNode
import Sam.Detail.CriticalSection

/-!
# Queued ops in memory

`Memory` holds what the queues of the library share: the pointers of all nodes, the service pointer
of every member and the ops that were completed. `complete` is the part of an op's `complete` that
the lists see, in `detail/impl/basic_op_model.hpp`, `detail/impl/predicate_op_model.hpp` and the
blocking ops alike; `completeAll` is the loop of `basic_bilist_holder` and `predicate_bilist_holder`
in `detail/basic_op.hpp` and `detail/predicate_op.hpp`.
-/

namespace Sam

open Links

universe u

/-- The pointers of all nodes, the service that each member points at (a null pointer is `none`; a
service is its `entries` node) and the calls of `complete` so far, in order. -/
structure Memory (α : Type u) where
  links : Links α
  service : α → Option α
  completed : List (α × ErrorCode)

namespace Memory

variable {α : Type u} [DecidableEq α]

/-- `complete` of an op: it unlinks itself and its handler is posted, or its thread woken. -/
def complete (m : Memory α) (op : α) (ec : ErrorCode) : Memory α :=
  { m with links := BilistNode.unlink m.links op, completed := m.completed ++ [(op, ec)] }

/-- `complete_all`: completes the first op of the list until there is none. It gives up when `fuel`
runs out. -/
def completeAll (root : α) (ec : ErrorCode) : Nat → Memory α → Option (Memory α)
  | 0, _ => none
  | fuel + 1, m =>
      if m.links.next root = root then some m
      else completeAll root ec fuel (m.complete (m.links.next root) ec)

/-- The destructor of a list holder: what is left in the list is aborted. -/
def destroyHolder (root : α) (fuel : Nat) (m : Memory α) : Option (Memory α) :=
  completeAll root .operationAborted fuel m

/-- The list on `root` holds these ops. -/
def Holds (m : Memory α) (root : α) (ops : List α) : Prop := IsRing m.links root ops

instance (m : Memory α) (root : α) (ops : List α) : Decidable (m.Holds root ops) :=
  inferInstanceAs (Decidable (IsRing ..))

variable {m : Memory α} {root op : α} {ops : List α}

/-- Completing the first op takes it out of the list. -/
theorem complete_first (h : m.Holds root (op :: ops)) (ec : ErrorCode) :
    (m.complete op ec).Holds root ops ∧
      SameOff (root :: op :: ops) m.links (m.complete op ec).links := by
  have herase := BilistNode.unlink_ring h (List.mem_cons_self ..)
  rwa [List.erase_cons_head] at herase

/-- **`complete_all` completes every op**, first to last, and touches no other list. -/
theorem completeAll_holds (h : m.Holds root ops) (ec : ErrorCode) {fuel : Nat}
    (hfuel : ops.length < fuel) :
    ∃ links, completeAll root ec fuel m =
        some { m with links, completed := m.completed ++ ops.map (·, ec) } ∧
      IsRing links root [] ∧ SameOff (root :: ops) m.links links := by
  induction ops generalizing m fuel with
  | nil =>
      cases fuel with
      | zero => simp at hfuel
      | succ fuel =>
          have hempty := (IsRing.next_root_eq_iff h).mpr rfl
          exact ⟨m.links, by simp [completeAll, hempty], h, SameOff.refl _⟩
  | cons op ops ih =>
      cases fuel with
      | zero => simp at hfuel
      | succ fuel =>
          have hfirst : m.links.next root = op := IsRing.next_root h
          have hne : op ≠ root := fun he => IsRing.root_not_mem h (he ▸ List.mem_cons_self ..)
          obtain ⟨hrest, hsame⟩ := complete_first h ec
          obtain ⟨links, hrun, hring, hsame'⟩ := ih hrest (by simpa using hfuel)
          refine ⟨links, ?_, hring, hsame.trans (hsame'.mono ?_)⟩
          · rw [completeAll, hfirst, if_neg hne, hrun]
            simp [complete]
          · exact List.cons_subset_cons root (List.subset_cons_self op ops)

/-- The op that `complete_all` completes last is left with pointers to the root. -/
theorem completeAll_last {m' : Memory α} {ec : ErrorCode} {fuel : Nat}
    (h : m.Holds root (ops ++ [op])) (hrun : completeAll root ec fuel m = some m') :
    m'.links.next op = root ∧ m'.links.prev op = root := by
  induction ops generalizing m fuel with
  | nil =>
      have hfirst : m.links.next root = op := IsRing.next_root h
      have hne : op ≠ root := fun he => IsRing.root_not_mem h (he ▸ List.mem_cons_self ..)
      have hprev : m.links.prev op = root := IsRing.prev_first h
      have hnext : m.links.next op = root := IsRing.next_last h
      have hempty : (m.complete op ec).links.next root = root :=
        (IsRing.next_root_eq_iff (complete_first h ec).1).mpr rfl
      match fuel with
      | 0 => cases hrun
      | 1 =>
          rw [completeAll, hfirst, if_neg hne] at hrun
          cases hrun
      | fuel + 2 =>
          rw [completeAll, hfirst, if_neg hne, completeAll, if_pos hempty] at hrun
          obtain rfl := Option.some.inj hrun
          simp [complete, BilistNode.unlink_eq, hprev, hnext, hne]
  | cons first ops ih =>
      cases fuel with
      | zero => cases hrun
      | succ fuel =>
          have hfirst : m.links.next root = first := IsRing.next_root h
          have hne : first ≠ root := fun he => IsRing.root_not_mem h (he ▸ List.mem_cons_self ..)
          rw [completeAll, hfirst, if_neg hne] at hrun
          exact ih (complete_first h ec).1 hrun

/-! ## In a family of lists -/

variable {rest : List (α × List α)}

/-- The first op is completed. -/
theorem complete_rings (h : Rings m.links ((root, op :: ops) :: rest)) (ec : ErrorCode) :
    Rings (m.complete op ec).links ((root, ops) :: rest) := by
  have herase := BilistNode.unlink_rings h (List.mem_cons_self ..)
  rwa [List.erase_cons_head] at herase

/-- All ops are completed. -/
theorem completeAll_rings (h : Rings m.links ((root, ops) :: rest)) (ec : ErrorCode) {fuel : Nat}
    (hfuel : ops.length < fuel) :
    ∃ links, m.completeAll root ec fuel =
        some { m with links, completed := m.completed ++ ops.map (·, ec) } ∧
      Rings links ((root, []) :: rest) := by
  obtain ⟨hroot, -, hdisj⟩ := Rings.cons_iff.mp h
  obtain ⟨links, hrun, hring, hsame⟩ := completeAll_holds hroot ec hfuel
  exact ⟨links, hrun, h.edit hring hsame hdisj
    fun c hc => hdisj c (List.mem_singleton.mp hc ▸ List.mem_cons_self ..)⟩

end Memory

end Sam
