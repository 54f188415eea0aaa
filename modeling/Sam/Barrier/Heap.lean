import Sam.Library.Fuel
import Sam.Library.Transition
import Sam.Linked.Counting
import Sam.Service.Shutdown

/-!
# Barriers on the heap

Any number of barriers, the ops that wait in them and the local lists of their `shutdown`, over
nodes that are constructed and destroyed: `detail/barrier_impl.hpp`, `detail/impl/barrier_impl.ipp`
and `impl/basic_barrier.hpp`. The op of a blocking `arrive` is on the stack of its thread and
outlives its completion; an op that was made of a handler destroys itself. Reading or writing a link
of a destroyed node is a fault. `Inv` says which rings hang in such a heap, `completeAll_ends` what
`complete_all` does to one of them and `completeAll_last` where the op that it completes last points
afterwards. -/

namespace Sam.Barrier

open Links Service Transition

universe u

/-- What stands at a node. `barrier`: the `waiters_` of a barrier, with `mtx_.enabled()`, `init_`
and `counter_`. `holder`: a local list of `shutdown`. `blocking`: an `arrive_op_t`, with its `done`.
`async`: the `basic_op_model` of a handler. -/
inductive Node where
  | barrier (enabled : Bool) (init counter : Int)
  | holder
  | blocking (done : Bool)
  | async
  deriving DecidableEq, Repr

/-- The node is the `waiters_` of a barrier. -/
def Node.isBarrier : Node → Bool
  | barrier .. => true
  | _ => false

/-- A list hangs on the node. -/
def Node.isRoot : Node → Bool
  | barrier .. | holder => true
  | _ => false

/-- The node is an op that was neither completed nor shut down. -/
def Node.waits : Node → Bool
  | blocking done => !done
  | async => true
  | _ => false

/-- The node is the op of a blocking `arrive`. -/
def Node.blocks : Node → Bool
  | blocking _ => true
  | _ => false

/-- What `complete` and `shutdown` of an op leave at its node. -/
def Node.left : Node → Option Node
  | blocking _ => some (blocking true)
  | _ => none

/-- An op is no root. -/
theorem Node.isRoot_of_waits {k : Node} (h : k.waits = true) : k.isRoot = false := by
  cases k with
  | blocking | async => rfl
  | barrier | holder => cases h

/-- A root is no op. -/
theorem Node.waits_of_isRoot {k : Node} (h : k.isRoot = true) : k.waits = false := by
  cases k with
  | barrier | holder => rfl
  | blocking | async => cases h

/-- An op that has left its list neither waits nor is a root. -/
theorem Node.left_eq (k : Node) :
    k.left.any Node.isRoot = false ∧ k.left.any Node.waits = false := by
  cases k <;> exact ⟨rfl, rfl⟩

/-- The nodes that are constructed and not destroyed, the pointers of all nodes, the `error_code`
variables of the callers of `arrive`, by the node of the op, the calls of `complete` so far, in
order, and the calls of `async_arrive` that are between their two sections. -/
structure Heap (α : Type u) where
  node : α → Option Node
  links : Links α
  ec : α → ErrorCode
  completed : List (α × ErrorCode)
  between : List (α × α)

namespace Heap

section Model

variable {α : Type u}

/-- Nothing is constructed; what the pointers and the variables hold is of no account. -/
def empty (links : Links α) (ec : α → ErrorCode) : Heap α := ⟨fun _ => none, links, ec, [], []⟩

/-- These nodes are constructed and not destroyed. -/
def Alive (s : Heap α) (nodes : List α) : Prop := ∀ n ∈ nodes, (s.node n).isSome = true

instance (s : Heap α) (nodes : List α) : Decidable (s.Alive nodes) :=
  inferInstanceAs (Decidable (∀ n ∈ nodes, _))

/-- A barrier stands at the node. -/
def IsBarrier (s : Heap α) (n : α) : Prop := (s.node n).any Node.isBarrier = true

/-- A list hangs on the node. -/
def IsRoot (s : Heap α) (n : α) : Prop := (s.node n).any Node.isRoot = true

/-- An op that waits stands at the node. -/
def Waiting (s : Heap α) (n : α) : Prop := (s.node n).any Node.waits = true

instance (s : Heap α) : DecidablePred s.IsBarrier := fun _ =>
  inferInstanceAs (Decidable (_ = true))

instance (s : Heap α) : DecidablePred s.IsRoot := fun _ => inferInstanceAs (Decidable (_ = true))

instance (s : Heap α) : DecidablePred s.Waiting := fun _ => inferInstanceAs (Decidable (_ = true))

variable [DecidableEq α]

/-- Write what stands at a node. -/
def assign (s : Heap α) (this : α) (n : Option Node) : Heap α :=
  { s with node := Function.update s.node this n }

/-- A new node. -/
def construct (s : Heap α) (this : α) (n : Node) : Heap α :=
  { s.assign this (some n) with links := BilistNode.construct s.links this }

/-- `unlink`. -/
def unlink (s : Heap α) (this : α) : Except Fault (Heap α) :=
  if s.Alive [this, s.links.prev this, s.links.next this] then
    .ok { s with links := BilistNode.unlink s.links this }
  else .error .destroyed

/-- `add_waiter`. -/
def addWaiter (s : Heap α) (root waiter : α) : Except Fault (Heap α) :=
  if s.Alive [waiter, root, s.links.prev root] then
    .ok { s with links := BilistNode.linkBefore s.links waiter root }
  else .error .destroyed

/-- What `complete` and `shutdown` of an op have in common. -/
def leave (s : Heap α) (op : α) (ec : ErrorCode) : Except Fault (Heap α) :=
  match s.node op with
  | some (.blocking _) =>
      -- the waiting thread is notified; its op stays where it is
      { s.assign op (some (.blocking true)) with ec := Function.update s.ec op ec }.unlink op
  | some .async => (s.unlink op).map (·.assign op none)
  | _ => .error .destroyed

/-- `complete`. -/
def complete (s : Heap α) (op : α) (ec : ErrorCode) : Except Fault (Heap α) :=
  (s.leave op ec).map fun s => { s with completed := s.completed ++ [(op, ec)] }

/-- The loop of `complete_all` and of the destructor of a list; `nx` is a reference to the `next_`
of the root. -/
def completeAll (root : α) (ec : ErrorCode) : Nat → Heap α → Except Fault (Heap α)
  | 0, _ => .error .fuel
  | fuel + 1, s =>
      if ¬ s.Alive [root] then .error .destroyed
      else
        let nx := s.links.next root
        if nx = root then .ok s else s.complete nx ec >>= completeAll root ec fuel

/-- The move constructor of a list. -/
def moveList (s : Heap α) (this lhs : α) (n : Option Node) : Except Fault (Heap α) :=
  if s.Alive [lhs, s.links.next lhs, s.links.prev lhs] then
    .ok { s.assign this n with links := BilistNode.moveConstruct s.links this lhs }
  else .error .destroyed

/-- The move assignment of a barrier. -/
def moveAssign (s : Heap α) (this lhs : α) : Except Fault (Heap α) :=
  match s.node this, s.node lhs with
  | some (.barrier enabled _ _), some (.barrier _ init counter) =>
      if s.Alive [this, s.links.prev this, s.links.next this] then
        .ok { s.assign this (some (.barrier enabled init counter)) with
          links := BilistNode.moveAssign s.links this lhs }
      else .error .destroyed
  | _, _ => .error .destroyed

/-- The end of a phase: `waiters_.complete_all({})` and `counter_ = init_`. -/
def endPhase (root : α) (enabled : Bool) (init : Int) (s : Heap α) (fuel : Nat) :
    Except Fault (Heap α) :=
  (s.completeAll root .success fuel).map (·.assign root (some (.barrier enabled init init)))

/-- `try_arrive`. -/
def tryArrive (s : Heap α) (root : α) (fuel : Nat) : Except Fault (Bool × Heap α) :=
  match s.node root with
  | some (.barrier enabled init counter) =>
      let s := s.assign root (some (.barrier enabled init (counter - 1)))
      if counter - 1 = 0 then (s.endPhase root enabled init fuel).map fun s => (true, s)
      else .ok (false, s.assign root (some (.barrier enabled init (counter - 1 + 1))))
  | _ => .error .destroyed

/-- `arrive` in multi-threaded mode up to the test of `counter_`. -/
def queueOp (s : Heap α) (root op : α) (init counter : Int) : Except Fault (Heap α) :=
  ((s.construct op (.blocking false)).addWaiter root op).map
    (·.assign root (some (.barrier true init (counter - 1))))

/-- A blocking call is made with an `error_code` that holds `entry`. -/
def enter (s : Heap α) (op : α) (entry : ErrorCode) : Heap α :=
  { s with ec := Function.update s.ec op entry }

/-- `arrive`, called with a variable that holds `entry`. The last arrival in multi-threaded mode
returns, which takes its op off the stack; an earlier one waits. -/
def arrive (s : Heap α) (root op : α) (entry : ErrorCode) (fuel : Nat) : Except Fault (Heap α) :=
  let s := s.enter op entry
  match s.node root with
  | some (.barrier false _ _) =>
      (s.tryArrive root fuel).map fun r =>
        if r.1 then r.2 else { r.2 with ec := Function.update r.2.ec op .inProgress }
  | some (.barrier true init counter) =>
      s.queueOp root op init counter >>= fun s =>
        if counter - 1 = 0 then
          s.endPhase root true init fuel >>= fun s =>
            -- `complete` has unlinked the op already
            (s.unlink op).map (·.assign op none)
        else .ok s
  | _ => .error .destroyed

/-- The first section of `async_arrive_op`. -/
def asyncTry (s : Heap α) (root op : α) (fuel : Nat) : Except Fault (Heap α) :=
  (s.tryArrive root fuel).map fun r =>
    if r.1 then r.2 else { r.2 with between := r.2.between ++ [(root, op)] }

/-- The second section of `async_arrive_op`. -/
def asyncQueue (s : Heap α) (root op : α) : Except Fault (Heap α) :=
  match s.node root with
  | some (.barrier enabled init counter) =>
      let s := s.assign root (some (.barrier enabled init (counter - 1)))
      ((s.construct op .async).addWaiter root op).map fun s =>
        { s with between := s.between.erase (root, op) }
  | _ => .error .destroyed

/-- One turn of the loop of `shutdown` over the local list `bn`, which goes out of scope when it is
empty. -/
def shutdownTurn (s : Heap α) (bn : α) : Except Fault (Heap α) :=
  let nx := s.links.next bn
  if nx = bn then .ok (s.assign bn none)
  else if ¬ s.Alive [nx] then .error .destroyed
  else
    -- read before the op leaves
    let nx2 := s.links.next nx
    (s.leave nx .shutDown).map fun s => { s with links := s.links.setNext bn nx2 }

end Model

variable {α : Type u} {s t : Heap α} {root op n : α} {ops : List α} {rings : List (α × List α)}
  {rest : List (α × List α)} {scope : Set α} {ec : ErrorCode} {fuel : Nat}

/-- The rings that hang in a part of the heap: one on every root in `scope`, and their members are
the ops there that wait. Nothing is said of the other nodes. -/
structure Inv (s : Heap α) (scope : Set α) (rings : List (α × List α)) : Prop where
  linked : Rings s.links rings
  within : ∀ n ∈ nodes rings, n ∈ scope
  roots : ∀ n ∈ scope, s.IsRoot n ↔ n ∈ rings.map Prod.fst
  waiting : ∀ n ∈ scope, s.Waiting n ↔ n ∈ rings.flatMap Prod.snd

/-- The barrier at a node. -/
theorem IsBarrier.exists_node (h : s.IsBarrier n) :
    ∃ enabled init counter, s.node n = some (.barrier enabled init counter) := by
  unfold IsBarrier at h
  cases hnode : s.node n with
  | none => simp [hnode] at h
  | some k =>
      cases k with
      | barrier enabled init counter => exact ⟨enabled, init, counter, rfl⟩
      | _ => simp [hnode, Node.isBarrier] at h

namespace Inv

/-- Only the pointers were written, and the same rings hang there. -/
theorem relink (h : Inv s scope rings) (hnode : t.node = s.node) (hlinked : Rings t.links rings) :
    Inv t scope rings where
  linked := hlinked
  within := h.within
  roots n := by rw [IsRoot, hnode]; exact h.roots n
  waiting n := by rw [Waiting, hnode]; exact h.waiting n

/-- What the variables and the logs hold does not matter. -/
theorem same (h : Inv s scope rings) (hnode : t.node = s.node) (hlinks : t.links = s.links) :
    Inv t scope rings :=
  h.relink hnode (hlinks ▸ h.linked)

/-- The order of the rings does not matter. -/
theorem perm {rings' : List (α × List α)} (h : Inv s scope rings) (hperm : rings.Perm rings') :
    Inv s scope rings' where
  linked := h.linked.perm hperm
  within n hn := h.within n ((mem_nodes_perm hperm).mpr hn)
  roots n hn := (h.roots n hn).trans (hperm.map _).mem_iff
  waiting n hn := (h.waiting n hn).trans (hperm.flatMap_right _).mem_iff

/-- The ring on a root first. -/
theorem of_root (h : Inv s scope rings) (hin : root ∈ scope) (hroot : s.IsRoot root) :
    ∃ ops rest, Inv s scope ((root, ops) :: rest) := by
  obtain ⟨⟨r, ops⟩, hmem, rfl⟩ := List.mem_map.mp ((h.roots root hin).mp hroot)
  obtain ⟨before, after, rfl⟩ := List.append_of_mem hmem
  exact ⟨ops, before ++ after, h.perm List.perm_middle⟩

/-- The ring of an op that waits first. -/
theorem of_waiting (h : Inv s scope rings) (hin : op ∈ scope) (hop : s.Waiting op) :
    ∃ root ops rest, op ∈ ops ∧ Inv s scope ((root, ops) :: rest) := by
  obtain ⟨⟨r, ops⟩, hmem, hops⟩ := List.mem_flatMap.mp ((h.waiting op hin).mp hop)
  obtain ⟨before, after, rfl⟩ := List.append_of_mem hmem
  exact ⟨r, ops, before ++ after, hops, h.perm List.perm_middle⟩

/-- What a ring hangs on is a root. -/
theorem isRoot (h : Inv s scope rings) (hn : n ∈ rings.map Prod.fst) : s.IsRoot n :=
  (h.roots n (h.within n (mem_nodes_iff.mpr (Or.inl hn)))).mpr hn

/-- The members of the rings wait. -/
theorem waits (h : Inv s scope rings) (hn : n ∈ rings.flatMap Prod.snd) : s.Waiting n :=
  (h.waiting n (h.within n (mem_nodes_iff.mpr (Or.inr hn)))).mpr hn

/-- The nodes of the rings are not destroyed. -/
theorem alive (h : Inv s scope rings) (hn : n ∈ nodes rings) : (s.node n).isSome = true := by
  rcases mem_nodes_iff.mp hn with hroot | hmember
  · have hany := h.isRoot hroot
    unfold IsRoot at hany
    cases hnode : s.node n <;> simp_all
  · have hany := h.waits hmember
    unfold Waiting at hany
    cases hnode : s.node n <;> simp_all

/-- A node that is not constructed is in no ring. -/
theorem fresh (h : Inv s scope rings) (hn : s.node n = none) : n ∉ nodes rings := by
  intro hmem
  have hsome := h.alive hmem
  rw [hn] at hsome
  cases hsome

/-- A node that is not constructed is not in the first ring. -/
theorem fresh_head (h : Inv s scope ((root, ops) :: rest)) (hn : s.node n = none) :
    n ∉ root :: ops :=
  fun hmem => h.fresh hn (mem_nodes_cons.mpr ((List.mem_cons.mp hmem).imp_right Or.inl))

/-- The nodes of the first ring are not destroyed. -/
theorem alive_head (h : Inv s scope ((root, ops) :: rest)) (hn : n ∈ root :: ops) :
    (s.node n).isSome = true :=
  h.alive (mem_nodes_cons.mpr ((List.mem_cons.mp hn).imp_right Or.inl))

/-- The root of the first ring. -/
theorem isRoot_head (h : Inv s scope ((root, ops) :: rest)) : s.IsRoot root :=
  h.isRoot List.mem_cons_self

/-- The root of the first ring is in the part of the heap. -/
theorem within_head (h : Inv s scope ((root, ops) :: rest)) : root ∈ scope :=
  h.within root (mem_nodes_cons.mpr (Or.inl rfl))

/-- The pointers of its nodes lead to nodes that are not destroyed. -/
theorem alive_of_points (h : Inv s scope ((root, ops) :: rest)) {a b : α} (ha : a ∈ root :: ops)
    (hab : s.links.Points a b) : (s.node b).isSome = true :=
  h.alive_head (h.linked.head.mem_of_points ha hab)

/-- A node of the first ring and the nodes that it points at can be used. -/
theorem alive_around (h : Inv s scope ((root, ops) :: rest)) (hn : n ∈ root :: ops) :
    s.Alive [n, s.links.prev n, s.links.next n] := by
  intro a ha
  simp only [List.mem_cons, List.not_mem_nil, or_false] at ha
  rcases ha with rfl | rfl | rfl
  · exact h.alive_head hn
  · exact h.alive_of_points hn (Or.inr rfl)
  · exact h.alive_of_points hn (Or.inl rfl)

variable [DecidableEq α]

/-- **Change.** One node is written, and the rings after that have the roots and the members that
this makes. -/
theorem update {rings' : List (α × List α)} {k : Option Node} (h : Inv s scope rings)
    (hin : n ∈ scope) (hnode : t.node = Function.update s.node n k) (hlinked : Rings t.links rings')
    (hroots : ∀ m, m ∈ rings'.map Prod.fst ↔
      if m = n then k.any Node.isRoot = true else m ∈ rings.map Prod.fst)
    (hwaiting : ∀ m, m ∈ rings'.flatMap Prod.snd ↔
      if m = n then k.any Node.waits = true else m ∈ rings.flatMap Prod.snd) :
    Inv t scope rings' where
  linked := hlinked
  within m hm := by
    by_cases hmn : m = n
    · exact hmn ▸ hin
    · refine h.within m (mem_nodes_iff.mpr ?_)
      rcases mem_nodes_iff.mp hm with hroot | hop
      · exact Or.inl (by simpa [hmn] using (hroots m).mp hroot)
      · exact Or.inr (by rw [hwaiting, if_neg hmn] at hop; exact hop)
  roots m hm := by
    rw [hroots, IsRoot, hnode, Function.update_apply]
    split
    · exact Iff.rfl
    · exact h.roots m hm
  waiting m hm := by
    rw [hwaiting, Waiting, hnode, Function.update_apply]
    split
    · exact Iff.rfl
    · exact h.waiting m hm

end Inv

/-! ## One op -/

section OneOp

variable [DecidableEq α]

/-- The heap after a new op has joined the list on a root. -/
def queued (s : Heap α) (root op : α) (k : Node) : Heap α :=
  { s.assign op (some k) with
    links := BilistNode.linkBefore (BilistNode.construct s.links op) op root }

/-- The heap after an op has left its list. -/
def left (s : Heap α) (op : α) (ec : ErrorCode) : Heap α :=
  { s.assign op ((s.node op).bind Node.left) with
    links := BilistNode.unlink s.links op
    ec := if (s.node op).any Node.blocks then Function.update s.ec op ec else s.ec }

@[simp] theorem assign_node {k : Option Node} {a : α} :
    (s.assign n k).node a = if a = n then k else s.node a :=
  Function.update_apply ..

@[simp] theorem assign_ec {k : Option Node} : (s.assign n k).ec = s.ec := rfl

@[simp] theorem queued_node {k : Node} {a : α} :
    (s.queued root op k).node a = if a = op then some k else s.node a :=
  Function.update_apply ..

@[simp] theorem left_node {a : α} :
    (s.left op ec).node a = if a = op then (s.node op).bind Node.left else s.node a :=
  Function.update_apply ..

@[simp] theorem left_ec {a : α} : (s.left op ec).ec a =
    if a = op ∧ (s.node op).any Node.blocks = true then ec else s.ec a := by
  simp only [left]
  grind

/-- **A new op** joins the list. -/
theorem addWaiter_ok (h : Inv s scope ((root, ops) :: rest)) (hop : s.node op = none) (k : Node) :
    (s.construct op k).addWaiter root op = .ok (s.queued root op k) := by
  have hring : IsRing (BilistNode.construct s.links op) root ops := by
    refine h.linked.head.frame BilistNode.construct_sameOff fun a ha hmem => ?_
    exact h.fresh_head hop (List.mem_singleton.mp hmem ▸ ha)
  have hprev := hring.mem_of_points List.mem_cons_self (Or.inr rfl)
  have husable : ∀ n ∈ root :: ops, (Function.update s.node op (some k) n).isSome = true := by
    intro n hn
    rw [Function.update_apply]
    split
    · rfl
    · exact h.alive_head hn
  refine if_pos fun n hn => ?_
  simp only [List.mem_cons, List.not_mem_nil, or_false] at hn
  rcases hn with rfl | rfl | rfl
  · simp [construct, assign]
  · exact husable _ List.mem_cons_self
  · exact husable _ hprev

/-- The ring after a new op has joined it. -/
theorem Inv.queued (h : Inv s scope ((root, ops) :: rest)) (hin : op ∈ scope)
    (hop : s.node op = none) {k : Node} (hk : k.waits = true) :
    Inv (s.queued root op k) scope ((root, ops ++ [op]) :: rest) := by
  have hnew := h.fresh hop
  have hout := mem_nodes_iff.not.mp hnew
  refine h.update hin rfl (Memory.enqueue_rings (m := ⟨s.links, fun _ => none, []⟩) h.linked hnew)
    (fun m => ?_) fun m => ?_
  · rw [Option.any_some, Node.isRoot_of_waits hk]
    grind
  · rw [Option.any_some, hk]
    grind

/-- An op of a ring unlinks itself, whatever else was written to the heap. -/
theorem unlink_ok (h : Inv s scope ((root, ops) :: rest)) (hop : op ∈ ops)
    (hlinks : t.links = s.links)
    (halive : ∀ n, (s.node n).isSome = true → (t.node n).isSome = true) :
    t.unlink op = .ok { t with links := BilistNode.unlink s.links op } := by
  have husable : t.Alive [op, t.links.prev op, t.links.next op] := by
    rw [hlinks]
    exact fun n hn => halive n (h.alive_around (List.mem_cons_of_mem root hop) n hn)
  rw [unlink, if_pos husable, hlinks]

/-- **An op leaves its list**, and is destroyed if it was made of a handler. -/
theorem leave_ok (h : Inv s scope ((root, ops) :: rest)) (hop : op ∈ ops) (ec : ErrorCode) :
    s.leave op ec = .ok (s.left op ec) := by
  have hwaits : s.Waiting op :=
    h.waits (by rw [List.flatMap_cons]; exact List.mem_append_left _ hop)
  unfold Waiting at hwaits
  unfold leave left
  cases hnode : s.node op with
  | none => simp [hnode] at hwaits
  | some k =>
      cases k with
      | barrier | holder => simp [hnode, Node.waits] at hwaits
      | blocking done =>
          refine unlink_ok h hop rfl fun n hn => ?_
          show (Function.update s.node op _ n).isSome = true
          rw [Function.update_apply]
          split
          · rfl
          · exact hn
      | async =>
          show (s.unlink op).map _ = _
          rw [unlink_ok h hop rfl fun n hn => hn]
          rfl

/-- The ring after an op has left it. -/
theorem Inv.left (h : Inv s scope ((root, ops) :: rest)) (hop : op ∈ ops) (ec : ErrorCode) :
    Inv (s.left op ec) scope ((root, ops.erase op) :: rest) := by
  obtain ⟨hring, -, hdisj⟩ := Rings.cons_iff.mp h.linked
  have hnodup : ops.Nodup := (List.nodup_cons.mp hring.nodup).2
  have hother := mem_nodes_iff.not.mp (hdisj op (List.mem_cons_of_mem root hop))
  have hroot : op ≠ root := fun he => hring.root_not_mem (he ▸ hop)
  have hleft : ((s.node op).bind Node.left).any Node.isRoot = false ∧
      ((s.node op).bind Node.left).any Node.waits = false := by
    cases s.node op with
    | none => exact ⟨rfl, rfl⟩
    | some k => exact k.left_eq
  have hin : op ∈ scope := h.within op (mem_nodes_cons.mpr (Or.inr (Or.inl hop)))
  refine h.update hin rfl (BilistNode.unlink_rings h.linked hop) (fun m => ?_) fun m => ?_
  · rw [hleft.1]
    grind
  · rw [hleft.2]
    simp only [List.flatMap_cons, List.mem_append, hnodup.mem_erase_iff]
    grind

/-- **An op is completed.** -/
theorem complete_ok (h : Inv s scope ((root, ops) :: rest)) (hop : op ∈ ops) (ec : ErrorCode) :
    s.complete op ec = .ok { s.left op ec with completed := s.completed ++ [(op, ec)] } := by
  rw [complete, leave_ok h hop]
  rfl

end OneOp

/-! ## All ops -/

section AllOps

variable [DecidableEq α]

/-- From `s` to `t` each of the ops was completed once, in this order; what stands at other nodes
and in other variables was not written. -/
structure Drained (ops : List α) (ec : ErrorCode) (s t : Heap α) : Prop where
  completed : t.completed = s.completed ++ ops.map (·, ec)
  node : ∀ n, t.node n = if n ∈ ops then (s.node n).bind Node.left else s.node n
  ec : ∀ n, t.ec n = if n ∈ ops ∧ (s.node n).any Node.blocks = true then ec else s.ec n

/-- An op that was completed, and then the others. -/
theorem Drained.cons (hop : op ∉ ops)
    (h : Drained ops ec { s.left op ec with completed := s.completed ++ [(op, ec)] } t) :
    Drained (op :: ops) ec s t where
  completed := by simp [h.completed]
  node n := by
    rw [h.node, left_node]
    simp only [List.mem_cons]
    grind
  ec n := by
    rw [h.ec, left_node, left_ec]
    simp only [List.mem_cons]
    grind

/-- **The loop** completes every op of the list and touches no other list. -/
theorem completeAll_ends (h : Inv s scope ((root, ops) :: rest)) (ec : ErrorCode) :
    Fuel.Ends .fuel (ops.length + 1) (fun fuel => s.completeAll root ec fuel)
      fun t => Inv t scope ((root, []) :: rest) ∧ Drained ops ec s t := by
  -- a turn takes the first op out of the list, so the induction is on the ops
  induction ops generalizing s with
  | nil =>
      have hroot : s.Alive [root] := fun n hn =>
        h.alive_head (List.mem_singleton.mp hn ▸ List.mem_cons_self)
      have hempty : s.links.next root = root := h.linked.head.next_root_eq_iff.mpr rfl
      refine Fuel.Ends.turn (.ret (fun _ => rfl) ⟨h, by simp, by simp, by simp⟩) rfl fun fuel => ?_
      simp [completeAll, hroot, hempty]
  | cons op ops ih =>
      have hroot : s.Alive [root] := fun n hn =>
        h.alive_head (List.mem_singleton.mp hn ▸ List.mem_cons_self)
      have hfirst : s.links.next root = op := h.linked.head.next_root
      have hne : op ≠ root := fun he => h.linked.head.root_not_mem (he ▸ List.mem_cons_self ..)
      have hout : op ∉ ops := (List.nodup_cons.mp (List.nodup_cons.mp h.linked.head.nodup).2).1
      have hleft := h.left List.mem_cons_self ec
      rw [List.erase_cons_head] at hleft
      have hrest := ih (s := { s.left op ec with completed := s.completed ++ [(op, ec)] })
        (hleft.same rfl rfl)
      refine Fuel.Ends.turn (hrest.imp fun t ht => ⟨ht.1, ht.2.cons hout⟩) rfl fun fuel => ?_
      rw [completeAll, if_neg (not_not.mpr hroot)]
      simp only [hfirst, if_neg hne, complete_ok h List.mem_cons_self]
      rfl

/-- The pointers and the calls of `complete`, which is what `Memory` has of the heap. -/
def memory (s : Heap α) : Memory α := ⟨s.links, fun _ => none, s.completed⟩

/-- `unlink` without destroyed nodes. -/
theorem unlink_memory (hrun : s.unlink op = .ok t) : t.memory = s.memory.unlink op := by
  unfold unlink at hrun
  split at hrun
  · obtain rfl := Except.ok.inj hrun
    rfl
  · cases hrun

/-- `complete` without destroyed nodes. -/
theorem complete_memory (hrun : s.complete op ec = .ok t) :
    t.memory = s.memory.complete op ec := by
  obtain ⟨u, hleave, rfl⟩ := Fuel.of_map_ok hrun
  have hleft : u.memory = s.memory.unlink op := by
    unfold leave at hleave
    split at hleave
    · have hmemory := unlink_memory hleave
      exact hmemory
    · obtain ⟨v, hunlink, rfl⟩ := Fuel.of_map_ok hleave
      have hmemory := unlink_memory hunlink
      exact hmemory
    · cases hleave
  show { u.memory with completed := u.memory.completed ++ [(op, ec)] } = _
  rw [hleft]
  rfl

/-- **The loop without destroyed nodes** is that of `Memory`. -/
theorem completeAll_memory (hrun : s.completeAll root ec fuel = .ok t) :
    s.memory.completeAll root ec fuel = some t.memory := by
  induction fuel generalizing s with
  | zero => cases hrun
  | succ fuel ih =>
      rw [completeAll] at hrun
      split at hrun
      · cases hrun
      · rw [Memory.completeAll]
        dsimp only at hrun
        split at hrun
        · rename_i hempty
          obtain rfl := Except.ok.inj hrun
          exact if_pos hempty
        · rename_i hnext
          rw [if_neg (show s.memory.links.next root ≠ root from hnext)]
          obtain ⟨u, hcomplete, hrest⟩ := Fuel.of_bind_ok hrun
          show (s.memory.complete (s.links.next root) ec).completeAll root ec fuel = _
          rw [← complete_memory hcomplete]
          exact ih hrest

/-- **The op that is completed last** is left with pointers to the root. -/
theorem completeAll_last (h : Inv s scope ((root, ops ++ [op]) :: rest)) (ec : ErrorCode) :
    Fuel.Ends .fuel (ops.length + 2) (fun fuel => s.completeAll root ec fuel) fun t =>
      (Inv t scope ((root, []) :: rest) ∧ Drained (ops ++ [op]) ec s t) ∧
        t.links.next op = root ∧ t.links.prev op = root := by
  have hloop := completeAll_ends h ec
  rw [List.length_append] at hloop
  refine hloop.returned.imp fun t ht => ⟨ht.1, ?_⟩
  obtain ⟨fuel, hrun⟩ := ht.2
  exact Memory.completeAll_last (m := s.memory) h.linked.head (completeAll_memory hrun)

end AllOps

end Heap

end Sam.Barrier
