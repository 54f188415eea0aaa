import Sam.Barrier.Heap

/-!
# Programs on barriers

Runs of a program that constructs, moves, uses, shuts down and destroys barriers. Every step is one
critical section, or what a thread does without the lock: moves, the destructors, a turn of the loop
of `shutdown` and the return of a blocked `arrive`. A move assignment can drop waiters, which later
unlink themselves from a list that they are not in; `Keeps` says that no step of a run does so.
`exec_ends` shows that a step that drops none does not fault and keeps the rings; `run_wellFormed`
and `run_no_fault` say so of runs. `PhaseEnded` is what the last blocking arrival of a phase has
done when it comes to unlink its own op. -/

namespace Sam.Barrier.Heap

open Links Service Transition

universe u

variable {α : Type u} [DecidableEq α]

section Model

/-- The steps of a program. `wake`: the thread of a blocking `arrive` sees `done` and returns.
`takeList`: the list on `root` is moved to the new local list `this`, which `shutdown` does under
the lock, and once more in the `shutdown` of the list. -/
inductive Event (α : Type u) where
  | construct (this : α) (enabled : Bool) (init : Int)
  | moveConstruct (this lhs : α)
  | moveAssign (this lhs : α)
  | destroy (this : α)
  | tryArrive (root : α)
  | arrive (root op : α) (entry : ErrorCode)
  | asyncTry (root op : α)
  | asyncQueue (root op : α)
  | cancel (op : α)
  | wake (op : α)
  | takeList (this root : α)
  | shutdownTurn (bn : α)
  deriving DecidableEq, Repr

/-- When a step can be taken: a new node is none that is in use, calls are made on barriers, only an
op that was made of a handler and still waits is cancelled, and only a thread whose op is done goes
on. -/
def Enabled (s : Heap α) : Event α → Prop
  | .construct this .. => s.node this = none
  | .moveConstruct this lhs => s.node this = none ∧ s.IsBarrier lhs
  | .moveAssign this lhs => s.IsBarrier this ∧ s.IsBarrier lhs
  | .destroy this => s.IsRoot this
  | .tryArrive root => s.IsBarrier root
  | .arrive root op _ => s.IsBarrier root ∧ s.node op = none
  | .asyncTry root _ => s.IsBarrier root
  | .asyncQueue root op => s.IsBarrier root ∧ s.node op = none ∧ (root, op) ∈ s.between
  | .cancel op => s.node op = some .async
  | .wake op => s.node op = some (.blocking true)
  | .takeList this root => s.node this = none ∧ s.IsRoot root
  | .shutdownTurn bn => s.node bn = some .holder

/-- One step. -/
def exec (s : Heap α) : Event α → Nat → Except Fault (Heap α)
  | .construct this enabled init, _ => .ok (s.construct this (.barrier enabled init init))
  | .moveConstruct this lhs, _ => s.moveList this lhs (s.node lhs)
  | .moveAssign this lhs, _ => s.moveAssign this lhs
  | .destroy this, fuel => (s.completeAll this .operationAborted fuel).map (·.assign this none)
  | .tryArrive root, fuel => (s.tryArrive root fuel).map Prod.snd
  | .arrive root op entry, fuel => s.arrive root op entry fuel
  | .asyncTry root op, fuel => s.asyncTry root op fuel
  | .asyncQueue root op, _ => s.asyncQueue root op
  | .cancel op, _ => s.complete op .operationAborted
  | .wake op, _ => .ok (s.assign op none)
  | .takeList this root, _ => s.moveList this root (some .holder)
  | .shutdownTurn bn, _ => s.shutdownTurn bn

instance (s : Heap α) : DecidablePred s.Enabled := fun e => by
  cases e <;> unfold Enabled <;> infer_instance

/-- One step of a run, which ends at a fault. -/
def step (fuel : Nat) (s : Heap α) (e : Event α) : Option (Heap α) :=
  if s.Enabled e then (s.exec e fuel).toOption else none

/-- The step drops no waiters: a move assignment finds none in its target or some in its source. -/
def KeepsWaiters (s : Heap α) : Event α → Prop
  | .moveAssign this lhs => s.links.next this = this ∨ s.links.next lhs ≠ lhs
  | _ => True

/-- No step of the run drops waiters. -/
def Keeps (fuel : Nat) (s : Heap α) (events : List (Event α)) : Prop :=
  ∀ t e, Takes (step fuel) s events t e → t.KeepsWaiters e

end Model

variable {s t : Heap α} {root op this : α} {ops : List α} {rings rest : List (α × List α)}
  {scope : Set α} {fuel : Nat}

/-! ## Roots -/

omit [DecidableEq α] in
/-- A barrier is a root. -/
theorem IsBarrier.isRoot (h : s.IsBarrier root) : s.IsRoot root := by
  obtain ⟨enabled, init, counter, hnode⟩ := h.exists_node
  rw [IsRoot, hnode]
  rfl

omit [DecidableEq α] in
/-- A root is no op. -/
theorem IsRoot.not_waiting (h : s.IsRoot root) : ¬ s.Waiting root := by
  unfold IsRoot at h
  unfold Waiting
  cases hnode : s.node root with
  | none => simp
  | some k =>
      rw [hnode, Option.any_some] at h
      rw [Option.any_some, Node.waits_of_isRoot h]
      exact Bool.false_ne_true

namespace Inv

/-- Another root stands at the node of a root. -/
theorem assign_root (h : Inv s scope rings) (hin : root ∈ scope) (hroot : s.IsRoot root) {k : Node}
    (hk : k.isRoot = true) : Inv (s.assign root (some k)) scope rings := by
  have hmem := (h.roots root hin).mp hroot
  have hout := (h.waiting root hin).not.mp hroot.not_waiting
  refine h.update hin rfl h.linked (fun m => ?_) fun m => ?_
  · rw [Option.any_some, hk]
    grind
  · rw [Option.any_some, Node.waits_of_isRoot hk]
    grind

/-- Another root stands at the root of the first ring. -/
theorem assign_head (h : Inv s scope ((root, ops) :: rest)) {k : Node} (hk : k.isRoot = true) :
    Inv (s.assign root (some k)) scope ((root, ops) :: rest) :=
  h.assign_root h.within_head h.isRoot_head hk

/-- A new root with an empty list. -/
theorem construct (h : Inv s scope rings) (hin : this ∈ scope) (hthis : s.node this = none)
    {k : Node} (hk : k.isRoot = true) :
    Inv (s.construct this k) scope ((this, []) :: rings) := by
  have hout := mem_nodes_iff.not.mp (h.fresh hthis)
  have hrings : Rings (BilistNode.construct s.links this) ((this, []) :: rings) := by
    refine Rings.cons_iff.mpr ⟨BilistNode.construct_ring,
      h.linked.frame BilistNode.construct_sameOff ?_, ?_⟩
    all_goals exact fun a ha => List.mem_singleton.mp ha ▸ h.fresh hthis
  refine h.update hin rfl hrings (fun m => ?_) fun m => ?_
  · rw [Option.any_some, hk]
    grind
  · rw [Option.any_some, Node.waits_of_isRoot hk]
    grind

/-- A root without a list is destroyed. -/
theorem destroy_root (h : Inv s scope ((root, []) :: rest)) :
    Inv (s.assign root none) scope rest := by
  have hout := mem_nodes_iff.not.mp ((Rings.cons_iff.mp h.linked).2.2 root List.mem_cons_self)
  refine h.update h.within_head rfl h.linked.tail (fun m => ?_) fun m => ?_
  · rw [Option.any_none]
    grind
  · rw [Option.any_none]
    grind

/-- An op that is done is destroyed. -/
theorem destroy_done (h : Inv s scope rings) (hin : op ∈ scope)
    (hdone : s.node op = some (.blocking true)) : Inv (s.assign op none) scope rings := by
  have hroot : ¬ s.IsRoot op := by simp [IsRoot, hdone, Node.isRoot]
  have hwaits : ¬ s.Waiting op := by simp [Waiting, hdone, Node.waits]
  have hout := (h.roots op hin).not.mp hroot
  have hout' := (h.waiting op hin).not.mp hwaits
  refine h.update hin rfl h.linked (fun m => ?_) fun m => ?_
  · rw [Option.any_none]
    grind
  · rw [Option.any_none]
    grind

end Inv

/-- **The list of a root is moved** to a new one. -/
theorem moveList_ok (h : Inv s scope ((root, ops) :: rest)) (hin : this ∈ scope)
    (hthis : s.node this = none) {k : Node} (hk : k.isRoot = true) :
    ∃ t, s.moveList this root (some k) = .ok t ∧
      Inv t scope ((this, ops) :: (root, []) :: rest) := by
  have husable : s.Alive [root, s.links.next root, s.links.prev root] := by
    intro n hn
    refine h.alive_around List.mem_cons_self n ?_
    simp only [List.mem_cons, List.not_mem_nil, or_false] at hn ⊢
    tauto
  have hnew := h.fresh hthis
  have hout := mem_nodes_iff.not.mp hnew
  refine ⟨_, if_pos husable, h.update hin rfl (BilistNode.moveConstruct_rings h.linked hnew)
    (fun m => ?_) fun m => ?_⟩
  · rw [Option.any_some, hk]
    grind
  · rw [Option.any_some, Node.waits_of_isRoot hk]
    grind

/-! ## Sections -/

/-- Some rings hang in the heap, one on every root, and their members are the ops that wait. -/
def WellFormed (s : Heap α) : Prop := ∃ rings, Inv s Set.univ rings

omit [DecidableEq α] in
/-- The heap is well-formed whatever the variables and the logs hold. -/
theorem WellFormed.same (h : WellFormed s) (hnode : t.node = s.node) (hlinks : t.links = s.links) :
    WellFormed t := by
  obtain ⟨rings, h⟩ := h
  exact ⟨rings, h.same hnode hlinks⟩

/-- **The end of a phase** completes every op of the list and resets the counter. -/
theorem endPhase_ends (h : Inv s scope ((root, ops) :: rest)) (enabled : Bool) (init : Int) :
    Fuel.Ends .fuel (ops.length + 1) (s.endPhase root enabled init) fun t =>
      Inv t scope ((root, []) :: rest) :=
  Fuel.Ends.map (completeAll_ends h .success) fun _ hu => hu.1.assign_head rfl

/-- **`try_arrive`.** -/
theorem tryArrive_ends (h : Inv s Set.univ rings) (hbarrier : s.IsBarrier root) :
    ∃ bound, Fuel.Ends .fuel bound (s.tryArrive root) fun r => WellFormed r.2 := by
  obtain ⟨enabled, init, counter, hnode⟩ := hbarrier.exists_node
  obtain ⟨ops, rest, h⟩ := h.of_root trivial hbarrier.isRoot
  have hcounted := h.assign_head (k := .barrier enabled init (counter - 1)) rfl
  have htry : s.tryArrive root = fun fuel =>
      if counter - 1 = 0 then
        ((s.assign root (some (.barrier enabled init (counter - 1)))).endPhase root enabled init
          fuel).map fun s => (true, s)
      else .ok (false, (s.assign root (some (.barrier enabled init (counter - 1)))).assign root
        (some (.barrier enabled init (counter - 1 + 1)))) := by
    funext fuel
    simp only [tryArrive, hnode]
  rw [htry]
  refine ⟨ops.length + 1, ?_⟩
  split
  · exact Fuel.Ends.map (endPhase_ends hcounted enabled init) fun t ht => ⟨_, ht⟩
  · exact .ret (fun _ => rfl) ⟨_, hcounted.assign_head rfl⟩

/-- **A new op is queued** by `arrive`. -/
theorem queueOp_ok (h : Inv s scope ((root, ops) :: rest)) (hop : s.node op = none)
    (init counter : Int) :
    s.queueOp root op init counter =
      .ok ((s.queued root op (.blocking false)).assign root
        (some (.barrier true init (counter - 1)))) := by
  rw [queueOp, addWaiter_ok h hop]
  rfl

/-- The rings after that. -/
theorem Inv.queueOp (h : Inv s scope ((root, ops) :: rest)) (hin : op ∈ scope)
    (hop : s.node op = none) (init counter : Int) :
    Inv ((s.queued root op (.blocking false)).assign root (some (.barrier true init counter)))
      scope ((root, ops ++ [op]) :: rest) :=
  (h.queued hin hop (k := .blocking false) rfl).assign_head rfl

/-! ## The last arrival -/

/-- From `s` to `mid` the op joined the ring `ops` on `root` as the last arrival of a phase, and
`complete_all` completed all of them. The op still points at the root. -/
structure PhaseEnded (scope : Set α) (root op : α) (ops : List α) (rest : List (α × List α))
    (init : Int) (s mid : Heap α) : Prop where
  inv : Inv mid scope ((root, []) :: rest)
  completed : mid.completed = s.completed ++ (ops ++ [op]).map (·, .success)
  waiters : ∀ w ∈ ops, mid.node w = (s.node w).bind Node.left
  barrier : mid.node root = some (.barrier true init init)
  done : mid.node op = some (.blocking true)
  ec : mid.ec op = .success
  next : mid.links.next op = root
  prev : mid.links.prev op = root

/-- `arrive` as the last arrival of a phase, up to its own `op.unlink()`. -/
def lastArrival (s : Heap α) (root op : α) (init : Int) (fuel : Nat) : Except Fault (Heap α) :=
  s.queueOp root op init 1 >>= fun s => s.endPhase root true init fuel

/-- **The last arrival** up to its second `unlink`. -/
theorem lastArrival_ends (h : Inv s scope ((root, ops) :: rest)) (hin : op ∈ scope)
    (hop : s.node op = none) (init : Int) :
    Fuel.Ends .fuel (ops.length + 2) (s.lastArrival root op init)
      (PhaseEnded scope root op ops rest init s) := by
  have hlast : s.lastArrival root op init = fun fuel =>
      ((s.queued root op (.blocking false)).assign root
        (some (.barrier true init (1 - 1)))).endPhase root true init fuel := by
    funext fuel
    rw [lastArrival, queueOp_ok h hop]
    rfl
  have hqueued := h.queueOp hin hop init (1 - 1)
  have hne : op ≠ root := List.ne_of_not_mem_cons (h.fresh_head hop)
  rw [hlast]
  refine Fuel.Ends.map (completeAll_last hqueued .success) fun u hu => ?_
  obtain ⟨⟨hinv, hdrained⟩, hnext, hprev⟩ := hu
  refine ⟨hinv.assign_head rfl, hdrained.completed, fun w hw => ?_, ?_, ?_, ?_,
    hnext, hprev⟩
  · have hwroot : w ≠ root := fun he => h.linked.head.root_not_mem (he ▸ hw)
    have hwop : w ≠ op := fun he => h.fresh_head hop (he ▸ List.mem_cons_of_mem root hw)
    simp [hdrained.node, hw, hwroot, hwop]
  · simp
  · simp [hdrained.node, hne, Node.left]
  · simp [hdrained.ec, hne, Node.blocks]

/-- **The second `unlink`** faults at nothing and changes nothing: the pointers of the op lead to
the root, and nothing hangs on it. -/
theorem PhaseEnded.unlink {init : Int} {mid : Heap α}
    (h : PhaseEnded scope root op ops rest init s mid) :
    mid.unlink op = .ok mid := by
  have husable : mid.Alive [op, mid.links.prev op, mid.links.next op] := by
    intro n hn
    rw [h.prev, h.next] at hn
    simp only [List.mem_cons, List.not_mem_nil, or_false, or_self] at hn
    rcases hn with rfl | rfl
    · rw [h.done]
      rfl
    · rw [h.barrier]
      rfl
  rw [Heap.unlink, if_pos husable,
    BilistNode.unlink_of_detached h.inv.linked.head h.prev h.next]

/-- `arrive` in single-threaded mode. -/
theorem arrive_of_disabled {init counter : Int}
    (hnode : s.node root = some (.barrier false init counter)) (entry : ErrorCode) :
    s.arrive root op entry = fun fuel =>
      ((s.enter op entry).tryArrive root fuel).map fun r =>
        if r.1 then r.2 else { r.2 with ec := Function.update r.2.ec op .inProgress } := by
  funext fuel
  have hnode' : (s.enter op entry).node root = some (.barrier false init counter) := hnode
  simp only [arrive, hnode']

/-- `arrive` as the last arrival in multi-threaded mode. -/
theorem arrive_of_last {init : Int} (hnode : s.node root = some (.barrier true init 1))
    (entry : ErrorCode) :
    s.arrive root op entry = fun fuel =>
      (s.enter op entry).lastArrival root op init fuel >>= fun s =>
        (s.unlink op).map (·.assign op none) := by
  funext fuel
  have hnode' : (s.enter op entry).node root = some (.barrier true init 1) := hnode
  simp only [arrive, hnode', lastArrival, Int.sub_self, if_true, bind_assoc]

/-- `arrive` as an earlier arrival in multi-threaded mode. -/
theorem arrive_of_more {init counter : Int}
    (hnode : s.node root = some (.barrier true init counter)) (hmore : counter ≠ 1)
    (entry : ErrorCode) :
    s.arrive root op entry = fun _ => (s.enter op entry).queueOp root op init counter := by
  funext fuel
  have hnode' : (s.enter op entry).node root = some (.barrier true init counter) := hnode
  have hcounter : counter - 1 ≠ 0 := by omega
  simp only [arrive, hnode', if_neg hcounter]
  exact bind_pure _

/-- **`arrive`.** -/
theorem arrive_ends (h : Inv s Set.univ rings) (hbarrier : s.IsBarrier root)
    (hop : s.node op = none) (entry : ErrorCode) :
    ∃ bound, Fuel.Ends .fuel bound (s.arrive root op entry) WellFormed := by
  obtain ⟨enabled, init, counter, hnode⟩ := hbarrier.exists_node
  obtain ⟨ops, rest, h⟩ := h.of_root trivial hbarrier.isRoot
  have hentered : Inv (s.enter op entry) Set.univ ((root, ops) :: rest) := h.same rfl rfl
  cases enabled with
  | false =>
      obtain ⟨bound, htry⟩ := tryArrive_ends hentered hbarrier
      rw [arrive_of_disabled hnode]
      refine ⟨bound, htry.map fun r hr => ?_⟩
      split
      · exact hr
      · exact hr.same rfl rfl
  | true =>
      by_cases hlast : counter = 1
      · subst hlast
        rw [arrive_of_last hnode]
        have hends := lastArrival_ends hentered trivial hop init
        refine ⟨ops.length + 2, hends.bind fun mid hmid => ?_⟩
        refine .ret (fun _ => congrArg (Except.map _) hmid.unlink) ?_
        exact ⟨_, hmid.inv.destroy_done trivial hmid.done⟩
      · rw [arrive_of_more hnode hlast]
        refine ⟨0, .ret (fun _ => queueOp_ok hentered hop init counter) ?_⟩
        exact ⟨_, hentered.queueOp trivial hop init (counter - 1)⟩

/-! ## Steps -/

/-- **The second section of `async_arrive`.** -/
theorem asyncQueue_ends (h : Inv s Set.univ rings) (hbarrier : s.IsBarrier root)
    (hop : s.node op = none) :
    Fuel.Ends .fuel 0 (fun _ => s.asyncQueue root op) WellFormed := by
  obtain ⟨enabled, init, counter, hnode⟩ := hbarrier.exists_node
  obtain ⟨ops, rest, h⟩ := h.of_root trivial hbarrier.isRoot
  have hne : op ≠ root := List.ne_of_not_mem_cons (h.fresh_head hop)
  have hcounted := h.assign_head (k := .barrier enabled init (counter - 1)) rfl
  have hnew : (s.assign root (some (.barrier enabled init (counter - 1)))).node op = none :=
    (Function.update_of_ne hne ..).trans hop
  have hqueue : s.asyncQueue root op =
      (((s.assign root (some (.barrier enabled init (counter - 1)))).construct op .async).addWaiter
        root op).map fun s => { s with between := s.between.erase (root, op) } := by
    simp only [asyncQueue, hnode]
  rw [hqueue, addWaiter_ok hcounted hnew]
  exact .ret (fun _ => rfl) ⟨_, (hcounted.queued trivial hnew rfl).same rfl rfl⟩

/-- **A move assignment** that drops no waiters changes no list: it moves none. -/
theorem moveAssign_ends {lhs : α} (h : Inv s Set.univ rings) (hthis : s.IsBarrier this)
    (hlhs : s.IsBarrier lhs) (hkeeps : s.links.next this = this ∨ s.links.next lhs ≠ lhs) :
    Fuel.Ends .fuel 0 (fun _ => s.moveAssign this lhs) WellFormed := by
  obtain ⟨enabled, init, counter, hnode⟩ := hthis.exists_node
  obtain ⟨enabled', init', counter', hnode'⟩ := hlhs.exists_node
  obtain ⟨ys, others, hsource⟩ := h.of_root trivial hlhs.isRoot
  obtain ⟨xs, rest, h⟩ := h.of_root trivial hthis.isRoot
  have hassign : s.moveAssign this lhs =
      .ok { s.assign this (some (.barrier enabled init' counter')) with
        links := BilistNode.moveAssign s.links this lhs } := by
    simp only [moveAssign, hnode, hnode']
    exact if_pos (h.alive_around List.mem_cons_self)
  refine .ret (fun _ => hassign) ?_
  by_cases hempty : ys = []
  · subst hempty
    have hnext : s.links.next lhs = lhs := hsource.linked.head.next_root_eq_iff.mpr rfl
    obtain rfl : xs = [] :=
      h.linked.head.next_root_eq_iff.mp (hkeeps.resolve_right (not_not.mpr hnext))
    obtain ⟨hring, hsame⟩ : IsRing (BilistNode.moveAssign s.links this lhs) this [] ∧ _ :=
      BilistNode.moveAssign_of_empty hsource.linked.head
    have hdisj := (Rings.cons_iff.mp h.linked).2.2
    exact ⟨_, (h.assign_head rfl).relink rfl (h.linked.edit hring hsame hdisj hdisj)⟩
  · have hlinks : BilistNode.moveAssign s.links this lhs = s.links :=
      BilistNode.moveAssign_of_nonempty hsource.linked.head hempty h.linked.head
    exact ⟨_, (h.assign_head rfl).same rfl hlinks⟩

/-- **A queued op is cancelled.** -/
theorem cancel_ends (h : Inv s Set.univ rings) (hop : s.node op = some .async) :
    Fuel.Ends .fuel 0 (fun _ => s.complete op .operationAborted) WellFormed := by
  have hwaits : s.Waiting op := by
    rw [Waiting, hop]
    rfl
  obtain ⟨root, ops, rest, hmem, h⟩ := h.of_waiting trivial hwaits
  exact .ret (fun _ => complete_ok h hmem .operationAborted)
    ⟨_, (h.left hmem .operationAborted).same rfl rfl⟩

/-- **One turn of `shutdown`.** What the loop writes to the root is what the op has just written. -/
theorem shutdownTurn_ends (h : Inv s Set.univ rings) (hroot : s.IsRoot root) :
    Fuel.Ends .fuel 0 (fun _ => s.shutdownTurn root) WellFormed := by
  obtain ⟨ops, rest, h⟩ := h.of_root trivial hroot
  cases ops with
  | nil =>
      have hempty : s.links.next root = root := h.linked.head.next_root_eq_iff.mpr rfl
      exact .ret (fun _ => if_pos hempty) ⟨rest, h.destroy_root⟩
  | cons op ops =>
      have hfirst : s.links.next root = op := h.linked.head.next_root
      have hprev : s.links.prev op = root := h.linked.head.prev_first
      have hne : op ≠ root := fun he => h.linked.head.root_not_mem (he ▸ List.mem_cons_self ..)
      have hop : s.Alive [op] := fun n hn =>
        h.alive_head (List.mem_singleton.mp hn ▸ by simp)
      have hleft := h.left List.mem_cons_self .shutDown
      have hwrite : (s.left op .shutDown).links.setNext root (s.links.next op) =
          (s.left op .shutDown).links := by
        have hnext : (s.left op .shutDown).links.next root = s.links.next op := by
          show (BilistNode.unlink s.links op).next root = _
          rw [BilistNode.unlink_eq, link_next, if_pos hprev.symm]
        rw [← hnext]
        exact Links.ext (Function.update_eq_self ..) rfl
      refine .ret (fun _ => ?_) ⟨_, hleft⟩
      rw [shutdownTurn, hfirst, if_neg hne, if_neg (not_not.mpr hop), leave_ok h List.mem_cons_self]
      show Except.ok { s.left op .shutDown with
        links := (s.left op .shutDown).links.setNext root (s.links.next op) } = _
      rw [hwrite]

/-- **No step faults** that drops no waiters, and every such step keeps the rings. -/
theorem exec_ends {e : Event α} (h : WellFormed s) (he : s.Enabled e) (hkeeps : s.KeepsWaiters e) :
    ∃ bound, Fuel.Ends .fuel bound (s.exec e) WellFormed := by
  obtain ⟨rings, h⟩ := h
  cases e with
  | construct this enabled init =>
      exact ⟨0, .ret (fun _ => rfl) ⟨_, h.construct trivial he rfl⟩⟩
  | moveConstruct this lhs =>
      obtain ⟨enabled, init, counter, hnode⟩ := he.2.exists_node
      obtain ⟨ops, rest, h⟩ := h.of_root trivial he.2.isRoot
      obtain ⟨t, hmove, hinv⟩ := moveList_ok (k := .barrier enabled init counter) h trivial he.1 rfl
      exact ⟨0, .ret (fun _ => (congrArg (s.moveList this lhs) hnode).trans hmove) ⟨_, hinv⟩⟩
  | moveAssign this lhs => exact ⟨0, moveAssign_ends h he.1 he.2 hkeeps⟩
  | destroy this =>
      obtain ⟨ops, rest, h⟩ := h.of_root trivial he
      exact ⟨_, (completeAll_ends h .operationAborted).map fun t ht => ⟨rest, ht.1.destroy_root⟩⟩
  | tryArrive root =>
      obtain ⟨bound, htry⟩ := tryArrive_ends h he
      exact ⟨bound, htry.map fun r hr => hr⟩
  | arrive root op entry => exact arrive_ends h he.1 he.2 entry
  | asyncTry root op =>
      obtain ⟨bound, htry⟩ := tryArrive_ends h he
      refine ⟨bound, htry.map fun r hr => ?_⟩
      split
      · exact hr
      · exact hr.same rfl rfl
  | asyncQueue root op => exact ⟨0, asyncQueue_ends h he.1 he.2.1⟩
  | cancel op => exact ⟨0, cancel_ends h he⟩
  | wake op => exact ⟨0, .ret (fun _ => rfl) ⟨_, h.destroy_done trivial he⟩⟩
  | takeList this root =>
      obtain ⟨ops, rest, h⟩ := h.of_root trivial he.2
      obtain ⟨t, hmove, hinv⟩ := moveList_ok (k := .holder) h trivial he.1 rfl
      exact ⟨0, .ret (fun _ => hmove) ⟨_, hinv⟩⟩
  | shutdownTurn bn =>
      have hroot : s.IsRoot bn := by
        rw [IsRoot, he]
        rfl
      exact ⟨0, shutdownTurn_ends h hroot⟩

/-! ## Runs -/

omit [DecidableEq α] in
/-- Nothing hangs in an empty heap. -/
theorem wellFormed_empty (links : Links α) (ec : α → ErrorCode) : WellFormed (empty links ec) := by
  refine ⟨[], ⟨List.nodup_nil, by simp⟩, fun n hn => ?_, fun n _ => ?_, fun n _ => ?_⟩
  · simp [nodes] at hn
  · simp [IsRoot, empty]
  · simp [Waiting, empty]

/-- **The heap stays well-formed** over every run that drops no waiters. -/
theorem run_wellFormed {links : Links α} {ec : α → ErrorCode} {events : List (Event α)}
    (hkeeps : Keeps fuel (empty links ec) events)
    (hrun : run (step fuel) (empty links ec) events = some s) : WellFormed s := by
  refine run_invariant_of_takes (fun s e t h hkeeps hstep => ?_) (wellFormed_empty links ec) hkeeps
    hrun
  obtain ⟨he, hexec⟩ := Option.ite_none_right_eq_some.mp hstep
  obtain ⟨bound, hends⟩ := exec_ends h he hkeeps
  cases hresult : s.exec e fuel with
  | error f => rw [hresult] at hexec; cases hexec
  | ok u =>
      rw [hresult] at hexec
      exact Option.some.inj hexec ▸ hends.of_ok hresult

end Sam.Barrier.Heap
