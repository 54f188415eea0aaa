import Sam.Library.Transition
import Sam.Operation.Kinds

/-!
# Cancellation handlers of moved primitives

A pool of primitives of one kind at addresses. An initiation installs a cancellation handler that
captures its op and a reference to the `_impl` on which it was called. Move construction links the
waiting ops into the lists of another object, and the handlers keep their references. Read
`follows_iff_unmoved` for when every handler still refers to the object that its op waits on.
-/

namespace Sam

open Transition

universe u v

variable {ι : Type u}

/-! ## Move constructors -/

/-- `mutex_impl(mutex_impl &&)`: the new object and what is left of `mi`. -/
def MutexImpl.moveConstruct (mi : MutexImpl ι) : MutexImpl ι × MutexImpl ι :=
  (mi, { mi with locked := false, waiters := [] })

/-- `shared_mutex_impl(shared_mutex_impl &&)`. The count of `mi` is copied and not reset. -/
def SharedMutexImpl.moveConstruct (mi : SharedMutexImpl ι) :
    SharedMutexImpl ι × SharedMutexImpl ι :=
  (mi, { mi with toMutexImpl := mi.toMutexImpl.moveConstruct.2, sharedWaiters := [] })

/-- `semaphore_impl(semaphore_impl &&)`. The count is copied. -/
def SemaphoreImpl.moveConstruct (mi : SemaphoreImpl ι) : SemaphoreImpl ι × SemaphoreImpl ι :=
  (mi, { mi with waiters := [] })

/-- `condition_variable_impl(condition_variable_impl &&)`. -/
def ConditionVariableImpl.moveConstruct (lhs : ConditionVariableImpl ι) :
    ConditionVariableImpl ι × ConditionVariableImpl ι :=
  (lhs, { lhs with waiters := [] })

/-- `barrier_impl(barrier_impl &&)`. Both numbers are copied. -/
def BarrierImpl.moveConstruct (rhs : BarrierImpl ι) : BarrierImpl ι × BarrierImpl ι :=
  (rhs, { rhs with waiters := [] })

variable [DecidableEq ι]

/-- An op leaves the waiter list that it is in, if that is one of this primitive. -/
def Primitive.unlinkFrom (P : Primitive ι) (op : Op ι) (s : P.State) : P.State :=
  if op ∈ P.queued s then P.unlink s op else s

/-- Nobody joins a list then. -/
theorem Primitive.unlinkFrom_queued (P : Primitive ι) {op : Op ι} {s : P.State}
    (hnodup : (P.queued s).Nodup) :
    (P.queued (P.unlinkFrom op s)).Nodup ∧ P.queued (P.unlinkFrom op s) ⊆ P.queued s := by
  unfold unlinkFrom
  split
  · rename_i hop
    have hperm := P.unlink_perm s op hnodup hop
    exact ⟨(List.nodup_cons.mp (hperm.nodup_iff.mpr hnodup)).2,
      fun q hq => hperm.subset (List.mem_cons_of_mem op hq)⟩
  · exact ⟨hnodup, List.Subset.refl _⟩

/-- A primitive with its move constructor. The waiters go to the new object. -/
structure Movable (P : Primitive ι) where
  moveConstruct : P.State → P.State × P.State
  moved_queued : ∀ s, P.queued (moveConstruct s).1 = P.queued s
  left_queued : ∀ s, P.queued (moveConstruct s).2 = []

/-- The move constructor of each kind. -/
def Kind.movable : (kind : Kind) → Movable (kind.primitive ι)
  | mutex => ⟨MutexImpl.moveConstruct, fun _ => rfl, fun _ => rfl⟩
  | sharedMutex => ⟨SharedMutexImpl.moveConstruct, fun _ => rfl, fun _ => rfl⟩
  | semaphore => ⟨SemaphoreImpl.moveConstruct, fun _ => rfl, fun _ => rfl⟩
  | conditionVariable => ⟨ConditionVariableImpl.moveConstruct, fun _ => rfl, fun _ => rfl⟩
  | barrier => ⟨BarrierImpl.moveConstruct, fun _ => rfl, fun _ => rfl⟩

/-! ## Slots and what their handlers capture -/

variable {A : Type v} [DecidableEq A]

/-- What the lambda of an initiation captures: `model` and `&impl`. -/
structure Handler (ι : Type u) (A : Type v) where
  model : Op ι
  impl : A

/-- The handlers that are installed. -/
abbrev Slots (ι : Type u) (A : Type v) := Nat → Option (Handler ι A)

namespace Slots

variable {slots : Slots ι A} {op q : Op ι} {h : Handler ι A} {a : A}

/-- The handler of an op, unless the slot of the op holds another one. -/
def handler (slots : Slots ι A) (op : Op ι) : Option (Handler ι A) :=
  op.slot.bind fun k => (slots k).filter fun h => h.model = op

/-- `slot.assign`, when the slot of the op is connected. -/
def assign (slots : Slots ι A) (op : Op ι) (impl : A) : Slots ι A :=
  match op.slot with
  | some k => Function.update slots k (some ⟨op, impl⟩)
  | none => slots

/-- `slot.clear()`, when the slot of the op is connected. -/
def clear (slots : Slots ι A) (op : Op ι) : Slots ι A :=
  match op.slot with
  | some k => Function.update slots k none
  | none => slots

/-- `slot.clear()` of these ops, one after the other. -/
def clearAll (slots : Slots ι A) (ops : List (Op ι)) : Slots ι A := ops.foldl clear slots

omit [DecidableEq A] in
/-- The handler of an op is in its slot. -/
theorem handler_iff : slots.handler op = some h ↔
    ∃ k, op.slot = some k ∧ slots k = some h ∧ h.model = op := by
  simp [handler, Option.bind_eq_some_iff, Option.filter_eq_some_iff]

omit [DecidableEq A] in
/-- Clearing a slot installs nothing. -/
theorem handler_of_clear (hq : (slots.clear op).handler q = some h) :
    slots.handler q = some h := by
  obtain ⟨k, hslot, hk, hmodel⟩ := handler_iff.mp hq
  refine handler_iff.mpr ⟨k, hslot, ?_, hmodel⟩
  cases hop : op.slot with
  | none => simpa only [clear, hop] using hk
  | some j =>
      simp only [clear, hop] at hk
      by_cases hkj : k = j
      · subst hkj
        simp at hk
      · rwa [Function.update_of_ne hkj] at hk

omit [DecidableEq A] in
/-- Nor does clearing several. -/
theorem handler_of_clearAll {ops : List (Op ι)} (hq : (slots.clearAll ops).handler q = some h) :
    slots.handler q = some h := by
  induction ops generalizing slots with
  | nil => exact hq
  | cons op ops ih => exact handler_of_clear (ih hq)

omit [DecidableEq A] in
/-- Assigning a slot installs the handler of one op. -/
theorem handler_of_assign (hq : (slots.assign op a).handler q = some h) :
    slots.handler q = some h ∨ (q = op ∧ h = ⟨op, a⟩) := by
  obtain ⟨k, hslot, hk, hmodel⟩ := handler_iff.mp hq
  cases hop : op.slot with
  | none =>
      simp only [assign, hop] at hk
      exact Or.inl (handler_iff.mpr ⟨k, hslot, hk, hmodel⟩)
  | some j =>
      simp only [assign, hop] at hk
      by_cases hkj : k = j
      · subst hkj
        rw [Function.update_self] at hk
        obtain rfl := Option.some.inj hk
        exact Or.inr ⟨hmodel.symm, rfl⟩
      · rw [Function.update_of_ne hkj] at hk
        exact Or.inl (handler_iff.mpr ⟨k, hslot, hk, hmodel⟩)

end Slots

/-! ## Pools -/

/-- The live objects by their addresses, the installed handlers and the requests made so far. -/
structure Pool (P : Primitive ι) (A : Type v) where
  objects : A → Option P.State
  slots : Slots ι A
  initiated : List (Op ι)

namespace Pool

variable {P : Primitive ι}

/-- The steps of a run. `create` is a constructor that leaves the object in this state; `emit` is a
signal for a slot, with a type other than `none`. -/
inductive Label (P : Primitive ι) (A : Type v) where
  | create (a : A) (s : P.State)
  | call (a : A) (c : P.Call)
  | emit (k : Nat)
  | move (this mi : A)
  | destroy (a : A)

/-- There are no objects yet. -/
def init (P : Primitive ι) (A : Type v) : Pool P A := ⟨fun _ => none, fun _ => none, []⟩

/-- An object changes its state, or comes to life. -/
def set (p : Pool P A) (a : A) (s : P.State) : Pool P A :=
  { p with objects := Function.update p.objects a (some s) }

/-- A call on the object at `a`, which is in state `s`. -/
def call (p : Pool P A) (a : A) (s : P.State) (c : P.Call) : Pool P A :=
  let r := P.call s c
  let slots := p.slots.clearAll r.completed
  { p.set a r.state with
    slots :=
      match P.request c with
      | some op => if r.outcome = .queued then slots.assign op a else slots
      | none => slots
    initiated := p.initiated ++ (P.request c).toList }

/-- A cancellation handler, once it has the lock: the op is unlinked from the list that it is in. -/
def cancel (p : Pool P A) (op : Op ι) : Pool P A :=
  { p with
    objects := fun a => (p.objects a).map (P.unlinkFrom op)
    slots := p.slots.clear op }

/-- A destructor shuts the waiters down. -/
def destroy (p : Pool P A) (a : A) (s : P.State) : Pool P A :=
  { p with objects := Function.update p.objects a none, slots := p.slots.clearAll (P.queued s) }

/-- One step. New objects have no waiters and take addresses that are free, requests are new, and
only a handler that refers to a live object can lock its `mtx_`. -/
def step (M : Movable P) (p : Pool P A) : Label P A → Option (Pool P A)
  | .create a s => if p.objects a = none ∧ P.queued s = [] then some (p.set a s) else none
  | .call a c =>
      match p.objects a with
      | some s => if ∀ op ∈ P.request c, op ∉ p.initiated then some (p.call a s c) else none
      | none => none
  | .emit k =>
      match p.slots k with
      -- locking the `mtx_` of a destroyed object is undefined
      | some h => if (p.objects h.impl).isSome then some (p.cancel h.model) else none
      | none => none
  | .move this mi =>
      match p.objects mi with
      | some s =>
          if p.objects this = none then
            some ((p.set mi (M.moveConstruct s).2).set this (M.moveConstruct s).1)
          else none
      | none => none
  | .destroy a => (p.objects a).map (p.destroy a)

/-- The handler of every queued op refers to a live object, and to the one that the op waits on. -/
def Follows (p : Pool P A) : Prop :=
  ∀ a s op h, p.objects a = some s → op ∈ P.queued s → p.slots.handler op = some h →
    ∃ t, p.objects h.impl = some t ∧ op ∈ P.queued t

/-- The step does not move an object that an op with a cancellation handler waits on. -/
def Unmoved (p : Pool P A) (l : Label P A) : Prop :=
  ∀ this mi s, l = .move this mi → p.objects mi = some s →
    ∀ op ∈ P.queued s, p.slots.handler op = none

/-- Nothing is queued or has a handler without a request, and handlers refer to the object that
their op waits on. -/
structure Inv (p : Pool P A) : Prop where
  nodup : ∀ a s, p.objects a = some s → (P.queued s).Nodup
  requested : ∀ a s, p.objects a = some s → ∀ op ∈ P.queued s, op ∈ p.initiated
  installed : ∀ op h, p.slots.handler op = some h → op ∈ p.initiated
  home : ∀ a s op h, p.objects a = some s → op ∈ P.queued s → p.slots.handler op = some h →
    h.impl = a

/-- Which objects are live after one of them changed its state. -/
theorem object_cases {objects : A → Option P.State} {a b : A} {s t : P.State}
    (h : Function.update objects a (some s) b = some t) :
    (b = a ∧ s = t) ∨ objects b = some t := by
  by_cases hba : b = a
  · subst hba
    rw [Function.update_self] at h
    exact Or.inl ⟨rfl, Option.some.inj h⟩
  · rw [Function.update_of_ne hba] at h
    exact Or.inr h

/-- Which handlers are installed after a call. -/
theorem call_handler {p : Pool P A} {a : A} {s : P.State} {c : P.Call} {op : Op ι}
    {h : Handler ι A} (hop : (p.call a s c).slots.handler op = some h) :
    p.slots.handler op = some h ∨ (P.request c = some op ∧ h = ⟨op, a⟩) := by
  simp only [call] at hop
  split at hop
  · rename_i q hreq
    split at hop
    · rcases Slots.handler_of_assign hop with hold | ⟨rfl, rfl⟩
      · exact Or.inl (Slots.handler_of_clearAll hold)
      · exact Or.inr ⟨hreq, rfl⟩
    · exact Or.inl (Slots.handler_of_clearAll hop)
  · exact Or.inl (Slots.handler_of_clearAll hop)

namespace Inv

variable {p p' : Pool P A} {a : A} {s : P.State}

omit [DecidableEq A] in
/-- There are no objects yet. -/
theorem init : (Pool.init P A).Inv := by
  refine ⟨nofun, nofun, fun op h hop => ?_, nofun⟩
  obtain ⟨k, -, hk, -⟩ := Slots.handler_iff.mp hop
  cases hk

/-- One object changes its state, and the ops on the other ones get no new handlers. -/
theorem put (h : p.Inv) {slots : Slots ι A} {initiated : List (Op ι)}
    (hnodup : (P.queued s).Nodup) (hrequested : ∀ op ∈ P.queued s, op ∈ initiated)
    (hmore : p.initiated ⊆ initiated)
    (hinstalled : ∀ op k, slots.handler op = some k → op ∈ initiated)
    (hown : ∀ op k, op ∈ P.queued s → slots.handler op = some k → k.impl = a)
    (hothers : ∀ op k, op ∈ p.initiated → slots.handler op = some k →
      p.slots.handler op = some k) :
    Inv (⟨Function.update p.objects a (some s), slots, initiated⟩ : Pool P A) := by
  refine ⟨fun b t hb => ?_, fun b t hb op hop => ?_, hinstalled, fun b t op k hb hop hk => ?_⟩
  · rcases object_cases hb with ⟨rfl, rfl⟩ | hb
    · exact hnodup
    · exact h.nodup b t hb
  · rcases object_cases hb with ⟨rfl, rfl⟩ | hb
    · exact hrequested op hop
    · exact hmore (h.requested b t hb op hop)
  · rcases object_cases hb with ⟨rfl, rfl⟩ | hb
    · exact hown op k hop hk
    · exact h.home b t op k hb hop (hothers op k (h.requested b t hb op hop) hk)

/-- An object without waiters takes this address. -/
theorem set (h : p.Inv) (hempty : P.queued s = []) : (p.set a s).Inv :=
  h.put (by simp [hempty]) (by simp [hempty]) (List.Subset.refl _) h.installed (by simp [hempty])
    fun _ _ _ hk => hk

/-- A call with a new request. -/
theorem call {c : P.Call} (h : p.Inv) (ha : p.objects a = some s)
    (hfresh : ∀ op ∈ P.request c, op ∉ p.initiated) : (p.call a s c).Inv := by
  -- a new request waits nowhere yet, and no slot holds a handler of it
  have hnew : ∀ op ∈ P.request c, op ∉ P.queued s := fun op hop hmem =>
    hfresh op hop (h.requested a s ha op hmem)
  have heffect := P.effect s c (h.nodup a s ha) hnew
  have hleft : ∀ q, q ∈ P.queued (P.call s c).state ↔
      (q ∈ P.queued s ∧ q ∉ (P.call s c).completed) ∨
        (P.request c = some q ∧ (P.call s c).outcome = .queued) :=
    fun q => heffect.mem_left (h.nodup a s ha) hnew
  have hnodup : (P.queued (P.call s c).state).Nodup := by
    have hall : (P.queued s ++ (P.request c).toList).Nodup := by
      refine List.nodup_append.mpr ⟨h.nodup a s ha, ?_, fun op hop q hq heq => ?_⟩
      · cases P.request c <;> simp
      · exact hnew q (Option.mem_toList.mp hq) (heq ▸ hop)
    exact List.Nodup.of_append_right ((heffect.perm hnew).nodup_iff.mpr hall)
  have hrequest : ∀ op, P.request c = some op → op ∈ p.initiated ++ (P.request c).toList :=
    fun op hop => List.mem_append_right _ (Option.mem_toList.mpr hop)
  refine h.put hnodup (fun op hop => ?_) (List.subset_append_left ..) (fun op k hk => ?_)
    (fun op k hop hk => ?_) fun op k hop hk => ?_
  · rcases (hleft op).mp hop with ⟨hold, -⟩ | ⟨hreq, -⟩
    · exact List.mem_append_left _ (h.requested a s ha op hold)
    · exact hrequest op hreq
  · rcases call_handler hk with hold | ⟨hreq, -⟩
    · exact List.mem_append_left _ (h.installed op k hold)
    · exact hrequest op hreq
  · rcases call_handler hk with hold | ⟨-, rfl⟩
    · rcases (hleft op).mp hop with ⟨hmem, -⟩ | ⟨hreq, -⟩
      · exact h.home a s op k ha hmem hold
      · exact absurd (h.installed op k hold) (hfresh op hreq)
    · rfl
  · rcases call_handler hk with hold | ⟨hreq, -⟩
    · exact hold
    · exact absurd hop (hfresh op hreq)

omit [DecidableEq A] in
/-- A cancellation. -/
theorem cancel (h : p.Inv) (op : Op ι) : (p.cancel op).Inv := by
  have hunlink : ∀ a t, (p.cancel op).objects a = some t →
      ∃ s, p.objects a = some s ∧ (P.queued t).Nodup ∧ P.queued t ⊆ P.queued s := by
    intro a t ht
    obtain ⟨s, hs, rfl⟩ := Option.map_eq_some_iff.mp ht
    exact ⟨s, hs, P.unlinkFrom_queued (h.nodup a s hs)⟩
  refine ⟨fun a t ht => ?_, fun a t ht q hq => ?_, fun q k hk => ?_, fun a t q k ht hq hk => ?_⟩
  · obtain ⟨s, -, hnodup, -⟩ := hunlink a t ht
    exact hnodup
  · obtain ⟨s, hs, -, hsub⟩ := hunlink a t ht
    exact h.requested a s hs q (hsub hq)
  · exact h.installed q k (Slots.handler_of_clear hk)
  · obtain ⟨s, hs, -, hsub⟩ := hunlink a t ht
    exact h.home a s q k hs (hsub hq) (Slots.handler_of_clear hk)

/-- A destruction. -/
theorem destroy (h : p.Inv) (a : A) (s : P.State) : (p.destroy a s).Inv := by
  have hlive : ∀ b t, (p.destroy a s).objects b = some t → p.objects b = some t := by
    intro b t hb
    simp only [Pool.destroy] at hb
    by_cases hba : b = a
    · subst hba
      simp at hb
    · rwa [Function.update_of_ne hba] at hb
  exact ⟨fun b t hb => h.nodup b t (hlive b t hb),
    fun b t hb => h.requested b t (hlive b t hb),
    fun op k hk => h.installed op k (Slots.handler_of_clearAll hk),
    fun b t op k hb hop hk =>
      h.home b t op k (hlive b t hb) hop (Slots.handler_of_clearAll hk)⟩

/-- A move construction from an object on which nobody waits who could be cancelled. -/
theorem move (M : Movable P) {this mi : A} (h : p.Inv) (hmi : p.objects mi = some s)
    (hnone : ∀ op ∈ P.queued s, p.slots.handler op = none) :
    ((p.set mi (M.moveConstruct s).2).set this (M.moveConstruct s).1).Inv := by
  -- first the source is left without waiters, then the new object takes them
  have hleft : (p.set mi (M.moveConstruct s).2).Inv := h.set (M.left_queued s)
  refine hleft.put ?_ ?_ (List.Subset.refl _) hleft.installed (fun op k hop hk => ?_)
    fun _ _ _ hk => hk
  · rw [M.moved_queued]
    exact h.nodup mi s hmi
  · rw [M.moved_queued]
    exact h.requested mi s hmi
  · rw [M.moved_queued] at hop
    cases (hnone op hop).symm.trans hk

/-- **Every step keeps the handlers at home**, but for a move of an object that an op with a handler
waits on. -/
theorem step {M : Movable P} {l : Label P A} (h : p.Inv) (hunmoved : p.Unmoved l)
    (hstep : Pool.step M p l = some p') : p'.Inv := by
  cases l with
  | create a s =>
      obtain ⟨⟨-, hempty⟩, hnext⟩ := guard_iff.mp hstep
      exact hnext ▸ h.set hempty
  | call a c =>
      simp only [Pool.step] at hstep
      split at hstep
      · rename_i s ha
        obtain ⟨hfresh, hnext⟩ := guard_iff.mp hstep
        exact hnext ▸ h.call ha hfresh
      · cases hstep
  | emit k =>
      simp only [Pool.step] at hstep
      split at hstep
      · obtain ⟨-, hnext⟩ := guard_iff.mp hstep
        exact hnext ▸ h.cancel _
      · cases hstep
  | move this mi =>
      simp only [Pool.step] at hstep
      split at hstep
      · rename_i s hmi
        obtain ⟨-, hnext⟩ := guard_iff.mp hstep
        exact hnext ▸ h.move M hmi (hunmoved this mi s rfl hmi)
      · cases hstep
  | destroy a =>
      obtain ⟨s, -, hnext⟩ := Option.map_eq_some_iff.mp hstep
      exact hnext ▸ h.destroy a s

omit [DecidableEq A] in
/-- A handler that refers to the object that its op waits on refers to a live one. -/
theorem follows (h : p.Inv) : p.Follows := by
  intro a s op k ha hop hk
  obtain rfl := h.home a s op k ha hop hk
  exact ⟨s, ha, hop⟩

/-- A handler stays behind when its op is moved. -/
theorem stays {M : Movable P} {l : Label P A} (h : p.Inv) (hmoved : ¬ p.Unmoved l)
    (hstep : Pool.step M p l = some p') : ¬ p'.Follows := by
  unfold Unmoved at hmoved
  push Not at hmoved
  obtain ⟨this, mi, s, rfl, hmi, op, hop, hhandler⟩ := hmoved
  obtain ⟨k, hk⟩ := Option.ne_none_iff_exists'.mp hhandler
  obtain rfl := h.home mi s op k hmi hop hk
  simp only [Pool.step, hmi] at hstep
  obtain ⟨hnew, rfl⟩ := guard_iff.mp hstep
  have hne : k.impl ≠ this := by
    rintro rfl
    cases hnew.symm.trans hmi
  intro hfollows
  obtain ⟨t, ht, hmem⟩ := hfollows this (M.moveConstruct s).1 op k
    (Function.update_self ..) (by rwa [M.moved_queued]) hk
  -- the object that the handler refers to has no waiters any more
  have hleft : (M.moveConstruct s).2 = t := by
    simpa [Pool.set, Function.update_of_ne hne] using ht
  rw [← hleft, M.left_queued] at hmem
  cases hmem

end Inv

end Pool

/-- **Cancellation follows a primitive exactly when it is not moved with a cancellable op.** In
every run of constructions, calls, cancellations, move constructions and destructions over a pool of
primitives of one kind: in all states of the run the handler of every queued op refers to a live
object, and to the one whose waiter list holds the op, if and only if no object is moved while an
op with an installed handler waits on it. -/
theorem Pool.follows_iff_unmoved (kind : Kind) (ls : List (Pool.Label (kind.primitive ι) A)) :
    (∀ p, Visits (Pool.step kind.movable) (Pool.init (kind.primitive ι) A) ls p → p.Follows) ↔
      ∀ p l, Takes (Pool.step kind.movable) (Pool.init (kind.primitive ι) A) ls p l →
        p.Unmoved l :=
  visits_iff_takes (I := Pool.Inv) (C := Pool.Unmoved)
    (fun _ _ _ h hunmoved hstep => h.step hunmoved hstep) (fun _ h => h.follows)
    (fun _ _ _ h hmoved hstep => h.stays hmoved hstep) Pool.Inv.init ls

/-- A mutex is moved while an op with a slot waits on it, and destroyed: the op waits on the new
object, and its handler refers to the destroyed one. -/
theorem Pool.handler_dangles :
    ∃ p : Pool (Kind.primitive Nat .mutex) Nat,
      run (Pool.step Kind.mutex.movable) (Pool.init (Kind.primitive Nat .mutex) Nat)
        [.create 0 (.init true), .call 0 .tryLock, .call 0 (.asyncLock 7 (some 3)), .move 1 0,
          .destroy 0] = some p ∧
      (p.objects 1).map (Kind.primitive Nat .mutex).queued = some [.async 7 (some 3)] ∧
      (p.slots.handler (.async 7 (some 3))).map Handler.impl = some 0 ∧ p.objects 0 = none ∧
      ¬ p.Follows := by
  refine ⟨_, rfl, rfl, rfl, rfl, fun hfollows => ?_⟩
  obtain ⟨t, ht, -⟩ := hfollows 1 _ (.async 7 (some 3)) ⟨_, 0⟩ rfl (by decide) rfl
  cases ht

end Sam
