import Sam.Detail.MoveAssignment
import Sam.Library.Transition
import Sam.Service.Shutdown

/-!
# The members of several services

Members of `service_member` are constructed for one of several execution contexts, move constructed,
move assigned and destroyed. `Consistent` says that the service pointer of every member names the
ring the member is in. The move assignment between two services does not keep it: it writes
`sm.service = service`, so that `sm` names the service of `this` and stays in the ring of its own,
and `this` registers again where it was. `registry_iff` says that nothing else goes wrong.
-/

namespace Sam.Registry

open Links

universe u

/-- The pointers, and the members that are not destroyed. -/
structure State (α : Type u) where
  memory : Memory α
  live : List α

/-- Before anything is registered every node is alone. -/
def State.start (α : Type u) : State α := ⟨⟨⟨id, id⟩, fun _ => none, []⟩, []⟩

/-- The special member functions that run, with the objects they run on. -/
inductive Action (α : Type u) where
  | construct (this context : α)
  | moveConstruct (this sm : α)
  | moveAssign (this sm : α)
  | destroy (this : α)
  deriving DecidableEq, Repr

section Model

variable {α : Type u} [DecidableEq α]

/-- `this` is the address of no object yet. -/
def State.Fresh (contexts : List α) (s : State α) (this : α) : Prop :=
  this ∉ s.live ∧ this ∉ contexts

instance (contexts : List α) (s : State α) (this : α) : Decidable (s.Fresh contexts this) :=
  inferInstanceAs (Decidable (_ ∧ _))

/-- One special member function. A context is named by the list of its service. -/
def step (contexts : List α) (s : State α) : Action α → Option (State α)
  | .construct this context =>
      if s.Fresh contexts this ∧ context ∈ contexts then
        some ⟨s.memory.constructMember this context, s.live ++ [this]⟩
      else none
  | .moveConstruct this sm =>
      if s.Fresh contexts this ∧ sm ∈ s.live then
        (s.memory.moveConstructMember this sm).map (⟨·, s.live ++ [this]⟩)
      else none
  | .moveAssign this sm =>
      if this ∈ s.live ∧ sm ∈ s.live then
        (s.memory.moveAssignMember this sm).map (⟨·, s.live⟩)
      else none
  | .destroy this =>
      if this ∈ s.live then some ⟨s.memory.destroyMember this, s.live.erase this⟩ else none

end Model

section Specification

variable {α : Type u}

/-- Every live member is in the ring of the service its pointer names, once, and in no other one. -/
structure Registered (contexts : List α) (s : State α) (members : α → List α) : Prop where
  rings : Rings s.memory.links (Rings.family contexts members)
  mem : ∀ context ∈ contexts, ∀ x,
    x ∈ members context ↔ x ∈ s.live ∧ s.memory.service x = some context
  named : ∀ x ∈ s.live, ∃ context ∈ contexts, s.memory.service x = some context
  live_nodup : s.live.Nodup

/-- The registry of the services is consistent. -/
def Consistent (contexts : List α) (s : State α) : Prop := ∃ members, Registered contexts s members

variable [DecidableEq α]

/-- Shutting the context down calls `shutdown()` on `x`, when the handlers that this destroys own no
members. -/
def Reaches (s : State α) (context x : α) : Prop :=
  ∃ ms, s.memory.Holds context ms ∧ ∀ e ∉ context :: ms, ∀ fuel, ms.length < fuel →
    ∃ s', Service.shutdown (fun _ => ([] : List α)) (fun _ => []) fuel ⟨s.memory, ms, []⟩ context
      e = .ok s' ∧ x ∈ s'.visited

/-- After `x = std::move(y)`, which led from `s` to `t`, the member `x` is registered with the
service that `y` was registered with. -/
def Follows (s t : State α) (x y : α) : Prop :=
  t.memory.service x = s.memory.service y ∧
    ∀ context, s.memory.service y = some context → Reaches t context x

/-- All that is asked of a run. -/
structure Sound (contexts : List α) (actions : List (Action α)) : Prop where
  consistent : ∀ t, Transition.Visits (step contexts) (State.start α) actions t →
    Consistent contexts t
  follows : ∀ s x y t,
    Transition.Takes (step contexts) (State.start α) actions s (.moveAssign x y) →
    step contexts s (.moveAssign x y) = some t → Follows s t x y

/-- A move assignment is between two members of one service. -/
def SameService (s : State α) : Action α → Prop
  | .moveAssign this sm => s.memory.service sm = s.memory.service this
  | _ => True

end Specification

variable {α : Type u} {contexts : List α} {s t : State α} {members : α → List α} {this sm x : α}
  {context : α}

/-! ## Steps that keep the registry consistent -/

/-- Nothing is registered at the start. -/
theorem consistent_start (hcontexts : contexts.Nodup) : Consistent contexts (State.start α) := by
  have hnodes : nodes (Rings.family contexts fun _ => []) = contexts := by
    simp [nodes, Rings.family, List.flatMap_map]
  refine ⟨fun _ => [], ⟨hnodes.symm ▸ hcontexts, fun ring hring => ?_⟩, ?_, ?_, List.nodup_nil⟩
  · obtain ⟨root, -, rfl⟩ := List.mem_map.mp hring
    exact IsRing.nil_iff.mpr ⟨rfl, rfl⟩
  · intro context _ x
    simp [State.start]
  · intro x hx
    simp [State.start] at hx

variable [DecidableEq α]

namespace Registered

omit [DecidableEq α] in
/-- A new object is no node of the rings. -/
theorem not_mem_nodes (h : Registered contexts s members) (hthis : s.Fresh contexts this) :
    this ∉ nodes (Rings.family contexts members) := by
  rw [Rings.mem_nodes_family]
  rintro (hroot | ⟨context, hcontext, hmem⟩)
  · exact hthis.2 hroot
  · exact hthis.1 ((h.mem context hcontext this).mp hmem).1

/-- The ring of one service, and those of the others. -/
theorem split (h : Registered contexts s members) (hcontexts : contexts.Nodup)
    (hcontext : context ∈ contexts) : Rings s.memory.links
      ((context, members context) :: Rings.family (contexts.erase context) members) :=
  h.rings.perm (Rings.family_perm hcontexts hcontext)

/-- **A new member** registers with one of the services. -/
theorem construct (h : Registered contexts s members) (hcontexts : contexts.Nodup)
    (hthis : s.Fresh contexts this) (hcontext : context ∈ contexts) :
    Consistent contexts ⟨s.memory.constructMember this context, s.live ++ [this]⟩ := by
  have hrings := h.split hcontexts hcontext
  have hnew : this ∉ nodes ((context, members context) ::
      Rings.family (contexts.erase context) members) := by
    rw [← mem_nodes_perm (Rings.family_perm hcontexts hcontext)]
    exact h.not_mem_nodes hthis
  refine ⟨Function.update members context (members context ++ [this]), ?_, ?_, ?_, ?_⟩
  · exact (Memory.constructMember_rings hrings hnew).perm
      (Rings.family_update hcontexts hcontext _).symm
  · intro c hc x
    have hmem := h.mem c hc x
    simp only [Memory.constructMember_service, List.mem_append, List.mem_singleton]
    by_cases hx : x = this
    · subst hx
      have hout : x ∉ members c := fun hx => hthis.1 (hmem.mp hx).1
      rw [Function.update_self, Option.some.injEq]
      by_cases hcc : c = context
      · subst hcc
        simp
      · rw [Function.update_of_ne hcc]
        exact iff_of_false hout fun hnamed => hcc hnamed.2.symm
    · rw [Function.update_of_ne hx, or_iff_left hx, ← hmem]
      by_cases hcc : c = context
      · subst hcc
        simp [hx]
      · rw [Function.update_of_ne hcc]
  · intro x hx
    by_cases hxt : x = this
    · exact ⟨context, hcontext, by rw [hxt]; exact Function.update_self ..⟩
    · have hlive : x ∈ s.live := by simpa [hxt] using hx
      obtain ⟨c, hc, hservice⟩ := h.named x hlive
      exact ⟨c, hc, (Function.update_of_ne hxt ..).trans hservice⟩
  · exact List.nodup_append.mpr ⟨h.live_nodup, List.nodup_singleton this,
      fun a ha b hb => List.mem_singleton.mp hb ▸ ne_of_mem_of_not_mem ha hthis.1⟩

/-- **A member that is destroyed** leaves the ring of its service. -/
theorem destroy (h : Registered contexts s members) (hcontexts : contexts.Nodup)
    (hthis : this ∈ s.live) :
    Consistent contexts ⟨s.memory.destroyMember this, s.live.erase this⟩ := by
  obtain ⟨context, hcontext, hservice⟩ := h.named this hthis
  have hmem : this ∈ members context := (h.mem context hcontext this).mpr ⟨hthis, hservice⟩
  obtain ⟨-, hrings⟩ :=
    Memory.destroyMember_rings (h.split hcontexts hcontext) hservice hmem
  have hkeep : (s.memory.destroyMember this).service = s.memory.service := by
    rw [Memory.destroyMember, hservice]
    rfl
  have hring := Rings.ring_of_family h.rings hcontext
  refine ⟨Function.update members context ((members context).erase this), ?_, ?_, ?_, ?_⟩
  · exact hrings.perm (Rings.family_update hcontexts hcontext _).symm
  · intro c hc x
    show _ ↔ x ∈ s.live.erase this ∧ (s.memory.destroyMember this).service x = some c
    rw [hkeep, h.live_nodup.mem_erase_iff, and_assoc, ← h.mem c hc x]
    by_cases hcc : c = context
    · subst hcc
      rw [Function.update_self, (List.nodup_cons.mp hring.nodup).2.mem_erase_iff]
    · rw [Function.update_of_ne hcc]
      refine (and_iff_right_of_imp fun hx he => hcc ?_).symm
      have hnamed := ((h.mem c hc x).mp hx).2
      rw [he, hservice] at hnamed
      exact (Option.some.inj hnamed).symm
  · intro x hx
    show ∃ c ∈ contexts, (s.memory.destroyMember this).service x = some c
    rw [hkeep]
    exact h.named x (List.mem_of_mem_erase hx)
  · exact h.live_nodup.erase this

end Registered

/-- **One step** keeps the registry consistent, a move assignment when the two members have the same
service. -/
theorem Consistent.step {action : Action α} (h : Consistent contexts s)
    (hcontexts : contexts.Nodup) (hsame : SameService s action)
    (hstep : Registry.step contexts s action = some t) : Consistent contexts t := by
  obtain ⟨members, h⟩ := h
  cases action with
  | construct this context =>
      obtain ⟨⟨hthis, hcontext⟩, rfl⟩ := Transition.guard_iff.mp hstep
      exact h.construct hcontexts hthis hcontext
  | moveConstruct this sm =>
      obtain ⟨⟨hthis, hsm⟩, hstep⟩ := Option.ite_none_right_eq_some.mp hstep
      obtain ⟨context, hcontext, hservice⟩ := h.named sm hsm
      rw [Memory.moveConstructMember_eq hservice] at hstep
      obtain rfl := Option.some.inj hstep
      exact h.construct hcontexts hthis hcontext
  | moveAssign this sm =>
      obtain ⟨-, hstep⟩ := Option.ite_none_right_eq_some.mp hstep
      have hnone : s.memory.moveAssignMember this sm = some s.memory :=
        if_neg (not_not.mpr hsame)
      rw [hnone] at hstep
      obtain rfl := Option.some.inj hstep
      exact ⟨members, h⟩
  | destroy this =>
      obtain ⟨hthis, rfl⟩ := Transition.guard_iff.mp hstep
      exact h.destroy hcontexts hthis

/-! ## Assignments between two services -/

/-- Which service the members point at after an assignment between two services. -/
theorem moveAssignMember_service {m m' : Memory α} (hne : m.service sm ≠ m.service this)
    (hassign : m.moveAssignMember this sm = some m') :
    m'.service = Function.update m.service sm (m.service this) := by
  rw [Memory.moveAssignMember, if_pos hne] at hassign
  obtain ⟨entries, hservice, rfl⟩ := Option.map_eq_some_iff.mp hassign
  rw [hservice]
  rfl

/-- **An assignment between two services** leaves `sm` in the ring of its service, and its pointer
names the service of `this`. -/
theorem Registered.drifts {m : Memory α} (h : Registered contexts s members)
    (hcontexts : contexts.Nodup) (hthis : this ∈ s.live) (hsm : sm ∈ s.live)
    (hne : s.memory.service sm ≠ s.memory.service this)
    (hassign : s.memory.moveAssignMember this sm = some m) : ¬ Consistent contexts ⟨m, s.live⟩ := by
  obtain ⟨a, ha, hservice⟩ := h.named this hthis
  obtain ⟨b, hb, hservice'⟩ := h.named sm hsm
  have hab : b ≠ a := by
    rintro rfl
    exact hne (hservice'.trans hservice.symm)
  have hmem : this ∈ members a := (h.mem a ha this).mpr ⟨hthis, hservice⟩
  have hmem' : sm ∈ members b := (h.mem b hb sm).mpr ⟨hsm, hservice'⟩
  -- the rings of the other services are the same as before
  obtain ⟨m', hassign', -, hothers⟩ :=
    Memory.moveAssignMember_rings (h.split hcontexts ha) hservice hmem sm
  obtain rfl : m = m' := Option.some.inj (hassign.symm.trans hassign')
  have hring : IsRing m.links b (members b) :=
    Rings.ring_of_family hothers ((List.mem_erase_of_ne hab).mpr hb)
  rintro ⟨members', h'⟩
  have hsame : members' b = members b := IsRing.unique (Rings.ring_of_family h'.rings hb) hring
  have hnamed : m.service sm = some b := ((h'.mem b hb sm).mp (hsame ▸ hmem')).2
  rw [moveAssignMember_service hne hassign, Function.update_self, hservice] at hnamed
  exact hab (Option.some.inj hnamed).symm

/-- **A member is reached** by the shutdown of the context that its pointer names. -/
theorem Registered.reaches (h : Registered contexts s members) (hx : x ∈ s.live)
    (hservice : s.memory.service x = some context) : Reaches s context x := by
  have hcontext : context ∈ contexts := by
    obtain ⟨c, hc, hnamed⟩ := h.named x hx
    rwa [Option.some.inj (hservice.symm.trans hnamed)]
  have hmem : x ∈ members context := (h.mem context hcontext x).mpr ⟨hx, hservice⟩
  have hring := Rings.ring_of_family h.rings hcontext
  refine ⟨members context, hring, fun e he fuel hfuel => ?_⟩
  have hvisits : ∃ s', Service.shutdown (fun _ => ([] : List α)) (fun _ => []) fuel
      ⟨s.memory, members context, []⟩ context e = .ok s' ∧ s'.visited = members context :=
    Service.shutdown_visits hring he (fun m hm => ((h.mem context hcontext m).mp hm).2) rfl rfl
      hfuel fun _ => rfl
  obtain ⟨s', hok, hvisited⟩ := hvisits
  exact ⟨s', hok, hvisited ▸ hmem⟩

/-! ## Whole runs -/

/-- **The registry over whole runs.** It is consistent in every state, and every member that is
assigned to follows its source, exactly when all move assignments are between two members of one
service. -/
theorem registry_iff (hcontexts : contexts.Nodup) (actions : List (Action α)) :
    Sound contexts actions ↔
      ∀ s action, Transition.Takes (step contexts) (State.start α) actions s action →
        SameService s action := by
  have hbreak : ∀ s action t, Consistent contexts s → ¬ SameService s action →
      step contexts s action = some t → ¬ Consistent contexts t := by
    intro s action t h hne hstep
    cases action with
    | moveAssign this sm =>
        obtain ⟨members, h⟩ := h
        obtain ⟨⟨hthis, hsm⟩, m, hassign, rfl⟩ := Transition.guard_map_iff.mp hstep
        exact h.drifts hcontexts hthis hsm hne hassign
    | construct | moveConstruct | destroy => exact absurd trivial hne
  have hiff := Transition.visits_iff_takes (I := Consistent contexts) (P := Consistent contexts)
    (C := SameService) (fun s l t h hsame => h.step hcontexts hsame) (fun s h => h) hbreak
    (consistent_start hcontexts) actions
  constructor
  · intro hsound
    exact hiff.mp hsound.consistent
  · intro hsame
    have hconsistent := hiff.mpr hsame
    refine ⟨hconsistent, fun s x y t htakes hstep => ?_⟩
    have hxy : s.memory.service y = s.memory.service x := hsame s _ htakes
    obtain ⟨members, h⟩ := hconsistent t (htakes.visits_next hstep)
    obtain ⟨⟨hx, -⟩, hassign⟩ := Option.ite_none_right_eq_some.mp hstep
    rw [Memory.moveAssignMember, if_neg (not_not.mpr hxy)] at hassign
    obtain rfl := Option.some.inj hassign
    exact ⟨hxy.symm, fun context hservice => h.reaches hx (hxy.symm.trans hservice)⟩

/-- Members of the contexts `0` and `1`: one of them is assigned from another one of its context. -/
theorem registry_iff_two :
    Sound [0, 1] [.construct 2 0, .construct 3 0, .construct 4 1, .moveAssign 2 3, .destroy 3] ↔
      ∀ s action, Transition.Takes (step [0, 1]) (State.start Nat)
          [.construct 2 0, .construct 3 0, .construct 4 1, .moveAssign 2 3, .destroy 3] s action →
        SameService s action :=
  registry_iff (by decide) _

/-- The member `2` of the context `0` is assigned from the member `3` of the context `1`: it is not
registered with the context `1`, and the pointer of `3` names the context `0` although it is in the
list of `1`. -/
theorem assigned_across_contexts :
    (∃ t, Transition.run (step [0, 1]) (State.start Nat)
        [.construct 2 0, .construct 3 1, .moveAssign 2 3] = some t ∧
      t.memory.Holds 0 [2] ∧ t.memory.Holds 1 [3] ∧
      t.memory.service 2 = some 0 ∧ t.memory.service 3 = some 0) ∧
    ¬ Sound [0, 1] [.construct 2 0, .construct 3 1, .moveAssign 2 3] := by
  refine ⟨⟨_, rfl, by decide, by decide, rfl, rfl⟩, fun hsound => ?_⟩
  obtain ⟨members, h⟩ := hsound.consistent _ ⟨_, List.prefix_refl _, rfl⟩
  have hring : IsRing _ 1 (members 1) := Rings.ring_of_family h.rings (by decide)
  have hmembers : members 1 = [3] := IsRing.unique hring (by decide)
  have hservice := ((h.mem 1 (by decide) 3).mp (hmembers ▸ List.mem_singleton_self 3)).2
  exact absurd hservice (by decide)

end Sam.Registry
