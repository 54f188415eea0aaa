import Sam.Operation.Withdrawal

/-!
# The error code of a blocking call

A blocking call gets a reference to an `error_code` of its caller, which holds any value on entry.
Runs of calls, cancellations and shutdowns with these variables: a call that fails at once and the
op of a call that waited write theirs, a call that takes at once writes nothing. `without` is a
ghost: the primitive as the same steps leave it without one of the calls. `Tells` says that the
variable tells what became of the call, and `allTold_iff` on which runs it does. -/

namespace Sam.ErrorCodes

open Transition Withdrawal

universe u v

/-- The value of an `error_code`: a code of the library, or any other error. -/
inductive Code (ε : Type v) where
  | known (ec : ErrorCode)
  | foreign (e : ε)
  deriving DecidableEq, Repr

/-- `error_code{}`. -/
def Code.success {ε : Type v} : Code ε := .known .success

/-- Whether `lock(mtx, ec)` returns a non-empty `lock_guard`, by the value of `ec` when
`mtx.lock(ec)` has returned. -/
def Code.guards {ε : Type v} : Code ε → Bool
  | .known .success => true
  | _ => false

variable {ι : Type u} [DecidableEq ι] {ε : Type v}

/-- A primitive with its ops, the variable that each op refers to, the ops whose request was granted
and, for each op, the primitive without its call. -/
structure State (P : Primitive ι) (ε : Type v) where
  world : World P
  ec : Op ι → Code ε
  acquired : List (Op ι)
  without : Op ι → P.State

/-- The steps of a run. A blocking call comes with the value of its variable on entry. -/
inductive Label (P : Primitive ι) (ε : Type v) where
  | call (c : P.Call) (entry : Code ε)
  | cancel (op : Op ι)
  | shutdown

/-- Write the variables that these ops refer to. -/
def write (ec : Op ι → Code ε) (ops : List (Op ι)) (code : Code ε) : Op ι → Code ε :=
  fun op => if op ∈ ops then code else ec op

variable {P : Primitive ι}

/-- What a call writes itself: the error with which it fails. -/
def assign (ec : Op ι → Code ε) (own : List (Op ι)) : Outcome → Op ι → Code ε
  | .failed e => write ec own (.known e)
  | _ => ec

namespace State

/-- A new primitive. -/
def init (s : P.State) : State P ε := ⟨.init s, fun _ => .success, [], fun _ => s⟩

/-- A call: the ops that it completes write success. -/
def call (s : State P ε) (c : P.Call) (entry : Code ε) : State P ε :=
  let r := P.call s.world.impl c
  let own := (P.request c).toList
  { world := s.world.call c
    ec := assign (write (write s.ec own entry) r.completed .success) own r.outcome
    acquired := s.acquired ++ r.completed ++ if r.outcome = .granted then own else []
    without := fun op => if op ∈ own then s.world.impl else (P.call (s.without op) c).state }

/-- The cancellation handler of an op, which has a handler and no variable. -/
def cancel (s : State P ε) (op : Op ι) : State P ε :=
  { s with world := s.world.cancel op, without := fun q => P.unlink (s.without q) op }

/-- `shutdown()`: every op that waits writes `shut_down`. -/
def shutdown (s : State P ε) : State P ε :=
  { s with
    world := s.world.drain Op.shutDown (P.queued s.world.impl)
    ec := write s.ec (P.queued s.world.impl) (.known .shutDown)
    without := fun q => P.takeAll (s.without q) }

end State

/-- One step. Requests are new; only an op that waits and has a slot is cancelled. -/
def step (s : State P ε) : Label P ε → Option (State P ε)
  | .call c entry => if s.world.Fresh c then some (s.call c entry) else none
  | .cancel op =>
      if op ∈ P.queued s.world.impl ∧ op.slot ≠ none then some (s.cancel op) else none
  | .shutdown => some s.shutdown

/-- The variable tells whether the call acquired, and after an error the primitive is as if the call
had not been made. -/
structure Tells (s : State P ε) (op : Op ι) : Prop where
  success_iff : s.ec op = .success ↔ op ∈ s.acquired
  unmade : s.ec op ≠ .success → s.world.impl = s.without op
  guards_iff : (s.ec op).guards = true ↔ op ∈ s.acquired
  not_left_locked : (s.ec op).guards = false → s.world.impl = s.without op

/-- Every blocking call that has returned is told what became of it. -/
def AllTold (s : State P ε) : Prop :=
  ∀ op, op.Blocks → op ∈ s.world.initiated → op ∉ P.queued s.world.impl → Tells s op

omit [DecidableEq ι] in
/-- A guard is returned exactly on success. -/
theorem Code.guards_eq_true {code : Code ε} : code.guards = true ↔ code = .success := by
  cases code with
  | known e => cases e <;> simp [guards, success]
  | foreign e => simp [guards, success]

/-- What is said about the guard follows from what is said about the variable. -/
theorem Tells.of {s : State P ε} {op : Op ι} (hsuccess : s.ec op = .success ↔ op ∈ s.acquired)
    (hunmade : s.ec op ≠ .success → s.world.impl = s.without op) : Tells s op := by
  refine ⟨hsuccess, hunmade, Code.guards_eq_true.trans hsuccess, fun hempty => hunmade ?_⟩
  intro hclear
  rw [Code.guards_eq_true.mpr hclear] at hempty
  cases hempty

/-- The ways out of a blocking call with the op `op`, by what its section leaves and by whether the
variable of its caller is left alone. -/
inductive Way (s : P.State) (op : Op ι) (r : Result P.State (Op ι)) : Bool → Prop where
  /-- It takes at once. -/
  | taken (h : r.outcome = .granted) (hop : op ∉ r.completed) : Way s op r true
  /-- It takes at once, and completes its own op. -/
  | last (h : r.outcome = .granted) (hop : op ∈ r.completed) : Way s op r false
  /-- Single-threaded mode. -/
  | failed (h : r.outcome = .failed .inProgress) (hsame : r.state = s) : Way s op r false
  | queued (h : r.outcome = .queued) : Way s op r false

/-- What the codes of a primitive depend on. `untouched` are the calls that leave the variable of
their caller alone; `restored` says whether a shutdown takes a queued request back entirely. -/
structure Coded (P : Primitive ι) extends Retraction P where
  untouched : P.State → P.Call → Bool
  restored : Bool
  way : ∀ s c id, P.request c = some (.blocking id) → .blocking id ∉ P.queued s →
    Way s (.blocking id) (P.call s c) (untouched s c)
  untouched_blocks : ∀ s c, untouched s c = true → ∃ id, P.request c = some (.blocking id)
  restored_iff : ∀ s op, P.takeAll s = P.takeAll (retract s op) ↔ restored = true
  valid_takeAll : ∀ s, Valid s → Valid (P.takeAll s)

variable (K : Coded P)

/-- The step does not reach a code that is not written, or a request that is not taken back: a call
that leaves its variable alone finds it clear, and a shutdown that does not take requests back finds
no blocking call that waits. -/
def Clean (s : State P ε) : Label P ε → Prop
  | .call c entry => K.untouched s.world.impl c = true → entry = .success
  | .cancel _ => True
  | .shutdown => K.restored = true ∨ ∀ op ∈ P.queued s.world.impl, op.Async

/-- What every clean step keeps. -/
structure Inv (s : State P ε) : Prop where
  world : s.world.Inv
  valid : K.Valid s.world.impl
  acquired : ∀ op ∈ s.acquired, op ∈ s.world.initiated ∧ op ∉ P.queued s.world.impl
  waiting : ∀ op ∈ P.queued s.world.impl, op.Blocks → s.without op = K.retract s.world.impl op
  told : AllTold s

variable {K} {s t : State P ε} {l : Label P ε} {c : P.Call} {op : Op ι} {entry : Code ε}

/-! ## Calls -/

section Call

/-- What the op of a call that does not wait finds in its variable. -/
theorem call_ec_own (s : State P ε) (entry : Code ε) (hreq : P.request c = some op) :
    (s.call c entry).ec op =
    match (P.call s.world.impl c).outcome with
    | .failed e => .known e
    | _ => if op ∈ (P.call s.world.impl c).completed then .success else entry := by
  simp only [State.call, hreq]
  cases (P.call s.world.impl c).outcome <;> simp [assign, write]

/-- What another op finds in its variable. -/
theorem call_ec_other (s : State P ε) (entry : Code ε) (hreq : P.request c ≠ some op) :
    (s.call c entry).ec op =
    if op ∈ (P.call s.world.impl c).completed then .success else s.ec op := by
  have hown : op ∉ (P.request c).toList := fun hmem => hreq (Option.mem_toList.mp hmem)
  simp only [State.call]
  cases (P.call s.world.impl c).outcome <;> simp [assign, write, hown]

/-- Who has acquired after a call. -/
theorem mem_call_acquired : op ∈ (s.call c entry).acquired ↔ op ∈ s.acquired ∨
    op ∈ (P.call s.world.impl c).completed ∨
      ((P.call s.world.impl c).outcome = .granted ∧ P.request c = some op) := by
  simp only [State.call, List.mem_append, or_assoc]
  split <;> simp_all

/-- Who waits after a call. -/
theorem mem_call_queued (h : Inv K s) (hfresh : s.world.Fresh c) :
    op ∈ P.queued (s.world.call c).impl ↔
      (op ∈ P.queued s.world.impl ∧ op ∉ (P.call s.world.impl c).completed) ∨
        (P.request c = some op ∧ (P.call s.world.impl c).outcome = .queued) := by
  obtain ⟨hnodup, hnew, heffect⟩ := World.effect h.world.append_nil hfresh
  exact heffect.mem_left hnodup hnew

/-- Who is known after a call. -/
theorem mem_call_initiated :
    op ∈ (s.world.call c).initiated ↔ op ∈ s.world.initiated ∨ P.request c = some op := by
  rw [World.call_eq.2.1, List.mem_append, Option.mem_toList]

/-- The primitive without the call that is made. -/
theorem call_without_own (hreq : P.request c = some op) :
    (s.call c entry).without op = s.world.impl := by
  simp [State.call, hreq]

/-- The primitive without another call. -/
theorem call_without_other (hreq : P.request c ≠ some op) :
    (s.call c entry).without op = (P.call (s.without op) c).state :=
  if_neg fun hmem => hreq (Option.mem_toList.mp hmem)

/-- The op of a call that has returned is told: it is granted with success, or it fails and nothing
has changed. -/
theorem told_own (h : Inv K s) (hfresh : s.world.Fresh c)
    (hclean : Clean K s (.call c entry)) (hblocks : op.Blocks) (hreq : P.request c = some op)
    (hleft : op ∉ P.queued (s.world.call c).impl) : Tells (s.call c entry) op := by
  obtain ⟨-, hnew, heffect⟩ := World.effect h.world.append_nil hfresh
  obtain ⟨id, rfl⟩ := hblocks.exists_id
  have hec := call_ec_own s entry hreq
  have hacquired : .blocking id ∈ (s.call c entry).acquired ↔ _ := mem_call_acquired
  have hway := K.way _ c id hreq (hnew _ hreq)
  generalize huntouched : K.untouched s.world.impl c = untouched at hway
  cases hway with
  | taken hgranted hdone =>
      have hsuccess : (s.call c entry).ec (.blocking id) = .success := by
        rw [hec, hgranted]
        exact (if_neg hdone).trans (hclean huntouched)
      exact .of (iff_of_true hsuccess (hacquired.mpr (Or.inr (Or.inr ⟨hgranted, hreq⟩))))
        fun hne => absurd hsuccess hne
  | last hgranted hdone =>
      have hsuccess : (s.call c entry).ec (.blocking id) = .success := by
        rw [hec, hgranted]
        exact if_pos hdone
      exact .of (iff_of_true hsuccess (hacquired.mpr (Or.inr (Or.inl hdone))))
        fun hne => absurd hsuccess hne
  | failed hfailed hsame =>
      have hcode : (s.call c entry).ec (.blocking id) ≠ .success := by
        rw [hec, hfailed]
        exact fun heq => nomatch Code.known.inj heq
      have hnot : .blocking id ∉ (s.call c entry).acquired := by
        rw [hacquired, hfailed]
        rintro (hold | hdone | ⟨hgranted, -⟩)
        · exact hfresh _ hreq (h.acquired _ hold).1
        · exact hnew _ hreq (heffect.queued_of_failed hfailed hdone)
        · cases hgranted
      refine .of (iff_of_false hcode hnot) fun _ => ?_
      rw [call_without_own hreq]
      exact World.call_eq.1.trans hsame
  | queued hqueued =>
      exact absurd ((mem_call_queued h hfresh).mpr (Or.inr ⟨hreq, hqueued⟩)) hleft

/-- Another op that has returned is told: this call completes it, or it returned before. -/
theorem told_other (h : Inv K s) (hfresh : s.world.Fresh c) (hblocks : op.Blocks)
    (hreq : P.request c ≠ some op) (hinitiated : op ∈ s.world.initiated)
    (hleft : op ∉ P.queued (s.world.call c).impl) : Tells (s.call c entry) op := by
  have hec := call_ec_other s entry hreq
  by_cases hdone : op ∈ (P.call s.world.impl c).completed
  · have hsuccess : (s.call c entry).ec op = .success := hec.trans (if_pos hdone)
    exact .of (iff_of_true hsuccess (mem_call_acquired.mpr (Or.inr (Or.inl hdone))))
      fun hne => absurd hsuccess hne
  · have hqueued : op ∉ P.queued s.world.impl := fun hmem =>
      hleft ((mem_call_queued h hfresh).mpr (Or.inl ⟨hmem, hdone⟩))
    have htells := h.told op hblocks hinitiated hqueued
    rw [if_neg hdone] at hec
    have hacquired : op ∈ (s.call c entry).acquired ↔ op ∈ s.acquired := by
      rw [mem_call_acquired]
      tauto
    refine .of ?_ fun hne => ?_
    · rw [hec, hacquired]
      exact htells.success_iff
    · rw [hec] at hne
      rw [call_without_other hreq, ← htells.unmade hne]
      exact World.call_eq.1

/-- Who has acquired after a call does not wait: it had acquired before, or this call completes it
or is its own. -/
theorem acquired_returned (h : Inv K s) (hfresh : s.world.Fresh c)
    (hop : op ∈ (s.call c entry).acquired) :
    op ∈ (s.world.call c).initiated ∧ op ∉ P.queued (s.world.call c).impl := by
  obtain ⟨-, hnew, heffect⟩ := World.effect h.world.append_nil hfresh
  rw [mem_call_initiated, mem_call_queued h hfresh]
  rcases mem_call_acquired.mp hop with hold | hdone | ⟨hgranted, hreq⟩
  · obtain ⟨hinitiated, hqueued⟩ := h.acquired op hold
    refine ⟨Or.inl hinitiated, ?_⟩
    rintro (⟨hwaits, -⟩ | ⟨hreq, -⟩)
    · exact hqueued hwaits
    · exact hfresh op hreq hinitiated
  · constructor
    · by_cases hreq : P.request c = some op
      · exact Or.inr hreq
      · exact Or.inl (h.world.balanced.opened_of_pending (heffect.completed_subset hreq hdone))
    · rintro (⟨-, hnot⟩ | ⟨hreq, hqueued⟩)
      · exact hnot hdone
      · rw [heffect.completed_of_queued hqueued (by simp [hreq])] at hdone
        exact List.not_mem_nil hdone
  · refine ⟨Or.inr hreq, ?_⟩
    rintro (⟨hwaits, -⟩ | ⟨-, hqueued⟩)
    · exact hnew op hreq hwaits
    · rw [hgranted] at hqueued
      cases hqueued

/-- Who waits after a call waits as if its own call had not been made. -/
theorem waiting_retracts (h : Inv K s) (hfresh : s.world.Fresh c)
    (hop : op ∈ P.queued (s.world.call c).impl) (hblocks : op.Blocks) :
    (s.call c entry).without op = K.retract (s.world.call c).impl op := by
  obtain ⟨hnodup, hnew, -⟩ := World.effect h.world.append_nil hfresh
  rw [World.call_eq.1]
  rcases (mem_call_queued h hfresh).mp hop with ⟨hwaits, hdone⟩ | ⟨hreq, hqueued⟩
  · have hreq : P.request c ≠ some op := fun hreq => hnew op hreq hwaits
    rw [call_without_other hreq, h.waiting op hwaits hblocks,
      K.call _ c op h.valid hnodup hwaits hnew hdone]
  · rw [call_without_own hreq, K.request _ c op h.valid hreq (hnew op hreq) hqueued]

/-- **A clean call** keeps the invariant. -/
theorem Inv.call (h : Inv K s) (hfresh : s.world.Fresh c) (hclean : Clean K s (.call c entry)) :
    Inv K (s.call c entry) := by
  refine ⟨h.world.call hfresh, ?_, fun op hop => acquired_returned h hfresh hop,
    fun op hop hblocks => waiting_retracts h hfresh hop hblocks, ?_⟩
  · show K.Valid (s.world.call c).impl
    rw [World.call_eq.1]
    exact K.valid_call _ c h.valid
  · intro op hblocks hinitiated hleft
    by_cases hreq : P.request c = some op
    · exact told_own h hfresh hclean hblocks hreq hleft
    · have hold := (mem_call_initiated.mp hinitiated).resolve_right hreq
      exact told_other h hfresh hblocks hreq hold hleft

end Call

/-! ## Cancellations and shutdowns -/

/-- **A cancellation** keeps the invariant: the op has a handler, and nobody is told by it. -/
theorem Inv.cancel {q : Op ι} (h : Inv K s) (hq : q ∈ P.queued s.world.impl)
    (hslot : q.slot ≠ none) : Inv K (s.cancel q) := by
  have himpl : (s.world.cancel q).impl = P.unlink s.world.impl q := by
    rw [World.cancel_eq hslot, World.finish_impl]
  have hinitiated : (s.world.cancel q).initiated = s.world.initiated := by
    rw [World.cancel_eq hslot, World.finish_initiated]
  have hleft : (q :: P.queued (s.world.cancel q).impl).Perm (P.queued s.world.impl) := by
    rw [himpl]
    exact P.unlink_perm _ q h.world.balanced.pending_nodup hq
  have hmem : ∀ op, op ∈ P.queued s.world.impl ↔
      op = q ∨ op ∈ P.queued (s.world.cancel q).impl := by
    intro op
    rw [← hleft.mem_iff, List.mem_cons]
  refine ⟨h.world.cancel hq, ?_, ?_, ?_, ?_⟩
  · show K.Valid (s.world.cancel q).impl
    rw [himpl]
    exact K.valid_unlink _ q h.valid
  · intro op hop
    obtain ⟨hknown, hqueued⟩ := h.acquired op hop
    refine ⟨hinitiated.symm ▸ hknown, fun hwaits => hqueued ((hmem op).mpr (Or.inr hwaits))⟩
  · intro op hop hblocks
    show P.unlink (s.without op) q = K.retract (s.world.cancel q).impl op
    rw [himpl, h.waiting op ((hmem op).mpr (Or.inr hop)) hblocks, K.unlink]
  · intro op hblocks hknown hleft'
    have hne : op ≠ q := by
      rintro rfl
      obtain ⟨k, hk⟩ := Option.ne_none_iff_exists'.mp hslot
      exact Op.async_of_slot hk hblocks
    have hqueued : op ∉ P.queued s.world.impl := fun hwaits =>
      ((hmem op).mp hwaits).elim hne hleft'
    have hbefore : op ∈ s.world.initiated := hinitiated ▸ hknown
    have htells := h.told op hblocks hbefore hqueued
    refine .of htells.success_iff fun hcode => ?_
    show (s.world.cancel q).impl = P.unlink (s.without op) q
    rw [himpl, htells.unmade hcode]

/-- What a shutdown leaves. -/
theorem shutdown_impl : s.shutdown.world.impl = P.takeAll s.world.impl ∧
    s.shutdown.world.initiated = s.world.initiated ∧ P.queued s.shutdown.world.impl = [] := by
  have himpl : s.shutdown.world.impl = P.takeAll s.world.impl := by
    simp [State.shutdown, World.drain]
  refine ⟨himpl, by simp [State.shutdown, World.drain], ?_⟩
  rw [himpl]
  exact P.takeAll_lists _

/-- What an op that waits finds in its variable after a shutdown. -/
theorem shutdown_ec (hop : op ∈ P.queued s.world.impl) :
    s.shutdown.ec op = .known .shutDown := if_pos hop

/-- **A clean shutdown** keeps the invariant. -/
theorem Inv.shutdown (h : Inv K s) (hclean : Clean K s .shutdown) : Inv K s.shutdown := by
  obtain ⟨himpl, hinitiated, hempty⟩ := shutdown_impl (s := s)
  refine ⟨h.world.drain _ (List.Perm.refl _), ?_, ?_, ?_, ?_⟩
  · rw [himpl]
    exact K.valid_takeAll _ h.valid
  · intro op hop
    rw [hinitiated, hempty]
    exact ⟨(h.acquired op hop).1, List.not_mem_nil⟩
  · intro op hop
    rw [hempty] at hop
    exact absurd hop List.not_mem_nil
  · intro op hblocks hknown _
    by_cases hqueued : op ∈ P.queued s.world.impl
    · have hcode : s.shutdown.ec op ≠ .success := by
        rw [shutdown_ec hqueued]
        exact fun heq => nomatch Code.known.inj heq
      have hnot : op ∉ s.shutdown.acquired := fun hop => (h.acquired op hop).2 hqueued
      refine .of (iff_of_false hcode hnot) fun _ => ?_
      rw [himpl]
      show _ = P.takeAll (s.without op)
      rw [h.waiting op hqueued hblocks]
      exact (K.restored_iff _ op).mpr (hclean.resolve_right fun hall => hall op hqueued hblocks)
    · have htells := h.told op hblocks (hinitiated ▸ hknown) hqueued
      have hec : s.shutdown.ec op = s.ec op := if_neg hqueued
      refine .of (by rw [hec]; exact htells.success_iff) fun hcode => ?_
      rw [himpl, htells.unmade (hec ▸ hcode)]
      rfl

/-! ## Runs -/

/-- Every clean step keeps the invariant. -/
theorem Inv.step (h : Inv K s) (hclean : Clean K s l) (hstep : step s l = some t) : Inv K t := by
  cases l with
  | call c entry =>
      obtain ⟨hfresh, rfl⟩ := guard_iff.mp hstep
      exact h.call hfresh hclean
  | cancel q =>
      obtain ⟨⟨hq, hslot⟩, rfl⟩ := guard_iff.mp hstep
      exact h.cancel hq hslot
  | shutdown =>
      obtain rfl := Option.some.inj hstep
      exact h.shutdown hclean

/-- A call that takes at once leaves an old error in the variable of its caller. -/
theorem not_told_of_untouched (h : Inv K s) (hfresh : s.world.Fresh c)
    (huntouched : K.untouched s.world.impl c = true) (hentry : entry ≠ .success) :
    ¬ AllTold (s.call c entry) := by
  obtain ⟨id, hreq⟩ := K.untouched_blocks _ c huntouched
  obtain ⟨-, hnew, -⟩ := World.effect h.world.append_nil hfresh
  obtain ⟨hgranted, hdone⟩ : (P.call s.world.impl c).outcome = .granted ∧
      .blocking id ∉ (P.call s.world.impl c).completed := by
    have hway := K.way _ c id hreq (hnew _ hreq)
    rw [huntouched] at hway
    cases hway with
    | taken hgranted hdone => exact ⟨hgranted, hdone⟩
  have hec : (s.call c entry).ec (.blocking id) = entry := by
    rw [call_ec_own s entry hreq, hgranted]
    exact if_neg hdone
  intro hall
  have hknown : .blocking id ∈ (s.world.call c).initiated := mem_call_initiated.mpr (Or.inr hreq)
  have hleft : .blocking id ∉ P.queued (s.world.call c).impl := by
    rw [mem_call_queued h hfresh, hgranted]
    rintro (⟨hwaits, -⟩ | ⟨-, hqueued⟩)
    · exact hnew _ hreq hwaits
    · cases hqueued
  have htells := hall (.blocking id) trivial hknown hleft
  have hcode := htells.success_iff.mpr (mem_call_acquired.mpr (Or.inr (Or.inr ⟨hgranted, hreq⟩)))
  exact hentry (hec.symm.trans hcode)

/-- A shutdown that does not take a request back tells its call of an error. -/
theorem not_told_of_shutdown (h : Inv K s) (hrestored : K.restored ≠ true)
    (hop : op ∈ P.queued s.world.impl) (hblocks : op.Blocks) : ¬ AllTold s.shutdown := by
  obtain ⟨himpl, hinitiated, hempty⟩ := shutdown_impl (s := s)
  intro hall
  have hknown : op ∈ s.shutdown.world.initiated :=
    hinitiated.symm ▸ h.world.balanced.opened_of_pending hop
  have htells := hall op hblocks hknown (by simp [hempty])
  have hunmade := htells.unmade (by
    rw [shutdown_ec hop]
    exact fun heq => nomatch Code.known.inj heq)
  have hwithout : s.shutdown.without op = P.takeAll (K.retract s.world.impl op) :=
    congrArg P.takeAll (h.waiting op hop hblocks)
  rw [himpl, hwithout] at hunmade
  exact hrestored ((K.restored_iff _ op).mp hunmade)

/-- A step that is not clean leaves somebody with the wrong code. -/
theorem Inv.step_unclean (h : Inv K s) (hclean : ¬ Clean K s l)
    (hstep : ErrorCodes.step s l = some t) : ¬ AllTold t := by
  cases l with
  | call c entry =>
      obtain ⟨hfresh, rfl⟩ := guard_iff.mp hstep
      obtain ⟨huntouched, hentry⟩ := Classical.not_imp.mp hclean
      exact not_told_of_untouched h hfresh huntouched hentry
  | cancel q => exact absurd trivial hclean
  | shutdown =>
      obtain rfl := Option.some.inj hstep
      obtain ⟨hrestored, hall⟩ := not_or.mp hclean
      push Not at hall
      obtain ⟨op, hop, hasync⟩ := hall
      exact not_told_of_shutdown h hrestored hop (not_not.mp hasync)

/-- **Which runs tell their callers.** In every state every blocking call that has returned knows
from its variable what became of it, exactly when every step is clean. -/
theorem allTold_iff {s₀ : P.State} (hs : P.queued s₀ = []) (hvalid : K.Valid s₀)
    (ls : List (Label P ε)) :
    (∀ t, Visits step (State.init s₀) ls t → AllTold t) ↔
      ∀ t l, Takes step (State.init s₀) ls t l → Clean K t l := by
  have hstart : Inv K (State.init s₀ : State P ε) := by
    refine ⟨World.Inv.init hs, hvalid, fun op hop => absurd hop List.not_mem_nil, ?_, ?_⟩
    · intro op hop
      rw [State.init, World.init, hs] at hop
      exact absurd hop List.not_mem_nil
    · intro op _ hknown
      exact absurd hknown List.not_mem_nil
  exact visits_iff_takes (fun _ _ _ h hclean hstep => h.step hclean hstep) (fun _ h => h.told)
    (fun _ _ _ h hclean hstep => h.step_unclean hclean hstep) hstart ls

end Sam.ErrorCodes
