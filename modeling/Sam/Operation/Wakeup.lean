import Mathlib.Logic.Function.Basic
import Sam.Library.Transition
import Sam.Operation.Kinds

/-!
# Waking a blocked thread

The op of a blocking call lives on the stack of its thread, which sleeps on the condition variable
of the op and may wake up by itself. `complete` and `shutdown` of such an op are four lines: they
set `done`, write the error code, unlink the op and notify. The completions of a call run under
`mtx_`. `shutdown()` of a primitive takes the waiter lists under `mtx_` and shuts the ops down
without it. `sound_iff` says on which runs no line is left for an op that is gone, and no thread
sleeps through its notification.
-/

namespace Sam.Wakeup

open Transition

universe u v

/-- The lines of `complete` and `shutdown` of a blocking op. -/
inductive Line where
  | done
  | assign
  | unlink
  | notify
  deriving DecidableEq, Repr

/-- The blocking ops that a thread completes, the line that it has come to in the first one, and
the error code. -/
structure Work (ι : Type u) where
  line : Line
  ops : List ι
  ec : ErrorCode
  deriving DecidableEq, Repr

/-- The line is run. -/
def Work.next {ι : Type u} (w : Work ι) : Work ι :=
  match w.line with
  | .done => { w with line := .assign }
  | .assign => { w with line := .unlink }
  | .unlink => { w with line := .notify }
  | .notify => { w with line := .done, ops := w.ops.tail }

/-- What a thread is doing. `inside` its section it has `mtx_`; its own call may have an op, and may
have to wait. `var.wait` tests `done` under `mtx_` and goes to sleep, which releases it. A thread
that is `awake` waits for `mtx_`. `drain` is `shutdown()` after it has released `mtx_`. -/
inductive Pc (ι : Type u) where
  | idle
  | inside (work : Work ι) (own : Option ι) (waits : Bool)
  | test (id : ι)
  | sleep (id : ι)
  | asleep (id : ι)
  | awake (id : ι)
  | drain (work : Work ι)
  deriving DecidableEq, Repr

namespace Pc

variable {ι : Type u}

/-- What the thread completes. -/
def work : Pc ι → Option (Work ι)
  | .inside work _ _ | drain work => some work
  | _ => none

/-- The ops that it completes. -/
def todo (pc : Pc ι) : List ι := pc.work.elim [] (·.ops)

/-- It runs the next line. -/
def next : Pc ι → Pc ι
  | .inside work own waits => .inside work.next own waits
  | drain work => drain work.next
  | pc => pc

/-- The op on its stack. -/
def own : Pc ι → Option ι
  | .inside _ own _ => own
  | test id | sleep id | asleep id | awake id => some id
  | _ => none

/-- The op that it waits for. -/
def waits : Pc ι → Option ι
  | .inside _ own waits => if waits then own else none
  | test id | sleep id | asleep id | awake id => some id
  | _ => none

/-- The op whose notification it needs. -/
def sleeps : Pc ι → Option ι
  | sleep id | asleep id => some id
  | _ => none

/-- It has `mtx_`. -/
def locked : Pc ι → Bool
  | .inside _ _ _ | test _ | sleep _ => true
  | _ => false

/-- A thread has the op that it waits for. -/
theorem own_of_waits {pc : Pc ι} {id : ι} (h : pc.waits = some id) : pc.own = some id := by
  cases pc with
  | inside work own waits =>
      simp only [Pc.waits] at h
      split at h
      · exact h
      · cases h
  | idle | drain work => cases h
  | _ => exact h

/-- The ops that a thread completes are those of its work. -/
theorem todo_eq {pc : Pc ι} {work : Work ι} (h : pc.work = some work) : pc.todo = work.ops := by
  rw [todo, h]
  rfl

/-- Running a line leaves the rest of the thread alone. -/
theorem next_same (pc : Pc ι) : pc.next.own = pc.own ∧ pc.next.waits = pc.waits ∧
    pc.next.locked = pc.locked ∧ pc.next.sleeps = pc.sleeps := by
  cases pc <;> exact ⟨rfl, rfl, rfl, rfl⟩

/-- And brings its work one line further. -/
theorem next_work {pc : Pc ι} {work : Work ι} (h : pc.work = some work) :
    pc.next.work = some work.next := by
  cases pc with
  | inside | drain =>
      obtain rfl := Option.some.inj h
      rfl
  | _ => cases h

end Pc

/-- The id of a blocking op. -/
def blockingId {ι : Type u} : Op ι → Option ι
  | .blocking id => some id
  | .async _ _ => none

/-- A primitive, who has `mtx_`, what the threads are doing, the `done` flags and the error codes of
the blocking ops, all ops made, the codes that ops were completed with, and those that the waiting
calls returned. -/
structure State {ι : Type u} [DecidableEq ι] (P : Primitive ι) (τ : Type v) where
  impl : P.State
  owner : Option τ
  pc : τ → Pc ι
  done : ι → Bool
  ec : ι → ErrorCode
  made : List (Op ι)
  completed : List (ι × ErrorCode)
  returned : List (ι × ErrorCode)

/-- The steps of a thread. A call comes with what its error code holds before. -/
inductive Label {ι : Type u} [DecidableEq ι] (P : Primitive ι) (τ : Type v) where
  | call (t : τ) (c : P.Call) (ec : ErrorCode)
  | cancel (op : Op ι)
  | line (t : τ)
  | leave (t : τ)
  | test (t : τ)
  | sleep (t : τ)
  | wake (t : τ)
  | relock (t : τ)
  | shutdown (t : τ)

variable {ι : Type u} [DecidableEq ι] {P : Primitive ι} {τ : Type v} [DecidableEq τ]

namespace State

/-- Nobody has made a call. -/
def init (s : P.State) : State P τ :=
  ⟨s, none, fun _ => .idle, fun _ => false, fun _ => .success, [], [], []⟩

/-- A thread does something else now. -/
def put (s : State P τ) (t : τ) (pc : Pc ι) : State P τ :=
  { s with pc := Function.update s.pc t pc }

@[simp] theorem put_self (s : State P τ) (t : τ) (pc : Pc ι) : (s.put t pc).pc t = pc :=
  Function.update_self ..

theorem put_of_ne {s : State P τ} {t r : τ} (h : r ≠ t) (pc : Pc ι) :
    (s.put t pc).pc r = s.pc r :=
  Function.update_of_ne h ..

/-- The op of the call is a new one. -/
def Fresh (s : State P τ) (c : P.Call) : Prop := ∀ op ∈ P.request c, op ∉ s.made

instance (s : State P τ) (c : P.Call) : Decidable (s.Fresh c) :=
  inferInstanceAs (Decidable (∀ op ∈ P.request c, op ∉ s.made))

/-- A call takes `mtx_`. What its section does to the primitive takes effect at once; the ops that
it completes are still to be woken. -/
def call (s : State P τ) (t : τ) (c : P.Call) (ec : ErrorCode) : State P τ :=
  let r := P.call s.impl c
  let own := (P.request c).bind blockingId
  let ops := r.completed.filterMap blockingId
  { s with
    impl := r.state
    owner := some t
    done := fun id => if own = some id then false else s.done id
    ec := fun id => if own = some id then ec else s.ec id
    made := s.made ++ (P.request c).toList
    completed := s.completed ++ ops.map (·, ErrorCode.success) }.put t
      (.inside ⟨.done, ops, .success⟩ own (decide (r.outcome = Outcome.queued)))

/-- A thread runs the next line of `complete` or `shutdown` of this op. -/
def touch (s : State P τ) (id : ι) (line : Line) (ec : ErrorCode) : State P τ :=
  match line with
  | .done => { s with done := Function.update s.done id true }
  | .assign => { s with ec := Function.update s.ec id ec }
  | .unlink => s
  | .notify => { s with pc := fun r => if s.pc r = .asleep id then .awake id else s.pc r }

omit [DecidableEq τ] in
/-- A line leaves everything but the cells of its op and the threads that it wakes alone. -/
theorem touch_rest (s : State P τ) (id : ι) (line : Line) (ec : ErrorCode) :
    (s.touch id line ec).impl = s.impl ∧ (s.touch id line ec).owner = s.owner ∧
      (s.touch id line ec).made = s.made ∧ (s.touch id line ec).completed = s.completed ∧
      (s.touch id line ec).returned = s.returned := by
  cases line <;> exact ⟨rfl, rfl, rfl, rfl, rfl⟩

omit [DecidableEq τ] in
/-- Threads that it wakes have the same ops. -/
theorem touch_same (s : State P τ) (id : ι) (line : Line) (ec : ErrorCode) (r : τ) :
    ((s.touch id line ec).pc r).own = (s.pc r).own ∧
      ((s.touch id line ec).pc r).waits = (s.pc r).waits ∧
      ((s.touch id line ec).pc r).locked = (s.pc r).locked ∧
      ((s.touch id line ec).pc r).work = (s.pc r).work := by
  cases line with
  | notify =>
      simp only [touch]
      split
      · rename_i hasleep
        rw [hasleep]
        exact ⟨rfl, rfl, rfl, rfl⟩
      · exact ⟨rfl, rfl, rfl, rfl⟩
  | _ => exact ⟨rfl, rfl, rfl, rfl⟩

omit [DecidableEq τ] in
/-- Whoever sleeps was not woken. -/
theorem touch_sleeps {s : State P τ} {id x : ι} {line : Line} {ec : ErrorCode} {r : τ}
    (h : ((s.touch id line ec).pc r).sleeps = some x) :
    (s.pc r).sleeps = some x ∧ (line = .notify → s.pc r ≠ .asleep id) := by
  cases line with
  | notify =>
      simp only [touch] at h
      split at h
      · cases h
      · rename_i hasleep
        exact ⟨h, fun _ => hasleep⟩
  | _ => exact ⟨h, nofun⟩

omit [DecidableEq τ] in
/-- The flags and the codes after a line. -/
theorem touch_cells (s : State P τ) (id : ι) (line : Line) (ec : ErrorCode) (x : ι) :
    (s.touch id line ec).done x = (if line = .done ∧ x = id then true else s.done x) ∧
      (s.touch id line ec).ec x = if line = .assign ∧ x = id then ec else s.ec x := by
  cases line <;> simp [touch, Function.update_apply]

/-- What the threads do after a line of `t`. -/
def ran (s : State P τ) (t : τ) (id : ι) (line : Line) (ec : ErrorCode) : τ → Pc ι :=
  Function.update (s.touch id line ec).pc t (s.pc t).next

theorem ran_self (s : State P τ) (t : τ) (id : ι) (line : Line) (ec : ErrorCode) :
    s.ran t id line ec t = (s.pc t).next :=
  Function.update_self ..

theorem ran_of_ne (s : State P τ) {t r : τ} (h : r ≠ t) (id : ι) (line : Line) (ec : ErrorCode) :
    s.ran t id line ec r = (s.touch id line ec).pc r :=
  Function.update_of_ne h ..

/-- The threads keep their ops and `mtx_`. -/
theorem ran_same (s : State P τ) (t : τ) (id : ι) (line : Line) (ec : ErrorCode) (r : τ) :
    (s.ran t id line ec r).own = (s.pc r).own ∧ (s.ran t id line ec r).waits = (s.pc r).waits ∧
      (s.ran t id line ec r).locked = (s.pc r).locked := by
  obtain ⟨hown, hwaits, hlocked, -⟩ := s.touch_same id line ec r
  by_cases hr : r = t
  · obtain ⟨hown', hwaits', hlocked', -⟩ := (s.pc t).next_same
    rw [hr, ran_self]
    exact ⟨hown', hwaits', hlocked'⟩
  · rw [s.ran_of_ne hr]
    exact ⟨hown, hwaits, hlocked⟩

/-- The other threads keep their work. -/
theorem ran_work (s : State P τ) {t r : τ} (h : r ≠ t) (id : ι) (line : Line) (ec : ErrorCode) :
    (s.ran t id line ec r).work = (s.pc r).work := by
  rw [s.ran_of_ne h, (s.touch_same id line ec r).2.2.2]

/-- `shutdown()` takes the waiter lists. -/
def shutdown (s : State P τ) (t : τ) : State P τ :=
  let ops := (P.queued s.impl).filterMap blockingId
  { s with
    impl := P.takeAll s.impl
    completed := s.completed ++ ops.map (·, ErrorCode.shutDown) }.put t
      (.drain ⟨.done, ops, .shutDown⟩)

end State

/-- One step of a thread. -/
def step (s : State P τ) : Label P τ → Option (State P τ)
  | .call t c ec =>
      if s.pc t = .idle ∧ s.owner = none ∧ s.Fresh c then some (s.call t c ec) else none
  | .cancel op =>
      if s.owner = none ∧ op ∈ P.queued s.impl ∧ op.slot ≠ none then
        some { s with impl := P.unlink s.impl op }
      else none
  | .line t =>
      match (s.pc t).work with
      | some ⟨line, id :: _, ec⟩ => some ((s.touch id line ec).put t (s.pc t).next)
      | _ => none
  | .leave t =>
      match s.pc t with
      | .inside ⟨_, [], _⟩ (some id) true => some (s.put t (.test id))
      | .inside ⟨_, [], _⟩ _ _ => some ({ s with owner := none }.put t .idle)
      | .drain ⟨_, [], _⟩ => some (s.put t .idle)
      | _ => none
  | .test t =>
      match s.pc t with
      | .test id =>
          if s.done id then
            some ({ s with owner := none, returned := s.returned ++ [(id, s.ec id)] }.put t .idle)
          else some (s.put t (.sleep id))
      | _ => none
  | .sleep t =>
      match s.pc t with
      | .sleep id => some ({ s with owner := none }.put t (.asleep id))
      | _ => none
  | .wake t =>
      match s.pc t with
      | .asleep id => some (s.put t (.awake id))
      | _ => none
  | .relock t =>
      match s.pc t with
      | .awake id =>
          if s.owner = none then some ({ s with owner := some t }.put t (.test id)) else none
      | _ => none
  | .shutdown t =>
      if s.pc t = .idle ∧ s.owner = none then some (s.shutdown t) else none

/-- What a step does, by what its thread was doing. -/
inductive Moves (s : State P τ) : Label P τ → State P τ → Prop where
  | call {t : τ} {c : P.Call} {ec : ErrorCode} (hidle : s.pc t = .idle) (hfree : s.owner = none)
      (hfresh : s.Fresh c) : Moves s (.call t c ec) (s.call t c ec)
  | cancel {op : Op ι} (hop : op ∈ P.queued s.impl) :
      Moves s (.cancel op) { s with impl := P.unlink s.impl op }
  | line {t : τ} {line : Line} {id : ι} {rest : List ι} {ec : ErrorCode}
      (hwork : (s.pc t).work = some ⟨line, id :: rest, ec⟩) :
      Moves s (.line t) ((s.touch id line ec).put t (s.pc t).next)
  | waits {t : τ} {line : Line} {ec : ErrorCode} {id : ι}
      (hpc : s.pc t = .inside ⟨line, [], ec⟩ (some id) true) :
      Moves s (.leave t) (s.put t (.test id))
  | leaves {t : τ} {line : Line} {ec : ErrorCode} {own : Option ι} {waits : Bool}
      (hpc : s.pc t = .inside ⟨line, [], ec⟩ own waits) (hwaits : (s.pc t).waits = none) :
      Moves s (.leave t) ({ s with owner := none }.put t .idle)
  | drained {t : τ} {line : Line} {ec : ErrorCode} (hpc : s.pc t = .drain ⟨line, [], ec⟩) :
      Moves s (.leave t) (s.put t .idle)
  | returns {t : τ} {id : ι} (hpc : s.pc t = .test id) (hdone : s.done id = true) :
      Moves s (.test t)
        ({ s with owner := none, returned := s.returned ++ [(id, s.ec id)] }.put t .idle)
  | unset {t : τ} {id : ι} (hpc : s.pc t = .test id) (hdone : s.done id = false) :
      Moves s (.test t) (s.put t (.sleep id))
  | sleep {t : τ} {id : ι} (hpc : s.pc t = .sleep id) :
      Moves s (.sleep t) ({ s with owner := none }.put t (.asleep id))
  | wake {t : τ} {id : ι} (hpc : s.pc t = .asleep id) : Moves s (.wake t) (s.put t (.awake id))
  | relock {t : τ} {id : ι} (hpc : s.pc t = .awake id) (hfree : s.owner = none) :
      Moves s (.relock t) ({ s with owner := some t }.put t (.test id))
  | shutdown {t : τ} (hidle : s.pc t = .idle) (hfree : s.owner = none) :
      Moves s (.shutdown t) (s.shutdown t)

/-- Every step is one of these. -/
theorem moves {s s' : State P τ} {l : Label P τ} (hstep : step s l = some s') : Moves s l s' := by
  cases l with
  | call t c ec =>
      obtain ⟨⟨hidle, hfree, hfresh⟩, rfl⟩ := guard_iff.mp hstep
      exact .call hidle hfree hfresh
  | cancel op =>
      obtain ⟨⟨-, hop, -⟩, rfl⟩ := guard_iff.mp hstep
      exact .cancel hop
  | line t =>
      simp only [step] at hstep
      split at hstep
      · rename_i hwork
        exact Option.some.inj hstep ▸ .line hwork
      · cases hstep
  | leave t =>
      simp only [step] at hstep
      split at hstep
      · rename_i hpc
        exact Option.some.inj hstep ▸ .waits hpc
      · rename_i own waits hcall hpc
        -- a call that has to wait does not leave
        have hwaits : (s.pc t).waits = none := by
          rw [hpc]
          cases waits with
          | false => rfl
          | true =>
              cases own with
              | none => rfl
              | some id => exact (hcall id rfl rfl).elim
        exact Option.some.inj hstep ▸ .leaves hpc hwaits
      · rename_i hpc
        exact Option.some.inj hstep ▸ .drained hpc
      · cases hstep
  | test t =>
      simp only [step] at hstep
      split at hstep
      · rename_i hpc
        split at hstep
        · rename_i hdone
          exact Option.some.inj hstep ▸ .returns hpc hdone
        · rename_i hdone
          exact Option.some.inj hstep ▸ .unset hpc (eq_false_of_ne_true hdone)
      · cases hstep
  | sleep t =>
      simp only [step] at hstep
      split at hstep
      · rename_i hpc
        exact Option.some.inj hstep ▸ .sleep hpc
      · cases hstep
  | wake t =>
      simp only [step] at hstep
      split at hstep
      · rename_i hpc
        exact Option.some.inj hstep ▸ .wake hpc
      · cases hstep
  | relock t =>
      simp only [step] at hstep
      split at hstep
      · rename_i hpc
        obtain ⟨hfree, rfl⟩ := guard_iff.mp hstep
        exact .relock hpc hfree
      · cases hstep
  | shutdown t =>
      obtain ⟨⟨hidle, hfree⟩, rfl⟩ := guard_iff.mp hstep
      exact .shutdown hidle hfree

/-- No line is left for an op that is gone, whoever has to be notified will be, and a call that
waited returns the code that its op was completed with. -/
structure Sound (s : State P τ) : Prop where
  alive : ∀ r id, id ∈ (s.pc r).todo → ∃ t, (s.pc t).own = some id
  notified : ∀ t id, (s.pc t).sleeps = some id → s.done id = true → ∃ r, id ∈ (s.pc r).todo
  told : ∀ x ∈ s.returned, x ∈ s.completed

/-- A thread that finds `done` set leaves no line for its op behind, and `shutdown()` does not
notify a thread that is about to sleep. -/
def Clear (s : State P τ) : Label P τ → Prop
  | .test t => ∀ id, s.pc t = .test id → s.done id = true → ∀ r, id ∉ (s.pc r).todo
  | .line t => ∀ id rest ec, s.pc t = .drain ⟨.notify, id :: rest, ec⟩ → ∀ r, s.pc r ≠ .sleep id
  | _ => True

/-- What every step keeps that meets the condition. -/
structure Inv (s : State P τ) : Prop where
  locked : ∀ t, (s.pc t).locked = true ↔ s.owner = some t
  one : ∀ t r id, (s.pc t).own = some id → (s.pc r).own = some id → t = r
  own : ∀ t id, (s.pc t).own = some id → .blocking id ∈ s.made
  nodup : (P.queued s.impl).Nodup
  made : ∀ op ∈ P.queued s.impl, op ∈ s.made
  queued : ∀ id, .blocking id ∈ P.queued s.impl →
    (∃ t, (s.pc t).waits = some id) ∧ s.done id = false ∧ ∀ r, id ∉ (s.pc r).todo
  todo : ∀ r id, id ∈ (s.pc r).todo → (∃ t, (s.pc t).waits = some id) ∨ (s.pc r).own = some id
  disjoint : ∀ r r' id, id ∈ (s.pc r).todo → id ∈ (s.pc r').todo → r = r'
  todo_nodup : ∀ r, (s.pc r).todo.Nodup
  head : ∀ r line id rest ec, (s.pc r).work = some ⟨line, id :: rest, ec⟩ →
    (line ≠ .done → s.done id = true) ∧ (line = .unlink ∨ line = .notify → s.ec id = ec)
  known : ∀ r work, (s.pc r).work = some work → ∀ id ∈ work.ops, (id, work.ec) ∈ s.completed
  notified : ∀ t id, (s.pc t).sleeps = some id → s.done id = true → ∃ r, id ∈ (s.pc r).todo
  told : ∀ x ∈ s.returned, x ∈ s.completed
  settled : ∀ t id, (s.pc t).waits = some id → s.done id = true →
    (∀ r, id ∉ (s.pc r).todo) → (id, s.ec id) ∈ s.completed

/-- `t` begins to complete ops: some that were queued, and maybe the op of its call, which is a new
one. It waits for its own op when that is not among them. -/
structure Begins (s s' : State P τ) (t : τ) (new : List (Op ι)) (ops : List ι)
    (code : ErrorCode) : Prop where
  idle : s.pc t = .idle
  others : ∀ r, r ≠ t → s'.pc r = s.pc r
  work : (s'.pc t).work = some ⟨.done, ops, code⟩
  sleeps : (s'.pc t).sleeps = none
  own : ∀ id, (s'.pc t).own = some id → .blocking id ∈ new
  locked : (s'.pc t).locked = true ↔ s'.owner = some t
  owner : ∀ r, r ≠ t → (s'.owner = some r ↔ s.owner = some r)
  fresh : ∀ op ∈ new, op ∉ s.made
  made : s'.made = s.made ++ new
  completed : s'.completed = s.completed ++ ops.map (·, code)
  returned : s'.returned = s.returned
  done : ∀ id, s'.done id = if (s'.pc t).own = some id then false else s.done id
  ec : ∀ id, (s'.pc t).own ≠ some id → s'.ec id = s.ec id
  ops_queued : ∀ id ∈ ops, .blocking id ∈ P.queued s.impl ∨ (s'.pc t).own = some id
  ops_nodup : ops.Nodup
  nodup : (P.queued s'.impl).Nodup
  queued : ∀ op ∈ P.queued s'.impl, op ∈ P.queued s.impl ∨ op ∈ new
  blocking : ∀ id, .blocking id ∈ P.queued s'.impl → id ∉ ops ∧
    (.blocking id ∈ P.queued s.impl ∨ (s'.pc t).waits = some id)

namespace Inv

variable {s s' : State P τ} {t : τ} {l : Label P τ}

/-- **A thread without work goes on.** It keeps its op or destroys it, it waits for nothing new, and
an op that it does not wait for any more has no line left. -/
theorem put (h : Inv s) {pc : Pc ι} {owner : Option τ} {returned : List (ι × ErrorCode)}
    (hidle : (s.pc t).todo = []) (hwork : pc.work = none)
    (hlocked : pc.locked = true ↔ owner = some t)
    (howner : ∀ r, r ≠ t → (owner = some r ↔ s.owner = some r))
    (hown : ∀ id, pc.own = some id → (s.pc t).own = some id)
    (hwaits : ∀ id, pc.waits = some id → (s.pc t).waits = some id)
    (hleft : ∀ id, (s.pc t).waits = some id → pc.waits ≠ some id →
      s.done id = true ∧ ∀ r, id ∉ (s.pc r).todo)
    (hsleeps : ∀ id, pc.sleeps = some id → (s.pc t).sleeps = some id ∨ s.done id = false)
    (hreturned : ∀ x ∈ returned, x ∈ s.returned ∨ x ∈ s.completed) :
    Inv ({ s with owner, returned }.put t pc) := by
  have htodo : pc.todo = [] := by rw [Pc.todo, hwork]; rfl
  have htodos : ∀ r, (Function.update s.pc t pc r).todo = (s.pc r).todo := by
    intro r
    by_cases hr : r = t
    · rw [hr, Function.update_self, htodo, hidle]
    · rw [Function.update_of_ne hr]
  have hpc : ∀ r, r ≠ t → Function.update s.pc t pc r = s.pc r := fun r hr =>
    Function.update_of_ne hr ..
  have hself : Function.update s.pc t pc t = pc := Function.update_self ..
  obtain ⟨locked, one, own, nodup, made, queued, todo, disjoint, todo_nodup, head, known, notified,
    told, settled⟩ := h
  constructor <;> simp only [State.put, htodos]
  · grind
  · grind
  · grind
  · exact nodup
  · exact made
  · grind
  · grind
  · exact disjoint
  · exact todo_nodup
  · grind
  · grind
  · grind
  · grind
  · grind

/-- **A thread that waits goes on waiting** for the same op. -/
theorem keep (h : Inv s) {pc : Pc ι} {owner : Option τ} {id : ι} (hidle : (s.pc t).todo = [])
    (hwork : pc.work = none) (hlocked : pc.locked = true ↔ owner = some t)
    (howner : ∀ r, r ≠ t → (owner = some r ↔ s.owner = some r))
    (hbefore : (s.pc t).waits = some id) (hafter : pc.waits = some id) (hown : pc.own = some id)
    (hsleeps : ∀ x, pc.sleeps = some x → (s.pc t).sleeps = some x ∨ s.done x = false) :
    Inv ({ s with owner }.put t pc) := by
  have hmine := Pc.own_of_waits hbefore
  refine h.put hidle hwork hlocked howner (fun x hx => ?_) (fun x hx => ?_) (fun x hx hother => ?_)
    hsleeps fun x hx => Or.inl hx
  · rwa [hmine, ← hown]
  · rwa [hbefore, ← hafter]
  · rw [hbefore, ← hafter] at hx
    exact absurd hx hother

omit [DecidableEq τ] in
/-- A new op is nobody's. -/
theorem stranger (h : Inv s) {id : ι} (hnew : .blocking id ∉ s.made) (r : τ) :
    (s.pc r).own ≠ some id ∧ (s.pc r).waits ≠ some id ∧ id ∉ (s.pc r).todo := by
  have hown : ∀ r, (s.pc r).own ≠ some id := fun r hr => hnew (h.own r id hr)
  refine ⟨hown r, fun hr => hown r (Pc.own_of_waits hr), fun hr => ?_⟩
  rcases h.todo r id hr with ⟨r', hr'⟩ | hr'
  · exact hown r' (Pc.own_of_waits hr')
  · exact hown r hr'

section Begins

variable {new : List (Op ι)} {ops : List ι} {code : ErrorCode}

omit [DecidableEq τ] in
/-- The op of the call has the flag and the code of nobody else. -/
theorem begin_cells (h : Inv s) (hb : Begins s s' t new ops code) {r : τ} {id : ι}
    (hid : (s.pc r).own = some id ∨ (s.pc r).waits = some id ∨ id ∈ (s.pc r).todo) :
    (s'.pc t).own ≠ some id ∧ s'.done id = s.done id ∧ s'.ec id = s.ec id := by
  have hother : (s'.pc t).own ≠ some id := by
    intro hmine
    obtain ⟨hown, hwaits, htodo⟩ := h.stranger (hb.fresh _ (hb.own id hmine)) r
    rcases hid with hid | hid | hid
    · exact hown hid
    · exact hwaits hid
    · exact htodo hid
  exact ⟨hother, by rw [hb.done, if_neg hother], hb.ec id hother⟩

/-- An op that stays in the lists waits, and nobody completes it. -/
theorem begin_queued (h : Inv s) (hb : Begins s s' t new ops code) {id : ι}
    (hid : .blocking id ∈ P.queued s'.impl) :
    (∃ r, (s'.pc r).waits = some id) ∧ s'.done id = false ∧ ∀ r, id ∉ (s'.pc r).todo := by
  obtain ⟨hleft, hold | hmine⟩ := hb.blocking id hid
  · obtain ⟨⟨r, hr⟩, hclear, hnobody⟩ := h.queued id hold
    refine ⟨⟨r, ?_⟩, ?_, fun r' => ?_⟩
    · have hrt : r ≠ t := by
        rintro rfl
        rw [hb.idle] at hr
        cases hr
      rwa [hb.others r hrt]
    · rw [(h.begin_cells hb (Or.inr (Or.inl hr))).2.1, hclear]
    · by_cases hr' : r' = t
      · rwa [hr', Pc.todo_eq hb.work]
      · rw [hb.others r' hr']
        exact hnobody r'
  · have hown := Pc.own_of_waits hmine
    refine ⟨⟨t, hmine⟩, by rw [hb.done, if_pos hown], fun r hr => ?_⟩
    by_cases hrt : r = t
    · rw [hrt, Pc.todo_eq hb.work] at hr
      exact hleft hr
    · rw [hb.others r hrt] at hr
      exact (h.begin_cells hb (Or.inr (Or.inr hr))).1 hown

/-- The first line of the ops is still to be run, and the others go on with theirs. -/
theorem begin_head (h : Inv s) (hb : Begins s s' t new ops code) {r : τ} {line : Line} {id : ι}
    {rest : List ι} {ec : ErrorCode} (hwork : (s'.pc r).work = some ⟨line, id :: rest, ec⟩) :
    (line ≠ .done → s'.done id = true) ∧ (line = .unlink ∨ line = .notify → s'.ec id = ec) := by
  by_cases hr : r = t
  · rw [hr, hb.work] at hwork
    cases hwork
    exact ⟨fun hline => absurd rfl hline, fun hline => hline.elim nofun nofun⟩
  · rw [hb.others r hr] at hwork
    have hid : id ∈ (s.pc r).todo := by
      rw [Pc.todo_eq hwork]
      exact List.mem_cons_self
    obtain ⟨-, hdone, hec⟩ := h.begin_cells hb (Or.inr (Or.inr hid))
    rw [hdone, hec]
    exact h.head r line id rest ec hwork

/-- An op that was completed has its code, and the op of the call was not. -/
theorem begin_settled (h : Inv s) (hb : Begins s s' t new ops code) {r : τ} {id : ι}
    (hwaits : (s'.pc r).waits = some id) (hflag : s'.done id = true)
    (hnobody : ∀ r, id ∉ (s'.pc r).todo) : (id, s'.ec id) ∈ s'.completed := by
  by_cases hr : r = t
  · rw [hr] at hwaits
    rw [hb.done, if_pos (Pc.own_of_waits hwaits)] at hflag
    cases hflag
  · rw [hb.others r hr] at hwaits
    obtain ⟨-, hdone, hec⟩ := h.begin_cells hb (Or.inr (Or.inl hwaits))
    rw [hdone] at hflag
    rw [hec, hb.completed]
    refine List.mem_append_left _ (h.settled r id hwaits hflag fun r' => ?_)
    by_cases hr' : r' = t
    · rw [hr', hb.idle]
      exact List.not_mem_nil
    · have hnone := hnobody r'
      rwa [hb.others r' hr'] at hnone

/-- **A thread begins to complete ops.** -/
theorem begin (h : Inv s) (hb : Begins s s' t new ops code) : Inv s' := by
  have hothers : ∀ r, r = t ∨ s'.pc r = s.pc r := fun r =>
    (em (r = t)).imp_right (hb.others r)
  have htodo : (s'.pc t).todo = ops := Pc.todo_eq hb.work
  have hnothing : (s.pc t).todo = [] ∧ (s.pc t).own = none ∧ (s.pc t).waits = none := by
    rw [hb.idle]
    exact ⟨rfl, rfl, rfl⟩
  have hstranger := fun id hid => h.stranger (hb.fresh (.blocking id) (hb.own id hid))
  have hmade : ∀ op, op ∈ s'.made ↔ op ∈ s.made ∨ op ∈ new := by simp [hb.made]
  have hcompleted : ∀ x, x ∈ s'.completed ↔ x ∈ s.completed ∨ ∃ id ∈ ops, (id, code) = x := by
    simp [hb.completed]
  constructor
  case locked =>
    intro r
    by_cases hr : r = t
    · rw [hr]
      exact hb.locked
    · rw [hb.others r hr, hb.owner r hr]
      exact h.locked r
  case one =>
    have hone := h.one
    grind
  case own =>
    intro r id hid
    rw [hmade]
    by_cases hr : r = t
    · exact Or.inr (hb.own id (hr ▸ hid))
    · rw [hb.others r hr] at hid
      exact Or.inl (h.own r id hid)
  case nodup => exact hb.nodup
  case made =>
    intro op hop
    exact (hmade op).mpr ((hb.queued op hop).imp_left (h.made op))
  case queued => exact fun id => h.begin_queued hb
  case todo =>
    have hops := hb.ops_queued
    have hqueued := h.queued
    have hold := h.todo
    grind
  case disjoint =>
    have hops := hb.ops_queued
    have hqueued := h.queued
    have hold := h.disjoint
    grind
  case todo_nodup =>
    intro r
    by_cases hr : r = t
    · rw [hr, htodo]
      exact hb.ops_nodup
    · rw [hb.others r hr]
      exact h.todo_nodup r
  case head => exact fun r line id rest ec => h.begin_head hb
  case known =>
    intro r work hwork id hid
    rw [hcompleted]
    by_cases hr : r = t
    · rw [hr, hb.work] at hwork
      cases hwork
      exact Or.inr ⟨id, hid, rfl⟩
    · rw [hb.others r hr] at hwork
      exact Or.inl (h.known r work hwork id hid)
  case notified =>
    intro r id hsleeps hflag
    by_cases hr : r = t
    · rw [hr, hb.sleeps] at hsleeps
      cases hsleeps
    · rw [hb.others r hr] at hsleeps
      rw [hb.done] at hflag
      split at hflag
      · cases hflag
      · obtain ⟨r', hr'⟩ := h.notified r id hsleeps hflag
        have hrt : r' ≠ t := by
          rintro rfl
          rw [hnothing.1] at hr'
          cases hr'
        exact ⟨r', by rwa [hb.others r' hrt]⟩
  case told =>
    intro x hx
    rw [hb.returned] at hx
    exact (hcompleted x).mpr (Or.inl (h.told x hx))
  case settled => exact fun r id => h.begin_settled hb

end Begins

/-- An op is done with when it was notified. -/
theorem mem_todo_ran (h : Inv s) {line : Line} {id : ι} {rest : List ι} {ec : ErrorCode}
    (hwork : (s.pc t).work = some ⟨line, id :: rest, ec⟩) (r : τ) (x : ι) :
    x ∈ (s.ran t id line ec r).todo ↔ x ∈ (s.pc r).todo ∧ (line = .notify → x ≠ id) := by
  by_cases hr : r = t
  · have hnodup := h.todo_nodup t
    rw [Pc.todo_eq hwork] at hnodup
    rw [hr, State.ran_self, Pc.todo_eq (Pc.next_work hwork), Pc.todo_eq hwork]
    cases line with
    | notify => simp only [Work.next]; grind
    | _ => simp [Work.next]
  · have hmine : id ∈ (s.pc t).todo := by
      rw [Pc.todo_eq hwork]
      exact List.mem_cons_self
    rw [Pc.todo, s.ran_work hr, ← Pc.todo]
    exact ⟨fun hx => ⟨hx, fun _ he => hr (h.disjoint r t id (he ▸ hx) hmine)⟩, And.left⟩

/-- Nobody sleeps on after the notification. -/
theorem sleeps_ran {line : Line} {id : ι} {rest : List ι} {ec : ErrorCode}
    (hwork : (s.pc t).work = some ⟨line, id :: rest, ec⟩)
    (hnotify : line = .notify → ∀ r, s.pc r ≠ .sleep id) {r : τ} {x : ι}
    (hx : (s.ran t id line ec r).sleeps = some x) :
    (s.pc r).sleeps = some x ∧ (line = .notify → x ≠ id) := by
  by_cases hr : r = t
  · rw [hr, State.ran_self, (s.pc t).next_same.2.2.2] at hx
    exfalso
    cases hpct : s.pc t <;> simp [hpct, Pc.sleeps, Pc.work] at hx hwork
  · rw [s.ran_of_ne hr] at hx
    obtain ⟨hbefore, hwoken⟩ := State.touch_sleeps hx
    refine ⟨hbefore, fun hline he => ?_⟩
    subst he
    cases hpcr : s.pc r with
    | asleep y =>
        obtain rfl : y = x := by simpa [hpcr, Pc.sleeps] using hbefore
        exact hwoken hline hpcr
    | sleep y =>
        obtain rfl : y = x := by simpa [hpcr, Pc.sleeps] using hbefore
        exact hnotify hline r hpcr
    | _ => simp [hpcr, Pc.sleeps] at hbefore

/-- The ops of a thread stay distinct. -/
theorem nodup_ran (h : Inv s) {line : Line} {id : ι} {rest : List ι} {ec : ErrorCode}
    (hwork : (s.pc t).work = some ⟨line, id :: rest, ec⟩) (r : τ) :
    (s.ran t id line ec r).todo.Nodup := by
  by_cases hr : r = t
  · have hnodup := h.todo_nodup t
    rw [Pc.todo_eq hwork] at hnodup
    rw [hr, s.ran_self, Pc.todo_eq (Pc.next_work hwork)]
    cases line with
    | notify => exact (List.nodup_cons.mp hnodup).2
    | _ => exact hnodup
  · rw [Pc.todo, s.ran_work hr]
    exact h.todo_nodup r

/-- After `done = true` the flag of the op is set, and after the next line its code is. -/
theorem head_ran (h : Inv s) {line line' : Line} {id x : ι} {rest rest' : List ι}
    {ec ec' : ErrorCode} (hwork : (s.pc t).work = some ⟨line, id :: rest, ec⟩) {r : τ}
    (hx : (s.ran t id line ec r).work = some ⟨line', x :: rest', ec'⟩) :
    (line' ≠ .done → (s.touch id line ec).done x = true) ∧
      (line' = .unlink ∨ line' = .notify → (s.touch id line ec).ec x = ec') := by
  obtain ⟨hflag, hcode⟩ := s.touch_cells id line ec x
  by_cases hr : r = t
  · rw [hr, s.ran_self, Pc.next_work hwork] at hx
    have hhead := h.head t line id rest ec hwork
    cases line with
    | done | assign | unlink =>
        obtain ⟨rfl, hops, rfl⟩ := Work.mk.inj (Option.some.inj hx)
        obtain ⟨rfl, -⟩ := List.cons.inj hops
        simp_all
    | notify =>
        obtain ⟨rfl, -, -⟩ := Work.mk.inj (Option.some.inj hx)
        exact ⟨fun hline => absurd rfl hline, fun hline => hline.elim nofun nofun⟩
  · rw [s.ran_work hr] at hx
    have hmine : id ∈ (s.pc t).todo := by
      rw [Pc.todo_eq hwork]
      exact List.mem_cons_self
    have hmem : x ∈ (s.pc r).todo := by
      rw [Pc.todo_eq hx]
      exact List.mem_cons_self
    have hother : x ≠ id := fun he => hr (h.disjoint r t id (he ▸ hmem) hmine)
    rw [hflag, hcode, if_neg fun he => hother he.2, if_neg fun he => hother he.2]
    exact h.head r line' x rest' ec' hx

/-- No line is added to those of a thread. -/
theorem known_ran (h : Inv s) {line : Line} {id : ι} {rest : List ι} {ec : ErrorCode}
    (hwork : (s.pc t).work = some ⟨line, id :: rest, ec⟩) {r : τ} {work : Work ι}
    (hr : (s.ran t id line ec r).work = some work) {x : ι} (hx : x ∈ work.ops) :
    (x, work.ec) ∈ s.completed := by
  by_cases hrt : r = t
  · rw [hrt, s.ran_self, Pc.next_work hwork] at hr
    obtain rfl := Option.some.inj hr
    have hknown := h.known t _ hwork x
    cases line with
    | notify => exact hknown (List.mem_cons_of_mem _ hx)
    | _ => exact hknown hx
  · exact h.known r work (s.ran_work hrt id line ec ▸ hr) x hx

/-- An op has the code that it was completed with when its last line was run. -/
theorem settled_ran (h : Inv s) {line : Line} {id : ι} {rest : List ι} {ec : ErrorCode}
    (hwork : (s.pc t).work = some ⟨line, id :: rest, ec⟩) {r : τ} {x : ι}
    (hx : (s.pc r).waits = some x) (hflag : (s.touch id line ec).done x = true)
    (hnobody : ∀ r, x ∉ (s.ran t id line ec r).todo) :
    (x, (s.touch id line ec).ec x) ∈ s.completed := by
  obtain ⟨hdone, hcode⟩ := s.touch_cells id line ec x
  have htodo := fun r => h.mem_todo_ran hwork r x
  by_cases hxid : x = id
  · -- this was its last line
    subst hxid
    have hmine : x ∈ (s.pc t).todo := by
      rw [Pc.todo_eq hwork]
      exact List.mem_cons_self
    have hline : line = .notify := by
      by_contra hline
      exact hnobody t ((htodo t).mpr ⟨hmine, fun he => absurd he hline⟩)
    subst hline
    rw [hcode, if_neg nofun, (h.head t _ x rest ec hwork).2 (Or.inr rfl)]
    exact h.known t _ hwork x List.mem_cons_self
  · rw [hdone, if_neg fun he => hxid he.2] at hflag
    rw [hcode, if_neg fun he => hxid he.2]
    exact h.settled r x hx hflag fun r' hr' => hnobody r' ((htodo r').mpr ⟨hr', fun _ => hxid⟩)

/-- **A line is run.** A notification must not find a thread that is about to sleep. -/
theorem line (h : Inv s) {line : Line} {id : ι} {rest : List ι} {ec : ErrorCode}
    (hwork : (s.pc t).work = some ⟨line, id :: rest, ec⟩)
    (hnotify : line = .notify → ∀ r, s.pc r ≠ .sleep id) :
    Inv ((s.touch id line ec).put t (s.pc t).next) := by
  have hcells := s.touch_cells id line ec
  obtain ⟨himpl, howner, hmade, hcompleted, hreturned⟩ := s.touch_rest id line ec
  have hmine : id ∈ (s.pc t).todo := by
    rw [Pc.todo_eq hwork]
    exact List.mem_cons_self
  have hsame := s.ran_same t id line ec
  have htodo := h.mem_todo_ran hwork
  have hpcs : Function.update (s.touch id line ec).pc t (s.pc t).next = s.ran t id line ec := rfl
  constructor <;> simp only [State.put, hpcs]
  case locked =>
    intro r
    rw [(hsame r).2.2, howner]
    exact h.locked r
  case one =>
    intro r r' x hr hr'
    rw [(hsame _).1] at hr hr'
    exact h.one r r' x hr hr'
  case own =>
    intro r x hr
    rw [(hsame r).1] at hr
    rw [hmade]
    exact h.own r x hr
  case nodup => exact himpl ▸ h.nodup
  case made =>
    rw [himpl, hmade]
    exact h.made
  case queued =>
    intro x hx
    rw [himpl] at hx
    obtain ⟨⟨r, hr⟩, hclear, hnobody⟩ := h.queued x hx
    -- the op of the line is not queued any more
    have hother : x ≠ id := fun he => hnobody t (he ▸ hmine)
    refine ⟨⟨r, (hsame r).2.1.trans hr⟩, ?_, fun r' hr' => hnobody r' ((htodo r' x).mp hr').1⟩
    rw [(hcells x).1, if_neg (fun he => hother he.2), hclear]
  case todo =>
    intro r x hx
    rw [(hsame r).1]
    refine (h.todo r x ((htodo r x).mp hx).1).imp_left fun ⟨r', hr'⟩ => ⟨r', ?_⟩
    rwa [(hsame r').2.1]
  case disjoint =>
    exact fun r r' x hr hr' => h.disjoint r r' x ((htodo r x).mp hr).1 ((htodo r' x).mp hr').1
  case todo_nodup => exact h.nodup_ran hwork
  case head => exact fun r line' x rest' ec' => h.head_ran hwork
  case known =>
    rw [hcompleted]
    exact fun r work hr x => h.known_ran hwork hr
  case notified =>
    intro r x hx hflag
    obtain ⟨hbefore, hwoken⟩ := sleeps_ran hwork hnotify hx
    by_cases hdone : line = .done ∧ x = id
    · exact ⟨t, (htodo t x).mpr ⟨hdone.2 ▸ hmine, fun hline => by cases hdone.1.symm.trans hline⟩⟩
    · rw [(hcells x).1, if_neg hdone] at hflag
      obtain ⟨r', hr'⟩ := h.notified r x hbefore hflag
      exact ⟨r', (htodo r' x).mpr ⟨hr', hwoken⟩⟩
  case told =>
    rw [hreturned, hcompleted]
    exact h.told
  case settled =>
    intro r x hx
    rw [(hsame r).2.1] at hx
    rw [hcompleted]
    exact h.settled_ran hwork hx

omit [DecidableEq ι] in
/-- The ids of the blocking ops in a list. -/
theorem mem_filterMap_blockingId {ops : List (Op ι)} {id : ι} :
    id ∈ ops.filterMap blockingId ↔ .blocking id ∈ ops := by
  rw [List.mem_filterMap]
  constructor
  · rintro ⟨op, hop, hid⟩
    cases op with
    | blocking own =>
        obtain rfl := Option.some.inj hid
        exact hop
    | async own slot => cases hid
  · exact fun hop => ⟨_, hop, rfl⟩

omit [DecidableEq ι] in
/-- They are different. -/
theorem nodup_filterMap_blockingId {ops : List (Op ι)} (h : ops.Nodup) :
    (ops.filterMap blockingId).Nodup := by
  refine h.filterMap fun op op' id hop hop' => ?_
  cases op with
  | async own slot => cases hop
  | blocking own =>
      cases op' with
      | async own' slot => cases hop'
      | blocking own' => rw [Option.some.inj hop, Option.some.inj hop']

omit [DecidableEq τ] in
/-- Nobody has made a call. -/
theorem init {impl : P.State} (himpl : P.queued impl = []) : Inv (State.init impl : State P τ) where
  locked _ := iff_of_false nofun nofun
  one _ _ _ h := nomatch h
  own _ _ h := nomatch h
  nodup := himpl ▸ List.nodup_nil
  made op hop := by simp [State.init, himpl] at hop
  queued id hid := by simp [State.init, himpl] at hid
  todo _ _ h := nomatch h
  disjoint _ _ _ h := nomatch h
  todo_nodup _ := List.nodup_nil
  head _ _ _ _ _ h := nomatch h
  known _ _ h := nomatch h
  notified _ _ h := nomatch h
  told _ h := nomatch h
  settled _ _ h := nomatch h

/-- A call takes `mtx_` and completes ops that are queued. -/
theorem call (h : Inv s) {c : P.Call} {ec : ErrorCode} (hidle : s.pc t = .idle)
    (hfree : s.owner = none) (hfresh : s.Fresh c) : Inv (s.call t c ec) := by
  have hnew : ∀ op ∈ P.request c, op ∉ P.queued s.impl := fun op hop hmem =>
    hfresh op hop (h.made op hmem)
  have heffect := P.effect s.impl c h.nodup hnew
  have hmem := fun op => @Effect.mem_left _ _ _ _ _ _ _ op heffect h.nodup hnew
  have hwhole := (heffect.perm hnew).nodup_iff.mpr
    (List.nodup_append.mpr ⟨h.nodup, by cases P.request c <;> simp,
      fun op hop op' hop' he => hnew op' (by simpa using hop') (he ▸ hop)⟩)
  obtain ⟨hfirst, hleft, -⟩ := List.nodup_append.mp hwhole
  have hown : ∀ id, (P.request c).bind blockingId = some id ↔
      P.request c = some (.blocking id) := by
    intro id
    cases hreq : P.request c with
    | none => simp
    | some op => cases op <;> simp [blockingId]
  have hself : (s.call t c ec).pc t =
      .inside ⟨.done, (P.call s.impl c).completed.filterMap blockingId, .success⟩
        ((P.request c).bind blockingId) (decide ((P.call s.impl c).outcome = Outcome.queued)) :=
    State.put_self ..
  have hmine : ∀ id, ((s.call t c ec).pc t).own = some id ↔ P.request c = some (.blocking id) := by
    intro id
    rw [hself]
    exact hown id
  refine h.begin
    { idle := hidle
      others := fun r hr => State.put_of_ne hr _
      work := by rw [hself]; rfl
      sleeps := by rw [hself]; rfl
      own := fun id hid => Option.mem_toList.mpr ((hmine id).mp hid)
      locked := by rw [hself]; exact iff_of_true rfl rfl
      owner := fun r hr => by simp [State.call, State.put, hfree, Ne.symm hr]
      fresh := fun op hop => hfresh op (Option.mem_toList.mp hop)
      made := rfl
      completed := rfl
      returned := rfl
      done := fun id => by rw [hself]; rfl
      ec := fun id hid => if_neg fun he => hid ((hmine id).mpr ((hown id).mp he))
      ops_queued := ?ops_queued
      ops_nodup := nodup_filterMap_blockingId (List.nodup_append.mp hfirst).1
      nodup := hleft
      queued := ?queued
      blocking := ?blocking }
  case ops_queued =>
    intro id hid
    by_cases hreq : P.request c = some (.blocking id)
    · exact Or.inr ((hmine id).mpr hreq)
    · exact Or.inl (heffect.completed_subset hreq (mem_filterMap_blockingId.mp hid))
  case queued =>
    intro op hop
    rcases (hmem op).mp hop with hold | hreq
    · exact Or.inl hold.1
    · exact Or.inr (by simp [hreq.1])
  case blocking =>
    intro id hid
    rcases (hmem _).mp hid with hold | hreq
    · exact ⟨fun hdone => hold.2 (mem_filterMap_blockingId.mp hdone), Or.inl hold.1⟩
    · have hnobody := heffect.completed_of_queued hreq.2 (by simp [hreq.1])
      refine ⟨by simp [hnobody], Or.inr ?_⟩
      rw [hself]
      show (if decide _ = true then (P.request c).bind blockingId else none) = some id
      rw [if_pos (decide_eq_true hreq.2), hown]
      exact hreq.1

omit [DecidableEq τ] in
/-- A cancellation handler takes an op of a handler out of its list. -/
theorem cancel (h : Inv s) {op : Op ι} (hop : op ∈ P.queued s.impl) :
    Inv { s with impl := P.unlink s.impl op } := by
  have hperm := P.unlink_perm s.impl op h.nodup hop
  have hsub : ∀ q, q ∈ P.queued (P.unlink s.impl op) → q ∈ P.queued s.impl := fun q hq =>
    hperm.subset (List.mem_cons_of_mem _ hq)
  exact
    { h with
      nodup := (List.nodup_cons.mp (hperm.nodup_iff.mpr h.nodup)).2
      made := fun q hq => h.made q (hsub q hq)
      queued := fun id hid => h.queued id (hsub _ hid) }

/-- `shutdown()` takes the ops that are queued. -/
theorem shutdown (h : Inv s) (hidle : s.pc t = .idle) (hfree : s.owner = none) :
    Inv (s.shutdown t) := by
  have hnone : P.queued (P.takeAll s.impl) = [] := P.takeAll_lists s.impl
  have hself : (s.shutdown t).pc t =
      .drain ⟨.done, (P.queued s.impl).filterMap blockingId, .shutDown⟩ := State.put_self ..
  have hnobody : ∀ op, op ∉ P.queued (s.shutdown t).impl := by
    intro op hop
    rw [show P.queued (s.shutdown t).impl = [] from hnone] at hop
    cases hop
  exact h.begin
    { idle := hidle
      others := fun r hr => State.put_of_ne hr _
      work := by rw [hself]; rfl
      sleeps := by rw [hself]; rfl
      own := by rw [hself]; nofun
      locked := by
        rw [hself]
        refine iff_of_false nofun fun howner => ?_
        cases hfree.symm.trans howner
      owner := fun r hr => Iff.rfl
      fresh := fun op hop => absurd hop List.not_mem_nil
      made := (List.append_nil s.made).symm
      completed := rfl
      returned := rfl
      done := fun id => by rw [hself]; rfl
      ec := fun id hid => rfl
      ops_queued := fun id hid => Or.inl (mem_filterMap_blockingId.mp hid)
      ops_nodup := nodup_filterMap_blockingId h.nodup
      nodup := hnone ▸ List.nodup_nil
      queued := fun op hop => absurd hop (hnobody op)
      blocking := fun id hid => absurd hid (hnobody _) }

omit [DecidableEq τ] in
/-- The lock of `t` is released. -/
theorem released (howner : s.owner = some t) (r : τ) (hr : r ≠ t) :
    (none : Option τ) = some r ↔ s.owner = some r := by
  simp [howner, Ne.symm hr]

omit [DecidableEq τ] in
/-- A line that meets the condition notifies nobody who is about to sleep. -/
theorem not_sleeping (h : Inv s) (hclear : Clear s (.line t)) {id : ι} {rest : List ι}
    {ec : ErrorCode} (hwork : (s.pc t).work = some ⟨.notify, id :: rest, ec⟩) (r : τ) :
    s.pc r ≠ .sleep id := by
  intro hr
  cases hpc : s.pc t with
  | inside work own waits =>
      -- both have `mtx_`
      have ht : s.owner = some t := (h.locked t).mp (by rw [hpc]; rfl)
      have hr' : s.owner = some r := (h.locked r).mp (by rw [hr]; rfl)
      obtain rfl := Option.some.inj (ht.symm.trans hr')
      cases hpc.symm.trans hr
  | drain work =>
      rw [hpc] at hwork
      obtain rfl := Option.some.inj hwork
      exact hclear id rest ec hpc r hr
  | _ =>
      rw [hpc] at hwork
      cases hwork

/-- A thread that finds `done` set returns. -/
theorem returns (h : Inv s) (hclear : Clear s (.test t)) {id : ι} (hpc : s.pc t = .test id)
    (hdone : s.done id = true) :
    Inv ({ s with owner := none, returned := s.returned ++ [(id, s.ec id)] }.put t .idle) := by
  have howner := (h.locked t).mp (by rw [hpc]; rfl)
  have hnobody := hclear id hpc hdone
  have hcode := h.settled t id (by rw [hpc]; rfl) hdone hnobody
  refine h.put (by rw [hpc]; rfl) rfl (iff_of_false nofun nofun) (released howner) nofun nofun
    (fun x hx _ => ?_) nofun (fun x hx => ?_)
  · rw [hpc] at hx
    exact Option.some.inj hx ▸ ⟨hdone, hnobody⟩
  · rcases List.mem_append.mp hx with hold | hnew
    · exact Or.inl hold
    · exact Or.inr (List.mem_singleton.mp hnew ▸ hcode)

/-- **One step** that meets the condition. -/
theorem step (h : Inv s) (hclear : Clear s l) (hstep : step s l = some s') : Inv s' := by
  cases moves hstep with
  | call hidle hfree hfresh => exact h.call hidle hfree hfresh
  | cancel hop => exact h.cancel hop
  | line hwork => exact h.line hwork fun hline => h.not_sleeping hclear (hline ▸ hwork)
  | @waits t line ec id hpc =>
      have hlocked := h.locked t
      rw [hpc] at hlocked
      exact h.keep (by rw [hpc]; rfl) rfl hlocked (fun _ _ => Iff.rfl) (by rw [hpc]; rfl) rfl rfl
        nofun
  | @leaves t line ec own waits hpc hwaits =>
      have howner := (h.locked t).mp (by rw [hpc]; rfl)
      refine h.put (by rw [hpc]; rfl) rfl (iff_of_false nofun nofun) (released howner) nofun nofun
        (fun x hx => ?_) nofun fun x hx => Or.inl hx
      rw [hwaits] at hx
      cases hx
  | @drained t line ec hpc =>
      have hlocked := h.locked t
      rw [hpc] at hlocked
      refine h.put (by rw [hpc]; rfl) rfl hlocked (fun _ _ => Iff.rfl) nofun nofun (fun x hx => ?_)
        nofun fun x hx => Or.inl hx
      rw [hpc] at hx
      cases hx
  | returns hpc hdone => exact h.returns hclear hpc hdone
  | @unset t id hpc hdone =>
      have howner := (h.locked t).mp (by rw [hpc]; rfl)
      exact h.keep (by rw [hpc]; rfl) rfl (iff_of_true rfl howner) (fun _ _ => Iff.rfl)
        (by rw [hpc]; rfl) rfl rfl fun x hx => Or.inr (Option.some.inj hx ▸ hdone)
  | @sleep t id hpc =>
      have howner := (h.locked t).mp (by rw [hpc]; rfl)
      exact h.keep (by rw [hpc]; rfl) rfl (iff_of_false nofun nofun) (released howner)
        (by rw [hpc]; rfl) rfl rfl fun x hx => Or.inl (by rwa [hpc])
  | @wake t id hpc =>
      have hlocked := h.locked t
      rw [hpc] at hlocked
      exact h.keep (by rw [hpc]; rfl) rfl hlocked (fun _ _ => Iff.rfl) (by rw [hpc]; rfl) rfl rfl
        nofun
  | @relock t id hpc hfree =>
      refine h.keep (by rw [hpc]; rfl) rfl (iff_of_true rfl rfl) (fun r hr => ?_)
        (by rw [hpc]; rfl) rfl rfl nofun
      simp [hfree, Ne.symm hr]
  | shutdown hidle hfree => exact h.shutdown hidle hfree

omit [DecidableEq τ] in
/-- Whoever completes an op finds it, and whoever sleeps will be notified. -/
theorem sound (h : Inv s) : Sound s where
  alive r id hid := by
    rcases h.todo r id hid with ⟨t, ht⟩ | hown
    · exact ⟨t, Pc.own_of_waits ht⟩
    · exact ⟨r, hown⟩
  notified := h.notified
  told := h.told

/-- **A step that misses the condition** leaves a line for an op that is gone, or a thread that is
not notified. -/
theorem broken (h : Inv s) (hclear : ¬ Clear s l) (hstep : Wakeup.step s l = some s') :
    ¬ Sound s' := by
  cases l with
  | test t =>
      simp only [Clear, not_forall, not_not] at hclear
      obtain ⟨id, hpc, hdone, r, hr⟩ := hclear
      simp only [Wakeup.step, hpc, hdone, if_true] at hstep
      obtain rfl := Option.some.inj hstep
      intro hsound
      have hrt : r ≠ t := by
        rintro rfl
        rw [hpc] at hr
        cases hr
      obtain ⟨r', hr'⟩ := hsound.alive r id (by rwa [State.put_of_ne hrt])
      by_cases ht : r' = t
      · rw [ht, State.put_self] at hr'
        cases hr'
      · rw [State.put_of_ne ht] at hr'
        exact ht (h.one r' t id hr' (by rw [hpc]; rfl))
  | line t =>
      simp only [Clear, not_forall, not_not] at hclear
      obtain ⟨id, rest, ec, hpc, r, hr⟩ := hclear
      have hwork : (s.pc t).work = some ⟨.notify, id :: rest, ec⟩ := by rw [hpc]; rfl
      simp only [Wakeup.step, hwork] at hstep
      obtain rfl := Option.some.inj hstep
      intro hsound
      have hrt : r ≠ t := by
        rintro rfl
        cases hpc.symm.trans hr
      have hmine : id ∈ (s.pc t).todo := by
        rw [Pc.todo_eq hwork]
        exact List.mem_cons_self
      have hnodup := h.todo_nodup t
      rw [Pc.todo_eq hwork] at hnodup
      -- the thread goes on to sleep, and nobody is left to notify it
      have hstill :
          ((State.put (s.touch id .notify ec) t (s.pc t).next).pc r).sleeps = some id := by
        rw [State.put_of_ne hrt]
        simp only [State.touch, hr]
        rfl
      obtain ⟨r', hr'⟩ := hsound.notified r id hstill ((h.head t _ id rest ec hwork).1 nofun)
      by_cases ht : r' = t
      · rw [ht, State.put_self, Pc.todo_eq (Pc.next_work hwork)] at hr'
        exact (List.nodup_cons.mp hnodup).1 hr'
      · rw [State.put_of_ne ht, Pc.todo, (s.touch_same id .notify ec r').2.2.2, ← Pc.todo] at hr'
        exact ht (h.disjoint r' t id hr' hmine)
  | _ => exact absurd trivial hclear

end Inv

/-- **When waking is safe.** For each kind of primitive with blocking calls and every run of any
number of threads from its construction: no line of `complete` or `shutdown` is ever left for an op
that is gone, no thread sleeps through its notification and every call that waited returns the code
that its op was completed with, in all states of the run, exactly when every thread that finds
`done` set leaves no line for its op behind and no line of `shutdown()` notifies a thread that has
found `done` unset and does not sleep yet. -/
theorem sound_iff {impl : P.State} (himpl : P.queued impl = []) (ls : List (Label P τ)) :
    (∀ t, Visits step (State.init impl) ls t → Sound t) ↔
      ∀ t l, Takes step (State.init impl) ls t l → Clear t l :=
  visits_iff_takes (fun _ _ _ h hclear hstep => h.step hclear hstep) (fun _ h => h.sound)
    (fun _ _ _ h hclear hstep => h.broken hclear hstep) (Inv.init himpl) ls

/-- A thread waits for a mutex that is locked, and `shutdown()` takes its op. -/
def shutDown : List (Label (MutexImpl.primitive (ι := Nat)) Nat) :=
  [.call 0 .tryLock .success, .leave 0, .call 1 (.lock 0) .success, .leave 1, .test 1, .sleep 1,
    .shutdown 2]

/-- The equivalence when the thread sleeps until it is notified. -/
theorem sound_iff_shutDown :
    (∀ t, Visits step (State.init (MutexImpl.init true))
        (shutDown ++ [.line 2, .line 2, .line 2, .line 2, .relock 1, .test 1]) t → Sound t) ↔
      ∀ t l, Takes step (State.init (MutexImpl.init true))
        (shutDown ++ [.line 2, .line 2, .line 2, .line 2, .relock 1, .test 1]) t l → Clear t l :=
  sound_iff rfl _

/-- A thread that wakes up by itself after `done = true` returns from `lock` without an error and
without the lock, while three lines are left for its op; one that wakes up before it and finds
`done` unset is notified before it sleeps, and sleeps on. -/
theorem shutdown_races :
    (∃ s : State (MutexImpl.primitive (ι := Nat)) Nat,
      run step (State.init (MutexImpl.init true)) (shutDown ++
          [.line 2, .wake 1, .relock 1, .test 1]) = some s ∧
        s.returned = [(0, .success)] ∧ s.completed = [(0, .shutDown)] ∧
        (s.pc 2).todo = [0] ∧ s.pc 1 = .idle) ∧
    ∃ s : State (MutexImpl.primitive (ι := Nat)) Nat,
      run step (State.init (MutexImpl.init true)) (shutDown ++
          [.wake 1, .relock 1, .test 1, .line 2, .line 2, .line 2, .line 2, .sleep 1]) = some s ∧
        s.pc 1 = .asleep 0 ∧ s.done 0 = true ∧ s.owner = none ∧ (s.pc 2).todo = [] :=
  ⟨⟨_, rfl, rfl, rfl, rfl, rfl⟩, _, rfl, rfl, rfl, rfl, rfl⟩

/-! ## Without a shutdown -/

/-- Nobody was shut down. -/
structure Quiet (s : State P τ) : Prop where
  running : ∀ t work, s.pc t ≠ .drain work
  codes : ∀ x ∈ s.completed, x.2 = .success

namespace Quiet

variable {s s' : State P τ} {t : τ} {l : Label P τ}

/-- A thread that goes on does not drain. -/
theorem put (h : Quiet s) {pc : Pc ι} (hpc : pc.work = none) {owner : Option τ}
    {returned : List (ι × ErrorCode)} : Quiet ({ s with owner, returned }.put t pc) := by
  refine ⟨fun r work => ?_, h.codes⟩
  by_cases hr : r = t
  · rw [hr, State.put_self]
    rintro rfl
    cases hpc
  · rw [State.put_of_ne hr]
    exact h.running r work

/-- A call. -/
theorem call (h : Quiet s) (c : P.Call) (ec : ErrorCode) : Quiet (s.call t c ec) := by
  refine ⟨fun r work => ?_, fun x hx => ?_⟩
  · by_cases hr : r = t
    · rw [hr, State.call, State.put_self]
      exact nofun
    · rw [State.call, State.put_of_ne hr]
      exact h.running r work
  · rcases List.mem_append.mp hx with hold | hnew
    · exact h.codes x hold
    · obtain ⟨id, -, rfl⟩ := List.mem_map.mp hnew
      rfl

/-- A line. -/
theorem line (h : Quiet s) (id : ι) (line : Line) (ec : ErrorCode) :
    Quiet ((s.touch id line ec).put t (s.pc t).next) := by
  refine ⟨fun r work hr => ?_, (s.touch_rest id line ec).2.2.2.1 ▸ h.codes⟩
  by_cases hrt : r = t
  · rw [hrt, State.put_self] at hr
    cases hpc : s.pc t with
    | drain work => exact h.running t work hpc
    | _ =>
        rw [hpc] at hr
        cases hr
  · -- whoever it wakes does not drain either
    rw [State.put_of_ne hrt] at hr
    cases line with
    | notify =>
        simp only [State.touch] at hr
        split at hr
        · cases hr
        · exact h.running r work hr
    | _ => exact h.running r work hr

/-- Every step but a shutdown. -/
theorem step (h : Quiet s) (hl : ∀ t, l ≠ .shutdown t) (hstep : step s l = some s') : Quiet s' := by
  cases moves hstep with
  | call => exact h.call ..
  | cancel => exact ⟨h.running, h.codes⟩
  | line => exact h.line ..
  | waits | leaves | drained | returns | unset | sleep | wake | relock => exact h.put rfl
  | @shutdown t => exact absurd rfl (hl t)

omit [DecidableEq τ] in
/-- Whoever completes an op has `mtx_`. -/
theorem owner_of_todo (h : Quiet s) (hinv : Inv s) {r : τ} {id : ι} (hid : id ∈ (s.pc r).todo) :
    s.owner = some r := by
  refine (hinv.locked r).mp ?_
  cases hpc : s.pc r with
  | inside => rfl
  | drain work => exact absurd hpc (h.running r work)
  | _ =>
      rw [hpc] at hid
      cases hid

omit [DecidableEq τ] in
/-- Completions under `mtx_` meet the condition. -/
theorem clear (h : Quiet s) (hinv : Inv s) (l : Label P τ) : Clear s l := by
  cases l with
  | test t =>
      intro id hpc _ r hr
      have howner := (hinv.locked t).mp (by rw [hpc]; rfl)
      obtain rfl := Option.some.inj (howner.symm.trans (h.owner_of_todo hinv hr))
      rw [hpc] at hr
      cases hr
  | line t => exact fun id rest ec hpc => absurd hpc (h.running t _)
  | _ => trivial

/-- A thread whose op was completed is awake, and returns as soon as it gets `mtx_`. -/
theorem returns (h : Quiet s) (hinv : Inv s) (hfree : s.owner = none) {id : ι}
    (hwaits : (s.pc t).waits = some id) (hdone : s.done id = true) :
    s.pc t = .awake id ∧ ∃ s', run Wakeup.step s [.relock t, .test t] = some s' ∧
      s'.returned = s.returned ++ [(id, .success)] := by
  have hnobody : ∀ r, id ∉ (s.pc r).todo := fun r hr =>
    nomatch hfree.symm.trans (h.owner_of_todo hinv hr)
  have hunlocked : (s.pc t).locked ≠ true := fun hlocked =>
    nomatch hfree.symm.trans ((hinv.locked t).mp hlocked)
  have hpc : s.pc t = .awake id := by
    cases hpc : s.pc t with
    | awake x =>
        rw [hpc] at hwaits
        rw [Option.some.inj hwaits]
    | asleep x =>
        rw [hpc] at hwaits
        obtain rfl := Option.some.inj hwaits
        obtain ⟨r, hr⟩ := hinv.notified t x (by rw [hpc]; rfl) hdone
        exact absurd hr (hnobody r)
    | idle | drain work =>
        rw [hpc] at hwaits
        cases hwaits
    | _ =>
        rw [hpc] at hunlocked
        exact absurd rfl hunlocked
  have hcode : s.ec id = .success := h.codes _ (hinv.settled t id hwaits hdone hnobody)
  have hrelock : Wakeup.step s (.relock t) =
      some ({ s with owner := some t }.put t (.test id)) := by
    simp only [Wakeup.step, hpc, hfree, if_true]
  have htest : Wakeup.step ({ s with owner := some t }.put t (.test id)) (.test t) =
      some ({ ({ s with owner := some t }.put t (.test id)) with
        owner := none
        returned := s.returned ++ [(id, s.ec id)] }.put t .idle) := by
    simp only [Wakeup.step, State.put_self]
    exact if_pos hdone
  exact ⟨hpc, _, run_cons.mpr ⟨_, hrelock, run_cons.mpr ⟨_, htest, rfl⟩⟩, hcode ▸ rfl⟩

end Quiet

/-- **Completions under `mtx_` are safe.** In every run of any number of threads without a shutdown:
no line is left for an op that is gone, nobody sleeps through a notification, and every call that
waited returns success. Whenever nobody has `mtx_`, a thread whose op was completed is awake, and
returns from its call as soon as it gets `mtx_`. -/
theorem running_sound {impl : P.State} (himpl : P.queued impl = []) {ls : List (Label P τ)}
    (hls : ∀ l ∈ ls, ∀ t, l ≠ .shutdown t) {s : State P τ}
    (hrun : run step (State.init impl) ls = some s) :
    Sound s ∧ (∀ x ∈ s.returned, x.2 = .success) ∧ (s.owner = none →
      ∀ t id, (s.pc t).waits = some id → s.done id = true →
        s.pc t = .awake id ∧ ∃ s', run step s [.relock t, .test t] = some s' ∧
          s'.returned = s.returned ++ [(id, .success)]) := by
  have hkeep : Inv s ∧ Quiet s := by
    refine run_invariant_of_mem (I := fun s => Inv s ∧ Quiet s) (fun u l u' hl h hstep => ?_)
      ⟨Inv.init himpl, fun _ _ => nofun, fun _ hx => nomatch hx⟩ hrun
    exact ⟨h.1.step (h.2.clear h.1 l) hstep, h.2.step (hls l hl) hstep⟩
  obtain ⟨hinv, hquiet⟩ := hkeep
  exact ⟨hinv.sound, fun x hx => hquiet.codes x (hinv.told x hx),
    fun hfree t id hwaits hdone => hquiet.returns hinv hfree hwaits hdone⟩

/-- A thread waits for a mutex that is locked, and the holder unlocks it. -/
def unlocked : List (Label (MutexImpl.primitive (ι := Nat)) Nat) :=
  [.call 0 .tryLock .success, .leave 0, .call 1 (.lock 0) .success, .leave 1, .test 1, .sleep 1,
    .call 0 .unlock .success, .line 0, .line 0, .line 0, .line 0, .leave 0]

/-- The thread is awake and can return. -/
theorem running_sound_unlocked :
    ∃ s : State (MutexImpl.primitive (ι := Nat)) Nat,
      run step (State.init (MutexImpl.init true)) unlocked = some s ∧
        s.owner = none ∧ (s.pc 1).waits = some 0 ∧ s.done 0 = true ∧
        (Sound s ∧ (∀ x ∈ s.returned, x.2 = .success) ∧ (s.owner = none →
          ∀ t id, (s.pc t).waits = some id → s.done id = true →
            s.pc t = .awake id ∧ ∃ s', run step s [.relock t, .test t] = some s' ∧
              s'.returned = s.returned ++ [(id, .success)])) := by
  have hnone : ∀ l ∈ unlocked, ∀ t, l ≠ .shutdown t := by simp [unlocked]
  have hrun : ∃ s : State (MutexImpl.primitive (ι := Nat)) Nat,
      run step (State.init (MutexImpl.init true)) unlocked = some s ∧ s.owner = none ∧
        (s.pc 1).waits = some 0 ∧ s.done 0 = true := ⟨_, rfl, rfl, rfl, rfl⟩
  obtain ⟨s, hs, hfree, hwaits, hdone⟩ := hrun
  exact ⟨s, hs, hfree, hwaits, hdone, running_sound rfl hnone hs⟩

end Sam.Wakeup
