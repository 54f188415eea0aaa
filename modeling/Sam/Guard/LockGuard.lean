import Mathlib.Data.List.Count
import Sam.Guard.Lockable
import Sam.Library.Tally

/-!
# `lock_guard`

Runs in which mutexes are locked with the free functions `lock` and `async_lock` only, and the
guards that these return are moved, assigned and destroyed. A guard is a name; `mtx` is its pointer,
together with the call whose lock it owns, which the code does not know. `unlocks` is a ghost log of
the calls whose lock was given back. Read `lock_guard_owns` for the result.
-/

namespace Sam.LockGuard

open Tally Transition

universe u v w

/-- Where a call of `lock` or `async_lock` is. `blocked` and `waiting` are queued ops of the two,
`granted` and `aborted` are completions in flight, `locked` and `failed` are returns with a
non-empty guard and without one. -/
inductive Stage (μ : Type v) where
  | idle
  | blocked (m : μ)
  | waiting (m : μ)
  | granted (m : μ)
  | aborted
  | locked
  | failed
  deriving DecidableEq, Repr

namespace Stage

variable {μ : Type v}

/-- The call was made. -/
def Started : Stage μ → Prop
  | idle => False
  | _ => True

/-- The op of the call is queued at this mutex. -/
def WaitsFor (m : μ) : Stage μ → Prop
  | blocked n | waiting n => n = m
  | _ => False

/-- A grant of this mutex is in flight. -/
def GrantedBy (m : μ) : Stage μ → Prop
  | granted n => n = m
  | _ => False

/-- The call returned with a non-empty guard. -/
def Locked : Stage μ → Prop
  | locked => True
  | _ => False

/-- A call with a queued op was made, waits for one mutex and has no lock. -/
theorem WaitsFor.facts {m : μ} {st : Stage μ} (h : st.WaitsFor m) :
    st.Started ∧ (∀ n, ¬ st.GrantedBy n) ∧ ¬ st.Locked ∧ ∀ n, n ≠ m → ¬ st.WaitsFor n := by
  cases st with
  | blocked k | waiting k => exact ⟨trivial, fun n => id, id, fun n hn he => hn (he.symm.trans h)⟩
  | _ => exact absurd h id

instance [DecidableEq μ] (m : μ) : DecidablePred (GrantedBy m) := fun st => by
  cases st <;> unfold GrantedBy <;> infer_instance

instance : DecidablePred (Locked (μ := μ)) := fun st => by
  cases st <;> unfold Locked <;> infer_instance

end Stage

/-- The pointer refers to this mutex. -/
def RefersTo {ι : Type u} {μ : Type v} (m : μ) (p : Option (μ × ι)) : Prop :=
  p.map Prod.fst = some m

/-- The pointer owns the lock of this call. -/
def Owns {ι : Type u} {μ : Type v} (i : ι) (p : Option (μ × ι)) : Prop := p.map Prod.snd = some i

instance {ι : Type u} {μ : Type v} [DecidableEq μ] (m : μ) :
    DecidablePred (RefersTo (ι := ι) m) := fun _ => inferInstanceAs (Decidable (_ = _))

instance {ι : Type u} {μ : Type v} [DecidableEq ι] (i : ι) :
    DecidablePred (Owns (μ := μ) i) := fun _ => inferInstanceAs (Decidable (_ = _))

variable {ι : Type u} {μ : Type v} {γ : Type w} [DecidableEq ι] [DecidableEq μ] [DecidableEq γ]

/-- The mutexes, the calls and the live guards. -/
structure Run (L : μ → Lockable ι) (γ : Type w) where
  impl : ∀ m, (L m).State
  calls : List ι
  stage : ι → Stage μ
  guards : List γ
  mtx : γ → Option (μ × ι)
  unlocks : List ι

/-- What happens next. `throws` tells `lock(mtx)` from `lock(mtx, ec)`, and `deliver` is the return
of a call whose completion is in flight; `g` is the guard that is returned. -/
inductive Label (ι : Type u) (μ : Type v) (γ : Type w) where
  | lock (call : ι) (m : μ) (throws : Bool) (g : γ)
  | asyncLock (call : ι) (m : μ)
  | cancel (call : ι)
  | deliver (call : ι) (g : γ)
  | moveConstruct (g lhs : γ)
  | moveAssign (g lhs : γ)
  | destroy (g : γ)
  deriving DecidableEq, Repr

variable {L : μ → Lockable ι}

namespace Run

/-- Nobody has used the mutexes. -/
def init (L : μ → Lockable ι) : Run L γ :=
  ⟨fun m => (L m).init, [], fun _ => .idle, [], fun _ => none, []⟩

/-- The live guards that refer to a mutex. -/
def owners (s : Run L γ) (m : μ) : Nat := tally s.guards s.mtx (RefersTo m)

/-- The grants of a mutex in flight. -/
def inFlight (s : Run L γ) (m : μ) : Nat := tally s.calls s.stage (Stage.GrantedBy m)

/-- The live guards that own the lock of a call. -/
def owning (s : Run L γ) (i : ι) : Nat := tally s.guards s.mtx (Owns i)

/-- The call goes on to this stage. -/
def move (s : Run L γ) (i : ι) (st : Stage μ) : Run L γ :=
  { s with stage := Function.update s.stage i st }

/-- A new guard: `lock_guard{}` or `lock_guard{mtx, std::adopt_lock}`. -/
def create (s : Run L γ) (g : γ) (p : Option (μ × ι)) : Run L γ :=
  { s with guards := s.guards ++ [g], mtx := Function.update s.mtx g p }

/-- `lock(mtx)` and `lock(mtx, ec)`, as far as the end or the wait. -/
def lock (s : Run L γ) (i : ι) (m : μ) (throws : Bool) (g : γ) : Run L γ :=
  let r := (L m).take (s.impl m) i
  let s := { s with impl := Function.update s.impl m r.state, calls := s.calls ++ [i] }
  match r.outcome with
  | .granted => (s.move i .locked).create g (some (m, i))
  | .queued => s.move i (.blocked m)
  | _ => if throws then s.move i .failed else (s.move i .failed).create g none

/-- `async_lock_op::operator()(Self &&)`. -/
def asyncLock (s : Run L γ) (i : ι) (m : μ) : Run L γ :=
  let r := (L m).asyncTake (s.impl m) i
  let s := { s with impl := Function.update s.impl m r.state, calls := s.calls ++ [i] }
  match r.outcome with
  | .granted => s.move i (.granted m)
  | _ => s.move i (.waiting m)

/-- The cancellation handler of a queued op. -/
def cancel (s : Run L γ) (i : ι) (m : μ) : Run L γ :=
  { s with impl := Function.update s.impl m ((L m).unlink (s.impl m) i) }.move i .aborted

/-- `lock_guard(lock_guard &&lhs)`. -/
def moveConstruct (s : Run L γ) (g lhs : γ) : Run L γ :=
  { s with
    guards := s.guards ++ [g]
    mtx := Function.update (Function.update s.mtx g (s.mtx lhs)) lhs none }

/-- `operator=(lock_guard &&lhs)`: the pointers are swapped. -/
def moveAssign (s : Run L γ) (g lhs : γ) : Run L γ :=
  { s with mtx := Function.update (Function.update s.mtx g (s.mtx lhs)) lhs (s.mtx g) }

/-- An `unlock` grants these ops. -/
def grant (s : Run L γ) (m : μ) (ops : List ι) : Run L γ :=
  ops.foldl (fun s j => s.move j (.granted m)) s

/-- `~lock_guard()`. -/
def destroy (s : Run L γ) (g : γ) : Run L γ :=
  let s' := { s with guards := s.guards.erase g }
  match s.mtx g with
  | none => s'
  | some (m, i) =>
      let r := (L m).give (s'.impl m)
      { s' with
        impl := Function.update s'.impl m r.state
        unlocks := s'.unlocks ++ [i] }.grant m r.completed

end Run

/-- One step. Calls and guards that are made are new; a moved, assigned or destroyed guard is
live. -/
def step (s : Run L γ) : Label ι μ γ → Option (Run L γ)
  | .lock i m throws g =>
      if s.stage i = .idle ∧ g ∉ s.guards then some (s.lock i m throws g) else none
  | .asyncLock i m => if s.stage i = .idle then some (s.asyncLock i m) else none
  | .cancel i =>
      match s.stage i with
      | .waiting m => some (s.cancel i m)
      | _ => none
  | .deliver i g =>
      if g ∉ s.guards then
        match s.stage i with
        | .granted m => some ((s.move i .locked).create g (some (m, i)))
        | .aborted => some ((s.move i .failed).create g none)
        | _ => none
      else none
  | .moveConstruct g lhs =>
      if g ∉ s.guards ∧ lhs ∈ s.guards then some (s.moveConstruct g lhs) else none
  | .moveAssign g lhs =>
      if g ∈ s.guards ∧ lhs ∈ s.guards then some (s.moveAssign g lhs) else none
  | .destroy g => if g ∈ s.guards then some (s.destroy g) else none

/-! ## What every step keeps -/

/-- The account of a mutex: its permit is free, owned by a guard, on its way to a call, or in
`hand`, when it is not in a guard yet or not any more. -/
structure Account (hand : Option (μ × ι)) (s : Run L γ) (m : μ) (impl : (L m).State) : Prop where
  ok : (L m).Ok impl
  line : Roster ((L m).waiters impl) s.stage (Stage.WaitsFor m)
  balance : (s.owners m + s.inFlight m + weight (RefersTo m) hand : Int) + (L m).free impl = 1

/-- Every mutex has its account, and the lock of a call that got one is owned by a guard, in hand or
given back. -/
structure Inv (hand : Option (μ × ι)) (s : Run L γ) : Prop where
  accounts : ∀ m, Account hand s m (s.impl m)
  calls : Roster s.calls s.stage Stage.Started
  guards : s.guards.Nodup
  tokens : ∀ i, s.owning i + s.unlocks.count i + weight (Owns i) hand =
    weight Stage.Locked (s.stage i)

omit [DecidableEq ι] in
/-- An empty guard refers to nothing. -/
@[simp] theorem weight_refersTo_none (m : μ) : weight (RefersTo (ι := ι) m) none = 0 := rfl

omit [DecidableEq μ] in
/-- An empty guard owns nothing. -/
@[simp] theorem weight_owns_none (i : ι) : weight (Owns (μ := μ) i) none = 0 := rfl

namespace Inv

variable {s : Run L γ} {i : ι} {m : μ} {g lhs : γ} {hand hand' : Option (μ × ι)}

omit [DecidableEq γ] in
/-- Nobody has used the mutexes. -/
theorem init : Inv none (Run.init L : Run L γ) := by
  refine ⟨fun m => ?_, .empty fun _ h => h, List.nodup_nil, fun i => rfl⟩
  obtain ⟨hok, hfree, hwaiters⟩ := (L m).init_ok
  refine ⟨hok, ?_, ?_⟩
  · show Roster ((L m).waiters (L m).init) _ _
    rw [hwaiters]
    exact .empty fun _ h => h
  · show ((0 : Nat) + (0 : Nat) + (0 : Nat) : Int) + (L m).free (L m).init = 1
    rw [hfree, (L m).limit_eq]
    rfl

/-! ### Guards -/

/-- A new guard takes what is in hand, which may be nothing. -/
theorem create (h : Inv hand s) (hg : g ∉ s.guards) : Inv none (s.create g hand) := by
  have hcount : ∀ (p : Option (μ × ι) → Prop) [DecidablePred p],
      tally (s.guards ++ [g]) (Function.update s.mtx g hand) p =
        tally s.guards s.mtx p + weight p hand := by
    intro p _
    rw [tally_concat, tally_update_of_not_mem hg, Function.update_self]
  refine ⟨fun m => ⟨(h.accounts m).ok, (h.accounts m).line, ?_⟩, h.calls, ?_, fun i => ?_⟩
  · have hbalance := (h.accounts m).balance
    have howners : (s.create g hand).owners m = s.owners m + weight (RefersTo m) hand := hcount _
    have hflight : (s.create g hand).inFlight m = s.inFlight m := rfl
    rw [howners, hflight, weight_refersTo_none]
    show _ + (L m).free (s.impl m) = 1
    omega
  · exact List.nodup_append.mpr ⟨h.guards, List.nodup_singleton g,
      fun a ha b hb he => hg (List.mem_singleton.mp hb ▸ he ▸ ha)⟩
  · have htoken := h.tokens i
    have howning : (s.create g hand).owning i = s.owning i + weight (Owns i) hand := hcount _
    rw [howning, weight_owns_none]
    show _ + s.unlocks.count i + 0 = weight Stage.Locked (s.stage i)
    omega

/-- What a guard that goes away owned is in hand. -/
theorem erase (h : Inv none s) (hg : g ∈ s.guards) :
    Inv (s.mtx g) { s with guards := s.guards.erase g } := by
  refine ⟨fun m => ⟨(h.accounts m).ok, (h.accounts m).line, ?_⟩, h.calls, h.guards.erase g,
    fun i => ?_⟩
  · have hbalance := (h.accounts m).balance
    have hcount : tally (s.guards.erase g) s.mtx (RefersTo m) + weight (RefersTo m) (s.mtx g) =
      s.owners m := tally_erase hg
    rw [weight_refersTo_none] at hbalance
    show ((tally (s.guards.erase g) s.mtx (RefersTo m) : Int) + s.inFlight m +
      weight (RefersTo m) (s.mtx g)) + (L m).free (s.impl m) = 1
    omega
  · have htoken := h.tokens i
    have hcount : tally (s.guards.erase g) s.mtx (Owns i) + weight (Owns i) (s.mtx g) =
      s.owning i := tally_erase hg
    rw [weight_owns_none] at htoken
    show tally (s.guards.erase g) s.mtx (Owns i) + s.unlocks.count i + weight (Owns i) (s.mtx g) =
      weight Stage.Locked (s.stage i)
    omega

omit [DecidableEq γ] in
/-- Guards that change so that every pointer has the same number of guards as before. -/
theorem shuffle (h : Inv none s) {guards : List γ} {mtx : γ → Option (μ × ι)}
    (hguards : guards.Nodup) (hcount : ∀ (p : Option (μ × ι) → Prop) [DecidablePred p],
      ¬ p none → tally guards mtx p = tally s.guards s.mtx p) :
    Inv none { s with guards := guards, mtx := mtx } := by
  refine ⟨fun m => ⟨(h.accounts m).ok, (h.accounts m).line, ?_⟩, h.calls, hguards, fun i => ?_⟩
  · have hsame : tally guards mtx (RefersTo m) = s.owners m := hcount _ (fun he => nomatch he)
    have hbalance := (h.accounts m).balance
    show ((tally guards mtx (RefersTo m) : Int) + s.inFlight m + weight (RefersTo m) none) +
      (L m).free (s.impl m) = 1
    rw [hsame, hbalance]
  · have hsame : tally guards mtx (Owns i) = s.owning i := hcount _ (fun he => nomatch he)
    have htoken := h.tokens i
    show tally guards mtx (Owns i) + s.unlocks.count i + weight (Owns i) none = _
    rw [hsame, htoken]

/-- Move construction: the new guard takes the place of the moved one. -/
theorem moveConstruct (h : Inv none s) (hg : g ∉ s.guards) (hlhs : lhs ∈ s.guards) :
    Inv none (s.moveConstruct g lhs) := by
  refine h.shuffle ?_ fun p _ hp => tally_replace h.guards hg hlhs hp
  exact List.nodup_append.mpr ⟨h.guards, List.nodup_singleton g,
    fun a ha b hb he => hg (List.mem_singleton.mp hb ▸ he ▸ ha)⟩

/-- Move assignment: two guards trade places. -/
theorem moveAssign (h : Inv none s) (hg : g ∈ s.guards) (hlhs : lhs ∈ s.guards) :
    Inv none (s.moveAssign g lhs) :=
  h.shuffle h.guards fun _ _ _ => tally_swap h.guards hg hlhs

/-! ### Calls -/

omit [DecidableEq γ] in
/-- What happens at one mutex: its permits, its waiters and the calls may change, and what is in
hand; for the other mutexes and calls nothing is different. -/
theorem go (h : Inv hand s) {impl : (L m).State} {calls : List ι} {stage : ι → Stage μ}
    {unlocks : List ι} (hok : (L m).Ok impl) (hcalls : Roster calls stage Stage.Started)
    (hlines : ∀ n, Roster ((L n).waiters (Function.update s.impl m impl n)) stage
      (Stage.WaitsFor n))
    (hhere : (tally calls stage (Stage.GrantedBy m) + weight (RefersTo m) hand' : Int) +
      (L m).free impl = s.inFlight m + weight (RefersTo m) hand + (L m).free (s.impl m))
    (hthere : ∀ n, n ≠ m → tally calls stage (Stage.GrantedBy n) + weight (RefersTo n) hand' =
      s.inFlight n + weight (RefersTo n) hand)
    (htokens : ∀ j, unlocks.count j + weight (Owns j) hand' + weight Stage.Locked (s.stage j) =
      s.unlocks.count j + weight (Owns j) hand + weight Stage.Locked (stage j)) :
    Inv hand' ⟨Function.update s.impl m impl, calls, stage, s.guards, s.mtx, unlocks⟩ := by
  refine ⟨fun n => ⟨?_, hlines n, ?_⟩, hcalls, h.guards, fun j => ?_⟩
  · show (L n).Ok (Function.update s.impl m impl n)
    by_cases hn : n = m
    · subst hn
      rwa [Function.update_self]
    · rw [Function.update_of_ne hn]
      exact (h.accounts n).ok
  · have hbalance := (h.accounts n).balance
    show ((s.owners n : Int) + tally calls stage (Stage.GrantedBy n) + weight (RefersTo n) hand') +
      (L n).free (Function.update s.impl m impl n) = 1
    by_cases hn : n = m
    · subst hn
      rw [Function.update_self]
      omega
    · have hother := hthere n hn
      rw [Function.update_of_ne hn]
      omega
  · have htoken := h.tokens j
    have hchange := htokens j
    show s.owning j + unlocks.count j + weight (Owns j) hand' = weight Stage.Locked (stage j)
    omega

omit [DecidableEq γ] in
/-- The waiters of every mutex, when those of one change with the stage of a call. -/
theorem lines_update {impl : (L m).State} {stage : ι → Stage μ}
    (hhere : Roster ((L m).waiters impl) stage (Stage.WaitsFor m))
    (hthere : ∀ n, n ≠ m → Roster ((L n).waiters (s.impl n)) stage (Stage.WaitsFor n)) (n : μ) :
    Roster ((L n).waiters (Function.update s.impl m impl n)) stage (Stage.WaitsFor n) := by
  by_cases hn : n = m
  · subst hn
    rwa [Function.update_self]
  · rw [Function.update_of_ne hn]
    exact hthere n hn

omit [DecidableEq γ] in
/-- The grants in flight when a call is made. -/
theorem inFlight_enter (h : Inv hand s) (hidle : s.stage i = .idle) (st : Stage μ) (n : μ) :
    tally (s.calls ++ [i]) (Function.update s.stage i st) (Stage.GrantedBy n) =
      s.inFlight n + weight (Stage.GrantedBy n) st := by
  have hout : i ∉ s.calls := by
    rw [h.calls.mem_iff, hidle]
    exact id
  rw [tally_concat, tally_update_of_not_mem hout, Function.update_self]
  rfl

omit [DecidableEq γ] in
/-- The grants in flight when a call goes on. -/
theorem inFlight_move {before : Stage μ} (h : Inv hand s) (hstage : s.stage i = before)
    (hstarted : before.Started) (st : Stage μ) (n : μ) :
    tally s.calls (Function.update s.stage i st) (Stage.GrantedBy n) +
        weight (Stage.GrantedBy n) before =
      s.inFlight n + weight (Stage.GrantedBy n) st := by
  have hcall : i ∈ s.calls := (h.calls.mem_iff i).mpr (hstage ▸ hstarted)
  rw [← hstage]
  exact tally_update h.calls.nodup hcall st

omit [DecidableEq μ] [DecidableEq γ] in
/-- The locks that calls got, when one of them goes on without its own changing hands. -/
theorem tokens_update {before : Stage μ} (st : Stage μ) (hand : Option (μ × ι))
    (hstage : s.stage i = before)
    (hhand : ∀ j, weight (Owns j) hand = if j = i then weight Stage.Locked st else 0)
    (hbefore : weight Stage.Locked before = 0) (j : ι) :
    weight (Owns j) hand + weight Stage.Locked (s.stage j) =
      weight Stage.Locked (Function.update s.stage i st j) := by
  rw [hhand j]
  by_cases hj : j = i
  · subst hj
    rw [if_pos rfl, hstage, hbefore, Function.update_self, Nat.add_zero]
  · rw [if_neg hj, Function.update_of_ne hj, Nat.zero_add]

omit [DecidableEq γ] in
/-- A blocking call, without the guard that it may return. -/
theorem enter (h : Inv none s) (hidle : s.stage i = .idle) (st : Stage μ) (hst : st.Started)
    {impl : (L m).State} (hok : (L m).Ok impl)
    (hline : Roster ((L m).waiters impl) (Function.update s.stage i st) (Stage.WaitsFor m))
    (hthere : ∀ n, n ≠ m → ¬ st.WaitsFor n ∧ ¬ st.GrantedBy n ∧ ¬ RefersTo n hand)
    (hfree : (weight (Stage.GrantedBy m) st + weight (RefersTo m) hand : Int) + (L m).free impl =
      (L m).free (s.impl m))
    (hhand : ∀ j, weight (Owns j) hand = if j = i then weight Stage.Locked st else 0) :
    Inv hand ⟨Function.update s.impl m impl, s.calls ++ [i], Function.update s.stage i st,
      s.guards, s.mtx, s.unlocks⟩ := by
  have hlines := lines_update (s := s) hline fun n hn =>
    (h.accounts n).line.stay hidle (iff_of_false id (hthere n hn).1)
  refine h.go hok (h.calls.join hidle id hst) hlines ?_ ?_ fun j => ?_
  · rw [h.inFlight_enter hidle, weight_refersTo_none]
    omega
  · intro n hn
    rw [h.inFlight_enter hidle, weight_refersTo_none, weight_of_not (hthere n hn).2.1,
      weight_of_not (hthere n hn).2.2]
  · have htoken := tokens_update st hand hidle hhand rfl j
    rw [weight_owns_none]
    omega

omit [DecidableEq γ] in
/-- A call whose op was queued, blocked or not. -/
theorem enter_queued (h : Inv none s) (hidle : s.stage i = .idle) (st : Stage μ)
    (hst : st.Started) {impl : (L m).State} (hok : (L m).Ok impl)
    (hfree : (L m).free impl = (L m).free (s.impl m))
    (hwaiters : (L m).waiters impl = (L m).waiters (s.impl m) ++ [i])
    (hwaits : ∀ n, st.WaitsFor n ↔ m = n) (hgranted : ∀ n, ¬ st.GrantedBy n)
    (hlocked : ¬ st.Locked) :
    Inv none ⟨Function.update s.impl m impl, s.calls ++ [i], Function.update s.stage i st,
      s.guards, s.mtx, s.unlocks⟩ := by
  refine h.enter hidle st hst hok ?_ (fun n hn => ?_) ?_ fun j => ?_
  · rw [hwaiters]
    exact (h.accounts m).line.join hidle id ((hwaits m).mpr rfl)
  · exact ⟨fun hwait => hn ((hwaits n).mp hwait).symm, hgranted n, fun he => nomatch he⟩
  · rw [hfree, weight_refersTo_none, weight_of_not (hgranted m)]
    omega
  · rw [weight_of_not hlocked]
    exact (ite_self _).symm

omit [DecidableEq γ] in
/-- A call that left no op behind. -/
theorem enter_unqueued (h : Inv none s) (hidle : s.stage i = .idle) (st : Stage μ)
    (hst : st.Started) {impl : (L m).State} (hok : (L m).Ok impl)
    (hwaiters : (L m).waiters impl = (L m).waiters (s.impl m)) (hwaits : ∀ n, ¬ st.WaitsFor n)
    (hthere : ∀ n, n ≠ m → ¬ st.GrantedBy n ∧ ¬ RefersTo n hand)
    (hfree : (weight (Stage.GrantedBy m) st + weight (RefersTo m) hand : Int) + (L m).free impl =
      (L m).free (s.impl m))
    (hhand : ∀ j, weight (Owns j) hand = if j = i then weight Stage.Locked st else 0) :
    Inv hand ⟨Function.update s.impl m impl, s.calls ++ [i], Function.update s.stage i st,
      s.guards, s.mtx, s.unlocks⟩ := by
  refine h.enter hidle st hst hok ?_ (fun n hn => ⟨hwaits n, hthere n hn⟩) hfree hhand
  rw [hwaiters]
  exact (h.accounts m).line.stay hidle (iff_of_false id (hwaits m))

omit [DecidableEq γ] in
/-- A blocking call that failed. -/
theorem enter_failed (h : Inv none s) (hidle : s.stage i = .idle) {impl : (L m).State}
    (hok : (L m).Ok impl) (hfree : (L m).free impl = (L m).free (s.impl m))
    (hwaiters : (L m).waiters impl = (L m).waiters (s.impl m)) :
    Inv none ⟨Function.update s.impl m impl, s.calls ++ [i], Function.update s.stage i .failed,
      s.guards, s.mtx, s.unlocks⟩ := by
  refine h.enter_unqueued hidle .failed trivial hok hwaiters (fun n => id) ?_ ?_ ?_
  · exact fun n _ => ⟨id, fun he => nomatch he⟩
  · have hnone : weight (Stage.GrantedBy m) .failed = 0 := rfl
    rw [hfree, weight_refersTo_none]
    omega
  · exact fun j => (ite_self _).symm

omit [DecidableEq γ] in
/-- A call goes on, and no mutex is touched. -/
theorem resume {before : Stage μ} (h : Inv none s) (hstage : s.stage i = before)
    (hstarted : before.Started) (st : Stage μ) (hst : st.Started)
    (hwaits : ∀ n, before.WaitsFor n ↔ st.WaitsFor n)
    (hflight : ∀ n, weight (Stage.GrantedBy n) st + weight (RefersTo n) hand =
      weight (Stage.GrantedBy n) before)
    (hhand : ∀ j, weight (Owns j) hand = if j = i then weight Stage.Locked st else 0)
    (hbefore : weight Stage.Locked before = 0) : Inv hand (s.move i st) := by
  refine ⟨fun n => ⟨(h.accounts n).ok, (h.accounts n).line.stay hstage (hwaits n), ?_⟩,
    h.calls.stay hstage (iff_of_true hstarted hst), h.guards, fun j => ?_⟩
  · have hbalance := (h.accounts n).balance
    have hmoved := h.inFlight_move hstage hstarted st n
    have hchange := hflight n
    rw [weight_refersTo_none] at hbalance
    show ((s.owners n : Int) + tally s.calls (Function.update s.stage i st) (Stage.GrantedBy n) +
      weight (RefersTo n) hand) + (L n).free (s.impl n) = 1
    omega
  · have htoken := h.tokens j
    have hchange := tokens_update st hand hstage hhand hbefore j
    rw [weight_owns_none] at htoken
    show s.owning j + s.unlocks.count j + weight (Owns j) hand =
      weight Stage.Locked (Function.update s.stage i st j)
    omega

omit [DecidableEq μ] in
/-- A token that is in hand, by call. -/
theorem owns_some (j : ι) : weight (Owns j) (some (m, i)) = if j = i then 1 else 0 := by
  by_cases hj : j = i
  · subst hj
    rw [if_pos rfl]
    exact weight_of rfl
  · have hother : ¬ Owns j (some (m, i)) := fun he => hj (Option.some.inj he).symm
    rw [if_neg hj, weight_of_not hother]

omit [DecidableEq ι] in
/-- A token that is in hand, by mutex. -/
theorem refersTo_some (n : μ) :
    weight (RefersTo n) (some (m, i)) = weight (Stage.GrantedBy n) (.granted m) := by
  by_cases hn : m = n
  · subst hn
    have hpointer : weight (RefersTo m) (some (m, i)) = 1 := weight_of rfl
    have hstage : weight (Stage.GrantedBy m) (.granted m) = 1 := weight_of rfl
    rw [hpointer, hstage]
  · have hother : ¬ RefersTo n (some (m, i)) := fun he => hn (Option.some.inj he)
    have hstage : ¬ Stage.GrantedBy n (.granted m) := hn
    rw [weight_of_not hother, weight_of_not hstage]

omit [DecidableEq ι] in
/-- A token that is in hand refers to no other mutex. -/
theorem refersTo_other {n : μ} (hn : n ≠ m) : weight (RefersTo n) (some (m, i)) = 0 :=
  weight_of_not fun he => hn (Option.some.inj he).symm

omit [DecidableEq μ] in
/-- The token that is in hand is given back. -/
theorem count_unlocked (unlocks : List ι) (m : μ) (i j : ι) :
    (unlocks ++ [i]).count j = unlocks.count j + weight (Owns j) (some (m, i)) := by
  rw [List.count_append, List.count_singleton, owns_some]
  by_cases hj : j = i
  · simp [hj]
  · simp [hj, Ne.symm hj]

/-- A blocking call. -/
theorem lock (h : Inv none s) (hidle : s.stage i = .idle) (hg : g ∉ s.guards) (m : μ)
    (throws : Bool) : Inv none (s.lock i m throws g) := by
  have hop : i ∉ (L m).waiters (s.impl m) := by
    rw [(h.accounts m).line.mem_iff, hidle]
    exact id
  obtain ⟨hok, hreq⟩ := (L m).take_ok (s.impl m) i (h.accounts m).ok hop
  rcases (L m).take_outcome (s.impl m) i (h.accounts m).ok hop with
    houtcome | houtcome | houtcome <;> rw [houtcome] at hreq
  · obtain ⟨hfree, hwaiters⟩ := hreq.of_granted
    have hnext : s.lock i m throws g = Run.create
        ⟨Function.update s.impl m ((L m).take (s.impl m) i).state, s.calls ++ [i],
          Function.update s.stage i .locked, s.guards, s.mtx, s.unlocks⟩ g (some (m, i)) := by
      simp only [Run.lock, houtcome]
      rfl
    rw [hnext]
    refine create
      (h.enter_unqueued hidle .locked trivial hok hwaiters (fun n => id) ?_ ?_ owns_some) hg
    · exact fun n hn => ⟨id, fun he => hn (Option.some.inj he).symm⟩
    · have htoken : weight (RefersTo m) (some (m, i)) = 1 := weight_of rfl
      have hnone : weight (Stage.GrantedBy m) .locked = 0 := rfl
      rw [hfree]
      omega
  · obtain ⟨hfree, hwaiters⟩ := hreq.of_queued
    have hnext : s.lock i m throws g =
        ⟨Function.update s.impl m ((L m).take (s.impl m) i).state, s.calls ++ [i],
          Function.update s.stage i (.blocked m), s.guards, s.mtx, s.unlocks⟩ := by
      simp only [Run.lock, houtcome]
      rfl
    rw [hnext]
    exact h.enter_queued hidle (.blocked m) trivial hok hfree hwaiters (fun n => Iff.rfl)
      (fun n => id) id
  · obtain ⟨hfree, hwaiters⟩ := hreq.of_failed
    have hfailed := h.enter_failed hidle hok hfree hwaiters
    cases throws with
    | true =>
        have hnext : s.lock i m true g =
            ⟨Function.update s.impl m ((L m).take (s.impl m) i).state, s.calls ++ [i],
              Function.update s.stage i .failed, s.guards, s.mtx, s.unlocks⟩ := by
          simp only [Run.lock, houtcome]
          rfl
        rw [hnext]
        exact hfailed
    | false =>
        have hnext : s.lock i m false g = Run.create
            ⟨Function.update s.impl m ((L m).take (s.impl m) i).state, s.calls ++ [i],
              Function.update s.stage i .failed, s.guards, s.mtx, s.unlocks⟩ g none := by
          simp only [Run.lock, houtcome]
          rfl
        rw [hnext]
        exact hfailed.create hg

omit [DecidableEq γ] in
/-- An asynchronous call. -/
theorem asyncLock (h : Inv none s) (hidle : s.stage i = .idle) (m : μ) :
    Inv none (s.asyncLock i m) := by
  obtain ⟨hok, hreq⟩ := (L m).asyncTake_ok (s.impl m) i (h.accounts m).ok
  rcases (L m).asyncTake_outcome (s.impl m) i (h.accounts m).ok with houtcome | houtcome <;>
    rw [houtcome] at hreq
  · obtain ⟨hfree, hwaiters⟩ := hreq.of_granted
    have hnext : s.asyncLock i m =
        ⟨Function.update s.impl m ((L m).asyncTake (s.impl m) i).state, s.calls ++ [i],
          Function.update s.stage i (.granted m), s.guards, s.mtx, s.unlocks⟩ := by
      simp only [Run.asyncLock, houtcome]
      rfl
    rw [hnext]
    refine h.enter_unqueued hidle (.granted m) trivial hok hwaiters (fun n => id) ?_ ?_ ?_
    · exact fun n hn => ⟨Ne.symm hn, fun he => nomatch he⟩
    · have htoken : weight (Stage.GrantedBy m) (.granted m) = 1 := weight_of rfl
      rw [hfree, weight_refersTo_none]
      omega
    · exact fun j => (ite_self _).symm
  · obtain ⟨hfree, hwaiters⟩ := hreq.of_queued
    have hnext : s.asyncLock i m =
        ⟨Function.update s.impl m ((L m).asyncTake (s.impl m) i).state, s.calls ++ [i],
          Function.update s.stage i (.waiting m), s.guards, s.mtx, s.unlocks⟩ := by
      simp only [Run.asyncLock, houtcome]
      rfl
    rw [hnext]
    exact h.enter_queued hidle (.waiting m) trivial hok hfree hwaiters (fun n => Iff.rfl)
      (fun n => id) id

omit [DecidableEq γ] in
/-- The cancellation of a queued op. -/
theorem cancel (h : Inv none s) (hstage : s.stage i = .waiting m) : Inv none (s.cancel i m) := by
  obtain ⟨hok, hfree, hwaiters⟩ := (L m).unlink_ok (s.impl m) i (h.accounts m).ok
  have hflight := h.inFlight_move hstage trivial .aborted
  show Inv none ⟨Function.update s.impl m ((L m).unlink (s.impl m) i), s.calls,
    Function.update s.stage i .aborted, s.guards, s.mtx, s.unlocks⟩
  refine h.go hok (h.calls.stay hstage Iff.rfl) (lines_update ?_ fun n hn => ?_) ?_ ?_ fun j => ?_
  · rw [hwaiters]
    exact (h.accounts m).line.leave id
  · exact (h.accounts n).line.stay hstage (iff_of_false (Ne.symm hn) id)
  · have hmoved := hflight m
    have hbefore : weight (Stage.GrantedBy m) (.waiting m) = 0 := rfl
    have hafter : weight (Stage.GrantedBy m) .aborted = 0 := rfl
    rw [hfree]
    omega
  · intro n _
    have hmoved := hflight n
    have hbefore : weight (Stage.GrantedBy n) (.waiting m) = 0 := rfl
    have hafter : weight (Stage.GrantedBy n) .aborted = 0 := rfl
    omega
  · have htoken := tokens_update .aborted none hstage
      (fun j => (ite_self _).symm) rfl j
    rw [weight_owns_none] at htoken
    rw [weight_owns_none]
    omega

omit [DecidableEq γ] in
/-- The lock that is in hand is given back: its permit is free or goes to the first waiter. -/
theorem unlock (h : Inv (some (m, i)) s) :
    Inv none ({ s with
      impl := Function.update s.impl m ((L m).give (s.impl m)).state
      unlocks := s.unlocks ++ [i] }.grant m ((L m).give (s.impl m)).completed) := by
  have htoken : weight (RefersTo m) (some (m, i)) = 1 := weight_of rfl
  have htaken : (L m).free (s.impl m) < (L m).limit := by
    have hbalance := (h.accounts m).balance
    have hlimit := (L m).limit_eq
    omega
  have hcount := count_unlocked s.unlocks m i
  obtain ⟨hok, hrel⟩ := (L m).give_ok (s.impl m) (h.accounts m).ok htaken
  generalize hcompleted : ((L m).give (s.impl m)).completed = completed at hrel
  generalize hfree : (L m).free ((L m).give (s.impl m)).state = free at hrel
  generalize hwaiters : (L m).waiters ((L m).give (s.impl m)).state = rest at hrel
  generalize hline : (L m).waiters (s.impl m) = line at hrel
  have hwaiting : Roster line s.stage (Stage.WaitsFor m) := hline ▸ (h.accounts m).line
  cases hrel with
  | freed =>
      show Inv none ⟨Function.update s.impl m ((L m).give (s.impl m)).state, s.calls, s.stage,
        s.guards, s.mtx, s.unlocks ++ [i]⟩
      refine h.go hok h.calls (lines_update ?_ fun n _ => (h.accounts n).line) ?_ ?_ fun j => ?_
      · rwa [hwaiters]
      · show (s.inFlight m + weight (RefersTo m) none : Int) + _ = _
        rw [weight_refersTo_none]
        omega
      · intro n hn
        rw [refersTo_other hn]
        rfl
      · rw [hcount j, weight_owns_none, Nat.add_zero]
  | handed j =>
      have hj : (s.stage j).WaitsFor m := (hwaiting.mem_iff j).mp List.mem_cons_self
      obtain ⟨hstarted, hgranted, hlocked, hothers⟩ := hj.facts
      have hflight := h.inFlight_move (i := j) rfl hstarted (.granted m)
      show Inv none ⟨Function.update s.impl m ((L m).give (s.impl m)).state, s.calls,
        Function.update s.stage j (.granted m), s.guards, s.mtx, s.unlocks ++ [i]⟩
      refine h.go hok (h.calls.stay rfl (iff_of_true hstarted trivial))
        (lines_update ?_ fun n hn => ?_) ?_ ?_ fun k => ?_
      · rw [hwaiters]
        exact hwaiting.leave_head id
      · exact (h.accounts n).line.stay rfl (iff_of_false (hothers n hn) id)
      · have hmoved := hflight m
        have hafter : weight (Stage.GrantedBy m) (.granted m) = 1 := weight_of rfl
        rw [weight_of_not (hgranted m)] at hmoved
        rw [weight_refersTo_none]
        omega
      · intro n hn
        have hmoved := hflight n
        have hafter : weight (Stage.GrantedBy n) (.granted m) = 0 := weight_of_not (Ne.symm hn)
        rw [weight_of_not (hgranted n)] at hmoved
        rw [weight_refersTo_none, refersTo_other hn]
        omega
      · have htoken := tokens_update (.granted m) none rfl
          (fun j => (ite_self _).symm) (weight_of_not hlocked) k
        rw [weight_owns_none] at htoken
        rw [hcount k, weight_owns_none]
        omega

/-- A guard goes away and gives back what it owns. -/
theorem destroy (h : Inv none s) (hg : g ∈ s.guards) : Inv none (s.destroy g) := by
  have hhand := h.erase hg
  cases hmtx : s.mtx g with
  | none =>
      have hnext : s.destroy g = { s with guards := s.guards.erase g } := by
        simp only [Run.destroy, hmtx]
      rw [hnext]
      rwa [hmtx] at hhand
  | some p =>
      obtain ⟨m, i⟩ := p
      rw [hmtx] at hhand
      simp only [Run.destroy, hmtx]
      exact hhand.unlock

/-- The end of a call whose completion was in flight. -/
theorem deliver (h : Inv none s) (hg : g ∉ s.guards) :
    (∀ m, s.stage i = .granted m → Inv none ((s.move i .locked).create g (some (m, i)))) ∧
      (s.stage i = .aborted → Inv none ((s.move i .failed).create g none)) := by
  constructor
  · intro m hstage
    refine create (h.resume hstage trivial .locked trivial (fun n => Iff.rfl) ?_ owns_some rfl) hg
    intro n
    have hnone : weight (Stage.GrantedBy n) .locked = 0 := rfl
    rw [hnone, refersTo_some, Nat.zero_add]
  · intro hstage
    exact create (h.resume hstage trivial .failed trivial (fun n => Iff.rfl) (fun n => rfl)
      (fun j => (ite_self _).symm) rfl) hg

/-- **Every step keeps the accounts and the tokens.** -/
theorem step {l : Label ι μ γ} {t : Run L γ} (h : Inv none s)
    (hstep : LockGuard.step s l = some t) : Inv none t := by
  cases l with
  | lock i m throws g =>
      obtain ⟨⟨hidle, hg⟩, rfl⟩ := guard_iff.mp hstep
      exact h.lock hidle hg m throws
  | asyncLock i m =>
      obtain ⟨hidle, rfl⟩ := guard_iff.mp hstep
      exact h.asyncLock hidle m
  | cancel i =>
      simp only [LockGuard.step] at hstep
      split at hstep
      · rename_i m hstage
        exact Option.some.inj hstep ▸ h.cancel hstage
      · cases hstep
  | deliver i g =>
      obtain ⟨hg, hstep⟩ := Option.ite_none_right_eq_some.mp hstep
      split at hstep
      · rename_i m hstage
        exact Option.some.inj hstep ▸ (h.deliver hg).1 m hstage
      · rename_i hstage
        exact Option.some.inj hstep ▸ (h.deliver hg).2 hstage
      · cases hstep
  | moveConstruct g lhs =>
      obtain ⟨⟨hg, hlhs⟩, rfl⟩ := guard_iff.mp hstep
      exact h.moveConstruct hg hlhs
  | moveAssign g lhs =>
      obtain ⟨⟨hg, hlhs⟩, rfl⟩ := guard_iff.mp hstep
      exact h.moveAssign hg hlhs
  | destroy g =>
      obtain ⟨hg, rfl⟩ := guard_iff.mp hstep
      exact h.destroy hg

omit [DecidableEq γ] in
/-- The lock of a call is given back at most once, and then no guard owns it. -/
theorem token (h : Inv none s) (i : ι) : s.owning i + s.unlocks.count i ≤ 1 := by
  have htoken := h.tokens i
  rw [weight_owns_none] at htoken
  have hweight : weight Stage.Locked (s.stage i) ≤ 1 := by
    unfold weight
    split <;> omega
  omega

/-- Two live guards do not own the same lock. -/
theorem owner_unique (h : Inv none s) {n : μ} (hg : g ∈ s.guards) (hmtx : s.mtx g = some (m, i))
    (hlhs : lhs ∈ s.guards) (hother : s.mtx lhs = some (n, i)) : lhs = g := by
  have hone : tally s.guards s.mtx (Owns i) ≤ 1 := by
    have htoken := h.token i
    simp only [Run.owning] at htoken
    omega
  exact eq_of_tally_le_one hone hlhs hg (by rw [hother]; rfl) (by rw [hmtx]; rfl)

end Inv

/-- Only the destruction of a guard that owns a lock unlocks. -/
theorem step_unlocks {s t : Run L γ} {l : Label ι μ γ} (hstep : step s l = some t) :
    t.unlocks = s.unlocks ∨ ∃ g m i, l = .destroy g ∧ g ∈ s.guards ∧ s.mtx g = some (m, i) ∧
      t.unlocks = s.unlocks ++ [i] := by
  have hgrant : ∀ (u : Run L γ) m ops, (u.grant m ops).unlocks = u.unlocks := by
    intro u m ops
    induction ops generalizing u with
    | nil => rfl
    | cons j ops ih => exact ih (u.move j (.granted m))
  cases l with
  | lock i m throws g =>
      obtain ⟨-, rfl⟩ := guard_iff.mp hstep
      left
      simp only [Run.lock]
      split
      · rfl
      · rfl
      · split <;> rfl
  | asyncLock i m =>
      obtain ⟨-, rfl⟩ := guard_iff.mp hstep
      left
      simp only [Run.asyncLock]
      split <;> rfl
  | cancel i =>
      simp only [step] at hstep
      split at hstep
      · exact Or.inl (Option.some.inj hstep ▸ rfl)
      · cases hstep
  | deliver i g =>
      obtain ⟨-, hstep⟩ := Option.ite_none_right_eq_some.mp hstep
      split at hstep
      · exact Or.inl (Option.some.inj hstep ▸ rfl)
      · exact Or.inl (Option.some.inj hstep ▸ rfl)
      · cases hstep
  | moveConstruct g lhs | moveAssign g lhs =>
      obtain ⟨-, rfl⟩ := guard_iff.mp hstep
      exact Or.inl rfl
  | destroy g =>
      obtain ⟨hg, rfl⟩ := guard_iff.mp hstep
      cases hmtx : s.mtx g with
      | none => exact Or.inl (by simp only [Run.destroy, hmtx])
      | some p =>
          obtain ⟨m, i⟩ := p
          refine Or.inr ⟨g, m, i, rfl, hg, hmtx, ?_⟩
          simp only [Run.destroy, hmtx]
          exact hgrant _ _ _

/-! ## Runs over mutexes and shared mutexes -/

/-- What is locked. -/
inductive Kind where
  | mutex
  | sharedMutex
  deriving DecidableEq, Repr

/-- The primitive of a kind. -/
def Kind.lockable (ι : Type u) [DecidableEq ι] (enabled : Bool) : Kind → Lockable ι
  | mutex => MutexImpl.lockable enabled
  | sharedMutex => SharedMutexImpl.lockable enabled

/-- **A `lock_guard` owns its lock.** In every state of a run in which mutexes are locked with the
free functions only: a mutex is locked exactly when one live guard refers to it or one grant is in
flight, and there is never more than one of these. The lock of a call is given back at most once,
by the destruction of the only guard that owns it. -/
theorem lock_guard_owns (kind : μ → Kind) (enabled : μ → Bool) (ls : List (Label ι μ γ))
    (s : Run (fun m => (kind m).lockable ι (enabled m)) γ)
    (hrun : run step (Run.init fun m => (kind m).lockable ι (enabled m)) ls = some s) :
    (∀ m, (((kind m).lockable ι (enabled m)).locked (s.impl m) = true ↔
          s.owners m + s.inFlight m = 1) ∧
        s.owners m + s.inFlight m ≤ 1) ∧
      (∀ i, s.unlocks.count i ≤ 1) ∧
      ∀ l t, step s l = some t → t.unlocks = s.unlocks ∨
        ∃ g m i, l = .destroy g ∧ g ∈ s.guards ∧ s.mtx g = some (m, i) ∧
          t.unlocks = s.unlocks ++ [i] ∧
          ∀ lhs n, lhs ∈ s.guards → s.mtx lhs = some (n, i) → lhs = g := by
  have h : Inv none s := run_invariant (fun _ _ _ h hstep => h.step hstep) Inv.init hrun
  refine ⟨fun m => ?_, fun i => ?_, fun l t hstep => ?_⟩
  · have hbalance := (h.accounts m).balance
    have hfree := ((kind m).lockable ι (enabled m)).free_nonneg _ (h.accounts m).ok
    rw [weight_refersTo_none] at hbalance
    rw [((kind m).lockable ι (enabled m)).locked_iff _ (h.accounts m).ok]
    omega
  · have htoken := h.token i
    omega
  · rcases step_unlocks hstep with hsame | ⟨g, m, i, hl, hg, hmtx, hunlocks⟩
    · exact Or.inl hsame
    · exact Or.inr ⟨g, m, i, hl, hg, hmtx, hunlocks, fun lhs n hlhs hother =>
        h.owner_unique hg hmtx hlhs hother⟩

/-- A guard is moved, then the guard of another mutex is assigned to it: the two change places, and
each lock is handed on when the guard that owns it now is destroyed. -/
theorem lock_guard_owns_move :
    ∃ s t : Run (fun _ : Bool => Kind.mutex.lockable Nat true) Nat,
      run step (Run.init fun _ : Bool => Kind.mutex.lockable Nat true)
        [.lock 0 false true 0, .lock 1 true true 1, .asyncLock 2 false, .moveConstruct 3 0,
          .moveAssign 3 1, .destroy 1, .deliver 2 2] = some s ∧
      s.unlocks = [0] ∧ s.mtx 3 = some (true, 1) ∧ s.mtx 2 = some (false, 2) ∧
      (∀ m, (Kind.mutex.lockable Nat true).locked (s.impl m) = true ↔
        s.owners m + s.inFlight m = 1) ∧
      step s (.destroy 3) = some t ∧ t.unlocks = [0, 1] ∧
      ∀ lhs n, lhs ∈ s.guards → s.mtx lhs = some (n, 1) → lhs = 3 := by
  obtain ⟨s, t, hs, hunlocks, hthree, htwo, ht, hboth⟩ : ∃ s t,
      run step (Run.init fun _ : Bool => Kind.mutex.lockable Nat true)
        [.lock 0 false true 0, .lock 1 true true 1, .asyncLock 2 false, .moveConstruct 3 0,
          .moveAssign 3 1, .destroy 1, .deliver 2 2] = some s ∧
      s.unlocks = [0] ∧ s.mtx 3 = some (true, 1) ∧ s.mtx 2 = some (false, 2) ∧
      step s (.destroy 3) = some t ∧ t.unlocks = [0, 1] :=
    ⟨_, _, rfl, rfl, rfl, rfl, rfl, rfl⟩
  obtain ⟨hlocked, -, hdestroy⟩ :=
    lock_guard_owns (fun _ : Bool => Kind.mutex) (fun _ => true) _ s hs
  refine ⟨s, t, hs, hunlocks, hthree, htwo, fun m => (hlocked m).1, ht, hboth, ?_⟩
  rcases hdestroy _ t ht with hsame | ⟨g, m, i, hl, -, hmtx, -, honly⟩
  · rw [hboth, hunlocks] at hsame
    exact absurd hsame (by decide)
  · obtain rfl : 3 = g := Label.destroy.inj hl
    obtain ⟨rfl, rfl⟩ := Prod.mk.inj (Option.some.inj (hthree.symm.trans hmtx))
    exact honly

end Sam.LockGuard
