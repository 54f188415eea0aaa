import Sam.Barrier.Interleaving

/-!
# The phases of a barrier

Runs of a barrier in single-threaded mode, where a call of `try_arrive`, `arrive` or `async_arrive`
is one step. The record keeps the arrivals that were counted and, for each step in which arrivals
succeeded, who they were. `PhaseInv` says that the arrivals that succeeded are whole phases and that
the waiters are the phase that has begun; `phases_of_run` reads the phases off the count. -/

namespace Sam.Barrier

open Transition

universe u

/-- A call, with the name of the arrival that it makes. -/
inductive Arrival (ι : Type u) where
  | tryArrive (id : ι)
  | arrive (id : ι)
  | asyncArrive (id : ι)
  deriving DecidableEq, Repr

/-- The barrier, the arrivals counted so far, and those that succeeded, one list for each step. -/
structure Record (ι : Type u) where
  impl : BarrierImpl ι
  counted : List ι
  succeeded : List (List ι)
  deriving DecidableEq, Repr

/-- The arrivals of the phase number `k`: `init` of those that were counted. -/
def phase {ι : Type u} (init : Int) (counted : List ι) (k : Nat) : List ι :=
  (counted.drop (k * init.toNat)).take init.toNat

variable {ι : Type u} [DecidableEq ι]

namespace Arrival

omit [DecidableEq ι] in
/-- The name of the arrival. -/
def id : Arrival ι → ι
  | tryArrive r | arrive r | asyncArrive r => r

/-- The critical section of the call. -/
def run (m : BarrierImpl ι) : Arrival ι → Result (BarrierImpl ι) ι
  | tryArrive _ => m.tryArrive
  | arrive r => m.arrive r
  | asyncArrive r => m.asyncArriveOp r

/-- Whether the decrement of the counter stays. -/
def counts (m : BarrierImpl ι) (a : Arrival ι) : Bool :=
  (a.run m).outcome = .granted ∨ (a.run m).outcome = .queued

/-- The arrivals that succeed in the call: those that waited, and then its own. -/
def successes (m : BarrierImpl ι) (a : Arrival ι) : List ι :=
  (a.run m).completed ++ if (a.run m).outcome = .granted then [a.id] else []

end Arrival

/-- A new barrier in single-threaded mode. -/
def Record.init (init : Int) : Record ι := ⟨.new false init, [], []⟩

/-- One call. -/
def arriveStep (s : Record ι) (a : Arrival ι) : Option (Record ι) :=
  some
    { impl := (a.run s.impl).state
      counted := s.counted ++ if a.counts s.impl then [a.id] else []
      -- a phase is recorded when its last arrival succeeds
      succeeded := s.succeeded ++
        if a.successes s.impl = [] then [] else [a.successes s.impl] }

/-! ## One call -/

variable {m : BarrierImpl ι} {s t : Record ι} {a : Arrival ι} {init : Int}

/-- The last arrival of a phase succeeds with all that wait. -/
theorem Arrival.run_of_last (hmode : m.enabled = false) (hlast : m.counter = 1) :
    a.run m = { state := { m with counter := m.init, waiters := [] }, outcome := .granted,
                completed := m.waiters } := by
  cases a with
  | tryArrive r => exact BarrierImpl.tryArrive_of_last hlast
  | arrive r =>
      rw [Arrival.run, BarrierImpl.arrive_of_disabled hmode, if_pos hlast]
      exact BarrierImpl.tryArrive_of_last hlast
  | asyncArrive r => simp [Arrival.run, BarrierImpl.asyncArriveOp,
      BarrierImpl.tryArrive_of_last hlast]

/-- Before the last arrival only `async_arrive` counts, and waits. The others change nothing. -/
theorem Arrival.run_of_more (hmode : m.enabled = false) (hmore : m.counter ≠ 1) :
    (∃ r, a = .asyncArrive r ∧ a.run m =
        { state := { m with counter := m.counter - 1, waiters := m.waiters ++ [r] }
          outcome := .queued }) ∨
      (a.run m).state = m ∧ (a.run m).completed = [] ∧
        ((a.run m).outcome = .refused ∨ ∃ ec, (a.run m).outcome = .failed ec) := by
  cases a with
  | tryArrive r =>
      rw [Arrival.run, BarrierImpl.tryArrive_of_more hmore]
      exact Or.inr ⟨rfl, rfl, Or.inl rfl⟩
  | arrive r =>
      rw [Arrival.run, BarrierImpl.arrive_of_disabled hmode, if_neg hmore]
      exact Or.inr ⟨rfl, rfl, Or.inr ⟨_, rfl⟩⟩
  | asyncArrive r =>
      refine Or.inl ⟨r, rfl, ?_⟩
      simp [Arrival.run, BarrierImpl.asyncArriveOp, BarrierImpl.tryArrive_of_more hmore,
        BarrierImpl.asyncArrive, BarrierImpl.decrement, BarrierImpl.addWaiter]

/-- What a call does: it ends the phase, joins the waiters, or counts nothing. -/
theorem arriveStep_cases (hmode : s.impl.enabled = false) (hstep : arriveStep s a = some t) :
    (s.impl.counter = 1 ∧ a.successes s.impl = s.impl.waiters ++ [a.id] ∧
        t = { impl := { s.impl with counter := s.impl.init, waiters := [] }
              counted := s.counted ++ [a.id]
              succeeded := s.succeeded ++ [s.impl.waiters ++ [a.id]] }) ∨
      s.impl.counter ≠ 1 ∧ a.successes s.impl = [] ∧
        ((a.run s.impl).outcome = .queued ∧
            t = { s with
                  impl := { s.impl with
                    counter := s.impl.counter - 1, waiters := s.impl.waiters ++ [a.id] }
                  counted := s.counted ++ [a.id] } ∨
          ((a.run s.impl).outcome = .refused ∨ ∃ ec, (a.run s.impl).outcome = .failed ec) ∧
            t = s) := by
  obtain rfl := Option.some.inj hstep
  by_cases hlast : s.impl.counter = 1
  · have hrun : a.run s.impl = _ := Arrival.run_of_last hmode hlast
    have hall : a.successes s.impl = s.impl.waiters ++ [a.id] := by
      simp [Arrival.successes, hrun]
    exact Or.inl ⟨hlast, hall, by simp [hall, hrun, Arrival.counts]⟩
  · refine Or.inr ⟨hlast, ?_⟩
    rcases Arrival.run_of_more (a := a) hmode hlast with
      ⟨r, rfl, hrun⟩ | ⟨hstate, hcompleted, houtcome⟩
    · have hnone : (Arrival.asyncArrive r).successes s.impl = [] := by
        simp [Arrival.successes, hrun]
      exact ⟨hnone, Or.inl ⟨by rw [hrun], by simp [hnone, hrun, Arrival.counts, Arrival.id]⟩⟩
    · have hnone : a.successes s.impl = [] := by
        rcases houtcome with houtcome | ⟨ec, houtcome⟩ <;>
          simp [Arrival.successes, hcompleted, houtcome]
      have hcounts : a.counts s.impl = false := by
        rcases houtcome with houtcome | ⟨ec, houtcome⟩ <;> simp [Arrival.counts, houtcome]
      exact ⟨hnone, Or.inr ⟨houtcome, by simp [hnone, hcounts, hstate]⟩⟩

/-! ## Every run -/

/-- The counter and the waiters make up the phase. Those that succeeded are whole phases, and with
those that wait they are the arrivals that were counted. -/
structure PhaseInv (init : Int) (s : Record ι) : Prop where
  inv : Inv init ⟨s.impl, []⟩
  mode : s.impl.enabled = false
  counted : s.counted = s.succeeded.flatten ++ s.impl.waiters
  full : ∀ p ∈ s.succeeded, p.length = init

namespace PhaseInv

omit [DecidableEq ι] in
/-- With the counter at 1, the waiters and one more arrival are a phase. -/
theorem length_of_last (h : PhaseInv init s) (hlast : s.impl.counter = 1) (r : ι) :
    ((s.impl.waiters ++ [r]).length : Int) = init := by
  have hsum : s.impl.counter + s.impl.waiters.length = init := h.inv.balanced.2
  rw [List.length_append, List.length_singleton]
  omega

/-- Every call keeps the invariant. -/
theorem step (h : PhaseInv init s) (hstep : arriveStep s a = some t) : PhaseInv init t := by
  rcases arriveStep_cases h.mode hstep with
    ⟨hlast, -, rfl⟩ | ⟨hmore, -, ⟨-, rfl⟩ | ⟨-, rfl⟩⟩
  · refine ⟨h.inv.next_phase, h.mode, by simp [h.counted], fun p hp => ?_⟩
    rcases List.mem_append.mp hp with hp | hp
    · exact h.full p hp
    · rw [List.mem_singleton.mp hp]
      exact h.length_of_last hlast a.id
  · exact ⟨h.inv.queue hmore a.id, h.mode, by simp [h.counted], h.full⟩
  · exact h

/-- Every run keeps the invariant. -/
theorem run (hinit : 1 ≤ init) {calls : List (Arrival ι)}
    (hrun : run arriveStep (Record.init init) calls = some s) : PhaseInv init s :=
  run_invariant (fun _ _ _ h hstep => h.step hstep)
    ⟨Inv.start false hinit, rfl, rfl, fun _ hp => absurd hp List.not_mem_nil⟩ hrun

end PhaseInv

/-! ## The phases of a run -/

omit [DecidableEq ι] in
/-- How many arrivals make up the phases that are over. -/
theorem length_flatten {phases : List (List ι)} (hfull : ∀ p ∈ phases, (p.length : Int) = init) :
    phases.flatten.length = phases.length * init.toNat := by
  induction phases with
  | nil => simp
  | cons p phases ih =>
      have hfirst : (p.length : Int) = init := hfull p List.mem_cons_self
      have hrest := ih fun q hq => hfull q (List.mem_cons_of_mem p hq)
      rw [List.flatten_cons, List.length_append, hrest, List.length_cons, Nat.succ_mul]
      omega

omit [DecidableEq ι] in
/-- Behind the phases that are over come the arrivals that are left. -/
theorem phase_of_rest {phases : List (List ι)}
    (hfull : ∀ p ∈ phases, (p.length : Int) = init) (rest : List ι) :
    phase init (phases.flatten ++ rest) phases.length = rest.take init.toNat := by
  rw [phase, List.drop_left' (length_flatten hfull)]

namespace PhaseInv

omit [DecidableEq ι] in
/-- Those that succeeded in one step are one phase of those that were counted. -/
theorem phase_of_succeeded (h : PhaseInv init s) :
    s.succeeded = (List.range s.succeeded.length).map (phase init s.counted) := by
  refine List.ext_getElem (by simp) fun k hk _ => ?_
  have hparts : s.succeeded =
      s.succeeded.take k ++ s.succeeded[k] :: s.succeeded.drop (k + 1) := by
    rw [← List.drop_eq_getElem_cons hk, List.take_append_drop]
  have hlength : s.succeeded[k].length = init.toNat := by
    have hfull := h.full _ (List.getElem_mem hk)
    omega
  have hcounted : s.counted = (s.succeeded.take k).flatten ++
      (s.succeeded[k] ++ ((s.succeeded.drop (k + 1)).flatten ++ s.impl.waiters)) := by
    calc s.counted = s.succeeded.flatten ++ s.impl.waiters := h.counted
      _ = (s.succeeded.take k ++ s.succeeded[k] :: s.succeeded.drop (k + 1)).flatten ++
          s.impl.waiters := by rw [← hparts]
      _ = _ := by rw [List.flatten_append, List.flatten_cons, List.append_assoc, List.append_assoc]
  have hbefore : (s.succeeded.take k).length = k := List.length_take_of_le (Nat.le_of_lt hk)
  have hfull : ∀ p ∈ s.succeeded.take k, (p.length : Int) = init :=
    fun p hp => h.full p (List.mem_of_mem_take hp)
  have hphase := phase_of_rest hfull
    (s.succeeded[k] ++ ((s.succeeded.drop (k + 1)).flatten ++ s.impl.waiters))
  rw [hbefore, ← hcounted, ← hlength, List.take_left] at hphase
  rw [List.getElem_map, List.getElem_range, hphase]

omit [DecidableEq ι] in
/-- Those that wait are the phase that comes next, as far as it was counted. -/
theorem phase_of_waiters (h : PhaseInv init s) :
    s.impl.waiters = phase init s.counted s.succeeded.length := by
  have hlt : (s.impl.waiters.length : Int) < init := h.inv.waiters_lt
  rw [h.counted, phase_of_rest h.full, List.take_of_length_le (by omega)]

omit [DecidableEq ι] in
/-- The last arrival of a phase completes it. -/
theorem phase_of_last (h : PhaseInv init s) (hlast : s.impl.counter = 1) (r : ι) :
    s.impl.waiters ++ [r] = phase init (s.counted ++ [r]) s.succeeded.length ∧
      ((s.counted ++ [r]).length : Int) = (s.succeeded.length + 1) * init := by
  have hlength := h.length_of_last hlast r
  have hover : (s.succeeded.flatten.length : Int) = s.succeeded.length * init := by
    have hinit : (init.toNat : Int) = init := by omega
    rw [length_flatten h.full, Int.natCast_mul, hinit]
  rw [h.counted, List.append_assoc]
  constructor
  · rw [phase_of_rest h.full, List.take_of_length_le (by omega)]
  · rw [List.length_append, Int.natCast_add, hover, hlength, Int.add_mul, Int.one_mul]

end PhaseInv

/-- **The phases of a barrier.** In every state the counter says how many arrivals are queued. What
succeeded in one step is one phase of the arrivals counted, and what is queued is the phase that has
begun. A call lets arrivals succeed only if it makes the last arrival of the phase, and then it lets
all of them succeed in order and the next phase begins; a call that fails counts nothing. -/
theorem phases_of_run (hinit : 1 ≤ init) {calls : List (Arrival ι)}
    (hrun : run arriveStep (Record.init init) calls = some s) :
    ((1 ≤ s.impl.counter ∧ s.impl.counter ≤ init) ∧
        init - s.impl.counter = s.impl.waiters.length) ∧
      s.succeeded = (List.range s.succeeded.length).map (phase init s.counted) ∧
      s.impl.waiters = phase init s.counted s.succeeded.length ∧
      ∀ a t, arriveStep s a = some t →
        (a.successes s.impl ≠ [] →
          a.successes s.impl = phase init t.counted s.succeeded.length ∧
            t.counted = s.counted ++ [a.id] ∧
            (t.counted.length : Int) = (s.succeeded.length + 1) * init ∧
            t.impl.waiters = [] ∧ t.impl.counter = init) ∧
        ((a.run s.impl).outcome = .refused ∨ (∃ ec, (a.run s.impl).outcome = .failed ec) →
          t = s) := by
  have h : PhaseInv init s := PhaseInv.run hinit hrun
  obtain ⟨hcounter, hsum⟩ := h.inv.balanced
  refine ⟨⟨hcounter, ?_⟩, h.phase_of_succeeded, h.phase_of_waiters, fun a t hstep => ⟨?_, ?_⟩⟩
  · have hsum' : s.impl.counter + s.impl.waiters.length = init := hsum
    omega
  · intro hsuccess
    rcases arriveStep_cases h.mode hstep with ⟨hlast, hall, rfl⟩ | ⟨-, hnone, -⟩
    · obtain ⟨hphase, hlength⟩ := h.phase_of_last hlast a.id
      exact ⟨hall.trans hphase, rfl, hlength, rfl, h.inv.init_eq⟩
    · exact absurd hnone hsuccess
  · intro hfails
    rcases arriveStep_cases h.mode hstep with ⟨hlast, -, -⟩ | ⟨-, -, ⟨hqueued, -⟩ | ⟨-, rfl⟩⟩
    · have hrun : a.run s.impl = _ := Arrival.run_of_last h.mode hlast
      rw [hrun] at hfails
      simp at hfails
    · rw [hqueued] at hfails
      simp at hfails
    · rfl

/-- Two phases of two arrivals, with a `try_arrive` in between that counts nothing. -/
theorem phases_of_run_two :
    ∃ s : Record Nat, run arriveStep (Record.init 2)
        [.asyncArrive 0, .arrive 1, .tryArrive 2, .asyncArrive 3, .asyncArrive 4] = some s ∧
      s.succeeded = [[0, 1], [3, 4]] ∧
      s.impl.waiters = phase 2 s.counted s.succeeded.length := by
  obtain ⟨s, hs⟩ : ∃ s : Record Nat, run arriveStep (Record.init 2)
      [.asyncArrive 0, .arrive 1, .tryArrive 2, .asyncArrive 3, .asyncArrive 4] = some s :=
    ⟨_, rfl⟩
  obtain ⟨-, -, hwaiters, -⟩ := phases_of_run (by decide) hs
  refine ⟨s, hs, ?_, hwaiters⟩
  obtain rfl := Option.some.inj hs
  rfl

end Sam.Barrier
