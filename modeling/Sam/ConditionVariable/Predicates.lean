import Sam.ConditionVariable.Heap
import Sam.Library.Fuel

/-!
# Predicates that use the condition variable

`notify_one` and `notify_all` evaluate predicates in the scope of `mtx_`. In single-threaded mode it
is disabled, and a predicate may queue, cancel and notify in turn, while `notify_all` remembers the
op that it asks and the node that it goes on with. `predicates_iff` says what a predicate may do so
that no destroyed op is touched, whatever the predicates return. A predicate that leaves the
condition variable alone gives the walk of `notifyLoop` (`answers_of_notifyLoop`).
-/

namespace Sam.ConditionVariable.Nested

open Links Service Transition

universe u

/-- A notification that waits for a predicate to return: the op that is asked, and for `notify_all`
the node to go on with. -/
inductive Walk (α : Type u) where
  | one (op : α)
  | all (op c : α)

/-- The heap and the notifications, innermost first. -/
structure State (α : Type u) where
  heap : Heap α
  walks : List (Walk α)

section Model

variable {α : Type u} [DecidableEq α]

/-- The op whose predicate is evaluated. -/
def Walk.op : Walk α → α
  | one op | all op _ => op

/-- The ops that the notification will touch again. -/
def Walk.holds (root : α) : Walk α → List α
  | one op => [op]
  | all op c => if c = root then [op] else [op, c]

/-- The ops that the notifications will touch again. -/
def State.held (root : α) (s : State α) : List α := s.walks.flatMap (Walk.holds root)

/-- A new condition variable. -/
def State.init (links : Links α) (root : α) : State α := ⟨.init links root, []⟩

/-- `op->done()` calls the predicate. -/
def State.enter (s : State α) (w : Walk α) : Except Fault (State α) :=
  (s.heap.ask w.op).map fun heap => ⟨heap, w :: s.walks⟩

/-- `notify_one`, up to the predicate. -/
def State.notifyOne (root : α) (s : State α) : Except Fault (State α) :=
  let op := s.heap.memory.links.next root
  if op = root then .ok s else s.enter (.one op)

/-- The loop of `notify_all` at the node `c`, up to the predicate. -/
def State.visit (root : α) (s : State α) (c : α) : Except Fault (State α) :=
  -- `c = c->next_` comes before `op->done()`
  if c = root then .ok s else s.enter (.all c (s.heap.memory.links.next c))

/-- `if (op->done()) op->complete(error_code());` with what the predicate returned. -/
def finish (root : α) (op : α) (done : Bool) (heap : Heap α) : Except Fault (Heap α) :=
  if done then heap.complete root op .success else .ok heap

/-- The innermost predicate returns, and its notification goes on. -/
def State.answer (root : α) (s : State α) (done : Bool) : Except Fault (State α) :=
  match s.walks with
  | [] => .ok s
  | .one op :: walks => (finish root op done s.heap).map (⟨·, walks⟩)
  | .all op c :: walks =>
      finish root op done s.heap >>= fun heap => State.visit root ⟨heap, walks⟩ c

/-- The predicates return these values, one after the other. -/
def State.answers (root : α) : List Bool → State α → Except Fault (State α)
  | [], s => .ok s
  | done :: rest, s => s.answer root done >>= State.answers root rest

/-- The calls, from a predicate or outside of all notifications, and the return of a predicate. -/
inductive Label (α : Type u) where
  | asyncWait (op : α)
  | cancel (op : α)
  | notifyOne
  | notifyAll
  | answer (done : Bool)
  | shutdown (bn : α)

/-- One step. -/
def call (root : α) (s : State α) : Label α → Except Fault (State α)
  | .asyncWait op => (addWaiter s.heap root op).map (⟨·, s.walks⟩)
  | .cancel op => (s.heap.complete root op .operationAborted).map (⟨·, s.walks⟩)
  | .notifyOne => s.notifyOne root
  | .notifyAll => s.visit root (s.heap.memory.links.next root)
  | .answer done => s.answer root done
  | .shutdown bn =>
      (ConditionVariable.shutdown root bn (s.heap.alive.length + 1) s.heap).map (⟨·, s.walks⟩)

/-- A new op or list is no node that is in use, only an op that is not destroyed is cancelled, and
only a predicate that was called returns. -/
def Allowed (root : α) (s : State α) : Label α → Prop
  | .asyncWait op => op ∉ root :: s.heap.alive
  | .cancel op => op ∈ s.heap.alive
  | .notifyOne | .notifyAll => True
  | .answer _ => s.walks ≠ []
  | .shutdown bn => bn ∉ root :: s.heap.alive

instance (root : α) (s : State α) : DecidablePred (Allowed root s) := fun l => by
  cases l <;> unfold Allowed <;> infer_instance

/-- One step of a run, which ends at a fault. -/
def step (root : α) (s : State α) (l : Label α) : Option (State α) :=
  if Allowed root s l then (call root s l).toOption else none

/-- No call touches a destroyed op, and neither will the notifications, whatever the predicates
return. -/
structure Safe (root : α) (s : State α) : Prop where
  calls : ∀ l, Allowed root s l → ∃ t, call root s l = .ok t
  answers : ∀ returned, ∃ t, s.answers root returned = .ok t

end Model

variable {α : Type u} [DecidableEq α] {root op : α} {ops kept rest : List α} {s t : State α}
  {heap : Heap α} {walks : List (Walk α)}

omit [DecidableEq α] in
/-- A call that leaves the notifications as they are. -/
theorem map_ok {r : Except Fault (Heap α)} (h : r = .ok heap) :
    r.map (State.mk · walks) = .ok ⟨heap, walks⟩ := by
  rw [h]
  rfl

/-! ## Predicates that leave the condition variable alone -/

/-- An op whose predicate returns `false` stays. -/
@[simp] theorem finish_false : finish root op false heap = .ok heap := if_neg (by simp)

/-- An op whose predicate returns `true` is completed. -/
@[simp] theorem finish_true : finish root op true heap = heap.complete root op .success :=
  if_pos rfl

/-- What is left of a walk, when it goes on from a predicate. -/
theorem answers_cons {c : α} (done : Bool) (returned : List Bool) :
    State.answers root (done :: returned) ⟨heap, .all op c :: walks⟩ =
      finish root op done heap >>= fun heap =>
        State.visit root ⟨heap, walks⟩ c >>= State.answers root returned := by
  show (finish root op done heap >>= fun heap => State.visit root ⟨heap, walks⟩ c) >>= _ = _
  cases finish root op done heap <;> rfl

/-- The loop is the one of `notifyLoop`, if the predicates call nothing. -/
theorem answers_of_notifyLoop {done : α → Bool} {fuel : Nat} {heap' : Heap α} {c : α}
    (hloop : notifyLoop root done fuel heap c = .ok heap') : ∃ returned,
      (State.visit root ⟨heap, walks⟩ c >>= State.answers root returned) = .ok ⟨heap', walks⟩ := by
  induction fuel generalizing heap c with
  | zero => cases hloop
  | succ fuel ih =>
      rw [notifyLoop] at hloop
      by_cases hc : c = root
      · rw [if_pos hc] at hloop
        obtain rfl := Except.ok.inj hloop
        exact ⟨[], by rw [State.visit, if_pos hc]; rfl⟩
      rw [if_neg hc] at hloop
      obtain ⟨asked, hask, hloop⟩ := Fuel.of_bind_ok hloop
      have hvisit : State.visit root ⟨heap, walks⟩ c =
          .ok ⟨asked, .all c (heap.memory.links.next c) :: walks⟩ := by
        rw [State.visit, if_neg hc, State.enter]
        show (heap.ask c).map _ = _
        rw [hask]
        rfl
      rw [hvisit]
      cases hdone : done c with
      | true =>
          rw [hdone, if_pos rfl] at hloop
          obtain ⟨completed, hcomplete, hloop⟩ := Fuel.of_bind_ok hloop
          obtain ⟨returned, hreturned⟩ := ih hloop
          refine ⟨true :: returned, ?_⟩
          show State.answers root (true :: returned) _ = _
          rw [answers_cons, finish_true, hcomplete]
          exact hreturned
      | false =>
          rw [hdone, if_neg Bool.false_ne_true] at hloop
          obtain ⟨returned, hreturned⟩ := ih hloop
          refine ⟨false :: returned, ?_⟩
          show State.answers root (false :: returned) _ = _
          rw [answers_cons, finish_false]
          exact hreturned

/-- A walk over the waiters that it has not visited, with any answers. -/
theorem visit_ends (walks : List (Walk α)) (h : Represents root heap (kept ++ rest))
    (done : α → Bool) :
    ∃ returned heap', (State.visit root ⟨heap, walks⟩ (rest.headD root) >>=
        State.answers root returned) = .ok ⟨heap', walks⟩ ∧
      Represents root heap' (kept ++ rest.filter (! done ·)) := by
  obtain ⟨heap', hloop, hrep, -⟩ := notifyLoop_ok h (Nat.lt_succ_self rest.length)
  obtain ⟨returned, hreturned⟩ := answers_of_notifyLoop hloop
  exact ⟨returned, heap', hreturned, hrep⟩

/-! ## What a predicate may do -/

/-- The step does not make a walk meet an op that another one holds: no op is cancelled that some
notification holds, no other notification asks one of those, and while there are any, the waiters
are not walked over and not shut down. -/
def Keeps (root : α) (s : State α) : Label α → Prop
  | .cancel op => op ∉ s.held root
  | .notifyOne => s.heap.memory.links.next root ∉ s.held root
  | .notifyAll | .shutdown _ => s.walks = []
  | .asyncWait _ | .answer _ => True

instance (root : α) (s : State α) : DecidablePred (Keeps root s) := fun l => by
  cases l <;> unfold Keeps <;> infer_instance

/-- The notifications hold waiters, which those around them do not hold. -/
def Apart (root : α) (ops : List α) : List (Walk α) → Prop
  | [] => True
  | .one op :: walks => op ∈ ops ∧ op ∉ walks.flatMap (Walk.holds root) ∧ Apart root ops walks
  | .all op c :: walks => op ∈ ops ∧ c ≠ op ∧ (c = root ∨ c ∈ ops) ∧ walks = []

namespace Apart

/-- What they hold are waiters. -/
theorem mem (h : Apart root ops walks) {n : α} (hn : n ∈ walks.flatMap (Walk.holds root)) :
    n ∈ ops := by
  induction walks with
  | nil => exact absurd hn List.not_mem_nil
  | cons w walks ih =>
      rw [List.flatMap_cons, List.mem_append] at hn
      cases w with
      | one op =>
          obtain ⟨hop, -, hwalks⟩ := h
          rcases hn with hn | hn
          · exact List.mem_singleton.mp hn ▸ hop
          · exact ih hwalks hn
      | all op c =>
          obtain ⟨hop, -, hc, rfl⟩ := h
          rcases hn with hn | hn
          · simp only [Walk.holds] at hn
            split at hn
            · exact List.mem_singleton.mp hn ▸ hop
            · rename_i hne
              rcases List.mem_cons.mp hn with rfl | hn
              · exact hop
              · exact List.mem_singleton.mp hn ▸ hc.resolve_left hne
          · exact absurd hn List.not_mem_nil

/-- They may hold what is left. -/
theorem mono {ops' : List α} (h : Apart root ops walks)
    (hkept : ∀ n ∈ walks.flatMap (Walk.holds root), n ∈ ops') : Apart root ops' walks := by
  induction walks with
  | nil => trivial
  | cons w walks ih =>
      rw [List.flatMap_cons] at hkept
      have hfirst : ∀ n ∈ w.holds root, n ∈ ops' := fun n hn =>
        hkept n (List.mem_append_left _ hn)
      cases w with
      | one op =>
          obtain ⟨-, hout, hwalks⟩ := h
          exact ⟨hfirst op List.mem_cons_self, hout,
            ih hwalks fun n hn => hkept n (List.mem_append_right _ hn)⟩
      | all op c =>
          obtain ⟨-, hne, hc, rfl⟩ := h
          by_cases hroot : c = root
          · exact ⟨hfirst op (by simp [Walk.holds, hroot]), hne, Or.inl hroot, rfl⟩
          · exact ⟨hfirst op (by simp [Walk.holds, hroot]), hne,
              Or.inr (hfirst c (by simp [Walk.holds, hroot])), rfl⟩

end Apart

/-- The heap holds some waiters, and the notifications some of them. -/
def Consistent (root : α) (s : State α) : Prop :=
  ∃ ops, Represents root s.heap ops ∧ Apart root ops s.walks

/-- A waiter is asked. -/
theorem enter_ok {w : Walk α} (h : Represents root s.heap ops) (hop : w.op ∈ ops) :
    ∃ heap', s.enter w = .ok ⟨heap', w :: s.walks⟩ ∧ Represents root heap' ops ∧
      heap'.asked = s.heap.asked ++ [w.op] := by
  refine ⟨{ s.heap with asked := s.heap.asked ++ [w.op] }, ?_, ⟨h.ring, h.alive⟩, rfl⟩
  rw [State.enter, ask_ok h hop]
  rfl

omit [DecidableEq α] in
/-- The others stay, when a waiter leaves. -/
theorem mem_without {n : α} (hn : n ∈ kept ++ op :: rest) (hne : n ≠ op) : n ∈ kept ++ rest := by
  simpa [hne] using hn

/-- A waiter that has returned is completed or stays. -/
theorem finish_ok (h : Represents root heap (kept ++ op :: rest)) (done : Bool) :
    ∃ heap' ops', finish root op done heap = .ok heap' ∧ Represents root heap' ops' ∧
      ∀ n, n ∈ kept ++ op :: rest → n ≠ op → n ∈ ops' := by
  cases done with
  | false => exact ⟨heap, _, finish_false, h, fun n hn _ => hn⟩
  | true =>
      obtain ⟨heap', hcomplete, hrep, -⟩ := complete_ok h .success
      exact ⟨heap', kept ++ rest, finish_true.trans hcomplete, hrep, fun n => mem_without⟩

/-- `notify_all` goes on with a waiter, or is over. -/
theorem visit_ok {c : α} (h : Represents root heap ops) (hc : c = root ∨ c ∈ ops) :
    ∃ t, State.visit root ⟨heap, []⟩ c = .ok t ∧ Consistent root t := by
  by_cases hroot : c = root
  · exact ⟨⟨heap, []⟩, if_pos hroot, ops, h, trivial⟩
  · obtain ⟨kept, rest, rfl⟩ := List.append_of_mem (hc.resolve_left hroot)
    obtain ⟨heap', henter, hrep, -⟩ :=
      enter_ok (s := ⟨heap, []⟩) (w := .all c (heap.memory.links.next c)) h
        (hc.resolve_left hroot)
    have hnext : heap.memory.links.next c = rest.headD root := h.next_waiter
    refine ⟨_, (if_neg hroot).trans henter, _, hrep, hc.resolve_left hroot, ?_, ?_, rfl⟩
    · rw [hnext]
      cases rest with
      | nil => exact Ne.symm hroot
      | cons x rest =>
          have hnodup := (List.nodup_append.mp h.nodup).2.1
          exact fun he => (List.nodup_cons.mp hnodup).1 (he ▸ List.mem_cons_self)
    · rw [hnext]
      cases rest with
      | nil => exact Or.inl rfl
      | cons x rest => exact Or.inr (by simp)

omit [DecidableEq α] in
/-- A waiter has some others ahead and some behind. -/
theorem represents_split (h : Represents root heap ops) (hop : op ∈ ops) :
    ∃ kept rest, ops = kept ++ op :: rest ∧ Represents root heap (kept ++ op :: rest) := by
  obtain ⟨kept, rest, rfl⟩ := List.append_of_mem hop
  exact ⟨kept, rest, rfl, h⟩

omit [DecidableEq α] in
/-- The nodes in use are the root and the waiters. -/
theorem mem_nodes {n : α} (h : Represents root heap ops) :
    n ∈ root :: heap.alive ↔ n ∈ root :: ops := by
  rw [List.mem_cons, List.mem_cons, h.alive.mem_iff]

/-- A shutdown destroys all waiters. -/
theorem shutdown_all {bn : α} (h : Represents root heap ops) (hbn : bn ∉ root :: heap.alive) :
    ∃ heap', ConditionVariable.shutdown root bn (heap.alive.length + 1) heap = .ok heap' ∧
      Represents root heap' [] := by
  have hfuel : ops.length < heap.alive.length + 1 := by
    rw [h.alive.length_eq]
    exact Nat.lt_succ_self _
  obtain ⟨heap', hshutdown, hrep, -⟩ := shutdown_ok h ((mem_nodes h).not.mp hbn) hfuel
  exact ⟨heap', hshutdown, hrep⟩

namespace Consistent

/-- **Whatever a predicate returns**, its notification goes on with a waiter. -/
theorem answer (h : Consistent root s) (done : Bool) :
    ∃ t, s.answer root done = .ok t ∧ Consistent root t := by
  obtain ⟨heap, walks⟩ := s
  obtain ⟨ops, hrep, hapart⟩ := h
  cases walks with
  | nil => exact ⟨_, rfl, ops, hrep, hapart⟩
  | cons w walks =>
      cases w with
      | one op =>
          obtain ⟨hop, hout, hwalks⟩ := hapart
          obtain ⟨kept, rest, rfl, hsplit⟩ := represents_split hrep hop
          obtain ⟨heap', ops', hfinish, hrep', hkept⟩ := finish_ok hsplit done
          refine ⟨⟨heap', walks⟩, map_ok hfinish, ops', hrep', hwalks.mono fun n hn => ?_⟩
          exact hkept n (hwalks.mem hn) fun he => hout (he ▸ hn)
      | all op c =>
          obtain ⟨hop, hne, hc, rfl⟩ := hapart
          obtain ⟨kept, rest, rfl, hsplit⟩ := represents_split hrep hop
          obtain ⟨heap', ops', hfinish, hrep', hkept⟩ := finish_ok hsplit done
          obtain ⟨t, hvisit, ht⟩ := visit_ok hrep' (hc.imp_right fun hmem => hkept c hmem hne)
          refine ⟨t, ?_, ht⟩
          show (finish root op done heap >>= _) = _
          rw [hfinish]
          exact hvisit

/-- And so it is, whatever they return. -/
theorem answers (h : Consistent root s) (returned : List Bool) :
    ∃ t, s.answers root returned = .ok t := by
  induction returned generalizing s with
  | nil => exact ⟨s, rfl⟩
  | cons done returned ih =>
      obtain ⟨t, ht, hnext⟩ := h.answer done
      obtain ⟨u, hu⟩ := ih hnext
      refine ⟨u, ?_⟩
      rw [State.answers, ht]
      exact hu

/-- No call touches a destroyed op. -/
theorem call_ok {l : Label α} (h : Consistent root s) (hallowed : Allowed root s l) :
    ∃ t, call root s l = .ok t ∧ (Keeps root s l → Consistent root t) := by
  obtain ⟨ops, hrep, hapart⟩ := id h
  have hfirst : s.heap.memory.links.next root = root ∨ s.heap.memory.links.next root ∈ ops := by
    rw [hrep.next_root]
    cases ops with
    | nil => exact Or.inl rfl
    | cons op ops => exact Or.inr List.mem_cons_self
  cases l with
  | asyncWait op =>
      obtain ⟨heap', hadd, hrep', -⟩ := addWaiter_ok hrep ((mem_nodes hrep).not.mp hallowed)
      refine ⟨⟨heap', s.walks⟩, map_ok hadd, fun _ => ⟨_, hrep', hapart.mono fun n hn => ?_⟩⟩
      exact List.mem_append_left _ (hapart.mem hn)
  | cancel op =>
      obtain ⟨kept, rest, rfl, hsplit⟩ := represents_split hrep (hrep.alive.mem_iff.mp hallowed)
      obtain ⟨heap', hcomplete, hrep', -⟩ := complete_ok hsplit .operationAborted
      refine ⟨⟨heap', s.walks⟩, map_ok hcomplete, fun hkeeps =>
        ⟨_, hrep', hapart.mono fun n hn => ?_⟩⟩
      have hne : n ≠ op := fun he => hkeeps (he ▸ hn)
      exact mem_without (hapart.mem hn) hne
  | notifyOne =>
      by_cases hroot : s.heap.memory.links.next root = root
      · exact ⟨s, if_pos hroot, fun _ => h⟩
      · have hop := hfirst.resolve_left hroot
        obtain ⟨heap', henter, hrep', -⟩ := enter_ok (w := .one _) hrep hop
        exact ⟨_, (if_neg hroot).trans henter, fun hkeeps => ⟨ops, hrep', hop, hkeeps, hapart⟩⟩
  | notifyAll =>
      by_cases hwalks : s.walks = []
      · obtain ⟨heap, walks⟩ := s
        obtain rfl : walks = [] := hwalks
        obtain ⟨t, ht, hnext⟩ := visit_ok hrep hfirst
        exact ⟨t, ht, fun _ => hnext⟩
      · by_cases hroot : s.heap.memory.links.next root = root
        · exact ⟨s, if_pos hroot, fun hkeeps => absurd hkeeps hwalks⟩
        · obtain ⟨heap', henter, -⟩ := enter_ok (s := s)
            (w := .all _ (s.heap.memory.links.next (s.heap.memory.links.next root))) hrep
            (hfirst.resolve_left hroot)
          exact ⟨_, (if_neg hroot).trans henter, fun hkeeps => absurd hkeeps hwalks⟩
  | answer done =>
      obtain ⟨t, ht, hnext⟩ := h.answer done
      exact ⟨t, ht, fun _ => hnext⟩
  | shutdown bn =>
      obtain ⟨heap', hshutdown, hrep'⟩ := shutdown_all hrep hallowed
      refine ⟨⟨heap', s.walks⟩, map_ok hshutdown, fun hkeeps => ⟨[], hrep', ?_⟩⟩
      have hnone : s.walks = [] := hkeeps
      rw [hnone]
      trivial

end Consistent

/-! ## What goes wrong otherwise -/

/-- An op that is destroyed is completed. -/
theorem complete_lost {ec : ErrorCode} (h : Represents root heap ops) (hroot : op ≠ root)
    (hop : op ∉ ops) : heap.complete root op ec = .error .destroyed := by
  have hdrop : heap.drop root op = .error .destroyed := by
    refine if_neg fun husable => ?_
    rcases husable op List.mem_cons_self with he | hmem
    · exact hroot he
    · exact hop (h.alive.mem_iff.mp hmem)
  rw [Heap.complete, hdrop]
  rfl

/-- `notify_all` goes on with an op that is destroyed. -/
theorem visit_lost (h : Represents root heap ops) (hroot : op ≠ root) (hop : op ∉ ops) :
    State.visit root ⟨heap, walks⟩ op = .error .destroyed := by
  have hask : heap.ask op = .error .destroyed :=
    if_neg fun hmem => hop (h.alive.mem_iff.mp hmem)
  rw [State.visit, if_neg hroot, State.enter]
  show (heap.ask op).map _ = _
  rw [hask]
  rfl

/-- More predicates return. -/
theorem answers_append {r : Except Fault (State α)} {first rest : List Bool}
    (h : (r >>= State.answers root first) = .ok t) :
    (r >>= State.answers root (first ++ rest)) = State.answers root rest t := by
  induction first generalizing r with
  | nil =>
      cases r with
      | error e => cases h
      | ok s =>
          obtain rfl := Except.ok.inj h
          rfl
  | cons done first ih =>
      cases r with
      | error e => cases h
      | ok s => exact ih h

/-- A walk ends when the predicates refuse. -/
theorem visit_refused (walks : List (Walk α)) (h : Represents root heap ops) {c : α}
    (hc : c = root ∨ c ∈ ops) :
    ∃ returned heap', (State.visit root ⟨heap, walks⟩ c >>= State.answers root returned) =
      .ok ⟨heap', walks⟩ ∧ Represents root heap' ops := by
  by_cases hroot : c = root
  · exact ⟨[], heap, by rw [State.visit, if_pos hroot]; rfl, h⟩
  · obtain ⟨kept, rest, rfl⟩ := List.append_of_mem (hc.resolve_left hroot)
    obtain ⟨returned, heap', hvisit, hrep⟩ := visit_ends walks h fun _ => false
    exact ⟨returned, heap', hvisit, by simpa using hrep⟩

/-- If a notification holds an op that is destroyed, the predicates may return so that it is
touched. -/
theorem doomed_of_lost {n : α} (h : Represents root heap ops)
    (hroot : ∀ w ∈ walks, Walk.op w ≠ root) (hn : n ∈ walks.flatMap (Walk.holds root))
    (hlost : n ∉ ops) :
    ∃ returned e, State.answers root returned ⟨heap, walks⟩ = .error e := by
  induction walks generalizing heap with
  | nil => exact absurd hn List.not_mem_nil
  | cons w walks ih =>
      have hrest := fun (heap' : Heap α) (h' : Represents root heap' ops) =>
        ih h' fun v hv => hroot v (List.mem_cons_of_mem w hv)
      rw [List.flatMap_cons, List.mem_append] at hn
      cases w with
      | one op =>
          rcases hn with hn | hn
          · obtain rfl := List.mem_singleton.mp hn
            have hne : n ≠ root := hroot _ List.mem_cons_self
            refine ⟨[true], .destroyed, ?_⟩
            show ((finish root n true heap).map _ >>= _) = _
            rw [finish_true, complete_lost h hne hlost]
            rfl
          · obtain ⟨returned, e, he⟩ := hrest heap h hn
            exact ⟨false :: returned, e, he⟩
      | all op c =>
          have hop : op ≠ root := hroot _ List.mem_cons_self
          by_cases hasked : op ∈ ops
          swap
          · refine ⟨[true], .destroyed, ?_⟩
            rw [answers_cons, finish_true, complete_lost h hop hasked]
            rfl
          by_cases hc : c = root ∨ c ∈ ops
          swap
          · refine ⟨[false], .destroyed, ?_⟩
            obtain ⟨hne, hout⟩ := not_or.mp hc
            rw [answers_cons, finish_false]
            show (State.visit root ⟨heap, walks⟩ c >>= _) = _
            rw [visit_lost h hne hout]
            rfl
          have hinner : n ∈ walks.flatMap (Walk.holds root) := by
            refine hn.resolve_left fun hmem => hlost ?_
            simp only [Walk.holds] at hmem
            split at hmem
            · exact List.mem_singleton.mp hmem ▸ hasked
            · rename_i hne
              rcases List.mem_cons.mp hmem with rfl | hmem
              · exact hasked
              · exact List.mem_singleton.mp hmem ▸ hc.resolve_left hne
          obtain ⟨first, heap', hfirst, hrep⟩ := visit_refused walks h hc
          obtain ⟨returned, e, he⟩ := hrest heap' hrep hinner
          refine ⟨false :: (first ++ returned), e, ?_⟩
          rw [answers_cons, finish_false]
          exact (answers_append hfirst).trans he

/-- The op that a notification asks is one that it holds. -/
theorem mem_held {w : Walk α} (hw : w ∈ walks) :
    w.op ∈ walks.flatMap (Walk.holds root) := by
  refine List.mem_flatMap.mpr ⟨w, hw, ?_⟩
  cases w with
  | one op => exact List.mem_cons_self
  | all op c =>
      simp only [Walk.holds]
      split <;> exact List.mem_cons_self

omit [DecidableEq α] in
/-- A waiter that leaves is no longer one of them. -/
theorem not_mem_without (h : Represents root heap (kept ++ op :: rest)) : op ∉ kept ++ rest :=
  (List.nodup_cons.mp (List.nodup_middle.mp h.nodup)).1

/-- A step is a call that is allowed and does not fault. -/
theorem step_eq_some {l : Label α} (h : step root s l = some t) :
    Allowed root s l ∧ call root s l = .ok t := by
  obtain ⟨hallowed, hcall⟩ := Option.ite_none_right_eq_some.mp h
  refine ⟨hallowed, ?_⟩
  cases hc : call root s l with
  | error e =>
      rw [hc] at hcall
      cases hcall
  | ok u =>
      rw [hc] at hcall
      exact congrArg _ (Option.some.inj hcall)

/-- **A step that makes notifications meet** leads to a state that is not safe. -/
theorem Consistent.breaks {l : Label α} (h : Consistent root s) (hbreaks : ¬ Keeps root s l)
    (hstep : step root s l = some t) : ¬ Safe root t := by
  obtain ⟨hallowed, hcall⟩ := step_eq_some hstep
  obtain ⟨heap, walks⟩ := s
  obtain ⟨ops, hrep, hapart⟩ := h
  have hroot : ∀ w ∈ walks, Walk.op w ≠ root := fun w hw =>
    hrep.ne_root (hapart.mem (mem_held hw))
  have hdoomed : ∀ {returned e}, State.answers root returned t = .error e → ¬ Safe root t := by
    intro returned e herror hsafe
    obtain ⟨u, hu⟩ := hsafe.answers returned
    rw [herror] at hu
    cases hu
  cases l with
  | asyncWait op | answer done => exact absurd trivial hbreaks
  | cancel op =>
      have hheld : op ∈ walks.flatMap (Walk.holds root) := not_not.mp hbreaks
      obtain ⟨kept, rest, rfl, hsplit⟩ := represents_split hrep (hapart.mem hheld)
      obtain ⟨heap', hcomplete, hrep', -⟩ := complete_ok hsplit .operationAborted
      obtain ⟨returned, e, he⟩ := doomed_of_lost hrep' hroot hheld (not_mem_without hsplit)
      have ht : call root ⟨heap, walks⟩ (.cancel op) = _ := map_ok hcomplete
      obtain rfl := Except.ok.inj (hcall.symm.trans ht)
      exact hdoomed he
  | notifyOne =>
      -- the waiter that both ask is completed by the inner notification
      have hheld : heap.memory.links.next root ∈ walks.flatMap (Walk.holds root) :=
        not_not.mp hbreaks
      obtain ⟨kept, rest, rfl, hsplit⟩ := represents_split hrep (hapart.mem hheld)
      obtain ⟨asked, henter, hasked, -⟩ := enter_ok (s := ⟨heap, walks⟩) (w := .one _) hsplit
        (List.mem_append_right _ List.mem_cons_self)
      obtain ⟨heap', hcomplete, hrep', -⟩ := complete_ok hasked .success
      obtain ⟨returned, e, he⟩ := doomed_of_lost hrep' hroot hheld (not_mem_without hsplit)
      have ht : call root ⟨heap, walks⟩ .notifyOne = _ :=
        (if_neg (hsplit.ne_root (hapart.mem hheld))).trans henter
      obtain rfl := Except.ok.inj (hcall.symm.trans ht)
      have hfault : State.answers root (true :: returned)
          ⟨asked, .one (heap.memory.links.next root) :: walks⟩ = .error e := by
        show ((finish root _ true asked).map _ >>= _) = _
        rw [finish_true, hcomplete]
        exact he
      exact hdoomed hfault
  | notifyAll =>
      -- the inner walk completes the op that the innermost of the others asks
      obtain ⟨w, hw⟩ := List.exists_mem_of_ne_nil walks hbreaks
      have hnone : Represents root heap ([] ++ ops) := hrep
      obtain ⟨first, heap', hfirst, hrep'⟩ := visit_ends walks hnone fun n => decide (n = w.op)
      have hout : w.op ∉ [] ++ ops.filter (fun n => ! decide (n = w.op)) := by simp
      obtain ⟨returned, e, he⟩ := doomed_of_lost hrep' hroot (mem_held hw) hout
      have ht : State.visit root ⟨heap, walks⟩ (ops.headD root) = .ok t := by
        rw [← hrep.next_root]
        exact hcall
      rw [ht] at hfirst
      exact hdoomed ((answers_append (r := .ok t) hfirst).trans he)
  | shutdown bn =>
      obtain ⟨w, hw⟩ := List.exists_mem_of_ne_nil walks hbreaks
      obtain ⟨heap', hshutdown, hrep'⟩ := shutdown_all hrep hallowed
      obtain ⟨returned, e, he⟩ := doomed_of_lost hrep' hroot (mem_held hw) List.not_mem_nil
      have ht : call root ⟨heap, walks⟩ (.shutdown bn) = _ := map_ok hshutdown
      obtain rfl := Except.ok.inj (hcall.symm.trans ht)
      exact hdoomed he

/-- A consistent state is safe. -/
theorem Consistent.safe (h : Consistent root s) : Safe root s where
  calls l hallowed := by
    obtain ⟨t, ht, -⟩ := h.call_ok (l := l) hallowed
    exact ⟨t, ht⟩
  answers := h.answers

/-- It stays consistent as long as the notifications do not meet. -/
theorem Consistent.step {l : Label α} (h : Consistent root s) (hkeeps : Keeps root s l)
    (hstep : step root s l = some t) : Consistent root t := by
  obtain ⟨hallowed, hcall⟩ := step_eq_some hstep
  obtain ⟨u, hu, hnext⟩ := h.call_ok hallowed
  obtain rfl := Except.ok.inj (hcall.symm.trans hu)
  exact hnext hkeeps

/-- A new condition variable has no waiters and no notifications. -/
theorem consistent_init (links : Links α) (root : α) : Consistent root (State.init links root) :=
  ⟨[], represents_init links root, trivial⟩

/-- **What a predicate may do**. In every run of calls, nested in predicates or not, nothing that is
destroyed is touched, whatever the predicates return, exactly if no predicate calls `notify_all` or
shuts down, none cancels an op that a notification holds, and none calls `notify_one` while a
notification holds the first waiter. -/
theorem predicates_iff (links : Links α) (root : α) (ls : List (Label α)) :
    (∀ t, Visits (step root) (State.init links root) ls t → Safe root t) ↔
      ∀ s l, Takes (step root) (State.init links root) ls s l → Keeps root s l :=
  visits_iff_takes (fun _ _ _ h hkeeps hstep => h.step hkeeps hstep) (fun _ h => h.safe)
    (fun _ _ _ h hbreaks hstep => h.breaks hbreaks hstep) (consistent_init links root) ls

/-- `notify_all` goes on with the op that it remembers, which the first predicate has cancelled. -/
example : run (step 0) (State.init ⟨id, id⟩ 0)
    [.asyncWait 1, .asyncWait 2, .notifyAll, .cancel 2, .answer false] = none := rfl

/-- An op that the predicate of the last waiter queues is not asked, as the walk is past it. -/
example : (run (step 0) (State.init ⟨id, id⟩ 0)
    [.asyncWait 1, .asyncWait 2, .notifyAll, .answer false, .asyncWait 3, .answer true]).map
      (fun s => (s.heap.asked, s.heap.alive)) = some ([1, 2], [1, 3]) := rfl

end Sam.ConditionVariable.Nested
