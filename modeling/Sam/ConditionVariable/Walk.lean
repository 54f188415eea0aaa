import Sam.ConditionVariable.Predicates

/-!
# `notify_all` under predicates that call

While `notify_all` is in progress, predicates may queue ops, cancel them and call `notify_one`, as
far as `Keeps` allows it. `Under` says where the walk is: some waiters are behind it, one is asked
and the rest is ahead. `Turn` says what each step does to that. It follows that the walk misses no
waiter and that it ends.
-/

namespace Sam.ConditionVariable.Nested

open Transition

universe u

variable {α : Type u} {root op c : α} {ops ones seen rest : List α} {s t u : State α}
  {heap : Heap α} {links : Links α} {before ls : List (Label α)}

/-- A step that keeps the notifications apart. -/
def careful [DecidableEq α] (root : α) (s : State α) (l : Label α) : Option (State α) :=
  if Keeps root s l then step root s l else none

/-- A `notify_all` is in progress. It is past the waiters `seen`, asks `op` and goes on with `c`;
the waiters `rest` are ahead, and calls of `notify_one` inside it ask `ones`. -/
structure Under (root : α) (s : State α) (ones : List α) (op c : α) (seen rest : List α) :
    Prop where
  walks : s.walks = ones.map .one ++ [.all op c]
  ring : Represents root s.heap (seen ++ op :: rest)
  next : c = root ∨ rest.head? = some c

/-- What a step does to it. -/
inductive Turn (root : α) (s t : State α) (ones : List α) (op c : α) (seen rest : List α) :
    Label α → Prop
  | queue {n : α} (hunder : Under root t ones op c seen (rest ++ [n]))
      (hasked : t.heap.asked = s.heap.asked) : Turn root s t ones op c seen rest (.asyncWait n)
  | cancel {n : α} {seen' rest' : List α} (hunder : Under root t ones op c seen' rest')
      (hseen : seen'.Sublist seen) (hrest : rest'.Sublist rest)
      (hasked : t.heap.asked = s.heap.asked) : Turn root s t ones op c seen rest (.cancel n)
  | ask {n : α} (hunder : Under root t (n :: ones) op c seen rest)
      (hasked : t.heap.asked = s.heap.asked ++ [n]) : Turn root s t ones op c seen rest .notifyOne
  | answered {n : α} {ones' seen' rest' : List α} {done : Bool} (hones : ones = n :: ones')
      (hunder : Under root t ones' op c seen' rest') (hseen : seen'.Sublist seen)
      (hrest : rest'.Sublist rest) (hasked : t.heap.asked = s.heap.asked) :
      Turn root s t ones op c seen rest (.answer done)
  | moved {c' : α} {seen' rest' : List α} {done : Bool} (hones : ones = [])
      (hrest : rest = c :: rest') (hunder : Under root t [] c c' seen' rest')
      (hseen : seen' ⊆ seen ++ [op]) (hlast : c' = root → rest' = [])
      (hasked : t.heap.asked = s.heap.asked ++ [c]) :
      Turn root s t ones op c seen rest (.answer done)
  | ended {done : Bool} (hones : ones = []) (hroot : c = root) (hwalks : t.walks = [])
      (halive : t.heap.alive ⊆ seen ++ op :: rest) (hasked : t.heap.asked = s.heap.asked) :
      Turn root s t ones op c seen rest (.answer done)

variable [DecidableEq α]

/-! ## One step -/

/-- The walk holds the op that it asks and, unless it is at the end, the one that it goes on
with. -/
theorem ne_of_not_held {n : α}
    (h : n ∉ (ones.map Walk.one ++ [Walk.all op c]).flatMap (Walk.holds root)) (hroot : n ≠ root) :
    n ≠ op ∧ n ≠ c := by
  rw [List.flatMap_append, List.mem_append, not_or] at h
  have hwalk := h.2
  rw [List.flatMap_cons, List.flatMap_nil, List.append_nil, Walk.holds] at hwalk
  split at hwalk
  · rename_i hc
    exact ⟨fun he => hwalk (he ▸ List.mem_cons_self), fun he => hroot (he.trans hc)⟩
  · rw [List.mem_cons, List.mem_singleton, not_or] at hwalk
    exact hwalk

/-- A waiter that the walk does not hold is completed. -/
theorem remove_ok {n : α} (h : Represents root heap (seen ++ op :: rest))
    (hn : n ∈ seen ++ op :: rest) (hop : n ≠ op) (ec : ErrorCode) :
    ∃ heap' seen' rest', heap.complete root n ec = .ok heap' ∧
      Represents root heap' (seen' ++ op :: rest') ∧ heap'.asked = heap.asked ∧
      seen'.Sublist seen ∧ rest'.Sublist rest ∧
      (n ≠ c → rest.head? = some c → rest'.head? = some c) := by
  rcases List.mem_append.mp hn with hseen | hrest
  · obtain ⟨a, b, rfl⟩ := List.append_of_mem hseen
    have hsplit : Represents root heap (a ++ n :: (b ++ op :: rest)) := by simpa using h
    obtain ⟨heap', hcomplete, hrep, -, hasked⟩ := complete_ok hsplit ec
    refine ⟨heap', a ++ b, rest, hcomplete, by simpa using hrep, hasked, ?_, .refl _, fun _ => id⟩
    exact (List.sublist_cons_self n b).append_left a
  · obtain ⟨a, b, rfl⟩ := List.append_of_mem ((List.mem_cons.mp hrest).resolve_left hop)
    have hsplit : Represents root heap ((seen ++ op :: a) ++ n :: b) := by simpa using h
    obtain ⟨heap', hcomplete, hrep, -, hasked⟩ := complete_ok hsplit ec
    refine ⟨heap', seen, a ++ b, hcomplete, by simpa using hrep, hasked, .refl _, ?_, ?_⟩
    · exact (List.sublist_cons_self n b).append_left a
    · intro hc hhead
      cases a with
      | nil => exact absurd (Option.some.inj hhead) hc
      | cons x a => exact hhead

/-- The predicate of an op inside the walk returns. -/
theorem finish_inner {n : α} (h : Represents root heap (seen ++ op :: rest))
    (hn : n ∈ seen ++ op :: rest) (hop : n ≠ op) (done : Bool) :
    ∃ heap' seen' rest', finish root n done heap = .ok heap' ∧
      Represents root heap' (seen' ++ op :: rest') ∧ heap'.asked = heap.asked ∧
      seen'.Sublist seen ∧ rest'.Sublist rest ∧
      (n ≠ c → rest.head? = some c → rest'.head? = some c) := by
  cases done with
  | false => exact ⟨heap, seen, rest, finish_false, h, rfl, .refl _, .refl _, fun _ => id⟩
  | true =>
      rw [finish_true]
      exact remove_ok h hn hop .success

/-- The predicate of the op that the walk asks returns, and the walk is past it. -/
theorem finish_outer (h : Represents root heap (seen ++ op :: rest)) (done : Bool) :
    ∃ heap' seen', finish root op done heap = .ok heap' ∧ Represents root heap' (seen' ++ rest) ∧
      heap'.asked = heap.asked ∧ seen' ⊆ seen ++ [op] := by
  cases done with
  | false => exact ⟨heap, seen ++ [op], finish_false, by simpa using h, rfl, List.Subset.refl _⟩
  | true =>
      obtain ⟨heap', hcomplete, hrep, -, hasked⟩ := complete_ok h .success
      exact ⟨heap', seen, finish_true.trans hcomplete, hrep, hasked, List.subset_append_left _ _⟩

/-- `notify_all` comes to a waiter, and will go on with the first of those ahead. -/
theorem under_of_visit (h : Represents root heap (seen ++ op :: rest))
    (hvisit : State.visit root ⟨heap, []⟩ op = .ok t) :
    ∃ c, Under root t [] op c seen rest ∧ (c = root → rest = []) ∧
      t.heap.asked = heap.asked ++ [op] := by
  have hmem : op ∈ seen ++ op :: rest := List.mem_append_right _ List.mem_cons_self
  obtain ⟨heap', henter, hrep, hasked⟩ :=
    enter_ok (s := ⟨heap, []⟩) (w := .all op (heap.memory.links.next op)) h hmem
  obtain rfl := Except.ok.inj (hvisit.symm.trans ((if_neg (h.ne_root hmem)).trans henter))
  have hnext : heap.memory.links.next op = rest.headD root := h.next_waiter
  refine ⟨_, ⟨rfl, hrep, ?_⟩, fun hlast => ?_, hasked⟩
  · rw [hnext]
    cases rest with
    | nil => exact Or.inl rfl
    | cons x rest => exact Or.inr rfl
  · rw [hnext] at hlast
    cases rest with
    | nil => rfl
    | cons x rest => exact absurd hlast (h.ne_root (by simp))

namespace Under

/-- The notifications hold waiters of the ring. -/
theorem apart (h : Under root s ones op c seen rest) (hs : Consistent root s) :
    Apart root (seen ++ op :: rest) (ones.map Walk.one ++ [Walk.all op c]) := by
  obtain ⟨ops, hrep, hapart⟩ := hs
  obtain rfl := h.ring.ring.unique hrep.ring
  exact h.walks ▸ hapart

/-- A new op is ahead of the walk. -/
theorem queue {n : α} (h : Under root s ones op c seen rest)
    (hallowed : Allowed root s (.asyncWait n)) (hcall : call root s (.asyncWait n) = .ok t) :
    Turn root s t ones op c seen rest (.asyncWait n) := by
  obtain ⟨heap', hadd, hrep, -, hasked⟩ :=
    addWaiter_ok h.ring ((mem_nodes h.ring).not.mp hallowed)
  obtain rfl := Except.ok.inj (hcall.symm.trans (map_ok hadd))
  refine .queue ⟨h.walks, by simpa using hrep, h.next.imp_right fun hhead => ?_⟩ hasked
  rw [List.head?_append, hhead]
  rfl

/-- An op that is cancelled is not held by the walk. -/
theorem cancel {n : α} (h : Under root s ones op c seen rest)
    (hallowed : Allowed root s (.cancel n)) (hkeeps : Keeps root s (.cancel n))
    (hcall : call root s (.cancel n) = .ok t) :
    Turn root s t ones op c seen rest (.cancel n) := by
  have hmem : n ∈ seen ++ op :: rest := h.ring.alive.mem_iff.mp hallowed
  have hout : n ∉ s.walks.flatMap (Walk.holds root) := hkeeps
  obtain ⟨hop, hc⟩ := ne_of_not_held (h.walks ▸ hout) (h.ring.ne_root hmem)
  obtain ⟨heap', seen', rest', hcomplete, hrep, hasked, hseen, hrest, hhead⟩ :=
    remove_ok (c := c) h.ring hmem hop .operationAborted
  obtain rfl := Except.ok.inj (hcall.symm.trans (map_ok hcomplete))
  exact .cancel ⟨h.walks, hrep, h.next.imp_right (hhead hc)⟩ hseen hrest hasked

/-- A call of `notify_one` asks a waiter. -/
theorem ask (h : Under root s ones op c seen rest) (hcall : call root s .notifyOne = .ok t) :
    Turn root s t ones op c seen rest .notifyOne := by
  have hfirst : s.heap.memory.links.next root ∈ seen ++ op :: rest := by
    rw [h.ring.next_root]
    cases seen <;> simp
  obtain ⟨heap', henter, hrep, hasked⟩ := enter_ok (w := .one _) h.ring hfirst
  have ht : call root s .notifyOne = _ := (if_neg (h.ring.ne_root hfirst)).trans henter
  obtain rfl := Except.ok.inj (hcall.symm.trans ht)
  exact .ask ⟨congrArg _ h.walks, hrep, h.next⟩ hasked

/-- A predicate inside the walk returns. -/
theorem answered {n : α} {ones' : List α} {done : Bool}
    (h : Under root s (n :: ones') op c seen rest) (hs : Consistent root s)
    (hcall : call root s (.answer done) = .ok t) :
    Turn root s t (n :: ones') op c seen rest (.answer done) := by
  obtain ⟨heap, walks⟩ := s
  obtain ⟨hmem, hout, -⟩ := h.apart hs
  obtain ⟨hop, hc⟩ := ne_of_not_held hout (h.ring.ne_root hmem)
  obtain ⟨heap', seen', rest', hfinish, hrep, hasked, hseen, hrest, hhead⟩ :=
    finish_inner (c := c) h.ring hmem hop done
  obtain rfl : walks = .one n :: (ones'.map Walk.one ++ [Walk.all op c]) := h.walks
  obtain rfl := Except.ok.inj (hcall.symm.trans (map_ok hfinish))
  exact .answered rfl ⟨rfl, hrep, h.next.imp_right (hhead hc)⟩ hseen hrest hasked

/-- The predicate of the op that the walk asks returns: the walk goes on with the next one, which is
the first of those ahead, or it is over. -/
theorem moved {done : Bool} (h : Under root s [] op c seen rest)
    (hcall : call root s (.answer done) = .ok t) :
    Turn root s t [] op c seen rest (.answer done) := by
  obtain ⟨heap, walks⟩ := s
  obtain ⟨heap', seen', hfinish, hrep, hasked, hseen⟩ := finish_outer h.ring done
  obtain rfl : walks = [.all op c] := h.walks
  have hvisit : State.visit root ⟨heap', []⟩ c = .ok t := by
    have hbind : (finish root op done heap >>= fun heap => State.visit root ⟨heap, []⟩ c) = .ok t :=
      hcall
    rw [hfinish] at hbind
    exact hbind
  by_cases hroot : c = root
  · obtain rfl := Except.ok.inj (hvisit.symm.trans (if_pos hroot))
    refine .ended rfl hroot rfl (fun n hn => ?_) hasked
    rcases List.mem_append.mp (hrep.alive.mem_iff.mp hn) with hn | hn
    · simpa using List.mem_append_left rest (hseen hn)
    · exact List.mem_append_right _ (List.mem_cons_of_mem op hn)
  · obtain ⟨rest', rfl⟩ := List.head?_eq_some_iff.mp (h.next.resolve_left hroot)
    obtain ⟨c', hunder, hlast, hmore⟩ := under_of_visit hrep hvisit
    exact .moved rfl rfl hunder hseen hlast (hasked ▸ hmore)

/-- **One step** while `notify_all` is in progress. -/
theorem turn {l : Label α} (h : Under root s ones op c seen rest) (hs : Consistent root s)
    (hkeeps : Keeps root s l) (hstep : step root s l = some t) :
    Turn root s t ones op c seen rest l := by
  obtain ⟨hallowed, hcall⟩ := step_eq_some hstep
  have hbusy : s.walks ≠ [] := by simp [h.walks]
  cases l with
  | asyncWait n => exact h.queue hallowed hcall
  | cancel n => exact h.cancel hallowed hkeeps hcall
  | notifyOne => exact h.ask hcall
  | notifyAll | shutdown bn => exact absurd hkeeps hbusy
  | answer done =>
      cases ones with
      | nil => exact h.moved hcall
      | cons n ones' => exact h.answered hs hcall

end Under

/-- `notify_all` asks the first waiter, or has nothing to do. -/
theorem notifyAll_starts (h : Consistent root s) (hidle : s.walks = [])
    (hstep : step root s .notifyAll = some t) :
    (t = s ∧ s.heap.alive = []) ∨ ∃ op c rest, Under root t [] op c [] rest ∧
      (c = root → rest = []) ∧ t.heap.asked = s.heap.asked ++ [op] ∧
      s.heap.alive.length = rest.length + 1 := by
  obtain ⟨heap, walks⟩ := s
  obtain rfl : walks = [] := hidle
  obtain ⟨ops, hrep, -⟩ := h
  have hcall : State.visit root ⟨heap, []⟩ (heap.memory.links.next root) = .ok t :=
    (step_eq_some hstep).2
  rw [hrep.next_root] at hcall
  cases ops with
  | nil =>
      obtain rfl := Except.ok.inj (hcall.symm.trans (if_pos rfl))
      exact Or.inl ⟨rfl, hrep.alive.eq_nil⟩
  | cons op rest =>
      have hsplit : Represents root heap ([] ++ op :: rest) := hrep
      obtain ⟨c, hunder, hlast, hasked⟩ := under_of_visit hsplit hcall
      exact Or.inr ⟨op, c, rest, hunder, hlast, hasked, hrep.alive.length_eq⟩

/-! ## What all steps do -/

/-- No op is added, and more predicates may have been evaluated. -/
structure Fades (heap heap' : Heap α) : Prop where
  alive : heap'.alive ⊆ heap.alive
  asked : heap.asked <+: heap'.asked

namespace Fades

variable {heap' heap'' : Heap α}

omit [DecidableEq α] in
/-- Nothing happens. -/
theorem refl (heap : Heap α) : Fades heap heap := ⟨List.Subset.refl _, List.prefix_rfl⟩

omit [DecidableEq α] in
/-- One after the other. -/
theorem trans (h : Fades heap heap') (h' : Fades heap' heap'') : Fades heap heap'' :=
  ⟨fun _ hn => h.alive (h'.alive hn), h.asked.trans h'.asked⟩

/-- An op is dropped. -/
theorem drop (h : heap.drop root op = .ok heap') : Fades heap heap' := by
  unfold Heap.drop at h
  split at h
  · obtain rfl := Except.ok.inj h
    exact ⟨List.erase_subset, List.prefix_rfl⟩
  · cases h

/-- An op is completed. -/
theorem complete {ec : ErrorCode} (h : heap.complete root op ec = .ok heap') :
    Fades heap heap' := by
  obtain ⟨dropped, hdrop, rfl⟩ := Fuel.of_map_ok h
  have hfirst := drop hdrop
  exact ⟨hfirst.alive, hfirst.asked⟩

/-- A predicate is called. -/
theorem enter {w : Walk α} (h : s.enter w = .ok t) : Fades s.heap t.heap := by
  obtain ⟨heap, hask, rfl⟩ := Fuel.of_map_ok h
  unfold Heap.ask at hask
  split at hask
  · obtain rfl := Except.ok.inj hask
    exact ⟨List.Subset.refl _, List.prefix_append _ _⟩
  · cases hask

/-- `notify_all` goes on. -/
theorem visit (h : s.visit root c = .ok t) : Fades s.heap t.heap := by
  unfold State.visit at h
  split at h
  · exact Except.ok.inj h ▸ refl s.heap
  · exact enter h

/-- An op whose predicate has returned is completed or stays. -/
theorem finish {done : Bool} (h : Nested.finish root op done heap = .ok heap') :
    Fades heap heap' := by
  cases done with
  | false => exact Except.ok.inj (finish_false.symm.trans h) ▸ refl heap
  | true => exact complete (finish_true.symm.trans h)

/-- A predicate returns. -/
theorem answer {done : Bool} (h : s.answer root done = .ok t) : Fades s.heap t.heap := by
  obtain ⟨heap, walks⟩ := s
  cases walks with
  | nil => exact Except.ok.inj h ▸ refl heap
  | cons w walks =>
      cases w with
      | one op =>
          obtain ⟨heap', hfinish, rfl⟩ := Fuel.of_map_ok h
          exact finish hfinish
      | all op c =>
          obtain ⟨heap', hfinish, hvisit⟩ := Fuel.of_bind_ok h
          exact (finish hfinish).trans (visit hvisit)

/-- The local list of a shutdown is emptied. -/
theorem shutdownLoop {bn : α} {fuel : Nat}
    (h : ConditionVariable.shutdownLoop bn fuel heap = .ok heap') : Fades heap heap' := by
  induction fuel generalizing heap with
  | zero => cases h
  | succ fuel ih =>
      rw [ConditionVariable.shutdownLoop] at h
      split at h
      · exact Except.ok.inj h ▸ refl heap
      split at h
      · cases h
      · obtain ⟨dropped, hdrop, hrest⟩ := Fuel.of_bind_ok h
        have hlater := ih hrest
        exact (drop hdrop).trans ⟨hlater.alive, hlater.asked⟩

end Fades

/-- Only `async_wait` adds an op, and what was evaluated stays so. -/
theorem step_fades {l : Label α} (hstep : step root s l = some t) :
    (∀ n ∈ t.heap.alive, n ∈ s.heap.alive ∨ l = .asyncWait n) ∧ s.heap.asked <+: t.heap.asked := by
  obtain ⟨-, hcall⟩ := step_eq_some hstep
  have hfades : Fades s.heap t.heap →
      (∀ n ∈ t.heap.alive, n ∈ s.heap.alive ∨ l = .asyncWait n) ∧
        s.heap.asked <+: t.heap.asked := fun h => ⟨fun n hn => Or.inl (h.alive hn), h.asked⟩
  cases l with
  | asyncWait op =>
      obtain ⟨heap', hadd, rfl⟩ := Fuel.of_map_ok hcall
      unfold addWaiter at hadd
      split at hadd
      · obtain rfl := Except.ok.inj hadd
        refine ⟨fun n hn => ?_, List.prefix_rfl⟩
        rcases List.mem_append.mp hn with hn | hn
        · exact Or.inl hn
        · exact Or.inr (congrArg _ (List.mem_singleton.mp hn).symm)
      · cases hadd
  | cancel op =>
      obtain ⟨heap', hcomplete, rfl⟩ := Fuel.of_map_ok hcall
      exact hfades (Fades.complete hcomplete)
  | notifyOne =>
      have hone : (if s.heap.memory.links.next root = root then .ok s
          else s.enter (.one (s.heap.memory.links.next root))) = .ok t := hcall
      split at hone
      · exact hfades (Except.ok.inj hone ▸ Fades.refl s.heap)
      · exact hfades (Fades.enter hone)
  | notifyAll => exact hfades (Fades.visit hcall)
  | answer done => exact hfades (Fades.answer hcall)
  | shutdown bn =>
      obtain ⟨heap', hshutdown, rfl⟩ := Fuel.of_map_ok hcall
      have hloop := Fades.shutdownLoop hshutdown
      exact hfades ⟨hloop.alive, hloop.asked⟩

/-! ## Nobody is missed -/

/-- A careful step is one that keeps the notifications apart. -/
theorem careful_eq_some {l : Label α} (h : careful root s l = some t) :
    Keeps root s l ∧ step root s l = some t := Option.ite_none_right_eq_some.mp h

/-- Careful runs lead to consistent states. -/
theorem consistent_of_run (hrun : run (careful root) (State.init links root) before = some s) :
    Consistent root s :=
  run_invariant (fun _ _ _ h hstep => h.step (careful_eq_some hstep).1 (careful_eq_some hstep).2)
    (consistent_init links root) hrun

/-- After `notify_all` was called: each op that waits was asked `since` or was queued, or the walk
is still to come to it. -/
inductive Reached (root : α) (since : List α) (queued : α → Prop) (s : State α) : Prop
  | ended (hall : ∀ n ∈ s.heap.alive, n ∈ since ∨ queued n)
  | walk {ones : List α} {op c : α} {seen rest : List α}
      (hunder : Under root s ones op c seen rest) (hseen : ∀ n ∈ seen ++ [op], n ∈ since)
      (hlast : c = root → ∀ n ∈ rest, queued n)

namespace Reached

variable {since : List α} {queued : α → Prop}

/-- After the walk it stays so. -/
theorem later {l : Label α} (hall : ∀ n ∈ s.heap.alive, n ∈ since ∨ queued n)
    (hqueued : ∀ n, l = .asyncWait n → queued n) (hstep : step root s l = some t) :
    ∃ more, t.heap.asked = s.heap.asked ++ more ∧ Reached root (since ++ more) queued t := by
  obtain ⟨halive, more, hmore⟩ := step_fades hstep
  refine ⟨more, hmore.symm, .ended fun n hn => ?_⟩
  rcases halive n hn with hold | hnew
  · exact (hall n hold).imp_left (List.mem_append_left more)
  · exact Or.inr (hqueued n hnew)

/-- **One step** of the walk. -/
theorem walked {l : Label α} (hunder : Under root s ones op c seen rest) (hs : Consistent root s)
    (hseen : ∀ n ∈ seen ++ [op], n ∈ since) (hlast : c = root → ∀ n ∈ rest, queued n)
    (hkeeps : Keeps root s l) (hqueued : ∀ n, l = .asyncWait n → queued n)
    (hstep : step root s l = some t) :
    ∃ more, t.heap.asked = s.heap.asked ++ more ∧ Reached root (since ++ more) queued t := by
  have hsublist : ∀ {seen' more : List α}, seen'.Sublist seen →
      ∀ n ∈ seen' ++ [op], n ∈ since ++ more := fun hsub n hn =>
    List.mem_append_left _ (hseen n ((hsub.append_right [op]).subset hn))
  cases hunder.turn hs hkeeps hstep with
  | queue hnext hasked =>
      refine ⟨[], by simpa using hasked, .walk hnext (hsublist (.refl seen)) fun hroot n hn => ?_⟩
      rcases List.mem_append.mp hn with hn | hn
      · exact hlast hroot n hn
      · exact hqueued n (congrArg _ (List.mem_singleton.mp hn).symm)
  | cancel hnext hsub hrest hasked | answered _ hnext hsub hrest hasked =>
      exact ⟨[], by simpa using hasked, .walk hnext (hsublist hsub) fun hroot n hn =>
        hlast hroot n (hrest.subset hn)⟩
  | ask hnext hasked => exact ⟨_, hasked, .walk hnext (hsublist (.refl seen)) hlast⟩
  | moved _ _ hnext hsub hend hasked =>
      refine ⟨[c], hasked, .walk hnext (fun n hn => ?_) fun hroot n hn => ?_⟩
      · rcases List.mem_append.mp hn with hn | hn
        · exact List.mem_append_left _ (hseen n (hsub hn))
        · exact List.mem_append_right _ hn
      · exact absurd hn (hend hroot ▸ List.not_mem_nil)
  | ended _ hroot _ halive hasked =>
      refine ⟨[], by simpa using hasked, .ended fun n hn => ?_⟩
      rw [List.append_nil]
      rcases List.mem_append.mp (halive hn) with hn | hn
      · exact Or.inl (hseen n (List.mem_append_left _ hn))
      rcases List.mem_cons.mp hn with rfl | hn
      · exact Or.inl (hseen n (by simp))
      · exact Or.inr (hlast hroot n hn)

/-- **One step** after `notify_all` was called. -/
theorem step {l : Label α} (h : Reached root since queued s) (hs : Consistent root s)
    (hkeeps : Keeps root s l) (hqueued : ∀ n, l = .asyncWait n → queued n)
    (hstep : step root s l = some t) :
    ∃ more, t.heap.asked = s.heap.asked ++ more ∧ Reached root (since ++ more) queued t := by
  cases h with
  | ended hall => exact later hall hqueued hstep
  | walk hunder hseen hlast => exact walked hunder hs hseen hlast hkeeps hqueued hstep

/-- **A run** after `notify_all` was called. -/
theorem along (h : Reached root since queued s) (hs : Consistent root s)
    (hqueued : ∀ n, .asyncWait n ∈ ls → queued n) (hrun : run (careful root) s ls = some u) :
    ∃ more, u.heap.asked = s.heap.asked ++ more ∧ Reached root (since ++ more) queued u := by
  induction ls generalizing s since with
  | nil =>
      obtain rfl := Option.some.inj hrun
      exact ⟨[], (List.append_nil _).symm, (List.append_nil since).symm ▸ h⟩
  | cons l ls ih =>
      obtain ⟨t, ht, hrest⟩ := run_cons.mp hrun
      obtain ⟨hkeeps, hstep⟩ := careful_eq_some ht
      obtain ⟨first, hfirst, hnext⟩ :=
        h.step hs hkeeps (fun n he => hqueued n (he ▸ List.mem_cons_self)) hstep
      obtain ⟨more, hmore, hend⟩ := ih hnext (hs.step hkeeps hstep)
        (fun n hn => hqueued n (List.mem_cons_of_mem l hn)) hrest
      refine ⟨first ++ more, ?_, ?_⟩
      · rw [hmore, hfirst, List.append_assoc]
      · rwa [List.append_assoc] at hend

end Reached

/-- **`notify_all` misses nobody**, although predicates queue ops, cancel them and call
`notify_one`: when no notification is in progress any more, each op that waits was asked since or
was queued since. -/
theorem notify_all_misses_nobody
    (hbefore : run (careful root) (State.init links root) before = some s) (hidle : s.walks = [])
    (hcall : step root s .notifyAll = some t) (hrun : run (careful root) t ls = some u)
    (hover : u.walks = []) : ∃ since, u.heap.asked = s.heap.asked ++ since ∧
      ∀ op ∈ u.heap.alive, op ∈ since ∨ .asyncWait op ∈ ls := by
  have hs := consistent_of_run hbefore
  have hstart : ∃ first, t.heap.asked = s.heap.asked ++ first ∧
      Reached root first (.asyncWait · ∈ ls) t := by
    rcases notifyAll_starts hs hidle hcall with
      ⟨rfl, hnone⟩ | ⟨op, c, rest, hunder, hlast, hasked, -⟩
    · exact ⟨[], (List.append_nil _).symm, .ended fun n hn =>
        absurd hn (hnone ▸ List.not_mem_nil)⟩
    · exact ⟨[op], hasked, .walk hunder (fun n => id) fun hroot n hn =>
        absurd hn (hlast hroot ▸ List.not_mem_nil)⟩
  obtain ⟨first, hfirst, hreached⟩ := hstart
  obtain ⟨more, hmore, hend⟩ :=
    hreached.along (hs.step (l := .notifyAll) hidle hcall) (fun n => id) hrun
  refine ⟨first ++ more, by rw [hmore, hfirst, List.append_assoc], ?_⟩
  cases hend with
  | ended hall => exact hall
  | walk hunder _ _ =>
      rw [hunder.walks] at hover
      exact absurd hover (by simp)

/-- The first predicate queues an op and cancels the last waiter. -/
theorem notify_all_misses_nobody_three : ∃ s t u : State Nat,
    run (careful 0) (State.init ⟨id, id⟩ 0) [.asyncWait 1, .asyncWait 2, .asyncWait 3] = some s ∧
      step 0 s .notifyAll = some t ∧
      run (careful 0) t [.asyncWait 4, .cancel 3, .answer false, .answer true, .answer false] =
        some u ∧
      ∃ since, u.heap.asked = s.heap.asked ++ since ∧
        ∀ op ∈ u.heap.alive, op ∈ since ∨ Label.asyncWait op ∈
          [.asyncWait 4, .cancel 3, .answer false, .answer true, .answer false] := by
  have hruns : ∃ s t u : State Nat,
      run (careful 0) (State.init ⟨id, id⟩ 0) [.asyncWait 1, .asyncWait 2, .asyncWait 3] = some s ∧
        s.walks = [] ∧ step 0 s .notifyAll = some t ∧
        run (careful 0) t [.asyncWait 4, .cancel 3, .answer false, .answer true, .answer false] =
          some u ∧ u.walks = [] := ⟨_, _, _, rfl, rfl, rfl, rfl, rfl⟩
  obtain ⟨s, t, u, hs, hidle, ht, hu, hover⟩ := hruns
  exact ⟨s, t, u, hs, ht, hu, notify_all_misses_nobody hs hidle ht hu hover⟩

/-! ## It ends -/

/-- A predicate returns. -/
def Label.returns : Label α → Bool
  | .answer _ => true
  | _ => false

/-- One more predicate will be evaluated. -/
def Label.adds : Label α → Bool
  | .asyncWait _ | .notifyOne => true
  | _ => false

omit [DecidableEq α] in
/-- **One step** of a walk that goes on: a predicate that returns leaves one less. -/
theorem Turn.pays {l : Label α} (h : Turn root s t ones op c seen rest l) (hbusy : t.walks ≠ []) :
    ∃ ones' op' c' seen' rest', Under root t ones' op' c' seen' rest' ∧
      ones'.length + rest'.length + (if l.returns then 1 else 0) ≤
        ones.length + rest.length + (if l.adds then 1 else 0) := by
  cases h with
  | queue hnext _ => exact ⟨ones, op, c, seen, _, hnext, by simp [Label.returns, Label.adds]; omega⟩
  | cancel hnext _ hsub _ =>
      refine ⟨ones, op, c, _, _, hnext, ?_⟩
      simpa [Label.returns, Label.adds] using hsub.length_le
  | ask hnext _ => exact ⟨_, op, c, seen, rest, hnext, by simp [Label.returns, Label.adds]; omega⟩
  | answered hones hnext _ hsub _ =>
      have hless := hsub.length_le
      exact ⟨_, op, c, _, _, hnext, by simp [Label.returns, Label.adds, hones]; omega⟩
  | moved hones hsplit hnext _ _ _ =>
      exact ⟨[], c, _, _, _, hnext, by simp [Label.returns, Label.adds, hones, hsplit]⟩
  | ended _ _ hwalks _ _ => exact absurd hwalks hbusy

/-- **A run** of a walk that goes on. -/
theorem Under.returns_lt (hunder : Under root s ones op c seen rest) (hs : Consistent root s)
    (hrun : run (careful root) s ls = some u)
    (hbusy : ∀ v, Visits (careful root) s ls v → v.walks ≠ []) :
    ls.countP Label.returns < ones.length + rest.length + 1 + ls.countP Label.adds := by
  induction ls generalizing s ones op c seen rest with
  | nil => simp
  | cons l ls ih =>
      obtain ⟨t, ht, hrest⟩ := run_cons.mp hrun
      obtain ⟨hkeeps, hstep⟩ := careful_eq_some ht
      have hlater : ∀ v, Visits (careful root) t ls v → v.walks ≠ [] := fun v hv =>
        hbusy v (visits_cons.mpr (Or.inr ⟨t, ht, hv⟩))
      obtain ⟨_, _, _, _, _, hnext, hpays⟩ :=
        (hunder.turn hs hkeeps hstep).pays (hlater t ⟨[], List.nil_prefix, rfl⟩)
      have hbound := ih hnext (hs.step hkeeps hstep) hrest hlater
      rw [List.countP_cons, List.countP_cons]
      omega

/-- **`notify_all` ends**: it is over, or fewer predicates have returned than there were waiters
when it was called and ops queued and calls of `notify_one` since. -/
theorem notify_all_ends
    (hbefore : run (careful root) (State.init links root) before = some s) (hidle : s.walks = [])
    (hcall : step root s .notifyAll = some t) (hrun : run (careful root) t ls = some u) :
    (∃ v, Visits (careful root) t ls v ∧ v.walks = []) ∨
      ls.countP Label.returns < s.heap.alive.length + ls.countP Label.adds := by
  refine or_iff_not_imp_left.mpr fun hnever => ?_
  have hbusy : ∀ v, Visits (careful root) t ls v → v.walks ≠ [] := fun v hv hover =>
    hnever ⟨v, hv, hover⟩
  have hs := consistent_of_run hbefore
  rcases notifyAll_starts hs hidle hcall with ⟨rfl, -⟩ | ⟨op, c, rest, hunder, -, -, hlength⟩
  · exact absurd hidle (hbusy t ⟨[], List.nil_prefix, rfl⟩)
  · have hbound := hunder.returns_lt (hs.step (l := .notifyAll) hidle hcall) hrun hbusy
    rw [hlength]
    simpa using hbound

/-- Each predicate queues an op, and the walk goes on. -/
theorem notify_all_ends_two : ∃ s t u : State Nat,
    run (careful 0) (State.init ⟨id, id⟩ 0) [.asyncWait 1, .asyncWait 2] = some s ∧
      step 0 s .notifyAll = some t ∧
      run (careful 0) t [.asyncWait 3, .answer false, .asyncWait 4, .answer false] = some u ∧
      u.walks ≠ [] ∧
      ((∃ v, Visits (careful 0) t
          [.asyncWait 3, .answer false, .asyncWait 4, .answer false] v ∧ v.walks = []) ∨
        [Label.asyncWait 3, .answer false, .asyncWait 4, .answer false].countP Label.returns <
          s.heap.alive.length +
            [Label.asyncWait 3, .answer false, .asyncWait 4, .answer false].countP Label.adds) := by
  have hruns : ∃ s t u : State Nat,
      run (careful 0) (State.init ⟨id, id⟩ 0) [.asyncWait 1, .asyncWait 2] = some s ∧
        s.walks = [] ∧ step 0 s .notifyAll = some t ∧
        run (careful 0) t [.asyncWait 3, .answer false, .asyncWait 4, .answer false] = some u ∧
        u.walks ≠ [] := ⟨_, _, _, rfl, rfl, rfl, rfl, List.cons_ne_nil _ _⟩
  obtain ⟨s, t, u, hs, hidle, ht, hu, hbusy⟩ := hruns
  exact ⟨s, t, u, hs, ht, hu, hbusy, notify_all_ends hs hidle ht hu⟩

end Sam.ConditionVariable.Nested
