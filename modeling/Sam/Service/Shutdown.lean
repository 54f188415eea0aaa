import Mathlib.Data.List.Nodup
import Sam.Detail.ServiceMember

/-!
# Shutting a service down

The loop of `op_list_service::shutdown` in `detail/impl/service.ipp`. Shutting a member down
destroys the handlers queued in it, and a handler can own primitives, which are then destroyed in
the middle of the loop. `shutdown_iff` says when this works: the member after the one whose turn it
is must survive that turn, because the loop has already saved a pointer to it. -/

namespace Sam.Service

universe u

open Links

/-- What can go wrong. -/
inductive Fault where
  /-- The loop was cut off. -/
  | fuel
  /-- A link of a destroyed member was read or written. -/
  | destroyed
  deriving DecidableEq, Repr

/-- The pointers, the members that are not destroyed and the calls of `shutdown()` so far. -/
structure Context (α : Type u) where
  memory : Memory α
  alive : List α
  visited : List α

section Model

variable {α ι : Type u} [DecidableEq α]

/-- The destructor of `sm`, which is run only once. A member that is registered reads and writes the
nodes next to it; `e` is the root of the list. -/
def destroy (e : α) (s : Context α) (sm : α) : Except Fault (Context α) :=
  if sm ∉ s.alive then .ok s
  else if s.memory.service sm ≠ none ∧
      ¬ ∀ n ∈ [s.memory.links.prev sm, s.memory.links.next sm], n = e ∨ n ∈ s.alive then
    .error .destroyed
  else .ok { s with memory := s.memory.destroyMember sm, alive := s.alive.erase sm }

/-- The members that are owned by the handlers queued in `sm`. -/
def owned (queued : α → List ι) (owns : ι → List α) (sm : α) : List α := (queued sm).flatMap owns

/-- `shutdown()` of the member `sm`: every op queued in it destroys its handler, and a handler
destroys the members that it owns. -/
def shutdownMember (queued : α → List ι) (owns : ι → List α) (e : α) (s : Context α) (sm : α) :
    Except Fault (Context α) :=
  (owned queued owns sm).foldlM (destroy e) { s with visited := s.visited ++ [sm] }

/-- The loop of `op_list_service::shutdown`. -/
def shutdownLoop (queued : α → List ι) (owns : ι → List α) (e : α) :
    Nat → Context α → α → Except Fault (Context α)
  | 0, _, _ => .error .fuel
  | fuel + 1, s, nx =>
      if nx = e then .ok s
      -- reading `nx->next_` and writing `nx->service`
      else if nx ∉ s.alive then .error .destroyed
      else
        let nnx := s.memory.links.next nx
        let s := { s with memory := s.memory.setService nx none }
        shutdownMember queued owns e s nx >>= fun s =>
          shutdownLoop queued owns e fuel
            { s with memory := { s.memory with links := s.memory.links.setNext e nnx } } nnx

/-- `op_list_service::shutdown`. The list is first moved to the local root `e`. -/
def shutdown (queued : α → List ι) (owns : ι → List α) (fuel : Nat) (s : Context α)
    (entries e : α) : Except Fault (Context α) :=
  let links := BilistNode.moveConstruct s.memory.links e entries
  shutdownLoop queued owns e fuel { s with memory := { s.memory with links } } (links.next e)

end Model

section Turns

variable {α : Type u} [DecidableEq α]

/-- The members that are alive when their turn comes, when those in `gone` are destroyed already and
the turn of `m` destroys `dead m`. -/
def turns (dead : α → List α) : List α → List α → List α
  | _, [] => []
  | gone, m :: rest =>
      if m ∈ gone then turns dead gone rest else m :: turns dead (gone ++ dead m) rest

/-- No turn destroys the member whose turn is next. -/
def NextSurvives (dead : α → List α) : List α → List α → Prop
  | _, [] => True
  | gone, m :: rest =>
      if m ∈ gone then NextSurvives dead gone rest
      else (∀ n ∈ (rest.filter (· ∉ gone)).head?, n ∉ dead m) ∧
        NextSurvives dead (gone ++ dead m) rest

variable {dead : α → List α}

/-- When no turn destroys a member, all members have their turns. -/
theorem turns_of_none (hdead : ∀ m, dead m = []) (ms : List α) : turns dead [] ms = ms := by
  induction ms with
  | nil => rfl
  | cons m rest ih => rw [turns, if_neg List.not_mem_nil, hdead, List.append_nil, ih]

/-- When no turn destroys a member, the next one survives. -/
theorem nextSurvives_of_none (hdead : ∀ m, dead m = []) (gone ms : List α) :
    NextSurvives dead gone ms := by
  fun_induction NextSurvives dead gone ms with
  | case1 gone => trivial
  | case2 gone m rest hgone ih => exact ih
  | case3 gone m rest hgone ih => exact ⟨fun n _ => hdead m ▸ List.not_mem_nil, ih⟩

end Turns

/-! ## The list while it is walked -/

variable {α ι : Type u} [DecidableEq α]

/-- The members `rest` are still registered and alive. They hang in the list between `done`, which
is the member whose turn it is or nothing, and the root. -/
structure Walk (e : α) (done rest : List α) (s : Context α) : Prop where
  nodup : (done ++ rest ++ [e]).Nodup
  chain : (done ++ rest ++ [e]).IsChain s.memory.links.Linked
  alive_nodup : s.alive.Nodup
  alive : ∀ m ∈ rest, m ∈ s.alive
  registered : ∀ m ∈ s.alive, s.memory.service m ≠ none ↔ m ∈ rest

variable {e m d : α} {rest : List α} {s s' : Context α}

/-- The turn of the first member begins. -/
theorem Walk.turn (h : Walk e [] (m :: rest) s) :
    Walk e [m] rest { s with memory := s.memory.setService m none } := by
  have hm : m ∉ rest := (List.nodup_cons.mp (List.nodup_append.mp h.nodup).1).1
  refine ⟨h.nodup, h.chain, h.alive_nodup, fun n hn => h.alive n (List.mem_cons_of_mem m hn), ?_⟩
  intro n hn
  show Function.update s.memory.service m none n ≠ none ↔ n ∈ rest
  by_cases hnm : n = m
  · subst hnm
    simp [hm]
  · rw [Function.update_of_ne hnm, h.registered n hn, List.mem_cons, or_iff_right hnm]

/-- Its turn ends, and the root points at the next member. -/
theorem Walk.next (h : Walk e [m] rest s) (n : α) :
    Walk e [] rest
      { s with memory := { s.memory with links := s.memory.links.setNext e n } } := by
  have hnodup : (rest ++ [e]).Nodup := (List.nodup_cons.mp h.nodup).2
  refine ⟨hnodup, ?_, h.alive_nodup, h.alive, h.registered⟩
  have hchain : (rest ++ [e]).IsChain s.memory.links.Linked := List.IsChain.tail h.chain
  have hroot : ∀ a ∈ (rest ++ [e]).dropLast,
      (s.memory.links.setNext e n).next a = s.memory.links.next a := by
    intro a ha
    rw [List.dropLast_concat] at ha
    rw [setNext_next, if_neg ((List.nodup_append.mp hnodup).2.2 a ha e (by simp))]
  exact chain_congr hroot (fun a _ => rfl) hchain

omit [DecidableEq α] in
/-- A registered member other than the first one has a registered member before it. -/
theorem exists_before (hd : d ∈ rest) (hfirst : d ∉ rest.head?) :
    ∃ before p after, rest = before ++ p :: d :: after := by
  obtain ⟨before, after, rfl⟩ := List.append_of_mem hd
  rcases before.eq_nil_or_concat' with rfl | ⟨before, p, rfl⟩
  · simp at hfirst
  · exact ⟨before, p, after, by simp⟩

/-- Unlinking a member that is not the next one touches registered members only. -/
theorem Walk.unlink (h : Walk e [m] rest s) (hd : d ∈ rest) (hfirst : d ∉ rest.head?) :
    ([m] ++ rest.erase d ++ [e]).IsChain (BilistNode.unlink s.memory.links d).Linked ∧
      s.memory.links.prev d ∈ rest ∧ s.memory.links.next d ∈ rest ++ [e] ∧
      (rest.erase d).head? = rest.head? := by
  -- `p` and `q` are the nodes next to `d`: a member that waits, and a member that waits or the root
  obtain ⟨before, p, after, rfl⟩ := exists_before hd hfirst
  obtain ⟨q, tail, hq⟩ : ∃ q tail, after ++ [e] = q :: tail :=
    List.exists_cons_of_ne_nil (by simp)
  have hsplit : [m] ++ (before ++ p :: d :: after) ++ [e] =
      (m :: before) ++ p :: d :: q :: tail := by
    simp [← hq]
  have hnodup := h.nodup
  have hchain := h.chain
  rw [hsplit] at hnodup hchain
  obtain ⟨hprev, hnext⟩ := chain_neighbours hchain
  have herase : (before ++ p :: d :: after).erase d = before ++ p :: after := by
    grind
  have hjoin : [m] ++ (before ++ p :: after) ++ [e] = (m :: before) ++ p :: q :: tail := by
    simp [← hq]
  have hmem : q ∈ after ++ [e] := hq ▸ List.mem_cons_self ..
  rw [herase, hjoin, BilistNode.unlink_eq, hprev, hnext]
  refine ⟨chain_remove hchain (by grind) (by grind), by simp, ?_, by cases before <;> rfl⟩
  simp only [List.mem_append, List.mem_cons] at hmem ⊢
  tauto

/-- The destructor of a member that is still registered, but is not the next one. -/
theorem Walk.destroy_registered (h : Walk e [m] rest s) (hd : d ∈ rest) (hfirst : d ∉ rest.head?) :
    ∃ s', destroy e s d = .ok s' ∧ Walk e [m] (rest.erase d) s' ∧ s'.visited = s.visited ∧
      (rest.erase d).head? = rest.head? := by
  have halive : d ∈ s.alive := h.alive d hd
  obtain ⟨hchain, hprev, hnext, hhead⟩ := h.unlink hd hfirst
  obtain ⟨entries, hservice⟩ : ∃ entries, s.memory.service d = some entries :=
    Option.ne_none_iff_exists'.mp ((h.registered d halive).mpr hd)
  have hnode : ∀ n ∈ rest ++ [e], n = e ∨ n ∈ s.alive := by
    intro n hn
    rcases List.mem_append.mp hn with hn | hn
    · exact .inr (h.alive n hn)
    · exact .inl (List.mem_singleton.mp hn)
  have hneighbours : ∀ n ∈ [s.memory.links.prev d, s.memory.links.next d],
      n = e ∨ n ∈ s.alive := by
    simp only [List.mem_cons, List.not_mem_nil, or_false, forall_eq_or_imp, forall_eq]
    exact ⟨hnode _ (List.mem_append_left _ hprev), hnode _ hnext⟩
  refine ⟨{ s with memory := s.memory.unregisterQueue d, alive := s.alive.erase d },
    ?_, ⟨h.nodup.sublist ?_, hchain, h.alive_nodup.erase d, ?_, ?_⟩, rfl, hhead⟩
  · rw [Service.destroy, if_neg (not_not.mpr halive), if_neg (fun hc => hc.2 hneighbours)]
    simp [Memory.destroyMember, hservice]
  · exact (List.erase_sublist.append_left [m]).append_right [e]
  · intro n hn
    have hne : n ≠ d := fun he =>
      ((List.nodup_append.mp h.nodup).1.of_append_right.not_mem_erase) (he ▸ hn)
    exact (List.mem_erase_of_ne hne).mpr (h.alive n (List.mem_of_mem_erase hn))
  · intro n hn
    have hne : n ≠ d := fun he => h.alive_nodup.not_mem_erase (he ▸ hn)
    rw [List.mem_erase_of_ne hne]
    exact h.registered n (List.mem_of_mem_erase hn)

/-- The destructor of a member that had its turn, or has it now. -/
theorem Walk.destroy_visited (h : Walk e [m] rest s) (halive : d ∈ s.alive) (hd : d ∉ rest) :
    ∃ s', destroy e s d = .ok s' ∧ Walk e [m] rest s' ∧ s'.visited = s.visited := by
  have hservice : s.memory.service d = none := by
    simpa [hd] using h.registered d halive
  refine ⟨{ s with alive := s.alive.erase d }, ?_,
    ⟨h.nodup, h.chain, h.alive_nodup.erase d, ?_, ?_⟩, rfl⟩
  · simp [Service.destroy, halive, hservice, Memory.destroyMember]
  · intro n hn
    exact (List.mem_erase_of_ne (ne_of_mem_of_not_mem hn hd)).mpr (h.alive n hn)
  · intro n hn
    exact h.registered n (List.mem_of_mem_erase hn)

/-- **One destructor** during a turn. It works when it is not the next member that is destroyed. -/
theorem Walk.destroy (h : Walk e [m] rest s) (hfirst : d ∉ rest.head?) :
    ∃ s', destroy e s d = .ok s' ∧ Walk e [m] (rest.erase d) s' ∧ s'.visited = s.visited ∧
      (rest.erase d).head? = rest.head? := by
  by_cases hd : d ∈ rest
  · exact h.destroy_registered hd hfirst
  · rw [List.erase_of_not_mem hd]
    by_cases halive : d ∈ s.alive
    · obtain ⟨s', hok, hwalk, hvisited⟩ := h.destroy_visited halive hd
      exact ⟨s', hok, hwalk, hvisited, rfl⟩
    · -- it was destroyed before
      exact ⟨s, by simp [Service.destroy, halive], h, rfl, rfl⟩

/-- **All destructors** of a turn. -/
theorem Walk.destroy_all (h : Walk e [m] rest s) {dead : List α}
    (hfirst : ∀ n ∈ rest.head?, n ∉ dead) :
    ∃ s', dead.foldlM (Service.destroy e) s = .ok s' ∧
      Walk e [m] (rest.filter (· ∉ dead)) s' ∧ s'.visited = s.visited := by
  induction dead generalizing rest s with
  | nil => exact ⟨s, rfl, by simpa using h, rfl⟩
  | cons d dead ih =>
      have hd : d ∉ rest.head? := fun hmem => hfirst d hmem (List.mem_cons_self ..)
      obtain ⟨t, ht, hwalk, hvisited, hhead⟩ := h.destroy hd
      have hrest : ∀ n ∈ (rest.erase d).head?, n ∉ dead := fun n hn hmem =>
        hfirst n (hhead ▸ hn) (List.mem_cons_of_mem d hmem)
      obtain ⟨s', hrun, hwalk', hvisited'⟩ := ih hwalk hrest
      have hfilter : (rest.erase d).filter (· ∉ dead) = rest.filter (· ∉ d :: dead) := by
        have hnodup : rest.Nodup := (List.nodup_append.mp h.nodup).1.of_append_right
        rw [hnodup.erase_eq_filter, List.filter_filter]
        exact List.filter_congr fun n _ => by rw [Bool.eq_iff_iff]; simp [and_comm]
      refine ⟨s', ?_, hfilter ▸ hwalk', hvisited'.trans hvisited⟩
      rw [List.foldlM_cons, ht]
      exact hrun

/-! ## What is destroyed stays destroyed -/

/-- A destructor that works takes the member out of those that are alive. -/
theorem destroy_alive (h : destroy e s d = .ok s') : s'.alive = s.alive.erase d := by
  unfold destroy at h
  split_ifs at h with halive
  · cases h
    rfl
  · cases h
    exact (List.erase_of_not_mem halive).symm

/-- A turn that works leaves none of the destroyed members alive. -/
theorem foldlM_alive {dead : List α} (h : dead.foldlM (destroy e) s = .ok s') :
    s'.alive = s.alive.diff dead := by
  induction dead generalizing s with
  | nil =>
      cases h
      rfl
  | cons d dead ih =>
      rw [List.foldlM_cons] at h
      cases hd : destroy e s d with
      | error f =>
          rw [hd] at h
          cases h
      | ok t =>
          rw [hd] at h
          rw [ih h, destroy_alive hd, List.diff_cons]

/-- The loop does not get past a destroyed member. -/
theorem shutdownLoop_of_destroyed {queued : α → List ι} {owns : ι → List α} {fuel : Nat} {n : α}
    (hn : n ∉ s.alive) (hne : n ≠ e) (s' : Context α) :
    shutdownLoop queued owns e fuel s n ≠ .ok s' := by
  cases fuel with
  | zero => exact fun h => nomatch h
  | succ fuel => simp [shutdownLoop, hn, hne]

/-! ## The loop -/

omit [DecidableEq α] in
/-- The first member that is alive: it is not the root, and it points at the next one. -/
theorem Walk.first (h : Walk e [] (m :: rest) s) :
    m ≠ e ∧ m ∈ s.alive ∧ s.memory.links.next m = rest.headD e := by
  have hroot : m ≠ e := (List.nodup_append.mp h.nodup).2.2 m (List.mem_cons_self ..) e (by simp)
  refine ⟨hroot, h.alive m (List.mem_cons_self ..), ?_⟩
  have hchain : (m :: (rest ++ [e])).IsChain s.memory.links.Linked := h.chain
  cases rest with
  | nil => exact (List.isChain_cons_cons.mp hchain).1.1
  | cons n rest => exact (List.isChain_cons_cons.mp hchain).1.1

variable {queued : α → List ι} {owns : ι → List α}

/-- One iteration. -/
theorem Walk.iterate (h : Walk e [] (m :: rest) s) (fuel : Nat) :
    shutdownLoop queued owns e (fuel + 1) s m =
      (owned queued owns m).foldlM (Service.destroy e)
          { s with
            memory := s.memory.setService m none
            visited := s.visited ++ [m] } >>= fun t =>
        shutdownLoop queued owns e fuel
          { t with memory := { t.memory with links := t.memory.links.setNext e (rest.headD e) } }
          (rest.headD e) := by
  obtain ⟨hroot, halive, hnext⟩ := h.first
  rw [shutdownLoop, if_neg hroot, if_neg (not_not.mpr halive), hnext]
  rfl

/-- **A turn that the next member survives** leads to that member. -/
theorem Walk.iterate_ok (h : Walk e [] (m :: rest) s) (fuel : Nat)
    (hfirst : ∀ n ∈ rest.head?, n ∉ owned queued owns m) :
    ∃ t, shutdownLoop queued owns e (fuel + 1) s m = shutdownLoop queued owns e fuel t
        ((rest.filter (· ∉ owned queued owns m)).headD e) ∧
      Walk e [] (rest.filter (· ∉ owned queued owns m)) t ∧ t.visited = s.visited ++ [m] := by
  have hturn := h.turn
  have hcalled : Walk e [m] rest
      { s with
        memory := s.memory.setService m none
        visited := s.visited ++ [m] } :=
    ⟨hturn.nodup, hturn.chain, hturn.alive_nodup, hturn.alive, hturn.registered⟩
  obtain ⟨t, hrun, hwalk, hvisited⟩ := hcalled.destroy_all hfirst
  have hhead : (rest.filter (· ∉ owned queued owns m)).headD e = rest.headD e := by
    cases rest with
    | nil => rfl
    | cons n rest =>
        rw [List.filter_cons_of_pos (by simpa using hfirst n rfl)]
        rfl
  refine ⟨_, ?_, hwalk.next (rest.headD e), hvisited⟩
  rw [h.iterate, hrun, hhead]
  rfl

/-- **A turn that the next member does not survive** ends at its links. -/
theorem Walk.iterate_fault {n : α} (h : Walk e [] (m :: rest) s) (fuel : Nat) (hn : n ∈ rest.head?)
    (hdead : n ∈ owned queued owns m) (s' : Context α) :
    shutdownLoop queued owns e (fuel + 1) s m ≠ .ok s' := by
  obtain ⟨rest, rfl⟩ : ∃ tail, rest = n :: tail := List.head?_eq_some_iff.mp hn
  rw [h.iterate]
  generalize hrun : (owned queued owns m).foldlM (Service.destroy e) _ = result
  cases result with
  | error f => exact fun hok => nomatch hok
  | ok t =>
      have hroot : n ≠ e := (List.nodup_append.mp h.nodup).2.2 n (by simp) e (by simp)
      have hgone : n ∉ t.alive := by
        rw [foldlM_alive hrun, h.alive_nodup.mem_sdiff_iff]
        exact fun hmem => hmem.2 hdead
      show shutdownLoop queued owns e fuel _ n ≠ .ok s'
      apply shutdownLoop_of_destroyed _ hroot
      exact hgone

/-- **The loop of `shutdown`** from the first member that is alive. -/
theorem shutdownLoop_iff {gone ms : List α} {fuel : Nat}
    (h : Walk e [] (ms.filter (· ∉ gone)) s) (hfuel : ms.length < fuel) :
    (∃ s', shutdownLoop queued owns e fuel s ((ms.filter (· ∉ gone)).headD e) = .ok s' ∧
      s'.visited = s.visited ++ turns (owned queued owns) gone ms) ↔
      NextSurvives (owned queued owns) gone ms := by
  induction ms generalizing gone s fuel with
  | nil =>
      obtain ⟨fuel, rfl⟩ := Nat.exists_eq_add_of_lt hfuel
      simp [shutdownLoop, turns, NextSurvives]
  | cons m rest ih =>
      by_cases hgone : m ∈ gone
      · -- it was destroyed in an earlier turn and is not in the list any more
        have hfilter : (m :: rest).filter (· ∉ gone) = rest.filter (· ∉ gone) := by
          simp [hgone]
        rw [hfilter] at h ⊢
        rw [turns, if_pos hgone, NextSurvives, if_pos hgone]
        exact ih h (Nat.lt_of_succ_lt hfuel)
      · have hfilter : (m :: rest).filter (· ∉ gone) = m :: rest.filter (· ∉ gone) := by
          simp [hgone]
        rw [hfilter] at h ⊢
        rw [turns, if_neg hgone, NextSurvives, if_neg hgone]
        cases fuel with
        | zero => simp at hfuel
        | succ fuel =>
            by_cases hfirst : ∀ n ∈ (rest.filter (· ∉ gone)).head?, n ∉ owned queued owns m
            · obtain ⟨t, hloop, hwalk, hvisited⟩ := h.iterate_ok fuel hfirst
              have hrest : (rest.filter (· ∉ gone)).filter (· ∉ owned queued owns m) =
                  rest.filter (· ∉ gone ++ owned queued owns m) := by
                rw [List.filter_filter]
                exact List.filter_congr fun n _ => by simp [Bool.and_comm]
              rw [hrest] at hloop hwalk
              rw [List.headD_cons, hloop, and_iff_right hfirst,
                ← ih hwalk (Nat.lt_of_succ_lt_succ hfuel), hvisited]
              simp only [List.append_assoc, List.singleton_append]
            · -- the loop saved a pointer to the next member, which does not survive
              refine iff_of_false ?_ fun hsurvives => hfirst hsurvives.1
              intro hends
              obtain ⟨s', hok, -⟩ := hends
              push Not at hfirst
              obtain ⟨n, hn, hdead⟩ := hfirst
              exact h.iterate_fault fuel hn hdead s' hok

/-- The list moves to the local root, and the walk begins. -/
theorem Walk.start {entries : α} {ms : List α} (h : s.memory.Holds entries ms)
    (he : e ∉ entries :: ms) (hservice : ∀ m ∈ ms, s.memory.service m = some entries)
    (halive : s.alive = ms) :
    Walk e [] (ms.filter (· ∉ ([] : List α)))
        { s with memory :=
          { s.memory with links := BilistNode.moveConstruct s.memory.links e entries } } ∧
      (BilistNode.moveConstruct s.memory.links e entries).next e =
        (ms.filter (· ∉ ([] : List α))).headD e := by
  obtain ⟨hring, -, -⟩ := BilistNode.moveConstruct_ring h he
  constructor
  · have hnodup := List.nodup_cons.mp hring.nodup
    have hmembers : ms.filter (· ∉ ([] : List α)) = ms := by simp
    rw [hmembers]
    refine ⟨?_, List.IsChain.tail hring.chain, halive ▸ hnodup.2, fun m hm => halive ▸ hm, ?_⟩
    · exact List.nodup_append.mpr ⟨hnodup.2, by simp, by grind⟩
    · intro m hm
      have hm' : m ∈ ms := halive ▸ hm
      exact iff_of_true (by simp [hservice m hm']) hm'
  · cases ms with
    | nil => exact (IsRing.nil_iff.mp hring).1
    | cons m ms => simpa using hring.next_root

/-- **When shutting a service down works.** For any members and whatever destroying their handlers
destroys: the loop ends, calls `shutdown()` once on every member that is alive when its turn comes,
and touches no destroyed member, exactly when no turn destroys the member whose turn is next. -/
theorem shutdown_iff {entries : α} {ms : List α} {fuel : Nat} (h : s.memory.Holds entries ms)
    (he : e ∉ entries :: ms) (hservice : ∀ m ∈ ms, s.memory.service m = some entries)
    (halive : s.alive = ms) (hvisited : s.visited = []) (hfuel : ms.length < fuel) :
    (∃ s', shutdown queued owns fuel s entries e = .ok s' ∧
      s'.visited = turns (owned queued owns) [] ms) ↔ NextSurvives (owned queued owns) [] ms := by
  obtain ⟨hwalk, hfirst⟩ := Walk.start h he hservice halive
  rw [shutdown, hfirst, ← shutdownLoop_iff hwalk hfuel]
  simp only [hvisited, List.nil_append]

/-- The members `1`, `2` and `3`: the handler queued in `1` owns the members `1` and `3`. -/
theorem shutdown_iff_owned :
    (∃ s', shutdown (fun m => if m = 1 then [()] else []) (fun _ => [1, 3]) 4
        ⟨Memory.linked 0 [(1, 0), (2, 0), (3, 0)], [1, 2, 3], []⟩ 0 4 = .ok s' ∧
      s'.visited =
        turns (owned (fun m => if m = 1 then [()] else []) fun _ => [1, 3]) [] [1, 2, 3]) ↔
      NextSurvives (owned (fun m => if m = 1 then [()] else []) fun _ => [1, 3]) [] [1, 2, 3] :=
  shutdown_iff (by decide) (by decide) (fun _ _ => rfl) rfl rfl (by decide)

/-- The handler queued in the member `1` owns the member `2`: the loop goes on with the links of a
destroyed member. -/
theorem next_member_destroyed :
    (∀ fuel, shutdown (fun m => if m = 1 then [()] else []) (fun _ => [2]) (fuel + 2)
        ⟨Memory.linked 0 [(1, 0), (2, 0)], [1, 2], []⟩ 0 3 = .error .destroyed) ∧
      ¬ ∃ fuel s', shutdown (fun m => if m = 1 then [()] else []) (fun _ => [2]) fuel
          ⟨Memory.linked 0 [(1, 0), (2, 0)], [1, 2], []⟩ 0 3 = .ok s' ∧
        s'.visited =
          turns (owned (fun m => if m = 1 then [()] else []) fun _ => [2]) [] [1, 2] := by
  refine ⟨fun fuel => rfl, fun ⟨fuel, s', hok, _⟩ => ?_⟩
  match fuel with
  | 0 => cases hok
  | 1 => cases hok
  | fuel + 2 => cases hok

/-- **Shutting a service down visits every member** when no handler owns one. -/
theorem shutdown_visits {entries : α} {ms : List α} {fuel : Nat} (h : s.memory.Holds entries ms)
    (he : e ∉ entries :: ms) (hservice : ∀ m ∈ ms, s.memory.service m = some entries)
    (halive : s.alive = ms) (hvisited : s.visited = []) (hfuel : ms.length < fuel)
    (hnone : ∀ m, owned queued owns m = []) :
    ∃ s', shutdown queued owns fuel s entries e = .ok s' ∧ s'.visited = ms := by
  obtain ⟨hwalk, hfirst⟩ := Walk.start h he hservice halive
  obtain ⟨s', hok, hturns⟩ :=
    (shutdownLoop_iff hwalk hfuel).mpr (nextSurvives_of_none hnone [] ms)
  refine ⟨s', by rw [shutdown, hfirst]; exact hok, ?_⟩
  rw [hturns, turns_of_none hnone, hvisited, List.nil_append]

end Sam.Service
