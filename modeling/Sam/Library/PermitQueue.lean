import Mathlib.Data.List.Nodup
import Mathlib.Data.List.Lattice
import Sam.Library.Transition

/-!
# A counter of permits with a waiting line

`PermitQueue.State` is the abstract meaning of a lock that hands permits on: `free` permits that
nobody holds, a first-come-first-served `line` of requests, and the history of both. A lock with one
permit is a mutual-exclusion lock. `Ok` is the invariant; it gives conservation of permits
(`Ok.balance`) and the order of service (`Ok.order`). `no_overtaking` is the second result: no
request made while another one stands in line is granted before that one has left the line.
`Refines.run` carries both over to a system whose labels name events of the counter.
-/

namespace PermitQueue

open Transition

universe u

/-- The permits and the line, followed by their history. `admitted` are the requests granted
without waiting, `arrived` those that joined the line, `served` those granted from the line,
`dropped` those withdrawn from it, and `given` counts the permits given back. -/
structure State (ι : Type u) where
  free : Int
  line : List ι
  admitted : List ι
  arrived : List ι
  served : List ι
  dropped : List ι
  given : Nat

/-- What can happen: a permit is asked for, by a request that waits if none is free or by one that
does not, a waiting request is withdrawn, or a permit is given back. -/
inductive Event (ι : Type u) where
  | ask (waits : Bool) (request : ι)
  | drop (request : ι)
  | give

variable {ι : Type u}

namespace State

/-- `initial` free permits and nobody in line. -/
def init (initial : Int) : State ι := ⟨initial, [], [], [], [], [], 0⟩

/-- Every request granted so far. -/
def granted (s : State ι) : List ι := s.admitted ++ s.served

/-- Every request that was granted at once or joined the line. -/
def requests (s : State ι) : List ι := s.admitted ++ s.arrived

end State

variable [DecidableEq ι]

/-- One event. A request takes a free permit; if there is none it joins the line, or leaves
without one. A permit that is given back goes to the head of the line, if there is one. -/
def step (s : State ι) : Event ι → Option (State ι)
  | .ask waits r =>
      if r ∉ s.requests then
        some <|
          if 0 < s.free then { s with free := s.free - 1, admitted := s.admitted ++ [r] }
          else if waits then { s with line := s.line ++ [r], arrived := s.arrived ++ [r] }
          else s
      else none
  | .drop r =>
      if r ∈ s.line then
        some { s with line := s.line.erase r, dropped := s.dropped ++ [r] }
      else none
  | .give =>
      match s.line with
      | [] => some { s with free := s.free + 1, given := s.given + 1 }
      | r :: rest =>
          some { s with line := rest, served := s.served ++ [r], given := s.given + 1 }

/-- A new request takes a free permit, joins the line or leaves without one. -/
theorem step_ask {s t : State ι} {waits : Bool} {r : ι} (h : step s (.ask waits r) = some t) :
    r ∉ s.requests ∧
      ((0 < s.free ∧ t = { s with free := s.free - 1, admitted := s.admitted ++ [r] }) ∨
        (¬ 0 < s.free ∧ waits = true ∧
          t = { s with line := s.line ++ [r], arrived := s.arrived ++ [r] }) ∨
        (¬ 0 < s.free ∧ waits = false ∧ t = s)) := by
  obtain ⟨hr, rfl⟩ := guard_iff.mp h
  refine ⟨hr, ?_⟩
  by_cases hfree : 0 < s.free
  · exact Or.inl ⟨hfree, if_pos hfree⟩
  · rw [if_neg hfree]
    cases waits with
    | true => exact Or.inr (Or.inl ⟨hfree, rfl, rfl⟩)
    | false => exact Or.inr (Or.inr ⟨hfree, rfl, rfl⟩)

/-- Only a waiting request is withdrawn. -/
theorem step_drop {s t : State ι} {r : ι} :
    step s (.drop r) = some t ↔ r ∈ s.line ∧
      { s with line := s.line.erase r, dropped := s.dropped ++ [r] } = t :=
  guard_iff

/-- A permit given back becomes free or goes to the head of the line. -/
theorem step_give {s t : State ι} :
    step s .give = some t ↔
      (s.line = [] ∧ { s with free := s.free + 1, given := s.given + 1 } = t) ∨
      ∃ r rest, s.line = r :: rest ∧
        { s with line := rest, served := s.served ++ [r], given := s.given + 1 } = t := by
  simp only [step]
  split <;> simp_all

/-- The invariant of a permit counter that started with `initial` permits. -/
structure Ok (initial : Int) (s : State ι) : Prop where
  free_nonneg : 0 ≤ s.free
  free_of_line : s.line ≠ [] → s.free = 0
  balance : initial + s.given = s.free + s.granted.length
  order : s.arrived.filter (· ∉ s.dropped) = s.served ++ s.line
  fresh : s.requests.Nodup
  dropped_arrived : ∀ r ∈ s.dropped, r ∈ s.arrived

namespace Ok

variable {initial : Int} {s : State ι}

/-- Nobody stands in line while a permit is free. -/
theorem line_of_free (h : Ok initial s) (hfree : 0 < s.free) : s.line = [] := by
  by_contra hne
  have hnone := h.free_of_line hne
  omega

/-- Served and waiting requests arrived. -/
theorem arrived_of_mem (h : Ok initial s) {r : ι} (hr : r ∈ s.served ++ s.line) :
    r ∈ s.arrived := by
  rw [← h.order] at hr
  exact List.mem_of_mem_filter hr

/-- Nobody is served twice, and nobody who was served stands in line. -/
theorem nodup (h : Ok initial s) : (s.served ++ s.line).Nodup := by
  rw [← h.order]
  exact (List.nodup_append.mp h.fresh).2.1.filter _

/-- Who arrived and is out of the line was served or withdrawn. -/
theorem left_line (h : Ok initial s) {r : ι} (hr : r ∈ s.arrived) (hline : r ∉ s.line) :
    r ∈ s.served ∨ r ∈ s.dropped := by
  by_cases hdrop : r ∈ s.dropped
  · exact Or.inr hdrop
  · have hmem : r ∈ s.served ++ s.line := by
      rw [← h.order]
      exact List.mem_filter.mpr ⟨hr, by simpa using hdrop⟩
    exact Or.inl ((List.mem_append.mp hmem).resolve_right hline)

/-- Every granted request was made. -/
theorem requests_of_granted (h : Ok initial s) {r : ι} (hr : r ∈ s.granted) :
    r ∈ s.requests := by
  rcases List.mem_append.mp hr with hr | hr
  · exact List.mem_append_left _ hr
  · exact List.mem_append_right _ (h.arrived_of_mem (List.mem_append_left _ hr))

/-- The invariant holds at the start. -/
theorem init (h : 0 ≤ initial) : Ok initial (State.init initial : State ι) where
  free_nonneg := h
  free_of_line hline := absurd rfl hline
  balance := by simp [State.init, State.granted]
  order := rfl
  fresh := by simp [State.init, State.requests]
  dropped_arrived r hr := by simp [State.init] at hr

/-- Who was withdrawn was not granted and does not wait. -/
theorem not_granted_of_dropped (h : Ok initial s) {r : ι} (hr : r ∈ s.dropped) :
    r ∉ s.granted ∧ r ∉ s.line := by
  have hgone : r ∉ s.served ++ s.line := by
    rw [← h.order]
    simp [hr]
  rw [List.mem_append, not_or] at hgone
  refine ⟨fun hgranted => ?_, hgone.2⟩
  rcases List.mem_append.mp hgranted with hadmitted | hserved
  · have hdisjoint := (List.nodup_append.mp h.fresh).2.2
    exact hdisjoint r hadmitted r (h.dropped_arrived r hr) rfl
  · exact hgone.1 hserved

/-- Granting a request at once keeps the invariant. -/
theorem take (h : Ok initial s) {r : ι} (hfree : 0 < s.free) (hr : r ∉ s.requests) :
    Ok initial { s with free := s.free - 1, admitted := s.admitted ++ [r] } where
  free_nonneg := by
    show 0 ≤ s.free - 1
    omega
  free_of_line hline := by
    have := h.free_of_line hline
    omega
  balance := by
    have := h.balance
    simp only [State.granted, List.length_append, List.length_cons, List.length_nil] at this ⊢
    omega
  order := h.order
  fresh := by
    have hnodup : (r :: s.requests).Nodup := List.nodup_cons.mpr ⟨hr, h.fresh⟩
    refine (List.Perm.nodup_iff ?_).mp hnodup
    simp only [State.requests, List.append_assoc, List.singleton_append]
    exact List.perm_middle.symm
  dropped_arrived := h.dropped_arrived

/-- Joining the line keeps the invariant. -/
theorem join (h : Ok initial s) {r : ι} (hfree : s.free = 0) (hr : r ∉ s.requests) :
    Ok initial { s with line := s.line ++ [r], arrived := s.arrived ++ [r] } where
  free_nonneg := h.free_nonneg
  free_of_line _ := hfree
  balance := h.balance
  order := by
    have hdrop : r ∉ s.dropped := fun hd =>
      hr (List.mem_append_right _ (h.dropped_arrived r hd))
    show (s.arrived ++ [r]).filter (· ∉ s.dropped) = s.served ++ (s.line ++ [r])
    rw [List.filter_append, h.order, List.append_assoc]
    simp [hdrop]
  fresh := by
    have hnodup : (s.requests ++ [r]).Nodup := by
      simpa [List.nodup_append] using ⟨h.fresh, fun a ha he => hr (he ▸ ha)⟩
    simpa [State.requests] using hnodup
  dropped_arrived q hq := List.mem_append_left _ (h.dropped_arrived q hq)

/-- Withdrawing a waiting request keeps the invariant. -/
theorem drop (h : Ok initial s) {r : ι} (hr : r ∈ s.line) :
    Ok initial { s with line := s.line.erase r, dropped := s.dropped ++ [r] } where
  free_nonneg := h.free_nonneg
  free_of_line hline := h.free_of_line fun hnil => hline (by simp [hnil])
  balance := h.balance
  order := by
    obtain ⟨-, hline, hdisjoint⟩ := List.nodup_append.mp h.nodup
    have hserved : s.served.filter (· ≠ r) = s.served :=
      List.filter_eq_self.mpr fun q hq => by simpa using hdisjoint q hq r hr
    have hfilter : s.arrived.filter (· ∉ s.dropped ++ [r]) =
        (s.arrived.filter (· ∉ s.dropped)).filter (· ≠ r) := by
      rw [List.filter_filter]
      refine List.filter_congr fun q _ => ?_
      simp [Bool.and_comm]
    show s.arrived.filter (· ∉ s.dropped ++ [r]) = s.served ++ s.line.erase r
    rw [hfilter, h.order, List.filter_append, hserved, hline.erase_eq_filter]
    congr 1
    refine List.filter_congr fun q _ => ?_
    by_cases hq : q = r <;> simp [hq]
  fresh := h.fresh
  dropped_arrived q hq := by
    rcases List.mem_append.mp hq with hq | hq
    · exact h.dropped_arrived q hq
    · rw [List.mem_singleton.mp hq]
      exact h.arrived_of_mem (List.mem_append_right _ hr)

/-- Giving a permit back keeps the invariant. -/
theorem give (h : Ok initial s) {t : State ι} (hstep : PermitQueue.step s .give = some t) :
    Ok initial t := by
  have hbalance := h.balance
  rcases step_give.mp hstep with ⟨hline, rfl⟩ | ⟨r, rest, hline, rfl⟩
  · exact {
      free_nonneg := by
        have := h.free_nonneg
        show 0 ≤ s.free + 1
        omega
      free_of_line := fun hne => absurd hline hne
      balance := by
        simp only [State.granted] at hbalance ⊢
        omega
      order := h.order
      fresh := h.fresh
      dropped_arrived := h.dropped_arrived }
  · exact {
      free_nonneg := h.free_nonneg
      free_of_line := fun _ => h.free_of_line (by simp [hline])
      balance := by
        simp only [State.granted, List.length_append, List.length_singleton] at hbalance ⊢
        omega
      order := by simpa [hline] using h.order
      fresh := h.fresh
      dropped_arrived := h.dropped_arrived }

/-- Every event keeps the invariant. -/
theorem step (h : Ok initial s) {e : Event ι} {t : State ι}
    (hstep : PermitQueue.step s e = some t) : Ok initial t := by
  cases e with
  | ask waits r =>
      obtain ⟨hr, ⟨hfree, rfl⟩ | ⟨hfree, -, rfl⟩ | ⟨-, -, rfl⟩⟩ := step_ask hstep
      · exact h.take hfree hr
      · have hnonneg := h.free_nonneg
        exact h.join (by omega) hr
      · exact h
  | drop r =>
      obtain ⟨hr, rfl⟩ := step_drop.mp hstep
      exact h.drop hr
  | give => exact h.give hstep

end Ok

/-! ## Nobody is overtaken -/

/-- `r` came after `w`: as long as `w` stands in line, `r` is not granted and stands behind `w` if
it stands in line at all. -/
structure Behind (w r : ι) (s : State ι) : Prop where
  arrived : w ∈ s.arrived
  waits : w ∈ s.line → r ∉ s.granted
  behind : w ∈ s.line → r ∈ s.line → [w, r].Sublist s.line

/-- A request that is yet to be made is behind everybody in line. -/
theorem Behind.of_fresh {initial : Int} {s : State ι} (h : Ok initial s) {w r : ι}
    (hw : w ∈ s.line) (hr : r ∉ s.requests) : Behind w r s where
  arrived := h.arrived_of_mem (List.mem_append_right _ hw)
  waits _ hgranted := hr (h.requests_of_granted hgranted)
  behind _ hline :=
    absurd (List.mem_append_right _ (h.arrived_of_mem (List.mem_append_right _ hline))) hr

omit [DecidableEq ι] in
/-- In a line without repetitions the head is behind nobody. -/
theorem not_sublist_head {w r : ι} {rest : List ι} (hnodup : (r :: rest).Nodup) :
    ¬ [w, r].Sublist (r :: rest) := by
  obtain ⟨hr, -⟩ := List.nodup_cons.mp hnodup
  intro h
  cases h with
  | cons _ h => exact hr (h.subset (by simp))
  | cons_cons _ h => exact hr (h.subset (by simp))

omit [DecidableEq ι] in
/-- A request that joins the line stands behind everybody in it. -/
theorem Behind.join {s : State ι} {w r q : ι} (h : Behind w r s) (hq : q ∉ s.requests) :
    Behind w r { s with line := s.line ++ [q], arrived := s.arrived ++ [q] } := by
  have hwq : w ≠ q := fun he => hq (he ▸ List.mem_append_right _ h.arrived)
  have hline : w ∈ s.line ++ [q] → w ∈ s.line := fun hw =>
    (List.mem_append.mp hw).resolve_right (by simpa using hwq)
  refine ⟨List.mem_append_left _ h.arrived, fun hw => h.waits (hline hw), fun hw hr => ?_⟩
  rcases List.mem_append.mp hr with hr | hr
  · exact (h.behind (hline hw) hr).trans (List.sublist_append_left _ _)
  · have hhead : [w].Sublist s.line := List.singleton_sublist.mpr (hline hw)
    exact hhead.append (by simpa using hr)

/-- No event lets `r` pass `w`. -/
theorem Behind.step {initial : Int} {s t : State ι} (hok : Ok initial s) {w r : ι}
    (h : Behind w r s) {e : Event ι} (hstep : PermitQueue.step s e = some t) :
    Behind w r t := by
  cases e with
  | ask waits q =>
      obtain ⟨hq, ⟨hfree, rfl⟩ | ⟨-, -, rfl⟩ | ⟨-, -, rfl⟩⟩ := step_ask hstep
      · -- a free permit means an empty line, so `w` is not waiting any more
        have hline : s.line = [] := hok.line_of_free hfree
        exact ⟨h.arrived, fun hw => absurd hw (by simp [hline]), h.behind⟩
      · exact h.join hq
      · exact h
  | drop q =>
      obtain ⟨-, rfl⟩ := step_drop.mp hstep
      have hnodup : s.line.Nodup := (List.nodup_append.mp hok.nodup).2.1
      refine ⟨h.arrived, fun hw => h.waits (List.mem_of_mem_erase hw), fun hw hr => ?_⟩
      obtain ⟨hwq, hw⟩ := (hnodup.mem_erase_iff).mp hw
      obtain ⟨hrq, hr⟩ := (hnodup.mem_erase_iff).mp hr
      have herase := (h.behind hw hr).erase q
      rwa [List.erase_of_not_mem (by simp [hwq.symm, hrq.symm])] at herase
  | give =>
      rcases step_give.mp hstep with ⟨hline, rfl⟩ | ⟨q, rest, hline, rfl⟩
      · exact ⟨h.arrived, fun hw => absurd hw (by simp [hline]), h.behind⟩
      · have hnodup : (q :: rest).Nodup := hline ▸ (List.nodup_append.mp hok.nodup).2.1
        have hmem : w ∈ rest → w ∈ s.line := fun hw => by simp [hline, hw]
        -- the head `q` that is served now is not `r`: nobody is in front of the head
        have hqr : w ∈ rest → r ≠ q := fun hw he => by
          subst he
          have hsub := h.behind (hmem hw) (by simp [hline])
          rw [hline] at hsub
          exact not_sublist_head hnodup hsub
        refine ⟨h.arrived, fun hw hr => ?_, fun hw hr => ?_⟩
        · have hold := h.waits (hmem hw)
          simp only [State.granted, List.mem_append, List.mem_singleton, not_or] at hold hr
          rcases hr with hr | hr | hr
          · exact hold.1 hr
          · exact hold.2 hr
          · exact hqr hw hr
        · have hsub := h.behind (hmem hw) (by simp [hline, hr])
          have hwq : w ≠ q := fun he => (List.nodup_cons.mp hnodup).1 (he ▸ hw)
          rw [hline] at hsub
          cases hsub with
          | cons _ hsub => exact hsub
          | cons_cons _ _ => exact absurd rfl hwq

/-- **Nobody is overtaken.** Let `w` stand in line before the request `r` is made. If a later event
grants `r`, then `w` was served or withdrawn before it. -/
theorem no_overtaking {initial : Int} {s t next : State ι} (hok : Ok initial s) {w r : ι}
    (hw : w ∈ s.line) (hr : r ∉ s.requests) {es : List (Event ι)} {e : Event ι}
    (hrun : run step s es = some t) (hstep : step t e = some next)
    (hbefore : r ∉ t.granted) (hafter : r ∈ next.granted) :
    w ∈ t.served ∨ w ∈ t.dropped := by
  have hkeep : ∀ (a : State ι) (k : Event ι) (b : State ι),
      Ok initial a ∧ Behind w r a → step a k = some b → Ok initial b ∧ Behind w r b :=
    fun a k b h hk => ⟨h.1.step hk, h.2.step h.1 hk⟩
  obtain ⟨hokt, hbehind⟩ := run_invariant hkeep ⟨hok, .of_fresh hok hw hr⟩ hrun
  refine hokt.left_line hbehind.arrived fun hwt => ?_
  cases e with
  | ask waits q =>
      obtain ⟨-, ⟨hfree, rfl⟩ | ⟨-, -, rfl⟩ | ⟨-, -, rfl⟩⟩ := step_ask hstep
      · exact List.ne_nil_of_mem hwt (hokt.line_of_free hfree)
      · exact hbefore hafter
      · exact hbefore hafter
  | drop q =>
      obtain ⟨-, rfl⟩ := step_drop.mp hstep
      exact hbefore hafter
  | give =>
      rcases step_give.mp hstep with ⟨hline, rfl⟩ | ⟨q, rest, hline, rfl⟩
      · exact hbefore hafter
      · have hqr : r = q := by
          simp only [State.granted, List.mem_append, List.mem_singleton, not_or]
            at hbefore hafter
          tauto
        subst hqr
        have hsub := hbehind.behind hwt (by simp [hline])
        rw [hline] at hsub
        exact not_sublist_head (hline ▸ (List.nodup_append.mp hokt.nodup).2.1) hsub

/-! ## A withdrawn request -/

/-- Who was withdrawn stays withdrawn. -/
theorem dropped_of_step {s t : State ι} {e : Event ι} (hstep : step s e = some t) {r : ι}
    (hr : r ∈ s.dropped) : r ∈ t.dropped := by
  cases e with
  | ask waits q => obtain ⟨-, ⟨-, rfl⟩ | ⟨-, -, rfl⟩ | ⟨-, -, rfl⟩⟩ := step_ask hstep <;> exact hr
  | drop q =>
      obtain ⟨-, rfl⟩ := step_drop.mp hstep
      exact List.mem_append_left _ hr
  | give => rcases step_give.mp hstep with ⟨-, rfl⟩ | ⟨q, rest, -, rfl⟩ <;> exact hr

/-- **A withdrawn request is never granted.** A run that withdraws `r` ends with `r` among the
withdrawn requests, and neither granted nor waiting. -/
theorem not_granted_of_drop {initial : Int} {s t : State ι} (hok : Ok initial s)
    {es : List (Event ι)} (hrun : run step s es = some t) {r : ι} (hr : .drop r ∈ es) :
    r ∈ t.dropped ∧ r ∉ t.granted ∧ r ∉ t.line := by
  have hokt : Ok initial t := run_invariant (fun _ _ _ h hk => Ok.step h hk) hok hrun
  suffices hdropped : r ∈ t.dropped from ⟨hdropped, hokt.not_granted_of_dropped hdropped⟩
  obtain ⟨first, rest, rfl⟩ := List.append_of_mem hr
  obtain ⟨u, -, hrest⟩ := run_append.mp hrun
  obtain ⟨v, hdrop, hlast⟩ := run_cons.mp hrest
  obtain ⟨-, rfl⟩ := step_drop.mp hdrop
  exact run_invariant (fun _ _ _ h hk => dropped_of_step hk h)
    (List.mem_append_right _ (List.mem_singleton_self r)) hlast

/-! ## Systems that refine the counter -/

/-- `event` says which event of the permit counter `queue` a label is, if any: every step of the
system, in a state with the property `I`, keeps `I` and is the event of its label, or leaves the
counter as it is if its label has none. -/
def Refines {σ : Type*} {ℓ : Type*} (next : σ → ℓ → Option σ) (I : σ → Prop)
    (queue : σ → State ι) (event : ℓ → Option (Event ι)) : Prop :=
  ∀ s l t, I s → next s l = some t →
    I t ∧ (event l).elim (queue t = queue s) fun e => step (queue s) e = some (queue t)

variable {σ : Type*} {ℓ : Type*} {next : σ → ℓ → Option σ} {I : σ → Prop} {queue : σ → State ι}
  {event : ℓ → Option (Event ι)}

/-- A run of a refining system is the run of the permit counter that its labels name. -/
theorem Refines.run (h : Refines next I queue event) {s t : σ} {ls : List ℓ} (hs : I s)
    (hrun : Transition.run next s ls = some t) :
    I t ∧ Transition.run step (queue s) (ls.filterMap event) = some (queue t) := by
  induction ls generalizing s with
  | nil =>
      obtain rfl := Option.some.inj hrun
      exact ⟨hs, rfl⟩
  | cons l ls ih =>
      obtain ⟨u, hu, hrest⟩ := run_cons.mp hrun
      obtain ⟨hinv, hevent⟩ := h s l u hs hu
      obtain ⟨ht, hruns⟩ := ih hinv hrest
      refine ⟨ht, ?_⟩
      cases hl : event l with
      | none =>
          rw [hl] at hevent
          rw [List.filterMap_cons_none hl, ← hevent]
          exact hruns
      | some e =>
          rw [hl] at hevent
          rw [List.filterMap_cons_some hl]
          exact run_cons.mpr ⟨queue u, hevent, hruns⟩

/-- In a refining system nobody is overtaken. -/
theorem Refines.no_overtaking (h : Refines next I queue event) {initial : Int}
    (hok : ∀ s, I s → Ok initial (queue s)) {s t u : σ} (hs : I s) {ls : List ℓ} {l : ℓ}
    (hrun : Transition.run next s ls = some t) (hstep : next t l = some u) {w r : ι}
    (hw : w ∈ (queue s).line) (hr : r ∉ (queue s).requests)
    (hbefore : r ∉ (queue t).granted) (hafter : r ∈ (queue u).granted) :
    w ∈ (queue t).served ∨ w ∈ (queue t).dropped := by
  obtain ⟨ht, hruns⟩ := h.run hs hrun
  obtain ⟨-, hevent⟩ := h t l u ht hstep
  cases hl : event l with
  | none =>
      rw [hl] at hevent
      have hsame : queue u = queue t := hevent
      exact absurd (hsame ▸ hafter) hbefore
  | some e =>
      rw [hl] at hevent
      exact PermitQueue.no_overtaking (hok s hs) hw hr hruns hevent hbefore hafter

end PermitQueue
