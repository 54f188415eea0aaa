import Sam.Detail.CriticalSection
import Sam.Library.PermitQueue

/-!
# The history of a run

Ghost bookkeeping for runs of a primitive that grants permits: which requests were made, granted at
once, queued, granted from the queue and cancelled. The critical sections do not read it.
`History.queue` reads a history, a number of free permits and a waiter list as the state of the
abstract permit counter, and `Counts` is the invariant. `Requested`, `Answered` and `Released` say
what a section may do to the permits and the waiters; `Counts.request`, `Counts.release` and
`Counts.cancel` turn that into one event of the counter each and keep the invariant.
-/

namespace Sam

open PermitQueue Transition

universe u

/-- `issued` holds every request made, `admitted` those granted by their own call, `arrived` those
queued, `served` those granted from the queue and `dropped` those cancelled, each in order; `given`
counts the releases. -/
structure History (ι : Type u) where
  issued : List ι
  admitted : List ι
  arrived : List ι
  served : List ι
  dropped : List ι
  given : Nat
  deriving DecidableEq, Repr

/-- What a request `r` may do to the free permits and the waiter list, by its outcome. -/
inductive Requested {ι : Type u} (free : Int) (waiters : List ι) (r : ι) :
    Outcome → Int → List ι → Prop where
  | granted (h : 0 < free) : Requested free waiters r .granted (free - 1) waiters
  | queued (h : free = 0) : Requested free waiters r .queued free (waiters ++ [r])
  | refused : Requested free waiters r .refused free waiters
  | failed (ec : ErrorCode) : Requested free waiters r (.failed ec) free waiters

/-- Which outcome a request has: it is granted exactly when a permit is free, and queued exactly
when none is and it `waits`. -/
def Answered (free : Int) (waits : Bool) (o : Outcome) : Prop :=
  (o = .granted ↔ 0 < free) ∧ (o = .queued ↔ ¬ 0 < free ∧ waits = true)

/-- What a release may do to the free permits and the waiter list, by the ops it completed. -/
inductive Released {ι : Type u} (free : Int) : List ι → List ι → Int → List ι → Prop where
  | freed : Released free [] [] (free + 1) []
  | handed (r : ι) (rest : List ι) : Released free (r :: rest) [r] free rest

namespace Requested

variable {ι : Type u} {free free' : Int} {waiters waiters' : List ι} {r : ι}

/-- A request that is granted takes a free permit. -/
theorem of_granted (h : Requested free waiters r .granted free' waiters') :
    free' = free - 1 ∧ waiters' = waiters := by
  cases h with
  | granted hfree => exact ⟨rfl, rfl⟩

/-- A request that is queued is the last one in line. -/
theorem of_queued (h : Requested free waiters r .queued free' waiters') :
    free' = free ∧ waiters' = waiters ++ [r] := by
  cases h with
  | queued hfree => exact ⟨rfl, rfl⟩

/-- A request that is refused changes nothing. -/
theorem of_refused (h : Requested free waiters r .refused free' waiters') :
    free' = free ∧ waiters' = waiters := by
  cases h with
  | refused => exact ⟨rfl, rfl⟩

/-- A request that fails changes nothing. -/
theorem of_failed {ec : ErrorCode} (h : Requested free waiters r (.failed ec) free' waiters') :
    free' = free ∧ waiters' = waiters := by
  cases h with
  | failed => exact ⟨rfl, rfl⟩

end Requested

namespace History

variable {ι : Type u}

/-- Nothing has happened. -/
def empty : History ι := ⟨[], [], [], [], [], 0⟩

/-- A request was made and left its critical section with this outcome. -/
def request (h : History ι) (r : ι) : Outcome → History ι
  | .granted => { h with issued := h.issued ++ [r], admitted := h.admitted ++ [r] }
  | .queued => { h with issued := h.issued ++ [r], arrived := h.arrived ++ [r] }
  | _ => { h with issued := h.issued ++ [r] }

/-- A release completed these queued requests with success. -/
def release (h : History ι) (completed : List ι) : History ι :=
  { h with served := h.served ++ completed, given := h.given + 1 }

/-- A queued request was cancelled. -/
def cancel (h : History ι) (r : ι) : History ι := { h with dropped := h.dropped ++ [r] }

/-- Every request granted so far. -/
def granted (h : History ι) : List ι := h.admitted ++ h.served

/-- The permit counter with this history, `free` permits and the waiters `line`. -/
def queue (h : History ι) (free : Int) (line : List ι) : PermitQueue.State ι :=
  ⟨free, line, h.admitted, h.arrived, h.served, h.dropped, h.given⟩

/-- Requests that were granted or queued were issued. -/
def Issued (h : History ι) : Prop := ∀ r ∈ h.admitted ++ h.arrived, r ∈ h.issued

/-- Every request keeps `Issued`. -/
theorem Issued.request {h : History ι} (hi : h.Issued) (r : ι) (o : Outcome) :
    (h.request r o).Issued := by
  intro q hq
  have hold : q ∈ h.admitted ++ h.arrived → q ∈ h.issued ++ [r] :=
    fun hq => List.mem_append_left _ (hi q hq)
  cases o <;> simp only [History.request, List.mem_append] at hq hold ⊢ <;> tauto

/-- The history, with the free permits and the waiters of its primitive, is one of a permit counter
that started with `initial` permits. -/
structure Counts [DecidableEq ι] (h : History ι) (initial free : Int) (waiters : List ι) :
    Prop where
  ok : Ok initial (h.queue free waiters)
  issued : h.Issued

namespace Counts

variable [DecidableEq ι] {h : History ι} {initial free free' : Int} {waiters waiters' : List ι}
  {r : ι}

/-- The invariant holds at the start. -/
theorem empty (hinitial : 0 ≤ initial) : Counts (.empty : History ι) initial initial [] where
  ok := Ok.init hinitial
  issued r hr := by simp [History.empty] at hr

/-- A waiting request was issued. -/
theorem issued_of_waiting (hc : h.Counts initial free waiters) (hr : r ∈ waiters) :
    r ∈ h.issued :=
  hc.issued r (List.mem_append_right _ (hc.ok.arrived_of_mem (List.mem_append_right _ hr)))

/-- A request takes a free permit, joins the line, or leaves the counter as it is. -/
theorem request (hc : h.Counts initial free waiters) (hr : r ∉ h.issued) {waits : Bool}
    {o : Outcome} (hreq : Requested free waiters r o free' waiters')
    (hanswer : Answered free waits o) :
    (h.request r o).Counts initial free' waiters' ∧
      step (h.queue free waiters) (.ask waits r) =
        some ((h.request r o).queue free' waiters') := by
  have hfresh : r ∉ (h.queue free waiters).requests := fun hmem => hr (hc.issued r hmem)
  have hevent : step (h.queue free waiters) (.ask waits r) =
      some ((h.request r o).queue free' waiters') := by
    refine guard_iff.mpr ⟨hfresh, ?_⟩
    have hfree : (h.queue free waiters).free = free := rfl
    rw [hfree]
    cases hreq with
    | granted hpos => exact if_pos hpos
    | queued hnone =>
        obtain ⟨hfree, hwaits⟩ := hanswer.2.mp rfl
        rw [if_neg hfree, if_pos hwaits]
        rfl
    | refused | failed =>
        have hfree : ¬ 0 < free := fun hpos => by simpa using hanswer.1.mpr hpos
        have hwaits : ¬ waits = true := fun hw => by simpa using hanswer.2.mpr ⟨hfree, hw⟩
        rw [if_neg hfree, if_neg hwaits]
        rfl
  exact ⟨⟨hc.ok.step hevent, hc.issued.request r o⟩, hevent⟩

/-- A release gives a permit back. -/
theorem release (hc : h.Counts initial free waiters) {completed : List ι}
    (hrel : Released free waiters completed free' waiters') :
    (h.release completed).Counts initial free' waiters' ∧
      step (h.queue free waiters) .give =
        some ((h.release completed).queue free' waiters') := by
  have hevent : step (h.queue free waiters) .give =
      some ((h.release completed).queue free' waiters') := by
    cases hrel with
    | freed => simp [step, queue, History.release]
    | handed r rest => rfl
  exact ⟨⟨hc.ok.step hevent, hc.issued⟩, hevent⟩

/-- A cancelled request leaves the line. -/
theorem cancel (hc : h.Counts initial free waiters) (hr : r ∈ waiters) :
    (h.cancel r).Counts initial free (waiters.erase r) ∧
      step (h.queue free waiters) (.drop r) =
        some ((h.cancel r).queue free (waiters.erase r)) := by
  have hevent : step (h.queue free waiters) (.drop r) =
      some ((h.cancel r).queue free (waiters.erase r)) := step_drop.mpr ⟨hr, rfl⟩
  exact ⟨⟨hc.ok.step hevent, hc.issued⟩, hevent⟩

end Counts

end History

end Sam
