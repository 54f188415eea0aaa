import Mathlib.Data.List.Nodup
import Sam.Library.Transition

/-!
# A read/write lock that prefers readers

`ReadWriteLock.State` is what such a lock means: one writer or any number of readers, and a line for
each kind of request. A reader is admitted whenever there is no writer, even while writers wait. A
writer that leaves admits all readers in line, or the first writer if no reader waits; the last
reader that leaves admits the first writer. `Ok` is the invariant: a writer is alone, and nobody
waits who could be admitted. `no_overtaking` says that writers are admitted in the order of their
line.
-/

namespace ReadWriteLock

open Transition

universe u

/-- What a request asks for. -/
inductive Mode where
  | read
  | write
  deriving DecidableEq, Repr

/-- Who holds the lock, who waits for it, and every request made so far. -/
structure State (ι : Type u) where
  writer : Option ι
  readers : List ι
  writerLine : List ι
  readerLine : List ι
  requests : List ι

/-- What can happen: a request is made, which waits in line if it may and has to, a holder leaves,
or a waiting request is withdrawn. -/
inductive Event (ι : Type u) where
  | ask (mode : Mode) (waits : Bool) (request : ι)
  | endWrite (holder : ι)
  | endRead (holder : ι)
  | withdraw (request : ι)

variable {ι : Type u}

namespace State

/-- A lock that nobody holds. -/
def init : State ι := ⟨none, [], [], [], []⟩

/-- A request of this kind can be admitted. -/
def Admits (s : State ι) : Mode → Prop
  | .read => s.writer = none
  | .write => s.writer = none ∧ s.readers = []

instance [DecidableEq ι] (s : State ι) (mode : Mode) : Decidable (s.Admits mode) := by
  cases mode
  · exact inferInstanceAs (Decidable (s.writer = none))
  · exact inferInstanceAs (Decidable (s.writer = none ∧ s.readers = []))

/-- The request holds the lock. -/
def letIn (s : State ι) (r : ι) : Mode → State ι
  | .read => { s with readers := s.readers ++ [r] }
  | .write => { s with writer := some r }

/-- The request waits. -/
def join (s : State ι) (r : ι) : Mode → State ι
  | .read => { s with readerLine := s.readerLine ++ [r] }
  | .write => { s with writerLine := s.writerLine ++ [r] }

/-- A lock without holders admits the first writer in line. -/
def handOver (s : State ι) : State ι :=
  match s.writerLine with
  | [] => s
  | w :: rest => { s with writer := some w, writerLine := rest }

/-- A lock without holders admits all readers in line, or else the first writer. -/
def reopen (s : State ι) : State ι :=
  match s.readerLine with
  | [] => s.handOver
  | line => { s with readers := line, readerLine := [] }

variable {s : State ι}

/-- Without writers in line nobody is admitted. -/
theorem handOver_of_nil (h : s.writerLine = []) : s.handOver = s := by
  simp [handOver, h]

/-- The first writer in line is admitted. -/
theorem handOver_of_cons {w : ι} {rest : List ι} (h : s.writerLine = w :: rest) :
    s.handOver = { s with writer := some w, writerLine := rest } := by
  simp [handOver, h]

/-- Without readers in line it is the turn of the writers. -/
theorem reopen_of_nil (h : s.readerLine = []) : s.reopen = s.handOver := by
  simp [reopen, h]

/-- The readers in line are admitted together. -/
theorem reopen_of_ne_nil (h : s.readerLine ≠ []) :
    s.reopen = { s with readers := s.readerLine, readerLine := [] } := by
  cases hline : s.readerLine with
  | nil => exact absurd hline h
  | cons r rest => simp [reopen, hline]

end State

/-- The invariant of a read/write lock. -/
structure Ok (s : State ι) : Prop where
  exclusion : s.writer ≠ none → s.readers = []
  readers_wait : s.readerLine ≠ [] → s.writer ≠ none
  writers_wait : s.writerLine ≠ [] → s.writer ≠ none ∨ s.readers ≠ []
  nodup : (s.writerLine ++ s.readerLine).Nodup
  requested : ∀ r ∈ s.writerLine ++ s.readerLine, r ∈ s.requests

namespace Ok

variable {s : State ι} {r : ι}

/-- The invariant holds at the start. -/
theorem init : Ok (State.init : State ι) := by constructor <;> simp [State.init]

/-- Admitting a request that can be admitted keeps the invariant. -/
theorem letIn (h : Ok s) {mode : Mode} (hadmits : s.Admits mode) :
    Ok ({ s with requests := s.requests ++ [r] }.letIn r mode) := by
  have hrequested : ∀ q ∈ s.writerLine ++ s.readerLine, q ∈ s.requests ++ [r] :=
    fun q hq => List.mem_append_left _ (h.requested q hq)
  cases mode with
  | read =>
      have hnone : s.writer = none := hadmits
      refine ⟨fun hw => absurd hnone hw, h.readers_wait, fun _ => Or.inr ?_, h.nodup, hrequested⟩
      simp [State.letIn]
  | write =>
      have hempty : s.readers = [] := hadmits.2
      exact ⟨fun _ => hempty, fun _ => by simp [State.letIn], fun _ => by simp [State.letIn],
        h.nodup, hrequested⟩

/-- Queueing a request that cannot be admitted keeps the invariant. -/
theorem join (h : Ok s) {mode : Mode} (hadmits : ¬ s.Admits mode) (hr : r ∉ s.requests) :
    Ok ({ s with requests := s.requests ++ [r] }.join r mode) := by
  have hline : r ∉ s.writerLine ++ s.readerLine := fun hmem => hr (h.requested r hmem)
  have hnodup : ∀ line : List ι, line.Perm (r :: (s.writerLine ++ s.readerLine)) → line.Nodup :=
    fun _ hperm => hperm.nodup_iff.mpr (List.nodup_cons.mpr ⟨hline, h.nodup⟩)
  have hrequested : ∀ q ∈ r :: (s.writerLine ++ s.readerLine), q ∈ s.requests ++ [r] := by
    intro q hq
    rcases List.mem_cons.mp hq with rfl | hq
    · exact List.mem_append_right _ (List.mem_singleton_self _)
    · exact List.mem_append_left _ (h.requested q hq)
  cases mode with
  | read =>
      have hperm : (s.writerLine ++ (s.readerLine ++ [r])).Perm
          (r :: (s.writerLine ++ s.readerLine)) := by
        rw [← List.append_assoc]
        exact List.perm_append_singleton r _
      exact ⟨h.exclusion, fun _ => hadmits, h.writers_wait, hnodup _ hperm,
        fun q hq => hrequested q (hperm.subset hq)⟩
  | write =>
      have hperm : (s.writerLine ++ [r] ++ s.readerLine).Perm
          (r :: (s.writerLine ++ s.readerLine)) := by
        rw [List.append_assoc, List.singleton_append]
        exact List.perm_middle
      refine ⟨h.exclusion, h.readers_wait, fun _ => ?_, hnodup _ hperm,
        fun q hq => hrequested q (hperm.subset hq)⟩
      by_contra hfree
      simp only [not_or, not_not] at hfree
      exact hadmits hfree

/-- Handing the lock to the first writer keeps the invariant. -/
theorem handOver (hreaders : s.readers = []) (hline : s.readerLine = [])
    (hnodup : s.writerLine.Nodup) (hrequested : ∀ q ∈ s.writerLine, q ∈ s.requests) :
    Ok s.handOver := by
  cases hwriters : s.writerLine with
  | nil =>
      rw [State.handOver_of_nil hwriters]
      constructor <;> simp [hreaders, hline, hwriters]
  | cons w rest =>
      rw [hwriters] at hnodup hrequested
      rw [State.handOver_of_cons hwriters]
      constructor
      · exact fun _ => hreaders
      · simp
      · simp
      · simpa [hline] using (List.nodup_cons.mp hnodup).2
      · intro q hq
        exact hrequested q (List.mem_cons_of_mem w (by simpa [hline] using hq))

/-- Reopening a lock that nobody holds any more keeps the invariant. -/
theorem reopen (hreaders : s.readers = []) (hnone : s.writer = none)
    (hnodup : (s.writerLine ++ s.readerLine).Nodup)
    (hrequested : ∀ q ∈ s.writerLine ++ s.readerLine, q ∈ s.requests) : Ok s.reopen := by
  by_cases hline : s.readerLine = []
  · rw [hline, List.append_nil] at hnodup hrequested
    rw [State.reopen_of_nil hline]
    exact handOver hreaders hline hnodup hrequested
  · rw [State.reopen_of_ne_nil hline]
    constructor
    · exact fun hw => absurd hnone hw
    · simp
    · exact fun _ => Or.inr hline
    · simpa using (List.nodup_append.mp hnodup).1
    · intro q hq
      exact hrequested q (List.mem_append_left _ (by simpa using hq))

end Ok

variable [DecidableEq ι]

/-- One event. Requests are new, and only a holder leaves. -/
def step (s : State ι) : Event ι → Option (State ι)
  | .ask mode waits r =>
      if r ∈ s.requests then none
      else
        let asked := { s with requests := s.requests ++ [r] }
        if s.Admits mode then some (asked.letIn r mode)
        else if waits then some (asked.join r mode)
        else some asked
  | .endWrite r =>
      if s.writer = some r then some { s with writer := none }.reopen else none
  | .endRead r =>
      if r ∈ s.readers then
        let left := { s with readers := s.readers.erase r }
        some (if left.readers = [] then left.handOver else left)
      else none
  | .withdraw r =>
      if r ∈ s.writerLine ++ s.readerLine then
        some { s with writerLine := s.writerLine.erase r, readerLine := s.readerLine.erase r }
      else none

namespace Ok

variable {s t : State ι}

/-- Every event keeps the invariant. -/
theorem step (h : Ok s) {e : Event ι} (hstep : step s e = some t) : Ok t := by
  cases e with
  | ask mode waits r =>
      simp only [ReadWriteLock.step] at hstep
      split_ifs at hstep with hr hadmits hwaits
      · exact Option.some.inj hstep ▸ h.letIn hadmits
      · exact Option.some.inj hstep ▸ h.join hadmits hr
      · obtain rfl := Option.some.inj hstep
        exact ⟨h.exclusion, h.readers_wait, h.writers_wait, h.nodup,
          fun q hq => List.mem_append_left _ (h.requested q hq)⟩
  | endWrite r =>
      obtain ⟨hr, rfl⟩ := guard_iff.mp hstep
      exact reopen (h.exclusion (by simp [hr])) rfl h.nodup h.requested
  | endRead r =>
      obtain ⟨hr, rfl⟩ := guard_iff.mp hstep
      have hnone : s.writer = none := by
        by_contra hw
        simp [h.exclusion hw] at hr
      have hline : s.readerLine = [] := by
        by_contra hl
        exact h.readers_wait hl hnone
      split_ifs with hempty
      · refine handOver hempty hline (List.nodup_append.mp h.nodup).1 fun q hq => ?_
        exact h.requested q (List.mem_append_left _ hq)
      · exact ⟨fun hw => absurd hnone hw, h.readers_wait, fun _ => Or.inr hempty, h.nodup,
          h.requested⟩
  | withdraw r =>
      obtain ⟨-, rfl⟩ := guard_iff.mp hstep
      have hsub : (s.writerLine.erase r ++ s.readerLine.erase r).Sublist
          (s.writerLine ++ s.readerLine) := List.erase_sublist.append List.erase_sublist
      refine ⟨h.exclusion, fun hl => h.readers_wait ?_, fun hl => h.writers_wait ?_,
        h.nodup.sublist hsub, fun q hq => h.requested q (hsub.subset hq)⟩
      · exact fun hnil => hl (by simp [hnil])
      · exact fun hnil => hl (by simp [hnil])

/-- The invariant holds in every state of every run. -/
theorem run (h : Ok s) {es : List (Event ι)} (hrun : run ReadWriteLock.step s es = some t) : Ok t :=
  run_invariant (fun _ _ _ ha hstep => ha.step hstep) h hrun

end Ok

/-! ## Nobody is overtaken -/

section Order

variable {s t u : State ι} {w r : ι} {e : Event ι}

omit [DecidableEq ι] in
/-- Handing over takes the first writer out of the line, if there is one, and admits it. -/
theorem handOver_writers (s : State ι) :
    s.handOver = s ∨ ∃ q, s.writerLine = q :: s.handOver.writerLine ∧ s.handOver.writer = some q ∧
      s.handOver.requests = s.requests := by
  cases hline : s.writerLine with
  | nil => exact Or.inl (State.handOver_of_nil hline)
  | cons q rest =>
      rw [State.handOver_of_cons hline]
      exact Or.inr ⟨q, rfl, rfl, rfl⟩

/-- What an event does to the writers: a new request is admitted or joins the line, or a waiting one
leaves the line, and it is the first one if it is admitted. Requests are never forgotten. -/
theorem step_writers (hstep : step s e = some t) :
    s.requests ⊆ t.requests ∧
      (t.writerLine = s.writerLine ∨ (∃ q ∉ s.requests, t.writerLine = s.writerLine ++ [q]) ∨
        ∃ q, t.writerLine = s.writerLine.erase q) ∧
      (t.writer = none ∨ t.writer = s.writer ∨ (∃ q ∉ s.requests, t.writer = some q) ∨
        ∃ q, s.writerLine = q :: t.writerLine ∧ t.writer = some q) := by
  have hhandOver : ∀ v : State ι, v.requests = s.requests → v.writerLine = s.writerLine →
      (v.writer = none ∨ v.writer = s.writer) → s.requests ⊆ v.handOver.requests ∧
      (v.handOver.writerLine = s.writerLine ∨ ∃ q, v.handOver.writerLine = s.writerLine.erase q) ∧
      (v.handOver.writer = none ∨ v.handOver.writer = s.writer ∨
        ∃ q, s.writerLine = q :: v.handOver.writerLine ∧ v.handOver.writer = some q) := by
    intro v hrequests hline hwriter
    rcases handOver_writers v with heq | ⟨q, hq, hadmitted, hsame⟩
    · rw [heq]
      exact ⟨hrequests ▸ List.Subset.refl _, Or.inl hline, by tauto⟩
    · rw [hline] at hq
      refine ⟨by rw [hsame, hrequests]; exact List.Subset.refl _, Or.inr ⟨q, ?_⟩,
        Or.inr (Or.inr ⟨q, hq, hadmitted⟩)⟩
      rw [hq, List.erase_cons_head]
  cases e with
  | ask mode waits q =>
      simp only [step] at hstep
      split_ifs at hstep with hq hadmits hwaits
      all_goals obtain rfl := Option.some.inj hstep
      · cases mode with
        | read => exact ⟨List.subset_append_left _ _, Or.inl rfl, Or.inr (Or.inl rfl)⟩
        | write =>
            exact ⟨List.subset_append_left _ _, Or.inl rfl, Or.inr (Or.inr (Or.inl ⟨q, hq, rfl⟩))⟩
      · cases mode with
        | read => exact ⟨List.subset_append_left _ _, Or.inl rfl, Or.inr (Or.inl rfl)⟩
        | write =>
            exact ⟨List.subset_append_left _ _, Or.inr (Or.inl ⟨q, hq, rfl⟩), Or.inr (Or.inl rfl)⟩
      · exact ⟨List.subset_append_left _ _, Or.inl rfl, Or.inr (Or.inl rfl)⟩
  | endWrite q =>
      obtain ⟨-, rfl⟩ := guard_iff.mp hstep
      by_cases hline : s.readerLine = []
      · have hreopen := State.reopen_of_nil (s := { s with writer := none }) hline
        have hover := hhandOver { s with writer := none } rfl rfl (Or.inl rfl)
        rw [hreopen]
        exact ⟨hover.1, by tauto, by tauto⟩
      · rw [State.reopen_of_ne_nil (s := { s with writer := none }) hline]
        exact ⟨List.Subset.refl _, Or.inl rfl, Or.inl rfl⟩
  | endRead q =>
      obtain ⟨-, rfl⟩ := guard_iff.mp hstep
      split_ifs
      · have hover := hhandOver { s with readers := s.readers.erase q } rfl rfl (Or.inr rfl)
        exact ⟨hover.1, by tauto, by tauto⟩
      · exact ⟨List.Subset.refl _, Or.inl rfl, Or.inr (Or.inl rfl)⟩
  | withdraw q =>
      obtain ⟨-, rfl⟩ := guard_iff.mp hstep
      exact ⟨List.Subset.refl _, Or.inr (Or.inr ⟨q, rfl⟩), Or.inr (Or.inl rfl)⟩

/-- As long as both wait, `w` stands in front of `r` in the line of writers. -/
structure Behind (w r : ι) (s : State ι) : Prop where
  first_requested : w ∈ s.requests
  second_requested : r ∈ s.requests
  behind : w ∈ s.writerLine → r ∈ s.writerLine → [w, r].Sublist s.writerLine

/-- No event changes the order of the line. -/
theorem Behind.step (hok : Ok s) (h : Behind w r s) (hstep : step s e = some t) :
    Behind w r t := by
  obtain ⟨hrequests, hline, -⟩ := step_writers hstep
  refine ⟨hrequests h.first_requested, hrequests h.second_requested, fun hw hr => ?_⟩
  rcases hline with heq | ⟨q, hq, heq⟩ | ⟨q, heq⟩
  · rw [heq] at hw hr ⊢
    exact h.behind hw hr
  · have hold : ∀ p ∈ s.requests, p ∈ t.writerLine → p ∈ s.writerLine := by
      intro p hp hmem
      rw [heq, List.mem_append, List.mem_singleton] at hmem
      exact hmem.resolve_right fun he => hq (he ▸ hp)
    rw [heq]
    exact (h.behind (hold w h.first_requested hw) (hold r h.second_requested hr)).trans
      (List.sublist_append_left _ _)
  · have hnodup : s.writerLine.Nodup := (List.nodup_append.mp hok.nodup).1
    rw [heq] at hw hr ⊢
    obtain ⟨hwq, hw⟩ := hnodup.mem_erase_iff.mp hw
    obtain ⟨hrq, hr⟩ := hnodup.mem_erase_iff.mp hr
    have herase := (h.behind hw hr).erase q
    rwa [List.erase_of_not_mem (by simp [hwq.symm, hrq.symm])] at herase

/-- **Nobody is overtaken.** When a writer that stood behind `w` in the line is admitted, `w` does
not wait any more. -/
theorem no_overtaking (hok : Ok s) (hline : [w, r].Sublist s.writerLine) {es : List (Event ι)}
    (hrun : run step s es = some t) (hstep : step t e = some u) (hbefore : t.writer ≠ some r)
    (hafter : u.writer = some r) : w ∉ t.writerLine := by
  have hmem : ∀ q ∈ [w, r], q ∈ s.requests := fun q hq =>
    hok.requested q (List.mem_append_left _ (hline.subset hq))
  have hbehind : Behind w r s := ⟨hmem w (by simp), hmem r (by simp), fun _ _ => hline⟩
  have hkeep : ∀ (a : State ι) (k : Event ι) (b : State ι),
      Ok a ∧ Behind w r a → step a k = some b → Ok b ∧ Behind w r b :=
    fun a k b h hk => ⟨h.1.step hk, h.2.step h.1 hk⟩
  obtain ⟨hokt, hbehindt⟩ := run_invariant hkeep ⟨hok, hbehind⟩ hrun
  intro hw
  rcases (step_writers hstep).2.2 with hnone | hsame | ⟨q, hq, hadmitted⟩ | ⟨q, hfirst, hadmitted⟩
  · simp [hnone] at hafter
  · exact hbefore (hsame ▸ hafter)
  · obtain rfl : q = r := Option.some.inj (hadmitted.symm.trans hafter)
    exact hq hbehindt.second_requested
  · -- `r` is the first one in the line, so nobody stands in front of it
    obtain rfl : q = r := Option.some.inj (hadmitted.symm.trans hafter)
    have hnodup : (q :: u.writerLine).Nodup := hfirst ▸ (List.nodup_append.mp hokt.nodup).1
    have hsub := hbehindt.behind hw (by simp [hfirst])
    rw [hfirst] at hsub
    have hq := (List.nodup_cons.mp hnodup).1
    cases hsub with
    | cons _ hsub => exact hq (hsub.subset (by simp))
    | cons_cons _ hsub => exact hq (hsub.subset (by simp))

end Order

end ReadWriteLock
