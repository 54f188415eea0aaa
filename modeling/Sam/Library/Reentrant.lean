import Sam.Library.Serial

/-!
# Code around a lock that is disabled

One thread runs code whose `lock` and `unlock` do nothing, so a callback may make calls in the
middle of another one. If every callback is the last thing that its call does (`Code.last`), this
makes no difference: `Nest.shared_eq_serially` says that the shared state is that of the calls one
after the other, in the order in which they were made. `Nest.goes_on` says that the thread never
waits, if the code of no call has to.
-/

namespace LockScope

open Transition

universe u v

namespace Code

variable {σ : Type u}

/-- The code changes nothing, invokes nothing and does not wait. -/
def still : Code σ → Bool
  | done => true
  | lock rest | unlock rest | create rest => rest.still
  | update _ _ | test _ _ _ | invoke _ | wait _ _ => false

/-- Callbacks come last. -/
def last : Code σ → Bool
  | done => true
  | lock rest | unlock rest | create rest | update _ rest | wait _ rest => rest.last
  | test _ yes no => yes.last && no.last
  | invoke rest => rest.still

/-- Whether the code has to wait, if nobody else runs. -/
def waits : Code σ → σ → Bool
  | done, _ => false
  | lock rest, s | unlock rest, s | create rest, s | invoke rest, s => rest.waits s
  | update f rest, s => rest.waits (f s)
  | test p yes no, s => if p s then yes.waits s else no.waits s
  | wait ready rest, s => !ready s || rest.waits s

/-- The lines of the longest path. A callback that returns counts as one. -/
def lines : Code σ → Nat
  | done => 0
  | lock rest | unlock rest | create rest | update _ rest | wait _ rest => rest.lines + 1
  | test _ yes no => max yes.lines no.lines + 1
  | invoke rest => rest.lines + 2

/-- Still code leaves the state alone. -/
theorem finish_of_still {code : Code σ} (h : code.still = true) (s : σ) : code.finish s = s := by
  induction code with
  | done => rfl
  | lock rest ih | unlock rest ih | create rest ih => exact ih h
  | update | test | invoke | wait => cases h

/-- Still code does not get to a callback. -/
theorem invokes_of_still {code : Code σ} (h : code.still = true) (s : σ) :
    code.invokes s = false := by
  induction code with
  | done => rfl
  | lock rest ih | unlock rest ih | create rest ih => exact ih h
  | update | test | invoke | wait => cases h

/-- In still code no callback is left. -/
theorem last_of_still {code : Code σ} (h : code.still = true) : code.last = true := by
  induction code with
  | done => rfl
  | lock rest ih | unlock rest ih | create rest ih => exact ih h
  | update | test | invoke | wait => cases h

/-- Still code does not wait. -/
theorem waits_of_still {code : Code σ} (h : code.still = true) (s : σ) : code.waits s = false := by
  induction code with
  | done => rfl
  | lock rest ih | unlock rest ih | create rest ih => exact ih h
  | update | test | invoke | wait => cases h

end Code

/-- The shared state and what the thread is in the middle of, innermost first. -/
structure Nest (σ : Type u) (κ : Type v) where
  shared : σ
  stack : List (Frame σ κ)

namespace Nest

/-- The steps of the thread: it makes a call, from a callback or outside of all calls; it goes on
with the innermost one; the innermost callback returns. -/
inductive Label (κ : Type v) where
  | call (c : κ) (inline : Bool)
  | act
  | ret

variable {σ : Type u} {κ : Type v}

/-- The thread goes on with the code of its innermost call. -/
def act (s : Nest σ κ) (c : κ) (inline : Bool) (frames : List (Frame σ κ)) :
    Code σ → Option (Nest σ κ)
  | .done => some { s with stack := frames }
  | .lock rest | .unlock rest | .create rest =>
      some { s with stack := .code c inline rest :: frames }
  | .update f rest => some ⟨f s.shared, .code c inline rest :: frames⟩
  | .test p yes no =>
      some { s with stack := .code c inline (if p s.shared then yes else no) :: frames }
  | .invoke rest =>
      if inline then some { s with stack := .callback :: .code c inline rest :: frames }
      else some { s with stack := .code c inline rest :: frames }
  | .wait ready rest =>
      if ready s.shared then some { s with stack := .code c inline rest :: frames } else none

/-- One step, when the calls have this code. -/
def step (body : κ → Code σ) (s : Nest σ κ) : Label κ → Option (Nest σ κ)
  | .call c inline =>
      match s.stack with
      | [] | .callback :: _ => some { s with stack := .code c inline (body c) :: s.stack }
      | _ => none
  | .act =>
      match s.stack with
      | .code c inline rest :: frames => s.act c inline frames rest
      | _ => none
  | .ret =>
      match s.stack with
      | .callback :: frames => some { s with stack := frames }
      | _ => none

/-- The calls of a run, as they were made. -/
def calls : List (Label κ) → List κ
  | [] => []
  | .call c _ :: ls => c :: calls ls
  | _ :: ls => calls ls

/-- Calls one after the other. -/
def serially (body : κ → Code σ) (s : σ) (cs : List κ) : σ :=
  cs.foldl (fun s c => (body c).finish s) s

theorem serially_append {body : κ → Code σ} {s : σ} {first rest : List κ} :
    serially body s (first ++ rest) = serially body (serially body s first) rest :=
  List.foldl_append

/-- The shared state as the innermost call will leave it. -/
def settled (s : Nest σ κ) : σ :=
  match s.stack with
  | .code _ _ rest :: _ => rest.finish s.shared
  | _ => s.shared

/-- Every call that a callback interrupts has nothing left to do. -/
def Suspended : List (Frame σ κ) → Prop
  | [] => True
  | .callback :: .code _ _ rest :: frames => rest.still = true ∧ Suspended frames
  | _ => False

/-- The innermost call has its callback last and does not wait. -/
def Fits (s : Nest σ κ) : Prop :=
  match s.stack with
  | .code _ _ rest :: frames =>
      rest.last = true ∧ rest.waits s.shared = false ∧ Suspended frames
  | frames => Suspended frames

/-- A call is one of those of the run. -/
theorem calls_of_mem {l : Label κ} {ls : List (Label κ)} (hl : l ∈ ls) (hcalls : calls ls = []) :
    calls [l] = [] := by
  induction ls with
  | nil => exact absurd hl List.not_mem_nil
  | cons k ls ih =>
      cases k with
      | call c inline => cases hcalls
      | act | ret =>
          rcases List.mem_cons.mp hl with rfl | hl
          · rfl
          · exact ih hl hcalls

theorem calls_append (first rest : List (Label κ)) :
    calls (first ++ rest) = calls first ++ calls rest := by
  induction first with
  | nil => rfl
  | cons l first ih => cases l <;> simp [calls, ih]

variable {body : κ → Code σ} {s t : Nest σ κ}

/-- What is left when a callback is done, or nothing has been called. -/
theorem Suspended.fits {frames : List (Frame σ κ)} (h : Suspended frames) {shared : σ} :
    Fits ⟨shared, frames⟩ ∧ settled ⟨shared, frames⟩ = shared := by
  cases frames with
  | nil => exact ⟨trivial, rfl⟩
  | cons frame frames =>
      cases frame with
      | callback => exact ⟨h, rfl⟩
      | code => exact h.elim

/-- The thread goes on, and what its innermost call leaves is the same. -/
theorem Fits.act {c : κ} {inline : Bool} {rest : Code σ} {frames : List (Frame σ κ)} (h : s.Fits)
    (hstack : s.stack = .code c inline rest :: frames)
    (hact : s.act c inline frames rest = some t) : t.Fits ∧ t.settled = s.settled := by
  simp only [Fits, hstack] at h
  obtain ⟨hlast, hwaits, hframes⟩ := h
  simp only [settled, hstack]
  cases rest with
  | done =>
      obtain rfl := Option.some.inj hact
      exact hframes.fits
  | lock rest | unlock rest | create rest =>
      obtain rfl := Option.some.inj hact
      exact ⟨⟨hlast, hwaits, hframes⟩, rfl⟩
  | update f rest =>
      obtain rfl := Option.some.inj hact
      exact ⟨⟨hlast, hwaits, hframes⟩, rfl⟩
  | test p yes no =>
      obtain rfl := Option.some.inj hact
      obtain ⟨hyes, hno⟩ := Bool.and_eq_true_iff.mp hlast
      cases hp : p s.shared with
      | true =>
          have hwaits' : yes.waits s.shared = false := by simpa [Code.waits, hp] using hwaits
          exact ⟨⟨hyes, hwaits', hframes⟩, by simp [Code.finish, hp]⟩
      | false =>
          have hwaits' : no.waits s.shared = false := by simpa [Code.waits, hp] using hwaits
          exact ⟨⟨hno, hwaits', hframes⟩, by simp [Code.finish, hp]⟩
  | invoke rest =>
      have hstill : rest.still = true := hlast
      have hsame : (Code.invoke rest).finish s.shared = s.shared := Code.finish_of_still hstill _
      rw [hsame]
      simp only [Nest.act] at hact
      cases inline with
      | true =>
          obtain rfl := Option.some.inj hact
          exact ⟨⟨hstill, hframes⟩, rfl⟩
      | false =>
          obtain rfl := Option.some.inj hact
          exact ⟨⟨Code.last_of_still hstill, Code.waits_of_still hstill _, hframes⟩,
            Code.finish_of_still hstill _⟩
  | wait ready rest =>
      obtain ⟨-, rfl⟩ := guard_iff.mp hact
      obtain ⟨-, hwaits⟩ := Bool.or_eq_false_iff.mp hwaits
      exact ⟨⟨hlast, hwaits, hframes⟩, rfl⟩

/-- A callback returns. -/
theorem Fits.ret {frames : List (Frame σ κ)} (h : s.Fits)
    (hstack : s.stack = .callback :: frames) :
    Fits ⟨s.shared, frames⟩ ∧ settled ⟨s.shared, frames⟩ = s.settled := by
  simp only [Fits, hstack] at h
  simp only [settled, hstack]
  cases frames with
  | nil => exact h.elim
  | cons frame frames =>
      cases frame with
      | callback => exact h.elim
      | code c inline rest =>
          obtain ⟨hstill, hframes⟩ := h
          exact ⟨⟨Code.last_of_still hstill, Code.waits_of_still hstill _, hframes⟩,
            Code.finish_of_still hstill _⟩

/-- If the innermost call gets to its callback, it was the last one that was made, and would have
got there after the others. -/
def Leads (body : κ → Code σ) (start : σ) (cs : List κ) (s : Nest σ κ) : Prop :=
  ∀ c inline rest frames, s.stack = .code c inline rest :: frames → rest.invokes s.shared = true →
    ∃ before, cs = before ++ [c] ∧ (body c).invokes (serially body start before) = true

/-- After a call that nobody interrupts any more. -/
theorem Suspended.leads {start : σ} {cs : List κ} {frames : List (Frame σ κ)}
    (h : Suspended frames) {shared : σ} : Leads body start cs ⟨shared, frames⟩ := by
  rintro c inline rest frames rfl
  exact h.elim

/-- The innermost call goes on to its callback, or comes back from there. -/
theorem Leads.act {start : σ} {cs : List κ} {c : κ} {inline : Bool} {rest : Code σ}
    {frames : List (Frame σ κ)} (h : s.Leads body start cs) (hfits : s.Fits)
    (hstack : s.stack = .code c inline rest :: frames)
    (hact : s.act c inline frames rest = some t) : t.Leads body start cs := by
  have hnext : ∀ {shared : σ} {rest' : Code σ},
      (rest'.invokes shared = true → rest.invokes s.shared = true) →
        Leads body start cs ⟨shared, .code c inline rest' :: frames⟩ := by
    intro shared rest' himp c' inline' rest'' frames' hstack' hinvokes
    obtain ⟨hframe, rfl⟩ := List.cons.inj hstack'
    cases hframe
    exact h c inline rest frames hstack (himp hinvokes)
  simp only [Fits, hstack] at hfits
  obtain ⟨hlast, hwaits, hframes⟩ := hfits
  cases rest with
  | done =>
      obtain rfl := Option.some.inj hact
      exact hframes.leads
  | lock rest | unlock rest | create rest | update f rest =>
      obtain rfl := Option.some.inj hact
      exact hnext id
  | test p yes no =>
      obtain rfl := Option.some.inj hact
      refine hnext fun hinvokes => ?_
      show (if p s.shared then yes.invokes s.shared else no.invokes s.shared) = true
      split <;> simp_all
  | invoke rest =>
      have hstill : rest.still = true := hlast
      simp only [Nest.act] at hact
      cases inline with
      | true =>
          obtain rfl := Option.some.inj hact
          rintro c inline rest frames ⟨⟩
      | false =>
          obtain rfl := Option.some.inj hact
          exact hnext fun hinvokes => rfl
  | wait ready rest =>
      obtain ⟨-, rfl⟩ := guard_iff.mp hact
      exact hnext id

/-- The calls that were made so far, one after the other, explain the state. -/
structure Explains (body : κ → Code σ) (start : σ) (cs : List κ) (s : Nest σ κ) : Prop where
  fits : s.Fits
  settled : s.settled = serially body start cs
  leads : s.Leads body start cs

namespace Explains

variable {start : σ} {cs : List κ}

/-- A callback makes a call, or the thread does. -/
theorem call {c : κ} {inline : Bool} (h : s.Explains body start cs)
    (hcall : s.stack = [] ∨ ∃ frames, s.stack = .callback :: frames)
    (hlast : (body c).last = true) (hwaits : (body c).waits s.settled = false) :
    Explains body start (cs ++ [c]) { s with stack := .code c inline (body c) :: s.stack } := by
  have hsettled : s.settled = s.shared := by
    rcases hcall with hstack | ⟨frames, hstack⟩ <;> simp only [Nest.settled, hstack]
  have hframes : Suspended s.stack := by
    have hfits := h.fits
    rcases hcall with hstack | ⟨frames, hstack⟩ <;> simp only [Fits, hstack] at hfits ⊢ <;>
      exact hfits
  rw [hsettled] at hwaits
  refine ⟨⟨hlast, hwaits, hframes⟩, ?_, ?_⟩
  · show (body c).finish s.shared = _
    rw [← hsettled, h.settled, serially_append]
    rfl
  · intro c' inline' rest frames hstack hinvokes
    obtain ⟨hframe, -⟩ := List.cons.inj hstack
    cases hframe
    refine ⟨cs, rfl, ?_⟩
    rw [← h.settled, hsettled]
    exact hinvokes

/-- Each step is explained by the calls before it and the one it makes. -/
theorem step {l : Label κ} (h : s.Explains body start cs) (hlast : ∀ c, (body c).last = true)
    (hwaits : ∀ c, (body c).waits s.settled = false) (hstep : Nest.step body s l = some t) :
    t.Explains body start (cs ++ calls [l]) := by
  cases l with
  | call c inline =>
      simp only [Nest.step] at hstep
      split at hstep
      · rename_i hstack
        obtain rfl := Option.some.inj hstep
        exact h.call (Or.inl hstack) (hlast c) (hwaits c)
      · rename_i frames hstack
        obtain rfl := Option.some.inj hstep
        exact h.call (Or.inr ⟨frames, hstack⟩) (hlast c) (hwaits c)
      · cases hstep
  | act =>
      simp only [Nest.step] at hstep
      split at hstep
      · rename_i c inline rest frames hstack
        obtain ⟨hfits, hsettled⟩ := h.fits.act hstack hstep
        rw [show cs ++ calls [Label.act] = cs from List.append_nil cs]
        exact ⟨hfits, hsettled.trans h.settled, h.leads.act h.fits hstack hstep⟩
      · cases hstep
  | ret =>
      simp only [Nest.step] at hstep
      split at hstep
      · rename_i frames hstack
        obtain rfl := Option.some.inj hstep
        obtain ⟨hfits, hsettled⟩ := h.fits.ret hstack
        rw [show cs ++ calls [Label.ret] = cs from List.append_nil cs]
        refine ⟨hfits, hsettled.trans h.settled, ?_⟩
        rintro c inline rest frames' rfl hinvokes
        -- the call that dispatched the callback has nothing left to do
        have hframes : Suspended (.callback :: .code c inline rest :: frames') := by
          simpa only [Fits, hstack] using h.fits
        rw [Code.invokes_of_still hframes.1] at hinvokes
        cases hinvokes
      · cases hstep

/-- So is a run, if the code of a call does not wait and leaves it so. -/
theorem run {I : σ → Prop} (hlast : ∀ c, (body c).last = true)
    (hwaits : ∀ c s, I s → (body c).waits s = false)
    (hkeep : ∀ c s, I s → I ((body c).finish s)) {ls : List (Label κ)}
    (h : s.Explains body start cs) (hs : I s.settled)
    (hrun : Transition.run (Nest.step body) s ls = some t) :
    t.Explains body start (cs ++ calls ls) := by
  induction ls generalizing s cs with
  | nil =>
      obtain rfl := Option.some.inj hrun
      rw [show cs ++ calls ([] : List (Label κ)) = cs from List.append_nil cs]
      exact h
  | cons l ls ih =>
      obtain ⟨u, hstep, hrest⟩ := run_cons.mp hrun
      have hu := h.step hlast (fun c => hwaits c _ hs) hstep
      have hnext : I u.settled := by
        rw [hu.settled, serially_append, ← h.settled]
        cases l with
        | call c inline => exact hkeep c _ hs
        | act | ret => exact hs
      have hall := ih hu hnext hrest
      rwa [List.append_assoc, ← calls_append] at hall

/-- Nothing has been called. -/
theorem init (start : σ) : Explains body start [] ⟨start, []⟩ :=
  ⟨trivial, rfl, nofun⟩

end Explains

/-- The thread is outside of all calls, or in a callback. -/
def Between (s : Nest σ κ) : Prop := ∀ c inline rest frames, s.stack ≠ .code c inline rest :: frames

/-- Between calls, the shared state is settled. -/
theorem Between.settled_eq (h : s.Between) : s.settled = s.shared := by
  unfold settled
  split
  · rename_i hstack
    exact absurd hstack (h _ _ _ _)
  · rfl

section

variable {I : σ → Prop} (hlast : ∀ c, (body c).last = true)
  (hwaits : ∀ c s, I s → (body c).waits s = false)
  (hkeep : ∀ c s, I s → I ((body c).finish s)) {start : σ} (hstart : I start)
  {ls : List (Label κ)} (hrun : run (Nest.step body) ⟨start, []⟩ ls = some s)

include hlast hwaits hkeep hstart hrun

/-- **Callbacks that come last are calls afterwards.** Let every call invoke its callback last, not
wait where the others may leave the state, and leave it so. Then, however the callbacks make calls
in the middle of others, the shared state between calls is that of the calls one after the other. -/
theorem shared_eq_serially (hbetween : s.Between) :
    s.shared = serially body start (calls ls) := by
  rw [← hbetween.settled_eq]
  exact ((Explains.init start).run hlast hwaits hkeep hstart hrun).settled

/-- A call that is about to invoke its callback is the last one that was made, and would have got
there after the others. -/
theorem invokes_last {c : κ} {inline : Bool} {rest : Code σ} {frames : List (Frame σ κ)}
    (hstack : s.stack = .code c inline (.invoke rest) :: frames) :
    ∃ before, calls ls = before ++ [c] ∧ (body c).invokes (serially body start before) = true :=
  ((Explains.init start).run hlast hwaits hkeep hstart hrun).leads c inline _ frames hstack rfl

end

/-! ## Every call returns -/

/-- The steps that are left of what the thread is in the middle of. -/
def framesLeft : List (Frame σ κ) → Nat
  | [] => 0
  | .code _ _ rest :: frames => rest.lines + 1 + framesLeft frames
  | .callback :: frames => 1 + framesLeft frames

/-- The steps that are left, if no more calls are made. -/
def left (s : Nest σ κ) : Nat := framesLeft s.stack

/-- Every other step than a call leaves fewer. -/
theorem left_step {l : Label κ} (hcalls : calls [l] = []) (hstep : step body s l = some t) :
    t.left < s.left := by
  cases l with
  | call c inline => cases hcalls
  | ret =>
      simp only [Nest.step] at hstep
      split at hstep
      · rename_i frames hstack
        obtain rfl := Option.some.inj hstep
        simp only [left, hstack, framesLeft]
        omega
      · cases hstep
  | act =>
      simp only [Nest.step] at hstep
      split at hstep
      · rename_i c inline rest frames hstack
        cases rest with
        | done | lock rest | unlock rest | create rest | update f rest =>
            obtain rfl := Option.some.inj hstep
            simp only [left, hstack, framesLeft, Code.lines]
            omega
        | test p yes no =>
            obtain rfl := Option.some.inj hstep
            have hyes := Nat.le_max_left yes.lines no.lines
            have hno := Nat.le_max_right yes.lines no.lines
            simp only [left, hstack, framesLeft, Code.lines]
            split <;> omega
        | invoke rest =>
            simp only [Nest.act] at hstep
            split at hstep <;> obtain rfl := Option.some.inj hstep <;>
              simp only [left, hstack, framesLeft, Code.lines] <;>
              omega
        | wait ready rest =>
            obtain ⟨-, rfl⟩ := guard_iff.mp hstep
            simp only [left, hstack, framesLeft, Code.lines]
            omega
      · cases hstep

/-- A thread that fits goes on with its call, or its callback returns. -/
theorem Fits.goes_on (h : s.Fits) (hstack : s.stack ≠ []) :
    ∃ l, calls [l] = [] ∧ (Nest.step body s l).isSome = true := by
  cases hframes : s.stack with
  | nil => exact absurd hframes hstack
  | cons frame frames =>
      cases frame with
      | callback => exact ⟨.ret, rfl, by simp [Nest.step, hframes]⟩
      | code c inline rest =>
          refine ⟨.act, rfl, ?_⟩
          simp only [Fits, hframes] at h
          simp only [Nest.step, hframes]
          cases rest with
          | wait ready rest =>
              obtain ⟨hready, -⟩ := Bool.or_eq_false_iff.mp h.2.1
              simpa [Nest.act] using hready
          | invoke rest => cases inline <;> rfl
          | _ => rfl

/-- **Every call returns.** In a run of such calls, if no more of them are made, the thread never
waits until all have returned, which takes no more steps than are left. -/
theorem returns {I : σ → Prop} (hlast : ∀ c, (body c).last = true)
    (hwaits : ∀ c s, I s → (body c).waits s = false)
    (hkeep : ∀ c s, I s → I ((body c).finish s)) {start : σ} (hstart : I start)
    {ls more : List (Label κ)} (hrun : run (Nest.step body) ⟨start, []⟩ ls = some s)
    (hcalls : calls more = []) (hmore : run (Nest.step body) s more = some t) :
    more.length ≤ s.left ∧
      ((∀ l, calls [l] = [] → Nest.step body t l = none) → t.stack = []) := by
  have hend := (Explains.init start).run hlast hwaits hkeep hstart
    (run_append.mpr ⟨s, hrun, hmore⟩)
  refine ⟨?_, fun hstuck => ?_⟩
  · have hlength := run_length_le left (I := fun _ => True)
      (fun u l v hl _ hstep => ⟨trivial, left_step (calls_of_mem hl hcalls) hstep⟩) trivial hmore
    omega
  · by_contra hstack
    obtain ⟨l, hl, hsome⟩ : ∃ l, calls [l] = [] ∧ (Nest.step body t l).isSome = true :=
      hend.fits.goes_on hstack
    rw [hstuck l hl] at hsome
    cases hsome

end Nest

end LockScope
