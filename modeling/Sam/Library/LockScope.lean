import Mathlib.Logic.Function.Basic
import Sam.Library.Transition

/-!
# Code around a lock that is not recursive

`Code σ` is code over a shared state that locks and unlocks one mutex, creates something, which can
throw, and invokes callbacks. Two things are said about it. `Code.clean` code changes nothing before
it creates, so an exception leaves the state as it was (`Code.fails_of_clean`). `Code.balanced` code
locks and unlocks in turn and invokes on one side of the lock; for threads that run such code,
`Machine.released_iff` says when callbacks never run under the lock of their own thread.
-/

namespace LockScope

open Transition

universe u v w

/-- Code of a call. `create` may throw, and `invoke` may run a callback before it returns. A thread
that waits has released the lock. -/
inductive Code (σ : Type u) where
  | done
  | lock (rest : Code σ)
  | unlock (rest : Code σ)
  | update (f : σ → σ) (rest : Code σ)
  | test (p : σ → Bool) (yes no : Code σ)
  | create (rest : Code σ)
  | invoke (rest : Code σ)
  | wait (ready : σ → Bool) (rest : Code σ)

namespace Code

variable {σ : Type u}

/-- The state in the end, when nobody else runs and nothing throws. -/
def finish : Code σ → σ → σ
  | done, s => s
  | lock rest, s | unlock rest, s | create rest, s | invoke rest, s | wait _ rest, s =>
      rest.finish s
  | update f rest, s => rest.finish (f s)
  | test p yes no, s => if p s then yes.finish s else no.finish s

/-- The state when `create` throws; `none` if the code does not get there. Unwinding releases the
lock and undoes nothing. -/
def fails : Code σ → σ → Option σ
  | done, _ => none
  | lock rest, s | unlock rest, s | invoke rest, s | wait _ rest, s => rest.fails s
  | update f rest, s => rest.fails (f s)
  | test p yes no, s => if p s then yes.fails s else no.fails s
  | create _, s => some s

/-- Whether some path creates. -/
def creates : Code σ → Bool
  | done => false
  | lock rest | unlock rest | invoke rest | wait _ rest | update _ rest => rest.creates
  | test _ yes no => yes.creates || no.creates
  | create _ => true

/-- No path changes the state before it creates. -/
def clean : Code σ → Bool
  | done => true
  | lock rest | unlock rest | invoke rest | wait _ rest => rest.clean
  | update _ rest => !rest.creates
  | test _ yes no => yes.clean && no.clean
  | create _ => true

/-- Code that does not create does not throw. -/
theorem fails_of_not_creates {code : Code σ} (h : code.creates = false) (s : σ) :
    code.fails s = none := by
  -- the state changes on the way, so the induction is for all states
  induction code generalizing s with
  | done => rfl
  | lock rest ih | unlock rest ih | invoke rest ih | wait ready rest ih => exact ih h s
  | update f rest ih => exact ih h (f s)
  | test p yes no ihyes ihno =>
      obtain ⟨hyes, hno⟩ := Bool.or_eq_false_iff.mp h
      rw [fails, ihyes hyes, ihno hno, ite_self]
  | create rest => cases h

/-- **An exception out of clean code leaves the state as it was.** -/
theorem fails_of_clean {code : Code σ} {s t : σ} (h : code.clean = true)
    (hfails : code.fails s = some t) : t = s := by
  induction code with
  | done => cases hfails
  | lock rest ih | unlock rest ih | invoke rest ih | wait ready rest ih => exact ih h hfails
  | update f rest =>
      -- nothing behind an update creates, so this path does not throw
      have hcreates : rest.creates = false := by simpa [clean] using h
      rw [fails, fails_of_not_creates hcreates] at hfails
      cases hfails
  | test p yes no ihyes ihno =>
      obtain ⟨hyes, hno⟩ := Bool.and_eq_true_iff.mp h
      rw [fails] at hfails
      split at hfails
      · exact ihyes hyes hfails
      · exact ihno hno hfails
  | create rest => exact (Option.some.inj hfails).symm

/-- The code locks and unlocks in turn, looks at the state under the lock only, and invokes under
the lock or outside of it, as `inside` says. `held` says whether it has the lock. -/
def balanced (inside : Bool) : Bool → Code σ → Bool
  | held, done => !held
  | held, lock rest => !held && rest.balanced inside true
  | held, unlock rest => held && rest.balanced inside false
  | held, update _ rest => held && rest.balanced inside held
  | held, test _ yes no => held && (yes.balanced inside held && no.balanced inside held)
  | held, create rest => rest.balanced inside held
  | held, invoke rest => held == inside && rest.balanced inside held
  | held, wait _ rest => !held && rest.balanced inside held

end Code

/-! ## Threads -/

/-- What a thread is in the middle of: the rest of a call, whose callback runs inline or not, or a
callback. -/
inductive Frame (σ : Type u) (κ : Type v) where
  | code (call : κ) (inline : Bool) (rest : Code σ)
  | callback

/-- The shared state, the thread that has the lock, and what each thread is in the middle of,
innermost first. -/
structure Machine (σ : Type u) (τ : Type w) (κ : Type v) where
  shared : σ
  owner : Option τ
  stack : τ → List (Frame σ κ)

/-- The steps of a thread: it makes a call, from a callback or outside of all calls; it goes on with
the innermost one; the innermost callback returns. -/
inductive Label (τ : Type w) (κ : Type v) where
  | call (t : τ) (c : κ) (inline : Bool)
  | act (t : τ)
  | ret (t : τ)

/-- The thread that takes the step. -/
def Label.thread {τ : Type w} {κ : Type v} : Label τ κ → τ
  | call t _ _ | act t | ret t => t

namespace Machine

variable {σ : Type u} {τ : Type w} [DecidableEq τ] {κ : Type v}

/-- Nobody has made a call. -/
def init (s : σ) : Machine σ τ κ := ⟨s, none, fun _ => []⟩

/-- Whether this thread has the lock. -/
def holds (s : Machine σ τ κ) (t : τ) : Bool := s.owner = some t

/-- A thread is in the middle of something else now. -/
def put (s : Machine σ τ κ) (t : τ) (frames : List (Frame σ κ)) : Machine σ τ κ :=
  { s with stack := Function.update s.stack t frames }

/-- A thread goes on with the code of its innermost call. -/
def act (s : Machine σ τ κ) (t : τ) (c : κ) (inline : Bool) (frames : List (Frame σ κ)) :
    Code σ → Option (Machine σ τ κ)
  | .done => some (s.put t frames)
  | .lock rest =>
      if s.owner = none then
        some ({ s with owner := some t }.put t (.code c inline rest :: frames))
      else none
  | .unlock rest =>
      if s.owner = some t then
        some ({ s with owner := none }.put t (.code c inline rest :: frames))
      else none
  | .update f rest => some ({ s with shared := f s.shared }.put t (.code c inline rest :: frames))
  | .test p yes no =>
      some (s.put t (.code c inline (if p s.shared then yes else no) :: frames))
  | .create rest => some (s.put t (.code c inline rest :: frames))
  | .invoke rest =>
      if inline then some (s.put t (.callback :: .code c inline rest :: frames))
      else some (s.put t (.code c inline rest :: frames))
  | .wait ready rest =>
      if ready s.shared then some (s.put t (.code c inline rest :: frames)) else none

/-- One step, when the calls have this code. -/
def step (body : κ → Code σ) (s : Machine σ τ κ) : Label τ κ → Option (Machine σ τ κ)
  | .call t c inline =>
      match s.stack t with
      | [] | .callback :: _ => some (s.put t (.code c inline (body c) :: s.stack t))
      | _ => none
  | .act t =>
      match s.stack t with
      | .code c inline rest :: frames => s.act t c inline frames rest
      | _ => none
  | .ret t =>
      match s.stack t with
      | .callback :: frames => some (s.put t frames)
      | _ => none

/-- What the other threads are in the middle of. -/
theorem put_stack {s : Machine σ τ κ} {t r : τ} {frames : List (Frame σ κ)} (h : t ≠ r) :
    (s.put r frames).stack t = s.stack t :=
  Function.update_of_ne h ..

/-- **Frame.** An action leaves the other threads alone, and only the thread that has the lock
unlocks. -/
theorem act_frame {s s' : Machine σ τ κ} {r : τ} {c : κ} {inline : Bool} {code : Code σ}
    {frames : List (Frame σ κ)} (hact : s.act r c inline frames code = some s') :
    (∀ t, t ≠ r → s'.stack t = s.stack t) ∧
      (s'.owner = s.owner ∨ s.owner = none ∨ s.owner = some r) := by
  cases code with
  | lock rest =>
      obtain ⟨hnobody, rfl⟩ := guard_iff.mp hact
      exact ⟨fun t ht => put_stack ht, Or.inr (Or.inl hnobody)⟩
  | unlock rest =>
      obtain ⟨hmine, rfl⟩ := guard_iff.mp hact
      exact ⟨fun t ht => put_stack ht, Or.inr (Or.inr hmine)⟩
  | invoke rest =>
      simp only [act] at hact
      split at hact <;> exact Option.some.inj hact ▸ ⟨fun t ht => put_stack ht, Or.inl rfl⟩
  | wait ready rest =>
      obtain ⟨-, rfl⟩ := guard_iff.mp hact
      exact ⟨fun t ht => put_stack ht, Or.inl rfl⟩
  | done | update f rest | test p yes no | create rest =>
      exact Option.some.inj hact ▸ ⟨fun t ht => put_stack ht, Or.inl rfl⟩

/-- And so does every step. -/
theorem step_frame {body : κ → Code σ} {s s' : Machine σ τ κ} {l : Label τ κ}
    (hstep : step body s l = some s') :
    (∀ t, t ≠ l.thread → s'.stack t = s.stack t) ∧
      (s'.owner = s.owner ∨ s.owner = none ∨ s.owner = some l.thread) := by
  cases l with
  | call r c inline =>
      simp only [step] at hstep
      split at hstep
      · exact Option.some.inj hstep ▸ ⟨fun t ht => put_stack ht, Or.inl rfl⟩
      · exact Option.some.inj hstep ▸ ⟨fun t ht => put_stack ht, Or.inl rfl⟩
      · cases hstep
  | act r =>
      simp only [step] at hstep
      split at hstep
      · exact act_frame hstep
      · cases hstep
  | ret r =>
      simp only [step] at hstep
      split at hstep
      · exact Option.some.inj hstep ▸ ⟨fun t ht => put_stack ht, Or.inl rfl⟩
      · cases hstep

/-- No callback runs while its thread has the lock, and no thread waits for its own lock. -/
structure Released (s : Machine σ τ κ) : Prop where
  callbacks : ∀ t frames, s.stack t = .callback :: frames → s.owner ≠ some t
  relock : ∀ t c inline rest frames,
    s.stack t = .code c inline (.lock rest) :: frames → s.owner ≠ some t

/-- The step does not run a callback of a call that invokes under its lock. -/
def Outside (inside : κ → Bool) (s : Machine σ τ κ) (l : Label τ κ) : Prop :=
  ∀ t c rest frames, l = .act t → s.stack t = .code c true (.invoke rest) :: frames →
    inside c = false

/-- The code that a thread is in the middle of is balanced, and only the innermost call has the
lock. -/
def Fits (inside : κ → Bool) : Bool → List (Frame σ κ) → Prop
  | held, [] => held = false
  | held, .callback :: frames => held = false ∧ Fits inside false frames
  | held, .code c _ rest :: frames =>
      rest.balanced (inside c) held = true ∧ Fits inside false frames

/-- Every thread fits. -/
def Inv (inside : κ → Bool) (s : Machine σ τ κ) : Prop :=
  ∀ t, Fits inside (s.holds t) (s.stack t)

namespace Inv

variable {inside : κ → Bool} {s s' : Machine σ τ κ} {t : τ} {body : κ → Code σ}

/-- Nobody has made a call. -/
theorem init (s : σ) : (Machine.init s : Machine σ τ κ).Inv inside := fun _ => rfl

/-- One thread goes on, and the others have the lock or not as before. -/
theorem put (h : s.Inv inside) {frames : List (Frame σ κ)} {shared : σ} {owner : Option τ}
    {held : Bool} (howner : decide (owner = some t) = held) (hfits : Fits inside held frames)
    (hothers : ∀ r, r ≠ t → (owner = some r ↔ s.owner = some r)) :
    (Machine.put ⟨shared, owner, s.stack⟩ t frames).Inv inside := by
  intro r
  by_cases hr : r = t
  · subst hr
    show Fits inside (decide (owner = some r)) (Function.update s.stack r frames r)
    rw [howner, Function.update_self]
    exact hfits
  · simpa only [Machine.put, holds, Function.update_of_ne hr, hothers r hr] using h r

/-- **Every action of balanced code fits**, but for a callback that runs under the lock. -/
theorem act {c : κ} {inline : Bool} {rest : Code σ} {frames : List (Frame σ κ)} (h : s.Inv inside)
    (hstack : s.stack t = .code c inline rest :: frames)
    (houtside : ∀ rest', rest = .invoke rest' → inline = true → inside c = false)
    (hact : s.act t c inline frames rest = some s') : s'.Inv inside := by
  have hfits := h t
  rw [hstack] at hfits
  obtain ⟨hbalanced, hframes⟩ := hfits
  have hsame : ∀ r, r ≠ t → (s.owner = some r ↔ s.owner = some r) := fun _ _ => Iff.rfl
  cases rest with
  | done =>
      have hheld : s.holds t = false := by simpa [Code.balanced] using hbalanced
      exact Option.some.inj hact ▸ h.put hheld hframes hsame
  | lock rest =>
      obtain ⟨-, hrest⟩ := Bool.and_eq_true_iff.mp hbalanced
      obtain ⟨hnobody, hnext⟩ := guard_iff.mp hact
      refine hnext ▸ h.put (decide_eq_true rfl) ⟨hrest, hframes⟩ fun r hr => ?_
      simp [hnobody, Ne.symm hr]
  | unlock rest =>
      obtain ⟨-, hrest⟩ := Bool.and_eq_true_iff.mp hbalanced
      obtain ⟨hmine, hnext⟩ := guard_iff.mp hact
      refine hnext ▸ h.put (decide_eq_false nofun) ⟨hrest, hframes⟩ fun r hr => ?_
      simp [hmine, Ne.symm hr]
  | update f rest =>
      obtain ⟨-, hrest⟩ := Bool.and_eq_true_iff.mp hbalanced
      exact Option.some.inj hact ▸ h.put rfl ⟨hrest, hframes⟩ hsame
  | test p yes no =>
      obtain ⟨-, hboth⟩ := Bool.and_eq_true_iff.mp hbalanced
      obtain ⟨hyes, hno⟩ := Bool.and_eq_true_iff.mp hboth
      refine Option.some.inj hact ▸ h.put rfl ⟨?_, hframes⟩ hsame
      split
      · exact hyes
      · exact hno
  | create rest => exact Option.some.inj hact ▸ h.put rfl ⟨hbalanced, hframes⟩ hsame
  | invoke rest =>
      obtain ⟨hside, hrest⟩ := Bool.and_eq_true_iff.mp hbalanced
      simp only [Machine.act] at hact
      cases inline with
      | false => exact Option.some.inj hact ▸ h.put rfl ⟨hrest, hframes⟩ hsame
      | true =>
          -- the callback runs outside of the lock
          have hheld : s.holds t = false :=
            (beq_iff_eq.mp hside).trans (houtside rest rfl rfl)
          rw [hheld] at hrest
          exact Option.some.inj hact ▸ h.put hheld ⟨rfl, hrest, hframes⟩ hsame
  | wait ready rest =>
      obtain ⟨-, hrest⟩ := Bool.and_eq_true_iff.mp hbalanced
      obtain ⟨-, hnext⟩ := guard_iff.mp hact
      exact hnext ▸ h.put rfl ⟨hrest, hframes⟩ hsame

/-- Every step fits, but for a callback that runs under the lock. -/
theorem step {l : Label τ κ} (hbody : ∀ c, (body c).balanced (inside c) false = true)
    (h : s.Inv inside) (houtside : s.Outside inside l) (hstep : Machine.step body s l = some s') :
    s'.Inv inside := by
  cases l with
  | call t c inline =>
      have hfits := h t
      simp only [Machine.step] at hstep
      split at hstep
      -- outside of all calls, or from a callback
      · rename_i hstack
        rw [hstack] at hfits
        refine Option.some.inj hstep ▸ h.put hfits ⟨hbody c, ?_⟩ fun _ _ => Iff.rfl
        rw [hstack]
        rfl
      · rename_i frames hstack
        rw [hstack] at hfits
        refine Option.some.inj hstep ▸ h.put hfits.1 ⟨hbody c, ?_⟩ fun _ _ => Iff.rfl
        rw [hstack]
        exact ⟨rfl, hfits.2⟩
      · cases hstep
  | act t =>
      simp only [Machine.step] at hstep
      split at hstep
      · rename_i c inline rest frames hstack
        refine h.act hstack (fun rest' hrest hinline => ?_) hstep
        subst hrest hinline
        exact houtside t c rest' frames rfl hstack
      · cases hstep
  | ret t =>
      have hfits := h t
      simp only [Machine.step] at hstep
      split at hstep
      · rename_i frames hstack
        rw [hstack] at hfits
        exact Option.some.inj hstep ▸ h.put hfits.1 hfits.2 fun _ _ => Iff.rfl
      · cases hstep

/-- Threads that fit run callbacks, and wait for the lock, without it. -/
theorem released (h : s.Inv inside) : s.Released := by
  refine ⟨fun t frames hstack howner => ?_, fun t c inline rest frames hstack howner => ?_⟩
  · have hfits := h t
    rw [hstack, holds, howner] at hfits
    simpa using hfits.1
  · have hfits := h t
    rw [hstack, holds, howner] at hfits
    simpa [Code.balanced] using hfits.1

/-- A callback that runs under the lock. -/
theorem held {l : Label τ κ} (h : s.Inv inside) (hinside : ¬ s.Outside inside l)
    (hstep : Machine.step body s l = some s') : ¬ s'.Released := by
  unfold Outside at hinside
  push Not at hinside
  obtain ⟨t, c, rest, frames, rfl, hstack, hc⟩ := hinside
  have hfits := h t
  rw [hstack] at hfits
  have howner : s.owner = some t := by
    have hside := (Bool.and_eq_true_iff.mp hfits.1).1
    rw [beq_iff_eq] at hside
    exact of_decide_eq_true (hside.trans (eq_true_of_ne_false hc))
  have hnext : s' = s.put t (.callback :: .code c true rest :: frames) := by
    simp only [Machine.step, hstack, Machine.act] at hstep
    exact (Option.some.inj hstep).symm
  intro hreleased
  refine hreleased.callbacks t (.code c true rest :: frames) ?_ (hnext ▸ howner)
  rw [hnext]
  exact Function.update_self ..

end Inv

variable {body : κ → Code σ} {inside : κ → Bool}

/-- **When callbacks run without the lock.** Let the code of every call be balanced. In all states
of a run the callbacks run without the lock of their thread, and no thread waits for its own lock,
if and only if no call that invokes under its lock runs its callback inline. -/
theorem released_iff (hbody : ∀ c, (body c).balanced (inside c) false = true) (s : σ)
    (ls : List (Label τ κ)) :
    (∀ t, Visits (step body) (init s) ls t → t.Released) ↔
      ∀ t l, Takes (step body) (init s) ls t l → t.Outside inside l :=
  visits_iff_takes (I := Inv inside) (C := Outside inside)
    (fun _ _ _ h houtside hstep => h.step hbody houtside hstep) (fun _ h => h.released)
    (fun _ _ _ h hinside hstep => h.held hinside hstep) (Inv.init s) ls

/-- This thread waits for the lock that it has. -/
def Deadlocked (s : Machine σ τ κ) (t : τ) : Prop :=
  s.owner = some t ∧ ∃ c inline rest frames, s.stack t = .code c inline (.lock rest) :: frames

/-- **It waits for ever**: the thread itself cannot move, and only it can unlock. -/
theorem Deadlocked.step {s s' : Machine σ τ κ} {t : τ} {l : Label τ κ} (h : s.Deadlocked t)
    (hstep : Machine.step body s l = some s') : s'.Deadlocked t := by
  obtain ⟨howner, c, inline, rest, frames, hstack⟩ := h
  have hother : t ≠ l.thread := by
    intro ht
    cases l with
    | call r d other =>
        obtain rfl : t = r := ht
        simp [Machine.step, hstack] at hstep
    | act r =>
        obtain rfl : t = r := ht
        simp [Machine.step, hstack, Machine.act, howner] at hstep
    | ret r =>
        obtain rfl : t = r := ht
        simp [Machine.step, hstack] at hstep
  obtain ⟨hstacks, howners⟩ := step_frame hstep
  refine ⟨?_, c, inline, rest, frames, (hstacks t hother).trans hstack⟩
  rcases howners with hsame | hnobody | hmine
  · exact hsame.trans howner
  · cases howner.symm.trans hnobody
  · exact absurd (Option.some.inj (howner.symm.trans hmine)) hother

/-- And so in every run. -/
theorem Deadlocked.run {s s' : Machine σ τ κ} {t : τ} {ls : List (Label τ κ)}
    (h : s.Deadlocked t) (hrun : Transition.run (Machine.step body) s ls = some s') :
    s'.Deadlocked t :=
  run_invariant (I := fun s => s.Deadlocked t) (fun _ _ _ h hstep => h.step hstep) h hrun

end Machine

end LockScope
