import Mathlib.Logic.Relation
import Sam.Library.LockScope

/-!
# Critical sections are atomic

The threads of `LockScope.Machine` interleave line by line. A section is what a thread runs from a
`lock` to the next `unlock`; `Machine.entered` lists the sections that a run enters, in the order in
which they take the lock, and `serial` runs sections one after the other without anybody in between.
`Machine.shared_eq_serial` says that balanced code cannot tell the difference, whatever callbacks
run and whatever they call. For code whose first section is the only one that does anything, the
sections are the calls (`Machine.shared_eq_serially`), each thread's in its own order
(`Machine.order_calls`). -/

namespace LockScope

open Transition

universe u v w

/-! ## Sections of code -/

namespace Code

variable {σ : Type u}

/-- The state when the code unlocks, if nobody else runs. -/
def release : Code σ → σ → σ
  | done, s | lock _, s | unlock _, s => s
  | create rest, s | invoke rest, s | wait _ rest, s => rest.release s
  | update f rest, s => rest.release (f s)
  | test p yes no, s => if p s then yes.release s else no.release s

/-- Whether the code gets to a callback, if nobody else runs. -/
def invokes : Code σ → σ → Bool
  | done, _ => false
  | lock rest, s | unlock rest, s | create rest, s | wait _ rest, s => rest.invokes s
  | update f rest, s => rest.invokes (f s)
  | test p yes no, s => if p s then yes.invokes s else no.invokes s
  | invoke _, _ => true

/-- The sections that a path of the code can enter. -/
def sections : Code σ → List (Code σ)
  | done => []
  | lock rest => rest :: rest.sections
  | unlock rest | update _ rest | create rest | invoke rest | wait _ rest => rest.sections
  | test _ yes no => yes.sections ++ no.sections

/-- The section does nothing. -/
def idle : Code σ → Bool
  | unlock _ => true
  | _ => false

/-- No section that is still to come does anything. -/
def Past (code : Code σ) : Prop := ∀ x ∈ code.sections, x.idle = true

/-- The code takes the lock at once, and no section after the first one does anything. -/
def OneSection (code : Code σ) : Prop :=
  ∃ first, code = lock first ∧ first.idle = false ∧ first.Past

/-- One line under the lock. -/
inductive Goes : Code σ × σ → Code σ × σ → Prop where
  | update (f : σ → σ) (rest : Code σ) (s : σ) : Goes (update f rest, s) (rest, f s)
  | test (p : σ → Bool) (yes no : Code σ) (s : σ) :
      Goes (test p yes no, s) (if p s then yes else no, s)
  | create (rest : Code σ) (s : σ) : Goes (create rest, s) (rest, s)
  | invoke (rest : Code σ) (s : σ) : Goes (invoke rest, s) (rest, s)

/-- Some lines under the lock. -/
abbrev Reaches : Code σ × σ → Code σ × σ → Prop := Relation.ReflTransGen Goes

/-- Where a section is does not change how it ends. -/
theorem Reaches.release_eq {a b : Code σ × σ} (h : Reaches a b) :
    b.1.release b.2 = a.1.release a.2 := by
  induction h with
  | refl => rfl
  | tail _ hgoes ih =>
      rw [← ih]
      cases hgoes with
      | test p yes no s =>
          show (if p s then yes else no).release s = if p s then yes.release s else no.release s
          split <;> rfl
      | update | create | invoke => rfl

/-- A section that comes to a callback was on its way there. -/
theorem Reaches.invokes_of {a b : Code σ × σ} (h : Reaches a b) (hb : b.1.invokes b.2 = true) :
    a.1.invokes a.2 = true := by
  induction h with
  | refl => exact hb
  | tail _ hgoes ih =>
      refine ih ?_
      cases hgoes with
      | test p yes no s =>
          show (if p s then yes.invokes s else no.invokes s) = true
          split <;> simp_all
      | update | create => exact hb
      | invoke => rfl

/-- Balanced code that has no section ahead changes nothing any more. -/
theorem finish_of_past {inside : Bool} : ∀ {code : Code σ}, code.balanced inside false = true →
    code.Past → ∀ s, code.finish s = s
  | .done, _, _, _ => rfl
  | .lock (.unlock rest), hbalanced, hpast, s => by
      have hrest : rest.balanced inside false = true := by simpa [balanced] using hbalanced
      exact finish_of_past hrest (fun x hx => hpast x (List.mem_cons_of_mem _ hx)) s
  | .create rest, hbalanced, hpast, s => @finish_of_past _ rest hbalanced hpast s
  | .invoke rest, hbalanced, hpast, s => by
      have hrest : rest.balanced inside false = true := (Bool.and_eq_true_iff.mp hbalanced).2
      exact finish_of_past hrest hpast s
  | .wait _ rest, hbalanced, hpast, s => by
      have hrest : rest.balanced inside false = true := (Bool.and_eq_true_iff.mp hbalanced).2
      exact finish_of_past hrest hpast s
  | .lock .done, _, hpast, _ | .lock (.lock _), _, hpast, _ | .lock (.update _ _), _, hpast, _
  | .lock (.test _ _ _), _, hpast, _ | .lock (.create _), _, hpast, _
  | .lock (.invoke _), _, hpast, _ | .lock (.wait _ _), _, hpast, _ =>
      nomatch hpast _ List.mem_cons_self

/-- A section after which no other one does anything leaves what the whole code leaves. -/
theorem release_eq_finish {inside : Bool} {code : Code σ}
    (hbalanced : code.balanced inside true = true) (hpast : code.Past) (s : σ) :
    code.release s = code.finish s := by
  induction code generalizing s with
  | done => rfl
  | lock rest => cases hbalanced
  | unlock rest =>
      have hrest : rest.balanced inside false = true := (Bool.and_eq_true_iff.mp hbalanced).2
      exact (finish_of_past hrest hpast s).symm
  | update f rest ih => exact ih hbalanced hpast (f s)
  | test p yes no ihyes ihno =>
      obtain ⟨hyes, hno⟩ := Bool.and_eq_true_iff.mp (Bool.and_eq_true_iff.mp hbalanced).2
      rw [release, finish, ihyes hyes (fun x hx => hpast x (List.mem_append_left _ hx)),
        ihno hno fun x hx => hpast x (List.mem_append_right _ hx)]
  | create rest ih => exact ih hbalanced hpast s
  | invoke rest ih => exact ih (Bool.and_eq_true_iff.mp hbalanced).2 hpast s
  | wait ready rest => cases hbalanced

end Code

/-! ## Sections of runs -/

/-- A section that a run enters: whose it is, and the code after the `lock`. -/
structure Section (σ : Type u) (τ : Type w) (κ : Type v) where
  thread : τ
  call : κ
  code : Code σ

/-- Sections one after the other. -/
def serial {σ : Type u} {τ : Type w} {κ : Type v} (s : σ) (sections : List (Section σ τ κ)) : σ :=
  sections.foldl (fun s x => x.code.release s) s

namespace Machine

variable {σ : Type u} {τ : Type w} [DecidableEq τ] {κ : Type v}

omit [DecidableEq τ] in
/-- The section that a step enters. -/
def enters (m : Machine σ τ κ) : Label τ κ → Option (Section σ τ κ)
  | .act t =>
      match m.stack t with
      | .code c _ (.lock rest) :: _ => some ⟨t, c, rest⟩
      | _ => none
  | _ => none

/-- The sections that a run enters, in order. -/
def entered (body : κ → Code σ) (m : Machine σ τ κ) : List (Label τ κ) → List (Section σ τ κ)
  | [] => []
  | l :: ls =>
      match step body m l with
      | some m' => (m.enters l).toList ++ entered body m' ls
      | none => []

variable {body : κ → Code σ} {inside : κ → Bool} {m m' : Machine σ τ κ} {s : σ} {t : τ}
  {xs : List (Section σ τ κ)}

/-- A step that enters a section finds the lock free. -/
theorem owner_of_enters {l : Label τ κ} {x : Section σ τ κ} (h : m.enters l = some x)
    (hstep : step body m l = some m') : m.owner = none := by
  unfold enters at h
  split at h
  · rename_i t
    split at h
    · rename_i c inline rest frames hstack
      simp only [step, hstack] at hstep
      exact (guard_iff.mp hstep).1
    · cases h
  · cases h

/-- A run of two parts enters the sections of the first one and then those of the second one. -/
theorem entered_append {first rest : List (Label τ κ)}
    (hrun : run (step body) m first = some m') :
    entered body m (first ++ rest) = entered body m first ++ entered body m' rest := by
  induction first generalizing m with
  | nil =>
      obtain rfl := Option.some.inj hrun
      rfl
  | cons l ls ih =>
      obtain ⟨u, hu, hls⟩ := run_cons.mp hrun
      simp only [List.cons_append, entered, hu, ih hls, List.append_assoc]

omit [DecidableEq τ] in
/-- Sections one after the other, and then one more. -/
theorem serial_concat (x : Section σ τ κ) :
    serial s (xs ++ [x]) = x.code.release (serial s xs) := by
  simp [serial]

/-! ## What every step keeps -/

/-- No call among these has the lock. -/
def Free (inside : κ → Bool) (frames : List (Frame σ κ)) : Prop :=
  ∀ c inline rest, .code c inline rest ∈ frames → rest.balanced (inside c) false = true

/-- A call among these has the lock and goes on with this code: the innermost one, or one that runs
a callback. -/
inductive Holds (inside : κ → Bool) (call : κ) (rest : Code σ) : List (Frame σ κ) → Prop where
  | top {inline : Bool} {frames : List (Frame σ κ)}
      (hrest : rest.balanced (inside call) true = true) (hframes : Free inside frames) :
      Holds inside call rest (.code call inline rest :: frames)
  | callback {frames : List (Frame σ κ)} (h : Holds inside call rest frames) :
      Holds inside call rest (.callback :: frames)
  | nested {c : κ} {inline : Bool} {code : Code σ} {frames : List (Frame σ κ)}
      (hcode : code.balanced (inside c) false = true) (h : Holds inside call rest frames) :
      Holds inside call rest (.code c inline code :: frames)

omit [DecidableEq τ] in
/-- Code that goes on without the lock. -/
theorem Free.cons {c : κ} {inline : Bool} {rest : Code σ} {frames : List (Frame σ κ)} :
    Free inside (.code c inline rest :: frames) ↔
      rest.balanced (inside c) false = true ∧ Free inside frames := by
  constructor
  · intro h
    exact ⟨h c inline rest List.mem_cons_self,
      fun d i r hmem => h d i r (List.mem_cons_of_mem _ hmem)⟩
  · intro h d i r hmem
    rcases List.mem_cons.mp hmem with heq | hmem
    · cases heq
      exact h.1
    · exact h.2 d i r hmem

omit [DecidableEq τ] in
/-- A callback goes on without the lock. -/
theorem Free.callback {frames : List (Frame σ κ)} :
    Free inside (.callback :: frames) ↔ Free inside frames := by
  constructor
  · exact fun h d i r hmem => h d i r (List.mem_cons_of_mem _ hmem)
  · exact fun h d i r hmem => h d i r ((List.mem_cons.mp hmem).resolve_left nofun)

/-- The sections entered so far are atomic: without an owner, the state is what they leave one after
the other. With one, the last section is the owner's, and the owner is on its way through it. -/
structure Serialized (inside : κ → Bool) (s : σ) (m : Machine σ τ κ) (xs : List (Section σ τ κ)) :
    Prop where
  free : m.owner = none → m.shared = serial s xs
  others : ∀ t, m.owner ≠ some t → Free inside (m.stack t)
  held : ∀ t, m.owner = some t → ∃ before x rest, xs = before ++ [x] ∧ x.thread = t ∧
    Holds inside x.call rest (m.stack t) ∧
      Code.Reaches (x.code, serial s before) (rest, m.shared)

namespace Serialized

omit [DecidableEq τ] in
/-- Nobody has made a call. -/
theorem init (s : σ) : Serialized inside s (Machine.init s : Machine σ τ κ) [] where
  free _ := rfl
  others _ _ := fun _ _ _ hmem => nomatch hmem
  held _ howner := nomatch howner

/-- A thread without the lock goes on. -/
theorem put_free (h : Serialized inside s m xs) (howner : m.owner ≠ some t)
    {frames : List (Frame σ κ)} (hframes : Free inside frames) :
    Serialized inside s (m.put t frames) xs where
  free := h.free
  others r hr := by
    by_cases hrt : r = t
    · subst hrt
      simpa [put] using hframes
    · rw [put_stack hrt]
      exact h.others r hr
  held r hr := by
    have hrt : r ≠ t := fun he => howner (he ▸ hr)
    rw [put_stack hrt]
    exact h.held r hr

/-- The owner goes on. -/
theorem put_held (h : Serialized inside s m xs) (howner : m.owner = some t) (shared : σ)
    {frames : List (Frame σ κ)}
    (hgoes : ∀ x rest, Holds inside x rest (m.stack t) → ∃ rest', Holds inside x rest' frames ∧
      Code.Reaches (rest, m.shared) (rest', shared)) :
    Serialized inside s ({ m with shared }.put t frames) xs where
  free hfree := nomatch howner.symm.trans hfree
  others r hr := by
    have hrt : r ≠ t := fun he => hr (he ▸ howner)
    rw [put_stack hrt]
    exact h.others r hr
  held r hr := by
    obtain rfl : t = r := Option.some.inj (howner.symm.trans hr)
    obtain ⟨before, x, rest, hxs, hthread, hholds, hreaches⟩ := h.held t howner
    obtain ⟨rest', hholds', hreaches'⟩ := hgoes x.call rest hholds
    refine ⟨before, x, rest', hxs, hthread, ?_, hreaches.trans hreaches'⟩
    simpa [put] using hholds'

/-- A thread takes the lock, which enters a section. -/
theorem take (h : Serialized inside s m xs) (hnobody : m.owner = none) {c : κ} {inline : Bool}
    {rest : Code σ} {frames : List (Frame σ κ)}
    (hrest : rest.balanced (inside c) true = true) (hframes : Free inside frames) :
    Serialized inside s ({ m with owner := some t }.put t (.code c inline rest :: frames))
      (xs ++ [⟨t, c, rest⟩]) where
  free hfree := nomatch hfree
  others r hr := by
    have hrt : r ≠ t := fun he => hr (he ▸ rfl)
    rw [put_stack hrt]
    exact h.others r (by simp [hnobody])
  held r hr := by
    obtain rfl : t = r := Option.some.inj hr
    refine ⟨xs, _, rest, rfl, rfl, ?_, ?_⟩
    · simpa [put] using Holds.top hrest hframes
    · show Code.Reaches (rest, serial s xs) (rest, m.shared)
      rw [h.free hnobody]

/-- The owner unlocks, which ends its section. -/
theorem leave (h : Serialized inside s m xs) (howner : m.owner = some t) {c : κ} {inline : Bool}
    {rest : Code σ} {frames : List (Frame σ κ)}
    (hstack : m.stack t = .code c inline (.unlock rest) :: frames) :
    Serialized inside s ({ m with owner := none }.put t (.code c inline rest :: frames)) xs := by
  obtain ⟨before, x, rest', hxs, -, hholds, hreaches⟩ := h.held t howner
  rw [hstack] at hholds
  cases hholds with
  | nested hcode _ => cases hcode
  | top hrest hframes =>
      refine ⟨fun _ => ?_, fun r hr => ?_, fun r hr => nomatch hr⟩
      · show m.shared = serial s xs
        rw [hxs, serial_concat]
        exact hreaches.release_eq
      · by_cases hrt : r = t
        · subst hrt
          have hgoes : Free inside (.code x.call inline rest :: frames) :=
            Free.cons.mpr ⟨hrest, hframes⟩
          simpa [put] using hgoes
        · rw [put_stack hrt]
          exact h.others r fun he => hrt (Option.some.inj (he.symm.trans howner))

omit [DecidableEq τ] in
/-- Only `lock` enters a section. -/
theorem entered_nil {c : κ} {inline : Bool} {code : Code σ} {frames : List (Frame σ κ)}
    (hstack : m.stack t = .code c inline code :: frames) (hcode : ∀ rest, code ≠ .lock rest) :
    xs ++ (m.enters (.act t)).toList = xs := by
  have hnone : m.enters (.act t) = none := by
    cases code with
    | lock rest => exact absurd rfl (hcode rest)
    | _ => simp only [enters, hstack]
  rw [hnone, Option.toList_none, List.append_nil]

/-- An action of a thread that has the lock, for this call or for one further out. -/
theorem act_held (h : Serialized inside s m xs) (howner : m.owner = some t) {c : κ} {inline : Bool}
    {code : Code σ} {frames : List (Frame σ κ)} (hstack : m.stack t = .code c inline code :: frames)
    (hact : m.act t c inline frames code = some m') : Serialized inside s m' xs := by
  cases code with
  | lock rest =>
      obtain ⟨hnobody, -⟩ := guard_iff.mp hact
      cases howner.symm.trans hnobody
  | unlock rest =>
      obtain ⟨-, rfl⟩ := guard_iff.mp hact
      exact h.leave howner hstack
  | done =>
      refine Option.some.inj hact ▸ h.put_held howner m.shared fun x rest hholds => ?_
      rw [hstack] at hholds
      cases hholds with
      | top hrest _ => cases hrest
      | nested _ hframes => exact ⟨rest, hframes, .refl⟩
  | update f rest =>
      refine Option.some.inj hact ▸ h.put_held howner (f m.shared) fun x rest' hholds => ?_
      rw [hstack] at hholds
      cases hholds with
      | top hrest hframes => exact ⟨rest, .top hrest hframes, .single (.update ..)⟩
      | nested hcode _ => cases hcode
  | test p yes no =>
      refine Option.some.inj hact ▸ h.put_held howner m.shared fun x rest' hholds => ?_
      rw [hstack] at hholds
      cases hholds with
      | top hrest hframes =>
          obtain ⟨-, hboth⟩ := Bool.and_eq_true_iff.mp hrest
          obtain ⟨hyes, hno⟩ := Bool.and_eq_true_iff.mp hboth
          refine ⟨_, .top ?_ hframes, .single (.test ..)⟩
          split
          · exact hyes
          · exact hno
      | nested hcode _ => cases hcode
  | create rest =>
      refine Option.some.inj hact ▸ h.put_held howner m.shared fun x rest' hholds => ?_
      rw [hstack] at hholds
      cases hholds with
      | top hrest hframes => exact ⟨rest, .top hrest hframes, .single (.create ..)⟩
      | nested hcode hframes => exact ⟨rest', .nested hcode hframes, .refl⟩
  | invoke rest =>
      have hgoes : ∀ x rest', Holds inside x rest' (m.stack t) → ∃ rest'',
          Holds inside x rest'' (.code c inline rest :: frames) ∧
            Code.Reaches (rest', m.shared) (rest'', m.shared) := by
        intro x rest' hholds
        rw [hstack] at hholds
        cases hholds with
        | top hrest hframes =>
            exact ⟨rest, .top (Bool.and_eq_true_iff.mp hrest).2 hframes, .single (.invoke ..)⟩
        | nested hcode hframes =>
            exact ⟨rest', .nested (Bool.and_eq_true_iff.mp hcode).2 hframes, .refl⟩
      simp only [Machine.act] at hact
      split at hact
      · refine Option.some.inj hact ▸ h.put_held howner m.shared fun x rest' hholds => ?_
        obtain ⟨rest'', hnext, hreaches⟩ := hgoes x rest' hholds
        exact ⟨rest'', .callback hnext, hreaches⟩
      · exact Option.some.inj hact ▸ h.put_held howner m.shared hgoes
  | wait ready rest =>
      obtain ⟨-, rfl⟩ := guard_iff.mp hact
      refine h.put_held howner m.shared fun x rest' hholds => ?_
      rw [hstack] at hholds
      cases hholds with
      | top hrest _ => cases hrest
      | nested hcode hframes =>
          exact ⟨rest', .nested (Bool.and_eq_true_iff.mp hcode).2 hframes, .refl⟩
/-- Without the lock a thread can only take it, or do what does not need it. -/
theorem act_free (h : Serialized inside s m xs) (howner : m.owner ≠ some t) {c : κ} {inline : Bool}
    {code : Code σ} {frames : List (Frame σ κ)} (hstack : m.stack t = .code c inline code :: frames)
    (hact : m.act t c inline frames code = some m') :
    Serialized inside s m' (xs ++ (m.enters (.act t)).toList) := by
  have hfree := h.others t howner
  rw [hstack] at hfree
  obtain ⟨hcode, hframes⟩ := Free.cons.mp hfree
  cases code with
  | lock rest =>
      obtain ⟨hnobody, rfl⟩ := guard_iff.mp hact
      have henters : m.enters (.act t) = some ⟨t, c, rest⟩ := by simp only [enters, hstack]
      rw [henters]
      exact h.take hnobody (Bool.and_eq_true_iff.mp hcode).2 hframes
  | unlock rest | update f rest | test p yes no => cases hcode
  | done =>
      rw [entered_nil hstack (fun _ h => by cases h)]
      exact Option.some.inj hact ▸ h.put_free howner hframes
  | create rest =>
      rw [entered_nil hstack (fun _ h => by cases h)]
      exact Option.some.inj hact ▸ h.put_free howner (Free.cons.mpr ⟨hcode, hframes⟩)
  | invoke rest =>
      rw [entered_nil hstack (fun _ h => by cases h)]
      have hrest : Free inside (.code c inline rest :: frames) :=
        Free.cons.mpr ⟨(Bool.and_eq_true_iff.mp hcode).2, hframes⟩
      simp only [Machine.act] at hact
      split at hact
      · exact Option.some.inj hact ▸ h.put_free howner (Free.callback.mpr hrest)
      · exact Option.some.inj hact ▸ h.put_free howner hrest
  | wait ready rest =>
      rw [entered_nil hstack (fun _ h => by cases h)]
      obtain ⟨-, rfl⟩ := guard_iff.mp hact
      exact h.put_free howner (Free.cons.mpr ⟨(Bool.and_eq_true_iff.mp hcode).2, hframes⟩)

/-- **An action of balanced code** keeps the sections atomic. -/
theorem act (h : Serialized inside s m xs) {c : κ} {inline : Bool} {code : Code σ}
    {frames : List (Frame σ κ)} (hstack : m.stack t = .code c inline code :: frames)
    (hact : m.act t c inline frames code = some m') :
    Serialized inside s m' (xs ++ (m.enters (.act t)).toList) := by
  by_cases howner : m.owner = some t
  · rw [entered_nil hstack fun rest hlock => ?_]
    · exact h.act_held howner hstack hact
    · -- nobody takes a lock that is taken
      subst hlock
      obtain ⟨hnobody, -⟩ := guard_iff.mp hact
      cases howner.symm.trans hnobody
  · exact h.act_free howner hstack hact

/-- **One step** keeps the sections atomic. -/
theorem step (hbody : ∀ c, (body c).balanced (inside c) false = true)
    (h : Serialized inside s m xs) {l : Label τ κ} (hstep : Machine.step body m l = some m') :
    Serialized inside s m' (xs ++ (m.enters l).toList) := by
  cases l with
  | act t =>
      simp only [Machine.step] at hstep
      split at hstep
      · rename_i c inline code frames hstack
        exact h.act hstack hstep
      · cases hstep
  | call t c inline =>
      rw [show m.enters (.call t c inline) = none from rfl, Option.toList_none, List.append_nil]
      have hnext : m' = m.put t (.code c inline (body c) :: m.stack t) := by
        simp only [Machine.step] at hstep
        split at hstep
        · exact (Option.some.inj hstep).symm
        · exact (Option.some.inj hstep).symm
        · cases hstep
      subst hnext
      by_cases howner : m.owner = some t
      · exact h.put_held howner m.shared fun x rest hholds =>
          ⟨rest, .nested (hbody c) hholds, .refl⟩
      · exact h.put_free howner (Free.cons.mpr ⟨hbody c, h.others t howner⟩)
  | ret t =>
      rw [show m.enters (.ret t) = none from rfl, Option.toList_none, List.append_nil]
      simp only [Machine.step] at hstep
      split at hstep
      · rename_i frames hstack
        by_cases howner : m.owner = some t
        · refine Option.some.inj hstep ▸ h.put_held howner m.shared fun x rest hholds => ?_
          rw [hstack] at hholds
          cases hholds with
          | callback hframes => exact ⟨rest, hframes, .refl⟩
        · have hfree := h.others t howner
          rw [hstack] at hfree
          exact Option.some.inj hstep ▸ h.put_free howner (Free.callback.mp hfree)
      · cases hstep

/-- **A run** keeps the sections atomic. -/
theorem run (hbody : ∀ c, (body c).balanced (inside c) false = true)
    (h : Serialized inside s m xs) {ls : List (Label τ κ)}
    (hrun : Transition.run (Machine.step body) m ls = some m') :
    Serialized inside s m' (xs ++ entered body m ls) := by
  induction ls generalizing m xs with
  | nil =>
      obtain rfl := Option.some.inj hrun
      rwa [entered, List.append_nil]
  | cons l ls ih =>
      obtain ⟨u, hu, hls⟩ := run_cons.mp hrun
      have hrest := ih (h.step hbody hu) hls
      rw [List.append_assoc] at hrest
      simpa only [entered, hu] using hrest

end Serialized

/-- **Critical sections are atomic.** Let the code of every call be balanced. Whenever nobody has
the lock, the shared state is what the sections entered so far leave when they run one after the
other, in the order in which they took the lock. -/
theorem shared_eq_serial (hbody : ∀ c, (body c).balanced (inside c) false = true)
    {ls : List (Label τ κ)} (hrun : Transition.run (step body) (init s) ls = some m)
    (hfree : m.owner = none) : m.shared = serial s (entered body (init s) ls) :=
  ((Serialized.init s).run hbody hrun).free hfree

/-! ## Calls with one section -/

/-- The calls that a thread makes. -/
def calls (t : τ) (ls : List (Label τ κ)) : List κ :=
  ls.flatMap fun l =>
    match l with
    | .call r c _ => if r = t then [c] else []
    | _ => []

/-- The calls of a thread whose section is among these. -/
def callsOf (t : τ) (xs : List (Section σ τ κ)) : List κ :=
  (xs.filter fun x => x.thread = t ∧ x.code.idle = false).map (·.call)

omit [DecidableEq τ] in
/-- The innermost call, when its section is still to come. -/
def pending : List (Frame σ κ) → List κ
  | .code c _ (.lock x) :: _ => if x.idle then [] else [c]
  | _ => []

/-- The sections of the call are over or are the ones that do nothing. -/
def FramePast : Frame σ κ → Prop
  | .code _ _ rest => rest.Past
  | .callback => True

/-- Only the innermost call can be before its section. -/
def Ordered (body : κ → Code σ) : List (Frame σ κ) → Prop
  | [] => True
  | .callback :: frames => ∀ f ∈ frames, FramePast f
  | .code c _ rest :: frames => (rest = body c ∨ rest.Past) ∧ ∀ f ∈ frames, FramePast f

omit [DecidableEq τ] in
/-- Calls that are past their sections wait for nothing. -/
theorem pending_of_past {frames : List (Frame σ κ)} (h : ∀ f ∈ frames, FramePast f) :
    pending frames = [] := by
  match frames with
  | [] | .callback :: _ => rfl
  | .code c inline code :: rest =>
      cases code with
      | lock x =>
          have hidle : x.idle = true := h _ List.mem_cons_self x List.mem_cons_self
          simp only [pending, hidle, if_true]
      | _ => rfl

omit [DecidableEq τ] in
/-- And no call among them is before its section. -/
theorem ordered_of_past {frames : List (Frame σ κ)} (h : ∀ f ∈ frames, FramePast f) :
    Ordered body frames := by
  match frames with
  | [] => trivial
  | .callback :: _ => exact fun f hf => h f (List.mem_cons_of_mem _ hf)
  | .code c inline code :: rest =>
      exact ⟨Or.inr (h _ List.mem_cons_self), fun f hf => h f (List.mem_cons_of_mem _ hf)⟩

/-- What an action makes of the frames of its thread. -/
theorem act_stack {c : κ} {inline : Bool} {code : Code σ} {frames : List (Frame σ κ)}
    (hact : m.act t c inline frames code = some m') :
    (code = .done ∧ m'.stack t = frames) ∨ ∃ rest, (∀ x, code = .lock x → rest = x) ∧
      rest.sections ⊆ code.sections ∧ (m'.stack t = .code c inline rest :: frames ∨
        m'.stack t = .callback :: .code c inline rest :: frames) := by
  cases code with
  | done =>
      refine Or.inl ⟨rfl, Option.some.inj hact ▸ ?_⟩
      simp [put]
  | lock rest | unlock rest | wait ready rest =>
      obtain ⟨-, rfl⟩ := guard_iff.mp hact
      exact Or.inr ⟨rest, by simp, by simp [Code.sections], Or.inl (by simp [put])⟩
  | update f rest | create rest =>
      refine Or.inr ⟨rest, by simp, List.Subset.refl _, Or.inl (Option.some.inj hact ▸ ?_)⟩
      simp [put]
  | test p yes no =>
      refine Or.inr ⟨if p m.shared then yes else no, by simp, ?_, Or.inl ?_⟩
      · split <;> simp [Code.sections]
      · exact Option.some.inj hact ▸ by simp [put]
  | invoke rest =>
      refine Or.inr ⟨rest, by simp, List.Subset.refl _, ?_⟩
      simp only [act] at hact
      split at hact
      · exact Or.inr (Option.some.inj hact ▸ by simp [put])
      · exact Or.inl (Option.some.inj hact ▸ by simp [put])

omit [DecidableEq τ] in
/-- The section that a step enters is its thread's. -/
theorem enters_thread {l : Label τ κ} {x : Section σ τ κ} (h : m.enters l = some x) :
    x.thread = l.thread := by
  unfold enters at h
  split at h
  · split at h
    · exact Option.some.inj h ▸ rfl
    · cases h
  · cases h

/-- Over this step the calls of `t` are those whose section it has entered and, if it is before that
of the innermost one, this one. -/
def KeepsOrder (body : κ → Code σ) (t : τ) (m : Machine σ τ κ) (l : Label τ κ)
    (m' : Machine σ τ κ) : Prop :=
  Ordered body (m'.stack t) ∧ pending (m.stack t) ++ calls t [l] =
    callsOf t (m.enters l).toList ++ pending (m'.stack t)

/-- A call. -/
theorem call_order (hbody : ∀ c, (body c).OneSection) {c : κ} {inline : Bool}
    (h : Ordered body (m.stack t)) (hstep : step body m (.call t c inline) = some m') :
    KeepsOrder body t m (.call t c inline) m' := by
  obtain ⟨first, hfirst, hbusy, -⟩ := hbody c
  have hnew : pending (.code c inline (body c) :: m.stack t) = [c] := by
    simp [pending, hfirst, hbusy]
  have hpast : ∀ f ∈ m.stack t, FramePast f := by
    simp only [step] at hstep
    split at hstep
    · rename_i hstack
      simp [hstack]
    · rename_i frames hstack
      simp only [hstack] at h ⊢
      exact List.forall_mem_cons.mpr ⟨trivial, h⟩
    · cases hstep
  have hnext : m'.stack t = .code c inline (body c) :: m.stack t := by
    simp only [step] at hstep
    split at hstep
    · exact Option.some.inj hstep ▸ Function.update_self ..
    · exact Option.some.inj hstep ▸ Function.update_self ..
    · cases hstep
  rw [KeepsOrder, hnext, hnew, pending_of_past hpast]
  exact ⟨⟨Or.inl rfl, hpast⟩, by simp [calls, callsOf, enters]⟩

/-- A callback returns. -/
theorem ret_order (h : Ordered body (m.stack t)) (hstep : step body m (.ret t) = some m') :
    KeepsOrder body t m (.ret t) m' := by
  simp only [step] at hstep
  split at hstep
  · rename_i frames hstack
    rw [hstack] at h
    obtain rfl := Option.some.inj hstep
    have hnext : (m.put t frames).stack t = frames := Function.update_self ..
    rw [KeepsOrder, hstack, hnext, pending_of_past h]
    exact ⟨ordered_of_past h, rfl⟩
  · cases hstep

/-- An action: whatever the code was, it is past its section afterwards. -/
theorem act_order (hbody : ∀ c, (body c).OneSection) (h : Ordered body (m.stack t))
    (hstep : step body m (.act t) = some m') : KeepsOrder body t m (.act t) m' := by
  simp only [step] at hstep
  split at hstep
  · rename_i c inline code frames hstack
    rw [hstack] at h
    obtain ⟨hcode, hframes⟩ := h
    have hcalls : calls t [(.act t : Label τ κ)] = [] := rfl
    rw [KeepsOrder, hstack, hcalls, List.append_nil]
    rcases act_stack hstep with ⟨rfl, hnext⟩ | ⟨rest, hlock, hsub, hnext⟩
    · rw [hnext, pending_of_past hframes]
      have hnone : m.enters (.act t) = none := by simp only [enters, hstack]
      exact ⟨ordered_of_past hframes, by rw [hnone]; rfl⟩
    · have hpast : rest.Past := by
        rcases hcode with hcode | hcode
        · obtain ⟨first, hfirst, -, hpast⟩ := hbody c
          rw [hlock first (hcode.trans hfirst)]
          exact hpast
        · exact fun x hx => hcode x (hsub hx)
      have hall : ∀ f ∈ m'.stack t, FramePast f := by
        intro f hf
        rcases hnext with hnext | hnext <;> rw [hnext] at hf <;>
          simp only [List.mem_cons] at hf
        · rcases hf with rfl | hf
          · exact hpast
          · exact hframes f hf
        · rcases hf with rfl | rfl | hf
          · trivial
          · exact hpast
          · exact hframes f hf
      refine ⟨ordered_of_past hall, ?_⟩
      rw [pending_of_past hall, List.append_nil]
      rcases hcode with rfl | hcode
      · obtain ⟨first, hfirst, hbusy, -⟩ := hbody c
        simp [enters, hstack, hfirst, pending, callsOf, hbusy]
      · have hold : pending (.code c inline code :: frames) = [] :=
          pending_of_past (List.forall_mem_cons.mpr ⟨hcode, hframes⟩)
        rw [hold]
        cases code with
        | lock x =>
            have hidle : x.idle = true := hcode x List.mem_cons_self
            simp [enters, hstack, callsOf, hidle]
        | _ => simp [enters, hstack, callsOf]
  · cases hstep

/-- A step of another thread. -/
theorem other_order {l : Label τ κ} (ht : t ≠ l.thread) (h : Ordered body (m.stack t))
    (hstep : step body m l = some m') : KeepsOrder body t m l m' := by
  have hstack : m'.stack t = m.stack t := (step_frame hstep).1 t ht
  have hcalls : calls t [l] = [] := by
    cases l with
    | call r c inline =>
        have hr : r ≠ t := fun he => ht he.symm
        simp [calls, hr]
    | act r | ret r => rfl
  have hothers : callsOf t (m.enters l).toList = [] := by
    cases henters : m.enters l with
    | none => rfl
    | some x =>
        have hx : x.thread ≠ t := fun he => ht (he.symm.trans (enters_thread henters))
        simp [callsOf, hx]
  rw [KeepsOrder, hstack, hcalls, hothers, List.append_nil, List.nil_append]
  exact ⟨h, rfl⟩

/-- **One step** of any thread. -/
theorem step_order (hbody : ∀ c, (body c).OneSection) {l : Label τ κ} (h : Ordered body (m.stack t))
    (hstep : step body m l = some m') : KeepsOrder body t m l m' := by
  by_cases ht : t = l.thread
  · subst ht
    cases l with
    | call t c inline => exact call_order hbody h hstep
    | ret t => exact ret_order h hstep
    | act t => exact act_order hbody h hstep
  · exact other_order ht h hstep

/-- **A run**, from any state whose calls are ordered. -/
theorem run_order (hbody : ∀ c, (body c).OneSection) {ls : List (Label τ κ)}
    (h : Ordered body (m.stack t)) (hrun : Transition.run (step body) m ls = some m') :
    pending (m.stack t) ++ calls t ls =
      callsOf t (entered body m ls) ++ pending (m'.stack t) := by
  induction ls generalizing m with
  | nil =>
      obtain rfl := Option.some.inj hrun
      exact List.append_nil _
  | cons l ls ih =>
      obtain ⟨u, hu, hls⟩ := run_cons.mp hrun
      obtain ⟨hordered, hone⟩ := step_order hbody h hu
      have hrest := ih hordered hls
      have hcalls : calls t (l :: ls) = calls t [l] ++ calls t ls := by simp [calls]
      have hxs : callsOf t (entered body m (l :: ls)) =
          callsOf t (m.enters l).toList ++ callsOf t (entered body u ls) := by
        simp [entered, hu, callsOf]
      rw [hcalls, hxs, ← List.append_assoc, hone, List.append_assoc, hrest, List.append_assoc]

/-- A section that is entered is the first one of its call or one that does nothing. -/
theorem entered_section (hbody : ∀ c, (body c).OneSection) {ls : List (Label τ κ)}
    (h : ∀ t, Ordered body (m.stack t)) {x : Section σ τ κ} (hx : x ∈ entered body m ls) :
    x.code.idle = true ∨ body x.call = .lock x.code := by
  induction ls generalizing m with
  | nil => cases hx
  | cons l ls ih =>
      rw [entered] at hx
      split at hx
      · rename_i u hu
        rcases List.mem_append.mp hx with hfirst | hrest
        · rw [Option.mem_toList] at hfirst
          unfold enters at hfirst
          split at hfirst
          · rename_i t
            split at hfirst
            · rename_i c inline rest frames hstack
              obtain rfl := Option.some.inj hfirst
              have hordered := h t
              rw [hstack] at hordered
              rcases hordered.1 with hcode | hpast
              · exact Or.inr hcode.symm
              · exact Or.inl (hpast rest List.mem_cons_self)
            · cases hfirst
          · cases hfirst
        · exact ih (fun t => (step_order hbody (h t) hu).1) hrest
      · cases hx

/-- **The sections are the calls.** Let every call take the lock at once, and do nothing in a later
section. The calls that a thread has made are those whose section it has entered, in the same order,
and the innermost one if its section is still to come. -/
theorem program_order (hbody : ∀ c, (body c).OneSection) {ls : List (Label τ κ)}
    (hrun : Transition.run (step body) (init s) ls = some m) (t : τ) :
    calls t ls = callsOf t (entered body (init s) ls) ++ pending (m.stack t) :=
  run_order (m := init s) hbody trivial hrun

omit [DecidableEq τ] in
/-- A section that is the first one of its call leaves what the call leaves, and one that does
nothing leaves everything. -/
theorem release_eq (hbalanced : ∀ c, (body c).balanced (inside c) false = true)
    (hone : ∀ c, (body c).OneSection) {x : Section σ τ κ}
    (hx : x.code.idle = true ∨ body x.call = .lock x.code) (s : σ) :
    x.code.release s = if x.code.idle then s else (body x.call).finish s := by
  rcases hx with hidle | hbody
  · cases hcode : x.code with
    | unlock rest => rfl
    | _ => simp [hcode, Code.idle] at hidle
  · obtain ⟨first, hfirst, hbusy, hpast⟩ := hone x.call
    obtain rfl : x.code = first := Code.lock.inj (hbody.symm.trans hfirst)
    have hlocked : x.code.balanced (inside x.call) true = true := by
      simpa [hbody, Code.balanced] using hbalanced x.call
    rw [hbusy, hbody]
    exact Code.release_eq_finish hlocked hpast s

/-- The calls whose sections these are, with the threads that make them. -/
def callsIn (xs : List (Section σ τ κ)) : List (τ × κ) :=
  (xs.filter fun x => x.code.idle = false).map fun x => (x.thread, x.call)

/-- The calls whose sections a run enters, in the order in which these take the lock. -/
def order (body : κ → Code σ) (m : Machine σ τ κ) (ls : List (Label τ κ)) : List (τ × κ) :=
  callsIn (entered body m ls)

/-- Calls one after the other. -/
def serially (body : κ → Code σ) (s : σ) (calls : List (τ × κ)) : σ :=
  calls.foldl (fun s x => (body x.2).finish s) s

omit [DecidableEq τ] in
/-- Sections one after the other are their calls one after the other. -/
theorem serial_eq_serially (hbalanced : ∀ c, (body c).balanced (inside c) false = true)
    (hone : ∀ c, (body c).OneSection)
    (hxs : ∀ x ∈ xs, x.code.idle = true ∨ body x.call = .lock x.code) (s : σ) :
    serial s xs = serially body s (callsIn xs) := by
  induction xs generalizing s with
  | nil => rfl
  | cons x xs ih =>
      obtain ⟨hx, hrest⟩ := List.forall_mem_cons.mp hxs
      have hfirst := release_eq hbalanced hone hx s
      have hnext : serial s (x :: xs) = serial (x.code.release s) xs := rfl
      rw [hnext, ih hrest, hfirst]
      cases hidle : x.code.idle <;> simp [callsIn, hidle, serially]

/-- **Calls are atomic.** Let the code of every call be balanced and take the lock at once, and do
nothing in a later section. Whenever nobody has the lock, the shared state is what the calls leave
one after the other. -/
theorem shared_eq_serially (hbalanced : ∀ c, (body c).balanced (inside c) false = true)
    (hone : ∀ c, (body c).OneSection) {ls : List (Label τ κ)}
    (hrun : Transition.run (step body) (init s) ls = some m) (hfree : m.owner = none) :
    m.shared = serially body s (order body (init s) ls) := by
  rw [shared_eq_serial hbalanced hrun hfree]
  exact serial_eq_serially hbalanced hone
    (fun x hx => entered_section (m := init s) hone (fun _ => trivial) hx) s

/-- The calls that are over stay in their places. -/
theorem order_append {first rest : List (Label τ κ)}
    (hrun : Transition.run (step body) m first = some m') :
    order body m (first ++ rest) = order body m first ++ order body m' rest := by
  simp [order, callsIn, entered_append hrun]

/-- The order has the calls of each thread as the thread has made them, but for one that waits for
the lock. -/
theorem order_calls (hone : ∀ c, (body c).OneSection) {ls : List (Label τ κ)}
    (hrun : Transition.run (step body) (init s) ls = some m) (t : τ) :
    calls t ls = ((order body (init s) ls).filter fun x => x.1 = t).map (·.2) ++
      pending (m.stack t) := by
  rw [program_order hone hrun t, callsOf, order, callsIn, List.filter_map, List.map_map,
    List.filter_filter]
  simp only [Bool.decide_and, Function.comp_def]

omit [DecidableEq τ] in
/-- A section that does nothing does not get to a callback. -/
theorem idle_of_reaches {x y : Code σ × σ} (h : Code.Reaches x y) (hidle : x.1.idle = true) :
    y.1.idle = true := by
  induction h with
  | refl => exact hidle
  | tail _ hgoes ih =>
      cases hgoes with
      | _ => cases ih

/-- **A callback under the lock** belongs to the call that took the lock last, which gets to it when
it is run after the others without anybody in between. -/
theorem invokes_of_inside (hbalanced : ∀ c, (body c).balanced (inside c) false = true)
    (hone : ∀ c, (body c).OneSection) {ls : List (Label τ κ)}
    (hrun : Transition.run (step body) (init s) ls = some m) {t : τ} {c : κ} {inline : Bool}
    {rest : Code σ} {frames : List (Frame σ κ)}
    (hstack : m.stack t = .code c inline (.invoke rest) :: frames) (hc : inside c = true) :
    ∃ before, order body (init s) ls = before ++ [(t, c)] ∧
      (body c).invokes (serially body s before) = true := by
  have hserial := (Serialized.init (κ := κ) s).run hbalanced hrun
  rw [List.nil_append] at hserial
  have howner : m.owner = some t := by
    by_contra howner
    have hfree := hserial.others t howner
    rw [hstack] at hfree
    simpa [Code.balanced, hc] using (Free.cons.mp hfree).1
  obtain ⟨before, x, rest', hxs, hthread, hholds, hreaches⟩ := hserial.held t howner
  rw [hstack] at hholds
  cases hholds with
  | nested hcode hframes => simp [Code.balanced, hc] at hcode
  | top hrest hframes =>
      have hsections : ∀ y ∈ before ++ [x], y.code.idle = true ∨ body y.call = .lock y.code :=
        fun y hy => entered_section (m := init s) hone (fun _ => trivial) (hxs ▸ hy)
      have hinvokes : x.code.invokes (serial s before) = true := hreaches.invokes_of rfl
      have hbusy : x.code.idle = false := by
        by_contra hidle
        exact Bool.false_ne_true (idle_of_reaches hreaches (eq_true_of_ne_false hidle))
      have hfirst : body x.call = .lock x.code :=
        (hsections x (by simp)).resolve_left (by simp [hbusy])
      have hbefore := serial_eq_serially hbalanced hone
        (fun y hy => hsections y (List.mem_append_left _ hy)) s
      refine ⟨callsIn before, ?_, ?_⟩
      · simp [order, hxs, callsIn, hbusy, hthread]
      · rw [← hbefore, hfirst]
        exact hinvokes

end Machine

end LockScope
