import Mathlib.Data.List.Basic

/-!
# Runs of a partial step function

A system is a function `step : σ → ℓ → Option σ`; the label names the step and `none` means that
the step is not allowed in that state. `run` takes a list of labels. `Visits` and `Takes` name the
states a run passes through and the steps it takes, so that a property of every state of a run can
be compared with a condition on every step of it. Read `run_invariant` and `visits_iff_takes` first.
-/

namespace Transition

universe u v

variable {σ : Type u} {ℓ : Type v} {step : σ → ℓ → Option σ}

/-- Take the labelled steps in order; `none` as soon as one of them is not allowed. -/
def run (step : σ → ℓ → Option σ) : σ → List ℓ → Option σ
  | s, [] => some s
  | s, l :: ls => (step s l).bind fun t => run step t ls

/-- The run labelled `ls` from `s` passes through the state `t`, its ends included. -/
def Visits (step : σ → ℓ → Option σ) (s : σ) (ls : List ℓ) (t : σ) : Prop :=
  ∃ before, before <+: ls ∧ run step s before = some t

/-- The run labelled `ls` from `s` takes the step `l` in the state `t`. -/
def Takes (step : σ → ℓ → Option σ) (s : σ) (ls : List ℓ) (t : σ) (l : ℓ) : Prop :=
  ∃ before next, before ++ [l] <+: ls ∧ run step s before = some t ∧ step t l = some next

/-- A step behind a guard is allowed exactly when the guard holds, and leads to the state named. -/
theorem guard_iff {p : Prop} [Decidable p] {s t : σ} :
    (if p then some s else none) = some t ↔ p ∧ s = t := by
  rw [Option.ite_none_right_eq_some, Option.some.injEq]

/-- Behind a guard, a step of a part of the system is one of the system. -/
theorem guard_map_iff {τ : Type*} {p : Prop} [Decidable p] {part : Option τ} {whole : τ → σ}
    {t : σ} : (if p then part.map whole else none) = some t ↔
      p ∧ ∃ u, part = some u ∧ whole u = t := by
  rw [Option.ite_none_right_eq_some, Option.map_eq_some_iff]

@[simp] theorem run_nil (s : σ) : run step s [] = some s := rfl

/-- A run that starts with `l` first takes that step. -/
theorem run_cons {s t : σ} {l : ℓ} {ls : List ℓ} :
    run step s (l :: ls) = some t ↔ ∃ u, step s l = some u ∧ run step u ls = some t :=
  Option.bind_eq_some_iff

/-- A run of two parts passes through the end of the first. -/
theorem run_append {s t : σ} {first rest : List ℓ} :
    run step s (first ++ rest) = some t ↔
      ∃ u, run step s first = some u ∧ run step u rest = some t := by
  induction first generalizing s with
  | nil => simp
  | cons l ls ih =>
      simp only [List.cons_append, run_cons, ih]
      constructor
      · intro hruns
        obtain ⟨v, hv, u, hu, ht⟩ := hruns
        exact ⟨u, ⟨v, hv, hu⟩, ht⟩
      · intro hruns
        obtain ⟨u, ⟨v, hv, hu⟩, ht⟩ := hruns
        exact ⟨v, hv, u, hu, ht⟩

/-- What holds at the start and is kept by the steps of a run holds at its end. -/
theorem run_invariant_of_mem {I : σ → Prop} {s t : σ} {ls : List ℓ}
    (hstep : ∀ s l t, l ∈ ls → I s → step s l = some t → I t) (hs : I s)
    (hrun : run step s ls = some t) : I t := by
  induction ls generalizing s with
  | nil => exact Option.some.inj hrun ▸ hs
  | cons l ls ih =>
      obtain ⟨u, hu, hrest⟩ := run_cons.mp hrun
      have hfirst : I u := hstep s l u List.mem_cons_self hs hu
      exact ih (fun s k t hk => hstep s k t (List.mem_cons_of_mem l hk)) hfirst hrest

/-- What holds at the start and is kept by every step holds at the end of every run. -/
theorem run_invariant {I : σ → Prop} (hstep : ∀ s l t, I s → step s l = some t → I t)
    {s t : σ} {ls : List ℓ} (hs : I s) (hrun : run step s ls = some t) : I t :=
  run_invariant_of_mem (fun s l t _ => hstep s l t) hs hrun

/-- A run whose steps all lower a measure is no longer than the measure allows. -/
theorem run_length_le (measure : σ → Nat) {I : σ → Prop} {s t : σ} {ls : List ℓ}
    (hstep : ∀ s l t, l ∈ ls → I s → step s l = some t → I t ∧ measure t < measure s) (hs : I s)
    (hrun : run step s ls = some t) : ls.length + measure t ≤ measure s := by
  induction ls generalizing s with
  | nil =>
      obtain rfl := Option.some.inj hrun
      simp
  | cons l ls ih =>
      obtain ⟨u, hu, hrest⟩ := run_cons.mp hrun
      obtain ⟨hfirst, hless⟩ := hstep s l u List.mem_cons_self hs hu
      have hlength := ih (fun s k t hk => hstep s k t (List.mem_cons_of_mem l hk)) hfirst hrest
      rw [List.length_cons]
      omega

/-- What every two equal steps keep holds at the ends of two equally labelled runs. -/
theorem run_lockstep {R : σ → σ → Prop}
    (hstep : ∀ s t l s' t', R s t → step s l = some s' → step t l = some t' → R s' t')
    {s t s' t' : σ} {ls : List ℓ} (h : R s t) (hs : run step s ls = some s')
    (ht : run step t ls = some t') : R s' t' := by
  induction ls generalizing s t with
  | nil =>
      obtain rfl := Option.some.inj hs
      obtain rfl := Option.some.inj ht
      exact h
  | cons l ls ih =>
      obtain ⟨u, hu, hsrest⟩ := run_cons.mp hs
      obtain ⟨v, hv, htrest⟩ := run_cons.mp ht
      exact ih (hstep s t l u v h hu hv) hsrest htrest

/-! ## States visited and steps taken -/

/-- A step is taken in a state that is visited. -/
theorem Takes.visits {s t : σ} {ls : List ℓ} {l : ℓ} (h : Takes step s ls t l) :
    Visits step s ls t := by
  obtain ⟨before, next, hbefore, hrun, -⟩ := h
  exact ⟨before, (List.prefix_append before [l]).trans hbefore, hrun⟩

/-- The step that is taken leads to a state that is visited. -/
theorem Takes.visits_next {s t next : σ} {ls : List ℓ} {l : ℓ} (h : Takes step s ls t l)
    (hstep : step t l = some next) : Visits step s ls next := by
  obtain ⟨before, -, hbefore, hrun, -⟩ := h
  exact ⟨before ++ [l], hbefore,
    run_append.mpr ⟨t, hrun, run_cons.mpr ⟨next, hstep, rfl⟩⟩⟩

/-- A step of the first part of a run is one of the run. -/
theorem Takes.append {s t : σ} {ls : List ℓ} {l : ℓ} (h : Takes step s ls t l) (more : List ℓ) :
    Takes step s (ls ++ more) t l := by
  obtain ⟨before, next, hprefix, htaken⟩ := h
  exact ⟨before, next, hprefix.trans (List.prefix_append ls more), htaken⟩

/-- A run visits its first state, and then what the rest of it visits. -/
theorem visits_cons {s t : σ} {l : ℓ} {ls : List ℓ} :
    Visits step s (l :: ls) t ↔ t = s ∨ ∃ u, step s l = some u ∧ Visits step u ls t := by
  constructor
  · intro hvisits
    obtain ⟨before, hprefix, hrun⟩ := hvisits
    cases before with
    | nil => exact Or.inl (Option.some.inj hrun).symm
    | cons k ks =>
        obtain ⟨rfl, hks⟩ := List.cons_prefix_cons.mp hprefix
        obtain ⟨u, hu, hrest⟩ := run_cons.mp hrun
        exact Or.inr ⟨u, hu, ks, hks, hrest⟩
  · intro hvisits
    rcases hvisits with rfl | ⟨u, hu, before, hprefix, hrun⟩
    · exact ⟨[], List.nil_prefix, rfl⟩
    · exact ⟨l :: before, List.cons_prefix_cons.mpr ⟨rfl, hprefix⟩, run_cons.mpr ⟨u, hu, hrun⟩⟩

/-- A run takes its first step, and then the steps of the rest of it. -/
theorem takes_cons {s t : σ} {k l : ℓ} {ls : List ℓ} :
    Takes step s (k :: ls) t l ↔
      (t = s ∧ l = k ∧ ∃ next, step s k = some next) ∨
        ∃ u, step s k = some u ∧ Takes step u ls t l := by
  constructor
  · intro htakes
    obtain ⟨before, next, hprefix, hrun, hstep⟩ := htakes
    cases before with
    | nil =>
        obtain ⟨rfl, -⟩ := List.cons_prefix_cons.mp hprefix
        obtain rfl := Option.some.inj hrun
        exact Or.inl ⟨rfl, rfl, next, hstep⟩
    | cons j js =>
        obtain ⟨rfl, hjs⟩ := List.cons_prefix_cons.mp hprefix
        obtain ⟨u, hu, hrest⟩ := run_cons.mp hrun
        exact Or.inr ⟨u, hu, js, next, hjs, hrest, hstep⟩
  · intro htakes
    rcases htakes with ⟨rfl, rfl, next, hstep⟩ | ⟨u, hu, before, next, hprefix, hrun, hstep⟩
    · exact ⟨[], next, List.cons_prefix_cons.mpr ⟨rfl, List.nil_prefix⟩, rfl, hstep⟩
    · exact ⟨k :: before, next, List.cons_prefix_cons.mpr ⟨rfl, hprefix⟩,
        run_cons.mpr ⟨u, hu, hrun⟩, hstep⟩

/-- Nothing is visited by the empty run but its state. -/
theorem visits_nil {s t : σ} : Visits step s [] t ↔ t = s := by
  constructor
  · intro hvisits
    obtain ⟨before, hprefix, hrun⟩ := hvisits
    rw [List.prefix_nil.mp hprefix] at hrun
    exact (Option.some.inj hrun).symm
  · rintro rfl
    exact ⟨[], List.nil_prefix, rfl⟩

/-- What holds at the start and is kept by the steps that meet `C` holds at the end of a run whose
steps all meet it. -/
theorem run_invariant_of_takes {I : σ → Prop} {C : σ → ℓ → Prop}
    (hstep : ∀ s l t, I s → C s l → step s l = some t → I t) {s t : σ} {ls : List ℓ} (hs : I s)
    (hC : ∀ u l, Takes step s ls u l → C u l) (hrun : run step s ls = some t) : I t := by
  induction ls generalizing s with
  | nil => exact Option.some.inj hrun ▸ hs
  | cons l ls ih =>
      obtain ⟨u, hu, hrest⟩ := run_cons.mp hrun
      have hmeets : C s l := hC s l (takes_cons.mpr (Or.inl ⟨rfl, rfl, u, hu⟩))
      have hfirst : I u := hstep s l u hs hmeets hu
      exact ih hfirst (fun v k hk => hC v k (takes_cons.mpr (Or.inr ⟨u, hu, hk⟩))) hrest

/-- The steps that meet a condition. -/
def checked (C : σ → ℓ → Prop) [∀ s l, Decidable (C s l)] (step : σ → ℓ → Option σ) (s : σ)
    (l : ℓ) : Option σ := if C s l then step s l else none

/-- A run of checked steps is a run whose steps all meet the condition. -/
theorem run_of_checked {C : σ → ℓ → Prop} [∀ s l, Decidable (C s l)] {s t : σ} {ls : List ℓ}
    (hrun : run (checked C step) s ls = some t) :
    run step s ls = some t ∧ ∀ u l, Takes step s ls u l → C u l := by
  induction ls generalizing s with
  | nil =>
      refine ⟨hrun, fun u l htakes => ?_⟩
      obtain ⟨before, next, hprefix, -⟩ := htakes
      simp at hprefix
  | cons k ls ih =>
      obtain ⟨u, hu, hrest⟩ := run_cons.mp hrun
      obtain ⟨hmeets, hk⟩ := Option.ite_none_right_eq_some.mp hu
      obtain ⟨hlast, hall⟩ := ih hrest
      refine ⟨run_cons.mpr ⟨u, hk, hlast⟩, fun v l htakes => ?_⟩
      rcases takes_cons.mp htakes with ⟨rfl, rfl, -⟩ | ⟨w, hw, hlater⟩
      · exact hmeets
      · obtain rfl := Option.some.inj (hk.symm.trans hw)
        exact hall v l hlater

/-- **Exact conditions.** Let `I` be kept by every step that meets `C`, let it imply `P`, and let
every step that misses `C` lead from `I` to a state without `P`. Then the runs on which `P` always
holds are exactly those whose steps all meet `C`. -/
theorem visits_iff_takes {I P : σ → Prop} {C : σ → ℓ → Prop}
    (hkeep : ∀ s l t, I s → C s l → step s l = some t → I t)
    (hholds : ∀ s, I s → P s)
    (hbreak : ∀ s l t, I s → ¬ C s l → step s l = some t → ¬ P t)
    {s : σ} (hs : I s) (ls : List ℓ) :
    (∀ t, Visits step s ls t → P t) ↔ ∀ t l, Takes step s ls t l → C t l := by
  induction ls generalizing s with
  | nil =>
      constructor
      · intro _ t l htakes
        obtain ⟨before, next, hprefix, -⟩ := htakes
        simp at hprefix
      · intro _ t ht
        exact visits_nil.mp ht ▸ hholds s hs
  | cons k ls ih =>
      constructor
      · intro hall t l htakes
        have hfirst : ∀ u, step s k = some u → C s k := fun u hu => by
          by_contra hC
          exact hbreak s k u hs hC hu
            (hall u (visits_cons.mpr (Or.inr ⟨u, hu, [], List.nil_prefix, rfl⟩)))
        rcases takes_cons.mp htakes with ⟨rfl, rfl, next, hnext⟩ | ⟨u, hu, hrest⟩
        · exact hfirst next hnext
        · exact (ih (hkeep s k u hs (hfirst u hu) hu)).mp
            (fun v hv => hall v (visits_cons.mpr (Or.inr ⟨u, hu, hv⟩))) t l hrest
      · intro hall t hvisits
        rcases visits_cons.mp hvisits with rfl | ⟨u, hu, hrest⟩
        · exact hholds t hs
        · have hC : C s k := hall s k (takes_cons.mpr (Or.inl ⟨rfl, rfl, u, hu⟩))
          exact (ih (hkeep s k u hs hC hu)).mpr
            (fun v l hv => hall v l (takes_cons.mpr (Or.inr ⟨u, hu, hv⟩))) t hrest

end Transition
