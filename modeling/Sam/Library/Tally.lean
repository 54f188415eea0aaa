import Mathlib.Data.List.Nodup
import Mathlib.Logic.Function.Basic

/-!
# Counting and listing those in a given state

`tally ks f p` counts the members of a list that a map puts into states with a property. The lemmas
say how the count changes when one member moves to another state, joins the list or leaves it, so
that an equation between counts can be kept step by step. `Roster ks f p` says that a list holds
exactly those in such a state, each of them once; it is kept by the same steps.
-/

namespace Tally

universe u v

variable {κ : Type u} {α : Type v}

/-- How many members of `ks` are in a state with the property `p`. -/
def tally (ks : List κ) (f : κ → α) (p : α → Prop) [DecidablePred p] : Nat :=
  ks.countP fun k => p (f k)

/-- What a member in this state counts. -/
def weight (p : α → Prop) [DecidablePred p] (a : α) : Nat := if p a then 1 else 0

section

variable {p : α → Prop} [DecidablePred p] {ks : List κ} {f g : κ → α} {k : κ} {a : α}

@[simp] theorem weight_of (h : p a) : weight p a = 1 := if_pos h

@[simp] theorem weight_of_not (h : ¬ p a) : weight p a = 0 := if_neg h

@[simp] theorem tally_nil : tally [] f p = 0 := rfl

theorem tally_cons : tally (k :: ks) f p = tally ks f p + weight p (f k) := by
  by_cases hk : p (f k) <;> simp [tally, weight, hk]

/-- A member that joins. -/
theorem tally_concat : tally (ks ++ [k]) f p = tally ks f p + weight p (f k) := by
  by_cases hk : p (f k) <;> simp [tally, weight, hk]

/-- The states of the others do not matter. -/
theorem tally_congr (h : ∀ k ∈ ks, f k = g k) : tally ks f p = tally ks g p :=
  List.countP_congr fun k hk => by rw [h k hk]

/-- Nobody is in such a state. -/
theorem tally_eq_zero : tally ks f p = 0 ↔ ∀ k ∈ ks, ¬ p (f k) := by
  simp [tally, List.countP_eq_zero]

/-- Somebody is in such a state. -/
theorem tally_pos (hk : k ∈ ks) (h : p (f k)) : 0 < tally ks f p :=
  List.countP_pos_iff.mpr ⟨k, hk, decide_eq_true h⟩

variable [DecidableEq κ]

/-- A member that leaves. -/
theorem tally_erase (hk : k ∈ ks) : tally (ks.erase k) f p + weight p (f k) = tally ks f p := by
  have hperm : ks.Perm (k :: ks.erase k) := List.perm_cons_erase hk
  rw [← tally_cons]
  exact (hperm.countP_eq _).symm

/-- Somebody who is not counted may be in any state. -/
theorem tally_update_of_not_mem (hk : k ∉ ks) :
    tally ks (Function.update f k a) p = tally ks f p := by
  refine tally_congr fun j hj => ?_
  have hne : j ≠ k := fun he => hk (he ▸ hj)
  exact Function.update_of_ne hne a f

/-- **One member moves** to another state. -/
theorem tally_update (hnodup : ks.Nodup) (hk : k ∈ ks) (a : α) :
    tally ks (Function.update f k a) p + weight p (f k) = tally ks f p + weight p a := by
  have hout : k ∉ ks.erase k := fun hmem => (hnodup.mem_erase_iff.mp hmem).1 rfl
  have hbefore := tally_erase (f := f) (p := p) hk
  have hafter := tally_erase (f := Function.update f k a) (p := p) hk
  rw [tally_update_of_not_mem hout, Function.update_self] at hafter
  omega

/-- **Two members trade places.** -/
theorem tally_swap {i j : κ} (hnodup : ks.Nodup) (hi : i ∈ ks) (hj : j ∈ ks) :
    tally ks (Function.update (Function.update f i (f j)) j (f i)) p = tally ks f p := by
  by_cases hij : j = i
  · subst hij
    rw [Function.update_idem, Function.update_eq_self]
  · have hfirst := tally_update (f := f) (p := p) hnodup hi (f j)
    have hsecond := tally_update (f := Function.update f i (f j)) (p := p) hnodup hj (f i)
    rw [Function.update_of_ne hij] at hsecond
    omega

/-- **A member that joins takes the place of another one**, which goes where nobody is counted. -/
theorem tally_replace {i j : κ} (hnodup : ks.Nodup) (hi : i ∉ ks) (hj : j ∈ ks) (ha : ¬ p a) :
    tally (ks ++ [i]) (Function.update (Function.update f i (f j)) j a) p = tally ks f p := by
  have hij : i ≠ j := fun he => hi (he ▸ hj)
  have hout := tally_update_of_not_mem (f := f) (p := p) (a := f j) hi
  have hmove := tally_update (f := Function.update f i (f j)) (p := p) hnodup hj a
  rw [Function.update_of_ne hij.symm, weight_of_not ha] at hmove
  rw [tally_concat, Function.update_of_ne hij, Function.update_self]
  omega

/-- Two members of a count that is at most one are the same. -/
theorem eq_of_tally_le_one {i j : κ} (h : tally ks f p ≤ 1) (hi : i ∈ ks) (hj : j ∈ ks)
    (hpi : p (f i)) (hpj : p (f j)) : i = j := by
  by_contra hne
  have hrest := tally_erase (f := f) (p := p) hi
  have hleft : 0 < tally (ks.erase i) f p :=
    tally_pos ((List.mem_erase_of_ne (Ne.symm hne)).mpr hj) hpj
  rw [weight_of hpi] at hrest
  omega

/-- The sum over the members of what their states weigh. -/
def total : List κ → (κ → α) → (α → Nat) → Nat
  | [], _, _ => 0
  | k :: ks, f, w => w (f k) + total ks f w

variable {w : α → Nat}

omit [DecidableEq κ] in
/-- The states of the others do not matter. -/
theorem total_congr (h : ∀ k ∈ ks, f k = g k) : total ks f w = total ks g w := by
  induction ks with
  | nil => rfl
  | cons k ks ih =>
      show w (f k) + total ks f w = w (g k) + total ks g w
      rw [h k List.mem_cons_self, ih fun j hj => h j (List.mem_cons_of_mem k hj)]

omit [DecidableEq κ] in
/-- A bound for each of them is one for all. -/
theorem total_le {bound : Nat} (h : ∀ k ∈ ks, w (f k) ≤ bound) :
    total ks f w ≤ bound * ks.length := by
  induction ks with
  | nil => exact Nat.le_refl _
  | cons k ks ih =>
      have hfirst := h k List.mem_cons_self
      have hrest := ih fun j hj => h j (List.mem_cons_of_mem k hj)
      show w (f k) + total ks f w ≤ bound * (ks.length + 1)
      rw [Nat.mul_succ]
      omega

/-- One member moves to another state. -/
theorem total_update (hnodup : ks.Nodup) (hk : k ∈ ks) (a : α) :
    total ks (Function.update f k a) w + w (f k) = total ks f w + w a := by
  induction ks with
  | nil => exact absurd hk List.not_mem_nil
  | cons j ks ih =>
      obtain ⟨hout, hnodup⟩ := List.nodup_cons.mp hnodup
      show w (Function.update f k a j) + total ks (Function.update f k a) w + w (f k) =
        w (f j) + total ks f w + w a
      by_cases hj : j = k
      · subst hj
        have hsame : total ks (Function.update f j a) w = total ks f w := by
          refine total_congr fun i hi => ?_
          have hne : i ≠ j := fun he => hout (he ▸ hi)
          exact Function.update_of_ne hne a f
        rw [hsame, Function.update_self]
        omega
      · have hrest := ih hnodup ((List.mem_cons.mp hk).resolve_left (Ne.symm hj))
        rw [Function.update_of_ne hj]
        omega

/-- The list holds exactly those in a state with the property `p`, each of them once. -/
structure Roster (ks : List κ) (f : κ → α) (p : α → Prop) : Prop where
  nodup : ks.Nodup
  mem_iff : ∀ k, k ∈ ks ↔ p (f k)

end

namespace Roster

variable [DecidableEq κ] {p : α → Prop} {ks : List κ} {f : κ → α} {k : κ} {a b : α}

omit [DecidableEq κ] in
/-- Nobody is in such a state yet. -/
theorem empty (h : ∀ k, ¬ p (f k)) : Roster [] f p :=
  ⟨List.nodup_nil, fun k => iff_of_false List.not_mem_nil (h k)⟩

/-- Somebody moves between states that are both listed or both not. -/
theorem stay (h : Roster ks f p) (hk : f k = b) (hsame : p b ↔ p a) :
    Roster ks (Function.update f k a) p := by
  refine ⟨h.nodup, fun j => ?_⟩
  by_cases hj : j = k
  · subst hj
    rw [Function.update_self, h.mem_iff, hk, hsame]
  · rw [Function.update_of_ne hj, h.mem_iff]

/-- Somebody moves into such a state. -/
theorem join (h : Roster ks f p) (hk : f k = b) (hout : ¬ p b) (hin : p a) :
    Roster (ks ++ [k]) (Function.update f k a) p := by
  have hnew : k ∉ ks := fun hmem => hout (hk ▸ (h.mem_iff k).mp hmem)
  refine ⟨List.nodup_append.mpr ⟨h.nodup, List.nodup_singleton k, ?_⟩, fun j => ?_⟩
  · rintro i hi j hj rfl
    exact hnew (List.mem_singleton.mp hj ▸ hi)
  · by_cases hj : j = k
    · subst hj
      simp [hin]
    · simp [hj, h.mem_iff]

/-- Somebody leaves such a state. -/
theorem leave (h : Roster ks f p) (hout : ¬ p a) :
    Roster (ks.erase k) (Function.update f k a) p := by
  refine ⟨h.nodup.erase k, fun j => ?_⟩
  by_cases hj : j = k
  · subst hj
    simp [hout, h.nodup.mem_erase_iff]
  · simp [hj, h.nodup.mem_erase_iff, h.mem_iff]

/-- The first one of the list leaves such a state. -/
theorem leave_head {rest : List κ} (h : Roster (k :: rest) f p) (hout : ¬ p a) :
    Roster rest (Function.update f k a) p := by
  simpa using h.leave (k := k) hout

end Roster

end Tally
