import Mathlib.Logic.Basic

/-!
# Computations with fuel

A loop that may not end is a function of its fuel: `f : Nat → Except ε β` gives up with the error
`out` when the fuel is used up. `Ends` is total correctness: some fuel is enough, and less fuel can
do no more harm than to give up. `Ends.bind`, `Ends.map` and `Ends.turn` compose such computations;
`of_ok` and `not_error` read a result back.
-/

universe u v w

namespace Fuel

variable {ε : Type u} {β : Type v} {γ : Type v} {out : ε} {bound : Nat}
  {f : Nat → Except ε β} {P : β → Prop} {Q : γ → Prop}

/-- A result that was worked on is a result. -/
theorem of_map_ok {r : Except ε β} {g : β → γ} {c : γ} (h : r.map g = .ok c) :
    ∃ b, r = .ok b ∧ g b = c := by
  cases r with
  | error e => cases h
  | ok b => exact ⟨b, rfl, Except.ok.inj h⟩

/-- A result of a sequence comes from a result of its first part. -/
theorem of_bind_ok {r : Except ε β} {g : β → Except ε γ} {c : γ} (h : r >>= g = .ok c) :
    ∃ b, r = .ok b ∧ g b = .ok c := by
  cases r with
  | error e => cases h
  | ok b => exact ⟨b, rfl, h⟩

/-- From `bound` fuel on the computation returns a value with the property `P`; with less it returns
that value or gives up. -/
def Ends (out : ε) (bound : Nat) (f : Nat → Except ε β) (P : β → Prop) : Prop :=
  ∃ b, P b ∧ (∀ fuel, bound ≤ fuel → f fuel = .ok b) ∧ ∀ fuel, f fuel = .ok b ∨ f fuel = .error out

namespace Ends

/-- A computation without a loop. -/
theorem ret {b : β} (hf : ∀ fuel, f fuel = .ok b) (hb : P b) : Ends out bound f P :=
  ⟨b, hb, fun fuel _ => hf fuel, fun fuel => Or.inl (hf fuel)⟩

/-- **A turn of a loop** takes one unit of fuel. -/
theorem turn {g : Nat → Except ε β} (h : Ends out bound g P) (hzero : f 0 = .error out)
    (hsucc : ∀ fuel, f (fuel + 1) = g fuel) : Ends out (bound + 1) f P := by
  obtain ⟨b, hb, henough, hless⟩ := h
  refine ⟨b, hb, fun fuel hfuel => ?_, fun fuel => ?_⟩
  · cases fuel with
    | zero => cases hfuel
    | succ fuel => exact (hsucc fuel).trans (henough fuel (Nat.le_of_succ_le_succ hfuel))
  · cases fuel with
    | zero => exact Or.inr hzero
    | succ fuel => exact hsucc fuel ▸ hless fuel

/-- The property of the result may be weakened. -/
theorem imp {P' : β → Prop} (h : Ends out bound f P) (himp : ∀ b, P b → P' b) :
    Ends out bound f P' := by
  obtain ⟨b, hb, hends⟩ := h
  exact ⟨b, himp b hb, hends⟩

/-- The result is one that was returned. -/
theorem returned (h : Ends out bound f P) :
    Ends out bound f fun b => P b ∧ ∃ fuel, f fuel = .ok b := by
  obtain ⟨b, hb, henough, hless⟩ := h
  exact ⟨b, ⟨hb, bound, henough bound (Nat.le_refl bound)⟩, henough, hless⟩

/-- **Sequence.** What comes second may have a loop of its own. -/
theorem bind {g : β → Nat → Except ε γ} (h : Ends out bound f P)
    (hg : ∀ b, P b → Ends out bound (g b) Q) :
    Ends out bound (fun fuel => f fuel >>= fun b => g b fuel) Q := by
  obtain ⟨b, hb, henough, hless⟩ := h
  obtain ⟨c, hc, henough', hless'⟩ := hg b hb
  refine ⟨c, hc, fun fuel hfuel => ?_, fun fuel => ?_⟩
  · show f fuel >>= _ = _
    rw [henough fuel hfuel]
    exact henough' fuel hfuel
  · show f fuel >>= _ = _ ∨ f fuel >>= _ = _
    rcases hless fuel with hf | hf <;> rw [hf]
    · exact hless' fuel
    · exact Or.inr rfl

/-- What is done with the result needs no fuel. -/
theorem map {g : β → γ} (h : Ends out bound f P) (hg : ∀ b, P b → Q (g b)) :
    Ends out bound (fun fuel => (f fuel).map g) Q := by
  obtain ⟨b, hb, henough, hless⟩ := h
  refine ⟨g b, hg b hb, fun fuel hfuel => ?_, fun fuel => ?_⟩
  · show (f fuel).map g = _
    rw [henough fuel hfuel]
    rfl
  · show (f fuel).map g = _ ∨ (f fuel).map g = _
    rcases hless fuel with hf | hf <;> rw [hf]
    · exact Or.inl rfl
    · exact Or.inr rfl

/-- What the computation returns has the property. -/
theorem of_ok (h : Ends out bound f P) {fuel : Nat} {b : β} (hf : f fuel = .ok b) : P b := by
  obtain ⟨c, hc, -, hless⟩ := h
  rcases hless fuel with hf' | hf'
  · exact Except.ok.inj (hf'.symm.trans hf) ▸ hc
  · cases hf'.symm.trans hf

end Ends

end Fuel
