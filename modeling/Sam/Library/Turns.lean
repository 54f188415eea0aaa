import Mathlib.Data.List.Basic

/-!
# Turns in a line

An entry of a run may serve some of those who wait in a line, let others leave it, or let somebody
join at its end. `Advances op n line served line'` says what this is for one of them: `op` is
served, or it still waits, nobody new is ahead of it, and at least `n` of those ahead have gone.
`served_or_waits` adds up what the entries of a run do.
-/

namespace Turns

universe u v w

variable {σ : Type u} {ε : Type v} {α : Type w}

/-- `op` is served, or still waits with `n` fewer ahead of it. -/
def Advances (op : α) (n : Nat) (line served line' : List α) : Prop :=
  ∀ ahead behind, line = ahead ++ op :: behind →
    op ∈ served ∨ ∃ ahead' behind', line' = ahead' ++ op :: behind' ∧
      ahead'.Sublist ahead ∧ ahead'.length + n ≤ ahead.length

namespace Advances

variable {op x : α} {n : Nat} {line served line' : List α}

/-- Nobody waits. -/
theorem nil : Advances op n [] served line' := by
  intro ahead behind hline
  exact absurd hline.symm (by simp)

/-- The line stays as it is. -/
theorem stay : Advances op 0 line served line := by
  intro ahead behind hline
  exact Or.inr ⟨ahead, behind, hline, List.Sublist.refl _, Nat.le_refl _⟩

/-- Somebody joins. -/
theorem join : Advances op 0 line served (line ++ [x]) := by
  intro ahead behind hline
  exact Or.inr ⟨ahead, behind ++ [x], by simp [hline], List.Sublist.refl _, Nat.le_refl _⟩

/-- Somebody else leaves. -/
theorem leave [DecidableEq α] (hx : x ≠ op) : Advances op 0 line served (line.erase x) := by
  intro ahead behind hline
  right
  subst hline
  by_cases hahead : x ∈ ahead
  · refine ⟨ahead.erase x, behind, List.erase_append_left _ hahead, List.erase_sublist, ?_⟩
    exact List.erase_sublist.length_le
  · refine ⟨ahead, behind.erase x, ?_, List.Sublist.refl _, Nat.le_refl _⟩
    rw [List.erase_append_right _ hahead, List.erase_cons_tail (by simpa using Ne.symm hx)]

/-- Somebody is served out of turn. -/
theorem pick [DecidableEq α] : Advances op 0 line [x] (line.erase x) := by
  by_cases hx : x = op
  · exact fun _ _ _ => Or.inl (by simp [hx])
  · exact leave hx

/-- The first one is served. -/
theorem first : Advances op 1 (x :: line) [x] line := by
  intro ahead behind hline
  cases ahead with
  | nil => exact Or.inl (by simp [(List.cons.inj hline).1])
  | cons y ahead =>
      refine Or.inr ⟨ahead, behind, (List.cons.inj hline).2, List.sublist_cons_self y ahead, ?_⟩
      exact Nat.le_of_eq (List.length_cons ..).symm

/-- Everybody is served. -/
theorem all : Advances op n line line line' := by
  intro ahead behind hline
  exact Or.inl (by simp [hline])

end Advances

variable {apply : σ → ε → σ} {line : σ → List α} {served : σ → ε → List α} {turn : ε → Bool}

/-- **Served in turn, or still waiting.** If every entry of a run lets `op` advance by one when it
is a turn, `op` has been served after no more turns than there were others ahead of it, or it still
waits, nobody new is ahead of it, and every turn was given to one of those who were. -/
theorem served_or_waits {I : σ → Prop} {op : α} {entries : List ε}
    (hkeep : ∀ s, I s → ∀ e ∈ entries, I (apply s e))
    (hadvances : ∀ s, I s → ∀ e ∈ entries,
      Advances op (turn e).toNat (line s) (served s e) (line (apply s e)))
    {s : σ} (hs : I s) {ahead behind : List α} (hline : line s = ahead ++ op :: behind) :
    (∃ before e after, entries = before ++ e :: after ∧ op ∈ served (before.foldl apply s) e ∧
      before.countP turn ≤ ahead.length) ∨
    ∃ ahead' behind', line (entries.foldl apply s) = ahead' ++ op :: behind' ∧
      ahead'.Sublist ahead ∧ ahead'.length + entries.countP turn ≤ ahead.length := by
  induction entries generalizing s ahead behind with
  | nil => exact Or.inr ⟨ahead, behind, hline, List.Sublist.refl _, Nat.le_refl _⟩
  | cons e entries ih =>
      rcases hadvances s hs e List.mem_cons_self ahead behind hline with
        hserved | ⟨ahead', behind', hline', hsub, hlength⟩
      · exact Or.inl ⟨[], e, entries, rfl, hserved, Nat.zero_le _⟩
      have hcount : ∀ rest : List ε,
          (e :: rest).countP turn = rest.countP turn + (turn e).toNat := by
        intro rest
        cases hturn : turn e <;> simp [hturn]
      have hrest := ih (fun s hs e he => hkeep s hs e (List.mem_cons_of_mem _ he))
        (fun s hs e he => hadvances s hs e (List.mem_cons_of_mem _ he))
        (hkeep s hs e List.mem_cons_self) hline'
      rcases hrest with
        ⟨before, e', after, rfl, hserved, hbefore⟩ | ⟨last, rest, hlast, hsub', hall⟩
      · refine Or.inl ⟨e :: before, e', after, rfl, hserved, ?_⟩
        rw [hcount]
        omega
      · refine Or.inr ⟨last, rest, hlast, hsub'.trans hsub, ?_⟩
        rw [hcount]
        omega

end Turns
