import Mathlib.Data.List.Perm.Basic
import Mathlib.Data.List.Nodup

/-!
# Ledgers

A ledger records what was opened, what is still pending and what was settled and how. In a balanced
one everything opened is pending once or settled once, never both. `Balanced.update` is the rule for
every change: what is settled now and what stays pending together are what was pending and what is
new.
-/

universe u v

/-- What was opened, what is still pending and what was settled, in order. -/
structure Ledger (α : Type u) (ε : Type v) where
  opened : List α
  pending : List α
  settled : List (α × ε)

namespace Ledger

variable {α : Type u} {ε : Type v}

/-- Everything opened is pending or settled, once. -/
structure Balanced (L : Ledger α ε) : Prop where
  nodup : L.opened.Nodup
  perm : (L.settled.map Prod.fst ++ L.pending).Perm L.opened

/-- How `a` was settled, each time. -/
def endings [DecidableEq α] (L : Ledger α ε) (a : α) : List ε :=
  (L.settled.filter (·.1 = a)).map Prod.snd

/-- What was settled stays so when more is settled. -/
theorem endings_prefix [DecidableEq α] {L L' : Ledger α ε} (h : L.settled <+: L'.settled) (a : α) :
    L.endings a <+: L'.endings a :=
  (h.filter _).map _

/-- What was settled in some way is among what is settled. -/
theorem mem_endings [DecidableEq α] {L : Ledger α ε} {a : α} {how : ε} :
    how ∈ L.endings a ↔ (a, how) ∈ L.settled := by
  simp [endings]

namespace Balanced

variable {L : Ledger α ε} {a : α}

/-- Nothing has happened. -/
theorem empty : Balanced (⟨[], [], []⟩ : Ledger α ε) := ⟨List.nodup_nil, .nil⟩

/-- **Change.** New things are opened, and things that were pending or are new are settled. -/
theorem update (h : L.Balanced) (new pending : List α) (entries : List (α × ε))
    (hnew : (L.opened ++ new).Nodup)
    (hperm : (entries.map Prod.fst ++ pending).Perm (L.pending ++ new)) :
    Balanced ⟨L.opened ++ new, pending, L.settled ++ entries⟩ := by
  refine ⟨hnew, ?_⟩
  calc (L.settled ++ entries).map Prod.fst ++ pending
      = L.settled.map Prod.fst ++ (entries.map Prod.fst ++ pending) := by simp
    List.Perm _ (L.settled.map Prod.fst ++ (L.pending ++ new)) := hperm.append_left _
    _ = (L.settled.map Prod.fst ++ L.pending) ++ new := by simp
    List.Perm _ (L.opened ++ new) := h.perm.append_right new

/-- Nothing occurs twice among what is settled or pending. -/
theorem entries_nodup (h : L.Balanced) : (L.settled.map Prod.fst ++ L.pending).Nodup :=
  h.perm.nodup_iff.mpr h.nodup

/-- Nothing is pending twice. -/
theorem pending_nodup (h : L.Balanced) : L.pending.Nodup :=
  (List.nodup_append.mp h.entries_nodup).2.1

/-- What is pending was opened. -/
theorem opened_of_pending (h : L.Balanced) (ha : a ∈ L.pending) : a ∈ L.opened :=
  h.perm.subset (List.mem_append_right _ ha)

/-- What is settled was opened. -/
theorem opened_of_settled (h : L.Balanced) {how : ε} (ha : (a, how) ∈ L.settled) : a ∈ L.opened :=
  h.perm.subset (List.mem_append_left _ (List.mem_map.mpr ⟨_, ha, rfl⟩))

variable [DecidableEq α]

/-- **Once.** What was opened is pending once, or it was settled once. -/
theorem once (h : L.Balanced) (ha : a ∈ L.opened) :
    (L.pending.count a = 1 ∧ L.endings a = []) ∨
      (a ∉ L.pending ∧ ∃ how, L.endings a = [how]) := by
  have hsum : (L.settled.map Prod.fst).count a + L.pending.count a = 1 := by
    rw [← List.count_append, h.perm.count_eq, List.count_eq_one_of_mem h.nodup ha]
  have hlength : (L.endings a).length = (L.settled.map Prod.fst).count a := by
    rw [endings, List.length_map, ← List.countP_eq_length_filter, List.count, List.countP_map]
    rfl
  rcases Nat.eq_zero_or_pos (L.pending.count a) with hzero | hpos
  · right
    refine ⟨List.count_eq_zero.mp hzero, List.length_eq_one_iff.mp ?_⟩
    omega
  · left
    exact ⟨by omega, List.length_eq_zero_iff.mp (by omega)⟩

/-- Nothing is settled twice. -/
theorem endings_length_le (h : L.Balanced) (a : α) : (L.endings a).length ≤ 1 := by
  cases hends : L.endings a with
  | nil => simp
  | cons how rest =>
      have hmem : (a, how) ∈ L.settled := mem_endings.mp (hends ▸ List.mem_cons_self ..)
      rcases h.once (h.opened_of_settled hmem) with hpending | ⟨-, how', hone⟩
      · simp [hends] at hpending
      · simp [← hends, hone]

/-- **For good.** What was settled in one way is settled in this way only, however the ledger goes
on, and is not pending again. -/
theorem settled_for_good {L' : Ledger α ε} (h : L'.Balanced) (hmore : L.settled <+: L'.settled)
    {how : ε} (ha : L.endings a = [how]) : a ∉ L'.pending ∧ L'.endings a = [how] := by
  have hhead : [how] <+: L'.endings a := ha ▸ endings_prefix hmore a
  have hmem : (a, how) ∈ L'.settled := mem_endings.mp (hhead.subset (List.mem_singleton_self how))
  rcases h.once (h.opened_of_settled hmem) with ⟨-, hnone⟩ | ⟨hpending, how', hone⟩
  · rw [hnone] at hhead
    exact absurd (List.prefix_nil.mp hhead) (by simp)
  · rw [hone] at hhead ⊢
    obtain ⟨rfl, -⟩ := List.cons_prefix_cons.mp hhead
    exact ⟨hpending, rfl⟩

end Balanced

end Ledger
