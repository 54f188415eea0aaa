import Sam.Detail.BilistNode

/-!
# Assigning the root of a list

What `target = std::move(source)` should do to two lists, and when `bilist_node::operator=` in
`detail/bilist_node.hpp` does it. Its branches ask whether the source is empty, as those of the move
constructor do, but what they write are the links of the target: the members of the source are never
taken, and an empty source cuts off the members of the target. -/

namespace Sam.BilistNode

open Links

universe u

variable {α : Type u}

/-- What a move assignment should leave of the lists `xs` on the target `this` and `ys` on the
source `lhs`. An empty target takes over the list of the source. From a target that was not empty,
no node is left from which pointers lead to a root that does not reach the node. -/
def Transferred (m' : Links α) (this lhs : α) (xs ys : List α) : Prop :=
  (xs = [] → IsRing m' this ys ∧ IsRing m' lhs []) ∧
    (xs ≠ [] → ∀ n ∈ this :: xs ++ lhs :: ys, ∀ root ∈ [this, lhs],
      Relation.ReflTransGen m'.Points n root → m'.Reaches root n)

variable {m : Links α} {this lhs : α} {xs ys : List α}

/-- In two rings without common nodes, pointers only lead to a root that reaches the node. -/
theorem reaches_of_rings (h : Rings m [(this, xs), (lhs, ys)]) {n root : α}
    (hn : n ∈ this :: xs ++ lhs :: ys) (hroot : root ∈ [this, lhs])
    (hpath : Relation.ReflTransGen m.Points n root) : m.Reaches root n := by
  obtain ⟨hthis, hrest, hdisj⟩ := Rings.cons_iff.mp h
  have hlhs : IsRing m lhs ys := hrest.head
  have hne : this ≠ lhs := fun he => hdisj this List.mem_cons_self (by simp [he])
  simp only [List.mem_cons, List.not_mem_nil, or_false] at hroot
  rcases List.mem_append.mp hn with hn | hn
  · have hmem := hthis.mem_of_path hn hpath
    rcases hroot with rfl | rfl
    · exact hthis.reaches hn
    · exact absurd (by simp) (hdisj _ hmem)
  · have hmem := hlhs.mem_of_path hn hpath
    rcases hroot with rfl | rfl
    · exact absurd (by simpa using hmem) (hdisj _ List.mem_cons_self)
    · exact hlhs.reaches hn

variable [DecidableEq α]

/-- A target whose members were cut off does not reach the last of them. -/
theorem not_transferred_of_empty (h : Rings m [(this, xs), (lhs, [])]) (hxs : xs ≠ []) :
    ¬ Transferred (moveAssign m this lhs) this lhs xs [] := by
  intro htransferred
  obtain ⟨init, z, rfl⟩ := (xs.eq_nil_or_concat').resolve_left hxs
  obtain ⟨hempty, hsame⟩ : IsRing (moveAssign m this lhs) this [] ∧ _ :=
    moveAssign_of_empty h.tail.head
  have hz : z ≠ this := fun he => h.head.root_not_mem (he ▸ by simp)
  -- the last member still points at the target
  have hnext : (moveAssign m this lhs).next z = this := by
    rw [(hsame z (by simpa using hz)).1]
    exact h.head.next_last
  have hreach : (moveAssign m this lhs).Reaches this z :=
    htransferred.2 hxs z (by simp) this (by simp) (.single (Or.inl hnext))
  exact hz (by simpa using hempty.mem_of_reaches hreach)

/-- **Move assignment of a root** does what it should exactly when both lists are empty or neither
is: the list of the source never arrives. -/
theorem moveAssign_transferred_iff (h : Rings m [(this, xs), (lhs, ys)]) :
    Transferred (moveAssign m this lhs) this lhs xs ys ↔ (xs = [] ↔ ys = []) := by
  have hthis : IsRing m this xs := h.head
  have hlhs : IsRing m lhs ys := h.tail.head
  by_cases hxs : xs = [] <;> by_cases hys : ys = []
  · subst hxs hys
    obtain ⟨hempty, hsame⟩ : IsRing (moveAssign m this lhs) this [] ∧ _ :=
      moveAssign_of_empty hlhs
    have hdisj := (Rings.cons_iff.mp h).2.2 this List.mem_cons_self
    have hsource : IsRing (moveAssign m this lhs) lhs [] :=
      hlhs.frame hsame fun a ha hmem => hdisj (by
        rw [← List.mem_singleton.mp hmem]
        simpa using ha)
    exact iff_of_true ⟨fun _ => ⟨hempty, hsource⟩, fun hne => absurd rfl hne⟩ Iff.rfl
  · subst hxs
    have heq := moveAssign_of_nonempty hlhs hys hthis
    refine iff_of_false (fun htransferred => hys ?_) (by simp [hys])
    have hring : IsRing m this ys := heq ▸ (htransferred.1 rfl).1
    exact hring.unique hthis
  · subst hys
    exact iff_of_false (not_transferred_of_empty h hxs) (by simp [hxs])
  · have heq := moveAssign_of_nonempty hlhs hys hthis
    rw [heq]
    refine iff_of_true ⟨fun he => absurd he hxs, fun _ n hn root hroot hpath => ?_⟩ (by simp [*])
    exact reaches_of_rings h hn hroot hpath

/-- The roots `0` and `1` with one node each: nothing is moved, and nothing is lost. -/
theorem moveAssign_transferred_two :
    Transferred (moveAssign (linkBefore (linkBefore ⟨id, id⟩ 2 0) 3 1) 0 1) 0 1 [2] [3] :=
  (moveAssign_transferred_iff (by decide)).mpr (by simp)

/-- The node `2` is in the list of `1`, and the list of `0` is empty. After `0` was assigned from
`1`, its list is still empty. The other way round, `2` is left pointing at an empty list. -/
theorem moveAssign_keeps_source :
    (∃ m : Links Nat, Rings m [(0, []), (1, [2])] ∧
        ¬ Transferred (moveAssign m 0 1) 0 1 [] [2]) ∧
      ∃ m : Links Nat, Rings m [(0, [2]), (1, [])] ∧
        ¬ Transferred (moveAssign m 0 1) 0 1 [2] [] := by
  refine ⟨⟨linkBefore ⟨id, id⟩ 2 1, by decide, fun h => ?_⟩, linkBefore ⟨id, id⟩ 2 0, by decide,
    not_transferred_of_empty (by decide) (by simp)⟩
  have hring : ¬ IsRing (moveAssign (linkBefore ⟨id, id⟩ 2 1) 0 1) 0 [2] := by decide
  exact hring (h.1 rfl).1

end Sam.BilistNode
