import Sam.Detail.BilistNode
import Sam.Library.Transition

/-!
# Intrusive lists are lists

What a program does to its `bilist_node`s, as edits of two machines. One machine writes the pointers
of the nodes, as `detail/bilist_node.hpp` does; the other one holds an ordinary list for every root
and edits these lists independently of each other. `Represents` relates their states, `edit_refines`
says that it is kept by every edit that the second machine allows, and `run_refines` carries this to
any sequence of edits of any number of lists. -/

namespace Sam.BilistNode

open Links Transition

universe u

/-- What is done to the nodes. A node that is linked or move constructed is in no list before. -/
inductive Edit (α : Type u) where
  | construct (this : α)
  | linkBefore (this next : α)
  | unlink (this : α)
  | moveConstruct (this lhs : α)
  | size (this : α)
  deriving DecidableEq, Repr

/-- A list for every root, independent of each other. -/
structure Lists (α : Type u) where
  roots : List α
  members : α → List α

variable {α : Type u} [DecidableEq α]

namespace Lists

/-- The roots and the members of all lists. -/
def nodes (q : Lists α) : List α := Links.nodes (Rings.family q.roots q.members)

/-- A new root with nothing on it. -/
def create (q : Lists α) (root : α) : Lists α :=
  ⟨root :: q.roots, Function.update q.members root []⟩

/-- A node joins one list at its end. -/
def append (q : Lists α) (root n : α) : Lists α :=
  { q with members := Function.update q.members root (q.members root ++ [n]) }

/-- A node leaves the list it is in. -/
def erase (q : Lists α) (n : α) : Lists α :=
  { q with members := fun root => (q.members root).erase n }

/-- A new root takes the whole list of an old one. -/
def transfer (q : Lists α) (root old : α) : Lists α :=
  ⟨root :: q.roots, Function.update (Function.update q.members root (q.members old)) old []⟩

end Lists

/-- An edit of the pointers, and the sizes read so far. It is `none` when `size` runs out of
fuel. -/
def Edit.onLinks (fuel : Nat) (s : Links α × List Nat) : Edit α → Option (Links α × List Nat)
  | .construct this => some (BilistNode.construct s.1 this, s.2)
  | .linkBefore this next => some (BilistNode.linkBefore s.1 this next, s.2)
  | .unlink this => some (BilistNode.unlink s.1 this, s.2)
  | .moveConstruct this lhs => some (BilistNode.moveConstruct s.1 this lhs, s.2)
  | .size this => (BilistNode.size s.1 fuel this).map fun sz => (s.1, s.2 ++ [sz])

/-- An edit of the lists, and the lengths read so far. It is `none` when a node that should be in no
list is in one, or the other way round. -/
def Edit.onLists (s : Lists α × List Nat) : Edit α → Option (Lists α × List Nat)
  | .construct this => if this ∉ s.1.nodes then some (s.1.create this, s.2) else none
  | .linkBefore this next =>
      if next ∈ s.1.roots ∧ this ∉ s.1.nodes then some (s.1.append next this, s.2) else none
  | .unlink this =>
      if this ∈ s.1.roots.flatMap s.1.members then some (s.1.erase this, s.2) else none
  | .moveConstruct this lhs =>
      if lhs ∈ s.1.roots ∧ this ∉ s.1.nodes then some (s.1.transfer this lhs, s.2) else none
  | .size this =>
      if this ∈ s.1.roots then some (s.1, s.2 ++ [(s.1.members this).length]) else none

/-- The pointers hold these lists: one well-formed ring on every root, no node in two of them. -/
def Represents (m : Links α) (q : Lists α) : Prop := Rings m (Rings.family q.roots q.members)

instance (m : Links α) (q : Lists α) : Decidable (Represents m q) :=
  inferInstanceAs (Decidable (Rings ..))

namespace Represents

variable {m : Links α} {q : Lists α} {root old n : α}

omit [DecidableEq α] in
/-- The roots are different nodes. -/
theorem roots_nodup (h : Represents m q) : q.roots.Nodup := by
  have hroots : q.roots.Sublist (Links.nodes (Rings.family q.roots q.members)) := by
    induction q.roots with
    | nil => exact .slnil
    | cons root roots ih =>
        rw [show Links.nodes (Rings.family (root :: roots) q.members) =
          root :: (q.members root ++ Links.nodes (Rings.family roots q.members)) from rfl]
        exact (ih.trans (List.sublist_append_right _ _)).cons_cons root
  exact h.1.sublist hroots

/-- The list of one root first, then the others. -/
theorem first (h : Represents m q) (hroot : root ∈ q.roots) :
    Rings m ((root, q.members root) :: Rings.family (q.roots.erase root) q.members) :=
  h.perm (Rings.family_perm h.roots_nodup hroot)

/-- A node that is in no list is not on one of the rings, whichever comes first. -/
theorem not_mem_first (h : Represents m q) (hroot : root ∈ q.roots) (hn : n ∉ q.nodes) :
    n ∉ Links.nodes ((root, q.members root) :: Rings.family (q.roots.erase root) q.members) :=
  (mem_nodes_perm (Rings.family_perm h.roots_nodup hroot)).not.mp hn

/-- Lists whose root is elsewhere are not changed by an update of this one. -/
theorem family_update_of_not_mem {roots : List α} {members : α → List α} {xs : List α}
    (hroot : root ∉ roots) :
    Rings.family roots (Function.update members root xs) = Rings.family roots members := by
  refine List.map_congr_left fun r hr => ?_
  rw [Function.update_of_ne (ne_of_mem_of_not_mem hr hroot)]

/-! ### One edit -/

/-- **A new root** has an empty list. -/
theorem create (h : Represents m q) (hroot : root ∉ q.nodes) :
    Represents (construct m root) (q.create root) := by
  have hnew : ∀ a ∈ [root], a ∉ q.nodes := fun a ha => List.mem_singleton.mp ha ▸ hroot
  have hroots : root ∉ q.roots := fun hmem => hroot (Rings.mem_nodes_family.mpr (Or.inl hmem))
  have hrest : Rings (construct m root) (Rings.family q.roots q.members) :=
    h.frame construct_sameOff hnew
  show Rings _ ((root, Function.update q.members root [] root) ::
    Rings.family q.roots (Function.update q.members root []))
  rw [family_update_of_not_mem hroots, Function.update_self]
  exact Rings.cons_iff.mpr ⟨construct_ring, hrest, hnew⟩

/-- **`link_before` a root appends** to the list of this root. -/
theorem append (h : Represents m q) (hroot : root ∈ q.roots) (hn : n ∉ q.nodes) :
    Represents (linkBefore m n root) (q.append root n) :=
  (linkBefore_rings (h.first hroot) (h.not_mem_first hroot hn)).perm
    (Rings.family_update h.roots_nodup hroot _).symm

/-- **`unlink` erases** the node from the list that it is in. -/
theorem unlink (h : Represents m q) (hroot : root ∈ q.roots) (hn : n ∈ q.members root) :
    Represents (unlink m n)
      { q with members := Function.update q.members root ((q.members root).erase n) } :=
  (unlink_rings (h.first hroot) hn).perm (Rings.family_update h.roots_nodup hroot _).symm

/-- The node is in no other list, so it may be erased from all of them. -/
theorem erase (h : Represents m q) (hroot : root ∈ q.roots) (hn : n ∈ q.members root) :
    Represents (BilistNode.unlink m n) (q.erase n) := by
  have hsame : Rings.family q.roots (q.erase n).members =
      Rings.family q.roots (Function.update q.members root ((q.members root).erase n)) := by
    refine List.map_congr_left fun r hr => congrArg (r, ·) ?_
    by_cases hne : r = root
    · rw [hne, Function.update_self]
      rfl
    · have hmem : n ∉ q.members r := fun hmem =>
        (Rings.cons_iff.mp (h.first hroot)).2.2 n (List.mem_cons_of_mem root hn)
          (Rings.mem_nodes_family.mpr (Or.inr ⟨r, (List.mem_erase_of_ne hne).mpr hr, hmem⟩))
      rw [Function.update_of_ne hne]
      exact List.erase_of_not_mem hmem
  have hunlink : Rings _ (Rings.family q.roots _) := h.unlink hroot hn
  rwa [← hsame] at hunlink

/-- **The move constructor transfers** the whole list, and leaves the old root an empty one. -/
theorem transfer (h : Represents m q) (hold : old ∈ q.roots) (hroot : root ∉ q.nodes) :
    Represents (moveConstruct m root old) (q.transfer root old) := by
  have hroots : root ∉ q.roots := fun hmem => hroot (Rings.mem_nodes_family.mpr (Or.inl hmem))
  have hne : root ≠ old := fun he => hroots (he ▸ hold)
  have hrings := moveConstruct_rings (h.first hold) (h.not_mem_first hold hroot)
  have hothers : Rings.family (q.roots.erase old) q.members =
      Rings.family (q.roots.erase old) (Function.update q.members root (q.members old)) :=
    (family_update_of_not_mem fun hmem => hroots (List.mem_of_mem_erase hmem)).symm
  have hmembers : (q.transfer root old).members root = q.members old := by
    show Function.update (Function.update q.members root (q.members old)) old [] root = _
    rw [Function.update_of_ne hne, Function.update_self]
  have hfamily : Rings.family (q.transfer root old).roots (q.transfer root old).members =
      (root, q.members old) :: Rings.family q.roots (q.transfer root old).members :=
    congrArg (fun xs => (root, xs) :: Rings.family q.roots _) hmembers
  rw [hothers] at hrings
  rw [Represents, hfamily]
  exact hrings.perm ((Rings.family_update h.roots_nodup hold []).symm.cons _)

/-- **`size` is the length** of the list. -/
theorem size_eq (h : Represents m q) (hroot : root ∈ q.roots) {fuel : Nat}
    (hfuel : (q.members root).length < fuel) :
    size m fuel root = some (q.members root).length :=
  size_ring (Rings.ring_of_family h hroot) hfuel

end Represents

/-! ## Sequences of edits -/

variable {m : Links α} {q q' : Lists α} {out out' : List Nat}

/-- **One edit.** An edit that the lists allow does the same to the pointers. -/
theorem edit_refines (h : Represents m q) {e : Edit α}
    (hstep : e.onLists (q, out) = some (q', out')) :
    ∃ bound m', (∀ fuel, bound < fuel → e.onLinks fuel (m, out) = some (m', out')) ∧
      Represents m' q' := by
  cases e with
  | construct this =>
      obtain ⟨hnew, heq⟩ := guard_iff.mp hstep
      obtain ⟨rfl, rfl⟩ := Prod.mk.inj heq
      exact ⟨0, _, fun fuel _ => rfl, h.create hnew⟩
  | linkBefore this next =>
      obtain ⟨⟨hroot, hnew⟩, heq⟩ := guard_iff.mp hstep
      obtain ⟨rfl, rfl⟩ := Prod.mk.inj heq
      exact ⟨0, _, fun fuel _ => rfl, h.append hroot hnew⟩
  | unlink this =>
      obtain ⟨hmem, heq⟩ := guard_iff.mp hstep
      obtain ⟨root, hroot, hthis⟩ := List.mem_flatMap.mp hmem
      obtain ⟨rfl, rfl⟩ := Prod.mk.inj heq
      exact ⟨0, _, fun fuel _ => rfl, h.erase hroot hthis⟩
  | moveConstruct this lhs =>
      obtain ⟨⟨hroot, hnew⟩, heq⟩ := guard_iff.mp hstep
      obtain ⟨rfl, rfl⟩ := Prod.mk.inj heq
      exact ⟨0, _, fun fuel _ => rfl, h.transfer hroot hnew⟩
  | size this =>
      obtain ⟨hroot, heq⟩ := guard_iff.mp hstep
      obtain ⟨rfl, rfl⟩ := Prod.mk.inj heq
      refine ⟨(q.members this).length, m, fun fuel hfuel => ?_, h⟩
      simp [Edit.onLinks, h.size_eq hroot hfuel]

/-- **Any sequence of edits** of the lists is done by the same edits of the pointers, with the same
sizes read, when there is enough fuel. -/
theorem run_refines (h : Represents m q) {edits : List (Edit α)}
    (hrun : run Edit.onLists (q, out) edits = some (q', out')) :
    ∃ bound m',
      (∀ fuel, bound < fuel → run (Edit.onLinks fuel) (m, out) edits = some (m', out')) ∧
        Represents m' q' := by
  -- the fuel must do for every edit, so the bound grows with the edits
  induction edits generalizing m q out with
  | nil =>
      obtain ⟨rfl, rfl⟩ := Prod.mk.inj (Option.some.inj hrun)
      exact ⟨0, m, fun fuel _ => rfl, h⟩
  | cons e edits ih =>
      obtain ⟨⟨q₁, out₁⟩, hstep, hrest⟩ := run_cons.mp hrun
      obtain ⟨bound, m₁, hfirst, hrep⟩ := edit_refines h hstep
      obtain ⟨bound', m', hothers, hrep'⟩ := ih hrep hrest
      refine ⟨max bound bound', m', fun fuel hfuel => ?_, hrep'⟩
      exact run_cons.mpr ⟨(m₁, out₁), hfirst fuel (lt_of_le_of_lt (le_max_left ..) hfuel),
        hothers fuel (lt_of_le_of_lt (le_max_right ..) hfuel)⟩

/-- **Intrusive lists are lists.** In any memory that holds any number of well-formed rings,
`link_before` appends, `unlink` removes, the move constructor transfers, `size` ends with the
length, and the other lists stay what they are. So the same edits of independent lists simulate
them. -/
theorem represents_lists (h : Represents m q) :
    (∀ root ∈ q.roots, ∀ n ∉ q.nodes,
        Represents (linkBefore m n root)
          { q with members := Function.update q.members root (q.members root ++ [n]) }) ∧
      (∀ root ∈ q.roots, ∀ n ∈ q.members root,
        Represents (unlink m n)
          { q with members := Function.update q.members root ((q.members root).erase n) }) ∧
      (∀ old ∈ q.roots, ∀ root ∉ q.nodes,
        Represents (moveConstruct m root old)
          { roots := root :: q.roots
            members := Function.update (Function.update q.members root (q.members old)) old [] }) ∧
      (∀ root ∈ q.roots, ∀ fuel, (q.members root).length < fuel →
        size m fuel root = some (q.members root).length) ∧
      ∀ edits out q' out', run Edit.onLists (q, out) edits = some (q', out') →
        ∃ bound m',
          (∀ fuel, bound < fuel → run (Edit.onLinks fuel) (m, out) edits = some (m', out')) ∧
            Represents m' q' :=
  ⟨fun _ hroot _ hn => h.append hroot hn, fun _ hroot _ hn => h.unlink hroot hn,
    fun _ hold _ hroot => h.transfer hold hroot, fun _ hroot _ hfuel => h.size_eq hroot hfuel,
    fun _ _ _ _ hrun => run_refines h hrun⟩

/-- A list of two nodes and an empty one, and edits of both. -/
theorem represents_lists_two :
    ∃ m : Links Nat, Represents m ⟨[0, 5], fun root => if root = 0 then [1, 2] else []⟩ ∧
      ∃ bound m', (∀ fuel, bound < fuel →
          run (Edit.onLinks fuel) (m, [])
            [.linkBefore 6 5, .unlink 1, .size 0, .moveConstruct 7 0, .unlink 2, .size 5] =
          some (m', [1, 1])) ∧
        Represents m' ⟨[7, 0, 5], fun root => if root = 5 then [6] else []⟩ := by
  have hrep : Represents (linkBefore (linkBefore ⟨id, id⟩ 1 0) 2 0)
      ⟨[0, 5], fun root : Nat => if root = 0 then [1, 2] else []⟩ := by decide
  obtain ⟨-, -, -, -, hsimulates⟩ := represents_lists hrep
  obtain ⟨bound, m', hrun, hrep'⟩ := hsimulates
    [.linkBefore 6 5, .unlink 1, .size 0, .moveConstruct 7 0, .unlink 2, .size 5] [] _ _ rfl
  exact ⟨_, hrep, bound, m', hrun, hrep'⟩

end Sam.BilistNode
