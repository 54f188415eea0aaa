import Mathlib.Data.List.Chain
import Mathlib.Data.List.Flatten
import Mathlib.Data.List.Nodup
import Mathlib.Logic.Function.Basic
import Mathlib.Logic.Relation

/-!
# Rings of doubly linked nodes

A memory of nodes, each with a `next` and a `prev` pointer. `IsRing m root xs` says that the nodes
`xs` hang in a ring on `root`, which is not one of them: an intrusive list. `link` joins two nodes;
the edits of a ring are built from it, and `IsRing.append`, `IsRing.remove` and `IsRing.move` say
what they do. `IsRing.congr` is the frame rule, `IsRing.unique` says that a memory has at most one
ring on a root. `Rings` is a family of rings without common nodes, and `Rings.edit` is the frame
rule for a change of one of them. -/

universe u

/-- The two pointers of every node. -/
@[ext]
structure Links (α : Type u) where
  next : α → α
  prev : α → α

namespace Links

variable {α : Type u}

/-- The nodes `a` and `b` point at each other, in this order. -/
def Linked (m : Links α) (a b : α) : Prop := m.next a = b ∧ m.prev b = a

/-- The nodes `xs` hang on `root` in this order. -/
structure IsRing (m : Links α) (root : α) (xs : List α) : Prop where
  nodup : (root :: xs).Nodup
  chain : (root :: xs ++ [root]).IsChain m.Linked

instance [DecidableEq α] (m : Links α) : DecidableRel m.Linked :=
  fun _ _ => inferInstanceAs (Decidable (_ ∧ _))

instance [DecidableEq α] (m : Links α) (root : α) (xs : List α) : Decidable (IsRing m root xs) :=
  decidable_of_iff ((root :: xs).Nodup ∧ (root :: xs ++ [root]).IsChain m.Linked)
    ⟨fun h => ⟨h.1, h.2⟩, fun h => ⟨h.nodup, h.chain⟩⟩

/-! ## Reading a ring -/

/-- A chain only depends on the `next` of all nodes but the last and the `prev` of all nodes but the
first. -/
theorem chain_congr {m m' : Links α} {l : List α} (hnext : ∀ a ∈ l.dropLast, m'.next a = m.next a)
    (hprev : ∀ a ∈ l.tail, m'.prev a = m.prev a) (h : l.IsChain m.Linked) :
    l.IsChain m'.Linked := by
  induction l with
  | nil => exact .nil
  | cons a l ih =>
      cases l with
      | nil => exact .singleton a
      | cons b l =>
          rw [List.isChain_cons_cons] at h ⊢
          have hrest : ∀ c ∈ (b :: l).tail, m'.prev c = m.prev c :=
            fun c hc => hprev c (List.mem_cons_of_mem b hc)
          refine ⟨⟨?_, ?_⟩, ih (fun c hc => hnext c (List.mem_cons_of_mem a hc)) hrest h.2⟩
          · exact (hnext a (List.mem_cons_self ..)).trans h.1.1
          · exact (hprev b (List.mem_cons_self ..)).trans h.1.2

/-- A node of a chain points at the nodes before and after it. -/
theorem chain_neighbours {m : Links α} {pre post : List α} {p n q : α}
    (h : (pre ++ p :: n :: q :: post).IsChain m.Linked) : m.prev n = p ∧ m.next n = q := by
  rw [List.isChain_append_cons_cons, List.isChain_cons_cons] at h
  exact ⟨h.2.1.2, h.2.2.1.1⟩

namespace IsRing

variable {m m' : Links α} {root x : α} {xs ys : List α}

/-- **Frame.** A ring only depends on the pointers of its own nodes. -/
theorem congr (h : IsRing m root xs) (hnext : ∀ a ∈ root :: xs, m'.next a = m.next a)
    (hprev : ∀ a ∈ root :: xs, m'.prev a = m.prev a) : IsRing m' root xs := by
  refine ⟨h.nodup, chain_congr (fun a ha => hnext a ?_) (fun a ha => hprev a ?_) h.chain⟩
  · rwa [List.dropLast_concat] at ha
  · simpa [or_comm] using ha

/-- The root is not a member. -/
theorem root_not_mem (h : IsRing m root xs) : root ∉ xs := (List.nodup_cons.mp h.nodup).1

/-- The root of the empty ring points at itself. -/
theorem nil_iff : IsRing m root [] ↔ m.next root = root ∧ m.prev root = root := by
  constructor
  · intro h
    have hlinked : m.Linked root root := by simpa using h.chain
    exact hlinked
  · intro h
    exact ⟨List.nodup_singleton root, by simpa using (show m.Linked root root from h)⟩

/-- The root points at the first member. -/
theorem next_root (h : IsRing m root (x :: xs)) : m.next root = x :=
  (List.isChain_cons_cons.mp h.chain).1.1

/-- **Empty test.** The root points at itself exactly when the ring is empty. -/
theorem next_root_eq_iff (h : IsRing m root xs) : m.next root = root ↔ xs = [] := by
  cases xs with
  | nil => exact iff_of_true (nil_iff.mp h).1 rfl
  | cons x xs =>
      rw [h.next_root]
      exact iff_of_false (fun he => h.root_not_mem (he ▸ List.mem_cons_self ..)) (by simp)

/-- The root points back at the last member. -/
theorem prev_root (h : IsRing m root (xs ++ [x])) : m.prev root = x := by
  have hchain := h.chain
  rw [List.cons_append, List.append_assoc, ← List.cons_append] at hchain
  exact (List.isChain_append_cons_cons.mp hchain).2.1.2

/-- The root points back at itself exactly when the ring is empty. -/
theorem prev_root_eq_iff (h : IsRing m root xs) : m.prev root = root ↔ xs = [] := by
  rcases List.eq_nil_or_concat' xs with rfl | ⟨ys, y, rfl⟩
  · exact iff_of_true (nil_iff.mp h).2 rfl
  · rw [h.prev_root]
    exact iff_of_false (fun he => h.root_not_mem (he ▸ by simp)) (by simp)

/-- The first and the last member, or the root itself, point at the root. -/
theorem root_linked (h : IsRing m root xs) :
    m.prev (m.next root) = root ∧ m.next (m.prev root) = root := by
  constructor
  · cases xs with
    | nil =>
        have hnil := nil_iff.mp h
        rw [hnil.1, hnil.2]
    | cons x xs =>
        rw [h.next_root]
        exact (List.isChain_cons_cons.mp h.chain).1.2
  · rcases List.eq_nil_or_concat' xs with rfl | ⟨ys, y, rfl⟩
    · have hnil := nil_iff.mp h
      rw [hnil.2, hnil.1]
    · have hchain := h.chain
      rw [List.cons_append, List.append_assoc, ← List.cons_append] at hchain
      rw [h.prev_root]
      exact (List.isChain_append_cons_cons.mp hchain).2.1.1

/-- The first member points back at the root. -/
theorem prev_first (h : IsRing m root (x :: xs)) : m.prev x = root := by
  rw [← h.next_root]
  exact h.root_linked.1

/-- The last member points at the root. -/
theorem next_last (h : IsRing m root (xs ++ [x])) : m.next x = root := by
  rw [← h.prev_root]
  exact h.root_linked.2

/-- Following `next` from a node to the root passes through one sequence of nodes only. -/
theorem chain_unique {a : α} (hx : (a :: xs ++ [root]).IsChain m.Linked)
    (hy : (a :: ys ++ [root]).IsChain m.Linked) (hxs : root ∉ xs) (hys : root ∉ ys) : xs = ys := by
  induction xs generalizing a ys with
  | nil =>
      have hnext : m.next a = root := (List.isChain_cons_cons.mp hx).1.1
      cases ys with
      | nil => rfl
      | cons y ys =>
          have hy' : m.next a = y := (List.isChain_cons_cons.mp hy).1.1
          exact absurd (hnext.symm.trans hy' ▸ List.mem_cons_self ..) hys
  | cons x xs ih =>
      have hx' : m.next a = x := (List.isChain_cons_cons.mp hx).1.1
      cases ys with
      | nil =>
          have hnext : m.next a = root := (List.isChain_cons_cons.mp hy).1.1
          exact absurd (hnext.symm.trans hx' ▸ List.mem_cons_self ..) hxs
      | cons y ys =>
          have hy' : m.next a = y := (List.isChain_cons_cons.mp hy).1.1
          obtain rfl : x = y := hx'.symm.trans hy'
          rw [ih (List.isChain_cons_cons.mp hx).2 (List.isChain_cons_cons.mp hy).2
            (fun h => hxs (List.mem_cons_of_mem _ h)) (fun h => hys (List.mem_cons_of_mem _ h))]

/-- A memory has at most one ring on a root. -/
theorem unique (hx : IsRing m root xs) (hy : IsRing m root ys) : xs = ys :=
  chain_unique hx.chain hy.chain hx.root_not_mem hy.root_not_mem

/-- The two arcs from the root to a member end with a node before it and begin with one after it. -/
theorem exists_ends (root : α) (xs ys : List α) :
    ∃ pre p q post, root :: xs = pre ++ [p] ∧ ys ++ [root] = q :: post := by
  obtain ⟨q, post, hpost⟩ : ∃ q post, ys ++ [root] = q :: post :=
    List.exists_cons_of_ne_nil (by simp)
  exact ⟨_, _, q, post, (List.dropLast_concat_getLast (by simp)).symm, hpost⟩

/-- The neighbours of a member are the nodes before and after it. -/
theorem neighbours (h : IsRing m root (xs ++ x :: ys)) :
    m.prev x = (root :: xs).getLast (by simp) ∧ m.next x = (ys ++ [root]).head (by simp) := by
  obtain ⟨pre, p, q, post, hpre, hpost⟩ := exists_ends root xs ys
  have hchain := h.chain
  rw [show root :: (xs ++ x :: ys) ++ [root] = (root :: xs) ++ x :: (ys ++ [root]) by simp,
    hpre, hpost, List.append_assoc, List.singleton_append] at hchain
  simpa only [hpre, hpost, List.getLast_concat, List.head_cons] using chain_neighbours hchain

end IsRing

/-! ## Following pointers -/

/-- One of the two pointers of `a` is `b`. -/
def Points (m : Links α) (a b : α) : Prop := m.next a = b ∨ m.prev a = b

/-- Following `next` from `a` leads to `b`. -/
def Reaches (m : Links α) : α → α → Prop := Relation.ReflTransGen fun a b => m.next a = b

/-- The first node of a chain reaches all of them. -/
theorem reaches_of_chain {m : Links α} {a n : α} {l : List α} (h : (a :: l).IsChain m.Linked)
    (hn : n ∈ a :: l) : m.Reaches a n := by
  induction l generalizing a with
  | nil => exact List.mem_singleton.mp hn ▸ .refl
  | cons b l ih =>
      obtain ⟨hlinked, hrest⟩ := List.isChain_cons_cons.mp h
      rcases List.mem_cons.mp hn with rfl | hn
      · exact .refl
      · exact .head hlinked.1 (ih hrest hn)

namespace IsRing

variable {m : Links α} {root a b : α} {xs : List α}

/-- The root reaches every member. -/
theorem reaches (h : IsRing m root xs) (ha : a ∈ root :: xs) : m.Reaches root a := by
  have hchain := h.chain
  rw [List.cons_append] at hchain
  exact reaches_of_chain hchain (List.mem_append_left [root] ha)

/-- The pointers of the nodes of a ring do not leave it. -/
theorem mem_of_points (h : IsRing m root xs) (ha : a ∈ root :: xs) (hab : m.Points a b) :
    b ∈ root :: xs := by
  rcases List.mem_cons.mp ha with rfl | ha
  · rcases xs.eq_nil_or_concat' with rfl | ⟨init, z, rfl⟩
    · obtain ⟨hnext, hprev⟩ := nil_iff.mp h
      rcases hab with rfl | rfl <;> simp [hnext, hprev]
    · rcases hab with rfl | rfl
      · obtain ⟨x, tail, hx⟩ := List.exists_cons_of_ne_nil (List.concat_ne_nil z init)
        rw [hx] at h ⊢
        simp [h.next_root]
      · rw [h.prev_root]
        simp
  · obtain ⟨before, after, rfl⟩ := List.append_of_mem ha
    obtain ⟨hprev, hnext⟩ := h.neighbours
    rcases hab with rfl | rfl
    · have hhead := List.head_mem (l := after ++ [root]) (by simp)
      rw [hnext]
      simp only [List.mem_append, List.mem_cons, List.not_mem_nil, or_false] at hhead ⊢
      tauto
    · have hlast := List.getLast_mem (l := root :: before) (by simp)
      rw [hprev]
      simp only [List.mem_append, List.mem_cons] at hlast ⊢
      tauto

/-- Following pointers does not leave the ring. -/
theorem mem_of_path (h : IsRing m root xs) (ha : a ∈ root :: xs)
    (hpath : Relation.ReflTransGen m.Points a b) : b ∈ root :: xs := by
  induction hpath with
  | refl => exact ha
  | tail _ hpoints ih => exact h.mem_of_points ih hpoints

/-- The root reaches nothing but itself and the members. -/
theorem mem_of_reaches (h : IsRing m root xs) (hreach : m.Reaches root b) : b ∈ root :: xs :=
  h.mem_of_path List.mem_cons_self (Relation.ReflTransGen.mono (fun _ _ => Or.inl) _ _ hreach)

end IsRing

/-- The two memories agree on every node that is not listed. -/
def SameOff (nodes : List α) (m m' : Links α) : Prop :=
  ∀ a ∉ nodes, m'.next a = m.next a ∧ m'.prev a = m.prev a

namespace SameOff

variable {m m' m'' : Links α} {nodes more : List α}

theorem refl (m : Links α) : SameOff nodes m m := fun _ _ => ⟨rfl, rfl⟩

/-- Changes made one after the other. -/
theorem trans (h : SameOff nodes m m') (h' : SameOff nodes m' m'') : SameOff nodes m m'' :=
  fun a ha => ⟨(h' a ha).1.trans (h a ha).1, (h' a ha).2.trans (h a ha).2⟩

/-- Changes on fewer nodes are changes on more nodes. -/
theorem mono (h : SameOff nodes m m') (hsub : nodes ⊆ more) : SameOff more m m' :=
  fun a ha => h a fun hmem => ha (hsub hmem)

end SameOff

/-- Differences have no direction. -/
theorem SameOff.symm {m m' : Links α} {nodes : List α} (h : SameOff nodes m m') :
    SameOff nodes m' m :=
  fun a ha => ⟨(h a ha).1.symm, (h a ha).2.symm⟩

/-- Two memories with the same ring agree on its nodes. -/
theorem IsRing.same {m m' : Links α} {root a : α} {xs : List α} (h : IsRing m root xs)
    (h' : IsRing m' root xs) (ha : a ∈ root :: xs) :
    m'.next a = m.next a ∧ m'.prev a = m.prev a := by
  rcases List.mem_cons.mp ha with rfl | ha
  · constructor
    · cases xs with
      | nil => rw [(nil_iff.mp h).1, (nil_iff.mp h').1]
      | cons x xs => rw [h.next_root, h'.next_root]
    · rcases xs.eq_nil_or_concat' with rfl | ⟨init, z, rfl⟩
      · rw [(nil_iff.mp h).2, (nil_iff.mp h').2]
      · rw [h.prev_root, h'.prev_root]
  · obtain ⟨before, after, rfl⟩ := List.append_of_mem ha
    rw [h.neighbours.1, h.neighbours.2, h'.neighbours.1, h'.neighbours.2]
    exact ⟨rfl, rfl⟩

/-- A ring that is what it was accounts for the changes on its own nodes. -/
theorem SameOff.of_ring {m m' : Links α} {root : α} {xs nodes more : List α}
    (h : SameOff nodes m m') (hring : IsRing m root xs) (hring' : IsRing m' root xs)
    (hnodes : ∀ a ∈ nodes, a ∈ more ∨ a ∈ root :: xs) : SameOff more m m' := by
  intro a ha
  by_cases hmem : a ∈ root :: xs
  · exact hring.same hring' hmem
  · exact h a fun hn => (hnodes a hn).elim ha hmem

/-- **Frame.** Changes on other nodes leave a ring alone. -/
theorem IsRing.frame {m m' : Links α} {root : α} {xs nodes : List α} (h : IsRing m root xs)
    (hsame : SameOff nodes m m') (hdisj : ∀ a ∈ root :: xs, a ∉ nodes) : IsRing m' root xs :=
  h.congr (fun a ha => (hsame a (hdisj a ha)).1) (fun a ha => (hsame a (hdisj a ha)).2)

/-! ## Editing a ring -/

variable [DecidableEq α]

/-- Write the `next` pointer of `a`. -/
def setNext (m : Links α) (a b : α) : Links α := { m with next := Function.update m.next a b }

/-- Write the `prev` pointer of `a`. -/
def setPrev (m : Links α) (a b : α) : Links α := { m with prev := Function.update m.prev a b }

/-- Make `a` and `b` point at each other. -/
def link (m : Links α) (a b : α) : Links α := (m.setNext a b).setPrev b a

variable {m : Links α} {a b c : α}

@[simp] theorem setNext_next : (m.setNext a b).next c = if c = a then b else m.next c :=
  Function.update_apply ..

@[simp] theorem setNext_prev : (m.setNext a b).prev c = m.prev c := rfl

@[simp] theorem setPrev_prev : (m.setPrev a b).prev c = if c = a then b else m.prev c :=
  Function.update_apply ..

@[simp] theorem setPrev_next : (m.setPrev a b).next c = m.next c := rfl

@[simp] theorem link_next : (m.link a b).next c = if c = a then b else m.next c :=
  Function.update_apply ..

@[simp] theorem link_prev : (m.link a b).prev c = if c = b then a else m.prev c :=
  Function.update_apply ..

/-- One write to a pointer of a node. -/
inductive Write (α : Type u) where
  | next (a b : α)
  | prev (a b : α)
  deriving DecidableEq, Repr

/-- The node whose pointer is written. -/
def Write.node : Write α → α
  | .next a _ | .prev a _ => a

/-- Do a write. -/
def write (m : Links α) : Write α → Links α
  | .next a b => m.setNext a b
  | .prev a b => m.setPrev a b

/-- The nodes that were just linked are linked. -/
theorem link_linked : (m.link a b).Linked a b := by simp [Linked]

/-- Linking nodes outside of a chain does not change it. -/
theorem chain_link {l : List α} (ha : a ∉ l.dropLast) (hb : b ∉ l.tail)
    (h : l.IsChain m.Linked) : l.IsChain (m.link a b).Linked := by
  refine chain_congr (fun c hc => ?_) (fun c hc => ?_) h
  · rw [link_next, if_neg (ne_of_mem_of_not_mem hc ha)]
  · rw [link_prev, if_neg (ne_of_mem_of_not_mem hc hb)]

/-- Taking a node out of a chain, when its neighbours occur nowhere else in it. -/
theorem chain_remove {pre post : List α} {p n q : α}
    (h : (pre ++ p :: n :: q :: post).IsChain m.Linked)
    (hp : p ∉ pre ∧ p ∉ (q :: post).dropLast) (hq : q ∉ (pre ++ [p]).tail ∧ q ∉ post) :
    (pre ++ p :: q :: post).IsChain (m.link p q).Linked := by
  rw [List.isChain_append_cons_cons, List.isChain_cons_cons] at h
  obtain ⟨hbefore, -, -, hafter⟩ := h
  rw [List.isChain_append_cons_cons]
  exact ⟨chain_link (by simpa using hp.1) hq.1 hbefore, link_linked,
    chain_link hp.2 hq.2 hafter⟩

/-- Linking changes the two nodes only. -/
theorem SameOff.link {nodes : List α} (ha : a ∈ nodes) (hb : b ∈ nodes) :
    SameOff nodes m (m.link a b) := by
  intro c hc
  rw [link_next, link_prev, if_neg (ne_of_mem_of_not_mem ha hc).symm,
    if_neg (ne_of_mem_of_not_mem hb hc).symm]
  exact ⟨rfl, rfl⟩

namespace IsRing

variable {root n : α} {xs ys : List α}

/-- **Append.** Linking a new node between the last member and the root. -/
theorem append (h : IsRing m root xs) (hn : n ∉ root :: xs) :
    IsRing ((m.link (m.prev root) n).link n root) root (xs ++ [n]) := by
  obtain ⟨pre, p, hpre⟩ : ∃ pre p, root :: xs = pre ++ [p] :=
    ⟨_, _, (List.dropLast_concat_getLast (by simp)).symm⟩
  have hnodup : (root :: (xs ++ [n])).Nodup := by
    rw [← List.cons_append]
    refine List.nodup_append.mpr ⟨h.nodup, List.nodup_singleton n, fun a ha b hb => ?_⟩
    rw [List.mem_singleton.mp hb]
    exact ne_of_mem_of_not_mem ha hn
  have hchain := h.chain
  rw [hpre, List.append_assoc, List.singleton_append, List.isChain_append_cons_cons] at hchain
  obtain ⟨hbefore, ⟨-, hprev⟩, -⟩ := hchain
  have hmem : ∀ c, c ∈ pre ++ [p] ↔ c ∈ root :: xs := fun c => by rw [hpre]
  have hpn : p ≠ n := fun he => hn ((hmem n).mp (he ▸ by simp))
  have hroot : root ∉ (pre ++ [p]).tail := by
    rw [← hpre]
    exact h.root_not_mem
  have hp : p ∉ pre := by
    have hnodup := hpre ▸ h.nodup
    exact fun hmem => (List.nodup_append.mp hnodup).2.2 p hmem p (by simp) rfl
  refine ⟨hnodup, ?_⟩
  rw [show root :: (xs ++ [n]) ++ [root] = (root :: xs) ++ n :: [root] by simp, hpre,
    List.append_assoc, List.singleton_append, List.isChain_append_cons_cons, List.isChain_pair,
    hprev]
  refine ⟨chain_link ?_ hroot (chain_link ?_ ?_ hbefore), ?_, link_linked⟩
  · intro hc
    exact hn ((hmem n).mp (List.dropLast_subset _ hc))
  · simpa using hp
  · intro hc
    exact hn ((hmem n).mp (List.mem_of_mem_tail hc))
  · exact ⟨by simp [hpn], by simp [show n ≠ root from fun he => hn (he ▸ List.mem_cons_self ..)]⟩

/-- **Remove.** Linking the neighbours of a member to each other. -/
theorem remove (h : IsRing m root (xs ++ n :: ys)) :
    IsRing (m.link (m.prev n) (m.next n)) root (xs ++ ys) := by
  obtain ⟨pre, p, q, post, hpre, hpost⟩ := exists_ends root xs ys
  have hnodup : (root :: (xs ++ ys)).Nodup :=
    h.nodup.sublist (((List.sublist_cons_self n ys).append_left xs).cons_cons root)
  have hchain := h.chain
  rw [show root :: (xs ++ n :: ys) ++ [root] = (root :: xs) ++ n :: (ys ++ [root]) by simp,
    hpre, hpost, List.append_assoc, List.singleton_append] at hchain
  -- no node occurs twice before the last one or after the first one
  have hdrop : ((pre ++ [p]) ++ n :: (q :: post).dropLast).Nodup := by
    rw [← hpre, ← hpost]
    simpa using h.nodup
  have htail : ((pre ++ [p]).tail ++ n :: (q :: post)).Nodup := by
    rw [← hpre, ← hpost]
    have hperm : (root :: (xs ++ n :: ys)).Perm (xs ++ n :: (ys ++ [root])) := by
      simpa using (List.perm_append_singleton root (xs ++ n :: ys)).symm
    simpa using hperm.nodup_iff.mp h.nodup
  have hp' : p ∉ pre ∧ p ∉ (q :: post).dropLast := by
    obtain ⟨hfirst, -, hdisj⟩ := List.nodup_append.mp hdrop
    exact ⟨fun hc => (List.nodup_append.mp hfirst).2.2 p hc p (by simp) rfl,
      fun hc => hdisj p (by simp) p (List.mem_cons_of_mem n hc) rfl⟩
  have hq' : q ∉ (pre ++ [p]).tail ∧ q ∉ post := by
    obtain ⟨-, hlast, hdisj⟩ := List.nodup_append.mp htail
    exact ⟨fun hc => hdisj q hc q (by simp) rfl,
      (List.nodup_cons.mp (List.nodup_cons.mp hlast).2).1⟩
  obtain ⟨hprev, hnext⟩ := chain_neighbours hchain
  refine ⟨hnodup, ?_⟩
  rw [show root :: (xs ++ ys) ++ [root] = (root :: xs) ++ (ys ++ [root]) by simp, hpre, hpost,
    List.append_assoc, List.singleton_append, hprev, hnext]
  exact chain_remove hchain hp' hq'

/-- Removing a member of a ring changes nodes of the ring only. -/
theorem sameOff_remove (h : IsRing m root (xs ++ n :: ys)) :
    SameOff (root :: (xs ++ n :: ys)) m (m.link (m.prev n) (m.next n)) := by
  have hn : n ∈ root :: (xs ++ n :: ys) := by simp
  exact SameOff.link (h.mem_of_points hn (Or.inr rfl)) (h.mem_of_points hn (Or.inl rfl))

/-- Appending a node to a ring changes the node and nodes of the ring only. -/
theorem sameOff_append (h : IsRing m root xs) :
    SameOff (n :: root :: xs) m ((m.link (m.prev root) n).link n root) := by
  have hprev : m.prev root ∈ n :: root :: xs :=
    List.mem_cons_of_mem n (h.mem_of_points List.mem_cons_self (Or.inr rfl))
  exact (SameOff.link hprev (by simp)).trans (SameOff.link (by simp) (by simp))

/-- **Move.** The members of a ring hang on a new root; the old one is left empty. -/
theorem move {old : α} (h : IsRing m old xs) (hroot : root ∉ old :: xs) :
    let first := if m.next old = old then root else m.next old
    let last := if m.prev old = old then root else m.prev old
    let m' := ((m.link old old).link root first).link last root
    IsRing m' root xs ∧ IsRing m' old [] := by
  have hne : old ≠ root := fun he => hroot (he ▸ List.mem_cons_self ..)
  have hxs : root ∉ xs := fun hmem => hroot (List.mem_cons_of_mem _ hmem)
  intro first last m'
  rcases List.eq_nil_or_concat' xs with rfl | ⟨init, z, rfl⟩
  · have hnil := nil_iff.mp h
    have hfirst : first = root := if_pos hnil.1
    have hlast : last = root := if_pos hnil.2
    refine ⟨nil_iff.mpr ?_, nil_iff.mpr ?_⟩ <;> simp [m', hfirst, hlast, hne]
  · -- `x` is the first member and `z` the last one; they may be the same node
    obtain ⟨x, tail, hx⟩ := List.exists_cons_of_ne_nil (List.concat_ne_nil z init)
    have hold := h.root_not_mem
    have hfirst : first = x := by
      have hnext := (hx ▸ h).next_root
      have hne : x ≠ old := fun he => hold (by rw [hx, he]; exact List.mem_cons_self ..)
      simp only [first, hnext, if_neg hne]
    have hlast : last = z := by
      have hne : z ≠ old := fun he => hold (by simp [he])
      simp only [last, h.prev_root, if_neg hne]
    have hmembers : (init ++ [z]).Nodup := (List.nodup_cons.mp h.nodup).2
    have hz : z ∉ init := fun hmem => (List.nodup_append.mp hmembers).2.2 z hmem z (by simp) rfl
    have hxt : x ∉ tail := (List.nodup_cons.mp (hx ▸ hmembers)).1
    have hinner : (init ++ [z]).IsChain m.Linked := by
      have hchain := h.chain
      rw [List.cons_append] at hchain
      exact hchain.tail.left_of_append
    have hinner' : (init ++ [z]).IsChain m'.Linked := by
      have hzr : root ∉ (init ++ [z]).tail := fun hmem => hxs (List.mem_of_mem_tail hmem)
      have hrd : root ∉ (init ++ [z]).dropLast := fun hmem => hxs (List.dropLast_subset _ hmem)
      refine chain_link (by simpa [hlast] using hz) hzr
        (chain_link hrd ?_ (chain_link ?_ ?_ hinner))
      · rw [hfirst, hx]
        exact hxt
      · exact fun hmem => hold (List.dropLast_subset _ hmem)
      · exact fun hmem => hold (List.mem_of_mem_tail hmem)
    have hzroot : z ≠ root := fun he => hxs (he ▸ by simp)
    have hxroot : x ≠ root := fun he => hxs (hx ▸ he ▸ List.mem_cons_self ..)
    refine ⟨⟨List.nodup_cons.mpr ⟨hxs, hmembers⟩, ?_⟩, nil_iff.mpr ?_⟩
    · rw [show root :: (init ++ [z]) ++ [root] = (root :: init) ++ z :: root :: [] by simp,
        List.isChain_append_cons_cons, List.cons_append]
      refine ⟨?_, hlast ▸ link_linked, .singleton root⟩
      rw [hx] at hinner' ⊢
      exact List.isChain_cons_cons.mpr
        ⟨⟨by simp [m', hfirst, hlast, hzroot.symm], by simp [m', hfirst, hxroot]⟩, hinner'⟩
    · have hzold : old ≠ z := fun he => hold (he ▸ by simp)
      have hxold : old ≠ x := fun he => hold (hx ▸ he ▸ List.mem_cons_self ..)
      simp [m', hfirst, hlast, hne, hzold, hxold]

end IsRing

/-! ## Families of rings -/

/-- The roots and the members of a family of rings. -/
def nodes (rings : List (α × List α)) : List α := rings.flatMap fun ring => ring.1 :: ring.2

omit [DecidableEq α] in
/-- No rings have no nodes. -/
@[simp] theorem nodes_nil : nodes ([] : List (α × List α)) = [] := rfl

omit [DecidableEq α] in
/-- A node of a family is a root, a member, or a node of the other rings. -/
@[simp] theorem mem_nodes_cons {a root : α} {xs : List α} {rest : List (α × List α)} :
    a ∈ nodes ((root, xs) :: rest) ↔ a = root ∨ a ∈ xs ∨ a ∈ nodes rest := by
  simp [nodes]

omit [DecidableEq α] in
/-- A node of a family is a root or a member. -/
theorem mem_nodes_iff {a : α} {rings : List (α × List α)} :
    a ∈ nodes rings ↔ a ∈ rings.map Prod.fst ∨ a ∈ rings.flatMap Prod.snd := by
  induction rings with
  | nil => simp
  | cons ring rings ih =>
      rw [mem_nodes_cons, ih]
      simp only [List.map_cons, List.mem_cons, List.flatMap_cons, List.mem_append]
      tauto

omit [DecidableEq α] in
/-- The order of the rings does not matter for their nodes. -/
theorem mem_nodes_perm {a : α} {rings rings' : List (α × List α)} (hperm : rings.Perm rings') :
    a ∈ nodes rings ↔ a ∈ nodes rings' :=
  (hperm.flatMap_right _).mem_iff

/-- The memory holds these rings, and no node is in two of them. -/
def Rings (m : Links α) (rings : List (α × List α)) : Prop :=
  (nodes rings).Nodup ∧ ∀ ring ∈ rings, IsRing m ring.1 ring.2

instance (m : Links α) (rings : List (α × List α)) : Decidable (Rings m rings) :=
  inferInstanceAs (Decidable (_ ∧ _))

namespace Rings

omit [DecidableEq α]

variable {m' : Links α} {root : α} {xs xs' : List α} {before rest : List (α × List α)}
  {ring : α × List α}

/-- A family is a ring and a family on other nodes. -/
theorem cons_iff : Rings m ((root, xs) :: rest) ↔
    IsRing m root xs ∧ Rings m rest ∧ ∀ a ∈ root :: xs, a ∉ nodes rest := by
  have hnodes : nodes ((root, xs) :: rest) = (root :: xs) ++ nodes rest := List.flatMap_cons ..
  have hall : (∀ ring ∈ (root, xs) :: rest, IsRing m ring.1 ring.2) ↔
      IsRing m root xs ∧ ∀ ring ∈ rest, IsRing m ring.1 ring.2 := List.forall_mem_cons
  rw [Rings, hnodes, List.nodup_append, hall]
  constructor
  · intro ⟨⟨_, hrest, hdisj⟩, hring, hrings⟩
    exact ⟨hring, ⟨hrest, hrings⟩, fun a ha hmem => hdisj a ha a hmem rfl⟩
  · intro ⟨hring, ⟨hrest, hrings⟩, hdisj⟩
    exact ⟨⟨hring.nodup, hrest, fun a ha b hb => (ne_of_mem_of_not_mem hb (hdisj a ha)).symm⟩,
      hring, hrings⟩

/-- The order of the rings does not matter. -/
theorem perm {rings rings' : List (α × List α)} (h : Rings m rings) (hperm : rings.Perm rings') :
    Rings m rings' :=
  ⟨(hperm.flatMap_right _).nodup_iff.mp h.1, fun q hq => h.2 q (hperm.mem_iff.mpr hq)⟩

/-- Some of the rings are a family again. -/
theorem sublist {rings rings' : List (α × List α)} (h : Rings m rings)
    (hsub : rings'.Sublist rings) : Rings m rings' :=
  ⟨h.1.sublist (hsub.flatMap _), fun q hq => h.2 q (hsub.subset hq)⟩

/-- Bring one of the rings to the front. -/
theorem bring (before : List (α × List α)) (h : Rings m (before ++ ring :: rest)) :
    Rings m (ring :: (before ++ rest)) :=
  h.perm List.perm_middle

/-- The first ring of a family. -/
theorem head (h : Rings m ((root, xs) :: rest)) : IsRing m root xs := (cons_iff.mp h).1

/-- The rings but the first. -/
theorem tail (h : Rings m (ring :: rest)) : Rings m rest := (cons_iff.mp h).2.1

/-- **Frame.** Changes on other nodes leave a family of rings alone. -/
theorem frame {touched : List α} (h : Rings m rest) (hsame : SameOff touched m m')
    (hdisj : ∀ a ∈ touched, a ∉ nodes rest) : Rings m' rest := by
  refine ⟨h.1, fun q hq => (h.2 q hq).frame hsame fun a ha hmem => hdisj a hmem ?_⟩
  exact List.mem_flatMap.mpr ⟨q, hq, ha⟩

/-- **Edit.** A change of the first ring that touches no node of the others. -/
theorem edit {touched : List α} (h : Rings m ((root, xs) :: rest)) (hring : IsRing m' root xs')
    (hsame : SameOff touched m m') (hdisj : ∀ a ∈ touched, a ∉ nodes rest)
    (hnew : ∀ a ∈ root :: xs', a ∉ nodes rest) : Rings m' ((root, xs') :: rest) :=
  cons_iff.mpr ⟨hring, h.tail.frame hsame hdisj, hnew⟩

end Rings

/-! ### Rings indexed by their roots -/

namespace Rings

variable {root : α} {roots : List α} {members : α → List α}

/-- One ring on every root. -/
def family (roots : List α) (members : α → List α) : List (α × List α) :=
  roots.map fun root => (root, members root)

/-- A family with other members on one root is that ring with the rings on the other roots. -/
theorem family_update (hnodup : roots.Nodup) (hroot : root ∈ roots) (xs : List α) :
    (family roots (Function.update members root xs)).Perm
      ((root, xs) :: family (roots.erase root) members) := by
  have hfirst := (List.perm_cons_erase hroot).map fun r => (r, Function.update members root xs r)
  have hothers : (roots.erase root).map (fun r => (r, Function.update members root xs r)) =
      family (roots.erase root) members := by
    refine List.map_congr_left fun r hr => ?_
    have hne : r ≠ root := (hnodup.mem_erase_iff.mp hr).1
    rw [Function.update_of_ne hne]
  rwa [List.map_cons, Function.update_self, hothers] at hfirst

/-- One of the rings first. -/
theorem family_perm (hnodup : roots.Nodup) (hroot : root ∈ roots) :
    (family roots members).Perm ((root, members root) :: family (roots.erase root) members) := by
  have hsame : (family roots (Function.update members root (members root))).Perm _ :=
    family_update hnodup hroot (members root)
  rwa [Function.update_eq_self] at hsame

omit [DecidableEq α] in
/-- The ring on one of the roots. -/
theorem ring_of_family (h : Rings m (family roots members)) (hroot : root ∈ roots) :
    IsRing m root (members root) :=
  h.2 (root, members root) (List.mem_map.mpr ⟨root, hroot, rfl⟩)

omit [DecidableEq α] in
/-- The nodes of a family. -/
theorem mem_nodes_family {a : α} :
    a ∈ nodes (family roots members) ↔ a ∈ roots ∨ ∃ root ∈ roots, a ∈ members root := by
  simp only [nodes, family, List.mem_flatMap, List.mem_map]
  constructor
  · rintro ⟨ring, ⟨root, hroot, rfl⟩, ha⟩
    rcases List.mem_cons.mp ha with rfl | ha
    · exact Or.inl hroot
    · exact Or.inr ⟨root, hroot, ha⟩
  · rintro (ha | ⟨root, hroot, ha⟩)
    · exact ⟨_, ⟨a, ha, rfl⟩, List.mem_cons_self⟩
    · exact ⟨_, ⟨root, hroot, rfl⟩, List.mem_cons_of_mem _ ha⟩

omit [DecidableEq α] in
/-- The nodes of one of the rings. -/
theorem mem_nodes_of_ring {a : α} (hroot : root ∈ roots) (ha : a ∈ root :: members root) :
    a ∈ nodes (family roots members) := by
  rcases List.mem_cons.mp ha with rfl | hmem
  · exact mem_nodes_family.mpr (Or.inl hroot)
  · exact mem_nodes_family.mpr (Or.inr ⟨root, hroot, hmem⟩)

/-- Other members on one root are the only new nodes. -/
theorem mem_nodes_update {a : α} {xs : List α}
    (ha : a ∈ nodes (family roots (Function.update members root xs))) :
    a ∈ nodes (family roots members) ∨ a ∈ xs := by
  rcases mem_nodes_family.mp ha with hroot | ⟨r, hr, hmem⟩
  · exact Or.inl (mem_nodes_family.mpr (Or.inl hroot))
  · by_cases hroot : r = root
    · subst hroot
      rw [Function.update_self] at hmem
      exact Or.inr hmem
    · rw [Function.update_of_ne hroot] at hmem
      exact Or.inl (mem_nodes_family.mpr (Or.inr ⟨r, hr, hmem⟩))

end Rings

end Links
