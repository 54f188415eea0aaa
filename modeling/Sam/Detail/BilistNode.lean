import Sam.Library.Links

/-!
# `bilist_node`

The member functions of `detail/bilist_node.hpp`, write by write, over the pointers of all nodes. A
node is its address. The lemmas say what each function does to a ring of nodes: `link_before` a root
appends, `unlink` erases, and the move constructor moves the members to the new root. The move
assignment does none of this: it empties the target when the source is empty, and changes nothing
otherwise (`moveAssign_of_empty`, `moveAssign_of_nonempty`).
-/

namespace Sam.BilistNode

universe u

open Links

variable {α : Type u} [DecidableEq α]

/-- The default constructor. -/
def construct (m : Links α) (this : α) : Links α := (m.setNext this this).setPrev this this

/-- `unlink`. -/
def unlink (m : Links α) (this : α) : Links α :=
  let p := m.prev this
  let n := m.next this
  (m.setPrev n p).setNext p n

/-- The writes of `unlink`, which has read both pointers before the first of them. -/
def unlinkWrites (m : Links α) (this : α) : List (Write α) :=
  [.prev (m.next this) (m.prev this), .next (m.prev this) (m.next this)]

/-- `link_before`. -/
def linkBefore (m : Links α) (this next : α) : Links α :=
  let m := m.setNext this next
  let m := m.setPrev this (m.prev next)
  let m := m.setNext (m.prev this) this
  m.setPrev next this

/-- The loop of `size`, which counts on from `sz` at the node `p`. It gives up when `fuel` runs
out. -/
def sizeLoop (m : Links α) (this : α) : Nat → α → Nat → Option Nat
  | 0, _, _ => none
  | fuel + 1, p, sz => if p = this then some sz else sizeLoop m this fuel (m.next p) (sz + 1)

/-- `size`. -/
def size (m : Links α) (fuel : Nat) (this : α) : Option Nat := sizeLoop m this fuel (m.next this) 0

/-- The move constructor. -/
def moveConstruct (m : Links α) (this lhs : α) : Links α :=
  let m := (m.setNext this (m.next lhs)).setPrev this (m.prev lhs)
  let m := (m.setNext lhs lhs).setPrev lhs lhs
  let m := if m.next this = lhs then m.setNext this this else m.setPrev (m.next this) this
  if m.prev this = lhs then m.setPrev this this else m.setNext (m.prev this) this

/-- The move assignment. It asks whether `lhs` is empty, but never takes its members. -/
def moveAssign (m : Links α) (this lhs : α) : Links α :=
  let m := if m.next lhs = lhs then m.setNext this this else m.setPrev (m.next this) this
  if m.prev lhs = lhs then m.setPrev this this else m.setNext (m.prev this) this

variable {m : Links α} {root n this lhs : α} {xs ys : List α}

/-- A new node is an empty root. -/
theorem construct_ring : IsRing (construct m root) root [] :=
  IsRing.nil_iff.mpr (by simp [construct])

/-- Constructing a node changes that node only. -/
theorem construct_sameOff : SameOff [this] m (construct m this) := by
  intro a ha
  simp [construct, List.mem_singleton.not.mp ha]

/-! ## Members join and leave -/

/-- `unlink` links the neighbours to each other. -/
theorem unlink_eq : unlink m n = m.link (m.prev n) (m.next n) := rfl

/-- `unlink` is its writes. -/
theorem unlink_eq_writes : unlink m n = (unlinkWrites m n).foldl write m := rfl

/-- `link_before` links the node between `next` and the node before it. -/
theorem linkBefore_eq (hprev : m.prev root ≠ n) :
    linkBefore m n root = (m.link (m.prev root) n).link n root := by
  refine Links.ext ?_ rfl
  simp only [linkBefore, link, setNext, setPrev, Function.update_self]
  exact Function.update_comm hprev.symm ..

/-- **`link_before` a root appends** a node that is not in the ring. -/
theorem linkBefore_ring (h : IsRing m root xs) (hn : n ∉ root :: xs) :
    IsRing (linkBefore m n root) root (xs ++ [n]) ∧
      SameOff (n :: root :: xs) m (linkBefore m n root) := by
  have hprev : m.prev root ≠ n := by
    intro he
    rcases List.eq_nil_or_concat' xs with rfl | ⟨ys, y, rfl⟩
    · exact hn (by simp [← he, (IsRing.nil_iff.mp h).2])
    · exact hn (by simp [← he, h.prev_root])
  rw [linkBefore_eq hprev]
  exact ⟨h.append hn, h.sameOff_append⟩

/-- **`unlink` erases** a member of a ring. -/
theorem unlink_ring (h : IsRing m root xs) (hn : n ∈ xs) :
    IsRing (unlink m n) root (xs.erase n) ∧ SameOff (root :: xs) m (unlink m n) := by
  obtain ⟨before, after, rfl⟩ := List.append_of_mem hn
  have hnew : n ∉ before := fun hmem =>
    (List.nodup_append.mp (List.nodup_cons.mp h.nodup).2).2.2 n hmem n (by simp) rfl
  rw [List.erase_append_right _ hnew, List.erase_cons_head, unlink_eq]
  exact ⟨h.remove, h.sameOff_remove⟩

/-- Unlinking a node whose pointers lead to an empty root changes nothing. -/
theorem unlink_of_detached (h : IsRing m root []) (hprev : m.prev n = root)
    (hnext : m.next n = root) : unlink m n = m := by
  obtain ⟨hself, hself'⟩ := IsRing.nil_iff.mp h
  rw [unlink_eq, hprev, hnext]
  ext a
  · rw [link_next]
    split <;> simp_all
  · rw [link_prev]
    split <;> simp_all

/-- The loop of `size` counts the rest of the ring. -/
theorem sizeLoop_eq {p : α} {rest : List α} {fuel sz : Nat} (hroot : this ∉ rest)
    (hchain : (p :: rest ++ [this]).IsChain m.Linked) (hfuel : rest.length < fuel) :
    sizeLoop m this fuel (m.next p) sz = some (sz + rest.length) := by
  induction rest generalizing p fuel sz with
  | nil =>
      obtain ⟨fuel, rfl⟩ := Nat.exists_eq_add_of_lt hfuel
      have hnext : m.next p = this := (List.isChain_cons_cons.mp hchain).1.1
      simp [sizeLoop, hnext]
  | cons q rest ih =>
      obtain ⟨hlinked, hrest⟩ := List.isChain_cons_cons.mp hchain
      have hq : q ≠ this := fun he => hroot (he ▸ List.mem_cons_self ..)
      cases fuel with
      | zero => simp at hfuel
      | succ fuel =>
          rw [hlinked.1, sizeLoop, if_neg hq,
            ih (fun hmem => hroot (List.mem_cons_of_mem q hmem)) hrest (by simpa using hfuel)]
          simp only [List.length_cons, Option.some.injEq]
          omega

/-- **`size` counts the members** of a ring. -/
theorem size_ring (h : IsRing m root xs) {fuel : Nat} (hfuel : xs.length < fuel) :
    size m fuel root = some xs.length := by
  rw [size, sizeLoop_eq h.root_not_mem h.chain hfuel, Nat.zero_add]

/-! ## Roots move -/

/-- The pointers after the move constructor. -/
theorem moveConstruct_eq (h : IsRing m lhs xs) (hthis : this ∉ lhs :: xs) :
    moveConstruct m this lhs =
      ((m.link lhs lhs).link this (if m.next lhs = lhs then this else m.next lhs)).link
        (if m.prev lhs = lhs then this else m.prev lhs) this := by
  have hne : this ≠ lhs := fun he => hthis (he ▸ List.mem_cons_self ..)
  rcases xs.eq_nil_or_concat' with rfl | ⟨init, z, rfl⟩
  · obtain ⟨hnext, hprev⟩ := IsRing.nil_iff.mp h
    ext a <;> simp [moveConstruct, hnext, hprev, hne] <;> split_ifs <;> simp_all
  · have hnext := h.next_root_eq_iff.not.mpr (List.concat_ne_nil z init)
    have hprev := h.prev_root_eq_iff.not.mpr (List.concat_ne_nil z init)
    have hfirst : m.next lhs ≠ this := by
      obtain ⟨x, tail, hx⟩ := List.exists_cons_of_ne_nil (List.concat_ne_nil z init)
      rw [hx] at h hthis
      rw [h.next_root]
      exact fun he => hthis (he ▸ by simp)
    ext a <;> simp [moveConstruct, hnext, hprev, hne, hfirst.symm] <;> split_ifs <;> simp_all

/-- **The move constructor takes the members** of the source and leaves it empty. -/
theorem moveConstruct_ring (h : IsRing m lhs xs) (hthis : this ∉ lhs :: xs) :
    IsRing (moveConstruct m this lhs) this xs ∧ IsRing (moveConstruct m this lhs) lhs [] ∧
      SameOff (this :: lhs :: xs) m (moveConstruct m this lhs) := by
  obtain ⟨hmoved, hempty⟩ := h.move hthis
  rw [moveConstruct_eq h hthis]
  refine ⟨hmoved, hempty, ?_⟩
  have hfirst : (if m.next lhs = lhs then this else m.next lhs) ∈ this :: lhs :: xs := by
    cases xs with
    | nil => simp [(IsRing.nil_iff.mp h).1]
    | cons x xs =>
        rw [h.next_root]
        split <;> simp
  have hlast : (if m.prev lhs = lhs then this else m.prev lhs) ∈ this :: lhs :: xs := by
    rcases xs.eq_nil_or_concat' with rfl | ⟨init, z, rfl⟩
    · simp [(IsRing.nil_iff.mp h).2]
    · rw [h.prev_root]
      split <;> simp
  exact ((SameOff.link (by simp) (by simp)).trans (SameOff.link (by simp) hfirst)).trans
    (SameOff.link hlast (by simp))

/-- **Move assignment from an empty root** resets the target: what hung on it hangs on nothing. -/
theorem moveAssign_of_empty (h : IsRing m lhs []) :
    IsRing (moveAssign m this lhs) this [] ∧ SameOff [this] m (moveAssign m this lhs) := by
  obtain ⟨hnext, hprev⟩ := IsRing.nil_iff.mp h
  have heq : moveAssign m this lhs = (m.setNext this this).setPrev this this := by
    simp [moveAssign, hnext, hprev]
  rw [heq]
  exact ⟨construct_ring, construct_sameOff⟩

/-- **Move assignment from a root with members** changes nothing. -/
theorem moveAssign_of_nonempty (h : IsRing m lhs ys) (hys : ys ≠ []) (hthis : IsRing m this xs) :
    moveAssign m this lhs = m := by
  have hnext := h.next_root_eq_iff.not.mpr hys
  have hprev := h.prev_root_eq_iff.not.mpr hys
  obtain ⟨hfirst, hlast⟩ := hthis.root_linked
  have hsame : m.setPrev (m.next this) this = m := by
    ext a
    · rfl
    · rw [setPrev_prev]
      split <;> simp_all
  have hsame' : m.setNext (m.prev this) this = m := by
    ext a
    · rw [setNext_next]
      split <;> simp_all
    · rfl
  simp only [moveAssign, hnext, if_false, hsame, hprev, hsame']

/-! ## In a family of rings -/

variable {rest : List (α × List α)}

/-- A node joins the list of one of the roots. -/
theorem linkBefore_rings (h : Rings m ((root, xs) :: rest))
    (hn : n ∉ nodes ((root, xs) :: rest)) :
    Rings (linkBefore m n root) ((root, xs ++ [n]) :: rest) := by
  obtain ⟨hring, -, hdisj⟩ := Rings.cons_iff.mp h
  have hnodes : nodes ((root, xs) :: rest) = (root :: xs) ++ nodes rest := List.flatMap_cons ..
  rw [hnodes, List.mem_append, not_or] at hn
  obtain ⟨hring', hsame⟩ := linkBefore_ring hring hn.1
  have htouched : ∀ c ∈ n :: root :: xs, c ∉ nodes rest := by
    intro c hc
    rcases List.mem_cons.mp hc with rfl | hc
    · exact hn.2
    · exact hdisj c hc
  refine h.edit hring' hsame htouched fun c hc => htouched c ?_
  simp only [List.mem_cons, List.mem_append, List.not_mem_nil, or_false] at hc ⊢
  tauto

/-- A node leaves the list that it is in. -/
theorem unlink_rings (h : Rings m ((root, xs) :: rest)) (hn : n ∈ xs) :
    Rings (unlink m n) ((root, xs.erase n) :: rest) := by
  obtain ⟨hring, -, hdisj⟩ := Rings.cons_iff.mp h
  obtain ⟨hring', hsame⟩ := unlink_ring hring hn
  exact h.edit hring' hsame hdisj fun c hc =>
    hdisj c (List.cons_subset_cons root List.erase_subset hc)

/-- A new root takes the list of another one. -/
theorem moveConstruct_rings (h : Rings m ((lhs, xs) :: rest))
    (hthis : this ∉ nodes ((lhs, xs) :: rest)) :
    Rings (moveConstruct m this lhs) ((this, xs) :: (lhs, []) :: rest) := by
  obtain ⟨hlhs, -, hdisj⟩ := Rings.cons_iff.mp h
  have hnodes : nodes ((lhs, xs) :: rest) = (lhs :: xs) ++ nodes rest := List.flatMap_cons ..
  rw [hnodes, List.mem_append, not_or] at hthis
  obtain ⟨hring, hempty, hsame⟩ := moveConstruct_ring hlhs hthis.1
  have htouched : ∀ c ∈ this :: lhs :: xs, c ∉ nodes rest := by
    intro c hc
    rcases List.mem_cons.mp hc with rfl | hc
    · exact hthis.2
    · exact hdisj c hc
  have hnext : Rings (moveConstruct m this lhs) ((lhs, []) :: rest) :=
    h.edit hempty hsame htouched fun c hc =>
      hdisj c (List.mem_singleton.mp hc ▸ List.mem_cons_self ..)
  refine Rings.cons_iff.mpr ⟨hring, hnext, fun c hc => ?_⟩
  have hnodes' : nodes ((lhs, []) :: rest) = [lhs] ++ nodes rest := List.flatMap_cons ..
  rw [hnodes', List.mem_append, List.mem_singleton, not_or]
  rcases List.mem_cons.mp hc with rfl | hc
  · exact ⟨fun he => hthis.1 (he ▸ List.mem_cons_self ..), hthis.2⟩
  · exact ⟨fun he => hlhs.root_not_mem (he ▸ hc), hdisj c (List.mem_cons_of_mem _ hc)⟩

end Sam.BilistNode
