import Sam.Library.Links

/-!
# The rest of a ring

A loop that walks over a ring and lets go of the nodes behind it keeps only the rest in order:
`IsTail m root xs` says that the nodes `xs` follow one another and lead to `root`. What the first of
them points back at is left open. `IsTail.remove` says which nodes may leave the list while the loop
is on its way: all but the first one, which the loop has its eye on.
-/

universe u

namespace Links

variable {α : Type u}

/-- The nodes `xs` follow one another, and the last one is followed by `root`. -/
structure IsTail (m : Links α) (root : α) (xs : List α) : Prop where
  nodup : (xs ++ [root]).Nodup
  chain : (xs ++ [root]).IsChain m.Linked

variable {m m' : Links α} {root n x : α} {xs ys nodes : List α}

/-- A whole ring is a tail. -/
theorem IsRing.isTail (h : IsRing m root xs) : IsTail m root xs := by
  refine ⟨?_, List.IsChain.tail h.chain⟩
  have hperm := List.perm_append_singleton root xs
  exact hperm.nodup_iff.mpr h.nodup

namespace IsTail

/-- The root is not a member. -/
theorem root_not_mem (h : IsTail m root xs) : root ∉ xs := fun hmem =>
  (List.nodup_append.mp h.nodup).2.2 root hmem root (List.mem_singleton_self root) rfl

/-- No member is there twice. -/
theorem members_nodup (h : IsTail m root xs) : xs.Nodup := (List.nodup_append.mp h.nodup).1

/-- **Frame.** Changes on other nodes leave a tail alone. -/
theorem frame (h : IsTail m root xs) (hsame : SameOff nodes m m')
    (hdisj : ∀ a ∈ xs ++ [root], a ∉ nodes) : IsTail m' root xs := by
  refine ⟨h.nodup, chain_congr (fun a ha => ?_) (fun a ha => ?_) h.chain⟩
  · exact (hsame a (hdisj a (List.dropLast_subset _ ha))).1
  · exact (hsame a (hdisj a (List.mem_of_mem_tail ha))).2

/-- The first member points at the next one. -/
theorem next_first (h : IsTail m root (x :: xs)) : m.next x = xs.headD root := by
  have hchain : (x :: (xs ++ [root])).IsChain m.Linked := h.chain
  cases xs with
  | nil => exact (List.isChain_cons_cons.mp hchain).1.1
  | cons y xs => exact (List.isChain_cons_cons.mp hchain).1.1

/-- What is left when the first member is let go. -/
theorem tail (h : IsTail m root (x :: xs)) : IsTail m root xs :=
  ⟨(List.nodup_cons.mp h.nodup).2, List.IsChain.tail h.chain⟩

/-- There is one tail from a node on. -/
theorem unique (hx : IsTail m root xs) (hy : IsTail m root ys)
    (hhead : xs.headD root = ys.headD root) : xs = ys := by
  cases xs with
  | nil =>
      cases ys with
      | nil => rfl
      | cons y ys =>
          obtain rfl : root = y := hhead
          exact absurd List.mem_cons_self hy.root_not_mem
  | cons x xs =>
      cases ys with
      | nil =>
          obtain rfl : x = root := hhead
          exact absurd List.mem_cons_self hx.root_not_mem
      | cons y ys =>
          obtain rfl : x = y := hhead
          rw [IsRing.chain_unique hx.chain hy.chain hx.tail.root_not_mem hy.tail.root_not_mem]

/-- The node before a member that is not the first one, and the node after it. -/
theorem exists_neighbours (h : IsTail m root xs) (hn : n ∈ xs) (hfirst : n ∉ xs.head?) :
    ∃ before p after q post, xs = before ++ p :: n :: after ∧ after ++ [root] = q :: post ∧
      m.prev n = p ∧ m.next n = q := by
  obtain ⟨before, after, rfl⟩ := List.append_of_mem hn
  rcases before.eq_nil_or_concat' with rfl | ⟨before, p, rfl⟩
  · simp at hfirst
  · obtain ⟨q, post, hpost⟩ : ∃ q post, after ++ [root] = q :: post :=
      List.exists_cons_of_ne_nil (by simp)
    have hchain := h.chain
    rw [show before ++ [p] ++ n :: after ++ [root] = before ++ p :: n :: (after ++ [root]) by simp,
      hpost] at hchain
    obtain ⟨hprev, hnext⟩ := chain_neighbours hchain
    exact ⟨before, p, after, q, post, by simp, hpost, hprev, hnext⟩

/-- The neighbours of a member that is not the first one are in the tail. -/
theorem neighbours_mem (h : IsTail m root xs) (hn : n ∈ xs) (hfirst : n ∉ xs.head?) :
    m.prev n ∈ xs ∧ m.next n ∈ xs ++ [root] := by
  obtain ⟨before, p, after, q, post, rfl, hpost, rfl, rfl⟩ := h.exists_neighbours hn hfirst
  have hq : m.next n ∈ after ++ [root] := hpost ▸ List.mem_cons_self
  refine ⟨by simp, ?_⟩
  simp only [List.mem_append, List.mem_cons] at hq ⊢
  tauto

variable [DecidableEq α]

/-- **Remove.** A member that is not the first one leaves the tail. -/
theorem remove (h : IsTail m root xs) (hn : n ∈ xs) (hfirst : n ∉ xs.head?) :
    IsTail (m.link (m.prev n) (m.next n)) root (xs.erase n) ∧
      (xs.erase n).head? = xs.head? := by
  obtain ⟨before, p, after, q, post, rfl, hpost, hprev, hnext⟩ := h.exists_neighbours hn hfirst
  have hsplit : before ++ p :: n :: after ++ [root] = before ++ p :: n :: q :: post := by
    simp [← hpost]
  have hnodup := h.nodup
  have hchain := h.chain
  rw [hsplit] at hnodup hchain
  have herase : (before ++ p :: n :: after).erase n = before ++ p :: after := by
    grind
  have hjoin : before ++ p :: after ++ [root] = before ++ p :: q :: post := by
    simp [← hpost]
  rw [herase, hprev, hnext]
  refine ⟨⟨?_, ?_⟩, by cases before <;> rfl⟩
  · rw [hjoin]
    exact hnodup.sublist (((List.sublist_cons_self n _).cons_cons p).append_left before)
  · rw [hjoin]
    -- neither neighbour is there twice
    obtain ⟨-, hrest, hdisj⟩ := List.nodup_append.mp hnodup
    have hp : p ∉ n :: q :: post := (List.nodup_cons.mp hrest).1
    have hq : q ∉ post := (List.nodup_cons.mp (List.nodup_cons.mp (List.nodup_cons.mp hrest).2).2).1
    refine chain_remove hchain ⟨fun hmem => ?_, fun hmem => ?_⟩ ⟨fun hmem => ?_, hq⟩
    · exact hdisj p hmem p List.mem_cons_self rfl
    · exact hp (List.mem_cons_of_mem n (List.dropLast_subset _ hmem))
    · rcases List.mem_append.mp (List.mem_of_mem_tail hmem) with hbefore | hlast
      · exact hdisj q hbefore q (by simp) rfl
      · exact hp (List.mem_singleton.mp hlast ▸ by simp)

/-- Where the root points does not matter. -/
theorem setNext_root (h : IsTail m root xs) : IsTail (m.setNext root n) root xs := by
  have hnext : ∀ a ∈ (xs ++ [root]).dropLast, (m.setNext root n).next a = m.next a := by
    intro a ha
    rw [List.dropLast_concat] at ha
    rw [setNext_next, if_neg (ne_of_mem_of_not_mem ha h.root_not_mem)]
  exact ⟨h.nodup, chain_congr hnext (fun a _ => rfl) h.chain⟩

end IsTail

end Links
