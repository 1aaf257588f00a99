import Selectors.Proofs.Tree.Walks

/-!
# Siblings — what stands before what

The children list of a node orders its children, and the links between siblings say the same piece
by piece. The relations here are about the lists; the walks and the links of a forest are read
against them, in both directions.

A walk along one kind of link is as long as its links are distinct. None of the three kinds leads
back to where it started, and so every walk along one of them comes to an end.

* **`Element.Precedes`**, **`Element.ImmediatelyPrecedes`** — places among siblings.
* **`previous?_eq_some_iff`** and **`next?_eq_some_iff`** — the nearest elements on either side.
* **`length_previous?_le`**, **`length_next?_le`**, **`length_parent?_le`** — no walk has more steps
  than the tree has nodes.
-/

namespace Selectors

variable {t : Tree}

/-! ## Places among siblings -/

namespace Element

/-- One element stands before another among the children of one node. -/
def Precedes (a e : Element t) : Prop :=
  ∃ parent front middle back,
    (t.children parent).toList = front ++ a.id :: (middle ++ e.id :: back)

/-- One element stands before another among the children of one node, with no element between. -/
def ImmediatelyPrecedes (a e : Element t) : Prop :=
  ∃ parent front middle back,
    (t.children parent).toList = front ++ a.id :: (middle ++ e.id :: back) ∧
      ∀ id ∈ middle, t.elementData? id = none

variable {e : Element t}

/-- The walk to the left meets exactly the elements before. -/
theorem mem_preceding_iff (hforest : t.IsForest) {a : Element t} :
    a ∈ e.preceding ↔ a.Precedes e := by
  constructor
  · intro hmem
    rcases orphan_or_split hforest e with horphan | ⟨parent, front, back, hsplit⟩
    · rw [preceding_eq_nil hforest horphan] at hmem
      exact nomatch hmem
    · rw [preceding_eq hforest hsplit, Tree.mem_filterMap_element?, List.mem_reverse] at hmem
      obtain ⟨front, middle, rfl⟩ := List.append_of_mem hmem
      exact ⟨parent, front, middle, back, by rw [hsplit]; simp⟩
  · rintro ⟨parent, front, middle, back, hsplit⟩
    have hsplit' : (t.children parent).toList = (front ++ a.id :: middle) ++ e.id :: back := by
      rw [hsplit]; simp
    rw [preceding_eq hforest hsplit', Tree.mem_filterMap_element?, List.mem_reverse]
    simp

/-- The first element that is met to the left is the one immediately before. -/
theorem previous?_eq_some_iff (hforest : t.IsForest) {a : Element t} :
    e.previous? = some a ↔ a.ImmediatelyPrecedes e := by
  constructor
  · intro hfirst
    unfold previous? at hfirst
    rcases orphan_or_split hforest e with horphan | ⟨parent, front, back, hsplit⟩
    · rw [preceding_eq_nil hforest horphan] at hfirst
      exact nomatch hfirst
    -- the siblings are walked from the element back, so the first element found is the nearest
    · rw [preceding_eq hforest hsplit, List.head?_filterMap,
        List.findSome?_eq_some_iff] at hfirst
      obtain ⟨near, id, far, hfront, ha, hnear⟩ := hfirst
      rw [Tree.element?_eq_some_iff] at ha
      have hfront' : front = far.reverse ++ a.id :: near.reverse := by
        rw [← List.reverse_reverse front, hfront, ha]; simp
      refine ⟨parent, far.reverse, near.reverse, back, by rw [hsplit, hfront']; simp, ?_⟩
      intro id hid
      exact Tree.element?_eq_none_iff.1 (hnear id (List.mem_reverse.1 hid))
  · rintro ⟨parent, front, middle, back, hsplit, hmiddle⟩
    have hsplit' : (t.children parent).toList = (front ++ a.id :: middle) ++ e.id :: back := by
      rw [hsplit]; simp
    unfold previous?
    rw [preceding_eq hforest hsplit', List.head?_filterMap, List.findSome?_eq_some_iff]
    refine ⟨middle.reverse, a.id, front.reverse, by simp, element?_id a, ?_⟩
    intro id hid
    exact Tree.element?_eq_none_iff.2 (hmiddle id (List.mem_reverse.1 hid))

/-- The first element that is met to the right is the one immediately after. -/
theorem next?_eq_some_iff (hforest : t.IsForest) {b : Element t} :
    e.next? = some b ↔ e.ImmediatelyPrecedes b := by
  constructor
  · intro hfirst
    unfold next? at hfirst
    rcases orphan_or_split hforest e with horphan | ⟨parent, front, back, hsplit⟩
    · rw [following_eq_nil hforest horphan] at hfirst
      exact nomatch hfirst
    · rw [following_eq hforest hsplit, List.head?_filterMap, List.findSome?_eq_some_iff] at hfirst
      obtain ⟨near, id, far, hback, hb, hnear⟩ := hfirst
      rw [Tree.element?_eq_some_iff] at hb
      refine ⟨parent, front, near, far, by rw [hsplit, hback, hb], ?_⟩
      intro id hid
      exact Tree.element?_eq_none_iff.1 (hnear id hid)
  · rintro ⟨parent, front, middle, back, hsplit, hmiddle⟩
    unfold next?
    rw [following_eq hforest hsplit, List.head?_filterMap, List.findSome?_eq_some_iff]
    refine ⟨middle, b.id, back, rfl, element?_id b, ?_⟩
    intro id hid
    exact Tree.element?_eq_none_iff.2 (hmiddle id hid)

/-- The children that are elements have the numbers of the children that are elements. -/
theorem map_id_children (e : Element t) :
    e.children.map Element.id =
      (t.children e.id).toList.filter fun id => (t.elementData? id).isSome := by
  unfold children
  induction (t.children e.id).toList with
  | nil => rfl
  | cons id rest ih =>
    rw [List.filterMap_cons, List.filter_cons]
    cases hid : t.element? id with
    | none => rw [Tree.element?_eq_none_iff.1 hid, ih, if_neg (by simp)]
    | some child =>
      obtain rfl := Tree.element?_eq_some_iff.1 hid
      rw [List.map_cons, ih, child.isElement, if_pos Option.isSome_some]

end Element

namespace Tree

/-! ## Walks come to an end -/

/-- A walk along links that never lead back meets no node twice, so it has no more steps than the
    tree has nodes. -/
theorem length_le_of_isChain {Link : NodeId → NodeId → Prop}
    (hacyclic : ∀ id, ¬ Relation.TransGen Link id id)
    (hbound : ∀ {a b}, Link a b → b < t.size) {id : NodeId} {l : List NodeId}
    (h : List.IsChain Link (id :: l)) : l.length ≤ t.size := by
  have hwalk : List.IsChain (Relation.TransGen Link) (id :: l) :=
    h.imp fun _ _ hstep => Relation.TransGen.single hstep
  obtain ⟨hmet, hlater⟩ := List.pairwise_cons.1 (List.isChain_iff_pairwise.1 hwalk)
  refine length_le_size ?_ ?_
  · refine hlater.imp ?_
    rintro a b hab rfl
    exact hacyclic a hab
  · intro b hb
    obtain ⟨a, -, hstep⟩ := Relation.TransGen.tail'_iff.1 (hmet b hb)
    exact hbound hstep

/-- A node with children is one of the tree. -/
theorem lt_size_of_isChild_parent {parent child : NodeId} (h : t.IsChild parent child) :
    parent < t.size := by
  by_contra hsize
  have hnone : t.node? parent = none := Array.getElem?_eq_none (Nat.le_of_not_lt hsize)
  unfold IsChild children at h
  rw [hnone] at h
  exact nomatch h

/-- What a walk to the right comes to stands behind where it started. -/
theorem exists_split_of_transGen_next? (hforest : t.IsForest) {a b : NodeId}
    (h : Relation.TransGen (fun a b => t.next? a = some b) a b) :
    ∃ parent front middle back,
      (t.children parent).toList = front ++ a :: (middle ++ b :: back) := by
  induction h with
  | single hnext =>
    obtain ⟨parent, front, back, hsplit⟩ := hforest.next_iff.1 hnext
    exact ⟨parent, front, [], back, by rw [← hsplit]; simp⟩
  | @tail b c _ hnext ih =>
    obtain ⟨parent, front, middle, back, hsplit⟩ := ih
    have hsplit' : (t.children parent).toList = (front ++ a :: middle) ++ b :: back := by
      rw [hsplit]; simp
    rw [next?_eq_head? hforest hsplit'] at hnext
    obtain ⟨back, rfl⟩ := List.head?_eq_some_iff.1 hnext
    exact ⟨parent, front, middle ++ [b], back, by rw [hsplit]; simp⟩

private theorem not_transGen_next? (hforest : t.IsForest) (id : NodeId) :
    ¬ Relation.TransGen (fun a b => t.next? a = some b) id id := by
  intro hcycle
  obtain ⟨parent, front, middle, back, hsplit⟩ := exists_split_of_transGen_next? hforest hcycle
  have hnodup := hforest.nodup parent
  rw [hsplit] at hnodup
  have hlater := (List.nodup_cons.1 (List.nodup_append.1 hnodup).2.1).1
  exact hlater (by simp)

/-- A walk forwards is no longer than the tree has nodes. -/
theorem length_next?_le (hforest : t.IsForest) {id : NodeId} {l : List NodeId}
    (h : List.IsChain (fun a b => t.next? a = some b) (id :: l)) : l.length ≤ t.size := by
  refine length_le_of_isChain (not_transGen_next? hforest) ?_ h
  intro a b hnext
  obtain ⟨parent, hpair⟩ := hforest.next_iff.1 hnext
  exact lt_size_of_parent?_eq_some (hforest.parent_iff.2 (hpair.subset (by simp)))

/-- The links to the left are those to the right, backwards. -/
theorem previous?_eq_some_iff_next? (hforest : t.IsForest) {a b : NodeId} :
    t.previous? b = some a ↔ t.next? a = some b :=
  hforest.previous_iff.trans hforest.next_iff.symm

/-- A walk backwards is no longer than the tree has nodes. -/
theorem length_previous?_le (hforest : t.IsForest) {id : NodeId} {l : List NodeId}
    (h : List.IsChain (fun a b => t.previous? a = some b) (id :: l)) : l.length ≤ t.size := by
  have hswap : (fun a b => t.previous? a = some b) =
      Function.swap fun a b => t.next? a = some b := by
    funext a b
    exact propext (previous?_eq_some_iff_next? hforest)
  refine length_le_of_isChain ?_ ?_ h
  · intro id hcycle
    rw [hswap, Relation.transGen_swap] at hcycle
    exact not_transGen_next? hforest id hcycle
  · intro a b hprevious
    obtain ⟨parent, hpair⟩ := hforest.previous_iff.1 hprevious
    exact lt_size_of_parent?_eq_some (hforest.parent_iff.2 (hpair.subset List.mem_cons_self))

/-- A walk upwards is no longer than the tree has nodes. -/
theorem length_parent?_le (hforest : t.IsForest) {id : NodeId} {l : List NodeId}
    (h : List.IsChain (fun a b => t.parent? a = some b) (id :: l)) : l.length ≤ t.size := by
  have hswap : (fun a b => t.parent? a = some b) = Function.swap t.IsChild := by
    funext a b
    exact propext hforest.parent_iff
  refine length_le_of_isChain ?_ ?_ h
  · intro id hcycle
    rw [hswap, Relation.transGen_swap] at hcycle
    exact hforest.acyclic id hcycle
  · intro a b hparent
    exact lt_size_of_isChild_parent (hforest.parent_iff.1 hparent)

end Tree

end Selectors
