import Mathlib.Data.List.Chain
import Mathlib.Data.List.Perm.Subperm
import Selectors.Proofs.Tree.Forest
import Selectors.Tree.Element

/-!
# Walks in a forest — every step of them is seen

The walks of an element follow one kind of link and take at most as many steps as the tree has
nodes. In a forest this bound cuts nothing off: a walk meets no node twice. The walk upwards meets
exactly the ancestors, and the walks among siblings read off the children list of the parent, once
backwards from the element and once forwards.

* **`mem_ancestors_iff`** — the walk upwards; **`isAncestor_iff_isBelow`** compares it with the
  subtrees.
* **`preceding_eq`**, **`following_eq`** — the walks among siblings, for an element with a parent.
* **`preceding_eq_nil`**, **`following_eq_nil`** — and for one without.
-/

namespace Selectors

/-! ## Walks with enough steps -/

/-- A walk with as many steps as any chain of links has entries meets all that can be reached. -/
theorem mem_chain_iff {α : Type} {step : α → Option α} {steps : Nat} {a x : α}
    (hbound : ∀ l, List.IsChain (fun a b => step a = some b) (a :: l) → l.length ≤ steps) :
    x ∈ chain step steps (step a) ↔ Relation.TransGen (fun a b => step a = some b) a x := by
  -- on the number of steps allowed; the bound on the walks from `a` falls with it
  induction steps generalizing a with
  | zero =>
    -- no step left, so by the bound the walk cannot go on from `a` at all
    have hnone : step a = none := by
      cases hstep : step a with
      | none => rfl
      | some b => exact absurd (hbound [b] (List.isChain_pair.2 hstep)) (by simp)
    rw [hnone]
    constructor
    · intro hmem
      exact nomatch hmem
    · intro hwalk
      obtain ⟨b, hb, -⟩ := Relation.TransGen.head'_iff.1 hwalk
      exact absurd (hnone.symm.trans hb) nofun
  | succ steps ih =>
    cases hstep : step a with
    | none =>
      constructor
      · intro hmem
        exact nomatch hmem
      · intro hwalk
        obtain ⟨b, hb, -⟩ := Relation.TransGen.head'_iff.1 hwalk
        exact absurd (hstep.symm.trans hb) nofun
    | some b =>
      have hrest : x ∈ chain step steps (step b) ↔
          Relation.TransGen (fun a b => step a = some b) b x := by
        -- a walk from `b` is one from `a` without its first step, so its bound is one smaller
        refine ih fun l hl => ?_
        have := hbound (b :: l) (List.IsChain.cons_cons hstep hl)
        rw [List.length_cons] at this
        omega
      show x ∈ b :: chain step steps (step b) ↔ _
      rw [List.mem_cons, hrest]
      constructor
      · rintro (rfl | hwalk)
        · exact Relation.TransGen.single hstep
        · exact Relation.TransGen.head hstep hwalk
      · intro hwalk
        rcases Relation.TransGen.head'_iff.1 hwalk with ⟨b', hb', hrefl⟩
        obtain rfl := Option.some.inj (hstep.symm.trans hb')
        rcases Relation.reflTransGen_iff_eq_or_transGen.1 hrefl with hx | hwalk
        · exact Or.inl hx
        · exact Or.inr hwalk

/-- More steps than any chain of links has entries make no difference. -/
theorem chain_eq_of_bounds {α : Type} {step : α → Option α} {steps steps' : Nat} {a : α}
    (hbound : ∀ l, List.IsChain (fun a b => step a = some b) (a :: l) → l.length ≤ steps)
    (hbound' : ∀ l, List.IsChain (fun a b => step a = some b) (a :: l) → l.length ≤ steps') :
    chain step steps (step a) = chain step steps' (step a) := by
  induction steps generalizing steps' a with
  | zero =>
    cases hstep : step a with
    | none => cases steps' <;> rfl
    | some b => exact absurd (hbound [b] (List.isChain_pair.2 hstep)) (by simp)
  | succ steps ih =>
    cases hstep : step a with
    | none => cases steps' <;> rfl
    | some b =>
      cases steps' with
      | zero => exact absurd (hbound' [b] (List.isChain_pair.2 hstep)) (by simp)
      | succ steps' =>
        refine congrArg (b :: ·) (ih (fun l hl => ?_) fun l hl => ?_)
        · exact Nat.le_of_succ_le_succ (hbound (b :: l) (List.IsChain.cons_cons hstep hl))
        · exact Nat.le_of_succ_le_succ (hbound' (b :: l) (List.IsChain.cons_cons hstep hl))

/-- If the steps of two walks correspond, then so do the walks. -/
theorem chain_map {α β : Type} {step : α → Option α} {step' : β → Option β} {f : α → β}
    (hstep : ∀ a, step' (f a) = (step a).map f) (steps : Nat) (start : Option α) :
    chain step' steps (start.map f) = (chain step steps start).map f := by
  induction steps generalizing start with
  | zero => cases start <;> rfl
  | succ steps ih =>
    cases start with
    | none => rfl
    | some a =>
      show f a :: chain step' steps (step' (f a)) = f a :: (chain step steps (step a)).map f
      rw [hstep, ih]

namespace Tree

variable {t : Tree}

/-- There are no more distinct nodes than the tree has. -/
theorem length_le_size {ids : List NodeId} (hnodup : ids.Nodup) (hbound : ∀ id ∈ ids, id < t.size) :
    ids.length ≤ t.size := by
  have hsub : ids ⊆ List.range t.size := fun id hid => List.mem_range.2 (hbound id hid)
  simpa using (List.subperm_of_subset hnodup hsub).length_le

/-- An element is a node of the tree. -/
theorem elementData?_lt {id : NodeId} {data : ElementData} (h : t.elementData? id = some data) :
    id < t.size := by
  by_contra hsize
  have hnone : t.node? id = none := Array.getElem?_eq_none (Nat.le_of_not_lt hsize)
  unfold elementData? at h
  rw [hnone] at h
  exact nomatch h

/-- The element of a number is the one that has it. -/
theorem element?_eq_some_iff {id : NodeId} {e : Element t} :
    t.element? id = some e ↔ e.id = id := by
  constructor
  · intro h
    unfold element? at h
    split at h
    · obtain rfl := Option.some.inj h
      rfl
    · exact nomatch h
  · rintro rfl
    exact Element.element?_id e

/-- No element is found where the node is none. -/
theorem element?_eq_none_iff {id : NodeId} : t.element? id = none ↔ t.elementData? id = none := by
  unfold element?
  split <;> simp_all

/-- The elements among some nodes. -/
theorem mem_filterMap_element? {ids : List NodeId} {e : Element t} :
    e ∈ ids.filterMap t.element? ↔ e.id ∈ ids := by
  rw [List.mem_filterMap]
  constructor
  · rintro ⟨id, hid, he⟩
    exact element?_eq_some_iff.1 he ▸ hid
  · intro hid
    exact ⟨e.id, hid, Element.element?_id e⟩

/-! ## Neighbours -/

/-- What stands before an entry of distinct ones is the last of those in front of it. -/
theorem pair_infix_left {front back : List NodeId} {a c : NodeId}
    (hnodup : (front ++ c :: back).Nodup) :
    [a, c] <:+: front ++ c :: back ↔ front.getLast? = some a := by
  constructor
  · rintro ⟨l, r, hsplit⟩
    have hsplit' : (l ++ [a]) ++ c :: r = front ++ c :: back := by rw [← hsplit]; simp
    rw [← hsplit'] at hnodup
    have hunique := List.nodup_middle.1 hnodup
    have hnotMem := (List.nodup_cons.1 hunique).1
    rw [List.mem_append, not_or] at hnotMem
    obtain ⟨hfront, -, -⟩ :=
      (List.append_cons_inj_of_notMem hnotMem.1 hnotMem.2).1 hsplit'
    rw [← hfront, List.getLast?_concat]
  · intro hlast
    obtain ⟨l, rfl⟩ := List.getLast?_eq_some_iff.1 hlast
    exact ⟨l, back, by simp⟩

/-- What stands after an entry of distinct ones is the first of those behind it. -/
theorem pair_infix_right {front back : List NodeId} {c b : NodeId}
    (hnodup : (front ++ c :: back).Nodup) :
    [c, b] <:+: front ++ c :: back ↔ back.head? = some b := by
  constructor
  · rintro ⟨l, r, hsplit⟩
    have hsplit' : l ++ c :: (b :: r) = front ++ c :: back := by rw [← hsplit]; simp
    rw [← hsplit'] at hnodup
    have hunique := List.nodup_middle.1 hnodup
    have hnotMem := (List.nodup_cons.1 hunique).1
    rw [List.mem_append, not_or] at hnotMem
    obtain ⟨-, -, hback⟩ :=
      (List.append_cons_inj_of_notMem hnotMem.1 hnotMem.2).1 hsplit'
    rw [← hback, List.head?_cons]
  · intro hfirst
    obtain ⟨r, rfl⟩ := List.head?_eq_some_iff.1 hfirst
    exact ⟨front, r, by simp⟩

section Children

variable {parent c : NodeId} {front back : List NodeId}

/-- A pair of neighbours that `c` belongs to stands among the children of its parent. -/
theorem exists_pair_iff (hforest : t.IsForest)
    (h : (t.children parent).toList = front ++ c :: back) {a b : NodeId} (hc : c ∈ [a, b]) :
    (∃ id, [a, b] <:+: (t.children id).toList) ↔ [a, b] <:+: front ++ c :: back := by
  constructor
  · rintro ⟨id, hpair⟩
    have hmem : t.IsChild id c := hpair.subset hc
    have hmem' : t.IsChild parent c := by rw [IsChild, h]; simp
    rw [← hforest.parent_iff] at hmem hmem'
    obtain rfl := Option.some.inj (hmem.symm.trans hmem')
    rwa [h] at hpair
  · intro hpair
    exact ⟨parent, h ▸ hpair⟩

/-- The sibling before a child is the last of those in front of it. -/
theorem previous?_eq_getLast? (hforest : t.IsForest)
    (h : (t.children parent).toList = front ++ c :: back) :
    t.previous? c = front.getLast? := by
  refine Option.ext fun a => ?_
  rw [hforest.previous_iff, exists_pair_iff hforest h (by simp),
    pair_infix_left (h ▸ hforest.nodup parent)]

/-- The sibling after a child is the first of those behind it. -/
theorem next?_eq_head? (hforest : t.IsForest)
    (h : (t.children parent).toList = front ++ c :: back) :
    t.next? c = back.head? := by
  refine Option.ext fun b => ?_
  rw [hforest.next_iff, exists_pair_iff hforest h (by simp),
    pair_infix_right (h ▸ hforest.nodup parent)]

/-- The walk to the left from a child meets the children in front of it, nearest first. -/
theorem chain_previous? (hforest : t.IsForest)
    (h : (t.children parent).toList = front ++ c :: back) {steps : Nat}
    (hsteps : front.length ≤ steps) :
    chain t.previous? steps (t.previous? c) = front.reverse := by
  induction front using List.reverseRecOn generalizing c back steps with
  | nil =>
    rw [previous?_eq_getLast? hforest h]
    cases steps <;> rfl
  | append_singleton front a ih =>
    rw [List.length_append, List.length_singleton] at hsteps
    obtain ⟨steps, rfl⟩ : ∃ n, steps = n + 1 := ⟨steps - 1, by omega⟩
    have hleft : (t.children parent).toList = front ++ a :: (c :: back) := by rw [h]; simp
    rw [previous?_eq_getLast? hforest h, List.getLast?_concat, List.reverse_concat]
    show a :: chain t.previous? steps (t.previous? a) = a :: front.reverse
    rw [ih hleft (by omega)]

/-- The walk to the right from a child meets the children behind it. -/
theorem chain_next? (hforest : t.IsForest)
    (h : (t.children parent).toList = front ++ c :: back) {steps : Nat}
    (hsteps : back.length ≤ steps) :
    chain t.next? steps (t.next? c) = back := by
  induction back generalizing c front steps with
  | nil =>
    rw [next?_eq_head? hforest h]
    cases steps <;> rfl
  | cons b back ih =>
    rw [List.length_cons] at hsteps
    obtain ⟨steps, rfl⟩ : ∃ n, steps = n + 1 := ⟨steps - 1, by omega⟩
    have hright : (t.children parent).toList = (front ++ [c]) ++ b :: back := by rw [h]; simp
    rw [next?_eq_head? hforest h, List.head?_cons]
    show b :: chain t.next? steps (t.next? b) = b :: back
    rw [ih hright (by omega)]

/-- All children of a node are nodes of the tree. -/
theorem length_children_le (hforest : t.IsForest) (parent : NodeId) :
    (t.children parent).toList.length ≤ t.size :=
  length_le_size (hforest.nodup parent) fun _ hid =>
    lt_size_of_parent?_eq_some (hforest.parent_iff.2 hid)

end Children

/-- A node without a parent has no siblings. -/
theorem previous?_eq_none_of_orphan (hforest : t.IsForest) {c : NodeId}
    (h : t.parent? c = none) : t.previous? c = none := by
  cases hprevious : t.previous? c with
  | none => rfl
  | some a =>
    obtain ⟨id, hpair⟩ := hforest.previous_iff.1 hprevious
    exact absurd (hpair.subset (by simp)) (not_isChild_of_orphan hforest h id)

/-- A node without a parent has no next sibling. -/
theorem next?_eq_none_of_orphan (hforest : t.IsForest) {c : NodeId}
    (h : t.parent? c = none) : t.next? c = none := by
  cases hnext : t.next? c with
  | none => rfl
  | some b =>
    obtain ⟨id, hpair⟩ := hforest.next_iff.1 hnext
    exact absurd (hpair.subset (by simp)) (not_isChild_of_orphan hforest h id)

end Tree

namespace Element

variable {t : Tree} {e : Element t}

/-! ## Siblings of an element -/

/-- The elements before a child, nearest first. -/
theorem preceding_eq (hforest : t.IsForest) {parent : NodeId} {front back : List NodeId}
    (h : (t.children parent).toList = front ++ e.id :: back) :
    e.preceding = front.reverse.filterMap t.element? := by
  have hlength := Tree.length_children_le hforest parent
  rw [h, List.length_append] at hlength
  unfold preceding
  rw [Tree.chain_previous? hforest h (by omega)]

/-- The elements after a child. -/
theorem following_eq (hforest : t.IsForest) {parent : NodeId} {front back : List NodeId}
    (h : (t.children parent).toList = front ++ e.id :: back) :
    e.following = back.filterMap t.element? := by
  have hlength := Tree.length_children_le hforest parent
  rw [h, List.length_append, List.length_cons] at hlength
  unfold following
  rw [Tree.chain_next? hforest h (by omega)]

/-- An element without a parent has no siblings in front. -/
theorem preceding_eq_nil (hforest : t.IsForest) (h : t.parent? e.id = none) :
    e.preceding = [] := by
  unfold preceding
  rw [Tree.previous?_eq_none_of_orphan hforest h]
  cases t.size <;> rfl

/-- An element without a parent has no siblings behind. -/
theorem following_eq_nil (hforest : t.IsForest) (h : t.parent? e.id = none) :
    e.following = [] := by
  unfold following
  rw [Tree.next?_eq_none_of_orphan hforest h]
  cases t.size <;> rfl

/-- Every element either has no parent or a place among the children of one. -/
theorem orphan_or_split (hforest : t.IsForest) (e : Element t) :
    t.parent? e.id = none ∨
      ∃ parent front back, (t.children parent).toList = front ++ e.id :: back := by
  cases hparent : t.parent? e.id with
  | none => exact Or.inl rfl
  | some parent =>
    have hmem : e.id ∈ (t.children parent).toList := hforest.parent_iff.1 hparent
    obtain ⟨front, back, hsplit⟩ := List.append_of_mem hmem
    exact Or.inr ⟨parent, front, back, hsplit⟩

/-! ## Ancestors of an element -/

/-- One element is the parent of another. -/
def IsParent (parent e : Element t) : Prop :=
  t.IsChild parent.id e.id

/-- One element is an ancestor of another: its parent, or an ancestor of its parent. All on the way
    are elements, so what is below a node of another kind has no ancestors above that node;
    `isAncestor_iff_isBelow` says when this leaves nothing out. -/
def IsAncestor (ancestor e : Element t) : Prop :=
  Relation.TransGen IsParent ancestor e

/-- The step upwards leads to the parent, if that is an element. -/
theorem parent?_eq_some_iff (hforest : t.IsForest) {parent : Element t} :
    e.parent? = some parent ↔ parent.IsParent e := by
  unfold parent? IsParent
  rw [← hforest.parent_iff, Option.bind_eq_some_iff]
  constructor
  · rintro ⟨id, hid, hparent⟩
    rw [hid, Tree.element?_eq_some_iff.1 hparent]
  · intro hid
    exact ⟨parent.id, hid, element?_id parent⟩

/-- One element is in the subtree of another one, below it. -/
def IsBelow (e top : Element t) : Prop :=
  Relation.TransGen t.IsChild top.id e.id

/-- An element is below its ancestors. -/
theorem IsAncestor.isBelow {ancestor : Element t} (h : ancestor.IsAncestor e) :
    e.IsBelow ancestor :=
  h.lift Element.id fun _ _ hparent => hparent

/-- If all nodes that have both a parent and a child are elements, then the ancestors of an element
    are the elements that it is below. -/
theorem isAncestor_iff_isBelow {ancestor : Element t}
    (hinner : ∀ {top id below}, t.IsChild top id → t.IsChild id below → ∃ a : Element t, a.id = id) :
    ancestor.IsAncestor e ↔ e.IsBelow ancestor := by
  refine ⟨IsAncestor.isBelow, fun hbelow => ?_⟩
  -- the induction goes down from the top, one child at a time
  have hway : ∀ top, Relation.TransGen t.IsChild top e.id →
      ∀ a : Element t, a.id = top → a.IsAncestor e := by
    intro top hway
    induction hway using Relation.TransGen.head_induction_on with
    | single hchild =>
      rintro a rfl
      exact Relation.TransGen.single hchild
    | head hchild hrest ih =>
      rintro a rfl
      obtain ⟨below, hbelow, -⟩ := Relation.TransGen.head'_iff.1 hrest
      obtain ⟨b, rfl⟩ := hinner hchild hbelow
      have hparent : a.IsParent b := hchild
      exact Relation.TransGen.head hparent (ih b rfl)
  exact hway ancestor.id hbelow ancestor rfl

instance : Trans (@IsBelow t) (@IsBelow t) (@IsBelow t) where
  trans hab hbc := Relation.TransGen.trans hbc hab

/-- A way upwards meets no element twice, so it is no longer than the tree has nodes. -/
theorem length_le_of_isChain_parent? (hforest : t.IsForest) {l : List (Element t)}
    (h : List.IsChain (fun a b => a.parent? = some b) (e :: l)) : l.length ≤ t.size := by
  have hup : List.IsChain IsBelow (e :: l) :=
    h.imp fun _ _ hab => Relation.TransGen.single ((parent?_eq_some_iff hforest).1 hab)
  have hnodup : ((e :: l).map Element.id).Nodup := by
    rw [List.Nodup, List.pairwise_map]
    refine (List.isChain_iff_pairwise.1 hup).imp ?_
    intro a b hab heq
    unfold IsBelow at hab
    rw [heq] at hab
    exact hforest.acyclic _ hab
  have hlength := Tree.length_le_size hnodup fun id hid => by
    obtain ⟨a, -, rfl⟩ := List.mem_map.1 hid
    exact Tree.elementData?_lt a.isElement
  rw [List.length_map, List.length_cons] at hlength
  omega

/-- The walk upwards meets exactly the ancestors. -/
theorem mem_ancestors_iff (hforest : t.IsForest) {ancestor : Element t} :
    ancestor ∈ e.ancestors ↔ ancestor.IsAncestor e := by
  unfold ancestors
  rw [mem_chain_iff fun l hl => length_le_of_isChain_parent? hforest hl]
  unfold IsAncestor
  have hstep : (fun a b : Element t => a.parent? = some b) = Function.swap IsParent := by
    funext a b
    exact propext (parent?_eq_some_iff hforest)
  rw [hstep, Relation.transGen_swap]

end Element

end Selectors
