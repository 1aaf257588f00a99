import Mathlib.Data.List.Nodup
import Mathlib.Logic.Relation
import Selectors.Tree.Basic

/-!
# Well-built trees are ordered forests

The links of a tree are four fields a node, and each append writes them one by one. A tree is
well built if it comes about from an empty one by allocating nodes and by appending, where a node
is appended only while it has no parent and only to a node outside its own subtree. The invariant
of these trees is `Tree.IsForest`: the children lists carry everything, and the other links are
read off them.

The one step lemma is `node?_append?`, which says what an append does to every field of every
node; all that is needed of the step is taken from it.

* **`Tree.WellBuilt`** — the trees that come about in this way.
* **`Tree.IsForest`** — children lists without repetition, links that follow them, no cycles.
* **`isForest_append?`** and **`isForest_of_wellBuilt`** — the step and the run.
-/

namespace Selectors

namespace Tree

variable {t t' : Tree} {parent child : NodeId}

/-! ## Trees that are built step by step -/

/-- One node is among the children of another. -/
def IsChild (t : Tree) (parent child : NodeId) : Prop :=
  child ∈ (t.children parent).toList

/-- A node is in the subtree of another one: it is that node, or a child of a node in the
    subtree. -/
def InSubtree (t : Tree) (top id : NodeId) : Prop :=
  Relation.ReflTransGen t.IsChild top id

/-- The trees built by allocating nodes and by appending nodes without a parent outside of their
    own subtree. -/
inductive WellBuilt : Tree → Prop where
  | empty (isHtml : Bool) : WellBuilt (Tree.empty isHtml)
  | alloc {t : Tree} (kind : NodeKind) : WellBuilt t → WellBuilt (t.alloc kind).2
  | append {t t' : Tree} {parent child : NodeId} :
      WellBuilt t → t.parent? child = none → ¬ t.InSubtree child parent →
      t.append? parent child = some t' → WellBuilt t'

/-- The links of a tree follow its children lists, which are those of an ordered forest. -/
structure IsForest (t : Tree) : Prop where
  parent_iff : ∀ {parent child}, t.parent? child = some parent ↔ t.IsChild parent child
  nodup : ∀ id, (t.children id).toList.Nodup
  next_iff : ∀ {a b}, t.next? a = some b ↔ ∃ parent, [a, b] <:+: (t.children parent).toList
  previous_iff : ∀ {a b},
    t.previous? b = some a ↔ ∃ parent, [a, b] <:+: (t.children parent).toList
  acyclic : ∀ id, ¬ Relation.TransGen t.IsChild id id

/-! ## What one append does -/

/-- An append adds the child to the children of its new parent, and writes the links between the
    two and between the child and the sibling that was last before. -/
theorem node?_append? (h : t.append? parent child = some t') (id : NodeId) :
    t'.node? id = (t.node? id).map fun n =>
      { n with
        children := if parent = id then n.children.push child else n.children
        parent? := if child = id then some parent else n.parent?
        next? := if (t.children parent).back? = some id then some child else n.next?
        previous? := if child = id then (t.children parent).back?.or n.previous?
          else n.previous? } := by
  unfold append? at h
  split at h
  case isFalse => exact nomatch h
  case isTrue hbounds =>
    dsimp only at h
    -- the parent has a last child to link with, or it has none
    split at h
    · next last hlast =>
      obtain rfl := Option.some.inj h
      rw [hlast]
      simp only [linkSiblings, node?_modify, Option.some_or, Option.some.injEq]
      cases t.node? id with
      | none => simp
      | some n => by_cases hchild : child = id <;> by_cases hlast : last = id <;>
          by_cases hparent : parent = id <;> simp [hchild, hlast, hparent]
    · next hlast =>
      obtain rfl := Option.some.inj h
      rw [hlast]
      simp only [node?_modify, Option.none_or]
      cases t.node? id with
      | none => simp
      | some n => by_cases hchild : child = id <;> by_cases hparent : parent = id <;>
          simp [hchild, hparent]

private theorem node?_eq_some_of_lt {id : NodeId} (h : id < t.size) : ∃ n, t.node? id = some n :=
  ⟨_, Array.getElem?_eq_getElem h⟩

/-- Only nodes of the tree are appended, and only to such. -/
theorem lt_of_append?_eq_some (h : t.append? parent child = some t') :
    parent < t.size ∧ child < t.size :=
  (isSome_append? t parent child).1 (h ▸ rfl)

/-- Only the child has another parent. -/
theorem parent?_append? (h : t.append? parent child = some t') (id : NodeId) :
    t'.parent? id = if child = id then some parent else t.parent? id := by
  unfold parent?
  rw [node?_append? h]
  by_cases hid : child = id
  · obtain ⟨n, hn⟩ := node?_eq_some_of_lt (lt_of_append?_eq_some h).2
    subst hid
    simp [hn]
  · cases t.node? id <;> simp [hid]

/-- Only the parent has another child, the last one. -/
theorem children_append? (h : t.append? parent child = some t') (id : NodeId) :
    (t'.children id).toList =
      if parent = id then (t.children id).toList ++ [child] else (t.children id).toList := by
  unfold children
  rw [node?_append? h]
  by_cases hid : parent = id
  · obtain ⟨n, hn⟩ := node?_eq_some_of_lt (lt_of_append?_eq_some h).1
    subst hid
    simp [hn]
  · cases t.node? id <;> simp [hid]

/-- Only the child that was last before is followed by another. -/
theorem next?_append? (h : t.append? parent child = some t') {id : NodeId} (hid : id < t.size) :
    t'.next? id =
      if (t.children parent).toList.getLast? = some id then some child else t.next? id := by
  obtain ⟨n, hn⟩ := node?_eq_some_of_lt hid
  unfold next?
  rw [node?_append? h, hn, Array.getLast?_toList]
  rfl

/-- Only the child follows another sibling, if there was one. -/
theorem previous?_append? (h : t.append? parent child = some t') (id : NodeId) :
    t'.previous? id =
      if child = id then (t.children parent).toList.getLast?.or (t.previous? id)
      else t.previous? id := by
  unfold previous?
  rw [node?_append? h, Array.getLast?_toList]
  by_cases hid : child = id
  · obtain ⟨n, hn⟩ := node?_eq_some_of_lt (lt_of_append?_eq_some h).2
    subst hid
    simp [hn]
  · cases t.node? id <;> simp [hid]

/-- An append adds no nodes. -/
theorem size_append? (h : t.append? parent child = some t') : t'.size = t.size := by
  unfold append? at h
  split at h
  case isFalse => exact nomatch h
  case isTrue =>
    dsimp only at h
    split at h
    · obtain rfl := Option.some.inj h
      simp only [linkSiblings, size_modify]
    · obtain rfl := Option.some.inj h
      simp only [size_modify]

/-- An append keeps the kind of the document. -/
theorem isHtml_append? (h : t.append? parent child = some t') : t'.isHtml = t.isHtml := by
  unfold append? at h
  split at h
  case isFalse => exact nomatch h
  case isTrue =>
    dsimp only at h
    split at h
    · obtain rfl := Option.some.inj h
      rfl
    · obtain rfl := Option.some.inj h
      rfl

/-- An append adds one pair of parent and child. -/
theorem isChild_append? (h : t.append? parent child = some t') {a b : NodeId} :
    t'.IsChild a b ↔ t.IsChild a b ∨ parent = a ∧ child = b := by
  unfold IsChild
  rw [children_append? h]
  by_cases hid : parent = a
  · simp [hid, eq_comm]
  · simp [hid]

/-! ## The invariant -/

/-- Only nodes of the tree have parents. -/
theorem lt_size_of_parent?_eq_some (h : t.parent? child = some parent) : child < t.size := by
  unfold parent? at h
  by_contra hsize
  have hnone : t.node? child = none := Array.getElem?_eq_none (Nat.le_of_not_lt hsize)
  rw [hnone] at h
  exact nomatch h

/-- Two neighbours in a list that grows at its end were neighbours before, or the second one is
    new and the first one was last. -/
theorem pair_infix_concat {l : List NodeId} {a b c : NodeId} :
    [a, b] <:+: l ++ [c] ↔ [a, b] <:+: l ∨ l.getLast? = some a ∧ b = c := by
  rw [List.infix_concat_iff, or_comm]
  refine or_congr_right ?_
  constructor
  · rintro ⟨front, hfront⟩
    have hsplit : (front ++ [a]) ++ [b] = l ++ [c] := by rw [← hfront]; simp
    obtain ⟨hl, hb⟩ := List.append_inj' hsplit rfl
    refine ⟨?_, List.singleton_inj.1 hb⟩
    rw [← hl, List.getLast?_concat]
  · rintro ⟨hlast, rfl⟩
    obtain ⟨front, rfl⟩ := List.getLast?_eq_some_iff.1 hlast
    exact ⟨front, by simp⟩

/-- The last of distinct entries is followed by none. -/
theorem not_pair_infix_of_getLast? {l : List NodeId} {a b : NodeId} (hnodup : l.Nodup)
    (hlast : l.getLast? = some a) : ¬ [a, b] <:+: l := by
  obtain ⟨front, rfl⟩ := List.getLast?_eq_some_iff.1 hlast
  intro hpair
  have hfront : a ∉ front := by
    intro hmem
    exact (List.nodup_append.1 hnodup).2.2 a hmem a List.mem_cons_self rfl
  rcases pair_infix_concat.1 hpair with hpair | ⟨hlast', -⟩
  · exact hfront (hpair.subset List.mem_cons_self)
  · exact hfront (List.mem_of_getLast? hlast')

private theorem eq_document_of_node?_empty {isHtml : Bool} {id : NodeId} {n : Node}
    (hn : (Tree.empty isHtml).node? id = some n) : n = { kind := .document } := by
  have hmem := Array.mem_of_getElem? hn
  simpa [Tree.empty] using hmem

/-- The document of an empty tree has no children. -/
theorem children_empty (isHtml : Bool) (id : NodeId) : (Tree.empty isHtml).children id = #[] := by
  unfold children
  cases hn : (Tree.empty isHtml).node? id with
  | none => rfl
  | some n =>
    rw [eq_document_of_node?_empty hn]
    rfl

/-- A tree in which nothing is linked is a forest. -/
theorem isForest_empty (isHtml : Bool) : (Tree.empty isHtml).IsForest := by
  have hlink : ∀ (link : Node → Option NodeId) id, link { kind := .document } = none →
      ((Tree.empty isHtml).node? id).bind link = none := by
    intro link id hdocument
    cases hn : (Tree.empty isHtml).node? id with
    | none => rfl
    | some n => rw [eq_document_of_node?_empty hn]; exact hdocument
  -- without children and links there is nothing for the conditions to be about
  refine ⟨?_, ?_, ?_, ?_, ?_⟩
  · intro parent child
    rw [show (Tree.empty isHtml).parent? child = none from hlink Node.parent? child rfl, IsChild,
      children_empty]
    simp
  · intro id
    rw [children_empty]
    exact List.nodup_nil
  · intro a b
    rw [show (Tree.empty isHtml).next? a = none from hlink Node.next? a rfl]
    simp [children_empty]
  · intro a b
    rw [show (Tree.empty isHtml).previous? b = none from hlink Node.previous? b rfl]
    simp [children_empty]
  · intro id hcycle
    obtain ⟨c, hc, -⟩ := Relation.TransGen.head'_iff.1 hcycle
    rw [IsChild, children_empty] at hc
    exact nomatch hc

/-- A new node has no children, and the others have the children that they had. -/
theorem children_alloc (t : Tree) (kind : NodeKind) : (t.alloc kind).2.children = t.children := by
  funext id
  unfold children
  rw [node?_alloc]
  split
  · next hid =>
    have hfresh : t.node? t.size = none := Array.getElem?_eq_none (Nat.le_refl _)
    rw [hid, hfresh]
    rfl
  · rfl

/-- A new node has no links, and no node gets another link. -/
theorem isForest_alloc (h : t.IsForest) (kind : NodeKind) : (t.alloc kind).2.IsForest := by
  have hfresh : t.node? t.size = none := Array.getElem?_eq_none (Nat.le_refl _)
  have hlink : ∀ (link : Node → Option NodeId) id, link { kind } = none →
      ((t.alloc kind).2.node? id).bind link = (t.node? id).bind link := by
    intro link id hnew
    rw [node?_alloc]
    split
    · next hid => rw [hid, hfresh]; exact hnew
    · rfl
  have hparent : (t.alloc kind).2.parent? = t.parent? := funext fun id => hlink _ id rfl
  have hnext : (t.alloc kind).2.next? = t.next? := funext fun id => hlink _ id rfl
  have hprevious : (t.alloc kind).2.previous? = t.previous? := funext fun id => hlink _ id rfl
  have hchildren := children_alloc t kind
  have hchild : (t.alloc kind).2.IsChild = t.IsChild := by
    unfold IsChild
    rw [hchildren]
  refine ⟨?_, ?_, ?_, ?_, ?_⟩
  · rw [hparent, hchild]; exact h.parent_iff
  · rw [hchildren]; exact h.nodup
  · rw [hnext, hchildren]; exact h.next_iff
  · rw [hprevious, hchildren]; exact h.previous_iff
  · rw [hchild]; exact h.acyclic

/-! ## Appending an orphan keeps the forest -/

/-- A node without a parent is nobody's child. -/
theorem not_isChild_of_orphan (hforest : t.IsForest) (horphan : t.parent? child = none)
    (id : NodeId) : ¬ t.IsChild id child := by
  intro hchild
  rw [← hforest.parent_iff, horphan] at hchild
  exact nomatch hchild

/-- A walk down in the larger tree stays in the smaller one, or it passes from the parent to the
    child that has been added. -/
theorem transGen_append? (h : t.append? parent child = some t') {a b : NodeId}
    (hwalk : Relation.TransGen t'.IsChild a b) :
    Relation.TransGen t.IsChild a b ∨ t.InSubtree a parent ∧ t.InSubtree child b := by
  induction hwalk with
  | single hstep =>
    rcases (isChild_append? h).1 hstep with hold | ⟨rfl, rfl⟩
    · exact Or.inl (Relation.TransGen.single hold)
    · exact Or.inr ⟨Relation.ReflTransGen.refl, Relation.ReflTransGen.refl⟩
  | tail _ hstep ih =>
    rcases (isChild_append? h).1 hstep with hold | ⟨rfl, rfl⟩
    · rcases ih with ih | ⟨habove, hbelow⟩
      · exact Or.inl (ih.tail hold)
      · exact Or.inr ⟨habove, hbelow.tail hold⟩
    · rcases ih with ih | ⟨habove, -⟩
      · exact Or.inr ⟨ih.to_reflTransGen, Relation.ReflTransGen.refl⟩
      · exact Or.inr ⟨habove, Relation.ReflTransGen.refl⟩

/-- Two nodes are neighbours after an append if they were before, or if the second one is the new
    child and the first one was the last child of its parent. -/
theorem exists_pair_append? (h : t.append? parent child = some t') {a b : NodeId} :
    (∃ id, [a, b] <:+: (t'.children id).toList) ↔
      (∃ id, [a, b] <:+: (t.children id).toList) ∨
        (t.children parent).toList.getLast? = some a ∧ b = child := by
  constructor
  · rintro ⟨id, hpair⟩
    rw [children_append? h] at hpair
    split at hpair
    · next hid =>
      subst hid
      rcases pair_infix_concat.1 hpair with hpair | hlast
      · exact Or.inl ⟨_, hpair⟩
      · exact Or.inr hlast
    · exact Or.inl ⟨id, hpair⟩
  · rintro (⟨id, hpair⟩ | hlast)
    · refine ⟨id, ?_⟩
      rw [children_append? h]
      split
      · exact hpair.trans (List.prefix_append _ _).isInfix
      · exact hpair
    · refine ⟨parent, ?_⟩
      rw [children_append? h, if_pos rfl]
      exact pair_infix_concat.2 (Or.inr hlast)

/-- The child that was last has had no next sibling. -/
theorem not_pair_infix_of_last (hforest : t.IsForest) {a b id : NodeId}
    (ha : (t.children parent).toList.getLast? = some a) :
    ¬ [a, b] <:+: (t.children id).toList := by
  intro hpair
  have hparent : t.IsChild parent a := List.mem_of_getLast? ha
  have hid : t.IsChild id a := hpair.subset List.mem_cons_self
  rw [← hforest.parent_iff] at hparent hid
  obtain rfl : parent = id := Option.some.inj (hparent.symm.trans hid)
  exact not_pair_infix_of_getLast? (hforest.nodup parent) ha hpair

/-- A node without a parent has had no previous sibling. -/
theorem not_pair_infix_of_orphan (hforest : t.IsForest) (horphan : t.parent? child = none)
    {a id : NodeId} : ¬ [a, child] <:+: (t.children id).toList := by
  intro hpair
  have hchild : t.IsChild id child := hpair.subset (by simp)
  exact not_isChild_of_orphan hforest horphan id hchild

/-- The links forwards still follow the children lists. -/
theorem next_iff_append? (hforest : t.IsForest) (h : t.append? parent child = some t')
    {a b : NodeId} :
    t'.next? a = some b ↔ ∃ id, [a, b] <:+: (t'.children id).toList := by
  rw [exists_pair_append? h]
  by_cases ha : (t.children parent).toList.getLast? = some a
  · have hbound : a < t.size := lt_size_of_parent?_eq_some
      (hforest.parent_iff.2 (List.mem_of_getLast? ha : t.IsChild parent a))
    rw [next?_append? h hbound, if_pos ha, or_iff_right]
    · simp [ha, eq_comm]
    · rintro ⟨id, hpair⟩
      exact not_pair_infix_of_last hforest ha hpair
  · rw [or_iff_left fun hboth => ha hboth.1, ← hforest.next_iff]
    by_cases hbound : a < t.size
    · rw [next?_append? h hbound, if_neg ha]
    · have hnone : t.node? a = none := Array.getElem?_eq_none (Nat.le_of_not_lt hbound)
      unfold next?
      rw [node?_append? h, hnone]
      rfl

/-- The links backwards still follow the children lists. -/
theorem previous_iff_append? (hforest : t.IsForest) (horphan : t.parent? child = none)
    (h : t.append? parent child = some t') {a b : NodeId} :
    t'.previous? b = some a ↔ ∃ id, [a, b] <:+: (t'.children id).toList := by
  rw [exists_pair_append? h, previous?_append? h]
  split
  · next hb =>
    subst hb
    have hnone : t.previous? child = none := by
      cases hprevious : t.previous? child with
      | none => rfl
      | some a =>
        obtain ⟨id, hpair⟩ := hforest.previous_iff.1 hprevious
        exact absurd hpair (not_pair_infix_of_orphan hforest horphan)
    rw [hnone, Option.or_none, or_iff_right]
    · simp
    · rintro ⟨id, hpair⟩
      exact not_pair_infix_of_orphan hforest horphan hpair
  · next hb => rw [or_iff_left fun hboth => hb hboth.2.symm, hforest.previous_iff]

/-- The step: an append of a node without a parent, to a node outside of its subtree, keeps the
    forest. -/
theorem isForest_append? (hforest : t.IsForest) (horphan : t.parent? child = none)
    (houtside : ¬ t.InSubtree child parent) (h : t.append? parent child = some t') :
    t'.IsForest := by
  have hnew : ∀ id, ¬ t.IsChild id child := not_isChild_of_orphan hforest horphan
  refine ⟨?_, ?_, next_iff_append? hforest h, previous_iff_append? hforest horphan h, ?_⟩
  · intro p c
    rw [parent?_append? h, isChild_append? h]
    split
    · next hc =>
      subst hc
      simp [hnew]
    · next hc => rw [hforest.parent_iff, or_iff_left fun hboth => hc hboth.2]
  · intro id
    rw [children_append? h]
    split
    · next hid =>
      subst hid
      rw [List.nodup_append]
      refine ⟨hforest.nodup _, List.nodup_singleton _, ?_⟩
      rintro a ha b hb rfl
      exact hnew _ (List.mem_singleton.1 hb ▸ ha)
    · exact hforest.nodup id
  -- a cycle is an old one, or it uses the new edge and puts the parent below the child
  · intro id hcycle
    rcases transGen_append? h hcycle with hold | ⟨habove, hbelow⟩
    · exact hforest.acyclic id hold
    · exact houtside (hbelow.trans habove)

/-- The run: every well-built tree is a forest. -/
theorem isForest_of_wellBuilt (h : t.WellBuilt) : t.IsForest := by
  induction h with
  | empty isHtml => exact isForest_empty isHtml
  | alloc kind _ ih => exact isForest_alloc ih kind
  | append _ horphan houtside happend ih => exact isForest_append? ih horphan houtside happend

/-! ## Trees that grow by new nodes -/

/-- A new node has neither parent nor children, so it can go below any older one. -/
theorem wellBuilt_appendNew? {kind : NodeKind} {id : NodeId} (h : t.WellBuilt)
    (hparent : parent < t.size) (hnew : t.appendNew? parent kind = some (id, t')) :
    t'.WellBuilt := by
  have hnode : (t.alloc kind).2.node? t.size = some { kind } := by
    rw [node?_alloc, if_pos rfl]
  obtain ⟨t'', happend, hpair⟩ := Option.map_eq_some_iff.1 hnew
  obtain ⟨-, rfl⟩ := Prod.mk.inj hpair
  refine WellBuilt.append (WellBuilt.alloc kind h) ?_ ?_ happend
  · show ((t.alloc kind).2.node? t.size).bind Node.parent? = none
    rw [hnode]
    rfl
  · intro hinside
    rcases Relation.ReflTransGen.cases_head hinside with heq | ⟨below, hbelow, -⟩
    · exact Nat.ne_of_gt hparent heq
    · have hchildren : (t.alloc kind).2.children t.size = #[] := by
        unfold children
        rw [hnode]
        rfl
      rw [IsChild, hchildren] at hbelow
      exact nomatch hbelow

/-- The tree with new nodes added one after the other, each as the last child of an older one;
    `none` if a parent is not there yet. -/
def grow? (t : Tree) : List (NodeId × NodeKind) → Option Tree
  | [] => some t
  | (parent, kind) :: rest =>
    if parent < t.size then (t.appendNew? parent kind).bind fun (_, t) => t.grow? rest else none

/-- A tree that grows by new nodes stays well built. -/
theorem wellBuilt_grow? {additions : List (NodeId × NodeKind)} (h : t.WellBuilt)
    (hgrow : t.grow? additions = some t') : t'.WellBuilt := by
  induction additions generalizing t with
  | nil =>
    obtain rfl := Option.some.inj hgrow
    exact h
  | cons addition rest ih =>
    unfold grow? at hgrow
    split at hgrow
    · next hparent =>
      obtain ⟨⟨id, t₁⟩, hnew, hrest⟩ := Option.bind_eq_some_iff.1 hgrow
      exact ih (wellBuilt_appendNew? h hparent hnew) hrest
    · exact nomatch hgrow

/-- A list of two items with some text between them. -/
def twoItemsNodes : List (NodeId × NodeKind) :=
  [(0, .element { localName := "ul" }), (1, .element { localName := "li" }), (1, .text "and"),
    (1, .element { localName := "li" })]

/-- An HTML document with a list of two items. -/
def twoItems : Tree :=
  ((Tree.empty true).grow? twoItemsNodes).getD default

/-- The list of two items is well built. -/
theorem wellBuilt_twoItems : twoItems.WellBuilt := by
  have hgrow : (Tree.empty true).grow? twoItemsNodes = some twoItems := rfl
  exact wellBuilt_grow? (WellBuilt.empty true) hgrow

end Tree

end Selectors
