import Selectors.Proofs.Tree.Hidden
import Selectors.Proofs.Tree.Traversal
import Selectors.Proofs.View

/-!
# Hidden nodes are not seen — comments and empty texts make no difference

When the hidden nodes of a tree are left out, its elements remain, and only their numbers change.
The ways from an element are compared one by one. The way upwards takes the same steps in both
trees. The ways among siblings and the visit of a subtree are read off the children lists, from
which nothing is missing but nodes that are no elements and have nothing below them.

* **`Tree.Cleared.counterpart`** — the element that an element becomes.
* **`Tree.Cleared.sameView`** — from both of them the same is seen.
* **`Tree.sameAnswers_withoutHidden`** — so tests, indexes and queries answer the same for both.
-/

namespace Selectors

namespace Tree

variable {t t' : Tree}

/-- An element is a node of that kind. -/
theorem elementData?_eq_some_iff {id : NodeId} {data : ElementData} :
    t.elementData? id = some data ↔ t.kinds[id]? = some (.element data) := by
  rw [getElem?_kinds]
  unfold elementData?
  split
  · next heq => simp [heq]
  · next hnot =>
    refine iff_of_false nofun ?_
    intro hkind
    obtain ⟨⟨kind, parent, children, previous, next⟩, hnode, rfl⟩ := Option.map_eq_some_iff.1 hkind
    exact hnot _ _ _ _ _ hnode

/-- The nodes that count as content are those that remain. -/
theorem isContent_eq_remains (t : Tree) (id : NodeId) : t.isContent id = remains t.kinds id := by
  unfold isContent remains
  rw [getElem?_kinds]
  cases (t.node? id).map Node.kind with
  | none => rfl
  | some kind => cases kind <;> rfl

/-- Elements remain. -/
theorem remains_of_elementData? {id : NodeId} {data : ElementData}
    (h : t.elementData? id = some data) : remains t.kinds id = true := by
  rw [remains_eq (elementData?_eq_some_iff.1 h)]
  rfl

/-- What remains is a node of the tree. -/
theorem lt_size_of_remains {id : NodeId} (h : remains t.kinds id = true) : id < t.size := by
  obtain ⟨kind, hkind, -⟩ := remains_iff.1 h
  rw [← length_kinds]
  exact (List.getElem?_eq_some_iff.1 hkind).1

namespace Cleared

/-! ## Elements -/

/-- A node that remains is the same element as before, if it is one. -/
theorem elementData?_newNumber (h : Cleared t.kinds t t') {id : NodeId}
    (hremains : remains t.kinds id = true) :
    t'.elementData? (newNumber t.kinds id) = t.elementData? id := by
  refine Option.ext fun data => ?_
  rw [elementData?_eq_some_iff, elementData?_eq_some_iff,
    h.getElem?_newNumber (lt_size_of_remains hremains) hremains]

/-- What an element becomes when the hidden nodes are left out. -/
def counterpart (h : Cleared t.kinds t t') (e : Element t) : Element t' where
  id := newNumber t.kinds e.id
  data := e.data
  isElement :=
    (h.elementData?_newNumber (remains_of_elementData? e.isElement)).trans e.isElement

/-- The element of a node that remains is found under its new number. -/
theorem element?_newNumber (h : Cleared t.kinds t t') {id : NodeId}
    (hremains : remains t.kinds id = true) :
    t'.element? (newNumber t.kinds id) = (t.element? id).map h.counterpart := by
  cases hid : t.element? id with
  | none =>
    refine element?_eq_none_iff.2 ?_
    rw [h.elementData?_newNumber hremains]
    exact element?_eq_none_iff.1 hid
  | some e =>
    obtain rfl := element?_eq_some_iff.1 hid
    exact element?_eq_some_iff.2 rfl

/-- Of some nodes that lose the hidden ones and get new numbers, the elements are those that there
    were. -/
theorem filterMap_element? (h : Cleared t.kinds t t') (ids : List NodeId) :
    ((ids.filter (remains t.kinds)).map (newNumber t.kinds)).filterMap t'.element? =
      (ids.filterMap t.element?).map h.counterpart := by
  induction ids with
  | nil => rfl
  | cons id rest ih =>
    by_cases hremains : remains t.kinds id = true
    · rw [List.filter_cons_of_pos hremains, List.map_cons, List.filterMap_cons,
        h.element?_newNumber hremains, ih, List.filterMap_cons]
      cases t.element? id <;> rfl
    · -- a hidden node is no element
      have hnone : t.element? id = none := by
        refine element?_eq_none_iff.2 (Option.eq_none_iff_forall_ne_some.2 ?_)
        intro data hdata
        exact hremains (remains_of_elementData? hdata)
      rw [List.filter_cons_of_neg hremains, ih, List.filterMap_cons, hnone]

/-- The elements of the two trees correspond one to one. -/
theorem bijective_counterpart (h : Cleared t.kinds t t') : Function.Bijective h.counterpart := by
  constructor
  · intro a b heq
    have ha := remains_of_elementData? a.isElement
    have hb := remains_of_elementData? b.isElement
    exact Element.ext_id (newNumber_inj ha hb (congrArg Element.id heq))
  · intro e'
    obtain ⟨id, -, hremains, hid⟩ := h.exists_newNumber (elementData?_lt e'.isElement)
    have hdata : t.elementData? id = some e'.data := by
      rw [← h.elementData?_newNumber hremains, hid]
      exact e'.isElement
    exact ⟨⟨id, e'.data, hdata⟩, Element.ext_id hid⟩

/-- An element stands between the siblings that remain. -/
theorem children_split (h : Cleared t.kinds t t') {e : Element t} {parent : NodeId}
    {front back : List NodeId} (hsplit : (t.children parent).toList = front ++ e.id :: back) :
    (t'.children (newNumber t.kinds parent)).toList =
      (front.filter (remains t.kinds)).map (newNumber t.kinds) ++ (h.counterpart e).id ::
        (back.filter (remains t.kinds)).map (newNumber t.kinds) := by
  have hchild : t.IsChild parent e.id := by
    rw [IsChild, hsplit]
    exact List.mem_append_right front List.mem_cons_self
  rw [h.children_eq (h.remains_of_isChild hchild), hsplit, List.filter_append,
    List.filter_cons_of_pos (remains_of_elementData? e.isElement), List.map_append, List.map_cons]
  rfl

/-! ## Upwards -/

section Walks

variable (h : Cleared t.kinds t t') (hforest : t.IsForest) (hforest' : t'.IsForest)

include hforest hforest'

/-- The step upwards leads to the counterpart of the parent. -/
theorem parent?_counterpart (e : Element t) :
    (h.counterpart e).parent? = e.parent?.map h.counterpart := by
  show (t'.parent? (newNumber t.kinds e.id)).bind t'.element? =
    ((t.parent? e.id).bind t.element?).map h.counterpart
  rw [h.parent?_newNumber hforest hforest' (remains_of_elementData? e.isElement)]
  cases hparent : t.parent? e.id with
  | none => rfl
  | some parent => exact h.element?_newNumber (h.remains_of_isChild (hforest.parent_iff.1 hparent))

/-- The second tree may have fewer nodes, and still there are steps enough for the way upwards. -/
theorem ancestors_counterpart (e : Element t) :
    (h.counterpart e).ancestors = e.ancestors.map h.counterpart := by
  have hstep := h.parent?_counterpart hforest hforest'
  -- a way in the first tree is one in the second tree as well, so both trees bound its length
  have hbound : ∀ l, List.IsChain (fun a b : Element t => a.parent? = some b) (e :: l) →
      l.length ≤ t'.size := by
    intro l hl
    have hmapped : List.IsChain (fun a b : Element t' => a.parent? = some b)
        (h.counterpart e :: l.map h.counterpart) := by
      rw [← List.map_cons, List.isChain_map]
      refine hl.imp ?_
      intro a b hab
      rw [hstep, hab]
      rfl
    exact List.length_map h.counterpart ▸ Element.length_le_of_isChain_parent? hforest' hmapped
  have hbound' : ∀ l, List.IsChain (fun a b : Element t => a.parent? = some b) (e :: l) →
      l.length ≤ t.size := fun _ => Element.length_le_of_isChain_parent? hforest
  calc (h.counterpart e).ancestors
      = chain Element.parent? t'.size (e.parent?.map h.counterpart) := by
        rw [← hstep]
        rfl
    _ = (chain Element.parent? t'.size e.parent?).map h.counterpart := chain_map hstep _ _
    _ = e.ancestors.map h.counterpart := by
        rw [chain_eq_of_bounds hbound hbound']
        rfl

/-! ## Among siblings -/

/-- A node without a parent has none without the hidden nodes. -/
theorem parent?_counterpart_eq_none {e : Element t} (horphan : t.parent? e.id = none) :
    t'.parent? (h.counterpart e).id = none := by
  show t'.parent? (newNumber t.kinds e.id) = none
  rw [h.parent?_newNumber hforest hforest' (remains_of_elementData? e.isElement), horphan]
  rfl

/-- The siblings in front are the counterparts of those there were. -/
theorem preceding_counterpart (e : Element t) :
    (h.counterpart e).preceding = e.preceding.map h.counterpart := by
  rcases Element.orphan_or_split hforest e with horphan | ⟨parent, front, back, hsplit⟩
  · have horphan' := h.parent?_counterpart_eq_none hforest hforest' horphan
    rw [Element.preceding_eq_nil hforest horphan, Element.preceding_eq_nil hforest' horphan']
    rfl
  · rw [Element.preceding_eq hforest hsplit,
      Element.preceding_eq hforest' (h.children_split hsplit), ← List.map_reverse,
      ← List.filter_reverse, h.filterMap_element?]

/-- The siblings behind are the counterparts of those there were. -/
theorem following_counterpart (e : Element t) :
    (h.counterpart e).following = e.following.map h.counterpart := by
  rcases Element.orphan_or_split hforest e with horphan | ⟨parent, front, back, hsplit⟩
  · have horphan' := h.parent?_counterpart_eq_none hforest hforest' horphan
    rw [Element.following_eq_nil hforest horphan, Element.following_eq_nil hforest' horphan']
    rfl
  · rw [Element.following_eq hforest hsplit,
      Element.following_eq hforest' (h.children_split hsplit), h.filterMap_element?]

end Walks

/-! ## Downwards -/

/-- The children that do not remain are no content. -/
theorem isEmpty_counterpart (h : Cleared t.kinds t t') (e : Element t) :
    (h.counterpart e).isEmpty = e.isEmpty := by
  -- a node that remains is content in both trees, since it keeps its kind
  have hcontent : ∀ {id}, remains t.kinds id = true →
      t'.isContent (newNumber t.kinds id) = true := by
    intro id hremains
    have hkind := h.getElem?_newNumber (lt_size_of_remains hremains) hremains
    rw [isContent_eq_remains, remains, hkind]
    exact hremains
  show (t'.children (newNumber t.kinds e.id)).all (fun child => !t'.isContent child) =
    (t.children e.id).all fun child => !t.isContent child
  rw [← Array.all_toList, ← Array.all_toList,
    h.children_eq (remains_of_elementData? e.isElement), List.all_map, List.all_filter]
  refine List.all_congr rfl fun child => ?_
  rw [isContent_eq_remains]
  by_cases hremains : remains t.kinds child = true
  · rw [Function.comp_apply, hcontent hremains, hremains]
    rfl
  · rw [eq_false_of_ne_true hremains]
    rfl

/-- A pre-order loses the hidden nodes, and nothing with them. -/
theorem preorder (h : Cleared t.kinds t t') {ids out : List NodeId} (hout : t.Preorder ids out) :
    t'.Preorder ((ids.filter (remains t.kinds)).map (newNumber t.kinds))
      ((out.filter (remains t.kinds)).map (newNumber t.kinds)) := by
  induction hout with
  | nil => exact .nil
  | @cons id ids below after hbelow _ ihbelow ihafter =>
    by_cases hremains : remains t.kinds id = true
    · rw [← h.children_eq hremains] at ihbelow
      rw [List.filter_cons_of_pos hremains, List.filter_cons_of_pos hremains, List.map_cons,
        List.map_cons, List.filter_append, List.map_append]
      exact .cons ihbelow ihafter
    · -- there is nothing below a hidden node, so it is taken out alone
      have hnone : below = [] := by
        rw [h.leaf (eq_false_of_ne_true hremains)] at hbelow
        exact preorder_unique hbelow .nil
      rw [List.filter_cons_of_neg hremains, List.filter_cons_of_neg hremains, hnone,
        List.nil_append]
      exact ihafter

/-- The elements of a subtree are the counterparts of those there were, in the same order. -/
theorem subtree_counterpart (h : Cleared t.kinds t t') (hforest : t.IsForest)
    (hforest' : t'.IsForest) (e : Element t) :
    (h.counterpart e).subtree = e.subtree.map h.counterpart := by
  obtain ⟨ids, hids, hvisit, hrounds, -⟩ := exists_visit? hforest (elementData?_lt e.isElement)
  obtain ⟨ids', hids', hvisit', hrounds', -⟩ :=
    exists_visit? hforest' (elementData?_lt (h.counterpart e).isElement)
  -- the second visit goes through the only pre-order that there is
  have hmapped := h.preorder hids
  rw [List.filter_cons_of_pos (remains_of_elementData? e.isElement), List.filter_nil,
    List.map_singleton] at hmapped
  obtain rfl := preorder_unique hids' hmapped
  show ((t'.visit? t'.rounds [(h.counterpart e).id]).getD []).filterMap t'.element? =
    (((t.visit? t.rounds [e.id]).getD []).filterMap t.element?).map h.counterpart
  rw [hvisit' _ hrounds', hvisit _ hrounds]
  exact h.filterMap_element? ids

/-- From an element the same is seen with and without the hidden nodes. -/
theorem sameView (h : Cleared t.kinds t t') (hforest : t.IsForest) (hforest' : t'.IsForest) :
    SameView h.counterpart where
  isHtml_eq := h.isHtml_eq
  data_eq _ := rfl
  parent?_eq := h.parent?_counterpart hforest hforest'
  ancestors_eq := h.ancestors_counterpart hforest hforest'
  preceding_eq := h.preceding_counterpart hforest hforest'
  following_eq := h.following_counterpart hforest hforest'
  isEmpty_eq := h.isEmpty_counterpart
  subtree_eq := h.subtree_counterpart hforest hforest'

end Cleared

/-! ## Runs without hidden nodes -/

/-- A permitted run that appends nothing to hidden nodes can be done without them. The elements of
    the two trees correspond by their new numbers, and corresponding elements get the same answers
    from every test, from every index and from every query.

    The order in which an element has its attributes is part of the data that it is made with. It may
    be any order, and both runs make the element with the same; `AttributeTest.accepts_eq_of_perm`
    says which tests would notice another. -/
theorem sameAnswers_withoutHidden {isHtml : Bool} {edits : List Edit}
    (hpermits : (Tree.empty isHtml).PermitsAll edits) (hparents : ParentsRemain edits) :
    ∃ t t', (Tree.empty isHtml).run? edits = some t ∧
      (Tree.empty isHtml).run? (withoutHidden edits) = some t' ∧
      ∃ counterpart : Element t → Element t', Function.Bijective counterpart ∧
        (∀ e, (counterpart e).id = newNumber (kindsAfter edits) e.id ∧
          (counterpart e).data = e.data) ∧
        SameAnswers counterpart := by
  obtain ⟨t, t', hrun, hrun', hforest, hforest', hkinds, hcleared⟩ :=
    exists_run?_withoutHidden hpermits hparents
  refine ⟨t, t', hrun, hrun', hcleared.counterpart, hcleared.bijective_counterpart, ?_,
    (hcleared.sameView hforest hforest').sameAnswers⟩
  intro e
  rw [← hkinds]
  exact ⟨rfl, rfl⟩

/-- An item with two attributes of one local name, the one in a namespace first. -/
def linkedItem : ElementData :=
  { localName := "li", attributes := ⟨[("\x7bu\x7dhref", "y"), ("href", "x")], by simp⟩ }

/-- A list of two items with comments before and between them and with an empty text; one comment is
    appended only after it has been made, and one is left loose. -/
def commentedList : List Edit :=
  [.alloc (.comment "loose"), .appendNew 0 (.element { localName := "ul" }),
    .appendNew 2 (.comment "first"), .appendNew 2 (.element linkedItem),
    .appendNew 2 (.text ""), .alloc (.comment "second"), .append 2 6,
    .appendNew 2 (.element { localName := "li" })]

/-- What is left of it is a list of two items. -/
def plainList : List Edit :=
  [.appendNew 0 (.element { localName := "ul" }), .appendNew 1 (.element linkedItem),
    .appendNew 1 (.element { localName := "li" })]

/-- The answers for the list are those for it without comments and empty texts. -/
theorem sameAnswers_plainList :
    ∃ t t', (Tree.empty true).run? commentedList = some t ∧
      (Tree.empty true).run? plainList = some t' ∧
      ∃ counterpart : Element t → Element t', Function.Bijective counterpart ∧
        SameAnswers counterpart := by
  have hascending : Ascending 1 [] commentedList :=
    ⟨by decide, by decide, by decide, by decide, by decide, by decide, by decide, by decide,
      trivial⟩
  have hpermits : (Tree.empty true).PermitsAll commentedList :=
    permitsAll_of_ascending (Rising.empty true) hascending
  have hparents : ParentsRemain commentedList := by
    show ∀ edit ∈ commentedList, ∀ parent ∈ edit.parent?, _
    decide
  obtain ⟨t, t', hrun, hrun', counterpart, hbijective, -, hanswers⟩ :=
    sameAnswers_withoutHidden hpermits hparents
  exact ⟨t, t', hrun, hrun', counterpart, hbijective, hanswers⟩

end Tree

end Selectors
