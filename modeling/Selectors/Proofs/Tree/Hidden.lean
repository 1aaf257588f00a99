import Selectors.Proofs.Tree.Edits

/-!
# Hidden nodes — leaving comments and empty texts out of a tree

Comments and texts without characters are nodes like all others, with numbers and with links. A run
of edits that appends nothing to them can do without them: the edits that make them and that append
them are left out, and each node that remains gets the number of those that remain before it.

The two runs go side by side. The invariant is about the children lists alone: a node that remains
has the children that it had, less the hidden ones and by their new numbers. That is enough, as both
trees are well built, and the other links of a well-built tree follow its children lists.

* **`Tree.withoutHidden`** — a run of edits without the hidden nodes.
* **`Tree.Cleared`** — how the trees of the two runs are related.
* **`Tree.Cleared.exists_edit?`** and **`Tree.Cleared.exists_run?`** — the step and the run.
-/

namespace Selectors

/-! ## Counting a part of a list -/

section Counting

variable {α : Type} {p : α → Bool}

/-- An entry that is kept by a filter has as many entries before it as were kept before. -/
theorem getElem?_filter_countP {l : List α} {i : Nat} {a : α} (h : l[i]? = some a)
    (ha : p a = true) : (l.filter p)[(l.take i).countP p]? = some a := by
  induction l generalizing i with
  | nil => exact nomatch h
  | cons b rest ih =>
    cases i with
    | zero =>
      obtain rfl : b = a := Option.some.inj h
      rw [List.filter_cons_of_pos ha]
      rfl
    | succ i =>
      rw [List.take_succ_cons]
      by_cases hb : p b = true
      · rw [List.filter_cons_of_pos hb, List.countP_cons_of_pos hb]
        exact ih h
      · rw [List.filter_cons_of_neg hb, List.countP_cons_of_neg hb]
        exact ih h

/-- Every entry that is kept by a filter was an entry before. -/
theorem exists_of_getElem?_filter {l : List α} {n : Nat} {a : α} (h : (l.filter p)[n]? = some a) :
    ∃ i, l[i]? = some a ∧ (l.take i).countP p = n := by
  induction l generalizing n with
  | nil => exact nomatch h
  | cons b rest ih =>
    by_cases hb : p b = true
    · rw [List.filter_cons_of_pos hb] at h
      cases n with
      | zero => exact ⟨0, h, rfl⟩
      | succ n =>
        obtain ⟨i, hi, hcount⟩ := ih h
        refine ⟨i + 1, hi, ?_⟩
        rw [List.take_succ_cons, List.countP_cons_of_pos hb, hcount]
    · rw [List.filter_cons_of_neg hb] at h
      obtain ⟨i, hi, hcount⟩ := ih h
      refine ⟨i + 1, hi, ?_⟩
      rw [List.take_succ_cons, List.countP_cons_of_neg hb, hcount]

/-- Two kept entries with equally many kept entries before them are the same. -/
theorem countP_take_inj {l : List α} {i j : Nat} {a b : α} (hi : l[i]? = some a) (ha : p a = true)
    (hj : l[j]? = some b) (hb : p b = true) (h : (l.take i).countP p = (l.take j).countP p) :
    i = j := by
  induction l generalizing i j with
  | nil => exact nomatch hi
  | cons c rest ih =>
    -- the number of an entry behind a kept one is not zero
    have hlater : ∀ {d : α} (k : Nat), p d = true → (c :: rest)[0]? = some d →
        ((c :: rest).take 0).countP p ≠ ((c :: rest).take (k + 1)).countP p := by
      intro d k hd hfirst
      obtain rfl : c = d := Option.some.inj hfirst
      rw [List.take_succ_cons, List.countP_cons_of_pos hd]
      exact Nat.ne_of_lt (Nat.succ_pos _)
    cases i with
    | zero =>
      cases j with
      | zero => rfl
      | succ j => exact absurd h (hlater j ha hi)
    | succ i =>
      cases j with
      | zero => exact absurd h.symm (hlater i hb hj)
      | succ j =>
        rw [List.take_succ_cons, List.take_succ_cons, List.countP_cons, List.countP_cons] at h
        rw [ih hi hj (Nat.add_right_cancel h)]

end Counting

/-- Whether a node says nothing to a selector: it is a comment or a text without characters. -/
def NodeKind.isHidden : NodeKind → Bool
  | .comment _ => true
  | .text content => content == ""
  | .document | .element _ => false

namespace Tree

/-! ## Leaving nodes out -/

/-- The kinds of the nodes of a tree, by their numbers. -/
def kinds (t : Tree) : List NodeKind :=
  t.nodes.toList.map Node.kind

namespace Edit

/-- The kind of the node that an edit makes, if it makes one. -/
def kind? : Edit → Option NodeKind
  | alloc kind => some kind
  | appendNew _ kind => some kind
  | append _ _ => none

/-- The node that an edit appends to, if it appends. -/
def parent? : Edit → Option NodeId
  | alloc _ => none
  | appendNew parent _ => some parent
  | append parent _ => some parent

end Edit

/-- The kinds of the nodes after some edits of an empty tree, whose only node is the document. -/
def kindsAfter (edits : List Edit) : List NodeKind :=
  .document :: edits.filterMap Edit.kind?

/-- Whether a node remains when the hidden ones are left out. -/
def remains (kinds : List NodeKind) (id : NodeId) : Bool :=
  kinds[id]?.any (!·.isHidden)

/-- The number of a node when the hidden ones are left out. -/
def newNumber (kinds : List NodeKind) (id : NodeId) : NodeId :=
  (kinds.take id).countP (!·.isHidden)

/-- An edit without the hidden nodes, if there is anything left of it. -/
def Edit.withoutHidden? (kinds : List NodeKind) : Edit → Option Edit
  | alloc kind => if kind.isHidden then none else some (alloc kind)
  | appendNew parent kind =>
    if kind.isHidden then none else some (appendNew (newNumber kinds parent) kind)
  | append parent child =>
    if remains kinds child then some (append (newNumber kinds parent) (newNumber kinds child))
    else none

/-- Some edits of an empty tree without the hidden nodes. -/
def withoutHidden (edits : List Edit) : List Edit :=
  edits.filterMap (Edit.withoutHidden? (kindsAfter edits))

/-- Nothing is appended to a hidden node. -/
def ParentsRemain (edits : List Edit) : Prop :=
  ∀ edit ∈ edits, ∀ parent ∈ edit.parent?, remains (kindsAfter edits) parent = true

variable {t t' : Tree}

/-! ## Kinds -/

/-- The kind of a node stands at its number. -/
theorem getElem?_kinds (t : Tree) (id : NodeId) : t.kinds[id]? = (t.node? id).map Node.kind := by
  rw [kinds, List.getElem?_map, Array.getElem?_toList]
  rfl

/-- Every node has a kind. -/
theorem length_kinds (t : Tree) : t.kinds.length = t.size := by
  rw [kinds, List.length_map, Array.length_toList]
  rfl

/-- A new node adds its kind. -/
theorem kinds_alloc (t : Tree) (kind : NodeKind) : (t.alloc kind).2.kinds = t.kinds ++ [kind] := by
  show (t.nodes.push { kind }).toList.map Node.kind = t.nodes.toList.map Node.kind ++ [kind]
  rw [Array.toList_push, List.map_append]
  rfl

/-- An append keeps the kinds. -/
theorem kinds_append? {parent child : NodeId} (h : t.append? parent child = some t') :
    t'.kinds = t.kinds := by
  refine List.ext_getElem? fun id => ?_
  rw [getElem?_kinds, getElem?_kinds, node?_append? h, Option.map_map]
  rfl

/-- A node remains unless its kind is hidden. -/
theorem remains_eq {kinds : List NodeKind} {id : NodeId} {kind : NodeKind}
    (h : kinds[id]? = some kind) : remains kinds id = !kind.isHidden := by
  rw [remains, h]
  rfl

/-- The nodes that remain are those of other kinds. -/
theorem remains_iff {kinds : List NodeKind} {id : NodeId} :
    remains kinds id = true ↔ ∃ kind, kinds[id]? = some kind ∧ kind.isHidden = false := by
  rw [remains, Option.any_eq_true]
  simp

/-- Two nodes that remain have different numbers. -/
theorem newNumber_inj {kinds : List NodeKind} {a b : NodeId} (ha : remains kinds a = true)
    (hb : remains kinds b = true) (h : newNumber kinds a = newNumber kinds b) : a = b := by
  obtain ⟨kind, hkind, hshown⟩ := remains_iff.1 ha
  obtain ⟨kind', hkind', hshown'⟩ := remains_iff.1 hb
  exact countP_take_inj hkind (by rw [hshown]; rfl) hkind' (by rw [hshown']; rfl) h

/-- A node that remains is among some under its new number if it was among them. -/
theorem mem_map_newNumber_iff {kinds : List NodeKind} {id : NodeId} {ids : List NodeId}
    (hid : remains kinds id = true) :
    newNumber kinds id ∈ (ids.filter (remains kinds)).map (newNumber kinds) ↔ id ∈ ids := by
  rw [List.mem_map]
  constructor
  · rintro ⟨other, hother, heq⟩
    obtain ⟨hmem, hremains⟩ := List.mem_filter.1 hother
    rwa [← newNumber_inj hremains hid heq]
  · intro hmem
    exact ⟨id, List.mem_filter.2 ⟨hmem, hid⟩, rfl⟩

/-! ## Two trees -/

/-- One tree is another one without its hidden nodes. The kinds in the other tree are the first of
    those given, which also number the nodes. -/
structure Cleared (kinds : List NodeKind) (t t' : Tree) : Prop where
  isHtml_eq : t'.isHtml = t.isHtml
  isPrefix : t.kinds <+: kinds
  kinds_eq : t'.kinds = t.kinds.filter (!·.isHidden)
  /-- A node that remains has the children that it had, less those that are hidden. -/
  children_eq : ∀ {id}, remains kinds id = true →
    (t'.children (newNumber kinds id)).toList =
      ((t.children id).toList.filter (remains kinds)).map (newNumber kinds)
  /-- A hidden node has no children. -/
  leaf : ∀ {id}, remains kinds id = false → (t.children id).toList = []

namespace Cleared

variable {kinds : List NodeKind}

/-- As long as a node is there, its kind is the one given. -/
theorem getElem?_eq (h : Cleared kinds t t') {id : NodeId} (hid : id < t.size) :
    kinds[id]? = t.kinds[id]? := by
  obtain ⟨rest, rfl⟩ := h.isPrefix
  exact List.getElem?_append_left (length_kinds t ▸ hid)

/-- A new number counts the nodes that remain before it. -/
theorem newNumber_eq (h : Cleared kinds t t') {id : NodeId} (hid : id ≤ t.size) :
    newNumber kinds id = (t.kinds.take id).countP (!·.isHidden) := by
  obtain ⟨rest, rfl⟩ := h.isPrefix
  rw [newNumber, List.take_append_of_le_length (length_kinds t ▸ hid)]

/-- The number of the next node is that of the next node. -/
theorem newNumber_size (h : Cleared kinds t t') : newNumber kinds t.size = t'.size := by
  rw [h.newNumber_eq (Nat.le_refl _), ← length_kinds t, List.take_length,
    List.countP_eq_length_filter, ← h.kinds_eq, length_kinds]

/-- A node that remains keeps its kind. -/
theorem getElem?_newNumber (h : Cleared kinds t t') {id : NodeId} (hid : id < t.size)
    (hremains : remains kinds id = true) : t'.kinds[newNumber kinds id]? = t.kinds[id]? := by
  obtain ⟨kind, hkind, hshown⟩ := remains_iff.1 hremains
  rw [h.getElem?_eq hid] at hkind
  rw [h.newNumber_eq (Nat.le_of_lt hid), h.kinds_eq, hkind]
  exact getElem?_filter_countP hkind (by rw [hshown]; rfl)

private theorem newNumber_lt (h : Cleared kinds t t') {id : NodeId} (hid : id < t.size)
    (hremains : remains kinds id = true) : newNumber kinds id < t'.size := by
  have hkind : t'.kinds[newNumber kinds id]? = some _ :=
    (h.getElem?_newNumber hid hremains).trans (List.getElem?_eq_getElem (length_kinds t ▸ hid))
  obtain ⟨hlt, -⟩ := List.getElem?_eq_some_iff.1 hkind
  rwa [length_kinds] at hlt

/-- All nodes of the second tree are nodes of the first one that remain. -/
theorem exists_newNumber (h : Cleared kinds t t') {id' : NodeId} (hid' : id' < t'.size) :
    ∃ id, id < t.size ∧ remains kinds id = true ∧ newNumber kinds id = id' := by
  obtain ⟨kind, hkind⟩ : ∃ kind, t'.kinds[id']? = some kind :=
    ⟨_, List.getElem?_eq_getElem (length_kinds t' ▸ hid')⟩
  rw [h.kinds_eq] at hkind
  obtain ⟨id, hid, hnumber⟩ := exists_of_getElem?_filter hkind
  have hlt : id < t.size := length_kinds t ▸ (List.getElem?_eq_some_iff.1 hid).1
  refine ⟨id, hlt, ?_, (h.newNumber_eq (Nat.le_of_lt hlt)).trans hnumber⟩
  rw [remains_eq ((h.getElem?_eq hlt).trans hid)]
  exact (List.mem_filter.1 (List.mem_of_getElem? hkind)).2

/-- What is below a node of the second tree was below it in the first one. -/
theorem inSubtree_of_newNumber (h : Cleared kinds t t') {top : NodeId}
    (htop : remains kinds top = true) {id' : NodeId}
    (hinside : t'.InSubtree (newNumber kinds top) id') :
    ∃ id, remains kinds id = true ∧ newNumber kinds id = id' ∧ t.InSubtree top id := by
  induction hinside with
  | refl => exact ⟨top, htop, rfl, Relation.ReflTransGen.refl⟩
  | tail _ hchild ih =>
    obtain ⟨id, hid, rfl, hbelow⟩ := ih
    rw [IsChild, h.children_eq hid, List.mem_map] at hchild
    obtain ⟨child, hmem, rfl⟩ := hchild
    obtain ⟨hmem, hremains⟩ := List.mem_filter.1 hmem
    exact ⟨child, hremains, rfl, hbelow.tail hmem⟩

/-- A node with children remains. -/
theorem remains_of_isChild (h : Cleared kinds t t') {parent child : NodeId}
    (hchild : t.IsChild parent child) : remains kinds parent = true := by
  by_contra hhidden
  rw [IsChild, h.leaf (eq_false_of_ne_true hhidden)] at hchild
  exact List.not_mem_nil hchild

/-- A parent in the second tree was the parent in the first one. -/
theorem parent?_newNumber (h : Cleared kinds t t') (hforest : t.IsForest) (hforest' : t'.IsForest)
    {id : NodeId} (hid : remains kinds id = true) :
    t'.parent? (newNumber kinds id) = (t.parent? id).map (newNumber kinds) := by
  cases hparent : t.parent? id with
  | some parent =>
    have hchild : t.IsChild parent id := hforest.parent_iff.1 hparent
    have hremains : remains kinds parent = true := h.remains_of_isChild hchild
    refine hforest'.parent_iff.2 ?_
    rw [IsChild, h.children_eq hremains, mem_map_newNumber_iff hid]
    exact hchild
  | none =>
    -- a parent in the second tree would have been one in the first tree
    cases hparent' : t'.parent? (newNumber kinds id) with
    | none => rfl
    | some parent' =>
      have hchild : t'.IsChild parent' (newNumber kinds id) := hforest'.parent_iff.1 hparent'
      obtain ⟨parent, -, hremains, rfl⟩ := h.exists_newNumber (lt_size_of_isChild_parent hchild)
      rw [IsChild, h.children_eq hremains, mem_map_newNumber_iff hid] at hchild
      exact absurd hchild (not_isChild_of_orphan hforest hparent parent)

/-! ## The step -/

/-- Without nodes but the document there is nothing to clear. -/
theorem empty (isHtml : Bool) (hkinds : [NodeKind.document] <+: kinds) :
    Cleared kinds (Tree.empty isHtml) (Tree.empty isHtml) where
  isHtml_eq := rfl
  isPrefix := hkinds
  kinds_eq := rfl
  children_eq _ := by rw [children_empty, children_empty]; rfl
  leaf _ := by rw [children_empty]

/-- A new node that is hidden is not in the second tree. -/
theorem alloc_hidden (h : Cleared kinds t t') {kind : NodeKind}
    (hkinds : t.kinds ++ [kind] <+: kinds) (hhidden : kind.isHidden = true) :
    Cleared kinds (t.alloc kind).2 t' where
  isHtml_eq := h.isHtml_eq
  isPrefix := by rwa [kinds_alloc]
  kinds_eq := by rw [kinds_alloc, List.filter_append, ← h.kinds_eq]; simp [hhidden]
  children_eq := by rw [children_alloc]; exact h.children_eq
  leaf := by rw [children_alloc]; exact h.leaf

/-- A node that is shown is made in both trees. -/
theorem alloc (h : Cleared kinds t t') {kind : NodeKind} (hkinds : t.kinds ++ [kind] <+: kinds)
    (hshown : kind.isHidden = false) : Cleared kinds (t.alloc kind).2 (t'.alloc kind).2 where
  isHtml_eq := h.isHtml_eq
  isPrefix := by rwa [kinds_alloc]
  kinds_eq := by rw [kinds_alloc, kinds_alloc, List.filter_append, ← h.kinds_eq]; simp [hshown]
  children_eq := by rw [children_alloc, children_alloc]; exact h.children_eq
  leaf := by rw [children_alloc]; exact h.leaf

section Append

variable {t₁ t₁' : Tree} {parent child : NodeId}

/-- A hidden child is not missed in the second tree. -/
theorem append_hidden (h : Cleared kinds t t') (hparent : remains kinds parent = true)
    (hchild : remains kinds child = false) (happend : t.append? parent child = some t₁) :
    Cleared kinds t₁ t' where
  isHtml_eq := h.isHtml_eq.trans (isHtml_append? happend).symm
  isPrefix := by rw [kinds_append? happend]; exact h.isPrefix
  kinds_eq := by rw [kinds_append? happend]; exact h.kinds_eq
  children_eq {id} hid := by
    rw [children_append? happend, h.children_eq hid]
    split
    · rw [List.filter_append, List.filter_cons_of_neg (by simp [hchild]), List.filter_nil,
        List.append_nil]
    · rfl
  leaf {id} hid := by
    have hne : parent ≠ id := by
      rintro rfl
      rw [hparent] at hid
      exact nomatch hid
    rw [children_append? happend, if_neg hne]
    exact h.leaf hid

/-- Nodes that remain are appended in both trees. -/
theorem append (h : Cleared kinds t t') (hparent : remains kinds parent = true)
    (hchild : remains kinds child = true) (happend : t.append? parent child = some t₁)
    (happend' : t'.append? (newNumber kinds parent) (newNumber kinds child) = some t₁') :
    Cleared kinds t₁ t₁' where
  isHtml_eq := by rw [isHtml_append? happend, isHtml_append? happend']; exact h.isHtml_eq
  isPrefix := by rw [kinds_append? happend]; exact h.isPrefix
  kinds_eq := by rw [kinds_append? happend, kinds_append? happend']; exact h.kinds_eq
  children_eq {id} hid := by
    rw [children_append? happend, children_append? happend', h.children_eq hid]
    by_cases heq : parent = id
    · rw [if_pos heq, if_pos (congrArg _ heq), List.filter_append, List.filter_cons_of_pos hchild,
        List.filter_nil, List.map_append]
      rfl
    · rw [if_neg heq, if_neg (mt (newNumber_inj hparent hid) heq)]
  leaf {id} hid := by
    have hne : parent ≠ id := by
      rintro rfl
      rw [hparent] at hid
      exact nomatch hid
    rw [children_append? happend, if_neg hne]
    exact h.leaf hid

/-- If an append is permitted, then so is what is left of it. -/
theorem permits_append (h : Cleared kinds t t') (hforest : t.IsForest) (hforest' : t'.IsForest)
    (hparent : remains kinds parent = true) (hchild : remains kinds child = true)
    (hpermits : t.Permits (.append parent child)) :
    t'.Permits (.append (newNumber kinds parent) (newNumber kinds child)) := by
  obtain ⟨hparent_lt, hchild_lt, horphan, houtside⟩ := hpermits
  refine ⟨h.newNumber_lt hparent_lt hparent, h.newNumber_lt hchild_lt hchild, ?_, ?_⟩
  · rw [h.parent?_newNumber hforest hforest' hchild, horphan]
    rfl
  · intro hinside
    obtain ⟨id, hid, heq, hbelow⟩ := h.inSubtree_of_newNumber hchild hinside
    rw [newNumber_inj hid hparent heq] at hbelow
    exact houtside hbelow

end Append

/-- The kind of a new node is the next one of those given. -/
theorem getElem?_size {kind : NodeKind} (hkinds : t.kinds ++ [kind] <+: kinds) :
    kinds[t.size]? = some kind := by
  obtain ⟨rest, rfl⟩ := hkinds
  rw [← length_kinds, List.append_assoc, List.getElem?_append_right (Nat.le_refl _), Nat.sub_self]
  rfl

/-- The step: a permitted edit that appends to no hidden node succeeds, and so does what is left of
    it. -/
theorem exists_edit? (h : Cleared kinds t t') (hbuilt : t.WellBuilt) (hbuilt' : t'.WellBuilt)
    {edit : Edit} (hpermits : t.Permits edit)
    (hparent : ∀ parent ∈ edit.parent?, remains kinds parent = true)
    (hkinds : t.kinds ++ edit.kind?.toList <+: kinds) :
    ∃ t₁ t₁', t.edit? edit = some t₁ ∧ t'.run? (edit.withoutHidden? kinds).toList = some t₁' ∧
      t₁'.WellBuilt ∧ t₁.kinds = t.kinds ++ edit.kind?.toList ∧ Cleared kinds t₁ t₁' := by
  obtain ⟨t₁, hedit, -⟩ := exists_edit?_of_permits hbuilt hpermits
  refine ⟨t₁, ?_⟩
  cases edit with
  | alloc kind =>
    obtain rfl : (t.alloc kind).2 = t₁ := Option.some.inj hedit
    -- the second run stays where it is if the node is hidden, and else it follows
    by_cases hhidden : kind.isHidden = true
    · refine ⟨t', rfl, ?_, hbuilt', kinds_alloc t kind, h.alloc_hidden hkinds hhidden⟩
      rw [Edit.withoutHidden?, if_pos hhidden]
      rfl
    · refine ⟨(t'.alloc kind).2, rfl, ?_, WellBuilt.alloc kind hbuilt', kinds_alloc t kind,
        h.alloc hkinds (eq_false_of_ne_true hhidden)⟩
      rw [Edit.withoutHidden?, if_neg hhidden]
      rfl
  | appendNew parent kind =>
    have hparent : remains kinds parent = true := hparent parent rfl
    have happend : (t.alloc kind).2.append? parent t.size = some t₁ := edit?_appendNew.1 hedit
    have hkind : t₁.kinds = t.kinds ++ [kind] := (kinds_append? happend).trans (kinds_alloc t kind)
    by_cases hhidden : kind.isHidden = true
    · refine ⟨t', hedit, ?_, hbuilt', hkind, ?_⟩
      · rw [Edit.withoutHidden?, if_pos hhidden]
        rfl
      · refine (h.alloc_hidden hkinds hhidden).append_hidden hparent ?_ happend
        rw [remains_eq (getElem?_size hkinds), hhidden]
        rfl
    · have hshown : kind.isHidden = false := eq_false_of_ne_true hhidden
      have hpermits' : t'.Permits (.appendNew (newNumber kinds parent) kind) :=
        h.newNumber_lt hpermits hparent
      obtain ⟨t₁', hedit', hbuilt₁'⟩ := exists_edit?_of_permits hbuilt' hpermits'
      refine ⟨t₁', hedit, ?_, hbuilt₁', hkind, ?_⟩
      · rw [Edit.withoutHidden?, if_neg hhidden]
        exact (run?_singleton _).trans hedit'
      · -- the two new nodes have corresponding numbers
        have happend' := edit?_appendNew.1 hedit'
        rw [← h.newNumber_size] at happend'
        refine (h.alloc hkinds hshown).append hparent ?_ happend happend'
        rw [remains_eq (getElem?_size hkinds), hshown]
        rfl
  | append parent child =>
    have hparent : remains kinds parent = true := hparent parent rfl
    have hkind : t₁.kinds = t.kinds ++ [] := (kinds_append? hedit).trans (List.append_nil _).symm
    by_cases hchild : remains kinds child = true
    · have hpermits' := h.permits_append (isForest_of_wellBuilt hbuilt)
        (isForest_of_wellBuilt hbuilt') hparent hchild hpermits
      obtain ⟨t₁', hedit', hbuilt₁'⟩ := exists_edit?_of_permits hbuilt' hpermits'
      refine ⟨t₁', hedit, ?_, hbuilt₁', hkind, h.append hparent hchild hedit hedit'⟩
      rw [Edit.withoutHidden?, if_pos hchild]
      exact (run?_singleton _).trans hedit'
    · refine ⟨t', hedit, ?_, hbuilt', hkind,
        h.append_hidden hparent (eq_false_of_ne_true hchild) hedit⟩
      rw [Edit.withoutHidden?, if_neg hchild]
      rfl

/-- The run: so do all edits of a run and what is left of them. -/
theorem exists_run? {edits : List Edit} (h : Cleared kinds t t') (hbuilt : t.WellBuilt)
    (hbuilt' : t'.WellBuilt) (hpermits : t.PermitsAll edits)
    (hparents : ∀ edit ∈ edits, ∀ parent ∈ edit.parent?, remains kinds parent = true)
    (hkinds : t.kinds ++ edits.filterMap Edit.kind? = kinds) :
    ∃ t₁ t₁', t.run? edits = some t₁ ∧
      t'.run? (edits.filterMap (Edit.withoutHidden? kinds)) = some t₁' ∧
      t₁.WellBuilt ∧ t₁'.WellBuilt ∧ t₁.kinds = kinds ∧ Cleared kinds t₁ t₁' := by
  induction edits generalizing t t' with
  | nil => exact ⟨t, t', rfl, rfl, hbuilt, hbuilt', (List.append_nil _).symm.trans hkinds, h⟩
  | cons edit rest ih =>
    obtain ⟨hfirst, hrest⟩ := hpermits
    -- the kinds that the rest of the run adds come after that of the first edit
    have hsplit : (edit :: rest).filterMap Edit.kind? =
        edit.kind?.toList ++ rest.filterMap Edit.kind? := by
      rw [List.filterMap_cons]
      cases edit.kind? <;> rfl
    rw [hsplit, ← List.append_assoc] at hkinds
    obtain ⟨t₁, t₁', hedit, hedit', hbuilt₁', hkind, hcleared⟩ := h.exists_edit? hbuilt hbuilt'
      hfirst (hparents edit List.mem_cons_self) ⟨_, hkinds⟩
    obtain ⟨_, hagain, hbuilt₁⟩ := exists_edit?_of_permits hbuilt hfirst
    obtain rfl := Option.some.inj (hedit.symm.trans hagain)
    rw [← hkind] at hkinds
    obtain ⟨t₂, t₂', hrun, hrun', hall⟩ := ih hcleared hbuilt₁ hbuilt₁' (hrest t₁ hedit)
      (fun other hother => hparents other (List.mem_cons_of_mem _ hother)) hkinds
    refine ⟨t₂, t₂', (run?_cons hedit).trans hrun, ?_, hall⟩
    have hsplit' : (edit :: rest).filterMap (Edit.withoutHidden? kinds) =
        (edit.withoutHidden? kinds).toList ++ rest.filterMap (Edit.withoutHidden? kinds) := by
      rw [List.filterMap_cons]
      cases edit.withoutHidden? kinds <;> rfl
    rw [hsplit', run?_append hedit']
    exact hrun'

end Cleared

/-- A permitted run that appends to no hidden node can be done without the hidden nodes, and the two
    trees are forests that differ in nothing else. -/
theorem exists_run?_withoutHidden {isHtml : Bool} {edits : List Edit}
    (hpermits : (Tree.empty isHtml).PermitsAll edits) (hparents : ParentsRemain edits) :
    ∃ t t', (Tree.empty isHtml).run? edits = some t ∧
      (Tree.empty isHtml).run? (withoutHidden edits) = some t' ∧
      t.IsForest ∧ t'.IsForest ∧ t.kinds = kindsAfter edits ∧ Cleared t.kinds t t' := by
  have hcleared : Cleared (kindsAfter edits) (Tree.empty isHtml) (Tree.empty isHtml) :=
    Cleared.empty isHtml ⟨_, rfl⟩
  obtain ⟨t, t', hrun, hrun', hbuilt, hbuilt', hkinds, hall⟩ :=
    hcleared.exists_run? (WellBuilt.empty isHtml) (WellBuilt.empty isHtml) hpermits hparents rfl
  exact ⟨t, t', hrun, hrun', isForest_of_wellBuilt hbuilt, isForest_of_wellBuilt hbuilt', hkinds,
    hkinds.symm ▸ hall⟩

end Tree

end Selectors
