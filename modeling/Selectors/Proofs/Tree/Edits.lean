import Selectors.Proofs.Tree.Siblings

/-!
# Edits — a run of allocations and appends refines an ordered forest

A tree is edited by allocating nodes, by appending nodes that are there and by appending new ones.
An edit is permitted if the nodes that it names are allocated and if what it appends has no parent
yet and does not stand above its new place. Subtrees may be built first and attached later, so the
numbers of the nodes say nothing about their places.

The step lemma is that a permitted edit of a well-built tree succeeds and gives a well-built tree;
the run lemma goes over the edits. Everything else is read off the forest that such a tree is.

* **`Tree.Permits`** — which edits a tree takes.
* **`Tree.permitsAll_of_ascending`** — it takes those that append every node once, below an earlier
  one.
* **`Tree.Navigable`** — what the links of a tree give to those who follow them.
* **`Tree.isForest_and_navigable_of_run`** — both hold after every step of a permitted run.
-/

namespace Selectors

namespace Tree

variable {t t' : Tree} {parent child : NodeId}

/-! ## Edits -/

/-- The edits of a tree. An element or a text is appended at once by `appendNew`. -/
inductive Edit where
  | alloc (kind : NodeKind)
  | appendNew (parent : NodeId) (kind : NodeKind)
  | append (parent child : NodeId)

/-- The tree after an edit; `none` if the edit fails. -/
def edit? (t : Tree) : Edit → Option Tree
  | .alloc kind => some (t.alloc kind).2
  | .appendNew parent kind => (t.appendNew? parent kind).map Prod.snd
  | .append parent child => t.append? parent child

/-- The tree after some edits; `none` if one of them fails. -/
def run? (t : Tree) (edits : List Edit) : Option Tree :=
  edits.foldlM edit? t

/-- An edit names allocated nodes only, and the node that it appends has no parent yet and is put
    outside of its own subtree. -/
def Permits (t : Tree) : Edit → Prop
  | .alloc _ => True
  | .appendNew parent _ => parent < t.size
  | .append parent child =>
    parent < t.size ∧ child < t.size ∧ t.parent? child = none ∧ ¬ t.InSubtree child parent

/-- Every edit of a run is permitted in the tree that it is applied to. -/
def PermitsAll (t : Tree) : List Edit → Prop
  | [] => True
  | edit :: rest => t.Permits edit ∧ ∀ t', t.edit? edit = some t' → t'.PermitsAll rest

/-- A run starts with its first edit and goes on in the tree after it. -/
theorem run?_cons {edit : Edit} {rest : List Edit} (h : t.edit? edit = some t') :
    t.run? (edit :: rest) = t'.run? rest := by
  unfold run?
  rw [List.foldlM_cons, h]
  rfl

/-- A run of one edit is that edit. -/
theorem run?_singleton (edit : Edit) : t.run? [edit] = t.edit? edit := by
  unfold run?
  rw [List.foldlM_cons]
  exact bind_pure _

/-- Edits in a row are run one after the other. -/
theorem run?_append {steps rest : List Edit} (h : t.run? steps = some t') :
    t.run? (steps ++ rest) = t'.run? rest := by
  unfold run? at h ⊢
  rw [List.foldlM_append, h]
  rfl

/-- Appending a new node is making it and then appending it. -/
theorem edit?_appendNew {kind : NodeKind} :
    t.edit? (.appendNew parent kind) = some t' ↔
      (t.alloc kind).2.append? parent t.size = some t' := by
  show (((t.alloc kind).2.append? parent t.size).map fun t₁ => (t.size, t₁)).map Prod.snd =
    some t' ↔ _
  rw [Option.map_map]
  show Option.map id _ = _ ↔ _
  rw [Option.map_id]
  rfl

/-- An edit that is permitted may stand in front of what is permitted after it. -/
theorem permitsAll_cons {edit : Edit} {rest : List Edit} (h : t.Permits edit)
    (hedit : t.edit? edit = some t') (hrest : t'.PermitsAll rest) :
    t.PermitsAll (edit :: rest) := by
  refine ⟨h, ?_⟩
  intro t'' hedit'
  obtain rfl := Option.some.inj (hedit.symm.trans hedit')
  exact hrest

/-- The first steps of a permitted run are permitted. -/
theorem PermitsAll.of_isPrefix {steps edits : List Edit} (h : t.PermitsAll edits)
    (hsteps : steps <+: edits) : t.PermitsAll steps := by
  obtain ⟨rest, rfl⟩ := hsteps
  induction steps generalizing t with
  | nil => trivial
  | cons edit steps ih => exact ⟨h.1, fun t' hedit => ih (h.2 t' hedit)⟩

/-! ## The step and the run -/

/-- The step: a permitted edit of a well-built tree succeeds, and the tree stays well built. -/
theorem exists_edit?_of_permits (h : t.WellBuilt) {edit : Edit} (hpermits : t.Permits edit) :
    ∃ t', t.edit? edit = some t' ∧ t'.WellBuilt := by
  cases edit with
  | alloc kind => exact ⟨_, rfl, WellBuilt.alloc kind h⟩
  | appendNew parent kind =>
    have hparent : parent < t.size := hpermits
    have hsome : ((t.alloc kind).2.append? parent t.size).isSome := by
      rw [isSome_append?, size_alloc]
      exact ⟨Nat.lt_succ_of_lt hparent, Nat.lt_succ_self t.size⟩
    obtain ⟨t', happend⟩ := Option.isSome_iff_exists.1 hsome
    have hnew : t.appendNew? parent kind = some (t.size, t') :=
      Option.map_eq_some_iff.2 ⟨t', happend, rfl⟩
    exact ⟨t', congrArg (Option.map Prod.snd) hnew, wellBuilt_appendNew? h hparent hnew⟩
  | append parent child =>
    obtain ⟨hparent, hchild, horphan, houtside⟩ := hpermits
    obtain ⟨t', happend⟩ :=
      Option.isSome_iff_exists.1 ((isSome_append? t parent child).2 ⟨hparent, hchild⟩)
    exact ⟨t', happend, WellBuilt.append h horphan houtside happend⟩

/-- The run: so does a permitted run. -/
theorem exists_run?_of_permitsAll {edits : List Edit} (h : t.WellBuilt)
    (hpermits : t.PermitsAll edits) : ∃ t', t.run? edits = some t' ∧ t'.WellBuilt := by
  induction edits generalizing t with
  | nil => exact ⟨t, rfl, h⟩
  | cons edit rest ih =>
    obtain ⟨hedit, hrest⟩ := hpermits
    obtain ⟨t₁, hstep, h₁⟩ := exists_edit?_of_permits h hedit
    rw [run?_cons hstep]
    exact ih h₁ (hrest t₁ hstep)

/-! ## Ascending runs -/

/-- The edits of a run append every node at most once, and below one with a smaller number. The
    numbers from `next` on are not given yet, and the nodes of `appended` have been appended. -/
def Ascending (next : NodeId) (appended : List NodeId) : List Edit → Prop
  | [] => True
  | .alloc _ :: rest => Ascending (next + 1) appended rest
  | .appendNew parent _ :: rest => parent < next ∧ Ascending (next + 1) (next :: appended) rest
  | .append parent child :: rest =>
    parent < child ∧ child < next ∧ child ∉ appended ∧ Ascending next (child :: appended) rest

/-- What an ascending run has built: all links lead to nodes that have been appended, and these have
    greater numbers than their parents. -/
structure Rising (t : Tree) (appended : List NodeId) : Prop where
  wellBuilt : t.WellBuilt
  lt_of_isChild : ∀ {p c}, t.IsChild p c → p < c
  mem_of_isChild : ∀ {p c}, t.IsChild p c → c ∈ appended
  lt_of_mem : ∀ c ∈ appended, c < t.size

namespace Rising

variable {appended : List NodeId}

/-- An empty tree has no links. -/
theorem empty (isHtml : Bool) : Rising (Tree.empty isHtml) [] where
  wellBuilt := WellBuilt.empty isHtml
  lt_of_isChild hchild := by
    rw [IsChild, children_empty] at hchild
    exact absurd hchild List.not_mem_nil
  mem_of_isChild hchild := by
    rw [IsChild, children_empty] at hchild
    exact absurd hchild List.not_mem_nil
  lt_of_mem _ hmem := absurd hmem List.not_mem_nil

/-- All that is below a node has a greater number. -/
theorem le_of_inSubtree (h : Rising t appended) {top id : NodeId} (hinside : t.InSubtree top id) :
    top ≤ id := by
  induction hinside with
  | refl => exact Nat.le_refl top
  | tail _ hchild ih => exact Nat.le_trans ih (Nat.le_of_lt (h.lt_of_isChild hchild))

/-- So a node that has not been appended can go below any node with a smaller number. -/
theorem orphan_and_outside (h : Rising t appended) (hlt : parent < child)
    (hnew : child ∉ appended) : t.parent? child = none ∧ ¬ t.InSubtree child parent := by
  constructor
  · cases hparent : t.parent? child with
    | none => rfl
    | some p =>
      have hchild : t.IsChild p child := (isForest_of_wellBuilt h.wellBuilt).parent_iff.1 hparent
      exact absurd (h.mem_of_isChild hchild) hnew
  · intro hinside
    exact Nat.not_lt.2 (h.le_of_inSubtree hinside) hlt

/-- A new node is linked to none. -/
theorem alloc (h : Rising t appended) (kind : NodeKind) : Rising (t.alloc kind).2 appended where
  wellBuilt := WellBuilt.alloc kind h.wellBuilt
  lt_of_isChild hchild := by
    rw [IsChild, children_alloc] at hchild
    exact h.lt_of_isChild hchild
  mem_of_isChild hchild := by
    rw [IsChild, children_alloc] at hchild
    exact h.mem_of_isChild hchild
  lt_of_mem c hmem := by
    rw [size_alloc]
    exact Nat.lt_succ_of_lt (h.lt_of_mem c hmem)

/-- Appending a later node to an earlier one keeps the links ascending. -/
theorem append (h : Rising t appended) (hlt : parent < child) (hnew : child ∉ appended)
    (happend : t.append? parent child = some t') : Rising t' (child :: appended) where
  wellBuilt := by
    obtain ⟨horphan, houtside⟩ := h.orphan_and_outside hlt hnew
    exact WellBuilt.append h.wellBuilt horphan houtside happend
  lt_of_isChild hchild := by
    rcases (isChild_append? happend).1 hchild with hchild | ⟨rfl, rfl⟩
    · exact h.lt_of_isChild hchild
    · exact hlt
  mem_of_isChild hchild := by
    rcases (isChild_append? happend).1 hchild with hchild | ⟨rfl, rfl⟩
    · exact List.mem_cons_of_mem _ (h.mem_of_isChild hchild)
    · exact List.mem_cons_self
  lt_of_mem c hmem := by
    rw [size_append? happend]
    rcases List.mem_cons.1 hmem with rfl | hmem
    · exact (lt_of_append?_eq_some happend).2
    · exact h.lt_of_mem c hmem

end Rising

/-- A run that appends every node at most once and below an earlier one is permitted. -/
theorem permitsAll_of_ascending {edits : List Edit} {appended : List NodeId}
    (h : Rising t appended) (hedits : Ascending t.size appended edits) : t.PermitsAll edits := by
  induction edits generalizing t appended with
  | nil => trivial
  | cons edit rest ih =>
    cases edit with
    | alloc kind =>
      refine permitsAll_cons trivial rfl (ih (h.alloc kind) ?_)
      rw [size_alloc]
      exact hedits
    | appendNew parent kind =>
      obtain ⟨hlt, hrest⟩ := hedits
      refine ⟨hlt, ?_⟩
      intro t' hedit
      have happend := edit?_appendNew.1 hedit
      -- a node just made has not been appended yet
      have hnew : t.size ∉ appended := fun hmem => Nat.lt_irrefl _ (h.lt_of_mem _ hmem)
      refine ih ((h.alloc kind).append hlt hnew happend) ?_
      rw [size_append? happend, size_alloc]
      exact hrest
    | append parent child =>
      obtain ⟨hlt, hbound, hnew, hrest⟩ := hedits
      refine ⟨⟨Nat.lt_trans hlt hbound, hbound, h.orphan_and_outside hlt hnew⟩, ?_⟩
      intro t' happend
      refine ih (h.append hlt hnew happend) ?_
      rw [size_append? happend]
      exact hrest

/-! ## Moving about -/

/-- What the links of a tree say, and what comes of following them. -/
structure Navigable (t : Tree) : Prop where
  /-- No node has two parents. -/
  disjoint : ∀ {p q : NodeId}, p ≠ q → (t.children p).toList.Disjoint (t.children q).toList
  /-- The siblings of a child are its neighbours. -/
  neighbours : ∀ {p c : NodeId} {front back : List NodeId},
    (t.children p).toList = front ++ c :: back →
      t.previous? c = front.getLast? ∧ t.next? c = back.head?
  /-- A node without a parent has no siblings. -/
  orphan : ∀ {c : NodeId}, t.parent? c = none → t.previous? c = none ∧ t.next? c = none
  /-- The nearest element before an element. -/
  previousElement : ∀ {a e : Element t}, e.previous? = some a ↔ a.ImmediatelyPrecedes e
  /-- The nearest element after an element. -/
  nextElement : ∀ {e b : Element t}, e.next? = some b ↔ e.ImmediatelyPrecedes b
  /-- The two are inverse to each other. -/
  inverse : ∀ {a b : Element t}, a.next? = some b ↔ b.previous? = some a
  /-- The children of an element that are elements. -/
  elementChildren : ∀ e : Element t,
    e.children.map Element.id =
      (t.children e.id).toList.filter fun id => (t.elementData? id).isSome
  /-- No walk along one of the links goes on for ever. -/
  walksEnd : ∀ link ∈ [t.previous?, t.next?, t.parent?], ∀ {id : NodeId} {l : List NodeId},
    List.IsChain (fun a b => link a = some b) (id :: l) → l.length ≤ t.size

/-- No two nodes share a child. -/
theorem disjoint_children (hforest : t.IsForest) {p q : NodeId} (hne : p ≠ q) :
    (t.children p).toList.Disjoint (t.children q).toList := by
  intro c hp hq
  have hparent : t.parent? c = some p := hforest.parent_iff.2 hp
  rw [hforest.parent_iff.2 hq] at hparent
  exact hne (Option.some.inj hparent).symm

/-- In a forest all of this holds. -/
theorem navigable_of_isForest (hforest : t.IsForest) : t.Navigable where
  disjoint := disjoint_children hforest
  neighbours hsplit := ⟨previous?_eq_getLast? hforest hsplit, next?_eq_head? hforest hsplit⟩
  orphan h := ⟨previous?_eq_none_of_orphan hforest h, next?_eq_none_of_orphan hforest h⟩
  previousElement := Element.previous?_eq_some_iff hforest
  nextElement := Element.next?_eq_some_iff hforest
  inverse := (Element.next?_eq_some_iff hforest).trans (Element.previous?_eq_some_iff hforest).symm
  elementChildren := Element.map_id_children
  walksEnd link hlink _ _ hwalk := by
    simp only [List.mem_cons, List.not_mem_nil, or_false] at hlink
    obtain rfl | rfl | rfl := hlink
    · exact length_previous?_le hforest hwalk
    · exact length_next?_le hforest hwalk
    · exact length_parent?_le hforest hwalk

/-- After every step of a permitted run there is a tree, it is an ordered forest, and its links can
    be followed. -/
theorem isForest_and_navigable_of_run {isHtml : Bool} {edits steps : List Edit}
    (hpermits : (Tree.empty isHtml).PermitsAll edits) (hsteps : steps <+: edits) :
    ∃ t, (Tree.empty isHtml).run? steps = some t ∧ t.IsForest ∧ t.Navigable := by
  obtain ⟨t, hrun, hbuilt⟩ :=
    exists_run?_of_permitsAll (WellBuilt.empty isHtml) (hpermits.of_isPrefix hsteps)
  have hforest := isForest_of_wellBuilt hbuilt
  exact ⟨t, hrun, hforest, navigable_of_isForest hforest⟩

/-! ## A list that is attached last -/

/-- What is outside of some nodes that have all their children among them is below none of them. -/
theorem not_inSubtree_of_closed (ids : List NodeId)
    (hclosed : ∀ id ∈ ids, ∀ c ∈ (t.children id).toList, c ∈ ids) (hchild : child ∈ ids)
    (hparent : parent ∉ ids) : ¬ t.InSubtree child parent := by
  have hbelow : ∀ id, t.InSubtree child id → id ∈ ids := by
    intro id hinside
    induction hinside with
    | refl => exact hchild
    | tail _ hstep ih => exact hclosed _ ih _ hstep
  exact fun hinside => hparent (hbelow parent hinside)

/-- A list and its two items are allocated; the items are appended to the list, and the list with
    them to the document. -/
def lateList : List Edit :=
  [.alloc (.element { localName := "ul" }), .alloc (.element { localName := "li" }),
    .alloc (.element { localName := "li" }), .append 1 2, .append 1 3, .append 0 1]

private theorem permitsAll_lateList : (Tree.empty true).PermitsAll lateList := by
  refine permitsAll_cons trivial rfl (permitsAll_cons trivial rfl (permitsAll_cons trivial rfl ?_))
  refine permitsAll_cons ?first rfl
    (permitsAll_cons ?second rfl (permitsAll_cons ?list rfl trivial))
  case first =>
    exact ⟨by decide, by decide, rfl,
      not_inSubtree_of_closed [2] (by decide) (by decide) (by decide)⟩
  case second =>
    exact ⟨by decide, by decide, rfl,
      not_inSubtree_of_closed [3] (by decide) (by decide) (by decide)⟩
  case list =>
    exact ⟨by decide, by decide, rfl,
      not_inSubtree_of_closed [1, 2, 3] (by decide) (by decide) (by decide)⟩

/-- The list is appended only when it has its items. -/
theorem isForest_and_navigable_lateList :
    ∃ t, (Tree.empty true).run? lateList = some t ∧ t.IsForest ∧ t.Navigable :=
  isForest_and_navigable_of_run permitsAll_lateList (List.prefix_refl lateList)

end Tree

end Selectors
