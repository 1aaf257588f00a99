import Selectors.Proofs.Tree.Edits

/-!
# Reattached — appending a node that has a parent already

An append adds links and takes none away. As long as what it appends has no parent, the four links
of the nodes agree with each other. A node that has one is listed a second time: by its old parent
as well as by the new one, or twice by the same. No later edit repairs that, since lists of children
only grow, and so the links of a tree tell whether any node was attached more than once.

The two halves are kept apart by an invariant each. Up to the first append of a node that has a
parent the tree is a forest; from then on some node is listed twice.

* **`Tree.LinksAgree`** — what the links of a tree should say about each other.
* **`Tree.ListedTwice`** — what they say instead.
* **`Tree.linksAgree_iff_permitsAll`** — after every step of a run, which one it is.
* **`Tree.not_linksAgree_reattached`** — a node that is moved from one parent to another.
-/

namespace Selectors

namespace Tree

variable {t t' : Tree} {parent child : NodeId} {isHtml : Bool} {edits steps : List Edit}

/-! ## Links -/

/-- Every node is listed at most once, by the parent that it names, and its siblings are its
    neighbours in that list. -/
structure LinksAgree (t : Tree) : Prop where
  nodup : ∀ id, (t.children id).toList.Nodup
  disjoint : ∀ {p q : NodeId}, p ≠ q → (t.children p).toList.Disjoint (t.children q).toList
  parent_iff : ∀ {p c : NodeId}, t.parent? c = some p ↔ c ∈ (t.children p).toList
  neighbours : ∀ {p c : NodeId} {front back : List NodeId},
    (t.children p).toList = front ++ c :: back →
      t.previous? c = front.getLast? ∧ t.next? c = back.head?
  orphan : ∀ {c : NodeId}, t.parent? c = none → t.previous? c = none ∧ t.next? c = none

/-- In a forest the links agree. -/
theorem IsForest.linksAgree (hforest : t.IsForest) : t.LinksAgree where
  nodup := hforest.nodup
  disjoint := disjoint_children hforest
  parent_iff := hforest.parent_iff
  neighbours := (navigable_of_isForest hforest).neighbours
  orphan := (navigable_of_isForest hforest).orphan

/-- Some node is a child twice, of one parent or of two. -/
def ListedTwice (t : Tree) : Prop :=
  ∃ c, (∃ p, List.Sublist [c, c] (t.children p).toList) ∨
    ∃ p q, p ≠ q ∧ c ∈ (t.children p).toList ∧ c ∈ (t.children q).toList

/-- If a node is listed twice the links do not agree. -/
theorem ListedTwice.not_linksAgree (h : t.ListedTwice) : ¬ t.LinksAgree := by
  intro hagree
  obtain ⟨c, ⟨p, htwice⟩ | ⟨p, q, hne, hp, hq⟩⟩ := h
  · exact List.nodup_iff_sublist.1 (hagree.nodup p) c htwice
  · exact hagree.disjoint hne hp hq

/-! ## One edit -/

/-- A node is another one or was put below it: the parent of a node is where it was put last, even
    if other nodes list it as well. -/
def IsUnder (t : Tree) (id top : NodeId) : Prop :=
  Relation.ReflTransGen (fun child parent => t.parent? child = some parent) id top

/-- In a forest that is to be in the subtree. -/
theorem IsForest.inSubtree_iff (hforest : t.IsForest) {top id : NodeId} :
    t.InSubtree top id ↔ t.IsUnder id top := by
  have hlinks : t.IsChild = Function.swap fun child parent => t.parent? child = some parent := by
    funext parent child
    exact propext hforest.parent_iff.symm
  rw [InSubtree, hlinks]
  exact Relation.reflTransGen_swap

private theorem not_isUnder_of_orphan {id top : NodeId} (horphan : t.parent? id = none)
    (hne : id ≠ top) :
    ¬ t.IsUnder id top := by
  intro hunder
  obtain heq | ⟨parent, hparent, -⟩ := Relation.ReflTransGen.cases_head hunder
  · exact hne heq
  · exact Option.some_ne_none parent (hparent.symm.trans horphan)

/-- An edit names allocated nodes only, and what it appends is not put below itself. -/
def Allows (t : Tree) : Edit → Prop
  | .alloc _ => True
  | .appendNew parent _ => parent < t.size
  | .append parent child => parent < t.size ∧ child < t.size ∧ ¬ t.IsUnder parent child

/-- Every edit of a run is allowed in the tree that it is applied to. -/
def AllowsAll (t : Tree) : List Edit → Prop
  | [] => True
  | edit :: rest => t.Allows edit ∧ ∀ t', t.edit? edit = some t' → t'.AllowsAll rest

/-- An edit of nodes that exist can be done. -/
theorem exists_edit?_of_allows {edit : Edit} (h : t.Allows edit) :
    ∃ t', t.edit? edit = some t' := by
  cases edit with
  | alloc kind => exact ⟨_, rfl⟩
  | appendNew parent kind =>
    have hparent : parent < t.size := h
    have hsome : ((t.alloc kind).2.append? parent t.size).isSome := by
      rw [isSome_append?, size_alloc]
      exact ⟨Nat.lt_succ_of_lt hparent, Nat.lt_succ_self t.size⟩
    obtain ⟨t', happend⟩ := Option.isSome_iff_exists.1 hsome
    exact ⟨t', edit?_appendNew.2 happend⟩
  | append parent child =>
    obtain ⟨hparent, hchild, -⟩ := h
    exact Option.isSome_iff_exists.1 ((isSome_append? t parent child).2 ⟨hparent, hchild⟩)

/-- The only edit that is allowed and not permitted is the append of a node that has a parent. -/
theorem exists_append_of_not_permits {edit : Edit} (hforest : t.IsForest) (hallows : t.Allows edit)
    (hpermits : ¬ t.Permits edit) :
    ∃ parent child old, edit = .append parent child ∧ t.parent? child = some old := by
  cases edit with
  | alloc kind => exact absurd trivial hpermits
  | appendNew parent kind => exact absurd hallows hpermits
  | append parent child =>
    obtain ⟨hparent, hchild, hunder⟩ := hallows
    have houtside : ¬ t.InSubtree child parent := mt hforest.inSubtree_iff.1 hunder
    cases hold : t.parent? child with
    | none => exact absurd ⟨hparent, hchild, hold, houtside⟩ hpermits
    | some old => exact ⟨parent, child, old, rfl, hold⟩

/-- An append takes no child away. -/
theorem children_isPrefix_append? (h : t.append? parent child = some t') (id : NodeId) :
    (t.children id).toList <+: (t'.children id).toList := by
  rw [children_append? h]
  split
  · exact List.prefix_append _ _
  · exact List.prefix_refl _

/-- Lists of children only grow. -/
theorem children_isPrefix_edit? {edit : Edit} (h : t.edit? edit = some t') (id : NodeId) :
    (t.children id).toList <+: (t'.children id).toList := by
  cases edit with
  | alloc kind =>
    obtain rfl := Option.some.inj h
    exact ⟨[], by rw [children_alloc, List.append_nil]⟩
  | appendNew parent kind =>
    have hgrows := children_isPrefix_append? (edit?_appendNew.1 h) id
    rwa [children_alloc] at hgrows
  | append parent child => exact children_isPrefix_append? h id

/-- A node that is listed twice stays so. -/
theorem ListedTwice.of_edit? {edit : Edit} (h : t.ListedTwice) (hedit : t.edit? edit = some t') :
    t'.ListedTwice := by
  have hgrows := children_isPrefix_edit? hedit
  obtain ⟨c, ⟨p, htwice⟩ | ⟨p, q, hne, hp, hq⟩⟩ := h
  · exact ⟨c, Or.inl ⟨p, htwice.trans (hgrows p).sublist⟩⟩
  · exact ⟨c, Or.inr ⟨p, q, hne, (hgrows p).subset hp, (hgrows q).subset hq⟩⟩

/-- A node that has a parent is listed by it, and after an append by its new parent too. -/
theorem listedTwice_append? {old : NodeId} (hforest : t.IsForest)
    (hold : t.parent? child = some old) (h : t.append? parent child = some t') :
    t'.ListedTwice := by
  have hlisted : child ∈ (t.children old).toList := hforest.parent_iff.1 hold
  have hnew : (t'.children parent).toList = (t.children parent).toList ++ [child] := by
    rw [children_append? h, if_pos rfl]
  refine ⟨child, ?_⟩
  by_cases hsame : old = parent
  · subst hsame
    refine Or.inl ⟨old, ?_⟩
    rw [hnew]
    exact (List.singleton_sublist.2 hlisted).append (List.Sublist.refl [child])
  · refine Or.inr ⟨old, parent, hsame, (children_isPrefix_append? h old).subset hlisted, ?_⟩
    rw [hnew]
    exact List.mem_concat_self

/-! ## The run -/

/-- The first steps of an allowed run are allowed. -/
theorem AllowsAll.of_isPrefix (h : t.AllowsAll edits) (hsteps : steps <+: edits) :
    t.AllowsAll steps := by
  obtain ⟨rest, rfl⟩ := hsteps
  induction steps generalizing t with
  | nil => trivial
  | cons edit steps ih => exact ⟨h.1, fun t' hedit => ih (h.2 t' hedit)⟩

/-- Once a node is listed twice it stays so. -/
theorem ListedTwice.exists_run? (h : t.ListedTwice) (hallows : t.AllowsAll edits) :
    ∃ t', t.run? edits = some t' ∧ t'.ListedTwice := by
  induction edits generalizing t with
  | nil => exact ⟨t, rfl, h⟩
  | cons edit rest ih =>
    obtain ⟨hedit, hrest⟩ := hallows
    obtain ⟨t₁, hstep⟩ := exists_edit?_of_allows hedit
    rw [run?_cons hstep]
    exact ih (h.of_edit? hstep) (hrest t₁ hstep)

/-- An allowed run gives a forest if it is permitted, and lists a node twice otherwise. -/
theorem exists_run?_of_allowsAll (h : t.WellBuilt) (hallows : t.AllowsAll edits) :
    ∃ t', t.run? edits = some t' ∧
      (t.PermitsAll edits ∧ t'.IsForest ∨ ¬ t.PermitsAll edits ∧ t'.ListedTwice) := by
  -- the tree is well built up to the first edit that is not permitted, and nothing behind that edit
  -- takes back what it does
  induction edits generalizing t with
  | nil => exact ⟨t, rfl, Or.inl ⟨trivial, isForest_of_wellBuilt h⟩⟩
  | cons edit rest ih =>
    obtain ⟨hedit, hrest⟩ := hallows
    by_cases hpermits : t.Permits edit
    · obtain ⟨t₁, hstep, h₁⟩ := exists_edit?_of_permits h hpermits
      have hall : t.PermitsAll (edit :: rest) ↔ t₁.PermitsAll rest :=
        ⟨fun hall => hall.2 t₁ hstep, permitsAll_cons hpermits hstep⟩
      rw [run?_cons hstep, hall]
      exact ih h₁ (hrest t₁ hstep)
    · obtain ⟨t₁, hstep⟩ := exists_edit?_of_allows hedit
      have hforest := isForest_of_wellBuilt h
      have htwice : t₁.ListedTwice := by
        obtain ⟨parent, child, old, rfl, hold⟩ :=
          exists_append_of_not_permits hforest hedit hpermits
        exact listedTwice_append? hforest hold hstep
      obtain ⟨t', hrun, htwice'⟩ := htwice.exists_run? (hrest t₁ hstep)
      rw [run?_cons hstep]
      exact ⟨t', hrun, Or.inr ⟨fun hall => hpermits hall.1, htwice'⟩⟩

/-- After every step of a run that names allocated nodes and appends none below itself there is a
    tree, and its links agree exactly if every node had no parent when it was appended. If some node
    had one, a node is listed twice. -/
theorem linksAgree_iff_permitsAll (hallows : (Tree.empty isHtml).AllowsAll edits)
    (hsteps : steps <+: edits) :
    ∃ t, (Tree.empty isHtml).run? steps = some t ∧
      (t.LinksAgree ↔ (Tree.empty isHtml).PermitsAll steps) ∧
      (t.ListedTwice ↔ ¬ (Tree.empty isHtml).PermitsAll steps) := by
  obtain ⟨t, hrun, ⟨hpermits, hforest⟩ | ⟨hpermits, htwice⟩⟩ :=
    exists_run?_of_allowsAll (WellBuilt.empty isHtml) (hallows.of_isPrefix hsteps)
  · have hagree := hforest.linksAgree
    exact ⟨t, hrun, iff_of_true hagree hpermits,
      iff_of_false (fun htwice => htwice.not_linksAgree hagree) (not_not_intro hpermits)⟩
  · exact ⟨t, hrun, iff_of_false htwice.not_linksAgree hpermits, iff_of_true htwice hpermits⟩

/-! ## A node that is moved -/

/-- Two elements are allocated; the first one is appended to the document and then to the second
    one. -/
def reattached : List Edit :=
  [.alloc (.element { localName := "a" }), .alloc (.element { localName := "b" }), .append 0 1,
    .append 2 1]

/-- An edit that is allowed may stand in front of what is allowed after it. -/
theorem allowsAll_cons {edit : Edit} {rest : List Edit} (h : t.Allows edit)
    (hedit : t.edit? edit = some t') (hrest : t'.AllowsAll rest) :
    t.AllowsAll (edit :: rest) := by
  refine ⟨h, ?_⟩
  intro t'' hedit'
  obtain rfl := Option.some.inj (hedit.symm.trans hedit')
  exact hrest

private theorem allowsAll_reattached : (Tree.empty true).AllowsAll reattached := by
  refine allowsAll_cons trivial rfl (allowsAll_cons trivial rfl ?_)
  refine allowsAll_cons ?attached rfl (allowsAll_cons ?moved rfl trivial)
  case attached => exact ⟨by decide, by decide, not_isUnder_of_orphan rfl (by decide)⟩
  case moved => exact ⟨by decide, by decide, not_isUnder_of_orphan rfl (by decide)⟩

/-- A node that is appended to a second parent is listed twice. -/
theorem linksAgree_iff_permitsAll_reattached :
    ∃ t, (Tree.empty true).run? reattached = some t ∧
      (t.LinksAgree ↔ (Tree.empty true).PermitsAll reattached) ∧
      (t.ListedTwice ↔ ¬ (Tree.empty true).PermitsAll reattached) :=
  linksAgree_iff_permitsAll allowsAll_reattached (List.prefix_refl reattached)

/-- Not every run keeps the links in agreement: the node that has been moved names its new parent,
    and its old parent lists it still. -/
theorem not_linksAgree_reattached :
    ¬ ∀ (isHtml : Bool) (edits : List Edit) (t : Tree),
      (Tree.empty isHtml).AllowsAll edits → (Tree.empty isHtml).run? edits = some t →
        t.LinksAgree := by
  intro hall
  obtain ⟨t, hrun⟩ : ∃ t, (Tree.empty true).run? reattached = some t := ⟨_, rfl⟩
  have hagree := hall true reattached t allowsAll_reattached hrun
  obtain rfl := Option.some.inj hrun
  have hlisted : Tree.parent? _ 1 = some 0 := hagree.parent_iff.2 (by decide)
  exact absurd hlisted (by decide)

end Tree

end Selectors
