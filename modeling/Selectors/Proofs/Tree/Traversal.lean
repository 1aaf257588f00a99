import Selectors.Proofs.Tree.Siblings

/-!
# Traversal — a visit goes through subtrees in pre-order

A visit keeps a list of waiting nodes and puts the children of each node that it visits in front of
them. The pre-order is said by recursion instead: a node, and then the pre-orders of its children
from first to last. The two are related for any nodes that wait behind, so that the visit of the
children can be followed by the visit of the rest.

Whether there is a pre-order at all is a question of how far down one can go. In a forest a way
down meets no node twice, and its length bounds the recursion.

* **`Tree.Preorder`** — the recursive pre-order of some nodes with all that is below them.
* **`visit?_append_of_preorder`** — the invariant of the waiting nodes.
* **`exists_preorder`** — in a forest every node has a pre-order, so every visit ends.
* **`mem_preorder_iff`** and **`nodup_preorder`** — it has the nodes of the subtrees, each once.
* **`exists_visit?`** — the visit of a subtree, with the number of its rounds.
-/

namespace Selectors

namespace Tree

variable {t : Tree} {ids out : List NodeId}

/-- Some nodes and what is below them, in pre-order: each node is followed by the pre-order of its
    children, and that by the pre-order of the nodes after it. -/
inductive Preorder (t : Tree) : List NodeId → List NodeId → Prop where
  | nil : Preorder t [] []
  | cons {id : NodeId} {ids below after : List NodeId} :
      Preorder t (t.children id).toList below → Preorder t ids after →
        Preorder t (id :: ids) (id :: (below ++ after))

/-- There is only one pre-order. -/
theorem preorder_unique {out' : List NodeId} (h : t.Preorder ids out) (h' : t.Preorder ids out') :
    out = out' := by
  induction h generalizing out' with
  | nil =>
    cases h'
    rfl
  | cons _ _ ihbelow ihafter =>
    cases h' with
    | cons hbelow hafter => rw [ihbelow hbelow, ihafter hafter]

/-! ## The waiting nodes -/

private theorem visit?_nil (rounds : Nat) : t.visit? rounds [] = some [] := by
  cases rounds <;> rfl

/-- A visit goes through the pre-order of the first nodes before it comes to those that wait behind
    them, and takes one round for each entry. -/
theorem visit?_append_of_preorder (h : t.Preorder ids out) (rounds : Nat)
    (waiting : List NodeId) :
    t.visit? (out.length + rounds) (ids ++ waiting) =
      (t.visit? rounds waiting).map (out ++ ·) := by
  induction h generalizing rounds waiting with
  | nil =>
    rw [List.length_nil, Nat.zero_add]
    exact Option.map_id'.symm
  | @cons id ids below after _ _ ihbelow ihafter =>
    -- the first round is that of the node itself, and then its children are the first to wait
    have hrounds : (id :: (below ++ after)).length + rounds =
        below.length + (after.length + rounds) + 1 := by
      rw [List.length_cons, List.length_append]
      omega
    rw [hrounds, List.cons_append, visit?, ihbelow, ihafter, Option.map_map, Option.map_map]
    congr 1
    funext visited
    show id :: (below ++ (after ++ visited)) = id :: (below ++ after) ++ visited
    rw [List.cons_append, List.append_assoc]

/-- With a round for each node the visit gives the preorder. -/
theorem visit?_eq_some_of_preorder (h : t.Preorder ids out) {rounds : Nat}
    (hrounds : out.length ≤ rounds) : t.visit? rounds ids = some out := by
  obtain ⟨more, rfl⟩ := Nat.exists_eq_add_of_le hrounds
  have hvisit := visit?_append_of_preorder h more []
  rw [List.append_nil, visit?_nil, Option.map_some, List.append_nil] at hvisit
  exact hvisit

/-! ## Every visit ends -/

/-- If the subtrees below have a preorder then so has the whole. -/
theorem exists_preorder_of_children
    (h : ∀ id ∈ ids, ∃ below, t.Preorder (t.children id).toList below) :
    ∃ out, t.Preorder ids out := by
  induction ids with
  | nil => exact ⟨[], .nil⟩
  | cons id rest ih =>
    obtain ⟨below, hbelow⟩ := h id List.mem_cons_self
    obtain ⟨after, hafter⟩ := ih fun id hid => h id (List.mem_cons_of_mem _ hid)
    exact ⟨_, .cons hbelow hafter⟩

/-- If no way down from some nodes is longer than a bound, then they have a pre-order. -/
theorem exists_preorder_of_bound {bound : Nat}
    (hbound : ∀ id ∈ ids, ∀ l, List.IsChain t.IsChild (id :: l) → l.length ≤ bound) :
    ∃ out, t.Preorder ids out := by
  induction bound generalizing ids with
  | zero =>
    refine exists_preorder_of_children fun id hid => ?_
    have hnone : (t.children id).toList = [] := by
      refine List.eq_nil_iff_forall_not_mem.2 fun child hchild => ?_
      exact absurd (hbound id hid [child] (List.isChain_pair.2 hchild)) (by simp)
    rw [hnone]
    exact ⟨[], .nil⟩
  | succ bound ih =>
    refine exists_preorder_of_children fun id hid => ih fun child hchild l hl => ?_
    have hlonger := hbound id hid (child :: l) (List.IsChain.cons_cons hchild hl)
    exact Nat.le_of_succ_le_succ hlonger

/-- Every forest has a preorder. -/
theorem exists_preorder (hforest : t.IsForest) (ids : List NodeId) :
    ∃ out, t.Preorder ids out := by
  have hbound : ∀ id ∈ ids, ∀ l, List.IsChain t.IsChild (id :: l) → l.length ≤ t.size := by
    intro id _ l hl
    refine length_le_of_isChain hforest.acyclic ?_ hl
    intro a b hchild
    exact lt_size_of_parent?_eq_some (hforest.parent_iff.2 hchild)
  exact exists_preorder_of_bound hbound

/-! ## What is visited -/

/-- A pre-order has what is in the subtrees of its nodes. -/
theorem mem_preorder_iff (h : t.Preorder ids out) {x : NodeId} :
    x ∈ out ↔ ∃ id ∈ ids, t.InSubtree id x := by
  induction h with
  | nil => simp
  | @cons id ids below after _ _ ihbelow ihafter =>
    have hdown : t.InSubtree id x ↔ x = id ∨ x ∈ below := by
      rw [ihbelow, InSubtree, Relation.ReflTransGen.cases_head_iff, eq_comm]
      rfl
    rw [List.mem_cons, List.mem_append, ihafter, ← or_assoc, ← hdown]
    simp

/-- Of two nodes with a common node below them one is in the subtree of the other. -/
theorem inSubtree_total (hforest : t.IsForest) {a b x : NodeId} (ha : t.InSubtree a x)
    (hb : t.InSubtree b x) : t.InSubtree a b ∨ t.InSubtree b a := by
  have hunique : Relator.RightUnique (Function.swap t.IsChild) := by
    intro child p q hp hq
    have hparent := hforest.parent_iff.2 hp
    rw [hforest.parent_iff.2 hq] at hparent
    exact (Option.some.inj hparent).symm
  rcases Relation.ReflTransGen.total_of_right_unique hunique (Relation.reflTransGen_swap.2 ha)
    (Relation.reflTransGen_swap.2 hb) with hup | hup
  · exact Or.inr (Relation.reflTransGen_swap.1 hup)
  · exact Or.inl (Relation.reflTransGen_swap.1 hup)

/-- A child is not in the subtree of one of its siblings. -/
theorem not_inSubtree_sibling (hforest : t.IsForest) {parent a b : NodeId}
    (ha : t.IsChild parent a) (hb : t.IsChild parent b) (hne : a ≠ b) : ¬ t.InSubtree a b := by
  intro hinside
  rcases Relation.ReflTransGen.cases_tail hinside with heq | ⟨q, hq, hstep⟩
  · exact hne heq.symm
  · have hparent := hforest.parent_iff.2 hstep
    rw [hforest.parent_iff.2 hb] at hparent
    obtain rfl := Option.some.inj hparent
    exact hforest.acyclic parent (Relation.TransGen.head' ha hq)

/-- The subtrees of the children of a node have nothing in common. -/
theorem pairwise_children (hforest : t.IsForest) (parent : NodeId) :
    (t.children parent).toList.Pairwise fun a b => ∀ x, t.InSubtree a x → ¬ t.InSubtree b x := by
  refine (hforest.nodup parent).imp_of_mem ?_
  intro a b ha hb hne x hax hbx
  rcases inSubtree_total hforest hax hbx with hab | hba
  · exact not_inSubtree_sibling hforest ha hb hne hab
  · exact not_inSubtree_sibling hforest hb ha hne.symm hba

/-- Nodes whose subtrees have nothing in common are visited with all that is below them, and no node
    is visited twice. -/
theorem nodup_preorder (hforest : t.IsForest) (h : t.Preorder ids out)
    (hapart : ids.Pairwise fun a b => ∀ x, t.InSubtree a x → ¬ t.InSubtree b x) : out.Nodup := by
  induction h with
  | nil => exact List.nodup_nil
  | @cons id ids below after hbelow hafter ihbelow ihafter =>
    obtain ⟨hfirst, hrest⟩ := List.pairwise_cons.1 hapart
    have hafar : ∀ x, t.InSubtree id x → x ∉ after := by
      intro x hx hmem
      obtain ⟨other, hother, hinside⟩ := (mem_preorder_iff hafter).1 hmem
      exact hfirst other hother x hx hinside
    have hself : id ∉ below := by
      intro hmem
      obtain ⟨child, hchild, hinside⟩ := (mem_preorder_iff hbelow).1 hmem
      exact hforest.acyclic id (Relation.TransGen.head' hchild hinside)
    have hdown : ∀ x ∈ below, t.InSubtree id x := by
      intro x hx
      obtain ⟨child, hchild, hinside⟩ := (mem_preorder_iff hbelow).1 hx
      exact Relation.ReflTransGen.head hchild hinside
    rw [List.nodup_cons, List.mem_append, not_or, List.nodup_append]
    refine ⟨⟨hself, hafar id Relation.ReflTransGen.refl⟩, ihbelow (pairwise_children hforest id),
      ihafter hrest, ?_⟩
    rintro x hx _ hx' rfl
    exact hafar x (hdown x hx) hx'

/-- The rounds that are counted are enough for all nodes of the tree. -/
theorem size_le_rounds (t : Tree) : t.size ≤ t.rounds :=
  Nat.le_of_lt (Nat.lt_pow_self (Nat.le_add_left 2 t.links))

/-- In a forest the visit of a subtree ends: after as many rounds as there are nodes in it, each of
    them once, and in pre-order. -/
theorem exists_visit? (hforest : t.IsForest) {id : NodeId} (hid : id < t.size) :
    ∃ ids, t.Preorder [id] ids ∧ (∀ rounds, ids.length ≤ rounds → t.visit? rounds [id] = some ids) ∧
      ids.length ≤ t.rounds ∧ ids.Nodup ∧ ∀ x, x ∈ ids ↔ t.InSubtree id x := by
  obtain ⟨ids, hids⟩ := exists_preorder hforest [id]
  have hnodup : ids.Nodup := nodup_preorder hforest hids (List.pairwise_singleton _ _)
  have hmem : ∀ x, x ∈ ids ↔ t.InSubtree id x := by
    intro x
    rw [mem_preorder_iff hids]
    simp
  have hbound : ∀ x ∈ ids, x < t.size := by
    intro x hx
    rcases Relation.ReflTransGen.cases_tail ((hmem x).1 hx) with rfl | ⟨parent, -, hchild⟩
    · exact hid
    · exact lt_size_of_parent?_eq_some (hforest.parent_iff.2 hchild)
  refine ⟨ids, hids, fun rounds => visit?_eq_some_of_preorder hids, ?_, hnodup, hmem⟩
  exact Nat.le_trans (length_le_size hnodup hbound) (size_le_rounds t)

end Tree

end Selectors
