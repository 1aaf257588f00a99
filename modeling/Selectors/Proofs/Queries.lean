import Selectors.Proofs.Index.Dispatch
import Selectors.Proofs.Index.LinearScan
import Selectors.Proofs.Tree.Traversal
import Selectors.Query

/-!
# Queries and the index — two ways to the same elements

A query tests the elements of a subtree against every selector of a list. An index to which the
list has been added finds matches for exactly the same elements: a selector that accepts an element
does not count among those that never match, and the element meets all of its keys, the first one
included. The elements come in the order in which the subtree is visited.

* **`matchElement_ne_nil_iff`** — an index finds something exactly if some selector accepts.
* **`Element.QueryAgrees`** — what a query answers, told by an index and the pre-order.
* **`queryAgrees_addAll`** — compiled selectors agree with the index that they are added to.
-/

namespace Selectors

variable {P : Type} {t : Tree}

/-- Adding a list is adding its selectors one by one. -/
theorem addAll_eq_ofHistory (selectors : List (CompiledSelector Test)) (payload : P) :
    Index.empty.addAll selectors payload =
      Index.ofHistory (selectors.map fun selector => (selector, payload)) := by
  rw [Index.addAll, Index.ofHistory, List.foldl_map]

private theorem exists_mem_zipIdx {α : Type} {l : List α} {a : α} (h : a ∈ l) (first : Nat) :
    ∃ place, (a, place) ∈ l.zipIdx first := by
  have hmem : a ∈ (l.zipIdx first).map Prod.fst := by
    rw [List.zipIdx_map_fst]
    exact h
  obtain ⟨⟨_, place⟩, hplace, rfl⟩ := List.mem_map.1 hmem
  exact ⟨place, hplace⟩

/-- An index finds something for an element exactly if one of the selectors accepts it. -/
theorem matchElement_ne_nil_iff {selectors : List (CompiledSelector Test)}
    (hcompiled : ∀ compiled ∈ selectors, ∃ selector : Selector, compiled = selector.compile)
    (payload : P) (e : Element t) :
    (Index.empty.addAll selectors payload).matchElement e ≠ [] ↔
      e.isMatchedBy selectors = true := by
  -- adding a list is a history of single additions, whose answers are known
  have hhistory : ∀ added ∈ selectors.map fun selector => (selector, payload),
      ∃ selector : Selector, added.1 = selector.compile := by
    intro added hadded
    obtain ⟨compiled, hmem, rfl⟩ := List.mem_map.1 hadded
    exact hcompiled compiled hmem
  rw [addAll_eq_ofHistory, Element.isMatchedBy, List.any_eq_true]
  constructor
  · intro hne
    obtain ⟨found, hfound⟩ := List.exists_mem_of_ne_nil _ hne
    obtain ⟨compiled, _, order, hcall, haccepts, -⟩ :=
      (Index.mem_matchElement_iff hhistory).1 hfound
    obtain ⟨_, hmem, heq⟩ := List.mem_map.1 (List.fst_mem_of_mem_zipIdx hcall)
    obtain ⟨rfl, -⟩ := Prod.mk.inj heq
    exact ⟨_, hmem, haccepts⟩
  · rintro ⟨compiled, hmem, haccepts⟩
    have hadded : (compiled, payload) ∈ selectors.map fun selector => (selector, payload) :=
      List.mem_map.2 ⟨_, hmem, rfl⟩
    obtain ⟨order, hcall⟩ := exists_mem_zipIdx hadded 1
    have hfound := (Index.mem_matchElement_iff hhistory).2
      ⟨compiled, payload, order, hcall, haccepts, rfl⟩
    exact List.ne_nil_of_mem hfound

/-! ## What a query answers -/

namespace Element

/-- A query for some selectors answers what an index answers, in document order. -/
structure QueryAgrees (root : Element t) (selectors : List (CompiledSelector Test))
    (index : Index Test P) : Prop where
  /-- The visit of the subtree ends, in as many rounds as its pre-order has nodes, and of the
      elements among these those are answered that the index finds something for. -/
  queryAll_eq : ∃ ids, t.Preorder [root.id] ids ∧
    (∀ rounds, ids.length ≤ rounds → t.visit? rounds [root.id] = some ids) ∧
    root.queryAll selectors =
      (ids.filterMap t.element?).filter fun e => !(index.matchElement e).isEmpty
  /-- These are all such elements of the subtree. -/
  mem_iff : ∀ e, e ∈ root.queryAll selectors ↔
    t.InSubtree root.id e.id ∧ index.matchElement e ≠ []
  /-- None of them is answered twice. -/
  nodup : (root.queryAll selectors).Nodup
  /-- The query for one element answers the first of them. -/
  query_eq : root.query selectors = (root.queryAll selectors).head?

/-- The elements among distinct nodes are distinct. -/
theorem nodup_filterMap_element? {ids : List NodeId} (h : ids.Nodup) :
    (ids.filterMap t.element?).Nodup := by
  refine h.filterMap ?_
  intro a b e ha hb
  exact (Tree.element?_eq_some_iff.1 ha).symm.trans (Tree.element?_eq_some_iff.1 hb)

/-- In a well-built tree, queries for compiled selectors agree with the index that the selectors
    have been added to. -/
theorem queryAgrees_addAll (ht : t.WellBuilt) {selectors : List (CompiledSelector Test)}
    (hcompiled : ∀ compiled ∈ selectors, ∃ selector : Selector, compiled = selector.compile)
    (root : Element t) (payload : P) :
    root.QueryAgrees selectors (Index.empty.addAll selectors payload) := by
  obtain ⟨ids, hpreorder, hvisit, hrounds, hnodup, hmem⟩ :=
    Tree.exists_visit? (Tree.isForest_of_wellBuilt ht) (Tree.elementData?_lt root.isElement)
  have hall : root.queryAll selectors =
      (ids.filterMap t.element?).filter (·.isMatchedBy selectors) := by
    rw [queryAll, subtree, hvisit _ hrounds]
    rfl
  refine { queryAll_eq := ?_, mem_iff := ?_, nodup := ?_, query_eq := ?_ }
  · refine ⟨ids, hpreorder, hvisit, hall.trans (List.filter_congr ?_)⟩
    intro e _
    rw [Bool.eq_iff_iff, ← matchElement_ne_nil_iff hcompiled payload e]
    simp
  · intro e
    rw [hall, List.mem_filter, Tree.mem_filterMap_element?, hmem,
      matchElement_ne_nil_iff hcompiled]
  · rw [hall]
    exact (nodup_filterMap_element? hnodup).filter _
  · exact query_eq_head?_queryAll root selectors

/-- The list of two items, queried for its items. -/
theorem queryAgrees_twoItems :
    Tree.twoItems.WellBuilt ∧
      ∃ selectors, compileSelectors .empty "li" = .ok selectors ∧
        (⟨1, { localName := "ul" }, rfl⟩ : Element Tree.twoItems).QueryAgrees selectors
          (Index.empty.addAll selectors "item") := by
  have hcompiles : compileSelectors .empty "li" =
      .ok [Selector.compile ⟨.compound [.atom (.typeName "li")], none⟩] := by
    with_unfolding_all rfl
  exact ⟨Tree.wellBuilt_twoItems, _, hcompiles,
    queryAgrees_addAll Tree.wellBuilt_twoItems (exists_selector_of_compileSelectors hcompiles)
      ⟨1, { localName := "ul" }, rfl⟩ "item"⟩

end Element

end Selectors
