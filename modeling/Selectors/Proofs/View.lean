import Selectors.Index
import Selectors.Query

/-!
# Views — all that a selector sees of a tree

A test asks what an element is, which elements it comes to on the ways from there, and whether there
is any content in it. It never asks for a node that is not an element, nor for a number. So if the
elements of two trees correspond to each other, and what can be asked of one is what can be asked of
the other, then no test tells the trees apart, and neither does an index or a query.

* **`SameView`** — what is asked of corresponding elements is the same.
* **`SameAnswers`** — what is answered for them is the same.
* **`SameView.accepts_eq`** — tests, by induction over their syntax.
* **`SameView.sameAnswers`** — the same view gives the same answers.
-/

namespace Selectors

variable {t t' : Tree} {like : Element t → Element t'}

/-- What is seen from an element is what is seen from its like in another tree. -/
structure SameView (like : Element t → Element t') : Prop where
  isHtml_eq : t'.isHtml = t.isHtml
  data_eq : ∀ e, (like e).data = e.data
  parent?_eq : ∀ e, (like e).parent? = e.parent?.map like
  ancestors_eq : ∀ e, (like e).ancestors = e.ancestors.map like
  preceding_eq : ∀ e, (like e).preceding = e.preceding.map like
  following_eq : ∀ e, (like e).following = e.following.map like
  isEmpty_eq : ∀ e, (like e).isEmpty = e.isEmpty
  subtree_eq : ∀ e, (like e).subtree = e.subtree.map like

/-- What is answered for an element is what is answered for its like in another tree. -/
structure SameAnswers (like : Element t → Element t') : Prop where
  accepts_eq : ∀ (test : Test) e, test.accepts (like e) = test.accepts e
  matchElement_eq : ∀ {P : Type} (index : Index Test P) e,
    index.matchElement (like e) = index.matchElement e
  queryAll_eq : ∀ root selectors,
    (like root).queryAll selectors = (root.queryAll selectors).map like
  query_eq : ∀ root selectors, (like root).query selectors = (root.query selectors).map like

namespace SameView

/-! ## Siblings and facts -/

/-- The same sibling is seen before an element. -/
theorem previous?_eq (h : SameView like) (e : Element t) :
    (like e).previous? = e.previous?.map like := by
  show (like e).preceding.head? = e.preceding.head?.map like
  rw [h.preceding_eq, List.head?_map]

/-- The same sibling is seen after an element. -/
theorem next?_eq (h : SameView like) (e : Element t) : (like e).next? = e.next?.map like := by
  show (like e).following.head? = e.following.head?.map like
  rw [h.following_eq, List.head?_map]

private theorem isRoot_eq (h : SameView like) (e : Element t) : (like e).isRoot = e.isRoot := by
  show (like e).parent?.isNone = e.parent?.isNone
  rw [h.parent?_eq, Option.isNone_map]

private theorem sameType_eq (h : SameView like) (e other : Element t) :
    (like e).sameType (like other) = e.sameType other := by
  unfold Element.sameType
  rw [h.data_eq, h.data_eq]

/-- Siblings of the same type correspond, so they are counted alike. -/
theorem position_eq (h : SameView like) (e : Element t) (count : Count) :
    (like e).position count = e.position count := by
  obtain ⟨fromEnd, sameType⟩ := count
  -- from either end the siblings that are passed correspond
  have hpassed : (if fromEnd then (like e).following else (like e).preceding) =
      (if fromEnd then e.following else e.preceding).map like := by
    rw [h.following_eq, h.preceding_eq]
    cases fromEnd <;> rfl
  have hsame : (like e).sameType ∘ like = e.sameType := funext (h.sameType_eq e)
  unfold Element.position
  dsimp only
  rw [hpassed]
  cases sameType with
  | false => simp only [Bool.false_eq_true, if_false, List.length_map]
  | true => simp only [if_true, List.filter_map, List.length_map, hsame]

/-- An index learns the same of an element. -/
theorem facts_eq (h : SameView like) (e : Element t) : (like e).facts = e.facts := by
  unfold Element.facts Element.hasLang
  rw [h.data_eq]

/-! ## Pseudo-classes -/

private theorem ownLanguage?_eq (h : SameView like) (e : Element t) :
    (like e).ownLanguage? = e.ownLanguage? := by
  unfold Element.ownLanguage?
  rw [h.data_eq, h.isHtml_eq]

/-- The language is inherited on ways that correspond. -/
theorem language?_eq (h : SameView like) (e : Element t) : (like e).language? = e.language? := by
  have hown : Element.ownLanguage? ∘ like = Element.ownLanguage? := funext h.ownLanguage?_eq
  show (like e :: (like e).ancestors).findSome? Element.ownLanguage? =
    (e :: e.ancestors).findSome? Element.ownLanguage?
  rw [h.ancestors_eq, ← List.map_cons, List.findSome?_map, hown]

private theorem has_eq (h : SameView like) (e : Element t) (name : String) :
    (like e).has name = e.has name := by
  show ((like e).data.attribute? name).isSome = (e.data.attribute? name).isSome
  rw [h.data_eq]

private theorem isHtmlOneOf_eq (h : SameView like) (e : Element t) (names : List String) :
    (like e).isHtmlOneOf names = e.isHtmlOneOf names := by
  unfold Element.isHtmlOneOf Element.isHtml
  rw [h.data_eq, h.isHtml_eq]

private theorem isChecked_eq (h : SameView like) (e : Element t) :
    (like e).isChecked = e.isChecked := by
  unfold Element.isChecked Element.isTickable
  rw [h.isHtmlOneOf_eq, h.isHtmlOneOf_eq, h.has_eq, h.has_eq, h.data_eq]

/-- Pseudo-classes accept the same elements. -/
theorem pseudoClass_accepts_eq (h : SameView like) (pseudoClass : PseudoClass) (e : Element t) :
    pseudoClass.accepts (like e) = pseudoClass.accepts e := by
  unfold PseudoClass.accepts
  cases pseudoClass with
  | root => exact h.isRoot_eq e
  | empty => exact h.isEmpty_eq e
  | firstChild | lastChild | onlyChild =>
    simp only [h.previous?_eq, h.next?_eq, Option.isNone_map]
  | firstOfType | lastOfType | onlyOfType | nth count places => simp only [h.position_eq]
  | lang range => simp only [h.language?_eq]
  | link | enabled | disabled => simp only [h.isHtmlOneOf_eq, h.has_eq]
  | checked => exact h.isChecked_eq e
  | dynamic state => rfl

/-! ## Tests -/

/-- Atoms accept the same elements. -/
theorem atom_accepts_eq (h : SameView like) (atom : Atom) (e : Element t) :
    atom.accepts (like e) = atom.accepts e := by
  cases atom with
  | pseudoClass p => exact h.pseudoClass_accepts_eq p e
  | _ =>
    unfold Atom.accepts
    simp only [h.data_eq, h.isHtml_eq]

/-- A combinator leads to elements that correspond, in the same order. -/
theorem reached_eq (h : SameView like) (combinator : Combinator) (e : Element t) :
    combinator.reached (like e) = (combinator.reached e).map like := by
  cases combinator with
  | descendant => exact h.ancestors_eq e
  | child =>
    show (like e).parent?.toList = e.parent?.toList.map like
    rw [h.parent?_eq, Option.toList_map]
  | nextSibling =>
    show (like e).previous?.toList = e.previous?.toList.map like
    rw [h.previous?_eq, Option.toList_map]
  | subsequentSibling => exact h.preceding_eq e

mutual

/-- No test tells an element from its like. -/
theorem accepts_eq (h : SameView like) :
    (test : Test) → (e : Element t) → test.accepts (like e) = test.accepts e
  | .never, _ => rfl
  | .always, _ => rfl
  | .all tests, e => by rw [Test.accepts, Test.accepts, acceptsAll_eq h tests e]
  | .any tests, e => by rw [Test.accepts, Test.accepts, acceptsAny_eq h tests e]
  | .not test, e => by rw [Test.accepts, Test.accepts, accepts_eq h test e]
  | .atom a, e => h.atom_accepts_eq a e
  | .relative left combinator right, e => by
    have hleft : left.accepts ∘ like = left.accepts := funext (accepts_eq h left)
    rw [Test.accepts, Test.accepts, accepts_eq h right e, h.reached_eq, List.any_map, hleft]

private theorem acceptsAll_eq (h : SameView like) :
    (tests : List Test) → (e : Element t) → Test.acceptsAll tests (like e) = Test.acceptsAll tests e
  | [], _ => rfl
  | test :: tests, e => by
    rw [Test.acceptsAll, Test.acceptsAll, accepts_eq h test e, acceptsAll_eq h tests e]

private theorem acceptsAny_eq (h : SameView like) :
    (tests : List Test) → (e : Element t) → Test.acceptsAny tests (like e) = Test.acceptsAny tests e
  | [], _ => rfl
  | test :: tests, e => by
    rw [Test.acceptsAny, Test.acceptsAny, accepts_eq h test e, acceptsAny_eq h tests e]

end

/-! ## Indexes and queries -/

/-- An index is asked for the same buckets, and the tests in them accept the same. -/
theorem matchElement_eq {P : Type} (h : SameView like) (index : Index Test P) (e : Element t) :
    index.matchElement (like e) = index.matchElement e := by
  show index.lookup (like e).facts (·.accepts (like e)) = index.lookup e.facts (·.accepts e)
  rw [h.facts_eq]
  exact congrArg (index.lookup e.facts) (funext fun test => h.accepts_eq test e)

private theorem isMatchedBy_eq (h : SameView like) (e : Element t)
    (selectors : List (CompiledSelector Test)) :
    (like e).isMatchedBy selectors = e.isMatchedBy selectors := by
  show selectors.any (·.test.accepts (like e)) = selectors.any (·.test.accepts e)
  exact congrArg selectors.any (funext fun selector => h.accepts_eq selector.test e)

/-- The same view gives the same answers. -/
theorem sameAnswers (h : SameView like) : SameAnswers like := by
  have hmatched : ∀ selectors : List (CompiledSelector Test),
      (·.isMatchedBy selectors) ∘ like = (·.isMatchedBy selectors) :=
    fun selectors => funext fun e => h.isMatchedBy_eq e selectors
  refine ⟨h.accepts_eq, h.matchElement_eq, ?_, ?_⟩
  · intro root selectors
    show (like root).subtree.filter (·.isMatchedBy selectors) =
      (root.subtree.filter (·.isMatchedBy selectors)).map like
    rw [h.subtree_eq, List.filter_map, hmatched]
  · intro root selectors
    show (like root).subtree.find? (·.isMatchedBy selectors) =
      (root.subtree.find? (·.isMatchedBy selectors)).map like
    rw [h.subtree_eq, List.find?_map, hmatched]

end SameView

end Selectors
