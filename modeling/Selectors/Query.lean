import Selectors.Selector.Parser
import Selectors.Test.Accepts

/-!
# Queries — compiled selectors, and the elements of a subtree that they match

What the subject of a selector requires of an element gives its *keys*: an id, a class, a name, a
namespace and a `lang` attribute. They let an index skip a selector without evaluating its test.
Where a compound requires one kind of thing twice the last one is kept.

A query tests every element of a subtree against every selector of a list, in document order.
Pseudo-elements do not count: a selector that ends in one finds the element that it belongs to.

* **`compileSelectors`** — the compiled selectors of a text.
* **`Element.queryAll`** and **`Element.query`** — the elements that are found, and the first one.
-/

namespace Selectors

/-! ## Compiled selectors -/

/-- What an element has to have before a test can hold. -/
structure Keys where
  id? : Option String := none
  className? : Option String := none
  /-- The name as written. -/
  localName? : Option String := none
  /-- The name in lower case. -/
  lowerLocalName? : Option String := none
  /-- The namespace; the empty URL stands for none. -/
  namespaceUrl? : Option String := none
  needsLang : Bool := false
deriving DecidableEq, Inhabited

namespace Keys

/-- The keys with a name, as written and in lower case. -/
def withLocalName (keys : Keys) (name : String) : Keys :=
  { keys with localName? := some name, lowerLocalName? := some name.toLower }

/-- The keys with what one more simple selector requires. -/
def refine (keys : Keys) : Simple → Keys
  | .atom (.id name) => { keys with id? := some name }
  | .atom (.className name) => { keys with className? := some name }
  | .atom (.typeName name) => keys.withLocalName name
  | .atom (.inNamespace url) => { keys with namespaceUrl? := some url }
  | .atom (.attribute test) =>
    if test.name == "lang" && test.scope == .none then { keys with needsLang := true } else keys
  | _ => keys

end Keys

/-- The keys of a complex selector. -/
def Complex.keys (complex : Complex) : Keys :=
  complex.subject.foldl Keys.refine {}

/-- A selector that is ready for use: its test, its weight and its keys. The mark
    `neverMatches` says that its test cannot hold, whatever its keys are. -/
structure CompiledSelector (T : Type) where
  test : T
  specificity : Specificity
  keys : Keys := {}
  neverMatches : Bool := false
  pseudoElement? : Option PseudoElement := none
deriving DecidableEq

/-- The compiled form of a selector. -/
def Selector.compile (selector : Selector) : CompiledSelector Test where
  test := selector.complex.test
  specificity := selector.specificity
  keys := selector.complex.keys
  neverMatches := selector.complex.test.isNever
  pseudoElement? := selector.pseudoElement?

/-- The compiled selectors that a text consists of, in the declared namespaces. -/
def compileSelectors (namespaces : Namespaces) (text : String) :
    Reading (List (CompiledSelector Test)) :=
  (parseSelectors namespaces text).map (·.map Selector.compile)

/-! ## Queries -/

namespace Element

variable {t : Tree}

/-- Whether some selector of a list matches the element. -/
def isMatchedBy (e : Element t) (selectors : List (CompiledSelector Test)) : Bool :=
  selectors.any (·.test.accepts e)

/-- The elements of the subtree, the element itself included, that some selector matches. -/
def queryAll (e : Element t) (selectors : List (CompiledSelector Test)) : List (Element t) :=
  e.subtree.filter (·.isMatchedBy selectors)

/-- The first element of the subtree that some selector matches. -/
def query (e : Element t) (selectors : List (CompiledSelector Test)) : Option (Element t) :=
  e.subtree.find? (·.isMatchedBy selectors)

/-- What is found first is the first of what is found. -/
theorem query_eq_head?_queryAll (e : Element t) (selectors : List (CompiledSelector Test)) :
    e.query selectors = (e.queryAll selectors).head? :=
  List.head?_filter.symm

end Element

end Selectors
