import Selectors.Tree.Basic
import Selectors.Text

/-!
# Elements — moving about in a tree

An `Element t` is an element of the tree `t`. Walks from it go to the parent and to the siblings
before and after it and see elements only; they follow the links of the tree, text and comments
included, and take at most as many steps as the tree has nodes. That is every step of a walk
that ends, since such a walk does not visit a node twice.

* **`ancestors`**, **`preceding`**, **`following`** — the elements along a walk, nearest first.
* **`position`** — the place of an element among its siblings.
* **`language?`** — the language that an element is in.
* **`subtree`** — the element and the elements below it, in document order. They are visited with a
  list of nodes that wait, and the rounds of a visit are counted as the steps of a walk are: there
  are enough of them in every tree in which no node stands below itself.
-/

namespace Selectors

/-- The namespace of HTML elements. -/
def htmlNamespace : String := "http://www.w3.org/1999/xhtml"

/-- The attribute that sets the language of any element. -/
def xmlLanguageAttribute : String := "\x7bhttp://www.w3.org/XML/1998/namespace\x7dlang"

/-- What is met on the way from a start, up to a number of steps. -/
def chain {α : Type} (step : α → Option α) : Nat → Option α → List α
  | _, none => []
  | 0, some _ => []
  | steps + 1, some a => a :: chain step steps (step a)

/-- How siblings are counted: from which end, and whether only those of the same type. -/
structure Count where
  fromEnd : Bool
  sameType : Bool
deriving DecidableEq, Repr

/-- An element of a tree. -/
structure Element (t : Tree) where
  id : NodeId
  data : ElementData
  isElement : t.elementData? id = some data

/-- The element of a number, if that node is an element. -/
def Tree.element? (t : Tree) (id : NodeId) : Option (Element t) :=
  match h : t.elementData? id with
  | some data => some ⟨id, data, h⟩
  | none => none

namespace Element

variable {t : Tree}

/-- Elements of one tree are equal when their numbers are. -/
theorem ext_id {a b : Element t} (h : a.id = b.id) : a = b := by
  obtain ⟨ida, da, ha⟩ := a
  obtain ⟨idb, db, hb⟩ := b
  obtain rfl : ida = idb := h
  obtain rfl : da = db := Option.some.inj (ha.symm.trans hb)
  rfl

instance : DecidableEq (Element t) := fun a b =>
  decidable_of_iff (a.id = b.id) ⟨ext_id, fun h => h ▸ rfl⟩

/-- The number of an element leads back to it. -/
@[simp] theorem element?_id (e : Element t) : t.element? e.id = some e := by
  unfold Tree.element?
  split
  · exact congrArg some (ext_id rfl)
  · next h => simp [e.isElement] at h

/-- Whether the same element was found in a tree and, `ofCopy` telling so, in a copy of it. The
    elements of a copy are other elements, and two searches without result agree. -/
def sameFound (ofCopy : Bool) : Option (Element t) → Option (Element t) → Bool
  | none, none => true
  | some a, some b => !ofCopy && a == b
  | _, _ => false

/-! ## Walks -/

/-- The parent, if it is an element. -/
def parent? (e : Element t) : Option (Element t) :=
  (t.parent? e.id).bind t.element?

/-- The parent, its parent and so on, as long as they are elements. -/
def ancestors (e : Element t) : List (Element t) :=
  chain parent? t.size e.parent?

/-- The sibling elements before this one, nearest first. -/
def preceding (e : Element t) : List (Element t) :=
  (chain t.previous? t.size (t.previous? e.id)).filterMap t.element?

/-- The sibling elements after this one, nearest first. -/
def following (e : Element t) : List (Element t) :=
  (chain t.next? t.size (t.next? e.id)).filterMap t.element?

/-- The nearest sibling element before this one. -/
def previous? (e : Element t) : Option (Element t) :=
  e.preceding.head?

/-- The nearest sibling element after this one. -/
def next? (e : Element t) : Option (Element t) :=
  e.following.head?

/-- The children that are elements, from first to last. -/
def children (e : Element t) : List (Element t) :=
  (t.children e.id).toList.filterMap t.element?

/-- Whether another element has the same name and namespace. -/
def sameType (e other : Element t) : Bool :=
  other.data.localName == e.data.localName && other.data.namespaceUrl == e.data.namespaceUrl

/-- The place of an element among its siblings, the first one being 1; at most the largest
    32-bit integer. -/
def position (e : Element t) (count : Count) : Int32 :=
  let passed := if count.fromEnd then e.following else e.preceding
  let counted := if count.sameType then passed.filter e.sameType else passed
  .ofNat (min (counted.length + 1) 0x7FFFFFFF)

/-! ## Facts -/

/-- Whether the parent is not an element. -/
def isRoot (e : Element t) : Bool :=
  e.parent?.isNone

/-- Whether no child counts as content. -/
def isEmpty (e : Element t) : Bool :=
  (t.children e.id).all fun child => !t.isContent child

/-- Whether the element is an HTML element; in an HTML document one without a namespace is. -/
def isHtml (e : Element t) : Bool :=
  e.data.namespaceUrl == htmlNamespace || (t.isHtml && e.data.namespaceUrl == "")

/-- Whether the element has a `lang` attribute. -/
def hasLang (e : Element t) : Bool :=
  (e.data.attribute? "lang").isSome

/-- The language that an element itself sets: by `xml:lang`, else by `lang` in an HTML document
    or in the HTML namespace. -/
def ownLanguage? (e : Element t) : Option String :=
  match e.data.attribute? xmlLanguageAttribute with
  | some language => some language
  | none =>
    if t.isHtml || e.data.namespaceUrl == htmlNamespace then e.data.attribute? "lang" else none

/-- The language of an element: what it or the nearest of its ancestors sets. -/
def language? (e : Element t) : Option String :=
  (e :: e.ancestors).findSome? ownLanguage?

end Element

/-! ## Document order -/

/-- The nodes that are visited while some are waiting, the first one next. A visited node puts its
    children in front of those that wait. There is no result if some still wait after the last
    round. -/
def Tree.visit? (t : Tree) : Nat → List NodeId → Option (List NodeId)
  | _, [] => some []
  | 0, _ :: _ => none
  | rounds + 1, id :: waiting =>
    (t.visit? rounds ((t.children id).toList ++ waiting)).map (id :: ·)

/-- The number of times that a node was made the child of another. -/
def Tree.links (t : Tree) : Nat :=
  t.nodes.foldl (fun count node => count + node.children.size) 0

/-- A number of rounds that is enough for a visit which ends. A node is visited once for each way
    down to it, and without cycles a way has fewer links than the tree has nodes. -/
def Tree.rounds (t : Tree) : Nat :=
  Nat.pow (t.links + 2) t.size

/-- The element and all elements below it, in document order; none if a visit of them never
    ends. -/
def Element.subtree {t : Tree} (e : Element t) : List (Element t) :=
  ((t.visit? t.rounds [e.id]).getD []).filterMap t.element?

/-- All elements of a tree, attached or not, by ascending number. -/
def Tree.elements (t : Tree) : List (Element t) :=
  (List.range t.size).filterMap t.element?

end Selectors
