import Selectors.NameMap
import Selectors.Text

/-!
# Markup trees — nodes held by number and linked both ways

A `Tree` holds its nodes in one array; the number of a node is its place there, and node 0 is
the document. Every node keeps four links: its parent, its children in order, and the siblings
before and after it.

* **`alloc`** — the tree with one more node, which is not attached to anything.
* **`append?`** — the tree with a node made the last child of another. It only adds links: a
  child that was attached elsewhere keeps its place there as well, so a tree is a forest only as
  long as every child is appended once and not below itself.
-/

namespace Selectors

/-- What an element is: its name, its namespace (empty for none) and its attributes, those of a
    namespace under names of the form `{url}name`. The attributes stand in the order in which they
    are gone through, which is any order. -/
structure ElementData where
  localName : String
  namespaceUrl : String := ""
  attributes : NameMap := .empty
deriving DecidableEq, Inhabited

namespace ElementData

/-- The value of an attribute. -/
def attribute? (data : ElementData) (name : String) : Option String :=
  data.attributes.get? name

/-- The value of the `id` attribute. -/
def id? (data : ElementData) : Option String :=
  data.attribute? "id"

/-- The distinct words of the `class` attribute, in the order in which they first appear. -/
def classes (data : ElementData) : List String :=
  match data.attribute? "class" with
  | some text => (words text).eraseDups
  | none => []

/-- A class is a word of the `class` attribute. -/
theorem mem_classes {data : ElementData} {name : String} :
    name ∈ data.classes ↔ ∃ text, data.attribute? "class" = some text ∧ name ∈ words text := by
  unfold classes
  split <;> simp_all

end ElementData

/-- The number of a node within its tree. -/
abbrev NodeId := Nat

/-- The kinds of nodes. -/
inductive NodeKind where
  | document
  | element (data : ElementData)
  | text (content : String)
  | comment (content : String)
deriving DecidableEq, Inhabited

/-- A node with its links. -/
structure Node where
  kind : NodeKind
  parent? : Option NodeId := none
  children : Array NodeId := #[]
  previous? : Option NodeId := none
  next? : Option NodeId := none
deriving DecidableEq, Inhabited

/-- A markup tree, of an HTML document or of another one. -/
structure Tree where
  nodes : Array Node
  isHtml : Bool
deriving Inhabited

namespace Tree

/-- The tree of a document without content. -/
def empty (isHtml : Bool) : Tree :=
  ⟨#[{ kind := .document }], isHtml⟩

/-- The number of nodes, which is also the number that the next node gets. -/
def size (t : Tree) : Nat :=
  t.nodes.size

/-- The node of a number. -/
def node? (t : Tree) (id : NodeId) : Option Node :=
  t.nodes[id]?

/-- The parent of a node. -/
def parent? (t : Tree) (id : NodeId) : Option NodeId :=
  (t.node? id).bind Node.parent?

/-- The children of a node, from first to last. -/
def children (t : Tree) (id : NodeId) : Array NodeId :=
  ((t.node? id).map Node.children).getD #[]

/-- The sibling before a node. -/
def previous? (t : Tree) (id : NodeId) : Option NodeId :=
  (t.node? id).bind Node.previous?

/-- The sibling after a node. -/
def next? (t : Tree) (id : NodeId) : Option NodeId :=
  (t.node? id).bind Node.next?

/-- What the element of a number is, if that node is an element. -/
def elementData? (t : Tree) (id : NodeId) : Option ElementData :=
  match t.node? id with
  | some { kind := .element data, .. } => some data
  | _ => none

/-- Whether a node counts as content of its parent: elements do, and text that is not empty. -/
def isContent (t : Tree) (id : NodeId) : Bool :=
  match (t.node? id).map Node.kind with
  | some (.text content) => content != ""
  | some (.comment _) | none => false
  | some (.element _) | some .document => true

/-- The tree with one more node, unattached, and the number of that node. -/
def alloc (t : Tree) (kind : NodeKind) : NodeId × Tree :=
  (t.size, { t with nodes := t.nodes.push { kind } })

/-- The tree with one node changed. -/
def modify (t : Tree) (id : NodeId) (change : Node → Node) : Tree :=
  { t with nodes := t.nodes.modify id change }

/-- The tree with `last` and `child` as siblings, the second one after the first. -/
def linkSiblings (t : Tree) (last child : NodeId) : Tree :=
  (t.modify last fun n => { n with next? := some child }).modify child
    fun n => { n with previous? := some last }

/-- The tree with `child` as the last child of `parent`; `none` if either does not exist. -/
def append? (t : Tree) (parent child : NodeId) : Option Tree :=
  if parent < t.size ∧ child < t.size then
    let attached := (t.modify parent fun n => { n with children := n.children.push child }).modify
      child fun n => { n with parent? := some parent }
    match (t.children parent).back? with
    | some last => some (attached.linkSiblings last child)
    | none => some attached
  else none

/-- The tree with a new node as the last child of `parent`, and the number of that node; `none`
    if `parent` is neither in the tree nor the new node. -/
def appendNew? (t : Tree) (parent : NodeId) (kind : NodeKind) : Option (NodeId × Tree) :=
  let (id, t) := t.alloc kind
  (t.append? parent id).map fun t => (id, t)

/-! ## What the operations do to the nodes -/

/-- A new node is one node more. -/
@[simp] theorem size_alloc (t : Tree) (kind : NodeKind) : (t.alloc kind).2.size = t.size + 1 := by
  simp [alloc, size]

/-- Changing a node keeps their number. -/
@[simp] theorem size_modify (t : Tree) (id : NodeId) (change : Node → Node) :
    (t.modify id change).size = t.size := by
  simp [modify, size]

/-- The new node is unattached and the others are as before. -/
theorem node?_alloc (t : Tree) (kind : NodeKind) (id : NodeId) :
    (t.alloc kind).2.node? id = if id = t.size then some { kind } else t.node? id :=
  Array.getElem?_push

/-- A change of one node leaves the others as they were. -/
theorem node?_modify (t : Tree) (id : NodeId) (change : Node → Node) (other : NodeId) :
    (t.modify id change).node? other =
      if id = other then (t.node? other).map change else t.node? other := by
  simp [modify, node?, Array.getElem?_modify]

/-- Appending succeeds exactly if both nodes exist. -/
theorem isSome_append? (t : Tree) (parent child : NodeId) :
    (t.append? parent child).isSome = true ↔ parent < t.size ∧ child < t.size := by
  unfold append?
  split
  · split <;> simp_all
  · simp_all

end Tree

end Selectors
