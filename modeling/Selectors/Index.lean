import Selectors.Query
import Selectors.Test.Accepts
import Std.Data.HashMap

/-!
# The index — finding the selectors that match an element

An index files every selector in one bucket, by the first of its keys in the order id, class,
name, namespace and `lang` attribute, or in the bucket of those without keys. An element asks
only for the buckets whose keys it has, and evaluates the tests that it finds there.

Selectors are numbered in the order in which they are added, those that never match included,
although they are not stored. Matches come in ascending order of weight and then of number, so
that of two matches the later one prevails.

* **`add`** — the index with one more selector.
* **`lookup`** — the matches of an element, given its `Facts` and the tests that it passes.
-/

namespace Selectors

/-- What a bucket of the index is filed under. -/
inductive BucketKey where
  | id (name : String)
  | className (name : String)
  /-- A name in lower case. -/
  | localName (name : String)
  | namespaceUrl (url : String)
  | lang
  | other
deriving DecidableEq, Hashable

/-- The bucket of a selector with these keys. -/
def Keys.bucket (keys : Keys) : BucketKey :=
  match keys.id?, keys.className?, keys.localName?, keys.namespaceUrl?, keys.needsLang with
  | some name, _, _, _, _ => .id name
  | none, some name, _, _, _ => .className name
  | none, none, some name, _, _ => .localName (keys.lowerLocalName?.getD name.toLower)
  | none, none, none, some url, _ => .namespaceUrl url
  | none, none, none, none, true => .lang
  | none, none, none, none, false => .other

/-- What an index asks about an element. -/
structure Facts where
  id? : Option String
  classes : List String
  localName : String
  namespaceUrl : String
  hasLang : Bool

/-- The buckets that hold what may match an element. -/
def Facts.buckets (facts : Facts) : List BucketKey :=
  facts.id?.toList.map .id ++ facts.classes.map .className ++
    [.localName facts.localName.toLower, .namespaceUrl facts.namespaceUrl] ++
    (if facts.hasLang then [.lang] else []) ++ [.other]

/-- The facts of an element of a tree. -/
def Element.facts {t : Tree} (e : Element t) : Facts where
  id? := e.data.id?
  classes := e.data.classes
  localName := e.data.localName
  namespaceUrl := e.data.namespaceUrl
  hasLang := e.hasLang

/-- What is known of a selector that matches: its weight, its number, and what it was added
    with. -/
structure Match (P : Type) where
  specificity : Specificity
  order : Nat
  pseudoElement? : Option PseudoElement
  payload : P
deriving DecidableEq

/-- Whether a match comes no later than another one: it has less weight, or the same and no
    higher number. -/
def Match.precedes {P : Type} (a b : Match P) : Bool :=
  a.specificity < b.specificity || (a.specificity == b.specificity && a.order ≤ b.order)

/-- A selector in a bucket. -/
structure Entry (T P : Type) extends Match P where
  test : T

/-- Selectors with their payloads, filed by their keys. -/
structure Index (T P : Type) where
  buckets : Std.HashMap BucketKey (List (Entry T P)) := {}
  /-- The number of selectors added, stored or not. -/
  order : Nat := 0

namespace Index

variable {T P : Type}

/-- The index without selectors. -/
def empty : Index T P := {}

/-- The selectors of a bucket, the one added last in front. -/
def bucket (index : Index T P) (key : BucketKey) : List (Entry T P) :=
  index.buckets.getD key []

/-- The index with one more selector. -/
def add (index : Index T P) (selector : CompiledSelector T) (payload : P) : Index T P :=
  let order := index.order + 1
  if selector.neverMatches then { index with order }
  else
    let entry : Entry T P :=
      { test := selector.test
        specificity := selector.specificity
        order
        pseudoElement? := selector.pseudoElement?
        payload }
    -- the newest selector stands in front; `lookup` sorts by number
    let key := selector.keys.bucket
    { buckets := index.buckets.insert key (entry :: index.bucket key), order }

/-- The index with the selectors of a list, all with the same payload. -/
def addAll (index : Index T P) (selectors : List (CompiledSelector T)) (payload : P) :
    Index T P :=
  selectors.foldl (fun index selector => index.add selector payload) index

/-- The number of selectors stored. -/
def size (index : Index T P) : Nat :=
  index.buckets.toList.foldl (fun size bucket => size + bucket.2.length) 0

/-- Whether no selector is stored. -/
def isEmpty (index : Index T P) : Bool :=
  index.size == 0

/-- The matches of an element, in ascending order. -/
def lookup (index : Index T P) (facts : Facts) (accepts : T → Bool) : List (Match P) :=
  let candidates := facts.buckets.flatMap index.bucket
  ((candidates.filter (accepts ·.test)).map Entry.toMatch).mergeSort Match.precedes

/-- The matches of an element of a tree. -/
def matchElement {t : Tree} (index : Index Test P) (e : Element t) : List (Match P) :=
  index.lookup e.facts (·.accepts e)

/-! ## What adding does -/

/-- A list is added as its parts are, one after the other. -/
theorem addAll_append (index : Index T P) (first second : List (CompiledSelector T))
    (payload : P) :
    index.addAll (first ++ second) payload =
      (index.addAll first payload).addAll second payload :=
  List.foldl_append

/-- Every selector that is added counts, whether it is stored or not. -/
theorem order_add (index : Index T P) (selector : CompiledSelector T) (payload : P) :
    (index.add selector payload).order = index.order + 1 := by
  simp only [add]
  split <;> rfl

/-- Adding a selector that never matches leaves every bucket as it was. -/
theorem bucket_add_of_never (index : Index T P) {selector : CompiledSelector T} (payload : P)
    (h : selector.neverMatches = true) (key : BucketKey) :
    (index.add selector payload).bucket key = index.bucket key := by
  simp [add, h, bucket]

/-- Adding a selector puts it in front of its bucket and leaves the others as they were. -/
theorem bucket_add (index : Index T P) {selector : CompiledSelector T} (payload : P)
    (h : selector.neverMatches = false) (key : BucketKey) :
    (index.add selector payload).bucket key =
      if selector.keys.bucket = key then
        ⟨⟨selector.specificity, index.order + 1, selector.pseudoElement?, payload⟩,
          selector.test⟩ :: index.bucket key
      else index.bucket key := by
  by_cases eq : selector.keys.bucket = key <;>
    simp [add, h, bucket, Std.HashMap.getD_insert, eq]

end Index

end Selectors
