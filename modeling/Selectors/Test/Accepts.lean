import Selectors.Test.Basic
import Selectors.Text
import Selectors.Tree.Element

/-!
# Which elements a test accepts

An atom looks at one element; a test that holds another one through a combinator goes to every
element that the combinator leads to. In an HTML document the names of elements and attributes
are compared in lower case, otherwise as they are written.

* **`Test.accepts`** — whether a test accepts an element, with **`accepts_all`** and
  **`accepts_any`** for lists of tests.
* **`accepts_allOf`**, **`accepts_anyOf`**, **`accepts_negation`**, **`accepts_joined`** — a
  folded test accepts what the unfolded one would.
-/

namespace Selectors

/-! ## Attributes -/

/-- Whether a value compares with the expected one. -/
def AttributeOperator.holds (operator : AttributeOperator) (value expected : String) : Bool :=
  match operator with
  | equals => value == expected
  | includesWord => (words value).contains expected
  | dashMatch =>
    match expected.toList.isPrefixOf? value.toList with
    | some [] => true
    | some (c :: _) => c == '-'
    | none => false
  | beginsWith => expected.toList.isPrefixOf value.toList
  | endsWith => expected.toList.isSuffixOf value.toList
  | contains =>
    -- the instance is named, as Mathlib has a second one
    @decide (expected.toList <:+: value.toList) (List.instDecidableIsInfixOfDecidableEq _ _)

/-- The name of an attribute without its namespace: what follows the last closing brace. -/
def localPart (name : String) : String :=
  String.ofList (name.toList.reverse.takeWhile (· != '\x7d')).reverse

/-- A name of an element or attribute as it is compared. -/
def nameIn (isHtml : Bool) (name : String) : String :=
  if isHtml then name.toLower else name

namespace AttributeTest

/-- Whether an attribute of any namespace has the name, as written or in lower case. -/
def fits (test : AttributeTest) (name : String) : Bool :=
  localPart name == test.name || localPart name == test.name.toLower

/-- The value of the attribute that is looked at. For any namespace it is the first attribute with the
    name, in the order in which this element has its attributes. -/
def value? (test : AttributeTest) (isHtml : Bool) (data : ElementData) : Option String :=
  match test.scope with
  | .none => data.attribute? (nameIn isHtml test.name)
  | .url url => data.attribute? ("\x7b" ++ url ++ "\x7d" ++ test.name)
  | .any => (data.attributes.entries.find? fun (name, _) => test.fits name).map Prod.snd

/-- Whether the attributes of an element pass. -/
def accepts (test : AttributeTest) (isHtml : Bool) (data : ElementData) : Bool :=
  match test.value? isHtml data, test.expected? with
  | none, _ => false
  | some _, none => true
  | some value, some (operator, expected) => operator.holds value expected

end AttributeTest

/-! ## Pseudo-classes -/

/-- Whether a language is in a range: it is the range up to case, or goes on with a hyphen
    after it. -/
def languageMatches (language range : String) : Bool :=
  match cutAt (byteCount range.toList) language.toList with
  | none => false
  | some (front, rest) =>
    sameUpToCase (String.ofList front) range && (rest.isEmpty || rest.head? == some '-')

/-- The HTML elements that can be links. -/
def linkNames : List String := ["a", "area", "link"]

/-- The HTML elements that can be disabled. -/
def controlNames : List String :=
  ["button", "input", "select", "textarea", "optgroup", "option", "fieldset"]

namespace Element

variable {t : Tree}

/-- Whether the element has an attribute. -/
def has (e : Element t) (name : String) : Bool :=
  (e.data.attribute? name).isSome

/-- Whether the element is an HTML element with one of the names. -/
def isHtmlOneOf (e : Element t) (names : List String) : Bool :=
  e.isHtml && names.contains e.data.localName

/-- Whether the `type` attribute of an input makes it a box that is ticked. -/
def isTickable (e : Element t) : Bool :=
  match e.data.attribute? "type" with
  | some type => sameUpToCase type "checkbox" || sameUpToCase type "radio"
  | none => false

/-- Whether the element is a ticked box or a selected option. -/
def isChecked (e : Element t) : Bool :=
  (e.isHtmlOneOf ["input"] && e.has "checked" && e.isTickable) ||
    (e.isHtmlOneOf ["option"] && e.has "selected")

end Element

/-- Whether an element is in a pseudo-class. -/
def PseudoClass.accepts {t : Tree} (pseudoClass : PseudoClass) (e : Element t) : Bool :=
  match pseudoClass with
  | root => e.isRoot
  | empty => e.isEmpty
  | firstChild => e.previous?.isNone
  | lastChild => e.next?.isNone
  | onlyChild => e.previous?.isNone && e.next?.isNone
  | firstOfType => e.position ⟨false, true⟩ == 1
  | lastOfType => e.position ⟨true, true⟩ == 1
  | onlyOfType => e.position ⟨false, true⟩ == 1 && e.position ⟨true, true⟩ == 1
  | nth count places => places.contains (e.position count)
  | lang range =>
    match e.language? with
    | some language => languageMatches language range
    | none => false
  | link => e.isHtmlOneOf linkNames && e.has "href"
  | enabled => e.isHtmlOneOf controlNames && !e.has "disabled"
  | disabled => e.isHtmlOneOf controlNames && e.has "disabled"
  | checked => e.isChecked
  | dynamic _ => false

/-! ## Tests -/

/-- Whether an element meets an atom. -/
def Atom.accepts {t : Tree} (atom : Atom) (e : Element t) : Bool :=
  match atom with
  | .typeName name => e.data.localName == nameIn t.isHtml name
  | .inNamespace url => e.data.namespaceUrl == url
  | .id name => e.data.id? == some name
  | .className name => e.data.classes.contains name
  | .attribute test => test.accepts t.isHtml e.data
  | .pseudoClass p => p.accepts e

/-- The elements that a combinator leads to, nearest first. -/
def Combinator.reached {t : Tree} (combinator : Combinator) (e : Element t) : List (Element t) :=
  match combinator with
  | descendant => e.ancestors
  | child => e.parent?.toList
  | nextSibling => e.previous?.toList
  | subsequentSibling => e.preceding

namespace Test

mutual

/-- Whether a test accepts an element. -/
def accepts {t : Tree} : Test → Element t → Bool
  | .never, _ => false
  | .always, _ => true
  | .all tests, e => acceptsAll tests e
  | .any tests, e => acceptsAny tests e
  | .not test, e => !accepts test e
  | .atom a, e => a.accepts e
  | .relative left combinator right, e =>
    accepts right e && (combinator.reached e).any (accepts left)

/-- Whether every test of a list accepts an element. -/
def acceptsAll {t : Tree} : List Test → Element t → Bool
  | [], _ => true
  | test :: tests, e => accepts test e && acceptsAll tests e

/-- Whether some test of a list accepts an element. -/
def acceptsAny {t : Tree} : List Test → Element t → Bool
  | [], _ => false
  | test :: tests, e => accepts test e || acceptsAny tests e

end

/-- A conjunction accepts what all of its parts accept. -/
theorem accepts_all {t : Tree} (tests : List Test) (e : Element t) :
    (all tests).accepts e = tests.all (·.accepts e) := by
  rw [accepts]
  induction tests with
  | nil => rfl
  | cons test tests ih => simp [acceptsAll, ih]

/-- A disjunction accepts what one of its parts accepts. -/
theorem accepts_any {t : Tree} (tests : List Test) (e : Element t) :
    (any tests).accepts e = tests.any (·.accepts e) := by
  rw [accepts]
  induction tests with
  | nil => rfl
  | cons test tests ih => simp [acceptsAny, ih]

/-! ## Folding keeps the meaning -/

/-- What is folded into one test accepts what all of the tests accept. -/
theorem accepts_allOf {t : Tree} (tests : List Test) (e : Element t) :
    (allOf tests).accepts e = tests.all (·.accepts e) := by
  -- a test that always holds adds no condition
  have kept : (tests.filter (!·.isAlways)).all (·.accepts e) = tests.all (·.accepts e) := by
    rw [List.all_filter]
    refine List.all_congr rfl fun test => ?_
    cases test <;> simp [isAlways, accepts]
  unfold allOf
  split
  case isTrue h =>
    obtain ⟨test, mem, never⟩ := List.any_eq_true.1 h
    obtain rfl := isNever_iff.1 never
    exact (List.all_eq_false.2 ⟨_, mem, by simp [accepts]⟩).symm
  case isFalse =>
    rw [← kept]
    split
    · next none => rw [none, accepts, List.all_nil]
    · next one => rw [one, List.all_cons, List.all_nil, Bool.and_true]
    · exact accepts_all _ e

/-- What is folded into one test accepts what some of the tests accepts. -/
theorem accepts_anyOf {t : Tree} (tests : List Test) (e : Element t) :
    (anyOf tests).accepts e = tests.any (·.accepts e) := by
  -- a test that never holds adds no alternative
  have kept : (tests.filter (!·.isNever)).any (·.accepts e) = tests.any (·.accepts e) := by
    rw [List.any_filter]
    refine List.any_congr rfl fun test => ?_
    cases test <;> simp [isNever, accepts]
  unfold anyOf
  split
  case isTrue h =>
    obtain ⟨test, mem, always⟩ := List.any_eq_true.1 h
    obtain rfl := isAlways_iff.1 always
    exact (List.any_eq_true.2 ⟨_, mem, by simp [accepts]⟩).symm
  case isFalse =>
    rw [← kept]
    split
    · next none => rw [none, accepts, List.any_nil]
    · next one => rw [one, List.any_cons, List.any_nil, Bool.or_false]
    · exact accepts_any _ e

/-- Folding a negation does not change what it accepts. -/
theorem accepts_negation {t : Tree} (test : Test) (e : Element t) :
    test.negation.accepts e = !test.accepts e := by
  cases test <;> simp [negation, accepts]

/-- Folding a joint does not change what it accepts. -/
theorem accepts_joined {t : Tree} (left : Test) (combinator : Combinator) (right : Test)
    (e : Element t) :
    (joined left combinator right).accepts e =
      (right.accepts e && (combinator.reached e).any left.accepts) := by
  unfold joined
  split
  case isTrue h =>
    rcases Bool.or_eq_true_iff.1 h with h | h
    · obtain rfl := isNever_iff.1 h
      simp [accepts]
    · obtain rfl := isNever_iff.1 h
      simp [accepts]
  case isFalse => rw [accepts]

end Test

end Selectors
