import Selectors.Nth
import Selectors.PseudoElement
import Selectors.Specificity
import Selectors.Tree.Element

/-!
# Selectors — conditions on elements and how they are joined

A *simple* selector is one condition on an element. A *compound* selector is a list of simple
ones that all have to hold. A *complex* selector is a compound, or a complex selector to the left
of a compound that is reached from it through a combinator; the compound on the right is the
*subject*. A selector may end in a pseudo-element.

Simple selectors are atoms, which look at one element only, or they hold lists of complex
selectors, and so the two kinds are defined together.

* **`Complex.subject`** and **`Complex.chain`** — a complex selector seen from its subject, the
  compounds to the left of it from right to left.
* **`Complex.specificity`** — the weight of a complex selector, the sum over its compounds.
-/

namespace Selectors

/-- The namespace that an attribute has to be in. -/
inductive AttributeScope where
  /-- No namespace. -/
  | none
  /-- Any namespace, or none. -/
  | any
  /-- The namespace of a URL. -/
  | url (url : String)
deriving DecidableEq, Repr

/-- How the value of an attribute is compared. -/
inductive AttributeOperator where
  /-- The value is the expected one. -/
  | equals
  /-- A word of the value is the expected one. -/
  | includesWord
  /-- The value is the expected one, or starts with it and a hyphen. -/
  | dashMatch
  | beginsWith
  | endsWith
  | contains
deriving DecidableEq, Repr

/-- The sign that an operator is written with. -/
def AttributeOperator.sign : AttributeOperator → String
  | equals => "="
  | includesWord => "~="
  | dashMatch => "|="
  | beginsWith => "^="
  | endsWith => "$="
  | contains => "*="

/-- A condition on an attribute: that it is there and, if a value is expected, how its own value
    compares. -/
structure AttributeTest where
  scope : AttributeScope
  name : String
  expected? : Option (AttributeOperator × String)
deriving DecidableEq, Repr

/-- States that an element of a document at rest is never in. -/
inductive DynamicState where
  | hover
  | active
  | focus
  | visited
  | target
  | focusWithin
  | focusVisible
  | current
  | past
  | future
deriving DecidableEq, Repr

namespace DynamicState

/-- All dynamic states. -/
def all : List DynamicState :=
  [hover, active, focus, visited, target, focusWithin, focusVisible, current, past, future]

/-- The name of a dynamic state. -/
def name : DynamicState → String
  | hover => "hover"
  | active => "active"
  | focus => "focus"
  | visited => "visited"
  | target => "target"
  | focusWithin => "focus-within"
  | focusVisible => "focus-visible"
  | current => "current"
  | past => "past"
  | future => "future"

end DynamicState

/-- Pseudo-classes without selectors inside. -/
inductive PseudoClass where
  | root
  | empty
  | firstChild
  | lastChild
  | onlyChild
  | firstOfType
  | lastOfType
  | onlyOfType
  /-- The place among the siblings, counted in some way, is one of those named. -/
  | nth (count : Count) (places : Nth)
  /-- The language matches a range. -/
  | lang (range : String)
  | link
  | enabled
  | disabled
  | checked
  | dynamic (state : DynamicState)
deriving DecidableEq, Repr

/-- A condition on an element that holds no other selectors. -/
inductive Atom where
  | typeName (name : String)
  /-- The element is in a namespace; the empty URL stands for none. -/
  | inNamespace (url : String)
  | id (name : String)
  | className (name : String)
  | attribute (test : AttributeTest)
  | pseudoClass (pseudoClass : PseudoClass)
deriving DecidableEq, Repr

/-- How the element on the left of a combinator is reached from the one on its right. -/
inductive Combinator where
  /-- As one of its ancestors. -/
  | descendant
  /-- As its parent. -/
  | child
  /-- As the sibling before it. -/
  | nextSibling
  /-- As one of the siblings before it. -/
  | subsequentSibling
deriving DecidableEq, Repr

/-- The sign of a combinator. -/
def Combinator.sign : Combinator → String
  | descendant => " "
  | child => ">"
  | nextSibling => "+"
  | subsequentSibling => "~"

mutual

/-- One condition on an element. -/
inductive Simple where
  | atom (atom : Atom)
  /-- No selector of the list holds. -/
  | negation (list : List Complex)
  /-- Some selector of the list holds. -/
  | isAny (list : List Complex)
  /-- Some selector of the list holds, without weight. -/
  | whereAny (list : List Complex)

/-- Compounds joined by combinators. -/
inductive Complex where
  | compound (simples : List Simple)
  | relative (left : Complex) (combinator : Combinator) (simples : List Simple)

end

instance : Inhabited Simple := ⟨.isAny []⟩

instance : Inhabited Complex := ⟨.compound []⟩

namespace Complex

/-- The compound on the right. -/
def subject : Complex → List Simple
  | compound simples => simples
  | relative _ _ simples => simples

/-- The combinators and the compounds that they lead to, from the subject leftwards. -/
def chain : Complex → List (Combinator × List Simple)
  | compound _ => []
  | relative left combinator _ => (combinator, left.subject) :: left.chain

end Complex

/-! ## Weights -/

/-- The weight of an atom; namespaces weigh nothing. -/
def Atom.specificity : Atom → Specificity
  | .typeName _ => .ofType
  | .inNamespace _ => 0
  | .id _ => .ofId
  | .className _ | .attribute _ | .pseudoClass _ => .ofClass

mutual

/-- The weight of a simple selector: of a list of selectors that of the greatest one. -/
def Simple.specificity : Simple → Specificity
  | .atom a => a.specificity
  | .negation list => greatestSpecificity list
  | .isAny list => greatestSpecificity list
  | .whereAny _ => 0

/-- The weight of a complex selector: the sum over its simple selectors. -/
def Complex.specificity : Complex → Specificity
  | .compound simples => totalSpecificity simples
  | .relative left _ simples => left.specificity + totalSpecificity simples

/-- The sum of the weights of a compound. -/
def totalSpecificity : List Simple → Specificity
  | [] => 0
  | simple :: rest => simple.specificity + totalSpecificity rest

/-- The greatest weight in a list of complex selectors. -/
def greatestSpecificity : List Complex → Specificity
  | [] => 0
  | complex :: rest => max complex.specificity (greatestSpecificity rest)

end

/-- The greatest weight of a list is the maximum over its selectors. -/
theorem greatestSpecificity_eq_maximum (list : List Complex) :
    greatestSpecificity list = Specificity.maximum (list.map Complex.specificity) := by
  induction list with
  | nil => rfl
  | cons complex rest ih => simp [greatestSpecificity, Specificity.maximum, ih]

/-! ## Selectors -/

/-- A complex selector with the pseudo-element that it ends in. -/
structure Selector where
  complex : Complex
  pseudoElement? : Option PseudoElement
deriving Inhabited

/-- The weight of a selector, its pseudo-element included. -/
def Selector.specificity (selector : Selector) : Specificity :=
  match selector.pseudoElement? with
  | some _ => selector.complex.specificity + .ofType
  | none => selector.complex.specificity

end Selectors
