import Selectors.Text

/-!
# Pseudo-elements — what a selector may add to an element

A selector may end in a pseudo-element, such as the first line of the element that it selects.
Pseudo-elements take no part in matching: they are handed back with each match.
-/

namespace Selectors

/-- The known pseudo-elements. -/
inductive PseudoElement where
  | before
  | after
  | firstLine
  | firstLetter
  | marker
  | placeholder
  | selection
  | backdrop
deriving DecidableEq, Repr

namespace PseudoElement

/-- All pseudo-elements. -/
def all : List PseudoElement :=
  [before, after, firstLine, firstLetter, marker, placeholder, selection, backdrop]

/-- The name of a pseudo-element. -/
def name : PseudoElement → String
  | before => "before"
  | after => "after"
  | firstLine => "first-line"
  | firstLetter => "first-letter"
  | marker => "marker"
  | placeholder => "placeholder"
  | selection => "selection"
  | backdrop => "backdrop"

/-- The pseudo-element of a name in any letter case. -/
def ofName? (name : String) : Option PseudoElement :=
  all.find? fun p => sameUpToCase p.name name

/-- What is said about a name that no pseudo-element has. -/
def unknownNameMessage : String := "Matching variant not found"

/-- Whether one colon is enough in front of the name, as it once was for the oldest four. -/
def allowsSingleColon : PseudoElement → Bool
  | before | after | firstLine | firstLetter => true
  | marker | placeholder | selection | backdrop => false

/-- No pseudo-element is missing from the list. -/
theorem mem_all (p : PseudoElement) : p ∈ all := by
  cases p <;> decide

/-- The name of a pseudo-element leads back to it. -/
theorem ofName?_name (p : PseudoElement) : ofName? p.name = some p := by
  cases p <;> decide +kernel

end PseudoElement

end Selectors
