import Selectors.PseudoElement
import Selectors.Token

/-!
# Selector errors — why a selector list is refused

One fault anywhere refuses the whole list, and the first one met is reported. A `SelectorError`
is the cause of a refusal; `SelectorError.message` is what is said about it.
-/

namespace Selectors

/-- What the reader was waiting for. -/
inductive Expected where
  | comma
  | combinator
  | compound
  | elementName
  | identifier
  | className
  | pseudoName
  | closingParen
  | attributeName
  | attributeOperator
  | languageRange
  | languageEnd
deriving DecidableEq, Repr

/-- The words for what the reader was waiting for. -/
def Expected.text : Expected → String
  | comma => "',' between selectors"
  | combinator => "a combinator or ','"
  | compound => "a compound selector"
  | elementName => "an element name after '|'"
  | identifier => "an identifier after '#'"
  | className => "a class name after '.'"
  | pseudoName => "a pseudo-class or pseudo-element name"
  | closingParen => "')'"
  | attributeName => "an attribute name"
  | attributeOperator => "an attribute operator or ']'"
  | languageRange => "a language range"
  | languageEnd => "')' after the language range"

/-- What is wrong with an attribute selector whose name could be read. -/
inductive AttributeFault where
  | unknownOperator (sign : Char)
  | missingValue (name : String)
  | unclosed (name : String)
deriving DecidableEq, Repr

/-- The words for a fault of an attribute selector. -/
def AttributeFault.text : AttributeFault → String
  | unknownOperator sign => "unknown operator '" ++ String.singleton sign ++ "='"
  | missingValue name => "expected an identifier or string value for '" ++ name ++ "'"
  | unclosed name => "expected ']' after the value of '" ++ name ++ "'"

/-- Why a selector list is refused. -/
inductive SelectorError where
  /-- An entry of a list is missing. -/
  | empty
  /-- A token stands where something else has to. -/
  | unexpectedToken (found : Token) (expected : Expected)
  /-- The text ends too early. -/
  | unexpectedEnd (expected : Expected)
  /-- No pseudo-class has this name, written with arguments or without. -/
  | unknownPseudoClass (name : String) (withArguments : Bool)
  /-- No pseudo-element has this name, written with arguments or without. -/
  | unknownPseudoElement (name : String) (withArguments : Bool)
  /-- Something follows a pseudo-element, or it stands inside of another selector. -/
  | misplacedPseudoElement (pseudoElement : PseudoElement)
  /-- A namespace is named that was not declared. -/
  | undeclaredNamespace (name : String)
  /-- The argument of a positional pseudo-class is none. -/
  | invalidNth (text : String)
  | invalidAttribute (fault : AttributeFault)
deriving DecidableEq, Repr

namespace SelectorError

/-- A name as it was written: with parentheses if it had arguments. -/
def written (name : String) (withArguments : Bool) : String :=
  if withArguments then name ++ "()" else name

/-- What is said about an error. -/
def message : SelectorError → String
  | empty => "empty selector"
  | unexpectedToken found expected =>
    "unexpected '" ++ found.text ++ "', expected " ++ expected.text
  | unexpectedEnd expected => "unexpected end of selector, expected " ++ expected.text
  | unknownPseudoClass name withArguments =>
    "unknown pseudo-class ':" ++ written name withArguments ++ "'"
  | unknownPseudoElement name withArguments =>
    "unknown pseudo-element '::" ++ written name withArguments ++ "'"
  | misplacedPseudoElement pseudoElement =>
    "pseudo-element '::" ++ pseudoElement.name ++ "' must be at the end of a selector"
  | undeclaredNamespace name => "undeclared namespace prefix '" ++ name ++ "'"
  | invalidNth text => "invalid An+B expression '" ++ text ++ "'"
  | invalidAttribute fault => "invalid attribute selector: " ++ fault.text

/-- The error of finding the first of `rest`, or the end, where something else has to stand. -/
def unexpected (rest : List Token) (expected : Expected) : SelectorError :=
  match rest with
  | [] => unexpectedEnd expected
  | found :: _ => unexpectedToken found expected

end SelectorError

end Selectors
