import Selectors.Proofs.RoundTrip.Positions
import Selectors.Selector.Reader

/-!
# Canonical text — one way to write a selector list

Every compound is written with a type, in front of which stands what yields its namespace: a bar
for none, nothing for the default namespace, a short name for any other one, and an asterisk with a
bar where no namespace is asked for. Conditions on type and namespace stand at the start of a
compound and are written there only. Names are in escapes, but those of pseudo-classes and
pseudo-elements, which follow a colon, stand as they are.

A list can be written if its names can, its namespaces have a spelling, and it has the shape that a
list has in text; `IsWritable` is that condition.

* **`canonicalText`** — the text of a selector list.
* **`Complex.IsWritable`** and **`SelectorsWritable`** — what can be written.
-/

namespace Selectors

open Lexer

/-! ## Namespaces -/

/-- Whether a short name can be written. -/
def canWrite (name : String) : Bool :=
  name != "" && !name.toList.contains (Char.ofNat 0)

/-- The check for names that can be written is the property. -/
theorem canWrite_iff {name : String} : canWrite name = true ↔ IsName name := by
  unfold canWrite IsName NulFree
  rw [Bool.and_eq_true, bne_iff_ne, Bool.not_eq_true', ← Bool.not_eq_true, List.contains_iff_mem]
  refine and_congr_right fun _ => ?_
  constructor
  · rintro hnot c hc rfl
    exact hnot hc
  · intro hall hmem
    exact hall _ hmem rfl

/-- A short name for a URL that can be written. -/
def Namespaces.short? (namespaces : Namespaces) (url : String) : Option String :=
  (namespaces.declared.entries.find? fun (short, declared) =>
    declared == url && canWrite short).map Prod.fst

/-- A short name that is found is declared with the URL and can be written. -/
theorem Namespaces.short?_eq_some {namespaces : Namespaces} {url short : String}
    (h : namespaces.short? url = some short) :
    namespaces.declared.get? short = some url ∧ IsName short := by
  obtain ⟨⟨name, declared⟩, hfind, rfl⟩ := Option.map_eq_some_iff.1 h
  have hboth := List.find?_some hfind
  dsimp only at hboth
  obtain ⟨hurl, hname⟩ := Bool.and_eq_true_iff.1 hboth
  obtain rfl := beq_iff_eq.1 hurl
  exact ⟨NameMap.get?_eq_some_iff.2 (List.mem_of_find?_eq_some hfind), canWrite_iff.1 hname⟩

/-- If the URL has a short name that can be written, one is found. -/
theorem Namespaces.exists_short? {namespaces : Namespaces} {url short : String}
    (hurl : namespaces.declared.get? short = some url) (hname : IsName short) :
    ∃ name, namespaces.short? url = some name := by
  unfold Namespaces.short?
  cases hfind : namespaces.declared.entries.find? fun (short, declared) =>
      declared == url && canWrite short with
  | some entry => exact ⟨entry.1, rfl⟩
  | none =>
    -- the declared prefix itself can be written, so the search cannot fail
    have hnot := List.find?_eq_none.1 hfind _ (NameMap.get?_eq_some_iff.1 hurl)
    refine absurd ?_ hnot
    rw [Bool.and_eq_true]
    exact ⟨beq_self_eq_true _, canWrite_iff.2 hname⟩

/-! ## Tokens -/

/-- A short name in front of a bar. -/
def shortTokens (namespaces : Namespaces) (url : String) : List Token :=
  (namespaces.short? url).toList.flatMap fun short => [.ident short, .delim '|']

/-- What stands in front of the name of an element. -/
def qualifierTokens (namespaces : Namespaces) : Option String → List Token
  | none => [.delim '*', .delim '|']
  | some url =>
    if url = "" then [.delim '|']
    else if namespaces.default? = some url then []
    else shortTokens namespaces url

/-- The name of an element, or an asterisk. -/
def elementNameTokens : Option String → List Token
  | some name => [.ident name]
  | none => [.delim '*']

/-- The type name that a compound asks for. -/
def typeName? (simples : List Simple) : Option String :=
  simples.findSome? fun
    | .atom (.typeName name) => some name
    | _ => none

/-- The namespace that a compound asks for. -/
def typeUrl? (simples : List Simple) : Option String :=
  simples.findSome? fun
    | .atom (.inNamespace url) => some url
    | _ => none

/-- The type of a compound. -/
def typeTokens (namespaces : Namespaces) (simples : List Simple) : List Token :=
  qualifierTokens namespaces (typeUrl? simples) ++ elementNameTokens (typeName? simples)

/-- What stands in front of the name of an attribute. -/
def AttributeScope.tokens (namespaces : Namespaces) : AttributeScope → List Token
  | .none => []
  | .any => [.delim '*', .delim '|']
  | .url declared => shortTokens namespaces declared

/-- The operator and the value that an attribute is compared with. -/
def expectedTokens : Option (AttributeOperator × String) → List Token
  | none => []
  | some (operator, value) => operator.sign.toList.map .delim ++ [.string value]

/-- A condition on an attribute in its brackets. -/
def AttributeTest.tokens (namespaces : Namespaces) (test : AttributeTest) : List Token :=
  [.leftBracket] ++ test.scope.tokens namespaces ++ [.ident test.name] ++
    expectedTokens test.expected? ++ [.rightBracket]

/-- The name of a way to count. -/
def Count.name : Count → String
  | ⟨false, false⟩ => "nth-child"
  | ⟨true, false⟩ => "nth-last-child"
  | ⟨false, true⟩ => "nth-of-type"
  | ⟨true, true⟩ => "nth-last-of-type"

/-- The name of a pseudo-class. -/
def PseudoClass.name : PseudoClass → String
  | root => "root"
  | empty => "empty"
  | firstChild => "first-child"
  | lastChild => "last-child"
  | onlyChild => "only-child"
  | firstOfType => "first-of-type"
  | lastOfType => "last-of-type"
  | onlyOfType => "only-of-type"
  | nth count _ => count.name
  | lang _ => "lang"
  | link => "link"
  | enabled => "enabled"
  | disabled => "disabled"
  | checked => "checked"
  | dynamic state => state.name

/-- A function with its arguments. -/
def functionTokens (name : String) (arguments : List Token) : List Token :=
  [.colon, .function name] ++ arguments ++ [.rightParen]

/-- A pseudo-class, with its arguments if it has some. -/
def PseudoClass.tokens : PseudoClass → List Token
  | nth count places => functionTokens count.name places.tokens
  | lang range => functionTokens "lang" [.string range]
  | pseudoClass => [.colon, .ident pseudoClass.name]

/-- A condition; those on the type are written at the start of the compound. -/
def Atom.tokens (namespaces : Namespaces) : Atom → List Token
  | .typeName _ => []
  | .inNamespace _ => []
  | .id name => [.hash name true]
  | .className name => [.delim '.', .ident name]
  | .attribute test => test.tokens namespaces
  | .pseudoClass p => p.tokens

/-- A combinator. -/
def Combinator.token : Combinator → Token
  | descendant => .blank
  | child => .delim '>'
  | nextSibling => .delim '+'
  | subsequentSibling => .delim '~'

mutual

/-- A simple selector. -/
def Simple.tokens (namespaces : Namespaces) : Simple → List Token
  | .atom a => a.tokens namespaces
  | .negation list => functionTokens "not" (listTokens namespaces list)
  | .isAny list => functionTokens "is" (listTokens namespaces list)
  | .whereAny list => functionTokens "where" (listTokens namespaces list)

/-- A complex selector. -/
def Complex.tokens (namespaces : Namespaces) : Complex → List Token
  | .compound simples => typeTokens namespaces simples ++ conditionTokens namespaces simples
  | .relative left combinator simples =>
    left.tokens namespaces ++ [combinator.token] ++
      (typeTokens namespaces simples ++ conditionTokens namespaces simples)

/-- The conditions of a compound after its type. -/
def conditionTokens (namespaces : Namespaces) : List Simple → List Token
  | [] => []
  | simple :: rest => simple.tokens namespaces ++ conditionTokens namespaces rest

/-- The selectors of an inner list, with commas between. -/
def listTokens (namespaces : Namespaces) : List Complex → List Token
  | [] => []
  | [complex] => complex.tokens namespaces
  | complex :: next :: rest =>
    complex.tokens namespaces ++ [.comma] ++ listTokens namespaces (next :: rest)

end

/-- A pseudo-element with its colons. -/
def endingTokens : Option PseudoElement → List Token
  | none => []
  | some pseudoElement => [.colon, .colon, .ident pseudoElement.name]

/-- A selector with its pseudo-element. -/
def Selector.tokens (namespaces : Namespaces) (selector : Selector) : List Token :=
  selector.complex.tokens namespaces ++ endingTokens selector.pseudoElement?

/-- The selectors of a list, with commas between. -/
def selectorTokens (namespaces : Namespaces) : List Selector → List Token
  | [] => []
  | [selector] => selector.tokens namespaces
  | selector :: next :: rest =>
    selector.tokens namespaces ++ [.comma] ++ selectorTokens namespaces (next :: rest)

/-- The canonical text of a selector list. -/
def canonicalText (namespaces : Namespaces) (selectors : List Selector) : String :=
  String.ofList (spell (selectorTokens namespaces selectors))

/-! ## What can be written -/

/-- The namespace of a type has a spelling. -/
def HasSpelling (namespaces : Namespaces) (url : String) : Prop :=
  url = "" ∨ namespaces.default? = some url ∨ ∃ short, namespaces.short? url = some short

/-- A condition on an attribute can be written. -/
structure AttributeTest.IsWritable (namespaces : Namespaces) (test : AttributeTest) : Prop where
  name : IsName test.name
  scope : ∀ url, test.scope = .url url → ∃ short, namespaces.short? url = some short
  value : ∀ operator value, test.expected? = some (operator, value) → NulFree value.toList

/-- A pseudo-class can be written. -/
def PseudoClass.IsWritable : PseudoClass → Prop
  | nth _ places => places.step = 0 ∨ places.offset ≠ Int32.minValue
  | lang range => NulFree range.toList
  | _ => True

/-- An atom can be written. -/
def Atom.IsWritable (namespaces : Namespaces) : Atom → Prop
  | .typeName name => IsName name
  | .inNamespace url => HasSpelling namespaces url
  | .id name => IsName name
  | .className name => IsName name
  | .attribute test => test.IsWritable namespaces
  | .pseudoClass p => p.IsWritable

/-- A simple selector is a condition that may stand after the type. -/
def Simple.IsCondition : Simple → Prop
  | .atom (.typeName _) => False
  | .atom (.inNamespace _) => False
  | _ => True

/-- A compound has at most one type, at its start. -/
def TypeFirst (simples : List Simple) : Prop :=
  ∃ name? url? conditions, simples = Reader.typeConditions name? url? ++ conditions ∧
    ∀ simple ∈ conditions, simple.IsCondition

mutual

/-- A simple selector can be written. -/
def Simple.IsWritable (namespaces : Namespaces) : Simple → Prop
  | .atom a => a.IsWritable namespaces
  | .negation list => list ≠ [] ∧ ListWritable namespaces list
  | .isAny list => list ≠ [] ∧ ListWritable namespaces list
  | .whereAny list => list ≠ [] ∧ ListWritable namespaces list

/-- A complex selector can be written. -/
def Complex.IsWritable (namespaces : Namespaces) : Complex → Prop
  | .compound simples => TypeFirst simples ∧ CompoundWritable namespaces simples
  | .relative left _ simples =>
    left.IsWritable namespaces ∧ TypeFirst simples ∧ CompoundWritable namespaces simples

/-- All simple selectors of a compound can be written. -/
def CompoundWritable (namespaces : Namespaces) : List Simple → Prop
  | [] => True
  | simple :: rest => simple.IsWritable namespaces ∧ CompoundWritable namespaces rest

/-- All selectors of an inner list can be written. -/
def ListWritable (namespaces : Namespaces) : List Complex → Prop
  | [] => True
  | complex :: rest => complex.IsWritable namespaces ∧ ListWritable namespaces rest

end

/-- A selector list can be written. -/
def SelectorsWritable (namespaces : Namespaces) (selectors : List Selector) : Prop :=
  selectors ≠ [] ∧ ∀ selector ∈ selectors, selector.complex.IsWritable namespaces

end Selectors
