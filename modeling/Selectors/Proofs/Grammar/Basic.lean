import Selectors.Selector.Reader

/-!
# The grammar of selector lists

Which tokens make up a selector list, and which list it is, said by rules and without a reader.
Each relation goes from a list of tokens to what they stand for; a rule puts the tokens of its
parts side by side.

The rules of a list do not mention lists again: what stands between the parentheses of a
pseudo-class is given by a relation `Inner`, a parameter. The grammar is the relation `Derives`
that is its own `Inner`.

* **`TypePart`**, **`Attribute`**, **`Condition`**, **`Ending`** — the parts of a compound.
* **`Compound`**, **`Sequence`**, **`SelectorList`** — the levels above them.
* **`Derives`** — the grammar.
-/

namespace Selectors

namespace Grammar

/-- Tokens that are all blanks. -/
def Blanks (tokens : List Token) : Prop :=
  ∀ token ∈ tokens, token = Token.blank

/-! ## Types -/

/-- A name or an asterisk. -/
inductive ElementName : List Token → Option String → Prop where
  | name (name : String) : ElementName [.ident name] (some name)
  | asterisk : ElementName [.delim '*'] none

/-- What stands in front of the name of an element, and the namespace that it means, if one. -/
inductive Qualifier (namespaces : Namespaces) : List Token → Option String → Prop where
  | declared {short url : String} :
      namespaces.declared.get? short = some url →
      Qualifier namespaces [.ident short, .delim '|'] (some url)
  | any : Qualifier namespaces [.delim '*', .delim '|'] none
  | empty : Qualifier namespaces [.delim '|'] (some "")
  | absent : Qualifier namespaces [] namespaces.default?

/-- The type at the start of a compound; the default namespace belongs to a written one only. -/
inductive TypePart (namespaces : Namespaces) : List Token → List Simple → Prop where
  | absent : TypePart namespaces [] []
  | written {front back : List Token} {url? name? : Option String} :
      Qualifier namespaces front url? → ElementName back name? →
      TypePart namespaces (front ++ back) (Reader.typeConditions name? url?)

/-! ## Attributes -/

/-- What stands in front of the name of an attribute. -/
inductive Scope (namespaces : Namespaces) : List Token → AttributeScope → Prop where
  | declared {short url : String} :
      namespaces.declared.get? short = some url →
      Scope namespaces [.ident short, .delim '|'] (.url url)
  | any : Scope namespaces [.delim '*', .delim '|'] .any
  | empty : Scope namespaces [.delim '|'] .none
  | absent : Scope namespaces [] .none

/-- A name or a quoted string, for its text. -/
inductive Text : Token → String → Prop where
  | name (text : String) : Text (.ident text) text
  | quoted (text : String) : Text (.string text) text

/-- The condition on an attribute, with the bracket that closes it. No blank divides the sign of
    an operator. -/
inductive Attribute (namespaces : Namespaces) : List Token → AttributeTest → Prop where
  | presence {front qualifier back : List Token} {scope : AttributeScope} {name : String} :
      Blanks front → Scope namespaces qualifier scope → Blanks back →
      Attribute namespaces (front ++ qualifier ++ .ident name :: back ++ [.rightBracket])
        ⟨scope, name, none⟩
  | comparison {front qualifier middle gap back : List Token} {scope : AttributeScope}
      {name : String} {operator : AttributeOperator} {value : Token} {expected : String} :
      Blanks front → Scope namespaces qualifier scope → Blanks middle → Blanks gap →
      Text value expected → Blanks back →
      Attribute namespaces
        (front ++ qualifier ++ .ident name :: middle ++ operator.sign.toList.map .delim ++ gap ++
          value :: back ++ [.rightBracket])
        ⟨scope, name, some (operator, expected)⟩

/-! ## Pseudo-classes -/

/-- The names of the pseudo-classes without arguments. -/
def pseudoClassNames : List (String × PseudoClass) :=
  [("root", .root), ("empty", .empty), ("first-child", .firstChild), ("last-child", .lastChild),
    ("only-child", .onlyChild), ("first-of-type", .firstOfType), ("last-of-type", .lastOfType),
    ("only-of-type", .onlyOfType), ("link", .link), ("any-link", .link), ("enabled", .enabled),
    ("disabled", .disabled), ("checked", .checked)] ++
  DynamicState.all.map fun state => (state.name, .dynamic state)

/-- The names of the pseudo-classes whose argument tells positions. -/
def positionalNames : List (String × Count) :=
  [("nth-child", ⟨false, false⟩), ("nth-last-child", ⟨true, false⟩),
    ("nth-of-type", ⟨false, true⟩), ("nth-last-of-type", ⟨true, true⟩)]

/-- The names of the pseudo-classes that hold a list, and what they make of it. -/
def listNames : List (String × (List Complex → Simple)) :=
  [("not", .negation), ("is", .isAny), ("matches", .isAny), ("where", .whereAny)]

/-- Whatever its name, such a pseudo-class makes one of three things of its list. -/
theorem eq_of_mem_listNames {name : String} {make : List Complex → Simple}
    (h : (name, make) ∈ listNames) : make = .negation ∨ make = .isAny ∨ make = .whereAny := by
  simp only [listNames, List.mem_cons, List.not_mem_nil, or_false, Prod.mk.injEq] at h
  rcases h with ⟨-, h⟩ | ⟨-, h⟩ | ⟨-, h⟩ | ⟨-, h⟩
  · exact Or.inl h
  · exact Or.inr (Or.inl h)
  · exact Or.inr (Or.inl h)
  · exact Or.inr (Or.inr h)

/-- Tokens in which every parenthesis is closed. -/
inductive Balanced : List Token → Prop where
  | nil : Balanced []
  | plain {token : Token} {rest : List Token} :
      (∀ name, token ≠ .function name) → token ≠ .leftParen → token ≠ .rightParen →
      Balanced rest → Balanced (token :: rest)
  | group {opening : Token} {inside rest : List Token} :
      (∃ name, opening = .function name) ∨ opening = .leftParen →
      Balanced inside → Balanced rest →
      Balanced (opening :: inside ++ .rightParen :: rest)

/-- The selectors without pseudo-elements. -/
def plainSelectors (list : List Complex) : List Selector :=
  list.map fun complex => ⟨complex, none⟩

/-- A function, by its name in lower case and its arguments. -/
inductive Function (Inner : List Token → List Selector → Prop) :
    String → List Token → Simple → Prop where
  | positions {name : String} {count : Count} {arguments : List Token} {places : Nth} :
      (name, count) ∈ positionalNames → Nth.parse arguments = .ok places →
      Function Inner name arguments (.atom (.pseudoClass (.nth count places)))
  | lang {front back : List Token} {token : Token} {range : String} :
      Blanks front → Text token range → Blanks back →
      Function Inner "lang" (front ++ token :: back) (.atom (.pseudoClass (.lang range)))
  | list {name : String} {make : List Complex → Simple} {arguments : List Token}
      {list : List Complex} :
      (name, make) ∈ listNames → Inner arguments (plainSelectors list) →
      Function Inner name arguments (make list)

/-! ## Compounds -/

section

variable (namespaces : Namespaces) (Inner : List Token → List Selector → Prop)

/-- A condition after the type. -/
inductive Condition : List Token → Simple → Prop where
  | id (name : String) : Condition [.hash name true] (.atom (.id name))
  | className (name : String) :
      Condition [.delim '.', .ident name] (.atom (.className name))
  | bracketed {tokens : List Token} {test : AttributeTest} :
      Attribute namespaces tokens test →
      Condition (.leftBracket :: tokens) (.atom (.attribute test))
  | pseudoClass {name : String} {pseudoClass : PseudoClass} :
      (name.toLower, pseudoClass) ∈ pseudoClassNames →
      Condition [.colon, .ident name] (.atom (.pseudoClass pseudoClass))
  | function {name : String} {arguments : List Token} {simple : Simple} :
      Balanced arguments → Function Inner name.toLower arguments simple →
      Condition (.colon :: .function name :: arguments ++ [.rightParen]) simple

/-- Conditions, one after the other. -/
inductive Conditions : List Token → List Simple → Prop where
  | nil : Conditions [] []
  | cons {tokens rest : List Token} {simple : Simple} {simples : List Simple} :
      Condition namespaces Inner tokens simple → Conditions rest simples →
      Conditions (tokens ++ rest) (simple :: simples)

/-- The pseudo-element at the end of a compound, if there is one. -/
inductive Ending : List Token → Option PseudoElement → Prop where
  | absent : Ending [] none
  | double {name : String} {pseudoElement : PseudoElement} :
      name.toLower = pseudoElement.name →
      Ending [.colon, .colon, .ident name] (some pseudoElement)
  | single {name : String} {pseudoElement : PseudoElement} :
      name.toLower = pseudoElement.name → pseudoElement.allowsSingleColon = true →
      Ending [.colon, .ident name] (some pseudoElement)

/-- A compound with its pseudo-element; it is not empty. -/
inductive Compound : List Token → List Simple → Option PseudoElement → Prop where
  | intro {front middle back : List Token} {conditions simples : List Simple}
      {pseudoElement? : Option PseudoElement} :
      TypePart namespaces front conditions → Conditions namespaces Inner middle simples →
      Ending back pseudoElement? → front ++ middle ++ back ≠ [] →
      Compound (front ++ middle ++ back) (conditions ++ simples) pseudoElement?

/-! ## Complex selectors and lists -/

/-- The signs of the combinators that have one. -/
def combinatorSigns : List (Char × Combinator) :=
  [('>', .child), ('+', .nextSibling), ('~', .subsequentSibling)]

/-- What joins two compounds. -/
inductive Joint : List Token → Combinator → Prop where
  | blank {tokens : List Token} : Blanks tokens → tokens ≠ [] → Joint tokens .descendant
  | sign {front back : List Token} {sign : Char} {combinator : Combinator} :
      Blanks front → (sign, combinator) ∈ combinatorSigns → Blanks back →
      Joint (front ++ .delim sign :: back) combinator

/-- A complex selector with its pseudo-element, which only the last compound may have. -/
inductive Sequence : List Token → Complex → Option PseudoElement → Prop where
  | single {tokens : List Token} {simples : List Simple}
      {pseudoElement? : Option PseudoElement} :
      Compound namespaces Inner tokens simples pseudoElement? →
      Sequence tokens (.compound simples) pseudoElement?
  | join {left joint right : List Token} {complex : Complex} {combinator : Combinator}
      {simples : List Simple} {pseudoElement? : Option PseudoElement} :
      Sequence left complex none → Joint joint combinator →
      Compound namespaces Inner right simples pseudoElement? →
      Sequence (left ++ joint ++ right) (.relative complex combinator simples) pseudoElement?

/-- Selectors with commas between, and blanks around each. -/
inductive SelectorList : List Token → List Selector → Prop where
  | last {front tokens back : List Token} {selector : Selector} :
      Blanks front →
      Sequence namespaces Inner tokens selector.complex selector.pseudoElement? →
      Blanks back →
      SelectorList (front ++ tokens ++ back) [selector]
  | more {front tokens back rest : List Token} {selector : Selector}
      {selectors : List Selector} :
      Blanks front →
      Sequence namespaces Inner tokens selector.complex selector.pseudoElement? →
      Blanks back → SelectorList rest selectors →
      SelectorList (front ++ tokens ++ back ++ .comma :: rest) (selector :: selectors)

end

/-- The tokens make up a selector list; the lists within it are derived in turn. -/
inductive Derives (namespaces : Namespaces) : List Token → List Selector → Prop where
  | intro {tokens : List Token} {selectors : List Selector} :
      SelectorList namespaces (Derives namespaces) tokens selectors →
      Derives namespaces tokens selectors

end Grammar

end Selectors
