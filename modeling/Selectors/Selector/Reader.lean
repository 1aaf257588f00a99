import Selectors.NameMap
import Selectors.Selector.Basic

/-!
# Reading simple selectors — one condition from the front of the tokens

A reader takes what it reads from the front of a token list and returns it with the tokens that
are left. Two tokens decide whether a name or an asterisk is followed by a namespace separator;
otherwise the first one decides what is read.

A namespace is a URL, and selectors name it by a short name that has to be declared. There may
also be a default namespace, which applies to type names without one.

Some pseudo-classes hold a selector list. How such a list is read from the tokens between the
parentheses is part of the `Context`, so that the readers here do not depend on the reader of
lists, which depends on them.

* **`Namespaces`** — the declarations that a selector is read under.
* **`readType`** — a type name or an asterisk, with a namespace or without.
* **`readAttribute`**, **`readPseudo`** — what follows a bracket and a colon.
* **`readPart`** — any condition after the type, or a pseudo-element; **`length_readPart`** says
  that it uses up a token.
-/

namespace Selectors

/-! ## Declared namespaces -/

/-- The declared namespaces. -/
structure Namespaces where
  default? : Option String := none
  declared : NameMap := .empty
deriving DecidableEq, Inhabited

namespace Namespaces

/-- Nothing is declared. -/
def empty : Namespaces := {}

/-- The declarations with `url` as the default namespace. -/
def withDefault (ns : Namespaces) (url : String) : Namespaces :=
  { ns with default? := some url }

/-- The declarations with one more name; an earlier URL of the name is replaced. -/
def declare (ns : Namespaces) (name url : String) : Namespaces :=
  { ns with declared := ns.declared.insert name url }

/-- The URL of a declared name. -/
def resolve (ns : Namespaces) (name : String) : Except SelectorError String :=
  match ns.declared.get? name with
  | some url => .ok url
  | none => .error (.undeclaredNamespace name)

/-- A declared name resolves to its URL, and the others resolve as before. -/
theorem resolve_declare (ns : Namespaces) (name url other : String) :
    (ns.declare name url).resolve other = if other = name then .ok url else ns.resolve other := by
  by_cases h : other = name <;> simp [resolve, declare, NameMap.get?_insert, h]

end Namespaces

/-! ## Readings -/

/-- What reading gives, or why it failed. -/
abbrev Reading := Except ParseFailure

/-- Failure because the text is no selector list. -/
def reject {α : Type} (error : SelectorError) : Reading α :=
  .error (.invalid error)

/-- Failure because of what the tokens start with. -/
def refuse {α : Type} (tokens : List Token) (expected : Expected) : Reading α :=
  reject (.unexpected tokens expected)

/-- What reading depends on: the declared namespaces, and how the selector list within a
    pseudo-class is read. -/
structure Context where
  namespaces : Namespaces
  nested : List Token → Reading (List Complex)

/-- What may follow the type in a compound. -/
inductive Part where
  | simple (simple : Simple)
  | pseudoElement (pseudoElement : PseudoElement)

namespace Reader

/-- The tokens after any blanks. -/
def skipBlanks (tokens : List Token) : List Token :=
  tokens.dropWhile (· == .blank)

/-- The URL of a namespace. -/
def resolve (namespaces : Namespaces) (name : String) : Reading String :=
  (namespaces.resolve name).mapError .invalid

/-! ## Types -/

/-- The name after a namespace separator, none for an asterisk. -/
def readElementName : List Token → Reading (Option String × List Token)
  | .ident name :: rest => .ok (some name, rest)
  | .delim '*' :: rest => .ok (none, rest)
  | tokens => refuse tokens .elementName

/-- The conditions of a name and a namespace, as far as they are given. -/
def typeConditions (name? url? : Option String) : List Simple :=
  (name?.map fun name => .atom (.typeName name)).toList ++
    (url?.map fun url => .atom (.inNamespace url)).toList

/-- The type at the front, if there is one. A name or an asterisk without a separator is in the
    default namespace, if that is declared. -/
def readType (namespaces : Namespaces) : List Token → Reading (Option (List Simple) × List Token)
  | .ident short :: .delim '|' :: rest => do
    let url ← resolve namespaces short
    let (name?, rest) ← readElementName rest
    .ok (some (typeConditions name? (some url)), rest)
  | .delim '*' :: .delim '|' :: rest => do
    let (name?, rest) ← readElementName rest
    .ok (some (typeConditions name? none), rest)
  | .delim '|' :: rest => do
    let (name?, rest) ← readElementName rest
    .ok (some (typeConditions name? (some "")), rest)
  | .ident name :: rest =>
    .ok (some (typeConditions (some name) namespaces.default?), rest)
  | .delim '*' :: rest => .ok (some (typeConditions none namespaces.default?), rest)
  | tokens => .ok (none, tokens)

/-! ## Attributes -/

/-- The namespace in front of an attribute name. A separator directly before an equals sign is
    part of an operator. -/
def readScope (namespaces : Namespaces) : List Token → Reading (AttributeScope × List Token)
  -- the separator starts the operator that compares up to a hyphen
  | .ident name :: .delim '|' :: .delim '=' :: rest =>
    .ok (.none, .ident name :: .delim '|' :: .delim '=' :: rest)
  | .delim '*' :: .delim '|' :: .delim '=' :: rest =>
    .ok (.none, .delim '*' :: .delim '|' :: .delim '=' :: rest)
  | .ident short :: .delim '|' :: rest => do
    let url ← resolve namespaces short
    .ok (.url url, rest)
  | .delim '*' :: .delim '|' :: rest => .ok (.any, rest)
  | .delim '|' :: rest => .ok (.none, rest)
  | tokens => .ok (.none, tokens)

/-- The name of an attribute. -/
def readAttributeName : List Token → Reading (String × List Token)
  | .ident name :: rest => .ok (name, rest)
  | tokens => refuse tokens .attributeName

/-- The operator whose sign is this one before an equals sign. -/
def operatorOfSign? : Char → Option AttributeOperator
  | '~' => some .includesWord
  | '|' => some .dashMatch
  | '^' => some .beginsWith
  | '$' => some .endsWith
  | '*' => some .contains
  | _ => none

/-- The operator at the front. -/
def readOperator : List Token → Reading (AttributeOperator × List Token)
  | .delim '=' :: rest => .ok (.equals, rest)
  | .delim sign :: .delim '=' :: rest =>
    match operatorOfSign? sign with
    | some operator => .ok (operator, rest)
    | none => reject (.invalidAttribute (.unknownOperator sign))
  | tokens => refuse tokens .attributeOperator

/-- The value that the attribute of a name is compared with. -/
def readValue (name : String) : List Token → Reading (String × List Token)
  | .ident value :: rest => .ok (value, rest)
  | .string value :: rest => .ok (value, rest)
  | _ => reject (.invalidAttribute (.missingValue name))

/-- The bracket that closes the condition on the attribute of a name. -/
def readClosing (name : String) : List Token → Reading (Unit × List Token)
  | .rightBracket :: rest => .ok ((), rest)
  | _ => reject (.invalidAttribute (.unclosed name))

/-- The condition on an attribute, read after the opening bracket. -/
def readAttribute (namespaces : Namespaces) (tokens : List Token) :
    Reading (AttributeTest × List Token) := do
  let (scope, rest) ← readScope namespaces (skipBlanks tokens)
  let (name, rest) ← readAttributeName rest
  match skipBlanks rest with
  | .rightBracket :: rest => .ok (⟨scope, name, none⟩, rest)
  | rest =>
    let (operator, rest) ← readOperator rest
    let (value, rest) ← readValue name (skipBlanks rest)
    let ((), rest) ← readClosing name (skipBlanks rest)
    .ok (⟨scope, name, some (operator, value)⟩, rest)

/-! ## Pseudo-classes -/

/-- The pseudo-class of a name in any letter case. -/
def pseudoClassOfName? (name : String) : Option PseudoClass :=
  match name.toLower with
  | "root" => some .root
  | "empty" => some .empty
  | "first-child" => some .firstChild
  | "last-child" => some .lastChild
  | "only-child" => some .onlyChild
  | "first-of-type" => some .firstOfType
  | "last-of-type" => some .lastOfType
  | "only-of-type" => some .onlyOfType
  | "link" => some .link
  | "any-link" => some .link
  | "enabled" => some .enabled
  | "disabled" => some .disabled
  | "checked" => some .checked
  | lower => (DynamicState.all.find? (·.name == lower)).map .dynamic

/-- The pseudo-element of a name that may follow a single colon. -/
def pseudoElementAfterColon? (name : String) : Option PseudoElement :=
  (PseudoElement.ofName? name).filter PseudoElement.allowsSingleColon

/-- What a name means after a single colon. -/
def partOfName (name : String) : Reading Part :=
  match pseudoElementAfterColon? name, pseudoClassOfName? name with
  | some pseudoElement, _ => .ok (.pseudoElement pseudoElement)
  | none, some pseudoClass => .ok (.simple (.atom (.pseudoClass pseudoClass)))
  | none, none => reject (.unknownPseudoClass name false)

/-- How many parentheses are open after a token. -/
def depthAfter (depth : Nat) : Token → Nat
  | .leftParen | .function _ => depth + 1
  | .rightParen => depth - 1
  | _ => depth

/-- The tokens up to the parenthesis that closes `depth + 1` open ones, and those after it. -/
def splitArguments : Nat → List Token → Option (List Token × List Token)
  | _, [] => none
  | 0, .rightParen :: rest => some ([], rest)
  | depth, token :: rest =>
    (splitArguments (depthAfter depth token) rest).map (Prod.map (token :: ·) id)

/-- The arguments of a function, read after the opening parenthesis. -/
def readArguments (tokens : List Token) : Reading (List Token × List Token) :=
  match splitArguments 0 tokens with
  | some (inside, rest) => .ok (inside, rest)
  | none => reject (.unexpectedEnd .closingParen)

/-- The language range that the arguments consist of. -/
def readRange (arguments : List Token) : Reading String := do
  let (range, rest) ← match skipBlanks arguments with
    | .ident range :: rest => .ok (range, rest)
    | .string range :: rest => .ok (range, rest)
    | rest => refuse rest .languageRange
  match skipBlanks rest with
  | [] => .ok range
  | rest => refuse rest .languageEnd

/-- A pseudo-class that names positions, counted in some way. -/
def readPositions (count : Count) (arguments : List Token) : Reading Simple :=
  (Nth.parse arguments).map fun places => .atom (.pseudoClass (.nth count places))

/-- What a function means after a single colon. -/
def readFunction (ctx : Context) (name : String) (arguments : List Token) :
    Reading Simple :=
  match name.toLower with
  | "nth-child" => readPositions ⟨false, false⟩ arguments
  | "nth-last-child" => readPositions ⟨true, false⟩ arguments
  | "nth-of-type" => readPositions ⟨false, true⟩ arguments
  | "nth-last-of-type" => readPositions ⟨true, true⟩ arguments
  | "lang" => (readRange arguments).map fun range => .atom (.pseudoClass (.lang range))
  | "not" => (ctx.nested arguments).map .negation
  | "is" => (ctx.nested arguments).map .isAny
  | "matches" => (ctx.nested arguments).map .isAny
  | "where" => (ctx.nested arguments).map .whereAny
  | _ => reject (.unknownPseudoClass name true)

/-- The pseudo-class or pseudo-element after a colon. -/
def readPseudo (ctx : Context) : List Token → Reading (Part × List Token)
  | .colon :: .ident name :: rest =>
    match PseudoElement.ofName? name with
    | some pseudoElement => .ok (.pseudoElement pseudoElement, rest)
    | none => reject (.unknownPseudoElement name false)
  -- no pseudo-element has arguments
  | .colon :: .function name :: _ => reject (.unknownPseudoElement name true)
  | .colon :: rest => refuse rest .pseudoName
  | .ident name :: rest => (partOfName name).map fun part => (part, rest)
  | .function name :: rest => do
    let (arguments, rest) ← readArguments rest
    let simple ← readFunction ctx name arguments
    .ok (.simple simple, rest)
  | tokens => refuse tokens .pseudoName

/-! ## Any condition -/

/-- The condition or pseudo-element at the front, if there is one. -/
def readPart (ctx : Context) : List Token → Reading (Option Part × List Token)
  | .hash name true :: rest => .ok (some (.simple (.atom (.id name))), rest)
  -- what follows the sign is no identifier, for example a digit
  | .hash name false :: rest => refuse (.hash name false :: rest) .identifier
  | .delim '.' :: .ident name :: rest => .ok (some (.simple (.atom (.className name))), rest)
  | .delim '.' :: rest => refuse rest .className
  | .leftBracket :: rest => do
    let (test, rest) ← readAttribute ctx.namespaces rest
    .ok (some (.simple (.atom (.attribute test))), rest)
  | .colon :: rest => do
    let (part, rest) ← readPseudo ctx rest
    .ok (some part, rest)
  | tokens => .ok (none, tokens)

/-! ## What is left is shorter -/

/-- A sequence of readings succeeds exactly if both do. -/
theorem bind_eq_ok {α β : Type} {first : Reading α} {next : α → Reading β} {b : β} :
    (first >>= next) = .ok b ↔ ∃ a, first = .ok a ∧ next a = .ok b := by
  cases first <;> simp [bind, Except.bind]

/-- A changed reading succeeds exactly if the reading does. -/
theorem map_eq_ok {α β : Type} {reading : Reading α} {change : α → β} {b : β} :
    reading.map change = .ok b ↔ ∃ a, reading = .ok a ∧ change a = b := by
  cases reading <;> simp [Except.map]

/-- Refused tokens give no reading. -/
@[simp] theorem refuse_ne_ok {α : Type} {tokens : List Token} {expected : Expected} {a : α} :
    refuse tokens expected ≠ .ok a := nofun

/-- A rejected text gives no reading. -/
@[simp] theorem reject_ne_ok {α : Type} {error : SelectorError} {a : α} :
    reject error ≠ .ok a := nofun

/-- Skipping blanks leaves no more tokens than there were. -/
theorem length_skipBlanks_le (tokens : List Token) :
    (skipBlanks tokens).length ≤ tokens.length :=
  (List.dropWhile_sublist _).length_le

/-- Where there is a blank, skipping uses it up. -/
theorem length_skipBlanks_lt {tokens : List Token} (h : tokens.head? = some .blank) :
    (skipBlanks tokens).length < tokens.length := by
  cases tokens with
  | nil => simp at h
  | cons token rest =>
    obtain rfl : token = .blank := by simpa using h
    exact Nat.lt_succ_of_le (length_skipBlanks_le rest)

/-- The name of an element uses up a token. -/
theorem length_readElementName_lt {tokens rest : List Token} {name? : Option String}
    (h : readElementName tokens = .ok (name?, rest)) : rest.length < tokens.length := by
  revert h
  fun_cases readElementName tokens with
  | case1 name after =>
    rintro ⟨⟩
    exact Nat.lt_succ_self _
  | case2 after =>
    rintro ⟨⟩
    exact Nat.lt_succ_self _
  | case3 tokens _ _ =>
    intro h
    exact absurd h refuse_ne_ok

/-- A type uses up tokens, or there is none. -/
theorem length_readType_le {namespaces : Namespaces} {tokens rest : List Token}
    {type? : Option (List Simple)} (h : readType namespaces tokens = .ok (type?, rest)) :
    rest.length ≤ tokens.length := by
  revert h
  fun_cases readType namespaces tokens with
  | case1 short after =>
    intro h
    obtain ⟨url, -, h⟩ := bind_eq_ok.1 h
    obtain ⟨⟨name?, afterName⟩, hname, ⟨⟩⟩ := bind_eq_ok.1 h
    have hshorter := length_readElementName_lt hname
    rw [List.length_cons, List.length_cons]
    omega
  | case2 after =>
    intro h
    obtain ⟨⟨name?, afterName⟩, hname, ⟨⟩⟩ := bind_eq_ok.1 h
    have hshorter := length_readElementName_lt hname
    rw [List.length_cons, List.length_cons]
    omega
  | case3 after =>
    intro h
    obtain ⟨⟨name?, afterName⟩, hname, ⟨⟩⟩ := bind_eq_ok.1 h
    have hshorter := length_readElementName_lt hname
    rw [List.length_cons]
    omega
  | case4 name after _ =>
    rintro ⟨⟩
    exact Nat.le_succ _
  | case5 after _ =>
    rintro ⟨⟩
    exact Nat.le_succ _
  | case6 tokens _ _ _ _ _ =>
    rintro ⟨⟩
    exact Nat.le_refl _

/-- The namespace of an attribute uses up tokens, or there is none. -/
theorem length_readScope_le {namespaces : Namespaces} {tokens rest : List Token}
    {scope : AttributeScope} (h : readScope namespaces tokens = .ok (scope, rest)) :
    rest.length ≤ tokens.length := by
  revert h
  fun_cases readScope namespaces tokens with
  | case1 name after =>
    rintro ⟨⟩
    exact Nat.le_refl _
  | case2 after =>
    rintro ⟨⟩
    exact Nat.le_refl _
  | case3 short after _ =>
    intro h
    obtain ⟨url, -, ⟨⟩⟩ := bind_eq_ok.1 h
    exact Nat.le_add_right _ 2
  | case4 after _ =>
    rintro ⟨⟩
    exact Nat.le_add_right _ 2
  | case5 after =>
    rintro ⟨⟩
    exact Nat.le_succ _
  | case6 tokens _ _ _ _ _ =>
    rintro ⟨⟩
    exact Nat.le_refl _

/-- The name of an attribute uses up a token. -/
theorem length_readAttributeName_lt {tokens rest : List Token} {name : String}
    (h : readAttributeName tokens = .ok (name, rest)) : rest.length < tokens.length := by
  revert h
  fun_cases readAttributeName tokens with
  | case1 name after =>
    rintro ⟨⟩
    exact Nat.lt_succ_self _
  | case2 tokens _ =>
    intro h
    exact absurd h refuse_ne_ok

/-- An operator uses up one token or two. -/
theorem length_readOperator_lt {tokens rest : List Token} {operator : AttributeOperator}
    (h : readOperator tokens = .ok (operator, rest)) : rest.length < tokens.length := by
  revert h
  fun_cases readOperator tokens with
  | case1 after =>
    rintro ⟨⟩
    exact Nat.lt_succ_self _
  | case2 sign after operator _ =>
    rintro ⟨⟩
    exact Nat.lt_add_of_pos_right Nat.zero_lt_two
  | case3 sign after _ =>
    intro h
    exact absurd h reject_ne_ok
  | case4 tokens _ _ =>
    intro h
    exact absurd h refuse_ne_ok

/-- A value uses up a token. -/
theorem length_readValue_lt {name value : String} {tokens rest : List Token}
    (h : readValue name tokens = .ok (value, rest)) : rest.length < tokens.length := by
  revert h
  fun_cases readValue name tokens with
  | case1 value after =>
    rintro ⟨⟩
    exact Nat.lt_succ_self _
  | case2 value after =>
    rintro ⟨⟩
    exact Nat.lt_succ_self _
  | case3 tokens _ _ =>
    intro h
    exact absurd h reject_ne_ok

/-- A closing bracket is a token. -/
theorem length_readClosing_lt {name : String} {tokens rest : List Token}
    (h : readClosing name tokens = .ok ((), rest)) : rest.length < tokens.length := by
  revert h
  fun_cases readClosing name tokens with
  | case1 after =>
    rintro ⟨⟩
    exact Nat.lt_succ_self _
  | case2 tokens _ =>
    intro h
    exact absurd h reject_ne_ok

/-- A condition on an attribute uses up its name at least. -/
theorem length_readAttribute_lt {namespaces : Namespaces} {tokens rest : List Token}
    {test : AttributeTest} (h : readAttribute namespaces tokens = .ok (test, rest)) :
    rest.length < tokens.length := by
  rw [readAttribute] at h
  obtain ⟨⟨scope, afterScope⟩, hscope, h⟩ := bind_eq_ok.1 h
  obtain ⟨⟨name, afterName⟩, hname, h⟩ := bind_eq_ok.1 h
  have hblanks := length_skipBlanks_le tokens
  have hafterScope := length_readScope_le hscope
  have hafterName := length_readAttributeName_lt hname
  have hskipped := length_skipBlanks_le afterName
  dsimp only at h
  split at h
  -- the attribute only has to be there
  · next after heq =>
    obtain ⟨⟩ := h
    rw [heq, List.length_cons] at hskipped
    omega
  · obtain ⟨⟨operator, afterOperator⟩, hoperator, h⟩ := bind_eq_ok.1 h
    dsimp only at h
    obtain ⟨⟨value, afterValue⟩, hvalue, h⟩ := bind_eq_ok.1 h
    dsimp only at h
    obtain ⟨⟨⟨⟩, afterClosing⟩, hclosing, h⟩ := bind_eq_ok.1 h
    dsimp only at h
    obtain ⟨⟩ := h
    have hafterOperator := length_readOperator_lt hoperator
    have hbeforeValue := length_skipBlanks_le afterOperator
    have hafterValue := length_readValue_lt hvalue
    have hbeforeClosing := length_skipBlanks_le afterValue
    have hafterClosing := length_readClosing_lt hclosing
    omega

/-- What is between the parentheses and what is after them leave out the closing one. -/
theorem length_splitArguments {depth : Nat} {tokens inside rest : List Token}
    (h : splitArguments depth tokens = some (inside, rest)) :
    inside.length + rest.length < tokens.length := by
  fun_induction splitArguments depth tokens generalizing inside with
  | case1 => exact nomatch h
  | case2 tail =>
    obtain ⟨⟩ := h
    rw [List.length_nil, Nat.zero_add]
    exact Nat.lt_succ_self _
  | case3 depth token tail _ ih =>
    obtain ⟨⟨inner, after⟩, hsplit, ⟨⟩⟩ := Option.map_eq_some_iff.1 h
    have hshorter : inner.length + after.length < tail.length := ih hsplit
    show (token :: inner).length + after.length < (token :: tail).length
    rw [List.length_cons, List.length_cons]
    omega

/-- Arguments and what is after them leave out the closing parenthesis. -/
theorem length_readArguments {tokens inside rest : List Token}
    (h : readArguments tokens = .ok (inside, rest)) :
    inside.length + rest.length < tokens.length := by
  revert h
  fun_cases readArguments tokens with
  | case1 inside after hsplit =>
    rintro ⟨⟩
    exact length_splitArguments hsplit
  | case2 _ =>
    intro h
    exact absurd h reject_ne_ok

/-- A pseudo-class or pseudo-element uses up its name at least. -/
theorem length_readPseudo_lt {ctx : Context} {tokens rest : List Token} {part : Part}
    (h : readPseudo ctx tokens = .ok (part, rest)) : rest.length < tokens.length := by
  revert h
  fun_cases readPseudo ctx tokens with
  | case1 name after pseudoElement _ =>
    rintro ⟨⟩
    exact Nat.lt_add_of_pos_right Nat.zero_lt_two
  | case2 name after _ =>
    intro h
    exact absurd h reject_ne_ok
  | case3 name after =>
    intro h
    exact absurd h reject_ne_ok
  | case4 after _ _ =>
    intro h
    exact absurd h refuse_ne_ok
  | case5 name after =>
    intro h
    obtain ⟨part, -, ⟨⟩⟩ := map_eq_ok.1 h
    exact Nat.lt_succ_self _
  | case6 name after =>
    intro h
    -- what is left of a function starts behind its closing parenthesis
    obtain ⟨⟨inside, afterInside⟩, harguments, h⟩ := bind_eq_ok.1 h
    obtain ⟨simple, -, ⟨⟩⟩ := bind_eq_ok.1 h
    have hshorter := length_readArguments harguments
    rw [List.length_cons]
    omega
  | case7 tokens _ _ _ =>
    intro h
    exact absurd h refuse_ne_ok

/-- A condition uses up at least one token, and none uses up none. -/
theorem length_readPart {ctx : Context} {tokens rest : List Token} {part? : Option Part}
    (h : readPart ctx tokens = .ok (part?, rest)) :
    rest.length + part?.toList.length ≤ tokens.length := by
  revert h
  fun_cases readPart ctx tokens with
  | case1 name after =>
    rintro ⟨⟩
    exact Nat.le_refl _
  | case2 name after =>
    intro h
    exact absurd h refuse_ne_ok
  | case3 name after =>
    rintro ⟨⟩
    exact Nat.le_succ _
  | case4 after _ =>
    intro h
    exact absurd h refuse_ne_ok
  | case5 after =>
    intro h
    obtain ⟨⟨test, afterTest⟩, htest, ⟨⟩⟩ := bind_eq_ok.1 h
    have hshorter := length_readAttribute_lt htest
    exact Nat.succ_le_succ (Nat.le_of_lt hshorter)
  | case6 after =>
    intro h
    obtain ⟨⟨part, afterPart⟩, hpart, ⟨⟩⟩ := bind_eq_ok.1 h
    have hshorter := length_readPseudo_lt hpart
    exact Nat.succ_le_succ (Nat.le_of_lt hshorter)
  | case7 tokens _ _ _ _ _ _ =>
    rintro ⟨⟩
    exact Nat.le_refl _

end Reader

end Selectors
