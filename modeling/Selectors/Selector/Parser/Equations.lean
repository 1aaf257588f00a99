import Selectors.Selector.Parser

/-!
# Equations of the parser — its loops unfolded once

The loops of the parser end because something gets shorter, and their definitions carry the
proof. The equations here say what one round of a loop does without it.

* **`readParts_eq`**, **`readRight_eq`**, **`readList_eq`** — the three loops.
* **`parseTokens_eq`** — a list within a list is read as the whole is.
-/

namespace Selectors

namespace Reader

/-! ## Loops -/

/-- The conditions at the front are read one after the other. -/
theorem readParts_eq (ctx : Context) (tokens : List Token) :
    readParts ctx tokens =
      match readPart ctx tokens with
      | .error failure => .error failure
      | .ok (none, rest) => .ok (([], none), rest)
      | .ok (some (.pseudoElement pseudoElement), rest) => .ok (([], some pseudoElement), rest)
      | .ok (some (.simple simple), rest) =>
        readParts ctx rest >>= fun ((simples, pseudoElement?), rest) =>
          .ok ((simple :: simples, pseudoElement?), rest) := by
  rw [readParts]
  split <;> simp_all

/-- Compounds are read one after the other, a combinator in front of each. -/
theorem readRight_eq (ctx : Context) (left : Complex) (pseudoElement? : Option PseudoElement)
    (tokens : List Token) :
    readRight ctx left pseudoElement? tokens =
      match readCombinator tokens, pseudoElement? with
      | .error failure, _ => .error failure
      | .ok (none, rest), pseudoElement? => .ok (⟨left, pseudoElement?⟩, rest)
      | .ok (some _, _), some pseudoElement => reject (.misplacedPseudoElement pseudoElement)
      | .ok (some combinator, rest), none =>
        match readCompound ctx rest with
        | .error failure => .error failure
        | .ok ((simples, pseudoElement?), rest) =>
          readRight ctx (.relative left combinator simples) pseudoElement? rest := by
  rw [readRight]
  split
  · simp_all
  · simp_all
  · split
    · simp_all
    · split <;> simp_all

/-- Selectors are read one after the other, a comma between any two. -/
theorem readList_eq (ctx : Context) (tokens : List Token) :
    readList ctx tokens =
      match skipBlanks tokens with
      | [] => reject .empty
      | .comma :: _ => reject .empty
      | first :: others =>
        match readSelector ctx (first :: others) with
        | .error failure => .error failure
        | .ok (selector, []) => .ok [selector]
        | .ok (selector, .comma :: rest) => (readList ctx rest).map (selector :: ·)
        | .ok (_, rest) => refuse rest .comma := by
  rw [readList]
  split
  · simp_all
  · simp_all
  · next first others hcomma hstart =>
    rw [hstart]
    cases first
    case comma => exact absurd rfl hcomma
    all_goals
      dsimp only
      split <;> simp_all

/-! ## Inner lists are shorter

Two ways of reading inner lists that agree on all lists shorter than the tokens give the same
reading of the tokens. -/

/-- A function with arguments depends on how these are read only. -/
theorem readFunction_congr (namespaces : Namespaces)
    {nested nested' : List Token → Reading (List Complex)} {arguments : List Token}
    (h : nested arguments = nested' arguments) (name : String) :
    readFunction ⟨namespaces, nested⟩ name arguments =
      readFunction ⟨namespaces, nested'⟩ name arguments := by
  unfold readFunction
  simp only [h]

/-- What is read after a colon depends on the shorter lists only. -/
theorem readPseudo_congr (namespaces : Namespaces)
    {nested nested' : List Token → Reading (List Complex)} {tokens : List Token}
    (h : ∀ inside, inside.length < tokens.length → nested inside = nested' inside) :
    readPseudo ⟨namespaces, nested⟩ tokens = readPseudo ⟨namespaces, nested'⟩ tokens := by
  unfold readPseudo
  split
  case h_5 name rest =>
    cases harguments : readArguments rest with
    | error failure => rfl
    | ok parts =>
      obtain ⟨inside, after⟩ := parts
      have hbelow := length_readArguments harguments
      have hsame := h inside (by simp only [List.length_cons]; omega)
      simp only [bind, Except.bind, readFunction_congr namespaces hsame name]
  all_goals rfl

/-- A condition depends on how shorter lists are read only. -/
theorem readPart_congr (namespaces : Namespaces)
    {nested nested' : List Token → Reading (List Complex)} {tokens : List Token}
    (h : ∀ inside, inside.length < tokens.length → nested inside = nested' inside) :
    readPart ⟨namespaces, nested⟩ tokens = readPart ⟨namespaces, nested'⟩ tokens := by
  unfold readPart
  split
  case h_6 rest =>
    exact congrArg (· >>= _)
      (readPseudo_congr namespaces fun inside hshorter => h inside (Nat.lt_succ_of_lt hshorter))
  all_goals rfl

/-- Conditions in a row depend on how shorter lists are read only. -/
theorem readParts_congr (namespaces : Namespaces)
    {nested nested' : List Token → Reading (List Complex)} (tokens : List Token)
    (h : ∀ inside, inside.length < tokens.length → nested inside = nested' inside) :
    readParts ⟨namespaces, nested⟩ tokens = readParts ⟨namespaces, nested'⟩ tokens := by
  rw [readParts_eq, readParts_eq, readPart_congr namespaces h]
  cases hreading : readPart ⟨namespaces, nested'⟩ tokens with
  | error failure => rfl
  | ok parts =>
    obtain ⟨part?, rest⟩ := parts
    have hused := length_readPart hreading
    match part? with
    | none => rfl
    | some (.pseudoElement pseudoElement) => rfl
    | some (.simple simple) =>
      simp only [Option.toList_some, List.length_singleton] at hused
      have hdecreasing : rest.length < tokens.length := hused
      have hsame := readParts_congr namespaces rest
        fun inside hshorter => h inside (by omega)
      simp only [hsame]
termination_by tokens.length

/-- A compound depends on how shorter lists are read only. -/
theorem readCompound_congr (namespaces : Namespaces)
    {nested nested' : List Token → Reading (List Complex)} {tokens : List Token}
    (h : ∀ inside, inside.length < tokens.length → nested inside = nested' inside) :
    readCompound ⟨namespaces, nested⟩ tokens = readCompound ⟨namespaces, nested'⟩ tokens := by
  unfold readCompound
  cases htype : readType namespaces tokens with
  | error failure => rfl
  | ok parts =>
    obtain ⟨type?, rest⟩ := parts
    have hbelow := length_readType_le htype
    have hsame := readParts_congr namespaces rest
      fun inside hshorter => h inside (by omega)
    simp only [bind, Except.bind, hsame]

/-- The rest of a selector depends on how shorter lists are read only. -/
theorem readRight_congr (namespaces : Namespaces)
    {nested nested' : List Token → Reading (List Complex)} (left : Complex)
    (pseudoElement? : Option PseudoElement) (tokens : List Token)
    (h : ∀ inside, inside.length < tokens.length → nested inside = nested' inside) :
    readRight ⟨namespaces, nested⟩ left pseudoElement? tokens =
      readRight ⟨namespaces, nested'⟩ left pseudoElement? tokens := by
  rw [readRight_eq, readRight_eq]
  cases hjoining : readCombinator tokens with
  | error failure => rfl
  | ok parts =>
    obtain ⟨combinator?, rest⟩ := parts
    have hused := length_readCombinator hjoining
    match combinator?, pseudoElement? with
    | none, _ => rfl
    | some _, some _ => rfl
    | some combinator, none =>
      simp only [Option.toList_some, List.length_singleton] at hused
      have hsame := @readCompound_congr namespaces nested nested' rest
        fun inside hshorter => h inside (by omega)
      simp only [hsame]
      cases hcompound : readCompound ⟨namespaces, nested'⟩ rest with
      | error failure => rfl
      | ok parts =>
        obtain ⟨⟨simples, pseudoElement?⟩, after⟩ := parts
        have hdecreasing : after.length < tokens.length :=
          Nat.lt_of_le_of_lt (length_readCompound_le hcompound) hused
        -- the lists inside what is left are shorter still
        exact readRight_congr namespaces _ _ after fun inside hshorter => h inside (by omega)
termination_by tokens.length

/-- A selector depends on how shorter lists are read only. -/
theorem readSelector_congr (namespaces : Namespaces)
    {nested nested' : List Token → Reading (List Complex)} {tokens : List Token}
    (h : ∀ inside, inside.length < tokens.length → nested inside = nested' inside) :
    readSelector ⟨namespaces, nested⟩ tokens = readSelector ⟨namespaces, nested'⟩ tokens := by
  unfold readSelector
  rw [readCompound_congr namespaces h]
  cases hcompound : readCompound ⟨namespaces, nested'⟩ tokens with
  | error failure => rfl
  | ok parts =>
    obtain ⟨⟨simples, pseudoElement?⟩, rest⟩ := parts
    have hbelow := length_readCompound_le hcompound
    exact readRight_congr namespaces _ _ rest fun inside hshorter => h inside (by omega)

/-- A list depends on how shorter lists are read only. -/
theorem readList_congr (namespaces : Namespaces)
    {nested nested' : List Token → Reading (List Complex)} (tokens : List Token)
    (h : ∀ inside, inside.length < tokens.length → nested inside = nested' inside) :
    readList ⟨namespaces, nested⟩ tokens = readList ⟨namespaces, nested'⟩ tokens := by
  rw [readList_eq, readList_eq]
  cases hstart : skipBlanks tokens with
  | nil => rfl
  | cons first others =>
    have hskipped := length_skipBlanks_le tokens
    rw [hstart] at hskipped
    have hsame := @readSelector_congr namespaces nested nested' (first :: others)
      fun inside hshorter => h inside (by omega)
    cases hreading : readSelector ⟨namespaces, nested'⟩ (first :: others) with
    | error failure => grind
    | ok parts =>
      obtain ⟨selector, rest⟩ := parts
      have hread := length_readSelector_le hreading
      cases rest with
      | nil => grind
      | cons token rest =>
        have hdecreasing : rest.length < tokens.length := by
          simp only [List.length_cons] at hread hskipped
          omega
        have hmore := readList_congr namespaces rest fun inside hshorter => h inside (by omega)
        grind
termination_by tokens.length

end Reader

open Reader

/-- The lists within are read as the whole is. -/
theorem parseTokens_eq (namespaces : Namespaces) (tokens : List Token) :
    parseTokens namespaces tokens = readList ⟨namespaces, parseInner namespaces⟩ tokens := by
  rw [parseTokens]
  exact readList_congr namespaces tokens fun inside hshorter => by simp [hshorter, parseInner]

end Selectors
