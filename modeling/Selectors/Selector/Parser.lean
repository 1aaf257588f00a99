import Selectors.Selector.Reader
import Selectors.Token

/-!
# Reading selector lists — compounds, combinators and commas

A compound is a type, if there is one, and conditions after it up to a pseudo-element. A complex
selector is read from left to right: each further compound becomes the subject, and what was read
before it is reached from it through the combinator. A pseudo-element ends a selector. Selectors
of a list are separated by commas.

A list may hold lists, between the parentheses of some pseudo-classes. These are shorter than the
list that they stand in, and so reading them with `parseTokens` again comes to an end.

* **`parseTokens`** — the selectors of a token list.
* **`parseSelectors`** — the selectors of a text.
-/

namespace Selectors

namespace Reader

/-! ## Compounds -/

/-- The conditions at the front, up to a pseudo-element or to what is no condition. -/
def readParts (ctx : Context) (tokens : List Token) :
    Reading ((List Simple × Option PseudoElement) × List Token) :=
  match _reading : readPart ctx tokens with
  | .error failure => .error failure
  | .ok (none, rest) => .ok (([], none), rest)
  | .ok (some (.pseudoElement pseudoElement), rest) => .ok (([], some pseudoElement), rest)
  | .ok (some (.simple simple), rest) => do
    let ((simples, pseudoElement?), rest) ← readParts ctx rest
    .ok ((simple :: simples, pseudoElement?), rest)
termination_by tokens.length
decreasing_by
  have := length_readPart _reading
  simp only [Option.toList_some, List.length_singleton] at this
  omega

/-- The compound at the front, with its pseudo-element. There has to be a type, a condition or a
    pseudo-element. -/
def readCompound (ctx : Context) (tokens : List Token) :
    Reading ((List Simple × Option PseudoElement) × List Token) := do
  let (type?, rest) ← readType ctx.namespaces tokens
  let ((simples, pseudoElement?), rest) ← readParts ctx rest
  if type?.isNone && simples.isEmpty && pseudoElement?.isNone then refuse rest .compound
  else .ok ((type?.getD [] ++ simples, pseudoElement?), rest)

/-! ## Complex selectors -/

/-- The combinator at the front; none before a comma and at the end. Blanks around the sign of a
    combinator mean nothing, and without a sign they are one. -/
def readCombinator (tokens : List Token) : Reading (Option Combinator × List Token) :=
  match skipBlanks tokens with
  | [] => .ok (none, [])
  | .comma :: rest => .ok (none, .comma :: rest)
  | .delim '>' :: rest => .ok (some .child, skipBlanks rest)
  | .delim '+' :: rest => .ok (some .nextSibling, skipBlanks rest)
  | .delim '~' :: rest => .ok (some .subsequentSibling, skipBlanks rest)
  | rest =>
    -- there is no sign, so only a blank can join two compounds
    if tokens.head? = some .blank then .ok (some .descendant, rest) else refuse rest .combinator

/-- Conditions use up tokens, or there are none. -/
theorem length_readParts_le {ctx : Context} {tokens rest : List Token}
    {parts : List Simple × Option PseudoElement}
    (h : readParts ctx tokens = .ok (parts, rest)) : rest.length ≤ tokens.length := by
  fun_induction readParts ctx tokens generalizing parts rest with
  | case1 tokens failure _ => exact nomatch h
  | case2 tokens after hnone =>
    obtain ⟨⟩ := h
    exact length_readPart hnone
  | case3 tokens pseudoElement after hpart =>
    obtain ⟨⟩ := h
    have hshorter := length_readPart hpart
    exact Nat.le_trans (Nat.le_add_right _ _) hshorter
  | case4 tokens simple after hpart ih =>
    obtain ⟨⟨⟨simples, pseudoElement?⟩, afterParts⟩, hparts, ⟨⟩⟩ := bind_eq_ok.1 h
    have hshorter := length_readPart hpart
    exact Nat.le_trans (ih hparts) (Nat.le_trans (Nat.le_add_right _ _) hshorter)

/-- A compound leaves no more tokens than there were. -/
theorem length_readCompound_le {ctx : Context} {tokens rest : List Token}
    {compound : List Simple × Option PseudoElement}
    (h : readCompound ctx tokens = .ok (compound, rest)) : rest.length ≤ tokens.length := by
  rw [readCompound] at h
  obtain ⟨⟨type?, afterType⟩, htype, h⟩ := bind_eq_ok.1 h
  obtain ⟨⟨⟨simples, pseudoElement?⟩, afterParts⟩, hparts, h⟩ := bind_eq_ok.1 h
  dsimp only at h
  split at h
  · exact absurd h refuse_ne_ok
  · obtain ⟨⟩ := h
    exact Nat.le_trans (length_readParts_le hparts) (length_readType_le htype)

/-- A combinator uses up at least one token. -/
theorem length_readCombinator {tokens rest : List Token} {combinator? : Option Combinator}
    (h : readCombinator tokens = .ok (combinator?, rest)) :
    rest.length + combinator?.toList.length ≤ tokens.length := by
  have hskipped := length_skipBlanks_le tokens
  revert h
  fun_cases readCombinator tokens with
  | case1 hstart =>
    rintro ⟨⟩
    exact Nat.zero_le _
  | case2 after hstart =>
    rintro ⟨⟩
    rwa [hstart] at hskipped
  | case3 after hstart | case4 after hstart | case5 after hstart =>
    -- one of the three signs, and the blanks after it
    rintro ⟨⟩
    rw [hstart] at hskipped
    exact Nat.le_trans (Nat.succ_le_succ (length_skipBlanks_le after)) hskipped
  | case6 hblank _ _ _ _ _ =>
    rintro ⟨⟩
    exact length_skipBlanks_lt hblank
  | case7 =>
    intro h
    exact absurd h refuse_ne_ok

/-- The selector that `left` and its pseudo-element start and the tokens continue. -/
def readRight (ctx : Context) (left : Complex) (pseudoElement? : Option PseudoElement)
    (tokens : List Token) : Reading (Selector × List Token) :=
  match _joining : readCombinator tokens with
  | .error failure => .error failure
  | .ok (none, rest) => .ok (⟨left, pseudoElement?⟩, rest)
  | .ok (some combinator, rest) =>
    match pseudoElement? with
    -- a pseudo-element ends its selector
    | some pseudoElement => reject (.misplacedPseudoElement pseudoElement)
    | none =>
      match _reading : readCompound ctx rest with
      | .error failure => .error failure
      | .ok ((simples, pseudoElement?), rest) =>
        readRight ctx (.relative left combinator simples) pseudoElement? rest
termination_by tokens.length
decreasing_by
  have joined := length_readCombinator _joining
  have read := length_readCompound_le _reading
  simp only [Option.toList_some, List.length_singleton] at joined
  omega

/-- The selector at the front. -/
def readSelector (ctx : Context) (tokens : List Token) : Reading (Selector × List Token) := do
  let ((simples, pseudoElement?), rest) ← readCompound ctx tokens
  readRight ctx (.compound simples) pseudoElement? rest

/-- What is read to the right of a compound leaves no more tokens than there were. -/
theorem length_readRight_le {ctx : Context} {left : Complex}
    {pseudoElement? : Option PseudoElement} {tokens rest : List Token} {selector : Selector}
    (h : readRight ctx left pseudoElement? tokens = .ok (selector, rest)) :
    rest.length ≤ tokens.length := by
  fun_induction readRight ctx left pseudoElement? tokens with
  | case1 _ _ _ failure _ => exact nomatch h
  | case2 _ _ _ after hend =>
    obtain ⟨⟩ := h
    exact length_readCombinator hend
  | case3 _ _ combinator after _ pseudoElement => exact absurd h reject_ne_ok
  | case4 _ _ combinator after _ failure _ => exact nomatch h
  | case5 _ _ combinator afterCombinator hcombinator simples _ afterCompound hcompound ih =>
    have hjoint := length_readCombinator hcombinator
    have hshorter := Nat.le_trans (ih h) (length_readCompound_le hcompound)
    exact Nat.le_trans hshorter (Nat.le_trans (Nat.le_add_right _ _) hjoint)

/-- A selector leaves no more tokens than there were. -/
theorem length_readSelector_le {ctx : Context} {tokens rest : List Token} {selector : Selector}
    (h : readSelector ctx tokens = .ok (selector, rest)) : rest.length ≤ tokens.length := by
  rw [readSelector] at h
  obtain ⟨⟨⟨simples, pseudoElement?⟩, afterCompound⟩, hcompound, hright⟩ := bind_eq_ok.1 h
  exact Nat.le_trans (length_readRight_le hright) (length_readCompound_le hcompound)

/-! ## Lists -/

/-- The selectors that the tokens consist of. -/
def readList (ctx : Context) (tokens : List Token) : Reading (List Selector) :=
  match _start : skipBlanks tokens with
  | [] => reject .empty
  | .comma :: _ => reject .empty
  | first :: others =>
    match _reading : readSelector ctx (first :: others) with
    | .error failure => .error failure
    | .ok (selector, []) => .ok [selector]
    | .ok (selector, .comma :: rest) => (readList ctx rest).map (selector :: ·)
    | .ok (_, rest) => refuse rest .comma
termination_by tokens.length
decreasing_by
  have skipped := length_skipBlanks_le tokens
  have read := length_readSelector_le _reading
  simp only [_start, List.length_cons] at skipped read
  omega

/-- The complex selectors of a list in which there may be no pseudo-element. -/
def withoutPseudoElements : List Selector → Reading (List Complex)
  | [] => .ok []
  | ⟨complex, none⟩ :: rest => (withoutPseudoElements rest).map (complex :: ·)
  | ⟨_, some pseudoElement⟩ :: _ => reject (.misplacedPseudoElement pseudoElement)

end Reader

open Reader

/-- The selectors that the tokens consist of, in the declared namespaces. The lists within are
    shorter than the whole, so the guard on their length holds. -/
def parseTokens (namespaces : Namespaces) (tokens : List Token) : Reading (List Selector) :=
  readList
    { namespaces
      nested := fun inside =>
        if _shorter : inside.length < tokens.length then
          parseTokens namespaces inside >>= withoutPseudoElements
        else reject .empty }
    tokens
termination_by tokens.length

/-- The complex selectors of an inner list. -/
def parseInner (namespaces : Namespaces) (tokens : List Token) : Reading (List Complex) :=
  parseTokens namespaces tokens >>= withoutPseudoElements

/-- The selectors that a text consists of, in the declared namespaces. -/
def parseSelectors (namespaces : Namespaces) (text : String) : Reading (List Selector) :=
  parseTokens namespaces (tokenize text)

end Selectors
