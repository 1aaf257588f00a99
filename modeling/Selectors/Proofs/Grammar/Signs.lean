import Selectors.Proofs.Grammar.Lists
import Selectors.Proofs.Nth.Legality

/-!
# Signs — the characters that stand for themselves in a selector

The lexer makes a token of its own of every character that starts nothing else. The rules have a use
for a few of them: the signs of types, attributes and classes, those of combinators, and within an
argument that names positions what numbers and keywords are written with. Any other character that
stands for itself, wherever it does and however deep, makes the tokens something that is no list.

* **`isPartSign`** and **`isSign`** — the characters that there is a use for.
* **`Uses`** — tokens in which no other character stands for itself.
* **`uses_of_parsed`** — what the parser accepts.
-/

namespace Selectors

namespace Grammar

/-- The characters that may stand for themselves in the argument that names positions. -/
def isPositionChar (c : Char) : Bool :=
  isSpace c || c.isDigit || c == '+' || c == '-' || c.isAlpha

/-- The characters that may stand for themselves in a part of a compound, lists within it apart. -/
def isPartSign (c : Char) : Bool :=
  ['*', '|', '.', '=', '~', '^', '$'].contains c || isPositionChar c

/-- The characters that may stand for themselves in a list. -/
def isSign (c : Char) : Bool :=
  isPartSign c || c == '>'

/-! ## Tokens and the characters among them -/

/-- Only these characters stand for themselves in the tokens. -/
def Uses (signs : Char → Bool) (tokens : List Token) : Prop :=
  ∀ c, .delim c ∈ tokens → signs c = true

variable {namespaces : Namespaces} {Inner : List Token → List Selector → Prop}
  {signs : Char → Bool}

/-- No tokens use no signs. -/
theorem uses_nil : Uses signs [] :=
  nofun

/-- The signs of parts are among those of lists. -/
theorem Uses.isSign {tokens : List Token} (h : Uses isPartSign tokens) : Uses isSign tokens := by
  intro c hc
  rw [Grammar.isSign, h c hc, Bool.true_or]

/-- Tokens in a row use what each of them uses. -/
theorem Uses.append {front back : List Token} (hfront : Uses signs front)
    (hback : Uses signs back) : Uses signs (front ++ back) := by
  intro c hc
  rcases List.mem_append.1 hc with hc | hc
  · exact hfront c hc
  · exact hback c hc

/-- A token that is no other sign may stand in front. -/
theorem Uses.cons {token : Token} {tokens : List Token}
    (htoken : ∀ c, token = .delim c → signs c = true) (h : Uses signs tokens) :
    Uses signs (token :: tokens) := by
  intro c hc
  rcases List.mem_cons.1 hc with heq | hc
  · exact htoken c heq.symm
  · exact h c hc

/-- One of the signs may stand in front. -/
theorem Uses.sign {c : Char} {tokens : List Token} (hc : signs c = true)
    (h : Uses signs tokens) : Uses signs (.delim c :: tokens) := by
  refine Uses.cons ?_ h
  rintro c ⟨⟩
  exact hc

/-- A name may stand in front. -/
theorem Uses.ident (name : String) {tokens : List Token} (h : Uses signs tokens) :
    Uses signs (.ident name :: tokens) :=
  Uses.cons nofun h

private theorem uses_delims {chars : List Char} (h : ∀ c ∈ chars, signs c = true) :
    Uses signs (chars.map .delim) := by
  intro c hc
  obtain ⟨d, hd, heq⟩ := List.mem_map.1 hc
  obtain rfl := Token.delim.inj heq
  exact h d hd

/-- Blanks use no signs. -/
theorem Blanks.uses {tokens : List Token} (h : Blanks tokens) : Uses signs tokens :=
  fun _ hc => nomatch h _ hc

/-- A name or a string uses no signs. -/
theorem Text.uses {token : Token} {text : String} (h : Text token text) {rest : List Token}
    (hrest : Uses signs rest) : Uses signs (token :: rest) := by
  cases h with
  | name => exact hrest.ident _
  | quoted => exact Uses.cons nofun hrest

/-! ## Types and attributes -/

/-- A type uses signs of parts only. -/
theorem TypePart.uses {tokens : List Token} {conditions : List Simple}
    (h : TypePart namespaces tokens conditions) : Uses isPartSign tokens := by
  have hasterisk : isPartSign '*' = true := rfl
  have hbar : isPartSign '|' = true := rfl
  cases h with
  | absent => exact uses_nil
  | written hqualifier hname =>
    refine Uses.append ?_ ?_
    · cases hqualifier with
      | declared => exact (Uses.sign hbar uses_nil).ident _
      | any => exact Uses.sign hasterisk (Uses.sign hbar uses_nil)
      | empty => exact Uses.sign hbar uses_nil
      | absent => exact uses_nil
    · cases hname with
      | name => exact uses_nil.ident _
      | asterisk => exact Uses.sign hasterisk uses_nil

/-- The namespace of an attribute uses signs of parts only. -/
theorem Scope.uses {tokens : List Token} {scope : AttributeScope}
    (h : Scope namespaces tokens scope) : Uses isPartSign tokens := by
  have hbar : isPartSign '|' = true := rfl
  cases h with
  | declared => exact (Uses.sign hbar uses_nil).ident _
  | any => exact Uses.sign rfl (Uses.sign hbar uses_nil)
  | empty => exact Uses.sign hbar uses_nil
  | absent => exact uses_nil

private theorem uses_operator (operator : AttributeOperator) :
    Uses isPartSign (operator.sign.toList.map .delim) := by
  have hall : operator.sign.toList.all isPartSign = true := by cases operator <;> decide
  exact uses_delims (List.all_eq_true.1 hall)

/-- A condition on an attribute uses signs of parts only. -/
theorem Attribute.uses {tokens : List Token} {test : AttributeTest}
    (h : Attribute namespaces tokens test) : Uses isPartSign tokens := by
  have hclosing : Uses isPartSign [.rightBracket] := Uses.cons nofun uses_nil
  cases h with
  | presence hfront hscope hback =>
    exact ((hfront.uses.append hscope.uses).append (hback.uses.ident _)).append hclosing
  | comparison hfront hscope hmiddle hgap htext hback =>
    exact (((((hfront.uses.append hscope.uses).append (hmiddle.uses.ident _)).append
      (uses_operator _)).append hgap.uses).append (htext.uses hback.uses)).append hclosing

/-! ## Conditions -/

/-- In an argument that names positions every such character is one of its joined text. -/
theorem uses_of_parse {arguments : List Token} {places : Nth}
    (h : Nth.parse arguments = .ok places) : Uses isPartSign arguments := by
  intro c hc
  have hposition : isPositionChar c = true := by
    unfold isPositionChar
    -- a space is allowed in any case; what else the argument has is part of a spelling
    cases hspace : isSpace c with
    | true => rfl
    | false =>
      have hmem : c ∈ arguments.flatMap (·.text.toList) :=
        List.mem_flatMap.2 ⟨.delim c, hc, by simp [Token.text]⟩
      rcases (Nth.parse_eq_ok_iff.1 h).mem c (Nth.mem_trim hmem hspace) with
        h | (h | rfl | rfl) | h
      · exact absurd (hspace.symm.trans h) Bool.false_ne_true
      · rw [h]
        rfl
      · rfl
      · rfl
      · rw [h, Bool.or_true]
  rw [isPartSign, hposition, Bool.or_true]

section

variable (hinner : ∀ arguments list, Inner arguments list → Uses isSign arguments)

include hinner

/-- The arguments of a function use the signs of positions or of lists. -/
theorem Function.uses {name : String} {arguments : List Token} {simple : Simple}
    (h : Function Inner name arguments simple) : Uses isSign arguments := by
  cases h with
  | positions _ hplaces => exact (uses_of_parse hplaces).isSign
  | lang hfront htext hback => exact hfront.uses.append (htext.uses hback.uses)
  | list _ hlist => exact hinner _ _ hlist

/-- A condition uses the signs of parts and of the lists within it. -/
theorem Condition.uses {tokens : List Token} {simple : Simple}
    (h : Condition namespaces Inner tokens simple) : Uses isSign tokens := by
  cases h with
  | id => exact Uses.cons nofun uses_nil
  | className => exact Uses.sign rfl (uses_nil.ident _)
  | bracketed hattribute => exact Uses.cons nofun hattribute.uses.isSign
  | pseudoClass => exact Uses.cons nofun (uses_nil.ident _)
  | function _ hfunction =>
    exact Uses.cons nofun <| Uses.cons nofun <|
      (Function.uses hinner hfunction).append (Uses.cons nofun uses_nil)

/-- Conditions in a row use what each of them may use. -/
theorem Conditions.uses {tokens : List Token} {simples : List Simple}
    (h : Conditions namespaces Inner tokens simples) : Uses isSign tokens := by
  induction h with
  | nil => exact uses_nil
  | cons hfirst _ ih => exact (Condition.uses hinner hfirst).append ih

omit hinner in
/-- A pseudo-element uses no signs at all. -/
theorem Ending.uses {tokens : List Token} {pseudoElement? : Option PseudoElement}
    (h : Ending tokens pseudoElement?) : Uses signs tokens := by
  cases h with
  | absent => exact uses_nil
  | double => exact Uses.cons nofun (Uses.cons nofun (uses_nil.ident _))
  | single => exact Uses.cons nofun (uses_nil.ident _)

/-! ## Compounds and lists -/

/-- A compound uses what its type and its conditions may use. -/
theorem Compound.uses {tokens : List Token} {simples : List Simple}
    {pseudoElement? : Option PseudoElement}
    (h : Compound namespaces Inner tokens simples pseudoElement?) : Uses isSign tokens := by
  obtain ⟨hfront, hmiddle, hback, -⟩ := h
  exact (hfront.uses.isSign.append (Conditions.uses hinner hmiddle)).append hback.uses

omit hinner in
/-- A combinator uses its sign. -/
theorem Joint.uses {tokens : List Token} {combinator : Combinator} (h : Joint tokens combinator) :
    Uses isSign tokens := by
  cases h with
  | blank hblanks _ => exact hblanks.uses
  | @sign front back sign combinator hfront hsign hback =>
    have hsigns : ∀ entry ∈ combinatorSigns, isSign entry.1 = true := by decide
    exact hfront.uses.append (Uses.sign (hsigns _ hsign) hback.uses)

/-- A complex selector uses what its compounds and combinators may use. -/
theorem Sequence.uses {tokens : List Token} {complex : Complex}
    {pseudoElement? : Option PseudoElement}
    (h : Sequence namespaces Inner tokens complex pseudoElement?) : Uses isSign tokens := by
  induction h with
  | single hcompound => exact Compound.uses hinner hcompound
  | join _ hjoint hright ih => exact (ih.append hjoint.uses).append (Compound.uses hinner hright)

/-- A list uses what its selectors may use. -/
theorem SelectorList.uses {tokens : List Token} {selectors : List Selector}
    (h : SelectorList namespaces Inner tokens selectors) : Uses isSign tokens := by
  induction h with
  | last hfront hused hback =>
    exact (hfront.uses.append (Sequence.uses hinner hused)).append hback.uses
  | more hfront hused hback _ ih =>
    exact ((hfront.uses.append (Sequence.uses hinner hused)).append hback.uses).append
      (Uses.cons nofun ih)

end

/-- In what the parser accepts no other characters stand for themselves, at any depth. -/
theorem uses_of_parsed {selectors : List Selector} (tokens : List Token)
    (h : Parsed namespaces tokens selectors) : Uses isSign tokens := by
  refine SelectorList.uses ?_ (selectorList_shorter_of_parsed h)
  rintro arguments list ⟨hshorter, hparsed⟩
  exact uses_of_parsed arguments hparsed
termination_by tokens.length

end Grammar

end Selectors
