import Selectors.Query
import Selectors.Proofs.Grammar.Answers
import Selectors.Proofs.Grammar.Lists

/-!
# Breaking off — the texts that the parser gives no answer for

For most texts the parser comes to a selector list or to an error. For some it comes to neither,
because it has to divide an An+B expression within a character. Which ones these are is said here
without a reader: there are tokens over which the parser gets to a condition, since the grammar
derives them as far as they go, and the condition is a function with such an expression; or it is a
function with a list, and what stands in its parentheses is such a text in turn.

Each level of the grammar hands a break on to the one above it. As with the lists that the parser
accepts, nothing is said first about lists in lists, and then the levels are put together: for a
text that is given by induction on the reason, for a reading that breaks off by the length of the
tokens.

* **`Reached`** — the tokens over which the parser gets to a condition.
* **`readList_eq_broken_iff`** — one level of a list.
* **`Breaks`** — the tokens for which there is no answer.
* **`answers_iff_not_breaks`** — for all other texts there is one.
-/

namespace Selectors

namespace Grammar

open Reader

/-! ## The way to a condition -/

section

variable (namespaces : Namespaces) (Inner : List Token → List Selector → Prop)

/-- The compounds before the last one, each with what joins it to the next one; there may be
    none. -/
inductive Lead : List Token → Prop where
  | none : Lead []
  | joined {left joint : List Token} {complex : Complex} {combinator : Combinator} :
      Sequence namespaces Inner left complex none → Joint joint combinator →
      Lead (left ++ joint)

/-- A selector up to a place where a condition may follow. -/
inductive Opening : List Token → Prop where
  | intro {lead front middle : List Token} {conditions simples : List Simple} :
      Lead namespaces Inner lead → TypePart namespaces front conditions →
      Conditions namespaces Inner middle simples → Opening (lead ++ (front ++ middle))

/-- A selector list up to a place where a condition may follow: whole selectors with their commas,
    and the opening of one more. -/
inductive Reached : List Token → Prop where
  | last {front opening : List Token} :
      Blanks front → Opening namespaces Inner opening → Reached (front ++ opening)
  | more {front tokens back rest : List Token} {complex : Complex}
      {pseudoElement? : Option PseudoElement} :
      Blanks front → Sequence namespaces Inner tokens complex pseudoElement? → Blanks back →
      Reached rest → Reached (front ++ tokens ++ back ++ .comma :: rest)

end

/-- The tokens that the parser does not come to an answer for. -/
inductive Breaks (namespaces : Namespaces) : List Token → Prop where
  | positions {front arguments rest : List Token} {name : String} {count : Count} :
      Reached namespaces (Derives namespaces) front →
      (name.toLower, count) ∈ positionalNames → Balanced arguments →
      Nth.WideSign ((Nth.argumentText arguments).map Char.toLower) →
      Breaks namespaces (front ++ .colon :: .function name :: (arguments ++ .rightParen :: rest))
  | list {front arguments rest : List Token} {name : String} {make : List Complex → Simple} :
      Reached namespaces (Derives namespaces) front →
      (name.toLower, make) ∈ listNames → Balanced arguments → Breaks namespaces arguments →
      Breaks namespaces (front ++ .colon :: .function name :: (arguments ++ .rightParen :: rest))

/-! ## Compounds -/

variable {ctx : Context} {namespaces : Namespaces} {Inner : List Token → List Selector → Prop}
  {P : String → List Token → Prop}

/-- A function after a colon starts a condition. -/
theorem StartsCall.startsPart {tokens : List Token} (h : StartsCall P tokens) :
    StartsPart tokens := by
  obtain ⟨name, arguments, rest, rfl, -, -⟩ := h
  exact ⟨.colon, rfl, Or.inr (by simp)⟩

private theorem startsPart_conditions {middle back : List Token} {simples : List Simple}
    (hmiddle : Conditions namespaces Inner middle simples) (hback : StartsCall P back) :
    StartsPart (middle ++ back) := by
  cases hmiddle with
  | nil => exact hback.startsPart
  | cons hfirst _ =>
    rw [List.append_assoc]
    exact hfirst.startsPart _

/-- Conditions break off at a function that does. -/
theorem readParts_broken (hinner : Agrees ctx Inner) {middle back : List Token}
    {simples : List Simple} (hmiddle : Conditions ctx.namespaces Inner middle simples)
    (hback : StartsCall (FunctionBreaks ctx) back) :
    readParts ctx (middle ++ back) = .error .brokenCharacter := by
  induction hmiddle with
  | nil => rw [List.nil_append, readParts_eq, readPart_eq_broken_iff.2 hback]
  | cons hfirst _ ih =>
    rw [List.append_assoc, readParts_eq, (readPart_simple_iff hinner).2 ⟨_, hfirst, rfl⟩]
    exact bind_eq_broken.2 (Or.inl ih)

/-- Where conditions break off, a function does so after some that were read. -/
theorem conditions_of_readParts_broken (hinner : Agrees ctx Inner) (tokens : List Token)
    (h : readParts ctx tokens = .error .brokenCharacter) :
    ∃ middle back simples, Conditions ctx.namespaces Inner middle simples ∧
      StartsCall (FunctionBreaks ctx) back ∧ tokens = middle ++ back := by
  rw [readParts_eq] at h
  split at h
  · next hpart =>
    obtain rfl := Except.error.inj h
    exact ⟨[], tokens, [], Conditions.nil, readPart_eq_broken_iff.1 hpart, rfl⟩
  · exact nomatch h
  · exact nomatch h
  · next simple after hpart =>
    have hshorter : after.length < tokens.length := length_readPart hpart
    rcases bind_eq_broken.1 h with hothers | ⟨_, -, hdone⟩
    · obtain ⟨used, hused, rfl⟩ := (readPart_simple_iff hinner).1 hpart
      obtain ⟨middle, back, simples, hmiddle, hback, rfl⟩ :=
        conditions_of_readParts_broken hinner after hothers
      exact ⟨used ++ middle, back, _, Conditions.cons hused hmiddle, hback, by simp⟩
    · exact nomatch hdone
termination_by tokens.length

/-- A compound breaks off at a function that does. -/
theorem readCompound_broken (hinner : Agrees ctx Inner) {front middle back : List Token}
    {conditions simples : List Simple} (hfront : TypePart ctx.namespaces front conditions)
    (hmiddle : Conditions ctx.namespaces Inner middle simples)
    (hback : StartsCall (FunctionBreaks ctx) back) :
    readCompound ctx (front ++ (middle ++ back)) = .error .brokenCharacter := by
  obtain ⟨type?, htype, -, -⟩ :=
    readType_append hfront (noType_of_startsPart (startsPart_conditions hmiddle hback))
  refine bind_eq_broken.2 (Or.inr ⟨_, htype, ?_⟩)
  exact bind_eq_broken.2 (Or.inl (readParts_broken hinner hmiddle hback))

/-- Where a compound breaks off, a function does so after a type and conditions. -/
theorem conditions_of_readCompound_broken (hinner : Agrees ctx Inner) {tokens : List Token}
    (h : readCompound ctx tokens = .error .brokenCharacter) :
    ∃ front middle back conditions simples, TypePart ctx.namespaces front conditions ∧
      Conditions ctx.namespaces Inner middle simples ∧ StartsCall (FunctionBreaks ctx) back ∧
      tokens = front ++ (middle ++ back) := by
  rcases bind_eq_broken.1 h with htype | ⟨⟨type?, afterType⟩, htype, hparts⟩
  · exact absurd htype (answers_iff.1 (answers_readType _ _))
  · obtain ⟨front, hfront, rfl, -, -⟩ := typePart_of_readType htype
    rcases bind_eq_broken.1 hparts with hparts | ⟨⟨⟨others, ending?⟩, after⟩, -, hdone⟩
    · obtain ⟨middle, back, simples, hmiddle, hback, rfl⟩ :=
        conditions_of_readParts_broken hinner afterType hparts
      exact ⟨front, middle, back, _, simples, hfront, hmiddle, hback, rfl⟩
    · dsimp only at hdone
      split at hdone
      · exact nomatch hdone
      · exact nomatch hdone

/-! ## Complex selectors -/

/-- The opening of a compound and a condition do not start as what may follow a compound. -/
theorem not_ends_opening {front middle back : List Token} {conditions simples : List Simple}
    (hfront : TypePart namespaces front conditions)
    (hmiddle : Conditions namespaces Inner middle simples) (hback : StartsCall P back) :
    ¬ Ends (front ++ (middle ++ back)) := by
  by_cases hempty : front ++ middle ++ [] = []
  · rw [List.append_nil, List.append_eq_nil_iff] at hempty
    obtain ⟨rfl, rfl⟩ := hempty
    exact not_ends_of_startsPart hback.startsPart
  · have hnot := (Compound.intro hfront hmiddle Ending.absent hempty).not_ends back
    rwa [List.append_nil, List.append_assoc] at hnot

/-- Reading a combinator answers. -/
theorem answers_readCombinator (tokens : List Token) : Answers (readCombinator tokens) := by
  unfold readCombinator
  split
  · exact answers_ok _
  · exact answers_ok _
  · exact answers_ok _
  · exact answers_ok _
  · exact answers_ok _
  · split
    · exact answers_ok _
    · exact answers_refuse _ _

/-- A selector breaks off at a function that does, in whichever compound. -/
theorem readSelector_broken (hinner : Agrees ctx Inner) {opening back : List Token}
    (hopening : Opening ctx.namespaces Inner opening)
    (hback : StartsCall (FunctionBreaks ctx) back) :
    readSelector ctx (opening ++ back) = .error .brokenCharacter := by
  obtain @⟨lead, front, middle, conditions, simples, hlead, hfront, hmiddle⟩ := hopening
  have hcompound := readCompound_broken hinner hfront hmiddle hback
  rw [List.append_assoc, List.append_assoc]
  cases hlead with
  | none => exact bind_eq_broken.2 (Or.inl hcompound)
  | joined hleft hjoint =>
    rw [List.append_assoc, readSelector_append hinner hleft (hjoint.ends _), readRight_eq,
      readCombinator_append hjoint (not_ends_opening hfront hmiddle hback)]
    dsimp only
    rw [hcompound]

/-- Where the rest of a selector breaks off, a function does so in one of its compounds. -/
theorem opening_of_readRight_broken (hinner : Agrees ctx Inner) {used : List Token}
    (left : Complex) (pseudoElement? : Option PseudoElement) (tokens : List Token)
    (hleft : Sequence ctx.namespaces Inner used left pseudoElement?)
    (h : readRight ctx left pseudoElement? tokens = .error .brokenCharacter) :
    ∃ opening back, Opening ctx.namespaces Inner opening ∧
      StartsCall (FunctionBreaks ctx) back ∧ used ++ tokens = opening ++ back := by
  rw [readRight_eq] at h
  split at h
  · next hcombinator =>
    obtain rfl := Except.error.inj h
    exact absurd hcombinator (answers_iff.1 (answers_readCombinator _))
  · exact nomatch h
  · exact nomatch h
  · next combinator afterJoint hcombinator =>
    have hused := length_readCombinator hcombinator
    obtain ⟨joint, hjoint, rfl⟩ := joint_of_readCombinator hcombinator
    -- the combinator cannot break: either this compound does, or something further right
    split at h
    · next hcompound =>
      obtain rfl := Except.error.inj h
      obtain ⟨front, middle, back, _, _, hfront, hmiddle, hback, rfl⟩ :=
        conditions_of_readCompound_broken hinner hcompound
      exact ⟨_, back, Opening.intro (Lead.joined hleft hjoint) hfront hmiddle, hback, by simp⟩
    · next simples pseudoElement? afterCompound hcompound =>
      have hshorter : afterCompound.length < (joint ++ afterJoint).length := by
        have hless := length_readCompound_le hcompound
        simp only [Option.toList_some, List.length_singleton] at hused
        omega
      obtain ⟨right, hright, rfl⟩ := compound_of_readCompound hinner hcompound
      obtain ⟨opening, back, hopening, hback, htokens⟩ :=
        opening_of_readRight_broken hinner _ _ afterCompound (Sequence.join hleft hjoint hright) h
      refine ⟨opening, back, hopening, hback, ?_⟩
      rw [← htokens]
      simp
termination_by tokens.length

/-- Where a selector breaks off, a function does so in one of its compounds. -/
theorem opening_of_readSelector_broken (hinner : Agrees ctx Inner) {tokens : List Token}
    (h : readSelector ctx tokens = .error .brokenCharacter) :
    ∃ opening back, Opening ctx.namespaces Inner opening ∧
      StartsCall (FunctionBreaks ctx) back ∧ tokens = opening ++ back := by
  rcases bind_eq_broken.1 h with hcompound | ⟨⟨⟨simples, pseudoElement?⟩, after⟩, hcompound, hright⟩
  · obtain ⟨front, middle, back, _, _, hfront, hmiddle, hback, rfl⟩ :=
      conditions_of_readCompound_broken hinner hcompound
    exact ⟨_, back, Opening.intro Lead.none hfront hmiddle, hback, by simp⟩
  · obtain ⟨used, hused, rfl⟩ := compound_of_readCompound hinner hcompound
    exact opening_of_readRight_broken hinner _ _ after (Sequence.single hused) hright

/-! ## Lists -/

/-- A selector that goes on with a function has not ended. -/
theorem Opening.not_ends {opening back : List Token} (h : Opening namespaces Inner opening)
    (hback : StartsCall P back) : ¬ Ends (opening ++ back) := by
  obtain ⟨hlead, hfront, hmiddle⟩ := h
  rw [List.append_assoc, List.append_assoc]
  cases hlead with
  | none =>
    rw [List.nil_append]
    exact not_ends_opening hfront hmiddle hback
  | joined hleft _ =>
    rw [List.append_assoc]
    exact hleft.not_ends _

/-- A list breaks off at a function that does, in whichever selector. -/
theorem readList_broken (hinner : Agrees ctx Inner) {front back : List Token}
    (hfront : Reached ctx.namespaces Inner front)
    (hback : StartsCall (FunctionBreaks ctx) back) :
    readList ctx (front ++ back) = .error .brokenCharacter := by
  induction hfront with
  | last hblanks hopening =>
    rw [List.append_assoc, readList_of_not_ends hblanks (hopening.not_ends hback),
      readSelector_broken hinner hopening hback]
  | @more front used gap rest complex pseudoElement? hblanks hused hgap _ ih =>
    rw [List.append_assoc, List.cons_append,
      @readList_more ctx Inner hinner front used gap ⟨complex, pseudoElement?⟩ hblanks hused hgap]
    exact map_eq_broken.2 ih

/-- Where a list breaks off, a function does so in one of its selectors. -/
theorem reached_of_readList_broken (hinner : Agrees ctx Inner) (tokens : List Token)
    (h : readList ctx tokens = .error .brokenCharacter) :
    ∃ front back, Reached ctx.namespaces Inner front ∧ StartsCall (FunctionBreaks ctx) back ∧
      tokens = front ++ back := by
  obtain ⟨blanks, hblanks, htokens⟩ := exists_blanks tokens
  rw [readList_eq] at h
  split at h
  · exact nomatch h
  · exact nomatch h
  · next first others _ hskip =>
    rw [hskip] at htokens
    -- this selector breaks, or it is read and one after its comma does
    split at h
    · next hselector =>
      obtain rfl := Except.error.inj h
      obtain ⟨opening, back, hopening, hback, hsplit⟩ :=
        opening_of_readSelector_broken hinner hselector
      exact ⟨_, back, Reached.last hblanks hopening, hback, by rw [htokens, hsplit]; simp⟩
    · exact nomatch h
    · next selector rest hselector =>
      have hshorter : rest.length < tokens.length := by
        have hless := length_readSelector_le hselector
        rw [htokens, List.length_append]
        simp only [List.length_cons] at hless ⊢
        omega
      obtain ⟨used, gap, hused, hgap, hsplit, -⟩ := sequence_of_readSelector hinner hselector
      obtain ⟨front, back, hfront, hback, rfl⟩ :=
        reached_of_readList_broken hinner rest (map_eq_broken.1 h)
      exact ⟨_, back, Reached.more hblanks hused hgap hfront, hback, by rw [htokens, hsplit]; simp⟩
    · exact nomatch h
termination_by tokens.length

/-- Reading a list breaks off exactly at a function, reached over the grammar, for which it
    does. -/
theorem readList_eq_broken_iff (hinner : Agrees ctx Inner) {tokens : List Token} :
    readList ctx tokens = .error .brokenCharacter ↔
      ∃ front back, Reached ctx.namespaces Inner front ∧ StartsCall (FunctionBreaks ctx) back ∧
        tokens = front ++ back := by
  constructor
  · exact reached_of_readList_broken hinner tokens
  · rintro ⟨front, back, hfront, hback, rfl⟩
    exact readList_broken hinner hfront hback

/-! ## Lists within lists -/

private theorem answers_withoutPseudoElements (selectors : List Selector) :
    Answers (withoutPseudoElements selectors) := by
  induction selectors with
  | nil => exact answers_ok _
  | cons selector rest ih =>
    obtain ⟨complex, pseudoElement?⟩ := selector
    cases pseudoElement? with
    | none => exact ih.map _
    | some pseudoElement => exact answers_reject _

/-- An inner list breaks off where the list does. -/
theorem parseInner_eq_broken_iff {tokens : List Token} :
    parseInner namespaces tokens = .error .brokenCharacter ↔
      parseTokens namespaces tokens = .error .brokenCharacter := by
  rw [parseInner, bind_eq_broken]
  refine or_iff_left ?_
  rintro ⟨selectors, -, h⟩
  exact answers_iff.1 (answers_withoutPseudoElements selectors) h

/-- The parser breaks off at a function of one of the two kinds, reached over the grammar. -/
theorem parseTokens_eq_broken_iff {tokens : List Token} :
    parseTokens namespaces tokens = .error .brokenCharacter ↔
      ∃ front back, Reached namespaces (Derives namespaces) front ∧
        StartsCall (FunctionBreaks ⟨namespaces, parseInner namespaces⟩) back ∧
        tokens = front ++ back := by
  have hagrees : Agrees ⟨namespaces, parseInner namespaces⟩ (Derives namespaces) := by
    intro arguments list
    rw [agrees_parseInner namespaces arguments list]
    exact ⟨derives_of_parsed arguments, parsed_of_derives arguments⟩
  rw [parseTokens_eq]
  exact readList_eq_broken_iff hagrees

/-- Tokens that the grammar calls broken break off. -/
theorem parseTokens_of_breaks {tokens : List Token} (h : Breaks namespaces tokens) :
    parseTokens namespaces tokens = .error .brokenCharacter := by
  induction h with
  | positions hfront hname hbalanced hwide =>
    refine parseTokens_eq_broken_iff.2 ⟨_, _, hfront, ⟨_, _, _, rfl, hbalanced, ?_⟩, rfl⟩
    exact readFunction_eq_broken_iff.2 (Or.inl ⟨_, hname, hwide⟩)
  | list hfront hname hbalanced _ ih =>
    refine parseTokens_eq_broken_iff.2 ⟨_, _, hfront, ⟨_, _, _, rfl, hbalanced, ?_⟩, rfl⟩
    exact readFunction_eq_broken_iff.2 (Or.inr ⟨_, hname, parseInner_eq_broken_iff.2 ih⟩)

/-- Where reading breaks off, the grammar calls the tokens broken. -/
theorem breaks_of_parseTokens (tokens : List Token)
    (h : parseTokens namespaces tokens = .error .brokenCharacter) : Breaks namespaces tokens := by
  obtain ⟨front, _, hfront, ⟨name, arguments, rest, rfl, hbalanced, hbreaks⟩, rfl⟩ :=
    parseTokens_eq_broken_iff.1 h
  rcases readFunction_eq_broken_iff.1 hbreaks with ⟨count, hname, hwide⟩ | ⟨make, hname, hnested⟩
  · exact Breaks.positions hfront hname hbalanced hwide
  · -- a list in parentheses is shorter than the list around it
    have hshorter : arguments.length <
        (front ++ .colon :: .function name :: (arguments ++ .rightParen :: rest)).length := by
      simp only [List.length_append, List.length_cons]
      omega
    exact Breaks.list hfront hname hbalanced
      (breaks_of_parseTokens arguments (parseInner_eq_broken_iff.1 hnested))
termination_by tokens.length

/-- A text is parsed to a selector list or refused with an error, except for the texts that break;
    and so it is if it is compiled. -/
theorem answers_iff_not_breaks (namespaces : Namespaces) (text : String) :
    (Answers (parseSelectors namespaces text) ↔ ¬ Breaks namespaces (tokenize text)) ∧
      (Answers (compileSelectors namespaces text) ↔ ¬ Breaks namespaces (tokenize text)) := by
  have hparse : Answers (parseSelectors namespaces text) ↔
      ¬ Breaks namespaces (tokenize text) := by
    rw [answers_iff]
    exact not_congr ⟨breaks_of_parseTokens _, parseTokens_of_breaks⟩
  refine ⟨hparse, ?_⟩
  rw [← hparse, compileSelectors, answers_iff, answers_iff, Ne, map_eq_broken]

/-- A letter of two bytes after `n` is such a text. -/
theorem not_answers_wide_letter : ¬ Answers (parseSelectors .empty ":nth-child(né)") := by
  have hbroken : parseSelectors .empty ":nth-child(né)" = .error .brokenCharacter := by
    with_unfolding_all rfl
  rw [hbroken, answers_iff]
  exact fun hne => hne rfl

end Grammar

end Selectors
