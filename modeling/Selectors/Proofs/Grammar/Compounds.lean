import Selectors.Proofs.Grammar.Conditions
import Selectors.Selector.Parser.Equations

/-!
# Compounds and complex selectors — where they end

Conditions follow each other without a sign between them, so a compound goes on as long as it can.
It ends before a blank, a comma or the sign of a combinator, and none of these starts one; this is
what makes the longest reading the only one. A complex selector is read from left to right while
the rule for it takes the last compound off, and so the reading of the first compounds leaves the
state from which the others are read (`readSelector_append`).

* **`Ends`** — the tokens that may follow a compound.
* **`compound_of_readCompound`** and **`readCompound_append`** — compounds.
* **`sequence_of_readRight`** and **`readSelector_append`** — complex selectors.
-/

namespace Selectors

namespace Grammar

open Reader

/-! ## Starts and ends -/

/-- The tokens are at an end, or a blank, a comma or the sign of a combinator comes next. -/
def Ends (tokens : List Token) : Prop :=
  ∀ token ∈ tokens.head?,
    token ∈ [Token.blank, .comma, .delim '>', .delim '+', .delim '~']

/-- The tokens start as a condition or a pseudo-element does. -/
def StartsPart (tokens : List Token) : Prop :=
  ∃ token ∈ tokens.head?, (∃ name, token = .hash name true) ∨
    token ∈ [Token.delim '.', .leftBracket, .colon]

/-- A compound ends with the tokens. -/
theorem ends_nil : Ends [] :=
  nofun

private theorem noType_of_ends {tokens : List Token} (h : Ends tokens) : NoType tokens := by
  refine ⟨?_, ?_, ?_⟩
  · rintro name rest rfl
    exact absurd (h _ rfl) (by simp)
  · rintro rest rfl
    exact absurd (h _ rfl) (by decide)
  · rintro rest rfl
    exact absurd (h _ rfl) (by decide)

/-- No type starts like a condition. -/
theorem noType_of_startsPart {tokens : List Token} (h : StartsPart tokens) : NoType tokens := by
  obtain ⟨token, htoken, hstart⟩ := h
  refine ⟨?_, ?_, ?_⟩
  · rintro name rest rfl
    obtain rfl := Option.some.inj htoken
    simp at hstart
  · rintro rest rfl
    obtain rfl := Option.some.inj htoken
    simp at hstart
  · rintro rest rfl
    obtain rfl := Option.some.inj htoken
    simp at hstart

/-- A compound does not end in front of a condition. -/
theorem not_ends_of_startsPart {tokens : List Token} (h : StartsPart tokens) : ¬ Ends tokens := by
  obtain ⟨token, htoken, hstart⟩ := h
  intro hends
  have hend := hends token htoken
  rcases hstart with ⟨name, rfl⟩ | hstart
  · simp at hend
  · simp only [List.mem_cons, List.not_mem_nil, or_false] at hstart
    rcases hstart with rfl | rfl | rfl
    · exact absurd hend (by decide)
    · exact absurd hend (by decide)
    · exact absurd hend (by decide)

variable {ctx : Context} {namespaces : Namespaces} {Inner : List Token → List Selector → Prop}

/-- A condition starts like one. -/
theorem Condition.startsPart {used : List Token} {simple : Simple}
    (h : Condition namespaces Inner used simple) (rest : List Token) :
    StartsPart (used ++ rest) := by
  cases h with
  | id name => exact ⟨_, rfl, Or.inl ⟨name, rfl⟩⟩
  | className => exact ⟨_, rfl, Or.inr (by simp)⟩
  | bracketed => exact ⟨_, rfl, Or.inr (by simp)⟩
  | pseudoClass => exact ⟨_, rfl, Or.inr (by simp)⟩
  | function => exact ⟨_, rfl, Or.inr (by simp)⟩

/-- A pseudo-element starts like a condition. -/
theorem Ending.startsPart {used : List Token} {pseudoElement : PseudoElement}
    (h : Ending used (some pseudoElement)) (rest : List Token) : StartsPart (used ++ rest) := by
  cases h with
  | double => exact ⟨_, rfl, Or.inr (by simp)⟩
  | single => exact ⟨_, rfl, Or.inr (by simp)⟩

/-- What follows the type is the start of a part, or the end of the compound. -/
theorem startsPart_or_eq {middle back : List Token} {simples : List Simple}
    {pseudoElement? : Option PseudoElement} (hmiddle : Conditions namespaces Inner middle simples)
    (hback : Ending back pseudoElement?) (rest : List Token) :
    StartsPart (middle ++ (back ++ rest)) ∨
      (middle = [] ∧ simples = [] ∧ back = [] ∧ pseudoElement? = none) := by
  cases hmiddle with
  | nil =>
    cases pseudoElement? with
    | none =>
      cases hback
      exact Or.inr ⟨rfl, rfl, rfl, rfl⟩
    | some pseudoElement => exact Or.inl (hback.startsPart rest)
  | cons hfirst _ =>
    rw [List.append_assoc]
    exact Or.inl (hfirst.startsPart _)

/-! ## Conditions and compounds -/

/-- Where a compound ends no condition is read. -/
theorem readPart_of_ends {tokens : List Token} (h : Ends tokens) :
    readPart ctx tokens = .ok (none, tokens) := by
  cases tokens with
  | nil => rfl
  | cons token rest =>
    have hend := h token rfl
    simp only [List.mem_cons, List.not_mem_nil, or_false] at hend
    rcases hend with rfl | rfl | rfl | rfl | rfl
    · rfl
    · rfl
    · rfl
    · rfl
    · rfl

/-- What is read as conditions are conditions and a pseudo-element, up to where the compound ends.
    -/
theorem parts_of_readParts (hinner : Agrees ctx Inner) {rest : List Token}
    {simples : List Simple} {pseudoElement? : Option PseudoElement} (tokens : List Token)
    (h : readParts ctx tokens = .ok ((simples, pseudoElement?), rest)) :
    ∃ middle back, Conditions ctx.namespaces Inner middle simples ∧
      Ending back pseudoElement? ∧ tokens = middle ++ (back ++ rest) := by
  rw [readParts_eq] at h
  split at h
  · exact nomatch h
  · next hnone =>
    obtain ⟨hpair, rfl⟩ := Prod.mk.inj (Except.ok.inj h)
    obtain ⟨rfl, rfl⟩ := Prod.mk.inj hpair
    exact ⟨[], [], Conditions.nil, Ending.absent, eq_of_readPart_none hnone⟩
  · next hending =>
    obtain ⟨hpair, rfl⟩ := Prod.mk.inj (Except.ok.inj h)
    obtain ⟨rfl, rfl⟩ := Prod.mk.inj hpair
    obtain ⟨used, hused, rfl⟩ := readPart_pseudoElement_iff.1 hending
    exact ⟨[], used, Conditions.nil, hused, rfl⟩
  · next simple after hpart =>
    obtain ⟨⟨⟨others, ending?⟩, after'⟩, hothers, h⟩ := bind_eq_ok.1 h
    obtain ⟨hpair, rfl⟩ := Prod.mk.inj (Except.ok.inj h)
    obtain ⟨rfl, rfl⟩ := Prod.mk.inj hpair
    have hshorter : after.length < tokens.length := length_readPart hpart
    obtain ⟨used, hused, rfl⟩ := (readPart_simple_iff hinner).1 hpart
    obtain ⟨middle, back, hmiddle, hback, rfl⟩ := parts_of_readParts hinner after hothers
    exact ⟨used ++ middle, back, Conditions.cons hused hmiddle, hback, by simp⟩
termination_by tokens.length

/-- Conditions and a pseudo-element are read up to where the compound ends. -/
theorem readParts_append (hinner : Agrees ctx Inner) {middle back rest : List Token}
    {simples : List Simple} {pseudoElement? : Option PseudoElement}
    (hmiddle : Conditions ctx.namespaces Inner middle simples)
    (hback : Ending back pseudoElement?) (hrest : Ends rest) :
    readParts ctx (middle ++ (back ++ rest)) = .ok ((simples, pseudoElement?), rest) := by
  induction hmiddle with
  | nil =>
    rw [List.nil_append, readParts_eq]
    cases pseudoElement? with
    | none =>
      cases hback
      rw [List.nil_append, readPart_of_ends hrest]
    | some pseudoElement => rw [readPart_pseudoElement_iff.2 ⟨back, hback, rfl⟩]
  | cons hfirst _ ih =>
    rw [List.append_assoc, readParts_eq, (readPart_simple_iff hinner).2 ⟨_, hfirst, rfl⟩]
    dsimp only
    rw [ih]
    rfl

/-- What is read as a compound is one. -/
theorem compound_of_readCompound (hinner : Agrees ctx Inner) {tokens rest : List Token}
    {simples : List Simple} {pseudoElement? : Option PseudoElement}
    (h : readCompound ctx tokens = .ok ((simples, pseudoElement?), rest)) :
    ∃ used, Compound ctx.namespaces Inner used simples pseudoElement? ∧ tokens = used ++ rest := by
  obtain ⟨⟨type?, afterType⟩, htype, h⟩ := bind_eq_ok.1 h
  obtain ⟨⟨⟨others, ending?⟩, after⟩, hparts, hresult⟩ := bind_eq_ok.1 h
  obtain ⟨front, hfront, rfl, -, hwritten⟩ := typePart_of_readType htype
  obtain ⟨middle, back, hmiddle, hback, rfl⟩ := parts_of_readParts hinner afterType hparts
  dsimp only at hresult
  split at hresult
  · exact absurd hresult refuse_ne_ok
  · next hsome =>
    obtain ⟨hpair, rfl⟩ := Prod.mk.inj (Except.ok.inj hresult)
    obtain ⟨rfl, rfl⟩ := Prod.mk.inj hpair
    refine ⟨_, Compound.intro hfront hmiddle hback ?_, by simp⟩
    -- no tokens would mean that nothing has been read
    intro hempty
    obtain ⟨hboth, rfl⟩ := List.append_eq_nil_iff.1 hempty
    obtain ⟨rfl, rfl⟩ := List.append_eq_nil_iff.1 hboth
    have hnone : type? = none := Classical.byContradiction fun hne => hwritten hne rfl
    rcases startsPart_or_eq hmiddle hback [] with ⟨_, hnothing, -⟩ | ⟨-, rfl, -, rfl⟩
    · exact nomatch hnothing
    · exact hsome (by rw [hnone]; rfl)

/-- A compound is read up to where it ends. -/
theorem readCompound_append (hinner : Agrees ctx Inner) {used rest : List Token}
    {simples : List Simple} {pseudoElement? : Option PseudoElement}
    (hused : Compound ctx.namespaces Inner used simples pseudoElement?) (hrest : Ends rest) :
    readCompound ctx (used ++ rest) = .ok ((simples, pseudoElement?), rest) := by
  obtain @⟨front, middle, back, conditions, others, _, hfront, hmiddle, hback, hne⟩ := hused
  have hstart := startsPart_or_eq hmiddle hback rest
  have hnoType : NoType (middle ++ (back ++ rest)) := by
    rcases hstart with hstart | ⟨rfl, -, rfl, -⟩
    · exact noType_of_startsPart hstart
    · exact noType_of_ends hrest
  obtain ⟨type?, htype, rfl, habsent⟩ := readType_append hfront hnoType
  rw [show front ++ middle ++ back ++ rest = front ++ (middle ++ (back ++ rest)) by simp]
  refine bind_eq_ok.2 ⟨_, htype, bind_eq_ok.2 ⟨_, readParts_append hinner hmiddle hback hrest, ?_⟩⟩
  dsimp only
  rw [if_neg]
  intro hnothing
  simp only [Bool.and_eq_true, Option.isNone_iff_eq_none, List.isEmpty_iff] at hnothing
  obtain ⟨⟨htype?, rfl⟩, rfl⟩ := hnothing
  obtain rfl := habsent htype?
  cases hmiddle
  cases hback
  exact hne rfl

/-- No compound starts as what may follow one. -/
theorem Compound.not_ends {used : List Token} {simples : List Simple}
    {pseudoElement? : Option PseudoElement}
    (h : Compound namespaces Inner used simples pseudoElement?) (rest : List Token) :
    ¬ Ends (used ++ rest) := by
  obtain ⟨hfront, hmiddle, hback, hne⟩ := h
  cases hfront with
  | absent =>
    rw [List.nil_append, List.append_assoc]
    rcases startsPart_or_eq hmiddle hback rest with hstart | ⟨rfl, -, rfl, -⟩
    · exact not_ends_of_startsPart hstart
    · exact absurd rfl hne
  | written hqualifier hname =>
    intro hends
    cases hqualifier with
    | declared => exact absurd (hends _ rfl) (by simp)
    | any => exact absurd (hends _ rfl) (by decide)
    | empty => exact absurd (hends _ rfl) (by decide)
    | absent =>
      cases hname with
      | name => exact absurd (hends _ rfl) (by simp)
      | asterisk => exact absurd (hends _ rfl) (by decide)

/-! ## Combinators -/

/-- A compound ends in front of blanks at the end of its selector. -/
theorem ends_of_blanks {back rest : List Token} (hback : Blanks back)
    (hrest : rest = [] ∨ ∃ after, rest = .comma :: after) : Ends (back ++ rest) := by
  cases back with
  | nil =>
    rcases hrest with rfl | ⟨after, rfl⟩
    · exact ends_nil
    · rintro token ⟨⟩
      decide
  | cons token back =>
    obtain rfl := hback token List.mem_cons_self
    rintro token ⟨⟩
    decide

/-- A compound ends in front of a combinator. -/
theorem Joint.ends {joint : List Token} {combinator : Combinator} (h : Joint joint combinator)
    (rest : List Token) : Ends (joint ++ rest) := by
  cases h with
  | blank hblanks hne =>
    obtain ⟨token, others, rfl⟩ := List.exists_cons_of_ne_nil hne
    obtain rfl := hblanks token List.mem_cons_self
    rintro token ⟨⟩
    decide
  | @sign front back sign _ hfront hsign _ =>
    rw [List.append_assoc]
    cases front with
    | nil =>
      rintro token ⟨⟩
      simp only [combinatorSigns, List.mem_cons, Prod.mk.injEq, List.not_mem_nil,
        or_false] at hsign
      rcases hsign with ⟨rfl, -⟩ | ⟨rfl, -⟩ | ⟨rfl, -⟩
      · decide
      · decide
      · decide
    | cons token front =>
      obtain rfl := hfront token List.mem_cons_self
      rintro token ⟨⟩
      decide

/-- What is read as a combinator is one. -/
theorem joint_of_readCombinator {tokens rest : List Token} {combinator : Combinator}
    (h : readCombinator tokens = .ok (some combinator, rest)) :
    ∃ joint, Joint joint combinator ∧ tokens = joint ++ rest := by
  obtain ⟨front, hfront, htokens⟩ := exists_blanks tokens
  have hsign : ∀ {sign after}, (sign, combinator) ∈ combinatorSigns →
      skipBlanks tokens = .delim sign :: after → skipBlanks after = rest →
        ∃ joint, Joint joint combinator ∧ tokens = joint ++ rest := by
    rintro sign after hsign hskip rfl
    obtain ⟨back, hback, hafter⟩ := exists_blanks after
    refine ⟨_, Joint.sign hfront hsign hback, ?_⟩
    rw [List.append_assoc, List.cons_append, ← hafter, ← hskip]
    exact htokens
  unfold readCombinator at h
  split at h
  · exact nomatch h
  · exact nomatch h
  · next hskip =>
    obtain ⟨hsome, hrest⟩ := Prod.mk.inj (Except.ok.inj h)
    obtain rfl := Option.some.inj hsome
    exact hsign (by simp [combinatorSigns]) hskip hrest
  · next hskip =>
    obtain ⟨hsome, hrest⟩ := Prod.mk.inj (Except.ok.inj h)
    obtain rfl := Option.some.inj hsome
    exact hsign (by simp [combinatorSigns]) hskip hrest
  · next hskip =>
    obtain ⟨hsome, hrest⟩ := Prod.mk.inj (Except.ok.inj h)
    obtain rfl := Option.some.inj hsome
    exact hsign (by simp [combinatorSigns]) hskip hrest
  · split at h
    · next hhead =>
      obtain ⟨hsome, hrest⟩ := Prod.mk.inj (Except.ok.inj h)
      obtain rfl := Option.some.inj hsome
      subst hrest
      refine ⟨front, Joint.blank hfront ?_, htokens⟩
      -- a blank in front has been skipped
      rintro rfl
      have hshorter := length_skipBlanks_lt hhead
      rw [← List.nil_append (skipBlanks tokens), ← htokens] at hshorter
      exact Nat.lt_irrefl _ hshorter
    · exact absurd h refuse_ne_ok

/-- Where no combinator is read the selector has ended, up to blanks. -/
theorem blanks_of_readCombinator {tokens rest : List Token}
    (h : readCombinator tokens = .ok (none, rest)) :
    ∃ back, Blanks back ∧ tokens = back ++ rest ∧
      (rest = [] ∨ ∃ after, rest = .comma :: after) := by
  obtain ⟨front, hfront, htokens⟩ := exists_blanks tokens
  unfold readCombinator at h
  split at h
  · next hskip =>
    obtain ⟨-, rfl⟩ := Prod.mk.inj (Except.ok.inj h)
    exact ⟨front, hfront, hskip ▸ htokens, Or.inl rfl⟩
  · next hskip =>
    obtain ⟨-, rfl⟩ := Prod.mk.inj (Except.ok.inj h)
    exact ⟨front, hfront, hskip ▸ htokens, Or.inr ⟨_, rfl⟩⟩
  · exact nomatch h
  · exact nomatch h
  · exact nomatch h
  · split at h
    · exact nomatch h
    · exact absurd h refuse_ne_ok

/-- Where a compound goes on there are no blanks to skip. -/
theorem skipBlanks_of_not_ends {tokens : List Token} (h : ¬ Ends tokens) :
    skipBlanks tokens = tokens := by
  cases tokens with
  | nil => rfl
  | cons token rest =>
    refine skipBlanks_eq_cons_iff.2 ⟨?_, [], nofun, rfl⟩
    rintro rfl
    refine h ?_
    rintro token ⟨⟩
    decide

/-- A combinator is read in front of a compound. -/
theorem readCombinator_append {joint rest : List Token} {combinator : Combinator}
    (hjoint : Joint joint combinator) (hrest : ¬ Ends rest) :
    readCombinator (joint ++ rest) = .ok (some combinator, rest) := by
  unfold readCombinator
  cases hjoint with
  | blank hblanks hne =>
    have hhead : (joint ++ rest).head? = some .blank := by
      obtain ⟨token, others, rfl⟩ := List.exists_cons_of_ne_nil hne
      obtain rfl := hblanks token List.mem_cons_self
      rfl
    rw [skipBlanks_append hblanks, skipBlanks_of_not_ends hrest]
    -- none of the tokens that are looked for is at the start of a compound
    have hnot : ∀ {token after}, token ∈ [Token.blank, .comma, .delim '>', .delim '+', .delim '~'] →
        rest ≠ token :: after := by
      rintro token after htoken rfl
      refine hrest ?_
      rintro token ⟨⟩
      exact htoken
    split
    · exact absurd ends_nil hrest
    · exact absurd rfl (hnot (by decide))
    · exact absurd rfl (hnot (by decide))
    · exact absurd rfl (hnot (by decide))
    · exact absurd rfl (hnot (by decide))
    · rw [if_pos hhead]
  | @sign front back sign _ hfront hsign hback =>
    rw [List.append_assoc, List.cons_append, skipBlanks_append hfront]
    have hafter : skipBlanks (back ++ rest) = rest := by
      rw [skipBlanks_append hback, skipBlanks_of_not_ends hrest]
    simp only [combinatorSigns, List.mem_cons, Prod.mk.injEq, List.not_mem_nil,
      or_false] at hsign
    rcases hsign with ⟨rfl, rfl⟩ | ⟨rfl, rfl⟩ | ⟨rfl, rfl⟩
    · show Except.ok (some Combinator.child, skipBlanks (back ++ rest)) = _
      rw [hafter]
    · show Except.ok (some Combinator.nextSibling, skipBlanks (back ++ rest)) = _
      rw [hafter]
    · show Except.ok (some Combinator.subsequentSibling, skipBlanks (back ++ rest)) = _
      rw [hafter]

/-- At the end of a selector no combinator is read. -/
theorem readCombinator_blanks {back rest : List Token} (hback : Blanks back)
    (hrest : rest = [] ∨ ∃ after, rest = .comma :: after) :
    readCombinator (back ++ rest) = .ok (none, rest) := by
  unfold readCombinator
  rw [skipBlanks_append hback]
  rcases hrest with rfl | ⟨after, rfl⟩
  · rfl
  · rfl

/-! ## Complex selectors -/

/-- What is read to the right of a complex selector makes it a longer one. -/
theorem sequence_of_readRight (hinner : Agrees ctx Inner) {rest used : List Token}
    {selector : Selector} (left : Complex) (pseudoElement? : Option PseudoElement)
    (tokens : List Token) (hleft : Sequence ctx.namespaces Inner used left pseudoElement?)
    (h : readRight ctx left pseudoElement? tokens = .ok (selector, rest)) :
    ∃ used' back, Sequence ctx.namespaces Inner used' selector.complex selector.pseudoElement? ∧
      Blanks back ∧ used ++ tokens = used' ++ (back ++ rest) ∧
        (rest = [] ∨ ∃ after, rest = .comma :: after) := by
  -- on what is left to read; `used` grows by one combinator and one compound in each round
  rw [readRight_eq] at h
  split at h
  · exact nomatch h
  · next hnone =>
    obtain ⟨rfl, rfl⟩ := Prod.mk.inj (Except.ok.inj h)
    obtain ⟨back, hback, rfl, hafter⟩ := blanks_of_readCombinator hnone
    exact ⟨used, back, hleft, hback, rfl, hafter⟩
  · exact absurd h reject_ne_ok
  · next combinator afterJoint hcombinator =>
    split at h
    · exact nomatch h
    · next simples pseudoElement? afterCompound hcompound =>
      have hshorter : afterCompound.length < tokens.length := by
        have hused := length_readCombinator hcombinator
        have hless := length_readCompound_le hcompound
        simp only [Option.toList_some, List.length_singleton] at hused
        omega
      obtain ⟨joint, hjoint, rfl⟩ := joint_of_readCombinator hcombinator
      obtain ⟨right, hright, rfl⟩ := compound_of_readCompound hinner hcompound
      obtain ⟨used', back, hsequence, hback, htokens, hafter⟩ :=
        sequence_of_readRight hinner _ _ afterCompound (Sequence.join hleft hjoint hright) h
      refine ⟨used', back, hsequence, hback, ?_, hafter⟩
      rw [← htokens]
      simp
termination_by tokens.length

/-- What is read as a selector is one, up to blanks at its end. -/
theorem sequence_of_readSelector (hinner : Agrees ctx Inner) {tokens rest : List Token}
    {selector : Selector} (h : readSelector ctx tokens = .ok (selector, rest)) :
    ∃ used back, Sequence ctx.namespaces Inner used selector.complex selector.pseudoElement? ∧
      Blanks back ∧ tokens = used ++ (back ++ rest) ∧
        (rest = [] ∨ ∃ after, rest = .comma :: after) := by
  obtain ⟨⟨⟨simples, pseudoElement?⟩, after⟩, hcompound, hright⟩ := bind_eq_ok.1 h
  obtain ⟨used, hused, rfl⟩ := compound_of_readCompound hinner hcompound
  exact sequence_of_readRight hinner _ _ after (Sequence.single hused) hright

/-- Reading a selector gets to where its compounds have been read. -/
theorem readSelector_append (hinner : Agrees ctx Inner) {used rest : List Token}
    {complex : Complex} {pseudoElement? : Option PseudoElement}
    (hused : Sequence ctx.namespaces Inner used complex pseudoElement?) (hrest : Ends rest) :
    readSelector ctx (used ++ rest) = readRight ctx complex pseudoElement? rest := by
  induction hused generalizing rest with
  | single hcompound =>
    unfold readSelector
    rw [readCompound_append hinner hcompound hrest]
    rfl
  | @join left joint right complex combinator simples pseudoElement? _ hjoint hright ih =>
    rw [List.append_assoc, List.append_assoc, ih (hjoint.ends _), readRight_eq,
      readCombinator_append hjoint (hright.not_ends rest)]
    dsimp only
    rw [readCompound_append hinner hright hrest]

/-- A complex selector does not start where a compound ends. -/
theorem Sequence.not_ends {used : List Token} {complex : Complex}
    {pseudoElement? : Option PseudoElement}
    (h : Sequence namespaces Inner used complex pseudoElement?) (rest : List Token) :
    ¬ Ends (used ++ rest) := by
  induction h generalizing rest with
  | single hcompound => exact hcompound.not_ends rest
  | join _ _ _ ih =>
    rw [List.append_assoc, List.append_assoc]
    exact ih _

end Grammar

end Selectors
