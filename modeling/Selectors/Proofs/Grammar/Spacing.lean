import Selectors.Proofs.Grammar.Balance
import Selectors.Proofs.Grammar.Signs

/-!
# Spacing — blanks in front of the child combinator

Blanks around the sign of a combinator mean nothing. For the sign of the child combinator this holds
of every place in the tokens at once, also within functions, since the sign stands for nothing else:
no part of a compound has it outside of a list. So tokens that differ in the blanks in front of that
sign are derived for the same lists, and where they are no list it is for all of them.

The rules put tokens side by side, and a change of the blanks has to be divided in the same way. That
is possible except where blanks end one part and the sign begins the next, which no rule but the one
of the combinator itself allows.

* **`Respaced`** — tokens that differ in these blanks; **`Respaced.split`** divides them.
* **`parsed_iff_of_respaced`** — the parser reads the same from both.
-/

namespace Selectors

namespace Grammar

/-- The tokens are the same up to the blanks in front of any child combinator. -/
inductive Respaced : List Token → List Token → Prop where
  | nil : Respaced [] []
  | keep {token : Token} {tokens others : List Token} :
      Respaced tokens others → Respaced (token :: tokens) (token :: others)
  | sign {gap gap' tokens others : List Token} :
      Blanks gap → Blanks gap' → Respaced tokens others →
      Respaced (gap ++ .delim '>' :: tokens) (gap' ++ .delim '>' :: others)

/-- The tokens start with the sign of a child combinator, after blanks if any. -/
def StartsSign (tokens : List Token) : Prop :=
  ∃ gap rest, Blanks gap ∧ tokens = gap ++ .delim '>' :: rest

/-- The two parts do not divide a child combinator. -/
def Divides (front back : List Token) : Prop :=
  front.getLast? = some .blank → ¬ StartsSign back

namespace Respaced

variable {tokens others front back : List Token} {token : Token}

private theorem symm (h : Respaced tokens others) : Respaced others tokens := by
  induction h with
  | nil => exact nil
  | keep _ ih => exact keep ih
  | sign hgap hgap' _ ih => exact sign hgap' hgap ih

/-- The same tokens may stand in front. -/
theorem prepend (front : List Token) (h : Respaced tokens others) :
    Respaced (front ++ tokens) (front ++ others) := by
  induction front with
  | nil => exact h
  | cons token front ih => exact keep ih

/-- Tokens as they are are a way to space them. -/
theorem refl (tokens : List Token) : Respaced tokens tokens := by
  have h := prepend tokens nil
  rwa [List.append_nil] at h

private theorem eq_nil (h : Respaced [] others) : others = [] := by
  generalize hnil : ([] : List Token) = tokens at h
  cases h with
  | nil => rfl
  | keep => exact nomatch hnil
  | sign => exact absurd hnil.symm (by simp)

/-- Without the sign there is nothing to change. -/
theorem eq_of_not_mem (h : Respaced tokens others) (hsign : .delim '>' ∉ tokens) :
    others = tokens := by
  induction h with
  | nil => rfl
  | keep _ ih => rw [ih fun hmem => hsign (List.mem_cons_of_mem _ hmem)]
  | sign => exact absurd (by simp) hsign

/-- What does not use the sign of a child combinator can only be kept. -/
theorem eq_of_uses (h : Respaced tokens others) (huses : Uses isPartSign tokens) :
    others = tokens :=
  h.eq_of_not_mem fun hmem => absurd (huses _ hmem) (by decide)

/-- Another token stays where it is. -/
theorem cons (h : Respaced (token :: tokens) others) (hblank : token ≠ .blank)
    (hsign : token ≠ .delim '>') : ∃ rest, others = token :: rest ∧ Respaced tokens rest := by
  generalize hcons : token :: tokens = all at h
  cases h with
  | nil => exact nomatch hcons
  | keep h =>
    obtain ⟨rfl, rfl⟩ := List.cons.inj hcons
    exact ⟨_, rfl, h⟩
  | @sign gap gap' _ _ hgap =>
    obtain rfl := hgap.eq_nil hcons.symm hblank
    exact absurd (List.cons.inj hcons).1 hsign

private theorem divides_tail {first second : List Token} (h : Divides (first ++ second) back) :
    Divides second back := by
  intro hlast
  refine h ?_
  rw [List.getLast?_append, hlast]
  rfl

/-- Blanks and then the sign are divided only where nothing stands in front of them. -/
theorem eq_nil_of_divides (hfront : Blanks front) (hback : StartsSign back)
    (h : Divides front back) : front = [] := by
  cases hlast : front.getLast? with
  | none => exact List.getLast?_eq_none_iff.1 hlast
  | some token =>
    obtain rfl := hfront token (List.mem_of_getLast? hlast)
    exact absurd hback (h hlast)

/-- What stands for two parts side by side is made of what stands for each. -/
theorem split (h : Respaced (front ++ back) others) (hdivides : Divides front back) :
    ∃ front' back', others = front' ++ back' ∧ Respaced front front' ∧ Respaced back back' := by
  generalize hall : front ++ back = all at h
  induction h generalizing front with
  | nil =>
    obtain ⟨rfl, rfl⟩ := List.append_eq_nil_iff.1 hall
    exact ⟨[], [], rfl, nil, nil⟩
  | @keep token tokens others h ih =>
    cases front with
    | nil => exact ⟨[], token :: others, rfl, nil, by rw [show back = _ from hall]; exact keep h⟩
    | cons first front =>
      obtain ⟨rfl, hrest⟩ := List.cons.inj hall
      obtain ⟨front', back', rfl, hfront, hback⟩ :=
        ih (@divides_tail _ [first] front hdivides) hrest
      exact ⟨first :: front', back', rfl, keep hfront, hback⟩
  | @sign gap gap' tokens others hgap hgap' h ih =>
    have hwhole : Respaced (gap ++ .delim '>' :: tokens) (gap' ++ .delim '>' :: others) :=
      sign hgap hgap' h
    -- in front of the sign the division can only be before all the blanks
    have hbefore : Blanks front → StartsSign back →
        ∃ front' back', gap' ++ .delim '>' :: others = front' ++ back' ∧
          Respaced front front' ∧ Respaced back back' := by
      intro hblanks hstarts
      obtain rfl := eq_nil_of_divides hblanks hstarts hdivides
      exact ⟨[], _, rfl, nil, by rwa [show back = _ from hall]⟩
    rcases List.append_eq_append_iff.1 hall with ⟨rest, rfl, rfl⟩ | ⟨rest, rfl, hrest⟩
    · exact hbefore (fun token hmem => hgap token (List.mem_append_left _ hmem))
        ⟨rest, tokens, fun token hmem => hgap token (List.mem_append_right _ hmem), rfl⟩
    · cases rest with
      | nil =>
        refine hbefore (by rwa [List.append_nil]) ⟨[], tokens, blanks_nil, ?_⟩
        exact hrest.symm
      | cons first rest =>
        obtain ⟨rfl, rfl⟩ := List.cons.inj hrest
        have htail : Divides rest back := by
          refine @divides_tail _ (gap ++ [.delim '>']) rest ?_
          rwa [List.append_assoc]
        obtain ⟨front', back', rfl, hfront, hback⟩ := ih htail rfl
        exact ⟨gap' ++ .delim '>' :: front', back', by simp, sign hgap hgap' hfront, hback⟩

/-- Where blanks and the sign are in front, blanks and the sign are in front of the other tokens. -/
theorem of_sign {gap : List Token} (hgap : Blanks gap)
    (h : Respaced (gap ++ .delim '>' :: tokens) others) :
    ∃ gap' rest, Blanks gap' ∧ others = gap' ++ .delim '>' :: rest ∧ Respaced tokens rest := by
  generalize hall : gap ++ .delim '>' :: tokens = all at h
  induction h generalizing gap with
  | nil => exact absurd hall (by simp)
  | @keep token narrow wide h ih =>
    cases gap with
    | nil =>
      obtain ⟨rfl, rfl⟩ := List.cons.inj hall
      exact ⟨[], wide, blanks_nil, rfl, h⟩
    | cons first gap =>
      obtain ⟨rfl, hrest⟩ := List.cons.inj hall
      obtain ⟨gap', rest, hgap', rfl, htokens⟩ :=
        ih (fun token hmem => hgap token (List.mem_cons_of_mem _ hmem)) hrest
      refine ⟨first :: gap', rest, ?_, rfl, htokens⟩
      intro token hmem
      rcases List.mem_cons.1 hmem with rfl | hmem
      · exact hgap token List.mem_cons_self
      · exact hgap' token hmem
  | @sign first first' narrow wide hfirst hfirst' h _ =>
    -- without the blanks both sides start at the same sign
    have hskip := congrArg Reader.skipBlanks hall
    rw [skipBlanks_append hgap, skipBlanks_append hfirst] at hskip
    obtain rfl := (List.cons.inj hskip).2
    exact ⟨first', wide, hfirst', rfl, h⟩

end Respaced

/-! ## Parts that end without a blank -/

/-- The tokens do not end with a blank. -/
def Solid (tokens : List Token) : Prop :=
  tokens.getLast? ≠ some .blank

private theorem solid_nil : Solid [] :=
  nofun

/-- Parts that do not end with a blank do not do so side by side. -/
theorem Solid.append {front back : List Token} (hfront : Solid front) (hback : Solid back) :
    Solid (front ++ back) := by
  intro hlast
  rw [List.getLast?_append] at hlast
  rcases Option.or_eq_some_iff.1 hlast with hlast | ⟨-, hlast⟩
  · exact hback hlast
  · exact hfront hlast

private theorem solid_concat {front : List Token} {token : Token} (h : token ≠ .blank) :
    Solid (front ++ [token]) := by
  intro hlast
  rw [List.getLast?_concat] at hlast
  exact h (Option.some.inj hlast)

/-- After a part that does not end with a blank no child combinator is divided. -/
theorem Solid.divides {front back : List Token} (h : Solid front) : Divides front back :=
  fun hlast => absurd hlast h

variable {namespaces : Namespaces} {Inner : List Token → List Selector → Prop}

/-- A type does not end with a blank. -/
theorem TypePart.solid {tokens : List Token} {conditions : List Simple}
    (h : TypePart namespaces tokens conditions) : Solid tokens := by
  cases h with
  | absent => exact solid_nil
  | written _ hname =>
    cases hname with
    | name => exact solid_concat nofun
    | asterisk => exact solid_concat nofun

/-- A condition does not end with a blank. -/
theorem Condition.solid {tokens : List Token} {simple : Simple}
    (h : Condition namespaces Inner tokens simple) : Solid tokens := by
  cases h with
  | id => exact @solid_concat [] _ nofun
  | className => exact @solid_concat [_] _ nofun
  | bracketed hattribute =>
    cases hattribute with
    | presence => exact @solid_concat (.leftBracket :: _) _ nofun
    | comparison => exact @solid_concat (.leftBracket :: _) _ nofun
  | pseudoClass => exact @solid_concat [_] _ nofun
  | function => exact solid_concat nofun

/-- Conditions do not end with a blank. -/
theorem Conditions.solid {tokens : List Token} {simples : List Simple}
    (h : Conditions namespaces Inner tokens simples) : Solid tokens := by
  induction h with
  | nil => exact solid_nil
  | cons hfirst _ ih => exact hfirst.solid.append ih

/-- A pseudo-element does not end with a blank. -/
theorem Ending.solid {tokens : List Token} {pseudoElement? : Option PseudoElement}
    (h : Ending tokens pseudoElement?) : Solid tokens := by
  cases h with
  | absent => exact solid_nil
  | double => exact @solid_concat [_, _] _ nofun
  | single => exact @solid_concat [_] _ nofun

/-- A compound does not end with a blank. -/
theorem Compound.solid {tokens : List Token} {simples : List Simple}
    {pseudoElement? : Option PseudoElement}
    (h : Compound namespaces Inner tokens simples pseudoElement?) : Solid tokens := by
  obtain ⟨hfront, hmiddle, hback, -⟩ := h
  exact (hfront.solid.append hmiddle.solid).append hback.solid

/-- A compound has a token. -/
theorem Compound.ne_nil {tokens : List Token} {simples : List Simple}
    {pseudoElement? : Option PseudoElement}
    (h : Compound namespaces Inner tokens simples pseudoElement?) : tokens ≠ [] := by
  obtain ⟨-, -, -, hne⟩ := h
  exact hne

/-- A complex selector does not end with a blank. -/
theorem Sequence.solid {tokens : List Token} {complex : Complex}
    {pseudoElement? : Option PseudoElement}
    (h : Sequence namespaces Inner tokens complex pseudoElement?) : Solid tokens := by
  cases h with
  | single hcompound => exact hcompound.solid
  | join _ _ hright =>
    intro hlast
    rw [List.getLast?_append] at hlast
    rcases Option.or_eq_some_iff.1 hlast with hlast | ⟨hnone, -⟩
    · exact hright.solid hlast
    · exact hright.ne_nil (List.getLast?_eq_none_iff.1 hnone)

/-! ## Parts that do not start with the sign -/

/-- A compound ends in front of a child combinator. -/
theorem StartsSign.ends {tokens : List Token} (h : StartsSign tokens) : Ends tokens := by
  obtain ⟨gap, rest, hgap, rfl⟩ := h
  cases gap with
  | nil =>
    rintro token ⟨⟩
    decide
  | cons token gap =>
    obtain rfl := hgap token List.mem_cons_self
    rintro token ⟨⟩
    decide

/-- In front of what goes on with a compound no child combinator is divided. -/
theorem divides_of_not_ends {front back : List Token} (h : ¬ Ends back) : Divides front back :=
  fun _ hstarts => h hstarts.ends

private theorem divides_of_blanks {front back : List Token} (h : Blanks back) :
    Divides front back := by
  rintro - ⟨gap, rest, -, rfl⟩
  exact nomatch h (.delim '>') (by simp)

private theorem divides_of_cons {front back : List Token} {token : Token} (hblank : token ≠ .blank)
    (hsign : token ≠ .delim '>') : Divides front (token :: back) := by
  rintro - ⟨gap, rest, hgap, heq⟩
  obtain rfl := hgap.eq_nil heq.symm hblank
  exact hsign (List.cons.inj heq).1

/-! ## The rules -/

section

variable (hinner : ∀ arguments others list, Inner arguments list → Respaced arguments others →
  Parsed namespaces others list)

include hinner

/-- With other blanks around child combinators a function means the same. -/
theorem Function.respaced {name : String} {arguments others : List Token} {simple : Simple}
    (h : Function Inner name arguments simple) (hbalanced : Balanced arguments)
    (hspaced : Respaced arguments others) :
    Function (Parsed namespaces) name others simple ∧ Balanced others := by
  cases h with
  | positions hcount hplaces =>
    rw [hspaced.eq_of_uses (uses_of_parse hplaces)]
    exact ⟨Function.positions hcount hplaces, hbalanced⟩
  | lang hfront htext hback =>
    rw [hspaced.eq_of_uses (hfront.uses.append (htext.uses hback.uses))]
    exact ⟨Function.lang hfront htext hback, hbalanced⟩
  | list hmake hlist =>
    have hparsed := hinner _ _ _ hlist hspaced
    exact ⟨Function.list hmake hparsed, (parsed_iff_selectorList.1 hparsed).balanced⟩

/-- With other blanks in the lists within it a condition is the same. -/
theorem Condition.respaced {tokens others : List Token} {simple : Simple}
    (h : Condition namespaces Inner tokens simple) (hspaced : Respaced tokens others) :
    Condition namespaces (Parsed namespaces) others simple := by
  cases h with
  | id name =>
    rw [hspaced.eq_of_uses (Uses.cons nofun uses_nil)]
    exact Condition.id name
  | className name =>
    rw [hspaced.eq_of_uses (Uses.sign rfl (uses_nil.ident name))]
    exact Condition.className name
  | bracketed hattribute =>
    rw [hspaced.eq_of_uses (Uses.cons nofun hattribute.uses)]
    exact Condition.bracketed hattribute
  | @pseudoClass name _ hclass =>
    rw [hspaced.eq_of_uses (Uses.cons nofun (uses_nil.ident name))]
    exact Condition.pseudoClass hclass
  | function hbalanced hfunction =>
    obtain ⟨_, rfl, hafterColon⟩ := hspaced.cons nofun nofun
    obtain ⟨_, rfl, hinside⟩ := hafterColon.cons nofun nofun
    obtain ⟨arguments, closing, rfl, harguments, hclosing⟩ :=
      hinside.split (divides_of_cons nofun nofun)
    rw [hclosing.eq_of_uses (Uses.cons nofun uses_nil)]
    obtain ⟨hfunction, hbalanced⟩ := Function.respaced hinner hfunction hbalanced harguments
    exact Condition.function hbalanced hfunction

/-- With other blanks in the lists within them conditions are the same. -/
theorem Conditions.respaced {tokens others : List Token} {simples : List Simple}
    (h : Conditions namespaces Inner tokens simples) (hspaced : Respaced tokens others) :
    Conditions namespaces (Parsed namespaces) others simples := by
  induction h generalizing others with
  | nil =>
    rw [hspaced.eq_nil]
    exact Conditions.nil
  | cons hfirst _ ih =>
    obtain ⟨first, rest, rfl, hspacedFirst, hspacedRest⟩ := hspaced.split hfirst.solid.divides
    exact Conditions.cons (Condition.respaced hinner hfirst hspacedFirst) (ih hspacedRest)

/-- With other blanks in the lists within it a compound is the same. -/
theorem Compound.respaced {tokens others : List Token} {simples : List Simple}
    {pseudoElement? : Option PseudoElement}
    (h : Compound namespaces Inner tokens simples pseudoElement?)
    (hspaced : Respaced tokens others) :
    Compound namespaces (Parsed namespaces) others simples pseudoElement? := by
  obtain ⟨hfront, hmiddle, hback, hne⟩ := h
  have hne' : others ≠ [] := by
    rintro rfl
    exact hne hspaced.symm.eq_nil
  obtain ⟨_, back, rfl, hspacedStart, hspacedBack⟩ :=
    hspaced.split (hfront.solid.append hmiddle.solid).divides
  obtain ⟨front, middle, rfl, hspacedFront, hspacedMiddle⟩ :=
    hspacedStart.split hfront.solid.divides
  rw [hspacedFront.eq_of_uses hfront.uses, hspacedBack.eq_of_uses hback.uses] at hne' ⊢
  exact Compound.intro hfront (Conditions.respaced hinner hmiddle hspacedMiddle) hback hne'

omit hinner in
/-- With other blanks around its sign a combinator is the same. -/
theorem Joint.respaced {tokens others : List Token} {combinator : Combinator}
    (h : Joint tokens combinator) (hspaced : Respaced tokens others) :
    Joint others combinator := by
  cases h with
  | blank hblanks hne =>
    rw [hspaced.eq_of_uses hblanks.uses]
    exact Joint.blank hblanks hne
  | @sign front back sign _ hfront hsign hback =>
    by_cases hchild : sign = '>'
    · subst hchild
      obtain ⟨gap, rest, hgap, rfl, hrest⟩ := hspaced.of_sign hfront
      rw [hrest.eq_of_uses hback.uses]
      exact Joint.sign hgap hsign hback
    · have hpart : isPartSign sign = true := by
        have hsigns : ∀ entry ∈ combinatorSigns, entry.1 ≠ '>' → isPartSign entry.1 = true := by
          decide
        exact hsigns _ hsign hchild
      rw [hspaced.eq_of_uses (hfront.uses.append (Uses.sign hpart hback.uses))]
      exact Joint.sign hfront hsign hback

/-- With other blanks around child combinators a complex selector is the same. -/
theorem Sequence.respaced {tokens others : List Token} {complex : Complex}
    {pseudoElement? : Option PseudoElement}
    (h : Sequence namespaces Inner tokens complex pseudoElement?)
    (hspaced : Respaced tokens others) :
    Sequence namespaces (Parsed namespaces) others complex pseudoElement? := by
  induction h generalizing others with
  | single hcompound => exact Sequence.single (Compound.respaced hinner hcompound hspaced)
  | join hleft hjoint hright ih =>
    have hstart := hright.not_ends []
    rw [List.append_nil] at hstart
    obtain ⟨_, right, rfl, hspacedStart, hspacedRight⟩ :=
      hspaced.split (divides_of_not_ends hstart)
    obtain ⟨left, joint, rfl, hspacedLeft, hspacedJoint⟩ := hspacedStart.split hleft.solid.divides
    exact Sequence.join (ih hspacedLeft) (hjoint.respaced hspacedJoint)
      (Compound.respaced hinner hright hspacedRight)

/-- A selector with blanks around it is one with blanks around it. -/
theorem Sequence.respaced_between {front used back others : List Token} {complex : Complex}
    {pseudoElement? : Option PseudoElement} (hfront : Blanks front)
    (h : Sequence namespaces Inner used complex pseudoElement?) (hback : Blanks back)
    (hspaced : Respaced (front ++ used ++ back) others) :
    ∃ used', others = front ++ used' ++ back ∧
      Sequence namespaces (Parsed namespaces) used' complex pseudoElement? := by
  have hstart := h.not_ends []
  rw [List.append_nil] at hstart
  obtain ⟨_, back', rfl, hspacedStart, hspacedBack⟩ := hspaced.split (divides_of_blanks hback)
  obtain ⟨front', used', rfl, hspacedFront, hspacedUsed⟩ :=
    hspacedStart.split (divides_of_not_ends hstart)
  rw [hspacedFront.eq_of_uses hfront.uses, hspacedBack.eq_of_uses hback.uses]
  exact ⟨used', rfl, Sequence.respaced hinner h hspacedUsed⟩

/-- With other blanks around child combinators a list is the same. -/
theorem SelectorList.respaced {tokens others : List Token} {selectors : List Selector}
    (h : SelectorList namespaces Inner tokens selectors) (hspaced : Respaced tokens others) :
    SelectorList namespaces (Parsed namespaces) others selectors := by
  induction h generalizing others with
  | last hfront hused hback =>
    obtain ⟨used, rfl, hused⟩ := Sequence.respaced_between hinner hfront hused hback hspaced
    exact SelectorList.last hfront hused hback
  | more hfront hused hback _ ih =>
    obtain ⟨_, _, rfl, hspacedStart, hspacedComma⟩ := hspaced.split (divides_of_cons nofun nofun)
    obtain ⟨rest, rfl, hspacedRest⟩ := hspacedComma.cons nofun nofun
    obtain ⟨used, rfl, hused⟩ := Sequence.respaced_between hinner hfront hused hback hspacedStart
    exact SelectorList.more hfront hused hback (ih hspacedRest)

end

/-! ## The parser -/

/-- What is parsed is parsed to the same selectors with other blanks around child combinators. -/
theorem Parsed.respaced {selectors : List Selector} (tokens : List Token) {others : List Token}
    (h : Parsed namespaces tokens selectors) (hspaced : Respaced tokens others) :
    Parsed namespaces others selectors := by
  refine parsed_iff_selectorList.2
    (SelectorList.respaced ?_ (selectorList_shorter_of_parsed h) hspaced)
  rintro arguments others list ⟨hshorter, hparsed⟩ hspaced
  exact Parsed.respaced arguments hparsed hspaced
termination_by tokens.length

/-- The parser reads the same lists from tokens that differ in blanks in front of child
    combinators. -/
theorem parsed_iff_of_respaced {tokens others : List Token} (h : Respaced tokens others)
    (selectors : List Selector) :
    Parsed namespaces tokens selectors ↔ Parsed namespaces others selectors :=
  ⟨fun hparsed => hparsed.respaced tokens h, fun hparsed => hparsed.respaced others h.symm⟩

end Grammar

end Selectors
