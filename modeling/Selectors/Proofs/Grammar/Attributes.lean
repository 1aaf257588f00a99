import Mathlib.Data.List.TakeWhile
import Selectors.Proofs.Grammar.Basic

/-!
# Types and attributes — each reader takes what a rule describes

For every reader of a part there is one equivalence: it returns a part and the tokens left exactly
if the tokens are some that the rule of the part derives, followed by those left. No look at what
is left is needed, with two exceptions: a type ends where no separator follows, and the bar after
the name of an attribute is looked at together with the token after it.

* **`skipBlanks_eq_cons_iff`** and **`skipBlanks_eq_nil_iff`** — blanks in front.
* **`typePart_of_readType`** and **`readType_append`** — the two directions for types.
* **`readAttribute_eq_ok_iff`** — attributes.
-/

namespace Selectors

namespace Grammar

open Reader

/-! ## Blanks -/

/-- No tokens are blanks. -/
theorem blanks_nil : Blanks [] :=
  List.forall_mem_nil _

/-- Blanks in front of blanks are blanks. -/
theorem Blanks.append {front back : List Token} (hfront : Blanks front) (hback : Blanks back) :
    Blanks (front ++ back) := by
  intro token htoken
  rcases List.mem_append.1 htoken with htoken | htoken
  · exact hfront token htoken
  · exact hback token htoken

/-- Blanks in front are skipped. -/
theorem skipBlanks_append {front : List Token} (hfront : Blanks front) (rest : List Token) :
    skipBlanks (front ++ rest) = skipBlanks rest := by
  unfold skipBlanks
  rw [List.dropWhile_append_of_pos]
  intro token htoken
  exact beq_iff_eq.2 (hfront token htoken)

/-- What is skipped are the blanks in front. -/
theorem exists_blanks (tokens : List Token) :
    ∃ front, Blanks front ∧ tokens = front ++ skipBlanks tokens := by
  refine ⟨tokens.takeWhile (· == .blank), ?_, (List.takeWhile_append_dropWhile).symm⟩
  intro token htoken
  have hblank := List.mem_takeWhile_imp htoken
  exact beq_iff_eq.1 hblank

/-- The first token after skipping is no blank and stands behind blanks. -/
theorem skipBlanks_eq_cons_iff {tokens rest : List Token} {token : Token} :
    skipBlanks tokens = token :: rest ↔
      token ≠ .blank ∧ ∃ front, Blanks front ∧ tokens = front ++ token :: rest := by
  constructor
  · intro h
    obtain ⟨front, hfront, htokens⟩ := exists_blanks tokens
    refine ⟨?_, front, hfront, h ▸ htokens⟩
    rintro rfl
    have hhead := List.head?_dropWhile_not (· == Token.blank) tokens
    rw [show tokens.dropWhile (· == Token.blank) = .blank :: rest from h] at hhead
    exact nomatch hhead
  · rintro ⟨hne, front, hfront, rfl⟩
    rw [skipBlanks_append hfront]
    exact List.dropWhile_cons_of_neg (by simpa using hne)

/-- Nothing is left after skipping where all are blanks. -/
theorem skipBlanks_eq_nil_iff {tokens : List Token} : skipBlanks tokens = [] ↔ Blanks tokens := by
  constructor
  · intro h
    obtain ⟨front, hfront, htokens⟩ := exists_blanks tokens
    rw [h, List.append_nil] at htokens
    exact htokens ▸ hfront
  · intro h
    rw [← List.append_nil tokens, skipBlanks_append h]
    rfl

/-! ## Types -/

/-- A short name resolves to the URL that it is declared with. -/
theorem resolve_eq_ok_iff {namespaces : Namespaces} {short url : String} :
    resolve namespaces short = .ok url ↔ namespaces.declared.get? short = some url := by
  unfold resolve Namespaces.resolve
  cases namespaces.declared.get? short with
  | none => exact iff_of_false nofun nofun
  | some other =>
    exact ⟨fun h => congrArg some (Except.ok.inj h), fun h => congrArg _ (Option.some.inj h)⟩

/-- The reader of names reads what the grammar calls the name of an element. -/
theorem readElementName_eq_ok_iff {tokens rest : List Token} {name? : Option String} :
    readElementName tokens = .ok (name?, rest) ↔
      ∃ used, ElementName used name? ∧ tokens = used ++ rest := by
  constructor
  · intro h
    unfold readElementName at h
    split at h
    · obtain ⟨rfl, rfl⟩ := Prod.mk.inj (Except.ok.inj h)
      exact ⟨_, ElementName.name _, rfl⟩
    · obtain ⟨rfl, rfl⟩ := Prod.mk.inj (Except.ok.inj h)
      exact ⟨_, ElementName.asterisk, rfl⟩
    · exact absurd h refuse_ne_ok
  · rintro ⟨used, hused, rfl⟩
    cases hused with
    | name name => rfl
    | asterisk => rfl

/-- The tokens do not start as a type does. -/
def NoType (tokens : List Token) : Prop :=
  (∀ name rest, tokens ≠ .ident name :: rest) ∧ (∀ rest, tokens ≠ .delim '*' :: rest) ∧
    ∀ rest, tokens ≠ .delim '|' :: rest

/-- What is read as a type is one, and if nothing is then there is none. -/
theorem typePart_of_readType {namespaces : Namespaces} {tokens rest : List Token}
    {type? : Option (List Simple)} (h : readType namespaces tokens = .ok (type?, rest)) :
    ∃ used, TypePart namespaces used (type?.getD []) ∧ tokens = used ++ rest ∧
      (type? = none → used = []) ∧ (type? ≠ none → used ≠ []) := by
  unfold readType at h
  split at h
  · obtain ⟨url, hurl, h⟩ := bind_eq_ok.1 h
    obtain ⟨⟨name?, after⟩, hname, h⟩ := bind_eq_ok.1 h
    obtain ⟨rfl, rfl⟩ := Prod.mk.inj (Except.ok.inj h)
    obtain ⟨used, hused, rfl⟩ := readElementName_eq_ok_iff.1 hname
    exact ⟨_, TypePart.written (Qualifier.declared (resolve_eq_ok_iff.1 hurl)) hused, rfl,
      nofun, nofun⟩
  · obtain ⟨⟨name?, after⟩, hname, h⟩ := bind_eq_ok.1 h
    obtain ⟨rfl, rfl⟩ := Prod.mk.inj (Except.ok.inj h)
    obtain ⟨used, hused, rfl⟩ := readElementName_eq_ok_iff.1 hname
    exact ⟨_, TypePart.written Qualifier.any hused, rfl, nofun, nofun⟩
  · obtain ⟨⟨name?, after⟩, hname, h⟩ := bind_eq_ok.1 h
    obtain ⟨rfl, rfl⟩ := Prod.mk.inj (Except.ok.inj h)
    obtain ⟨used, hused, rfl⟩ := readElementName_eq_ok_iff.1 hname
    exact ⟨_, TypePart.written Qualifier.empty hused, rfl, nofun, nofun⟩
  · obtain ⟨rfl, rfl⟩ := Prod.mk.inj (Except.ok.inj h)
    exact ⟨_, TypePart.written Qualifier.absent (ElementName.name _), rfl, nofun, nofun⟩
  · obtain ⟨rfl, rfl⟩ := Prod.mk.inj (Except.ok.inj h)
    exact ⟨_, TypePart.written Qualifier.absent ElementName.asterisk, rfl, nofun, nofun⟩
  · obtain ⟨rfl, rfl⟩ := Prod.mk.inj (Except.ok.inj h)
    exact ⟨[], TypePart.absent, rfl, fun _ => rfl, fun hne => absurd rfl hne⟩

/-- A type is read up to where no type can go on. -/
theorem readType_append {namespaces : Namespaces} {used rest : List Token}
    {conditions : List Simple} (hused : TypePart namespaces used conditions)
    (hrest : NoType rest) :
    ∃ type?, readType namespaces (used ++ rest) = .ok (type?, rest) ∧
      type?.getD [] = conditions ∧ (type? = none → used = []) := by
  -- what follows starts neither a name nor a prefix, so nothing more is taken
  obtain ⟨hident, hasterisk, hbar⟩ := hrest
  cases hused with
  | absent =>
    refine ⟨none, ?_, rfl, fun _ => rfl⟩
    rw [List.nil_append, readType]
    · exact fun _ _ => hident _ _
    · exact fun _ => hasterisk _
    · exact hbar
    · exact hident
    · exact hasterisk
  | @written front back url? name? hfront hback =>
    refine ⟨some (typeConditions name? url?), ?_, rfl, nofun⟩
    have hname := readElementName_eq_ok_iff.2 ⟨back, hback, (rfl : back ++ rest = _)⟩
    rw [List.append_assoc]
    cases hfront with
    | declared hurl =>
      exact bind_eq_ok.2 ⟨_, resolve_eq_ok_iff.2 hurl, bind_eq_ok.2 ⟨_, hname, rfl⟩⟩
    | any => exact bind_eq_ok.2 ⟨_, hname, rfl⟩
    | empty => exact bind_eq_ok.2 ⟨_, hname, rfl⟩
    | absent =>
      cases hback with
      | name name =>
        show readType namespaces (.ident name :: rest) = _
        rw [readType]
        exact hbar
      | asterisk =>
        show readType namespaces (.delim '*' :: rest) = _
        rw [readType]
        exact hbar

/-! ## Attributes -/

/-- Nothing but a blank follows blanks directly, unless there are none. -/
theorem Blanks.eq_nil {front rest after : List Token} {token : Token} (hfront : Blanks front)
    (h : front ++ rest = token :: after) (hne : token ≠ .blank) : front = [] := by
  cases front with
  | nil => rfl
  | cons first front =>
    obtain ⟨rfl, -⟩ := List.cons.inj h
    exact absurd (hfront first List.mem_cons_self) hne

/-- What is read as the namespace of an attribute is one. -/
theorem scope_of_readScope {namespaces : Namespaces} {tokens rest : List Token}
    {scope : AttributeScope} (h : readScope namespaces tokens = .ok (scope, rest)) :
    ∃ used, Scope namespaces used scope ∧ tokens = used ++ rest := by
  unfold readScope at h
  split at h
  · obtain ⟨rfl, rfl⟩ := Prod.mk.inj (Except.ok.inj h)
    exact ⟨[], Scope.absent, rfl⟩
  · obtain ⟨rfl, rfl⟩ := Prod.mk.inj (Except.ok.inj h)
    exact ⟨[], Scope.absent, rfl⟩
  · obtain ⟨url, hurl, h⟩ := bind_eq_ok.1 h
    obtain ⟨rfl, rfl⟩ := Prod.mk.inj (Except.ok.inj h)
    exact ⟨_, Scope.declared (resolve_eq_ok_iff.1 hurl), rfl⟩
  · obtain ⟨rfl, rfl⟩ := Prod.mk.inj (Except.ok.inj h)
    exact ⟨_, Scope.any, rfl⟩
  · obtain ⟨rfl, rfl⟩ := Prod.mk.inj (Except.ok.inj h)
    exact ⟨_, Scope.empty, rfl⟩
  · obtain ⟨rfl, rfl⟩ := Prod.mk.inj (Except.ok.inj h)
    exact ⟨[], Scope.absent, rfl⟩

/-- The scope in front of a name is read as it is written, unless a bar follows the name that
    could separate. -/
theorem readScope_append {namespaces : Namespaces} {used rest : List Token}
    {scope : AttributeScope} {name : String} (hused : Scope namespaces used scope)
    (hrest : ∀ after, rest = .delim '|' :: after → ∃ after', after = .delim '=' :: after') :
    readScope namespaces (used ++ .ident name :: rest) = .ok (scope, .ident name :: rest) := by
  cases hused with
  | declared hurl =>
    show readScope namespaces (.ident _ :: .delim '|' :: .ident name :: rest) = _
    rw [readScope]
    · exact bind_eq_ok.2 ⟨_, resolve_eq_ok_iff.2 hurl, rfl⟩
    · exact nofun
  | any => rfl
  | empty => rfl
  | absent =>
    show readScope namespaces (.ident name :: rest) = _
    cases rest with
    | nil => rfl
    | cons token after =>
      -- a bar here is the first sign of `|=`, so the name before it is the attribute
      by_cases hbar : token = .delim '|'
      · subst hbar
        obtain ⟨after', rfl⟩ := hrest after rfl
        rfl
      · rw [readScope]
        · rintro _ _ ⟨⟩
          exact hbar rfl
        · exact nofun
        · rintro _ _ ⟨⟩
          exact hbar rfl
        · exact nofun
        · exact nofun

/-- The name of an attribute is a name. -/
theorem readAttributeName_eq_ok_iff {tokens rest : List Token} {name : String} :
    readAttributeName tokens = .ok (name, rest) ↔ tokens = .ident name :: rest := by
  constructor
  · intro h
    unfold readAttributeName at h
    split at h
    · obtain ⟨rfl, rfl⟩ := Prod.mk.inj (Except.ok.inj h)
      rfl
    · exact absurd h refuse_ne_ok
  · rintro rfl
    rfl

/-- An operator is read from its sign. -/
theorem readOperator_eq_ok_iff {tokens rest : List Token} {operator : AttributeOperator} :
    readOperator tokens = .ok (operator, rest) ↔
      tokens = operator.sign.toList.map .delim ++ rest := by
  constructor
  · intro h
    unfold readOperator at h
    split at h
    · obtain ⟨rfl, rfl⟩ := Prod.mk.inj (Except.ok.inj h)
      rfl
    · split at h
      · next hsign =>
        obtain ⟨rfl, rfl⟩ := Prod.mk.inj (Except.ok.inj h)
        unfold operatorOfSign? at hsign
        split at hsign
        · obtain rfl := Option.some.inj hsign
          rfl
        · obtain rfl := Option.some.inj hsign
          rfl
        · obtain rfl := Option.some.inj hsign
          rfl
        · obtain rfl := Option.some.inj hsign
          rfl
        · obtain rfl := Option.some.inj hsign
          rfl
        · exact nomatch hsign
      · exact absurd h reject_ne_ok
    · exact absurd h refuse_ne_ok
  · rintro rfl
    cases operator <;> rfl

/-- A value is read from a name or a string. -/
theorem readValue_eq_ok_iff {name value : String} {tokens rest : List Token} :
    readValue name tokens = .ok (value, rest) ↔
      ∃ token, Text token value ∧ tokens = token :: rest := by
  constructor
  · intro h
    unfold readValue at h
    split at h
    · obtain ⟨rfl, rfl⟩ := Prod.mk.inj (Except.ok.inj h)
      exact ⟨_, Text.name _, rfl⟩
    · obtain ⟨rfl, rfl⟩ := Prod.mk.inj (Except.ok.inj h)
      exact ⟨_, Text.quoted _, rfl⟩
    · exact absurd h reject_ne_ok
  · rintro ⟨token, htext, rfl⟩
    cases htext with
    | name => rfl
    | quoted => rfl

/-- A condition on an attribute ends in a bracket. -/
theorem readClosing_eq_ok_iff {name : String} {tokens rest : List Token} :
    readClosing name tokens = .ok ((), rest) ↔ tokens = .rightBracket :: rest := by
  constructor
  · intro h
    unfold readClosing at h
    split at h
    · obtain ⟨-, rfl⟩ := Prod.mk.inj (Except.ok.inj h)
      rfl
    · exact absurd h reject_ne_ok
  · rintro rfl
    rfl

private theorem skipBlanks_scope {namespaces : Namespaces} {front used rest : List Token}
    {scope : AttributeScope} {name : String} (hfront : Blanks front)
    (hused : Scope namespaces used scope) :
    skipBlanks (front ++ (used ++ .ident name :: rest)) = used ++ .ident name :: rest := by
  rw [skipBlanks_append hfront]
  cases hused <;> rfl

/-- A name or a string is not skipped. -/
theorem skipBlanks_text {front rest : List Token} {token : Token} {value : String}
    (hfront : Blanks front) (htext : Text token value) :
    skipBlanks (front ++ token :: rest) = token :: rest := by
  rw [skipBlanks_append hfront]
  cases htext <;> rfl

private theorem skipBlanks_operator {front rest : List Token} (hfront : Blanks front)
    (operator : AttributeOperator) :
    skipBlanks (front ++ (operator.sign.toList.map .delim ++ rest)) =
      operator.sign.toList.map .delim ++ rest := by
  rw [skipBlanks_append hfront]
  cases operator <;> rfl

/-- A bar after the name of an attribute and blanks is the first sign of an operator. -/
theorem exists_equals_of_operator {front rest after : List Token} {operator : AttributeOperator}
    (hfront : Blanks front)
    (h : front ++ (operator.sign.toList.map .delim ++ rest) = .delim '|' :: after) :
    ∃ after', after = .delim '=' :: after' := by
  obtain rfl := hfront.eq_nil h nofun
  cases operator with
  | dashMatch =>
    obtain ⟨-, rfl⟩ := List.cons.inj h
    exact ⟨_, rfl⟩
  | equals => exact nomatch h
  | includesWord => exact nomatch h
  | beginsWith => exact nomatch h
  | endsWith => exact nomatch h
  | contains => exact nomatch h

/-- What is read as a condition on an attribute is one. -/
theorem attribute_of_readAttribute {namespaces : Namespaces} {tokens rest : List Token}
    {test : AttributeTest} (h : readAttribute namespaces tokens = .ok (test, rest)) :
    ∃ used, Attribute namespaces used test ∧ tokens = used ++ rest := by
  obtain ⟨⟨scope, afterScope⟩, hscope, h⟩ := bind_eq_ok.1 h
  obtain ⟨⟨name, afterName⟩, hname, h⟩ := bind_eq_ok.1 h
  obtain ⟨front, hfront, htokens⟩ := exists_blanks tokens
  obtain ⟨qualifier, hqualifier, hafter⟩ := scope_of_readScope hscope
  rw [hafter, readAttributeName_eq_ok_iff.1 hname] at htokens
  obtain ⟨middle, hmiddle, hafterName⟩ := exists_blanks afterName
  dsimp only at h
  split at h
  · next hclosing =>
    obtain ⟨rfl, rfl⟩ := Prod.mk.inj (Except.ok.inj h)
    refine ⟨_, Attribute.presence hfront hqualifier hmiddle, ?_⟩
    rw [htokens, hafterName, hclosing]
    simp
  · obtain ⟨⟨operator, afterOperator⟩, hoperator, h⟩ := bind_eq_ok.1 h
    obtain ⟨⟨expected, afterValue⟩, hvalue, h⟩ := bind_eq_ok.1 h
    obtain ⟨⟨_, afterClosing⟩, hclosing, h⟩ := bind_eq_ok.1 h
    obtain ⟨rfl, rfl⟩ := Prod.mk.inj (Except.ok.inj h)
    obtain ⟨value, htext, hvalue⟩ := readValue_eq_ok_iff.1 hvalue
    obtain ⟨gap, hgap, hafterOperator⟩ := exists_blanks afterOperator
    obtain ⟨back, hback, hafterValue⟩ := exists_blanks afterValue
    refine ⟨_, Attribute.comparison hfront hqualifier hmiddle hgap htext hback, ?_⟩
    rw [htokens, hafterName, readOperator_eq_ok_iff.1 hoperator, hafterOperator, hvalue,
      hafterValue, readClosing_eq_ok_iff.1 hclosing]
    simp

/-- A condition on an attribute is read, whatever follows it. -/
theorem readAttribute_append {namespaces : Namespaces} {used : List Token} {test : AttributeTest}
    (h : Attribute namespaces used test) (rest : List Token) :
    readAttribute namespaces (used ++ rest) = .ok (test, rest) := by
  unfold readAttribute
  cases h with
  | @presence front qualifier back scope name hfront hqualifier hback =>
    have hclosing : skipBlanks (back ++ .rightBracket :: rest) = .rightBracket :: rest :=
      skipBlanks_eq_cons_iff.2 ⟨nofun, back, hback, rfl⟩
    rw [show front ++ qualifier ++ .ident name :: back ++ [.rightBracket] ++ rest =
        front ++ (qualifier ++ .ident name :: (back ++ .rightBracket :: rest)) by simp,
      skipBlanks_scope hfront hqualifier]
    refine bind_eq_ok.2 ⟨_, readScope_append hqualifier ?_, ?_⟩
    -- only blanks and the bracket follow the name, so it is not the prefix of another
    · intro after hafter
      obtain rfl := hback.eq_nil hafter nofun
      exact nomatch hafter
    · refine bind_eq_ok.2 ⟨_, readAttributeName_eq_ok_iff.2 rfl, ?_⟩
      dsimp only
      rw [hclosing]
  | @comparison front qualifier middle gap back scope name operator value expected hfront
      hqualifier hmiddle hgap htext hback =>
    have hclosing : skipBlanks (back ++ .rightBracket :: rest) = .rightBracket :: rest :=
      skipBlanks_eq_cons_iff.2 ⟨nofun, back, hback, rfl⟩
    rw [show front ++ qualifier ++ .ident name :: middle ++ operator.sign.toList.map .delim ++
          gap ++ value :: back ++ [.rightBracket] ++ rest =
        front ++ (qualifier ++ .ident name :: (middle ++ (operator.sign.toList.map .delim ++
          (gap ++ value :: (back ++ .rightBracket :: rest))))) by simp,
      skipBlanks_scope hfront hqualifier]
    refine bind_eq_ok.2 ⟨_, readScope_append hqualifier ?_, ?_⟩
    -- a bar after the name is the first sign of `|=`, not the end of a prefix
    · exact fun after => exists_equals_of_operator hmiddle
    · refine bind_eq_ok.2 ⟨_, readAttributeName_eq_ok_iff.2 rfl, ?_⟩
      dsimp only
      rw [skipBlanks_operator hmiddle]
      split
      · next heq =>
        cases operator <;> exact nomatch heq
      · have hvalue := @readValue_eq_ok_iff name _ _ _ |>.2
          ⟨value, htext, @skipBlanks_text gap (back ++ .rightBracket :: rest) _ _ hgap htext⟩
        refine bind_eq_ok.2 ⟨_, readOperator_eq_ok_iff.2 rfl, bind_eq_ok.2 ⟨_, hvalue, ?_⟩⟩
        exact bind_eq_ok.2 ⟨_, readClosing_eq_ok_iff.2 hclosing, rfl⟩

/-- The reader of conditions on attributes reads what the grammar calls one. -/
theorem readAttribute_eq_ok_iff {namespaces : Namespaces} {tokens rest : List Token}
    {test : AttributeTest} :
    readAttribute namespaces tokens = .ok (test, rest) ↔
      ∃ used, Attribute namespaces used test ∧ tokens = used ++ rest := by
  refine ⟨attribute_of_readAttribute, ?_⟩
  rintro ⟨used, hused, rfl⟩
  exact readAttribute_append hused rest

end Grammar

end Selectors
