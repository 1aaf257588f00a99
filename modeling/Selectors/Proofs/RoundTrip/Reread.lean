import Selectors.Proofs.Grammar.Balance
import Selectors.Proofs.RoundTrip.Lexing

/-!
# Reading canonical tokens — the grammar derives the list that was written

The tokens of a writable list are derived by the rules of the grammar for that very list. The rules
ask for balanced arguments and for lists within that the parser accepts, and both come out of the
induction: what the parser accepts is balanced.

* **`Simple.condition_tokens`** and **`Complex.sequence_tokens`** — by induction on selectors.
* **`parseSelectors_canonicalText_of_writable`** — canonical text is read as the list.
-/

namespace Selectors

open Grammar Lexer

variable {namespaces : Namespaces}

/-! ## Types -/

/-- The written namespace of a type is one by the grammar. -/
theorem qualifier_tokens {url? : Option String}
    (h : ∀ url, url? = some url → HasSpelling namespaces url) :
    Qualifier namespaces (qualifierTokens namespaces url?) url? := by
  cases url? with
  | none => exact Qualifier.any
  | some url =>
    unfold qualifierTokens
    dsimp only
    split
    · next hempty =>
      subst hempty
      exact Qualifier.empty
    · next hne =>
      split
      · next hdefault =>
        rw [← hdefault]
        exact Qualifier.absent
      · next hdefault =>
        obtain ⟨short, hshort⟩ := ((h url rfl).resolve_left hne).resolve_left hdefault
        obtain ⟨hdeclared, -⟩ := Namespaces.short?_eq_some hshort
        unfold shortTokens
        rw [hshort]
        exact Qualifier.declared hdeclared

/-- The written name of a type is one by the grammar. -/
theorem elementName_tokens (name? : Option String) :
    ElementName (elementNameTokens name?) name? := by
  cases name? with
  | none => exact ElementName.asterisk
  | some name => exact ElementName.name name

private theorem typeName?_conditions {conditions : List Simple}
    (h : ∀ simple ∈ conditions, simple.IsCondition) : typeName? conditions = none := by
  cases hsome : typeName? conditions with
  | none => rfl
  | some name => exact absurd (h _ (mem_of_typeName?_eq_some hsome)) id

private theorem typeUrl?_conditions {conditions : List Simple}
    (h : ∀ simple ∈ conditions, simple.IsCondition) : typeUrl? conditions = none := by
  cases hsome : typeUrl? conditions with
  | none => rfl
  | some url => exact absurd (h _ (mem_of_typeUrl?_eq_some hsome)) id

/-- The name of the type is found in front of the conditions. -/
theorem typeName?_append {name? url? : Option String} {conditions : List Simple}
    (h : ∀ simple ∈ conditions, simple.IsCondition) :
    typeName? (Reader.typeConditions name? url? ++ conditions) = name? := by
  unfold typeName?
  rw [List.findSome?_append, show conditions.findSome? _ = none from typeName?_conditions h,
    Option.or_none]
  cases name? <;> cases url? <;> rfl

/-- The namespace of the type is found in front of the conditions. -/
theorem typeUrl?_append {name? url? : Option String} {conditions : List Simple}
    (h : ∀ simple ∈ conditions, simple.IsCondition) :
    typeUrl? (Reader.typeConditions name? url? ++ conditions) = url? := by
  unfold typeUrl?
  rw [List.findSome?_append, show conditions.findSome? _ = none from typeUrl?_conditions h,
    Option.or_none]
  cases name? <;> cases url? <;> rfl

private theorem conditionTokens_append (name? url? : Option String) (conditions : List Simple) :
    conditionTokens namespaces (Reader.typeConditions name? url? ++ conditions) =
      conditionTokens namespaces conditions := by
  cases name? <;> cases url? <;> rfl

/-! ## Conditions -/

/-- A written condition on an attribute is one by the grammar. -/
theorem condition_attribute {test : AttributeTest} (h : test.IsWritable namespaces) :
    Condition namespaces (Parsed namespaces) (test.tokens namespaces) (.atom (.attribute test)) := by
  obtain ⟨-, hscope, -⟩ := h
  obtain ⟨scope, name, expected?⟩ := test
  have hscopeTokens : Scope namespaces (scope.tokens namespaces) scope := by
    cases scope with
    | none => exact Scope.absent
    | any => exact Scope.any
    | url url =>
      obtain ⟨short, hshort⟩ := hscope url rfl
      obtain ⟨hdeclared, -⟩ := Namespaces.short?_eq_some hshort
      show Scope namespaces (shortTokens namespaces url) _
      unfold shortTokens
      rw [hshort]
      exact Scope.declared hdeclared
  -- nothing is written between the parts, so every gap is empty
  have hnone : Blanks [] := nofun
  refine Condition.bracketed ?_
  match expected? with
  | none =>
    have hpresence := @Attribute.presence namespaces [] _ [] scope name hnone hscopeTokens hnone
    simpa [expectedTokens] using hpresence
  | some (operator, value) =>
    have hcomparison := @Attribute.comparison namespaces [] _ [] [] [] scope name operator _ value
      hnone hscopeTokens hnone hnone (Text.quoted value) hnone
    simpa [expectedTokens] using hcomparison

/-- The names of positional pseudo-classes stand in the table. -/
theorem toLower_countName (count : Count) : (count.name.toLower, count) ∈ positionalNames := by
  obtain ⟨fromEnd, sameType⟩ := count
  cases fromEnd <;> cases sameType <;> decide +kernel

/-- A written function is a condition by the grammar. -/
theorem condition_function {name : String} {arguments : List Token} {simple : Simple}
    (hbalanced : Balanced arguments)
    (h : Function (Parsed namespaces) name.toLower arguments simple) :
    Condition namespaces (Parsed namespaces) (functionTokens name arguments) simple :=
  Condition.function hbalanced h

/-- A written pseudo-class is a condition by the grammar. -/
theorem condition_pseudoClass {pseudoClass : PseudoClass} (h : pseudoClass.IsWritable) :
    Condition namespaces (Parsed namespaces) pseudoClass.tokens
      (.atom (.pseudoClass pseudoClass)) := by
  have hplain : ∀ {p : PseudoClass}, (p.name.toLower, p) ∈ pseudoClassNames →
      Condition namespaces (Parsed namespaces) [.colon, .ident p.name] (.atom (.pseudoClass p)) :=
    fun hmem => Condition.pseudoClass hmem
  cases pseudoClass with
  | nth count places =>
    -- positions are one, two or three tokens, none of them a parenthesis
    have hflat : ∀ token ∈ places.tokens, IsFlat token := by
      intro token htoken
      unfold Nth.tokens at htoken
      split at htoken
      · rw [List.mem_singleton.1 htoken]
        exact ⟨nofun, nofun, nofun⟩
      · split at htoken
        · rw [List.mem_singleton.1 htoken]
          exact ⟨nofun, nofun, nofun⟩
        · rcases List.mem_cons.1 htoken with rfl | htoken
          · exact ⟨nofun, nofun, nofun⟩
          · rw [List.mem_singleton.1 htoken]
            exact ⟨nofun, nofun, nofun⟩
    exact condition_function (balanced_of_isFlat hflat)
      (Function.positions (toLower_countName count) (Nth.parse_tokens h))
  | lang range =>
    have hnone : Blanks [] := nofun
    refine condition_function (Text.balanced (Text.quoted range) Balanced.nil) ?_
    rw [show "lang".toLower = "lang" by decide +kernel]
    exact Function.lang hnone (Text.quoted range) hnone
  | dynamic state =>
    refine hplain ?_
    cases state <;> decide +kernel
  | _ => exact hplain (by decide +kernel)

/-- A written atom is a condition by the grammar. -/
theorem condition_atom {atom : Atom} (h : atom.IsWritable namespaces)
    (hcondition : (Simple.atom atom).IsCondition) :
    Condition namespaces (Parsed namespaces) (atom.tokens namespaces) (.atom atom) := by
  match atom with
  | .typeName _ => exact hcondition.elim
  | .inNamespace _ => exact hcondition.elim
  | .id name => exact Condition.id name
  | .className name => exact Condition.className name
  | .attribute test => exact condition_attribute h
  | .pseudoClass p => exact condition_pseudoClass h

/-- A written list under one of its names is a condition by the grammar. -/
theorem condition_list {name lower : String} {make : List Complex → Simple}
    {list : List Complex} (hlower : name.toLower = lower) (hmake : (lower, make) ∈ listNames)
    (h : SelectorList namespaces (Parsed namespaces) (listTokens namespaces list)
      (plainSelectors list)) :
    Condition namespaces (Parsed namespaces) (functionTokens name (listTokens namespaces list))
      (make list) := by
  refine condition_function h.balanced ?_
  rw [hlower]
  exact Function.list hmake (parsed_iff_selectorList.2 h)

/-! ## Selectors -/

private theorem conditions_of_forall {conditions : List Simple}
    (h : ∀ simple ∈ conditions,
      Condition namespaces (Parsed namespaces) (simple.tokens namespaces) simple) :
    Conditions namespaces (Parsed namespaces) (conditionTokens namespaces conditions) conditions := by
  induction conditions with
  | nil => exact Conditions.nil
  | cons simple rest ih =>
    exact Conditions.cons (h simple List.mem_cons_self)
      (ih fun other hother => h other (List.mem_cons_of_mem _ hother))

/-- A compound is derived from its type and its conditions. -/
theorem compound_tokens {simples : List Simple} {back : List Token}
    {pseudoElement? : Option PseudoElement} (htype : TypeFirst simples)
    (hwritable : CompoundWritable namespaces simples)
    (hconditions : ∀ simple ∈ simples, simple.IsCondition →
      Condition namespaces (Parsed namespaces) (simple.tokens namespaces) simple)
    (hback : Ending back pseudoElement?) :
    Compound namespaces (Parsed namespaces)
      (typeTokens namespaces simples ++ conditionTokens namespaces simples ++ back) simples
      pseudoElement? := by
  rw [compoundWritable_iff] at hwritable
  obtain ⟨name?, url?, conditions, rfl, hall⟩ := htype
  have hurl : ∀ url, url? = some url → HasSpelling namespaces url := by
    intro url hurl
    refine hwritable (.atom (.inNamespace url)) (mem_of_typeUrl?_eq_some ?_)
    rw [typeUrl?_append hall, hurl]
  have hmiddle := conditions_of_forall fun simple hsimple =>
    hconditions simple (List.mem_append_right _ hsimple) (hall simple hsimple)
  rw [conditionTokens_append, typeTokens, typeUrl?_append hall, typeName?_append hall]
  refine Compound.intro (TypePart.written (qualifier_tokens hurl) (elementName_tokens name?))
    hmiddle hback ?_
  -- the name or asterisk is there in any case
  cases name? with
  | none => simp [elementNameTokens]
  | some name => simp [elementNameTokens]

private theorem joint_token (combinator : Combinator) : Joint [combinator.token] combinator := by
  have hnone : Blanks [] := nofun
  cases combinator with
  | descendant => exact Joint.blank (fun _ htoken => List.mem_singleton.1 htoken) nofun
  | child => exact @Joint.sign [] [] '>' _ hnone (by simp [combinatorSigns]) hnone
  | nextSibling => exact @Joint.sign [] [] '+' _ hnone (by simp [combinatorSigns]) hnone
  | subsequentSibling => exact @Joint.sign [] [] '~' _ hnone (by simp [combinatorSigns]) hnone

mutual

/-- A written simple selector is the same one by the grammar. -/
theorem Simple.condition_tokens : (simple : Simple) → simple.IsWritable namespaces →
    simple.IsCondition →
      Condition namespaces (Parsed namespaces) (simple.tokens namespaces) simple
  | .atom _, h, hcondition => condition_atom h hcondition
  | .negation list, ⟨hne, h⟩, _ =>
    @condition_list _ "not" "not" .negation list (by decide +kernel) (by simp [listNames])
      (selectorList_tokens list hne h)
  | .isAny list, ⟨hne, h⟩, _ =>
    @condition_list _ "is" "is" .isAny list (by decide +kernel) (by simp [listNames])
      (selectorList_tokens list hne h)
  | .whereAny list, ⟨hne, h⟩, _ =>
    @condition_list _ "where" "where" .whereAny list (by decide +kernel) (by simp [listNames])
      (selectorList_tokens list hne h)

/-- A written complex selector is the same one by the grammar. -/
theorem Complex.sequence_tokens : (complex : Complex) → complex.IsWritable namespaces →
    ∀ {back : List Token} {pseudoElement? : Option PseudoElement}, Ending back pseudoElement? →
      Sequence namespaces (Parsed namespaces) (complex.tokens namespaces ++ back) complex
        pseudoElement?
  | .compound simples, ⟨htype, h⟩, _, _, hback =>
    Sequence.single (compound_tokens htype h (compound_condition_tokens simples h) hback)
  | .relative left combinator simples, ⟨hleft, htype, h⟩, _, _, hback => by
    have hleftTokens := Complex.sequence_tokens left hleft Ending.absent
    have hright := compound_tokens htype h (compound_condition_tokens simples h) hback
    have hjoin := Sequence.join hleftTokens (joint_token combinator) hright
    rw [Complex.tokens]
    simpa using hjoin

private theorem compound_condition_tokens :
    (simples : List Simple) → CompoundWritable namespaces simples →
    ∀ simple ∈ simples, simple.IsCondition →
      Condition namespaces (Parsed namespaces) (simple.tokens namespaces) simple
  | [], _ => nofun
  | first :: rest, ⟨hfirst, hrest⟩ => by
    intro simple hsimple hcondition
    rcases List.mem_cons.1 hsimple with heq | hsimple
    · rw [heq] at hcondition ⊢
      exact Simple.condition_tokens first hfirst hcondition
    · exact compound_condition_tokens rest hrest simple hsimple hcondition

/-- A written inner list is the same one by the grammar. -/
theorem selectorList_tokens : (list : List Complex) → list ≠ [] → ListWritable namespaces list →
    SelectorList namespaces (Parsed namespaces) (listTokens namespaces list) (plainSelectors list)
  | [], hne, _ => absurd rfl hne
  | [complex], _, ⟨h, _⟩ => by
    have hnone : Blanks [] := nofun
    have hsequence := Complex.sequence_tokens complex h Ending.absent
    have hlast := @SelectorList.last namespaces (Parsed namespaces) [] _ [] ⟨complex, none⟩ hnone
      hsequence hnone
    simpa [listTokens, plainSelectors] using hlast
  | complex :: next :: rest, _, ⟨hfirst, hrest⟩ => by
    have hnone : Blanks [] := nofun
    have hsequence := Complex.sequence_tokens complex hfirst Ending.absent
    have hmore := @SelectorList.more namespaces (Parsed namespaces) [] _ [] _ ⟨complex, none⟩ _
      hnone hsequence hnone (selectorList_tokens (next :: rest) nofun hrest)
    simpa [listTokens, plainSelectors] using hmore

end

/-- A written pseudo-element is one by the grammar. -/
theorem ending_tokens (pseudoElement? : Option PseudoElement) :
    Ending (endingTokens pseudoElement?) pseudoElement? := by
  cases pseudoElement? with
  | none => exact Ending.absent
  | some pseudoElement =>
    refine Ending.double ?_
    cases pseudoElement <;> decide +kernel

/-- A written list is the same one by the grammar. -/
theorem selectorList_selectorTokens : (selectors : List Selector) →
    SelectorsWritable namespaces selectors →
      SelectorList namespaces (Parsed namespaces) (selectorTokens namespaces selectors) selectors
  | [], ⟨hne, _⟩ => absurd rfl hne
  | [selector], ⟨_, h⟩ => by
    have hnone : Blanks [] := nofun
    have hsequence := Complex.sequence_tokens selector.complex (h selector List.mem_cons_self)
      (ending_tokens selector.pseudoElement?)
    have hlast := @SelectorList.last namespaces (Parsed namespaces) [] _ [] selector hnone
      hsequence hnone
    simpa [selectorTokens, Selector.tokens] using hlast
  | selector :: next :: rest, ⟨_, h⟩ => by
    have hnone : Blanks [] := nofun
    have hsequence := Complex.sequence_tokens selector.complex (h selector List.mem_cons_self)
      (ending_tokens selector.pseudoElement?)
    have hrest := selectorList_selectorTokens (next :: rest)
      ⟨nofun, fun other hother => h other (List.mem_cons_of_mem _ hother)⟩
    have hmore := @SelectorList.more namespaces (Parsed namespaces) [] _ [] _ selector _
      hnone hsequence hnone hrest
    simpa [selectorTokens, Selector.tokens] using hmore

/-- A list that can be written is read back from its canonical text. -/
theorem parseSelectors_canonicalText_of_writable {selectors : List Selector}
    (h : SelectorsWritable namespaces selectors) :
    parseSelectors namespaces (canonicalText namespaces selectors) = .ok selectors := by
  unfold parseSelectors
  rw [tokenize_canonicalText h]
  exact parsed_iff_selectorList.2 (selectorList_selectorTokens selectors h)

end Selectors
