import Selectors.Proofs.RoundTrip.Canonical

/-!
# Lexing canonical text — the tokens come back

Tokens of a writable list are spelled so that none runs into the next one. A condition starts with
a sign that no name goes on with, and so it can follow a name; a compound starts with a backslash,
an asterisk or a bar, and so a combinator can stand in front of it. With these two facts the text of
a list is taken apart where its tokens have been joined, at any depth.

* **`Simple.reads_tokens`** and **`Complex.reads_tokens`** — by induction on selectors.
* **`tokenize_canonicalText`** — the tokens of canonical text.
-/

namespace Selectors

open Lexer

variable {namespaces : Namespaces}

/-! ## Keywords -/

/-- The names of positional pseudo-classes are keywords. -/
theorem isKeyword_countName (count : Count) : isKeyword count.name = true := by
  obtain ⟨fromEnd, sameType⟩ := count
  cases fromEnd <;> cases sameType <;> decide +kernel

/-- The names of pseudo-classes are keywords. -/
theorem isKeyword_pseudoClassName (pseudoClass : PseudoClass) :
    isKeyword pseudoClass.name = true := by
  cases pseudoClass with
  | nth count places => exact isKeyword_countName count
  | lang range =>
    show isKeyword "lang" = true
    decide +kernel
  | dynamic state => cases state <;> decide +kernel
  | _ => decide +kernel

/-- The names of pseudo-elements are keywords. -/
theorem isKeyword_pseudoElementName (pseudoElement : PseudoElement) :
    isKeyword pseudoElement.name = true := by
  cases pseudoElement <;> decide +kernel

/-! ## Parts of a compound -/

private theorem stands_shortTokens {url short : String} (h : namespaces.short? url = some short) :
    Stands (shortTokens namespaces url) := by
  obtain ⟨-, hname⟩ := Namespaces.short?_eq_some h
  have hbar : Stands [.delim '|'] := stands_sign (by decide)
  unfold shortTokens
  rw [h]
  exact (reads_ident hname).append_stands (fun rest => endsName_cons (by decide) _) hbar

/-- The namespace of a type is read back in front of anything. -/
theorem stands_qualifierTokens {url? : Option String}
    (h : ∀ url, url? = some url → HasSpelling namespaces url) :
    Stands (qualifierTokens namespaces url?) := by
  have hbar : Stands [.delim '|'] := stands_sign (by decide)
  cases url? with
  | none => exact (stands_sign (by decide)).append hbar
  | some url =>
    unfold qualifierTokens
    dsimp only
    split
    · exact hbar
    · next hne =>
      split
      · exact stands_nil
      · next hdefault =>
        obtain ⟨short, hshort⟩ := ((h url rfl).resolve_left hne).resolve_left hdefault
        exact stands_shortTokens hshort

/-- The name of a type is read back. -/
theorem reads_elementNameTokens {name? : Option String}
    (h : ∀ name, name? = some name → IsName name) : Reads (elementNameTokens name?) := by
  cases name? with
  | none => exact (stands_sign (by decide)).reads
  | some name => exact reads_ident (h name rfl)

/-- The text starts as a compound does: with a backslash, an asterisk or a bar. -/
def Heads (text : List Char) : Prop :=
  ∃ c rest, text = c :: rest ∧ c ∈ ['\\', '*', '|']

private theorem heads_of_isName {name : String} (h : IsName name) (rest : List Char) :
    Heads (escaped name.toList ++ rest) := by
  obtain ⟨text, htext, -⟩ := h.exists_escape rest
  exact ⟨'\\', text, htext, List.mem_cons_self⟩

/-- The type of a compound is read back and starts as a compound does. -/
theorem reads_typeTokens {simples : List Simple}
    (hurl : ∀ url, typeUrl? simples = some url → HasSpelling namespaces url)
    (hname : ∀ name, typeName? simples = some name → IsName name) :
    Reads (typeTokens namespaces simples) ∧
      ∀ rest, Heads (spell (typeTokens namespaces simples) ++ rest) := by
  refine ⟨(stands_qualifierTokens hurl).append_reads (reads_elementNameTokens hname), ?_⟩
  intro rest
  have hhead : Heads (spell (elementNameTokens (typeName? simples)) ++ rest) := by
    cases hsome : typeName? simples with
    | none => exact ⟨'*', rest, rfl, by decide⟩
    | some name =>
      rw [show spell (elementNameTokens (some name)) = escaped name.toList from List.append_nil _]
      exact heads_of_isName (hname name hsome) rest
  unfold typeTokens
  rw [spell_append (stands_qualifierTokens hurl).settled, List.append_assoc]
  -- the head is a `*`, the bar of no namespace, or the first character of a short name
  cases hsome : typeUrl? simples with
  | none => exact ⟨'*', _, rfl, by decide⟩
  | some url =>
    unfold qualifierTokens
    dsimp only
    split
    · exact ⟨'|', _, rfl, by decide⟩
    · next hne =>
      split
      · exact hhead
      · next hdefault =>
        obtain ⟨short, hshort⟩ := ((hurl url hsome).resolve_left hne).resolve_left hdefault
        obtain ⟨-, hshortName⟩ := Namespaces.short?_eq_some hshort
        unfold shortTokens
        rw [hshort, show spell ((some short).toList.flatMap fun short =>
            [Token.ident short, .delim '|']) = escaped short.toList ++ spell [.delim '|'] from
          rfl, List.append_assoc]
        exact heads_of_isName hshortName _

/-- A function is read back in front of anything if its arguments are in front of a parenthesis. -/
theorem stands_functionTokens {name : String} {arguments : List Token}
    (hname : isKeyword name = true) (hsettled : Settled arguments)
    (harguments : ∀ rest, lex (spell arguments ++ ')' :: rest) = arguments ++ lex (')' :: rest)) :
    Stands (functionTokens name arguments) := by
  have hinside : Stands (arguments ++ [.rightParen]) := by
    refine ⟨hsettled.append stands_rightParen.settled, fun rest => ?_⟩
    rw [spell_append hsettled, List.append_assoc, List.append_assoc]
    exact (harguments rest).trans (congrArg (arguments ++ ·) (stands_rightParen.lex_spell rest))
  unfold functionTokens
  rw [List.append_assoc]
  exact (stands_function hname).append hinside

private theorem stands_functionTokens_of_reads {name : String} {arguments : List Token}
    (hname : isKeyword name = true) (h : Reads arguments) :
    Stands (functionTokens name arguments) :=
  stands_functionTokens hname h.settled fun _ => h.lex_spell _ (endsName_cons (by decide) _)

private theorem follows_functionTokens (name : String) (arguments : List Token) :
    Follows (functionTokens name arguments) :=
  fun _ _ => endsName_cons (by decide) _

/-- A condition on an attribute is read back in front of anything. -/
theorem stands_attributeTokens {test : AttributeTest} (h : test.IsWritable namespaces) :
    Stands (test.tokens namespaces) := by
  obtain ⟨hname, hscope, hvalue⟩ := h
  obtain ⟨scope, name, expected?⟩ := test
  have hscopeTokens : Stands (scope.tokens namespaces) := by
    cases scope with
    | none => exact stands_nil
    | any =>
      have hbar : Stands [.delim '|'] := stands_sign (by decide)
      exact (stands_sign (by decide)).append hbar
    | url url =>
      obtain ⟨short, hshort⟩ := hscope url rfl
      exact stands_shortTokens hshort
  -- the attribute name ends where a sign or the bracket starts
  have hback : Stands (expectedTokens expected? ++ [.rightBracket]) ∧
      ∀ rest, EndsName (spell (expectedTokens expected? ++ [.rightBracket]) ++ rest) := by
    match expected? with
    | none => exact ⟨stands_rightBracket, fun rest => endsName_cons (by decide) _⟩
    | some (operator, value) =>
      have hall : operator.sign.toList.all (· ∈ signs) = true := by
        cases operator <;> decide
      have hsigns : Stands (operator.sign.toList.map Token.delim) :=
        stands_signs fun c hc => of_decide_eq_true (List.all_eq_true.1 hall c hc)
      refine ⟨(hsigns.append (stands_string (hvalue operator value rfl))).append
        stands_rightBracket, ?_⟩
      intro rest
      cases operator <;> exact endsName_cons (by decide) _
  have hopening : Stands ([.leftBracket] ++ scope.tokens namespaces) :=
    stands_leftBracket.append hscopeTokens
  unfold AttributeTest.tokens
  dsimp only
  rw [List.append_assoc, List.append_assoc]
  exact hopening.append ((reads_ident hname).append_stands hback.2 hback.1)

/-- A pseudo-class is read back. -/
theorem reads_pseudoClassTokens {pseudoClass : PseudoClass} (h : pseudoClass.IsWritable) :
    Reads pseudoClass.tokens ∧ Follows pseudoClass.tokens := by
  have hplain : ∀ {name : String}, isKeyword name = true →
      Reads [.colon, .ident name] ∧ Follows [.colon, .ident name] :=
    fun hname => ⟨reads_keyword hname, fun _ _ => endsName_cons (by decide) _⟩
  cases pseudoClass with
  | nth count places =>
    exact ⟨(stands_functionTokens (isKeyword_countName count) places.settled_tokens
      places.lex_positions).reads, follows_functionTokens _ _⟩
  | lang range =>
    have hname : isKeyword "lang" = true := by decide +kernel
    exact ⟨(stands_functionTokens_of_reads hname (stands_string h).reads).reads,
      follows_functionTokens _ _⟩
  | _ => exact hplain (isKeyword_pseudoClassName _)

/-- An atom is read back. -/
theorem reads_atomTokens {atom : Atom} (h : atom.IsWritable namespaces) :
    Reads (atom.tokens namespaces) ∧ Follows (atom.tokens namespaces) := by
  match atom with
  | .typeName name => exact ⟨stands_nil.reads, fun _ hrest => hrest⟩
  | .inNamespace url => exact ⟨stands_nil.reads, fun _ hrest => hrest⟩
  | .id name => exact ⟨reads_hash h, fun _ _ => endsName_cons (by decide) _⟩
  | .className name => exact ⟨reads_className h, fun _ _ => endsName_cons (by decide) _⟩
  | .attribute test =>
    exact ⟨(stands_attributeTokens h).reads, fun _ _ => endsName_cons (by decide) _⟩
  | .pseudoClass p => exact reads_pseudoClassTokens h

/-- A combinator is read back in front of a compound. -/
theorem lex_combinator (combinator : Combinator) {rest : List Char} (h : Heads rest) :
    lex (combinator.token.spelling ++ rest) = combinator.token :: lex rest := by
  obtain ⟨c, text, rfl, hc⟩ := h
  simp only [List.mem_cons, List.not_mem_nil, or_false] at hc
  cases combinator with
  | descendant =>
    refine lex_blank ?_
    rintro d ⟨⟩
    rcases hc with rfl | rfl | rfl
    · rfl
    · rfl
    · rfl
  | child => exact (@stands_sign '>' (by decide)).lex_spell (c :: text)
  | nextSibling =>
    refine lex_plus ?_
    rcases hc with rfl | rfl | rfl
    · rfl
    · rfl
    · rfl
  | subsequentSibling => exact (@stands_sign '~' (by decide)).lex_spell (c :: text)

/-! ## Selectors -/

/-- A compound can be written if all of its parts can. -/
theorem compoundWritable_iff {simples : List Simple} :
    CompoundWritable namespaces simples ↔ ∀ simple ∈ simples, simple.IsWritable namespaces := by
  induction simples with
  | nil => exact iff_of_true trivial nofun
  | cons simple rest ih =>
    rw [List.forall_mem_cons, ← ih]
    rfl

/-- The name of the type is a part of the compound. -/
theorem mem_of_typeName?_eq_some {simples : List Simple} {name : String}
    (h : typeName? simples = some name) : .atom (.typeName name) ∈ simples := by
  obtain ⟨simple, hmem, hname⟩ := List.exists_of_findSome?_eq_some h
  split at hname
  · obtain rfl := Option.some.inj hname
    exact hmem
  · exact nomatch hname

/-- The namespace of the type is a part of the compound. -/
theorem mem_of_typeUrl?_eq_some {simples : List Simple} {url : String}
    (h : typeUrl? simples = some url) : .atom (.inNamespace url) ∈ simples := by
  obtain ⟨simple, hmem, hurl⟩ := List.exists_of_findSome?_eq_some h
  split at hurl
  · obtain rfl := Option.some.inj hurl
    exact hmem
  · exact nomatch hurl

/-- The type of a writable compound is read back. -/
theorem reads_typeTokens_of_compoundWritable {simples : List Simple}
    (h : CompoundWritable namespaces simples) :
    Reads (typeTokens namespaces simples) ∧
      ∀ rest, Heads (spell (typeTokens namespaces simples) ++ rest) := by
  rw [compoundWritable_iff] at h
  refine reads_typeTokens ?_ ?_
  · intro url hurl
    exact h _ (mem_of_typeUrl?_eq_some hurl)
  · intro name hname
    exact h _ (mem_of_typeName?_eq_some hname)

private theorem stands_append_comma {tokens : List Token} (h : Reads tokens) :
    Stands (tokens ++ [.comma]) := by
  have hends : ∀ rest, EndsName (spell [.comma] ++ rest) := fun _ => endsName_cons (by decide) _
  exact h.append_stands hends stands_comma

mutual

/-- A simple selector is read back, by induction over the selectors in it. -/
theorem Simple.reads_tokens : (simple : Simple) → simple.IsWritable namespaces →
    Reads (simple.tokens namespaces) ∧ Follows (simple.tokens namespaces)
  | .atom a, h => reads_atomTokens h
  | .negation list, ⟨_, h⟩ =>
    ⟨(stands_functionTokens_of_reads (by decide +kernel) (reads_listTokens list h)).reads,
      follows_functionTokens _ _⟩
  | .isAny list, ⟨_, h⟩ =>
    ⟨(stands_functionTokens_of_reads (by decide +kernel) (reads_listTokens list h)).reads,
      follows_functionTokens _ _⟩
  | .whereAny list, ⟨_, h⟩ =>
    ⟨(stands_functionTokens_of_reads (by decide +kernel) (reads_listTokens list h)).reads,
      follows_functionTokens _ _⟩

/-- A complex selector is read back, and starts like a compound. -/
theorem Complex.reads_tokens : (complex : Complex) → complex.IsWritable namespaces →
    Reads (complex.tokens namespaces) ∧
      ∀ rest, Heads (spell (complex.tokens namespaces) ++ rest)
  | .compound simples, ⟨_, h⟩ => by
    obtain ⟨htype, hheads⟩ := reads_typeTokens_of_compoundWritable h
    obtain ⟨hconditions, hfollows⟩ := reads_conditionTokens simples h
    refine ⟨htype.append hfollows hconditions, fun rest => ?_⟩
    rw [Complex.tokens, spell_append htype.settled, List.append_assoc]
    exact hheads _
  | .relative left combinator simples, ⟨hleft, _, h⟩ => by
    obtain ⟨hleftReads, hleftHeads⟩ := Complex.reads_tokens left hleft
    obtain ⟨htype, hheads⟩ := reads_typeTokens_of_compoundWritable h
    obtain ⟨hconditions, hfollows⟩ := reads_conditionTokens simples h
    have hright := htype.append hfollows hconditions
    have hmiddle : Settled [combinator.token] := by
      cases combinator <;> exact nofun
    -- the combinator keeps the two compounds apart: it ends the names of the left one
    have hfront := hleftReads.settled.append hmiddle
    rw [Complex.tokens]
    refine ⟨⟨hfront.append hright.settled, fun rest hrest => ?_⟩, fun rest => ?_⟩
    · have hstart : Heads (spell (typeTokens namespaces simples ++
          conditionTokens namespaces simples) ++ rest) := by
        rw [spell_append htype.settled, List.append_assoc]
        exact hheads _
      have hends : EndsName (combinator.token.spelling ++ (spell (typeTokens namespaces simples ++
          conditionTokens namespaces simples) ++ rest)) := by
        cases combinator <;> exact endsName_cons (by decide) _
      have hspell : spell [combinator.token] = combinator.token.spelling := by
        cases combinator <;> rfl
      rw [spell_append hfront, spell_append hleftReads.settled, List.append_assoc,
        List.append_assoc, hspell, hleftReads.lex_spell _ hends, lex_combinator combinator hstart,
        hright.lex_spell rest hrest]
      simp
    · rw [spell_append hfront, spell_append hleftReads.settled, List.append_assoc,
        List.append_assoc]
      exact hleftHeads _

/-- The conditions of a compound are read back. -/
theorem reads_conditionTokens : (simples : List Simple) → CompoundWritable namespaces simples →
    Reads (conditionTokens namespaces simples) ∧ Follows (conditionTokens namespaces simples)
  | [], _ => ⟨stands_nil.reads, fun _ hrest => hrest⟩
  | simple :: rest, ⟨hfirst, hrest⟩ => by
    obtain ⟨hreads, hfollows⟩ := Simple.reads_tokens simple hfirst
    obtain ⟨hreadsRest, hfollowsRest⟩ := reads_conditionTokens rest hrest
    refine ⟨hreads.append hfollowsRest hreadsRest, fun after hafter => ?_⟩
    rw [conditionTokens, spell_append hreads.settled, List.append_assoc]
    exact hfollows _ (hfollowsRest after hafter)

/-- A list is read back. -/
theorem reads_listTokens : (list : List Complex) → ListWritable namespaces list →
    Reads (listTokens namespaces list)
  | [], _ => stands_nil.reads
  | [complex], ⟨h, _⟩ => (Complex.reads_tokens complex h).1
  | complex :: next :: rest, ⟨hfirst, hrest⟩ =>
    (stands_append_comma (Complex.reads_tokens complex hfirst).1).append_reads
      (reads_listTokens (next :: rest) hrest)

end

/-- A selector is read back with its pseudo-element. -/
theorem reads_selectorTokens {selector : Selector} (h : selector.complex.IsWritable namespaces) :
    Reads (selector.tokens namespaces) := by
  obtain ⟨hreads, -⟩ := Complex.reads_tokens selector.complex h
  unfold Selector.tokens
  cases selector.pseudoElement? with
  | none =>
    rw [endingTokens, List.append_nil]
    exact hreads
  | some pseudoElement =>
    refine hreads.append (fun _ _ => endsName_cons (by decide) _) ?_
    exact reads_doubleKeyword (isKeyword_pseudoElementName pseudoElement)

private theorem reads_selectorsTokens {selectors : List Selector}
    (h : ∀ selector ∈ selectors, selector.complex.IsWritable namespaces) :
    Reads (selectorTokens namespaces selectors) := by
  induction selectors with
  | nil => exact stands_nil.reads
  | cons selector rest ih =>
    have hfirst := reads_selectorTokens (h selector List.mem_cons_self)
    have hrest := ih fun other hother => h other (List.mem_cons_of_mem _ hother)
    cases rest with
    | nil => exact hfirst
    | cons next rest => exact (stands_append_comma hfirst).append_reads hrest

/-- The canonical text of a list has the tokens that it was made from. -/
theorem tokenize_canonicalText {selectors : List Selector}
    (h : SelectorsWritable namespaces selectors) :
    tokenize (canonicalText namespaces selectors) = selectorTokens namespaces selectors := by
  have hlex := (reads_selectorsTokens h.2).lex_spell [] endsName_nil
  rw [List.append_nil, lex_of_empty, List.append_nil] at hlex
  unfold tokenize canonicalText
  rw [String.toList_ofList]
  exact hlex

end Selectors
