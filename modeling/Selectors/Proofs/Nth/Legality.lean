import Selectors.Proofs.Nth.Productions

/-!
# Legality — which arguments are read as positions

Positions are read from the joined text of an argument, and that may be the text of a production
although the tokens are none: a comment between two tokens leaves no trace in it, an escape leaves
its character, and spaces that are not blanks are trimmed as if they were. Every argument that is
accepted is read as the argument that its joined text is, with a blank for each space. If none of
the three occurs, the tokens of the argument are themselves a production with blanks around it.

* **`Nth.Spells.spread`** — a spelling with longer runs of blanks is a spelling.
* **`Nth.argument_of_parse`** — the tokens that are accepted, and when they are an argument.
* **`Nth.not_argument_of_accepted`** — accepted tokens that are no argument.
-/

namespace Selectors

open Grammar

namespace Nth

/-! ## Spreading spellings -/

private theorem spread_cons {c : Char} {narrow wide : List Char} (h : Spread (c :: narrow) wide)
    (hc : c ≠ ' ') : ∃ rest, wide = c :: rest ∧ Spread narrow rest := by
  cases h with
  | keep h => exact ⟨_, rfl, h⟩
  | gap => exact absurd rfl hc

private theorem not_mem_space {text : List Char} (h : ∀ c ∈ text, isSpace c = false) : ' ' ∉ text :=
  fun hmem => Bool.noConfusion (h ' ' hmem)

/-- An offset is spelled the same with wider blanks. -/
theorem SpellsOffset.spread {narrow wide : List Char} {offset : Int}
    (h : SpellsOffset isBlank narrow offset) (hspread : Spread narrow wide) :
    SpellsOffset isBlank wide offset := by
  cases h with
  | none =>
    cases hspread
    exact SpellsOffset.none
  | @signed front back digits sign hfront hsign hback hdigits =>
    have hne : sign ≠ ' ' := by
      rcases hsign with rfl | rfl <;> decide
    obtain ⟨front', rest, rfl, hspreadFront, hspreadRest⟩ := hspread.split
    obtain ⟨unsigned, rfl, hspreadUnsigned⟩ := spread_cons hspreadRest hne
    obtain ⟨back', digits', rfl, hspreadBack, hspreadDigits⟩ := hspreadUnsigned.split
    obtain rfl := hspreadDigits.eq_of_not_mem
      (not_mem_space fun c hc => isSpace_of_isDigit (hdigits.2 c hc))
    exact SpellsOffset.signed (hspreadFront.isBlank hfront) hsign (hspreadBack.isBlank hback) hdigits

/-- A spelling with longer runs of blanks is a spelling. -/
theorem Spells.spread {narrow wide : List Char} {nth : Nth} (h : Spells isBlank narrow nth)
    (hspread : Spread narrow wide) : Spells isBlank wide nth := by
  cases h with
  | odd hodd =>
    rw [hspread.eq_of_not_mem (not_mem_space (isSpace_of_mem_word hodd rfl))]
    exact Spells.odd hodd
  | even heven =>
    rw [hspread.eq_of_not_mem (not_mem_space (isSpace_of_mem_word heven rfl))]
    exact Spells.even heven
  | integer hinteger =>
    rw [hspread.eq_of_not_mem
      (not_mem_space (SpellsStep.integer hinteger).isSpace)]
    exact Spells.integer hinteger
  | @term front back letter step offset hstep hletter hoffset hmin =>
    have hne : letter ≠ ' ' := by
      rcases hletter with rfl | rfl <;> decide
    obtain ⟨front', rest, rfl, hspreadFront, hspreadRest⟩ := hspread.split
    obtain rfl := hspreadFront.eq_of_not_mem
      (not_mem_space hstep.isSpace)
    obtain ⟨back', rfl, hspreadBack⟩ := spread_cons hspreadRest hne
    exact Spells.term hstep hletter (hoffset.spread hspreadBack) hmin

/-! ## Spaces as blanks -/

/-- A space for any space. -/
def asBlank (c : Char) : Char :=
  if isSpace c then ' ' else c

private theorem map_asBlank {text : List Char} (h : ∀ c ∈ text, isSpace c = false) :
    text.map asBlank = text := by
  have hsame : ∀ c ∈ text, asBlank c = id c := fun c hc =>
    if_neg (Bool.eq_false_iff.1 (h c hc))
  rw [List.map_congr_left hsame, List.map_id]

private theorem isBlank_of_mem_map_asBlank {text : List Char} (h : ∀ c ∈ text, isSpace c = true) :
    ∀ c ∈ text.map asBlank, isBlank c = true := by
  intro c hc
  obtain ⟨d, hd, rfl⟩ := List.mem_map.1 hc
  rw [asBlank, if_pos (h d hd)]
  rfl

/-- An offset with any spaces is one with blanks in their place. -/
theorem SpellsOffset.map_asBlank {text : List Char} {offset : Int}
    (h : SpellsOffset isSpace text offset) : SpellsOffset isBlank (text.map asBlank) offset := by
  cases h with
  | none => exact SpellsOffset.none
  | @signed front back digits sign hfront hsign hback hdigits =>
    have hsame : asBlank sign = sign := by
      rcases hsign with rfl | rfl <;> rfl
    rw [List.map_append, List.map_cons, List.map_append, hsame,
      Nth.map_asBlank fun c hc => isSpace_of_isDigit (hdigits.2 c hc)]
    exact SpellsOffset.signed (isBlank_of_mem_map_asBlank hfront) hsign
      (isBlank_of_mem_map_asBlank hback) hdigits

/-- A spelling with any spaces is one with blanks in their place. -/
theorem Spells.map_asBlank {text : List Char} {nth : Nth} (h : Spells isSpace text nth) :
    Spells isBlank (text.map asBlank) nth := by
  cases h with
  | odd hodd =>
    rw [Nth.map_asBlank (isSpace_of_mem_word hodd rfl)]
    exact Spells.odd hodd
  | even heven =>
    rw [Nth.map_asBlank (isSpace_of_mem_word heven rfl)]
    exact Spells.even heven
  | integer hinteger =>
    rw [Nth.map_asBlank (SpellsStep.integer hinteger).isSpace]
    exact Spells.integer hinteger
  | term hstep hletter hoffset hmin =>
    rw [List.map_append, List.map_cons,
      Nth.map_asBlank hstep.isSpace]
    refine Spells.term hstep ?_ hoffset.map_asBlank hmin
    rcases hletter with rfl | rfl
    · exact Or.inl rfl
    · exact Or.inr rfl

/-! ## Accepted arguments -/

/-- Trimming takes away spaces at the ends only. -/
theorem exists_trim (text : List Char) :
    ∃ front back, text = front ++ trim text ++ back ∧ (∀ c ∈ front, isSpace c = true) ∧
      ∀ c ∈ back, isSpace c = true := by
  have hsplit : ∀ text : List Char, text.takeWhile isSpace ++ trimStart text = text := fun _ =>
    List.takeWhile_append_dropWhile
  refine ⟨text.takeWhile isSpace, ((trimStart text).reverse.takeWhile isSpace).reverse, ?_,
    fun c hc => List.mem_takeWhile_imp hc,
    fun c hc => List.mem_takeWhile_imp (List.mem_reverse.1 hc)⟩
  rw [trim, List.append_assoc, ← List.reverse_append, hsplit, List.reverse_reverse, hsplit]

/-- Trimming keeps what is no space. -/
theorem mem_trim {text : List Char} {c : Char} (hc : c ∈ text) (h : isSpace c = false) :
    c ∈ trim text := by
  obtain ⟨front, back, hsplit, hfront, hback⟩ := exists_trim text
  rw [hsplit] at hc
  rcases List.mem_append.1 hc with hc | hc
  · rcases List.mem_append.1 hc with hc | hc
    · exact Bool.noConfusion (h.symm.trans (hfront c hc))
    · exact hc
  · exact Bool.noConfusion (h.symm.trans (hback c hc))

/-- A string leaves a quote or a bracket in the joined text, and no spelling has either. -/
theorem not_isQuoted_of_spells {tokens : List Token} {nth : Nth}
    (h : Spells isSpace (argumentText tokens) nth) : ∀ token ∈ tokens, token.isQuoted = false := by
  intro token htoken
  refine Bool.eq_false_iff.2 fun hquoted => ?_
  have hmem : ∃ c ∈ token.text.toList, c = '"' ∨ c = '<' := by
    cases token with
    | string content => exact ⟨'"', by simp [Token.text], Or.inl rfl⟩
    | badString => exact ⟨'<', by decide, Or.inr rfl⟩
    | _ => exact absurd hquoted Bool.false_ne_true
  obtain ⟨c, hc, hsign⟩ := hmem
  have hspace : isSpace c = false := by
    rcases hsign with rfl | rfl <;> rfl
  rcases h.mem c (mem_trim (List.mem_flatMap.2 ⟨token, htoken, hc⟩) hspace) with
    h | (h | h | h) | h
  · exact Bool.noConfusion (hspace.symm.trans h)
  all_goals rcases hsign with rfl | rfl <;> exact absurd h (by decide)

/-- A plain text that is accepted is a spelling with blanks around it. -/
theorem padded_of_parse {text : List Char} {nth : Nth} (h : parse (Lexer.lex text) = .ok nth)
    (hplain : IsPlain text) (hspaces : ∀ c ∈ text, isSpace c = true → isBlank c = true) :
    Padded text nth := by
  have hspells := parse_eq_ok_iff.1 h
  have hjoined := Lexer.joined_lex hplain (not_isQuoted_of_spells hspells)
  have hblank : ∀ c ∈ joined (Lexer.lex text), isSpace c = true → isBlank c = true := by
    intro c hc hspace
    rw [hjoined] at hc
    rcases mem_collapse hc with rfl | hc
    · rfl
    · exact hspaces c hc hspace
  have hspread := spread_collapse text
  rw [← hjoined] at hspread
  obtain ⟨front, back, hsplit, hfront, hback⟩ := exists_trim (joined (Lexer.lex text))
  -- the three parts of the joined text are spread to three parts of the text
  have hmem : ∀ c, c ∈ front ∨ c ∈ trim (joined (Lexer.lex text)) ∨ c ∈ back →
      c ∈ joined (Lexer.lex text) := by
    intro c hc
    rwa [hsplit, List.mem_append, List.mem_append, or_assoc]
  rw [hsplit] at hspread
  obtain ⟨wide, back', rfl, hspreadWide, hspreadBack⟩ := hspread.split
  obtain ⟨front', core, rfl, hspreadFront, hspreadCore⟩ := hspreadWide.split
  refine Padded.intro (hspreadFront.isBlank fun c hc => ?_) ?_
    (hspreadBack.isBlank fun c hc => ?_)
  · exact hblank c (hmem c (Or.inl hc)) (hfront c hc)
  · exact (hspells.mono fun c hc => hblank c (hmem c (Or.inr (Or.inl hc)))).spread hspreadCore
  · exact hblank c (hmem c (Or.inr (Or.inr hc))) (hback c hc)

/-- A spelling with blanks around it is an argument. -/
theorem argument_of_padded {text : List Char} {nth : Nth} (h : Padded text nth) :
    Argument (Lexer.lex text) nth.step.toInt nth.offset.toInt := by
  obtain ⟨tokens, hargument, -, hlex⟩ := lex_padded h
  have halone := hlex [] nofun
  rw [List.append_nil, Lexer.lex_of_empty, List.append_nil] at halone
  rwa [halone]

/-- A text that is accepted is read as the argument that its joined text is with a blank for each
    space. If it has no comments, no escapes and no spaces but blanks, its own tokens are an
    argument with the positions that are read. -/
theorem argument_of_parse (text : String) (nth : Nth) (h : parse (tokenize text) = .ok nth) :
    Argument (tokenize (String.ofList ((argumentText (tokenize text)).map asBlank)))
        nth.step.toInt nth.offset.toInt ∧
      (IsPlain text.toList → (∀ c ∈ text.toList, isSpace c = true → isBlank c = true) →
        Argument (tokenize text) nth.step.toInt nth.offset.toInt) := by
  refine ⟨?_, fun hplain hspaces => ?_⟩
  · have hspells := (parse_eq_ok_iff.1 h).map_asBlank
    have hpadded := @Padded.intro [] _ [] nth nofun hspells nofun
    rw [List.nil_append, List.append_nil] at hpadded
    rw [tokenize, String.toList_ofList]
    exact argument_of_padded hpadded
  · exact argument_of_padded (padded_of_parse h hplain hspaces)

/-- Blanks in front, a capital letter and a tab around the sign. -/
theorem argument_of_parse_blanks :
    parse (tokenize " 2N +\t01") = .ok ⟨2, 1⟩ ∧ Argument (tokenize " 2N +\t01") 2 1 := by
  have hparse : parse (tokenize " 2N +\t01") = .ok ⟨2, 1⟩ := by decide +kernel
  have hplain : IsPlain " 2N +\t01".toList := ⟨by decide, by decide +kernel⟩
  have hall : (" 2N +\t01".toList.all fun c => !isSpace c || isBlank c) = true := by
    decide +kernel
  have hspaces : ∀ c ∈ " 2N +\t01".toList, isSpace c = true → isBlank c = true := by
    intro c hc hspace
    have hblank := List.all_eq_true.1 hall c hc
    rwa [hspace] at hblank
  have hargument := (argument_of_parse " 2N +\t01" ⟨2, 1⟩ hparse).2 hplain hspaces
  exact ⟨hparse, hargument⟩

/-! ## What is no argument -/

section

variable {rest : List Token} {step offset : Int}

/-- Blanks in front of an argument are blanks, so a first token that is none starts a production. -/
theorem Argument.production_of_ne_blank {token : Token} (h : Argument (token :: rest) step offset)
    (hne : token ≠ .blank) :
    ∃ production back, token :: rest = production ++ back ∧ Production production step offset ∧
      Blanks back := by
  obtain ⟨front, production, back, hsplit, hfront, hproduction, hback⟩ := h
  cases front with
  | nil => exact ⟨production, back, hsplit, hproduction, hback⟩
  | cons first front =>
    obtain rfl := (List.cons.inj hsplit).1
    exact absurd (hfront _ List.mem_cons_self) hne

/-- After a number at the front there can be blanks only. -/
theorem Argument.blanks_of_number {number : String}
    (h : Argument (.number number :: rest) step offset) : Blanks rest := by
  obtain ⟨production, back, hsplit, hproduction, hback⟩ := h.production_of_ne_blank nofun
  cases hproduction with
  | odd => exact nomatch (List.cons.inj hsplit).1
  | even => exact nomatch (List.cons.inj hsplit).1
  | integer =>
    obtain rfl := (List.cons.inj hsplit).2
    exact hback
  | term hterm =>
    cases hterm with
    | dimension => exact nomatch (List.cons.inj hsplit).1
    | bare => exact nomatch (List.cons.inj hsplit).1
    | plus => exact nomatch (List.cons.inj hsplit).1
    | minus => exact nomatch (List.cons.inj hsplit).1

private theorem Rest.isIntegerChar {tail : List Char} {tokens : List Token}
    (h : Rest tail tokens offset) : ∀ c ∈ tail, IsIntegerChar c := by
  intro c hc
  cases h with
  | none => exact nomatch hc
  | joined hdigits =>
    rcases List.mem_cons.1 hc with rfl | hc
    · exact Or.inr (Or.inr rfl)
    · exact Or.inl (hdigits.2 c hc)
  | hyphen => exact Or.inr (Or.inr (List.mem_singleton.1 hc))
  | signed => exact nomatch hc
  | divided => exact nomatch hc

/-- A name at the front has letters, digits and hyphens only. -/
theorem Argument.mem_name {name : String} (h : Argument (.ident name :: rest) step offset) :
    ∀ c ∈ name.toList, c.isAlpha = true ∨ IsIntegerChar c := by
  obtain ⟨production, back, hsplit, hproduction, -⟩ := h.production_of_ne_blank nofun
  intro c hc
  have hkeyword : ∀ keyword : String, keyword.toList.all Char.isAlpha = true →
      name.toLower = keyword → c.isAlpha = true := by
    rintro keyword halpha rfl
    exact isAlpha_of_mem_word (toList_toLower name).symm halpha c hc
  have hletter : ∀ {letter : Char}, letter = 'n' ∨ letter = 'N' → letter.isAlpha = true := by
    rintro letter (rfl | rfl) <;> rfl
  -- what starts with a name is a keyword, or an `n` with or without a minus in front
  cases hproduction with
  | odd hodd =>
    obtain ⟨⟨⟩, -⟩ := List.cons.inj hsplit
    exact Or.inl (hkeyword _ rfl hodd)
  | even heven =>
    obtain ⟨⟨⟩, -⟩ := List.cons.inj hsplit
    exact Or.inl (hkeyword _ rfl heven)
  | integer => exact nomatch (List.cons.inj hsplit).1
  | term hterm hrest =>
    cases hterm with
    | dimension => exact nomatch (List.cons.inj hsplit).1
    | plus => exact nomatch (List.cons.inj hsplit).1
    | bare hn hname =>
      obtain ⟨⟨⟩, -⟩ := List.cons.inj hsplit
      rw [hname] at hc
      rcases List.mem_cons.1 hc with rfl | hc
      · exact Or.inl (hletter hn)
      · exact Or.inr (hrest.isIntegerChar c hc)
    | minus hn hname =>
      obtain ⟨⟨⟩, -⟩ := List.cons.inj hsplit
      rw [hname] at hc
      rcases List.mem_cons.1 hc with rfl | hc
      · exact Or.inr (Or.inr (Or.inr rfl))
      · rcases List.mem_cons.1 hc with rfl | hc
        · exact Or.inl (hletter hn)
        · exact Or.inr (hrest.isIntegerChar c hc)

end

/-- Two numbers with a comment between them, a number and a name with a comment between them, and a
    name that starts with a space that is no blank: all are accepted, and none is an argument. -/
theorem not_argument_of_accepted :
    (parse (tokenize "1/**/2") = .ok ⟨0, 12⟩ ∧
      ¬ ∃ step offset, Argument (tokenize "1/**/2") step offset) ∧
    (parse (tokenize "2/**/n") = .ok ⟨2, 0⟩ ∧
      ¬ ∃ step offset, Argument (tokenize "2/**/n") step offset) ∧
    parse (tokenize "\u00a0n") = .ok ⟨1, 0⟩ ∧
      ¬ ∃ step offset, Argument (tokenize "\u00a0n") step offset := by
  refine ⟨⟨by decide +kernel, ?_⟩, ⟨by decide +kernel, ?_⟩, by decide +kernel, ?_⟩
  · have htokens : tokenize "1/**/2" = [.number "1", .number "2"] := by decide +kernel
    rintro ⟨step, offset, h⟩
    rw [htokens] at h
    exact nomatch h.blanks_of_number _ List.mem_cons_self
  · have htokens : tokenize "2/**/n" = [.number "2", .ident "n"] := by decide +kernel
    rintro ⟨step, offset, h⟩
    rw [htokens] at h
    exact nomatch h.blanks_of_number _ List.mem_cons_self
  · have htokens : tokenize "\u00a0n" = [.ident "\u00a0n"] := by decide +kernel
    rintro ⟨step, offset, h⟩
    rw [htokens] at h
    rcases h.mem_name (Char.ofNat 0xa0) (by decide) with h | h | h | h
    all_goals exact absurd h (by decide)

end Nth

end Selectors
