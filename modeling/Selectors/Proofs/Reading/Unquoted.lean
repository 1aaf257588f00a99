import Selectors.Proofs.Reading.Boundaries

/-!
# Unquoted text — what its tokens keep, and what a comment does to it

A text without quotes, backslashes and comments is cut into tokens and nothing else happens to it:
each token has the characters that it was read from, and a run of blanks has a single space. A
comment behind such a text separates. The slash that it starts with is part of no token but its own,
so what stands in front of it is read as at the end of the input, and what stands behind the comment
is read as at its beginning.

* **`Unquoted`** — the texts in question.
* **`joined_tokenize`** — their tokens have the text that was read.
* **`read_slash`** and **`lex_comment`** — one token in front of a slash, and all of them.
* **`tokenize_around_comment`** — a comment separates two texts and does nothing else.
-/

namespace Selectors

/-- The text has neither quotes nor escapes nor comments. -/
structure Unquoted (text : List Char) : Prop extends IsPlain text where
  doubleQuotes : '"' ∉ text
  singleQuotes : '\'' ∉ text

/-- The end of a text without quotes has none. -/
theorem Unquoted.of_suffix {text rest : List Char} (h : Unquoted text) (hrest : rest <:+ text) :
    Unquoted rest where
  escapes hmem := h.escapes (hrest.subset hmem)
  comments hpart := h.comments (hpart.trans hrest.isInfix)
  doubleQuotes hmem := h.doubleQuotes (hrest.subset hmem)
  singleQuotes hmem := h.singleQuotes (hrest.subset hmem)

namespace Lexer

/-! ## Tokens without quotes -/

private theorem isQuoted_readName (text : List Char) : (readName text).1.isQuoted = false := by
  unfold readName
  split
  · rfl
  · rfl

private theorem isQuoted_readNumber (text : List Char) : (readNumber text).1.isQuoted = false := by
  unfold readNumber
  dsimp only
  split
  · rfl
  · split
    · rfl
    · rfl

private theorem isQuoted_readHash (text : List Char) : (readHash text).1.isQuoted = false := by
  unfold readHash
  split
  · split
    · rfl
    · rfl
  · rfl

/-- Only a quote starts a string. -/
theorem isQuoted_read {c : Char} (hdouble : c ≠ '"') (hsingle : c ≠ '\'') (text : List Char) :
    (read c text).1.isQuoted = false := by
  unfold read
  split
  · rfl
  · split
    · exact absurd rfl hdouble
    · exact absurd rfl hsingle
    · exact isQuoted_readHash text
    · rfl
    · rfl
    · rfl
    · rfl
    · rfl
    · rfl
    · split
      · exact isQuoted_readNumber _
      · split
        · exact isQuoted_readName _
        · rfl

/-- After a token without quotes the end of the text is left. -/
theorem Taken.isSuffix {text rest : List Char} {token : Token} (htaken : Taken text token rest)
    (hquoted : token.isQuoted = false) : rest <:+ text := by
  cases htaken with
  | blanks => exact (List.dropWhile_suffix isBlank).trans (List.suffix_cons _ _)
  | quoted hstring => exact Bool.noConfusion (hquoted.symm.trans hstring)
  | whole => exact List.suffix_append _ _

/-- What is left after a token of an unquoted text is unquoted. -/
theorem isQuoted_and_unquoted_read {c : Char} {text : List Char} (h : Unquoted (c :: text)) :
    (read c text).1.isQuoted = false ∧ Unquoted (read c text).2 := by
  have hquoted : (read c text).1.isQuoted = false := by
    refine isQuoted_read ?_ ?_ text
    · rintro rfl
      exact h.doubleQuotes List.mem_cons_self
    · rintro rfl
      exact h.singleQuotes List.mem_cons_self
  exact ⟨hquoted, h.of_suffix ((taken_read h.escapes).isSuffix hquoted)⟩

/-- No token of a text without quotes is quoted. -/
theorem isQuoted_of_mem_lex {text : List Char} (h : Unquoted text) :
    ∀ token ∈ lex text, token.isQuoted = false := by
  fun_induction lex text with
  | case1 => exact List.forall_mem_nil _
  | case2 text c rest hskip ih =>
    rw [skipComments_of_isPlain h.toIsPlain] at hskip
    subst hskip
    obtain ⟨hquoted, hrest⟩ := isQuoted_and_unquoted_read h
    intro token hmem
    rcases List.mem_cons.1 hmem with rfl | hmem
    · exact hquoted
    · exact ih hrest token hmem

/-! ## In front of a slash -/

private theorem startsEscape_slash {text : List Char} (h : '\\' ∉ text) (rest : List Char) :
    startsEscape (text ++ '/' :: rest) = false := by
  cases text with
  | nil => rfl
  | cons c text =>
    exact startsEscape_of_ne (fun heq => h (heq ▸ List.mem_cons_self)) _

/-- Whether a name starts is seen in front of a slash. -/
theorem startsName_slash {text : List Char} (h : '\\' ∉ text) (rest : List Char) :
    startsName (text ++ '/' :: rest) = startsName text := by
  cases text with
  | nil => rfl
  | cons c text =>
    have htail : '\\' ∉ text := fun hmem => h (List.mem_cons_of_mem _ hmem)
    by_cases hc : c = '-'
    · subst hc
      cases text with
      | nil => rfl
      | cons d text =>
        rw [List.cons_append, List.cons_append, startsName, startsName, ← List.cons_append,
          startsEscape_slash htail, startsEscape_of_not_mem htail]
    · rw [List.cons_append, startsName_of_ne hc, startsName_of_ne hc, ← List.cons_append,
        startsEscape_slash h, startsEscape_of_not_mem h]

/-- A name ends in front of a slash. -/
theorem takeName_slash {text : List Char} (h : '\\' ∉ text) (rest : List Char) :
    takeName (text ++ '/' :: rest) = ((takeName text).1, (takeName text).2 ++ '/' :: rest) := by
  induction text with
  | nil =>
    have hslash : ∀ c ∈ ('/' :: rest).head?, isNameChar c = false ∧ c ≠ '\\' := by
      rintro c ⟨⟩
      decide
    rw [List.nil_append, takeName_of_ends hslash, takeName]
    rfl
  | cons c text ih =>
    have htail := ih fun hmem => h (List.mem_cons_of_mem _ hmem)
    rw [List.cons_append, takeName, takeName, ← List.cons_append]
    split
    · rw [htail]
    · rw [if_neg (Bool.eq_false_iff.1 (startsEscape_slash h rest)),
        if_neg (Bool.eq_false_iff.1 (startsEscape_of_not_mem h))]

private theorem readName_slash {text : List Char} (h : '\\' ∉ text) (rest : List Char) :
    readName (text ++ '/' :: rest) = ((readName text).1, (readName text).2 ++ '/' :: rest) := by
  have hslash := takeName_slash h rest
  generalize htake : takeName text = taken at hslash
  obtain ⟨name, after⟩ := taken
  by_cases hparen : after.head? = some '('
  · obtain ⟨tail, rfl⟩ := List.head?_eq_some_iff.1 hparen
    rw [readName_function htake, readName_function hslash]
    rfl
  · rw [readName_of_head htake hparen, readName_of_head hslash]
    cases after with
    | nil => exact fun heq => absurd (Option.some.inj heq) (by decide)
    | cons c after => exact hparen

private theorem readNumber_slash {text : List Char} (h : '\\' ∉ text) (rest : List Char) :
    readNumber (text ++ '/' :: rest) = ((readNumber text).1, (readNumber text).2 ++ '/' :: rest) := by
  have hescapes : '\\' ∉ (takeNumber text).2 := by
    intro hmem
    rw [← takeNumber_append text] at h
    exact h (List.mem_append_right _ hmem)
  have hslash := takeNumber_boundary (endsNumber_cons rfl rest : EndsNumber ('/' :: rest)) text
  generalize htake : takeNumber text = taken at hescapes hslash
  obtain ⟨digits, after⟩ := taken
  have hstarts := startsName_slash hescapes rest
  cases hname : startsName after with
  | true =>
    rw [readNumber_dimension htake hname, readNumber_dimension hslash (hstarts.trans hname),
      takeName_slash hescapes]
  | false =>
    by_cases hpercent : after.head? = some '%'
    · obtain ⟨tail, rfl⟩ := List.head?_eq_some_iff.1 hpercent
      rw [readNumber_percentage htake, readNumber_percentage hslash]
      rfl
    · rw [readNumber_of_head htake hname hpercent, readNumber_of_head hslash (hstarts.trans hname)]
      cases after with
      | nil => exact fun heq => absurd (Option.some.inj heq) (by decide)
      | cons c after => exact hpercent

private theorem readHash_slash {text : List Char} (h : '\\' ∉ text) (rest : List Char) :
    readHash (text ++ '/' :: rest) = ((readHash text).1, (readHash text).2 ++ '/' :: rest) := by
  cases text with
  | nil => rfl
  | cons c text =>
    rw [List.cons_append, readHash, readHash, ← List.cons_append, startsEscape_slash h,
      startsEscape_of_not_mem h, startsName_slash h, takeName_slash h]
    split
    · rfl
    · rfl

private theorem dropWhile_isBlank_slash (text rest : List Char) :
    (text ++ '/' :: rest).dropWhile isBlank = text.dropWhile isBlank ++ '/' :: rest := by
  rw [List.dropWhile_append]
  split
  · next hblank =>
    rw [List.isEmpty_iff.1 hblank]
    rfl
  · rfl

/-- A token in front of a slash is read as at the end of the input. -/
theorem read_slash {c : Char} {text : List Char} (h : Unquoted (c :: text)) (rest : List Char) :
    read c (text ++ '/' :: rest) = ((read c text).1, (read c text).2 ++ '/' :: rest) := by
  have hescapes : '\\' ∉ text := fun hmem => h.escapes (List.mem_cons_of_mem _ hmem)
  unfold read
  split
  · rw [dropWhile_isBlank_slash]
  · split
    · exact absurd List.mem_cons_self h.doubleQuotes
    · exact absurd List.mem_cons_self h.singleQuotes
    · exact readHash_slash hescapes rest
    · rfl
    · rfl
    · rfl
    · rfl
    · rfl
    · rfl
    -- here up to three characters are looked at, and a slash is none that is asked for
    · rw [← List.cons_append, startsNumber_boundary (endsNumber_cons rfl rest),
        startsName_slash h.escapes, readNumber_slash h.escapes, readName_slash h.escapes]
      split
      · rfl
      · split
        · rfl
        · rfl

/-! ## Around a comment -/

/-- A text without comments has none in front of its last slash either. -/
theorem skipComments_slash {c : Char} {text : List Char} (h : IsPlain (c :: text))
    (rest : List Char) : skipComments (c :: text ++ '/' :: rest) = c :: text ++ '/' :: rest := by
  refine skipComments_of_not_comment fun tail heq => ?_
  obtain ⟨rfl, htail⟩ := List.cons.inj heq
  cases text with
  | nil => exact absurd (List.cons.inj htail).1 (by decide)
  | cons d text =>
    obtain rfl := (List.cons.inj htail).1
    exact h.comments ⟨[], text, rfl⟩

/-- What ends a comment is the first mark that can. -/
theorem afterComment_of_not_infix {comment : List Char} (h : ¬ ['*', '/'] <:+: comment)
    (rest : List Char) : afterComment (comment ++ '*' :: '/' :: rest) = rest := by
  induction comment with
  | nil => rw [List.nil_append, afterComment]
  | cons c comment ih =>
    have htail := ih fun hpart => h (hpart.trans (List.suffix_cons c comment).isInfix)
    rw [List.cons_append, afterComment, htail]
    -- the star in front of the mark is no part of it
    rintro tail rfl heq
    cases comment with
    | nil => exact absurd (List.cons.inj heq).1 (by decide)
    | cons d comment =>
      obtain rfl := (List.cons.inj heq).1
      exact h ⟨[], comment, rfl⟩

private theorem lex_eq_of_skipComments {text other : List Char}
    (h : skipComments text = skipComments other) : lex text = lex other := by
  cases hother : skipComments other with
  | nil => rw [lex_nil hother, lex_nil (h.trans hother)]
  | cons c rest => rw [lex_cons hother, lex_cons (h.trans hother)]

/-- A comment has no tokens. -/
theorem lex_comment {comment : List Char} (h : ¬ ['*', '/'] <:+: comment) (rest : List Char) :
    lex ('/' :: '*' :: (comment ++ '*' :: '/' :: rest)) = lex rest := by
  refine lex_eq_of_skipComments ?_
  rw [skipComments, afterComment_of_not_infix h]

/-- The tokens in front of a comment are those of the text in front of it, and what follows is
    read from there. -/
theorem lex_slash {text : List Char} (h : Unquoted text) (rest : List Char) :
    lex (text ++ '/' :: '*' :: rest) = lex text ++ lex ('/' :: '*' :: rest) := by
  fun_induction lex text with
  | case1 text hskip =>
    rw [skipComments_of_isPlain h.toIsPlain] at hskip
    rw [hskip]
    rfl
  | case2 text c after hskip ih =>
    rw [skipComments_of_isPlain h.toIsPlain] at hskip
    subst hskip
    -- what the first token leaves is unquoted again
    obtain ⟨-, hafter⟩ := isQuoted_and_unquoted_read h
    have hstart : skipComments (c :: after ++ '/' :: '*' :: rest) =
        c :: (after ++ '/' :: '*' :: rest) := skipComments_slash h.toIsPlain _
    rw [lex_cons hstart, read_slash h, List.cons_append, ih hafter]

end Lexer

open Lexer

/-- The tokens of a text without quotes, escapes and comments have the text that they were read
    from, with a space for each run of blanks: nothing is lost, doubled or moved. -/
theorem joined_tokenize (text : String) (h : Unquoted text.toList) :
    joined (tokenize text) = collapse text.toList :=
  joined_lex h.toIsPlain (isQuoted_of_mem_lex h)

/-- An argument with a tab, a line feed and a number that has an exponent. -/
theorem joined_tokenize_argument :
    Unquoted "li:nth-child( \t2n\n+ 1e-3)".toList ∧
      joined (tokenize "li:nth-child( \t2n\n+ 1e-3)") = "li:nth-child( 2n + 1e-3)".toList := by
  have hstar : '*' ∉ "li:nth-child( \t2n\n+ 1e-3)".toList := by decide
  have hunquoted : Unquoted "li:nth-child( \t2n\n+ 1e-3)".toList :=
    ⟨⟨by decide, fun hpart => hstar (hpart.subset (by decide))⟩, by decide, by decide⟩
  exact ⟨hunquoted, (joined_tokenize _ hunquoted).trans (by with_unfolding_all rfl)⟩

/-- A comment separates two texts: the tokens are those of the first text by itself and those of the
    second one by itself. -/
theorem tokenize_around_comment (before comment after : String) (hbefore : Unquoted before.toList)
    (hcomment : ¬ ['*', '/'] <:+: comment.toList) :
    tokenize (before ++ "/*" ++ comment ++ "*/" ++ after) = tokenize before ++ tokenize after := by
  have htext : (before ++ "/*" ++ comment ++ "*/" ++ after).toList =
      before.toList ++ '/' :: '*' :: (comment.toList ++ '*' :: '/' :: after.toList) := by
    simp
  rw [tokenize, htext, lex_slash hbefore, lex_comment hcomment]
  rfl

/-- A comment of stars and slashes in the middle of what would be a single number. -/
theorem tokenize_around_comment_exponent :
    Unquoted "1e".toList ∧ ¬ ['*', '/'] <:+: "/* /*".toList ∧
      tokenize ("1e" ++ "/*" ++ "/* /*" ++ "*/" ++ "-3") = [.dimension "1" "e", .number "-3"] := by
  have hbefore : Unquoted "1e".toList := ⟨⟨by decide, by decide⟩, by decide, by decide⟩
  have hcomment : ¬ ['*', '/'] <:+: "/* /*".toList := by decide
  have hcut := tokenize_around_comment "1e" "/* /*" "-3" hbefore hcomment
  exact ⟨hbefore, hcomment, hcut.trans (by with_unfolding_all rfl)⟩

end Selectors
