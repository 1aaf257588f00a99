import Selectors.Proofs.Grammar.Breaks
import Selectors.Proofs.Grammar.Spacing
import Selectors.Proofs.RoundTrip.Spelling

/-!
# Left out — what selectors have no tokens for

CSS has tokens that no selector has a use for: the two marks around a comment of HTML, keywords after
an at sign, braces and the semicolon. The lexer has none of them, and what they start with comes out
as a character that stands for itself and that no rule of the grammar has a use for. So a text in
which one of them starts is no selector list, whatever stands around it and however deep it is.

One of them comes out as something else. The mark that closes a comment of HTML starts with two
hyphens, which are a name to the lexer, and it ends with the sign of the child combinator, which is
of use. A text with this mark is read as if there were a blank between the hyphens and the sign.

* **`Lexer.TokenStarts`** — where in a text the lexer starts its tokens.
* **`LeftOut`** — how the tokens that are left out start.
* **`rejected_of_leftOut`** — what the parser does at each of them.
* **`not_rejected_commentClose`** — the mark that is accepted.
-/

namespace Selectors

namespace Lexer

/-- The lexer starts a token of the first text where the second one, what is left of it then,
    begins. -/
inductive TokenStarts : List Char → List Char → Prop where
  | here {text rest : List Char} {c : Char} :
      skipComments text = c :: rest → TokenStarts text (c :: rest)
  | later {text rest after start : List Char} {c : Char} {token : Token} :
      skipComments text = c :: rest → read c rest = (token, after) →
      TokenStarts after start → TokenStarts text start

/-- The token that is read there is a token of the text, and the tokens after it are those of what
    is left then. -/
theorem TokenStarts.exists_lex {text rest : List Char} {c : Char}
    (h : TokenStarts text (c :: rest)) :
    ∃ front, lex text = front ++ (read c rest).1 :: lex (read c rest).2 := by
  generalize hstart : c :: rest = start at h
  induction h with
  | here hskip =>
    obtain ⟨rfl, rfl⟩ := List.cons.inj hstart
    exact ⟨[], lex_cons hskip⟩
  | @later _ _ _ _ _ token hskip hread _ ih =>
    obtain ⟨front, hlex⟩ := ih hstart
    refine ⟨token :: front, ?_⟩
    rw [lex_cons hskip, hread, hlex, List.cons_append]

/-- Two hyphens are a name by themselves where no name can go on. -/
theorem read_hyphens {rest : List Char} (hrest : EndsName rest) :
    read '-' ('-' :: rest) = (.ident "--", rest) := by
  have hplain : ∀ c ∈ ['-', '-'], isNameChar c = true := List.all_eq_true.1 (by decide)
  have htake : takeName ('-' :: '-' :: rest) = ("--".toList, rest) :=
    @takeName_plain _ rest hplain fun c hc => ⟨(hrest c hc).1, (hrest c hc).2.1⟩
  have hname : startsName ('-' :: '-' :: rest) = true := by simp [startsName]
  rw [read_of_not_mem (by decide), if_neg (by exact Bool.false_ne_true), if_pos hname,
    readName_ident htake hrest]

end Lexer

open Lexer Grammar

/-- The text starts with something that CSS has a token for and the lexer has none. -/
inductive LeftOut : List Char → Prop where
  | commentOpen (rest : List Char) : LeftOut ('<' :: '!' :: '-' :: '-' :: rest)
  | commentClose (rest : List Char) : LeftOut ('-' :: '-' :: '>' :: rest)
  | atKeyword {rest : List Char} : startsName rest = true → LeftOut ('@' :: rest)
  | mark {c : Char} (rest : List Char) : c ∈ ['{', '}', ';'] → LeftOut (c :: rest)

/-- The mark that closes a comment is at the start. -/
def ClosesComment (start : List Char) : Prop :=
  ∃ rest, start = '-' :: '-' :: '>' :: rest

/-- All but one come out as a character that no list has a use for. -/
theorem LeftOut.exists_delim {start : List Char} (h : LeftOut start)
    (hother : ¬ ClosesComment start) :
    ∃ c rest, start = c :: rest ∧ read c rest = (.delim c, rest) ∧ isSign c = false := by
  cases h with
  | commentOpen rest => exact ⟨'<', _, rfl, rfl, by decide⟩
  | commentClose rest => exact absurd ⟨rest, rfl⟩ hother
  | @atKeyword rest _ => exact ⟨'@', rest, rfl, rfl, by decide⟩
  | @mark c rest hmark =>
    simp only [List.mem_cons, List.not_mem_nil, or_false] at hmark
    rcases hmark with rfl | rfl | rfl
    · exact ⟨'{', rest, rfl, rfl, by decide⟩
    · exact ⟨'}', rest, rfl, rfl, by decide⟩
    · exact ⟨';', rest, rfl, rfl, by decide⟩

variable {namespaces : Namespaces}

/-- A character that no list has a use for makes the parser fail; it breaks off if it has come to a
    place before where it does. -/
theorem parseTokens_of_delim {tokens : List Token} {c : Char} (hmem : .delim c ∈ tokens)
    (hsign : isSign c = false) :
    ∃ failure, parseTokens namespaces tokens = .error failure ∧
      (failure = .brokenCharacter ↔ Breaks namespaces tokens) := by
  cases hparse : parseTokens namespaces tokens with
  | ok selectors =>
    have huses := uses_of_parsed tokens hparse c hmem
    exact absurd (hsign.symm.trans huses) Bool.false_ne_true
  | error failure =>
    refine ⟨failure, rfl, ?_, fun hbreaks => ?_⟩
    · rintro rfl
      exact breaks_of_parseTokens tokens hparse
    · exact Except.error.inj (hparse.symm.trans (parseTokens_of_breaks hbreaks))

/-- A text in which the lexer starts a token where CSS has one that is left out is no selector list:
    the parser fails, and it does so with an error unless it breaks off. The exception is the mark
    that closes a comment. Its hyphens are a name and its last character is the sign of the child
    combinator, and the text is read as the list, if any, that it is with a blank between the
    two. -/
theorem rejected_of_leftOut (namespaces : Namespaces) (text : String) (start : List Char)
    (hstart : TokenStarts text.toList start) (hout : LeftOut start) :
    (¬ ClosesComment start →
        ∃ failure, parseSelectors namespaces text = .error failure ∧
          (failure = .brokenCharacter ↔ Breaks namespaces (tokenize text))) ∧
      ∀ rest, start = '-' :: '-' :: '>' :: rest →
        ∃ front, tokenize text = front ++ .ident "--" :: .delim '>' :: lex rest ∧
          ∀ selectors, parseSelectors namespaces text = .ok selectors ↔
            parseTokens namespaces (front ++ .ident "--" :: .blank :: .delim '>' :: lex rest) =
              .ok selectors := by
  constructor
  · intro hother
    obtain ⟨c, rest, rfl, hread, hsign⟩ := hout.exists_delim hother
    obtain ⟨front, hlex⟩ := hstart.exists_lex
    refine parseTokens_of_delim ?_ hsign
    rw [tokenize, hlex, hread]
    simp
  · rintro rest rfl
    have hends : EndsName ('>' :: rest) := endsName_cons (by decide) rest
    obtain ⟨front, hlex⟩ := hstart.exists_lex
    -- the two hyphens are a name, so the text reads as `--` followed by a child combinator
    rw [read_hyphens hends, lex_sign (by decide)] at hlex
    refine ⟨front, hlex, fun selectors => ?_⟩
    have hblank : Blanks [.blank] := fun _ hmem => List.mem_singleton.1 hmem
    have hspaced := (Respaced.sign blanks_nil hblank (Respaced.refl (lex rest))).prepend
      (front ++ [.ident "--"])
    rw [List.append_assoc, List.append_assoc] at hspaced
    rw [parseSelectors, tokenize, hlex]
    exact parsed_iff_of_respaced hspaced selectors

/-- A semicolon within the parentheses of a function. -/
theorem rejected_of_leftOut_semicolon :
    TokenStarts ":is(a;)".toList [';', ')'] ∧ LeftOut [';', ')'] ∧
      ∃ failure, parseSelectors .empty ":is(a;)" = .error failure ∧
        (failure = .brokenCharacter ↔ Breaks .empty (tokenize ":is(a;)")) := by
  have hstart : TokenStarts ":is(a;)".toList [';', ')'] := by
    refine @TokenStarts.later _ ['i', 's', '(', 'a', ';', ')'] _ _ ':' _
      (by with_unfolding_all rfl) rfl ?_
    refine @TokenStarts.later _ ['s', '(', 'a', ';', ')'] ['a', ';', ')'] _ 'i' (.function "is")
      (by with_unfolding_all rfl) (by with_unfolding_all rfl) ?_
    refine @TokenStarts.later _ [';', ')'] [';', ')'] _ 'a' (.ident "a")
      (by with_unfolding_all rfl) (by with_unfolding_all rfl) ?_
    exact .here (by with_unfolding_all rfl)
  have hout : LeftOut [';', ')'] := .mark _ (by decide)
  refine ⟨hstart, hout, (rejected_of_leftOut .empty ":is(a;)" _ hstart hout).1 ?_⟩
  rintro ⟨rest, heq⟩
  exact nomatch heq

/-- Not every text with something left out is refused: this one is a name of two hyphens and a child
    of an element of that name. -/
theorem not_rejected_commentClose :
    ¬ ∀ (namespaces : Namespaces) (text : String) (start : List Char),
      TokenStarts text.toList start → LeftOut start →
        ∃ failure, parseSelectors namespaces text = .error failure := by
  intro hall
  have hstart : TokenStarts "-->a".toList ['-', '-', '>', 'a'] := .here (by with_unfolding_all rfl)
  have hparse : parseSelectors .empty "-->a" =
      .ok [⟨.relative (.compound [.atom (.typeName "--")]) .child [.atom (.typeName "a")], none⟩] := by
    with_unfolding_all rfl
  obtain ⟨failure, hfailure⟩ := hall .empty "-->a" _ hstart (.commentClose ['a'])
  rw [hparse] at hfailure
  exact nomatch hfailure

end Selectors
