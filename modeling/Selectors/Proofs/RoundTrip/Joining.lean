import Mathlib.Data.List.TakeWhile
import Selectors.Token

/-!
# Joining — the text of tokens, put together again

The argument of a positional pseudo-class is read from the text of its tokens. That is not the text
that was written: comments leave no trace, escapes are replaced, a string gets double quotes, and a
run of blanks becomes a single space. Where there are no comments, escapes and strings, the runs of
blanks are all that is lost.

* **`collapse`** — a text with a space for each run of blanks.
* **`joined_lex`** — the text of the tokens of a plain text is the collapsed text.
* **`Spread`** — a text that a collapsed one may come from, piece by piece.
-/

namespace Selectors

/-- The text of tokens. -/
def joined (tokens : List Token) : List Char :=
  tokens.flatMap (·.text.toList)

private theorem joined_cons (token : Token) (tokens : List Token) :
    joined (token :: tokens) = token.text.toList ++ joined tokens :=
  List.flatMap_cons

/-- The texts of tokens in a row stand in a row. -/
theorem joined_append (front back : List Token) :
    joined (front ++ back) = joined front ++ joined back :=
  List.flatMap_append

/-- A text with a space for each run of blanks. -/
def collapse : List Char → List Char
  | [] => []
  | c :: text =>
    if isBlank c then ' ' :: collapse (text.dropWhile isBlank) else c :: collapse text
termination_by text => text.length
decreasing_by
  · have := (List.dropWhile_sublist (l := text) isBlank).length_le
    simp only [List.length_cons]
    omega
  · exact Nat.lt_succ_self _

/-- A run of blanks collapses to one. -/
theorem collapse_blank {c : Char} (hc : isBlank c = true) (text : List Char) :
    collapse (c :: text) = ' ' :: collapse (text.dropWhile isBlank) := by
  rw [collapse, if_pos hc]

/-- What has no blanks stays as it is. -/
theorem collapse_append {front : List Char} (h : ∀ c ∈ front, isBlank c = false)
    (text : List Char) : collapse (front ++ text) = front ++ collapse text := by
  induction front with
  | nil => rfl
  | cons c front ih =>
    rw [List.cons_append, collapse, if_neg (Bool.eq_false_iff.1 (h c List.mem_cons_self)),
      ih fun d hd => h d (List.mem_cons_of_mem _ hd), List.cons_append]

/-- Collapsing adds no character but the space. -/
theorem mem_collapse {text : List Char} {c : Char} (h : c ∈ collapse text) :
    c = ' ' ∨ c ∈ text := by
  fun_induction collapse text with
  | case1 => exact nomatch h
  | case2 d text _ ih =>
    rcases List.mem_cons.1 h with rfl | h
    · exact Or.inl rfl
    · have hsub := (List.dropWhile_sublist (l := text) isBlank).subset
      exact (ih h).imp_right fun hmem => List.mem_cons_of_mem _ (hsub hmem)
  | case3 d text _ ih =>
    rcases List.mem_cons.1 h with rfl | h
    · exact Or.inr List.mem_cons_self
    · exact (ih h).imp_right fun hmem => List.mem_cons_of_mem _ hmem

/-- The text has neither escapes nor comments. -/
structure IsPlain (text : List Char) : Prop where
  escapes : '\\' ∉ text
  comments : ¬ ['/', '*'] <:+: text

/-- The end of a plain text is plain. -/
theorem IsPlain.of_append {front back : List Char} (h : IsPlain (front ++ back)) :
    IsPlain back where
  escapes hmem := h.escapes (List.mem_append_right _ hmem)
  comments hpart := h.comments (hpart.trans (List.suffix_append front back).isInfix)

/-- Whether the token comes from a string. -/
def Token.isQuoted : Token → Bool
  | .string _ => true
  | .badString => true
  | _ => false

namespace Lexer

/-! ## Reading without escapes -/

/-- Without backslashes there are no escapes. -/
theorem startsEscape_of_not_mem {text : List Char} (h : '\\' ∉ text) :
    startsEscape text = false := by
  rw [startsEscape.eq_def]
  split
  · rfl
  · exact absurd List.mem_cons_self h
  · rfl

/-- A name without escapes is read as it stands. -/
theorem takeName_append {text : List Char} (h : '\\' ∉ text) :
    (takeName text).1 ++ (takeName text).2 = text ∧
      ∀ c ∈ (takeName text).1, isNameChar c = true := by
  induction text with
  | nil =>
    rw [takeName]
    exact ⟨rfl, List.forall_mem_nil _⟩
  | cons c text ih =>
    obtain ⟨happend, hall⟩ := ih fun hmem => h (List.mem_cons_of_mem _ hmem)
    rw [takeName]
    split
    · next hc =>
      refine ⟨congrArg (c :: ·) happend, fun d hd => ?_⟩
      rcases List.mem_cons.1 hd with rfl | hd
      · exact hc
      · exact hall d hd
    · rw [if_neg (Bool.eq_false_iff.1 (startsEscape_of_not_mem h))]
      exact ⟨rfl, List.forall_mem_nil _⟩

/-- No character of a name is a blank. -/
theorem isBlank_of_isNameChar {c : Char} (h : isNameChar c = true) : isBlank c = false := by
  refine Bool.eq_false_iff.2 fun hblank => ?_
  rcases eq_of_isBlank hblank with rfl | rfl | rfl | rfl | rfl <;> exact absurd h (by decide)

/-- The characters of numbers. -/
def isNumberChar (c : Char) : Bool :=
  c.isDigit || c == '+' || c == '-' || c == '.' || c == 'e' || c == 'E'

private theorem isBlank_of_isNumberChar {c : Char} (h : isNumberChar c = true) :
    isBlank c = false := by
  refine Bool.eq_false_iff.2 fun hblank => ?_
  rcases eq_of_isBlank hblank with rfl | rfl | rfl | rfl | rfl <;> exact absurd h (by decide)

private theorem isNumberChar_of_mem_takeDigits {text : List Char} {c : Char}
    (h : c ∈ (takeDigits text).1) : isNumberChar c = true := by
  have hdigit : c.isDigit = true := List.mem_takeWhile_imp h
  rw [isNumberChar, hdigit]
  rfl

private theorem isNumberChar_of_mem_takeSign {text : List Char} {c : Char}
    (h : c ∈ (takeSign text).1) : isNumberChar c = true := by
  rw [takeSign.eq_def] at h
  split at h
  · rw [List.mem_singleton.1 h]
    rfl
  · rw [List.mem_singleton.1 h]
    rfl
  · exact nomatch h

private theorem isNumberChar_of_mem_takeFraction {text : List Char} {c : Char}
    (h : c ∈ (takeFraction text).1) : isNumberChar c = true := by
  rw [takeFraction.eq_def] at h
  split at h
  · split at h
    · rcases List.mem_cons.1 h with rfl | h
      · rfl
      · exact isNumberChar_of_mem_takeDigits h
    · exact nomatch h
  · exact nomatch h

private theorem isNumberChar_of_mem_takeExponent {text : List Char} {c : Char}
    (h : c ∈ (takeExponent text).1) : isNumberChar c = true := by
  rw [takeExponent.eq_def] at h
  split at h
  · next e text =>
    split at h
    · next he =>
      dsimp only at h
      split at h
      · exact nomatch h
      · rcases List.mem_append.1 h with h | h
        · rcases List.mem_cons.1 h with rfl | h
          · rcases Bool.or_eq_true_iff.1 he with he | he
            · rw [eq_of_beq he]
              rfl
            · rw [eq_of_beq he]
              rfl
          · exact isNumberChar_of_mem_takeSign h
        · exact isNumberChar_of_mem_takeDigits h
    · exact nomatch h
  · exact nomatch h

/-- A number is made of characters of numbers. -/
theorem isNumberChar_of_mem_takeNumber {text : List Char} {c : Char}
    (h : c ∈ (takeNumber text).1) : isNumberChar c = true := by
  simp only [takeNumber, List.mem_append] at h
  rcases h with ((h | h) | h) | h
  · exact isNumberChar_of_mem_takeSign h
  · exact isNumberChar_of_mem_takeDigits h
  · exact isNumberChar_of_mem_takeFraction h
  · exact isNumberChar_of_mem_takeExponent h

/-! ## One token -/

/-- How a token is taken from the front of a plain text. -/
inductive Taken : List Char → Token → List Char → Prop where
  | blanks {c : Char} {text : List Char} :
      isBlank c = true → Taken (c :: text) .blank (text.dropWhile isBlank)
  | quoted {text rest : List Char} {token : Token} :
      token.isQuoted = true → Taken text token rest
  | whole {token : Token} {rest : List Char} :
      (∀ c ∈ token.text.toList, isBlank c = false) → Taken (token.text.toList ++ rest) token rest

/-- A token with this text is taken as it stands. -/
theorem Taken.of_text {token : Token} {front rest : List Char} (htext : token.text.toList = front)
    (h : ∀ c ∈ front, isBlank c = false) : Taken (front ++ rest) token rest := by
  rw [← htext] at h ⊢
  exact Taken.whole h

/-- A token with the text of one character. -/
theorem Taken.single {token : Token} {c : Char} {rest : List Char} (htext : token.text.toList = [c])
    (h : isBlank c = false) : Taken (c :: rest) token rest :=
  @Taken.of_text token [c] rest htext fun d hd => by rwa [List.mem_singleton.1 hd]

/-- The token of a name is its text. -/
theorem taken_readName {text : List Char} (h : '\\' ∉ text) :
    Taken text (readName text).1 (readName text).2 := by
  obtain ⟨happend, hall⟩ := takeName_append h
  have hblank : ∀ c ∈ (takeName text).1, isBlank c = false := fun c hc =>
    isBlank_of_isNameChar (hall c hc)
  rw [readName]
  split
  · next name rest heq =>
    rw [heq] at happend hblank
    have htext : (Token.function (String.ofList name)).text.toList = name ++ ['('] := by
      simp [Token.text]
    rw [← happend, show name ++ '(' :: rest = name ++ ['('] ++ rest by simp]
    refine Taken.of_text htext fun c hc => ?_
    rcases List.mem_append.1 hc with hc | hc
    · exact hblank c hc
    · rw [List.mem_singleton.1 hc]
      rfl
  · next name rest _ heq =>
    rw [heq] at happend hblank
    rw [← happend]
    exact Taken.of_text String.toList_ofList hblank

/-- The token of a number is its text, the unit included. -/
theorem taken_readNumber {text : List Char} (h : '\\' ∉ text) :
    Taken text (readNumber text).1 (readNumber text).2 := by
  have happend := takeNumber_append text
  have hnumber : ∀ c ∈ (takeNumber text).1, isBlank c = false := fun c hc =>
    isBlank_of_isNumberChar (isNumberChar_of_mem_takeNumber hc)
  rw [readNumber]
  generalize takeNumber text = taken at happend hnumber ⊢
  obtain ⟨digits, rest⟩ := taken
  dsimp only at happend hnumber ⊢
  rw [← happend] at h ⊢
  -- a dimension, a percentage or a plain number
  split
  · obtain ⟨hname, hall⟩ := takeName_append fun hmem => h (List.mem_append_right digits hmem)
    have htext : (Token.dimension (String.ofList digits)
        (String.ofList (takeName rest).1)).text.toList = digits ++ (takeName rest).1 := by
      simp [Token.text]
    have hwhole : digits ++ rest = digits ++ (takeName rest).1 ++ (takeName rest).2 := by
      rw [List.append_assoc, hname]
    rw [hwhole]
    refine Taken.of_text htext fun c hc => ?_
    rcases List.mem_append.1 hc with hc | hc
    · exact hnumber c hc
    · exact isBlank_of_isNameChar (hall c hc)
  · split
    · next rest _ =>
      have htext : (Token.percentage (String.ofList digits)).text.toList = digits ++ ['%'] := by
        simp [Token.text]
      rw [show digits ++ '%' :: rest = digits ++ ['%'] ++ rest by simp]
      refine Taken.of_text htext fun c hc => ?_
      rcases List.mem_append.1 hc with hc | hc
      · exact hnumber c hc
      · rw [List.mem_singleton.1 hc]
        rfl
    · exact Taken.of_text String.toList_ofList hnumber

/-- A hash is its text. -/
theorem taken_readHash {text : List Char} (h : '\\' ∉ text) :
    Taken ('#' :: text) (readHash text).1 (readHash text).2 := by
  have hsign : ∀ text, Taken ('#' :: text) (.delim '#') text := fun text =>
    @Taken.single (.delim '#') '#' text (by simp [Token.text]) rfl
  rw [readHash.eq_def]
  split
  · next c others =>
    split
    · obtain ⟨hname, hall⟩ := takeName_append h
      have htext : (Token.hash (String.ofList (takeName (c :: others)).1)
          (startsName (c :: others))).text.toList = '#' :: (takeName (c :: others)).1 := by
        simp [Token.text]
      rw [show '#' :: c :: others = '#' :: (takeName (c :: others)).1 ++ (takeName (c :: others)).2 by
        rw [List.cons_append, hname]]
      refine Taken.of_text htext fun d hd => ?_
      rcases List.mem_cons.1 hd with rfl | hd
      · rfl
      · exact isBlank_of_isNameChar (hall d hd)
    · exact hsign _
  · exact hsign _

/-- A string is taken with its quotes, whatever its text is. -/
theorem taken_readString (quote : Char) (text : List Char) :
    Taken (quote :: text) (readString quote text).1 (readString quote text).2 := by
  rw [readString]
  split
  · exact Taken.quoted rfl
  · exact Taken.quoted rfl

/-- Every token but a string is its text, and a run of blanks is a space. -/
theorem taken_read {c : Char} {text : List Char} (h : '\\' ∉ c :: text) :
    Taken (c :: text) (read c text).1 (read c text).2 := by
  rw [read.eq_def]
  split
  · next hc => exact Taken.blanks hc
  · next hc =>
    split
    · exact taken_readString _ _
    · exact taken_readString _ _
    · exact taken_readHash fun hmem => h (List.mem_cons_of_mem _ hmem)
    · exact @Taken.single .leftParen '(' text (by decide) rfl
    · exact @Taken.single .rightParen ')' text (by decide) rfl
    · exact @Taken.single .leftBracket '[' text (by decide) rfl
    · exact @Taken.single .rightBracket ']' text (by decide) rfl
    · exact @Taken.single .comma ',' text (by decide) rfl
    · exact @Taken.single .colon ':' text (by decide) rfl
    · split
      · exact taken_readNumber h
      · split
        · exact taken_readName h
        · refine Taken.single ?_ (Bool.eq_false_iff.2 hc)
          simp [Token.text]

/-! ## All tokens -/

/-- A plain text has no comments to skip. -/
theorem skipComments_of_isPlain {text : List Char} (h : IsPlain text) :
    skipComments text = text := by
  rw [skipComments]
  rintro rest rfl
  exact h.comments ⟨[], rest, rfl⟩

/-- What is left of a plain text after a token is plain. -/
theorem Taken.isPlain {text rest : List Char} {token : Token} (htaken : Taken text token rest)
    (hquoted : token.isQuoted = false) (h : IsPlain text) : IsPlain rest := by
  cases htaken with
  | @blanks c text hc =>
    have hsplit : c :: text.takeWhile isBlank ++ text.dropWhile isBlank = c :: text :=
      congrArg (c :: ·) List.takeWhile_append_dropWhile
    rw [← hsplit] at h
    exact h.of_append
  | quoted hstring => exact Bool.noConfusion (hquoted.symm.trans hstring)
  | whole => exact h.of_append

/-- The text of the tokens of a plain text is the collapsed text, unless there are strings. -/
theorem joined_lex {text : List Char} (h : IsPlain text)
    (hquoted : ∀ token ∈ lex text, token.isQuoted = false) : joined (lex text) = collapse text := by
  fun_induction lex text with
  | case1 text hskip =>
    rw [skipComments_of_isPlain h] at hskip
    rw [hskip, collapse]
    rfl
  | case2 text c rest hskip ih =>
    rw [skipComments_of_isPlain h] at hskip
    subst hskip
    have htaken := taken_read h.escapes
    have hfirst := hquoted _ List.mem_cons_self
    have hrest := ih (htaken.isPlain hfirst h) fun token htoken =>
      hquoted token (List.mem_cons_of_mem _ htoken)
    rw [joined_cons, hrest]
    generalize (read c rest).1 = token at htaken hfirst
    generalize (read c rest).2 = after at htaken
    generalize htext : c :: rest = text at htaken
    cases htaken with
    | blanks hc => exact (collapse_blank hc _).symm
    | quoted hstring => exact Bool.noConfusion (hfirst.symm.trans hstring)
    | whole hblank => exact (collapse_append hblank _).symm

end Lexer

/-! ## Spreading -/

/-- The text comes from the first one by putting runs of blanks for spaces. -/
inductive Spread : List Char → List Char → Prop where
  | nil : Spread [] []
  | keep {c : Char} {narrow wide : List Char} : Spread narrow wide → Spread (c :: narrow) (c :: wide)
  | gap {gap narrow wide : List Char} :
      gap ≠ [] → (∀ c ∈ gap, isBlank c = true) → Spread narrow wide →
      Spread (' ' :: narrow) (gap ++ wide)

/-- A text is what its runs of blanks collapse to, spread again. -/
theorem spread_collapse (text : List Char) : Spread (collapse text) text := by
  fun_induction collapse text with
  | case1 => exact Spread.nil
  | case2 c text hc ih =>
    have hsplit : c :: text.takeWhile isBlank ++ text.dropWhile isBlank = c :: text :=
      congrArg (c :: ·) List.takeWhile_append_dropWhile
    have hgap : ∀ d ∈ c :: text.takeWhile isBlank, isBlank d = true := by
      intro d hd
      rcases List.mem_cons.1 hd with rfl | hd
      · exact hc
      · exact List.mem_takeWhile_imp hd
    have hspread := Spread.gap (List.cons_ne_nil c _) hgap ih
    rwa [hsplit] at hspread
  | case3 c text _ ih => exact Spread.keep ih

/-- A part of the first text is spread over a part of the other. -/
theorem Spread.split {front back wide : List Char} (h : Spread (front ++ back) wide) :
    ∃ wideFront wideBack, wide = wideFront ++ wideBack ∧ Spread front wideFront ∧
      Spread back wideBack := by
  induction front generalizing wide with
  | nil => exact ⟨[], wide, rfl, Spread.nil, h⟩
  | cons c front ih =>
    cases h with
    | keep h =>
      obtain ⟨wideFront, wideBack, rfl, hfront, hback⟩ := ih h
      exact ⟨c :: wideFront, wideBack, rfl, Spread.keep hfront, hback⟩
    | @gap gap _ _ hne hgap h =>
      obtain ⟨wideFront, wideBack, rfl, hfront, hback⟩ := ih h
      exact ⟨gap ++ wideFront, wideBack, (List.append_assoc ..).symm, Spread.gap hne hgap hfront,
        hback⟩

/-- A text without spaces is spread to itself only. -/
theorem Spread.eq_of_not_mem {narrow wide : List Char} (h : Spread narrow wide)
    (hspace : ' ' ∉ narrow) : wide = narrow := by
  induction h with
  | nil => rfl
  | keep _ ih => rw [ih fun hmem => hspace (List.mem_cons_of_mem _ hmem)]
  | gap => exact absurd List.mem_cons_self hspace

/-- Blanks are spread to blanks. -/
theorem Spread.isBlank {narrow wide : List Char} (h : Spread narrow wide)
    (hblank : ∀ c ∈ narrow, isBlank c = true) : ∀ c ∈ wide, isBlank c = true := by
  induction h with
  | nil => exact hblank
  | keep _ ih =>
    intro c hc
    rcases List.mem_cons.1 hc with rfl | hc
    · exact hblank _ List.mem_cons_self
    · exact ih (fun d hd => hblank d (List.mem_cons_of_mem _ hd)) c hc
  | gap _ hgap _ ih =>
    intro c hc
    rcases List.mem_append.1 hc with hc | hc
    · exact hgap c hc
    · exact ih (fun d hd => hblank d (List.mem_cons_of_mem _ hd)) c hc

end Selectors
