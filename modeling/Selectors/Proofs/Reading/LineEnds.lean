import Selectors.Proofs.Reading.LineFeeds
import Selectors.Proofs.Reading.Unquoted
import Selectors.Proofs.RoundTrip.Names
import Selectors.Selector.Parser

/-!
# Line ends — where it matters how a line ends

Between tokens, in comments and behind the number of an escape the end of a line is a blank like any
other, and there a text has the same tokens as its line feeds. In a string and behind a backslash it
is more than that, but only if it is a line feed: a line feed breaks a string off, and it keeps a
backslash in front of it from starting an escape. A carriage return and a form feed do neither. They
are characters of the string there, and the characters that the escapes stand for. Last, the number
of an escape takes a single blank with it, and so it takes the first half of a line end that is
written as two characters.

These three are all the places where it matters how a line ends.

* **`FreeLines`** — the line ends of a text, if they are not line feeds, are at none of these places.
* **`FreeLines.of_not_mem`** — they are not where a text has neither backslashes nor quotes.
* **`Lexer.takeEscape_lineFeeds`**, **`Lexer.takeName_lineFeeds`**, **`Lexer.takeString_lineFeeds`** —
  the readers that tell line ends apart.
* **`tokenize_withLineFeeds`** — the tokens of such a text are those of its line feeds.
* **`not_tokenize_withLineFeeds`** — a carriage return in a string.
-/

namespace Selectors

open Lexer

/-! ## Places where it matters -/

/-- The line ends behind a backslash are of no consequence: there is none directly behind it, and
    none of two characters behind the number that it may start. -/
structure KeepsEscape (text : List Char) : Prop where
  first : ∀ c ∈ text.head?, endsLine c = false
  number : ∀ digits rest, text = digits ++ '\r' :: '\n' :: rest →
    (∀ c ∈ digits, isHexDigit c = true) → 6 < digits.length

/-- The characters that can start an escape, a string or a comment. -/
def marks : List Char :=
  ['\\', '"', '\'', '/']

private theorem not_mem_marks (f : Char → Bool) (hmarks : marks.any f = false) {c : Char}
    (h : f c = true) : c ∉ marks :=
  fun hmem => List.any_eq_false.1 hmarks c hmem h

/-- No line end of the text is of consequence unless it is a line feed. The text starts within the
    string of a quote, or outside of strings. -/
inductive FreeLines : Option Char → List Char → Prop where
  | nil {quote? : Option Char} : FreeLines quote? []
  /-- An escape, in a string or in a name. -/
  | escape {quote? : Option Char} {text : List Char} :
      text.head? ≠ some '\n' → KeepsEscape text → FreeLines quote? (takeEscape text).2 →
        FreeLines quote? ('\\' :: text)
  /-- A backslash that ends its line. -/
  | lineEnd {quote? : Option Char} {text : List Char} :
      FreeLines quote? text → FreeLines quote? ('\\' :: '\n' :: text)
  | comment {text : List Char} :
      FreeLines none (afterComment text) → FreeLines none ('/' :: '*' :: text)
  | opening {quote : Char} {text : List Char} :
      quote = '"' ∨ quote = '\'' → FreeLines (some quote) text → FreeLines none (quote :: text)
  /-- Anything else outside of strings. -/
  | outside {c : Char} {text : List Char} :
      c ∉ ['\\', '"', '\''] → (∀ rest, c :: text ≠ '/' :: '*' :: rest) → FreeLines none text →
        FreeLines none (c :: text)
  | closing {quote : Char} {text : List Char} :
      FreeLines none text → FreeLines (some quote) (quote :: text)
  /-- A line feed breaks the string off, also as the second half of a line end. -/
  | broken {quote : Char} {text : List Char} :
      FreeLines none text → FreeLines (some quote) ('\n' :: text)
  | brokenPair {quote : Char} {text : List Char} :
      FreeLines none text → FreeLines (some quote) ('\r' :: '\n' :: text)
  /-- Anything else within a string. -/
  | inside {quote c : Char} {text : List Char} :
      c ∉ [quote, '\\', '\n'] → endsLine c = false → FreeLines (some quote) text →
        FreeLines (some quote) (c :: text)

namespace FreeLines

variable {c quote : Char} {text : List Char}

/-- A backslash starts an escape that keeps its value, or a line feed stands behind it. -/
theorem of_backslash {quote? : Option Char} (h : FreeLines quote? ('\\' :: text))
    (hquote : quote? ≠ some '\\') :
    text.head? ≠ some '\n' ∧ KeepsEscape text ∧ FreeLines quote? (takeEscape text).2 ∨
      ∃ rest, text = '\n' :: rest ∧ FreeLines quote? rest := by
  cases h with
  | escape hhead hkeeps hrest => exact Or.inl ⟨hhead, hkeeps, hrest⟩
  | lineEnd hrest => exact Or.inr ⟨_, rfl, hrest⟩
  | opening hopens _ => exact absurd hopens (by decide)
  | outside hother _ _ => exact absurd (by decide) hother
  | closing _ => exact absurd rfl hquote
  | inside hother _ _ => exact absurd (by simp) hother

private theorem of_comment (h : FreeLines none ('/' :: '*' :: text)) :
    FreeLines none (afterComment text) := by
  cases h with
  | comment hrest => exact hrest
  | opening hopens _ => exact absurd hopens (by decide)
  | outside _ hcomment _ => exact absurd rfl (hcomment text)

/-- After an opening quote the lines are those of a string. -/
theorem of_opening (hopens : quote = '"' ∨ quote = '\'') (h : FreeLines none (quote :: text)) :
    FreeLines (some quote) text := by
  cases h with
  | opening _ hrest => exact hrest
  | outside hother _ _ =>
    rcases hopens with rfl | rfl
    · exact absurd (by decide) hother
    · exact absurd (by decide) hother
  | _ => exact absurd hopens (by decide)

/-- Any other character may be taken away. -/
theorem tail (h : FreeLines none (c :: text)) (hother : c ∉ ['\\', '"', '\''])
    (hcomment : ∀ rest, c :: text ≠ '/' :: '*' :: rest) : FreeLines none text := by
  cases h with
  | outside _ _ hrest => exact hrest
  | comment => exact absurd rfl (hcomment _)
  | opening hopens _ =>
    rcases hopens with rfl | rfl
    · exact absurd (by decide) hother
    · exact absurd (by decide) hother
  | _ => exact absurd (by decide) hother

private theorem cons_iff (h : c ∉ marks) : FreeLines none (c :: text) ↔ FreeLines none text := by
  have hother : c ∉ ['\\', '"', '\''] := fun hmem => h (List.mem_append_left ['/'] hmem)
  have hcomment : ∀ rest, c :: text ≠ '/' :: '*' :: rest := by
    rintro rest heq
    obtain rfl := (List.cons.inj heq).1
    exact h (by decide)
  exact ⟨fun hfree => hfree.tail hother hcomment, .outside hother hcomment⟩

private theorem append_iff {front : List Char} (hfront : ∀ c ∈ front, c ∉ marks) :
    FreeLines none (front ++ text) ↔ FreeLines none text := by
  induction front with
  | nil => exact Iff.rfl
  | cons c front ih =>
    rw [List.cons_append, cons_iff (hfront c List.mem_cons_self)]
    exact ih fun d hd => hfront d (List.mem_cons_of_mem _ hd)

/-- Without backslashes and quotes it is all the same how lines end. -/
theorem of_not_mem (h : ∀ c ∈ text, c ∉ ['\\', '"', '\'']) : FreeLines none text := by
  -- a comment is passed over as a whole, so the induction is on the length
  induction hlength : text.length using Nat.strongRecOn generalizing text with
  | ind n ih =>
    subst hlength
    cases text with
    | nil => exact .nil
    | cons c text =>
      by_cases hcomment : ∃ rest, c :: text = '/' :: '*' :: rest
      · obtain ⟨rest, heq⟩ := hcomment
        rw [heq] at h ih ⊢
        refine .comment (ih (afterComment rest).length ?_ ?_ rfl)
        · exact Nat.lt_succ_of_lt (Nat.lt_succ_of_le (length_afterComment_le rest))
        · intro d hd
          exact h d (List.mem_cons_of_mem _ (List.mem_cons_of_mem _ (afterComment_subset rest hd)))
      · refine .outside (h c List.mem_cons_self) (fun rest heq => hcomment ⟨rest, heq⟩) ?_
        exact ih text.length (Nat.lt_succ_self _) (fun d hd => h d (List.mem_cons_of_mem _ hd)) rfl

/-- A character that starts neither a number nor a name makes no difference by itself. -/
theorem of_delim (h : FreeLines none (c :: text)) (hquotes : c ≠ '"' ∧ c ≠ '\'')
    (hcomment : ∀ rest, c :: text ≠ '/' :: '*' :: rest) (hname : startsName (c :: text) = false) :
    FreeLines none text := by
  by_cases hc : c = '\\'
  · subst hc
    obtain ⟨hhead, -, -⟩ | ⟨rest, rfl, hrest⟩ := h.of_backslash (Option.some_ne_none _).symm
    · have hstarts := startsName_of_startsEscape (startsEscape_of_head hhead)
      exact absurd (hname.symm.trans hstarts) Bool.false_ne_true
    · exact .outside (by decide) (fun _ heq => absurd (List.cons.inj heq).1 (by decide)) hrest
  · exact h.tail (by simp [hc, hquotes]) hcomment

private theorem dropWhile (h : FreeLines none (c :: text)) (hblank : isBlank c = true) :
    FreeLines none (text.dropWhile isBlank) := by
  have hsplit : c :: text = (c :: text.takeWhile isBlank) ++ text.dropWhile isBlank :=
    congrArg (c :: ·) List.takeWhile_append_dropWhile.symm
  rw [hsplit] at h
  refine (append_iff fun d hd => not_mem_marks isBlank rfl ?_).1 h
  rcases List.mem_cons.1 hd with rfl | hd
  · exact hblank
  · exact List.mem_takeWhile_imp hd

/-- Comments may be skipped. -/
theorem skipComments (h : FreeLines none text) : FreeLines none (Lexer.skipComments text) := by
  fun_induction Lexer.skipComments text with
  | case1 text ih => exact ih h.of_comment
  | case2 => exact h

end FreeLines

namespace Lexer

/-! ## Escapes -/

private theorem endsLine_of_isHexDigit {c : Char} (h : isHexDigit c = true) :
    endsLine c = false := by
  refine Bool.eq_false_iff.2 fun hends => ?_
  rcases eq_of_endsLine hends with rfl | rfl
  · exact absurd h (by decide)
  · exact absurd h (by decide)

private theorem takeWhile_isHexDigit_lineFeeds (n : Nat) (text : List Char) :
    ((lineFeeds text).take n).takeWhile isHexDigit = (text.take n).takeWhile isHexDigit := by
  induction n generalizing text with
  | zero => rfl
  | succ n ih =>
    cases text with
    | nil => rfl
    | cons c text =>
      cases hc : endsLine c with
      | true =>
        obtain ⟨rest, hrest⟩ := exists_lineFeeds_cons c text
        have hdigit : ¬ isHexDigit c = true := fun hdigit =>
          Bool.false_ne_true ((endsLine_of_isHexDigit hdigit).symm.trans hc)
        rw [hrest, asLineFeed_of_endsLine hc, List.take_succ_cons, List.take_succ_cons,
          List.takeWhile_cons_of_neg hdigit, List.takeWhile_cons_of_neg (by decide)]
      | false =>
        rw [lineFeeds_cons hc, List.take_succ_cons, List.take_succ_cons, List.takeWhile_cons,
          List.takeWhile_cons, ih]

/-- A single blank is skipped alike unless it is the first half of a line end. -/
theorem skipBlank_lineFeeds {text : List Char} (h : ∀ rest, text ≠ '\r' :: '\n' :: rest) :
    skipBlank (lineFeeds text) = lineFeeds (skipBlank text) := by
  cases text with
  | nil => rfl
  | cons c text =>
    obtain ⟨rfl, rest, rfl, -⟩ | heq := lineFeeds_cons_cases c text
    · exact absurd rfl (h rest)
    · rw [heq, skipBlank, skipBlank, isBlank_asLineFeed]
      split
      · rfl
      · exact heq.symm

/-- An escape that keeps its value is the same with line feeds. -/
theorem takeEscape_lineFeeds {text : List Char} (h : KeepsEscape text) :
    takeEscape (lineFeeds text) = ((takeEscape text).1, lineFeeds (takeEscape text).2) := by
  cases text with
  | nil => rfl
  | cons c text =>
    rw [lineFeeds_cons (h.first c rfl), takeEscape, takeEscape]
    split
    · next hc =>
      dsimp only
      rw [takeWhile_isHexDigit_lineFeeds]
      generalize hdigits : (text.take 5).takeWhile isHexDigit = digits
      have hhex : ∀ d ∈ digits, isHexDigit d = true := by
        rw [← hdigits]
        exact fun d hd => List.mem_takeWhile_imp hd
      have hlength : digits.length ≤ 5 := by
        rw [← hdigits]
        exact (List.takeWhile_prefix _).length_le.trans (List.length_take_le 5 text)
      obtain ⟨rest, rfl⟩ : digits <+: text := by
        rw [← hdigits]
        exact (List.takeWhile_prefix _).trans (List.take_prefix 5 text)
      rw [lineFeeds_append fun d hd => endsLine_of_isHexDigit (hhex d hd), List.drop_left,
        List.drop_left, skipBlank_lineFeeds]
      -- a line end of two characters behind the digits is what `h` rules out
      rintro after rfl
      have hlong := h.number (c :: digits) after rfl (List.forall_mem_cons.2 ⟨hc, hhex⟩)
      rw [List.length_cons] at hlong
      omega
    · rfl

/-- Whether an escape starts is the same with line feeds. -/
theorem startsEscape_lineFeeds {text : List Char} (h : FreeLines none text) :
    startsEscape (lineFeeds text) = startsEscape text := by
  cases text with
  | nil => rfl
  | cons c text =>
    by_cases hc : c = '\\'
    · subst hc
      rw [lineFeeds_cons rfl]
      obtain ⟨hhead, hkeeps, -⟩ | ⟨rest, rfl, -⟩ := h.of_backslash (Option.some_ne_none _).symm
      · rw [startsEscape_of_head hhead, startsEscape_of_head]
        intro hfeeds
        cases text with
        | nil => exact nomatch hfeeds
        | cons d text =>
          rw [lineFeeds_cons (hkeeps.first d rfl)] at hfeeds
          exact hhead hfeeds
      · rw [lineFeeds_cons rfl]
        rfl
    · obtain ⟨rest, hrest⟩ := exists_lineFeeds_cons c text
      rw [startsEscape_of_ne hc, hrest, startsEscape_of_ne (asLineFeed_ne hc (by decide))]

/-! ## Names -/

private theorem endsLine_of_isNameChar {c : Char} (h : isNameChar c = true) : endsLine c = false :=
  endsLine_of_not_isBlank (isBlank_of_isNameChar h)

private theorem takeName_of_not {c : Char} {text : List Char} (hname : isNameChar c = false)
    (hescape : startsEscape (c :: text) = false) : takeName (c :: text) = ([], c :: text) := by
  rw [takeName, if_neg (Bool.eq_false_iff.1 hname), if_neg (Bool.eq_false_iff.1 hescape)]

/-- A name is the same with line feeds. -/
theorem takeName_lineFeeds {text : List Char} (h : FreeLines none text) :
    takeName (lineFeeds text) = ((takeName text).1, lineFeeds (takeName text).2) ∧
      FreeLines none (takeName text).2 := by
  -- on the characters taken: a name character, an escape, or the end of the name
  fun_induction takeName text with
  | case1 => exact ⟨by rw [lineFeeds, takeName], h⟩
  | case2 c text hc name rest heq ih =>
    have hother : c ∉ marks := not_mem_marks isNameChar rfl hc
    obtain ⟨htake, hrest⟩ := ih ((FreeLines.cons_iff hother).1 h)
    rw [heq] at htake hrest
    rw [lineFeeds_cons (endsLine_of_isNameChar hc), takeName, if_pos hc, htake]
    exact ⟨rfl, hrest⟩
  | case3 c text hc hescape name rest heq ih =>
    obtain rfl : c = '\\' := by
      by_contra hne
      exact Bool.false_ne_true ((startsEscape_of_ne hne text).symm.trans hescape)
    obtain ⟨-, hkeeps, hafter⟩ | ⟨after, rfl, -⟩ := h.of_backslash (Option.some_ne_none _).symm
    · obtain ⟨htake, hrest⟩ := ih hafter
      rw [heq] at htake hrest
      have hfeeds : startsEscape ('\\' :: lineFeeds text) = true := by
        rw [← lineFeeds_cons rfl, startsEscape_lineFeeds h, hescape]
      rw [lineFeeds_cons rfl, takeName, if_neg hc, if_pos hfeeds, takeEscape_lineFeeds hkeeps,
        htake]
      exact ⟨rfl, hrest⟩
    · exact absurd hescape Bool.false_ne_true
  | case4 c text hc hescape =>
    have hfeeds := startsEscape_lineFeeds h
    obtain ⟨rest, hrest⟩ := exists_lineFeeds_cons c text
    rw [hrest] at hfeeds ⊢
    refine ⟨takeName_of_not ?_ (hfeeds.trans (Bool.eq_false_iff.2 hescape)), h⟩
    rw [apply_asLineFeed isNameChar rfl rfl]
    exact Bool.eq_false_iff.2 hc

/-- Whether a name starts is the same with line feeds. -/
theorem startsName_lineFeeds {text : List Char} (h : FreeLines none text) :
    startsName (lineFeeds text) = startsName text := by
  cases text with
  | nil => rfl
  | cons c text =>
    by_cases hc : c = '-'
    · subst hc
      have htail : FreeLines none text := (FreeLines.cons_iff (by decide)).1 h
      have hescape := startsEscape_lineFeeds htail
      rw [lineFeeds_cons rfl]
      cases text with
      | nil => rfl
      | cons d text =>
        obtain ⟨rest, hrest⟩ := exists_lineFeeds_cons d text
        rw [hrest] at hescape ⊢
        rw [startsName, startsName, hescape, apply_asLineFeed isNameStart rfl rfl,
          apply_asLineFeed (· == '-') rfl rfl]
    · have hescape := startsEscape_lineFeeds h
      obtain ⟨rest, hrest⟩ := exists_lineFeeds_cons c text
      rw [hrest] at hescape ⊢
      rw [startsName_of_ne (asLineFeed_ne hc (by decide)), startsName_of_ne hc, hescape,
        apply_asLineFeed isNameStart rfl rfl]

/-- The token of a name is the same with line feeds. -/
theorem readName_lineFeeds {text : List Char} (h : FreeLines none text) :
    readName (lineFeeds text) = ((readName text).1, lineFeeds (readName text).2) ∧
      FreeLines none (readName text).2 := by
  obtain ⟨hfeeds, hrest⟩ := takeName_lineFeeds h
  generalize htake : takeName text = taken at hfeeds hrest
  obtain ⟨name, rest⟩ := taken
  by_cases hparen : rest.head? = some '('
  · obtain ⟨tail, rfl⟩ := List.head?_eq_some_iff.1 hparen
    dsimp only at hfeeds
    rw [lineFeeds_cons rfl] at hfeeds
    rw [readName_function htake, readName_function hfeeds]
    exact ⟨rfl, (FreeLines.cons_iff (by decide)).1 hrest⟩
  · rw [readName_of_head htake hparen, readName_of_head hfeeds]
    · exact ⟨rfl, hrest⟩
    · exact fun hhead => hparen (head?_of_lineFeeds (by decide) hhead)

/-! ## Numbers -/

/-- The token of a number is the same with line feeds. -/
theorem readNumber_lineFeeds {text : List Char} (h : FreeLines none text) :
    readNumber (lineFeeds text) = ((readNumber text).1, lineFeeds (readNumber text).2) ∧
      FreeLines none (readNumber text).2 := by
  have hrest : FreeLines none (takeNumber text).2 := by
    rw [← takeNumber_append text] at h
    refine (FreeLines.append_iff fun c hc => ?_).1 h
    exact not_mem_marks isNumberChar rfl (isNumberChar_of_mem_takeNumber hc)
  have hfeeds := takeNumber_lineFeeds text
  generalize htake : takeNumber text = taken at hfeeds hrest
  obtain ⟨digits, rest⟩ := taken
  have hstarts := startsName_lineFeeds hrest
  -- the unit, the percent sign or neither is decided by the text after the digits
  cases hname : startsName rest with
  | true =>
    obtain ⟨hunit, hafter⟩ := takeName_lineFeeds hrest
    rw [readNumber_dimension htake hname, readNumber_dimension hfeeds (hstarts.trans hname), hunit]
    exact ⟨rfl, hafter⟩
  | false =>
    by_cases hpercent : rest.head? = some '%'
    · obtain ⟨tail, rfl⟩ := List.head?_eq_some_iff.1 hpercent
      dsimp only at hfeeds
      rw [lineFeeds_cons rfl] at hfeeds
      rw [readNumber_percentage htake, readNumber_percentage hfeeds]
      exact ⟨rfl, (FreeLines.cons_iff (by decide)).1 hrest⟩
    · rw [readNumber_of_head htake hname hpercent, readNumber_of_head hfeeds (hstarts.trans hname)]
      · exact ⟨rfl, hrest⟩
      · exact fun hhead => hpercent (head?_of_lineFeeds (by decide) hhead)

/-! ## Hashes -/

/-- A hash is the same with line feeds. -/
theorem readHash_lineFeeds {text : List Char} (h : FreeLines none text) :
    readHash (lineFeeds text) = ((readHash text).1, lineFeeds (readHash text).2) ∧
      FreeLines none (readHash text).2 := by
  obtain ⟨htake, hrest⟩ := takeName_lineFeeds h
  have hescape := startsEscape_lineFeeds h
  have hname := startsName_lineFeeds h
  cases text with
  | nil => exact ⟨rfl, h⟩
  | cons c text =>
    obtain ⟨tail, htail⟩ := exists_lineFeeds_cons c text
    rw [htail] at htake hescape hname ⊢
    rw [readHash, readHash, apply_asLineFeed isNameChar rfl rfl, hescape, hname, htake]
    split
    · exact ⟨rfl, hrest⟩
    · rw [← htail]
      exact ⟨rfl, h⟩

/-! ## Strings -/

variable {quote : Char}

private theorem quote_eq_or {c : Char} (hquote : quote = '"' ∨ quote = '\'')
    (hc : c ≠ '"' ∧ c ≠ '\'') : c ≠ quote := by
  rintro rfl
  rcases hquote with rfl | rfl
  · exact hc.1 rfl
  · exact hc.2 rfl

private theorem isBlank_of_quote (hquote : quote = '"' ∨ quote = '\'') : isBlank quote = false := by
  rcases hquote with rfl | rfl
  · rfl
  · rfl

/-- A string ends at its quote. -/
theorem takeString_closing (quote : Char) (text : List Char) :
    takeString quote (quote :: text) = (some [], text) := by
  unfold takeString
  exact if_pos (beq_self_eq_true quote)

/-- A string is cut off by a line feed. -/
theorem takeString_lineFeed (hquote : quote = '"' ∨ quote = '\'') (text : List Char) :
    takeString quote ('\n' :: text) = (none, '\n' :: text) := by
  have hne : ¬ ('\n' == quote) = true := by
    rw [beq_iff_eq]
    exact quote_eq_or hquote (by decide)
  unfold takeString
  exact (if_neg hne).trans (if_pos rfl)

/-- Any other character is part of a string. -/
theorem takeString_inside {c : Char} (hc : c ∉ [quote, '\\', '\n']) (text : List Char) :
    takeString quote (c :: text) =
      ((takeString quote text).1.map (c :: ·), (takeString quote text).2) := by
  simp only [List.mem_cons, List.not_mem_nil, or_false, not_or] at hc
  obtain ⟨hquote, hbackslash, hfeed⟩ := hc
  rw [takeString.eq_def]
  simp only [beq_iff_eq, hquote, hbackslash, hfeed, if_false]

/-- What a backslash does in a string depends on what follows it. -/
theorem takeString_backslash (hquote : quote = '"' ∨ quote = '\'') (text : List Char) :
    takeString quote ('\\' :: text) =
      match text with
      | [] => (some [], [])
      | '\n' :: rest => takeString quote rest
      | d :: rest =>
        ((takeString quote (takeEscape (d :: rest)).2).1.map ((takeEscape (d :: rest)).1 :: ·),
          (takeString quote (takeEscape (d :: rest)).2).2) := by
  have hne : ¬ ('\\' == quote) = true := by
    rw [beq_iff_eq]
    exact quote_eq_or hquote (by decide)
  rw [takeString.eq_def]
  dsimp only
  rw [if_neg hne, if_neg (by decide)]
  exact if_pos rfl

private theorem takeString_escape (hquote : quote = '"' ∨ quote = '\'') {text : List Char}
    (hne : text ≠ []) (hhead : text.head? ≠ some '\n') :
    takeString quote ('\\' :: text) =
      ((takeString quote (takeEscape text).2).1.map ((takeEscape text).1 :: ·),
        (takeString quote (takeEscape text).2).2) := by
  rw [takeString_backslash hquote]
  split
  · exact absurd rfl hne
  · exact absurd rfl hhead
  · rfl

/-- The content of a string is the same with line feeds. -/
theorem takeString_lineFeeds (hquote : quote = '"' ∨ quote = '\'') {text : List Char}
    (h : FreeLines (some quote) text) :
    takeString quote (lineFeeds text) =
        ((takeString quote text).1, lineFeeds (takeString quote text).2) ∧
      FreeLines none (takeString quote text).2 := by
  generalize hwithin : some quote = quote? at h
  -- within a string the cases of `FreeLines` are the steps of the reader
  induction h with
  | nil =>
    rw [lineFeeds, takeString]
    exact ⟨rfl, .nil⟩
  | @escape _ text hhead hkeeps hrest ih =>
    rw [lineFeeds_cons rfl]
    cases text with
    | nil =>
      rw [lineFeeds, takeString_backslash hquote]
      exact ⟨rfl, .nil⟩
    | cons d text =>
      obtain ⟨htake, hafter⟩ := ih hwithin
      have hescape := takeEscape_lineFeeds hkeeps
      have hfeeds : lineFeeds (d :: text) = d :: lineFeeds text :=
        lineFeeds_cons (hkeeps.first d rfl) text
      rw [takeString_escape hquote (List.cons_ne_nil d text) hhead,
        takeString_escape hquote (by rw [hfeeds]; exact List.cons_ne_nil _ _)
          (by rw [hfeeds]; exact hhead), hescape, htake]
      exact ⟨rfl, hafter⟩
  | lineEnd _ ih =>
    rw [lineFeeds_cons rfl, lineFeeds_cons rfl, takeString_backslash hquote,
      takeString_backslash hquote]
    exact ih hwithin
  | @closing quote text hrest =>
    obtain rfl := Option.some.inj hwithin
    have hends : endsLine _ = false := endsLine_of_not_isBlank (isBlank_of_quote hquote)
    rw [lineFeeds_cons hends, takeString_closing, takeString_closing]
    exact ⟨rfl, hrest⟩
  | @broken _ text hrest =>
    rw [takeString_lineFeed hquote, lineFeeds_cons rfl, takeString_lineFeed hquote]
    exact ⟨rfl, (FreeLines.cons_iff (by decide)).2 hrest⟩
  | @brokenPair _ text hrest =>
    -- the carriage return goes into the string, which is then given up
    have hreturn : '\r' ∉ [quote, '\\', '\n'] := by
      have hne : '\r' ≠ quote := quote_eq_or hquote (by decide)
      simp [hne]
    rw [takeString_inside hreturn, takeString_lineFeed hquote, lineFeeds,
      takeString_lineFeed hquote]
    exact ⟨rfl, (FreeLines.cons_iff (by decide)).2 hrest⟩
  | @inside _ c text hc hends _ ih =>
    obtain rfl := Option.some.inj hwithin
    obtain ⟨htake, hafter⟩ := ih rfl
    rw [lineFeeds_cons hends, takeString_inside hc, takeString_inside hc, htake]
    exact ⟨rfl, hafter⟩
  | comment => exact absurd hwithin (Option.some_ne_none quote)
  | opening => exact absurd hwithin (Option.some_ne_none quote)
  | outside => exact absurd hwithin (Option.some_ne_none quote)

/-- The token of a string is the same with line feeds. -/
theorem readString_lineFeeds (hquote : quote = '"' ∨ quote = '\'') {text : List Char}
    (h : FreeLines (some quote) text) :
    readString quote (lineFeeds text) =
        ((readString quote text).1, lineFeeds (readString quote text).2) ∧
      FreeLines none (readString quote text).2 := by
  obtain ⟨htake, hrest⟩ := takeString_lineFeeds hquote h
  rw [readString, readString, htake]
  generalize takeString quote text = taken at hrest ⊢
  obtain ⟨content?, rest⟩ := taken
  cases content? with
  | none => exact ⟨rfl, hrest⟩
  | some content => exact ⟨rfl, hrest⟩

/-! ## Tokens -/

/-- A token that is no run of blanks is read alike, up to where no line end is of consequence. -/
theorem read_lineFeeds {c : Char} {text : List Char} (hblank : isBlank c = false)
    (hcomment : ∀ rest, c :: text ≠ '/' :: '*' :: rest) (h : FreeLines none (c :: text)) :
    read c (lineFeeds text) = ((read c text).1, lineFeeds (read c text).2) ∧
      FreeLines none (read c text).2 := by
  have hcons : lineFeeds (c :: text) = c :: lineFeeds text :=
    lineFeeds_cons (endsLine_of_not_isBlank hblank) text
  unfold read
  rw [if_neg (Bool.eq_false_iff.1 hblank)]
  rw [if_neg (Bool.eq_false_iff.1 hblank)]
  split
  · exact readString_lineFeeds (Or.inl rfl) (h.of_opening (Or.inl rfl))
  · exact readString_lineFeeds (Or.inr rfl) (h.of_opening (Or.inr rfl))
  · exact readHash_lineFeeds (h.tail (by decide) hcomment)
  · exact ⟨rfl, h.tail (by decide) hcomment⟩
  · exact ⟨rfl, h.tail (by decide) hcomment⟩
  · exact ⟨rfl, h.tail (by decide) hcomment⟩
  · exact ⟨rfl, h.tail (by decide) hcomment⟩
  · exact ⟨rfl, h.tail (by decide) hcomment⟩
  · exact ⟨rfl, h.tail (by decide) hcomment⟩
  · next hdouble hsingle _ _ _ _ _ _ _ =>
    rw [← hcons, startsNumber_lineFeeds, startsName_lineFeeds h]
    split
    · exact readNumber_lineFeeds h
    · split
      · exact readName_lineFeeds h
      · next hname =>
        refine ⟨rfl, ?_⟩
        exact h.of_delim ⟨hdouble, hsingle⟩ hcomment (Bool.eq_false_iff.2 hname)

private theorem read_of_isBlank {c : Char} (h : isBlank c = true) (text : List Char) :
    read c text = (.blank, text.dropWhile isBlank) := by
  unfold read
  exact if_pos h

/-- The tokens of a text whose line ends are free are those of its line feeds. -/
theorem lex_lineFeeds {text : List Char} (h : FreeLines none text) :
    lex (lineFeeds text) = lex text := by
  have hskip := skipComments_lineFeeds text
  fun_induction lex text with
  | case1 text hnil => rw [hnil] at hskip; exact lex_nil hskip
  | case2 text c rest hcons ih =>
    have hfree : FreeLines none (c :: rest) := hcons ▸ h.skipComments
    rw [hcons] at hskip
    cases hblank : isBlank c with
    | true =>
      -- one of the two runs may be longer, so they are compared where they end
      obtain ⟨tail, htail⟩ := exists_lineFeeds_cons c rest
      have hfeed : isBlank (asLineFeed c) = true := (isBlank_asLineFeed c).trans hblank
      have hdrop : tail.dropWhile isBlank = lineFeeds (rest.dropWhile isBlank) := by
        have hdrop := dropWhile_isBlank_lineFeeds (c :: rest)
        rwa [htail, List.dropWhile_cons_of_pos hfeed, List.dropWhile_cons_of_pos hblank] at hdrop
      rw [htail] at hskip
      rw [read_of_isBlank hblank] at ih ⊢
      rw [lex_cons hskip, read_of_isBlank hfeed, hdrop, ih (hfree.dropWhile hblank)]
      exact skipComments_lineFeeds _
    | false =>
      have hcomment : ∀ tail, c :: rest ≠ '/' :: '*' :: tail := fun tail heq =>
        skipComments_ne text tail (hcons.trans heq)
      obtain ⟨hread, hafter⟩ := read_lineFeeds hblank hcomment hfree
      rw [lineFeeds_cons (endsLine_of_not_isBlank hblank)] at hskip
      rw [lex_cons hskip, hread, ih hafter]
      exact skipComments_lineFeeds _

end Lexer

/-! ## Texts -/

/-- The text with a line feed for each end of a line. -/
def withLineFeeds (text : String) : String :=
  String.ofList (lineFeeds text.toList)

/-- A text whose line ends are free has the tokens that it has with line feeds, and so it is read as
    the same selectors, or refused with the same error, whatever the namespaces are. -/
theorem tokenize_withLineFeeds (text : String) (h : FreeLines none text.toList) :
    tokenize (withLineFeeds text) = tokenize text ∧
      ∀ namespaces, parseSelectors namespaces (withLineFeeds text) =
        parseSelectors namespaces text := by
  have htokens : tokenize (withLineFeeds text) = tokenize text := by
    unfold tokenize withLineFeeds
    rw [String.toList_ofList]
    exact lex_lineFeeds h
  refine ⟨htokens, fun namespaces => ?_⟩
  unfold parseSelectors
  rw [htokens]

/-- Line ends of all kinds: around a combinator, behind the number of an escape, in a comment and at
    the end of the text. -/
theorem freeLines_severalLines :
    FreeLines none "[a='b']\r\n>\\71\r,/*\x0c*/q\r".toList := by
  have hrest : FreeLines none [',', '/', '*', '\x0c', '*', '/', 'q', '\r'] :=
    .of_not_mem (by simp)
  have hkeeps : KeepsEscape
      ['7', '1', '\r', ',', '/', '*', '\x0c', '*', '/', 'q', '\r'] := by
    constructor
    case first =>
      rintro c ⟨⟩
      rfl
    case number =>
      intro digits rest heq _
      have hfeed : '\n' ∈ digits ++ '\r' :: '\n' :: rest := by simp
      rw [← heq] at hfeed
      exact absurd hfeed (by decide)
  have hbetween : ∀ c ∈ [']', '\r', '\n', '>'], c ∉ marks := by simp [marks]
  have hescape := (FreeLines.append_iff hbetween).2 (.escape (by decide) hkeeps hrest)
  have hfront : ∀ c ∈ ['[', 'a', '='], c ∉ marks := by simp [marks]
  refine (FreeLines.append_iff hfront).2 (.opening (Or.inr rfl) ?_)
  exact .inside (by decide) rfl (.closing hescape)

/-- Lines that end in all three ways, at places of several kinds. -/
theorem tokenize_withLineFeeds_severalLines :
    FreeLines none "[a='b']\r\n>\\71\r,/*\x0c*/q\r".toList ∧
      tokenize (withLineFeeds "[a='b']\r\n>\\71\r,/*\x0c*/q\r") =
        tokenize "[a='b']\r\n>\\71\r,/*\x0c*/q\r" ∧
      ∀ namespaces,
        parseSelectors namespaces (withLineFeeds "[a='b']\r\n>\\71\r,/*\x0c*/q\r") =
          parseSelectors namespaces "[a='b']\r\n>\\71\r,/*\x0c*/q\r" :=
  ⟨freeLines_severalLines, tokenize_withLineFeeds _ freeLines_severalLines⟩

/-- Not every text has the tokens of its line feeds: a carriage return is part of a string that a
    line feed breaks off. -/
theorem not_tokenize_withLineFeeds :
    ¬ ∀ text : String, tokenize (withLineFeeds text) = tokenize text ∧
      ∀ namespaces, parseSelectors namespaces (withLineFeeds text) =
        parseSelectors namespaces text := by
  intro hall
  have hreturn : lex "[a='b\rc']".toList =
      [.leftBracket, .ident "a", .delim '=', .string "b\rc", .rightBracket] := by
    with_unfolding_all rfl
  have hfeed : lex "[a='b\nc']".toList =
      [.leftBracket, .ident "a", .delim '=', .badString, .blank, .ident "c", .string "]"] := by
    with_unfolding_all rfl
  have htokens : lex (withLineFeeds "[a='b\rc']").toList = lex "[a='b\rc']".toList :=
    (hall "[a='b\rc']").1
  have htext : (withLineFeeds "[a='b\rc']").toList = "[a='b\nc']".toList := by
    with_unfolding_all rfl
  rw [htext, hfeed, hreturn] at htokens
  exact absurd htokens (by decide)

end Selectors
