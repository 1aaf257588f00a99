import Selectors.Proofs.Reading.Boundaries

/-!
# Line feeds — one way to end a line

Lines end in four ways: in a line feed, a carriage return, both of them or a form feed. `lineFeeds`
writes a line feed for each. The other ways differ from it by at most their length, and all four are
blanks, so whatever takes line ends as blanks, or passes over them, or stops in front of them, does
the same with a text and with its line feeds.

* **`lineFeeds`** — a text with a line feed for each end of a line.
* **`lineFeeds_cons_cases`** — its two ways of going on.
* **`dropWhile_isBlank_lineFeeds`**, **`skipComments_lineFeeds`**, **`takeNumber_lineFeeds`** — the
  readers to which line ends are all the same.
-/

namespace Selectors

/-- Whether `c` ends a line and is not the line feed. -/
def endsLine (c : Char) : Bool :=
  c == '\r' || c == '\x0c'

/-- The line feed for a character that ends a line, and any other character itself. -/
def asLineFeed (c : Char) : Char :=
  if endsLine c then '\n' else c

/-- The text with a line feed for each end of a line; a carriage return and a line feed after it are
    one end. -/
def lineFeeds : List Char → List Char
  | [] => []
  | '\r' :: '\n' :: text => '\n' :: lineFeeds text
  | c :: text => asLineFeed c :: lineFeeds text

/-- Two characters end lines besides the line feed. -/
theorem eq_of_endsLine {c : Char} (h : endsLine c = true) : c = '\r' ∨ c = '\x0c' := by
  simpa only [endsLine, Bool.or_eq_true, beq_iff_eq] using h

/-- The end of a line becomes a line feed. -/
theorem asLineFeed_of_endsLine {c : Char} (h : endsLine c = true) : asLineFeed c = '\n' :=
  if_pos h

private theorem asLineFeed_of_not {c : Char} (h : endsLine c = false) : asLineFeed c = c :=
  if_neg (Bool.eq_false_iff.1 h)

/-- What does not tell the ends of lines apart is the same of both characters. -/
theorem apply_asLineFeed {α : Type} (f : Char → α) (hreturn : f '\r' = f '\n')
    (hfeed : f '\x0c' = f '\n') (c : Char) : f (asLineFeed c) = f c := by
  cases hc : endsLine c with
  | true =>
    rw [asLineFeed_of_endsLine hc]
    rcases eq_of_endsLine hc with rfl | rfl
    · exact hreturn.symm
    · exact hfeed.symm
  | false => rw [asLineFeed_of_not hc]

/-- No other character comes about. -/
theorem asLineFeed_ne {c d : Char} (h : c ≠ d) (hfeed : d ≠ '\n') : asLineFeed c ≠ d := by
  cases hc : endsLine c with
  | true =>
    rw [asLineFeed_of_endsLine hc]
    exact hfeed.symm
  | false =>
    rw [asLineFeed_of_not hc]
    exact h

/-- The line feed of a pair stands for the pair; any other character goes by itself. -/
theorem lineFeeds_cons_cases (c : Char) (text : List Char) :
    (c = '\r' ∧ ∃ rest, text = '\n' :: rest ∧ lineFeeds (c :: text) = lineFeeds text) ∨
      lineFeeds (c :: text) = asLineFeed c :: lineFeeds text := by
  rw [lineFeeds.eq_def]
  split
  · next heq => exact nomatch heq
  · next rest heq =>
    obtain ⟨rfl, rfl⟩ := List.cons.inj heq
    exact Or.inl ⟨rfl, rest, rfl, rfl⟩
  · next heq =>
    obtain ⟨rfl, rfl⟩ := List.cons.inj heq
    exact Or.inr rfl

/-- A character that ends no line stays in front. -/
theorem lineFeeds_cons {c : Char} (h : endsLine c = false) (text : List Char) :
    lineFeeds (c :: text) = c :: lineFeeds text := by
  obtain ⟨rfl, -⟩ | hcons := lineFeeds_cons_cases c text
  · exact absurd h (by decide)
  · rw [hcons, asLineFeed_of_not h]

/-- A text without ends of lines stays in front. -/
theorem lineFeeds_append {front : List Char} (h : ∀ c ∈ front, endsLine c = false)
    (text : List Char) : lineFeeds (front ++ text) = front ++ lineFeeds text := by
  induction front with
  | nil => rfl
  | cons c front ih =>
    rw [List.cons_append, lineFeeds_cons (h c List.mem_cons_self),
      ih fun d hd => h d (List.mem_cons_of_mem _ hd), List.cons_append]

/-- The first character goes by itself in any case. -/
theorem exists_lineFeeds_cons (c : Char) (text : List Char) :
    ∃ rest, lineFeeds (c :: text) = asLineFeed c :: rest := by
  obtain ⟨rfl, rest, rfl, heq⟩ | heq := lineFeeds_cons_cases c text
  · exact ⟨lineFeeds rest, heq.trans (lineFeeds_cons rfl rest)⟩
  · exact ⟨lineFeeds text, heq⟩

/-- What is not a line feed was there before. -/
theorem exists_of_lineFeeds_eq_cons {c : Char} (hc : c ≠ '\n') {text rest : List Char}
    (h : lineFeeds text = c :: rest) : ∃ tail, text = c :: tail ∧ rest = lineFeeds tail := by
  cases text with
  | nil => exact nomatch h
  | cons d text =>
    cases hd : endsLine d with
    | true =>
      obtain ⟨tail, htail⟩ := exists_lineFeeds_cons d text
      rw [htail, asLineFeed_of_endsLine hd] at h
      exact absurd (List.cons.inj h).1.symm hc
    | false =>
      rw [lineFeeds_cons hd] at h
      obtain ⟨rfl, rfl⟩ := List.cons.inj h
      exact ⟨text, rfl, rfl⟩

/-- Any character but a line feed that stands first has stood first. -/
theorem head?_of_lineFeeds {c : Char} (hc : c ≠ '\n') {text : List Char}
    (h : (lineFeeds text).head? = some c) : text.head? = some c := by
  obtain ⟨rest, hrest⟩ := List.head?_eq_some_iff.1 h
  obtain ⟨tail, rfl, -⟩ := exists_of_lineFeeds_eq_cons hc hrest
  rfl

/-! ## Blanks -/

/-- A blank stays one. -/
theorem isBlank_asLineFeed (c : Char) : isBlank (asLineFeed c) = isBlank c :=
  apply_asLineFeed isBlank rfl rfl c

private theorem isBlank_of_endsLine {c : Char} (h : endsLine c = true) : isBlank c = true := by
  rw [← isBlank_asLineFeed, asLineFeed_of_endsLine h]
  rfl

/-- What is no blank ends no line. -/
theorem endsLine_of_not_isBlank {c : Char} (h : isBlank c = false) : endsLine c = false :=
  Bool.eq_false_iff.2 fun hends => Bool.false_ne_true (h.symm.trans (isBlank_of_endsLine hends))

/-- The same is left after blanks, with line feeds. -/
theorem dropWhile_isBlank_lineFeeds (text : List Char) :
    (lineFeeds text).dropWhile isBlank = lineFeeds (text.dropWhile isBlank) := by
  induction text with
  | nil => rfl
  | cons c text ih =>
    obtain ⟨rfl, -, -, heq⟩ | heq := lineFeeds_cons_cases c text
    · rw [heq, ih, List.dropWhile_cons_of_pos rfl]
    · by_cases hc : isBlank c = true
      · rw [heq, List.dropWhile_cons_of_pos ((isBlank_asLineFeed c).trans hc), ih,
          List.dropWhile_cons_of_pos hc]
      · rw [List.dropWhile_cons_of_neg hc, heq,
          List.dropWhile_cons_of_neg (by rwa [isBlank_asLineFeed]), ← heq]

namespace Lexer

/-! ## Comments -/

private theorem afterComment_of_ne {c : Char} (h : c ≠ '*') (text : List Char) :
    afterComment (c :: text) = afterComment text := by
  rw [afterComment]
  exact fun _ heq _ => h heq

/-- The same is left after a comment, with line feeds. -/
theorem afterComment_lineFeeds (text : List Char) :
    afterComment (lineFeeds text) = lineFeeds (afterComment text) := by
  fun_induction afterComment text with
  | case1 text =>
    rw [lineFeeds_cons rfl, lineFeeds_cons rfl, afterComment]
  | case2 c text hother ih =>
    obtain ⟨-, -, -, heq⟩ | heq := lineFeeds_cons_cases c text
    · rw [heq, ih]
    · rw [heq, ← ih]
      by_cases hc : c = '*'
      · subst hc
        rw [afterComment]
        -- a slash behind the star would have been there before
        intro rest _ hslash
        obtain ⟨tail, rfl, -⟩ := exists_of_lineFeeds_eq_cons (by decide) hslash
        exact hother tail rfl rfl
      · exact afterComment_of_ne (asLineFeed_ne hc (by decide)) _
  | case3 => rfl

/-- After comments no comment starts. -/
theorem skipComments_ne (text rest : List Char) : skipComments text ≠ '/' :: '*' :: rest := by
  fun_induction skipComments text with
  | case1 text ih => exact ih
  | case2 text hother => exact fun heq => hother rest heq

/-- The same is left after comments, with line feeds. -/
theorem skipComments_lineFeeds (text : List Char) :
    skipComments (lineFeeds text) = lineFeeds (skipComments text) := by
  fun_induction skipComments text with
  | case1 text ih =>
    rw [lineFeeds_cons rfl, lineFeeds_cons rfl, skipComments, afterComment_lineFeeds, ih]
  | case2 text hother =>
    refine skipComments_of_not_comment fun rest heq => ?_
    obtain ⟨tail, rfl, htail⟩ := exists_of_lineFeeds_eq_cons (by decide) heq
    obtain ⟨tail, rfl, -⟩ := exists_of_lineFeeds_eq_cons (by decide) htail.symm
    exact hother tail rfl

/-! ## Numbers -/

/-- Up to its first end of a line, a text and its line feeds are the same, and no number goes on
    there. -/
theorem exists_front (text : List Char) :
    ∃ front back, text = front ++ back ∧ (∀ c ∈ front, endsLine c = false) ∧
      EndsNumber back ∧ EndsNumber (lineFeeds back) := by
  induction text with
  | nil => exact ⟨[], [], rfl, List.forall_mem_nil _, nofun, nofun⟩
  | cons c text ih =>
    cases hc : endsLine c with
    | true =>
      obtain ⟨rest, hrest⟩ := exists_lineFeeds_cons c text
      have hfeed : isNumberChar (asLineFeed c) = false := by
        rw [asLineFeed_of_endsLine hc]
        rfl
      have hnumber : isNumberChar c = false := by
        rwa [apply_asLineFeed isNumberChar rfl rfl] at hfeed
      refine ⟨[], c :: text, rfl, List.forall_mem_nil _, endsNumber_cons hnumber _, ?_⟩
      rw [hrest]
      exact endsNumber_cons hfeed rest
    | false =>
      obtain ⟨front, back, rfl, hfront, hback⟩ := ih
      refine ⟨c :: front, back, rfl, ?_, hback⟩
      intro d hd
      rcases List.mem_cons.1 hd with rfl | hd
      · exact hc
      · exact hfront d hd

/-- Whether a number starts is the same with line feeds. -/
theorem startsNumber_lineFeeds (text : List Char) :
    startsNumber (lineFeeds text) = startsNumber text := by
  obtain ⟨front, back, rfl, hfront, hends, hfeeds⟩ := exists_front text
  rw [lineFeeds_append hfront, startsNumber_boundary hfeeds, startsNumber_boundary hends]

/-- A number is the same with line feeds. -/
theorem takeNumber_lineFeeds (text : List Char) :
    takeNumber (lineFeeds text) = ((takeNumber text).1, lineFeeds (takeNumber text).2) := by
  obtain ⟨front, back, rfl, hfront, hends, hfeeds⟩ := exists_front text
  have hrest : ∀ c ∈ (takeNumber front).2, endsLine c = false := by
    intro c hc
    refine hfront c ?_
    rw [← takeNumber_append front]
    exact List.mem_append_right _ hc
  rw [lineFeeds_append hfront, takeNumber_boundary hfeeds, takeNumber_boundary hends,
    lineFeeds_append hrest]

end Lexer

end Selectors
