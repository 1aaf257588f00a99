import Selectors.Proofs.RoundTrip.Escapes

/-!
# Spelling — the text of tokens, and reading it back

Tokens are spelled one after the other: names and strings in escapes, everything else as it stands.
A name after a colon is a keyword, as is the name of a function, and these stand as they are too.
A token that is read back depends on what follows: a name goes on as long as it can, some signs
start a number, and blanks run together. The lemmas here say for each token what may follow it.

What several tokens in a row need is put together from that: `Reads` is the property of tokens that
are read back wherever a name could end.

A name, an id and the content of a string may be any text without U+0000. Written in escapes such a
text has no character that means something by itself: digits, hyphens, quotes and ends of lines are
all behind numbers, and the space after each number keeps what follows out of it. What is written
is read back as the text, and reading goes on behind it as if nothing had stood there.

* **`spell`** — the text of tokens.
* **`lex_ident`**, **`lex_keyword`**, **`lex_hash`**, **`lex_string`**, **`lex_sign`** — one token.
* **`Stands`**, **`Reads`** and **`Follows`** — tokens in a row.
* **`ReadsBack`** — what is read of a written text as a name, after a number sign and in quotes.
* **`escaped_reads_back`** — every writing of every text is read back.
-/

namespace Selectors

/-- The text that a token is written as. -/
def Token.spelling : Token → List Char
  | ident name => Lexer.escaped name.toList
  | hash name _ => '#' :: Lexer.escaped name.toList
  | string content => '"' :: Lexer.escaped content.toList ++ ['"']
  | token => token.text.toList

/-- The text that tokens are written as; a name after a colon is a keyword. -/
def spell : List Token → List Char
  | [] => []
  | .colon :: .ident keyword :: rest => ':' :: (keyword.toList ++ spell rest)
  | token :: rest => token.spelling ++ spell rest

/-- The tokens do not end in a colon, which would make a keyword of a name after them. -/
def Settled (tokens : List Token) : Prop :=
  tokens.getLast? ≠ some .colon

/-- Without its first token a row ends the same. -/
theorem Settled.tail {token : Token} {rest : List Token} (h : Settled (token :: rest)) :
    Settled rest := by
  cases rest with
  | nil => exact nofun
  | cons next rest =>
    unfold Settled at h ⊢
    rwa [List.getLast?_cons_cons] at h

/-- Tokens in a row do not end in a colon if neither part does. -/
theorem Settled.append {front back : List Token} (hfront : Settled front)
    (hback : Settled back) : Settled (front ++ back) := by
  unfold Settled at hfront hback ⊢
  rw [List.getLast?_append]
  intro heq
  rcases Option.or_eq_some_iff.1 heq with heq | ⟨-, heq⟩
  · exact hback heq
  · exact hfront heq

/-- The texts of tokens in a row stand in a row, unless a colon stands between. -/
theorem spell_append {front : List Token} (h : Settled front) (back : List Token) :
    spell (front ++ back) = spell front ++ spell back := by
  fun_induction spell front with
  | case1 => rfl
  | case2 keyword rest ih =>
    show ':' :: (keyword.toList ++ spell (rest ++ back)) = _
    rw [ih h.tail.tail, List.cons_append, List.append_assoc]
  | case3 token rest hkeyword ih =>
    rw [List.cons_append, spell, ih h.tail, List.append_assoc]
    -- the colon of a keyword would be the last of the tokens in front
    intro keyword after htoken heq
    cases rest with
    | nil => exact h (congrArg some htoken)
    | cons next rest => exact hkeyword keyword rest htoken (by rw [(List.cons.inj heq).1])

namespace Lexer

/-! ## One token -/

/-- A token is the first one of a text if it is read at its start; a slash could start a
    comment. -/
theorem lex_of_read {c : Char} {text rest : List Char} {token : Token} (hc : c ≠ '/')
    (h : read c text = (token, rest)) : lex (c :: text) = token :: lex rest := by
  have hskip : skipComments (c :: text) = c :: text := by
    rw [skipComments]
    exact fun _ heq => hc (List.cons.inj heq).1
  rw [lex_cons hskip, h]

/-- The characters that decide at once what is read. -/
def decisive : List Char :=
  ['\n', '\t', ' ', '\r', '\x0c', '"', '\'', '#', '(', ')', '[', ']', ',', ':']

/-- Any other character starts a number if it can, else a name if it can. -/
theorem read_of_not_mem {c : Char} (h : c ∉ decisive) (text : List Char) :
    read c text =
      if startsNumber (c :: text) then readNumber (c :: text)
      else if startsName (c :: text) then readName (c :: text)
      else (.delim c, text) := by
  have hblank : ¬ isBlank c = true := by
    intro hblank
    rcases eq_of_isBlank hblank with rfl | rfl | rfl | rfl | rfl
    all_goals exact h (by decide)
  unfold read
  rw [if_neg hblank]
  split
  · exact absurd (by decide) h
  · exact absurd (by decide) h
  · exact absurd (by decide) h
  · exact absurd (by decide) h
  · exact absurd (by decide) h
  · exact absurd (by decide) h
  · exact absurd (by decide) h
  · exact absurd (by decide) h
  · exact absurd (by decide) h
  · rfl

/-- The name is neither empty nor has it a character that cannot be written. -/
def IsName (name : String) : Prop :=
  name ≠ "" ∧ NulFree name.toList

private theorem IsName.toList_ne_nil {name : String} (h : IsName name) : name.toList ≠ [] :=
  fun hname => h.1 (String.toList_inj.1 hname)

/-- A written name starts with an escape. -/
theorem IsName.exists_escape {name : String} (h : IsName name) (rest : List Char) :
    ∃ text, escaped name.toList ++ rest = '\\' :: text ∧
      startsEscape (escaped name.toList ++ rest) = true :=
  (escapes_escaped name.toList).exists_backslash h.toList_ne_nil rest

/-- An escape starts a name. -/
theorem startsName_of_startsEscape {text : List Char} (h : startsEscape ('\\' :: text) = true) :
    startsName ('\\' :: text) = true := by
  rw [startsName]
  · rw [h, Bool.or_true]
  · exact fun _ _ heq => absurd heq (by decide)

/-- The start of an escape is read as a name. -/
theorem read_backslash {text : List Char} (h : startsEscape ('\\' :: text) = true) :
    read '\\' text = readName ('\\' :: text) := by
  show (if startsNumber ('\\' :: text) then _ else if startsName ('\\' :: text) then _ else _) = _
  rw [startsName_of_startsEscape h, if_neg (by exact Bool.false_ne_true), if_pos rfl]

/-- A name that is taken and ends there is a token of its own. -/
theorem readName_ident {name : String} {text rest : List Char}
    (htake : takeName text = (name.toList, rest)) (hrest : EndsName rest) :
    readName text = (.ident name, rest) := by
  rw [readName, htake]
  split
  · next heq =>
    obtain ⟨-, hparen⟩ := Prod.mk.inj heq
    exact absurd rfl (hrest '(' (by rw [hparen]; rfl)).2.2
  · next heq =>
    obtain ⟨rfl, rfl⟩ := Prod.mk.inj heq
    rw [String.ofList_toList]

/-- Every writing of a name is read back as the name. -/
theorem lex_of_escapes {name : String} {written rest : List Char} (hname : IsName name)
    (h : Escapes name.toList written) (hrest : EndsName rest) :
    lex (written ++ rest) = .ident name :: lex rest := by
  obtain ⟨text, htext, hstarts⟩ := h.exists_backslash hname.toList_ne_nil rest
  have htake := takeName_of_escapes h hname.2 fun c hc => ⟨(hrest c hc).1, (hrest c hc).2.1⟩
  rw [htext] at htake hstarts ⊢
  refine lex_of_read (by decide) ?_
  rw [read_backslash hstarts, readName_ident htake hrest]

/-- A written name is read back. -/
theorem lex_ident {name : String} {rest : List Char} (hname : IsName name)
    (hrest : EndsName rest) :
    lex (escaped name.toList ++ rest) = .ident name :: lex rest :=
  lex_of_escapes hname (escapes_escaped name.toList) hrest

/-- A name that needs no escapes: a letter, and what a name may go on with. -/
def isKeyword (name : String) : Bool :=
  name.toList.head?.any Char.isAlpha && name.toList.all isNameChar

/-- A keyword starts with a letter and goes on as a name. -/
theorem isKeyword.exists_cons {name : String} (h : isKeyword name = true) :
    ∃ c others, name.toList = c :: others ∧ c.isAlpha = true ∧
      ∀ d ∈ name.toList, isNameChar d = true := by
  obtain ⟨hfirst, hall⟩ := Bool.and_eq_true_iff.1 h
  rw [List.all_eq_true] at hall
  cases hname : name.toList with
  | nil =>
    rw [hname] at hfirst
    exact nomatch hfirst
  | cons c others =>
    rw [hname] at hfirst hall
    exact ⟨c, others, rfl, hfirst, hall⟩

/-- No letter is a digit. -/
theorem isDigit_of_isAlpha {c : Char} (h : c.isAlpha = true) : c.isDigit = false := by
  refine Bool.eq_false_iff.2 fun hdigit => ?_
  simp only [Char.isDigit, Bool.and_eq_true, decide_eq_true_iff] at hdigit
  have hhigh : c.val.toNat ≤ 57 := hdigit.2
  delta Char.isAlpha Char.isUpper Char.isLower at h
  simp only [Bool.or_eq_true, Bool.and_eq_true, decide_eq_true_iff] at h
  rcases h with ⟨hlow, -⟩ | ⟨hlow, -⟩
  · have hlow' : 65 ≤ c.val.toNat := hlow
    omega
  · have hlow' : 97 ≤ c.val.toNat := hlow
    omega

/-- A letter is read as the start of a name. -/
theorem lex_of_isAlpha {c : Char} {text rest : List Char} {token : Token}
    (hc : c.isAlpha = true) (h : readName (c :: text) = (token, rest)) :
    lex (c :: text) = token :: lex rest := by
  -- a letter is none of the characters that start another kind of token
  have hother : ∀ d : Char, d.isAlpha = false → c ≠ d := by
    rintro d hd rfl
    exact Bool.false_ne_true (hd.symm.trans hc)
  have hnumber : ¬ startsNumber (c :: text) = true := by
    have hunsigned : startsNumber (c :: text) = c.isDigit := by
      rw [startsNumber, startsUnsigned]
      · exact fun _ _ heq => absurd heq (hother _ rfl)
      · exact fun _ heq => hother _ rfl (List.cons.inj heq).1
      · exact fun _ heq => hother _ rfl (List.cons.inj heq).1
    rw [hunsigned, isDigit_of_isAlpha hc]
    exact Bool.false_ne_true
  have hname : startsName (c :: text) = true := by
    rw [startsName]
    · unfold isNameStart
      rw [hc, Bool.true_or, Bool.true_or, Bool.true_or]
    · exact fun _ _ heq => absurd heq (hother _ rfl)
  have hnot : c ∉ decisive := by
    intro hmem
    have hall : decisive.all (!·.isAlpha) = true := by decide
    have hletter := List.all_eq_true.1 hall c hmem
    rw [hc] at hletter
    exact Bool.false_ne_true hletter
  refine lex_of_read (hother _ rfl) ?_
  rw [read_of_not_mem hnot, if_neg hnumber, if_pos hname, h]

/-- A keyword is read back as it stands. -/
theorem lex_keyword {name : String} {rest : List Char} (hname : isKeyword name = true)
    (hrest : EndsName rest) : lex (name.toList ++ rest) = .ident name :: lex rest := by
  obtain ⟨c, others, hcons, hc, hall⟩ := isKeyword.exists_cons hname
  have htake := takeName_plain hall fun c hc => ⟨(hrest c hc).1, (hrest c hc).2.1⟩
  have hread := readName_ident htake hrest
  rw [hcons] at hread ⊢
  exact lex_of_isAlpha hc hread

/-- A keyword in front of a parenthesis is read back as a function. -/
theorem lex_function {name : String} (hname : isKeyword name = true) (rest : List Char) :
    lex (name.toList ++ '(' :: rest) = .function name :: lex rest := by
  obtain ⟨c, others, hcons, hc, hall⟩ := isKeyword.exists_cons hname
  have htake := @takeName_plain name.toList ('(' :: rest) hall (by rintro c ⟨⟩; decide)
  have hread : readName (name.toList ++ '(' :: rest) = (.function name, rest) := by
    rw [readName, htake]
    show (Token.function (String.ofList name.toList), rest) = _
    rw [String.ofList_toList]
  rw [hcons] at hread ⊢
  exact lex_of_isAlpha hc hread

/-- Every writing of an id is read back as the id. -/
theorem lex_hash_of_escapes {name : String} {written rest : List Char} (hname : IsName name)
    (h : Escapes name.toList written) (hrest : EndsName rest) :
    lex ('#' :: (written ++ rest)) = .hash name true :: lex rest := by
  obtain ⟨text, htext, hstarts⟩ := h.exists_backslash hname.toList_ne_nil rest
  have htake := takeName_of_escapes h hname.2 fun c hc => ⟨(hrest c hc).1, (hrest c hc).2.1⟩
  rw [htext] at htake hstarts ⊢
  refine lex_of_read (by decide) ?_
  show readHash ('\\' :: text) = _
  rw [readHash, hstarts, Bool.or_true, if_pos rfl, htake, startsName_of_startsEscape hstarts]
  show (Token.hash (String.ofList name.toList) true, rest) = _
  rw [String.ofList_toList]

/-- A written id is read back. -/
theorem lex_hash {name : String} {rest : List Char} (hname : IsName name)
    (hrest : EndsName rest) :
    lex ('#' :: (escaped name.toList ++ rest)) = .hash name true :: lex rest :=
  lex_hash_of_escapes hname (escapes_escaped name.toList) hrest

/-- Every writing of a text in quotes is read back as the text. -/
theorem lex_string_of_escapes {content : String} {written : List Char}
    (hcontent : NulFree content.toList) (h : Escapes content.toList written) (rest : List Char) :
    lex ('"' :: (written ++ '"' :: rest)) = .string content :: lex rest := by
  refine lex_of_read (by decide) ?_
  show readString '"' (written ++ '"' :: rest) = _
  rw [readString, takeString_of_escapes h hcontent]
  show (Token.string (String.ofList content.toList), rest) = _
  rw [String.ofList_toList]

/-- A written string is read back. -/
theorem lex_string {content : String} (hcontent : NulFree content.toList) (rest : List Char) :
    lex ('"' :: (escaped content.toList ++ '"' :: rest)) = .string content :: lex rest :=
  lex_string_of_escapes hcontent (escapes_escaped content.toList) rest

/-- Blanks are one token with all blanks after them. -/
theorem lex_blanks {c : Char} {gap rest : List Char} (hc : isBlank c = true)
    (hgap : ∀ d ∈ gap, isBlank d = true) (hrest : ∀ d ∈ rest.head?, isBlank d = false) :
    lex (c :: (gap ++ rest)) = .blank :: lex rest := by
  have hdrop : (gap ++ rest).dropWhile isBlank = rest := by
    rw [List.dropWhile_append_of_pos hgap]
    cases rest with
    | nil => rfl
    | cons d rest =>
      rw [List.dropWhile_cons_of_neg]
      rw [hrest d rfl]
      exact Bool.false_ne_true
  refine lex_of_read ?_ ?_
  · rintro rfl
    exact absurd hc (by decide)
  · rw [read.eq_def, if_pos hc, hdrop]

/-- A space in front of no other blank is a token of its own. -/
theorem lex_blank {rest : List Char} (hrest : ∀ c ∈ rest.head?, isBlank c = false) :
    lex (' ' :: rest) = .blank :: lex rest :=
  @lex_blanks ' ' [] rest rfl nofun hrest

/-- The characters that stand for themselves whatever follows. -/
def signs : List Char := ['*', '|', '=', '~', '^', '$', '>']

/-- A sign is a token of its own, whatever follows. -/
theorem lex_sign {c : Char} (h : c ∈ signs) (rest : List Char) :
    lex (c :: rest) = .delim c :: lex rest := by
  simp only [signs, List.mem_cons, List.not_mem_nil, or_false] at h
  rcases h with rfl | rfl | rfl | rfl | rfl | rfl | rfl
  all_goals exact lex_of_read (by decide) rfl

/-- A point or a plus sign stands for itself unless it starts a number. -/
theorem lex_point {rest : List Char} (hrest : startsNumber ('.' :: rest) = false) :
    lex ('.' :: rest) = .delim '.' :: lex rest := by
  refine lex_of_read (by decide) ?_
  show (if startsNumber ('.' :: rest) then _ else _) = _
  rw [hrest]
  rfl

/-- A plus sign is a token of its own in front of no number. -/
theorem lex_plus {rest : List Char} (hrest : startsNumber ('+' :: rest) = false) :
    lex ('+' :: rest) = .delim '+' :: lex rest := by
  refine lex_of_read (by decide) ?_
  show (if startsNumber ('+' :: rest) then _ else _) = _
  rw [hrest]
  rfl

/-! ## Tokens in a row -/

/-- The tokens are read back whatever follows. -/
structure Stands (tokens : List Token) : Prop where
  settled : Settled tokens
  lex_spell : ∀ rest, lex (spell tokens ++ rest) = tokens ++ lex rest

/-- The tokens are read back where a name could end. -/
structure Reads (tokens : List Token) : Prop where
  settled : Settled tokens
  lex_spell : ∀ rest, EndsName rest → lex (spell tokens ++ rest) = tokens ++ lex rest

/-- A name could end in front of the tokens, if it could without them. -/
def Follows (tokens : List Token) : Prop :=
  ∀ rest, EndsName rest → EndsName (spell tokens ++ rest)

/-- A name ends with the text. -/
theorem endsName_nil : EndsName [] :=
  nofun

/-- A name ends in front of a character that is in none. -/
theorem endsName_cons {c : Char}
    (h : isNameChar c = false ∧ c ≠ '\\' ∧ c ≠ '(') (rest : List Char) :
    EndsName (c :: rest) := by
  rintro d ⟨⟩
  exact h

/-- What is read back in front of anything is read back. -/
theorem Stands.reads {tokens : List Token} (h : Stands tokens) : Reads tokens :=
  ⟨h.settled, fun rest _ => h.lex_spell rest⟩

/-- No tokens are read back. -/
theorem stands_nil : Stands [] :=
  ⟨nofun, fun _ => rfl⟩

/-- Tokens that are read back in front of anything are so in a row. -/
theorem Stands.append {front back : List Token} (hfront : Stands front) (hback : Stands back) :
    Stands (front ++ back) := by
  refine ⟨hfront.settled.append hback.settled, fun rest => ?_⟩
  rw [spell_append hfront.settled, List.append_assoc, hfront.lex_spell, hback.lex_spell,
    List.append_assoc]

/-- In front of what is read back stands what is so in front of anything. -/
theorem Stands.append_reads {front back : List Token} (hfront : Stands front)
    (hback : Reads back) : Reads (front ++ back) := by
  refine ⟨hfront.settled.append hback.settled, fun rest hrest => ?_⟩
  rw [spell_append hfront.settled, List.append_assoc, hfront.lex_spell,
    hback.lex_spell rest hrest, List.append_assoc]

/-- In front of what ends a name stands what is read back in front of that. -/
theorem Reads.append {front back : List Token} (hfront : Reads front) (hfollows : Follows back)
    (hback : Reads back) : Reads (front ++ back) := by
  refine ⟨hfront.settled.append hback.settled, fun rest hrest => ?_⟩
  rw [spell_append hfront.settled, List.append_assoc, hfront.lex_spell _ (hfollows rest hrest),
    hback.lex_spell rest hrest, List.append_assoc]

/-- A name is followed by tokens that stand and that it could end in front of. -/
theorem Reads.append_stands {front back : List Token} (hfront : Reads front)
    (hends : ∀ rest, EndsName (spell back ++ rest)) (hback : Stands back) :
    Stands (front ++ back) := by
  refine ⟨hfront.settled.append hback.settled, fun rest => ?_⟩
  rw [spell_append hfront.settled, List.append_assoc, hfront.lex_spell _ (hends rest),
    hback.lex_spell, List.append_assoc]

/-- A name is read back. -/
theorem reads_ident {name : String} (h : IsName name) : Reads [.ident name] := by
  refine ⟨nofun, fun rest hrest => ?_⟩
  rw [show spell [.ident name] = escaped name.toList from List.append_nil _]
  exact lex_ident h hrest

/-- A sign is read back in front of anything. -/
theorem stands_sign {c : Char} (h : c ∈ signs) : Stands [.delim c] := by
  refine ⟨nofun, fun rest => ?_⟩
  rw [show spell [.delim c] ++ rest = c :: rest by simp [spell, Token.spelling, Token.text]]
  exact lex_sign h rest

/-- An opening bracket is read back in front of anything. -/
theorem stands_leftBracket : Stands [.leftBracket] :=
  ⟨nofun, fun _ => lex_of_read (by decide) rfl⟩

/-- A closing bracket is read back in front of anything. -/
theorem stands_rightBracket : Stands [.rightBracket] :=
  ⟨nofun, fun _ => lex_of_read (by decide) rfl⟩

/-- A closing parenthesis is read back in front of anything. -/
theorem stands_rightParen : Stands [.rightParen] :=
  ⟨nofun, fun _ => lex_of_read (by decide) rfl⟩

/-- A comma is read back in front of anything. -/
theorem stands_comma : Stands [.comma] :=
  ⟨nofun, fun _ => lex_of_read (by decide) rfl⟩

/-- Signs in a row are read back in front of anything. -/
theorem stands_signs {chars : List Char} (h : ∀ c ∈ chars, c ∈ signs) :
    Stands (chars.map Token.delim) := by
  induction chars with
  | nil => exact stands_nil
  | cons c chars ih =>
    exact (stands_sign (h c List.mem_cons_self)).append
      (ih fun d hd => h d (List.mem_cons_of_mem _ hd))

/-- A string is read back in front of anything. -/
theorem stands_string {content : String} (h : NulFree content.toList) :
    Stands [.string content] := by
  refine ⟨nofun, fun rest => ?_⟩
  rw [show spell [.string content] ++ rest = '"' :: (escaped content.toList ++ '"' :: rest) by
    simp [spell, Token.spelling], lex_string h]
  rfl

/-- No text has no tokens. -/
theorem lex_of_empty : lex [] = [] := by
  refine lex_nil ?_
  rw [skipComments]
  exact fun _ heq => List.cons_ne_nil _ _ heq.symm

/-- A colon is a token of its own. -/
theorem lex_colon (rest : List Char) : lex (':' :: rest) = .colon :: lex rest :=
  lex_of_read (by decide) rfl

/-- A function after a colon is read back in front of anything. -/
theorem stands_function {name : String} (h : isKeyword name = true) :
    Stands [.colon, .function name] := by
  refine ⟨nofun, fun rest => ?_⟩
  rw [show spell [.colon, .function name] ++ rest = ':' :: (name.toList ++ '(' :: rest) by
    simp [spell, Token.spelling, Token.text], lex_colon, lex_function h]
  rfl

/-- A keyword after a colon is read back. -/
theorem reads_keyword {name : String} (h : isKeyword name = true) :
    Reads [.colon, .ident name] := by
  refine ⟨nofun, fun rest hrest => ?_⟩
  rw [show spell [.colon, .ident name] ++ rest = ':' :: (name.toList ++ rest) by simp [spell],
    lex_colon, lex_keyword h hrest]
  rfl

/-- A keyword after two colons is read back. -/
theorem reads_doubleKeyword {name : String} (h : isKeyword name = true) :
    Reads [.colon, .colon, .ident name] := by
  refine ⟨nofun, fun rest hrest => ?_⟩
  rw [show spell [.colon, .colon, .ident name] ++ rest =
      ':' :: (spell [.colon, .ident name] ++ rest) from rfl, lex_colon,
    (reads_keyword h).lex_spell rest hrest]
  rfl

/-- An id is read back. -/
theorem reads_hash {name : String} (h : IsName name) : Reads [.hash name true] := by
  refine ⟨nofun, fun rest hrest => ?_⟩
  rw [show spell [.hash name true] ++ rest = '#' :: (escaped name.toList ++ rest) by
    simp [spell, Token.spelling], lex_hash h hrest]
  rfl

/-- A class is read back. -/
theorem reads_className {name : String} (h : IsName name) : Reads [.delim '.', .ident name] := by
  refine ⟨nofun, fun rest hrest => ?_⟩
  obtain ⟨text, htext, -⟩ := h.exists_escape rest
  have hpoint : startsNumber ('.' :: (escaped name.toList ++ rest)) = false := by
    rw [htext]
    rfl
  rw [show spell [.delim '.', .ident name] ++ rest = '.' :: (escaped name.toList ++ rest) by
    simp [spell, Token.spelling, Token.text], lex_point hpoint, lex_ident h hrest]
  rfl

end Lexer

/-! ### Any text, whatever stands after it -/

open Lexer

/-- What is written is read as the text: by itself and after a number sign in front of everything
    that a name could end at, in quotes in front of anything. -/
structure ReadsBack (text : String) (written : List Char) : Prop where
  ident : text ≠ "" → ∀ rest : String, EndsName rest.toList →
    tokenize (String.ofList written ++ rest) = .ident text :: tokenize rest
  hash : text ≠ "" → ∀ rest : String, EndsName rest.toList →
    tokenize ("#" ++ String.ofList written ++ rest) = .hash text true :: tokenize rest
  string : ∀ rest : String,
    tokenize ("\"" ++ String.ofList written ++ "\"" ++ rest) = .string text :: tokenize rest

/-- Every writing of a text is read back in all three places. -/
theorem ReadsBack.of_escapes {text : String} {written : List Char} (h : NulFree text.toList)
    (hwritten : Escapes text.toList written) : ReadsBack text written where
  ident hne rest hrest := by
    have hlex := lex_of_escapes ⟨hne, h⟩ hwritten hrest
    rwa [tokenize, String.toList_append, String.toList_ofList]
  hash hne rest hrest := by
    have hlex := lex_hash_of_escapes ⟨hne, h⟩ hwritten hrest
    have htext : ("#" ++ String.ofList written ++ rest).toList = '#' :: (written ++ rest.toList) := by
      simp
    rwa [tokenize, htext]
  string rest := by
    have hlex := lex_string_of_escapes h hwritten rest.toList
    have htext : ("\"" ++ String.ofList written ++ "\"" ++ rest).toList =
        '"' :: (written ++ '"' :: rest.toList) := by
      simp
    rwa [tokenize, htext]

/-- Every text without U+0000 can be written in escapes, and is read back from each of its writings:
    whatever the case of the hexadecimal letters and however many zeros stand in front. -/
theorem escaped_reads_back (text : String) (h : NulFree text.toList) :
    Escapes text.toList (escaped text.toList) ∧
      ∀ written, Escapes text.toList written → ReadsBack text written :=
  ⟨escapes_escaped text.toList, fun _ hwritten => ReadsBack.of_escapes h hwritten⟩

/-- A digit, a hyphen, a quote and an end of line, in front of a digit. -/
theorem escaped_reads_back_digits :
    tokenize ("\\31 \\02D \\000022 \\A " ++ ".1") = .ident "1-\"\n" :: tokenize ".1" := by
  have hwritten : Escapes ['1', '-', '"', '\n'] "\\31 \\02D \\000022 \\A ".toList :=
    @Escapes.cons _ ['3', '1'] _ _ (by decide) <|
      @Escapes.cons _ ['0', '2', 'D'] _ _ (by decide) <|
        @Escapes.cons _ ['0', '0', '0', '0', '2', '2'] _ _ (by decide) <|
          @Escapes.cons _ ['A'] _ _ (by decide) .nil
  have hends : EndsName ['.', '1'] := endsName_cons (by decide) _
  exact ((escaped_reads_back "1-\"\n" (by decide)).2 _ hwritten).ident (by decide) ".1" hends

end Selectors
