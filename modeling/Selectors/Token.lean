import Selectors.Text

/-!
# Tokens — the pieces of selector text and the lexer that cuts them

A selector is read as a list of tokens. Numbers keep their text: nothing in a selector needs
their value except the argument of a positional pseudo-class, and that is put together again from
the text of its tokens.

`tokenize` cuts a text into tokens and drops its comments. It works on the list of characters:
each reader takes what it recognises from the front and returns the rest, and the rest of a whole
token is shorter than what the token was read from, which is why the loop ends.

A token is decided by what it starts with. A blank, a quote, a number sign or a bracket says at
once what follows; otherwise a number is read if the text starts one, else a name if it starts
one, else the character stands for itself.

* **`startsName`**, **`startsNumber`** — at most three characters decide.
* **`takeEscape`**, **`takeName`**, **`takeString`**, **`takeNumber`** — the readers.
* **`lex`** — the loop, with **`lex_nil`** and **`lex_cons`** as its equations.
* **`length_lex_le`** — there are no more tokens than characters.
-/

namespace Selectors

/-! ## Tokens -/

/-- A piece of selector text. -/
inductive Token where
  /-- A name. -/
  | ident (name : String)
  /-- A name directly followed by an opening parenthesis. -/
  | function (name : String)
  /-- A name after a number sign; `isId` tells whether it may name an element. -/
  | hash (name : String) (isId : Bool)
  /-- The content of a quoted string. -/
  | string (content : String)
  /-- A quoted string broken off by the end of its line. -/
  | badString
  /-- A number, as written. -/
  | number (digits : String)
  /-- A number followed by a percent sign. -/
  | percentage (digits : String)
  /-- A number directly followed by a name. -/
  | dimension (digits unit : String)
  /-- A run of blanks. -/
  | blank
  | colon
  | comma
  | leftBracket
  | rightBracket
  | leftParen
  | rightParen
  /-- Any other character. -/
  | delim (c : Char)
deriving DecidableEq, Inhabited, Repr

namespace Token

/-- The text of a token: as it was written, up to escapes, quotes and the length of a run of
    blanks. -/
def text : Token → String
  | ident name => name
  | function name => name ++ "("
  | hash name _ => "#" ++ name
  | string content => "\"" ++ content ++ "\""
  | badString => "<bad-string>"
  | number digits => digits
  | percentage digits => digits ++ "%"
  | dimension digits unit => digits ++ unit
  | blank => " "
  | colon => ":"
  | comma => ","
  | leftBracket => "["
  | rightBracket => "]"
  | leftParen => "("
  | rightParen => ")"
  | delim c => String.singleton c

end Token

/-! ## The lexer -/

namespace Lexer

/-! ## Classes of characters -/

/-- Whether a name may start with `c`: an ASCII letter, a low line or any character beyond
    ASCII. -/
def isNameStart (c : Char) : Bool :=
  c.isAlpha || c == '_' || 0x80 ≤ c.val

/-- Whether a name may go on with `c`. -/
def isNameChar (c : Char) : Bool :=
  isNameStart c || c.isDigit || c == '-'

/-- Whether `c` is a hexadecimal digit. -/
def isHexDigit (c : Char) : Bool :=
  c.isDigit || ('a' ≤ c && c ≤ 'f') || ('A' ≤ c && c ≤ 'F')

/-- The value of a hexadecimal digit. -/
def hexDigitValue (c : Char) : Nat :=
  if c.isDigit then c.toNat - '0'.toNat else c.toLower.toNat - 'a'.toNat + 10

/-! ## What a text starts with -/

/-- Whether the text starts with an escape: a backslash that does not end its line. -/
def startsEscape : List Char → Bool
  | '\\' :: '\n' :: _ => false
  | '\\' :: _ => true
  | _ => false

/-- Whether the text starts with a name. -/
def startsName : List Char → Bool
  | '-' :: c :: text => isNameStart c || c == '-' || startsEscape (c :: text)
  | c :: text => isNameStart c || startsEscape (c :: text)
  | [] => false

/-- Whether the text starts with a number without a sign. -/
def startsUnsigned : List Char → Bool
  | '.' :: c :: _ => c.isDigit
  | c :: _ => c.isDigit
  | [] => false

/-- Whether the text starts with a number. -/
def startsNumber : List Char → Bool
  | '+' :: text => startsUnsigned text
  | '-' :: text => startsUnsigned text
  | text => startsUnsigned text

/-! ## Comments -/

/-- The text after the end of a comment. -/
def afterComment : List Char → List Char
  | '*' :: '/' :: text => text
  | _ :: text => afterComment text
  | [] => []

/-- What follows a comment is no longer than the text. -/
theorem length_afterComment_le (text : List Char) :
    (afterComment text).length ≤ text.length := by
  fun_induction afterComment text with
  | case1 text => exact Nat.le_add_right _ 2
  | case2 c text _ ih => exact Nat.le_succ_of_le ih
  | case3 => exact Nat.le_refl _

/-- The text after any comments that it starts with. -/
def skipComments : List Char → List Char
  | '/' :: '*' :: text => skipComments (afterComment text)
  | text => text
termination_by text => text.length
decreasing_by
  have := length_afterComment_le text
  simp only [List.length_cons]
  omega

/-- What follows comments is no longer than the text. -/
theorem length_skipComments_le (text : List Char) :
    (skipComments text).length ≤ text.length := by
  fun_induction skipComments text with
  | case1 text ih =>
    have := length_afterComment_le text
    simp only [List.length_cons]
    omega
  | case2 => exact Nat.le_refl _

/-! ## Escapes, names and strings -/

/-- The character of a number, or the replacement character if the number is zero or names
    none. -/
def charOfNumber (n : Nat) : Char :=
  if n ≠ 0 ∧ n.isValidChar then Char.ofNat n else '\uFFFD'

/-- The value of hexadecimal digits, the first one weighing most. -/
def hexValue (digits : List Char) : Nat :=
  digits.foldl (fun value c => 16 * value + hexDigitValue c) 0

/-- The text without the blank that it may start with. -/
def skipBlank : List Char → List Char
  | c :: text => if isBlank c then text else c :: text
  | [] => []

/-- The character that an escape stands for, read after the backslash: up to six hexadecimal
    digits and a blank after them, or any other character. At the end of the text it is the
    replacement character. -/
def takeEscape : List Char → Char × List Char
  | [] => ('\uFFFD', [])
  | c :: text =>
    if isHexDigit c then
      -- `c` is the first digit, so at most five more belong to the number
      let digits := (text.take 5).takeWhile isHexDigit
      (charOfNumber (hexValue (c :: digits)), skipBlank (text.drop digits.length))
    else (c, text)

/-- At most one blank is skipped. -/
theorem length_skipBlank_le (text : List Char) : (skipBlank text).length ≤ text.length := by
  fun_cases skipBlank text with
  | case1 c text _ => exact Nat.le_succ _
  | case2 c text _ => exact Nat.le_refl _
  | case3 => exact Nat.le_refl _

/-- What follows an escape is no longer than what follows its backslash. -/
theorem length_takeEscape_le (text : List Char) :
    (takeEscape text).2.length ≤ text.length := by
  fun_cases takeEscape text with
  | case1 => exact Nat.le_refl _
  | case2 c text _ digits =>
    have hdigits : (text.drop digits.length).length ≤ text.length := by
      rw [List.length_drop]
      exact Nat.sub_le _ _
    exact Nat.le_succ_of_le (Nat.le_trans (length_skipBlank_le _) hdigits)
  | case3 c text _ => exact Nat.le_succ _

/-- The longest name at the start of the text, its escapes replaced. -/
def takeName : List Char → List Char × List Char
  | [] => ([], [])
  | c :: text =>
    if isNameChar c then
      let (name, rest) := takeName text
      (c :: name, rest)
    else if startsEscape (c :: text) then
      let (name, rest) := takeName (takeEscape text).2
      ((takeEscape text).1 :: name, rest)
    else ([], c :: text)
termination_by text => text.length
decreasing_by
  · exact Nat.lt_succ_self _
  · have := length_takeEscape_le text
    simp only [List.length_cons]
    omega

/-- What follows a name is no longer than the text. -/
theorem length_takeName_le (text : List Char) : (takeName text).2.length ≤ text.length := by
  fun_induction takeName text with
  | case1 => exact Nat.le_refl _
  | case2 c text _ name rest hname ih =>
    rw [hname] at ih
    exact Nat.le_succ_of_le ih
  | case3 c text _ _ name rest hname ih =>
    rw [hname] at ih
    exact Nat.le_succ_of_le (Nat.le_trans ih (length_takeEscape_le text))
  | case4 c text _ _ => exact Nat.le_refl _

/-- The content of a string up to its quote or the end of the text, its escapes replaced; `none`
    if the line ends first. An escaped end of line is left out. -/
def takeString (quote : Char) : List Char → Option (List Char) × List Char
  | [] => (some [], [])
  | c :: text =>
    if c == quote then (some [], text)
    else if c == '\n' then (none, c :: text)
    else if c == '\\' then
      match text with
      -- a backslash at the end of the text stands for nothing here
      | [] => (some [], [])
      | '\n' :: text => takeString quote text
      | d :: text =>
        let (content, rest) := takeString quote (takeEscape (d :: text)).2
        (content.map ((takeEscape (d :: text)).1 :: ·), rest)
    else
      let (content, rest) := takeString quote text
      (content.map (c :: ·), rest)
termination_by text => text.length
decreasing_by
  · simp only [List.length_cons]
    omega
  · have := length_takeEscape_le (d :: text)
    simp only [List.length_cons] at this ⊢
    omega
  · exact Nat.lt_succ_self _

/-- What follows a string is no longer than the text. -/
theorem length_takeString_le (quote : Char) (text : List Char) :
    (takeString quote text).2.length ≤ text.length := by
  fun_induction takeString quote text with
  | case1 => exact Nat.le_refl _
  | case2 c text _ => exact Nat.le_succ _
  | case3 c text _ _ => exact Nat.le_refl _
  | case4 c _ _ _ => exact Nat.zero_le _
  | case5 c _ _ _ text ih => exact Nat.le_trans ih (Nat.le_add_right _ 2)
  | case6 c _ _ _ d text _ content rest hstring ih =>
    rw [hstring] at ih
    exact Nat.le_succ_of_le (Nat.le_trans ih (length_takeEscape_le (d :: text)))
  | case7 c text _ _ _ content rest hstring ih =>
    rw [hstring] at ih
    exact Nat.le_succ_of_le ih

/-! ## Numbers -/

/-- The sign that the text may start with. -/
def takeSign : List Char → List Char × List Char
  | '+' :: text => (['+'], text)
  | '-' :: text => (['-'], text)
  | text => ([], text)

/-- The digits that the text starts with. -/
def takeDigits (text : List Char) : List Char × List Char :=
  (text.takeWhile Char.isDigit, text.dropWhile Char.isDigit)

/-- The point that the text may start with and the digits after it, of which there has to be
    one. -/
def takeFraction : List Char → List Char × List Char
  | '.' :: c :: text =>
    if c.isDigit then
      let (digits, rest) := takeDigits (c :: text)
      ('.' :: digits, rest)
    else ([], '.' :: c :: text)
  | text => ([], text)

/-- The exponent that the text may start with: the letter, a sign that may be there, and digits,
    of which there has to be one. -/
def takeExponent : List Char → List Char × List Char
  | e :: text =>
    if e == 'e' || e == 'E' then
      let (sign, unsigned) := takeSign text
      let (digits, rest) := takeDigits unsigned
      if digits.isEmpty then ([], e :: text) else (e :: sign ++ digits, rest)
    else ([], e :: text)
  | [] => ([], [])

/-- The longest number at the start of the text, as written. -/
def takeNumber (text : List Char) : List Char × List Char :=
  let (sign, unsigned) := takeSign text
  let (digits, afterDigits) := takeDigits unsigned
  let (fraction, afterFraction) := takeFraction afterDigits
  let (exponent, rest) := takeExponent afterFraction
  (sign ++ digits ++ fraction ++ exponent, rest)

/-- The sign and what follows it make up the text. -/
theorem takeSign_append (text : List Char) : (takeSign text).1 ++ (takeSign text).2 = text := by
  unfold takeSign
  split <;> rfl

/-- The digits and what follows them make up the text. -/
theorem takeDigits_append (text : List Char) :
    (takeDigits text).1 ++ (takeDigits text).2 = text :=
  List.takeWhile_append_dropWhile

/-- The fraction and what follows it make up the text. -/
theorem takeFraction_append (text : List Char) :
    (takeFraction text).1 ++ (takeFraction text).2 = text := by
  unfold takeFraction
  split
  · split
    · simp [takeDigits_append]
    · rfl
  · rfl

/-- The exponent and what follows it make up the text. -/
theorem takeExponent_append (text : List Char) :
    (takeExponent text).1 ++ (takeExponent text).2 = text := by
  unfold takeExponent
  split
  · split
    · dsimp only
      split
      · rfl
      · simp [takeDigits_append, takeSign_append]
    · rfl
  · rfl

/-- A number and the text after it make up the whole text. -/
theorem takeNumber_append (text : List Char) :
    (takeNumber text).1 ++ (takeNumber text).2 = text := by
  simp only [takeNumber, List.append_assoc, takeExponent_append, takeFraction_append,
    takeDigits_append, takeSign_append]

/-- A text that starts with a digit has one. -/
theorem takeDigits_ne_nil {c : Char} {text : List Char} (h : c.isDigit = true) :
    (takeDigits (c :: text)).1 ≠ [] := by
  simp [takeDigits, h]

/-- A text that starts a number has one. -/
theorem takeNumber_ne_nil {text : List Char} (h : startsNumber text = true) :
    (takeNumber text).1 ≠ [] := by
  unfold startsNumber at h
  split at h
  -- a sign is part of what is taken
  · simp [takeNumber, takeSign]
  · simp [takeNumber, takeSign]
  -- without one, the digits or the fraction are not empty
  · next plus minus =>
    have unsigned : takeSign text = ([], text) := by
      unfold takeSign
      split <;> simp_all
    unfold startsUnsigned at h
    split at h
    · next c rest =>
      have digits : takeDigits ('.' :: c :: rest) = ([], '.' :: c :: rest) := by
        simp [takeDigits]
      simp [takeNumber, unsigned, digits, takeFraction, h]
    · next c rest _ =>
      simp [takeNumber, unsigned, takeDigits_ne_nil h]
    · simp at h

/-! ## One token -/

/-- The name that the text starts with, a function if a parenthesis follows. -/
def readName (text : List Char) : Token × List Char :=
  match takeName text with
  | (name, '(' :: rest) => (.function (String.ofList name), rest)
  | (name, rest) => (.ident (String.ofList name), rest)

/-- The number that the text starts with, with a unit or a percent sign if either follows. -/
def readNumber (text : List Char) : Token × List Char :=
  let (digits, rest) := takeNumber text
  if startsName rest then
    let (unit, rest) := takeName rest
    (.dimension (String.ofList digits) (String.ofList unit), rest)
  else
    match rest with
    | '%' :: rest => (.percentage (String.ofList digits), rest)
    | rest => (.number (String.ofList digits), rest)

/-- The token that a number sign starts, read after the sign. -/
def readHash (text : List Char) : Token × List Char :=
  match text with
  | c :: _ =>
    if isNameChar c || startsEscape text then
      let (name, rest) := takeName text
      (.hash (String.ofList name) (startsName text), rest)
    else (.delim '#', text)
  | [] => (.delim '#', [])

/-- The token that a quote starts, read after the quote. -/
def readString (quote : Char) (text : List Char) : Token × List Char :=
  match takeString quote text with
  | (some content, rest) => (.string (String.ofList content), rest)
  | (none, rest) => (.badString, rest)

/-- The token that starts with `c`, and the text after it. -/
def read (c : Char) (text : List Char) : Token × List Char :=
  if isBlank c then (.blank, text.dropWhile isBlank)
  else
    match c with
    | '"' => readString '"' text
    | '\'' => readString '\'' text
    | '#' => readHash text
    | '(' => (.leftParen, text)
    | ')' => (.rightParen, text)
    | '[' => (.leftBracket, text)
    | ']' => (.rightBracket, text)
    | ',' => (.comma, text)
    | ':' => (.colon, text)
    | c =>
      -- signs and points start numbers and hyphens start names: numbers come first
      if startsNumber (c :: text) then readNumber (c :: text)
      else if startsName (c :: text) then readName (c :: text)
      else (.delim c, text)

/-! ## The rest is shorter -/

/-- A number uses up a character. -/
theorem length_takeNumber_lt {text : List Char} (h : startsNumber text = true) :
    (takeNumber text).2.length < text.length := by
  have hwhole := congrArg List.length (takeNumber_append text)
  have htaken := List.length_pos_iff.2 (takeNumber_ne_nil h)
  rw [List.length_append] at hwhole
  omega

/-- A text that starts a name starts with a character of it or with an escape. -/
theorem isNameChar_or_startsEscape {c : Char} {text : List Char}
    (h : startsName (c :: text) = true) :
    isNameChar c = true ∨ startsEscape (c :: text) = true := by
  by_cases hhyphen : c = '-'
  · rw [hhyphen]
    exact Or.inl rfl
  · rw [startsName] at h
    · refine (Bool.or_eq_true_iff.1 h).imp_left fun hstart => ?_
      rw [isNameChar, hstart]
      rfl
    · exact fun _ _ hc _ => hhyphen hc

/-- A name uses up a character. -/
theorem length_takeName_lt {text : List Char} (h : startsName text = true) :
    (takeName text).2.length < text.length := by
  cases text with
  | nil => exact nomatch h
  | cons c text =>
    have hname := length_takeName_le text
    have hescape := length_takeEscape_le text
    have hafterEscape := length_takeName_le (takeEscape text).2
    rw [takeName]
    split
    · exact Nat.lt_succ_of_le hname
    · next hplain =>
      rw [if_pos ((isNameChar_or_startsEscape h).resolve_left hplain)]
      exact Nat.lt_succ_of_le (Nat.le_trans hafterEscape hescape)

/-- The token of a name uses up a character. -/
theorem length_readName_lt {text : List Char} (h : startsName text = true) :
    (readName text).2.length < text.length := by
  have hname := length_takeName_lt h
  fun_cases readName text with
  | case1 name rest heq =>
    rw [heq] at hname
    exact Nat.lt_of_succ_lt hname
  | case2 name rest _ heq =>
    rw [heq] at hname
    exact hname

/-- The token of a number uses up a character. -/
theorem length_readNumber_lt {text : List Char} (h : startsNumber text = true) :
    (readNumber text).2.length < text.length := by
  have hdigits := length_takeNumber_lt h
  have hunit := length_takeName_le (takeNumber text).2
  rw [readNumber]
  dsimp only
  split
  · exact Nat.lt_of_le_of_lt hunit hdigits
  · split
    · next after hpercent =>
      rw [hpercent] at hdigits
      exact Nat.lt_of_succ_lt hdigits
    · exact hdigits

/-- What follows a hash is no longer than what follows its number sign. -/
theorem length_readHash_le (text : List Char) : (readHash text).2.length ≤ text.length := by
  cases text with
  | nil => exact Nat.le_refl _
  | cons c text =>
    rw [readHash]
    split
    · exact length_takeName_le (c :: text)
    · exact Nat.le_refl _

/-- What follows the token of a string is no longer than what follows its first quote. -/
theorem length_readString_le (quote : Char) (text : List Char) :
    (readString quote text).2.length ≤ text.length := by
  have hstring := length_takeString_le quote text
  fun_cases readString quote text with
  | case1 content rest heq =>
    rw [heq] at hstring
    exact hstring
  | case2 rest heq =>
    rw [heq] at hstring
    exact hstring

/-- What is left after a token is no longer than what followed its first character. -/
theorem length_read_le (c : Char) (text : List Char) :
    (read c text).2.length ≤ text.length := by
  fun_cases read c text with
  | case1 c _ => exact (List.dropWhile_sublist isBlank).length_le
  | case2 => exact length_readString_le _ _
  | case3 => exact length_readString_le _ _
  | case4 => exact length_readHash_le _
  | case5 | case6 | case7 | case8 | case9 | case10 => exact Nat.le_refl _
  | case11 c _ _ _ _ _ _ _ _ _ hnumber _ => exact Nat.le_of_lt_succ (length_readNumber_lt hnumber)
  | case12 c _ _ _ _ _ _ _ _ _ _ hname _ => exact Nat.le_of_lt_succ (length_readName_lt hname)
  | case13 => exact Nat.le_refl _

/-! ## The loop -/

/-- The tokens of a text. -/
def lex (text : List Char) : List Token :=
  match _start : skipComments text with
  | [] => []
  | c :: rest => (read c rest).1 :: lex (read c rest).2
termination_by text.length
decreasing_by
  have skipped := length_skipComments_le text
  have taken := length_read_le c rest
  simp only [_start, List.length_cons] at skipped
  omega

/-- Where only comments are left there is no token. -/
theorem lex_nil {text : List Char} (h : skipComments text = []) : lex text = [] := by
  rw [lex]
  split <;> simp_all

/-- The first token starts after the comments, and the others follow it. -/
theorem lex_cons {text rest : List Char} {c : Char} (h : skipComments text = c :: rest) :
    lex text = (read c rest).1 :: lex (read c rest).2 := by
  rw [lex]
  split <;> simp_all

/-- Every token takes a character of its own. -/
theorem length_lex_le (text : List Char) : (lex text).length ≤ text.length := by
  fun_induction lex text with
  | case1 => exact Nat.zero_le _
  | case2 text c rest start tail =>
    have skipped := length_skipComments_le text
    have taken := length_read_le c rest
    simp only [start, List.length_cons] at skipped ⊢
    omega

end Lexer

/-- The tokens of a selector text. -/
def tokenize (text : String) : List Token :=
  Lexer.lex text.toList

end Selectors
