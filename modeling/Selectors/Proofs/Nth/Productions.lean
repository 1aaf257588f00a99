import Selectors.Proofs.Nth.Spellings
import Selectors.Proofs.RoundTrip.Joining
import Selectors.Proofs.RoundTrip.Reread

/-!
# Productions — An+B as a grammar of tokens

The grammar of An+B is about tokens, and it has many rules because a hyphen goes on with a name: the
sign of the offset, and even its digits, may be part of the token that ends the term. Here a rule for
the term says which characters follow the letter within its token, and a rule for the rest says which
tokens make an offset of them.

The lexer cuts each spelling in the way of one production, and what it cuts has a text that is a
spelling of the same positions. So the reader, which reads that text, comes to these positions.

* **`Nth.Production`** and **`Nth.Argument`** — the grammar, without and with blanks around.
* **`Nth.lex_spelling`** — a spelling is lexed to a production.
* **`Nth.parse_spelled`** — a spelling is read as what it spells, alone and in a selector.
-/

namespace Selectors

open Grammar

namespace Nth

/-! ## The grammar -/

/-- The tokens are a term of some steps, and end with some characters after the letter. -/
inductive Term : List Token → Int → List Char → Prop where
  | dimension {number unit : String} {step : Int} {letter : Char} {tail : List Char} :
      SpellsInteger number.toList step → letter = 'n' ∨ letter = 'N' →
      unit.toList = letter :: tail → Term [.dimension number unit] step tail
  | bare {name : String} {letter : Char} {tail : List Char} :
      letter = 'n' ∨ letter = 'N' → name.toList = letter :: tail → Term [.ident name] 1 tail
  | plus {name : String} {letter : Char} {tail : List Char} :
      letter = 'n' ∨ letter = 'N' → name.toList = letter :: tail →
      Term [.delim '+', .ident name] 1 tail
  | minus {name : String} {letter : Char} {tail : List Char} :
      letter = 'n' ∨ letter = 'N' → name.toList = '-' :: letter :: tail →
      Term [.ident name] (-1) tail

/-- The characters and the tokens after them tell an offset; blanks stand around the sign only. -/
inductive Rest : List Char → List Token → Int → Prop where
  | none : Rest [] [] 0
  | joined {digits : List Char} :
      IsDigits digits → Rest ('-' :: digits) [] (signedValue ['-'] (digitsValue digits))
  | hyphen {gap : List Token} {number : String} :
      Blanks gap → IsDigits number.toList →
      Rest ['-'] (gap ++ [.number number]) (signedValue ['-'] (digitsValue number.toList))
  | signed {gap : List Token} {number : String} {sign : Char} {digits : List Char} :
      Blanks gap → sign = '+' ∨ sign = '-' → IsDigits digits → number.toList = sign :: digits →
      Rest [] (gap ++ [.number number]) (signedValue [sign] (digitsValue digits))
  | divided {front back : List Token} {sign : Char} {number : String} :
      Blanks front → sign = '+' ∨ sign = '-' → Blanks back → IsDigits number.toList →
      Rest [] (front ++ .delim sign :: (back ++ [.number number]))
        (signedValue [sign] (digitsValue number.toList))

/-- The tokens are a production of An+B, with its steps and its offset. -/
inductive Production : List Token → Int → Int → Prop where
  | odd {name : String} : name.toLower = "odd" → Production [.ident name] 2 1
  | even {name : String} : name.toLower = "even" → Production [.ident name] 2 0
  | integer {number : String} {offset : Int} :
      SpellsInteger number.toList offset → Production [.number number] 0 offset
  | term {front back : List Token} {step offset : Int} {tail : List Char} :
      Term front step tail → Rest tail back offset → Production (front ++ back) step offset

/-- The tokens are a production with blanks around it. -/
def Argument (tokens : List Token) (step offset : Int) : Prop :=
  ∃ front production back, tokens = front ++ production ++ back ∧
    Blanks front ∧ Production production step offset ∧ Blanks back

/-! ## Blanks and signs -/

/-- The tokens of a run of blanks. -/
def gapTokens (gap : List Char) : List Token :=
  if gap = [] then [] else [.blank]

private theorem blanks_gapTokens (gap : List Char) : Blanks (gapTokens gap) := by
  intro token htoken
  rw [gapTokens] at htoken
  split at htoken
  · exact nomatch htoken
  · exact List.mem_singleton.1 htoken

private theorem isBlank_of_mem_joined {tokens : List Token} (h : Blanks tokens) :
    ∀ c ∈ joined tokens, isBlank c = true := by
  intro c hc
  obtain ⟨token, htoken, hc⟩ := List.mem_flatMap.1 hc
  obtain rfl := h token htoken
  rw [List.mem_singleton.1 hc]
  rfl

/-- A run of blanks is one token. -/
theorem lex_gap {gap rest : List Char} (hgap : ∀ c ∈ gap, isBlank c = true)
    (hrest : ∀ c ∈ rest.head?, isBlank c = false) :
    Lexer.lex (gap ++ rest) = gapTokens gap ++ Lexer.lex rest := by
  cases gap with
  | nil => rfl
  | cons c gap =>
    exact Lexer.lex_blanks (hgap c List.mem_cons_self)
      (fun d hd => hgap d (List.mem_cons_of_mem _ hd)) hrest

/-- A sign in front of a blank stands for itself. -/
theorem lex_sign_blank {sign c : Char} (hsign : sign = '+' ∨ sign = '-') (hc : isBlank c = true)
    (rest : List Char) :
    Lexer.lex (sign :: c :: rest) = .delim sign :: Lexer.lex (c :: rest) := by
  have hblank := eq_of_isBlank hc
  rcases hsign with rfl | rfl
  · refine Lexer.lex_of_read (by decide) ?_
    rcases hblank with rfl | rfl | rfl | rfl | rfl <;> rfl
  · refine Lexer.lex_of_read (by decide) ?_
    rcases hblank with rfl | rfl | rfl | rfl | rfl <;> rfl

/-! ## Lexing -/

private theorem joined_number (number : List Char) :
    joined [.number (String.ofList number)] = number := by
  simp [joined, Token.text]

private theorem joined_delim (c : Char) (tokens : List Token) :
    joined (.delim c :: tokens) = c :: joined tokens := by
  simp [joined, Token.text]

private theorem joined_ident (name : List Char) : joined [.ident (String.ofList name)] = name := by
  simp [joined, Token.text]

private theorem isBlank_of_isDigit {c : Char} (h : c.isDigit = true) : isBlank c = false :=
  Bool.eq_false_iff.2 fun hblank =>
    Bool.noConfusion ((isSpace_of_isBlank hblank).symm.trans (isSpace_of_isDigit h))

private theorem not_isNameChar_of_isBlank {c : Char} (h : isBlank c = true) :
    Lexer.isNameChar c = false ∧ c ≠ '\\' ∧ c ≠ '(' := by
  rcases eq_of_isBlank h with rfl | rfl | rfl | rfl | rfl <;> decide

/-- What ends an argument ends a name. -/
theorem endsName_of_endsArgument {rest : List Char} (h : Lexer.EndsArgument rest) :
    Lexer.EndsName rest := by
  intro c hc
  rcases h c hc with hblank | rfl
  · exact not_isNameChar_of_isBlank hblank
  · decide

/-- A number after blanks, with its sign if it has one. -/
theorem lex_gap_number {gap sign digits rest : List Char} (hgap : ∀ c ∈ gap, isBlank c = true)
    (hsign : IsSign sign) (hdigits : IsDigits digits) (hrest : Lexer.EndsArgument rest) :
    Lexer.lex (gap ++ (sign ++ (digits ++ rest))) =
      gapTokens gap ++ .number (String.ofList (sign ++ digits)) :: Lexer.lex rest := by
  have hhead : ∀ c ∈ (sign ++ (digits ++ rest)).head?, isBlank c = false := by
    obtain ⟨d, others, rfl, hd⟩ := hdigits.exists_cons
    rcases hsign with rfl | rfl | rfl
    · rintro c ⟨⟩
      exact isBlank_of_isDigit hd
    · rintro c ⟨⟩
      rfl
    · rintro c ⟨⟩
      rfl
  rw [lex_gap hgap hhead, Lexer.lex_integer hsign hdigits hrest]

/-- Tokens after the letter: the characters that go on with the token of the letter, the text of the
    other tokens, and the tokens. -/
structure Cut (back : List Char) (offset : Int) (tail after : List Char) (tokens : List Token) :
    Prop where
  split : back = tail ++ after
  name : ∀ c ∈ tail, Lexer.isNameChar c = true
  rest : Rest tail tokens offset
  spells : SpellsOffset isBlank (tail ++ joined tokens) offset
  ends : ∀ rest, Lexer.EndsArgument rest → Lexer.EndsName (after ++ rest)
  lex : ∀ rest, Lexer.EndsArgument rest → Lexer.lex (after ++ rest) = tokens ++ Lexer.lex rest

/-- A hyphen and digits all go on with the token of the letter. -/
theorem cut_joined {digits : List Char} (h : IsDigits digits) :
    Cut ('-' :: digits) (signedValue ['-'] (digitsValue digits)) ('-' :: digits) [] [] where
  split := (List.append_nil _).symm
  name := by
    intro c hc
    rcases List.mem_cons.1 hc with rfl | hc
    · rfl
    · rw [Lexer.isNameChar, h.2 c hc, Bool.or_true, Bool.true_or]
  rest := Rest.joined h
  spells := by
    rw [show joined [] = [] from rfl, List.append_nil]
    exact @SpellsOffset.signed isBlank [] [] digits '-' (List.forall_mem_nil _) (Or.inr rfl)
      (List.forall_mem_nil _) h
  ends rest hrest := endsName_of_endsArgument hrest
  lex rest _ := rfl

/-- A hyphen goes on with the token of the letter, and the digits stand apart. -/
theorem cut_hyphen {gap digits : List Char} (hgap : ∀ c ∈ gap, isBlank c = true) (hne : gap ≠ [])
    (h : IsDigits digits) :
    Cut ('-' :: (gap ++ digits)) (signedValue ['-'] (digitsValue digits)) ['-'] (gap ++ digits)
      (gapTokens gap ++ [.number (String.ofList digits)]) where
  split := rfl
  name c hc := by
    rw [List.mem_singleton.1 hc]
    rfl
  rest := by
    have hrest := @Rest.hyphen (gapTokens gap) (String.ofList digits) (blanks_gapTokens gap)
    rw [String.toList_ofList] at hrest
    exact hrest h
  spells := by
    rw [joined_append, joined_number]
    exact @SpellsOffset.signed isBlank [] _ digits '-' nofun (Or.inr rfl)
      (isBlank_of_mem_joined (blanks_gapTokens gap)) h
  ends rest _ := by
    obtain ⟨c, others, rfl⟩ := List.exists_cons_of_ne_nil hne
    rintro d ⟨⟩
    exact not_isNameChar_of_isBlank (hgap _ List.mem_cons_self)
  lex rest hrest := by
    have hlex := @lex_gap_number gap [] digits rest hgap (Or.inl rfl) h hrest
    rw [List.append_assoc, List.append_assoc]
    exact hlex

/-- A plus sign or a blank ends a name. -/
theorem endsName_front {front : List Char} {sign : Char} (hfront : ∀ c ∈ front, isBlank c = true)
    (hends : front ≠ [] ∨ sign = '+') (text : List Char) :
    Lexer.EndsName (front ++ sign :: text) := by
  cases front with
  | nil =>
    obtain rfl := hends.resolve_left (fun hne => hne rfl)
    rintro c ⟨⟩
    decide
  | cons d front =>
    rintro c ⟨⟩
    exact not_isNameChar_of_isBlank (hfront _ List.mem_cons_self)

private theorem isSign_singleton {sign : Char} (h : sign = '+' ∨ sign = '-') : IsSign [sign] := by
  rcases h with rfl | rfl
  · exact Or.inr (Or.inl rfl)
  · exact Or.inr (Or.inr rfl)

/-- A sign and digits are a token of their own. -/
theorem cut_signed {front digits : List Char} {sign : Char} (hfront : ∀ c ∈ front, isBlank c = true)
    (hends : front ≠ [] ∨ sign = '+') (hsign : sign = '+' ∨ sign = '-') (h : IsDigits digits) :
    Cut (front ++ sign :: digits) (signedValue [sign] (digitsValue digits)) []
      (front ++ sign :: digits) (gapTokens front ++ [.number (String.ofList (sign :: digits))]) where
  split := rfl
  name := nofun
  rest := Rest.signed (blanks_gapTokens front) hsign h (String.toList_ofList)
  spells := by
    rw [joined_append, joined_number]
    exact @SpellsOffset.signed isBlank _ [] digits sign
      (isBlank_of_mem_joined (blanks_gapTokens front)) hsign nofun h
  ends rest _ := by
    rw [List.append_assoc]
    exact endsName_front hfront hends _
  lex rest hrest := by
    have hlex := lex_gap_number hfront (isSign_singleton hsign) h hrest
    rw [List.append_assoc, List.append_assoc]
    exact hlex

/-- A sign and the digits are tokens of their own, with blanks between. -/
theorem cut_divided {front back digits : List Char} {sign : Char}
    (hfront : ∀ c ∈ front, isBlank c = true) (hends : front ≠ [] ∨ sign = '+')
    (hsign : sign = '+' ∨ sign = '-') (hback : ∀ c ∈ back, isBlank c = true) (hne : back ≠ [])
    (h : IsDigits digits) :
    Cut (front ++ sign :: (back ++ digits)) (signedValue [sign] (digitsValue digits)) []
      (front ++ sign :: (back ++ digits))
      (gapTokens front ++ .delim sign :: (gapTokens back ++ [.number (String.ofList digits)])) where
  split := rfl
  name := nofun
  rest := by
    have hrest := @Rest.divided (gapTokens front) (gapTokens back) sign (String.ofList digits)
      (blanks_gapTokens front) hsign (blanks_gapTokens back)
    rw [String.toList_ofList] at hrest
    exact hrest h
  spells := by
    rw [joined_append, joined_delim, joined_append, joined_number]
    exact SpellsOffset.signed (isBlank_of_mem_joined (blanks_gapTokens front)) hsign
      (isBlank_of_mem_joined (blanks_gapTokens back)) h
  ends rest _ := by
    rw [List.append_assoc]
    exact endsName_front hfront hends _
  lex rest hrest := by
    -- blanks on both sides keep the sign from the name before it and from the digits after it
    have hnumber := @lex_gap_number back [] digits rest hback (Or.inl rfl) h hrest
    have hhead : ∀ c ∈ (sign :: (back ++ (digits ++ rest))).head?, isBlank c = false := by
      rintro c ⟨⟩
      rcases hsign with rfl | rfl <;> rfl
    obtain ⟨c, others, rfl⟩ := List.exists_cons_of_ne_nil hne
    have hcut := lex_sign_blank hsign (hback c List.mem_cons_self) (others ++ (digits ++ rest))
    rw [List.append_assoc, List.cons_append, List.append_assoc, lex_gap hfront hhead]
    show gapTokens front ++ Lexer.lex (sign :: c :: (others ++ (digits ++ rest))) = _
    rw [hcut]
    rw [List.nil_append, List.nil_append, List.cons_append] at hnumber
    rw [hnumber]
    simp only [List.append_assoc, List.cons_append, List.nil_append]

/-- What stands after the letter is cut in one of five ways. -/
theorem exists_cut {back : List Char} {offset : Int} (h : SpellsOffset isBlank back offset) :
    ∃ tail after tokens, Cut back offset tail after tokens := by
  cases h with
  | none =>
    exact ⟨[], [], [], rfl, nofun, Rest.none, SpellsOffset.none,
      fun rest hrest => endsName_of_endsArgument hrest, fun _ _ => rfl⟩
  | @signed front back digits sign hfront hsign hback hdigits =>
    by_cases hends : front ≠ [] ∨ sign = '+'
    · by_cases hne : back = []
      · subst hne
        exact ⟨_, _, _, cut_signed hfront hends hsign hdigits⟩
      · exact ⟨_, _, _, cut_divided hfront hends hsign hback hne hdigits⟩
    · -- a hyphen directly after the letter goes on with its token
      obtain ⟨hnil, hplus⟩ := not_or.1 hends
      obtain rfl := Classical.not_not.1 hnil
      obtain rfl := hsign.resolve_left hplus
      by_cases hne : back = []
      · subst hne
        exact ⟨_, _, _, cut_joined hdigits⟩
      · exact ⟨_, _, _, cut_hyphen hback hne hdigits⟩

section Letter

variable {letter : Char} {tail rest : List Char} (hletter : letter = 'n' ∨ letter = 'N')
  (htail : ∀ c ∈ tail, Lexer.isNameChar c = true)

include hletter htail

private theorem isNameChar_letter : ∀ c ∈ letter :: tail, Lexer.isNameChar c = true := by
  intro c hc
  rcases List.mem_cons.1 hc with rfl | hc
  · rcases hletter with rfl | rfl <;> rfl
  · exact htail c hc

/-- The letter and what goes on with it are a name. -/
theorem lex_letter (hrest : Lexer.EndsName rest) :
    Lexer.lex (letter :: (tail ++ rest)) =
      .ident (String.ofList (letter :: tail)) :: Lexer.lex rest := by
  have hkeyword : Lexer.isKeyword (String.ofList (letter :: tail)) = true := by
    rw [Lexer.isKeyword, String.toList_ofList, List.all_eq_true.2 (isNameChar_letter hletter htail)]
    rcases hletter with rfl | rfl <;> rfl
  have hlex := Lexer.lex_keyword hkeyword hrest
  rw [String.toList_ofList] at hlex
  exact hlex

/-- A hyphen in front of the letter starts its name. -/
theorem lex_hyphen_letter (hrest : Lexer.EndsName rest) :
    Lexer.lex ('-' :: letter :: (tail ++ rest)) =
      .ident (String.ofList ('-' :: letter :: tail)) :: Lexer.lex rest := by
  have hname : ∀ c ∈ '-' :: letter :: tail, Lexer.isNameChar c = true := by
    intro c hc
    rcases List.mem_cons.1 hc with rfl | hc
    · rfl
    · exact isNameChar_letter hletter htail c hc
  have htake : Lexer.takeName ('-' :: letter :: (tail ++ rest)) = ('-' :: letter :: tail, rest) :=
    Lexer.takeName_plain hname fun c hc => ⟨(hrest c hc).1, (hrest c hc).2.1⟩
  have hread : Lexer.readName ('-' :: letter :: (tail ++ rest)) =
      (.ident (String.ofList ('-' :: letter :: tail)), rest) :=
    Lexer.readName_ident (by rw [htake, String.toList_ofList]) hrest
  refine Lexer.lex_of_read (by decide) ?_
  rw [← hread]
  rcases hletter with rfl | rfl <;> rfl

/-- A term is cut into its tokens, and the tail belongs to the last of them. -/
theorem exists_lex_term {front : List Char} {step : Int} (hstep : SpellsStep front step) :
    ∃ tokens, Term tokens step tail ∧ joined tokens = front ++ letter :: tail ∧
      ∀ rest, Lexer.EndsName rest →
        Lexer.lex (front ++ letter :: (tail ++ rest)) = tokens ++ Lexer.lex rest := by
  have hname := @String.toList_ofList (letter :: tail)
  cases hstep with
  | single hsign =>
    -- no sign, `+` or `-`: a plus stays apart from the name, a minus belongs to it
    rcases hsign with rfl | rfl | rfl
    · exact ⟨[.ident (String.ofList (letter :: tail))], Term.bare hletter hname, joined_ident _,
        fun _ hrest => lex_letter hletter htail hrest⟩
    · refine ⟨[.delim '+', .ident (String.ofList (letter :: tail))], Term.plus hletter hname, ?_, ?_⟩
      · rw [joined_delim, joined_ident]
        rfl
      · intro rest hrest
        have hplus : Lexer.startsNumber ('+' :: letter :: (tail ++ rest)) = false := by
          rcases hletter with rfl | rfl <;> rfl
        exact (Lexer.lex_plus hplus).trans
          (congrArg (Token.delim '+' :: ·) (lex_letter hletter htail hrest))
    · exact ⟨[.ident (String.ofList ('-' :: letter :: tail))],
        Term.minus hletter String.toList_ofList, joined_ident _,
        fun _ hrest => lex_hyphen_letter hletter htail hrest⟩
  | integer hinteger =>
    obtain ⟨hsign, hdigits⟩ := hinteger
    next sign digits =>
    have hnumber : SpellsInteger (String.ofList (sign ++ digits)).toList
        (signedValue sign (digitsValue digits)) := by
      rw [String.toList_ofList]
      exact SpellsInteger.intro hsign hdigits
    refine ⟨[.dimension (String.ofList (sign ++ digits)) (String.ofList (letter :: tail))],
      Term.dimension hnumber hletter hname, ?_, ?_⟩
    · simp [joined, Token.text]
    · intro rest hrest
      rw [List.append_assoc]
      exact Lexer.lex_dimension hsign hdigits hletter htail
        fun c hc => ⟨(hrest c hc).1, (hrest c hc).2.1⟩

end Letter

/-- A word in any case is lexed as a name. -/
theorem lex_word {text keyword rest : List Char} (h : text.map Char.toLower = keyword)
    (hne : keyword ≠ []) (halpha : keyword.all Char.isAlpha = true)
    (hrest : Lexer.EndsName rest) :
    Lexer.lex (text ++ rest) = .ident (String.ofList text) :: Lexer.lex rest := by
  have hletters := isAlpha_of_mem_word h halpha
  have hkeyword : Lexer.isKeyword (String.ofList text) = true := by
    obtain ⟨c, others, rfl⟩ : ∃ c others, text = c :: others := by
      refine List.exists_cons_of_ne_nil ?_
      rintro rfl
      exact hne h.symm
    have hfirst : (c :: others).head?.any Char.isAlpha = true := hletters c List.mem_cons_self
    have hall : (c :: others).all Lexer.isNameChar = true := by
      refine List.all_eq_true.2 fun d hd => ?_
      rw [Lexer.isNameChar, Lexer.isNameStart, hletters d hd, Bool.true_or, Bool.true_or,
        Bool.true_or, Bool.true_or]
    rw [Lexer.isKeyword, String.toList_ofList, hfirst, hall, Bool.true_and]
  have hlex := Lexer.lex_keyword hkeyword hrest
  rw [String.toList_ofList] at hlex
  exact hlex

private theorem toLower_ofList {text : List Char} {keyword : String}
    (h : text.map Char.toLower = keyword.toList) : (String.ofList text).toLower = keyword := by
  rw [← String.toList_inj, toList_toLower, String.toList_ofList, h]

/-- A spelling is lexed to a production, and the text of the tokens is a spelling as well. -/
theorem lex_spelling {text : List Char} {nth : Nth} (h : Spells isBlank text nth) :
    ∃ tokens, Production tokens nth.step.toInt nth.offset.toInt ∧
      Spells isBlank (joined tokens) nth ∧
      ∀ rest, Lexer.EndsArgument rest → Lexer.lex (text ++ rest) = tokens ++ Lexer.lex rest := by
  cases h with
  | odd hodd =>
    refine ⟨[.ident (String.ofList text)], Production.odd (toLower_ofList hodd), ?_, ?_⟩
    · rw [joined_ident]
      exact Spells.odd hodd
    · intro rest hrest
      exact lex_word hodd nofun rfl (endsName_of_endsArgument hrest)
  | even heven =>
    refine ⟨[.ident (String.ofList text)], Production.even (toLower_ofList heven), ?_, ?_⟩
    · rw [joined_ident]
      exact Spells.even heven
    · intro rest hrest
      exact lex_word heven nofun rfl (endsName_of_endsArgument hrest)
  | @integer _ offset hinteger =>
    have hnumber : SpellsInteger (String.ofList text).toList offset.toInt := by
      rwa [String.toList_ofList]
    refine ⟨[.number (String.ofList text)], Production.integer hnumber, ?_, ?_⟩
    · rw [joined_number]
      exact Spells.integer hinteger
    · intro rest hrest
      generalize offset.toInt = value at hinteger
      obtain ⟨hsign, hdigits⟩ := hinteger
      rw [List.append_assoc]
      exact Lexer.lex_integer hsign hdigits hrest
  | term hstep hletter hoffset hmin =>
    -- the unit takes the `tail` of the offset with it; the rest is read on its own
    obtain ⟨tail, after, others, hcut⟩ := exists_cut hoffset
    obtain ⟨front, hterm, hjoined, hlex⟩ := exists_lex_term hletter hcut.name hstep
    refine ⟨front ++ others, Production.term hterm hcut.rest, ?_, ?_⟩
    · rw [joined_append, hjoined, List.append_assoc, List.cons_append]
      exact Spells.term hstep hletter hcut.spells hmin
    · intro rest hrest
      rw [hcut.split, List.append_assoc, List.cons_append, List.append_assoc,
        hlex _ (hcut.ends rest hrest), hcut.lex rest hrest, List.append_assoc]

/-! ## Blanks around -/

/-- There is a character at either end of the text, and neither is a space. -/
def Solid (text : List Char) : Prop :=
  (∃ c, text.head? = some c ∧ isSpace c = false) ∧
    ∃ c, text.getLast? = some c ∧ isSpace c = false

private theorem solid_of_forall {text : List Char} (hne : text ≠ [])
    (h : ∀ c ∈ text, isSpace c = false) : Solid text :=
  ⟨⟨_, List.head?_eq_some_head hne, h _ (List.head_mem hne)⟩,
    ⟨_, List.getLast?_eq_some_getLast hne, h _ (List.getLast_mem hne)⟩⟩

/-- A word in any case has no spaces. -/
theorem isSpace_of_mem_word {text keyword : List Char} (h : text.map Char.toLower = keyword)
    (halpha : keyword.all Char.isAlpha = true) : ∀ c ∈ text, isSpace c = false := by
  intro c hc
  exact Bool.eq_false_iff.2 fun hspace =>
    Bool.noConfusion ((isAlpha_of_isSpace hspace).symm.trans (isAlpha_of_mem_word h halpha c hc))

private theorem solid_word {text keyword : List Char} (h : text.map Char.toLower = keyword)
    (hne : keyword ≠ []) (halpha : keyword.all Char.isAlpha = true) : Solid text := by
  refine solid_of_forall ?_ (isSpace_of_mem_word h halpha)
  rintro rfl
  exact hne h.symm

/-- A spelling has no spaces at its ends. -/
theorem Spells.solid {separates : Char → Bool} {text : List Char} {nth : Nth}
    (h : Spells separates text nth) : Solid text := by
  cases h with
  | odd hodd => exact solid_word hodd nofun rfl
  | even heven => exact solid_word heven nofun rfl
  | integer hinteger =>
    obtain ⟨d, hd, -⟩ := hinteger.exists_isDigit
    exact solid_of_forall (List.ne_nil_of_mem hd) (SpellsStep.integer hinteger).isSpace
  | @term front back letter step offset hstep hletter hoffset hmin =>
    have hspace : isSpace letter = false := by
      rcases hletter with rfl | rfl <;> rfl
    refine ⟨?_, ?_⟩
    -- first the character at the front, then the one at the end
    · cases front with
      | nil => exact ⟨letter, rfl, hspace⟩
      | cons c front => exact ⟨c, rfl, hstep.isSpace c List.mem_cons_self⟩
    · rw [List.getLast?_append, List.getLast?_cons]
      generalize offset.toInt = value at hoffset
      cases hoffset with
      | none => exact ⟨letter, rfl, hspace⟩
      | @signed gap gap' digits sign _ _ _ hdigits =>
        obtain ⟨hne, hall⟩ := hdigits
        refine ⟨digits.getLast hne, ?_, isSpace_of_isDigit (hall _ (List.getLast_mem hne))⟩
        rw [List.getLast?_append, List.getLast?_cons, List.getLast?_append,
          List.getLast?_eq_some_getLast hne]
        rfl

private theorem trimStart_append {gap text : List Char} {c : Char}
    (hgap : ∀ d ∈ gap, isSpace d = true)
    (hhead : text.head? = some c) (hc : isSpace c = false) : trimStart (gap ++ text) = text := by
  obtain ⟨others, rfl⟩ := List.head?_eq_some_iff.1 hhead
  exact trimStart_eq_cons_iff.2 ⟨gap, rfl, hgap, hc⟩

/-- Trimming takes away exactly the spaces around a solid text. -/
theorem trim_padded {front text back : List Char} (hfront : ∀ c ∈ front, isSpace c = true)
    (h : Solid text) (hback : ∀ c ∈ back, isSpace c = true) :
    trim (front ++ text ++ back) = text := by
  obtain ⟨⟨first, hfirst, hfirstSpace⟩, last, hlast, hlastSpace⟩ := h
  have hhead : (text ++ back).head? = some first := by
    rw [List.head?_append, hfirst]
    rfl
  have hback' : ∀ c ∈ back.reverse, isSpace c = true := fun c hc => hback c (List.mem_reverse.1 hc)
  have hlast' : text.reverse.head? = some last := by
    rw [List.head?_reverse, hlast]
  rw [trim, List.append_assoc, trimStart_append hfront hhead hfirstSpace, List.reverse_append,
    trimStart_append hback' hlast' hlastSpace, List.reverse_reverse]

/-- A text is a spelling with blanks around it. -/
inductive Padded : List Char → Nth → Prop where
  | intro {front text back : List Char} {nth : Nth} :
      (∀ c ∈ front, isBlank c = true) → Spells isBlank text nth →
      (∀ c ∈ back, isBlank c = true) → Padded (front ++ text ++ back) nth

/-- The text ends, or the parenthesis of the function closes. -/
def Closes (rest : List Char) : Prop :=
  ∀ c ∈ rest.head?, c = ')'

/-- A spelling is lexed to an argument that is read as what it spells. -/
theorem lex_padded {text : List Char} {nth : Nth} (h : Padded text nth) :
    ∃ tokens, Argument tokens nth.step.toInt nth.offset.toInt ∧ parse tokens = .ok nth ∧
      ∀ rest, Closes rest → Lexer.lex (text ++ rest) = tokens ++ Lexer.lex rest := by
  obtain ⟨hfront, hspells, hback⟩ := h
  next front text back =>
  obtain ⟨tokens, hproduction, hjoined, hlex⟩ := lex_spelling hspells
  refine ⟨gapTokens front ++ tokens ++ gapTokens back,
    ⟨_, _, _, rfl, blanks_gapTokens _, hproduction, blanks_gapTokens _⟩, ?_, ?_⟩
  · have hspaces : ∀ gap, ∀ c ∈ joined (gapTokens gap), isSpace c = true := fun gap c hc =>
      isSpace_of_isBlank (isBlank_of_mem_joined (blanks_gapTokens gap) c hc)
    have htext : argumentText (gapTokens front ++ tokens ++ gapTokens back) = joined tokens := by
      show trim (joined _) = _
      rw [joined_append, joined_append, trim_padded (hspaces front) hjoined.solid (hspaces back)]
    rw [parse_eq_ok_iff, htext]
    exact hjoined.mono fun _ _ => isSpace_of_isBlank
  · intro rest hrest
    have hnot : ∀ c ∈ rest.head?, isBlank c = false := by
      intro c hc
      rw [hrest c hc]
      rfl
    -- what follows the spelling is a blank or the closing parenthesis, so the spelling ends there
    have hends : Lexer.EndsArgument (back ++ rest) := by
      intro c hc
      cases back with
      | nil => exact Or.inr (hrest c hc)
      | cons d back =>
        obtain rfl := Option.some.inj hc
        exact Or.inl (hback _ List.mem_cons_self)
    have hhead : ∀ c ∈ (text ++ (back ++ rest)).head?, isBlank c = false := by
      obtain ⟨⟨first, hfirst, hspace⟩, -⟩ := hspells.solid
      intro c hc
      rw [List.head?_append, hfirst] at hc
      obtain rfl := Option.some.inj hc
      exact Bool.eq_false_iff.2 fun hblank =>
        Bool.noConfusion ((isSpace_of_isBlank hblank).symm.trans hspace)
    rw [List.append_assoc, List.append_assoc, lex_gap hfront hhead, hlex _ hends,
      lex_gap hback hnot, List.append_assoc, List.append_assoc]

/-! ## Within a selector -/

/-- What follows a term is balanced. -/
theorem Rest.balanced {tail : List Char} {tokens : List Token} {offset : Int}
    (h : Rest tail tokens offset) : Balanced tokens := by
  have hnumber : ∀ number : String, Balanced [.number number] := fun number =>
    Balanced.cons ⟨nofun, nofun, nofun⟩ Balanced.nil
  cases h with
  | none => exact Balanced.nil
  | joined => exact Balanced.nil
  | hyphen hgap => exact hgap.balanced.append (hnumber _)
  | signed hgap => exact hgap.balanced.append (hnumber _)
  | divided hfront _ hback =>
    exact hfront.balanced.append (balanced_delim _ (hback.balanced.append (hnumber _)))

/-- A production is balanced. -/
theorem Production.balanced {tokens : List Token} {step offset : Int}
    (h : Production tokens step offset) : Balanced tokens := by
  cases h with
  | odd => exact balanced_ident _ Balanced.nil
  | even => exact balanced_ident _ Balanced.nil
  | integer => exact Balanced.cons ⟨nofun, nofun, nofun⟩ Balanced.nil
  | term hterm hrest =>
    refine Balanced.append ?_ hrest.balanced
    cases hterm with
    | dimension => exact Balanced.cons ⟨nofun, nofun, nofun⟩ Balanced.nil
    | bare => exact balanced_ident _ Balanced.nil
    | plus => exact balanced_delim _ (balanced_ident _ Balanced.nil)
    | minus => exact balanced_ident _ Balanced.nil

/-- No token of an argument opens or closes, so the parenthesis after it closes the function. -/
theorem Argument.balanced {tokens : List Token} {step offset : Int}
    (h : Argument tokens step offset) : Balanced tokens := by
  obtain ⟨front, production, back, rfl, hfront, hproduction, hback⟩ := h
  exact (hfront.balanced.append hproduction.balanced).append hback.balanced

/-- A spelling of positions with any blanks around it is read as these positions, alone and as the
    argument of each pseudo-class that takes positions. -/
theorem parse_spelled {text : List Char} {nth : Nth} (h : Padded text nth) :
    parse (tokenize (String.ofList text)) = .ok nth ∧
      ∀ (namespaces : Namespaces) (count : Count),
        parseSelectors namespaces (":" ++ count.name ++ "(" ++ String.ofList text ++ ")") =
          .ok [⟨.compound [.atom (.pseudoClass (.nth count nth))], none⟩] := by
  obtain ⟨tokens, hargument, hparse, hlex⟩ := lex_padded h
  refine ⟨?_, ?_⟩
  · have halone := hlex [] (by rintro c ⟨⟩)
    rw [List.append_nil, Lexer.lex_of_empty, List.append_nil] at halone
    rw [tokenize, String.toList_ofList, halone]
    exact hparse
  · intro namespaces count
    -- the parenthesis ends the last token of the argument, as the end of the text does
    have hclosing : Lexer.lex [')'] = [.rightParen] :=
      (Lexer.lex_of_read (by decide) rfl).trans (congrArg (Token.rightParen :: ·) Lexer.lex_of_empty)
    have htokens : tokenize (":" ++ count.name ++ "(" ++ String.ofList text ++ ")") =
        .colon :: .function count.name :: tokens ++ [.rightParen] := by
      have htext : (":" ++ count.name ++ "(" ++ String.ofList text ++ ")").toList =
          ':' :: (count.name.toList ++ '(' :: (text ++ [')'])) := by
        simp
      rw [tokenize, htext, Lexer.lex_colon, Lexer.lex_function (isKeyword_countName count),
        hlex [')'] (by rintro c ⟨⟩; rfl), hclosing]
      rfl
    have hfunction := @Function.positions (Parsed namespaces) _ _ _ _ (toLower_countName count) hparse
    rw [parseSelectors, htokens]
    exact parsed_of_condition (Condition.function hargument.balanced hfunction) (by simp)

/-- With zeros in front of both numbers, a capital letter, and blanks around the sign and around it
    all. -/
theorem parse_spelled_minus_three :
    Padded "\t-03N - 007 ".toList ⟨-3, -7⟩ ∧
      parse (tokenize "\t-03N - 007 ") = .ok ⟨-3, -7⟩ ∧
      parseSelectors .empty ":nth-child(\t-03N - 007 )" =
        .ok [⟨.compound [.atom (.pseudoClass (.nth ⟨false, false⟩ ⟨-3, -7⟩))], none⟩] := by
  have hdigits : ∀ {digits : List Char} {n : Nat}, readDigits? digits = some n → IsDigits digits :=
    fun hread => (readDigits?_eq_some_iff.1 hread).1
  have hblank : ∀ {c : Char}, isBlank c = true → ∀ d ∈ [c], isBlank d = true :=
    fun hc => List.forall_mem_singleton.2 hc
  have hstep : SpellsStep "-03".toList (-3) :=
    SpellsStep.integer (@SpellsInteger.intro ['-'] "03".toList (Or.inr (Or.inr rfl)) (hdigits rfl))
  have hoffset : SpellsOffset isBlank " - 007".toList (-7) :=
    @SpellsOffset.signed isBlank [' '] [' '] "007".toList '-' (hblank rfl) (Or.inr rfl)
      (hblank rfl) (hdigits rfl)
  have hspells : Spells isBlank "-03N - 007".toList ⟨-3, -7⟩ :=
    @Spells.term isBlank "-03".toList " - 007".toList 'N' (-3) (-7) hstep (Or.inr rfl) hoffset
      (by decide)
  have hpadded : Padded "\t-03N - 007 ".toList ⟨-3, -7⟩ :=
    @Padded.intro ['\t'] "-03N - 007".toList [' '] ⟨-3, -7⟩ (hblank rfl) hspells (hblank rfl)
  exact ⟨hpadded, (parse_spelled hpadded).1, (parse_spelled hpadded).2 .empty ⟨false, false⟩⟩

end Nth

end Selectors
