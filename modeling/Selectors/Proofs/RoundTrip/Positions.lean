import Selectors.Nth
import Selectors.Proofs.RoundTrip.Spelling

/-!
# Positions — An+B written out and read again

Positions are written as `{A}n{+B}`, or as the number B where A is zero. The lexer takes such a
text apart in one of three ways: as a number, as a number with the unit `n` and another number, or,
because a hyphen goes on with a name, as one number with a unit like `n-3`. The parser joins the
texts of the tokens, and so it sees the text as it was written.

The offset that is least of all cannot be written after a step: its digits are read without the
sign and do not fit.

* **`Nth.tokens`** — positions as tokens.
* **`lex_positions`** — they are what the lexer makes of their text.
* **`Nth.parse_tokens`** — the parser reads the positions from them.
-/

namespace Selectors

/-- A sign in front of digits. -/
def IsSign (sign : List Char) : Prop :=
  sign = [] ∨ sign = ['+'] ∨ sign = ['-']

/-- Digits, and at least one. -/
def IsDigits (digits : List Char) : Prop :=
  digits ≠ [] ∧ ∀ c ∈ digits, c.isDigit = true

/-- A number is written in digits. -/
theorem isDigits_toDigits (n : Nat) : IsDigits (Nat.toDigits 10 n) :=
  ⟨Nat.toDigits_ne_nil, fun _ hc => Nat.isDigit_of_mem_toDigits (by omega) (by omega) hc⟩

private theorem isDigit_iff {c : Char} :
    c.isDigit = true ↔ 48 ≤ c.val.toNat ∧ c.val.toNat ≤ 57 := by
  unfold Char.isDigit
  rw [Bool.and_eq_true, decide_eq_true_iff, decide_eq_true_iff]
  exact Iff.rfl

namespace Lexer

/-! ## Numbers -/

private theorem takeSign_append_digits {sign digits : List Char} (hsign : IsSign sign)
    (hdigits : IsDigits digits) (rest : List Char) :
    takeSign (sign ++ (digits ++ rest)) = (sign, digits ++ rest) := by
  obtain ⟨hne, hall⟩ := hdigits
  rcases hsign with rfl | rfl | rfl
  · obtain ⟨d, others, rfl⟩ := List.exists_cons_of_ne_nil hne
    have hd := hall d List.mem_cons_self
    rw [List.nil_append, List.cons_append, takeSign]
    · rintro _ ⟨⟩
      exact absurd hd (by decide)
    · rintro _ ⟨⟩
      exact absurd hd (by decide)
  · rfl
  · rfl

private theorem takeDigits_digits {digits rest : List Char} (hdigits : IsDigits digits)
    (hrest : ∀ c ∈ rest.head?, c.isDigit = false) : takeDigits (digits ++ rest) = (digits, rest) := by
  obtain ⟨-, hall⟩ := hdigits
  unfold takeDigits
  rw [List.takeWhile_append_of_pos hall, List.dropWhile_append_of_pos hall]
  cases rest with
  | nil => rw [List.takeWhile_nil, List.append_nil]; rfl
  | cons c rest =>
    have hc : ¬ c.isDigit = true := by
      rw [hrest c rfl]
      exact Bool.false_ne_true
    rw [List.takeWhile_cons_of_neg hc, List.dropWhile_cons_of_neg hc, List.append_nil]

/-- Without a point there is no fraction. -/
theorem takeFraction_eq_nil {rest : List Char} (hrest : ∀ c ∈ rest.head?, c ≠ '.') :
    takeFraction rest = ([], rest) := by
  unfold takeFraction
  split
  · exact absurd rfl (hrest '.' rfl)
  · rfl

/-- Without an E there is no exponent. -/
theorem takeExponent_eq_nil {rest : List Char} (hrest : ∀ c ∈ rest.head?, c ≠ 'e' ∧ c ≠ 'E') :
    takeExponent rest = ([], rest) := by
  cases rest with
  | nil => rfl
  | cons c rest =>
    obtain ⟨hlower, hupper⟩ := hrest c rfl
    rw [takeExponent, if_neg]
    simp [hlower, hupper]

/-- An integer is taken whole. -/
theorem takeNumber_integer {sign digits rest : List Char} (hsign : IsSign sign)
    (hdigits : IsDigits digits)
    (hrest : ∀ c ∈ rest.head?, c.isDigit = false ∧ c ≠ '.' ∧ c ≠ 'e' ∧ c ≠ 'E') :
    takeNumber (sign ++ (digits ++ rest)) = (sign ++ digits, rest) := by
  unfold takeNumber
  rw [takeSign_append_digits hsign hdigits]
  dsimp only
  rw [takeDigits_digits hdigits fun c hc => (hrest c hc).1]
  dsimp only
  rw [takeFraction_eq_nil fun c hc => (hrest c hc).2.1]
  dsimp only
  rw [takeExponent_eq_nil fun c hc => (hrest c hc).2.2, List.append_nil, List.append_nil]

/-- An integer starts a number. -/
theorem startsNumber_integer {sign digits : List Char} (hsign : IsSign sign)
    (hdigits : IsDigits digits) (rest : List Char) :
    startsNumber (sign ++ (digits ++ rest)) = true := by
  obtain ⟨hne, hall⟩ := hdigits
  obtain ⟨d, others, rfl⟩ := List.exists_cons_of_ne_nil hne
  have hd := hall d List.mem_cons_self
  have hunsigned : startsUnsigned (d :: (others ++ rest)) = true := by
    rw [startsUnsigned]
    · exact hd
    · rintro c tail rfl
      exact absurd hd (by decide)
  rcases hsign with rfl | rfl | rfl
  · rw [List.nil_append, List.cons_append, startsNumber]
    · exact hunsigned
    · rintro _ ⟨⟩
      exact absurd hd (by decide)
    · rintro _ ⟨⟩
      exact absurd hd (by decide)
  · exact hunsigned
  · exact hunsigned

/-- Where a number starts, it is read. -/
theorem lex_number {text : List Char} (h : startsNumber text = true) :
    lex text = (readNumber text).1 :: lex (readNumber text).2 := by
  cases text with
  | nil => exact nomatch h
  | cons c text =>
    refine lex_of_read ?_ ?_
    · rintro rfl
      exact nomatch h
    · have hnot : c ∉ decisive := by
        intro hmem
        simp only [decisive, List.mem_cons, List.not_mem_nil, or_false] at hmem
        rcases hmem with rfl | rfl | rfl | rfl | rfl | rfl | rfl | rfl | rfl | rfl | rfl | rfl |
          rfl | rfl
        all_goals exact nomatch h
      rw [read_of_not_mem hnot, if_pos h]

/-- An argument ends in front of the text, or blanks separate it from the text. -/
def EndsArgument (rest : List Char) : Prop :=
  ∀ c ∈ rest.head?, isBlank c = true ∨ c = ')'

/-- What ends an argument ends a number. -/
theorem EndsArgument.endsNumber {rest : List Char} (h : EndsArgument rest) :
    ∀ c ∈ rest.head?, c.isDigit = false ∧ c ≠ '.' ∧ c ≠ 'e' ∧ c ≠ 'E' := by
  intro c hc
  rcases h c hc with hblank | rfl
  · rcases eq_of_isBlank hblank with rfl | rfl | rfl | rfl | rfl <;> decide
  · decide

/-- What ends an argument starts no name. -/
theorem EndsArgument.startsName {rest : List Char} (h : EndsArgument rest) :
    startsName rest = false := by
  cases rest with
  | nil => rfl
  | cons c rest =>
    rcases h c rfl with hblank | rfl
    · rcases eq_of_isBlank hblank with rfl | rfl | rfl | rfl | rfl <;> rfl
    · rfl

/-- An integer is a token of its own at the end of an argument. -/
theorem lex_integer {sign digits rest : List Char} (hsign : IsSign sign) (hdigits : IsDigits digits)
    (hrest : EndsArgument rest) :
    lex (sign ++ (digits ++ rest)) = .number (String.ofList (sign ++ digits)) :: lex rest := by
  have htake := takeNumber_integer hsign hdigits hrest.endsNumber
  have hread : readNumber (sign ++ (digits ++ rest)) =
      (.number (String.ofList (sign ++ digits)), rest) := by
    rw [readNumber, htake]
    dsimp only
    rw [if_neg (Bool.eq_false_iff.1 hrest.startsName)]
    split
    · next after =>
      rcases hrest '%' rfl with hblank | heq
      · exact absurd hblank (by decide)
      · exact absurd heq (by decide)
    · rfl
  rw [lex_number (startsNumber_integer hsign hdigits _), hread]

/-- The letter of a term, in either case, starts a name and goes on with none that is a number. -/
theorem lex_dimension {sign digits unit rest : List Char} {letter : Char} (hsign : IsSign sign)
    (hdigits : IsDigits digits) (hletter : letter = 'n' ∨ letter = 'N')
    (hunit : ∀ c ∈ unit, isNameChar c = true)
    (hrest : ∀ c ∈ rest.head?, isNameChar c = false ∧ c ≠ '\\') :
    lex (sign ++ (digits ++ letter :: (unit ++ rest))) =
      .dimension (String.ofList (sign ++ digits)) (String.ofList (letter :: unit)) :: lex rest := by
  -- `n` is no part of a number and starts a name, so the number ends here and has a unit
  have hends : ∀ c ∈ (letter :: (unit ++ rest)).head?,
      c.isDigit = false ∧ c ≠ '.' ∧ c ≠ 'e' ∧ c ≠ 'E' := by
    rintro c ⟨⟩
    rcases hletter with rfl | rfl <;> decide
  have htake := takeNumber_integer hsign hdigits hends
  have hname : startsName (letter :: (unit ++ rest)) = true := by
    rcases hletter with rfl | rfl
    · rw [startsName]
      · rfl
      · exact fun _ _ heq => absurd heq (by decide)
    · rw [startsName]
      · rfl
      · exact fun _ _ heq => absurd heq (by decide)
  have hunit' : ∀ c ∈ letter :: unit, isNameChar c = true := by
    intro c hc
    rcases List.mem_cons.1 hc with rfl | hc
    · rcases hletter with rfl | rfl <;> rfl
    · exact hunit c hc
  have htakeName : takeName (letter :: (unit ++ rest)) = (letter :: unit, rest) :=
    takeName_plain hunit' hrest
  rw [lex_number (startsNumber_integer hsign hdigits _), readNumber, htake]
  dsimp only
  rw [if_pos hname, htakeName]

end Lexer

namespace Nth

/-! ## The text of positions -/

/-- An integer, with a sign if it is negative. -/
def integerText (n : Int) : List Char :=
  (if n < 0 then ['-'] else []) ++ Nat.toDigits 10 n.natAbs

/-- An integer, always with a sign. -/
def signedText (n : Int) : List Char :=
  (if n < 0 then '-' else '+') :: Nat.toDigits 10 n.natAbs

/-- Positions as text. -/
def written (places : Nth) : List Char :=
  if places.step = 0 then integerText places.offset.toInt
  else integerText places.step.toInt ++ 'n' :: signedText places.offset.toInt

/-- Positions as the tokens of their text. -/
def tokens (places : Nth) : List Token :=
  let step := String.ofList (integerText places.step.toInt)
  let offset := String.ofList (signedText places.offset.toInt)
  if places.step = 0 then [.number (String.ofList (integerText places.offset.toInt))]
  else if places.offset.toInt < 0 then
    [.dimension step (String.ofList ('n' :: signedText places.offset.toInt))]
  else [.dimension step (String.ofList ['n']), .number offset]

private theorem isSign_integerSign (n : Int) : IsSign (if n < 0 then ['-'] else []) := by
  split
  · exact Or.inr (Or.inr rfl)
  · exact Or.inl rfl

/-- The tokens of positions have the written text. -/
theorem flatMap_text_tokens (places : Nth) :
    (places.tokens.flatMap fun token => token.text.toList) = places.written := by
  unfold tokens written
  by_cases hstep : places.step = 0
  · rw [if_pos hstep, if_pos hstep]
    simp [Token.text]
  · rw [if_neg hstep, if_neg hstep]
    by_cases hoffset : places.offset.toInt < 0
    · rw [if_pos hoffset]
      simp [Token.text]
    · rw [if_neg hoffset]
      simp [Token.text]

/-- The tokens of positions do not end in a colon. -/
theorem settled_tokens (places : Nth) : Settled places.tokens := by
  unfold tokens
  by_cases hstep : places.step = 0
  · rw [if_pos hstep]
    exact nofun
  · rw [if_neg hstep]
    by_cases hoffset : places.offset.toInt < 0
    · rw [if_pos hoffset]
      exact nofun
    · rw [if_neg hoffset]
      exact nofun

/-- The tokens of positions are spelled as they are written. -/
theorem spell_tokens (places : Nth) : spell places.tokens = places.written := by
  rw [← flatMap_text_tokens]
  unfold tokens
  by_cases hstep : places.step = 0
  · rw [if_pos hstep]
    rfl
  · rw [if_neg hstep]
    by_cases hoffset : places.offset.toInt < 0
    · rw [if_pos hoffset]
      rfl
    · rw [if_neg hoffset]
      rfl

/-- The characters that positions are written with. -/
theorem isDigit_or_mem_of_mem_written {places : Nth} {c : Char} (h : c ∈ places.written) :
    c.isDigit = true ∨ c ∈ ['n', '+', '-'] := by
  have hdigits : ∀ n : Int, c ∈ Nat.toDigits 10 n.natAbs → c.isDigit = true := fun n =>
    (isDigits_toDigits n.natAbs).2 c
  have hinteger : ∀ n : Int, c ∈ integerText n → c.isDigit = true ∨ c ∈ ['n', '+', '-'] := by
    intro n hc
    rcases List.mem_append.1 hc with hsign | hc
    · split at hsign
      · exact Or.inr (by simp [List.mem_singleton.1 hsign])
      · exact nomatch hsign
    · exact Or.inl (hdigits n hc)
  have hsigned : ∀ n : Int, c ∈ signedText n → c.isDigit = true ∨ c ∈ ['n', '+', '-'] := by
    intro n hc
    rcases List.mem_cons.1 hc with hsign | hc
    · split at hsign
      · exact Or.inr (by simp [hsign])
      · exact Or.inr (by simp [hsign])
    · exact Or.inl (hdigits n hc)
  unfold written at h
  split at h
  · exact hinteger _ h
  · rcases List.mem_append.1 h with h | h
    · exact hinteger _ h
    · rcases List.mem_cons.1 h with rfl | h
      · exact Or.inr List.mem_cons_self
      · exact hsigned _ h

/-- The lexer takes the text of positions apart into their tokens. -/
theorem lex_positions (places : Nth) (rest : List Char) :
    Lexer.lex (spell places.tokens ++ ')' :: rest) = places.tokens ++ Lexer.lex (')' :: rest) := by
  have hends : Lexer.EndsArgument (')' :: rest) := by
    rintro c ⟨⟩
    exact Or.inr rfl
  rw [spell_tokens]
  unfold written tokens
  by_cases hstep : places.step = 0
  · rw [if_pos hstep, if_pos hstep, integerText, List.append_assoc]
    exact Lexer.lex_integer (isSign_integerSign _) (isDigits_toDigits _) hends
  · rw [if_neg hstep, if_neg hstep, integerText]
    -- a minus is a name character and goes into the unit; a plus starts a number of its own
    by_cases hoffset : places.offset.toInt < 0
    · have hunit : ∀ c ∈ signedText places.offset.toInt, Lexer.isNameChar c = true := by
        intro c hc
        rw [signedText, if_pos hoffset] at hc
        rcases List.mem_cons.1 hc with rfl | hc
        · rfl
        · unfold Lexer.isNameChar
          rw [(isDigits_toDigits _).2 c hc, Bool.or_true, Bool.true_or]
      rw [if_pos hoffset, List.append_assoc, List.append_assoc, List.cons_append]
      exact Lexer.lex_dimension (isSign_integerSign _) (isDigits_toDigits _) (Or.inl rfl) hunit
        (by rintro c ⟨⟩; decide)
    · have hplus : signedText places.offset.toInt ++ ')' :: rest =
          ['+'] ++ (Nat.toDigits 10 places.offset.toInt.natAbs ++ ')' :: rest) := by
        rw [signedText, if_neg hoffset]
        rfl
      have hnumber := Lexer.lex_integer (Or.inr (Or.inl rfl))
        (isDigits_toDigits places.offset.toInt.natAbs) hends
      have hdimension := @Lexer.lex_dimension _ _ []
        (['+'] ++ (Nat.toDigits 10 places.offset.toInt.natAbs ++ ')' :: rest)) 'n'
        (isSign_integerSign places.step.toInt) (isDigits_toDigits places.step.toInt.natAbs)
        (Or.inl rfl) nofun (by rintro c ⟨⟩; decide)
      rw [if_neg hoffset, List.append_assoc, List.append_assoc, List.cons_append, hplus]
      rw [List.nil_append] at hdimension
      rw [hdimension, hnumber, signedText, if_neg hoffset]
      rfl

/-! ## Reading the text -/

private theorem digitsValue_toDigits (n : Nat) : digitsValue (Nat.toDigits 10 n) = n :=
  Nat.ofDigitChars_ten_toDigits

/-- The digits of a number are read back. -/
theorem readDigits?_toDigits (n : Nat) : readDigits? (Nat.toDigits 10 n) = some n := by
  obtain ⟨hne, hall⟩ := isDigits_toDigits n
  unfold readDigits?
  rw [if_pos, digitsValue_toDigits]
  rw [List.all_eq_true.2 hall, Bool.and_true, Bool.not_eq_true', List.isEmpty_eq_false_iff]
  exact hne

/-- A number of 32 bits fits. -/
theorem toInt32?_toInt (n : Int32) : toInt32? n.toInt = some n := by
  have hlow := n.le_toInt
  have hhigh := n.toInt_lt
  rw [toInt32?_of_fits (by omega) (by omega), Int32.ofInt_toInt]

/-- A written integer is read back. -/
theorem readInt32?_integerText (n : Int32) : readInt32? (integerText n.toInt) = some n := by
  have hsigned : readSigned? (integerText n.toInt) = some n.toInt := by
    unfold integerText
    split
    · next hneg =>
      show (readDigits? (Nat.toDigits 10 n.toInt.natAbs)).map (fun m => -(m : Int)) = _
      rw [readDigits?_toDigits]
      show some (-(n.toInt.natAbs : Int)) = some n.toInt
      congr 1
      omega
    · next hpos =>
      obtain ⟨hne, hall⟩ := isDigits_toDigits n.toInt.natAbs
      -- the first digit is no sign, so the text is read as digits alone
      obtain ⟨d, others, hcons⟩ := List.exists_cons_of_ne_nil hne
      have hread := readDigits?_toDigits n.toInt.natAbs
      have hd : d.isDigit = true := hall d (hcons ▸ List.mem_cons_self)
      rw [hcons] at hread
      rw [List.nil_append, hcons, readSigned?, hread]
      · show some ((n.toInt.natAbs : Int)) = some n.toInt
        congr 1
        omega
      · rintro _ ⟨⟩
        exact absurd hd (by decide)
      · rintro _ ⟨⟩
        exact absurd hd (by decide)
  unfold readInt32?
  rw [hsigned]
  exact toInt32?_toInt n

/-- An integer is not written with another character than digits and a sign. -/
theorem readInt32?_eq_none {text : List Char} (h : 'n' ∈ text) : readInt32? text = none := by
  have hdigits : ∀ digits : List Char, 'n' ∈ digits → readDigits? digits = none := by
    intro digits hmem
    unfold readDigits?
    rw [if_neg]
    intro hall
    obtain ⟨-, hall⟩ := Bool.and_eq_true_iff.1 hall
    exact absurd (List.all_eq_true.1 hall _ hmem) (by decide)
  unfold readInt32? readSigned?
  split
  · next digits =>
    rw [hdigits digits (List.mem_of_ne_of_mem (by decide) h)]
    rfl
  · next digits =>
    rw [hdigits digits (List.mem_of_ne_of_mem (by decide) h)]
    rfl
  · rw [hdigits text h]
    rfl

private theorem trimStart_eq_self {text : List Char} (h : ∀ c ∈ text, isSpace c = false) :
    trimStart text = text := by
  cases text with
  | nil => rfl
  | cons c text => exact trimStart_cons_of_not_isSpace (h c List.mem_cons_self)

private theorem trim_eq_self {text : List Char} (h : ∀ c ∈ text, isSpace c = false) :
    trim text = text := by
  have hreverse : ∀ c ∈ text.reverse, isSpace c = false := fun c hc =>
    h c (List.mem_reverse.1 hc)
  rw [trim, trimStart_eq_self h, trimStart_eq_self hreverse, List.reverse_reverse]

/-- No digit is a space. -/
theorem isSpace_of_isDigit {c : Char} (h : c.isDigit = true) : isSpace c = false := by
  obtain ⟨hlow, hhigh⟩ := isDigit_iff.1 h
  simp only [isSpace, Bool.or_eq_false_iff, Bool.and_eq_false_iff, decide_eq_false_iff_not,
    beq_eq_false_iff_ne, ne_eq, UInt32.le_iff_toNat_le, ← UInt32.toNat_inj]
  simp only [UInt32.reduceToNat]
  omega

private theorem toLower_of_isDigit {c : Char} (h : c.isDigit = true) : c.toLower = c := by
  obtain ⟨hlow, hhigh⟩ := isDigit_iff.1 h
  delta Char.toLower
  rw [dif_neg]
  rintro ⟨hupper, -⟩
  have hupper' : 65 ≤ c.val.toNat := hupper
  omega

/-- A written offset is read back, the least one apart. -/
theorem readOffset_signedText {n : Int32} (h : n ≠ Int32.minValue) :
    readOffset (signedText n.toInt) = .ok (some n) := by
  have hmin : n.toInt ≠ -2 ^ 31 := fun heq =>
    h (Int32.toInt_inj.1 (heq.trans Int32.toInt_minValue.symm))
  have hlow := n.le_toInt
  have hhigh := n.toInt_lt
  -- of all offsets only the least one is too far from zero to be read without its sign
  have hunsigned : readUnsigned? (Nat.toDigits 10 n.toInt.natAbs) =
      some (Int32.ofInt n.toInt.natAbs) := by
    obtain ⟨-, hall⟩ := isDigits_toDigits n.toInt.natAbs
    unfold readUnsigned?
    rw [trimStart_eq_self fun c hc => isSpace_of_isDigit (hall c hc), readDigits?_toDigits,
      Option.bind_some]
    exact toInt32?_of_fits (by omega) (by omega)
  unfold signedText
  split
  · next hneg =>
    have hvalue : -Int32.ofInt n.toInt.natAbs = n := by
      rw [Int32.neg_ofInt, show -(n.toInt.natAbs : Int) = n.toInt by omega, Int32.ofInt_toInt]
    unfold readOffset
    dsimp only
    rw [if_neg (by decide), hunsigned]
    exact congrArg (fun value => Except.ok (some value)) hvalue
  · next hpos =>
    have hvalue : Int32.ofInt n.toInt.natAbs = n := by
      rw [show (n.toInt.natAbs : Int) = n.toInt by omega, Int32.ofInt_toInt]
    unfold readOffset
    dsimp only
    rw [if_neg (by decide), hunsigned]
    exact congrArg (fun value => Except.ok (some value)) hvalue

/-- Written steps are read back. -/
theorem readStep?_integerText (n : Int32) : readStep? (integerText n.toInt) = some n := by
  obtain ⟨hne, hall⟩ := isDigits_toDigits n.toInt.natAbs
  obtain ⟨d, others, hcons⟩ := List.exists_cons_of_ne_nil hne
  have hd : d.isDigit = true := hall d (hcons ▸ List.mem_cons_self)
  -- there is a digit, so the text is not one of those without any
  have hdigit : d ∈ integerText n.toInt := by
    unfold integerText
    rw [hcons]
    simp
  rw [readStep?, readInt32?_integerText]
  · intro heq
    rw [heq] at hdigit
    exact nomatch hdigit
  · intro heq
    rw [heq, List.mem_singleton] at hdigit
    rw [hdigit] at hd
    exact absurd hd (by decide)
  · intro heq
    rw [heq, List.mem_singleton] at hdigit
    rw [hdigit] at hd
    exact absurd hd (by decide)

private theorem not_mem_integerText (n : Int) : 'n' ∉ integerText n := by
  intro hmem
  rcases List.mem_append.1 hmem with hsign | hdigit
  · split at hsign
    · exact absurd hsign (by decide)
    · exact nomatch hsign
  · exact absurd ((isDigits_toDigits n.natAbs).2 _ hdigit) (by decide)

/-- Written positions are read back. -/
theorem readText_written {places : Nth}
    (h : places.step = 0 ∨ places.offset ≠ Int32.minValue) :
    readText places.written = .ok (some places) := by
  -- neither word is a written text: each has a letter that none has
  have hodd : places.written ≠ "odd".toList := by
    intro heq
    have hmem : 'o' ∈ places.written := by rw [heq]; decide
    exact absurd (isDigit_or_mem_of_mem_written hmem) (by decide)
  have heven : places.written ≠ "even".toList := by
    intro heq
    have hmem : 'e' ∈ places.written := by rw [heq]; decide
    exact absurd (isDigit_or_mem_of_mem_written hmem) (by decide)
  unfold readText
  rw [if_neg hodd, if_neg heven]
  unfold written
  by_cases hstep : places.step = 0
  · rw [if_pos hstep, readInt32?_integerText]
    obtain ⟨step, offset⟩ := places
    obtain rfl : step = 0 := hstep
    rfl
  · have hoffset : places.offset ≠ Int32.minValue := h.resolve_left hstep
    -- the text is cut at its only `n`: before it the step, after it the signed offset
    have hnone : readInt32? (integerText places.step.toInt ++
        'n' :: signedText places.offset.toInt) = none := readInt32?_eq_none (by simp)
    have hbefore : ∀ c ∈ integerText places.step.toInt, (c != 'n') = true := by
      intro c hc
      refine bne_iff_ne.2 ?_
      rintro rfl
      exact not_mem_integerText _ hc
    have hspace : ∀ c ∈ signedText places.offset.toInt, isSpace c = false := by
      intro c hc
      rcases List.mem_cons.1 hc with rfl | hc
      · split
        · rfl
        · rfl
      · exact isSpace_of_isDigit ((isDigits_toDigits _).2 c hc)
    rw [if_neg hstep, hnone, List.dropWhile_append_of_pos hbefore,
      List.takeWhile_append_of_pos hbefore, List.dropWhile_cons_of_neg (by decide),
      List.takeWhile_cons_of_neg (by decide), List.append_nil]
    dsimp only
    rw [readStep?_integerText, trim_eq_self hspace]
    dsimp only
    rw [readOffset_signedText hoffset]
    rfl

/-- Written positions have no spaces and no letters of upper case in them. -/
private theorem isSpace_and_toLower_of_mem_written {places : Nth} {c : Char}
    (h : c ∈ places.written) : isSpace c = false ∧ c.toLower = c := by
  rcases isDigit_or_mem_of_mem_written h with hdigit | h
  · exact ⟨isSpace_of_isDigit hdigit, toLower_of_isDigit hdigit⟩
  · simp only [List.mem_cons, List.not_mem_nil, or_false] at h
    rcases h with rfl | rfl | rfl
    · exact ⟨rfl, rfl⟩
    · exact ⟨rfl, rfl⟩
    · exact ⟨rfl, rfl⟩

/-- Positions that can be written are read from their tokens. -/
theorem parse_tokens {places : Nth} (h : places.step = 0 ∨ places.offset ≠ Int32.minValue) :
    parse places.tokens = .ok places := by
  have htext : argumentText places.tokens = places.written := by
    unfold argumentText
    rw [flatMap_text_tokens, trim_eq_self fun c hc => (isSpace_and_toLower_of_mem_written hc).1]
  have hid : ∀ c ∈ places.written, c.toLower = id c := fun c hc =>
    (isSpace_and_toLower_of_mem_written hc).2
  have hlower : places.written.map Char.toLower = places.written := by
    rw [List.map_congr_left hid, List.map_id]
  unfold parse
  rw [htext, hlower, readText_written h]
  rfl

/-! ## What is read can be written -/

private theorem readUnsigned?_nonneg {text : List Char} {value : Int32}
    (h : readUnsigned? text = some value) : 0 ≤ value.toInt := by
  obtain ⟨n, -, hn⟩ := Option.bind_eq_some_iff.1 h
  rw [toInt_of_toInt32?_eq_some hn]
  exact Int.natCast_nonneg n

/-- The least offset is never read. -/
theorem readOffset_ne_minValue {text : List Char} {offset : Int32}
    (h : readOffset text = .ok (some offset)) : offset ≠ Int32.minValue := by
  rintro rfl
  unfold readOffset at h
  split at h
  · exact absurd (Option.some.inj (Except.ok.inj h)) (by decide)
  · split at h
    · cases h
    · split at h
      · next hvalue _ =>
        have hnonneg := readUnsigned?_nonneg hvalue
        rw [Option.some.inj (Except.ok.inj h)] at hnonneg
        exact absurd hnonneg (by decide)
      · next value hvalue _ =>
        -- the least number is its own negation
        have hnonneg := readUnsigned?_nonneg hvalue
        have hmin : value = Int32.minValue := by
          rw [← @Int32.neg_neg value, Option.some.inj (Except.ok.inj h)]
          decide
        rw [hmin] at hnonneg
        exact absurd hnonneg (by decide)
      · cases h

/-- Positions that are read can be written. -/
theorem readText_writable {text : List Char} {places : Nth}
    (h : readText text = .ok (some places)) :
    places.step = 0 ∨ places.offset ≠ Int32.minValue := by
  unfold readText at h
  split at h
  · obtain rfl := Option.some.inj (Except.ok.inj h)
    exact Or.inr (by decide)
  · split at h
    · obtain rfl := Option.some.inj (Except.ok.inj h)
      exact Or.inr (by decide)
    · split at h
      · obtain rfl := Option.some.inj (Except.ok.inj h)
        exact Or.inl rfl
      · split at h
        · cases h
        · split at h
          · cases h
          -- an offset after `n` is a number that fits or its negative, so never the least one
          · next rest _ _ _ _ =>
            cases hoffset : readOffset (trim rest) with
            | error failure =>
              rw [hoffset] at h
              cases h
            | ok offset? =>
              rw [hoffset] at h
              obtain ⟨offset, rfl, rfl⟩ := Option.map_eq_some_iff.1 (Except.ok.inj h)
              exact Or.inr (readOffset_ne_minValue hoffset)

/-- Positions that the parser reads can be written. -/
theorem parse_writable {arguments : List Token} {places : Nth}
    (h : parse arguments = .ok places) :
    places.step = 0 ∨ places.offset ≠ Int32.minValue := by
  unfold parse at h
  cases hread : readText ((argumentText arguments).map Char.toLower) with
  | error failure =>
    rw [hread] at h
    exact nomatch h
  | ok places? =>
    rw [hread] at h
    cases places? with
    | none => exact nomatch h
    | some read =>
      obtain rfl : read = places := Except.ok.inj h
      exact readText_writable hread

end Nth

end Selectors
