import Selectors.Text
import Selectors.Token

/-!
# Escapes — any text can be written and is read back

A character is written as a backslash, its number in hexadecimal digits and a space. The reader of
escapes takes up to six digits and one blank; a number of a character has no more than six, and so
the space ends it whatever follows. The one character that cannot be written is U+0000, since the
number zero is read as the replacement character.

A number can be written in several ways: the letters among the digits are of either case, and zeros
may stand in front of it as long as there are six digits at most. `escaped` is the shortest writing,
and what is read back does not depend on which one is taken.

* **`NumberOf`** and **`Escapes`** — how a number is written, and a text.
* **`takeEscape_of_numberOf`** — one escape.
* **`takeName_of_escapes`** and **`takeString_of_escapes`** — a name and a string made of escapes.
-/

namespace Selectors

namespace Lexer

/-! ## Digits -/

private theorem hexDigit_digitChar :
    ∀ n < 16, isHexDigit n.digitChar = true ∧ hexDigitValue n.digitChar = n := by
  decide

private theorem hexValue_concat (digits : List Char) (c : Char) :
    hexValue (digits ++ [c]) = 16 * hexValue digits + hexDigitValue c := by
  unfold hexValue
  rw [List.foldl_append]
  rfl

/-- The hexadecimal digits of a number are digits, and their value is the number. -/
theorem hexValue_toDigits (n : Nat) :
    (∀ c ∈ Nat.toDigits 16 n, isHexDigit c = true) ∧ hexValue (Nat.toDigits 16 n) = n := by
  -- on the number: its digits are those of its sixteenth and one more
  induction n using Nat.strongRecOn with
  | ind n ih =>
    rw [Nat.toDigits_eq_if (by omega)]
    split
    · next hsmall =>
      obtain ⟨hdigit, hvalue⟩ := hexDigit_digitChar n hsmall
      refine ⟨?_, ?_⟩
      · intro c hc
        rw [List.mem_singleton.1 hc]
        exact hdigit
      · show 16 * 0 + hexDigitValue n.digitChar = n
        rw [hvalue]
        omega
    · obtain ⟨hdigits, hvalue⟩ := ih (n / 16) (by omega)
      obtain ⟨hlast, hlastValue⟩ := hexDigit_digitChar (n % 16) (by omega)
      refine ⟨?_, ?_⟩
      · intro c hc
        rcases List.mem_append.1 hc with hc | hc
        · exact hdigits c hc
        · rw [List.mem_singleton.1 hc]
          exact hlast
      · rw [hexValue_concat, hvalue, hlastValue]
        omega

private theorem length_toDigits_toNat_le (c : Char) : (Nat.toDigits 16 c.toNat).length ≤ 6 := by
  rw [Nat.length_toDigits_le_iff (by omega) (by omega)]
  have hvalid : c.toNat < 0x110000 := by
    rcases c.valid with hlow | ⟨-, hhigh⟩
    · exact Nat.lt_of_lt_of_le hlow (by decide)
    · exact hhigh
  exact Nat.lt_of_lt_of_le hvalid (by decide)

/-- The digits write the number of the character, and are few enough for an escape. -/
structure NumberOf (c : Char) (digits : List Char) : Prop where
  ne_nil : digits ≠ []
  length_le : digits.length ≤ 6
  hex : ∀ d ∈ digits, isHexDigit d = true
  value : hexValue digits = c.toNat

/-- Whether digits are the number of a character can be computed. -/
theorem numberOf_iff {c : Char} {digits : List Char} :
    NumberOf c digits ↔
      (!digits.isEmpty && decide (digits.length ≤ 6) && digits.all isHexDigit &&
        hexValue digits == c.toNat) = true := by
  simp only [Bool.and_eq_true, Bool.not_eq_true', List.isEmpty_eq_false_iff, decide_eq_true_iff,
    List.all_eq_true, beq_iff_eq]
  constructor
  · rintro ⟨hne, hlength, hhex, hvalue⟩
    exact ⟨⟨⟨hne, hlength⟩, hhex⟩, hvalue⟩
  · rintro ⟨⟨⟨hne, hlength⟩, hhex⟩, hvalue⟩
    exact ⟨hne, hlength, hhex, hvalue⟩

instance (c : Char) (digits : List Char) : Decidable (NumberOf c digits) :=
  decidable_of_iff _ numberOf_iff.symm

/-- The hexadecimal digits of a character are its number. -/
theorem numberOf_toDigits (c : Char) : NumberOf c (Nat.toDigits 16 c.toNat) where
  ne_nil := Nat.toDigits_ne_nil
  length_le := length_toDigits_toNat_le c
  hex := (hexValue_toDigits c.toNat).1
  value := (hexValue_toDigits c.toNat).2

/-- Some first digit makes an escape of the number. -/
theorem NumberOf.exists_cons {c : Char} {digits : List Char} (h : NumberOf c digits) :
    ∃ first others, digits = first :: others ∧ isHexDigit first = true ∧ first ≠ '\n' := by
  obtain ⟨first, others, rfl⟩ := List.exists_cons_of_ne_nil h.ne_nil
  have hfirst : isHexDigit first = true := h.hex first List.mem_cons_self
  refine ⟨first, others, rfl, hfirst, ?_⟩
  rintro rfl
  exact absurd hfirst (by decide)

/-! ## Escapes -/

/-- The second text writes the first one in escapes. -/
inductive Escapes : List Char → List Char → Prop where
  | nil : Escapes [] []
  | cons {c : Char} {digits text written : List Char} :
    NumberOf c digits → Escapes text written →
      Escapes (c :: text) ('\\' :: (digits ++ ' ' :: written))

/-- The shortest escape of a character. -/
def escape (c : Char) : List Char :=
  '\\' :: (Nat.toDigits 16 c.toNat ++ [' '])

/-- A text in escapes. -/
def escaped (text : List Char) : List Char :=
  text.flatMap escape

/-- The shortest writing is one of the writings of a text. -/
theorem escapes_escaped (text : List Char) : Escapes text (escaped text) := by
  induction text with
  | nil => exact .nil
  | cons c text ih =>
    rw [show escaped (c :: text) =
        '\\' :: (Nat.toDigits 16 c.toNat ++ ' ' :: escaped text) by simp [escaped, escape]]
    exact .cons (numberOf_toDigits c) ih

/-- The text has no character of number zero. -/
def NulFree (text : List Char) : Prop :=
  ∀ c ∈ text, c ≠ Char.ofNat 0

private theorem nulFree_iff {text : List Char} :
    NulFree text ↔ text.all (· != Char.ofNat 0) = true := by
  simp only [NulFree, List.all_eq_true, bne_iff_ne]

instance (text : List Char) : Decidable (NulFree text) :=
  decidable_of_iff _ nulFree_iff.symm

/-- The character of its own number is itself, U+0000 apart. -/
theorem charOfNumber_toNat {c : Char} (h : c ≠ Char.ofNat 0) : charOfNumber c.toNat = c := by
  have hne : c.toNat ≠ 0 := by
    intro hzero
    refine h ?_
    rw [← hzero, Char.ofNat_toNat]
  unfold charOfNumber
  rw [if_pos ⟨hne, c.valid⟩, Char.ofNat_toNat]

/-- The escape of a character is read as the character, whatever follows. -/
theorem takeEscape_of_numberOf {c : Char} {digits : List Char} (hnumber : NumberOf c digits)
    (h : c ≠ Char.ofNat 0) (rest : List Char) :
    takeEscape (digits ++ ' ' :: rest) = (c, rest) := by
  obtain ⟨first, others, rfl, hfirst, -⟩ := hnumber.exists_cons
  have hlength : others.length + 1 ≤ 6 := hnumber.length_le
  -- the space ends the digits before the sixth further one
  have htake : ((others ++ ' ' :: rest).take 5).takeWhile isHexDigit = others := by
    rw [List.take_append, List.take_of_length_le (by omega), List.takeWhile_append_of_pos]
    · cases 5 - others.length with
      | zero => rw [List.take_zero, List.takeWhile_nil, List.append_nil]
      | succ n =>
        rw [List.take_succ_cons, List.takeWhile_cons_of_neg (by decide), List.append_nil]
    · intro d hd
      exact hnumber.hex d (List.mem_cons_of_mem _ hd)
  have hskip : skipBlank ((others ++ ' ' :: rest).drop others.length) = rest := by
    rw [List.drop_left]
    rfl
  rw [List.cons_append, takeEscape, if_pos hfirst]
  dsimp only
  rw [htake, hnumber.value, hskip, charOfNumber_toNat h]

/-- A backslash and a number start an escape. -/
theorem startsEscape_of_numberOf {c : Char} {digits : List Char} (h : NumberOf c digits)
    (rest : List Char) : startsEscape ('\\' :: (digits ++ rest)) = true := by
  obtain ⟨first, others, rfl, -, hfirst⟩ := h.exists_cons
  rw [List.cons_append, startsEscape]
  rintro tail heq
  exact hfirst (List.cons.inj heq).1

/-- A text that is not empty is written from a backslash on. -/
theorem Escapes.exists_backslash {text written : List Char} (h : Escapes text written)
    (hne : text ≠ []) (rest : List Char) :
    ∃ tail, written ++ rest = '\\' :: tail ∧ startsEscape (written ++ rest) = true := by
  cases h with
  | nil => exact absurd rfl hne
  | @cons c digits text written hnumber _ =>
    refine ⟨digits ++ ' ' :: written ++ rest, rfl, ?_⟩
    rw [List.cons_append, List.append_assoc]
    exact startsEscape_of_numberOf hnumber _

/-! ## Names and strings -/

/-- A name cannot go on, and is not the name of a function. -/
def EndsName (rest : List Char) : Prop :=
  ∀ c ∈ rest.head?, isNameChar c = false ∧ c ≠ '\\' ∧ c ≠ '('

/-- No name is taken where none goes on. -/
theorem takeName_of_ends {rest : List Char}
    (h : ∀ c ∈ rest.head?, isNameChar c = false ∧ c ≠ '\\') : takeName rest = ([], rest) := by
  cases rest with
  | nil => rw [takeName]
  | cons c rest =>
    obtain ⟨hname, hescape⟩ := h c rfl
    have hstarts : startsEscape (c :: rest) = false := by
      rw [startsEscape]
      · exact fun _ heq => hescape (List.cons.inj heq).1
      · exact fun _ heq => hescape (List.cons.inj heq).1
    rw [takeName, if_neg (by rw [hname]; exact Bool.false_ne_true),
      if_neg (by rw [hstarts]; exact Bool.false_ne_true)]

/-- A name without escapes is read as it stands. -/
theorem takeName_plain {name rest : List Char} (hname : ∀ c ∈ name, isNameChar c = true)
    (hrest : ∀ c ∈ rest.head?, isNameChar c = false ∧ c ≠ '\\') :
    takeName (name ++ rest) = (name, rest) := by
  induction name with
  | nil => exact takeName_of_ends hrest
  | cons c name ih =>
    have htail : ∀ d ∈ name, isNameChar d = true := fun d hd =>
      hname d (List.mem_cons_of_mem _ hd)
    rw [List.cons_append, takeName, if_pos (hname c List.mem_cons_self), ih htail]

/-- A name in escapes is read as the name. -/
theorem takeName_of_escapes {name written rest : List Char} (h : Escapes name written)
    (hname : NulFree name) (hrest : ∀ c ∈ rest.head?, isNameChar c = false ∧ c ≠ '\\') :
    takeName (written ++ rest) = (name, rest) := by
  induction h with
  | nil => exact takeName_of_ends hrest
  | @cons c digits name written hnumber _ ih =>
    have htail : NulFree name := fun d hd => hname d (List.mem_cons_of_mem _ hd)
    have hstarts := startsEscape_of_numberOf hnumber (' ' :: (written ++ rest))
    have htake := takeEscape_of_numberOf hnumber (hname c List.mem_cons_self) (written ++ rest)
    rw [List.cons_append, List.append_assoc, List.cons_append, takeName, if_neg (by decide),
      if_pos hstarts, htake, ih htail]

/-- A string in escapes is read up to its quote, whatever follows. -/
theorem takeString_of_escapes {content written : List Char} (h : Escapes content written)
    (hcontent : NulFree content) (rest : List Char) :
    takeString '"' (written ++ '"' :: rest) = (some content, rest) := by
  induction h with
  | nil =>
    show takeString '"' ('"' :: rest) = _
    unfold takeString
    exact if_pos (by decide)
  | @cons c digits content written hnumber _ ih =>
    have htail : NulFree content := fun d hd => hcontent d (List.mem_cons_of_mem _ hd)
    have htake := takeEscape_of_numberOf hnumber (hcontent c List.mem_cons_self)
      (written ++ '"' :: rest)
    obtain ⟨first, others, rfl, -, hfirst⟩ := hnumber.exists_cons
    rw [List.cons_append] at htake
    rw [show '\\' :: (first :: others ++ ' ' :: written) ++ '"' :: rest =
        '\\' :: first :: (others ++ ' ' :: (written ++ '"' :: rest)) by simp]
    rw [takeString, if_neg (by decide), if_neg (by decide), if_pos (by decide), htake, ih htail]
    · rfl
    · exact hfirst

end Lexer

end Selectors
