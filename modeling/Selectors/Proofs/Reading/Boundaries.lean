import Selectors.Proofs.RoundTrip.Joining
import Selectors.Proofs.RoundTrip.Positions

/-!
# Boundaries — where a number ends

A number is read with up to three characters of lookahead: after a sign, a point or the letter of an
exponent there has to be a digit. What stands behind a character that no number has makes no
difference to that, and neither does it whether anything stands there at all. So a text is read up
to such a character as it is by itself.

* **`startsNumber_boundary`** — whether a number starts.
* **`takeNumber_boundary`** — what is taken as the number.
* **`readName_of_head`** and **`readNumber_of_head`** — the token of a name or a number, by the
  character behind it.
-/

namespace Selectors

namespace Lexer

/-! ## First characters -/

/-- Only a backslash starts an escape. -/
theorem startsEscape_of_ne {c : Char} (h : c ≠ '\\') (text : List Char) :
    startsEscape (c :: text) = false := by
  rw [startsEscape]
  · exact fun _ heq => h (List.cons.inj heq).1
  · exact fun _ heq => h (List.cons.inj heq).1

/-- A backslash starts an escape unless a line ends behind it. -/
theorem startsEscape_of_head {text : List Char} (h : text.head? ≠ some '\n') :
    startsEscape ('\\' :: text) = true := by
  rw [startsEscape]
  rintro rest rfl
  exact h rfl

/-- Without a hyphen in front the first character decides whether a name starts. -/
theorem startsName_of_ne {c : Char} (h : c ≠ '-') (text : List Char) :
    startsName (c :: text) = (isNameStart c || startsEscape (c :: text)) := by
  rw [startsName]
  exact fun _ _ heq => absurd heq h

/-- Where no comment starts nothing is skipped. -/
theorem skipComments_of_not_comment {text : List Char} (h : ∀ rest, text ≠ '/' :: '*' :: rest) :
    skipComments text = text := by
  rw [skipComments]
  exact h

/-- No number goes on with the text. -/
def EndsNumber (rest : List Char) : Prop :=
  ∀ c ∈ rest.head?, isNumberChar c = false

variable {rest : List Char}

/-- What ends a number starts with nothing that a number could go on with. -/
theorem EndsNumber.head (h : EndsNumber rest) {c : Char} (hc : c ∈ rest.head?) :
    c.isDigit = false ∧ c ∉ ['+', '-', '.', 'e', 'E'] := by
  have hnumber := h c hc
  simp only [isNumberChar, Bool.or_eq_false_iff, beq_eq_false_iff_ne] at hnumber
  obtain ⟨⟨⟨⟨⟨hdigit, hplus⟩, hminus⟩, hpoint⟩, hlower⟩, hupper⟩ := hnumber
  exact ⟨hdigit, by simp [hplus, hminus, hpoint, hlower, hupper]⟩

/-- A character that is in no number ends one. -/
theorem endsNumber_cons {c : Char} (h : isNumberChar c = false) (rest : List Char) :
    EndsNumber (c :: rest) := by
  rintro d ⟨⟩
  exact h

/-! ## Whether a number starts -/

private theorem startsUnsigned_of_ne {c : Char} (h : c ≠ '.') (text : List Char) :
    startsUnsigned (c :: text) = c.isDigit := by
  rw [startsUnsigned]
  exact fun _ _ heq => absurd heq h

private theorem startsUnsigned_of_endsNumber (h : EndsNumber rest) :
    startsUnsigned rest = false := by
  cases rest with
  | nil => rfl
  | cons c rest =>
    obtain ⟨hdigit, hother⟩ := h.head rfl
    rw [startsUnsigned_of_ne (fun heq => hother (by simp [heq])), hdigit]

/-- Whether digits start is seen in front of what ends a number. -/
theorem startsUnsigned_boundary (h : EndsNumber rest) (text : List Char) :
    startsUnsigned (text ++ rest) = startsUnsigned text := by
  cases text with
  | nil => exact startsUnsigned_of_endsNumber h
  | cons c text =>
    by_cases hc : c = '.'
    · subst hc
      cases text with
      | nil =>
        cases rest with
        | nil => rfl
        | cons d rest => exact (h.head rfl).1
      | cons d text => rfl
    · rw [List.cons_append, startsUnsigned_of_ne hc, startsUnsigned_of_ne hc]

private theorem startsNumber_of_ne {c : Char} (hplus : c ≠ '+') (hminus : c ≠ '-')
    (text : List Char) :
    startsNumber (c :: text) = startsUnsigned (c :: text) := by
  rw [startsNumber]
  · exact fun _ heq => hplus (List.cons.inj heq).1
  · exact fun _ heq => hminus (List.cons.inj heq).1

/-- Whether a number starts is seen in front of what ends it. -/
theorem startsNumber_boundary (h : EndsNumber rest) (text : List Char) :
    startsNumber (text ++ rest) = startsNumber text := by
  cases text with
  | nil =>
    cases rest with
    | nil => rfl
    | cons c rest =>
      obtain ⟨-, hother⟩ := h.head rfl
      rw [List.nil_append, startsNumber_of_ne (fun heq => hother (by simp [heq]))
        (fun heq => hother (by simp [heq])), startsUnsigned_of_endsNumber h]
      rfl
  | cons c text =>
    -- a sign is taken off, and the rest is the unsigned case
    by_cases hplus : c = '+'
    · subst hplus
      exact startsUnsigned_boundary h text
    by_cases hminus : c = '-'
    · subst hminus
      exact startsUnsigned_boundary h text
    rw [List.cons_append, startsNumber_of_ne hplus hminus, startsNumber_of_ne hplus hminus]
    exact startsUnsigned_boundary h (c :: text)

/-! ## What is taken -/

private theorem takeSign_of_ne {c : Char} (hplus : c ≠ '+') (hminus : c ≠ '-') (text : List Char) :
    takeSign (c :: text) = ([], c :: text) := by
  rw [takeSign]
  · exact fun _ heq => hplus (List.cons.inj heq).1
  · exact fun _ heq => hminus (List.cons.inj heq).1

private theorem takeSign_boundary (h : EndsNumber rest) (text : List Char) :
    takeSign (text ++ rest) = ((takeSign text).1, (takeSign text).2 ++ rest) := by
  cases text with
  | nil =>
    cases rest with
    | nil => rfl
    | cons c rest =>
      obtain ⟨-, hother⟩ := h.head rfl
      exact takeSign_of_ne (fun heq => hother (by simp [heq])) (fun heq => hother (by simp [heq])) rest
  | cons c text =>
    by_cases hplus : c = '+'
    · subst hplus
      rfl
    by_cases hminus : c = '-'
    · subst hminus
      rfl
    rw [List.cons_append, takeSign_of_ne hplus hminus, takeSign_of_ne hplus hminus]
    rfl

private theorem takeDigits_boundary (h : EndsNumber rest) (text : List Char) :
    takeDigits (text ++ rest) = ((takeDigits text).1, (takeDigits text).2 ++ rest) := by
  unfold takeDigits
  induction text with
  | nil =>
    cases rest with
    | nil => rfl
    | cons c rest =>
      have hc : ¬ c.isDigit = true := Bool.eq_false_iff.1 (h.head rfl).1
      rw [List.nil_append, List.takeWhile_cons_of_neg hc, List.dropWhile_cons_of_neg hc]
      rfl
  | cons c text ih =>
    obtain ⟨htake, hdrop⟩ := Prod.mk.inj ih
    by_cases hc : c.isDigit = true
    · rw [List.cons_append, List.takeWhile_cons_of_pos hc, List.dropWhile_cons_of_pos hc,
        List.takeWhile_cons_of_pos hc, List.dropWhile_cons_of_pos hc, htake, hdrop]
    · rw [List.cons_append, List.takeWhile_cons_of_neg hc, List.dropWhile_cons_of_neg hc,
        List.takeWhile_cons_of_neg hc, List.dropWhile_cons_of_neg hc, List.cons_append]

private theorem takeFraction_of_ne {c : Char} (h : c ≠ '.') (text : List Char) :
    takeFraction (c :: text) = ([], c :: text) := by
  rw [takeFraction]
  exact fun _ _ heq => h (List.cons.inj heq).1

private theorem takeFraction_boundary (h : EndsNumber rest) (text : List Char) :
    takeFraction (text ++ rest) = ((takeFraction text).1, (takeFraction text).2 ++ rest) := by
  cases text with
  | nil => exact takeFraction_eq_nil fun c hc heq => (h.head hc).2 (by simp [heq])
  | cons c text =>
    by_cases hc : c = '.'
    · subst hc
      -- a point that ends the text starts no fraction, since no digit comes after the boundary
      cases text with
      | nil =>
        cases rest with
        | nil => rfl
        | cons d rest =>
          have hd : ¬ d.isDigit = true := Bool.eq_false_iff.1 (h.head rfl).1
          exact if_neg hd
      | cons d text =>
        rw [List.cons_append, List.cons_append, takeFraction, takeFraction]
        split
        · rw [← List.cons_append, takeDigits_boundary h]
        · rfl
    · rw [List.cons_append, takeFraction_of_ne hc, takeFraction_of_ne hc, List.cons_append]

private theorem takeExponent_boundary (h : EndsNumber rest) (text : List Char) :
    takeExponent (text ++ rest) = ((takeExponent text).1, (takeExponent text).2 ++ rest) := by
  cases text with
  | nil =>
    refine takeExponent_eq_nil fun c hc => ⟨?_, ?_⟩
    · exact fun heq => (h.head hc).2 (by simp [heq])
    · exact fun heq => (h.head hc).2 (by simp [heq])
  | cons e text =>
    rw [List.cons_append, takeExponent, takeExponent]
    split
    · rw [takeSign_boundary h]
      dsimp only
      rw [takeDigits_boundary h]
      dsimp only
      split
      · rfl
      · rfl
    · rfl

/-- A number is taken as it is without the text that it cannot go on with. -/
theorem takeNumber_boundary (h : EndsNumber rest) (text : List Char) :
    takeNumber (text ++ rest) = ((takeNumber text).1, (takeNumber text).2 ++ rest) := by
  simp only [takeNumber, takeSign_boundary h, takeDigits_boundary h, takeFraction_boundary h,
    takeExponent_boundary h]

/-! ## What follows a name or a number -/

variable {text name digits : List Char}

/-- A name in front of a parenthesis is a function. -/
theorem readName_function (h : takeName text = (name, '(' :: rest)) :
    readName text = (.function (String.ofList name), rest) := by
  rw [readName, h]
  rfl

/-- A name in front of anything else stands for itself. -/
theorem readName_of_head (h : takeName text = (name, rest)) (hparen : rest.head? ≠ some '(') :
    readName text = (.ident (String.ofList name), rest) := by
  rw [readName, h]
  split
  · next heq =>
    obtain ⟨-, rfl⟩ := Prod.mk.inj heq
    exact absurd rfl hparen
  · next heq =>
    obtain ⟨rfl, rfl⟩ := Prod.mk.inj heq
    rfl

/-- A number in front of a name has it as its unit. -/
theorem readNumber_dimension (h : takeNumber text = (digits, rest))
    (hname : startsName rest = true) :
    readNumber text =
      (.dimension (String.ofList digits) (String.ofList (takeName rest).1), (takeName rest).2) := by
  rw [readNumber, h]
  exact if_pos hname

/-- A number in front of a percent sign is a percentage. -/
theorem readNumber_percentage (h : takeNumber text = (digits, '%' :: rest)) :
    readNumber text = (.percentage (String.ofList digits), rest) := by
  rw [readNumber, h]
  rfl

/-- A number in front of anything else stands for itself. -/
theorem readNumber_of_head (h : takeNumber text = (digits, rest))
    (hname : startsName rest = false) (hpercent : rest.head? ≠ some '%') :
    readNumber text = (.number (String.ofList digits), rest) := by
  rw [readNumber, h]
  refine (if_neg (Bool.eq_false_iff.1 hname)).trans ?_
  split
  · exact absurd rfl hpercent
  · rfl

end Lexer

end Selectors
