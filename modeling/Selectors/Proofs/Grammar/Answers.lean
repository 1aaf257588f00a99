import Selectors.Proofs.Grammar.Conditions
import Selectors.Proofs.RoundTrip.Positions

/-!
# Answers — readers that come to a result or to an error

Reading a simple selector ends in a result or in an error that says what is wrong, with one
exception. The first byte after the `n` of an An+B expression is taken for a sign, and where a
character of more than one byte stands there, the text cannot be divided at that place. Then
reading breaks off, which is neither.

A reader that is put together from others answers if they do. So the exception has to be followed
only through the readers that a function is read by; all the others answer whatever the tokens are.

* **`Answers`** — reading comes to a result or to an error.
* **`Nth.WideSign`** and **`Nth.parse_eq_broken_iff`** — the expressions that cannot be divided.
* **`readFunction_eq_broken_iff`** and **`readPart_eq_broken_iff`** — functions and conditions.
-/

namespace Selectors

namespace Reader

/-! ## Coming to an answer -/

/-- Reading comes to a result or to an error. -/
def Answers {α : Type} (reading : Reading α) : Prop :=
  (∃ a, reading = .ok a) ∨ ∃ error, reading = .error (.invalid error)

section

variable {α β : Type}

/-- A reading answers unless it breaks off inside a character. -/
theorem answers_iff {reading : Reading α} :
    Answers reading ↔ reading ≠ .error .brokenCharacter := by
  match reading with
  | .ok a => exact iff_of_true (Or.inl ⟨a, rfl⟩) nofun
  | .error (.invalid error) => exact iff_of_true (Or.inr ⟨error, rfl⟩) nofun
  | .error .brokenCharacter =>
    refine iff_of_false ?_ (fun hne => hne rfl)
    rintro (⟨a, h⟩ | ⟨error, h⟩)
    · exact nomatch h
    · exact nomatch h

/-- A result is an answer. -/
theorem answers_ok (a : α) : Answers (.ok a : Reading α) :=
  Or.inl ⟨a, rfl⟩

/-- A rejected text is an answer. -/
theorem answers_reject (error : SelectorError) : Answers (reject error : Reading α) :=
  Or.inr ⟨error, rfl⟩

/-- Refused tokens are an answer. -/
theorem answers_refuse (tokens : List Token) (expected : Expected) :
    Answers (refuse tokens expected : Reading α) :=
  answers_reject _

/-- A sequence of readings breaks off if the first one does, or the second one after it. -/
theorem bind_eq_broken {first : Reading α} {next : α → Reading β} :
    (first >>= next) = .error .brokenCharacter ↔
      first = .error .brokenCharacter ∨
        ∃ a, first = .ok a ∧ next a = .error .brokenCharacter := by
  cases first <;> simp [bind, Except.bind]

/-- Changing the result does not change where a reading breaks off. -/
theorem map_eq_broken {reading : Reading α} {change : α → β} :
    reading.map change = .error .brokenCharacter ↔ reading = .error .brokenCharacter := by
  cases reading <;> simp [Except.map]

/-- Two readings that answer do so one after the other. -/
theorem Answers.bind {first : Reading α} {next : α → Reading β} (hfirst : Answers first)
    (hnext : ∀ a, Answers (next a)) : Answers (first >>= next) := by
  rw [answers_iff, Ne, bind_eq_broken]
  rintro (hbroken | ⟨a, -, hbroken⟩)
  · exact answers_iff.1 hfirst hbroken
  · exact answers_iff.1 (hnext a) hbroken

/-- A reading that answers does so with its result changed. -/
theorem Answers.map {reading : Reading α} (h : Answers reading) (change : α → β) :
    Answers (reading.map change) := by
  rw [answers_iff, Ne, map_eq_broken]
  exact answers_iff.1 h

end

/-! ## Readers that always answer -/

private theorem answers_resolve (namespaces : Namespaces) (name : String) :
    Answers (resolve namespaces name) := by
  rw [resolve]
  cases namespaces.resolve name with
  | ok url => exact answers_ok url
  | error error => exact answers_reject error

private theorem answers_readElementName (tokens : List Token) :
    Answers (readElementName tokens) := by
  unfold readElementName
  split
  · exact answers_ok _
  · exact answers_ok _
  · exact answers_refuse _ _

/-- Reading a type answers. -/
theorem answers_readType (namespaces : Namespaces) (tokens : List Token) :
    Answers (readType namespaces tokens) := by
  unfold readType
  split
  · refine (answers_resolve _ _).bind fun url => ?_
    exact (answers_readElementName _).bind fun _ => answers_ok _
  · exact (answers_readElementName _).bind fun _ => answers_ok _
  · exact (answers_readElementName _).bind fun _ => answers_ok _
  · exact answers_ok _
  · exact answers_ok _
  · exact answers_ok _

private theorem answers_readScope (namespaces : Namespaces) (tokens : List Token) :
    Answers (readScope namespaces tokens) := by
  unfold readScope
  split
  · exact answers_ok _
  · exact answers_ok _
  · exact (answers_resolve _ _).bind fun _ => answers_ok _
  · exact answers_ok _
  · exact answers_ok _
  · exact answers_ok _

private theorem answers_readAttributeName (tokens : List Token) :
    Answers (readAttributeName tokens) := by
  unfold readAttributeName
  split
  · exact answers_ok _
  · exact answers_refuse _ _

private theorem answers_readOperator (tokens : List Token) : Answers (readOperator tokens) := by
  unfold readOperator
  split
  · exact answers_ok _
  · split
    · exact answers_ok _
    · exact answers_reject _
  · exact answers_refuse _ _

private theorem answers_readValue (name : String) (tokens : List Token) :
    Answers (readValue name tokens) := by
  unfold readValue
  split
  · exact answers_ok _
  · exact answers_ok _
  · exact answers_reject _

private theorem answers_readClosing (name : String) (tokens : List Token) :
    Answers (readClosing name tokens) := by
  unfold readClosing
  split
  · exact answers_ok _
  · exact answers_reject _

/-- Reading a condition on an attribute answers. -/
theorem answers_readAttribute (namespaces : Namespaces) (tokens : List Token) :
    Answers (readAttribute namespaces tokens) := by
  refine (answers_readScope _ _).bind fun (scope, rest) => ?_
  refine (answers_readAttributeName _).bind fun (name, rest) => ?_
  dsimp only
  split
  · exact answers_ok _
  · refine (answers_readOperator _).bind fun (operator, rest) => ?_
    refine (answers_readValue _ _).bind fun (value, rest) => ?_
    exact (answers_readClosing _ _).bind fun _ => answers_ok _

/-- A name after a colon gets an answer. -/
theorem answers_partOfName (name : String) : Answers (partOfName name) := by
  unfold partOfName
  split
  · exact answers_ok _
  · exact answers_ok _
  · exact answers_reject _

/-- Splitting off arguments answers. -/
theorem answers_readArguments (tokens : List Token) : Answers (readArguments tokens) := by
  unfold readArguments
  split
  · exact answers_ok _
  · exact answers_reject _

/-- Reading a language range answers. -/
theorem answers_readRange (arguments : List Token) : Answers (readRange arguments) := by
  unfold readRange
  dsimp only
  split
  · refine (answers_ok _).bind fun _ => ?_
    split
    · exact answers_ok _
    · exact answers_refuse _ _
  · refine (answers_ok _).bind fun _ => ?_
    split
    · exact answers_ok _
    · exact answers_refuse _ _
  · refine (answers_refuse _ _).bind fun _ => ?_
    split
    · exact answers_ok _
    · exact answers_refuse _ _

end Reader

/-! ## An+B expressions -/

namespace Nth

open Reader

/-- After the steps and `n`, and after any spaces, comes a character of more than one byte. -/
def WideSign (text : List Char) : Prop :=
  ∃ front gap sign back, text = front ++ 'n' :: (gap ++ sign :: back) ∧ 'n' ∉ front ∧
    (readStep? front).isSome ∧ (∀ c ∈ gap, isSpace c = true) ∧ isSpace sign = false ∧
    1 < sign.utf8Size

/-- What stands first after trimming stands behind spaces and is none. -/
theorem trimStart_eq_cons_iff {text rest : List Char} {c : Char} :
    trimStart text = c :: rest ↔
      ∃ gap, text = gap ++ c :: rest ∧ (∀ s ∈ gap, isSpace s = true) ∧ isSpace c = false := by
  constructor
  · intro h
    refine ⟨text.takeWhile isSpace, ?_, fun s hs => List.mem_takeWhile_imp hs, ?_⟩
    · rw [← h]
      exact List.takeWhile_append_dropWhile.symm
    · have hhead := List.head?_dropWhile_not isSpace text
      rw [show text.dropWhile isSpace = c :: rest from h] at hhead
      simpa using hhead
  · rintro ⟨gap, rfl, hgap, hc⟩
    rw [trimStart, List.dropWhile_append_of_pos hgap, List.dropWhile_cons_of_neg (by simp [hc])]

/-- What a trimmed text starts with is the first that is no space. -/
theorem head?_trim_eq_some_iff {text : List Char} {c : Char} :
    (trim text).head? = some c ↔
      ∃ gap back, text = gap ++ c :: back ∧ (∀ s ∈ gap, isSpace s = true) ∧
        isSpace c = false := by
  have hstart : (trim text).head? = (trimStart text).head? := by
    cases htext : trimStart text with
    | nil =>
      rw [trim, htext]
      rfl
    | cons first rest =>
      obtain ⟨-, -, -, hfirst⟩ := trimStart_eq_cons_iff.1 htext
      have hlast : trimStart [first] = [first] := trimStart_cons_of_not_isSpace hfirst
      -- the blanks at the end are cut off, at most as far as the first character
      rw [trim, htext, List.reverse_cons, trimStart, List.dropWhile_append]
      split
      · rw [show [first].dropWhile isSpace = [first] from hlast]
        rfl
      · rw [List.reverse_append]
        rfl
  rw [hstart, List.head?_eq_some_iff]
  constructor
  · rintro ⟨back, hback⟩
    obtain ⟨gap, htext, hgap, hc⟩ := trimStart_eq_cons_iff.1 hback
    exact ⟨gap, back, htext, hgap, hc⟩
  · rintro ⟨gap, back, htext, hgap, hc⟩
    exact ⟨back, trimStart_eq_cons_iff.2 ⟨gap, htext, hgap, hc⟩⟩

/-- An offset breaks off exactly in a first character of several bytes. -/
theorem readOffset_eq_broken_iff {text : List Char} :
    readOffset text = .error .brokenCharacter ↔
      ∃ sign, text.head? = some sign ∧ 1 < sign.utf8Size := by
  cases text with
  | nil => exact iff_of_false nofun (by simp)
  | cons sign rest =>
    rw [List.head?_cons]
    unfold readOffset
    dsimp only
    constructor
    · intro h
      split at h
      · next hwide => exact ⟨sign, rfl, hwide⟩
      · split at h
        · exact nomatch h
        · exact nomatch h
        · exact nomatch h
    · rintro ⟨_, ⟨⟩, hwide⟩
      rw [if_pos hwide]

/-- What stands in front of the first `n` is read as steps, and what follows it as an offset. -/
theorem readText_term {front : List Char} {step : Int32} (hfront : 'n' ∉ front)
    (hstep : readStep? front = some step) (back : List Char) :
    readText (front ++ 'n' :: back) =
      (readOffset (trim back)).map (·.map fun offset => ⟨step, offset⟩) := by
  have hbefore : ∀ c ∈ front, (c != 'n') = true := by
    intro c hc
    refine bne_iff_ne.2 ?_
    rintro rfl
    exact hfront hc
  have htake : (front ++ 'n' :: back).takeWhile (· != 'n') = front := by
    rw [List.takeWhile_append_of_pos hbefore, List.takeWhile_cons_of_neg (by decide),
      List.append_nil]
  have hdrop : (front ++ 'n' :: back).dropWhile (· != 'n') = 'n' :: back := by
    rw [List.dropWhile_append_of_pos hbefore, List.dropWhile_cons_of_neg (by decide)]
  have hodd : front ++ 'n' :: back ≠ "odd".toList := by
    intro heq
    have hmem : 'n' ∈ "odd".toList := by
      rw [← heq]
      simp
    exact absurd hmem (by decide)
  -- `even` has an `n` too, but `eve` before it is no step
  have heven : front ++ 'n' :: back ≠ "even".toList := by
    intro heq
    rw [heq] at htake
    rw [← htake, show readStep? ("even".toList.takeWhile (· != 'n')) = none by decide] at hstep
    exact nomatch hstep
  rw [readText, if_neg hodd, if_neg heven, readInt32?_eq_none (by simp), hdrop, htake]
  dsimp only
  rw [hstep]

/-- Positions break off exactly where the sign would be such a character. -/
theorem readText_eq_broken_iff {text : List Char} :
    readText text = .error .brokenCharacter ↔ WideSign text := by
  constructor
  · intro h
    rw [readText] at h
    -- only the offset after the `n` is cut by bytes, so the branches before it cannot break
    split at h
    · cases h
    split at h
    · cases h
    split at h
    · cases h
    split at h
    · cases h
    · next x rest hrest =>
      obtain rfl : x = 'n' := by
        have hhead := List.head?_dropWhile_not (· != 'n') text
        rw [hrest] at hhead
        simpa using hhead
      split at h
      · cases h
      · next step hstep =>
        obtain ⟨sign, hsign, hwide⟩ := readOffset_eq_broken_iff.1 (map_eq_broken.1 h)
        obtain ⟨gap, back, hsplit, hgap, hspace⟩ := head?_trim_eq_some_iff.1 hsign
        refine ⟨text.takeWhile (· != 'n'), gap, sign, back, ?_, ?_, ?_, hgap, hspace, hwide⟩
        · rw [← hsplit, ← hrest, List.takeWhile_append_dropWhile]
        · intro hmem
          exact absurd (List.mem_takeWhile_imp hmem) (by decide)
        · rw [hstep]
          rfl
  · rintro ⟨front, gap, sign, back, rfl, hfront, hstep, hgap, hspace, hwide⟩
    obtain ⟨step, hstep⟩ := Option.isSome_iff_exists.1 hstep
    have hoffset : readOffset (trim (gap ++ sign :: back)) = .error .brokenCharacter :=
      readOffset_eq_broken_iff.2
        ⟨sign, head?_trim_eq_some_iff.2 ⟨gap, back, rfl, hgap, hspace⟩, hwide⟩
    rw [readText_term hfront hstep]
    exact map_eq_broken.2 hoffset

/-- Reading an argument breaks off exactly if its text in lower case has a wide sign. -/
theorem parse_eq_broken_iff {arguments : List Token} :
    parse arguments = .error .brokenCharacter ↔
      WideSign ((argumentText arguments).map Char.toLower) := by
  rw [parse, bind_eq_broken, readText_eq_broken_iff]
  refine or_iff_left ?_
  rintro ⟨nth?, -, h⟩
  cases nth? with
  | none => exact nomatch h
  | some nth => exact nomatch h

end Nth

/-! ## Functions and conditions -/

namespace Grammar

open Reader

variable {ctx : Context}

/-- Reading a function breaks off if its argument names positions and has a wide sign, or if it is a
    list and reading the list breaks off. -/
theorem readFunction_eq_broken_iff {name : String} {arguments : List Token} :
    readFunction ctx name arguments = .error .brokenCharacter ↔
      (∃ count, (name.toLower, count) ∈ positionalNames ∧
        Nth.WideSign ((Nth.argumentText arguments).map Char.toLower)) ∨
      ∃ make, (name.toLower, make) ∈ listNames ∧
        ctx.nested arguments = .error .brokenCharacter := by
  have hpositions : ∀ count, readPositions count arguments = .error .brokenCharacter ↔
      Nth.WideSign ((Nth.argumentText arguments).map Char.toLower) := by
    intro count
    rw [readPositions, map_eq_broken]
    exact Nth.parse_eq_broken_iff
  unfold readFunction
  generalize name.toLower = lower
  split
  case h_5 =>
    refine iff_of_false ?_ (by simp [positionalNames, listNames])
    exact answers_iff.1 ((answers_readRange _).map _)
  case h_10 =>
    refine iff_of_false (answers_iff.1 (answers_reject _)) ?_
    simp_all [positionalNames, listNames]
  all_goals simp [positionalNames, listNames, hpositions, map_eq_broken]

/-- A function with some property comes next, and its arguments up to the parenthesis that closes
    them. -/
def StartsCall (P : String → List Token → Prop) (tokens : List Token) : Prop :=
  ∃ name arguments rest,
    tokens = .colon :: .function name :: (arguments ++ .rightParen :: rest) ∧
      Balanced arguments ∧ P name arguments

/-- Reading the function breaks off. -/
def FunctionBreaks (ctx : Context) (name : String) (arguments : List Token) : Prop :=
  readFunction ctx name arguments = .error .brokenCharacter

/-- If reading after a colon breaks off, then in the arguments of a function. -/
theorem call_of_readPseudo {tokens : List Token}
    (h : readPseudo ctx tokens = .error .brokenCharacter) :
    StartsCall (FunctionBreaks ctx) (.colon :: tokens) := by
  unfold readPseudo at h
  split at h
  · split at h
    · exact nomatch h
    · exact nomatch h
  · exact nomatch h
  · exact nomatch h
  · exact absurd h (answers_iff.1 ((answers_partOfName _).map _))
  · next name after =>
    rcases bind_eq_broken.1 h with hcall | ⟨⟨arguments, rest⟩, harguments, hcall⟩
    · exact absurd hcall (answers_iff.1 (answers_readArguments _))
    · obtain ⟨hbalanced, rfl⟩ := readArguments_eq_ok_iff.1 harguments
      rcases bind_eq_broken.1 hcall with hbreaks | ⟨_, -, hdone⟩
      · exact ⟨name, arguments, rest, rfl, hbalanced, hbreaks⟩
      · exact nomatch hdone
  · exact nomatch h

/-- Reading a condition breaks off exactly at a function for which it does. -/
theorem readPart_eq_broken_iff {tokens : List Token} :
    readPart ctx tokens = .error .brokenCharacter ↔ StartsCall (FunctionBreaks ctx) tokens := by
  constructor
  · intro h
    unfold readPart at h
    split at h
    · exact nomatch h
    · exact nomatch h
    · exact nomatch h
    · exact nomatch h
    · exact absurd h (answers_iff.1 ((answers_readAttribute _ _).bind fun _ => answers_ok _))
    · rcases bind_eq_broken.1 h with hpseudo | ⟨_, -, hdone⟩
      · exact call_of_readPseudo hpseudo
      · exact nomatch hdone
    · exact nomatch h
  · rintro ⟨name, arguments, rest, rfl, hbalanced, hbreaks⟩
    have harguments : readArguments (arguments ++ .rightParen :: rest) = .ok (arguments, rest) :=
      readArguments_eq_ok_iff.2 ⟨hbalanced, rfl⟩
    refine bind_eq_broken.2 (Or.inl (bind_eq_broken.2 (Or.inr ⟨_, harguments, ?_⟩)))
    exact bind_eq_broken.2 (Or.inl hbreaks)

end Grammar

end Selectors
