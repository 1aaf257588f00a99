import Selectors.Proofs.Grammar.Answers

/-!
# Spellings — the texts of An+B and the positions that they tell

Positions can be spelled in many ways. Zeros may stand in front of any number, a sign may be left
out, the letter may be of either case, and around the sign of the offset there may be characters
that separate. All spellings are given by one relation, in which the class of those characters is
a parameter: in a selector they are blanks, and the reader takes any spaces.

The reader works on text from which the spaces at the ends have been removed, and in lower case. It
accepts exactly the spellings, with one exception that the relation states: the least offset cannot
follow the letter, because its digits are read without the sign and do not fit.

* **`Nth.Spells`** — the relation.
* **`readInt32?_eq_some_iff`**, **`Nth.readStep?_eq_some_iff`**, **`Nth.readOffset_eq_ok_iff`** —
  its parts and their readers.
* **`Nth.parse_eq_ok_iff`** — the tokens that are accepted, by the text they are joined to.
-/

namespace Selectors

/-! ## Integers -/

/-- The value of a number that stands after a sign or after none. -/
def signedValue (sign : List Char) (n : Nat) : Int :=
  if sign = ['-'] then -n else n

/-- A text spells an integer: digits, any zeros in front included, after a sign or none. -/
inductive SpellsInteger : List Char → Int → Prop where
  | intro {sign digits : List Char} : IsSign sign → IsDigits digits →
      SpellsInteger (sign ++ digits) (signedValue sign (digitsValue digits))

/-- The reader of digits reads all texts of digits, at their value. -/
theorem readDigits?_eq_some_iff {digits : List Char} {n : Nat} :
    readDigits? digits = some n ↔ IsDigits digits ∧ digitsValue digits = n := by
  have hdigits : (!digits.isEmpty && digits.all Char.isDigit) = true ↔ IsDigits digits := by
    rw [Bool.and_eq_true, Bool.not_eq_true', List.isEmpty_eq_false_iff, List.all_eq_true]
    exact Iff.rfl
  rw [readDigits?]
  constructor
  · intro h
    obtain ⟨hall, hvalue⟩ := Option.ite_none_right_eq_some.1 h
    exact ⟨hdigits.1 hall, Option.some.inj hvalue⟩
  · rintro ⟨hall, rfl⟩
    rw [if_pos (hdigits.2 hall)]

/-- Digits start with one. -/
theorem IsDigits.exists_cons {digits : List Char} (h : IsDigits digits) :
    ∃ d others, digits = d :: others ∧ d.isDigit = true := by
  obtain ⟨hne, hall⟩ := h
  obtain ⟨d, others, rfl⟩ := List.exists_cons_of_ne_nil hne
  exact ⟨d, others, rfl, hall d List.mem_cons_self⟩

/-- A sign is no digit, so digits without a sign are read as they stand. -/
theorem readSigned?_of_isDigits {digits : List Char} (h : IsDigits digits) :
    readSigned? digits = some (digitsValue digits : Int) := by
  have hread := readDigits?_eq_some_iff.2 ⟨h, rfl⟩
  obtain ⟨d, others, rfl, hd⟩ := h.exists_cons
  rw [readSigned?, hread]
  · rfl
  · rintro _ ⟨⟩
    exact absurd hd (by decide)
  · rintro _ ⟨⟩
    exact absurd hd (by decide)

private theorem readSigned?_minus (digits : List Char) :
    readSigned? ('-' :: digits) = (readDigits? digits).map fun n => signedValue ['-'] n := by
  rw [readSigned?]
  cases readDigits? digits <;> rfl

/-- The reader of integers reads all their spellings. -/
theorem readSigned?_eq_some_iff {text : List Char} {value : Int} :
    readSigned? text = some value ↔ SpellsInteger text value := by
  constructor
  · intro h
    rw [readSigned?.eq_def] at h
    split at h
    · next digits =>
      obtain ⟨n, hn, rfl⟩ := Option.map_eq_some_iff.1 ((readSigned?_minus digits).symm.trans h)
      obtain ⟨hdigits, rfl⟩ := readDigits?_eq_some_iff.1 hn
      exact SpellsInteger.intro (Or.inr (Or.inr rfl)) hdigits
    · obtain ⟨n, hn, rfl⟩ := Option.map_eq_some_iff.1 h
      obtain ⟨hdigits, rfl⟩ := readDigits?_eq_some_iff.1 hn
      exact SpellsInteger.intro (Or.inr (Or.inl rfl)) hdigits
    · obtain ⟨n, hn, rfl⟩ := Option.map_eq_some_iff.1 h
      obtain ⟨hdigits, rfl⟩ := readDigits?_eq_some_iff.1 hn
      exact SpellsInteger.intro (Or.inl rfl) hdigits
  · rintro ⟨hsign, hdigits⟩
    have hread := readDigits?_eq_some_iff.2 ⟨hdigits, rfl⟩
    rcases hsign with rfl | rfl | rfl
    · exact readSigned?_of_isDigits hdigits
    · exact congrArg (Option.map Int.ofNat) hread
    · exact (readSigned?_minus _).trans (congrArg (Option.map (signedValue ['-'])) hread)

/-- The reader of 32 bits reads all spellings of what fits. -/
theorem readInt32?_eq_some_iff {text : List Char} {n : Int32} :
    readInt32? text = some n ↔ SpellsInteger text n.toInt := by
  rw [readInt32?, Option.bind_eq_some_iff]
  constructor
  · rintro ⟨value, hvalue, hfits⟩
    rw [toInt_of_toInt32?_eq_some hfits]
    exact readSigned?_eq_some_iff.1 hvalue
  · intro h
    exact ⟨n.toInt, readSigned?_eq_some_iff.2 h, Nth.toInt32?_toInt n⟩

/-- An integer is not spelled without a digit. -/
theorem SpellsInteger.exists_isDigit {text : List Char} {value : Int}
    (h : SpellsInteger text value) : ∃ d ∈ text, d.isDigit = true := by
  obtain ⟨-, hdigits⟩ := h
  obtain ⟨d, others, rfl, hd⟩ := hdigits.exists_cons
  exact ⟨d, by simp, hd⟩

private theorem SpellsInteger.ne_of_all {text other : List Char} {value : Int}
    (h : SpellsInteger text value) (hother : other.all (!·.isDigit) = true) : text ≠ other := by
  rintro rfl
  obtain ⟨d, hmem, hd⟩ := h.exists_isDigit
  have hnone := List.all_eq_true.1 hother d hmem
  rw [hd] at hnone
  exact Bool.false_ne_true hnone

namespace Nth

/-! ## Steps and offsets -/

/-- A text spells steps: an integer, or a sign or nothing for a single step. -/
inductive SpellsStep : List Char → Int → Prop where
  | single {sign : List Char} : IsSign sign → SpellsStep sign (signedValue sign 1)
  | integer {text : List Char} {step : Int} : SpellsInteger text step → SpellsStep text step

/-- Steps that are spelled as an integer are read as one. -/
theorem readStep?_of_spellsInteger {text : List Char} {value : Int}
    (h : SpellsInteger text value) : readStep? text = readInt32? text := by
  -- there is a digit, so the text is not one of those for a single step
  rw [readStep?]
  · exact h.ne_of_all rfl
  · exact h.ne_of_all rfl
  · exact h.ne_of_all rfl

/-- The reader of steps reads all their spellings. -/
theorem readStep?_eq_some_iff {text : List Char} {step : Int32} :
    readStep? text = some step ↔ SpellsStep text step.toInt := by
  constructor
  · intro h
    rw [readStep?.eq_def] at h
    split at h
    · obtain rfl := Option.some.inj h
      exact SpellsStep.single (Or.inl rfl)
    · obtain rfl := Option.some.inj h
      exact SpellsStep.single (Or.inr (Or.inl rfl))
    · obtain rfl := Option.some.inj h
      exact SpellsStep.single (Or.inr (Or.inr rfl))
    · exact SpellsStep.integer (readInt32?_eq_some_iff.1 h)
  · intro h
    generalize hvalue : step.toInt = value at h
    cases h with
    | single hsign =>
      rcases hsign with rfl | rfl | rfl
      · exact congrArg some (Int32.toInt_inj.1 hvalue.symm)
      · exact congrArg some (Int32.toInt_inj.1 hvalue.symm)
      · exact congrArg some (Int32.toInt_inj.1 hvalue.symm)
    | integer hinteger =>
      rw [readStep?_of_spellsInteger hinteger]
      exact readInt32?_eq_some_iff.2 (hvalue ▸ hinteger)

/-- A text spells an offset, as it stands after the letter: nothing, or a sign and digits, with
    what separates around the sign. -/
inductive SpellsOffset (separates : Char → Bool) : List Char → Int → Prop where
  | none : SpellsOffset separates [] 0
  | signed {front back digits : List Char} {sign : Char} :
      (∀ c ∈ front, separates c = true) → sign = '+' ∨ sign = '-' →
      (∀ c ∈ back, separates c = true) → IsDigits digits →
      SpellsOffset separates (front ++ sign :: (back ++ digits))
        (signedValue [sign] (digitsValue digits))

/-- A text without a space at its end is trimmed in front only. -/
theorem trim_eq_trimStart {text : List Char} (h : ∀ c ∈ text.getLast?, isSpace c = false) :
    trim text = trimStart text := by
  cases htext : trimStart text with
  | nil =>
    rw [trim, htext]
    rfl
  | cons c rest =>
    obtain ⟨gap, hsplit, -, -⟩ := trimStart_eq_cons_iff.1 htext
    obtain ⟨others, last, hlast⟩ :=
      (List.eq_nil_or_concat (c :: rest)).resolve_left (List.cons_ne_nil c rest)
    have hspace : isSpace last = false := by
      refine h last ?_
      rw [hsplit, hlast, List.concat_eq_append, ← List.append_assoc, List.getLast?_concat]
      rfl
    rw [trim, htext, hlast, List.concat_eq_append, List.reverse_concat,
      trimStart_cons_of_not_isSpace hspace, ← List.reverse_concat, List.reverse_reverse]

/-- After the sign of an offset stand spaces and digits. -/
theorem readUnsigned?_eq_some_iff {text : List Char} {n : Int32} :
    readUnsigned? text = some n ↔
      ∃ gap digits, text = gap ++ digits ∧ (∀ c ∈ gap, isSpace c = true) ∧ IsDigits digits ∧
        n.toInt = digitsValue digits := by
  rw [readUnsigned?, Option.bind_eq_some_iff]
  constructor
  · rintro ⟨value, hvalue, hfits⟩
    obtain ⟨hdigits, rfl⟩ := readDigits?_eq_some_iff.1 hvalue
    obtain ⟨d, others, hcons, -⟩ := hdigits.exists_cons
    obtain ⟨gap, hsplit, hgap, -⟩ := trimStart_eq_cons_iff.1 hcons
    refine ⟨gap, trimStart text, ?_, hgap, hdigits, toInt_of_toInt32?_eq_some hfits⟩
    rw [hcons]
    exact hsplit
  · rintro ⟨gap, digits, rfl, hgap, hdigits, hn⟩
    obtain ⟨d, others, rfl, hd⟩ := hdigits.exists_cons
    have htrim : trimStart (gap ++ d :: others) = d :: others :=
      trimStart_eq_cons_iff.2 ⟨gap, rfl, hgap, isSpace_of_isDigit hd⟩
    refine ⟨digitsValue (d :: others), ?_, ?_⟩
    · rw [htrim]
      exact readDigits?_eq_some_iff.2 ⟨hdigits, rfl⟩
    · rw [← hn]
      exact toInt32?_toInt n

/-- Negation is exact, except for the least number. -/
theorem toInt_neg_of_ne_minValue {n : Int32} (h : n ≠ Int32.minValue) :
    (-n).toInt = -n.toInt := by
  have hmin : n.toInt ≠ -2 ^ 31 := fun heq =>
    h (Int32.toInt_inj.1 (heq.trans Int32.toInt_minValue.symm))
  have hlow := n.le_toInt
  have hhigh := n.toInt_lt
  rw [Int32.toInt_neg]
  exact Int.bmod_eq_of_le (by omega) (by omega)

private theorem readOffset_cons {sign : Char} (hsign : sign = '+' ∨ sign = '-') (text : List Char) :
    readOffset (sign :: text) =
      .ok ((readUnsigned? text).map fun n => if sign = '-' then -n else n) := by
  rw [readOffset.eq_def]
  dsimp only
  rcases hsign with rfl | rfl
  · rw [if_neg (by decide)]
    cases readUnsigned? text <;> rfl
  · rw [if_neg (by decide)]
    cases readUnsigned? text <;> rfl

/-- An offset that is read starts with its sign. -/
theorem isSign_of_readOffset {sign : Char} {text : List Char} {offset : Int32}
    (h : readOffset (sign :: text) = .ok (some offset)) : sign = '+' ∨ sign = '-' := by
  rw [readOffset.eq_def] at h
  dsimp only at h
  split at h
  · cases h
  · split at h
    · exact Or.inl rfl
    · exact Or.inr rfl
    · cases h

/-- The reader of offsets reads all their spellings but the least one. -/
theorem readOffset_eq_ok_iff {text : List Char} {offset : Int32}
    (hlast : ∀ c ∈ text.getLast?, isSpace c = false) :
    readOffset (trim text) = .ok (some offset) ↔
      SpellsOffset isSpace text offset.toInt ∧ offset ≠ Int32.minValue := by
  constructor
  · intro h
    refine ⟨?_, readOffset_ne_minValue h⟩
    rw [trim_eq_trimStart hlast] at h
    cases htext : trimStart text with
    | nil =>
      rw [htext] at h
      obtain rfl := Option.some.inj (Except.ok.inj h)
      -- all of the text is spaces, and the last of it is none
      have hspaces : ∀ c ∈ text, isSpace c = true := List.dropWhile_eq_nil_iff.1 htext
      have hnil : text = [] := by
        refine List.getLast?_eq_none_iff.1 (Option.eq_none_iff_forall_ne_some.2 fun c hc => ?_)
        exact Bool.noConfusion ((hspaces c (List.mem_of_getLast? hc)).symm.trans (hlast c hc))
      rw [hnil]
      exact SpellsOffset.none
    | cons sign rest =>
      rw [htext] at h
      obtain ⟨gap, rfl, hgap, -⟩ := trimStart_eq_cons_iff.1 htext
      have hsign := isSign_of_readOffset h
      rw [readOffset_cons hsign] at h
      obtain ⟨n, hn, rfl⟩ := Option.map_eq_some_iff.1 (Except.ok.inj h)
      obtain ⟨gap', digits, rfl, hgap', hdigits, hvalue⟩ := readUnsigned?_eq_some_iff.1 hn
      have hoffset : (if sign = '-' then -n else n).toInt =
          signedValue [sign] (digitsValue digits) := by
        rcases hsign with rfl | rfl
        · exact hvalue
        · have hmin : n ≠ Int32.minValue := by
            rintro rfl
            exact absurd (hvalue ▸ Int.natCast_nonneg _) (by decide : ¬ 0 ≤ Int32.minValue.toInt)
          exact (toInt_neg_of_ne_minValue hmin).trans (congrArg Int.neg hvalue)
      rw [hoffset]
      exact SpellsOffset.signed hgap hsign hgap' hdigits
  · rintro ⟨h, hmin⟩
    rw [trim_eq_trimStart hlast]
    generalize hvalue : offset.toInt = value at h
    cases h with
    | none => exact congrArg (fun n => Except.ok (some n)) (Int32.toInt_inj.1 hvalue.symm)
    | @signed front back digits sign hfront hsign hback hdigits =>
      have hspace : isSpace sign = false := by
        rcases hsign with rfl | rfl <;> rfl
      rw [trimStart_eq_cons_iff.2 ⟨front, rfl, hfront, hspace⟩, readOffset_cons hsign]
      rcases hsign with rfl | rfl
      · have hread : readUnsigned? (back ++ digits) = some offset :=
          readUnsigned?_eq_some_iff.2 ⟨back, digits, rfl, hback, hdigits, hvalue⟩
        rw [hread]
        rfl
      · have hnegated : (-offset).toInt = digitsValue digits := by
          rw [toInt_neg_of_ne_minValue hmin, hvalue]
          exact Int.neg_neg _
        have hread : readUnsigned? (back ++ digits) = some (-offset) :=
          readUnsigned?_eq_some_iff.2 ⟨back, digits, rfl, hback, hdigits, hnegated⟩
        rw [hread]
        exact congrArg (fun n => Except.ok (some n)) Int32.neg_neg

/-! ## Whole spellings -/

/-- A text spells positions. The least offset cannot follow the letter. -/
inductive Spells (separates : Char → Bool) : List Char → Nth → Prop where
  | odd {text : List Char} : text.map Char.toLower = "odd".toList → Spells separates text odd
  | even {text : List Char} : text.map Char.toLower = "even".toList → Spells separates text even
  | integer {text : List Char} {offset : Int32} :
      SpellsInteger text offset.toInt → Spells separates text ⟨0, offset⟩
  | term {front back : List Char} {letter : Char} {step offset : Int32} :
      SpellsStep front step.toInt → letter = 'n' ∨ letter = 'N' →
      SpellsOffset separates back offset.toInt → offset ≠ Int32.minValue →
      Spells separates (front ++ letter :: back) ⟨step, offset⟩

section

variable {separates separates' : Char → Bool}

/-- More characters that separate allow more spellings. -/
theorem SpellsOffset.mono {text : List Char} {offset : Int}
    (hspells : SpellsOffset separates text offset)
    (h : ∀ c ∈ text, separates c = true → separates' c = true) :
    SpellsOffset separates' text offset := by
  cases hspells with
  | none => exact SpellsOffset.none
  | @signed front back digits sign hfront hsign hback hdigits =>
    refine SpellsOffset.signed (fun c hc => ?_) hsign (fun c hc => ?_) hdigits
    · exact h c (List.mem_append_left _ hc) (hfront c hc)
    · have hmem : c ∈ sign :: (back ++ digits) :=
        List.mem_cons_of_mem _ (List.mem_append_left _ hc)
      exact h c (List.mem_append_right _ hmem) (hback c hc)

/-- What separates counts only for the characters of the text. -/
theorem Spells.mono {text : List Char} {nth : Nth} (hspells : Spells separates text nth)
    (h : ∀ c ∈ text, separates c = true → separates' c = true) : Spells separates' text nth := by
  cases hspells with
  | odd hodd => exact Spells.odd hodd
  | even heven => exact Spells.even heven
  | integer hinteger => exact Spells.integer hinteger
  | term hstep hletter hoffset hmin =>
    refine Spells.term hstep hletter (hoffset.mono fun c hc => ?_) hmin
    exact h c (List.mem_append_right _ (List.mem_cons_of_mem _ hc))

end

/-! ## Letter case -/

private theorem toLower_eq_n_iff {c : Char} : c.toLower = 'n' ↔ c = 'n' ∨ c = 'N' := by
  rw [← Char.toNat_inj, ← Char.toNat_inj, ← Char.toNat_inj, toNat_toLower,
    show 'n'.toNat = 110 from rfl, show 'N'.toNat = 78 from rfl]
  split <;> omega

private theorem isAlpha_of_isDigit {c : Char} (h : c.isDigit = true) : c.isAlpha = false :=
  Bool.eq_false_iff.2 fun halpha =>
    Bool.noConfusion (h.symm.trans (Lexer.isDigit_of_isAlpha halpha))

/-- No space is a letter. -/
theorem isAlpha_of_isSpace {c : Char} (h : isSpace c = true) : c.isAlpha = false := by
  refine Bool.eq_false_iff.2 fun halpha => ?_
  have hletter : 65 ≤ c.val.toNat ∧ c.val.toNat ≤ 90 ∨ 97 ≤ c.val.toNat ∧ c.val.toNat ≤ 122 :=
    isAlpha_iff.1 halpha
  simp only [isSpace, Bool.or_eq_true, Bool.and_eq_true, decide_eq_true_iff, beq_iff_eq,
    UInt32.le_iff_toNat_le, ← UInt32.toNat_inj] at h
  simp only [UInt32.reduceToNat] at h
  omega

/-- Spaces have no case. -/
theorem isSpace_toLower (c : Char) : isSpace c.toLower = isSpace c := by
  refine Bool.eq_iff_iff.2 ⟨fun h => ?_, fun h => ?_⟩
  · rwa [(toLower_eq_iff (isAlpha_of_isSpace h)).1 rfl]
  · rwa [(toLower_eq_iff (isAlpha_of_isSpace h)).2 rfl]

/-! ## The characters of spellings -/

/-- The character may belong to an integer: it is a digit or a sign. -/
def IsIntegerChar (c : Char) : Prop :=
  c.isDigit = true ∨ c = '+' ∨ c = '-'

/-- No character of an integer is a letter. -/
theorem IsIntegerChar.isAlpha {c : Char} (h : IsIntegerChar c) : c.isAlpha = false := by
  rcases h with hdigit | rfl | rfl
  · exact isAlpha_of_isDigit hdigit
  · rfl
  · rfl

/-- No character of an integer is a space. -/
theorem IsIntegerChar.isSpace {c : Char} (h : IsIntegerChar c) : isSpace c = false := by
  rcases h with hdigit | rfl | rfl
  · exact isSpace_of_isDigit hdigit
  · rfl
  · rfl

private theorem isIntegerChar_of_mem_sign {sign : List Char} (h : IsSign sign) :
    ∀ c ∈ sign, IsIntegerChar c := by
  intro c hc
  rcases h with rfl | rfl | rfl
  · exact nomatch hc
  · exact Or.inr (Or.inl (List.mem_singleton.1 hc))
  · exact Or.inr (Or.inr (List.mem_singleton.1 hc))

private theorem isIntegerChar_of_mem_integer {text : List Char} {value : Int}
    (h : SpellsInteger text value) : ∀ c ∈ text, IsIntegerChar c := by
  intro c hc
  obtain ⟨hsign, hdigits⟩ := h
  rcases List.mem_append.1 hc with hc | hc
  · exact isIntegerChar_of_mem_sign hsign c hc
  · exact Or.inl (hdigits.2 c hc)

private theorem isIntegerChar_of_mem_step {text : List Char} {step : Int}
    (h : SpellsStep text step) :
    ∀ c ∈ text, IsIntegerChar c := by
  cases h with
  | single hsign => exact isIntegerChar_of_mem_sign hsign
  | integer hinteger => exact isIntegerChar_of_mem_integer hinteger

/-- The steps are spelled without letters. -/
theorem SpellsStep.isAlpha {text : List Char} {step : Int} (h : SpellsStep text step) :
    ∀ c ∈ text, c.isAlpha = false := fun c hc =>
  (isIntegerChar_of_mem_step h c hc).isAlpha

/-- The steps are spelled without spaces. -/
theorem SpellsStep.isSpace {text : List Char} {step : Int} (h : SpellsStep text step) :
    ∀ c ∈ text, isSpace c = false := fun c hc =>
  (isIntegerChar_of_mem_step h c hc).isSpace

/-- An offset is made of separators and characters of integers. -/
theorem separates_or_isIntegerChar_of_mem_offset {separates : Char → Bool} {text : List Char}
    {offset : Int} (h : SpellsOffset separates text offset) :
    ∀ c ∈ text, separates c = true ∨ IsIntegerChar c := by
  intro c hc
  cases h with
  | none => exact nomatch hc
  | signed hfront hsign hback hdigits =>
    rcases List.mem_append.1 hc with hc | hc
    · exact Or.inl (hfront c hc)
    · rcases List.mem_cons.1 hc with rfl | hc
      · exact Or.inr (Or.inr hsign)
      · rcases List.mem_append.1 hc with hc | hc
        · exact Or.inl (hback c hc)
        · exact Or.inr (Or.inl (hdigits.2 c hc))

private theorem isAlpha_of_isAlpha_toLower {c : Char} (h : c.toLower.isAlpha = true) :
    c.isAlpha = true := by
  refine Bool.of_not_eq_false fun hother => ?_
  rw [(toLower_eq_iff hother).2 rfl, hother] at h
  exact Bool.false_ne_true h

/-- A word in any case is made of letters. -/
theorem isAlpha_of_mem_word {text keyword : List Char} (h : text.map Char.toLower = keyword)
    (halpha : keyword.all Char.isAlpha = true) : ∀ c ∈ text, c.isAlpha = true := fun _ hc =>
  isAlpha_of_isAlpha_toLower (List.all_eq_true.1 halpha _ (h ▸ List.mem_map_of_mem hc))

/-- Apart from what separates, a spelling consists of letters, digits and signs. -/
theorem Spells.mem {separates : Char → Bool} {text : List Char} {nth : Nth}
    (h : Spells separates text nth) :
    ∀ c ∈ text, separates c = true ∨ IsIntegerChar c ∨ c.isAlpha = true := by
  intro c hc
  cases h with
  | odd hodd => exact Or.inr (Or.inr (isAlpha_of_mem_word hodd rfl c hc))
  | even heven => exact Or.inr (Or.inr (isAlpha_of_mem_word heven rfl c hc))
  | integer hinteger => exact Or.inr (Or.inl (isIntegerChar_of_mem_integer hinteger c hc))
  | term hstep hletter hoffset =>
    rcases List.mem_append.1 hc with hc | hc
    · exact Or.inr (Or.inl (isIntegerChar_of_mem_step hstep c hc))
    · rcases List.mem_cons.1 hc with rfl | hc
      · refine Or.inr (Or.inr ?_)
        rcases hletter with rfl | rfl <;> rfl
      · exact (separates_or_isIntegerChar_of_mem_offset hoffset c hc).imp_right Or.inl

private theorem isAlpha_of_mem_offset {text : List Char} {offset : Int}
    (h : SpellsOffset isSpace text offset) : ∀ c ∈ text, c.isAlpha = false := by
  intro c hc
  rcases separates_or_isIntegerChar_of_mem_offset h c hc with hspace | hinteger
  · exact isAlpha_of_isSpace hspace
  · exact hinteger.isAlpha

/-! ## Reading -/

private theorem not_mem_of_isAlpha {text : List Char} (h : ∀ c ∈ text, c.isAlpha = false) :
    'n' ∉ text :=
  fun hmem => Bool.noConfusion (h 'n' hmem)

/-- An integer alone is an offset without steps. -/
theorem readText_of_spellsInteger {text : List Char} {offset : Int32}
    (h : SpellsInteger text offset.toInt) : readText text = .ok (some ⟨0, offset⟩) := by
  rw [readText, if_neg (h.ne_of_all rfl), if_neg (h.ne_of_all rfl),
    readInt32?_eq_some_iff.2 h]

/-- The four forms that text of lower case is read in. -/
theorem readText_eq_ok_iff {text : List Char} {nth : Nth} :
    readText text = .ok (some nth) ↔
      text = "odd".toList ∧ nth = odd ∨ text = "even".toList ∧ nth = even ∨
        (SpellsInteger text nth.offset.toInt ∧ nth.step = 0) ∨
        ∃ front back, text = front ++ 'n' :: back ∧ SpellsStep front nth.step.toInt ∧
          readOffset (trim back) = .ok (some nth.offset) := by
  constructor
  · intro h
    rw [readText] at h
    -- the branches are tried in the order of the four cases of the statement
    split at h
    · next hodd => exact Or.inl ⟨hodd, (Option.some.inj (Except.ok.inj h)).symm⟩
    split at h
    · next heven => exact Or.inr (Or.inl ⟨heven, (Option.some.inj (Except.ok.inj h)).symm⟩)
    split at h
    · next offset hoffset =>
      obtain rfl := Option.some.inj (Except.ok.inj h)
      exact Or.inr (Or.inr (Or.inl ⟨readInt32?_eq_some_iff.1 hoffset, rfl⟩))
    split at h
    · cases h
    · next x back hback =>
      -- what is left of the text after the front starts with the `n` itself
      obtain rfl : x = 'n' := by
        have hhead := List.head?_dropWhile_not (· != 'n') text
        rw [hback] at hhead
        simpa using hhead
      split at h
      · cases h
      · next step hstep =>
        cases hoffset : readOffset (trim back) with
        | error failure =>
          rw [hoffset] at h
          cases h
        | ok offset? =>
          rw [hoffset] at h
          obtain ⟨offset, rfl, rfl⟩ := Option.map_eq_some_iff.1 (Except.ok.inj h)
          refine Or.inr (Or.inr (Or.inr ⟨text.takeWhile (· != 'n'), back, ?_,
            readStep?_eq_some_iff.1 hstep, hoffset⟩))
          rw [← hback, List.takeWhile_append_dropWhile]
  · rintro (⟨rfl, rfl⟩ | ⟨rfl, rfl⟩ | ⟨hinteger, hstep⟩ | ⟨front, back, rfl, hstep, hoffset⟩)
    · rfl
    · rfl
    · rw [readText_of_spellsInteger hinteger, ← hstep]
    · rw [readText_term (not_mem_of_isAlpha hstep.isAlpha)
        (readStep?_eq_some_iff.2 hstep), hoffset]
      rfl

/-- The last character of the text after the letter is no space if the last of all is none. -/
theorem isSpace_getLast_of_map_toLower {text front back : List Char} {letter : Char}
    (hlast : ∀ c ∈ text.getLast?, isSpace c = false)
    (hsplit : text.map Char.toLower = front ++ letter :: back) :
    ∀ c ∈ back.getLast?, isSpace c = false := by
  intro c hc
  have hlowered : (text.map Char.toLower).getLast? = some c := by
    rw [hsplit, List.getLast?_append, List.getLast?_cons, hc]
    rfl
  rw [List.getLast?_map] at hlowered
  obtain ⟨d, hd, rfl⟩ := Option.map_eq_some_iff.1 hlowered
  rw [isSpace_toLower]
  exact hlast d hd

/-- In lower case the reader of positions reads all spellings. -/
theorem readText_map_toLower_eq_ok_iff {text : List Char} {nth : Nth}
    (hlast : ∀ c ∈ text.getLast?, isSpace c = false) :
    readText (text.map Char.toLower) = .ok (some nth) ↔ Spells isSpace text nth := by
  rw [readText_eq_ok_iff]
  constructor
  · rintro (⟨hodd, rfl⟩ | ⟨heven, rfl⟩ | ⟨hinteger, hstep⟩ | ⟨front, back, hsplit, hstep, hoffset⟩)
    · exact Spells.odd hodd
    · exact Spells.even heven
    · have hsame := (map_toLower_eq_iff (SpellsStep.integer hinteger).isAlpha).1 rfl
      rw [← hsame] at hinteger
      obtain ⟨step, offset⟩ := nth
      obtain rfl : step = 0 := hstep
      exact Spells.integer hinteger
    · obtain ⟨hspells, hmin⟩ :=
        (readOffset_eq_ok_iff (isSpace_getLast_of_map_toLower hlast hsplit)).1 hoffset
      obtain ⟨front', rest, rfl, hfront, hrest⟩ := List.map_eq_append_iff.1 hsplit
      obtain ⟨letter, back', rfl, hletter, hback⟩ := List.map_eq_cons_iff.1 hrest
      -- what stands around the letter has no letters, so it was in lower case before
      obtain rfl := (map_toLower_eq_iff hstep.isAlpha).1 hfront
      obtain rfl := (map_toLower_eq_iff (isAlpha_of_mem_offset hspells)).1 hback
      exact Spells.term hstep (toLower_eq_n_iff.1 hletter) hspells hmin
  · rintro (hodd | heven | hinteger | ⟨hstep, hletter, hoffset, hmin⟩)
    · exact Or.inl ⟨hodd, rfl⟩
    · exact Or.inr (Or.inl ⟨heven, rfl⟩)
    · refine Or.inr (Or.inr (Or.inl ⟨?_, rfl⟩))
      rwa [(map_toLower_eq_iff (SpellsStep.integer hinteger).isAlpha).2 rfl]
    · next front back letter step offset =>
      have hsplit : (front ++ letter :: back).map Char.toLower = front ++ 'n' :: back := by
        rw [List.map_append, List.map_cons, toLower_eq_n_iff.2 hletter,
          (map_toLower_eq_iff hstep.isAlpha).2 rfl,
          (map_toLower_eq_iff (isAlpha_of_mem_offset hoffset)).2 rfl]
      refine Or.inr (Or.inr (Or.inr ⟨front, back, hsplit, hstep, ?_⟩))
      exact (readOffset_eq_ok_iff (isSpace_getLast_of_map_toLower hlast hsplit)).2 ⟨hoffset, hmin⟩

private theorem isSpace_getLast_trim (text : List Char) :
    ∀ c ∈ (trim text).getLast?, isSpace c = false := by
  intro c hc
  rw [trim, List.getLast?_reverse] at hc
  have hhead := List.head?_dropWhile_not isSpace (trimStart text).reverse
  rw [show (List.dropWhile isSpace (trimStart text).reverse).head? = some c from hc] at hhead
  simpa using hhead

/-- The tokens that are accepted are those whose trimmed text is a spelling. -/
theorem parse_eq_ok_iff {tokens : List Token} {nth : Nth} :
    parse tokens = .ok nth ↔ Spells isSpace (argumentText tokens) nth := by
  have hread : readText ((argumentText tokens).map Char.toLower) = .ok (some nth) ↔
      Spells isSpace (argumentText tokens) nth :=
    readText_map_toLower_eq_ok_iff (isSpace_getLast_trim _)
  rw [← hread, parse]
  constructor
  · intro h
    obtain ⟨nth?, hread?, hresult⟩ := Reader.bind_eq_ok.1 h
    cases nth? with
    | none => cases hresult
    | some nth' => rw [hread?, Except.ok.inj hresult]
  · intro h
    rw [h]
    rfl

end Nth

end Selectors
