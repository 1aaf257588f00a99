import Selectors.Proofs.Tree.Places

/-!
# Language ranges — a range and the languages in it

A language is in a range if it is the range, up to case, or goes on after it with a hyphen. The test
cuts the language at the number of bytes of the range, which says nothing about characters: the two
texts may have characters of different sizes, and the cut may fall inside one of them. What makes the
test right all the same is that letters keep their size when their case changes. So the text in front
of any cut that passes has the size of the range, and the other way round the cut at that size gives
it.

The hyphens of a longer range are hyphens of the language, and so it is in every range that ends at
one of them.

* **`InRange`** — the languages of a range, by what they are made of.
* **`languageMatches_iff_inRange`** — the cut finds out.
* **`InRange.of_longer`** — a longer range narrows a range down.
* **`ranges_by_subtags`** — ranges, and what the pseudo-class selects.
-/

namespace Selectors

/-- The language is the range up to case, or it goes on with a hyphen after it. -/
def InRange (language range : String) : Prop :=
  sameUpToCase language range = true ∨
    ∃ front rest, language = front ++ "-" ++ rest ∧ sameUpToCase front range = true

/-! ## Sizes -/

/-- The case of a character does not change its bytes. -/
theorem utf8Size_toLower (c : Char) : c.toLower.utf8Size = c.utf8Size := by
  have hsmall : ∀ {d : Char}, d.toNat ≤ 127 → d.utf8Size = 1 := fun h =>
    Char.utf8Size_eq_one_iff.2 h
  by_cases hupper : 65 ≤ c.toNat ∧ c.toNat ≤ 90
  · have hlower : c.toLower.toNat = c.toNat + 32 := by rw [toNat_toLower, if_pos hupper]
    rw [hsmall (show c.toLower.toNat ≤ 127 by omega), hsmall (show c.toNat ≤ 127 by omega)]
  · have hsame : c.toLower = c := by
      rw [← Char.toNat_inj, toNat_toLower, if_neg hupper]
    rw [hsame]

/-- The case of a text does not change its bytes. -/
theorem byteCount_map_toLower (text : List Char) :
    byteCount (text.map Char.toLower) = byteCount text := by
  induction text with
  | nil => rfl
  | cons c text ih => rw [List.map_cons, byteCount_cons, byteCount_cons, utf8Size_toLower, ih]

/-- Two texts are the same up to case if their characters are. -/
theorem sameUpToCase_iff {a b : String} :
    sameUpToCase a b = true ↔ a.toList.map Char.toLower = b.toList.map Char.toLower := by
  rw [← toList_toLower, ← toList_toLower, String.toList_inj]
  exact beq_iff_eq

/-- Texts that differ in case only have the same number of bytes. -/
theorem byteCount_eq_of_sameUpToCase {a b : String} (h : sameUpToCase a b = true) :
    byteCount a.toList = byteCount b.toList := by
  rw [← byteCount_map_toLower a.toList, sameUpToCase_iff.1 h, byteCount_map_toLower]

/-! ## Ranges -/

/-- The language is in the range if it starts with it, up to case, and a hyphen follows or
    nothing. -/
theorem inRange_iff {language range : String} :
    InRange language range ↔
      ∃ front rest, language.toList = front ++ rest ∧
        front.map Char.toLower = range.toList.map Char.toLower ∧ ∀ c ∈ rest.head?, c = '-' := by
  constructor
  · rintro (h | ⟨front, rest, rfl, h⟩)
    · exact ⟨language.toList, [], (List.append_nil _).symm, sameUpToCase_iff.1 h, nofun⟩
    · exact ⟨front.toList, '-' :: rest.toList, by simp, sameUpToCase_iff.1 h, by simp⟩
  · rintro ⟨front, rest, hsplit, hfront, hhead⟩
    have hsame : sameUpToCase (String.ofList front) range = true :=
      sameUpToCase_iff.2 (by rwa [String.toList_ofList])
    cases rest with
    | nil =>
      rw [List.append_nil] at hsplit
      rw [← hsplit, String.ofList_toList] at hsame
      exact Or.inl hsame
    | cons c rest =>
      obtain rfl := hhead c rfl
      refine Or.inr ⟨String.ofList front, String.ofList rest, String.toList_inj.1 ?_, hsame⟩
      simp [hsplit]

/-- The cut at the size of the range finds the languages of the range. -/
theorem languageMatches_iff_inRange {language range : String} :
    languageMatches language range = true ↔ InRange language range := by
  rw [inRange_iff, languageMatches]
  constructor
  · intro h
    split at h
    · exact absurd h Bool.false_ne_true
    · next front rest hcut =>
      obtain ⟨hsplit, -⟩ := cutAt_eq_some_iff.1 hcut
      obtain ⟨hsame, hrest⟩ := Bool.and_eq_true_iff.1 h
      have hfront := sameUpToCase_iff.1 hsame
      rw [String.toList_ofList] at hfront
      refine ⟨front, rest, hsplit, hfront, ?_⟩
      cases rest with
      | nil => exact nofun
      | cons c rest =>
        rintro d ⟨⟩
        exact Option.some.inj (eq_of_beq hrest)
  · rintro ⟨front, rest, hsplit, hfront, hhead⟩
    have hsame : sameUpToCase (String.ofList front) range = true :=
      sameUpToCase_iff.2 (by rwa [String.toList_ofList])
    -- equal up to ASCII case means equally many bytes, so the cut falls after the range
    have hsize := byteCount_eq_of_sameUpToCase hsame
    rw [String.toList_ofList] at hsize
    have hcut : cutAt (byteCount range.toList) language.toList = some (front, rest) :=
      cutAt_eq_some_iff.2 ⟨hsplit, hsize⟩
    rw [hcut]
    dsimp only
    rw [hsame, Bool.true_and]
    cases rest with
    | nil => rfl
    | cons c rest =>
      obtain rfl := hhead c rfl
      rfl

/-- A language of a longer range is one of the range that ends at a hyphen of it. -/
theorem InRange.of_longer {language range more : String}
    (h : InRange language (range ++ "-" ++ more)) : InRange language range := by
  obtain ⟨front, rest, hsplit, hfront, -⟩ := inRange_iff.1 h
  have hlonger : (range ++ "-" ++ more).toList = range.toList ++ '-' :: more.toList := by simp
  rw [hlonger, List.map_append] at hfront
  obtain ⟨start, after, rfl, hstart, hafter⟩ := List.map_eq_append_iff.1 hfront
  obtain ⟨c, others, rfl, hc, -⟩ := List.map_eq_cons_iff.1 hafter
  -- no other character than the hyphen has it for its lower case
  obtain rfl : c = '-' := (toLower_eq_iff rfl).1 hc
  exact inRange_iff.2 ⟨start, '-' :: others ++ rest, by rw [hsplit, List.append_assoc], hstart,
    by rintro c ⟨⟩; rfl⟩

/-- An element is in the pseudo-class of a range if it has a language and that is in the range. -/
theorem selects_lang_iff {t : Tree} {e : Element t} {range : String} :
    (PseudoClass.lang range).selects e = true ↔
      ∃ language, e.language? = some language ∧ InRange language range := by
  rw [PseudoClass.selects_eq, PseudoClass.accepts]
  cases e.language? with
  | none => simp
  | some language => simp [languageMatches_iff_inRange]

/-- A language passes the test of a range exactly if it is the range up to case or goes on with a
    hyphen after it, whatever characters the two are made of. So what passes the test of a range that
    goes on with a hyphen passes that of the range, and what is selected by the one is selected by the
    other. -/
theorem ranges_by_subtags (language range more : String) :
    (languageMatches language range = true ↔
        sameUpToCase language range = true ∨
          ∃ front rest, language = front ++ "-" ++ rest ∧ sameUpToCase front range = true) ∧
      (languageMatches language (range ++ "-" ++ more) = true →
        languageMatches language range = true) ∧
      ∀ (t : Tree) (e : Element t), (PseudoClass.lang (range ++ "-" ++ more)).selects e = true →
        (PseudoClass.lang range).selects e = true := by
  refine ⟨languageMatches_iff_inRange, fun h => ?_, fun t e h => ?_⟩
  · exact languageMatches_iff_inRange.2 (languageMatches_iff_inRange.1 h).of_longer
  · obtain ⟨language, hlanguage, hrange⟩ := selects_lang_iff.1 h
    exact selects_lang_iff.2 ⟨language, hlanguage, hrange.of_longer⟩

/-- The hyphen after the range stands behind characters of two bytes. -/
theorem ranges_by_subtags_wide :
    languageMatches "É-FÜ-x" "É-fÜ" = true ∧ languageMatches "É-FÜ-x" "É" = true := by
  have hlonger : languageMatches "É-FÜ-x" ("É" ++ "-" ++ "fÜ") = true :=
    languageMatches_iff_inRange.2 (inRange_iff.2
      ⟨['É', '-', 'F', 'Ü'], ['-', 'x'], by simp, by simp, by simp⟩)
  exact ⟨hlonger, (ranges_by_subtags "É-FÜ-x" "É" "fÜ").2.1 hlonger⟩

end Selectors
