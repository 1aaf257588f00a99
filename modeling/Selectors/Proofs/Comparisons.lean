import Selectors.Proofs.AttributeScopes
import Selectors.Proofs.Satisfaction

/-!
# Comparisons — what the operators of attribute selectors say

An operator compares the value of an attribute with an expected text. What it says is how the value
can be put together: of the expected text alone, or of the expected text and something before or
after it. The evaluation is in two places. Some comparisons are folded away before there is a value,
since nothing passes them; the others search the value, one of them word by word.

* **`AttributeOperator.Compares`** — how a value is made up of the expected text.
* **`mem_words_iff`** — the words of a text, by what stands on either side.
* **`accepts_comparison_iff`** — the test of a comparison accepts what the operator says.
-/

namespace Selectors

/-! ## Words -/

/-- Before a run of a split text there is a separator or nothing, and so there is after it. -/
theorem exists_eq_of_mem_splitOnP {separates : Char → Bool} {run : List Char} (text : List Char)
    (h : run ∈ text.splitOnP separates) :
    ∃ front back, text = front ++ run ++ back ∧
      (∀ c ∈ front.getLast?, separates c = true) ∧ (∀ c ∈ back.head?, separates c = true) := by
  cases hfirst : text.find? separates with
  | none =>
    have hnone : ∀ c ∈ text, separates c = false := fun c hc =>
      eq_false_of_ne_true (List.find?_eq_none.1 hfirst c hc)
    rw [List.splitOnP_eq_singleton hnone, List.mem_singleton] at h
    exact ⟨[], [], by rw [h, List.nil_append, List.append_nil], nofun, nofun⟩
  | some separator =>
    obtain ⟨hseparator, start, rest, rfl, hstart⟩ := List.find?_eq_some_iff_append.1 hfirst
    have hnone : ∀ c ∈ start, separates c = false := by
      simpa only [Bool.not_eq_true'] using hstart
    rw [List.splitOnP_append_cons_of_forall_mem hnone separator hseparator] at h
    -- the run ends at the first separator, or stands somewhere behind it
    rcases List.mem_cons.1 h with rfl | h
    · refine ⟨[], separator :: rest, rfl, nofun, ?_⟩
      rintro c ⟨⟩
      exact hseparator
    · obtain ⟨front, back, hrest, hfront, hback⟩ := exists_eq_of_mem_splitOnP rest h
      refine ⟨start ++ separator :: front, back, by simp [hrest], fun c hc => ?_, hback⟩
      cases front with
      | nil =>
        obtain rfl : separator = c := by simpa using hc
        exact hseparator
      | cons d front => exact hfront c (by simpa using hc)
termination_by text.length

/-- A run without separators that has them or nothing on both sides is one of the pieces. -/
theorem mem_splitOnP_append {separates : Char → Bool} {front run back : List Char}
    (hrun : ∀ c ∈ run, separates c = false) (hfront : ∀ c ∈ front.getLast?, separates c = true)
    (hback : ∀ c ∈ back.head?, separates c = true) :
    run ∈ (front ++ run ++ back).splitOnP separates := by
  have hstart : run ∈ (run ++ back).splitOnP separates := by
    cases back with
    | nil =>
      rw [List.append_nil, List.splitOnP_eq_singleton hrun]
      exact List.mem_singleton_self run
    | cons separator back =>
      rw [List.splitOnP_append_cons_of_forall_mem hrun separator (hback _ rfl)]
      exact List.mem_cons_self
  rw [List.append_assoc]
  rcases List.eq_nil_or_concat front with rfl | ⟨front, separator, rfl⟩
  · exact hstart
  · have hseparator : separates separator = true := hfront separator (by simp)
    rw [List.concat_eq_append, List.append_assoc, List.singleton_append,
      List.splitOnP_append_cons _ _ hseparator]
    exact List.mem_append_right _ hstart

/-- A run without separators stands between separators exactly if it is one of those that they cut
    the text into. -/
theorem mem_splitOnP_iff {separates : Char → Bool} {text run : List Char} :
    run ∈ text.splitOnP separates ↔
      (∀ c ∈ run, separates c = false) ∧
        ∃ front back, text = front ++ run ++ back ∧
          (∀ c ∈ front.getLast?, separates c = true) ∧
          (∀ c ∈ back.head?, separates c = true) := by
  constructor
  · intro h
    exact ⟨eq_false_of_mem_splitOnP h, exists_eq_of_mem_splitOnP text h⟩
  · rintro ⟨hrun, front, back, rfl, hfront, hback⟩
    exact mem_splitOnP_append hrun hfront hback

/-- A text is a word of another one: it is not empty, has no blank in it, and stands in the other
    text with a blank or nothing before it, and a blank or nothing after it. -/
structure IsWordOf (word text : String) : Prop where
  ne_empty : word ≠ ""
  not_isBlank : ∀ c ∈ word.toList, isBlank c = false
  exists_eq : ∃ front back : String, text = front ++ word ++ back ∧
    (∀ c ∈ front.toList.getLast?, isBlank c = true) ∧
    (∀ c ∈ back.toList.head?, isBlank c = true)

/-- The words that the text is split into are the words in it. -/
theorem mem_words_iff {text word : String} : word ∈ words text ↔ IsWordOf word text := by
  have hrun : word ∈ words text ↔ word ≠ "" ∧ word.toList ∈ text.toList.splitOnP isBlank := by
    constructor
    · intro h
      obtain ⟨hne, -⟩ := not_isBlank_of_mem_words h
      obtain ⟨run, hrun, rfl⟩ := List.mem_map.1 h
      rw [String.toList_ofList] at hne ⊢
      exact ⟨fun hempty => hne (String.ofList_eq_empty_iff.1 hempty), (List.mem_filter.1 hrun).1⟩
    · rintro ⟨hne, hrun⟩
      refine List.mem_map.2 ⟨word.toList, List.mem_filter.2 ⟨hrun, ?_⟩, String.ofList_toList⟩
      simpa using hne
  rw [hrun, mem_splitOnP_iff]
  constructor
  · rintro ⟨hne, hblank, front, back, htext, hfront, hback⟩
    refine ⟨hne, hblank, String.ofList front, String.ofList back, ?_, ?_, ?_⟩
    · rw [← String.toList_inj, htext]
      simp
    · rwa [String.toList_ofList]
    · rwa [String.toList_ofList]
  · rintro ⟨hne, hblank, front, back, rfl, hfront, hback⟩
    exact ⟨hne, hblank, front.toList, back.toList, by simp, hfront, hback⟩

/-! ## Operators -/

/-- How a value is made up of the expected text, for each operator. -/
def AttributeOperator.Compares (operator : AttributeOperator) (value expected : String) : Prop :=
  match operator with
  | equals => value = expected
  | includesWord => IsWordOf expected value
  | dashMatch => value = expected ∨ ∃ rest, value = expected ++ "-" ++ rest
  | beginsWith => expected ≠ "" ∧ ∃ rest, value = expected ++ rest
  | endsWith => expected ≠ "" ∧ ∃ front, value = front ++ expected
  | contains => expected ≠ "" ∧ ∃ front back, value = front ++ expected ++ back

namespace AttributeOperator

variable {value expected : String}

/-- `=` compares the whole value. -/
theorem holds_equals_iff : equals.holds value expected = true ↔ value = expected :=
  beq_iff_eq

/-- `~=` finds the expected word in the value. -/
theorem holds_includesWord_iff :
    includesWord.holds value expected = true ↔ IsWordOf expected value := by
  rw [← mem_words_iff]
  exact List.contains_iff_mem

/-- `|=` finds the expected text alone or in front of a hyphen. -/
theorem holds_dashMatch_iff :
    dashMatch.holds value expected = true ↔
      value = expected ∨ ∃ rest, value = expected ++ "-" ++ rest := by
  -- the test strips the expected value from the front and looks at the next character
  have hafter : dashMatch.holds value expected = true ↔
      ∃ after, expected.toList ++ after = value.toList ∧ ∀ c ∈ after.head?, c = '-' := by
    rw [holds]
    cases hprefix : expected.toList.isPrefixOf? value.toList with
    | none =>
      refine iff_of_false nofun ?_
      rintro ⟨after, happend, -⟩
      rw [List.isPrefixOf?_eq_some_iff_append_eq.2 happend] at hprefix
      exact nomatch hprefix
    | some after =>
      have happend := List.isPrefixOf?_eq_some_iff_append_eq.1 hprefix
      have hunique : ∀ other, expected.toList ++ other = value.toList ↔ other = after :=
        fun other => by rw [← happend, List.append_cancel_left_eq]
      simp only [hunique, exists_eq_left]
      cases after with
      | nil => exact iff_of_true rfl nofun
      | cons c after => simp
  rw [hafter]
  constructor
  · rintro ⟨after, happend, hhead⟩
    cases after with
    | nil => exact Or.inl (String.toList_inj.1 (by rw [← happend, List.append_nil]))
    | cons c after =>
      obtain rfl := hhead c rfl
      exact Or.inr ⟨String.ofList after, String.toList_inj.1 (by simp [← happend])⟩
  · rintro (rfl | ⟨rest, rfl⟩)
    · exact ⟨[], List.append_nil _, nofun⟩
    · exact ⟨'-' :: rest.toList, by simp, by simp⟩

/-- `^=` finds the expected text in front. -/
theorem holds_beginsWith_iff :
    beginsWith.holds value expected = true ↔ ∃ rest, value = expected ++ rest := by
  refine List.isPrefixOf_iff_prefix.trans ⟨?_, ?_⟩
  · rintro ⟨rest, happend⟩
    exact ⟨String.ofList rest, String.toList_inj.1 (by simp [happend])⟩
  · rintro ⟨rest, rfl⟩
    exact ⟨rest.toList, String.toList_append.symm⟩

/-- `$=` finds the expected text at the end. -/
theorem holds_endsWith_iff :
    endsWith.holds value expected = true ↔ ∃ front, value = front ++ expected := by
  refine List.isSuffixOf_iff_suffix.trans ⟨?_, ?_⟩
  · rintro ⟨front, happend⟩
    exact ⟨String.ofList front, String.toList_inj.1 (by simp [happend])⟩
  · rintro ⟨front, rfl⟩
    exact ⟨front.toList, String.toList_append.symm⟩

/-- `*=` finds the expected text anywhere. -/
theorem holds_contains_iff :
    contains.holds value expected = true ↔ ∃ front back, value = front ++ expected ++ back := by
  -- the instance is named, as in the definition
  refine (@decide_eq_true_iff _ (List.instDecidableIsInfixOfDecidableEq _ _)).trans ⟨?_, ?_⟩
  · rintro ⟨front, back, happend⟩
    exact ⟨String.ofList front, String.ofList back, String.toList_inj.1 (by simp [← happend])⟩
  · rintro ⟨front, back, rfl⟩
    exact ⟨front.toList, back.toList, by simp⟩

end AttributeOperator

/-! ## Tests -/

/-- The selector of the elements with an attribute whose value compares with an expected one. -/
def comparison (scope : AttributeScope) (name : String) (operator : AttributeOperator)
    (expected : String) : Complex :=
  .compound [.atom (.attribute ⟨scope, name, some (operator, expected)⟩)]

/-- An operator says what its evaluation finds, unless the comparison is folded away. -/
theorem compares_iff {scope : AttributeScope} {name : String} {operator : AttributeOperator}
    {value expected : String} :
    operator.Compares value expected ↔
      ¬ AttributeTest.ExpectsNothing ⟨scope, name, some (operator, expected)⟩ ∧
        operator.holds value expected = true := by
  cases operator with
  | equals =>
    rw [AttributeOperator.holds_equals_iff]
    exact (and_iff_right (by simp [AttributeTest.ExpectsNothing])).symm
  | includesWord =>
    rw [AttributeOperator.holds_includesWord_iff]
    exact (and_iff_right (by simp [AttributeTest.ExpectsNothing])).symm
  | dashMatch =>
    rw [AttributeOperator.holds_dashMatch_iff]
    exact (and_iff_right (by simp [AttributeTest.ExpectsNothing])).symm
  | beginsWith =>
    rw [AttributeOperator.holds_beginsWith_iff]
    exact and_congr_left' (by simp [AttributeTest.ExpectsNothing])
  | endsWith =>
    rw [AttributeOperator.holds_endsWith_iff]
    exact and_congr_left' (by simp [AttributeTest.ExpectsNothing])
  | contains =>
    rw [AttributeOperator.holds_contains_iff]
    exact and_congr_left' (by simp [AttributeTest.ExpectsNothing])

variable {t : Tree}

/-- The test of a comparison looks the attribute up and compares what it finds. -/
theorem accepts_comparison {e : Element t} {scope : AttributeScope} {name : String}
    {operator : AttributeOperator} {expected : String} :
    (comparison scope name operator expected).test.accepts e = true ↔
      ∃ value,
        AttributeTest.value? ⟨scope, name, some (operator, expected)⟩ t.isHtml e.data =
            some value ∧
          operator.Compares value expected := by
  rw [comparison, Complex.accepts_test_atom, Atom.accepts_test_iff]
  show _ ∧ AttributeTest.accepts _ _ _ = true ↔ _
  rw [AttributeTest.accepts.eq_def]
  cases AttributeTest.value? ⟨scope, name, some (operator, expected)⟩ t.isHtml e.data with
  | none =>
    refine iff_of_false (fun h => absurd h.2 Bool.false_ne_true) ?_
    rintro ⟨value, hvalue, -⟩
    cases hvalue
  | some value =>
    simp only [Option.some.injEq, exists_eq_left']
    exact compares_iff.symm

/-- The test of a comparison accepts the elements that have the attribute with a value that compares
    with the expected one. An attribute without a namespace is looked up by its name, in an HTML
    document in lower case, and one of a namespace by its full name. -/
theorem accepts_comparison_iff (e : Element t) (name : String) (operator : AttributeOperator)
    (expected : String) :
    ((comparison .none name operator expected).test.accepts e = true ↔
        ∃ value, e.data.attribute? (nameIn t.isHtml name) = some value ∧
          operator.Compares value expected) ∧
      ∀ url, (comparison (.url url) name operator expected).test.accepts e = true ↔
        ∃ value, e.data.attribute? (clark url name) = some value ∧
          operator.Compares value expected :=
  ⟨accepts_comparison, fun _ => accepts_comparison⟩

end Selectors
