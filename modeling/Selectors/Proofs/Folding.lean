import Selectors.Test.Basic

/-!
# Folding — which selectors are constant, and what the other tests look like

Of some selectors it can be seen from their text that no element satisfies them, or that every
element does. A dynamic pseudo-class is such a constant, and so is a comparison that no value
passes; lists, negations and compounds of constants may be constants in turn. What stands beside a
combinator is never constant true, since nothing says that there is another element.

Reducing a selector to its test finds exactly these constants. The four folding functions are
taken one by one: each is inverted once, into the ways in which its result can come about, and
the rest is an induction over the syntax in which no folding function is opened again.

* **`Complex.IsFalse`** and **`Complex.IsTrue`** — the constants, told by the text alone.
* **`Test.Folded`** — tests in which nothing is left to fold.
* **`Test.allOf_cases`** and **`Test.anyOf_cases`** — what folding a list comes to.
* **`Complex.test_constant_or_folded`** — folding finds all constants, and only these, and what it
  leaves is folded at every depth.
-/

namespace Selectors

/-! ## Constants -/

/-- The characters between the words of a value. -/
def wordSeparators : List Char := ['\n', '\t', ' ', '\r', '\x0c']

/-- No value compares with the expected one: to begin with, to end with or to contain nothing
    counts for no value, and no word is empty or has a separator in it. -/
def AttributeOperator.FitsNothing (expected : String) : AttributeOperator → Prop
  | beginsWith | endsWith | contains => expected = ""
  | includesWord => expected = "" ∨ ∃ c ∈ expected.toList, c ∈ wordSeparators
  | equals | dashMatch => False

/-- An atom is constant false. -/
def Atom.IsFalse : Atom → Prop
  | .attribute test => ∃ operator expected,
      test.expected? = some (operator, expected) ∧ operator.FitsNothing expected
  | .pseudoClass (.dynamic _) => True
  | _ => False

mutual

/-- A simple selector is constant false. -/
def Simple.IsFalse : Simple → Prop
  | .atom a => a.IsFalse
  | .negation list => SomeTrue list
  | .isAny list => AllFalse list
  | .whereAny list => AllFalse list

/-- A simple selector is constant true. -/
def Simple.IsTrue : Simple → Prop
  | .atom _ => False
  | .negation list => AllFalse list
  | .isAny list => SomeTrue list
  | .whereAny list => SomeTrue list

/-- A complex selector is constant false: one of its compounds is. -/
def Complex.IsFalse : Complex → Prop
  | .compound simples => SomePartFalse simples
  | .relative left _ simples => left.IsFalse ∨ SomePartFalse simples

/-- A complex selector is constant true: it is a single compound that is. -/
def Complex.IsTrue : Complex → Prop
  | .compound simples => AllPartsTrue simples
  | .relative _ _ _ => False

/-- Some simple selector of a compound is constant false. -/
def SomePartFalse : List Simple → Prop
  | [] => False
  | simple :: rest => simple.IsFalse ∨ SomePartFalse rest

/-- All simple selectors of a compound are constant true. -/
def AllPartsTrue : List Simple → Prop
  | [] => True
  | simple :: rest => simple.IsTrue ∧ AllPartsTrue rest

/-- All selectors of a list are constant false. -/
def AllFalse : List Complex → Prop
  | [] => True
  | complex :: rest => complex.IsFalse ∧ AllFalse rest

/-- Some selector of a list is constant true. -/
def SomeTrue : List Complex → Prop
  | [] => False
  | complex :: rest => complex.IsTrue ∨ SomeTrue rest

end

namespace Test

/-! ## Folded tests -/

/-- A test that is no constant and in which nothing is left to fold. The constant `never` is
    nowhere in it, and `always` only beside a combinator; several tests are at least two; and no
    atom is constant false. -/
inductive Folded : Test → Prop where
  | all {tests : List Test} :
      2 ≤ tests.length → (∀ test ∈ tests, Folded test) → Folded (all tests)
  | any {tests : List Test} :
      2 ≤ tests.length → (∀ test ∈ tests, Folded test) → Folded (any tests)
  | not {test : Test} : Folded test → Folded (not test)
  | atom {a : Atom} : ¬ a.IsFalse → Folded (atom a)
  | relative {left : Test} {combinator : Combinator} {right : Test} :
      (left ≠ always → Folded left) → (right ≠ always → Folded right) →
        Folded (relative left combinator right)

/-- A test is a constant or folded. -/
def IsReduced (test : Test) : Prop :=
  test ≠ never → test ≠ always → test.Folded

/-! ## What the folding functions give -/

/-- Looking for `never` in a list is membership. -/
theorem any_isNever_iff {tests : List Test} : tests.any isNever = true ↔ never ∈ tests := by
  rw [List.any_eq_true]
  constructor
  · rintro ⟨test, hmem, hnever⟩
    rwa [isNever_iff.1 hnever] at hmem
  · intro hmem
    exact ⟨never, hmem, rfl⟩

/-- Looking for `always` in a list is membership. -/
theorem any_isAlways_iff {tests : List Test} : tests.any isAlways = true ↔ always ∈ tests := by
  rw [List.any_eq_true]
  constructor
  · rintro ⟨test, hmem, halways⟩
    rwa [isAlways_iff.1 halways] at hmem
  · intro hmem
    exact ⟨always, hmem, rfl⟩

/-- What is left of some tests when those of one kind are taken out: nothing, if all of them were
    of that kind, or one test, or at least two. -/
theorem filter_cases {dropped : Test → Bool} {constant : Test}
    (hdropped : ∀ test, dropped test = true ↔ test = constant) (tests : List Test) :
    (tests.filter (!dropped ·) = [] ∧ ∀ test ∈ tests, test = constant) ∨
      (∃ test ∈ tests, test ≠ constant ∧ tests.filter (!dropped ·) = [test]) ∨
      (∃ a b rest, tests.filter (!dropped ·) = a :: b :: rest ∧
        ∀ test ∈ a :: b :: rest, test ∈ tests ∧ test ≠ constant) := by
  have hkept : ∀ test ∈ tests.filter (!dropped ·), test ∈ tests ∧ test ≠ constant := by
    intro test hmem
    obtain ⟨hmem, hkeep⟩ := List.mem_filter.1 hmem
    refine ⟨hmem, fun hconstant => ?_⟩
    rw [(hdropped test).2 hconstant] at hkeep
    exact nomatch hkeep
  -- no test is kept, one, or more: the folding goes by this
  match hfilter : tests.filter (!dropped ·) with
  | [] =>
    refine Or.inl ⟨rfl, fun test hmem => (hdropped test).1 ?_⟩
    have hnot := List.filter_eq_nil_iff.1 hfilter test hmem
    simpa using hnot
  | [test] =>
    rw [hfilter] at hkept
    obtain ⟨hmem, hne⟩ := hkept test List.mem_cons_self
    exact Or.inr (Or.inl ⟨test, hmem, hne, rfl⟩)
  | a :: b :: rest =>
    rw [hfilter] at hkept
    exact Or.inr (Or.inr ⟨a, b, rest, rfl, hkept⟩)

/-- Folding the tests that all have to hold: one that never holds decides, and otherwise those that
    always hold are left out. -/
theorem allOf_cases (tests : List Test) :
    (never ∈ tests ∧ allOf tests = never) ∨
      never ∉ tests ∧
        ((allOf tests = always ∧ ∀ test ∈ tests, test = always) ∨
          (∃ test ∈ tests, test ≠ always ∧ allOf tests = test) ∨
          (∃ kept, allOf tests = all kept ∧ 2 ≤ kept.length ∧
            ∀ test ∈ kept, test ∈ tests ∧ test ≠ always)) := by
  by_cases hnever : never ∈ tests
  · left
    exact ⟨hnever, if_pos (any_isNever_iff.2 hnever)⟩
  · right
    refine ⟨hnever, ?_⟩
    rw [allOf, if_neg (mt any_isNever_iff.1 hnever)]
    rcases filter_cases (fun _ => isAlways_iff) tests with
      ⟨hfilter, hall⟩ | ⟨test, hmem, hne, hfilter⟩ | ⟨a, b, rest, hfilter, hkept⟩
    · rw [hfilter]
      exact Or.inl ⟨rfl, hall⟩
    · rw [hfilter]
      exact Or.inr (Or.inl ⟨test, hmem, hne, rfl⟩)
    · rw [hfilter]
      exact Or.inr (Or.inr ⟨_, rfl, Nat.le_add_left 2 rest.length, hkept⟩)

/-- Folding the tests of which one has to hold: one that always holds decides, and otherwise those
    that never hold are left out. -/
theorem anyOf_cases (tests : List Test) :
    (always ∈ tests ∧ anyOf tests = always) ∨
      always ∉ tests ∧
        ((anyOf tests = never ∧ ∀ test ∈ tests, test = never) ∨
          (∃ test ∈ tests, test ≠ never ∧ anyOf tests = test) ∨
          (∃ kept, anyOf tests = any kept ∧ 2 ≤ kept.length ∧
            ∀ test ∈ kept, test ∈ tests ∧ test ≠ never)) := by
  by_cases halways : always ∈ tests
  · left
    exact ⟨halways, if_pos (any_isAlways_iff.2 halways)⟩
  · right
    refine ⟨halways, ?_⟩
    rw [anyOf, if_neg (mt any_isAlways_iff.1 halways)]
    rcases filter_cases (fun _ => isNever_iff) tests with
      ⟨hfilter, hall⟩ | ⟨test, hmem, hne, hfilter⟩ | ⟨a, b, rest, hfilter, hkept⟩
    · rw [hfilter]
      exact Or.inl ⟨rfl, hall⟩
    · rw [hfilter]
      exact Or.inr (Or.inl ⟨test, hmem, hne, rfl⟩)
    · rw [hfilter]
      exact Or.inr (Or.inr ⟨_, rfl, Nat.le_add_left 2 rest.length, hkept⟩)

/-- What negation makes of a test: the other constant, or a negation. -/
theorem negation_cases (test : Test) :
    (test = never ∧ test.negation = always) ∨ (test = always ∧ test.negation = never) ∨
      (test ≠ never ∧ test ≠ always ∧ test.negation = not test) := by
  cases test with
  | never => exact Or.inl ⟨rfl, rfl⟩
  | always => exact Or.inr (Or.inl ⟨rfl, rfl⟩)
  | _ => exact Or.inr (Or.inr ⟨nofun, nofun, rfl⟩)

/-- What joining makes of two tests: `never` if one of them is, or a relative test. -/
theorem joined_cases (left : Test) (combinator : Combinator) (right : Test) :
    ((left = never ∨ right = never) ∧ joined left combinator right = never) ∨
      (left ≠ never ∧ right ≠ never ∧
        joined left combinator right = relative left combinator right) := by
  have hdecides : (left.isNever || right.isNever) = true ↔ left = never ∨ right = never := by
    rw [Bool.or_eq_true, isNever_iff, isNever_iff]
  by_cases hnever : left = never ∨ right = never
  · left
    exact ⟨hnever, if_pos (hdecides.2 hnever)⟩
  · right
    obtain ⟨hleft, hright⟩ := not_or.1 hnever
    exact ⟨hleft, hright, if_neg (mt hdecides.1 hnever)⟩

/-! ## When the result is a constant -/

/-- A conjunction folds to `never` exactly if it has it among its parts. -/
theorem allOf_eq_never_iff {tests : List Test} : allOf tests = never ↔ never ∈ tests := by
  rcases allOf_cases tests with
    ⟨hmem, hfold⟩ | ⟨hnot, ⟨hfold, -⟩ | ⟨test, hmem, -, hfold⟩ | ⟨kept, hfold, -, -⟩⟩
  · exact iff_of_true hfold hmem
  · exact iff_of_false (by rw [hfold]; exact nofun) hnot
  · refine iff_of_false (fun heq => hnot ?_) hnot
    rwa [← heq, hfold]
  · exact iff_of_false (by rw [hfold]; exact nofun) hnot

/-- A conjunction folds to `always` exactly if all of its parts are. -/
theorem allOf_eq_always_iff {tests : List Test} :
    allOf tests = always ↔ ∀ test ∈ tests, test = always := by
  rcases allOf_cases tests with
    ⟨hmem, hfold⟩ | ⟨-, ⟨hfold, hall⟩ | ⟨test, hmem, hne, hfold⟩ | ⟨kept, hfold, hlength, hkept⟩⟩
  · exact iff_of_false (by rw [hfold]; exact nofun) fun hall => nomatch hall never hmem
  · exact iff_of_true hfold hall
  · exact iff_of_false (by rwa [hfold]) fun hall => hne (hall test hmem)
  · refine iff_of_false (by rw [hfold]; exact nofun) fun hall => ?_
    obtain ⟨test, hmem⟩ := List.exists_mem_of_length_pos (Nat.lt_of_lt_of_le Nat.two_pos hlength)
    obtain ⟨hmem, hne⟩ := hkept test hmem
    exact hne (hall test hmem)

/-- A disjunction folds to `always` exactly if it has it among its parts. -/
theorem anyOf_eq_always_iff {tests : List Test} : anyOf tests = always ↔ always ∈ tests := by
  rcases anyOf_cases tests with
    ⟨hmem, hfold⟩ | ⟨hnot, ⟨hfold, -⟩ | ⟨test, hmem, -, hfold⟩ | ⟨kept, hfold, -, -⟩⟩
  · exact iff_of_true hfold hmem
  · exact iff_of_false (by rw [hfold]; exact nofun) hnot
  · refine iff_of_false (fun heq => hnot ?_) hnot
    rwa [← heq, hfold]
  · exact iff_of_false (by rw [hfold]; exact nofun) hnot

/-- A disjunction folds to `never` exactly if all of its parts are. -/
theorem anyOf_eq_never_iff {tests : List Test} :
    anyOf tests = never ↔ ∀ test ∈ tests, test = never := by
  rcases anyOf_cases tests with
    ⟨hmem, hfold⟩ | ⟨-, ⟨hfold, hall⟩ | ⟨test, hmem, hne, hfold⟩ | ⟨kept, hfold, hlength, hkept⟩⟩
  · exact iff_of_false (by rw [hfold]; exact nofun) fun hall => nomatch hall always hmem
  · exact iff_of_true hfold hall
  · exact iff_of_false (by rwa [hfold]) fun hall => hne (hall test hmem)
  · refine iff_of_false (by rw [hfold]; exact nofun) fun hall => ?_
    obtain ⟨test, hmem⟩ := List.exists_mem_of_length_pos (Nat.lt_of_lt_of_le Nat.two_pos hlength)
    obtain ⟨hmem, hne⟩ := hkept test hmem
    exact hne (hall test hmem)

private theorem negation_eq_never_iff {test : Test} : test.negation = never ↔ test = always := by
  cases test <;> simp [negation]

private theorem negation_eq_always_iff {test : Test} : test.negation = always ↔ test = never := by
  cases test <;> simp [negation]

private theorem joined_eq_never_iff {left : Test} {combinator : Combinator} {right : Test} :
    joined left combinator right = never ↔ left = never ∨ right = never := by
  rcases joined_cases left combinator right with ⟨hnever, hfold⟩ | ⟨hleft, hright, hfold⟩
  · exact iff_of_true hfold hnever
  · exact iff_of_false (by rw [hfold]; exact nofun) (not_or.2 ⟨hleft, hright⟩)

private theorem joined_ne_always (left : Test) (combinator : Combinator) (right : Test) :
    joined left combinator right ≠ always := by
  rcases joined_cases left combinator right with ⟨-, hfold⟩ | ⟨-, -, hfold⟩
  · rw [hfold]
    exact nofun
  · rw [hfold]
    exact nofun

/-! ## What is made of reduced tests is reduced -/

/-- A conjunction of folded tests is folded. -/
theorem isReduced_allOf {tests : List Test} (h : ∀ test ∈ tests, test.IsReduced) :
    (allOf tests).IsReduced := by
  intro hnever halways
  rcases allOf_cases tests with
    ⟨-, hfold⟩ | ⟨hnot, ⟨hfold, -⟩ | ⟨test, hmem, -, hfold⟩ | ⟨kept, hfold, hlength, hkept⟩⟩
  · exact absurd hfold hnever
  · exact absurd hfold halways
  · rw [hfold] at hnever halways ⊢
    exact h test hmem hnever halways
  · rw [hfold]
    refine Folded.all hlength fun test htest => ?_
    obtain ⟨hmem, hne⟩ := hkept test htest
    exact h test hmem (fun heq => hnot (heq ▸ hmem)) hne

/-- A disjunction of folded tests is folded. -/
theorem isReduced_anyOf {tests : List Test} (h : ∀ test ∈ tests, test.IsReduced) :
    (anyOf tests).IsReduced := by
  intro hnever halways
  rcases anyOf_cases tests with
    ⟨-, hfold⟩ | ⟨hnot, ⟨hfold, -⟩ | ⟨test, hmem, -, hfold⟩ | ⟨kept, hfold, hlength, hkept⟩⟩
  · exact absurd hfold halways
  · exact absurd hfold hnever
  · rw [hfold] at hnever halways ⊢
    exact h test hmem hnever halways
  · rw [hfold]
    refine Folded.any hlength fun test htest => ?_
    obtain ⟨hmem, hne⟩ := hkept test htest
    exact h test hmem hne (fun heq => hnot (heq ▸ hmem))

/-- The negation of a folded test is folded. -/
theorem isReduced_negation {test : Test} (h : test.IsReduced) : test.negation.IsReduced := by
  intro hnever halways
  rcases negation_cases test with ⟨-, hfold⟩ | ⟨-, hfold⟩ | ⟨hne, hne', hfold⟩
  · exact absurd hfold halways
  · exact absurd hfold hnever
  · rw [hfold]
    exact Folded.not (h hne hne')

/-- Two folded tests joined are folded. -/
theorem isReduced_joined {left : Test} {combinator : Combinator} {right : Test}
    (hleft : left.IsReduced) (hright : right.IsReduced) :
    (joined left combinator right).IsReduced := by
  intro hnever _
  rcases joined_cases left combinator right with ⟨-, hfold⟩ | ⟨hleft', hright', hfold⟩
  · exact absurd hfold hnever
  · rw [hfold]
    exact Folded.relative (hleft hleft') (hright hright')

end Test

/-! ## Atoms -/

private theorem any_isBlank_iff {text : List Char} :
    text.any isBlank = true ↔ ∃ c ∈ text, c ∈ wordSeparators := by
  rw [List.any_eq_true]
  refine exists_congr fun c => and_congr_right fun _ => ?_
  simp only [isBlank, wordSeparators, Bool.or_eq_true, beq_iff_eq, List.mem_cons,
    List.not_mem_nil, or_false, or_assoc]

/-- The check for comparisons that nothing passes is the list of them. -/
theorem AttributeOperator.isUnsatisfiable_iff {operator : AttributeOperator} {expected : String} :
    operator.isUnsatisfiable expected = true ↔ operator.FitsNothing expected := by
  cases operator with
  | includesWord =>
    show (expected == "" || expected.toList.any isBlank) = true ↔
      expected = "" ∨ ∃ c ∈ expected.toList, c ∈ wordSeparators
    rw [Bool.or_eq_true, beq_iff_eq, any_isBlank_iff]
  | beginsWith => exact beq_iff_eq
  | endsWith => exact beq_iff_eq
  | contains => exact beq_iff_eq
  | equals => exact iff_of_false nofun not_false
  | dashMatch => exact iff_of_false nofun not_false

private theorem AttributeTest.isUnsatisfiable_iff_isFalse {test : AttributeTest} :
    test.isUnsatisfiable = true ↔ (Atom.attribute test).IsFalse := by
  obtain ⟨scope, name, expected?⟩ := test
  cases expected? with
  | none =>
    refine iff_of_false nofun ?_
    rintro ⟨_, _, hexpected, -⟩
    exact nomatch hexpected
  | some pair =>
    obtain ⟨operator, expected⟩ := pair
    show operator.isUnsatisfiable expected = true ↔ _
    rw [AttributeOperator.isUnsatisfiable_iff]
    constructor
    · intro hnothing
      exact ⟨operator, expected, rfl, hnothing⟩
    · rintro ⟨_, _, hexpected, hnothing⟩
      obtain ⟨rfl, rfl⟩ := Prod.mk.inj (Option.some.inj hexpected)
      exact hnothing

/-- The test of an atom is `never` if the atom is constant false, and otherwise the atom. -/
theorem Atom.test_cases (a : Atom) :
    (a.IsFalse ∧ a.test = .never) ∨ (¬ a.IsFalse ∧ a.test = .atom a) := by
  match a with
  | .attribute test =>
    by_cases hfalse : (Atom.attribute test).IsFalse
    · exact Or.inl ⟨hfalse, if_pos (AttributeTest.isUnsatisfiable_iff_isFalse.2 hfalse)⟩
    · exact Or.inr ⟨hfalse, if_neg (mt AttributeTest.isUnsatisfiable_iff_isFalse.1 hfalse)⟩
  | .pseudoClass p =>
    cases p with
    | dynamic state => exact Or.inl ⟨trivial, rfl⟩
    | _ => exact Or.inr ⟨not_false, rfl⟩
  | .typeName _ => exact Or.inr ⟨not_false, rfl⟩
  | .inNamespace _ => exact Or.inr ⟨not_false, rfl⟩
  | .id _ => exact Or.inr ⟨not_false, rfl⟩
  | .className _ => exact Or.inr ⟨not_false, rfl⟩

/-! ## Folding finds the constants -/

mutual

/-- A simple selector is compiled to a constant exactly if its parts make it one. -/
theorem Simple.test_constant : (simple : Simple) →
    (simple.test = .never ↔ simple.IsFalse) ∧ (simple.test = .always ↔ simple.IsTrue)
  | .atom a => by
    show (a.test = .never ↔ a.IsFalse) ∧ (a.test = .always ↔ False)
    rcases a.test_cases with ⟨hfalse, htest⟩ | ⟨hnot, htest⟩
    · rw [htest]
      exact ⟨iff_of_true rfl hfalse, iff_of_false nofun not_false⟩
    · rw [htest]
      exact ⟨iff_of_false nofun hnot, iff_of_false nofun not_false⟩
  | .negation list => by
    obtain ⟨hfalse, htrue⟩ := anyOf_listTests_constant list
    exact ⟨Test.negation_eq_never_iff.trans htrue, Test.negation_eq_always_iff.trans hfalse⟩
  | .isAny list => anyOf_listTests_constant list
  | .whereAny list => anyOf_listTests_constant list

/-- A complex selector is compiled to a constant exactly if its parts make it one. -/
theorem Complex.test_constant : (complex : Complex) →
    (complex.test = .never ↔ complex.IsFalse) ∧ (complex.test = .always ↔ complex.IsTrue)
  | .compound simples => allOf_compoundTests_constant simples
  | .relative left combinator simples => by
    obtain ⟨hleft, -⟩ := Complex.test_constant left
    obtain ⟨hright, -⟩ := allOf_compoundTests_constant simples
    exact ⟨Test.joined_eq_never_iff.trans (or_congr hleft hright),
      iff_of_false (Test.joined_ne_always _ _ _) not_false⟩

/-- A compound is false by one part that is, and true by all of them. -/
theorem allOf_compoundTests_constant : (simples : List Simple) →
    (Test.allOf (compoundTests simples) = .never ↔ SomePartFalse simples) ∧
      (Test.allOf (compoundTests simples) = .always ↔ AllPartsTrue simples)
  | [] => ⟨iff_of_false nofun not_false, iff_of_true rfl trivial⟩
  | simple :: rest => by
    obtain ⟨hfalse, htrue⟩ := Simple.test_constant simple
    obtain ⟨hrest, hrest'⟩ := allOf_compoundTests_constant rest
    rw [Test.allOf_eq_never_iff] at hrest ⊢
    rw [Test.allOf_eq_always_iff] at hrest' ⊢
    rw [compoundTests, List.mem_cons, List.forall_mem_cons, hrest, hrest', htrue, eq_comm, hfalse]
    exact ⟨Iff.rfl, Iff.rfl⟩

/-- A list is true by one selector that is, and false by all of them. -/
theorem anyOf_listTests_constant : (list : List Complex) →
    (Test.anyOf (listTests list) = .never ↔ AllFalse list) ∧
      (Test.anyOf (listTests list) = .always ↔ SomeTrue list)
  | [] => ⟨iff_of_true rfl trivial, iff_of_false nofun not_false⟩
  | complex :: rest => by
    obtain ⟨hfalse, htrue⟩ := Complex.test_constant complex
    obtain ⟨hrest, hrest'⟩ := anyOf_listTests_constant rest
    rw [Test.anyOf_eq_never_iff] at hrest ⊢
    rw [Test.anyOf_eq_always_iff] at hrest' ⊢
    rw [listTests, List.mem_cons, List.forall_mem_cons, hrest, hrest', hfalse, eq_comm, htrue]
    exact ⟨Iff.rfl, Iff.rfl⟩

end

/-! ## Folding leaves nothing to fold -/

mutual

/-- The test of a simple selector is folded. -/
theorem Simple.isReduced_test : (simple : Simple) → simple.test.IsReduced
  | .atom a => by
    intro hnever _
    show a.test.Folded
    rcases a.test_cases with ⟨-, htest⟩ | ⟨hnot, htest⟩
    · exact absurd htest hnever
    · rw [htest]
      exact Test.Folded.atom hnot
  | .negation list =>
    Test.isReduced_negation (Test.isReduced_anyOf (isReduced_of_mem_listTests list))
  | .isAny list => Test.isReduced_anyOf (isReduced_of_mem_listTests list)
  | .whereAny list => Test.isReduced_anyOf (isReduced_of_mem_listTests list)

/-- The test of a complex selector is folded. -/
theorem Complex.isReduced_test : (complex : Complex) → complex.test.IsReduced
  | .compound simples => Test.isReduced_allOf (isReduced_of_mem_compoundTests simples)
  | .relative left _ simples =>
    Test.isReduced_joined (Complex.isReduced_test left)
      (Test.isReduced_allOf (isReduced_of_mem_compoundTests simples))

private theorem isReduced_of_mem_compoundTests : (simples : List Simple) →
    ∀ test ∈ compoundTests simples, test.IsReduced
  | [] => nofun
  | simple :: rest => by
    intro test hmem
    rcases List.mem_cons.1 hmem with rfl | hmem
    · exact Simple.isReduced_test simple
    · exact isReduced_of_mem_compoundTests rest test hmem

private theorem isReduced_of_mem_listTests : (list : List Complex) →
    ∀ test ∈ listTests list, test.IsReduced
  | [] => nofun
  | complex :: rest => by
    intro test hmem
    rcases List.mem_cons.1 hmem with rfl | hmem
    · exact Complex.isReduced_test complex
    · exact isReduced_of_mem_listTests rest test hmem

end

/-- Folding is exact and total. The test of a selector is a constant exactly if the selector is that
    constant, and any other test is folded at every depth. -/
theorem Complex.test_constant_or_folded (complex : Complex) :
    (complex.test = .never ↔ complex.IsFalse) ∧ (complex.test = .always ↔ complex.IsTrue) ∧
      (complex.test ≠ .never → complex.test ≠ .always → complex.test.Folded) := by
  obtain ⟨hfalse, htrue⟩ := Complex.test_constant complex
  exact ⟨hfalse, htrue, Complex.isReduced_test complex⟩

end Selectors
