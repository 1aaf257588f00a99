import Selectors.Selector.Basic

/-!
# Tests — selectors reduced to what has to be checked

A test is a selector as it is evaluated: a tree of conditions in which the constant parts have
been folded away. The functions `allOf`, `anyOf`, `negation` and `joined` build tests from tests
and fold on the way, so that a selector that can never hold becomes `never` itself.

Every complex selector is reduced to one test. A dynamic pseudo-class never holds, nor does a
comparison that no value passes; both fold into the test around them.

* **`Test.decidableEq`** — tests are compared structurally.
* **`Complex.test`** — the test of a complex selector.
-/

namespace Selectors

/-- A condition on an element and on those around it. -/
inductive Test where
  | never
  | always
  | all (tests : List Test)
  | any (tests : List Test)
  | not (test : Test)
  | atom (atom : Atom)
  /-- `right` holds of the element, and `left` of one that it leads to through the
      combinator. -/
  | relative (left : Test) (combinator : Combinator) (right : Test)
deriving Inhabited

namespace Test

/-- Whether the test is the one that never holds. -/
def isNever : Test → Bool
  | never => true
  | _ => false

/-- Whether the test is the one that always holds. -/
def isAlways : Test → Bool
  | always => true
  | _ => false

theorem isNever_iff {test : Test} : test.isNever = true ↔ test = never := by
  cases test <;> simp [isNever]

theorem isAlways_iff {test : Test} : test.isAlways = true ↔ test = always := by
  cases test <;> simp [isAlways]

/-! ## Folding -/

/-- The test that all tests of a list hold. -/
def allOf (tests : List Test) : Test :=
  if tests.any isNever then never
  else
    match tests.filter (!·.isAlways) with
    | [] => always
    | [test] => test
    | kept => all kept

/-- The test that some test of a list holds. -/
def anyOf (tests : List Test) : Test :=
  if tests.any isAlways then always
  else
    match tests.filter (!·.isNever) with
    | [] => never
    | [test] => test
    | kept => any kept

/-- The test that another one does not hold. -/
def negation : Test → Test
  | always => never
  | never => always
  | test => not test

/-- The test that `right` holds, and `left` through the combinator. -/
def joined (left : Test) (combinator : Combinator) (right : Test) : Test :=
  if left.isNever || right.isNever then never else relative left combinator right

/-! ## Equality -/

mutual

/-- Whether two tests are the same. -/
def same : Test → Test → Bool
  | never, never => true
  | always, always => true
  | all tests, all others => sameList tests others
  | any tests, any others => sameList tests others
  | not test, not other => same test other
  | atom a, atom b => a == b
  | relative left combinator right, relative left' combinator' right' =>
    same left left' && combinator == combinator' && same right right'
  | _, _ => false

/-- Whether two lists hold the same tests in the same order. -/
def sameList : List Test → List Test → Bool
  | [], [] => true
  | test :: tests, other :: others => same test other && sameList tests others
  | _, _ => false

end

mutual

/-- The structural comparison is equality. -/
theorem same_iff : (a b : Test) → (same a b = true ↔ a = b)
  | never, b => by cases b <;> simp [same]
  | always, b => by cases b <;> simp [same]
  | all tests, b => by cases b <;> simp [same, sameList_iff tests]
  | any tests, b => by cases b <;> simp [same, sameList_iff tests]
  | not test, b => by cases b <;> simp [same, same_iff test]
  | atom a, b => by cases b <;> simp [same]
  | relative left combinator right, b => by
    cases b <;> simp [same, same_iff left, same_iff right, and_assoc]

/-- The structural comparison of lists is equality. -/
theorem sameList_iff : (as bs : List Test) → (sameList as bs = true ↔ as = bs)
  | [], bs => by cases bs <;> simp [sameList]
  | a :: as, bs => by cases bs <;> simp [sameList, same_iff a, sameList_iff as]

end

instance decidableEq : DecidableEq Test := fun a b => decidable_of_iff _ (same_iff a b)

end Test

/-! ## From selectors to tests -/

/-- Whether no value compares with the expected one: nothing begins with, ends with or contains
    nothing, and a word is neither empty nor has it blanks within. -/
def AttributeOperator.isUnsatisfiable (expected : String) : AttributeOperator → Bool
  | beginsWith | endsWith | contains => expected == ""
  | includesWord => expected == "" || expected.toList.any isBlank
  | equals | dashMatch => false

/-- Whether no attribute passes. -/
def AttributeTest.isUnsatisfiable (test : AttributeTest) : Bool :=
  match test.expected? with
  | some (operator, expected) => operator.isUnsatisfiable expected
  | none => false

/-- The test of an atom. -/
def Atom.test : Atom → Test
  | .attribute test => if test.isUnsatisfiable then .never else .atom (.attribute test)
  | .pseudoClass (.dynamic _) => .never
  | atom => .atom atom

mutual

/-- The test of a simple selector. -/
def Simple.test : Simple → Test
  | .atom a => a.test
  | .negation list => (Test.anyOf (listTests list)).negation
  | .isAny list => Test.anyOf (listTests list)
  | .whereAny list => Test.anyOf (listTests list)

/-- The test of a complex selector. -/
def Complex.test : Complex → Test
  | .compound simples => Test.allOf (compoundTests simples)
  | .relative left combinator simples =>
    Test.joined left.test combinator (Test.allOf (compoundTests simples))

/-- The tests of the simple selectors of a compound. -/
def compoundTests : List Simple → List Test
  | [] => []
  | simple :: rest => simple.test :: compoundTests rest

/-- The tests of the selectors of a list. -/
def listTests : List Complex → List Test
  | [] => []
  | complex :: rest => complex.test :: listTests rest

end

/-- The tests of a compound are those of its parts. -/
theorem compoundTests_eq_map (simples : List Simple) :
    compoundTests simples = simples.map Simple.test := by
  induction simples with
  | nil => rfl
  | cons simple rest ih => simp [compoundTests, ih]

/-- The tests of a list are those of its selectors. -/
theorem listTests_eq_map (list : List Complex) : listTests list = list.map Complex.test := by
  induction list with
  | nil => rfl
  | cons complex rest ih => simp [listTests, ih]

end Selectors
