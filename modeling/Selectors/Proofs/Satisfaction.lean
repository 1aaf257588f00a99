import Selectors.Proofs.Tree.Siblings
import Selectors.Test.Accepts
import Selectors.Test.Basic

/-!
# Satisfaction — what a selector says, and that its test says the same

A complex selector says of an element that there are other elements, one for each compound to the
left, so that each satisfies its compound and is where its combinator puts it. The relation
`Complex.Holds` is this sentence as it stands: the elements are given by one list, from the subject
leftwards, and where they stand is said by the children lists of the tree.

The test of a selector is folded on the way, nested from the left, and looks for the other elements
one walk at a time. On forests the two agree; the proof follows the syntax, and the walks come in
through `mem_reached_iff` alone.

* **`Combinator.Leads`** — where a combinator puts an element.
* **`Simple.Holds`** and **`Complex.Holds`** — the relations.
* **`Complex.accepts_test_iff_holds`** — a test accepts the elements that satisfy the selector.
-/

namespace Selectors

variable {t : Tree}

/-! ## Combinators -/

/-- The element on the left of a combinator is where the combinator puts it. -/
def Combinator.Leads (combinator : Combinator) (left e : Element t) : Prop :=
  match combinator with
  | descendant => left.IsAncestor e
  | child => left.IsParent e
  | nextSibling => left.ImmediatelyPrecedes e
  | subsequentSibling => left.Precedes e

/-- The walk of a combinator meets exactly the elements that it leads to. -/
theorem Combinator.mem_reached_iff (hforest : t.IsForest) (combinator : Combinator)
    {left e : Element t} : left ∈ combinator.reached e ↔ combinator.Leads left e := by
  cases combinator with
  | descendant => exact Element.mem_ancestors_iff hforest
  | child =>
    show left ∈ e.parent?.toList ↔ left.IsParent e
    rw [Option.mem_toList, Element.parent?_eq_some_iff hforest]
  | nextSibling =>
    show left ∈ e.previous?.toList ↔ left.ImmediatelyPrecedes e
    rw [Option.mem_toList, Element.previous?_eq_some_iff hforest]
  | subsequentSibling => exact Element.mem_preceding_iff hforest

/-! ## Satisfaction -/

/-- An attribute is expected to begin with, to end with or to contain nothing. -/
def AttributeTest.ExpectsNothing (test : AttributeTest) : Prop :=
  test.expected? = some (.beginsWith, "") ∨ test.expected? = some (.endsWith, "") ∨
    test.expected? = some (.contains, "")

/-- An element satisfies an atom. -/
def Atom.Holds (atom : Atom) (e : Element t) : Prop :=
  match atom with
  | .pseudoClass (.dynamic _) => False
  | .attribute test => ¬ test.ExpectsNothing ∧ test.accepts t.isHtml e.data = true
  | atom => atom.accepts e = true

mutual

/-- An element satisfies a simple selector. -/
def Simple.Holds : Simple → Element t → Prop
  | .atom a, e => a.Holds e
  | .negation list, e => ¬ SomeHolds list e
  | .isAny list, e => SomeHolds list e
  | .whereAny list, e => SomeHolds list e

/-- The elements of a path, from the subject leftwards, satisfy the compounds of a complex
    selector, and each is where the combinator between puts it. -/
def Complex.HoldsAlong : Complex → List (Element t) → Prop
  | .compound simples, [e] => AllHold simples e
  | .relative left combinator simples, e :: next :: path =>
    AllHold simples e ∧ combinator.Leads next e ∧ left.HoldsAlong (next :: path)
  | _, _ => False

/-- An element satisfies all simple selectors of a compound. -/
def AllHold : List Simple → Element t → Prop
  | [], _ => True
  | simple :: rest, e => simple.Holds e ∧ AllHold rest e

/-- An element is the subject of a path along which some selector of a list is satisfied. -/
def SomeHolds : List Complex → Element t → Prop
  | [], _ => False
  | complex :: rest, e => (∃ path, complex.HoldsAlong (e :: path)) ∨ SomeHolds rest e

end

/-- An element satisfies a complex selector: it is the subject of a path that does. -/
def Complex.Holds (complex : Complex) (e : Element t) : Prop :=
  ∃ path, complex.HoldsAlong (e :: path)

/-- A compound without a combinator looks at its subject only. -/
theorem Complex.holds_compound {simples : List Simple} {e : Element t} :
    (Complex.compound simples).Holds e ↔ AllHold simples e := by
  constructor
  · rintro ⟨path, hpath⟩
    cases path with
    | nil => exact hpath
    | cons next path => exact hpath.elim
  · intro hsubject
    exact ⟨[], hsubject⟩

/-- A path along a combinator is a step and a path from there. -/
theorem Complex.holds_relative {left : Complex} {combinator : Combinator} {simples : List Simple}
    {e : Element t} :
    (Complex.relative left combinator simples).Holds e ↔
      AllHold simples e ∧ ∃ next : Element t, combinator.Leads next e ∧ left.Holds next := by
  constructor
  · rintro ⟨path, hpath⟩
    cases path with
    | nil => exact hpath.elim
    | cons next path =>
      obtain ⟨hsubject, hleads, hleft⟩ := hpath
      exact ⟨hsubject, next, hleads, path, hleft⟩
  · rintro ⟨hsubject, next, hleads, path, hleft⟩
    exact ⟨next :: path, hsubject, hleads, hleft⟩

/-! ## Atoms -/

/-- No run of a split text has a separator in it. -/
theorem eq_false_of_mem_splitOnP {separates : Char → Bool} {text run : List Char}
    (h : run ∈ text.splitOnP separates) : ∀ c ∈ run, separates c = false := by
  induction text generalizing run with
  | nil =>
    rw [List.splitOnP_nil, List.mem_singleton] at h
    subst h
    intro c hc
    exact nomatch hc
  | cons d rest ih =>
    rw [List.splitOnP_cons_eq_if_modifyHead] at h
    split at h
    · rcases List.mem_cons.1 h with rfl | h
      · intro c hc
        exact nomatch hc
      · exact ih h
    · next hd =>
      -- `d` separates nothing, so it goes to the front of the first run
      obtain ⟨first, others, hsplit⟩ :=
        List.exists_cons_of_ne_nil (List.splitOnP_ne_nil separates rest)
      rw [hsplit] at h ih
      rcases List.mem_cons.1 h with rfl | h
      · intro c hc
        rcases List.mem_cons.1 hc with rfl | hc
        · exact eq_false_of_ne_true hd
        · exact ih List.mem_cons_self c hc
      · exact ih (List.mem_cons_of_mem _ h)

/-- A word is not empty, and no blank is in it. -/
theorem not_isBlank_of_mem_words {text word : String} (h : word ∈ words text) :
    word.toList ≠ [] ∧ ∀ c ∈ word.toList, isBlank c = false := by
  unfold words at h
  obtain ⟨run, hrun, rfl⟩ := List.mem_map.1 h
  obtain ⟨hrun, hne⟩ := List.mem_filter.1 hrun
  rw [String.toList_ofList]
  exact ⟨by simpa using hne, eq_false_of_mem_splitOnP hrun⟩

/-- A comparison that is folded away either expects nothing or is passed by no value. -/
theorem AttributeTest.accepts_of_isUnsatisfiable {test : AttributeTest} {isHtml : Bool}
    {data : ElementData} (h : test.isUnsatisfiable = true)
    (haccepts : test.accepts isHtml data = true) : test.ExpectsNothing := by
  obtain ⟨scope, name, expected?⟩ := test
  match expected? with
  | none => exact nomatch h
  | some (operator, expected) =>
    cases operator with
    | beginsWith =>
      obtain rfl : expected = "" := beq_iff_eq.1 h
      exact Or.inl rfl
    | endsWith =>
      obtain rfl : expected = "" := beq_iff_eq.1 h
      exact Or.inr (Or.inl rfl)
    | contains =>
      obtain rfl : expected = "" := beq_iff_eq.1 h
      exact Or.inr (Or.inr rfl)
    | includesWord =>
      unfold accepts at haccepts
      split at haccepts
      · exact nomatch haccepts
      · next hnone => exact nomatch hnone
      -- a word of the value is not empty and has no blank in it
      · next value _ _ hexpected =>
        obtain ⟨rfl, rfl⟩ := Prod.mk.inj (Option.some.inj hexpected)
        obtain ⟨hne, hblank⟩ := not_isBlank_of_mem_words (List.contains_iff_mem.1 haccepts)
        rcases Bool.or_eq_true_iff.1 h with hempty | hany
        · rw [beq_iff_eq.1 hempty] at hne
          exact absurd rfl hne
        · obtain ⟨c, hc, hisBlank⟩ := List.any_eq_true.1 hany
          rw [hblank c hc] at hisBlank
          exact nomatch hisBlank
    | equals => exact nomatch h
    | dashMatch => exact nomatch h

/-- A comparison that expects nothing is folded away. -/
theorem AttributeTest.isUnsatisfiable_of_expectsNothing {test : AttributeTest}
    (h : test.ExpectsNothing) : test.isUnsatisfiable = true := by
  unfold isUnsatisfiable
  rcases h with h | h | h
  · rw [h]; rfl
  · rw [h]; rfl
  · rw [h]; rfl

/-- The test of an atom accepts the elements that satisfy the atom. -/
theorem Atom.accepts_test_iff (atom : Atom) (e : Element t) :
    atom.test.accepts e = true ↔ atom.Holds e := by
  match atom with
  | .attribute test =>
    show (if test.isUnsatisfiable then Test.never else Test.atom (.attribute test)).accepts e = true
      ↔ ¬ test.ExpectsNothing ∧ test.accepts t.isHtml e.data = true
    split
    · next hfolded =>
      constructor
      · intro haccepts
        exact nomatch haccepts
      · rintro ⟨hnot, haccepts⟩
        exact absurd (AttributeTest.accepts_of_isUnsatisfiable hfolded haccepts) hnot
    · next hkept =>
      constructor
      · intro haccepts
        refine ⟨fun hnothing => hkept ?_, haccepts⟩
        exact AttributeTest.isUnsatisfiable_of_expectsNothing hnothing
      · rintro ⟨-, haccepts⟩
        exact haccepts
  | .pseudoClass p =>
    -- a dynamic state holds of no element; of the others both sides are the same test
    cases p with
    | dynamic state =>
      constructor
      · intro haccepts
        exact nomatch haccepts
      · exact False.elim
    | _ => exact Iff.rfl
  | .typeName _ => exact Iff.rfl
  | .inNamespace _ => exact Iff.rfl
  | .id _ => exact Iff.rfl
  | .className _ => exact Iff.rfl

/-- The test of a selector that is a single atom is the test of the atom. -/
theorem Complex.accepts_test_atom (atom : Atom) (e : Element t) :
    (Complex.compound [.atom atom]).test.accepts e = atom.test.accepts e := by
  rw [Complex.test, Test.accepts_allOf, compoundTests_eq_map]
  exact Bool.and_true _

/-! ## Tests and satisfaction agree -/

mutual

/-- The test of a simple selector accepts the elements for which it holds. -/
theorem Simple.accepts_test_iff (hforest : t.IsForest) :
    (simple : Simple) → (e : Element t) → (simple.test.accepts e = true ↔ simple.Holds e)
  | .atom a, e => a.accepts_test_iff e
  | .negation list, e => by
    show (Test.anyOf (listTests list)).negation.accepts e = true ↔ ¬ SomeHolds list e
    rw [Test.accepts_negation, Bool.not_eq_true', ← Bool.not_eq_true,
      accepts_anyOf_listTests_iff hforest list e]
  | .isAny list, e => accepts_anyOf_listTests_iff hforest list e
  | .whereAny list, e => accepts_anyOf_listTests_iff hforest list e

/-- The test of a complex selector accepts the elements for which it holds. -/
theorem Complex.accepts_test_iff (hforest : t.IsForest) :
    (complex : Complex) → (e : Element t) → (complex.test.accepts e = true ↔ complex.Holds e)
  | .compound simples, e => by
    show (Test.allOf (compoundTests simples)).accepts e = true ↔ _
    rw [accepts_allOf_compoundTests_iff hforest simples e, Complex.holds_compound]
  | .relative left combinator simples, e => by
    show (Test.joined left.test combinator (Test.allOf (compoundTests simples))).accepts e = true ↔ _
    rw [Test.accepts_joined, Bool.and_eq_true, List.any_eq_true,
      accepts_allOf_compoundTests_iff hforest simples e, Complex.holds_relative]
    refine and_congr_right fun _ => exists_congr fun next => ?_
    rw [combinator.mem_reached_iff hforest, Complex.accepts_test_iff hforest left next]

/-- The test of a compound accepts the elements for which all of its parts hold. -/
theorem accepts_allOf_compoundTests_iff (hforest : t.IsForest) :
    (simples : List Simple) → (e : Element t) →
      ((Test.allOf (compoundTests simples)).accepts e = true ↔ AllHold simples e)
  | [], e => by
    rw [Test.accepts_allOf]
    exact iff_of_true rfl trivial
  | simple :: rest, e => by
    have hrest := accepts_allOf_compoundTests_iff hforest rest e
    rw [Test.accepts_allOf] at hrest ⊢
    rw [compoundTests, List.all_cons, Bool.and_eq_true, hrest, Simple.accepts_test_iff hforest]
    rfl

/-- The test of a list accepts the elements for which some selector holds. -/
theorem accepts_anyOf_listTests_iff (hforest : t.IsForest) :
    (list : List Complex) → (e : Element t) →
      ((Test.anyOf (listTests list)).accepts e = true ↔ SomeHolds list e)
  | [], e => by
    rw [Test.accepts_anyOf]
    exact iff_of_false Bool.false_ne_true id
  | complex :: rest, e => by
    have hrest := accepts_anyOf_listTests_iff hforest rest e
    rw [Test.accepts_anyOf] at hrest ⊢
    rw [listTests, List.any_cons, Bool.or_eq_true, hrest, Complex.accepts_test_iff hforest]
    rfl

end

/-- Reducing a selector to its test keeps the meaning: in a well-built tree the test accepts
    exactly the elements that satisfy the selector. -/
theorem Complex.accepts_test_iff_holds (h : t.WellBuilt) (complex : Complex) (e : Element t) :
    complex.test.accepts e = true ↔ complex.Holds e :=
  Complex.accepts_test_iff (Tree.isForest_of_wellBuilt h) complex e

/-- The second item of a list, which comes after another one although text is between them. -/
theorem holds_second_item :
    (Complex.relative (.compound [.atom (.typeName "li")]) .nextSibling
      [.negation [.compound [.atom (.pseudoClass .firstChild)]]]).Holds
        (⟨4, { localName := "li" }, rfl⟩ : Element Tree.twoItems) :=
  (Complex.accepts_test_iff_holds Tree.wellBuilt_twoItems _ _).1 (by decide +kernel)

end Selectors
