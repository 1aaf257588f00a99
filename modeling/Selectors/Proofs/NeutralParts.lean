import Mathlib.Logic.Relation
import Selectors.Proofs.Folding

/-!
# Neutral parts — what leaves no trace in a test

A constant false selector in a list adds nothing to what the list accepts, nor does a constant true
one in a compound ask for anything. That `:is` and `:where` differ in weight only, and that a
selector stands in a list of one as it stands alone, are changes of the same kind. None of them can
be seen in the test: it is the same tree before and after, whatever stands around the place of the
change.

The heart is what folding does to one more test. Both foldings have the same shape, with the
constants exchanged: one constant decides, the other one is left out, and what is kept gets a node
unless it is a single test. So one more test can be seen unless it is the constant left out or
another one has decided already. The rest is a congruence, one case for each way down to the change.

* **`Test.Folds`** and **`Folds.insert_eq_iff`** — the shape of a folding, and when an inserted test
  leaves no trace.
* **`Complex.NeutralChange`** — one change at any depth; **`Complex.Alike`** — any number of them,
  done or undone.
* **`Complex.test_eq_of_alike`** — selectors that are alike have the same test.
-/

namespace Selectors

namespace Test

/-! ## Inserting a test -/

/-- What folding makes of the tests that it keeps: a single one stands for itself. -/
def collapse (none : Test) (node : List Test → Test) : List Test → Test
  | [] => none
  | [test] => test
  | kept => node kept

/-- A function folds lists of tests: a decisive test is the result, tests that are to be dropped are
    the neutral one, and the others are kept. -/
structure Folds (fold : List Test → Test) (decisive neutral : Test) (node : List Test → Test)
    (dropped : Test → Bool) : Prop where
  dropped_iff : ∀ test, dropped test = true ↔ test = neutral
  of_mem : ∀ {tests}, decisive ∈ tests → fold tests = decisive
  of_not_mem : ∀ {tests}, decisive ∉ tests →
    fold tests = collapse neutral node (tests.filter (!dropped ·))
  neutral_ne : neutral ≠ decisive
  node_ne : ∀ tests, node tests ≠ decisive
  node_ne_of_mem : ∀ {tests test}, test ∈ tests → node tests ≠ test
  node_injective : Function.Injective node

private theorem collapse_of_two_le {none : Test} {node : List Test → Test} {kept : List Test}
    (h : 2 ≤ kept.length) : collapse none node kept = node kept := by
  match kept with
  | [] => exact nomatch h
  | [_] => exact nomatch h
  | _ :: _ :: _ => rfl

namespace Folds

variable {fold : List Test → Test} {decisive neutral test : Test} {node : List Test → Test}
  {dropped : Test → Bool} {tests front back : List Test}

/-- Only the decisive test gives itself. -/
theorem eq_decisive_iff (h : Folds fold decisive neutral node dropped) :
    fold tests = decisive ↔ decisive ∈ tests := by
  constructor
  · intro heq
    by_cases hmem : decisive ∈ tests
    · exact hmem
    exfalso
    rw [h.of_not_mem hmem] at heq
    rcases filter_cases h.dropped_iff tests with
      ⟨hkept, -⟩ | ⟨only, honly, -, hkept⟩ | ⟨a, b, rest, hkept, -⟩
    · rw [hkept] at heq
      exact h.neutral_ne heq
    · rw [hkept] at heq
      exact hmem (heq ▸ honly)
    · rw [hkept] at heq
      exact h.node_ne _ heq
  · exact h.of_mem

/-- One more test among those that are kept can be seen. -/
theorem collapse_insert_ne (h : Folds fold decisive neutral node dropped) (hne : test ≠ neutral) :
    collapse neutral node (front ++ test :: back) ≠ collapse neutral node (front ++ back) := by
  -- two lists of tests that differ by one member have different lengths, and the node keeps them
  have hlength : (front ++ test :: back).length = (front ++ back).length + 1 :=
    List.perm_middle.length_eq
  match hshort : front ++ back with
  | [] =>
    obtain ⟨rfl, rfl⟩ := List.append_eq_nil_iff.1 hshort
    exact hne
  | [only] =>
    have hmem : only ∈ front ++ test :: back := by
      rw [List.perm_middle.mem_iff, hshort]
      exact List.mem_cons_of_mem test List.mem_cons_self
    rw [hshort] at hlength
    rw [collapse_of_two_le (Nat.le_of_eq hlength.symm)]
    exact h.node_ne_of_mem hmem
  | a :: b :: rest =>
    have htwo : 2 ≤ (a :: b :: rest).length := Nat.le_add_left 2 rest.length
    rw [hshort] at hlength
    rw [collapse_of_two_le (hlength ▸ Nat.le_succ_of_le htwo), collapse_of_two_le htwo]
    intro heq
    rw [h.node_injective heq] at hlength
    omega

/-- The neutral test is left out wherever it stands. -/
theorem insert_neutral (h : Folds fold decisive neutral node dropped) :
    fold (front ++ neutral :: back) = fold (front ++ back) := by
  have hmem : decisive ∈ front ++ neutral :: back ↔ decisive ∈ front ++ back := by
    rw [List.perm_middle.mem_iff, List.mem_cons, or_iff_right h.neutral_ne.symm]
  by_cases hdecided : decisive ∈ front ++ back
  · rw [h.of_mem hdecided, h.of_mem (hmem.2 hdecided)]
  · have hgone : ¬ (!dropped neutral) = true := by
      rw [(h.dropped_iff neutral).2 rfl]
      decide
    rw [h.of_not_mem hdecided, h.of_not_mem (mt hmem.1 hdecided), List.filter_append,
      List.filter_append, List.filter_cons, if_neg hgone]

/-- Any other test is seen as long as none has decided: it decides itself, or it is kept. -/
theorem insert_ne (h : Folds fold decisive neutral node dropped) (hne : test ≠ neutral)
    (hopen : decisive ∉ front ++ back) :
    fold (front ++ test :: back) ≠ fold (front ++ back) := by
  by_cases hdecides : decisive ∈ front ++ test :: back
  · rw [h.of_mem hdecides]
    intro heq
    exact hopen (h.eq_decisive_iff.1 heq.symm)
  · have hkept : (!dropped test) = true := by
      rw [Bool.not_eq_true', ← Bool.not_eq_true, h.dropped_iff]
      exact hne
    rw [h.of_not_mem hdecides, h.of_not_mem hopen, List.filter_append, List.filter_append,
      List.filter_cons, if_pos hkept]
    exact h.collapse_insert_ne hne

/-- An inserted test leaves no trace exactly if it is the neutral one, or if another test has
    decided already. -/
theorem insert_eq_iff (h : Folds fold decisive neutral node dropped) :
    fold (front ++ test :: back) = fold (front ++ back) ↔
      test = neutral ∨ decisive ∈ front ++ back := by
  constructor
  · intro heq
    by_cases hne : test = neutral
    · exact Or.inl hne
    · by_cases hopen : decisive ∈ front ++ back
      · exact Or.inr hopen
      · exact absurd heq (h.insert_ne hne hopen)
  · rintro (rfl | hdecided)
    · exact h.insert_neutral
    · have hmem : decisive ∈ front ++ test :: back :=
        List.perm_middle.mem_iff.2 (List.mem_cons_of_mem test hdecided)
      rw [h.of_mem hdecided, h.of_mem hmem]

end Folds

/-- A conjunction drops what is always true and gives way to what is never. -/
theorem folds_allOf : Folds allOf never always all isAlways where
  dropped_iff _ := isAlways_iff
  of_mem := allOf_eq_never_iff.2
  of_not_mem hmem := if_neg (mt any_isNever_iff.1 hmem)
  neutral_ne := Test.noConfusion
  node_ne _ := Test.noConfusion
  node_ne_of_mem hmem := by
    intro heq
    have hsize := List.sizeOf_lt_of_mem (heq ▸ hmem)
    rw [all.sizeOf_spec] at hsize
    omega
  node_injective _ _ := all.inj

/-- A disjunction drops what is never true and gives way to what is always. -/
theorem folds_anyOf : Folds anyOf always never any isNever where
  dropped_iff _ := isNever_iff
  of_mem := anyOf_eq_always_iff.2
  of_not_mem hmem := if_neg (mt any_isAlways_iff.1 hmem)
  neutral_ne := Test.noConfusion
  node_ne _ := Test.noConfusion
  node_ne_of_mem hmem := by
    intro heq
    have hsize := List.sizeOf_lt_of_mem (heq ▸ hmem)
    rw [any.sizeOf_spec] at hsize
    omega
  node_injective _ _ := any.inj

/-- A conjunction of one test is that test. -/
theorem allOf_singleton (test : Test) : allOf [test] = test := by
  cases test <;> rfl

/-- A disjunction of one test is that test. -/
theorem anyOf_singleton (test : Test) : anyOf [test] = test := by
  cases test <;> rfl

end Test

/-! ## Changes -/

mutual

/-- A simple selector with one neutral change in it: the list of an `:is` is put under a `:where`
    or the other way round, or something within the list is changed. -/
inductive Simple.NeutralChange : Simple → Simple → Prop where
  | weightless (list : List Complex) : Simple.NeutralChange (.isAny list) (.whereAny list)
  | weighed (list : List Complex) : Simple.NeutralChange (.whereAny list) (.isAny list)
  | negation {list list' : List Complex} :
      ListNeutralChange list list' → Simple.NeutralChange (.negation list) (.negation list')
  | isAny {list list' : List Complex} :
      ListNeutralChange list list' → Simple.NeutralChange (.isAny list) (.isAny list')
  | whereAny {list list' : List Complex} :
      ListNeutralChange list list' → Simple.NeutralChange (.whereAny list) (.whereAny list')

/-- A complex selector with one neutral change in it: it becomes the only selector of a list, or
    something within it is changed. -/
inductive Complex.NeutralChange : Complex → Complex → Prop where
  | wrap (complex : Complex) : Complex.NeutralChange complex (.compound [.isAny [complex]])
  | compound {simples simples' : List Simple} :
      CompoundNeutralChange simples simples' →
        Complex.NeutralChange (.compound simples) (.compound simples')
  | left {left left' : Complex} {combinator : Combinator} {simples : List Simple} :
      Complex.NeutralChange left left' →
        Complex.NeutralChange (.relative left combinator simples)
          (.relative left' combinator simples)
  | right {left : Complex} {combinator : Combinator} {simples simples' : List Simple} :
      CompoundNeutralChange simples simples' →
        Complex.NeutralChange (.relative left combinator simples)
          (.relative left combinator simples')

/-- A compound with one neutral change in it: a constant true simple selector is inserted, or one
    of those that are there is changed. -/
inductive CompoundNeutralChange : List Simple → List Simple → Prop where
  | insert (front back : List Simple) {simple : Simple} :
      simple.IsTrue → CompoundNeutralChange (front ++ back) (front ++ simple :: back)
  | within (front back : List Simple) {simple simple' : Simple} :
      simple.NeutralChange simple' →
        CompoundNeutralChange (front ++ simple :: back) (front ++ simple' :: back)

/-- A list with one neutral change in it: a constant false member is inserted, or one of those that
    are there is changed. -/
inductive ListNeutralChange : List Complex → List Complex → Prop where
  | insert (front back : List Complex) {complex : Complex} :
      complex.IsFalse → ListNeutralChange (front ++ back) (front ++ complex :: back)
  | within (front back : List Complex) {complex complex' : Complex} :
      complex.NeutralChange complex' →
        ListNeutralChange (front ++ complex :: back) (front ++ complex' :: back)

end

/-- Neutral changes, done and undone, lead from one complex selector to another. -/
def Complex.Alike : Complex → Complex → Prop :=
  Relation.EqvGen Complex.NeutralChange

/-! ## Changes leave no trace -/

/-- A simple selector in a compound leaves no trace exactly if it is constant true, or if the
    compound is constant false without it. -/
theorem allOf_compoundTests_insert_iff {front back : List Simple} {simple : Simple} :
    Test.allOf (compoundTests (front ++ simple :: back)) =
        Test.allOf (compoundTests (front ++ back)) ↔
      simple.IsTrue ∨ SomePartFalse (front ++ back) := by
  rw [← (Simple.test_constant simple).2, ← (allOf_compoundTests_constant (front ++ back)).1,
    Test.allOf_eq_never_iff, compoundTests_eq_map, compoundTests_eq_map, List.map_append,
    List.map_append, List.map_cons]
  exact Test.folds_allOf.insert_eq_iff

/-- A selector in a list leaves no trace exactly if it is constant false, or if the list is constant
    true without it. -/
theorem anyOf_listTests_insert_iff {front back : List Complex} {complex : Complex} :
    Test.anyOf (listTests (front ++ complex :: back)) =
        Test.anyOf (listTests (front ++ back)) ↔
      complex.IsFalse ∨ SomeTrue (front ++ back) := by
  rw [← (Complex.test_constant complex).1, ← (anyOf_listTests_constant (front ++ back)).2,
    Test.anyOf_eq_always_iff, listTests_eq_map, listTests_eq_map, List.map_append,
    List.map_append, List.map_cons]
  exact Test.folds_anyOf.insert_eq_iff

mutual

/-- A neutral change in a simple selector does not change its test. -/
theorem Simple.test_eq_of_neutralChange : {simple simple' : Simple} →
    simple.NeutralChange simple' → simple.test = simple'.test
  | _, _, .weightless _ => rfl
  | _, _, .weighed _ => rfl
  | _, _, .negation h => congrArg Test.negation (anyOf_listTests_eq_of_neutralChange h)
  | _, _, .isAny h => anyOf_listTests_eq_of_neutralChange h
  | _, _, .whereAny h => anyOf_listTests_eq_of_neutralChange h

/-- A neutral change in a complex selector does not change its test. -/
theorem Complex.test_eq_of_neutralChange : {complex complex' : Complex} →
    complex.NeutralChange complex' → complex.test = complex'.test
  | complex, _, .wrap _ => by
    show complex.test = Test.allOf [Test.anyOf [complex.test]]
    rw [Test.allOf_singleton, Test.anyOf_singleton]
  | _, _, .compound h => allOf_compoundTests_eq_of_neutralChange h
  | _, _, .left h => by
    rw [Complex.test, Complex.test, Complex.test_eq_of_neutralChange h]
  | _, _, .right h => by
    rw [Complex.test, Complex.test, allOf_compoundTests_eq_of_neutralChange h]

/-- A neutral change in a compound does not change what it folds to. -/
theorem allOf_compoundTests_eq_of_neutralChange : {simples simples' : List Simple} →
    CompoundNeutralChange simples simples' →
      Test.allOf (compoundTests simples) = Test.allOf (compoundTests simples')
  | _, _, .insert _ _ htrue => (allOf_compoundTests_insert_iff.2 (Or.inl htrue)).symm
  | _, _, .within _ _ h => by
    rw [compoundTests_eq_map, compoundTests_eq_map, List.map_append, List.map_append,
      List.map_cons, List.map_cons, Simple.test_eq_of_neutralChange h]

/-- A neutral change in a list does not change what it folds to. -/
theorem anyOf_listTests_eq_of_neutralChange : {list list' : List Complex} →
    ListNeutralChange list list' →
      Test.anyOf (listTests list) = Test.anyOf (listTests list')
  | _, _, .insert _ _ hfalse => (anyOf_listTests_insert_iff.2 (Or.inl hfalse)).symm
  | _, _, .within _ _ h => by
    rw [listTests_eq_map, listTests_eq_map, List.map_append, List.map_append, List.map_cons,
      List.map_cons, Complex.test_eq_of_neutralChange h]

end

/-- Neutral changes cannot be seen in the test, however many there are and at whatever depth. -/
theorem Complex.test_eq_of_alike {complex complex' : Complex} (h : complex.Alike complex') :
    complex.test = complex'.test := by
  induction h with
  | rel _ _ hchange => exact Complex.test_eq_of_neutralChange hchange
  | refl => rfl
  | symm _ _ _ ih => exact ih.symm
  | trans _ _ _ _ _ ih ih' => exact ih.trans ih'

/-- A link in a bar to which something does not apply, such as `nav > a:not(.b)`. -/
def barLink (bar : List Simple) (excluded : Simple) : Complex :=
  .relative (.compound (.atom (.typeName "nav") :: bar)) .child
    [.atom (.typeName "a"), .negation [.compound [excluded]]]

/-- An element of a class. -/
def marked : Complex :=
  .compound [.atom (.className "b")]

/-- An element of another class while it is hovered over. -/
def hovered : Complex :=
  .compound [.atom (.className "c"), .atom (.pseudoClass (.dynamic .hover))]

/-- An element that is out of focus. -/
def unfocused : Simple :=
  .negation [.compound [.atom (.pseudoClass (.dynamic .focus))]]

/-- Four changes at different depths of a selector. -/
theorem test_eq_barLink :
    (barLink [] (.isAny [marked])).Alike
        (.compound [.isAny [barLink [unfocused] (.whereAny [marked, hovered])]]) ∧
      (barLink [] (.isAny [marked])).test =
        (Complex.compound [.isAny [barLink [unfocused] (.whereAny [marked, hovered])]]).test := by
  have hexcluded : ∀ {bar excluded excluded'}, Simple.NeutralChange excluded excluded' →
      (barLink bar excluded).NeutralChange (barLink bar excluded') := by
    intro bar excluded excluded' hchange
    exact .right (.within [_] [] (.negation (.within [] [] (.compound (.within [] [] hchange)))))
  have hmember : Complex.NeutralChange (barLink [] (.isAny [marked]))
      (barLink [] (.isAny [marked, hovered])) :=
    hexcluded (.isAny (.insert [marked] [] (Or.inr (Or.inl trivial))))
  have hweight : Complex.NeutralChange (barLink [] (.isAny [marked, hovered]))
      (barLink [] (.whereAny [marked, hovered])) :=
    hexcluded (.weightless [marked, hovered])
  have hbar : Complex.NeutralChange (barLink [] (.whereAny [marked, hovered]))
      (barLink [unfocused] (.whereAny [marked, hovered])) :=
    .left (.compound (.insert [_] [] ⟨Or.inl trivial, trivial⟩))
  -- one change after another, each at its own depth, then the wrapping
  have halike := ((Relation.EqvGen.rel _ _ hmember).trans _ _ _ (.rel _ _ hweight)).trans _ _ _
    ((Relation.EqvGen.rel _ _ hbar).trans _ _ _ (.rel _ _ (.wrap _)))
  exact ⟨halike, Complex.test_eq_of_alike halike⟩

end Selectors
