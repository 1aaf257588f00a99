import Mathlib.Order.Bounds.Defs
import Selectors.Proofs.Weights.Parts

/-!
# Expansions — a selector weighs as much as the heaviest way to read it

A selector with lists in it stands for many without: for each `:not` and each `:is` one member of
its list is chosen, in which the same is done again, and each `:where` is left out. Only the atoms
that remain are of interest here, and how many of them there are of each kind.

The weight of a selector is the greatest of these counts. It is found without going through the
choices, of which there are exponentially many: a maximum is taken for each list on its own, and
the maxima are added. That this comes to the same rests on two facts. Weights can be added to both
sides of a comparison, so no choice is above the sum of the maxima; and the choices are independent
of each other, so one of them meets all the maxima at once.

* **`Complex.Expands`** and **`tally`** — the expansions, and what is counted in them.
* **`Complex.tally_le`** — the first fact; **`Complex.exists_expands`** — the second.
* **`exists_isGreatest_tally`** — the weight of a parsed selector.
-/

namespace Selectors

/-! ## Choices -/

mutual

/-- Some atoms are left of a simple selector after a choice from each list. -/
inductive Simple.Expands : Simple → List Atom → Prop where
  | atom (a : Atom) : Simple.Expands (.atom a) [a]
  | negation {list : List Complex} {member : Complex} {atoms : List Atom} :
      member ∈ list → member.Expands atoms → Simple.Expands (.negation list) atoms
  | isAny {list : List Complex} {member : Complex} {atoms : List Atom} :
      member ∈ list → member.Expands atoms → Simple.Expands (.isAny list) atoms
  | whereAny (list : List Complex) : Simple.Expands (.whereAny list) []

/-- Some atoms are left of a complex selector. -/
inductive Complex.Expands : Complex → List Atom → Prop where
  | compound {simples : List Simple} {atoms : List Atom} :
      CompoundExpands simples atoms → Complex.Expands (.compound simples) atoms
  | relative {left : Complex} {combinator : Combinator} {simples : List Simple}
      {atoms atoms' : List Atom} :
      left.Expands atoms → CompoundExpands simples atoms' →
        Complex.Expands (.relative left combinator simples) (atoms ++ atoms')

/-- Some atoms are left of a compound. -/
inductive CompoundExpands : List Simple → List Atom → Prop where
  | nil : CompoundExpands [] []
  | cons {simple : Simple} {rest : List Simple} {atoms atoms' : List Atom} :
      simple.Expands atoms → CompoundExpands rest atoms' →
        CompoundExpands (simple :: rest) (atoms ++ atoms')

end

/-! ## Counts -/

/-- The atom is an id. -/
def Atom.isId : Atom → Bool
  | .id _ => true
  | _ => false

/-- The atom is a class, an attribute or a pseudo-class. -/
def Atom.isClassLike : Atom → Bool
  | .className _ | .attribute _ | .pseudoClass _ => true
  | _ => false

/-- The atom is a type name. -/
def Atom.isTypeName : Atom → Bool
  | .typeName _ => true
  | _ => false

/-- How many atoms there are of each kind; a namespace is of none. -/
def tally (atoms : List Atom) : Specificity where
  ids := atoms.countP Atom.isId
  classes := atoms.countP Atom.isClassLike
  types := atoms.countP Atom.isTypeName

private theorem tally_append (atoms atoms' : List Atom) :
    tally (atoms ++ atoms') = tally atoms + tally atoms' := by
  ext
  · exact List.countP_append
  · exact List.countP_append
  · exact List.countP_append

private theorem tally_singleton (a : Atom) : tally [a] = a.specificity := by
  cases a <;> rfl

/-! ## No choice is above the weight -/

/-- No selector of a list weighs more than the greatest. -/
theorem specificity_le_greatest {complex : Complex} {list : List Complex} (h : complex ∈ list) :
    complex.specificity ≤ greatestSpecificity list := by
  rw [greatestSpecificity_eq_maximum]
  exact Specificity.le_maximum (List.mem_map_of_mem h)

mutual

/-- No expansion of a simple selector weighs more than it. -/
theorem Simple.tally_le : {simple : Simple} → {atoms : List Atom} →
    simple.Expands atoms → tally atoms ≤ simple.specificity
  | _, _, .atom a => by
    rw [tally_singleton]
    exact Specificity.le_refl _
  | _, _, .negation hmember h =>
    Specificity.le_trans (Complex.tally_le h) (specificity_le_greatest hmember)
  | _, _, .isAny hmember h =>
    Specificity.le_trans (Complex.tally_le h) (specificity_le_greatest hmember)
  | _, _, .whereAny _ => Specificity.le_refl 0

/-- No expansion of a complex selector weighs more than it. -/
theorem Complex.tally_le : {complex : Complex} → {atoms : List Atom} →
    complex.Expands atoms → tally atoms ≤ complex.specificity
  | _, _, .compound h => tally_le_totalSpecificity h
  | _, _, .relative hleft h => by
    rw [tally_append]
    exact Specificity.add_le_add (Complex.tally_le hleft) (tally_le_totalSpecificity h)

/-- No expansion of a compound weighs more than it. -/
theorem tally_le_totalSpecificity : {simples : List Simple} → {atoms : List Atom} →
    CompoundExpands simples atoms → tally atoms ≤ totalSpecificity simples
  | _, _, .nil => Specificity.le_refl 0
  | _, _, .cons h hrest => by
    rw [tally_append]
    exact Specificity.add_le_add (Simple.tally_le h) (tally_le_totalSpecificity hrest)

end

/-! ## One choice has the weight -/

/-- If in every member of a list some choice meets its weight, then in some member one meets the
    greatest weight: take a member that has it. -/
theorem exists_greatest_tally {list : List Complex} (hne : list ≠ [])
    (h : ∀ member ∈ list, ∃ atoms, member.Expands atoms ∧ tally atoms = member.specificity) :
    ∃ member ∈ list, ∃ atoms, member.Expands atoms ∧ tally atoms = greatestSpecificity list := by
  have hattained : greatestSpecificity list ∈ list.map Complex.specificity := by
    rw [greatestSpecificity_eq_maximum]
    exact Specificity.maximum_mem fun hnil => hne (List.map_eq_nil_iff.1 hnil)
  obtain ⟨member, hmember, hgreatest⟩ := List.mem_map.1 hattained
  obtain ⟨atoms, hexpands, htally⟩ := h member hmember
  exact ⟨member, hmember, atoms, hexpands, htally.trans hgreatest⟩

mutual

/-- Some expansion of a simple selector weighs as much as it. -/
theorem Simple.exists_expands : (simple : Simple) → simple.Filled →
    ∃ atoms, simple.Expands atoms ∧ tally atoms = simple.specificity
  | .atom a, _ => ⟨[a], .atom a, tally_singleton a⟩
  | .negation list, ⟨hne, hfilled⟩ => by
    obtain ⟨member, hmember, atoms, hexpands, htally⟩ :=
      exists_greatest_tally hne (exists_expands_of_mem list hfilled)
    exact ⟨atoms, .negation hmember hexpands, htally⟩
  | .isAny list, ⟨hne, hfilled⟩ => by
    obtain ⟨member, hmember, atoms, hexpands, htally⟩ :=
      exists_greatest_tally hne (exists_expands_of_mem list hfilled)
    exact ⟨atoms, .isAny hmember hexpands, htally⟩
  | .whereAny list, _ => ⟨[], .whereAny list, rfl⟩

/-- Some expansion of a complex selector weighs as much as it. -/
theorem Complex.exists_expands : (complex : Complex) → complex.Filled →
    ∃ atoms, complex.Expands atoms ∧ tally atoms = complex.specificity
  | .compound simples, hfilled => by
    obtain ⟨atoms, hexpands, htally⟩ := exists_compoundExpands simples hfilled
    exact ⟨atoms, .compound hexpands, htally⟩
  | .relative left _ simples, ⟨hleft, hsubject⟩ => by
    obtain ⟨atoms, hexpands, htally⟩ := Complex.exists_expands left hleft
    obtain ⟨atoms', hexpands', htally'⟩ := exists_compoundExpands simples hsubject
    refine ⟨atoms ++ atoms', .relative hexpands hexpands', ?_⟩
    rw [tally_append, htally, htally', Complex.specificity]

/-- Some expansion of a compound weighs as much as it. -/
theorem exists_compoundExpands : (simples : List Simple) → CompoundFilled simples →
    ∃ atoms, CompoundExpands simples atoms ∧ tally atoms = totalSpecificity simples
  | [], _ => ⟨[], .nil, rfl⟩
  | simple :: rest, ⟨hfirst, hrest⟩ => by
    -- what is chosen in one simple selector leaves the choices in the others open
    obtain ⟨atoms, hexpands, htally⟩ := Simple.exists_expands simple hfirst
    obtain ⟨atoms', hexpands', htally'⟩ := exists_compoundExpands rest hrest
    refine ⟨atoms ++ atoms', .cons hexpands hexpands', ?_⟩
    rw [tally_append, htally, htally', totalSpecificity]

private theorem exists_expands_of_mem : (list : List Complex) → ListFilled list →
    ∀ member ∈ list, ∃ atoms, member.Expands atoms ∧ tally atoms = member.specificity
  | [], _ => nofun
  | complex :: rest, ⟨hfirst, hrest⟩ => by
    intro member hmember
    rcases List.mem_cons.1 hmember with heq | hmember
    · rw [heq]
      exact Complex.exists_expands complex hfirst
    · exact exists_expands_of_mem rest hrest member hmember

end

/-! ## The weight of a selector -/

/-- The weight of a complex selector is the greatest count among its expansions. -/
theorem Complex.isGreatest_tally {complex : Complex} (h : complex.Filled) :
    IsGreatest {weight | ∃ atoms, complex.Expands atoms ∧ tally atoms = weight}
      complex.specificity := by
  constructor
  · exact Complex.exists_expands complex h
  · rintro weight ⟨atoms, hexpands, rfl⟩
    exact Complex.tally_le hexpands

/-- A parsed selector weighs as much as the heaviest of its expansions, and one type more if it
    has a pseudo-element. -/
theorem exists_isGreatest_tally {namespaces : Namespaces} {text : String}
    {selectors : List Selector} {selector : Selector}
    (h : parseSelectors namespaces text = .ok selectors) (hmem : selector ∈ selectors) :
    ∃ greatest,
      IsGreatest {weight | ∃ atoms, selector.complex.Expands atoms ∧ tally atoms = weight}
          greatest ∧
        selector.specificity =
          greatest + (if selector.pseudoElement?.isSome then ⟨0, 0, 1⟩ else 0) := by
  obtain ⟨-, hfilled, -⟩ := Grammar.filled_and_parts_le_of_parsed (tokenize text) h
  refine ⟨selector.complex.specificity, Complex.isGreatest_tally (hfilled selector hmem), ?_⟩
  obtain ⟨complex, pseudoElement?⟩ := selector
  cases pseudoElement? with
  | none => rfl
  | some pseudoElement => rfl

/-- The greatest weight comes from the id within the negation. -/
theorem exists_isGreatest_tally_plainParagraph :
    plainParagraph.specificity = ⟨1, 1, 2⟩ ∧
      ∃ greatest,
        IsGreatest {weight | ∃ atoms, plainParagraph.complex.Expands atoms ∧ tally atoms = weight}
            greatest ∧
          plainParagraph.specificity = greatest + ⟨0, 0, 1⟩ := by
  exact ⟨by decide,
    exists_isGreatest_tally parseSelectors_plainParagraph (List.mem_singleton.2 rfl)⟩

end Selectors
