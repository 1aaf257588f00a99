import Mathlib.Algebra.GroupWithZero.Nat
import Selectors.Proofs.Grammar.Lists

/-!
# Parts — what a parsed list is made of

Two facts about all that the parser makes, at any depth. No list within is empty, so something can
be chosen from each. And every part that weighs something has a token of its own: a name, a hash,
the name in brackets or behind a colon. A list within has the tokens between its parentheses, which
belong to nothing else, so even the parts of all members together are no more than the tokens.

Both go up the rules of the grammar, one lemma for each relation, and lists within lists are
shorter.

* **`Complex.Filled`** and **`Complex.parts`** — the two facts are about these.
* **`filled_and_parts_le_of_parsed`** — they hold of every parsed list.
-/

namespace Selectors

mutual

/-- No list within a simple selector is empty. -/
def Simple.Filled : Simple → Prop
  | .atom _ => True
  | .negation list => list ≠ [] ∧ ListFilled list
  | .isAny list => list ≠ [] ∧ ListFilled list
  | .whereAny list => list ≠ [] ∧ ListFilled list

/-- No list within a complex selector is empty. -/
def Complex.Filled : Complex → Prop
  | .compound simples => CompoundFilled simples
  | .relative left _ simples => left.Filled ∧ CompoundFilled simples

/-- No list within a compound is empty. -/
def CompoundFilled : List Simple → Prop
  | [] => True
  | simple :: rest => simple.Filled ∧ CompoundFilled rest

/-- No list within the selectors of a list is empty. -/
def ListFilled : List Complex → Prop
  | [] => True
  | complex :: rest => complex.Filled ∧ ListFilled rest

end

mutual

/-- The number of parts of a simple selector that weigh something by themselves, those in all
    members of lists included. -/
def Simple.parts : Simple → Nat
  | .atom a => a.specificity.total
  | .negation list => listParts list
  | .isAny list => listParts list
  | .whereAny list => listParts list

/-- The number of such parts of a complex selector. -/
def Complex.parts : Complex → Nat
  | .compound simples => compoundParts simples
  | .relative left _ simples => left.parts + compoundParts simples

/-- The number of such parts of a compound. -/
def compoundParts : List Simple → Nat
  | [] => 0
  | simple :: rest => simple.parts + compoundParts rest

/-- The number of such parts of a list. -/
def listParts : List Complex → Nat
  | [] => 0
  | complex :: rest => complex.parts + listParts rest

end

/-- The number of parts of a selector, its pseudo-element included. -/
def Selector.parts (selector : Selector) : Nat :=
  selector.complex.parts + selector.pseudoElement?.toList.length

private theorem compoundFilled_append {front back : List Simple} :
    CompoundFilled (front ++ back) ↔ CompoundFilled front ∧ CompoundFilled back := by
  induction front with
  | nil => exact iff_of_eq (true_and _).symm
  | cons simple rest ih => exact (and_congr_right fun _ => ih).trans and_assoc.symm

private theorem compoundParts_append (front back : List Simple) :
    compoundParts (front ++ back) = compoundParts front + compoundParts back := by
  induction front with
  | nil => exact (Nat.zero_add _).symm
  | cons simple rest ih =>
    rw [List.cons_append, compoundParts, compoundParts, ih, Nat.add_assoc]

/-- No list within a list is empty if none is within its selectors. -/
theorem listFilled_iff {list : List Complex} :
    ListFilled list ↔ ∀ complex ∈ list, complex.Filled := by
  induction list with
  | nil => exact iff_of_true trivial nofun
  | cons complex rest ih =>
    rw [List.forall_mem_cons, ← ih]
    exact Iff.rfl

private theorem listParts_eq_sum (list : List Complex) :
    listParts list = (list.map Complex.parts).sum := by
  induction list with
  | nil => rfl
  | cons complex rest ih => rw [listParts, ih, List.map_cons, List.sum_cons]

namespace Grammar

variable {namespaces : Namespaces} {Inner : List Token → List Selector → Prop}

/-! ## Up the grammar -/

private theorem typeConditions_filled (name? url? : Option String) :
    CompoundFilled (Reader.typeConditions name? url?) := by
  cases name? with
  | none => cases url? with
    | none => trivial
    | some url => exact ⟨trivial, trivial⟩
  | some name => cases url? with
    | none => exact ⟨trivial, trivial⟩
    | some url => exact ⟨trivial, trivial, trivial⟩

/-- A namespace weighs nothing, so at most the name counts. -/
theorem compoundParts_typeConditions_le (name? url? : Option String) :
    compoundParts (Reader.typeConditions name? url?) ≤ 1 := by
  cases name? with
  | none => cases url? with
    | none => exact Nat.zero_le 1
    | some url => exact Nat.zero_le 1
  | some name => cases url? with
    | none => exact Nat.le_refl 1
    | some url => exact Nat.le_refl 1

/-- A type has no empty list within and no more parts than tokens. -/
theorem TypePart.filled_and_parts_le {tokens : List Token} {simples : List Simple}
    (h : TypePart namespaces tokens simples) :
    CompoundFilled simples ∧ compoundParts simples ≤ tokens.length := by
  cases h with
  | absent => exact ⟨trivial, Nat.le_refl 0⟩
  | @written front back url? name? _ hname =>
    refine ⟨typeConditions_filled name? url?, ?_⟩
    have hlength : back.length = 1 := by
      cases hname with
      | name => rfl
      | asterisk => rfl
    have hparts := compoundParts_typeConditions_le name? url?
    rw [List.length_append]
    omega

section

variable
  (hinner : ∀ arguments list, Inner arguments (plainSelectors list) →
    list ≠ [] ∧ ListFilled list ∧ listParts list ≤ arguments.length)

include hinner

/-- An argument that is no list counts as one part, for which there is the name of the function. -/
theorem Function.filled_and_parts_le {name : String} {arguments : List Token} {simple : Simple}
    (h : Function Inner name arguments simple) :
    simple.Filled ∧ simple.parts ≤ arguments.length + 1 := by
  cases h with
  | positions => exact ⟨trivial, Nat.le_add_left 1 _⟩
  | lang => exact ⟨trivial, Nat.le_add_left 1 _⟩
  | list hmake hlist =>
    obtain ⟨hne, hfilled, hparts⟩ := hinner _ _ hlist
    rcases eq_of_mem_listNames hmake with rfl | rfl | rfl
    · exact ⟨⟨hne, hfilled⟩, Nat.le_succ_of_le hparts⟩
    · exact ⟨⟨hne, hfilled⟩, Nat.le_succ_of_le hparts⟩
    · exact ⟨⟨hne, hfilled⟩, Nat.le_succ_of_le hparts⟩

/-- A condition has no empty list within and no more parts than tokens. -/
theorem Condition.filled_and_parts_le {tokens : List Token} {simple : Simple}
    (h : Condition namespaces Inner tokens simple) :
    simple.Filled ∧ simple.parts ≤ tokens.length := by
  cases h with
  | id => exact ⟨trivial, Nat.le_refl 1⟩
  | className => exact ⟨trivial, Nat.le_succ 1⟩
  | bracketed => exact ⟨trivial, Nat.le_add_left 1 _⟩
  | pseudoClass => exact ⟨trivial, Nat.le_succ 1⟩
  | function _ hfunction =>
    obtain ⟨hfilled, hparts⟩ := hfunction.filled_and_parts_le hinner
    refine ⟨hfilled, ?_⟩
    simp only [List.length_cons, List.length_append]
    omega

/-- Conditions have no empty list within and no more parts than tokens. -/
theorem Conditions.filled_and_parts_le {tokens : List Token} {simples : List Simple}
    (h : Conditions namespaces Inner tokens simples) :
    CompoundFilled simples ∧ compoundParts simples ≤ tokens.length := by
  induction h with
  | nil => exact ⟨trivial, Nat.le_refl 0⟩
  | cons hfirst _ ih =>
    obtain ⟨hfilled, hparts⟩ := hfirst.filled_and_parts_le hinner
    rw [List.length_append]
    exact ⟨⟨hfilled, ih.1⟩, Nat.add_le_add hparts ih.2⟩

omit hinner in
private theorem Ending.length_toList_le {tokens : List Token}
    {pseudoElement? : Option PseudoElement}
    (h : Ending tokens pseudoElement?) : pseudoElement?.toList.length ≤ tokens.length := by
  cases h with
  | absent => exact Nat.le_refl 0
  | double => exact Nat.le_add_left 1 2
  | single => exact Nat.le_add_left 1 1

/-- A compound has no empty list within and no more parts than tokens. -/
theorem Compound.filled_and_parts_le {tokens : List Token} {simples : List Simple}
    {pseudoElement? : Option PseudoElement}
    (h : Compound namespaces Inner tokens simples pseudoElement?) :
    CompoundFilled simples ∧
      compoundParts simples + pseudoElement?.toList.length ≤ tokens.length := by
  obtain ⟨htype, hconditions, hending, -⟩ := h
  obtain ⟨hfront, hfrontParts⟩ := htype.filled_and_parts_le
  obtain ⟨hmiddle, hmiddleParts⟩ := hconditions.filled_and_parts_le hinner
  have hback := hending.length_toList_le
  refine ⟨compoundFilled_append.2 ⟨hfront, hmiddle⟩, ?_⟩
  rw [compoundParts_append, List.length_append, List.length_append]
  omega

/-- A complex selector has no empty list within and no more parts than tokens. -/
theorem Sequence.filled_and_parts_le {tokens : List Token} {complex : Complex}
    {pseudoElement? : Option PseudoElement}
    (h : Sequence namespaces Inner tokens complex pseudoElement?) :
    complex.Filled ∧ complex.parts + pseudoElement?.toList.length ≤ tokens.length := by
  induction h with
  | single hcompound => exact hcompound.filled_and_parts_le hinner
  | join _ _ hright ih =>
    obtain ⟨hleft, hleftParts⟩ := ih
    obtain ⟨hsubject, hsubjectParts⟩ := hright.filled_and_parts_le hinner
    refine ⟨⟨hleft, hsubject⟩, ?_⟩
    simp only [Complex.parts, List.length_append, Option.toList_none, List.length_nil] at *
    omega

/-- One level of a list, if those within it are not empty and have enough tokens. -/
theorem SelectorList.filled_and_parts_le {tokens : List Token} {selectors : List Selector}
    (h : SelectorList namespaces Inner tokens selectors) :
    selectors ≠ [] ∧ (∀ selector ∈ selectors, selector.complex.Filled) ∧
      (selectors.map Selector.parts).sum ≤ tokens.length := by
  induction h with
  | last _ hused _ =>
    obtain ⟨hfilled, hparts⟩ := hused.filled_and_parts_le hinner
    refine ⟨nofun, List.forall_mem_singleton.2 hfilled, ?_⟩
    rw [List.map_singleton, List.sum_singleton, List.length_append, List.length_append]
    exact Nat.le_add_right_of_le (Nat.le_add_left_of_le hparts)
  | more _ hused _ _ ih =>
    obtain ⟨hfilled, hparts⟩ := hused.filled_and_parts_le hinner
    obtain ⟨-, hrest, hrestParts⟩ := ih
    refine ⟨nofun, List.forall_mem_cons.2 ⟨hfilled, hrest⟩, ?_⟩
    rw [List.map_cons, List.sum_cons, Selector.parts]
    simp only [List.length_append, List.length_cons]
    omega

end

/-! ## Every parsed list -/

private theorem sum_parts_plainSelectors (list : List Complex) :
    ((plainSelectors list).map Selector.parts).sum = listParts list := by
  rw [listParts_eq_sum, plainSelectors, List.map_map]
  rfl

/-- No list within a parsed list is empty, and a parsed list has no more parts than tokens. -/
theorem filled_and_parts_le_of_parsed {selectors : List Selector} (tokens : List Token)
    (h : Parsed namespaces tokens selectors) :
    selectors ≠ [] ∧ (∀ selector ∈ selectors, selector.complex.Filled) ∧
      (selectors.map Selector.parts).sum ≤ tokens.length := by
  refine (selectorList_shorter_of_parsed h).filled_and_parts_le ?_
  -- the arguments of a list within are fewer tokens, so for them all is known
  rintro arguments list ⟨hshorter, hinner⟩
  obtain ⟨hne, hfilled, hparts⟩ := filled_and_parts_le_of_parsed arguments hinner
  rw [sum_parts_plainSelectors] at hparts
  refine ⟨?_, listFilled_iff.2 ?_, hparts⟩
  · rintro rfl
    exact hne rfl
  · intro complex hcomplex
    exact hfilled ⟨complex, none⟩ (List.mem_map_of_mem hcomplex)
termination_by tokens.length

end Grammar

/-- A paragraph with a list of two selectors, one of which holds a list of two again. -/
def plainParagraph : Selector :=
  ⟨.compound
    [.atom (.typeName "p"),
      .negation
        [.compound [.atom (.className "a")],
          .compound
            [.atom (.id "b"),
              .isAny [.compound [.atom (.typeName "i")], .compound [.atom (.className "c")]]]]],
    some .before⟩

/-- The text of the paragraph, with lists in lists. -/
theorem parseSelectors_plainParagraph :
    parseSelectors .empty "p:not(.a, #b:is(i, .c)):before" = .ok [plainParagraph] := by
  with_unfolding_all rfl

end Selectors
