import Mathlib.Algebra.Order.BigOperators.Group.List
import Mathlib.Algebra.Order.Group.Nat
import Selectors.Proofs.Weights.Parts

/-!
# Overflow — weights in machine words

The counts of a weight are natural numbers here. In a program they are machine words, and an
addition of two of them may overflow. This module computes weights in words, one addition after the
other: first the compounds, each from zero, and their sums from the subject leftwards. The
computation breaks off at the first addition that overflows.

It does not break off for selectors that were parsed from a text of fewer characters than there are
words. A count is never above the number of parts, also not on the way, and every part has a token
and every token a character.

* **`Complex.weigh?`** — the computation.
* **`Complex.exists_weigh`** — it ends with the right weight where there are few enough parts.
* **`exists_weigh_of_parsed`** — and so for all that is parsed from a text that is short enough.
-/

namespace Selectors

/-! ## Weights in words -/

/-- A weight with counts that are words. -/
structure WordWeight where
  ids : UInt32
  classes : UInt32
  types : UInt32
deriving DecidableEq, Repr

/-- A sum of words, if it is a word. -/
def addWord? (a b : UInt32) : Option UInt32 :=
  if a.toNat + b.toNat < UInt32.size then some (a + b) else none

namespace WordWeight

instance : Zero WordWeight := ⟨⟨0, 0, 0⟩⟩

/-- The weight that the words stand for. -/
def exact (w : WordWeight) : Specificity :=
  ⟨w.ids.toNat, w.classes.toNat, w.types.toNat⟩

/-- A sum of weights, unless it overflows in one of the counts. -/
def add? (a b : WordWeight) : Option WordWeight := do
  let ids ← addWord? a.ids b.ids
  let classes ← addWord? a.classes b.classes
  let types ← addWord? a.types b.types
  return ⟨ids, classes, types⟩

/-- The greater of two weights. -/
def greater (a b : WordWeight) : WordWeight :=
  if a.exact ≤ b.exact then b else a

end WordWeight

/-- The weight of an atom in words. -/
def Atom.wordWeight : Atom → WordWeight
  | .typeName _ => ⟨0, 0, 1⟩
  | .inNamespace _ => 0
  | .id _ => ⟨1, 0, 0⟩
  | .className _ | .attribute _ | .pseudoClass _ => ⟨0, 1, 0⟩

mutual

/-- The sum of a weight and that of a simple selector. -/
def Simple.weighOnto? (w : WordWeight) : Simple → Option WordWeight
  | .atom a => w.add? a.wordWeight
  | .negation list => do w.add? (← weighGreatest? list)
  | .isAny list => do w.add? (← weighGreatest? list)
  | .whereAny _ => some w

/-- The weight of a complex selector. -/
def Complex.weigh? : Complex → Option WordWeight
  | .compound simples => weighCompoundOnto? 0 simples
  | .relative left _ simples => do left.weighOnto? (← weighCompoundOnto? 0 simples)

/-- The sum of a weight and those of the compounds of a complex selector, from the subject
    leftwards. -/
def Complex.weighOnto? (w : WordWeight) : Complex → Option WordWeight
  | .compound simples => do w.add? (← weighCompoundOnto? 0 simples)
  | .relative left _ simples => do
    let sum ← w.add? (← weighCompoundOnto? 0 simples)
    left.weighOnto? sum

/-- The sum of a weight and those of the simple selectors of a compound, in their order. -/
def weighCompoundOnto? (w : WordWeight) : List Simple → Option WordWeight
  | [] => some w
  | simple :: rest => do weighCompoundOnto? (← simple.weighOnto? w) rest

/-- The greatest weight in a list. -/
def weighGreatest? : List Complex → Option WordWeight
  | [] => some 0
  | complex :: rest => do
    let first ← complex.weigh?
    let greatest ← weighGreatest? rest
    return first.greater greatest

end

/-- The weight of a selector, one more than that of its complex selector if it has a
    pseudo-element. -/
def Selector.weigh? (selector : Selector) : Option WordWeight := do
  let w ← selector.complex.weigh?
  match selector.pseudoElement? with
  | some _ => w.add? ⟨0, 0, 1⟩
  | none => return w

/-! ## Sums that fit -/

/-- An addition below the limit gives the exact sum. -/
theorem addWord?_eq_some {a b : UInt32} (h : a.toNat + b.toNat < UInt32.size) :
    addWord? a b = some (a + b) ∧ (a + b).toNat = a.toNat + b.toNat := by
  refine ⟨if_pos h, ?_⟩
  rw [UInt32.toNat_add]
  exact Nat.mod_eq_of_lt h

namespace WordWeight

/-- The greater weight is chosen as it is among exact ones. -/
theorem exact_greater (a b : WordWeight) : (a.greater b).exact = max a.exact b.exact :=
  apply_ite exact _ _ _

/-- A sum is exact if all that it counts is less than a word has values. -/
theorem exists_add {a b : WordWeight} (h : a.exact.total + b.exact.total < UInt32.size) :
    ∃ w, a.add? b = some w ∧ w.exact = a.exact + b.exact := by
  simp only [Specificity.total, exact] at h
  obtain ⟨hids, hidsExact⟩ := addWord?_eq_some (a := a.ids) (b := b.ids) (by omega)
  obtain ⟨hclasses, hclassesExact⟩ :=
    addWord?_eq_some (a := a.classes) (b := b.classes) (by omega)
  obtain ⟨htypes, htypesExact⟩ := addWord?_eq_some (a := a.types) (b := b.types) (by omega)
  refine ⟨⟨a.ids + b.ids, a.classes + b.classes, a.types + b.types⟩, ?_, ?_⟩
  · rw [add?, hids, hclasses, htypes]
    rfl
  · exact Specificity.ext hidsExact hclassesExact htypesExact

/-- The same for a weight that has to be computed first. -/
theorem exists_bind_add {a : WordWeight} {result? : Option WordWeight} {weight : Specificity}
    (hresult : ∃ b, result? = some b ∧ b.exact = weight)
    (h : a.exact.total + weight.total < UInt32.size) :
    ∃ w, result?.bind a.add? = some w ∧ w.exact = a.exact + weight := by
  obtain ⟨b, rfl, rfl⟩ := hresult
  exact exists_add h

end WordWeight

private theorem Atom.exact_wordWeight (a : Atom) : a.wordWeight.exact = a.specificity := by
  cases a <;> rfl

/-! ## Weights and parts -/

mutual

/-- A simple selector counts no more than it has parts. -/
theorem Simple.total_specificity_le : (simple : Simple) →
    simple.specificity.total ≤ simple.parts
  | .atom _ => Nat.le_refl _
  | .negation list => total_greatestSpecificity_le list
  | .isAny list => total_greatestSpecificity_le list
  | .whereAny _ => Nat.zero_le _

/-- A complex selector counts no more than it has parts. -/
theorem Complex.total_specificity_le : (complex : Complex) →
    complex.specificity.total ≤ complex.parts
  | .compound simples => total_totalSpecificity_le simples
  | .relative left _ simples => by
    rw [Complex.specificity, Complex.parts, Specificity.total_add]
    exact Nat.add_le_add (Complex.total_specificity_le left) (total_totalSpecificity_le simples)

private theorem total_totalSpecificity_le : (simples : List Simple) →
    (totalSpecificity simples).total ≤ compoundParts simples
  | [] => Nat.le_refl 0
  | simple :: rest => by
    rw [totalSpecificity, compoundParts, Specificity.total_add]
    exact Nat.add_le_add (Simple.total_specificity_le simple) (total_totalSpecificity_le rest)

private theorem total_greatestSpecificity_le : (list : List Complex) →
    (greatestSpecificity list).total ≤ listParts list
  | [] => Nat.le_refl 0
  | complex :: rest => by
    rw [greatestSpecificity, listParts]
    exact Nat.le_trans (Specificity.total_max_le _ _) (Nat.add_le_add
      (Complex.total_specificity_le complex) (total_greatestSpecificity_le rest))

end

/-- A selector counts no more than it has parts. -/
theorem Selector.total_specificity_le (selector : Selector) :
    selector.specificity.total ≤ selector.parts := by
  obtain ⟨complex, pseudoElement?⟩ := selector
  have hcomplex := Complex.total_specificity_le complex
  cases pseudoElement? with
  | none => exact hcomplex
  | some pseudoElement =>
    have hsum := Specificity.total_add complex.specificity .ofType
    exact hsum.trans_le (Nat.succ_le_succ hcomplex)

/-! ## No addition overflows -/

/-- A compound that can be added to any weight can be added to none. -/
theorem exists_weighCompound {simples : List Simple}
    (honto : ∀ w : WordWeight, w.exact.total + compoundParts simples < UInt32.size →
      ∃ sum, weighCompoundOnto? w simples = some sum ∧
        sum.exact = w.exact + totalSpecificity simples)
    (h : compoundParts simples < UInt32.size) :
    ∃ own, weighCompoundOnto? 0 simples = some own ∧ own.exact = totalSpecificity simples := by
  obtain ⟨own, hown, hexact⟩ := honto 0 ((Nat.zero_add _).trans_lt h)
  exact ⟨own, hown, hexact.trans (Specificity.zero_add _)⟩

mutual

/-- Adding the weight of a simple selector below the limit is exact. -/
theorem Simple.exists_weighOnto (w : WordWeight) : (simple : Simple) →
    w.exact.total + simple.parts < UInt32.size →
      ∃ sum, simple.weighOnto? w = some sum ∧ sum.exact = w.exact + simple.specificity
  | .atom a => by
    intro h
    rw [Simple.specificity, ← a.exact_wordWeight]
    refine WordWeight.exists_add ?_
    rwa [a.exact_wordWeight]
  | .negation list => by
    intro (h : w.exact.total + listParts list < UInt32.size)
    have hgreatest := total_greatestSpecificity_le list
    rw [Simple.specificity]
    exact WordWeight.exists_bind_add (exists_weighGreatest list (by omega)) (by omega)
  | .isAny list => by
    intro (h : w.exact.total + listParts list < UInt32.size)
    have hgreatest := total_greatestSpecificity_le list
    rw [Simple.specificity]
    exact WordWeight.exists_bind_add (exists_weighGreatest list (by omega)) (by omega)
  | .whereAny _ => fun _ => ⟨w, rfl, rfl⟩

/-- Weighing a complex selector below the limit is exact. -/
theorem Complex.exists_weigh : (complex : Complex) → complex.parts < UInt32.size →
    ∃ w, complex.weigh? = some w ∧ w.exact = complex.specificity
  | .compound simples => exists_weighCompound fun w => exists_weighCompoundOnto w simples
  | .relative left _ simples => by
    intro (h : left.parts + compoundParts simples < UInt32.size)
    have htotal := total_totalSpecificity_le simples
    obtain ⟨own, hown, hexact⟩ :=
      exists_weighCompound (fun w => exists_weighCompoundOnto w simples) (by omega)
    obtain ⟨sum, hsum, hsumExact⟩ :=
      Complex.exists_weighOnto own left (by rw [hexact]; omega)
    refine ⟨sum, ?_, ?_⟩
    · rw [Complex.weigh?, hown]
      exact hsum
    · rw [hsumExact, hexact, Specificity.add_comm, Complex.specificity]

/-- Adding the weight of a complex selector below the limit is exact. -/
theorem Complex.exists_weighOnto (w : WordWeight) : (complex : Complex) →
    w.exact.total + complex.parts < UInt32.size →
      ∃ sum, complex.weighOnto? w = some sum ∧ sum.exact = w.exact + complex.specificity
  | .compound simples => by
    intro (h : w.exact.total + compoundParts simples < UInt32.size)
    have htotal := total_totalSpecificity_le simples
    rw [Complex.specificity]
    have hown := exists_weighCompound (fun w => exists_weighCompoundOnto w simples) (by omega)
    exact WordWeight.exists_bind_add hown (by omega)
  | .relative left _ simples => by
    intro (h : w.exact.total + (left.parts + compoundParts simples) < UInt32.size)
    -- three sums: of the compound alone, of it and what came before, and with what is to the left
    have htotal := total_totalSpecificity_le simples
    obtain ⟨own, hown, hexact⟩ :=
      exists_weighCompound (fun w => exists_weighCompoundOnto w simples) (by omega)
    obtain ⟨sum, hsum, hsumExact⟩ :=
      WordWeight.exists_add (a := w) (b := own) (by rw [hexact]; omega)
    obtain ⟨all, hall, hallExact⟩ := Complex.exists_weighOnto sum left
      (by rw [hsumExact, Specificity.total_add, hexact]; omega)
    refine ⟨all, ?_, ?_⟩
    · rw [Complex.weighOnto?, hown]
      exact (congrArg (·.bind left.weighOnto?) hsum).trans hall
    · rw [hallExact, hsumExact, hexact, Specificity.add_assoc, Complex.specificity,
        Specificity.add_comm left.specificity]

/-- Adding the weight of a compound below the limit is exact. -/
theorem exists_weighCompoundOnto (w : WordWeight) : (simples : List Simple) →
    w.exact.total + compoundParts simples < UInt32.size →
      ∃ sum, weighCompoundOnto? w simples = some sum ∧
        sum.exact = w.exact + totalSpecificity simples
  | [] => by
    intro _
    refine ⟨w, rfl, ?_⟩
    rw [totalSpecificity, Specificity.add_comm, Specificity.zero_add]
  | simple :: rest => by
    intro (h : w.exact.total + (simple.parts + compoundParts rest) < UInt32.size)
    have htotal := Simple.total_specificity_le simple
    obtain ⟨sum, hsum, hexact⟩ := Simple.exists_weighOnto w simple (by omega)
    obtain ⟨all, hall, hallExact⟩ := exists_weighCompoundOnto sum rest
      (by rw [hexact, Specificity.total_add]; omega)
    refine ⟨all, ?_, ?_⟩
    · rw [weighCompoundOnto?, hsum]
      exact hall
    · rw [hallExact, hexact, Specificity.add_assoc, totalSpecificity]

/-- The greatest weight of a list below the limit is exact. -/
theorem exists_weighGreatest : (list : List Complex) → listParts list < UInt32.size →
    ∃ w, weighGreatest? list = some w ∧ w.exact = greatestSpecificity list
  | [] => fun _ => ⟨0, rfl, rfl⟩
  | complex :: rest => by
    intro (h : complex.parts + listParts rest < UInt32.size)
    obtain ⟨first, hfirst, hfirstExact⟩ := Complex.exists_weigh complex (by omega)
    obtain ⟨greatest, hgreatest, hgreatestExact⟩ := exists_weighGreatest rest (by omega)
    refine ⟨first.greater greatest, ?_, ?_⟩
    · rw [weighGreatest?, hfirst, hgreatest]
      rfl
    · rw [WordWeight.exact_greater, hfirstExact, hgreatestExact, greatestSpecificity]

end

/-- The weight of a selector of few enough parts is found without overflow. -/
theorem Selector.exists_weigh (selector : Selector) (h : selector.parts < UInt32.size) :
    ∃ w, selector.weigh? = some w ∧ w.exact = selector.specificity := by
  obtain ⟨complex, pseudoElement?⟩ := selector
  have htotal := Complex.total_specificity_le complex
  cases pseudoElement? with
  | none =>
    obtain ⟨w, hw, hexact⟩ := Complex.exists_weigh complex h
    exact ⟨w, congrArg (·.bind pure) hw, hexact⟩
  | some pseudoElement =>
    replace h : complex.parts + 1 < UInt32.size := h
    obtain ⟨w, hw, hexact⟩ := Complex.exists_weigh complex (by omega)
    have hfits : w.exact.total + (WordWeight.mk 0 0 1).exact.total < UInt32.size := by
      rw [hexact]
      exact (Nat.succ_le_succ htotal).trans_lt h
    obtain ⟨sum, hsum, hsumExact⟩ := WordWeight.exists_add hfits
    refine ⟨sum, ?_, ?_⟩
    · rw [weigh?, hw]
      exact hsum
    · rw [hsumExact, hexact]
      rfl

/-! ## Lists within -/

mutual

/-- The complex selectors in the list of a simple selector, and in their lists. -/
def Simple.within : Simple → List Complex
  | .atom _ => []
  | .negation list => listWithin list
  | .isAny list => listWithin list
  | .whereAny list => listWithin list

/-- The complex selectors in lists within a complex selector. -/
def Complex.within : Complex → List Complex
  | .compound simples => compoundWithin simples
  | .relative left _ simples => left.within ++ compoundWithin simples

/-- The complex selectors in lists within a compound. -/
def compoundWithin : List Simple → List Complex
  | [] => []
  | simple :: rest => simple.within ++ compoundWithin rest

/-- The complex selectors of a list, and those in lists within them. -/
def listWithin : List Complex → List Complex
  | [] => []
  | complex :: rest => complex :: (complex.within ++ listWithin rest)

end

mutual

/-- What is within a simple selector has no more parts. -/
theorem Simple.parts_le_of_mem_within {inner : Complex} : (simple : Simple) →
    inner ∈ simple.within → inner.parts ≤ simple.parts
  | .atom _ => nofun
  | .negation list => parts_le_of_mem_listWithin list
  | .isAny list => parts_le_of_mem_listWithin list
  | .whereAny list => parts_le_of_mem_listWithin list

/-- What is within a complex selector has no more parts. -/
theorem Complex.parts_le_of_mem_within {inner : Complex} : (complex : Complex) →
    inner ∈ complex.within → inner.parts ≤ complex.parts
  | .compound simples => parts_le_of_mem_compoundWithin simples
  | .relative left _ simples => by
    intro h
    rcases List.mem_append.1 h with h | h
    · exact Nat.le_add_right_of_le (Complex.parts_le_of_mem_within left h)
    · exact Nat.le_add_left_of_le (parts_le_of_mem_compoundWithin simples h)

private theorem parts_le_of_mem_compoundWithin {inner : Complex} : (simples : List Simple) →
    inner ∈ compoundWithin simples → inner.parts ≤ compoundParts simples
  | [] => nofun
  | simple :: rest => by
    intro h
    rcases List.mem_append.1 h with h | h
    · exact Nat.le_add_right_of_le (Simple.parts_le_of_mem_within simple h)
    · exact Nat.le_add_left_of_le (parts_le_of_mem_compoundWithin rest h)

private theorem parts_le_of_mem_listWithin {inner : Complex} : (list : List Complex) →
    inner ∈ listWithin list → inner.parts ≤ listParts list
  | [] => nofun
  | complex :: rest => by
    intro h
    rcases List.mem_cons.1 h with heq | h
    · rw [heq]
      exact Nat.le_add_right _ _
    · rcases List.mem_append.1 h with h | h
      · exact Nat.le_add_right_of_le (Complex.parts_le_of_mem_within complex h)
      · exact Nat.le_add_left_of_le (parts_le_of_mem_listWithin rest h)

end

/-! ## Parsed selectors -/

/-- A parsed selector counts no more than there are tokens, nor these more than there are
    characters; so its weight, and that of all selectors within, is found without overflow if the
    text is short enough. -/
theorem exists_weigh_of_parsed {namespaces : Namespaces} {text : String}
    {selectors : List Selector} (h : parseSelectors namespaces text = .ok selectors) :
    (tokenize text).length ≤ text.length ∧
      ∀ selector ∈ selectors,
        selector.specificity.total ≤ (tokenize text).length ∧
          (text.length < UInt32.size →
            (∃ w, selector.weigh? = some w ∧ w.exact = selector.specificity) ∧
              ∀ inner ∈ selector.complex.within,
                ∃ w, inner.weigh? = some w ∧ w.exact = inner.specificity) := by
  have htokens : (tokenize text).length ≤ text.length := Lexer.length_lex_le text.toList
  refine ⟨htokens, fun selector hmem => ?_⟩
  obtain ⟨-, -, hsum⟩ := Grammar.filled_and_parts_le_of_parsed (tokenize text) h
  -- one selector has no more parts than all of them together
  have hparts : selector.parts ≤ (tokenize text).length :=
    (List.le_sum_of_mem (List.mem_map_of_mem hmem)).trans hsum
  refine ⟨selector.total_specificity_le.trans hparts, fun hlength => ⟨?_, ?_⟩⟩
  · exact selector.exists_weigh (by omega)
  · intro inner hinner
    have hinnerParts := Complex.parts_le_of_mem_within selector.complex hinner
    have hcomplex : selector.complex.parts ≤ selector.parts := Nat.le_add_right _ _
    exact Complex.exists_weigh inner (by omega)

/-- The paragraph and the four selectors within it. -/
theorem exists_weigh_plainParagraph :
    (∃ w, plainParagraph.weigh? = some w ∧ w.exact = ⟨1, 1, 2⟩) ∧
      plainParagraph.complex.within.length = 4 ∧
        ∀ inner ∈ plainParagraph.complex.within,
          ∃ w, inner.weigh? = some w ∧ w.exact = inner.specificity := by
  obtain ⟨-, hall⟩ := exists_weigh_of_parsed parseSelectors_plainParagraph
  obtain ⟨-, hfits⟩ := hall plainParagraph (List.mem_singleton.2 rfl)
  obtain ⟨hselector, hwithin⟩ := hfits (by decide)
  exact ⟨hselector, rfl, hwithin⟩

end Selectors
