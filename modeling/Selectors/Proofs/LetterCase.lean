import Mathlib.Data.List.Forall2
import Selectors.Proofs.Index.Dispatch
import Selectors.Proofs.Tree.Forest

/-!
# Letter case — names in HTML documents

In an HTML document the names of types and attributes in a selector may be written in any case. Two
selectors that differ in nothing else have tests that accept the same elements: the tests have the
same shape, and the names in them are lowered before they are compared. An attribute in a namespace
is looked up under its full name, and so those are left out.

The keys of the two selectors may well differ. A selector for the attribute `LANG` has no key where
one for `lang` has, and is filed in another bucket. That the answers of the two indexes are equal
therefore does not come from equal buckets. Each answer is determined by the tests alone, since
every key is necessary, and by the weights and numbers, which give its order.

* **`Complex.Recased`** — a selector is another one with the case of some names changed.
* **`Complex.accepts_recased`** and **`Complex.specificity_recased`** — the tests accept the same
  elements of an HTML document, and the weights are equal.
* **`matchElement_recased`** — so are the answers of the indexes.
-/

namespace Selectors

/-! ## Changing the case of names -/

/-- An atom with the case of its name changed, if that is the name of a type or an attribute. -/
inductive Atom.Recased : Atom → Atom → Prop where
  | typeName {name name' : String} :
      sameUpToCase name name' = true → Recased (.typeName name) (.typeName name')
  | attributeName {scope : AttributeScope} {expected? : Option (AttributeOperator × String)}
      {name name' : String} : sameUpToCase name name' = true →
        Recased (.attribute ⟨scope, name, expected?⟩) (.attribute ⟨scope, name', expected?⟩)
  | same (a : Atom) : Recased a a

mutual

/-- A simple selector with the case of some names changed, at any depth. -/
inductive Simple.Recased : Simple → Simple → Prop where
  | atom {a a' : Atom} : a.Recased a' → Simple.Recased (.atom a) (.atom a')
  | negation {list list' : List Complex} :
      ListRecased list list' → Simple.Recased (.negation list) (.negation list')
  | isAny {list list' : List Complex} :
      ListRecased list list' → Simple.Recased (.isAny list) (.isAny list')
  | whereAny {list list' : List Complex} :
      ListRecased list list' → Simple.Recased (.whereAny list) (.whereAny list')

/-- A complex selector with the case of some names changed, at any depth. -/
inductive Complex.Recased : Complex → Complex → Prop where
  | compound {simples simples' : List Simple} :
      CompoundRecased simples simples' → Complex.Recased (.compound simples) (.compound simples')
  | relative {left left' : Complex} {combinator : Combinator} {simples simples' : List Simple} :
      Complex.Recased left left' → CompoundRecased simples simples' →
        Complex.Recased (.relative left combinator simples) (.relative left' combinator simples')

/-- The simple selectors of a compound, one by one, with the case of some names changed. -/
inductive CompoundRecased : List Simple → List Simple → Prop where
  | nil : CompoundRecased [] []
  | cons {simple simple' : Simple} {rest rest' : List Simple} :
      Simple.Recased simple simple' → CompoundRecased rest rest' →
        CompoundRecased (simple :: rest) (simple' :: rest')

/-- The selectors of a list, one by one, with the case of some names changed. -/
inductive ListRecased : List Complex → List Complex → Prop where
  | nil : ListRecased [] []
  | cons {complex complex' : Complex} {rest rest' : List Complex} :
      Complex.Recased complex complex' → ListRecased rest rest' →
        ListRecased (complex :: rest) (complex' :: rest')

end

/-- An attribute that an atom looks at is not named in a namespace. -/
def Atom.Unprefixed : Atom → Prop
  | .attribute test => test.scope = .none
  | _ => True

mutual

/-- No attribute in a simple selector is named in a namespace. -/
def Simple.Unprefixed : Simple → Prop
  | .atom a => a.Unprefixed
  | .negation list => ListUnprefixed list
  | .isAny list => ListUnprefixed list
  | .whereAny list => ListUnprefixed list

/-- No attribute in a complex selector is named in a namespace. -/
def Complex.Unprefixed : Complex → Prop
  | .compound simples => CompoundUnprefixed simples
  | .relative left _ simples => left.Unprefixed ∧ CompoundUnprefixed simples

/-- No attribute in a compound is named in a namespace. -/
def CompoundUnprefixed : List Simple → Prop
  | [] => True
  | simple :: rest => simple.Unprefixed ∧ CompoundUnprefixed rest

/-- No attribute in a list of selectors is named in a namespace. -/
def ListUnprefixed : List Complex → Prop
  | [] => True
  | complex :: rest => complex.Unprefixed ∧ ListUnprefixed rest

end

/-! ## What is accepted -/

section Accepts

variable {t : Tree}

/-- Names that are equal up to case are compared as the same name in an HTML document. -/
theorem nameIn_eq_of_sameUpToCase (hhtml : t.isHtml = true) {name name' : String}
    (h : sameUpToCase name name' = true) : nameIn t.isHtml name = nameIn t.isHtml name' := by
  rw [hhtml]
  show name.toLower = name'.toLower
  exact beq_iff_eq.1 h

/-- In an HTML document a test of one name accepts the same in any letter case. -/
theorem Atom.accepts_recased (hhtml : t.isHtml = true) {a a' : Atom} (h : a.Recased a')
    (hplain : a.Unprefixed) (e : Element t) : a.test.accepts e = a'.test.accepts e := by
  cases h with
  | same => rfl
  | typeName hname =>
    show (e.data.localName == nameIn t.isHtml _) = (e.data.localName == nameIn t.isHtml _)
    rw [nameIn_eq_of_sameUpToCase hhtml hname]
  | @attributeName scope expected? name name' hname =>
    obtain rfl : scope = .none := hplain
    have hvalue : AttributeTest.value? ⟨.none, name, expected?⟩ t.isHtml e.data =
        AttributeTest.value? ⟨.none, name', expected?⟩ t.isHtml e.data := by
      show e.data.attribute? (nameIn t.isHtml name) = e.data.attribute? (nameIn t.isHtml name')
      rw [nameIn_eq_of_sameUpToCase hhtml hname]
    have haccepts : AttributeTest.accepts ⟨.none, name, expected?⟩ t.isHtml e.data =
        AttributeTest.accepts ⟨.none, name', expected?⟩ t.isHtml e.data := by
      simp only [AttributeTest.accepts, hvalue]
    -- whether a comparison is folded away does not depend on the name
    by_cases hfolded : AttributeTest.isUnsatisfiable ⟨.none, name, expected?⟩ = true
    · have hfolded' : AttributeTest.isUnsatisfiable ⟨.none, name', expected?⟩ = true := hfolded
      rw [Atom.test, Atom.test, if_pos hfolded, if_pos hfolded']
    · have hfolded' : ¬ AttributeTest.isUnsatisfiable ⟨.none, name', expected?⟩ = true := hfolded
      rw [Atom.test, Atom.test, if_neg hfolded, if_neg hfolded']
      exact haccepts

mutual

/-- In an HTML document a simple selector accepts the same in any letter case. -/
theorem Simple.accepts_recased (hhtml : t.isHtml = true) : {simple simple' : Simple} →
    simple.Recased simple' → simple.Unprefixed →
      ∀ e : Element t, simple.test.accepts e = simple'.test.accepts e
  | _, _, .atom h, hplain, e => Atom.accepts_recased hhtml h hplain e
  | _, _, .negation h, hplain, e => by
    show (Test.anyOf _).negation.accepts e = (Test.anyOf _).negation.accepts e
    rw [Test.accepts_negation, Test.accepts_negation, Test.accepts_anyOf, Test.accepts_anyOf,
      any_listTests_recased hhtml h hplain e]
  | _, _, .isAny h, hplain, e => by
    show (Test.anyOf _).accepts e = (Test.anyOf _).accepts e
    rw [Test.accepts_anyOf, Test.accepts_anyOf, any_listTests_recased hhtml h hplain e]
  | _, _, .whereAny h, hplain, e => by
    show (Test.anyOf _).accepts e = (Test.anyOf _).accepts e
    rw [Test.accepts_anyOf, Test.accepts_anyOf, any_listTests_recased hhtml h hplain e]

/-- In an HTML document a complex selector accepts the same in any letter case. -/
theorem Complex.accepts_recased (hhtml : t.isHtml = true) : {complex complex' : Complex} →
    complex.Recased complex' → complex.Unprefixed →
      ∀ e : Element t, complex.test.accepts e = complex'.test.accepts e
  | _, _, .compound h, hplain, e => by
    show (Test.allOf _).accepts e = (Test.allOf _).accepts e
    rw [Test.accepts_allOf, Test.accepts_allOf, all_compoundTests_recased hhtml h hplain e]
  | _, _, .relative hleft h, ⟨hplain, hplain'⟩, e => by
    show (Test.joined _ _ (Test.allOf _)).accepts e = (Test.joined _ _ (Test.allOf _)).accepts e
    rw [Test.accepts_joined, Test.accepts_joined, Test.accepts_allOf, Test.accepts_allOf,
      all_compoundTests_recased hhtml h hplain' e,
      funext (Complex.accepts_recased hhtml hleft hplain)]

private theorem all_compoundTests_recased (hhtml : t.isHtml = true) :
    {simples simples' : List Simple} →
    CompoundRecased simples simples' → CompoundUnprefixed simples →
      ∀ e : Element t, (compoundTests simples).all (·.accepts e) =
        (compoundTests simples').all (·.accepts e)
  | _, _, .nil, _, _ => rfl
  | _, _, .cons h hrest, ⟨hplain, hplain'⟩, e => by
    rw [compoundTests, compoundTests, List.all_cons, List.all_cons,
      Simple.accepts_recased hhtml h hplain e, all_compoundTests_recased hhtml hrest hplain' e]

private theorem any_listTests_recased (hhtml : t.isHtml = true) : {list list' : List Complex} →
    ListRecased list list' → ListUnprefixed list →
      ∀ e : Element t, (listTests list).any (·.accepts e) = (listTests list').any (·.accepts e)
  | _, _, .nil, _, _ => rfl
  | _, _, .cons h hrest, ⟨hplain, hplain'⟩, e => by
    rw [listTests, listTests, List.any_cons, List.any_cons,
      Complex.accepts_recased hhtml h hplain e, any_listTests_recased hhtml hrest hplain' e]

end

end Accepts

/-! ## What is weighed -/

/-- The case of a name does not change its weight. -/
theorem Atom.specificity_recased {a a' : Atom} (h : a.Recased a') :
    a.specificity = a'.specificity := by
  cases h with
  | same => rfl
  | typeName _ => rfl
  | attributeName _ => rfl

mutual

/-- The case of names does not change the weight of a simple selector. -/
theorem Simple.specificity_recased : {simple simple' : Simple} →
    simple.Recased simple' → simple.specificity = simple'.specificity
  | _, _, .atom h => Atom.specificity_recased h
  | _, _, .negation h => greatestSpecificity_recased h
  | _, _, .isAny h => greatestSpecificity_recased h
  | _, _, .whereAny _ => rfl

/-- The case of names does not change the weight of a complex selector. -/
theorem Complex.specificity_recased : {complex complex' : Complex} →
    complex.Recased complex' → complex.specificity = complex'.specificity
  | _, _, .compound h => totalSpecificity_recased h
  | _, _, .relative hleft h => by
    rw [Complex.specificity, Complex.specificity, Complex.specificity_recased hleft,
      totalSpecificity_recased h]

private theorem totalSpecificity_recased : {simples simples' : List Simple} →
    CompoundRecased simples simples' → totalSpecificity simples = totalSpecificity simples'
  | _, _, .nil => rfl
  | _, _, .cons h hrest => by
    rw [totalSpecificity, totalSpecificity, Simple.specificity_recased h,
      totalSpecificity_recased hrest]

private theorem greatestSpecificity_recased : {list list' : List Complex} →
    ListRecased list list' → greatestSpecificity list = greatestSpecificity list'
  | _, _, .nil => rfl
  | _, _, .cons h hrest => by
    rw [greatestSpecificity, greatestSpecificity, Complex.specificity_recased h,
      greatestSpecificity_recased hrest]

end

/-! ## What an index answers -/

/-- A selector with the case of some names changed. -/
structure Selector.Recased (selector selector' : Selector) : Prop where
  complex : selector.complex.Recased selector'.complex
  pseudoElement? : selector.pseudoElement? = selector'.pseudoElement?

/-- The case of names does not change the weight of a selector. -/
theorem Selector.specificity_recased {selector selector' : Selector}
    (h : selector.Recased selector') : selector.specificity = selector'.specificity := by
  rw [Selector.specificity, Selector.specificity, h.pseudoElement?,
    Complex.specificity_recased h.complex]

/-- The index to which the compiled forms of some selectors have been added, from first to last,
    each with a payload. -/
def Index.ofSelectors {P : Type} (loaded : List (Selector × P)) : Index Test P :=
  ofHistory (loaded.map fun (selector, payload) => (selector.compile, payload))

/-- The case of names does not matter in an HTML document. Selectors without prefixed attributes are
    loaded into one index, and with the case of some names changed into another: the tests that
    correspond to each other accept the same elements, and the indexes give the same matches. -/
theorem matchElement_recased {P : Type} {t : Tree} (hhtml : t.isHtml = true)
    {loaded loaded' : List (Selector × P)}
    (hrecased : List.Forall₂ (fun added added' => added.1.Recased added'.1 ∧ added.2 = added'.2)
      loaded loaded')
    (hplain : ∀ added ∈ loaded, added.1.complex.Unprefixed) (e : Element t) :
    List.Forall₂ (fun added added' =>
        added.1.compile.test.accepts e = added'.1.compile.test.accepts e) loaded loaded' ∧
      (Index.ofSelectors loaded).matchElement e = (Index.ofSelectors loaded').matchElement e := by
  -- the answer depends only on the tests and the matches, which agree entry by entry
  have hcompiled : ∀ entries : List (Selector × P),
      ∀ added ∈ entries.map fun (selector, payload) => (selector.compile, payload),
        ∃ selector : Selector, added.1 = selector.compile := by
    intro entries added hadded
    obtain ⟨⟨selector, _⟩, -, rfl⟩ := List.mem_map.1 hadded
    exact ⟨selector, rfl⟩
  have hsame : List.Forall₂ (fun added added' => SameMatch e (added.1.compile, added.2)
      (added'.1.compile, added'.2)) loaded loaded' := by
    induction hrecased with
    | nil => exact List.Forall₂.nil
    | @cons added added' rest rest' hfirst _ ih =>
      obtain ⟨hrecased, hpayload⟩ := hfirst
      refine List.Forall₂.cons ⟨?_, fun order => ?_⟩
        (ih fun other hother => hplain other (List.mem_cons_of_mem _ hother))
      · exact Complex.accepts_recased hhtml hrecased.complex (hplain added List.mem_cons_self) e
      · show matchOf added.1.compile added.2 order = matchOf added'.1.compile added'.2 order
        simp only [matchOf, Selector.compile, Selector.specificity_recased hrecased,
          hrecased.pseudoElement?, hpayload]
  refine ⟨hsame.imp fun _ _ h => h.accepts_eq, ?_⟩
  refine Index.matchElement_congr (hcompiled loaded) (hcompiled loaded') ?_
  rw [List.forall₂_map_left_iff, List.forall₂_map_right_iff]
  exact hsame

/-- A list item in English. -/
def englishItem : ElementData where
  localName := "li"
  attributes := .ofList [("lang", "en")]

/-- An HTML document with the item in a list. -/
def englishList : Tree :=
  ((Tree.empty true).grow? [(0, .element { localName := "ul" }), (1, .element englishItem)]).getD
    default

/-- What has an attribute and is in a list, both under the given names. -/
def inListWith (list attributeName : String) : Selector :=
  ⟨.relative (.compound [.atom (.typeName list)]) .child
    [.atom (.attribute ⟨.none, attributeName, none⟩)], none⟩

/-- The item is found under names in upper case as well, though not by way of the same key. -/
theorem matchElement_englishItem :
    (inListWith "UL" "LANG").compile.keys.needsLang = false ∧
      (inListWith "ul" "lang").compile.keys.needsLang = true ∧
      (inListWith "UL" "LANG").compile.test.accepts
        (⟨2, englishItem, rfl⟩ : Element englishList) = true ∧
      (Index.ofSelectors [(inListWith "UL" "LANG", "rule")]).matchElement
          (⟨2, englishItem, rfl⟩ : Element englishList) =
        (Index.ofSelectors [(inListWith "ul" "lang", "rule")]).matchElement
          (⟨2, englishItem, rfl⟩ : Element englishList) := by
  have hlist : sameUpToCase "UL" "ul" = true := by
    refine beq_iff_eq.2 ?_
    rw [← String.toList_inj, toList_toLower, toList_toLower]
    decide
  have hname : sameUpToCase "LANG" "lang" = true := by
    refine beq_iff_eq.2 ?_
    rw [← String.toList_inj, toList_toLower, toList_toLower]
    decide
  have hrecased : (inListWith "UL" "LANG").Recased (inListWith "ul" "lang") :=
    ⟨.relative (.compound (.cons (.atom (.typeName hlist)) .nil))
      (.cons (.atom (.attributeName hname)) .nil), rfl⟩
  have hplain : (inListWith "UL" "LANG").complex.Unprefixed :=
    ⟨⟨trivial, trivial⟩, ⟨rfl, trivial⟩⟩
  have hloaded : List.Forall₂ (fun added added' : Selector × String =>
      added.1.Recased added'.1 ∧ added.2 = added'.2)
      [(inListWith "UL" "LANG", "rule")] [(inListWith "ul" "lang", "rule")] :=
    .cons ⟨hrecased, rfl⟩ .nil
  have hplain' : ∀ added ∈ [(inListWith "UL" "LANG", "rule")], added.1.complex.Unprefixed := by
    intro added hadded
    obtain rfl := List.mem_singleton.1 hadded
    exact hplain
  have hhtml : englishList.isHtml = true := rfl
  have haccepts : (inListWith "ul" "lang").compile.test.accepts
      (⟨2, englishItem, rfl⟩ : Element englishList) = true := by
    decide +kernel
  obtain ⟨htests, hmatches⟩ :=
    matchElement_recased hhtml hloaded hplain' (⟨2, englishItem, rfl⟩ : Element englishList)
  obtain ⟨hsame, -⟩ := List.forall₂_cons.1 htests
  exact ⟨rfl, rfl, hsame.trans haccepts, hmatches⟩

end Selectors
