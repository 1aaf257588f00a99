import Selectors.Proofs.Tree.Walks

/-!
# Languages — what an element inherits

The language of an element is set by the nearest element, among itself and its ancestors, that sets
one. The rule of HTML says which elements do: those with `xml:lang`, and HTML elements with `lang`. In
an HTML document the attribute `lang` is taken from every element, whatever its namespace is, and so a
language can come from an element that sets none by the rule.

Inheritance does not depend on which elements set a language. It is stated for any way of telling, and
used with the two.

* **`Element.Inherits`** — what an element inherits from the nearest one that sets something.
* **`inherits_findSome?`** — the walk upwards finds it.
* **`inherits_language?`** — the language of an element, and when it is the one by the rule.
* **`not_inherits_ruleLanguage?`** — an element for which it is not.
-/

namespace Selectors

namespace Element

variable {t : Tree} {e : Element t}

/-! ## Inheritance -/

/-- An element is another one or one of its ancestors. -/
def IsAtOrAbove (upper e : Element t) : Prop :=
  upper = e ∨ upper.IsAncestor e

/-- The nearest element that sets something: any other one that does is above it. -/
structure IsNearest (own : Element t → Option String) (e nearest : Element t) : Prop where
  above : nearest.IsAtOrAbove e
  sets : (own nearest).isSome = true
  first : ∀ other : Element t, other.IsAtOrAbove e → (own other).isSome = true →
    other.IsAtOrAbove nearest

/-- What an element inherits: what the nearest element sets that sets something, and nothing if none
    does. -/
inductive Inherits (own : Element t → Option String) (e : Element t) : Option String → Prop where
  | found {nearest : Element t} {value : String} :
      IsNearest own e nearest → own nearest = some value → Inherits own e (some value)
  | nothing : (∀ upper : Element t, upper.IsAtOrAbove e → own upper = none) → Inherits own e none

/-! ## The walk upwards -/

/-- The way upwards starts with the parent and goes on from there. -/
theorem ancestors_eq_cons (hforest : t.IsForest) {parent : Element t}
    (h : e.parent? = some parent) : e.ancestors = parent :: parent.ancestors := by
  have hbound : ∀ l, List.IsChain (fun a b : Element t => a.parent? = some b) (e :: l) →
      l.length ≤ t.size := fun l => length_le_of_isChain_parent? hforest
  have hmore : chain parent? t.size e.parent? = chain parent? (t.size + 1) e.parent? :=
    chain_eq_of_bounds hbound fun l hl => Nat.le_succ_of_le (hbound l hl)
  rw [ancestors, hmore, h]
  rfl

/-- Without a parent there is no way upwards. -/
theorem ancestors_eq_nil (h : e.parent? = none) : e.ancestors = [] := by
  rw [ancestors, h]
  cases t.size <;> rfl

/-- On the way upwards, the element included, are those at or above it. -/
theorem mem_cons_ancestors_iff (hforest : t.IsForest) {upper : Element t} :
    upper ∈ e :: e.ancestors ↔ upper.IsAtOrAbove e := by
  rw [List.mem_cons, mem_ancestors_iff hforest]
  exact Iff.rfl

/-- Behind each element of a walk come the ancestors of that element. -/
theorem ancestors_of_split (hforest : t.IsForest) {a : Element t} {front back : List (Element t)}
    (h : e :: e.ancestors = front ++ a :: back) : back = a.ancestors := by
  induction front generalizing e with
  | nil =>
    obtain ⟨rfl, hback⟩ := List.cons.inj h
    exact hback.symm
  | cons first front ih =>
    have hrest := (List.cons.inj h).2
    cases hparent : e.parent? with
    | none =>
      rw [ancestors_eq_nil hparent] at hrest
      exact absurd hrest.symm (List.append_ne_nil_of_right_ne_nil _ (List.cons_ne_nil _ _))
    | some parent =>
      rw [ancestors_eq_cons hforest hparent] at hrest
      exact ih hrest

/-- The walk finds what an element inherits. -/
theorem inherits_findSome? (hforest : t.IsForest) (own : Element t → Option String)
    (e : Element t) : Inherits own e ((e :: e.ancestors).findSome? own) := by
  cases hfound : (e :: e.ancestors).findSome? own with
  | none =>
    refine Inherits.nothing fun upper hupper => ?_
    exact List.findSome?_eq_none_iff.1 hfound upper ((mem_cons_ancestors_iff hforest).2 hupper)
  | some value =>
    obtain ⟨front, nearest, back, hsplit, hvalue, hfront⟩ := List.findSome?_eq_some_iff.1 hfound
    have hback := ancestors_of_split hforest hsplit
    refine Inherits.found ⟨?_, ?_, fun other hother hsets => ?_⟩ hvalue
    · refine (mem_cons_ancestors_iff hforest).1 ?_
      rw [hsplit]
      exact List.mem_append_right _ List.mem_cons_self
    · rw [hvalue]
      rfl
    · have hmem := (mem_cons_ancestors_iff hforest).2 hother
      rw [hsplit] at hmem
      rcases List.mem_append.1 hmem with hmem | hmem
      · rw [hfront other hmem] at hsets
        exact nomatch hsets
      · rw [hback] at hmem
        exact (mem_cons_ancestors_iff hforest).1 hmem

/-- Two elements that are above each other are one. -/
theorem isAtOrAbove_antisymm (hforest : t.IsForest) {a b : Element t} (hab : a.IsAtOrAbove b)
    (hba : b.IsAtOrAbove a) : a = b := by
  rcases hab with rfl | hab
  · rfl
  · rcases hba with rfl | hba
    · rfl
    · -- an element would be an ancestor of itself
      have hcycle : Relation.TransGen t.IsChild a.id a.id :=
        Relation.TransGen.lift Element.id (fun _ _ hparent => hparent) _ _ (hab.trans hba)
      exact absurd hcycle (hforest.acyclic _)

/-- There is one thing at most that an element inherits. -/
theorem Inherits.unique (hforest : t.IsForest) {own : Element t → Option String}
    {value? other? : Option String} (h : Inherits own e value?) (hother : Inherits own e other?) :
    value? = other? := by
  cases h with
  | @found nearest value hnearest hvalue =>
    cases hother with
    | @found other _ hnearest' hvalue' =>
      have hsame : nearest = other :=
        isAtOrAbove_antisymm hforest (hnearest'.first nearest hnearest.above hnearest.sets)
          (hnearest.first other hnearest'.above hnearest'.sets)
      rw [← hvalue, ← hvalue', hsame]
    | nothing hnone => exact nomatch (hnone nearest hnearest.above).symm.trans hvalue
  | nothing hnone =>
    cases hother with
    | @found other _ hnearest hvalue => exact nomatch (hnone other hnearest.above).symm.trans hvalue
    | nothing => rfl

/-! ## The rule of HTML -/

/-- The language that an element sets by the rule: by `xml:lang`, else by `lang` if it is an HTML
    element. -/
def ruleLanguage? (e : Element t) : Option String :=
  match e.data.attribute? xmlLanguageAttribute with
  | some language => some language
  | none => if e.isHtml then e.data.attribute? "lang" else none

/-- An element of an HTML document that is no HTML element and has no `xml:lang`: `lang` should not
    set its language. -/
def IsForeign (e : Element t) : Prop :=
  t.isHtml = true ∧ e.isHtml = false ∧ e.data.attribute? xmlLanguageAttribute = none

private theorem isHtml_iff : e.isHtml = true ↔
    e.data.namespaceUrl = htmlNamespace ∨ t.isHtml = true ∧ e.data.namespaceUrl = "" := by
  rw [isHtml, Bool.or_eq_true, Bool.and_eq_true, beq_iff_eq, beq_iff_eq]

private theorem takesLang_iff : (t.isHtml || e.data.namespaceUrl == htmlNamespace) = true ↔
    t.isHtml = true ∨ e.data.namespaceUrl = htmlNamespace := by
  rw [Bool.or_eq_true, beq_iff_eq]

/-- An element sets nothing by the rule but what it sets. -/
theorem ownLanguage?_eq_of_rule {language : String} (h : e.ruleLanguage? = some language) :
    e.ownLanguage? = some language := by
  rw [ruleLanguage?] at h
  rw [ownLanguage?]
  cases hxml : e.data.attribute? xmlLanguageAttribute with
  | some written =>
    rw [hxml] at h
    exact h
  | none =>
    rw [hxml] at h
    dsimp only at h ⊢
    obtain ⟨hhtml, hlang⟩ := Option.ite_none_right_eq_some.1 h
    rw [if_pos (takesLang_iff.2 ((isHtml_iff.1 hhtml).symm.imp_left And.left)), hlang]

/-- An element that is not foreign sets its language by the rule. -/
theorem ruleLanguage?_eq (h : ¬ e.IsForeign) : e.ruleLanguage? = e.ownLanguage? := by
  refine Option.ext fun language => ⟨ownLanguage?_eq_of_rule, fun hown => ?_⟩
  rw [ownLanguage?] at hown
  rw [ruleLanguage?]
  cases hxml : e.data.attribute? xmlLanguageAttribute with
  | some written =>
    rw [hxml] at hown
    exact hown
  | none =>
    rw [hxml] at hown
    dsimp only at hown ⊢
    obtain ⟨htakes, hlang⟩ := Option.ite_none_right_eq_some.1 hown
    have hhtml : e.isHtml = true := by
      refine Bool.of_not_eq_false fun hother => ?_
      rcases takesLang_iff.1 htakes with hdocument | hnamespace
      · exact h ⟨hdocument, hother, hxml⟩
      · exact Bool.noConfusion (hother.symm.trans (isHtml_iff.2 (Or.inl hnamespace)))
    rw [if_pos hhtml, hlang]

/-- The language of an element is inherited from the nearest element that has `xml:lang`, or has
    `lang` and is in the namespace of HTML or anywhere in an HTML document. It is the language by the
    rule unless that element is foreign. -/
theorem inherits_language? (h : t.WellBuilt) (e : Element t) :
    Inherits ownLanguage? e e.language? ∧
      ((∀ nearest, IsNearest ownLanguage? e nearest → ¬ nearest.IsForeign) →
        Inherits ruleLanguage? e e.language?) := by
  have hinherits := inherits_findSome? (Tree.isForest_of_wellBuilt h) ownLanguage? e
  refine ⟨hinherits, fun hforeign => ?_⟩
  show Inherits ruleLanguage? e ((e :: e.ancestors).findSome? ownLanguage?)
  generalize (e :: e.ancestors).findSome? ownLanguage? = language? at hinherits ⊢
  cases hinherits with
  | @found nearest language hnearest hlanguage =>
    have hrule := (ruleLanguage?_eq (hforeign nearest hnearest)).trans hlanguage
    refine Inherits.found ⟨hnearest.above, ?_, fun other hother hsets => ?_⟩ hrule
    · rw [hrule]
      rfl
    · obtain ⟨value, hvalue⟩ := Option.isSome_iff_exists.1 hsets
      refine hnearest.first other hother ?_
      rw [ownLanguage?_eq_of_rule hvalue]
      rfl
  | nothing hnone =>
    refine Inherits.nothing fun upper hupper => ?_
    refine Option.eq_none_iff_forall_ne_some.2 fun value hvalue => ?_
    exact nomatch (hnone upper hupper).symm.trans (ownLanguage?_eq_of_rule hvalue)

end Element

/-! ## A drawing in an HTML document -/

/-- An English page with a drawing that is marked as French, and a paragraph. -/
def drawingNodes : List (NodeId × NodeKind) :=
  [(0, .element { localName := "html", attributes := .ofList [("lang", "en")] }),
    (1, .element { localName := "svg", namespaceUrl := "http://www.w3.org/2000/svg",
                   attributes := .ofList [("lang", "fr")] }),
    (1, .element { localName := "p" })]

/-- The page as a tree. -/
def drawingPage : Tree :=
  ((Tree.empty true).grow? drawingNodes).getD default

private theorem wellBuilt_drawingPage : drawingPage.WellBuilt := by
  have hgrow : (Tree.empty true).grow? drawingNodes = some drawingPage := rfl
  exact Tree.wellBuilt_grow? (Tree.WellBuilt.empty true) hgrow

/-- The drawing. -/
def drawing : Element drawingPage :=
  ⟨2, { localName := "svg", namespaceUrl := "http://www.w3.org/2000/svg",
        attributes := .ofList [("lang", "fr")] }, rfl⟩

/-- The paragraph. -/
def paragraph : Element drawingPage :=
  ⟨3, { localName := "p" }, rfl⟩

open Element

/-- The paragraph is in the language of the page. -/
theorem inherits_language?_paragraph :
    paragraph.language? = some "en" ∧ Inherits ruleLanguage? paragraph paragraph.language? := by
  have hforest := Tree.isForest_of_wellBuilt wellBuilt_drawingPage
  have hall : ∀ upper ∈ paragraph :: paragraph.ancestors, upper.isHtml = true := by
    decide +kernel
  refine ⟨by decide +kernel, (inherits_language? wellBuilt_drawingPage paragraph).2 ?_⟩
  rintro nearest hnearest ⟨-, hother, -⟩
  have hhtml := hall nearest ((mem_cons_ancestors_iff hforest).2 hnearest.above)
  exact Bool.noConfusion (hother.symm.trans hhtml)

/-- By the rule the drawing is in the language of the page, since it is no HTML element. -/
theorem not_inherits_ruleLanguage? :
    drawingPage.WellBuilt ∧ drawing.isHtml = false ∧ drawing.language? = some "fr" ∧
      Inherits ruleLanguage? drawing (some "en") ∧
      ¬ Inherits ruleLanguage? drawing drawing.language? := by
  have hforest := Tree.isForest_of_wellBuilt wellBuilt_drawingPage
  have hlanguage : drawing.language? = some "fr" := by decide +kernel
  have hfound : (drawing :: drawing.ancestors).findSome? ruleLanguage? = some "en" := by
    decide +kernel
  have hrule : Inherits ruleLanguage? drawing (some "en") :=
    hfound ▸ inherits_findSome? hforest ruleLanguage? drawing
  refine ⟨wellBuilt_drawingPage, by decide +kernel, hlanguage, hrule, fun hinherits => ?_⟩
  rw [hlanguage] at hinherits
  exact absurd (hinherits.unique hforest hrule) (by decide)

end Selectors
