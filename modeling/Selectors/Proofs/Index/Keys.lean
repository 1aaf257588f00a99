import Mathlib.Data.List.Nodup
import Selectors.Index

/-!
# Keys are necessary — what a passed test says about the keys

An index leaves out a selector without evaluating its test if the element does not have what the
keys of the selector ask for. That is right only if a test that accepts an element implies every
key. Here the keys of a selector are followed back to the subject compound that they are read off:
every simple selector of the subject holds of an accepted element, and each key is the last one of
its kind among them.

* **`Keys.Met`** — the facts of an element have what every key asks for.
* **`keys_met_of_accepts`** — the keys of a selector are met by every element that it accepts.
* **`keys_met_of_compileSelectors`** — and so are those of whatever a text compiles to.
* **`bucket_mem_buckets`** — and then the element asks for the bucket of the selector.
-/

namespace Selectors

/-! ## What the keys ask for -/

/-- The facts of an element have what every key asks for. -/
structure Keys.Met (keys : Keys) (facts : Facts) : Prop where
  id : ∀ name, keys.id? = some name → facts.id? = some name
  className : ∀ name, keys.className? = some name → name ∈ facts.classes
  localName : ∀ name, keys.localName? = some name → keys.lowerLocalName? = some name.toLower
  lowerLocalName : ∀ name, keys.lowerLocalName? = some name → facts.localName.toLower = name
  namespaceUrl : ∀ url, keys.namespaceUrl? = some url → facts.namespaceUrl = url
  needsLang : keys.needsLang = true → facts.hasLang = true

/-- Without keys nothing is asked for. -/
theorem met_empty (facts : Facts) : Keys.Met {} facts where
  id := nofun
  className := nofun
  localName := nofun
  lowerLocalName := nofun
  namespaceUrl := nofun
  needsLang := nofun

/-! ## From the subject to the keys -/

section Accepts

variable {t : Tree} {e : Element t}

/-- Every simple selector of the subject holds of an element that the selector accepts. -/
theorem accepts_of_mem_subject {complex : Complex} (h : complex.test.accepts e = true) :
    ∀ simple ∈ complex.subject, simple.test.accepts e = true := by
  have hcompound : ∀ simples : List Simple,
      (Test.allOf (compoundTests simples)).accepts e = true →
      ∀ simple ∈ simples, simple.test.accepts e = true := by
    intro simples hall simple hmem
    rw [Test.accepts_allOf, compoundTests_eq_map, List.all_map] at hall
    exact List.all_eq_true.1 hall simple hmem
  cases complex with
  | compound simples => exact hcompound simples h
  | relative left combinator simples =>
    rw [Complex.test, Test.accepts_joined] at h
    exact hcompound simples ((Bool.and_eq_true_iff.1 h).1)

/-- Both ways of comparing a name agree with the comparison of lowered names. -/
theorem toLower_eq_of_accepts_typeName {name : String}
    (h : (Atom.typeName name).accepts e = true) : e.data.localName.toLower = name.toLower := by
  have heq : e.data.localName = nameIn t.isHtml name := beq_iff_eq.1 h
  rw [heq]
  unfold nameIn
  split
  · exact toLower_toLower name
  · rfl

/-- An attribute test named `lang` without a namespace looks at the attribute `lang`. -/
theorem hasLang_of_accepts {test : AttributeTest} (hname : test.name = "lang")
    (hscope : test.scope = .none) (h : (Atom.attribute test).test.accepts e = true) :
    e.hasLang = true := by
  have haccepts : test.accepts t.isHtml e.data = true := by
    rw [Atom.test] at h
    split at h
    · exact absurd h (by simp [Test.accepts])
    · exact h
  have hlang : nameIn t.isHtml "lang" = "lang" := by
    cases t.isHtml <;> decide +kernel
  have hvalue : test.value? t.isHtml e.data = e.data.attribute? "lang" := by
    rw [AttributeTest.value?, hscope, hname, hlang]
  unfold AttributeTest.accepts at haccepts
  rw [hvalue] at haccepts
  show (e.data.attribute? "lang").isSome = true
  cases hattr : e.data.attribute? "lang" with
  | some value => rfl
  | none =>
    rw [hattr] at haccepts
    exact absurd haccepts Bool.false_ne_true

/-- One more simple selector that holds keeps the keys met. -/
theorem met_refine {keys : Keys} {simple : Simple} (hkeys : keys.Met e.facts)
    (h : simple.test.accepts e = true) : (keys.refine simple).Met e.facts := by
  -- a selector list inside sets no key, so only the atoms have something to show
  cases simple with
  | negation list => exact hkeys
  | isAny list => exact hkeys
  | whereAny list => exact hkeys
  | atom a =>
    match a with
    | .pseudoClass _ => exact hkeys
    | .id name =>
      refine { hkeys with id := ?_ }
      rintro _ ⟨⟩
      exact beq_iff_eq.1 (show (e.data.id? == some name) = true from h)
    | .className name =>
      refine { hkeys with className := ?_ }
      rintro _ ⟨⟩
      exact List.contains_iff_mem.1 (show e.data.classes.contains name = true from h)
    | .inNamespace url =>
      refine { hkeys with namespaceUrl := ?_ }
      rintro _ ⟨⟩
      exact beq_iff_eq.1 (show (e.data.namespaceUrl == url) = true from h)
    | .typeName name =>
      refine { hkeys with localName := ?_, lowerLocalName := ?_ }
      · rintro _ ⟨⟩
        rfl
      · rintro _ ⟨⟩
        exact toLower_eq_of_accepts_typeName h
    | .attribute test =>
      show (if test.name == "lang" && test.scope == .none then { keys with needsLang := true }
        else keys).Met e.facts
      split
      · next hlang =>
        rw [Bool.and_eq_true, beq_iff_eq, beq_iff_eq] at hlang
        exact { hkeys with needsLang := fun _ => hasLang_of_accepts hlang.1 hlang.2 h }
      · exact hkeys

/-- The keys of a selector are met by every element that its test accepts. -/
theorem keys_met_of_accepts {complex : Complex} (h : complex.test.accepts e = true) :
    complex.keys.Met e.facts := by
  have hrun : ∀ (simples : List Simple) (keys : Keys), keys.Met e.facts →
      (∀ simple ∈ simples, simple.test.accepts e = true) →
      (simples.foldl Keys.refine keys).Met e.facts := by
    intro simples
    induction simples with
    | nil => intro keys hkeys _; exact hkeys
    | cons simple rest ih =>
      intro keys hkeys hall
      refine ih _ (met_refine hkeys (hall simple List.mem_cons_self)) ?_
      intro s hs
      exact hall s (List.mem_cons_of_mem _ hs)
  exact hrun complex.subject {} (met_empty e.facts) (accepts_of_mem_subject h)

end Accepts

/-! ## The keys of a text -/

/-- What a text compiles to are the compiled forms of selectors. -/
theorem exists_selector_of_compileSelectors {namespaces : Namespaces} {text : String}
    {selectors : List (CompiledSelector Test)}
    (h : compileSelectors namespaces text = .ok selectors) :
    ∀ compiled ∈ selectors, ∃ selector : Selector, compiled = selector.compile := by
  obtain ⟨parsed, -, rfl⟩ := Reader.map_eq_ok.1 h
  intro compiled hcompiled
  obtain ⟨selector, -, rfl⟩ := List.mem_map.1 hcompiled
  exact ⟨selector, rfl⟩

/-- Every key of a compiled selector is necessary, whichever of them an index goes by: an element of
    any tree that the test accepts meets them all. -/
theorem keys_met_of_compileSelectors {namespaces : Namespaces} {text : String}
    {selectors : List (CompiledSelector Test)}
    (hcompiles : compileSelectors namespaces text = .ok selectors)
    {compiled : CompiledSelector Test} (hmem : compiled ∈ selectors) {t : Tree} {e : Element t}
    (haccepts : compiled.test.accepts e = true) : compiled.keys.Met e.facts := by
  obtain ⟨selector, rfl⟩ := exists_selector_of_compileSelectors hcompiles compiled hmem
  exact keys_met_of_accepts haccepts

/-- What a link of a drawing is. -/
def linkData : ElementData where
  localName := "a"
  namespaceUrl := "urn:drawing"
  attributes := .ofList [("class", "item last"), ("id", "one"), ("lang", "")]

/-- An HTML document that consists of the link. -/
def linkTree : Tree :=
  (((Tree.empty true).appendNew? 0 (.element linkData)).map Prod.snd).getD default

/-- A selector that has every key, two classes among them and the name in upper case. -/
def linkSelector : Selector :=
  ⟨.compound [.atom (.typeName "A"), .atom (.inNamespace "urn:drawing"), .atom (.className "last"),
    .atom (.className "item"), .atom (.id "one"), .atom (.attribute ⟨.none, "lang", none⟩)], none⟩

/-- The link meets all keys of a selector that matches it. -/
theorem keys_met_link :
    linkSelector.compile.keys =
        ⟨some "one", some "item", some "A", some "a", some "urn:drawing", true⟩ ∧
      linkSelector.compile.keys.Met (⟨1, linkData, rfl⟩ : Element linkTree).facts := by
  have hcompiles : compileSelectors (Namespaces.empty.declare "d" "urn:drawing")
      "p, d|A.last.item#one[lang]" =
        .ok [Selector.compile ⟨.compound [.atom (.typeName "p")], none⟩, linkSelector.compile] := by
    with_unfolding_all rfl
  have haccepts :
      linkSelector.compile.test.accepts (⟨1, linkData, rfl⟩ : Element linkTree) = true := by
    decide +kernel
  exact ⟨by decide +kernel,
    keys_met_of_compileSelectors hcompiles (List.mem_cons_of_mem _ List.mem_cons_self) haccepts⟩

/-! ## The buckets that an element asks for -/

/-- What a bucket asks for of the elements that look into it. -/
def BucketKey.Fits (facts : Facts) : BucketKey → Prop
  | .id name => facts.id? = some name
  | .className name => name ∈ facts.classes
  | .localName name => facts.localName.toLower = name
  | .namespaceUrl url => facts.namespaceUrl = url
  | .lang => facts.hasLang = true
  | .other => True

/-- An element asks exactly for the buckets that fit it. -/
theorem mem_buckets_iff {facts : Facts} {key : BucketKey} :
    key ∈ facts.buckets ↔ key.Fits facts := by
  have hlang : ∀ k : BucketKey, k ∈ (if facts.hasLang then [BucketKey.lang] else []) ↔
      k = .lang ∧ facts.hasLang = true := by
    intro k
    cases facts.hasLang <;> simp
  simp only [Facts.buckets, List.mem_append, hlang, List.mem_map, Option.mem_toList]
  cases key with
  | lang => simp [BucketKey.Fits]
  | other => simp [BucketKey.Fits]
  | id name => simp [BucketKey.Fits]
  | className name => simp [BucketKey.Fits]
  | localName name => simp [BucketKey.Fits, @eq_comm _ name]
  | namespaceUrl url => simp [BucketKey.Fits, @eq_comm _ url]

/-- An element asks for the bucket of every selector whose keys it meets. -/
theorem bucket_mem_buckets {keys : Keys} {facts : Facts} (h : keys.Met facts) :
    keys.bucket ∈ facts.buckets := by
  rw [mem_buckets_iff]
  unfold Keys.bucket
  split
  case h_1 name hid => exact h.id name hid
  case h_2 name _ hclass => exact h.className name hclass
  case h_3 name _ _ hname =>
    rw [h.localName name hname]
    exact h.lowerLocalName _ (h.localName name hname)
  case h_4 url _ _ _ hurl => exact h.namespaceUrl url hurl
  case h_5 hlang => exact h.needsLang hlang
  case h_6 => exact trivial

/-- No class is listed twice. -/
theorem nodup_eraseDups {α : Type} [BEq α] [LawfulBEq α] (l : List α) : l.eraseDups.Nodup := by
  induction hn : l.length using Nat.strongRecOn generalizing l with
  | ind n ih =>
    cases l with
    | nil => simp
    | cons a rest =>
      rw [List.eraseDups_cons, List.nodup_cons]
      refine ⟨by simp, ih _ ?_ _ rfl⟩
      have := List.length_filter_le (fun b => !b == a) rest
      rw [← hn, List.length_cons]
      omega

/-- An element has each class once. -/
theorem nodup_classes (data : ElementData) : data.classes.Nodup := by
  unfold ElementData.classes
  split
  · exact nodup_eraseDups _
  · exact List.nodup_nil

/-- No bucket is asked for twice by an element whose classes are distinct. -/
theorem nodup_buckets {facts : Facts} (h : facts.classes.Nodup) : facts.buckets.Nodup := by
  have hclasses : (facts.classes.map BucketKey.className).Nodup :=
    h.map fun _ _ heq => BucketKey.className.inj heq
  unfold Facts.buckets
  cases facts.id? <;> cases facts.hasLang <;>
    simp [List.nodup_append, hclasses]

end Selectors
