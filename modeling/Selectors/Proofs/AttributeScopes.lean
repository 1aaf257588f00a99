import Mathlib.Data.List.TakeWhile
import Selectors.Test.Accepts
import Selectors.Test.Basic

/-!
# Scopes of attributes — a name without, in a given, or in any namespace

Attributes are kept under their full names, in which the URL of a namespace stands in braces in front
of the local name. An attribute without a namespace and one in a given namespace are looked up under
one full name. For any namespace the local parts of all names are compared, each with the name of the
selector as it is written and with that name in lower case, in every document.

So the test for any namespace is the union of the tests for none and for each one if the name is in
lower case. For other names it also accepts what the name in lower case would, and the union is a
part of it only.

The order in which an element has its attributes is seen by one test only: the one that compares the
value of an attribute in any namespace, and that one only where attributes of several namespaces have
the local name and different values.

* **`ElementData.IsClark`** — every attribute has a full name.
* **`AttributeTest.accepts_eq_of_perm`** — the tests that do not see the order of the attributes.
* **`accepts_any_iff_union`** — the test for any namespace and the union of the others.
* **`not_inUnion_of_accepts_any`** — in a document that is not HTML a name in capital letters is found
  by an attribute in small ones.
-/

namespace Selectors

/-! ## Full names -/

/-- The name has no braces. -/
def IsLocal (name : String) : Prop :=
  ∀ c ∈ name.toList, c ≠ '\x7b' ∧ c ≠ '\x7d'

/-- The full name of an attribute in a namespace. -/
def clark (url name : String) : String :=
  "\x7b" ++ url ++ "\x7d" ++ name

/-- Every attribute has a local name as its full name, or one after the URL of a namespace. -/
def ElementData.IsClark (data : ElementData) : Prop :=
  ∀ entry ∈ data.attributes.entries,
    IsLocal entry.1 ∨ ∃ url name, IsLocal name ∧ entry.1 = clark url name

private theorem bne_of_isLocal {name : String} (h : IsLocal name) :
    ∀ c ∈ name.toList.reverse, (c != '\x7d') = true := fun c hc =>
  bne_iff_ne.2 (h c (List.mem_reverse.1 hc)).2

/-- A local name is its own local part. -/
theorem localPart_of_isLocal {name : String} (h : IsLocal name) : localPart name = name := by
  have htake := List.takeWhile_eq_self_iff.2 (bne_of_isLocal h)
  rw [localPart, htake, List.reverse_reverse, String.ofList_toList]

/-- The local part of a full name is the name after the URL. -/
theorem localPart_clark {name : String} (h : IsLocal name) (url : String) :
    localPart (clark url name) = name := by
  have hreverse : (clark url name).toList.reverse =
      name.toList.reverse ++ '\x7d' :: ("\x7b" ++ url).toList.reverse := by
    simp [clark]
  rw [localPart, hreverse, List.takeWhile_append_of_pos (bne_of_isLocal h),
    List.takeWhile_cons_of_neg (by decide), List.append_nil, List.reverse_reverse,
    String.ofList_toList]

/-- Braces have no case. -/
theorem isLocal_toLower {name : String} : IsLocal name.toLower ↔ IsLocal name := by
  have hbrace : ∀ c : Char, (c.toLower ≠ '\x7b' ∧ c.toLower ≠ '\x7d') ↔ c ≠ '\x7b' ∧ c ≠ '\x7d' :=
    fun c => and_congr (not_congr (toLower_eq_iff rfl)) (not_congr (toLower_eq_iff rfl))
  rw [IsLocal, toList_toLower]
  constructor
  · intro h c hc
    exact (hbrace c).1 (h _ (List.mem_map_of_mem hc))
  · intro h c hc
    obtain ⟨d, hd, rfl⟩ := List.mem_map.1 hc
    exact (hbrace d).2 (h d hd)

/-! ## The order of the attributes -/

/-- All attributes that fit the test have one value. -/
def AttributeTest.Settles (test : AttributeTest) (data : ElementData) : Prop :=
  ∀ entry ∈ data.attributes.entries, ∀ other ∈ data.attributes.entries,
    test.fits entry.1 = true → test.fits other.1 = true → entry.2 = other.2

section Order

variable {test : AttributeTest} {data data' : ElementData}

/-- Whether there is an attribute to look at does not depend on the order. -/
theorem AttributeTest.isSome_value?_of_perm (test : AttributeTest) (isHtml : Bool)
    (hperm : data.attributes.entries.Perm data'.attributes.entries) :
    (test.value? isHtml data).isSome = (test.value? isHtml data').isSome := by
  obtain ⟨scope, name, expected?⟩ := test
  cases scope with
  | none => exact congrArg Option.isSome (NameMap.get?_eq_of_perm hperm _)
  | url url => exact congrArg Option.isSome (NameMap.get?_eq_of_perm hperm _)
  | any =>
    show ((List.find? _ _).map Prod.snd).isSome = ((List.find? _ _).map Prod.snd).isSome
    rw [Option.isSome_map, Option.isSome_map, Bool.eq_iff_iff, List.find?_isSome, List.find?_isSome]
    exact exists_congr fun _ => and_congr_left fun _ => hperm.mem_iff

/-- For any namespace the value is that of an attribute that fits. -/
theorem AttributeTest.exists_fits_of_value? {isHtml : Bool} {value : String}
    (hscope : test.scope = .any)
    (hvalue : test.value? isHtml data = some value) :
    ∃ entry ∈ data.attributes.entries, test.fits entry.1 = true ∧ entry.2 = value := by
  rw [value?, hscope] at hvalue
  obtain ⟨entry, hfirst, hentry⟩ := Option.map_eq_some_iff.1 hvalue
  have hfits := List.find?_some hfirst
  exact ⟨entry, List.mem_of_find?_eq_some hfirst, hfits, hentry⟩

/-- The value that is looked at does not depend on the order where all that fits has one value. -/
theorem AttributeTest.value?_eq_of_perm (isHtml : Bool)
    (hperm : data.attributes.entries.Perm data'.attributes.entries)
    (hsettles : test.scope = .any → test.Settles data) :
    test.value? isHtml data = test.value? isHtml data' := by
  have hsome := isSome_value?_of_perm test isHtml hperm
  cases hscope : test.scope with
  | none =>
    rw [value?, value?, hscope]
    exact NameMap.get?_eq_of_perm hperm _
  | url url =>
    rw [value?, value?, hscope]
    exact NameMap.get?_eq_of_perm hperm _
  | any =>
    cases hvalue : test.value? isHtml data with
    | none =>
      rw [hvalue] at hsome
      exact (Option.isSome_eq_false_iff.1 hsome.symm |> Option.isNone_iff_eq_none.1).symm
    | some value =>
      rw [hvalue] at hsome
      obtain ⟨value', hvalue'⟩ := Option.isSome_iff_exists.1 hsome.symm
      -- each order finds some attribute that fits, and all of these have one value
      obtain ⟨entry, hmem, hfits, rfl⟩ := exists_fits_of_value? hscope hvalue
      obtain ⟨entry', hmem', hfits', rfl⟩ := exists_fits_of_value? hscope hvalue'
      rw [hvalue', hsettles hscope entry hmem entry' (hperm.mem_iff.2 hmem') hfits hfits']

/-- The order of the attributes matters to no test for one name and to no test for presence. To a
    test that compares a value in any namespace it does not matter where all that fits has one
    value. -/
theorem AttributeTest.accepts_eq_of_perm (isHtml : Bool)
    (hperm : data.attributes.entries.Perm data'.attributes.entries)
    (hsettles : test.scope = .any → test.expected?.isSome = true → test.Settles data) :
    test.accepts isHtml data = test.accepts isHtml data' := by
  cases hexpected : test.expected? with
  | none =>
    have hsome := isSome_value?_of_perm test isHtml hperm
    have haccepts : ∀ data, test.accepts isHtml data = (test.value? isHtml data).isSome := by
      intro data
      rw [accepts, hexpected]
      cases test.value? isHtml data with
      | none => rfl
      | some value => rfl
    rw [haccepts, haccepts, hsome]
  | some expected =>
    have hvalue := value?_eq_of_perm isHtml hperm fun hany =>
      hsettles hany (by rw [hexpected]; rfl)
    rw [accepts, accepts, hvalue]

end Order

/-- With two values for one local name the answer is that of the attribute that stands first. -/
example :
    (⟨.any, "a", some (.equals, "x")⟩ : AttributeTest).accepts true
        { localName := "p", attributes := ⟨[("a", "x"), ("\x7bu\x7da", "y")], by simp⟩ } = true ∧
      (⟨.any, "a", some (.equals, "x")⟩ : AttributeTest).accepts true
        { localName := "p", attributes := ⟨[("\x7bu\x7da", "y"), ("a", "x")], by simp⟩ } = false := by
  decide +kernel

/-! ## Presence -/

/-- The selector of the elements with an attribute. -/
def presence (scope : AttributeScope) (name : String) : Complex :=
  .compound [.atom (.attribute ⟨scope, name, none⟩)]

variable {t : Tree} {e : Element t}

/-- The test for presence passes if there is a value to look at. -/
theorem accepts_presence {scope : AttributeScope} {name : String} :
    (presence scope name).test.accepts e = true ↔
      ((⟨scope, name, none⟩ : AttributeTest).value? t.isHtml e.data).isSome = true := by
  show (AttributeTest.accepts _ t.isHtml e.data) = true ↔ _
  rw [AttributeTest.accepts.eq_def]
  generalize AttributeTest.value? _ _ _ = value?
  cases value? with
  | none => exact Iff.rfl
  | some value => exact Iff.rfl

/-- Without a namespace the attribute is looked up under its name, in the letter case of the
    document. -/
theorem accepts_none_iff {name : String} :
    (presence .none name).test.accepts e = true ↔ e.has (nameIn t.isHtml name) = true :=
  accepts_presence

/-- In a given namespace the attribute is looked up under its full name as written. -/
theorem accepts_url_iff {url name : String} :
    (presence (.url url) name).test.accepts e = true ↔ e.has (clark url name) = true :=
  accepts_presence

/-- In any namespace all local parts are compared with both spellings of the name. -/
theorem accepts_any_iff {name : String} :
    (presence .any name).test.accepts e = true ↔
      ∃ entry ∈ e.data.attributes.entries,
        localPart entry.1 = name ∨ localPart entry.1 = name.toLower := by
  refine accepts_presence.trans ?_
  show ((List.find? _ e.data.attributes.entries).map Prod.snd).isSome = true ↔ _
  rw [Option.isSome_map, List.find?_isSome]
  simp only [AttributeTest.fits, Bool.or_eq_true, beq_iff_eq]

/-- There is an attribute with a local name, in a namespace or in none. -/
def Element.hasLocal (e : Element t) (name : String) : Prop :=
  e.has name = true ∨ ∃ url, e.has (clark url name) = true

/-- The local part of an attribute is a local name that the element has. -/
theorem hasLocal_of_mem (hclark : e.data.IsClark) {entry : String × String}
    (hmem : entry ∈ e.data.attributes.entries) :
    IsLocal (localPart entry.1) ∧ e.hasLocal (localPart entry.1) := by
  have hhas : e.has entry.1 = true := NameMap.isSome_get?_iff.2 ⟨entry, hmem, rfl⟩
  rcases hclark entry hmem with hlocal | ⟨url, name, hlocal, hname⟩
  · rw [localPart_of_isLocal hlocal]
    exact ⟨hlocal, Or.inl hhas⟩
  · rw [hname] at hhas ⊢
    rw [localPart_clark hlocal]
    exact ⟨hlocal, Or.inr ⟨url, hhas⟩⟩

/-- A local name that the element has is the local part of one of its attributes. -/
theorem exists_mem_of_hasLocal {name : String} (hlocal : IsLocal name) (h : e.hasLocal name) :
    ∃ entry ∈ e.data.attributes.entries, localPart entry.1 = name := by
  rcases h with h | ⟨url, h⟩
  · obtain ⟨entry, hmem, hname⟩ := NameMap.isSome_get?_iff.1 h
    exact ⟨entry, hmem, by rw [hname, localPart_of_isLocal hlocal]⟩
  · obtain ⟨entry, hmem, hname⟩ := NameMap.isSome_get?_iff.1 h
    exact ⟨entry, hmem, by rw [hname, localPart_clark hlocal]⟩

/-- The test for any namespace finds the name in either spelling. -/
theorem accepts_any_iff_hasLocal (hclark : e.data.IsClark) {name : String} :
    (presence .any name).test.accepts e = true ↔
      IsLocal name ∧ (e.hasLocal name ∨ e.hasLocal name.toLower) := by
  rw [accepts_any_iff]
  constructor
  · rintro ⟨entry, hmem, hname | hname⟩
    · obtain ⟨hlocal, hhas⟩ := hasLocal_of_mem hclark hmem
      rw [hname] at hlocal hhas
      exact ⟨hlocal, Or.inl hhas⟩
    · obtain ⟨hlocal, hhas⟩ := hasLocal_of_mem hclark hmem
      rw [hname] at hlocal hhas
      exact ⟨isLocal_toLower.1 hlocal, Or.inr hhas⟩
  · rintro ⟨hlocal, hhas | hhas⟩
    · obtain ⟨entry, hmem, hname⟩ := exists_mem_of_hasLocal hlocal hhas
      exact ⟨entry, hmem, Or.inl hname⟩
    · obtain ⟨entry, hmem, hname⟩ := exists_mem_of_hasLocal (isLocal_toLower.2 hlocal) hhas
      exact ⟨entry, hmem, Or.inr hname⟩

/-- The element is accepted by the test for no namespace or by the one for some namespace. -/
def Element.InUnion (e : Element t) (name : String) : Prop :=
  (presence .none name).test.accepts e = true ∨
    ∃ url, (presence (.url url) name).test.accepts e = true

/-- What the tests for one namespace accept has the local name, as written or in lower case. -/
theorem hasLocal_of_inUnion {name : String} (h : e.InUnion name) :
    e.hasLocal name ∨ e.hasLocal name.toLower := by
  rcases h with hnone | ⟨url, hurl⟩
  · have hhas := accepts_none_iff.1 hnone
    rw [nameIn] at hhas
    split at hhas
    · exact Or.inr (Or.inl hhas)
    · exact Or.inl (Or.inl hhas)
  · exact Or.inl (Or.inr ⟨url, accepts_url_iff.1 hurl⟩)

/-- Where the document does not change the name, the union is the local name. -/
theorem inUnion_iff_hasLocal {name : String} (hname : nameIn t.isHtml name = name) :
    e.InUnion name ↔ e.hasLocal name := by
  rw [Element.InUnion, accepts_none_iff, hname]
  exact or_congr_right (exists_congr fun _ => accepts_url_iff)

/-- The test for any namespace finds attributes of the local name as it is written or in lower case.
    It accepts all elements of the union, and no others if the name is in lower case; in a document
    that is not HTML it accepts those of the union for the name in lower case as well. -/
theorem accepts_any_iff_union (e : Element t) (hclark : e.data.IsClark) (name : String) :
    ((presence .any name).test.accepts e = true ↔
        IsLocal name ∧ (e.hasLocal name ∨ e.hasLocal name.toLower)) ∧
      (IsLocal name → e.InUnion name → (presence .any name).test.accepts e = true) ∧
      (IsLocal name → name.toLower = name →
        ((presence .any name).test.accepts e = true ↔ e.InUnion name)) ∧
      (IsLocal name → t.isHtml = false →
        ((presence .any name).test.accepts e = true ↔
          e.InUnion name ∨ e.InUnion name.toLower)) := by
  have hany := @accepts_any_iff_hasLocal t e hclark name
  refine ⟨hany, fun hlocal hunion => ?_, fun hlocal hlower => ?_, fun hlocal hxml => ?_⟩
  · exact hany.2 ⟨hlocal, hasLocal_of_inUnion hunion⟩
  -- a name in lower case is the same in every document
  · have hname : nameIn t.isHtml name = name := by
      rw [nameIn, hlower, ite_self]
    rw [hany, hlower, or_self, inUnion_iff_hasLocal hname]
    exact and_iff_right hlocal
  · have hname : ∀ written, nameIn t.isHtml written = written := fun _ => by
      rw [nameIn, hxml]
      rfl
    rw [hany, inUnion_iff_hasLocal (hname name), inUnion_iff_hasLocal (hname name.toLower)]
    exact and_iff_right hlocal

/-! ## A name in capital letters -/

/-- A link in a document that is not HTML. -/
def hrefData : ElementData :=
  { localName := "a", attributes := ⟨[("href", "x")], by simp⟩ }

/-- The document of the link. -/
def hrefTree : Tree :=
  ⟨#[{ kind := .document, children := #[1] }, { kind := .element hrefData, parent? := some 0 }],
    false⟩

/-- The link. -/
def hrefElement : Element hrefTree :=
  ⟨1, hrefData, rfl⟩

private theorem isLocal_href : IsLocal "href" := by
  simp [IsLocal]

private theorem isClark_hrefData : hrefData.IsClark := by
  intro entry hentry
  obtain rfl := List.mem_singleton.1 hentry
  exact Or.inl isLocal_href

/-- The attribute is without a namespace, so the test for any namespace accepts the link. -/
theorem accepts_any_iff_union_href :
    hrefElement.InUnion "href" ∧ (presence .any "href").test.accepts hrefElement = true := by
  have hunion : hrefElement.InUnion "href" := Or.inl (by decide +kernel)
  exact ⟨hunion, (accepts_any_iff_union hrefElement isClark_hrefData "href").2.1 isLocal_href hunion⟩

/-- In a document that is not HTML the test for `HREF` in any namespace accepts a link with `href`,
    which the tests for `HREF` in none and in each namespace do not accept. -/
theorem not_inUnion_of_accepts_any :
    hrefTree.isHtml = false ∧ hrefElement.data.IsClark ∧
      (presence .any "HREF").test.accepts hrefElement = true ∧ ¬ hrefElement.InUnion "HREF" := by
  refine ⟨rfl, isClark_hrefData, by decide +kernel, ?_⟩
  rintro (hnone | ⟨url, hurl⟩)
  · exact absurd hnone (by decide +kernel)
  · obtain ⟨entry, hmem, hname⟩ := NameMap.isSome_get?_iff.1 (accepts_url_iff.1 hurl)
    obtain rfl := List.mem_singleton.1 hmem
    have hchars := congrArg String.toList hname
    simp [clark] at hchars

end Selectors
