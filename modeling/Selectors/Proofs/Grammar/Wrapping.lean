import Mathlib.Order.Bounds.Defs
import Selectors.Proofs.Grammar.Balance

/-!
# Wrapping — a list between the parentheses of a pseudo-class

The argument of a function is cut out before it is read: parentheses are counted up to the one that
closes it, and what stands before that one is read as a list of its own. So `:is(…)` means what the
list in it means only if the cut comes out where the list ends, and this hangs on the parentheses of
the list alone. A list that can be read has all of them closed, however deep its own functions stand,
and then the count is back at nothing exactly at its end.

* **`parseTokens_wrapped`** — what a list between parentheses comes to, errors included.
* **`parensMatch_and_wraps`** — the parentheses of a list, and which list is wrapped in which
  selector.
-/

namespace Selectors

namespace Grammar

open Reader

/-! ## A list as an argument -/

variable {ctx : Context} {namespaces : Namespaces}

/-- There are four functions that hold a list. -/
theorem exists_mem_listNames {name : String} (h : name ∈ ["is", "matches", "where", "not"]) :
    ∃ make, (name, make) ∈ listNames := by
  simp only [List.mem_cons, List.not_mem_nil, or_false] at h
  rcases h with rfl | rfl | rfl | rfl
  · exact ⟨.isAny, by simp [listNames]⟩
  · exact ⟨.isAny, by simp [listNames]⟩
  · exact ⟨.whereAny, by simp [listNames]⟩
  · exact ⟨.negation, by simp [listNames]⟩

/-- The functions that hold a list read it and make their selector of it. -/
theorem readFunction_of_mem_listNames {name : String} {make : List Complex → Simple}
    (h : (name.toLower, make) ∈ listNames) (arguments : List Token) :
    readFunction ctx name arguments = (ctx.nested arguments).map make := by
  rw [readFunction]
  generalize name.toLower = lower at h
  simp only [listNames, List.mem_cons, Prod.mk.injEq, List.not_mem_nil, or_false] at h
  rcases h with ⟨rfl, rfl⟩ | ⟨rfl, rfl⟩ | ⟨rfl, rfl⟩ | ⟨rfl, rfl⟩
  · rfl
  · rfl
  · rfl
  · rfl

/-- A function that is refused is refused as a condition. -/
theorem readPart_function_of_error {name : String} {inside : List Token} {failure : ParseFailure}
    (hinside : Balanced inside) (h : readFunction ctx name inside = .error failure) :
    readPart ctx (.colon :: .function name :: (inside ++ [.rightParen])) = .error failure := by
  have harguments : readArguments (inside ++ [.rightParen]) = .ok (inside, []) :=
    readArguments_eq_ok_iff.2 ⟨hinside, rfl⟩
  rw [readPart, readPseudo, harguments]
  show (readFunction ctx name inside >>= _) >>= _ = _
  rw [h]
  rfl

/-- A list that starts with a condition after a colon fails where that condition does, since nothing
    has been read before it. -/
theorem readList_colon_of_error {rest : List Token} {failure : ParseFailure}
    (h : readPart ctx (.colon :: rest) = .error failure) :
    readList ctx (.colon :: rest) = .error failure := by
  have hparts : readParts ctx (.colon :: rest) = .error failure := by
    rw [readParts_eq, h]
  have hselector : readSelector ctx (.colon :: rest) = .error failure := by
    simp only [readSelector, readCompound, readType, bind, Except.bind, hparts]
  have hstart : ¬ Ends (.colon :: rest) :=
    not_ends_of_startsPart ⟨_, rfl, Or.inr (by decide)⟩
  have hlist := @readList_of_not_ends ctx [] _ blanks_nil hstart
  rw [hselector] at hlist
  exact hlist

/-- A list between the parentheses of a function comes to the selector that the function makes of
    it, or to the error that the list comes to. -/
theorem parseTokens_wrapped {name : String} {make : List Complex → Simple} {inside : List Token}
    (hmake : (name.toLower, make) ∈ listNames) (hinside : Balanced inside) :
    parseTokens namespaces (.colon :: .function name :: inside ++ [.rightParen]) =
      (parseInner namespaces inside).map fun list => [⟨.compound [make list], none⟩] := by
  cases hlist : parseInner namespaces inside with
  | ok list =>
    have hinner : Parsed namespaces inside (plainSelectors list) :=
      (agrees_parseInner namespaces inside list).1 hlist
    exact parsed_of_condition (Condition.function hinside (Function.list hmake hinner))
      (List.cons_ne_nil _ _)
  | error failure =>
    have hfunction : readFunction ⟨namespaces, parseInner namespaces⟩ name inside =
        .error failure := by
      rw [readFunction_of_mem_listNames hmake]
      show (parseInner namespaces inside).map make = _
      rw [hlist]
      rfl
    rw [parseTokens_eq]
    exact readList_colon_of_error (readPart_function_of_error hinside hfunction)

/-- Selectors are those of a list without pseudo-elements if none of them has one. -/
theorem eq_plainSelectors_iff {selectors : List Selector} {list : List Complex} :
    selectors = plainSelectors list ↔
      (∀ selector ∈ selectors, selector.pseudoElement? = none) ∧
        list = selectors.map Selector.complex := by
  constructor
  · rintro rfl
    refine ⟨fun selector hmem => ?_, ?_⟩
    · obtain ⟨complex, -, rfl⟩ := List.mem_map.1 hmem
      rfl
    · rw [plainSelectors, List.map_map]
      exact (List.map_id list).symm
  · rintro ⟨hplain, rfl⟩
    rw [plainSelectors, List.map_map]
    refine (List.map_id selectors).symm.trans (List.map_congr_left fun selector hmem => ?_)
    obtain ⟨complex, pseudoElement?⟩ := selector
    obtain rfl := hplain _ hmem
    rfl

/-- An inner list is a list in which nothing ends in a pseudo-element. -/
theorem parseInner_eq_ok_iff {tokens : List Token} {list : List Complex} :
    parseInner namespaces tokens = .ok list ↔
      ∃ selectors, parseTokens namespaces tokens = .ok selectors ∧
        (∀ selector ∈ selectors, selector.pseudoElement? = none) ∧
          list = selectors.map Selector.complex := by
  rw [parseInner, bind_eq_ok]
  refine exists_congr fun selectors => and_congr_right fun _ => ?_
  rw [withoutPseudoElements_eq_ok_iff, eq_plainSelectors_iff]

/-! ## Weights -/

/-- What a list without pseudo-elements weighs is the greatest weight of its selectors. -/
theorem isGreatest_greatestSpecificity {selectors : List Selector} (hne : selectors ≠ [])
    (hplain : ∀ selector ∈ selectors, selector.pseudoElement? = none) :
    IsGreatest {weight | ∃ selector ∈ selectors, selector.specificity = weight}
      (greatestSpecificity (selectors.map Selector.complex)) := by
  have hweights : (selectors.map Selector.complex).map Complex.specificity =
      selectors.map Selector.specificity := by
    rw [List.map_map]
    refine List.map_congr_left fun selector hmem => ?_
    rw [Selector.specificity, hplain selector hmem]
    rfl
  rw [greatestSpecificity_eq_maximum, hweights]
  constructor
  · exact List.mem_map.1 (Specificity.maximum_mem fun hnil => hne (List.map_eq_nil_iff.1 hnil))
  · rintro weight ⟨selector, hmem, rfl⟩
    exact Specificity.le_maximum (List.mem_map_of_mem hmem)

/-- A compound of one condition weighs what the condition weighs. -/
theorem specificity_singleton (simple : Simple) :
    Selector.specificity ⟨.compound [simple], none⟩ = simple.specificity := by
  show simple.specificity + 0 = simple.specificity
  rw [Specificity.add_comm, Specificity.zero_add]

/-! ## Wrapping -/

/-- A selector holds a list, under a name: it is one compound of one condition, which holds the
    selectors of the list. None of these has a pseudo-element, and the heaviest of them gives the
    weight, except that under `where` there is none. -/
structure Wraps (name : String) (selectors : List Selector) (wrapped : Selector) : Prop where
  plain : ∀ selector ∈ selectors, selector.pseudoElement? = none
  complex_eq : ∃ make, (name.toLower, make) ∈ listNames ∧
    wrapped.complex = .compound [make (selectors.map Selector.complex)]
  pseudoElement?_eq : wrapped.pseudoElement? = none
  weight_where : name.toLower = "where" → wrapped.specificity = 0
  weight : name.toLower ≠ "where" →
    IsGreatest {weight | ∃ selector ∈ selectors, selector.specificity = weight}
      wrapped.specificity

/-- A list has a selector. -/
theorem SelectorList.ne_nil {Inner : List Token → List Selector → Prop} {tokens : List Token}
    {selectors : List Selector} (h : SelectorList namespaces Inner tokens selectors) :
    selectors ≠ [] := by
  cases h with
  | last => exact nofun
  | more => exact nofun

/-- What a name of the table makes of a list has its weight, or none. -/
theorem wraps_of_mem_listNames {name : String} {make : List Complex → Simple}
    {selectors : List Selector} (hmake : (name.toLower, make) ∈ listNames) (hne : selectors ≠ [])
    (hplain : ∀ selector ∈ selectors, selector.pseudoElement? = none) :
    Wraps name selectors ⟨.compound [make (selectors.map Selector.complex)], none⟩ := by
  have hgreatest := isGreatest_greatestSpecificity hne hplain
  refine ⟨hplain, ⟨make, hmake, rfl⟩, rfl, fun hwhere => ?_, fun hother => ?_⟩
  · rw [hwhere] at hmake
    obtain rfl : make = .whereAny := by simpa [listNames] using hmake
    rw [specificity_singleton]
    rfl
  · rw [specificity_singleton]
    simp only [listNames, List.mem_cons, Prod.mk.injEq, List.not_mem_nil, or_false] at hmake
    rcases hmake with ⟨-, rfl⟩ | ⟨-, rfl⟩ | ⟨-, rfl⟩ | ⟨hwhere, -⟩
    · exact hgreatest
    · exact hgreatest
    · exact hgreatest
    · exact absurd hwhere hother

/-- What can be read as a list has its parentheses closed. Tokens with all parentheses closed are
    read between those of `:is`, `:matches`, `:where` and `:not`, in any letter case, exactly if they
    are read by themselves and no pseudo-element is in them; what is read is then the one selector
    that holds what they are read as. -/
theorem parensMatch_and_wraps (namespaces : Namespaces) (tokens : List Token) :
    (∀ selectors, parseTokens namespaces tokens = .ok selectors → ParensMatch tokens) ∧
      (ParensMatch tokens → ∀ name, name.toLower ∈ ["is", "matches", "where", "not"] →
        ∀ list, parseTokens namespaces (.colon :: .function name :: tokens ++ [.rightParen]) =
            .ok list ↔
          ∃ selectors wrapped, parseTokens namespaces tokens = .ok selectors ∧
            Wraps name selectors wrapped ∧ list = [wrapped]) := by
  constructor
  · intro selectors h
    exact balanced_iff_parensMatch.1 (parsed_iff_selectorList.1 h).balanced
  · intro hmatch name hname list
    have hbalanced := balanced_iff_parensMatch.2 hmatch
    constructor
    · intro h
      -- the four names differ only in the node they make, so they are one case here
      obtain ⟨make, hmake⟩ := exists_mem_listNames hname
      rw [parseTokens_wrapped hmake hbalanced] at h
      obtain ⟨inner, hinner, rfl⟩ := map_eq_ok.1 h
      obtain ⟨selectors, hselectors, hplain, rfl⟩ := parseInner_eq_ok_iff.1 hinner
      exact ⟨selectors, _, hselectors, wraps_of_mem_listNames hmake
        (parsed_iff_selectorList.1 hselectors).ne_nil hplain, rfl⟩
    · rintro ⟨selectors, ⟨complex, pseudoElement?⟩, hselectors, hwraps, rfl⟩
      obtain ⟨make, hmake, rfl⟩ := hwraps.complex_eq
      obtain rfl := hwraps.pseudoElement?_eq
      rw [parseTokens_wrapped hmake hbalanced]
      exact map_eq_ok.2 ⟨_, parseInner_eq_ok_iff.2 ⟨selectors, hselectors, hwraps.plain, rfl⟩, rfl⟩

/-- The tokens of `.a, #b`. -/
def classOrIdTokens : List Token :=
  [.delim '.', .ident "a", .comma, .blank, .hash "b" true]

/-- What these tokens are read as. -/
def classOrId : List Selector :=
  [⟨.compound [.atom (.className "a")], none⟩, ⟨.compound [.atom (.id "b")], none⟩]

/-- A list of two, wrapped under a name in another letter case. -/
theorem parensMatch_and_wraps_classOrId :
    parseTokens .empty classOrIdTokens = .ok classOrId ∧ ParensMatch classOrIdTokens ∧
      "Not".toLower ∈ ["is", "matches", "where", "not"] ∧
      ∃ wrapped,
        parseTokens .empty (.colon :: .function "Not" :: classOrIdTokens ++ [.rightParen]) =
            .ok [wrapped] ∧
          Wraps "Not" classOrId wrapped := by
  have hparse : parseTokens .empty classOrIdTokens = .ok classOrId := by
    with_unfolding_all rfl
  obtain ⟨hmatch, hwraps⟩ := parensMatch_and_wraps .empty classOrIdTokens
  have hname : "Not".toLower ∈ ["is", "matches", "where", "not"] := by decide +kernel
  have hwrapped : parseTokens .empty
      (.colon :: .function "Not" :: classOrIdTokens ++ [.rightParen]) =
        .ok [⟨.compound [.negation (classOrId.map Selector.complex)], none⟩] := by
    with_unfolding_all rfl
  obtain ⟨selectors, wrapped, hselectors, hholds, heq⟩ :=
    (hwraps (hmatch _ hparse) "Not" hname _).1 hwrapped
  obtain rfl : classOrId = selectors := Except.ok.inj (hparse.symm.trans hselectors)
  exact ⟨hparse, hmatch _ hparse, hname, wrapped, heq ▸ hwrapped, hholds⟩

end Grammar

end Selectors
