import Selectors.Index
import Selectors.Proofs.Grammar.Lists

/-!
# Commas — a list goes on after a comma as if it began there

Every reader that comes to the end of the tokens comes to a comma in the same way: none of them
takes it for a part of what it reads, and the one that reads lists starts afresh behind it. So a
list that can be read leaves nothing behind at the comma that follows it. What the tokens after the
comma come to, be it a list or an error, they come to by themselves.

* **`parseTokens_append_comma`** — a list, a comma, and any tokens.
* **`joined_by_comma`** — selectors, compiled selectors and the index of a list joined by a comma.
-/

namespace Selectors

namespace Grammar

open Reader

variable {ctx : Context} {namespaces : Namespaces} {Inner : List Token → List Selector → Prop}

/-! ## One level of a list -/

/-- After a list that can be read and a comma, reading starts anew. -/
theorem readList_append_comma (hinner : Agrees ctx Inner) {front : List Token}
    {selectors : List Selector} (h : SelectorList ctx.namespaces Inner front selectors)
    (back : List Token) :
    readList ctx (front ++ .comma :: back) = (readList ctx back).map (selectors ++ ·) := by
  induction h with
  | @last gap used gap' selector hgap hused hgap' =>
    exact readList_more hinner hgap hused hgap' back
  | @more gap used gap' rest selector selectors hgap hused hgap' _ ih =>
    rw [List.append_assoc, List.cons_append, readList_more hinner hgap hused hgap', ih]
    cases readList ctx back with
    | error failure => rfl
    | ok more => rfl

/-! ## The whole list -/

/-- What follows a list and a comma is read as if nothing stood before it. -/
theorem parseTokens_append_comma {front : List Token} {selectors : List Selector}
    (h : parseTokens namespaces front = .ok selectors) (back : List Token) :
    parseTokens namespaces (front ++ .comma :: back) =
      (parseTokens namespaces back).map (selectors ++ ·) := by
  rw [parseTokens_eq, parseTokens_eq]
  exact readList_append_comma (agrees_parseInner namespaces) (parsed_iff_selectorList.1 h) back

/-- A text whose tokens are those of two texts with a comma between them compiles to what the first
    text compiles to and then the second one, provided that the first one compiles. -/
theorem compileSelectors_joined {first second joined : String} {selectors : List Selector}
    (h : parseTokens namespaces (tokenize first) = .ok selectors)
    (hjoined : tokenize joined = tokenize first ++ .comma :: tokenize second) :
    compileSelectors namespaces joined =
      (compileSelectors namespaces second).map (selectors.map Selector.compile ++ ·) := by
  simp only [compileSelectors, parseSelectors, hjoined, parseTokens_append_comma h]
  cases parseTokens namespaces (tokenize second) with
  | error failure => rfl
  | ok more => exact congrArg Except.ok (List.map_append ..)

/-- After a list and a comma, tokens that can be read add their selectors to those of the list, and
    tokens that cannot be read fail as they do by themselves. Texts with such tokens compile to the
    compiled selectors of the one part followed by those of the other, and an index takes them
    together as it takes them one after the other. -/
theorem joined_by_comma (namespaces : Namespaces) (front back : List Token)
    (selectors : List Selector) (h : parseTokens namespaces front = .ok selectors) :
    (∀ more, parseTokens namespaces back = .ok more →
        parseTokens namespaces (front ++ .comma :: back) = .ok (selectors ++ more)) ∧
      (∀ failure, parseTokens namespaces back = .error failure →
        parseTokens namespaces (front ++ .comma :: back) = .error failure) ∧
      ∀ first second joined : String, tokenize first = front → tokenize second = back →
        tokenize joined = front ++ .comma :: back →
        ∃ compiled, compileSelectors namespaces first = .ok compiled ∧
          compileSelectors namespaces joined =
            (compileSelectors namespaces second).map (compiled ++ ·) ∧
          ∀ (P : Type) (index : Index Test P) (payload : P) (more : List (CompiledSelector Test)),
            compileSelectors namespaces second = .ok more →
            ∃ all, compileSelectors namespaces joined = .ok all ∧
              index.addAll all payload = (index.addAll compiled payload).addAll more payload := by
  refine ⟨fun more hmore => ?_, fun failure hfailure => ?_, ?_⟩
  · rw [parseTokens_append_comma h, hmore]
    rfl
  · rw [parseTokens_append_comma h, hfailure]
    rfl
  · rintro first second joined rfl rfl hjoined
    have hcompiled : compileSelectors namespaces first =
        .ok (selectors.map Selector.compile) := by
      rw [compileSelectors, parseSelectors, h]
      rfl
    refine ⟨_, hcompiled, compileSelectors_joined h hjoined, fun P index payload more hmore => ?_⟩
    refine ⟨selectors.map Selector.compile ++ more, ?_, index.addAll_append _ more payload⟩
    rw [compileSelectors_joined h hjoined, hmore]
    rfl

/-- The tokens of `p.a`. -/
def paragraphTokens : List Token :=
  [.ident "p", .delim '.', .ident "a"]

/-- Two selectors, and one with nothing after its comma. -/
theorem joined_by_comma_paragraph :
    parseTokens .empty paragraphTokens =
        .ok [⟨.compound [.atom (.typeName "p"), .atom (.className "a")], none⟩] ∧
      parseTokens .empty (paragraphTokens ++ .comma :: [.blank, .ident "q"]) =
        .ok [⟨.compound [.atom (.typeName "p"), .atom (.className "a")], none⟩,
          ⟨.compound [.atom (.typeName "q")], none⟩] ∧
      parseTokens .empty (paragraphTokens ++ .comma :: []) = reject .empty ∧
      compileSelectors .empty "p.a, q" =
        (compileSelectors .empty " q").map
          ([Selector.compile ⟨.compound [.atom (.typeName "p"), .atom (.className "a")], none⟩] ++
            ·) := by
  have hparagraph : parseTokens .empty paragraphTokens =
      .ok [⟨.compound [.atom (.typeName "p"), .atom (.className "a")], none⟩] := by
    with_unfolding_all rfl
  have hquotation : parseTokens .empty [.blank, .ident "q"] =
      .ok [⟨.compound [.atom (.typeName "q")], none⟩] := by
    with_unfolding_all rfl
  have hnothing : parseTokens .empty [] = reject .empty := by
    with_unfolding_all rfl
  obtain ⟨hread, -, hcompile⟩ :=
    joined_by_comma .empty paragraphTokens [.blank, .ident "q"] _ hparagraph
  obtain ⟨-, hfail, -⟩ := joined_by_comma .empty paragraphTokens [] _ hparagraph
  obtain ⟨compiled, hfirst, hjoined, -⟩ := hcompile "p.a" " q" "p.a, q" (by decide +kernel)
    (by decide +kernel) (by decide +kernel)
  have hcompiled : compileSelectors .empty "p.a" =
      .ok [Selector.compile ⟨.compound [.atom (.typeName "p"), .atom (.className "a")], none⟩] := by
    with_unfolding_all rfl
  obtain rfl := Except.ok.inj (hcompiled.symm.trans hfirst)
  exact ⟨hparagraph, hread _ hquotation, hfail _ hnothing, hjoined⟩

end Grammar

end Selectors
