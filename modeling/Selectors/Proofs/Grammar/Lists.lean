import Selectors.Proofs.Grammar.Compounds

/-!
# Selector lists — the parser accepts its grammar

The parser reads the lists between parentheses with itself. Taking for the inner relation what the
parser accepts, the readers agree with the rules without any induction on how deep lists stand in
lists; so what the parser accepts satisfies the equation that `Grammar.Derives` is made of. Inner
lists are shorter than the list that they stand in, and so the equation has one solution.

* **`readList_eq_ok_iff`** — one level of a list.
* **`SelectorList.mono`** — the rules ask for the inner relation on shorter tokens only.
* **`parseTokens_eq_ok_iff`** — the parser accepts what the grammar derives, with the same list.
-/

namespace Selectors

namespace Grammar

open Reader

variable {ctx : Context} {namespaces : Namespaces} {Inner Inner' : List Token → List Selector → Prop}

/-! ## One level of a list -/

/-- A list is read from its first selector on if it starts with neither its end nor a comma. -/
theorem readList_of_not_ends {front tokens : List Token} (hfront : Blanks front)
    (h : ¬ Ends tokens) :
    readList ctx (front ++ tokens) =
      match readSelector ctx tokens with
      | .error failure => .error failure
      | .ok (selector, []) => .ok [selector]
      | .ok (selector, .comma :: rest) => (readList ctx rest).map (selector :: ·)
      | .ok (_, rest) => refuse rest .comma := by
  rw [readList_eq, skipBlanks_append hfront, skipBlanks_of_not_ends h]
  cases tokens with
  | nil => exact absurd ends_nil h
  | cons first others =>
    split
    · next heq => exact nomatch heq
    · next heq =>
      obtain ⟨rfl, -⟩ := List.cons.inj heq
      refine absurd ?_ h
      rintro token ⟨⟩
      decide
    · next heq =>
      obtain ⟨rfl, rfl⟩ := List.cons.inj heq
      rfl

/-- What is read as a list is one. -/
theorem selectorList_of_readList (hinner : Agrees ctx Inner) {selectors : List Selector}
    (tokens : List Token) (h : readList ctx tokens = .ok selectors) :
    SelectorList ctx.namespaces Inner tokens selectors := by
  obtain ⟨front, hfront, htokens⟩ := exists_blanks tokens
  rw [readList_eq] at h
  split at h
  · exact absurd h reject_ne_ok
  · exact absurd h reject_ne_ok
  · next first others _ hskip =>
    rw [hskip] at htokens
    -- the last selector of the list, or one followed by a comma
    split at h
    · exact nomatch h
    · next selector hselector =>
      obtain rfl := Except.ok.inj h
      obtain ⟨used, back, hused, hback, hsplit, -⟩ := sequence_of_readSelector hinner hselector
      have hlast := SelectorList.last hfront hused hback
      rwa [htokens, hsplit, List.append_nil, ← List.append_assoc]
    · next selector rest hselector =>
      obtain ⟨more, hmore, rfl⟩ := map_eq_ok.1 h
      have hshorter : rest.length < tokens.length := by
        have hless := length_readSelector_le hselector
        rw [htokens, List.length_append]
        simp only [List.length_cons] at hless ⊢
        omega
      obtain ⟨used, back, hused, hback, hsplit, -⟩ := sequence_of_readSelector hinner hselector
      have hlist := SelectorList.more hfront hused hback
        (selectorList_of_readList hinner rest hmore)
      rwa [htokens, hsplit, ← List.append_assoc, ← List.append_assoc]
    · exact absurd h refuse_ne_ok
termination_by tokens.length

/-- A list that starts with a selector and a comma goes on with a list of its own, whatever that
    one comes to. -/
theorem readList_more (hinner : Agrees ctx Inner) {front used back : List Token}
    {selector : Selector} (hfront : Blanks front)
    (hused : Sequence ctx.namespaces Inner used selector.complex selector.pseudoElement?)
    (hback : Blanks back) (rest : List Token) :
    readList ctx (front ++ used ++ back ++ .comma :: rest) =
      (readList ctx rest).map (selector :: ·) := by
  have hread : readSelector ctx (used ++ (back ++ .comma :: rest)) =
      .ok (selector, .comma :: rest) := by
    rw [readSelector_append hinner hused (ends_of_blanks hback (Or.inr ⟨rest, rfl⟩)),
      readRight_eq, readCombinator_blanks hback (Or.inr ⟨rest, rfl⟩)]
  rw [show front ++ used ++ back ++ .comma :: rest = front ++ (used ++ (back ++ .comma :: rest))
      by simp, readList_of_not_ends hfront (hused.not_ends _), hread]

/-- A list of the grammar is read. -/
theorem readList_of_selectorList (hinner : Agrees ctx Inner) {tokens : List Token}
    {selectors : List Selector} (h : SelectorList ctx.namespaces Inner tokens selectors) :
    readList ctx tokens = .ok selectors := by
  induction h with
  | @last front used back selector hfront hused hback =>
    have hread : readSelector ctx (used ++ back) = .ok (selector, []) := by
      rw [← List.append_nil back,
        readSelector_append hinner hused (ends_of_blanks hback (Or.inl rfl)), readRight_eq,
        readCombinator_blanks hback (Or.inl rfl)]
    rw [List.append_assoc, readList_of_not_ends hfront (hused.not_ends back), hread]
  | @more front used back rest selector selectors hfront hused hback _ ih =>
    rw [readList_more hinner hfront hused hback]
    exact map_eq_ok.2 ⟨selectors, ih, rfl⟩

/-- The reader of lists accepts what the rules derive. -/
theorem readList_eq_ok_iff (hinner : Agrees ctx Inner) {tokens : List Token}
    {selectors : List Selector} :
    readList ctx tokens = .ok selectors ↔ SelectorList ctx.namespaces Inner tokens selectors :=
  ⟨selectorList_of_readList hinner tokens, readList_of_selectorList hinner⟩

/-! ## Lists within lists -/

/-- What the parser accepts. -/
def Parsed (namespaces : Namespaces) (tokens : List Token) (selectors : List Selector) : Prop :=
  parseTokens namespaces tokens = .ok selectors

/-- The lists without pseudo-elements are those of plain selectors. -/
theorem withoutPseudoElements_eq_ok_iff {selectors : List Selector} {list : List Complex} :
    withoutPseudoElements selectors = .ok list ↔ selectors = plainSelectors list := by
  induction selectors generalizing list with
  | nil =>
    cases list with
    | nil => exact iff_of_true rfl rfl
    | cons complex list => exact iff_of_false nofun nofun
  | cons selector selectors ih =>
    obtain ⟨complex, pseudoElement?⟩ := selector
    cases pseudoElement? with
    | some pseudoElement =>
      refine iff_of_false reject_ne_ok ?_
      cases list with
      | nil => exact nofun
      | cons _ list => exact nofun
    | none =>
      show (withoutPseudoElements selectors).map (complex :: ·) = .ok list ↔ _
      rw [map_eq_ok]
      constructor
      · rintro ⟨others, hothers, rfl⟩
        rw [ih.1 hothers]
        rfl
      · intro h
        cases list with
        | nil => exact nomatch h
        | cons _ list =>
          obtain ⟨hfirst, hothers⟩ := List.cons.inj h
          obtain rfl := congrArg Selector.complex hfirst
          exact ⟨list, ih.2 hothers, rfl⟩

/-- Inner lists are read as the grammar says, by induction over their length. -/
theorem agrees_parseInner (namespaces : Namespaces) :
    Agrees ⟨namespaces, parseInner namespaces⟩ (Parsed namespaces) := by
  intro arguments list
  show parseInner namespaces arguments = .ok list ↔ parseTokens namespaces arguments = .ok _
  unfold parseInner
  rw [bind_eq_ok]
  constructor
  · rintro ⟨selectors, hselectors, hplain⟩
    rw [hselectors, withoutPseudoElements_eq_ok_iff.1 hplain]
  · intro h
    exact ⟨_, h, withoutPseudoElements_eq_ok_iff.2 rfl⟩

/-- What the parser accepts is a solution of the rules. -/
theorem parsed_iff_selectorList {tokens : List Token} {selectors : List Selector} :
    Parsed namespaces tokens selectors ↔
      SelectorList namespaces (Parsed namespaces) tokens selectors := by
  unfold Parsed
  rw [parseTokens_eq]
  exact readList_eq_ok_iff (agrees_parseInner namespaces)

/-- A condition is a selector of one compound. -/
theorem parsed_of_condition {tokens : List Token} {simple : Simple}
    (h : Condition namespaces (Parsed namespaces) tokens simple) (hne : tokens ≠ []) :
    Parsed namespaces tokens [⟨.compound [simple], none⟩] := by
  have hne' : [] ++ (tokens ++ []) ++ [] ≠ [] := by
    rwa [List.nil_append, List.append_nil, List.append_nil]
  have hcompound := Compound.intro TypePart.absent (Conditions.cons h Conditions.nil)
    Ending.absent hne'
  have hlist := @SelectorList.last namespaces (Parsed namespaces) [] _ []
    ⟨.compound [simple], none⟩ blanks_nil (Sequence.single hcompound) blanks_nil
  rw [parsed_iff_selectorList]
  simpa only [List.nil_append, List.append_nil] using hlist

/-! ## The inner relation is asked for on shorter tokens -/

section Mono

variable {bound : Nat}
  (hmono : ∀ arguments selectors, arguments.length < bound →
    Inner arguments selectors → Inner' arguments selectors)

include hmono

/-- A function stays one if shorter lists do. -/
theorem Function.mono {name : String} {arguments : List Token} {simple : Simple}
    (h : Function Inner name arguments simple) (hbound : arguments.length < bound) :
    Function Inner' name arguments simple := by
  cases h with
  | positions hcount hplaces => exact Function.positions hcount hplaces
  | lang hfront htext hback => exact Function.lang hfront htext hback
  | list hmake hlist => exact Function.list hmake (hmono _ _ hbound hlist)

/-- A condition stays one if shorter lists do. -/
theorem Condition.mono {tokens : List Token} {simple : Simple}
    (h : Condition namespaces Inner tokens simple) (hbound : tokens.length ≤ bound) :
    Condition namespaces Inner' tokens simple := by
  cases h with
  | id name => exact Condition.id name
  | className name => exact Condition.className name
  | bracketed hattribute => exact Condition.bracketed hattribute
  | pseudoClass hclass => exact Condition.pseudoClass hclass
  | function hbalanced hfunction =>
    simp only [List.length_append, List.length_cons] at hbound
    exact Condition.function hbalanced (Function.mono hmono hfunction (by omega))

/-- Conditions stay so if shorter lists do. -/
theorem Conditions.mono {tokens : List Token} {simples : List Simple}
    (h : Conditions namespaces Inner tokens simples) (hbound : tokens.length ≤ bound) :
    Conditions namespaces Inner' tokens simples := by
  induction h with
  | nil => exact Conditions.nil
  | cons hfirst _ ih =>
    rw [List.length_append] at hbound
    exact Conditions.cons (Condition.mono hmono hfirst (by omega)) (ih (by omega))

/-- A compound stays one if shorter lists do. -/
theorem Compound.mono {tokens : List Token} {simples : List Simple}
    {pseudoElement? : Option PseudoElement}
    (h : Compound namespaces Inner tokens simples pseudoElement?)
    (hbound : tokens.length ≤ bound) :
    Compound namespaces Inner' tokens simples pseudoElement? := by
  obtain ⟨hfront, hmiddle, hback, hne⟩ := h
  rw [List.length_append, List.length_append] at hbound
  exact Compound.intro hfront (Conditions.mono hmono hmiddle (by omega)) hback hne

/-- A complex selector stays one if shorter lists do. -/
theorem Sequence.mono {tokens : List Token} {complex : Complex}
    {pseudoElement? : Option PseudoElement}
    (h : Sequence namespaces Inner tokens complex pseudoElement?)
    (hbound : tokens.length ≤ bound) :
    Sequence namespaces Inner' tokens complex pseudoElement? := by
  induction h with
  | single hcompound => exact Sequence.single (Compound.mono hmono hcompound hbound)
  | join _ hjoint hright ih =>
    rw [List.length_append, List.length_append] at hbound
    exact Sequence.join (ih (by omega)) hjoint (Compound.mono hmono hright (by omega))

/-- A list stays one if shorter ones do. -/
theorem SelectorList.mono {tokens : List Token} {selectors : List Selector}
    (h : SelectorList namespaces Inner tokens selectors) (hbound : tokens.length ≤ bound) :
    SelectorList namespaces Inner' tokens selectors := by
  induction h with
  | last hfront hused hback =>
    rw [List.length_append, List.length_append] at hbound
    exact SelectorList.last hfront (Sequence.mono hmono hused (by omega)) hback
  | more hfront hused hback _ ih =>
    simp only [List.length_append, List.length_cons] at hbound
    exact SelectorList.more hfront (Sequence.mono hmono hused (by omega)) hback (ih (by omega))

end Mono

/-- What stands within a parsed list is parsed as well, and is shorter. -/
theorem selectorList_shorter_of_parsed {tokens : List Token} {selectors : List Selector}
    (h : Parsed namespaces tokens selectors) :
    SelectorList namespaces
      (fun arguments list => arguments.length < tokens.length ∧ Parsed namespaces arguments list)
      tokens selectors :=
  SelectorList.mono (fun _ _ hshorter hinner => ⟨hshorter, hinner⟩) (parsed_iff_selectorList.1 h)
    (Nat.le_refl _)

/-- What the fixed point of the grammar holds has a derivation. -/
theorem derives_of_parsed {selectors : List Selector} (tokens : List Token)
    (h : Parsed namespaces tokens selectors) : Derives namespaces tokens selectors := by
  refine Derives.intro (SelectorList.mono ?_ (parsed_iff_selectorList.1 h) (Nat.le_refl _))
  intro arguments selectors hshorter hinner
  exact derives_of_parsed arguments hinner
termination_by tokens.length

/-- What has a derivation is in the fixed point of the grammar. -/
theorem parsed_of_derives {selectors : List Selector} (tokens : List Token)
    (h : Derives namespaces tokens selectors) : Parsed namespaces tokens selectors := by
  obtain ⟨hlist⟩ := h
  refine parsed_iff_selectorList.2 (SelectorList.mono ?_ hlist (Nat.le_refl _))
  intro arguments selectors hshorter hinner
  exact parsed_of_derives arguments hinner
termination_by tokens.length

/-- The parser accepts exactly the tokens that the grammar derives, and gives the list that they
    are derived for. -/
theorem parseTokens_eq_ok_iff (namespaces : Namespaces) (tokens : List Token)
    (selectors : List Selector) :
    parseTokens namespaces tokens = .ok selectors ↔ Derives namespaces tokens selectors :=
  ⟨derives_of_parsed tokens, parsed_of_derives tokens⟩

end Grammar

end Selectors
