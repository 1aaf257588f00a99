import Selectors.Proofs.RoundTrip.Names
import Selectors.Proofs.RoundTrip.Reread

/-!
# The round trip — what the parser makes can be written

Every list that the parser makes of tokens with names that can be written is one that can be
written: the type stands first in each compound, its namespace was found under a short name that
was read, and the lists within are parsed lists again. This goes up the rules of the grammar, one
lemma for each relation, and lists within lists are shorter.

Text without U+0000 has such tokens, and a list that can be written is read back from its canonical
text.

* **`SelectorList.writable`** — one level of a list.
* **`writable_of_parsed`** — every parsed list.
* **`parseSelectors_canonicalText`** — the round trip.
-/

namespace Selectors

open Grammar Lexer

/-- The names and contents of all tokens can be written. -/
def AllClean (tokens : List Token) : Prop :=
  ∀ token ∈ tokens, token.IsClean

/-- Of clean tokens both parts are clean. -/
theorem AllClean.append {front back : List Token} (h : AllClean (front ++ back)) :
    AllClean front ∧ AllClean back :=
  List.forall_mem_append.1 h

namespace Grammar

variable {namespaces : Namespaces} {Inner : List Token → List Selector → Prop}

/-! ## Types -/

/-- A namespace that is read can be written: its short name is clean. -/
theorem Qualifier.hasSpelling {tokens : List Token} {url? : Option String}
    (h : Qualifier namespaces tokens url?) (hclean : AllClean tokens) :
    ∀ url ∈ url?, HasSpelling namespaces url := by
  cases h with
  | declared hurl =>
    rintro url ⟨⟩
    exact Or.inr (Or.inr (Namespaces.exists_short? hurl (hclean _ List.mem_cons_self)))
  | any => exact nofun
  | empty =>
    rintro url ⟨⟩
    exact Or.inl rfl
  | absent =>
    intro url hurl
    exact Or.inr (Or.inl hurl)

/-- A name that is read can be written. -/
theorem ElementName.isName {tokens : List Token} {name? : Option String}
    (h : ElementName tokens name?) (hclean : AllClean tokens) : ∀ name ∈ name?, IsName name := by
  cases h with
  | name text =>
    rintro name ⟨⟩
    exact hclean _ List.mem_cons_self
  | asterisk => exact nofun

private theorem typeConditions_writable {name? url? : Option String}
    (hname : ∀ name ∈ name?, IsName name)
    (hurl : ∀ url ∈ url?, HasSpelling namespaces url) :
    ∀ simple ∈ Reader.typeConditions name? url?, simple.IsWritable namespaces := by
  intro simple hsimple
  rcases List.mem_append.1 hsimple with hsimple | hsimple
  · obtain ⟨name, hsome, rfl⟩ := Option.map_eq_some_iff.1 (Option.mem_toList.1 hsimple)
    exact hname name hsome
  · obtain ⟨url, hsome, rfl⟩ := Option.map_eq_some_iff.1 (Option.mem_toList.1 hsimple)
    exact hurl url hsome

/-- A type that is read can be written. -/
theorem TypePart.writable {tokens : List Token} {simples : List Simple}
    (h : TypePart namespaces tokens simples) (hclean : AllClean tokens) :
    (∃ name? url?, simples = Reader.typeConditions name? url?) ∧
      ∀ simple ∈ simples, simple.IsWritable namespaces := by
  cases h with
  | absent => exact ⟨⟨none, none, rfl⟩, nofun⟩
  | written hqualifier hname =>
    obtain ⟨hfront, hback⟩ := hclean.append
    exact ⟨⟨_, _, rfl⟩,
      typeConditions_writable (hname.isName hback) (hqualifier.hasSpelling hfront)⟩

/-! ## Attributes -/

/-- The namespace of an attribute that is read can be written. -/
theorem Scope.writable {tokens : List Token} {scope : AttributeScope}
    (h : Scope namespaces tokens scope) (hclean : AllClean tokens) :
    ∀ url, scope = .url url → ∃ short, namespaces.short? url = some short := by
  cases h with
  | declared hurl =>
    rintro url ⟨⟩
    exact Namespaces.exists_short? hurl (hclean _ List.mem_cons_self)
  | any => exact nofun
  | empty => exact nofun
  | absent => exact nofun

private theorem Text.nulFree {token : Token} {text : String} (h : Text token text)
    (hclean : token.IsClean) : NulFree text.toList := by
  cases h with
  | name => exact hclean.2
  | quoted => exact hclean

/-- A condition on an attribute that is read can be written. -/
theorem Attribute.writable {tokens : List Token} {test : AttributeTest}
    (h : Attribute namespaces tokens test) (hclean : AllClean tokens) :
    test.IsWritable namespaces := by
  cases h with
  | @presence _ _ _ _ name _ hscope _ =>
    have hname : (Token.ident name).IsClean := hclean _ (by simp)
    refine ⟨hname, ?_, nofun⟩
    exact hscope.writable fun token htoken => hclean token (by simp [htoken])
  | @comparison _ _ _ _ _ _ name _ value _ _ hscope _ _ htext _ =>
    have hname : (Token.ident name).IsClean := hclean _ (by simp)
    have hvalue : value.IsClean := hclean _ (by simp)
    refine ⟨hname, ?_, ?_⟩
    · exact hscope.writable fun token htoken => hclean token (by simp [htoken])
    · rintro operator expected ⟨⟩
      exact htext.nulFree hvalue

/-! ## Conditions -/

private theorem pseudoClass_writable {name : String} {pseudoClass : PseudoClass}
    (h : (name, pseudoClass) ∈ pseudoClassNames) : pseudoClass.IsWritable := by
  cases pseudoClass with
  | nth count places => simp [pseudoClassNames, DynamicState.all] at h
  | lang range => simp [pseudoClassNames, DynamicState.all] at h
  | _ => trivial

section

variable
  (hinner : ∀ arguments list, AllClean arguments → Inner arguments (plainSelectors list) →
    list ≠ [] ∧ ListWritable namespaces list)

include hinner

/-- A function that is read can be written. -/
theorem Function.writable {name : String} {arguments : List Token} {simple : Simple}
    (h : Function Inner name arguments simple) (hclean : AllClean arguments) :
    simple.IsWritable namespaces ∧ simple.IsCondition := by
  cases h with
  | positions _ hplaces => exact ⟨Nth.parse_writable hplaces, trivial⟩
  | lang _ htext _ => exact ⟨htext.nulFree (hclean _ (by simp)), trivial⟩
  | list hmake hlist =>
    have hwritable := hinner _ _ hclean hlist
    rcases eq_of_mem_listNames hmake with rfl | rfl | rfl
    · exact ⟨hwritable, trivial⟩
    · exact ⟨hwritable, trivial⟩
    · exact ⟨hwritable, trivial⟩

/-- A condition that is read can be written. -/
theorem Condition.writable {tokens : List Token} {simple : Simple}
    (h : Condition namespaces Inner tokens simple) (hclean : AllClean tokens) :
    simple.IsWritable namespaces ∧ simple.IsCondition := by
  cases h with
  | id name => exact ⟨hclean _ List.mem_cons_self, trivial⟩
  | className name => exact ⟨hclean _ (List.mem_cons_of_mem _ List.mem_cons_self), trivial⟩
  | bracketed hattribute =>
    refine ⟨hattribute.writable ?_, trivial⟩
    exact fun token htoken => hclean token (List.mem_cons_of_mem _ htoken)
  | pseudoClass hclass => exact ⟨pseudoClass_writable hclass, trivial⟩
  | function _ hfunction =>
    exact hfunction.writable hinner fun token htoken => hclean token (by simp [htoken])

/-- Conditions that are read can be written. -/
theorem Conditions.writable {tokens : List Token} {simples : List Simple}
    (h : Conditions namespaces Inner tokens simples) (hclean : AllClean tokens) :
    ∀ simple ∈ simples, simple.IsWritable namespaces ∧ simple.IsCondition := by
  induction h with
  | nil => exact nofun
  | cons hfirst _ ih =>
    obtain ⟨hfront, hback⟩ := hclean.append
    exact List.forall_mem_cons.2 ⟨hfirst.writable hinner hfront, ih hback⟩

/-- A compound that is read can be written, with its type in front. -/
theorem Compound.writable {tokens : List Token} {simples : List Simple}
    {pseudoElement? : Option PseudoElement}
    (h : Compound namespaces Inner tokens simples pseudoElement?) (hclean : AllClean tokens) :
    TypeFirst simples ∧ CompoundWritable namespaces simples := by
  obtain ⟨htype, hconditions, -, -⟩ := h
  obtain ⟨hfront, -⟩ := hclean.append
  obtain ⟨hfront, hmiddle⟩ := hfront.append
  obtain ⟨⟨name?, url?, rfl⟩, htypeWritable⟩ := htype.writable hfront
  have hboth := hconditions.writable hinner hmiddle
  refine ⟨⟨name?, url?, _, rfl, fun simple hsimple => (hboth simple hsimple).2⟩, ?_⟩
  rw [compoundWritable_iff]
  exact List.forall_mem_append.2 ⟨htypeWritable, fun simple hsimple => (hboth simple hsimple).1⟩

/-- A complex selector that is read can be written. -/
theorem Sequence.writable {tokens : List Token} {complex : Complex}
    {pseudoElement? : Option PseudoElement}
    (h : Sequence namespaces Inner tokens complex pseudoElement?) (hclean : AllClean tokens) :
    complex.IsWritable namespaces := by
  induction h with
  | single hcompound => exact hcompound.writable hinner hclean
  | join _ _ hright ih =>
    obtain ⟨hfront, hback⟩ := hclean.append
    obtain ⟨hleft, -⟩ := hfront.append
    exact ⟨ih hleft, hright.writable hinner hback⟩

/-- A list can be written if those within it can. -/
theorem SelectorList.writable {tokens : List Token} {selectors : List Selector}
    (h : SelectorList namespaces Inner tokens selectors) (hclean : AllClean tokens) :
    SelectorsWritable namespaces selectors := by
  induction h with
  | last _ hused _ =>
    refine ⟨nofun, List.forall_mem_singleton.2 ?_⟩
    exact hused.writable hinner fun token htoken => hclean token (by simp [htoken])
  | more _ hused _ _ ih =>
    obtain ⟨-, hrest⟩ := ih fun token htoken => hclean token (by simp [htoken])
    refine ⟨nofun, List.forall_mem_cons.2 ⟨?_, hrest⟩⟩
    exact hused.writable hinner fun token htoken => hclean token (by simp [htoken])

end

end Grammar

/-! ## The round trip -/

variable {namespaces : Namespaces}

/-- A list can be written if all of its selectors can. -/
theorem listWritable_iff {list : List Complex} :
    ListWritable namespaces list ↔ ∀ complex ∈ list, complex.IsWritable namespaces := by
  induction list with
  | nil => exact iff_of_true trivial nofun
  | cons first rest ih =>
    rw [List.forall_mem_cons, ← ih]
    exact Iff.rfl

private theorem listWritable_of_plainSelectors {list : List Complex}
    (h : SelectorsWritable namespaces (plainSelectors list)) :
    list ≠ [] ∧ ListWritable namespaces list := by
  obtain ⟨hne, hall⟩ := h
  refine ⟨?_, listWritable_iff.2 ?_⟩
  · rintro rfl
    exact hne rfl
  · intro complex hcomplex
    exact hall ⟨complex, none⟩ (List.mem_map_of_mem hcomplex)

/-- Every list that the parser makes of tokens that can be written is one that can be. -/
theorem writable_of_parsed {selectors : List Selector} (tokens : List Token)
    (hclean : AllClean tokens) (h : Parsed namespaces tokens selectors) :
    SelectorsWritable namespaces selectors := by
  refine (selectorList_shorter_of_parsed h).writable ?_ hclean
  rintro arguments list harguments ⟨hshorter, hinner⟩
  exact listWritable_of_plainSelectors (writable_of_parsed arguments harguments hinner)
termination_by tokens.length

/-- What the parser makes of a text without U+0000 is read again from its canonical text. -/
theorem parseSelectors_canonicalText (namespaces : Namespaces) (text : String)
    (selectors : List Selector) (hnul : NulFree text.toList)
    (h : parseSelectors namespaces text = .ok selectors) :
    parseSelectors namespaces (canonicalText namespaces selectors) = .ok selectors :=
  parseSelectors_canonicalText_of_writable
    (writable_of_parsed (tokenize text) (isClean_of_mem_lex hnul) h)

/-- A paragraph that is not of a class. -/
def unmarkedParagraph : List Selector :=
  [⟨.compound [.atom (.typeName "p"), .negation [.compound [.atom (.className "a")]]],
    some .before⟩]

/-- A pseudo-element with one colon is written with two, and read back. -/
theorem parseSelectors_canonicalText_unmarkedParagraph :
    parseSelectors .empty "p:not(.a):before" = .ok unmarkedParagraph ∧
      parseSelectors .empty (canonicalText .empty unmarkedParagraph) = .ok unmarkedParagraph := by
  have hparse : parseSelectors .empty "p:not(.a):before" = .ok unmarkedParagraph := by
    with_unfolding_all rfl
  have hall : "p:not(.a):before".toList.all (· != Char.ofNat 0) = true := by
    decide
  have hnul : NulFree "p:not(.a):before".toList :=
    fun c hc => bne_iff_ne.1 (List.all_eq_true.1 hall c hc)
  exact ⟨hparse, parseSelectors_canonicalText _ _ _ hnul hparse⟩

example : canonicalText .empty unmarkedParagraph = "*|\\70 :not(*|*.\\61 )::before" := by
  decide +kernel

end Selectors
