import Selectors.Proofs.Grammar.Attributes

/-!
# Conditions — names, functions and their arguments

The readers behind a colon, and with them those of any condition. The arguments of a function are
the balanced tokens up to the parenthesis that closes it; what they mean is said by the rules, and
for a list within by a relation that the reader of inner lists has to agree with.

* **`readArguments_eq_ok_iff`** — arguments, by `closes_of_splitArguments` and
  `splitArguments_append`.
* **`function_of_readFunction`**, **`readFunction_of_function`** — functions.
* **`readPart_simple_iff`** and **`readPart_pseudoElement_iff`** — any condition, any ending.
-/

namespace Selectors

namespace Grammar

open Reader

/-! ## Arguments -/

/-- The tokens up to the parenthesis that closes some open ones and one more. -/
inductive Closes : Nat → List Token → Prop where
  | one {inside : List Token} : Balanced inside → Closes 0 inside
  | more {depth : Nat} {inside rest : List Token} :
      Balanced inside → Closes depth rest → Closes (depth + 1) (inside ++ .rightParen :: rest)

/-- A token that is no parenthesis changes no depth. -/
theorem Closes.plain {depth : Nat} {token : Token} {tokens : List Token}
    (hfunction : ∀ name, token ≠ .function name) (hopening : token ≠ .leftParen)
    (hclosing : token ≠ .rightParen) (h : Closes depth tokens) : Closes depth (token :: tokens) := by
  cases h with
  | one hinside => exact Closes.one (Balanced.plain hfunction hopening hclosing hinside)
  | more hinside hrest =>
    exact Closes.more (Balanced.plain hfunction hopening hclosing hinside) hrest

/-- An opening parenthesis is closed before those around it. -/
theorem Closes.group {depth : Nat} {opening : Token} {tokens : List Token}
    (hopening : (∃ name, opening = .function name) ∨ opening = .leftParen)
    (h : Closes (depth + 1) tokens) : Closes depth (opening :: tokens) := by
  cases h with
  | @more _ inside rest hinside hrest =>
    cases hrest with
    | one hrest => exact Closes.one (Balanced.group hopening hinside hrest)
    | @more _ inside' rest' hinside' hrest' =>
      have hgroup := Closes.more (Balanced.group hopening hinside hinside') hrest'
      rwa [List.cons_append, List.cons_append, List.append_assoc, List.cons_append] at hgroup

/-- What is split off closes as many parentheses as are open. -/
theorem closes_of_splitArguments {depth : Nat} {tokens inside rest : List Token}
    (h : splitArguments depth tokens = some (inside, rest)) :
    Closes depth inside ∧ tokens = inside ++ .rightParen :: rest := by
  induction tokens generalizing depth inside with
  | nil => exact nomatch h
  | cons token tokens ih =>
    -- the closing parenthesis of the arguments is the one case without a token kept
    by_cases hend : depth = 0 ∧ token = .rightParen
    · obtain ⟨rfl, rfl⟩ := hend
      obtain ⟨rfl, rfl⟩ := Prod.mk.inj (Option.some.inj h)
      exact ⟨Closes.one Balanced.nil, rfl⟩
    · rw [splitArguments] at h
      · obtain ⟨⟨kept, after⟩, hsplit, hpair⟩ := Option.map_eq_some_iff.1 h
        obtain ⟨rfl, rfl⟩ := Prod.mk.inj hpair
        obtain ⟨hcloses, rfl⟩ := ih hsplit
        refine ⟨?_, rfl⟩
        cases token with
        | leftParen => exact Closes.group (Or.inr rfl) hcloses
        | function name => exact Closes.group (Or.inl ⟨name, rfl⟩) hcloses
        | rightParen =>
          cases depth with
          | zero => exact absurd ⟨rfl, rfl⟩ hend
          | succ depth => exact Closes.more Balanced.nil hcloses
        | _ => exact Closes.plain nofun nofun nofun hcloses
      · exact fun hdepth htoken => hend ⟨hdepth, htoken⟩

/-- Balanced tokens are passed at any depth. -/
theorem splitArguments_append {inside : List Token} (h : Balanced inside) (depth : Nat)
    (tokens : List Token) :
    splitArguments depth (inside ++ tokens) =
      (splitArguments depth tokens).map (Prod.map (inside ++ ·) id) := by
  -- on how the parentheses match; the depth varies, as a group is read one level deeper
  induction h generalizing depth tokens with
  | nil =>
    show splitArguments depth tokens = (splitArguments depth tokens).map id
    rw [Option.map_id]
    rfl
  | @plain token rest hfunction hopening hclosing _ ih =>
    have hdepth : depthAfter depth token = depth := by
      cases token with
      | leftParen => exact absurd rfl hopening
      | function name => exact absurd rfl (hfunction name)
      | rightParen => exact absurd rfl hclosing
      | _ => rfl
    rw [List.cons_append, splitArguments, hdepth, ih, Option.map_map]
    · rfl
    · exact fun _ heq => hclosing heq
  | @group opening inside rest hopening _ _ ihinside ihrest =>
    have hdepth : depthAfter depth opening = depth + 1 := by
      rcases hopening with ⟨name, rfl⟩ | rfl
      · rfl
      · rfl
    -- the inside is read at the greater depth, and the closing one brings it back
    have hclosing : opening ≠ .rightParen := by
      rcases hopening with ⟨name, rfl⟩ | rfl
      · exact nofun
      · exact nofun
    rw [show opening :: inside ++ .rightParen :: rest ++ tokens =
        opening :: (inside ++ .rightParen :: (rest ++ tokens)) by simp,
      splitArguments, hdepth, ihinside, splitArguments]
    · rw [show depthAfter (depth + 1) .rightParen = depth from rfl, ihrest]
      cases splitArguments depth tokens with
      | none => rfl
      | some parts => simp [Prod.map]
    · exact nofun
    · exact fun _ heq => hclosing heq

/-- Arguments are what is balanced in front of a closing parenthesis. -/
theorem readArguments_eq_ok_iff {tokens inside rest : List Token} :
    readArguments tokens = .ok (inside, rest) ↔
      Balanced inside ∧ tokens = inside ++ .rightParen :: rest := by
  constructor
  · intro h
    unfold readArguments at h
    split at h
    · next hsplit =>
      obtain ⟨rfl, rfl⟩ := Prod.mk.inj (Except.ok.inj h)
      obtain ⟨hcloses, rfl⟩ := closes_of_splitArguments hsplit
      cases hcloses with
      | one hinside => exact ⟨hinside, rfl⟩
    · exact absurd h reject_ne_ok
  · rintro ⟨hinside, rfl⟩
    have hsplit : splitArguments 0 (inside ++ .rightParen :: rest) = some (inside, rest) := by
      rw [splitArguments_append hinside]
      show some (inside ++ [], rest) = some (inside, rest)
      rw [List.append_nil]
    unfold readArguments
    rw [hsplit]

/-! ## Names -/

/-- A name in any letter case is that of a pseudo-element if its lower case is. -/
theorem ofName?_eq_some_iff {name : String} {pseudoElement : PseudoElement} :
    PseudoElement.ofName? name = some pseudoElement ↔ name.toLower = pseudoElement.name := by
  have hlower : ∀ p : PseudoElement, p.name.toLower = p.name := by
    intro p
    cases p <;> decide +kernel
  constructor
  · intro h
    have hsame := List.find?_some h
    rw [← hlower pseudoElement]
    exact (beq_iff_eq.1 hsame).symm
  · intro h
    show PseudoElement.all.find? (fun p => p.name.toLower == name.toLower) = some pseudoElement
    rw [h]
    cases pseudoElement <;> decide +kernel

/-- After a single colon stand the four old pseudo-elements, in any letter case. -/
theorem pseudoElementAfterColon?_eq_some_iff {name : String} {pseudoElement : PseudoElement} :
    pseudoElementAfterColon? name = some pseudoElement ↔
      name.toLower = pseudoElement.name ∧ pseudoElement.allowsSingleColon = true := by
  unfold pseudoElementAfterColon?
  rw [Option.filter_eq_some_iff, ofName?_eq_some_iff]

/-- No two dynamic states have one name. -/
theorem find?_name_eq_some_iff {name : String} {state : DynamicState} :
    DynamicState.all.find? (·.name == name) = some state ↔ state.name = name := by
  constructor
  · intro h
    have hsame := List.find?_some h
    exact beq_iff_eq.1 hsame
  · rintro rfl
    cases state <;> decide

/-- The names of pseudo-classes are those of the table, in any letter case. -/
theorem pseudoClassOfName?_eq_some_iff {name : String} {pseudoClass : PseudoClass} :
    pseudoClassOfName? name = some pseudoClass ↔
      (name.toLower, pseudoClass) ∈ pseudoClassNames := by
  have hdynamic : ∀ lower, (DynamicState.all.find? (·.name == lower)).map PseudoClass.dynamic =
      some pseudoClass ↔ ∃ state : DynamicState, state.name = lower ∧ .dynamic state = pseudoClass := by
    intro lower
    rw [Option.map_eq_some_iff]
    exact exists_congr fun state => and_congr_left fun _ => find?_name_eq_some_iff
  have hmem : ∀ lower, (lower, pseudoClass) ∈
      DynamicState.all.map (fun state => (state.name, PseudoClass.dynamic state)) ↔
        ∃ state : DynamicState, state.name = lower ∧ .dynamic state = pseudoClass := by
    intro lower
    rw [List.mem_map]
    refine exists_congr fun state => ?_
    have hall : state ∈ DynamicState.all := by cases state <;> decide
    simp [hall]
  unfold pseudoClassOfName? pseudoClassNames
  generalize name.toLower = lower
  rw [List.mem_append, hmem, ← hdynamic]
  split
  case h_14 => simp_all
  all_goals simp [DynamicState.all, DynamicState.name, eq_comm]

/-- No name is that of a pseudo-class and of a pseudo-element. -/
theorem pseudoElementAfterColon?_eq_none {name : String} {pseudoClass : PseudoClass}
    (h : (name.toLower, pseudoClass) ∈ pseudoClassNames) : pseudoElementAfterColon? name = none := by
  have hdisjoint : ∀ entry ∈ pseudoClassNames, ∀ p ∈ PseudoElement.all, entry.1 ≠ p.name := by
    decide
  cases hname : pseudoElementAfterColon? name with
  | none => rfl
  | some p =>
    obtain ⟨hlower, -⟩ := pseudoElementAfterColon?_eq_some_iff.1 hname
    exact absurd hlower (hdisjoint _ h p p.mem_all)

/-- A name after a colon is a pseudo-class if it is in the table. -/
theorem partOfName_simple_iff {name : String} {simple : Simple} :
    partOfName name = .ok (.simple simple) ↔
      ∃ pseudoClass, (name.toLower, pseudoClass) ∈ pseudoClassNames ∧
        simple = .atom (.pseudoClass pseudoClass) := by
  unfold partOfName
  constructor
  · intro h
    split at h
    · exact nomatch h
    · next hclass =>
      obtain rfl := Part.simple.inj (Except.ok.inj h)
      exact ⟨_, pseudoClassOfName?_eq_some_iff.1 hclass, rfl⟩
    · exact absurd h reject_ne_ok
  · rintro ⟨pseudoClass, hclass, rfl⟩
    rw [pseudoElementAfterColon?_eq_none hclass, pseudoClassOfName?_eq_some_iff.2 hclass]

/-- A name after a colon is a pseudo-element if it is an old one. -/
theorem partOfName_pseudoElement_iff {name : String} {pseudoElement : PseudoElement} :
    partOfName name = .ok (.pseudoElement pseudoElement) ↔
      name.toLower = pseudoElement.name ∧ pseudoElement.allowsSingleColon = true := by
  unfold partOfName
  rw [← pseudoElementAfterColon?_eq_some_iff]
  constructor
  · intro h
    split at h
    · next hname =>
      obtain rfl := Part.pseudoElement.inj (Except.ok.inj h)
      exact hname
    · exact nomatch h
    · exact absurd h reject_ne_ok
  · intro h
    rw [h]

/-! ## Functions -/

/-- What comes after the text of a language range: nothing but blanks. -/
private theorem readRange_text {arguments rest : List Token} {token : Token} {text range : String}
    (hskip : skipBlanks arguments = token :: rest) (htext : Text token text) :
    readRange arguments = .ok range ↔ text = range ∧ Blanks rest := by
  have hend : readRange arguments = .ok range ↔ text = range ∧ skipBlanks rest = [] := by
    unfold readRange
    rw [hskip]
    -- the text is a name or a string, and the same is asked of what follows it
    cases htext <;> dsimp only [bind, Except.bind] <;> cases skipBlanks rest with
    | nil => simp
    | cons first others => exact iff_of_false refuse_ne_ok fun hboth => nomatch hboth.2
  rw [hend, skipBlanks_eq_nil_iff]

/-- A language range is a name or a string between blanks. -/
theorem readRange_eq_ok_iff {arguments : List Token} {range : String} :
    readRange arguments = .ok range ↔
      ∃ front token back, Blanks front ∧ Text token range ∧ Blanks back ∧
        arguments = front ++ token :: back := by
  constructor
  · intro h
    have hstart : ∃ token text rest, Text token text ∧ skipBlanks arguments = token :: rest := by
      unfold readRange at h
      dsimp only at h
      split at h
      · next name rest heq => exact ⟨_, name, rest, Text.name name, heq⟩
      · next name rest heq => exact ⟨_, name, rest, Text.quoted name, heq⟩
      · obtain ⟨_, hrefuse, -⟩ := bind_eq_ok.1 h
        exact absurd hrefuse refuse_ne_ok
    obtain ⟨token, text, rest, htext, hskip⟩ := hstart
    obtain ⟨rfl, hback⟩ := (readRange_text hskip htext).1 h
    obtain ⟨-, front, hfront, rfl⟩ := skipBlanks_eq_cons_iff.1 hskip
    exact ⟨front, token, rest, hfront, htext, hback, rfl⟩
  · rintro ⟨front, token, back, hfront, htext, hback, rfl⟩
    exact (readRange_text (skipBlanks_text hfront htext) htext).2 ⟨rfl, hback⟩

/-- The reader of inner lists gives what the relation derives. -/
def Agrees (ctx : Context) (Inner : List Token → List Selector → Prop) : Prop :=
  ∀ arguments list, ctx.nested arguments = .ok list ↔ Inner arguments (plainSelectors list)

variable {ctx : Context} {Inner : List Token → List Selector → Prop}

/-- What is read as a function is one. -/
theorem function_of_readFunction (hinner : Agrees ctx Inner) {name : String}
    {arguments : List Token} {simple : Simple}
    (h : readFunction ctx name arguments = .ok simple) :
    Function Inner name.toLower arguments simple := by
  -- the names of one kind differ only in what they make of the arguments
  have hpositions : ∀ {lower count}, (lower, count) ∈ positionalNames →
      readPositions count arguments = .ok simple → Function Inner lower arguments simple := by
    intro lower count hcount h
    obtain ⟨places, hplaces, rfl⟩ := map_eq_ok.1 h
    exact Function.positions hcount hplaces
  have hlist : ∀ {lower make}, (lower, make) ∈ listNames →
      (ctx.nested arguments).map make = .ok simple → Function Inner lower arguments simple := by
    intro lower make hmake h
    obtain ⟨list, hnested, rfl⟩ := map_eq_ok.1 h
    exact Function.list hmake ((hinner arguments list).1 hnested)
  unfold readFunction at h
  generalize name.toLower = lower at h ⊢
  split at h
  · exact hpositions (by simp [positionalNames]) h
  · exact hpositions (by simp [positionalNames]) h
  · exact hpositions (by simp [positionalNames]) h
  · exact hpositions (by simp [positionalNames]) h
  · obtain ⟨range, hrange, rfl⟩ := map_eq_ok.1 h
    obtain ⟨front, token, back, hfront, htext, hback, rfl⟩ := readRange_eq_ok_iff.1 hrange
    exact Function.lang hfront htext hback
  · exact hlist (by simp [listNames]) h
  · exact hlist (by simp [listNames]) h
  · exact hlist (by simp [listNames]) h
  · exact hlist (by simp [listNames]) h
  · exact absurd h reject_ne_ok

/-- A function of the grammar is read. -/
theorem readFunction_of_function (hinner : Agrees ctx Inner) {name : String}
    {arguments : List Token} {simple : Simple}
    (h : Function Inner name.toLower arguments simple) :
    readFunction ctx name arguments = .ok simple := by
  unfold readFunction
  generalize name.toLower = lower at h ⊢
  cases h with
  | positions hcount hplaces =>
    have hread : ∀ count, readPositions count arguments =
        .ok (.atom (.pseudoClass (.nth count _))) := fun count =>
      map_eq_ok.2 ⟨_, hplaces, rfl⟩
    simp only [positionalNames, List.mem_cons, Prod.mk.injEq, List.not_mem_nil,
      or_false] at hcount
    rcases hcount with ⟨rfl, rfl⟩ | ⟨rfl, rfl⟩ | ⟨rfl, rfl⟩ | ⟨rfl, rfl⟩
    · exact hread _
    · exact hread _
    · exact hread _
    · exact hread _
  | lang hfront htext hback =>
    exact map_eq_ok.2 ⟨_, readRange_eq_ok_iff.2 ⟨_, _, _, hfront, htext, hback, rfl⟩, rfl⟩
  | @list _ make _ list hmake hnested =>
    have hread : ∀ make : List Complex → Simple, (ctx.nested arguments).map make =
        .ok (make list) := fun make => map_eq_ok.2 ⟨list, (hinner arguments list).2 hnested, rfl⟩
    simp only [listNames, List.mem_cons, Prod.mk.injEq, List.not_mem_nil, or_false] at hmake
    rcases hmake with ⟨rfl, rfl⟩ | ⟨rfl, rfl⟩ | ⟨rfl, rfl⟩ | ⟨rfl, rfl⟩
    · exact hread _
    · exact hread _
    · exact hread _
    · exact hread _

/-! ## After a colon -/

/-- What is read after a colon as a condition is one. -/
theorem condition_of_readPseudo (hinner : Agrees ctx Inner) {tokens rest : List Token}
    {simple : Simple} (h : readPseudo ctx tokens = .ok (.simple simple, rest)) :
    ∃ used, Condition ctx.namespaces Inner (.colon :: used) simple ∧ tokens = used ++ rest := by
  unfold readPseudo at h
  split at h
  · split at h
    · exact nomatch h
    · exact absurd h reject_ne_ok
  · exact absurd h reject_ne_ok
  · exact absurd h refuse_ne_ok
  · obtain ⟨part, hname, hpair⟩ := map_eq_ok.1 h
    obtain ⟨rfl, rfl⟩ := Prod.mk.inj hpair
    obtain ⟨pseudoClass, hclass, rfl⟩ := partOfName_simple_iff.1 hname
    exact ⟨[_], Condition.pseudoClass hclass, rfl⟩
  · obtain ⟨⟨arguments, after⟩, harguments, h⟩ := bind_eq_ok.1 h
    obtain ⟨read, hfunction, h⟩ := bind_eq_ok.1 h
    obtain ⟨hpart, rfl⟩ := Prod.mk.inj (Except.ok.inj h)
    obtain rfl := Part.simple.inj hpart
    obtain ⟨hbalanced, rfl⟩ := readArguments_eq_ok_iff.1 harguments
    refine ⟨_, Condition.function hbalanced (function_of_readFunction hinner hfunction), ?_⟩
    simp
  · exact absurd h refuse_ne_ok

/-- What is read after a colon as a pseudo-element is one. -/
theorem ending_of_readPseudo {tokens rest : List Token} {pseudoElement : PseudoElement}
    (h : readPseudo ctx tokens = .ok (.pseudoElement pseudoElement, rest)) :
    ∃ used, Ending (.colon :: used) (some pseudoElement) ∧ tokens = used ++ rest := by
  unfold readPseudo at h
  split at h
  · split at h
    · next hname =>
      obtain ⟨hpart, rfl⟩ := Prod.mk.inj (Except.ok.inj h)
      obtain rfl := Part.pseudoElement.inj hpart
      exact ⟨[_, _], Ending.double (ofName?_eq_some_iff.1 hname), rfl⟩
    · exact absurd h reject_ne_ok
  · exact absurd h reject_ne_ok
  · exact absurd h refuse_ne_ok
  · obtain ⟨part, hname, hpair⟩ := map_eq_ok.1 h
    obtain ⟨rfl, rfl⟩ := Prod.mk.inj hpair
    obtain ⟨hlower, hsingle⟩ := partOfName_pseudoElement_iff.1 hname
    exact ⟨[_], Ending.single hlower hsingle, rfl⟩
  · obtain ⟨_, -, h⟩ := bind_eq_ok.1 h
    obtain ⟨_, -, h⟩ := bind_eq_ok.1 h
    exact nomatch h
  · exact absurd h refuse_ne_ok

/-! ## Any condition -/

/-- The reader of conditions reads what the grammar calls one. -/
theorem readPart_simple_iff (hinner : Agrees ctx Inner) {tokens rest : List Token}
    {simple : Simple} :
    readPart ctx tokens = .ok (some (.simple simple), rest) ↔
      ∃ used, Condition ctx.namespaces Inner used simple ∧ tokens = used ++ rest := by
  constructor
  · intro h
    -- one case for each way a part can start: `#`, `.`, `[` and a colon
    unfold readPart at h
    split at h
    · obtain ⟨hpart, rfl⟩ := Prod.mk.inj (Except.ok.inj h)
      obtain rfl := Part.simple.inj (Option.some.inj hpart)
      exact ⟨_, Condition.id _, rfl⟩
    · exact absurd h refuse_ne_ok
    · obtain ⟨hpart, rfl⟩ := Prod.mk.inj (Except.ok.inj h)
      obtain rfl := Part.simple.inj (Option.some.inj hpart)
      exact ⟨_, Condition.className _, rfl⟩
    · exact absurd h refuse_ne_ok
    · obtain ⟨⟨test, after⟩, htest, h⟩ := bind_eq_ok.1 h
      obtain ⟨hpart, rfl⟩ := Prod.mk.inj (Except.ok.inj h)
      obtain rfl := Part.simple.inj (Option.some.inj hpart)
      obtain ⟨used, hused, rfl⟩ := readAttribute_eq_ok_iff.1 htest
      exact ⟨_, Condition.bracketed hused, rfl⟩
    · obtain ⟨⟨part, after⟩, hpseudo, h⟩ := bind_eq_ok.1 h
      obtain ⟨hpart, rfl⟩ := Prod.mk.inj (Except.ok.inj h)
      obtain rfl := Option.some.inj hpart
      obtain ⟨used, hused, rfl⟩ := condition_of_readPseudo hinner hpseudo
      exact ⟨_, hused, rfl⟩
    · exact nomatch h
  · rintro ⟨used, hused, rfl⟩
    cases hused with
    | id name => rfl
    | className name => rfl
    | bracketed hattribute =>
      exact bind_eq_ok.2 ⟨_, readAttribute_eq_ok_iff.2 ⟨_, hattribute, rfl⟩, rfl⟩
    | pseudoClass hclass =>
      refine bind_eq_ok.2 ⟨(.simple _, rest), map_eq_ok.2 ⟨_, ?_, rfl⟩, rfl⟩
      exact partOfName_simple_iff.2 ⟨_, hclass, rfl⟩
    | @function name arguments simple hbalanced hfunction =>
      rw [show .colon :: .function name :: arguments ++ [.rightParen] ++ rest =
        .colon :: .function name :: (arguments ++ .rightParen :: rest) by simp]
      refine bind_eq_ok.2 ⟨(.simple simple, rest), bind_eq_ok.2 ⟨(arguments, rest), ?_, ?_⟩, rfl⟩
      · exact readArguments_eq_ok_iff.2 ⟨hbalanced, rfl⟩
      · exact bind_eq_ok.2 ⟨simple, readFunction_of_function hinner hfunction, rfl⟩

/-- The reader of conditions reads what the grammar calls a pseudo-element. -/
theorem readPart_pseudoElement_iff {tokens rest : List Token} {pseudoElement : PseudoElement} :
    readPart ctx tokens = .ok (some (.pseudoElement pseudoElement), rest) ↔
      ∃ used, Ending used (some pseudoElement) ∧ tokens = used ++ rest := by
  constructor
  · intro h
    unfold readPart at h
    split at h
    · exact nomatch h
    · exact absurd h refuse_ne_ok
    · exact nomatch h
    · exact absurd h refuse_ne_ok
    · obtain ⟨⟨test, after⟩, htest, h⟩ := bind_eq_ok.1 h
      exact nomatch h
    · obtain ⟨⟨part, after⟩, hpseudo, h⟩ := bind_eq_ok.1 h
      obtain ⟨hpart, rfl⟩ := Prod.mk.inj (Except.ok.inj h)
      obtain rfl := Option.some.inj hpart
      obtain ⟨used, hused, rfl⟩ := ending_of_readPseudo hpseudo
      exact ⟨_, hused, rfl⟩
    · exact nomatch h
  · rintro ⟨used, hused, rfl⟩
    cases hused with
    | double hlower =>
      refine bind_eq_ok.2 ⟨(.pseudoElement pseudoElement, rest), ?_, rfl⟩
      show readPseudo ctx (.colon :: .ident _ :: rest) = _
      rw [readPseudo, ofName?_eq_some_iff.2 hlower]
    | single hlower hsingle =>
      refine bind_eq_ok.2 ⟨(.pseudoElement pseudoElement, rest), ?_, rfl⟩
      exact map_eq_ok.2 ⟨_, partOfName_pseudoElement_iff.2 ⟨hlower, hsingle⟩, rfl⟩

/-- Where no condition is read, nothing is taken. -/
theorem eq_of_readPart_none {tokens rest : List Token}
    (h : readPart ctx tokens = .ok (none, rest)) : tokens = rest := by
  unfold readPart at h
  split at h
  · exact nomatch h
  · exact absurd h refuse_ne_ok
  · exact nomatch h
  · exact absurd h refuse_ne_ok
  · obtain ⟨_, -, h⟩ := bind_eq_ok.1 h
    exact nomatch h
  · obtain ⟨_, -, h⟩ := bind_eq_ok.1 h
    exact nomatch h
  · exact (Prod.mk.inj (Except.ok.inj h)).2

end Grammar

end Selectors
