import Mathlib.Data.List.Basic
import Selectors.Proofs.Grammar.Conditions
import Selectors.Warnings

/-!
# Reports — which warnings compiling a selector gives

No element is ever in a dynamic state, and a selector that names one is reported. Where the state
stands makes no difference: in a compound left of a combinator, in a list within a list, or beside
something that decides the test anyway. A text that is refused reports nothing, not even of its
selectors before the error, since nothing is compiled before all is read.

The occurrences are given by `Simple.Names`, which goes down into the lists. Lowering is followed
along the syntax: it gives the test, and the warnings with those on the states that it comes across,
from left to right. That these are the occurrences is a second walk over the syntax.

* **`Simple.Names`** and **`Complex.Names`** — a dynamic state occurs in a selector.
* **`Complex.run_lower`** — what lowering a complex selector does.
* **`reported_compileRecording`** — what compiling a text does to the warnings.
-/

namespace Selectors

/-! ## Occurrences -/

/-- A simple selector stands in some compound of a complex selector. -/
def Complex.Has (complex : Complex) (simple : Simple) : Prop :=
  simple ∈ complex.subject ∨ ∃ link ∈ complex.chain, simple ∈ link.2

/-- The list that a simple selector holds. -/
def Simple.list : Simple → List Complex
  | .atom _ => []
  | .negation list => list
  | .isAny list => list
  | .whereAny list => list

/-- A dynamic state occurs in a simple selector: it is the selector, or it occurs in a compound of
    some selector of its list. -/
inductive Simple.Names (state : DynamicState) : Simple → Prop where
  | here : Simple.Names state (.atom (.pseudoClass (.dynamic state)))
  | within {simple : Simple} {complex : Complex} {inner : Simple} :
      complex ∈ simple.list → complex.Has inner → Simple.Names state inner →
        Simple.Names state simple

/-- A dynamic state occurs in some compound of a complex selector. -/
def Complex.Names (complex : Complex) (state : DynamicState) : Prop :=
  ∃ simple, complex.Has simple ∧ simple.Names state

section

variable {state : DynamicState}

/-- A simple selector names a state if it is the state or has it in its list. -/
theorem Simple.names_iff {simple : Simple} :
    simple.Names state ↔
      simple = .atom (.pseudoClass (.dynamic state)) ∨
        ∃ complex ∈ simple.list, complex.Names state := by
  constructor
  · intro h
    cases h with
    | here => exact Or.inl rfl
    | within hmem hhas hnames => exact Or.inr ⟨_, hmem, _, hhas, hnames⟩
  · rintro (rfl | ⟨complex, hmem, inner, hhas, hnames⟩)
    · exact Simple.Names.here
    · exact Simple.Names.within hmem hhas hnames

/-- An atom holds no list. -/
theorem Atom.names_iff {atom : Atom} :
    (Simple.atom atom).Names state ↔ atom = .pseudoClass (.dynamic state) := by
  rw [Simple.names_iff, Simple.atom.injEq]
  refine or_iff_left ?_
  rintro ⟨complex, hmem, -⟩
  exact absurd hmem List.not_mem_nil

/-- In what is not an atom a state occurs within the list. -/
theorem Simple.names_iff_of_ne {simple : Simple} (h : ∀ atom, simple ≠ .atom atom) :
    simple.Names state ↔ ∃ complex ∈ simple.list, complex.Names state := by
  rw [Simple.names_iff]
  exact or_iff_right (h _)

private theorem Complex.has_relative_iff {left : Complex} {combinator : Combinator}
    {simples : List Simple}
    {simple : Simple} :
    (Complex.relative left combinator simples).Has simple ↔ left.Has simple ∨ simple ∈ simples := by
  show simple ∈ simples ∨ (∃ link ∈ (combinator, left.subject) :: left.chain, simple ∈ link.2) ↔ _
  rw [List.exists_mem_cons_iff, or_comm]
  exact Iff.rfl

private theorem Complex.names_compound_iff {simples : List Simple} :
    (Complex.compound simples).Names state ↔ ∃ simple ∈ simples, simple.Names state := by
  refine exists_congr fun simple => and_congr_left fun _ => ?_
  exact or_iff_left fun ⟨_, hlink, _⟩ => nomatch hlink

private theorem Complex.names_relative_iff {left : Complex} {combinator : Combinator}
    {simples : List Simple} :
    (Complex.relative left combinator simples).Names state ↔
      left.Names state ∨ ∃ simple ∈ simples, simple.Names state := by
  simp only [Complex.Names, Complex.has_relative_iff, or_and_right, exists_or]

end

/-! ## The states from left to right -/

/-- The dynamic state that an atom names. -/
def Atom.dynamicStates : Atom → List DynamicState
  | .pseudoClass (.dynamic state) => [state]
  | _ => []

mutual

/-- The dynamic states that a simple selector names at any depth. -/
def Simple.dynamicStates : Simple → List DynamicState
  | .atom a => a.dynamicStates
  | .negation list => listDynamicStates list
  | .isAny list => listDynamicStates list
  | .whereAny list => listDynamicStates list

/-- The dynamic states that a complex selector names in any compound, from left to right. -/
def Complex.dynamicStates : Complex → List DynamicState
  | .compound simples => compoundDynamicStates simples
  | .relative left _ simples => left.dynamicStates ++ compoundDynamicStates simples

/-- The dynamic states that a compound names. -/
def compoundDynamicStates : List Simple → List DynamicState
  | [] => []
  | simple :: rest => simple.dynamicStates ++ compoundDynamicStates rest

/-- The dynamic states that the selectors of a list name. -/
def listDynamicStates : List Complex → List DynamicState
  | [] => []
  | complex :: rest => complex.dynamicStates ++ listDynamicStates rest

end

section

variable {state : DynamicState}

/-- The states collected from an atom are those that it names. -/
theorem Atom.mem_dynamicStates_iff (atom : Atom) :
    state ∈ atom.dynamicStates ↔ (Simple.atom atom).Names state := by
  rw [Atom.names_iff]
  cases atom with
  | pseudoClass pseudoClass =>
    cases pseudoClass with
    | dynamic other =>
      show state ∈ [other] ↔ _
      rw [List.mem_singleton, Atom.pseudoClass.injEq, PseudoClass.dynamic.injEq, eq_comm]
    | _ => exact iff_of_false nofun nofun
  | _ => exact iff_of_false nofun nofun

mutual

/-- The states collected from a simple selector are those that it names. -/
theorem Simple.mem_dynamicStates_iff : (simple : Simple) →
    (state ∈ simple.dynamicStates ↔ simple.Names state)
  | .atom a => a.mem_dynamicStates_iff
  | .negation list => by
    rw [Simple.names_iff_of_ne (by simp)]
    exact mem_listDynamicStates_iff list
  | .isAny list => by
    rw [Simple.names_iff_of_ne (by simp)]
    exact mem_listDynamicStates_iff list
  | .whereAny list => by
    rw [Simple.names_iff_of_ne (by simp)]
    exact mem_listDynamicStates_iff list

/-- The states collected from a complex selector are those that it names. -/
theorem Complex.mem_dynamicStates_iff : (complex : Complex) →
    (state ∈ complex.dynamicStates ↔ complex.Names state)
  | .compound simples =>
    (mem_compoundDynamicStates_iff simples).trans Complex.names_compound_iff.symm
  | .relative left combinator simples => by
    rw [Complex.dynamicStates, List.mem_append, Complex.mem_dynamicStates_iff left,
      mem_compoundDynamicStates_iff simples, Complex.names_relative_iff]

private theorem mem_compoundDynamicStates_iff : (simples : List Simple) →
    (state ∈ compoundDynamicStates simples ↔ ∃ simple ∈ simples, simple.Names state)
  | [] => iff_of_false nofun nofun
  | simple :: rest => by
    rw [compoundDynamicStates, List.mem_append, Simple.mem_dynamicStates_iff simple,
      mem_compoundDynamicStates_iff rest, List.exists_mem_cons_iff]

private theorem mem_listDynamicStates_iff : (list : List Complex) →
    (state ∈ listDynamicStates list ↔ ∃ complex ∈ list, complex.Names state)
  | [] => iff_of_false nofun nofun
  | complex :: rest => by
    rw [listDynamicStates, List.mem_append, Complex.mem_dynamicStates_iff complex,
      mem_listDynamicStates_iff rest, List.exists_mem_cons_iff]

end

end

/-! ## Lowering -/

namespace Warnings

/-- The warnings with those on some dynamic states. -/
def recordDynamic (warnings : Warnings) (states : List DynamicState) : Warnings :=
  states.foldl (fun w state => (w.record selectorComponent (dynamicMessage state)).2) warnings

/-- States in a row are recorded one after the other. -/
theorem recordDynamic_append (warnings : Warnings) (first second : List DynamicState) :
    warnings.recordDynamic (first ++ second) =
      (warnings.recordDynamic first).recordDynamic second :=
  List.foldl_append

/-- What is recorded are the keys of the states, besides what was before. -/
theorem mem_recordDynamic_iff {states : List DynamicState} (warnings : Warnings) {entry : String} :
    entry ∈ (warnings.recordDynamic states).reported ↔
      entry ∈ warnings.reported ∨
        ∃ state ∈ states, entry = key selectorComponent (dynamicMessage state) := by
  induction states generalizing warnings with
  | nil => exact (or_iff_left nofun).symm
  | cons state states ih =>
    rw [show warnings.recordDynamic (state :: states) =
      (warnings.record selectorComponent (dynamicMessage state)).2.recordDynamic states from rfl]
    rw [ih, ← Std.HashSet.contains_iff_mem, contains_record, Bool.or_eq_true, beq_iff_eq,
      Std.HashSet.contains_iff_mem, List.exists_mem_cons_iff, eq_comm, or_assoc, or_left_comm]

end Warnings

open Reader Warnings

/-- What a computation does whose first part is known. -/
theorem run_bind_eq {α β : Type} {first : StateM Warnings α} {next : α → StateM Warnings β}
    {before between : Warnings} {a : α} (h : first.run before = (a, between)) :
    (first >>= next).run before = (next a).run between := by
  rw [StateT.run_bind, h]
  rfl

/-- Compiling an atom gives its test and records its states. -/
theorem Atom.run_lower (atom : Atom) (warnings : Warnings) :
    atom.lower.run warnings = (atom.test, warnings.recordDynamic atom.dynamicStates) := by
  cases atom with
  | pseudoClass pseudoClass =>
    cases pseudoClass with
    | dynamic state => rfl
    | _ => rfl
  | _ => rfl

mutual

/-- Compiling a simple selector gives its test and records its states. -/
theorem Simple.run_lower : (simple : Simple) → (warnings : Warnings) →
    simple.lower.run warnings = (simple.test, warnings.recordDynamic simple.dynamicStates)
  | .atom a, warnings => a.run_lower warnings
  | .negation list, warnings => run_bind_eq (run_lowerList list warnings)
  | .isAny list, warnings => run_bind_eq (run_lowerList list warnings)
  | .whereAny list, warnings => run_bind_eq (run_lowerList list warnings)

/-- Compiling a complex selector gives its test and records its states. -/
theorem Complex.run_lower : (complex : Complex) → (warnings : Warnings) →
    complex.lower.run warnings = (complex.test, warnings.recordDynamic complex.dynamicStates)
  | .compound simples, warnings => run_bind_eq (run_lowerCompound simples warnings)
  | .relative left combinator simples, warnings => by
    rw [Complex.lower, run_bind_eq (Complex.run_lower left warnings),
      run_bind_eq (run_lowerCompound simples _), Complex.dynamicStates, recordDynamic_append]
    rfl

private theorem run_lowerCompound : (simples : List Simple) → (warnings : Warnings) →
    (lowerCompound simples).run warnings =
      (compoundTests simples, warnings.recordDynamic (compoundDynamicStates simples))
  | [], _ => rfl
  | simple :: rest, warnings => by
    rw [lowerCompound, run_bind_eq (Simple.run_lower simple warnings),
      run_bind_eq (run_lowerCompound rest _), compoundDynamicStates, recordDynamic_append]
    rfl

private theorem run_lowerList : (list : List Complex) → (warnings : Warnings) →
    (lowerList list).run warnings =
      (listTests list, warnings.recordDynamic (listDynamicStates list))
  | [], _ => rfl
  | complex :: rest, warnings => by
    rw [lowerList, run_bind_eq (Complex.run_lower complex warnings),
      run_bind_eq (run_lowerList rest _), listDynamicStates, recordDynamic_append]
    rfl

end

/-- Compiling a selector gives its compiled form and records its states. -/
theorem Selector.run_lower (selector : Selector) (warnings : Warnings) :
    selector.lower.run warnings =
      (selector.compile, warnings.recordDynamic selector.complex.dynamicStates) :=
  run_bind_eq (selector.complex.run_lower warnings)

/-- Compiling several selectors records their states in order. -/
theorem run_mapM_lower (selectors : List Selector) (warnings : Warnings) :
    (selectors.mapM Selector.lower).run warnings =
      (selectors.map Selector.compile,
        warnings.recordDynamic (selectors.flatMap (·.complex.dynamicStates))) := by
  induction selectors generalizing warnings with
  | nil => rfl
  | cons selector selectors ih =>
    rw [List.mapM_cons, run_bind_eq (selector.run_lower warnings), run_bind_eq (ih _),
      List.flatMap_cons, recordDynamic_append]
    rfl

/-! ## Compiling a text -/

/-- A text that cannot be read records nothing. -/
theorem compileRecording_of_error {namespaces : Namespaces} {text : String}
    {failure : ParseFailure} (h : parseSelectors namespaces text = .error failure)
    (warnings : Warnings) :
    warnings.compileRecording namespaces text = (.error failure, warnings) := by
  rw [compileRecording, h]

/-- A text that can be read records the states of its selectors. -/
theorem compileRecording_of_ok {namespaces : Namespaces} {text : String}
    {selectors : List Selector} (h : parseSelectors namespaces text = .ok selectors)
    (warnings : Warnings) :
    warnings.compileRecording namespaces text =
      (.ok (selectors.map Selector.compile),
        warnings.recordDynamic (selectors.flatMap (·.complex.dynamicStates))) := by
  rw [compileRecording, h]
  show (Except.ok ((selectors.mapM Selector.lower).run warnings).1,
    ((selectors.mapM Selector.lower).run warnings).2) = _
  rw [run_mapM_lower]

/-- A name after a colon is that of a dynamic state exactly if it is so in lower case. -/
theorem readPart_dynamic_iff {ctx : Context} {written : String} {rest : List Token}
    {state : DynamicState} :
    readPart ctx (.colon :: .ident written :: rest) =
        .ok (some (.simple (.atom (.pseudoClass (.dynamic state)))), rest) ↔
      written.toLower = state.name := by
  have hnames : (written.toLower, .dynamic state) ∈ Grammar.pseudoClassNames ↔
      written.toLower = state.name := by
    generalize written.toLower = lower
    cases state <;> simp [Grammar.pseudoClassNames, DynamicState.all, DynamicState.name]
  rw [← hnames]
  constructor
  · intro h
    obtain ⟨⟨part, after⟩, hpseudo, h⟩ := bind_eq_ok.1 h
    obtain ⟨hpart, rfl⟩ := Prod.mk.inj (Except.ok.inj h)
    obtain rfl := Option.some.inj hpart
    obtain ⟨_, hname, heq⟩ := map_eq_ok.1 hpseudo
    obtain ⟨rfl, -⟩ := Prod.mk.inj heq
    obtain ⟨pseudoClass, hclass, hsimple⟩ := Grammar.partOfName_simple_iff.1 hname
    obtain ⟨⟩ := hsimple
    exact hclass
  · intro h
    refine bind_eq_ok.2 ⟨(.simple (.atom (.pseudoClass (.dynamic state))), rest), ?_, rfl⟩
    exact map_eq_ok.2 ⟨_, Grammar.partOfName_simple_iff.2 ⟨_, h, rfl⟩, rfl⟩

/-- Compiling gives what it gives without reports. A text that is refused leaves the warnings as
    they were. For any other one those on the dynamic states that occur in it are added, and no
    others; wherever the name of a state stands in the text, it is read in lower case. -/
theorem reported_compileRecording (warnings : Warnings) (namespaces : Namespaces)
    (text : String) :
    (warnings.compileRecording namespaces text).1 = compileSelectors namespaces text ∧
      (∀ failure, compileSelectors namespaces text = .error failure →
        (warnings.compileRecording namespaces text).2 = warnings) ∧
      (∀ selectors, parseSelectors namespaces text = .ok selectors →
        ∀ entry, entry ∈ (warnings.compileRecording namespaces text).2.reported ↔
          entry ∈ warnings.reported ∨
            ∃ selector ∈ selectors, ∃ state, selector.complex.Names state ∧
              entry = key selectorComponent (dynamicMessage state)) ∧
      ∀ ctx written rest state,
        readPart ctx (.colon :: .ident written :: rest) =
            .ok (some (.simple (.atom (.pseudoClass (.dynamic state)))), rest) ↔
          written.toLower = state.name := by
  refine ⟨?_, fun failure hfailure => ?_, fun selectors hselectors entry => ?_,
    fun ctx written rest state => readPart_dynamic_iff⟩
  · cases hparse : parseSelectors namespaces text with
    | error failure =>
      rw [compileRecording_of_error hparse, compileSelectors, hparse]
      rfl
    | ok selectors =>
      rw [compileRecording_of_ok hparse, compileSelectors, hparse]
      rfl
  · cases hparse : parseSelectors namespaces text with
    | error other => rw [compileRecording_of_error hparse]
    | ok selectors =>
      rw [compileSelectors, hparse] at hfailure
      exact nomatch hfailure
  · rw [compileRecording_of_ok hselectors, mem_recordDynamic_iff]
    refine or_congr_right ?_
    simp only [List.mem_flatMap, Complex.mem_dynamicStates_iff]
    constructor
    · rintro ⟨state, ⟨selector, hmem, hnames⟩, hentry⟩
      exact ⟨selector, hmem, state, hnames, hentry⟩
    · rintro ⟨selector, hmem, state, hnames, hentry⟩
      exact ⟨state, ⟨selector, hmem, hnames⟩, hentry⟩

/-- What `a:HOVER b, p:not(:is(:focus, *))` is read as. The second selector would hold of nothing if
    some element had the focus, either. -/
def hoverOrFocus : List Selector :=
  [⟨.relative (.compound [.atom (.typeName "a"), .atom (.pseudoClass (.dynamic .hover))]) .descendant
      [.atom (.typeName "b")], none⟩,
    ⟨.compound [.atom (.typeName "p"),
      .negation [.compound [.isAny [.compound [.atom (.pseudoClass (.dynamic .focus))],
        .compound []]]]], none⟩]

private theorem names_hoverOrFocus :
    ∃ selector ∈ hoverOrFocus, ∃ state, selector.complex.Names state ∧
      "[Selectors] :focus never matches a static document; selectors using it are dropped" =
        key selectorComponent (dynamicMessage state) :=
  ⟨_, List.mem_cons_of_mem _ List.mem_cons_self, .focus,
    (Complex.mem_dynamicStates_iff _).1 (by decide), by decide +kernel⟩

/-- The focus is reported although the test is constant, and nothing is reported of the first
    selector of a text that is refused. -/
theorem reported_compileRecording_hoverOrFocus :
    parseSelectors .empty "a:HOVER b, p:not(:is(:focus, *))" = .ok hoverOrFocus ∧
      "[Selectors] :focus never matches a static document; selectors using it are dropped" ∈
        (Warnings.empty.compileRecording .empty "a:HOVER b, p:not(:is(:focus, *))").2.reported ∧
      compileSelectors .empty "a:hover," = reject .empty ∧
      (Warnings.empty.compileRecording .empty "a:hover,").2 = Warnings.empty := by
  have hparse : parseSelectors .empty "a:HOVER b, p:not(:is(:focus, *))" = .ok hoverOrFocus := by
    with_unfolding_all rfl
  have hrefused : compileSelectors .empty "a:hover," = reject .empty := by
    with_unfolding_all rfl
  obtain ⟨-, -, hreported, -⟩ :=
    reported_compileRecording .empty .empty "a:HOVER b, p:not(:is(:focus, *))"
  obtain ⟨-, hsame, -, -⟩ := reported_compileRecording .empty .empty "a:hover,"
  exact ⟨hparse, (hreported _ hparse _).2 (Or.inr names_hoverOrFocus), hrefused, hsame _ hrefused⟩

end Selectors
