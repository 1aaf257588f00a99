import Selectors.Query
import Std.Data.HashSet

/-!
# Warnings — what has been reported so far

A warning names the component that it comes from and says one thing. It is reported once, and
what was reported is remembered as text: the component in brackets and the message after it.

The dynamic states of a selector are reported on the way to its test, each where it is come across.
The tests are folded when all of a compound or a list have been made, so nothing is passed over.

* **`record`** — report a warning unless it was reported before.
* **`Complex.lower`** — the test of a complex selector, with the dynamic states in it reported.
* **`compileRecording`** — compile selectors and report the dynamic states that they name.
-/

namespace Selectors

/-- The warnings reported since the last time that they were forgotten. -/
structure Warnings where
  reported : Std.HashSet String := {}

namespace Warnings

/-- Nothing has been reported. -/
def empty : Warnings := {}

/-- The text by which a warning is remembered. -/
def key (component message : String) : String :=
  "[" ++ component ++ "] " ++ message

/-- Whether a warning is new, and the warnings with it. -/
def record (warnings : Warnings) (component message : String) : Bool × Warnings :=
  (!warnings.reported.contains (key component message),
    ⟨warnings.reported.insert (key component message)⟩)

/-- A text is remembered after a warning exactly if it is the warning's or was remembered
    before. -/
theorem contains_record (warnings : Warnings) (component message text : String) :
    (warnings.record component message).2.reported.contains text =
      (key component message == text || warnings.reported.contains text) := by
  simp [record, Std.HashSet.contains_insert]

/-- The component that selectors are compiled by. -/
def selectorComponent : String := "Selectors"

/-- What is said of a selector that names a dynamic state. -/
def dynamicMessage (state : DynamicState) : String :=
  ":" ++ state.name ++ " never matches a static document; selectors using it are dropped"

/-- Report a warning; the answer is whether it is new. -/
def report (component message : String) : StateM Warnings Bool :=
  fun warnings => warnings.record component message

end Warnings

/-! ## Lowering -/

open Warnings

/-- The test of an atom. A dynamic state is reported. -/
def Atom.lower : Atom → StateM Warnings Test
  | .pseudoClass (.dynamic state) => do
    let _ ← report selectorComponent (dynamicMessage state)
    return .never
  | atom => return atom.test

mutual

/-- The test of a simple selector, with the dynamic states in it reported. -/
def Simple.lower : Simple → StateM Warnings Test
  | .atom a => a.lower
  | .negation list => do return (Test.anyOf (← lowerList list)).negation
  | .isAny list => do return Test.anyOf (← lowerList list)
  | .whereAny list => do return Test.anyOf (← lowerList list)

/-- The test of a complex selector, with the dynamic states in it reported from left to right. -/
def Complex.lower : Complex → StateM Warnings Test
  | .compound simples => do return Test.allOf (← lowerCompound simples)
  | .relative left combinator simples => do
    let test ← left.lower
    return Test.joined test combinator (Test.allOf (← lowerCompound simples))

/-- The tests of the simple selectors of a compound, one after the other. -/
def lowerCompound : List Simple → StateM Warnings (List Test)
  | [] => return []
  | simple :: rest => do
    let test ← simple.lower
    return test :: (← lowerCompound rest)

/-- The tests of the selectors of a list, one after the other. -/
def lowerList : List Complex → StateM Warnings (List Test)
  | [] => return []
  | complex :: rest => do
    let test ← complex.lower
    return test :: (← lowerList rest)

end

/-- The compiled form of a selector, with the dynamic states in it reported. -/
def Selector.lower (selector : Selector) : StateM Warnings (CompiledSelector Test) := do
  let test ← selector.complex.lower
  return {
    test
    specificity := selector.specificity
    keys := selector.complex.keys
    neverMatches := test.isNever
    pseudoElement? := selector.pseudoElement? }

/-- The compiled selectors of a text, and the warnings with those on the dynamic states that the
    selectors name. A text that is refused gives no warning. -/
def Warnings.compileRecording (warnings : Warnings) (namespaces : Namespaces) (text : String) :
    Reading (List (CompiledSelector Test)) × Warnings :=
  match parseSelectors namespaces text with
  | .error failure => (.error failure, warnings)
  | .ok selectors =>
    let (compiled, warnings) := (selectors.mapM Selector.lower).run warnings
    (.ok compiled, warnings)

end Selectors
