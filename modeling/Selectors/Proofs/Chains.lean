import Selectors.Selector.Parser.Equations
import Selectors.Test.Basic

/-!
# Chains — complex selectors from their right end

A `Complex` is nested to the left: each compound stands beside all that was read before it. The other
way to hold a complex selector is its subject with a chain, in which the compounds to the left follow
from the nearest to the farthest, each behind the combinator on its right. Nothing is lost on the way
from one to the other.

What is read and what is compiled can be said of either. Read from left to right, `A > B C` gives the
compounds `A`, `B`, `C` and the combinators `>` and blank; the last compound is the subject, and the
others with the combinators on their right are the chain backwards. A test is made of a chain from
its far end, with one combinator pending that leads from the next compound to what is made already.

* **`Complex.ofChain`** — the complex selector of a subject and a chain.
* **`Complex.ofCompounds`** — that of compounds and combinators in the order of the text.
* **`Reader.readSelector_eq_gatherSelector`** — reading into two lists and reversing them at the end
  gives what `readSelector` gives.
* **`Complex.test_eq_chainTest`** — the test made from the far end of the chain is the test.
-/

namespace Selectors

namespace Complex

/-- The complex selector of a subject and what is to the left of it. -/
def ofChain (subject : List Simple) : List (Combinator × List Simple) → Complex
  | [] => compound subject
  | (combinator, next) :: chain => relative (ofChain next chain) combinator subject

/-- A complex selector is known from its subject and its chain. -/
theorem ofChain_subject_chain (complex : Complex) :
    ofChain complex.subject complex.chain = complex := by
  induction complex using Complex.chain.induct with
  | case1 simples => rfl
  | case2 left combinator simples ih =>
    rw [chain, ofChain, ih]
    rfl

/-! ## In the order of the text -/

/-- The complex selector of compounds and the combinators between them: the last compound is the
    subject, and the others are the chain from right to left. -/
def ofCompounds (compounds : List (List Simple)) (combinators : List Combinator) : Complex :=
  ofChain (compounds.getLast?.getD [])
    ((compounds.dropLast.zip combinators).reverse.map Prod.swap)

/-- With one more compound on the right, all that was there is to the left of the new subject. -/
theorem ofCompounds_concat {compounds : List (List Simple)} {combinators : List Combinator}
    {simples : List Simple} {combinator : Combinator}
    (hlength : compounds.length = combinators.length + 1) :
    ofCompounds (compounds ++ [simples]) (combinators ++ [combinator]) =
      relative (ofCompounds compounds combinators) combinator simples := by
  obtain rfl | ⟨front, last, rfl⟩ := List.eq_nil_or_concat compounds
  · exact absurd hlength (Nat.zero_ne_add_one _)
  · rw [List.concat_eq_append] at hlength ⊢
    have hfront : front.length = combinators.length := by
      rw [List.length_append] at hlength
      exact Nat.add_right_cancel hlength
    have hzip : (front ++ [last]).zip (combinators ++ [combinator]) =
        front.zip combinators ++ [(last, combinator)] :=
      List.zip_append hfront
    rw [ofCompounds, ofCompounds, List.getLast?_concat, List.getLast?_concat, List.dropLast_concat,
      List.dropLast_concat, hzip, List.reverse_append, List.map_append]
    rfl

end Complex

/-! ## Reading into two lists -/

namespace Reader

/-- What the tokens add to the compounds and combinators that were read, which are put together when
    the selector ends. -/
def gatherRight (ctx : Context) (compounds : List (List Simple)) (combinators : List Combinator)
    (pseudoElement? : Option PseudoElement) (tokens : List Token) :
    Reading (Selector × List Token) :=
  match _joining : readCombinator tokens with
  | .error failure => .error failure
  | .ok (none, rest) => .ok (⟨.ofCompounds compounds combinators, pseudoElement?⟩, rest)
  | .ok (some combinator, rest) =>
    match pseudoElement? with
    | some pseudoElement => reject (.misplacedPseudoElement pseudoElement)
    | none =>
      match _reading : readCompound ctx rest with
      | .error failure => .error failure
      | .ok ((simples, pseudoElement?), rest) =>
        gatherRight ctx (compounds ++ [simples]) (combinators ++ [combinator]) pseudoElement? rest
termination_by tokens.length
decreasing_by
  have joined := length_readCombinator _joining
  have read := length_readCompound_le _reading
  simp only [Option.toList_some, List.length_singleton] at joined
  omega

/-- The selector at the front, read into two lists. -/
def gatherSelector (ctx : Context) (tokens : List Token) : Reading (Selector × List Token) := do
  let ((simples, pseudoElement?), rest) ← readCompound ctx tokens
  gatherRight ctx [simples] [] pseudoElement? rest

/-- As long as there is one compound more than there are combinators, the two lists stand for the
    selector that has been read. -/
theorem gatherRight_eq_readRight {ctx : Context} {compounds : List (List Simple)}
    {combinators : List Combinator} {pseudoElement? : Option PseudoElement} {tokens : List Token}
    (hlength : compounds.length = combinators.length + 1) :
    gatherRight ctx compounds combinators pseudoElement? tokens =
      readRight ctx (.ofCompounds compounds combinators) pseudoElement? tokens := by
  fun_induction gatherRight ctx compounds combinators pseudoElement? tokens with
  | case1 _ _ _ _ failure hcombinator => rw [readRight_eq, hcombinator]
  | case2 _ _ _ _ rest hcombinator => rw [readRight_eq, hcombinator]
  | case3 _ _ _ combinator rest hcombinator pseudoElement => rw [readRight_eq, hcombinator]
  | case4 _ _ _ combinator rest hcombinator failure hcompound =>
    rw [readRight_eq, hcombinator]
    dsimp only
    rw [hcompound]
  | case5 compounds combinators _ combinator rest hcombinator simples _ _ hcompound ih =>
    have hlonger : (compounds ++ [simples]).length = (combinators ++ [combinator]).length + 1 := by
      rw [List.length_append, List.length_append, hlength]
      rfl
    rw [readRight_eq, hcombinator]
    dsimp only
    rw [hcompound]
    dsimp only
    rw [ih hlonger, Complex.ofCompounds_concat hlength]

/-- Reading into two lists that are reversed at the end gives the same as nesting to the left while
    reading: the same selector, the same error and the same tokens left. -/
theorem readSelector_eq_gatherSelector (ctx : Context) (tokens : List Token) :
    readSelector ctx tokens = gatherSelector ctx tokens := by
  rw [readSelector, gatherSelector]
  cases readCompound ctx tokens with
  | error failure => rfl
  | ok read =>
    obtain ⟨⟨simples, pseudoElement?⟩, rest⟩ := read
    exact (@gatherRight_eq_readRight ctx [simples] [] pseudoElement? rest rfl).symm

end Reader

/-! ## The test of a chain -/

/-- The test of a compound. -/
def compoundTest (simples : List Simple) : Test :=
  Test.allOf (compoundTests simples)

/-- One compound more on the right of what is made already, and the combinator after it. -/
def addLink (made : Combinator × Test) (link : Combinator × List Simple) : Combinator × Test :=
  (link.1, Test.joined made.2 made.1 (compoundTest link.2))

/-- The test of a subject and a chain, made from the far end. -/
def chainTest (subject : List Simple) (chain : List (Combinator × List Simple)) : Test :=
  match chain.reverse with
  | [] => compoundTest subject
  | (combinator, farthest) :: links =>
    let (pending, left) := links.foldl addLink (combinator, compoundTest farthest)
    Test.joined left pending (compoundTest subject)

/-- The nearest compound of a chain is the subject of what is to the left of it. -/
theorem chainTest_cons (subject next : List Simple) (combinator : Combinator)
    (chain : List (Combinator × List Simple)) :
    chainTest subject ((combinator, next) :: chain) =
      Test.joined (chainTest next chain) combinator (compoundTest subject) := by
  rw [chainTest, chainTest, List.reverse_cons]
  cases chain.reverse with
  | nil => rfl
  | cons farthest links =>
    rw [List.cons_append]
    dsimp only
    rw [List.foldl_append]
    rfl

/-- The test of a complex selector that is put together from a chain is made of that chain. -/
theorem Complex.test_ofChain (subject : List Simple) (chain : List (Combinator × List Simple)) :
    (ofChain subject chain).test = chainTest subject chain := by
  induction chain generalizing subject with
  | nil => rfl
  | cons link chain ih =>
    obtain ⟨combinator, next⟩ := link
    rw [chainTest_cons, ← ih next]
    rfl

/-- The test of a complex selector is the one that is made of its chain, from the far end to the
    subject. -/
theorem Complex.test_eq_chainTest (complex : Complex) :
    complex.test = chainTest complex.subject complex.chain := by
  rw [← Complex.test_ofChain, Complex.ofChain_subject_chain]

end Selectors
