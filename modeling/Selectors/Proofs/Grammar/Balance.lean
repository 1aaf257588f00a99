import Selectors.Proofs.Grammar.Lists

/-!
# Balance — what the parser accepts has every parenthesis closed

Parentheses stand in a selector list only where a function has arguments, and these are balanced by
rule; everything else is made of tokens that neither open nor close. Whether tokens are balanced can
also be told by counting, with no regard to what stands between two parentheses.

* **`SelectorList.balanced`** — the tokens of a list are balanced.
* **`ParensMatch`** and **`balanced_iff_parensMatch`** — balance by counting.
-/

namespace Selectors

namespace Grammar

variable {namespaces : Namespaces} {Inner : List Token → List Selector → Prop}

/-- Balanced tokens in a row are balanced. -/
theorem Balanced.append {front back : List Token} (hfront : Balanced front)
    (hback : Balanced back) : Balanced (front ++ back) := by
  induction hfront with
  | nil => exact hback
  | plain hfunction hopening hclosing _ ih =>
    exact Balanced.plain hfunction hopening hclosing ih
  | group hopening hinside _ _ ih =>
    rw [List.append_assoc, List.cons_append]
    exact Balanced.group hopening hinside ih

/-- The token neither opens nor closes. -/
def IsFlat (token : Token) : Prop :=
  (∀ name, token ≠ .function name) ∧ token ≠ .leftParen ∧ token ≠ .rightParen

/-- Tokens without parentheses are balanced. -/
theorem balanced_of_isFlat {tokens : List Token} (h : ∀ token ∈ tokens, IsFlat token) :
    Balanced tokens := by
  induction tokens with
  | nil => exact Balanced.nil
  | cons token tokens ih =>
    obtain ⟨hfunction, hopening, hclosing⟩ := h token List.mem_cons_self
    exact Balanced.plain hfunction hopening hclosing
      (ih fun token htoken => h token (List.mem_cons_of_mem _ htoken))

/-- A token that is no parenthesis keeps the balance. -/
theorem Balanced.cons {token : Token} {tokens : List Token} (htoken : IsFlat token)
    (h : Balanced tokens) : Balanced (token :: tokens) :=
  Balanced.plain htoken.1 htoken.2.1 htoken.2.2 h

/-- Blanks are balanced. -/
theorem Blanks.balanced {tokens : List Token} (h : Blanks tokens) : Balanced tokens := by
  refine balanced_of_isFlat fun token htoken => ?_
  rw [h token htoken]
  exact ⟨nofun, nofun, nofun⟩

private theorem balanced_delims (chars : List Char) : Balanced (chars.map Token.delim) := by
  refine balanced_of_isFlat fun token htoken => ?_
  obtain ⟨c, -, rfl⟩ := List.mem_map.1 htoken
  exact ⟨nofun, nofun, nofun⟩

/-- A name or a string keeps the balance. -/
theorem Text.balanced {token : Token} {text : String} (h : Text token text) {rest : List Token}
    (hrest : Balanced rest) : Balanced (token :: rest) := by
  cases h with
  | name => exact Balanced.cons ⟨nofun, nofun, nofun⟩ hrest
  | quoted => exact Balanced.cons ⟨nofun, nofun, nofun⟩ hrest

/-- A name keeps the balance. -/
theorem balanced_ident (name : String) {rest : List Token} (hrest : Balanced rest) :
    Balanced (.ident name :: rest) :=
  Balanced.cons ⟨nofun, nofun, nofun⟩ hrest

/-- A sign keeps the balance. -/
theorem balanced_delim (c : Char) {rest : List Token} (hrest : Balanced rest) :
    Balanced (.delim c :: rest) :=
  Balanced.cons ⟨nofun, nofun, nofun⟩ hrest

/-- A type is balanced. -/
theorem TypePart.balanced {tokens : List Token} {conditions : List Simple}
    (h : TypePart namespaces tokens conditions) : Balanced tokens := by
  cases h with
  | absent => exact Balanced.nil
  | written hqualifier hname =>
    refine Balanced.append ?_ ?_
    · cases hqualifier with
      | declared => exact balanced_ident _ (balanced_delim _ Balanced.nil)
      | any => exact balanced_delim _ (balanced_delim _ Balanced.nil)
      | empty => exact balanced_delim _ Balanced.nil
      | absent => exact Balanced.nil
    · cases hname with
      | name => exact balanced_ident _ Balanced.nil
      | asterisk => exact balanced_delim _ Balanced.nil

/-- The namespace of an attribute is balanced. -/
theorem Scope.balanced {tokens : List Token} {scope : AttributeScope}
    (h : Scope namespaces tokens scope) : Balanced tokens := by
  cases h with
  | declared => exact balanced_ident _ (balanced_delim _ Balanced.nil)
  | any => exact balanced_delim _ (balanced_delim _ Balanced.nil)
  | empty => exact balanced_delim _ Balanced.nil
  | absent => exact Balanced.nil

/-- A condition on an attribute is balanced. -/
theorem Attribute.balanced {tokens : List Token} {test : AttributeTest}
    (h : Attribute namespaces tokens test) : Balanced tokens := by
  have hclosing : Balanced [.rightBracket] := Balanced.cons ⟨nofun, nofun, nofun⟩ Balanced.nil
  cases h with
  | presence hfront hscope hback =>
    exact ((hfront.balanced.append hscope.balanced).append
      (balanced_ident _ hback.balanced)).append hclosing
  | comparison hfront hscope hmiddle hgap htext hback =>
    exact (((((hfront.balanced.append hscope.balanced).append
      (balanced_ident _ hmiddle.balanced)).append (balanced_delims _)).append
        hgap.balanced).append (htext.balanced hback.balanced)).append hclosing

/-- A condition is balanced: the arguments of a function are by the grammar. -/
theorem Condition.balanced {tokens : List Token} {simple : Simple}
    (h : Condition namespaces Inner tokens simple) : Balanced tokens := by
  cases h with
  | id => exact Balanced.cons ⟨nofun, nofun, nofun⟩ Balanced.nil
  | className => exact balanced_delim _ (balanced_ident _ Balanced.nil)
  | bracketed hattribute => exact Balanced.cons ⟨nofun, nofun, nofun⟩ hattribute.balanced
  | pseudoClass => exact Balanced.cons ⟨nofun, nofun, nofun⟩ (balanced_ident _ Balanced.nil)
  | function hbalanced _ =>
    exact Balanced.cons ⟨nofun, nofun, nofun⟩
      (Balanced.group (Or.inl ⟨_, rfl⟩) hbalanced Balanced.nil)

/-- Conditions in a row are balanced. -/
theorem Conditions.balanced {tokens : List Token} {simples : List Simple}
    (h : Conditions namespaces Inner tokens simples) : Balanced tokens := by
  induction h with
  | nil => exact Balanced.nil
  | cons hfirst _ ih => exact hfirst.balanced.append ih

/-- A pseudo-element is balanced. -/
theorem Ending.balanced {tokens : List Token} {pseudoElement? : Option PseudoElement}
    (h : Ending tokens pseudoElement?) : Balanced tokens := by
  cases h with
  | absent => exact Balanced.nil
  | double =>
    exact Balanced.cons ⟨nofun, nofun, nofun⟩
      (Balanced.cons ⟨nofun, nofun, nofun⟩ (balanced_ident _ Balanced.nil))
  | single => exact Balanced.cons ⟨nofun, nofun, nofun⟩ (balanced_ident _ Balanced.nil)

/-- A compound is balanced. -/
theorem Compound.balanced {tokens : List Token} {simples : List Simple}
    {pseudoElement? : Option PseudoElement}
    (h : Compound namespaces Inner tokens simples pseudoElement?) : Balanced tokens := by
  obtain ⟨hfront, hmiddle, hback, -⟩ := h
  exact (hfront.balanced.append hmiddle.balanced).append hback.balanced

/-- A combinator is balanced. -/
theorem Joint.balanced {tokens : List Token} {combinator : Combinator}
    (h : Joint tokens combinator) : Balanced tokens := by
  cases h with
  | blank hblanks _ => exact hblanks.balanced
  | sign hfront _ hback => exact hfront.balanced.append (balanced_delim _ hback.balanced)

/-- A complex selector is balanced. -/
theorem Sequence.balanced {tokens : List Token} {complex : Complex}
    {pseudoElement? : Option PseudoElement}
    (h : Sequence namespaces Inner tokens complex pseudoElement?) : Balanced tokens := by
  induction h with
  | single hcompound => exact hcompound.balanced
  | join _ hjoint hright ih => exact (ih.append hjoint.balanced).append hright.balanced

/-- The tokens of a selector list are balanced. -/
theorem SelectorList.balanced {tokens : List Token} {selectors : List Selector}
    (h : SelectorList namespaces Inner tokens selectors) : Balanced tokens := by
  induction h with
  | last hfront hused hback => exact (hfront.balanced.append hused.balanced).append hback.balanced
  | more hfront hused hback _ ih =>
    exact ((hfront.balanced.append hused.balanced).append hback.balanced).append
      (Balanced.cons ⟨nofun, nofun, nofun⟩ ih)

/-! ## Counting parentheses -/

/-- The token opens a parenthesis; a function is written with one. -/
def opens : Token → Bool
  | .function _ | .leftParen => true
  | _ => false

/-- How many parentheses the tokens open. -/
def openings (tokens : List Token) : Nat :=
  tokens.countP opens

/-- How many parentheses the tokens close. -/
def closings (tokens : List Token) : Nat :=
  tokens.count .rightParen

/-- Every parenthesis is closed, and none is that was not opened before. -/
structure ParensMatch (tokens : List Token) : Prop where
  closings_le : ∀ front, front <+: tokens → closings front ≤ openings front
  closings_eq : closings tokens = openings tokens

/-- Opening parentheses add up. -/
theorem openings_append (front back : List Token) :
    openings (front ++ back) = openings front + openings back :=
  List.countP_append

/-- Closing parentheses add up. -/
theorem closings_append (front back : List Token) :
    closings (front ++ back) = closings front + closings back :=
  List.count_append

/-- A parenthesis is opened by a function or by itself. -/
theorem opens_iff {token : Token} :
    opens token = true ↔ (∃ name, token = .function name) ∨ token = .leftParen := by
  cases token with
  | function name => exact iff_of_true rfl (Or.inl ⟨name, rfl⟩)
  | leftParen => exact iff_of_true rfl (Or.inr rfl)
  | _ => exact iff_of_false nofun (by simp)

private theorem openings_cons_of_opens {token : Token} (h : opens token = true)
    (tokens : List Token) :
    openings (token :: tokens) = openings tokens + 1 :=
  List.countP_cons_of_pos h

private theorem openings_cons_of_not_opens {token : Token} (h : ¬ opens token = true)
    (tokens : List Token) : openings (token :: tokens) = openings tokens :=
  List.countP_cons_of_neg h

private theorem closings_cons_of_ne {token : Token} (h : token ≠ .rightParen)
    (tokens : List Token) :
    closings (token :: tokens) = closings tokens :=
  List.count_cons_of_ne h

private theorem closings_cons_rightParen (tokens : List Token) :
    closings (.rightParen :: tokens) = closings tokens + 1 :=
  List.count_cons_self

private theorem ne_rightParen_of_opens {token : Token} (h : opens token = true) :
    token ≠ .rightParen := by
  rintro rfl
  exact nomatch h

private theorem parensMatch_nil : ParensMatch [] where
  closings_le := by
    intro front hfront
    rw [List.prefix_nil.1 hfront]
    exact Nat.le_refl 0
  closings_eq := rfl

/-- What matches side by side matches together: the first part leaves nothing open. -/
theorem ParensMatch.append {front back : List Token} (hfront : ParensMatch front)
    (hback : ParensMatch back) : ParensMatch (front ++ back) where
  closings_le := by
    rintro start ⟨rest, hstart⟩
    rcases List.append_eq_append_iff.1 hstart with ⟨more, hmore, -⟩ | ⟨more, rfl, hmore⟩
    · exact hfront.closings_le start ⟨more, hmore.symm⟩
    · have hle := hback.closings_le more ⟨rest, hmore.symm⟩
      have heq := hfront.closings_eq
      rw [closings_append, openings_append]
      omega
  closings_eq := by
    rw [closings_append, openings_append, hfront.closings_eq, hback.closings_eq]

/-- A token that is no parenthesis changes no count. -/
theorem ParensMatch.cons {token : Token} {tokens : List Token} (hopens : ¬ opens token = true)
    (hne : token ≠ .rightParen) (h : ParensMatch tokens) : ParensMatch (token :: tokens) where
  closings_le := by
    intro front hfront
    rcases List.prefix_cons_iff.1 hfront with rfl | ⟨start, rfl, hstart⟩
    · exact Nat.le_refl 0
    · rw [closings_cons_of_ne hne, openings_cons_of_not_opens hopens]
      exact h.closings_le start hstart
  closings_eq := by
    rw [closings_cons_of_ne hne, openings_cons_of_not_opens hopens]
    exact h.closings_eq

/-- Matching parentheses match with one more pair around them. -/
theorem ParensMatch.enclosed {opening : Token} {inside : List Token}
    (hopens : opens opening = true) (h : ParensMatch inside) :
    ParensMatch (opening :: (inside ++ [.rightParen])) where
  closings_le := by
    intro front hfront
    rcases List.prefix_cons_iff.1 hfront with rfl | ⟨start, rfl, hstart⟩
    · exact Nat.le_refl 0
    · rw [closings_cons_of_ne (ne_rightParen_of_opens hopens), openings_cons_of_opens hopens]
      rcases List.prefix_concat_iff.1 hstart with rfl | hstart
      · rw [closings_append, openings_append, h.closings_eq]
        exact Nat.le_refl _
      · exact Nat.le_succ_of_le (h.closings_le start hstart)
  closings_eq := by
    rw [closings_cons_of_ne (ne_rightParen_of_opens hopens), openings_cons_of_opens hopens,
      closings_append, openings_append, closings_cons_rightParen, h.closings_eq]
    rfl

/-- Tokens that close what they open and some more parentheses are cut at these. -/
theorem closes_of_closings {depth : Nat} {tokens : List Token}
    (hle : ∀ front, front <+: tokens → closings front ≤ openings front + depth)
    (heq : closings tokens = openings tokens + depth) : Closes depth tokens := by
  induction tokens generalizing depth with
  | nil =>
    obtain rfl : depth = 0 := by
      have hnone : closings [] = 0 + depth := heq
      rw [show closings [] = 0 from rfl] at hnone
      omega
    exact Closes.one Balanced.nil
  | cons token tokens ih =>
    have htail : ∀ front, front <+: tokens →
        closings (token :: front) ≤ openings (token :: front) + depth :=
      fun front hfront => hle _ (List.cons_prefix_cons.2 ⟨rfl, hfront⟩)
    by_cases hopens : opens token = true
    · have hne := ne_rightParen_of_opens hopens
      simp only [closings_cons_of_ne hne, openings_cons_of_opens hopens] at htail heq
      refine Closes.group (opens_iff.1 hopens) (ih (fun front hfront => ?_) (by omega))
      have hfront := htail front hfront
      omega
    · by_cases hclosing : token = .rightParen
      · subst hclosing
        simp only [closings_cons_rightParen, openings_cons_of_not_opens hopens] at htail heq
        cases depth with
        | zero =>
          -- nothing is open that the parenthesis could close
          have hnone := htail [] List.nil_prefix
          exact absurd hnone (by decide)
        | succ depth =>
          refine Closes.more Balanced.nil (ih (fun front hfront => ?_) (by omega))
          have hfront := htail front hfront
          omega
      · simp only [closings_cons_of_ne hclosing, openings_cons_of_not_opens hopens] at htail heq
        refine Closes.plain ?_ ?_ hclosing (ih htail heq)
        · rintro name rfl
          exact hopens rfl
        · rintro rfl
          exact hopens rfl

/-- Counting tells which tokens are nested properly. -/
theorem balanced_iff_parensMatch {tokens : List Token} : Balanced tokens ↔ ParensMatch tokens := by
  constructor
  · intro h
    induction h with
    | nil => exact parensMatch_nil
    | plain hfunction hleft hright _ ih =>
      refine ih.cons ?_ hright
      rw [opens_iff]
      rintro (⟨name, rfl⟩ | rfl)
      · exact hfunction name rfl
      · exact hleft rfl
    | @group opening inside rest hopening _ _ ihinside ihrest =>
      have hgroup := (ihinside.enclosed (opens_iff.2 hopening)).append ihrest
      rwa [List.cons_append, List.append_assoc] at hgroup
  · intro h
    have hcloses : Closes 0 tokens := closes_of_closings h.closings_le h.closings_eq
    cases hcloses with
    | one hinside => exact hinside

end Grammar

end Selectors
