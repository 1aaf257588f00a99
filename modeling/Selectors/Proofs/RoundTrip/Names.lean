import Selectors.Proofs.RoundTrip.Spelling

/-!
# Names that can be written — the tokens of a text without U+0000

A reader takes characters as they stand, or makes them from escapes, and no escape makes the
character U+0000. So each reader, given a text without it, returns a piece without it and leaves a
text without it; the second half is what carries the claim from one token to the next. A name is
read only where one starts, and so it is not empty.

* **`takeEscape_nulFree`**, **`takeName_nulFree`**, **`takeString_nulFree`** — the readers.
* **`read_isClean`** — one token.
* **`isClean_of_mem_lex`** — all tokens of a text.
-/

namespace Selectors

/-- The names and the content of a token can be written. -/
def Token.IsClean : Token → Prop
  | ident name => Lexer.IsName name
  | function name => Lexer.IsName name
  | hash name _ => Lexer.IsName name
  | string content => Lexer.NulFree content.toList
  | _ => True

namespace Lexer

private theorem nulFree_nil : NulFree [] :=
  List.forall_mem_nil _

private theorem NulFree.of_subset {text part : List Char} (h : NulFree text) (hpart : part ⊆ text) :
    NulFree part :=
  fun c hc => h c (hpart hc)

private theorem NulFree.cons {c : Char} {text : List Char} (hc : c ≠ Char.ofNat 0)
    (h : NulFree text) :
    NulFree (c :: text) := by
  intro d hd
  rcases List.mem_cons.1 hd with rfl | hd
  · exact hc
  · exact h d hd

/-- What follows the first character has no U+0000 either. -/
theorem NulFree.tail {c : Char} {text : List Char} (h : NulFree (c :: text)) : NulFree text :=
  h.of_subset (List.subset_cons_self c text)

/-! ## Readers -/

/-- No number makes the character that cannot be written. -/
theorem charOfNumber_ne (n : Nat) : charOfNumber n ≠ Char.ofNat 0 := by
  unfold charOfNumber
  split
  · next hvalid =>
    obtain ⟨hne, hvalid⟩ := hvalid
    intro heq
    have hnumber : (Char.ofNat n).toNat = n := by
      unfold Char.ofNat
      rw [dif_pos hvalid]
      rfl
    rw [heq] at hnumber
    exact hne hnumber.symm
  · decide

private theorem skipBlank_nulFree {text : List Char} (h : NulFree text) :
    NulFree (skipBlank text) := by
  unfold skipBlank
  split
  · split
    · exact h.tail
    · exact h
  · exact h

/-- An escape gives no U+0000 and leaves none. -/
theorem takeEscape_nulFree {text : List Char} (h : NulFree text) :
    (takeEscape text).1 ≠ Char.ofNat 0 ∧ NulFree (takeEscape text).2 := by
  unfold takeEscape
  split
  · exact ⟨by decide, nulFree_nil⟩
  · next c text =>
    split
    · exact ⟨charOfNumber_ne _, skipBlank_nulFree (h.tail.of_subset (List.drop_subset _ text))⟩
    · exact ⟨h c List.mem_cons_self, h.tail⟩

/-- A name that is taken has no U+0000. -/
theorem takeName_nulFree : (text : List Char) → NulFree text →
    NulFree (takeName text).1 ∧ NulFree (takeName text).2
  | [], _ => by
    rw [takeName]
    exact ⟨nulFree_nil, nulFree_nil⟩
  | c :: text, h => by
    rw [takeName]
    split
    · obtain ⟨hname, hrest⟩ := takeName_nulFree text h.tail
      exact ⟨NulFree.cons (h c List.mem_cons_self) hname, hrest⟩
    · split
      · obtain ⟨hfirst, hafter⟩ := takeEscape_nulFree h.tail
        obtain ⟨hname, hrest⟩ := takeName_nulFree (takeEscape text).2 hafter
        exact ⟨NulFree.cons hfirst hname, hrest⟩
      · exact ⟨nulFree_nil, h⟩
termination_by text => text.length
decreasing_by
  · exact Nat.lt_succ_of_le (length_takeEscape_le text)
  · exact Nat.lt_succ_self _

private theorem map_cons_nulFree {c : Char} {content? : Option (List Char)} (hc : c ≠ Char.ofNat 0)
    (h : ∀ content ∈ content?, NulFree content) :
    ∀ content ∈ content?.map (c :: ·), NulFree content := by
  intro content hcontent
  obtain ⟨others, hothers, rfl⟩ := Option.map_eq_some_iff.1 hcontent
  exact NulFree.cons hc (h others hothers)

/-- The content of a string that is taken has no U+0000. -/
theorem takeString_nulFree (quote : Char) {text : List Char} (h : NulFree text) :
    (∀ content ∈ (takeString quote text).1, NulFree content) ∧
      NulFree (takeString quote text).2 := by
  have hempty : ∀ content ∈ some ([] : List Char), NulFree content := by
    rintro _ ⟨⟩
    exact nulFree_nil
  have hnone : ∀ content ∈ (none : Option (List Char)), NulFree content :=
    fun content hcontent => absurd hcontent (Option.not_mem_none content)
  -- characters come from the text or from an escape, and neither is a NUL
  fun_induction takeString quote text with
  | case1 => exact ⟨hempty, nulFree_nil⟩
  | case2 => exact ⟨hempty, h.tail⟩
  | case3 => exact ⟨hnone, h⟩
  | case4 => exact ⟨hempty, nulFree_nil⟩
  | case5 _ _ _ _ text ih => exact ih h.tail.tail
  | case6 _ _ _ _ d text _ content rest htake ih =>
    obtain ⟨hfirst, hafter⟩ := takeEscape_nulFree h.tail
    rw [htake] at ih
    obtain ⟨hcontent, hrest⟩ := ih hafter
    exact ⟨map_cons_nulFree hfirst hcontent, hrest⟩
  | case7 c text _ _ _ content rest htake ih =>
    rw [htake] at ih
    obtain ⟨hcontent, hrest⟩ := ih h.tail
    exact ⟨map_cons_nulFree (h c List.mem_cons_self) hcontent, hrest⟩

/-! ## Tokens -/

/-- What is taken where a name starts is a name. -/
theorem takeName_isName {c : Char} {text : List Char} (h : NulFree (c :: text))
    (hstarts : isNameChar c = true ∨ startsEscape (c :: text) = true) :
    IsName (String.ofList (takeName (c :: text)).1) := by
  obtain ⟨hname, -⟩ := takeName_nulFree (c :: text) h
  refine ⟨?_, by rwa [String.toList_ofList]⟩
  intro hempty
  have hnil : (takeName (c :: text)).1 = [] := by
    rw [← String.toList_inj, String.toList_ofList] at hempty
    exact hempty
  rw [takeName] at hnil
  split at hnil
  · exact List.cons_ne_nil _ _ hnil
  · next hnot =>
    rw [if_pos (hstarts.resolve_left hnot)] at hnil
    exact List.cons_ne_nil _ _ hnil

private theorem starts_of_startsName {text : List Char} (h : startsName text = true) :
    ∃ c rest, text = c :: rest ∧ (isNameChar c = true ∨ startsEscape text = true) := by
  unfold startsName at h
  split at h
  · exact ⟨_, _, rfl, Or.inl (by decide)⟩
  · next c rest _ =>
    refine ⟨c, rest, rfl, ?_⟩
    rcases Bool.or_eq_true_iff.1 h with h | h
    · refine Or.inl ?_
      unfold isNameChar
      rw [h, Bool.true_or, Bool.true_or]
    · exact Or.inr h
  · exact nomatch h

private theorem readName_isClean {text : List Char} (h : NulFree text)
    (hstarts : startsName text = true) :
    (readName text).1.IsClean ∧ NulFree (readName text).2 := by
  obtain ⟨c, rest, rfl, hfirst⟩ := starts_of_startsName hstarts
  have hname := takeName_isName h hfirst
  obtain ⟨-, hrest⟩ := takeName_nulFree (c :: rest) h
  unfold readName
  split
  · next htake =>
    rw [htake] at hname hrest
    exact ⟨hname, hrest.tail⟩
  · next htake =>
    rw [htake] at hname hrest
    exact ⟨hname, hrest⟩

private theorem readNumber_isClean {text : List Char} (h : NulFree text) :
    (readNumber text).1.IsClean ∧ NulFree (readNumber text).2 := by
  have hafter : NulFree (takeNumber text).2 := by
    refine h.of_subset ?_
    have hwhole := takeNumber_append text
    intro c hc
    rw [← hwhole]
    exact List.mem_append_right _ hc
  unfold readNumber
  dsimp only
  split
  · exact ⟨trivial, (takeName_nulFree _ hafter).2⟩
  · split
    · next hrest =>
      rw [hrest] at hafter
      exact ⟨trivial, hafter.tail⟩
    · exact ⟨trivial, hafter⟩

private theorem readHash_isClean {text : List Char} (h : NulFree text) :
    (readHash text).1.IsClean ∧ NulFree (readHash text).2 := by
  unfold readHash
  split
  · split
    · next hstarts =>
      exact ⟨takeName_isName h (Bool.or_eq_true_iff.1 hstarts), (takeName_nulFree _ h).2⟩
    · exact ⟨trivial, h⟩
  · exact ⟨trivial, nulFree_nil⟩

private theorem readString_isClean (quote : Char) {text : List Char} (h : NulFree text) :
    (readString quote text).1.IsClean ∧ NulFree (readString quote text).2 := by
  obtain ⟨hcontent, hrest⟩ := takeString_nulFree quote h
  unfold readString
  split
  · next content rest htake =>
    rw [htake] at hcontent hrest
    refine ⟨?_, hrest⟩
    show NulFree (String.ofList content).toList
    rw [String.toList_ofList]
    exact hcontent content rfl
  · next htake =>
    rw [htake] at hrest
    exact ⟨trivial, hrest⟩

/-- A token that is read can be written, and so can the tokens of what is left. -/
theorem read_isClean {c : Char} {text : List Char} (h : NulFree (c :: text)) :
    (read c text).1.IsClean ∧ NulFree (read c text).2 := by
  unfold read
  split
  · exact ⟨trivial, h.tail.of_subset (List.dropWhile_sublist _).subset⟩
  · split
    · exact readString_isClean _ h.tail
    · exact readString_isClean _ h.tail
    · exact readHash_isClean h.tail
    · exact ⟨trivial, h.tail⟩
    · exact ⟨trivial, h.tail⟩
    · exact ⟨trivial, h.tail⟩
    · exact ⟨trivial, h.tail⟩
    · exact ⟨trivial, h.tail⟩
    · exact ⟨trivial, h.tail⟩
    · split
      · exact readNumber_isClean h
      · split
        · next hstarts => exact readName_isClean h hstarts
        · exact ⟨trivial, h.tail⟩

/-! ## All tokens -/

/-- After a comment there is nothing but the text. -/
theorem afterComment_subset (text : List Char) : afterComment text ⊆ text := by
  fun_induction afterComment text with
  | case1 text =>
    exact List.Subset.trans (List.subset_cons_self _ _) (List.subset_cons_self _ _)
  | case2 c text _ ih => exact List.Subset.trans ih (List.subset_cons_self _ _)
  | case3 => exact List.Subset.refl _

private theorem skipComments_subset (text : List Char) : skipComments text ⊆ text := by
  fun_induction skipComments text with
  | case1 text ih =>
    have hafter : text ⊆ '/' :: '*' :: text :=
      List.Subset.trans (List.subset_cons_self _ _) (List.subset_cons_self _ _)
    exact List.Subset.trans ih (List.Subset.trans (afterComment_subset text) hafter)
  | case2 text _ => exact List.Subset.refl _

/-- All tokens of a text without the character that cannot be written can be. -/
theorem isClean_of_mem_lex {text : List Char} (h : NulFree text) :
    ∀ token ∈ lex text, token.IsClean := by
  have hskipped := h.of_subset (skipComments_subset text)
  have hlength := length_skipComments_le text
  cases hskip : skipComments text with
  | nil =>
    rw [lex_nil hskip]
    exact nofun
  | cons c rest =>
    rw [hskip] at hskipped hlength
    have hshorter := length_read_le c rest
    obtain ⟨hfirst, hrest⟩ := read_isClean hskipped
    rw [lex_cons hskip]
    intro token htoken
    rcases List.mem_cons.1 htoken with rfl | htoken
    · exact hfirst
    · exact isClean_of_mem_lex hrest token htoken
termination_by text.length
decreasing_by
  rw [hskip, List.length_cons] at hlength
  omega

end Lexer

end Selectors
