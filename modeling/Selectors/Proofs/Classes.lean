import Selectors.Proofs.Comparisons
import Selectors.Proofs.Index.Keys

/-!
# Classes — the words of an attribute, each listed once

The classes of an element are the words of its `class` attribute without repetitions. A class selector
looks its name up in that list, and an attribute selector that asks for a word looks it up among all
words, unless it is folded away because no word is empty or has a blank in it. Since a list without
repetitions has the same members, both accept the same elements; and so do a selector of an id and
the one that compares the `id` attribute with it.

The order of the list is said by places in the text: in front of every place of a later class there is
one of the earlier class. What makes this work is that a word divides the words of its text into those
before it and those after it.

* **`words_append_word`** — the words on either side of a word.
* **`ListsWords`** — the words of a text, each once, as they first stand there.
* **`classes_and_ids_as_attributes`** — classes and ids, read as attributes.
-/

namespace Selectors

/-! ## Places -/

/-- The word stands in the text behind this many characters. -/
structure StandsAt (word text : String) (place : Nat) : Prop where
  ne_empty : word ≠ ""
  not_isBlank : ∀ c ∈ word.toList, isBlank c = false
  exists_eq : ∃ front back : String, text = front ++ word ++ back ∧ front.length = place ∧
    (∀ c ∈ front.toList.getLast?, isBlank c = true) ∧
    (∀ c ∈ back.toList.head?, isBlank c = true)

/-- A word of a text is one that stands at some place in it. -/
theorem isWordOf_iff_exists_standsAt {word text : String} :
    IsWordOf word text ↔ ∃ place, StandsAt word text place := by
  constructor
  · rintro ⟨hne, hblank, front, back, htext, hfront, hback⟩
    exact ⟨front.length, hne, hblank, front, back, htext, rfl, hfront, hback⟩
  · rintro ⟨place, hne, hblank, front, back, htext, -, hfront, hback⟩
    exact ⟨hne, hblank, front, back, htext, hfront, hback⟩

/-- The list of the words of a text: each of them once, and in front of every place of a later one
    there is a place of an earlier one. -/
structure ListsWords (listed : List String) (text : String) : Prop where
  nodup : listed.Nodup
  mem_iff : ∀ word, word ∈ listed ↔ ∃ place, StandsAt word text place
  pairwise : listed.Pairwise fun word later =>
    ∀ place, StandsAt later text place → ∃ earlier, earlier < place ∧ StandsAt word text earlier

/-! ## Words on either side -/

/-- A text without blanks is its only word. -/
theorem words_of_not_isBlank {word : String} (hne : word ≠ "")
    (hblank : ∀ c ∈ word.toList, isBlank c = false) : words word = [word] := by
  have hempty : word.toList.isEmpty = false := by
    simpa using hne
  rw [words, List.splitOnP_eq_singleton hblank, List.filter_cons_of_pos (by rw [hempty]; rfl),
    List.filter_nil, List.map_singleton, String.ofList_toList]

/-- A blank divides the words. -/
theorem words_append_blank {c : Char} (hc : isBlank c = true) (front back : List Char) :
    words (String.ofList (front ++ c :: back)) =
      words (String.ofList front) ++ words (String.ofList back) := by
  simp only [words, String.toList_ofList]
  rw [List.splitOnP_append_cons _ _ hc, List.filter_append, List.map_append]

/-- A word divides the words as well: those in front of it, itself, and those behind it. -/
theorem words_append_word {word front back : String} (hne : word ≠ "")
    (hblank : ∀ c ∈ word.toList, isBlank c = false)
    (hfront : ∀ c ∈ front.toList.getLast?, isBlank c = true)
    (hback : ∀ c ∈ back.toList.head?, isBlank c = true) :
    words (front ++ word ++ back) = words front ++ word :: words back := by
  have hnone : words (String.ofList []) = [] := by
    rw [words, String.toList_ofList, List.splitOnP_nil]
    rfl
  -- first the end of the word, then its start: each is the text's own end or a blank
  have hstart : words (word ++ back) = word :: words back := by
    cases htext : back.toList with
    | nil =>
      obtain rfl : back = String.ofList [] := by rw [← htext, String.ofList_toList]
      rw [hnone, String.append_empty, words_of_not_isBlank hne hblank]
    | cons c rest =>
      rw [htext] at hback
      have hwhole : word ++ back = String.ofList (word.toList ++ c :: rest) := by
        rw [← String.toList_inj, String.toList_append, htext, String.toList_ofList]
      have hrest := words_append_blank (hback c rfl) [] rest
      rw [List.nil_append, hnone, List.nil_append, ← htext, String.ofList_toList] at hrest
      rw [hwhole, words_append_blank (hback c rfl), String.ofList_toList,
        words_of_not_isBlank hne hblank, hrest, List.singleton_append]
  rw [String.append_assoc]
  rcases List.eq_nil_or_concat front.toList with htext | ⟨start, c, htext⟩
  · obtain rfl : front = String.ofList [] := by rw [← htext, String.ofList_toList]
    rw [hnone, List.nil_append, ← hstart]
    rfl
  · rw [List.concat_eq_append] at htext
    have hc : isBlank c = true := hfront c (by rw [htext, List.getLast?_concat]; rfl)
    have hwhole : front ++ (word ++ back) =
        String.ofList (start ++ c :: (word ++ back).toList) := by
      rw [← String.toList_inj, String.toList_append, htext, String.toList_ofList,
        List.append_assoc, List.singleton_append]
    have hend := words_append_blank hc start []
    rw [hnone, List.append_nil, ← htext, String.ofList_toList] at hend
    rw [hwhole, words_append_blank hc, String.ofList_toList, ← hend, hstart]

/-! ## The order of the classes -/

/-- A member of a list without its repetitions stands, in the list itself, in front of every place
    of a later member. -/
theorem pairwise_eraseDups {α : Type} [BEq α] [LawfulBEq α] (l : List α) :
    l.eraseDups.Pairwise fun a b => ∀ front back, l = front ++ b :: back → a ∈ front := by
  induction hn : l.length using Nat.strongRecOn generalizing l with
  | ind n ih =>
    cases l with
    | nil => exact List.Pairwise.nil
    | cons first rest =>
      rw [List.eraseDups_cons, List.pairwise_cons]
      -- the first member is no later one, so it stands in front of their places
      have hsplit : ∀ {b front back}, b ∈ (rest.filter fun b => !b == first).eraseDups →
          first :: rest = front ++ b :: back →
          ∃ others, front = first :: others ∧ rest = others ++ b :: back ∧
            (!b == first) = true := by
        intro b front back hb heq
        have hne := (List.mem_filter.1 (List.mem_eraseDups.1 hb)).2
        cases front with
        | nil =>
          obtain ⟨rfl, -⟩ := List.cons.inj heq
          simp at hne
        | cons c others =>
          obtain ⟨rfl, hrest⟩ := List.cons.inj heq
          exact ⟨others, rfl, hrest, hne⟩
      have hshorter : (rest.filter fun b => !b == first).length < n := by
        have hle := List.length_filter_le (fun b => !b == first) rest
        rw [List.length_cons] at hn
        omega
      refine ⟨fun b hb front back heq => ?_, (ih _ hshorter _ rfl).imp_of_mem ?_⟩
      · obtain ⟨others, rfl, -⟩ := hsplit hb heq
        exact List.mem_cons_self
      · intro a b _ hb hbefore front back heq
        obtain ⟨others, rfl, hrest, hne⟩ := hsplit hb heq
        have hfiltered : (rest.filter fun b => !b == first) =
            (others.filter fun b => !b == first) ++ b :: back.filter fun b => !b == first := by
          rw [hrest, List.filter_append, List.filter_cons, if_pos hne]
        exact List.mem_cons_of_mem _ (List.mem_filter.1 (hbefore _ _ hfiltered)).1

/-- A word of what stands in front of another word has an earlier place than that one. -/
theorem exists_earlier_of_mem_words {word later front back : String}
    (hfront : ∀ c ∈ front.toList.getLast?, isBlank c = true) (h : word ∈ words front) :
    ∃ earlier, earlier < front.length ∧ StandsAt word (front ++ later ++ back) earlier := by
  obtain ⟨hne, hblank, start, gap, rfl, hstart, hgap⟩ := mem_words_iff.1 h
  have hlength : word.length ≠ 0 := mt String.length_eq_zero_iff.1 hne
  refine ⟨start.length, ?_, hne, hblank, start, gap ++ later ++ back, ?_, rfl, hstart, ?_⟩
  · rw [String.length_append, String.length_append]
    omega
  · simp only [String.append_assoc]
  · -- the gap is not empty, since what stands in front of the later word ends in a blank
    cases htext : gap.toList with
    | nil =>
      have hchars : word.toList ≠ [] := fun hempty => hne (String.toList_inj.1 hempty)
      obtain ⟨c, hc⟩ := Option.ne_none_iff_exists'.1 (mt List.getLast?_eq_none_iff.1 hchars)
      have hlast : (start ++ word ++ gap).toList.getLast? = some c := by
        rw [String.toList_append, String.toList_append, htext, List.append_nil,
          List.getLast?_append, hc]
        rfl
      exact Bool.noConfusion ((hblank c (List.mem_of_getLast? hc)).symm.trans (hfront c hlast))
    | cons c rest =>
      rw [htext] at hgap
      intro d hd
      rw [String.toList_append, String.toList_append, htext] at hd
      exact hgap d hd

/-- The words of a text without repetitions list its words. -/
theorem listsWords_eraseDups (text : String) : ListsWords (words text).eraseDups text where
  nodup := nodup_eraseDups _
  mem_iff _ := List.mem_eraseDups.trans (mem_words_iff.trans isWordOf_iff_exists_standsAt)
  pairwise := by
    refine (pairwise_eraseDups (words text)).imp ?_
    rintro word later hbefore place ⟨hne, hblank, front, back, rfl, rfl, hfront, hback⟩
    have hmem := hbefore _ _ (words_append_word hne hblank hfront hback)
    exact exists_earlier_of_mem_words hfront hmem

/-- The classes of an element list the words of its `class` attribute; without the attribute there
    are none. -/
theorem listsWords_classes (data : ElementData) :
    ListsWords data.classes ((data.attribute? "class").getD "") := by
  have hnone : (words "").eraseDups = [] := by
    rw [show words "" = [] by decide +kernel, List.eraseDups_nil]
  rw [ElementData.classes.eq_def]
  cases data.attribute? "class" with
  | none =>
    have hlists := listsWords_eraseDups ""
    rwa [hnone] at hlists
  | some text => exact listsWords_eraseDups text

/-! ## Classes and ids as attributes -/

/-- The selector of the elements of a class. -/
def classSelector (name : String) : Complex :=
  .compound [.atom (.className name)]

/-- The selector of the elements with an id. -/
def idSelector (id : String) : Complex :=
  .compound [.atom (.id id)]

variable {t : Tree} {e : Element t}

/-- A class selector accepts the elements whose class attribute has the word. -/
theorem accepts_classSelector_iff {name : String} :
    (classSelector name).test.accepts e = true ↔
      ∃ text, e.data.attribute? "class" = some text ∧ IsWordOf name text := by
  rw [classSelector, Complex.accepts_test_atom]
  refine List.contains_iff_mem.trans (ElementData.mem_classes.trans ?_)
  simp only [mem_words_iff]

/-- An id selector accepts the elements whose id attribute is the id. -/
theorem accepts_idSelector_iff {id : String} :
    (idSelector id).test.accepts e = true ↔ e.data.attribute? "id" = some id := by
  rw [idSelector, Complex.accepts_test_atom]
  exact beq_iff_eq

/-- An attribute whose name is in lower case is looked up alike in all documents. -/
theorem accepts_comparison_of_lower {name : String} (hlower : name.toLower = name)
    {operator : AttributeOperator} {expected : String} :
    (comparison .none name operator expected).test.accepts e = true ↔
      ∃ value, e.data.attribute? name = some value ∧ operator.Compares value expected := by
  have hname : nameIn t.isHtml name = name := by
    rw [nameIn, hlower, ite_self]
  refine accepts_comparison.trans ?_
  show (∃ value, e.data.attribute? (nameIn t.isHtml name) = some value ∧ _) ↔ _
  rw [hname]

/-- A class selector accepts what the selector for a word of the `class` attribute accepts, and an id
    selector what the one for the value of the `id` attribute accepts. The classes of an element are
    the words of its `class` attribute, each once, as they first stand there. -/
theorem classes_and_ids_as_attributes (e : Element t) (name id : String) :
    (classSelector name).test.accepts e =
        (comparison .none "class" .includesWord name).test.accepts e ∧
      (idSelector id).test.accepts e = (comparison .none "id" .equals id).test.accepts e ∧
      ListsWords e.data.classes ((e.data.attribute? "class").getD "") := by
  refine ⟨Bool.eq_iff_iff.2 ?_, Bool.eq_iff_iff.2 ?_, listsWords_classes e.data⟩
  · rw [accepts_classSelector_iff, accepts_comparison_of_lower (by decide +kernel)]
    exact Iff.rfl
  · rw [accepts_idSelector_iff, accepts_comparison_of_lower (by decide +kernel)]
    show _ ↔ ∃ value, e.data.attribute? "id" = some value ∧ value = id
    rw [exists_eq_right]

end Selectors
