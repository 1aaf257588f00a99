import Mathlib.Data.List.Nodup
import Selectors.Proofs.Satisfaction
import Selectors.Proofs.Nth.Steps

/-!
# Places — positional pseudo-classes and the children of the parent

A positional pseudo-class looks at the place of an element among its siblings. Which siblings are
counted, and from which end, is read here off the children list of the parent; the tests walk along
links between siblings instead, over text and comments, and give the number of elements they meet
as a 32-bit integer.

What a walk in one direction meets is what stands on that side of the element in the list, so both
ways of counting agree, and the walks in both directions meet every other counted sibling once.

* **`Element.place`** — the place, by the list.
* **`Element.counted_eq`** — the list, by the two walks.
* **`Element.selects_iff_place`** — which elements the pseudo-classes select.
-/

namespace Selectors

variable {t : Tree}

namespace Element

/-! ## Places by the list -/

/-- The element and its siblings, in their order. -/
def siblings (e : Element t) : List (Element t) :=
  match t.parent? e.id with
  | some parent => (t.children parent).toList.filterMap t.element?
  | none => [e]

/-- Those of them that are counted. -/
def counted (e : Element t) (sameType : Bool) : List (Element t) :=
  if sameType then e.siblings.filter e.sameType else e.siblings

/-- The place of an element among those that are counted, the first one being 1. -/
def place (e : Element t) (count : Count) : Nat :=
  (if count.fromEnd then (e.counted count.sameType).reverse else e.counted count.sameType).idxOf e
    + 1

/-! ## The list and the walks -/

/-- The siblings that are counted on the way to one end, nearest first. -/
def passed (e : Element t) (count : Count) : List (Element t) :=
  let walk := if count.fromEnd then e.following else e.preceding
  if count.sameType then walk.filter e.sameType else walk

/-- The position counts those that are passed, up to the limit of 32 bits. -/
theorem position_eq (e : Element t) (count : Count) :
    e.position count = .ofNat (min ((e.passed count).length + 1) 0x7FFFFFFF) := rfl

variable {e : Element t}

/-- An element without a parent is its only sibling. -/
theorem siblings_eq_of_orphan (h : t.parent? e.id = none) : e.siblings = [e] := by
  rw [siblings, h]

/-- The siblings of an element are the elements among the children of its parent. -/
theorem siblings_eq_of_split (hforest : t.IsForest) {parent : NodeId} {front back : List NodeId}
    (h : (t.children parent).toList = front ++ e.id :: back) :
    e.siblings = (front ++ e.id :: back).filterMap t.element? := by
  have hparent : t.parent? e.id = some parent := by
    rw [hforest.parent_iff, Tree.IsChild, h]
    simp
  rw [siblings, hparent, ← h]

/-- The walk to the left meets what is in front of the element, the walk to the right what is
    behind it. -/
theorem siblings_eq (hforest : t.IsForest) :
    e.siblings = e.preceding.reverse ++ e :: e.following := by
  rcases orphan_or_split hforest e with horphan | ⟨parent, front, back, hsplit⟩
  · rw [siblings_eq_of_orphan horphan, preceding_eq_nil hforest horphan,
      following_eq_nil hforest horphan]
    rfl
  · rw [siblings_eq_of_split hforest hsplit, preceding_eq hforest hsplit,
      following_eq hforest hsplit, List.filterMap_append,
      List.filterMap_cons_some (element?_id e), ← List.filterMap_reverse, List.reverse_reverse]

private theorem nodup_siblings (hforest : t.IsForest) : e.siblings.Nodup := by
  rcases orphan_or_split hforest e with horphan | ⟨parent, front, back, hsplit⟩
  · rw [siblings_eq_of_orphan horphan]
    exact List.nodup_singleton e
  · rw [siblings_eq_of_split hforest hsplit, ← hsplit]
    refine (hforest.nodup parent).filterMap ?_
    intro id id' a ha ha'
    rw [← Tree.element?_eq_some_iff.1 ha, ← Tree.element?_eq_some_iff.1 ha']

/-- What is counted are those in front, the element, and those behind. -/
theorem counted_eq (hforest : t.IsForest) (sameType : Bool) :
    e.counted sameType =
      (e.passed ⟨false, sameType⟩).reverse ++ e :: e.passed ⟨true, sameType⟩ := by
  rw [counted, siblings_eq hforest]
  cases sameType with
  | false => rfl
  | true =>
    -- the element is of its own type, so the filter keeps it between the two walks
    have hself : e.sameType e = true := by
      rw [Element.sameType, beq_self_eq_true, beq_self_eq_true, Bool.and_true]
    rw [if_pos rfl, List.filter_append, List.filter_cons_of_pos hself, List.filter_reverse]
    rfl

private theorem nodup_counted (hforest : t.IsForest) (sameType : Bool) :
    (e.counted sameType).Nodup := by
  cases sameType with
  | false => exact nodup_siblings hforest
  | true => exact (nodup_siblings hforest).filter _

private theorem idxOf_reverse_append {l back : List (Element t)} (h : e ∉ l) :
    (l.reverse ++ e :: back).idxOf e = l.length := by
  rw [List.idxOf_append_of_notMem (mt List.mem_reverse.1 h), List.idxOf_cons_self, Nat.add_zero,
    List.length_reverse]

/-- An element comes right after those that are passed on the way to it. -/
theorem place_eq (hforest : t.IsForest) (count : Count) :
    e.place count = (e.passed count).length + 1 := by
  obtain ⟨fromEnd, sameType⟩ := count
  have hnodup := nodup_counted hforest (e := e) sameType
  rw [counted_eq hforest, List.nodup_middle, List.nodup_cons, List.mem_append, List.mem_reverse,
    not_or] at hnodup
  obtain ⟨⟨hbefore, hafter⟩, -⟩ := hnodup
  rw [place, counted_eq hforest]
  cases fromEnd with
  | false => exact congrArg (· + 1) (idxOf_reverse_append hbefore)
  | true =>
    -- counted from the end, the two walks change places
    rw [if_pos rfl, List.reverse_append, List.reverse_cons, List.reverse_reverse,
      List.append_assoc, List.singleton_append]
    exact congrArg (· + 1) (idxOf_reverse_append hafter)

/-- Every counted sibling other than the element is passed on one of the ways to it. -/
theorem place_add_place (hforest : t.IsForest) (sameType : Bool) :
    e.place ⟨false, sameType⟩ + e.place ⟨true, sameType⟩ = (e.counted sameType).length + 1 := by
  rw [place_eq hforest, place_eq hforest, counted_eq hforest, List.length_append,
    List.length_cons, List.length_reverse]
  omega

private theorem length_counted_le (sameType : Bool) :
    (e.counted sameType).length ≤ e.siblings.length := by
  cases sameType with
  | false => exact Nat.le_refl _
  | true => exact List.length_filter_le _ _

/-- No place is beyond the number of siblings. -/
theorem place_le (hforest : t.IsForest) (count : Count) :
    e.place count ≤ e.siblings.length := by
  obtain ⟨fromEnd, sameType⟩ := count
  have hsum := place_add_place hforest (e := e) sameType
  have hcounted := e.length_counted_le sameType
  have hbefore := place_eq hforest (e := e) ⟨false, sameType⟩
  have hafter := place_eq hforest (e := e) ⟨true, sameType⟩
  cases fromEnd with
  | false => omega
  | true => omega

/-- As a 32-bit integer the place is exact if there are not too many siblings. -/
theorem toInt_position (hforest : t.IsForest) (hfew : e.siblings.length ≤ 0x7FFFFFFF)
    (count : Count) : (e.position count).toInt = e.place count := by
  have hplace := place_le hforest (e := e) count
  rw [place_eq hforest] at hplace ⊢
  rw [position_eq, Nat.min_eq_left (by omega), Int32.toInt_ofNat_of_lt (by omega)]

/-- Nothing is passed on the way to the first place. -/
theorem passed_eq_nil_iff (hforest : t.IsForest) (count : Count) :
    e.passed count = [] ↔ e.place count = 1 := by
  rw [place_eq hforest, ← List.length_eq_zero_iff]
  omega

end Element

/-! ## What the pseudo-classes select -/

/-- Whether the selector of nothing but a pseudo-class selects an element. -/
def PseudoClass.selects (pseudoClass : PseudoClass) (e : Element t) : Bool :=
  (Complex.compound [.atom (.pseudoClass pseudoClass)]).test.accepts e

/-- What a pseudo-class selects is what its test accepts. -/
theorem PseudoClass.selects_eq (pseudoClass : PseudoClass) (e : Element t) :
    pseudoClass.selects e = pseudoClass.accepts e := by
  rw [selects, Complex.accepts_test_atom]
  cases pseudoClass with
  | dynamic state => rfl
  | _ => rfl

namespace Element

variable {e : Element t}

/-- The positional pseudo-classes select by the place. -/
theorem selects_nth_iff (hforest : t.IsForest) (hfew : e.siblings.length ≤ 0x7FFFFFFF)
    (count : Count) (step offset : Int32) :
    (PseudoClass.nth count ⟨step, offset⟩).selects e = true ↔
      ∃ n : Nat, step.toInt * n + offset.toInt = e.place count := by
  rw [PseudoClass.selects_eq, PseudoClass.accepts, Nth.contains_iff, toInt_position hforest hfew]

/-- The position 1 alone selects the first place. -/
theorem selects_nth_one_iff (hforest : t.IsForest) (hfew : e.siblings.length ≤ 0x7FFFFFFF)
    (count : Count) :
    (PseudoClass.nth count ⟨0, 1⟩).selects e = true ↔ e.place count = 1 := by
  rw [selects_nth_iff hforest hfew]
  constructor
  · rintro ⟨n, hn⟩
    rw [show (0 : Int32).toInt = 0 from rfl, show (1 : Int32).toInt = 1 from rfl] at hn
    omega
  · intro hplace
    exact ⟨0, by rw [hplace]; rfl⟩

private theorem position_eq_one_iff (hforest : t.IsForest) (hfew : e.siblings.length ≤ 0x7FFFFFFF)
    (count : Count) : (e.position count == 1) = true ↔ e.place count = 1 := by
  rw [beq_iff_eq, ← Int32.toInt_inj, toInt_position hforest hfew]
  exact Int.ofNat_inj

/-- Nothing stands before the first place. -/
theorem isNone_previous?_iff (hforest : t.IsForest) :
    e.previous?.isNone = true ↔ e.place ⟨false, false⟩ = 1 := by
  rw [← passed_eq_nil_iff hforest, Option.isNone_iff_eq_none]
  exact List.head?_eq_none_iff

/-- Nothing stands after the last place. -/
theorem isNone_next?_iff (hforest : t.IsForest) :
    e.next?.isNone = true ↔ e.place ⟨true, false⟩ = 1 := by
  rw [← passed_eq_nil_iff hforest, Option.isNone_iff_eq_none]
  exact List.head?_eq_none_iff

variable (e) in
/-- The pseudo-classes without argument select the same as those with the position 1. -/
structure ShortFormsAgree : Prop where
  firstChild : PseudoClass.firstChild.selects e =
    (PseudoClass.nth ⟨false, false⟩ ⟨0, 1⟩).selects e
  lastChild : PseudoClass.lastChild.selects e =
    (PseudoClass.nth ⟨true, false⟩ ⟨0, 1⟩).selects e
  onlyChild : PseudoClass.onlyChild.selects e =
    ((PseudoClass.nth ⟨false, false⟩ ⟨0, 1⟩).selects e &&
      (PseudoClass.nth ⟨true, false⟩ ⟨0, 1⟩).selects e)
  firstOfType : PseudoClass.firstOfType.selects e =
    (PseudoClass.nth ⟨false, true⟩ ⟨0, 1⟩).selects e
  lastOfType : PseudoClass.lastOfType.selects e =
    (PseudoClass.nth ⟨true, true⟩ ⟨0, 1⟩).selects e
  onlyOfType : PseudoClass.onlyOfType.selects e =
    ((PseudoClass.nth ⟨false, true⟩ ⟨0, 1⟩).selects e &&
      (PseudoClass.nth ⟨true, true⟩ ⟨0, 1⟩).selects e)

/-- The short forms select what the long ones do. -/
theorem shortFormsAgree (hforest : t.IsForest) (hfew : e.siblings.length ≤ 0x7FFFFFFF) :
    e.ShortFormsAgree := by
  have hone := selects_nth_one_iff hforest hfew
  have hfirst : e.previous?.isNone = (PseudoClass.nth ⟨false, false⟩ ⟨0, 1⟩).selects e :=
    Bool.eq_iff_iff.2 ((isNone_previous?_iff hforest).trans (hone _).symm)
  have hlast : e.next?.isNone = (PseudoClass.nth ⟨true, false⟩ ⟨0, 1⟩).selects e :=
    Bool.eq_iff_iff.2 ((isNone_next?_iff hforest).trans (hone _).symm)
  have hposition (count : Count) :
      (e.position count == 1) = (PseudoClass.nth count ⟨0, 1⟩).selects e :=
    Bool.eq_iff_iff.2 ((position_eq_one_iff hforest hfew count).trans (hone count).symm)
  constructor
  · rw [PseudoClass.selects_eq, PseudoClass.accepts, hfirst]
  · rw [PseudoClass.selects_eq, PseudoClass.accepts, hlast]
  · rw [PseudoClass.selects_eq, PseudoClass.accepts, hfirst, hlast]
  · rw [PseudoClass.selects_eq, PseudoClass.accepts, hposition]
  · rw [PseudoClass.selects_eq, PseudoClass.accepts, hposition]
  · rw [PseudoClass.selects_eq, PseudoClass.accepts, hposition, hposition]

/-- In a well-built tree the positional pseudo-classes select an element by its place among its
    siblings, and the places from both ends fit together. -/
theorem selects_iff_place (h : t.WellBuilt) (e : Element t)
    (hfew : e.siblings.length ≤ 0x7FFFFFFF) :
    (∀ (count : Count) (step offset : Int32),
        (PseudoClass.nth count ⟨step, offset⟩).selects e = true ↔
          ∃ n : Nat, step.toInt * n + offset.toInt = e.place count) ∧
      (∀ sameType, e.place ⟨false, sameType⟩ + e.place ⟨true, sameType⟩ =
        (e.counted sameType).length + 1) ∧
      e.ShortFormsAgree := by
  have hforest := Tree.isForest_of_wellBuilt h
  exact ⟨selects_nth_iff hforest hfew, place_add_place hforest, shortFormsAgree hforest hfew⟩

/-- The second of two items. -/
def secondItem : Element Tree.twoItems :=
  ⟨4, { localName := "li" }, rfl⟩

/-- It is met when counting back from the third place, and not when counting back from the first
    one. -/
theorem selects_iff_place_secondItem :
    secondItem.place ⟨false, true⟩ = 2 ∧
      (PseudoClass.nth ⟨false, true⟩ ⟨-1, 3⟩).selects secondItem = true ∧
        (PseudoClass.nth ⟨false, true⟩ ⟨-1, 1⟩).selects secondItem = false := by
  have hplace : secondItem.place ⟨false, true⟩ = 2 := by decide
  obtain ⟨hselects, -, -⟩ := selects_iff_place Tree.wellBuilt_twoItems secondItem (by decide)
  refine ⟨hplace, (hselects _ _ _).2 ⟨1, by rw [hplace]; rfl⟩, Bool.eq_false_iff.2 fun hmet => ?_⟩
  obtain ⟨n, hn⟩ := (hselects _ _ _).1 hmet
  rw [hplace, show (-1 : Int32).toInt = -1 from rfl, show (1 : Int32).toInt = 1 from rfl] at hn
  omega

end Element

end Selectors
