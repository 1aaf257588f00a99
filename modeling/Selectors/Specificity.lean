/-!
# Specificity — the weight of a selector

The weight of a selector counts its ids, then its classes, attributes and pseudo-classes, then
its type names and pseudo-elements. An earlier count outweighs all later ones.

* **`lt_iff`** — the order is lexicographic.
* **`maximum`** — the greatest weight of a list, with **`le_maximum`** and **`maximum_mem`**.
* **`add_le_add`** — adding keeps the order.
-/

namespace Selectors

/-- The weight of a selector. -/
structure Specificity where
  ids : Nat
  classes : Nat
  types : Nat
deriving DecidableEq, Repr, Inhabited

namespace Specificity

instance : Zero Specificity := ⟨⟨0, 0, 0⟩⟩

instance : Add Specificity :=
  ⟨fun a b => ⟨a.ids + b.ids, a.classes + b.classes, a.types + b.types⟩⟩

/-- The weight of one id. -/
def ofId : Specificity := ⟨1, 0, 0⟩

/-- The weight of one class, attribute or pseudo-class. -/
def ofClass : Specificity := ⟨0, 1, 0⟩

/-- The weight of one type name or pseudo-element. -/
def ofType : Specificity := ⟨0, 0, 1⟩

/-- Lexicographic comparison, ids first. -/
def compare (a b : Specificity) : Ordering :=
  (Ord.compare a.ids b.ids).then
    ((Ord.compare a.classes b.classes).then (Ord.compare a.types b.types))

instance : Ord Specificity := ⟨compare⟩

instance : LT Specificity := ltOfOrd

instance : LE Specificity := leOfOrd

instance : DecidableLT Specificity := fun _ _ => inferInstanceAs (Decidable (_ = _))

instance : DecidableLE Specificity := fun _ _ => inferInstanceAs (Decidable (_ = _))

instance : Max Specificity := ⟨fun a b => if a ≤ b then b else a⟩

/-- The greatest weight in a list, zero for an empty one. -/
def maximum (weights : List Specificity) : Specificity :=
  weights.foldr max 0

/-- The text of a weight. -/
def text (a : Specificity) : String :=
  "(" ++ toString a.ids ++ ", " ++ toString a.classes ++ ", " ++ toString a.types ++ ")"

/-! ## The order -/

/-- The order is lexicographic: ids, then classes, then types. -/
theorem lt_iff {a b : Specificity} :
    a < b ↔ a.ids < b.ids ∨ a.ids = b.ids ∧
      (a.classes < b.classes ∨ a.classes = b.classes ∧ a.types < b.types) := by
  change compare a b = .lt ↔ _
  simp only [compare, Ordering.then_eq_lt, Nat.compare_eq_lt, Nat.compare_eq_eq]

/-- The order is lexicographic, and weights that are equal count as in order. -/
theorem le_iff {a b : Specificity} :
    a ≤ b ↔ a.ids < b.ids ∨ a.ids = b.ids ∧
      (a.classes < b.classes ∨ a.classes = b.classes ∧ a.types ≤ b.types) := by
  change (compare a b).isLE = true ↔ _
  simp only [compare, Ordering.isLE_then_iff_or, Nat.isLE_compare, Nat.compare_eq_lt,
    Nat.compare_eq_eq]

theorem le_refl (a : Specificity) : a ≤ a := by
  rw [le_iff]
  omega

theorem le_trans {a b c : Specificity} (h₁ : a ≤ b) (h₂ : b ≤ c) : a ≤ c := by
  rw [le_iff] at *
  omega

/-- Any two weights are in order, one way or the other. -/
theorem le_total (a b : Specificity) : a ≤ b ∨ b ≤ a := by
  rw [le_iff, le_iff]
  omega

theorem le_antisymm {a b : Specificity} (h₁ : a ≤ b) (h₂ : b ≤ a) : a = b := by
  obtain ⟨_, _, _⟩ := a
  obtain ⟨_, _, _⟩ := b
  simp only [le_iff, mk.injEq] at *
  omega

/-- Nothing weighs less than zero. -/
theorem zero_le (a : Specificity) : 0 ≤ a := by
  rw [le_iff]
  change 0 < a.ids ∨ 0 = a.ids ∧ (0 < a.classes ∨ 0 = a.classes ∧ 0 ≤ a.types)
  omega

theorem le_max_left (a b : Specificity) : a ≤ max a b := by
  change a ≤ if a ≤ b then b else a
  split
  · assumption
  · exact (le_total a a).elim id id

theorem le_max_right (a b : Specificity) : b ≤ max a b := by
  change b ≤ if a ≤ b then b else a
  split
  · exact (le_total b b).elim id id
  · next h => exact (le_total a b).resolve_left h

/-- The greater of two weights is one of them. -/
theorem max_eq_or (a b : Specificity) : max a b = a ∨ max a b = b := by
  change (if a ≤ b then b else a) = a ∨ (if a ≤ b then b else a) = b
  split <;> simp

/-- No weight of a list is above its maximum. -/
theorem le_maximum {a : Specificity} {weights : List Specificity} (h : a ∈ weights) :
    a ≤ maximum weights := by
  induction weights with
  | nil => cases h
  | cons b rest ih =>
    rcases List.mem_cons.1 h with rfl | h
    · exact le_max_left _ _
    · exact le_trans (ih h) (le_max_right _ _)

/-- The maximum of a list that is not empty is one of its weights. -/
theorem maximum_mem {weights : List Specificity} (h : weights ≠ []) :
    maximum weights ∈ weights := by
  induction weights with
  | nil => exact absurd rfl h
  | cons a rest ih =>
    by_cases last : rest = []
    · subst last
      have least := zero_le a
      have greatest : a ≤ maximum [a] := le_max_left a 0
      rcases max_eq_or a 0 with eq | eq
      · exact List.mem_singleton.2 eq
      · rw [show maximum [a] = 0 from eq] at greatest ⊢
        exact List.mem_singleton.2 (le_antisymm least greatest)
    · rcases max_eq_or a (maximum rest) with eq | eq
      · exact List.mem_cons.2 (.inl eq)
      · exact List.mem_cons.2 (.inr ((congrArg (· ∈ rest) eq).mpr (ih last)))

/-! ## Sums -/

attribute [ext] Specificity

@[simp] theorem ids_add (a b : Specificity) : (a + b).ids = a.ids + b.ids := rfl

@[simp] theorem classes_add (a b : Specificity) : (a + b).classes = a.classes + b.classes := rfl

@[simp] theorem types_add (a b : Specificity) : (a + b).types = a.types + b.types := rfl

theorem zero_add (a : Specificity) : 0 + a = a := by
  ext
  · exact Nat.zero_add _
  · exact Nat.zero_add _
  · exact Nat.zero_add _

theorem add_comm (a b : Specificity) : a + b = b + a := by
  ext
  · exact Nat.add_comm _ _
  · exact Nat.add_comm _ _
  · exact Nat.add_comm _ _

theorem add_assoc (a b c : Specificity) : a + b + c = a + (b + c) := by
  ext
  · exact Nat.add_assoc _ _ _
  · exact Nat.add_assoc _ _ _
  · exact Nat.add_assoc _ _ _

/-- Weights are added to both sides of a comparison count by count. -/
theorem add_le_add {a b c d : Specificity} (hab : a ≤ b) (hcd : c ≤ d) : a + c ≤ b + d := by
  rw [le_iff] at *
  simp only [ids_add, classes_add, types_add]
  omega

/-- The number of things that a weight counts. -/
def total (a : Specificity) : Nat :=
  a.ids + a.classes + a.types

/-- The counts of a sum add up. -/
theorem total_add (a b : Specificity) : (a + b).total = a.total + b.total := by
  simp only [total, ids_add, classes_add, types_add]
  omega

/-- The greater of two weights counts no more than both. -/
theorem total_max_le (a b : Specificity) : (max a b).total ≤ a.total + b.total := by
  rcases max_eq_or a b with hmax | hmax
  · rw [hmax]
    exact Nat.le_add_right _ _
  · rw [hmax]
    exact Nat.le_add_left _ _

end Specificity

end Selectors
