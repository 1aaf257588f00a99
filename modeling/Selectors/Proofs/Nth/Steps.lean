import Selectors.Nth

/-!
# Steps — the positions that are reached from B in steps of A

Whether a position is `A·n + B` for a natural number `n` is decided by the sign and the remainder
of its distance from `B`. The distance of two 32-bit integers is exact in 64 bits, so nothing wraps
around, and the remainder by `A` is zero exactly if `A` divides it. What the sign adds is that the
quotient is not negative.

That nothing wraps around is said of the whole computation, too. It is done with exact integers,
step by step, and breaks off at the first result that does not fit into 64 bits, be it a quotient
that is only taken for its remainder, and at a remainder by zero. It never breaks off. Two 32-bit
integers are less than `2 ^ 32` apart, so their distance fits and is not the least 64-bit integer,
the only one with a quotient that does not. No remainder is taken where the step is zero.

* **`exists_nat_mul_eq_iff`** — the natural multiples of an integer.
* **`Nth.contains_iff`** — the positions that are named.
* **`Nth.contains?`** — the computation with exact integers.
* **`Nth.contains_without_overflow`** — it gives what wrapping integers give, and that is right.
-/

namespace Selectors

/-! ## Multiples -/

/-- The natural multiples of a positive integer are its multiples that are not negative. -/
theorem exists_nat_mul_eq_iff {a d : Int} (ha : 0 < a) :
    (∃ n : Nat, a * n = d) ↔ 0 ≤ d ∧ d.tmod a = 0 := by
  rw [← Int.dvd_iff_tmod_eq_zero]
  constructor
  · rintro ⟨n, rfl⟩
    exact ⟨Int.mul_nonneg (Int.le_of_lt ha) (Int.natCast_nonneg n), Int.dvd_mul_right a n⟩
  · rintro ⟨hd, k, rfl⟩
    have hk : 0 ≤ k := Int.nonneg_of_mul_nonneg_right hd ha
    exact ⟨k.toNat, congrArg (a * ·) (Int.toNat_of_nonneg hk)⟩

/-- The natural multiples of a negative integer are its multiples that are not positive. -/
theorem exists_nat_mul_eq_iff_of_neg {a d : Int} (ha : a < 0) :
    (∃ n : Nat, a * n = d) ↔ d ≤ 0 ∧ d.tmod a = 0 := by
  have hneg : (∃ n : Nat, a * n = d) ↔ ∃ n : Nat, -a * n = -d := by
    refine exists_congr fun n => ?_
    rw [Int.neg_mul, Int.neg_inj]
  rw [hneg, exists_nat_mul_eq_iff (Int.neg_pos_of_neg ha), Int.tmod_neg, Int.neg_tmod]
  omega

namespace Nth

/-- The distance of two 32-bit integers fits into 64 bits. -/
theorem toInt_distance (position offset : Int32) :
    (position.toInt64 - offset.toInt64).toInt = position.toInt - offset.toInt := by
  have hposition := position.toInt_lt
  have hposition' := position.le_toInt
  have hoffset := offset.toInt_lt
  have hoffset' := offset.le_toInt
  rw [Int64.toInt_sub, Int32.toInt_toInt64, Int32.toInt_toInt64]
  exact Int.bmod_eq_of_le (by omega) (by omega)

private theorem mod_beq_zero_iff {distance step : Int64} :
    (distance % step == 0) = true ↔ distance.toInt.tmod step.toInt = 0 := by
  rw [beq_iff_eq, ← Int64.toInt_inj, Int64.toInt_mod, Int64.toInt_zero]

/-- A position is among those named if it is reached from the offset in some number of steps. -/
theorem contains_iff (nth : Nth) (position : Int32) :
    nth.contains position = true ↔
      ∃ n : Nat, nth.step.toInt * n + nth.offset.toInt = position.toInt := by
  have hmoved : (∃ n : Nat, nth.step.toInt * n + nth.offset.toInt = position.toInt) ↔
      ∃ n : Nat, nth.step.toInt64.toInt * n =
        (position.toInt64 - nth.offset.toInt64).toInt := by
    refine exists_congr fun n => ?_
    rw [toInt_distance, Int32.toInt_toInt64]
    omega
  rw [hmoved, contains]
  -- only the distance and the step matter from here on, as 64-bit integers
  generalize position.toInt64 - nth.offset.toInt64 = distance
  generalize nth.step.toInt64 = step
  split
  case isTrue hzero =>
    rw [hzero, Int64.toInt_zero, beq_iff_eq, ← Int64.toInt_inj, Int64.toInt_zero]
    simp only [Int.zero_mul, exists_const, eq_comm]
  case isFalse hzero =>
    split
    case isTrue hpositive =>
      rw [exists_nat_mul_eq_iff (Int64.lt_iff_toInt_lt.1 hpositive), Bool.and_eq_true,
        decide_eq_true_iff, mod_beq_zero_iff, Int64.le_iff_toInt_le, Int64.toInt_zero]
    case isFalse hpositive =>
      have hnegative : step.toInt < 0 := by
        rw [← Int64.toInt_inj, Int64.toInt_zero] at hzero
        rw [Int64.lt_iff_toInt_lt, Int64.toInt_zero] at hpositive
        omega
      rw [exists_nat_mul_eq_iff_of_neg hnegative, Bool.and_eq_true, decide_eq_true_iff,
        mod_beq_zero_iff, Int64.le_iff_toInt_le, Int64.toInt_zero]

end Nth

/-! ## Results of 64 bits -/

/-- An exact result as a 64-bit integer, unless it does not fit. -/
def fit64? (result : Int) : Option Int64 :=
  if Int64.minValue.toInt ≤ result ∧ result ≤ Int64.maxValue.toInt then some (Int64.ofInt result)
  else none

/-- A difference, unless it overflows. -/
def difference? (a b : Int64) : Option Int64 :=
  fit64? (a.toInt - b.toInt)

/-- A remainder. There is none by zero, and none where the quotient overflows. -/
def remainder? (a b : Int64) : Option Int64 :=
  if b = 0 then none
  else do
    let _ ← fit64? (a.toInt.tdiv b.toInt)
    fit64? (a.toInt.tmod b.toInt)

/-- A number of 64 bits fits. -/
theorem fit64?_toInt (a : Int64) : fit64? a.toInt = some a := by
  rw [fit64?, if_pos ⟨a.minValue_le_toInt, a.toInt_le⟩, Int64.ofInt_toInt]

private theorem fit64?_toInt32 (n : Int32) : fit64? n.toInt = some n.toInt64 := by
  rw [← n.toInt_toInt64, fit64?_toInt]

/-- Only a division by zero and one of the least number can break off. -/
theorem remainder?_eq {a b : Int64} (ha : a ≠ Int64.minValue) (hb : b ≠ 0) :
    remainder? a b = some (a % b) := by
  rw [remainder?, if_neg hb, ← Int64.toInt_div_of_ne_left a b ha, fit64?_toInt,
    ← Int64.toInt_mod, fit64?_toInt]
  rfl

/-- The one quotient that is too large leaves no remainder, though it would be zero. -/
example : remainder? Int64.minValue (-1) = none := by decide

namespace Nth

/-! ## The computation -/

/-- Whether a distance on the side of the step is a multiple of it. For one on the other side no
    remainder is taken. -/
def isMultiple? (onSide : Bool) (distance step : Int64) : Option Bool :=
  if onSide then do return (← remainder? distance step) == 0
  else some false

/-- Whether a position is among those named, unless some result does not fit into 64 bits or a
    remainder by zero is taken on the way. -/
def contains? (nth : Nth) (position : Int32) : Option Bool := do
  let step ← fit64? nth.step.toInt
  let offset ← fit64? nth.offset.toInt
  let distance ← difference? (← fit64? position.toInt) offset
  if step = 0 then return distance == 0
  else if 0 < step then isMultiple? (0 ≤ distance) distance step
  else isMultiple? (distance ≤ 0) distance step

/-- The difference of two numbers of 32 bits fits 64. -/
theorem difference?_eq (position offset : Int32) :
    difference? position.toInt64 offset.toInt64 = some (position.toInt64 - offset.toInt64) := by
  rw [difference?, Int32.toInt_toInt64, Int32.toInt_toInt64, ← toInt_distance, fit64?_toInt]

private theorem distance_ne_minValue (position offset : Int32) :
    position.toInt64 - offset.toInt64 ≠ Int64.minValue := by
  have hposition := position.le_toInt
  have hoffset := offset.toInt_lt
  rw [ne_eq, ← Int64.toInt_inj, toInt_distance, Int64.toInt_minValue]
  omega

/-- The check for multiples breaks off nowhere. -/
theorem isMultiple?_eq {distance step : Int64} (onSide : Bool)
    (hdistance : distance ≠ Int64.minValue) (hstep : step ≠ 0) :
    isMultiple? onSide distance step = some (onSide && distance % step == 0) := by
  cases onSide with
  | false => rfl
  | true =>
    rw [isMultiple?, if_pos rfl, remainder?_eq hdistance hstep]
    rfl

/-- The computation does not break off. -/
theorem contains?_eq (nth : Nth) (position : Int32) :
    nth.contains? position = some (nth.contains position) := by
  have hne := distance_ne_minValue position nth.offset
  rw [contains?, fit64?_toInt32, fit64?_toInt32, fit64?_toInt32]
  show (difference? position.toInt64 nth.offset.toInt64 >>= _) = _
  rw [difference?_eq, contains]
  -- what is left is the same three cases on both sides, for any step and for a distance that fits
  generalize position.toInt64 - nth.offset.toInt64 = distance at hne ⊢
  generalize nth.step.toInt64 = step
  show ite _ _ _ = some (ite _ _ _)
  split
  case isTrue => rfl
  case isFalse hstep =>
    split
    · exact isMultiple?_eq _ hne hstep
    · exact isMultiple?_eq _ hne hstep

/-- For all steps, offsets and positions of 32 bits: every result on the way fits into 64 bits, no
    remainder is by zero, and a position is found to be named exactly if it is reached from the
    offset in a natural number of steps. -/
theorem contains_without_overflow (nth : Nth) (position : Int32) :
    nth.contains? position = some (nth.contains position) ∧
      (nth.contains position = true ↔
        ∃ n : Nat, nth.step.toInt * n + nth.offset.toInt = position.toInt) :=
  ⟨nth.contains?_eq position, nth.contains_iff position⟩

end Nth

end Selectors
