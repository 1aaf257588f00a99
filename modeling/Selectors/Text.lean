/-!
# Text — characters, words and numerals

Selectors and the values that they are compared with are texts, and what is asked of a text is the
same throughout. There are two classes of separating characters, and they differ. A *blank* is one
of five ASCII characters: blanks separate tokens, the words of an attribute value, and class names.
A *space* is any character with the `White_Space` property: spaces are what is trimmed from the
argument of a positional pseudo-class before it is read.

Names of elements, attributes and pseudo-classes are compared without regard to the case of the
26 ASCII letters and of no other character: `String.toLower` maps exactly those, so two texts
agree up to case when their lowercase forms are equal.

The length of one text can say where to cut another one. The count is in bytes of the UTF-8
encoding, so the cut may fall inside a character, and then there is none. A numeral is one or more
ASCII digits, possibly after a sign, and its value may have any size.

* **`words`** — the maximal blank-free runs of a text, in order.
* **`trim`** — a text without the spaces at its ends.
* **`sameUpToCase`** — equality up to letter case.
* **`cutAt`** — the parts before and after a cut, if it falls between two characters, with
  **`cutAt_eq_some_iff`**: they are those whose first one has exactly that many bytes.
* **`readInt32?`** — the value of a numeral, if it fits into 32 bits.
-/

namespace Selectors

/-! ## Blanks and spaces -/

/-- Whether `c` is a blank: a line feed, tab, space, carriage return or form feed. -/
def isBlank (c : Char) : Bool :=
  c == '\n' || c == '\t' || c == ' ' || c == '\r' || c == '\x0c'

/-- A blank is one of five characters. -/
theorem eq_of_isBlank {c : Char} (h : isBlank c = true) :
    c = '\n' ∨ c = '\t' ∨ c = ' ' ∨ c = '\r' ∨ c = '\x0c' := by
  simpa only [isBlank, Bool.or_eq_true, beq_iff_eq, or_assoc] using h

/-- Whether `c` has the `White_Space` property. -/
def isSpace (c : Char) : Bool :=
  (0x09 ≤ c.val && c.val ≤ 0x0D) || c.val == 0x20 || c.val == 0x85 || c.val == 0xA0 ||
    c.val == 0x1680 || (0x2000 ≤ c.val && c.val ≤ 0x200A) || c.val == 0x2028 ||
    c.val == 0x2029 || c.val == 0x202F || c.val == 0x205F || c.val == 0x3000

/-- Every blank is a space, so trimming spaces trims blanks. -/
theorem isSpace_of_isBlank {c : Char} (h : isBlank c = true) : isSpace c = true := by
  rcases eq_of_isBlank h with rfl | rfl | rfl | rfl | rfl <;> rfl

/-- The words of a text: its maximal runs without blanks, from first to last. -/
def words (text : String) : List String :=
  ((text.toList.splitOnP isBlank).filter (!·.isEmpty)).map String.ofList

/-- The characters without the spaces in front. -/
def trimStart (text : List Char) : List Char :=
  text.dropWhile isSpace

/-- The characters without the spaces at either end. -/
def trim (text : List Char) : List Char :=
  (trimStart (trimStart text).reverse).reverse

/-- A text that starts with no space loses nothing in front. -/
theorem trimStart_cons_of_not_isSpace {c : Char} {text : List Char} (h : isSpace c = false) :
    trimStart (c :: text) = c :: text := by
  simp [trimStart, h]

/-! ## Letter case -/

/-- Whether two texts are equal up to the case of ASCII letters. -/
def sameUpToCase (a b : String) : Bool :=
  a.toLower == b.toLower

/-- Lowering the case of a text lowers each of its characters. -/
theorem toList_toLower (s : String) : s.toLower.toList = s.toList.map Char.toLower :=
  String.toList_map

/-- The letters in upper case are moved by 32, and no other character is moved. -/
theorem toNat_toLower (c : Char) :
    c.toLower.toNat = if 65 ≤ c.toNat ∧ c.toNat ≤ 90 then c.toNat + 32 else c.toNat := by
  have hupper : (c.val ≥ 'A'.val ∧ c.val ≤ 'Z'.val) ↔ 65 ≤ c.toNat ∧ c.toNat ≤ 90 := Iff.rfl
  delta Char.toLower
  split
  · next h =>
    have hmoved : (c.val + 32).toNat = (c.toNat + 32) % 2 ^ 32 := UInt32.toNat_add c.val 32
    have hhigh := (hupper.1 h).2
    rw [if_pos (hupper.1 h)]
    show (c.val + 32).toNat = c.toNat + 32
    omega
  · next h => rw [if_neg fun h' => h (hupper.2 h')]

/-- The letters of ASCII by their numbers. -/
theorem isAlpha_iff {c : Char} :
    c.isAlpha = true ↔ 65 ≤ c.toNat ∧ c.toNat ≤ 90 ∨ 97 ≤ c.toNat ∧ c.toNat ≤ 122 := by
  delta Char.isAlpha Char.isUpper Char.isLower
  simp only [Bool.or_eq_true, decide_eq_true_eq, Bool.and_eq_true]
  exact Iff.rfl

/-- A text of lower case stays as it is. -/
theorem toLower_toLower (s : String) : s.toLower.toLower = s.toLower := by
  have hchar : ∀ c : Char, c.toLower.toLower = c.toLower := by
    intro c
    rw [← Char.toNat_inj, toNat_toLower, toNat_toLower]
    split
    · rw [if_neg (by omega)]
    · rfl
  rw [← String.toList_inj, toList_toLower, toList_toLower, List.map_map]
  exact List.map_congr_left fun c _ => hchar c

/-- What is no letter is the lower case of itself only. -/
theorem toLower_eq_iff {c d : Char} (h : d.isAlpha = false) : c.toLower = d ↔ c = d := by
  have hd := mt isAlpha_iff.2 (Bool.eq_false_iff.1 h)
  rw [← Char.toNat_inj, ← Char.toNat_inj, toNat_toLower]
  split <;> omega

/-- A text without letters is the same in lower case, and no other text becomes it. -/
theorem map_toLower_eq_iff {text lowered : List Char} (h : ∀ c ∈ lowered, c.isAlpha = false) :
    text.map Char.toLower = lowered ↔ text = lowered := by
  induction lowered generalizing text with
  | nil => exact List.map_eq_nil_iff
  | cons d lowered ih =>
    have hrest : ∀ c ∈ lowered, c.isAlpha = false := fun c hc => h c (List.mem_cons_of_mem _ hc)
    cases text with
    | nil => exact iff_of_false nofun nofun
    | cons c text =>
      rw [List.map_cons, List.cons.injEq, List.cons.injEq,
        toLower_eq_iff (h d List.mem_cons_self), ih hrest]

/-! ## Cuts at a byte count -/

/-- The number of bytes that the characters take in UTF-8. -/
def byteCount : List Char → Nat
  | [] => 0
  | c :: text => c.utf8Size + byteCount text

/-- The characters within the first `n` bytes and those after them; `none` if the cut falls
    inside a character or past the end. -/
def cutAt : Nat → List Char → Option (List Char × List Char)
  | 0, text => some ([], text)
  | _ + 1, [] => none
  | n + 1, c :: text =>
    if c.utf8Size ≤ n + 1 then (cutAt (n + 1 - c.utf8Size) text).map fun (a, b) => (c :: a, b)
    else none

/-- A character takes at least one byte. -/
theorem utf8Size_ne_zero (c : Char) : c.utf8Size ≠ 0 :=
  Nat.ne_of_gt c.utf8Size_pos

/-- Characters add their bytes. -/
theorem byteCount_cons (c : Char) (text : List Char) :
    byteCount (c :: text) = c.utf8Size + byteCount text :=
  rfl

/-- A text is cut into `a` and `b` at `n` bytes exactly when it is `a` followed by `b` and `a`
    takes `n` bytes. -/
theorem cutAt_eq_some_iff {n : Nat} {text a b : List Char} :
    cutAt n text = some (a, b) ↔ text = a ++ b ∧ byteCount a = n := by
  -- on the text; every character takes at least one byte, so `n` grows smaller with it
  induction text generalizing n a with
  | nil =>
    cases n with
    | zero => cases a <;> simp [cutAt, byteCount, eq_comm]
    | succ n => cases a <;> simp [cutAt, byteCount]
  | cons c text ih =>
    cases n with
    | zero =>
      cases a with
      | nil => simp [cutAt, byteCount, eq_comm]
      | cons d a =>
        have := utf8Size_ne_zero d
        simp [cutAt, byteCount_cons]
        omega
    | succ n =>
      cases a with
      | nil =>
        simp only [cutAt]
        split <;> simp [byteCount]
      | cons d a =>
        simp only [cutAt]
        split
        · simp only [Option.map_eq_some_iff, Prod.mk.injEq, Prod.exists, List.cons.injEq,
            List.cons_append, byteCount_cons]
          constructor
          · rintro ⟨a', b', hcut, ⟨rfl, rfl⟩, rfl⟩
            obtain ⟨rfl, hn⟩ := ih.1 hcut
            exact ⟨⟨rfl, rfl⟩, by omega⟩
          · rintro ⟨⟨rfl, rfl⟩, hn⟩
            exact ⟨a, b, ih.2 ⟨rfl, by omega⟩, ⟨rfl, rfl⟩, rfl⟩
        · simp only [reduceCtorEq, List.cons_append, List.cons.injEq, byteCount_cons, false_iff]
          rintro ⟨⟨rfl, rfl⟩, hn⟩
          omega

/-! ## Numerals -/

/-- The value of a digit. -/
def digitValue (c : Char) : Nat :=
  c.toNat - '0'.toNat

/-- The value of the digits, the first one weighing most. -/
def digitsValue (digits : List Char) : Nat :=
  digits.foldl (fun value c => 10 * value + digitValue c) 0

/-- The value of a text that consists of digits, and of at least one. -/
def readDigits? (text : List Char) : Option Nat :=
  if !text.isEmpty && text.all Char.isDigit then some (digitsValue text) else none

/-- The value of digits after an optional sign. -/
def readSigned? : List Char → Option Int
  | '-' :: digits => (readDigits? digits).map fun n => -(n : Int)
  | '+' :: digits => (readDigits? digits).map Int.ofNat
  | digits => (readDigits? digits).map Int.ofNat

/-- The integer as a 32-bit one, if it fits. -/
def toInt32? (value : Int) : Option Int32 :=
  if Int32.minValue.toInt ≤ value ∧ value ≤ Int32.maxValue.toInt then some (Int32.ofInt value)
  else none

/-- The value of digits after an optional sign, if it fits into 32 bits. -/
def readInt32? (text : List Char) : Option Int32 :=
  (readSigned? text).bind toInt32?

/-- A number of 32 bits fits. -/
theorem toInt32?_of_fits {value : Int} (hlow : -0x80000000 ≤ value) (hhigh : value ≤ 0x7FFFFFFF) :
    toInt32? value = some (Int32.ofInt value) :=
  if_pos ⟨hlow, hhigh⟩

/-- A value that fits is kept. -/
theorem toInt_of_toInt32?_eq_some {value : Int} {n : Int32} (h : toInt32? value = some n) :
    n.toInt = value := by
  simp only [toInt32?] at h
  split at h
  case isTrue bounds =>
    obtain rfl := Option.some.inj h
    exact Int32.toInt_ofInt_of_le bounds.1 (Int.lt_of_le_of_lt bounds.2 (by decide))
  case isFalse => simp at h

end Selectors
