import Selectors.Selector.Error

/-!
# An+B — positions in steps, and how they are written

A positional pseudo-class names the positions `A·n + B` for `n = 0, 1, 2, …`, where `A` and `B`
may be any 32-bit integers. Whether a position is one of them is computed with 64 bits, because
its distance from `B` may not fit into 32.

The argument is read from tokens. These split it in odd places (the text `2n-1` is one token and
`2n+1` two), so it is put together again as text, trimmed and lowered in case, and read from there:
a keyword, an integer, or a term in `n` with a signed number after it, if anything.

The sign is the first byte of what follows `n`. If a character of more than one byte stands
there the text cannot be divided, and reading breaks off with `ParseFailure.brokenCharacter`,
which is no verdict on the selector.

* **`Nth.contains`** — whether a position is among those named.
* **`Nth.parse`** — the positions that the tokens of an argument tell.
-/

namespace Selectors

/-- The positions `step·n + offset` for natural numbers `n`. -/
structure Nth where
  step : Int32
  offset : Int32
deriving DecidableEq, Repr

namespace Nth

/-- Every second position from the first. -/
def odd : Nth := ⟨2, 1⟩

/-- Every second position from the second; no position is zero. -/
def even : Nth := ⟨2, 0⟩

/-- Whether a position is among those named. -/
def contains (nth : Nth) (position : Int32) : Bool :=
  let step := nth.step.toInt64
  let distance := position.toInt64 - nth.offset.toInt64
  if step = 0 then distance == 0
  else if 0 < step then 0 ≤ distance && distance % step == 0
  else distance ≤ 0 && distance % step == 0

end Nth

/-! ## Reading an argument -/

/-- Why reading does not give a selector list. -/
inductive ParseFailure where
  /-- The text is no selector list. -/
  | invalid (error : SelectorError)
  /-- The text had to be divided within a character. -/
  | brokenCharacter
deriving DecidableEq, Repr

namespace Nth

/-- The steps that the text in front of `n` tells. -/
def readStep? : List Char → Option Int32
  | [] => some 1
  | ['+'] => some 1
  | ['-'] => some (-1)
  | text => readInt32? text

/-- The number after a sign: digits, with spaces in front of them at most. -/
def readUnsigned? (text : List Char) : Option Int32 :=
  (readDigits? (trimStart text)).bind fun n => toInt32? n

/-- The offset that the trimmed text after `n` tells; `none` within the result if it tells
    none. -/
def readOffset : List Char → Except ParseFailure (Option Int32)
  | [] => .ok (some 0)
  | sign :: text =>
    if 1 < sign.utf8Size then .error .brokenCharacter
    else
      match readUnsigned? text, sign with
      | some value, '+' => .ok (some value)
      | some value, '-' => .ok (some (-value))
      | _, _ => .ok none

/-- The positions that a trimmed text of lower case tells; `none` within the result if it tells
    none. -/
def readText (text : List Char) : Except ParseFailure (Option Nth) :=
  if text = "odd".toList then .ok (some odd)
  else if text = "even".toList then .ok (some even)
  else
    match readInt32? text with
    | some offset => .ok (some ⟨0, offset⟩)
    | none =>
      match text.dropWhile (· != 'n') with
      | [] => .ok none
      | _ :: rest =>
        match readStep? (text.takeWhile (· != 'n')) with
        | none => .ok none
        | some step => (readOffset (trim rest)).map (·.map fun offset => ⟨step, offset⟩)

/-- The trimmed text of the tokens of an argument. -/
def argumentText (tokens : List Token) : List Char :=
  trim (tokens.flatMap (·.text.toList))

/-- The positions that the tokens of an argument tell. -/
def parse (tokens : List Token) : Except ParseFailure Nth := do
  match ← readText ((argumentText tokens).map Char.toLower) with
  | some nth => .ok nth
  | none => .error (.invalid (.invalidNth (String.ofList (argumentText tokens))))

end Nth

end Selectors
