import SourceClosure.Json.Basic

/-!
# Numerals

A numeral is kept as it is written: sign, whole part, fraction and exponent. Two questions are
asked of it: which natural number of at most 64 bits it spells (`toNat?`), and whether its
magnitude is too large for a double (`overflows`).

The magnitude is taken as a significand times a power of ten. Digits go into the significand
as long as it fits 64 bits; digits of the whole part that no longer fit count in the exponent,
and digits of the fraction that no longer fit are dropped. The significand and the power of
ten are each rounded to a double, then their product is; the numeral is too large when that
product is beyond the largest double. All of it is exact arithmetic on natural numbers.
-/

namespace SourceClosure

namespace Json

/-- A number as it is written. -/
structure Numeral where
  /-- Whether a minus sign stands in front. -/
  negative : Bool
  /-- The digits before the point. -/
  whole : Text
  /-- The digits after the point, if there is a point. -/
  fraction : Option Text
  /-- Whether the exponent is negative, and its digits, if there is an exponent. -/
  exponent : Option (Bool × Text)
  deriving DecidableEq, Repr

namespace Numeral

/-! ## Reading -/

/-- The run of digits that comes next, which may not be empty. `atEnd` is the fault of a text
that ends here. -/
def readDigits (atEnd : Fault) (t : Text) : Except Fault (Text × Text) :=
  match t.takeWhile Char.isDigit, t.dropWhile Char.isDigit with
  | [], [] => .error atEnd
  | [], _ :: _ => .error .malformed
  | digits, rest => .ok (digits, rest)

/-- The fraction, if a point comes next. -/
def readFraction (atEnd : Fault) : Text → Except Fault (Option Text × Text)
  | '.' :: rest => do
    let (digits, rest) ← readDigits atEnd rest
    return (some digits, rest)
  | t => .ok (none, t)

/-- The sign that may stand in front of an exponent's digits; whether it is a minus sign. -/
def readSign : Text → Bool × Text
  | '+' :: rest => (false, rest)
  | '-' :: rest => (true, rest)
  | t => (false, t)

/-- The exponent, if its mark comes next. -/
def readExponent (atEnd : Fault) : Text → Except Fault (Option (Bool × Text) × Text)
  | [] => .ok (none, [])
  | c :: rest =>
    if c = 'e' ∨ c = 'E' then do
      let (negative, rest) := readSign rest
      let (digits, rest) ← readDigits atEnd rest
      return (some (negative, digits), rest)
    else .ok (none, c :: rest)

/-- The minus sign that may stand in front of a number. -/
def readMinus : Text → Bool × Text
  | '-' :: rest => (true, rest)
  | t => (false, t)

/-- A number of the grammar. The whole part has no leading zero unless it is zero; `atEnd` is
the fault of a text that ends where a digit has to come. -/
def read (atEnd : Fault) (t : Text) : Except Fault (Numeral × Text) := do
  let (negative, t) := readMinus t
  let (whole, t) ← readDigits atEnd t
  if whole.head? = some '0' ∧ whole ≠ ['0'] then throw .malformed
  let (fraction, t) ← readFraction atEnd t
  let (exponent, t) ← readExponent atEnd t
  return (⟨negative, whole, fraction, exponent⟩, t)

/-! ## Natural numbers -/

/-- The value of a digit. -/
def digitValue (c : Char) : Nat :=
  c.toNat - '0'.toNat

/-- The natural number that a run of decimal digits spells. -/
def ofDigits (digits : Text) : Nat :=
  digits.foldl (fun n c => n * 10 + digitValue c) 0

/-- The largest number of 64 bits. -/
def maxWord : Nat := Nat.pow 2 64 - 1

/-- The number of at most 64 bits that is spelled without sign, fraction and exponent. -/
def toNat? (n : Numeral) : Option Nat :=
  if n.negative ∨ n.fraction.isSome ∨ n.exponent.isSome then none
  else if ofDigits n.whole ≤ maxWord then some (ofDigits n.whole)
  else none

/-- The decimal digits of a natural number. -/
def digits (n : Nat) : Text :=
  Nat.toDigits 10 n

/-- The numeral of a natural number. -/
def ofNat (n : Nat) : Numeral :=
  ⟨false, digits n, none, none⟩

/-! ## Magnitude -/

/-- A significand and an exponent of ten. -/
structure Scaled where
  significand : Nat
  exponent : Int

/-- The whole part: digits that do not fit the significand are counted. -/
def scaleWhole (digits : Text) : Scaled :=
  let (n, dropped) := digits.foldl
    (fun (n, dropped) c =>
      if dropped = 0 ∧ n * 10 + digitValue c ≤ maxWord then (n * 10 + digitValue c, 0)
      else (n, dropped + 1))
    ((0, 0) : Nat × Nat)
  ⟨n, dropped⟩

/-- The fraction: its digits move the exponent down until one does not fit the significand. -/
def scaleFraction (s : Scaled) (digits : Text) : Scaled :=
  let (n, taken, _) := digits.foldl
    (fun (n, taken, full) c =>
      if !full && decide (n * 10 + digitValue c ≤ maxWord) then
        (n * 10 + digitValue c, taken + 1, false)
      else (n, taken, true))
    ((s.significand, 0, false) : Nat × Nat × Bool)
  ⟨n, s.exponent - taken⟩

/-- The numeral without its sign, as a significand times a power of ten. -/
def scaled (n : Numeral) : Scaled :=
  let s := scaleFraction (scaleWhole n.whole) (n.fraction.getD [])
  match n.exponent with
  | none => s
  | some (true, digits) => ⟨s.significand, s.exponent - ofDigits digits⟩
  | some (false, digits) => ⟨s.significand, s.exponent + ofDigits digits⟩

/-- A natural number rounded to 53 significant bits, ties to even. -/
def round53 (n : Nat) : Nat :=
  if n < Nat.pow 2 53 then n
  else
    let unit := Nat.pow 2 (n.log2 - 52)
    let low := n / unit * unit
    let rest := 2 * (n % unit)
    if rest < unit ∨ (rest = unit ∧ n / unit % 2 = 0) then low else low + unit

/-- Whether the magnitude is beyond the largest double. -/
def overflows (n : Numeral) : Bool :=
  let s := n.scaled
  if s.significand = 0 ∨ s.exponent < 0 then false
  else if 308 < s.exponent then true
  else decide (Nat.pow 2 1024 ≤
      round53 (round53 s.significand * round53 (Nat.pow 10 s.exponent.toNat)))

end Numeral

end Json

end SourceClosure
