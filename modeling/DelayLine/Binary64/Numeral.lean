import DelayLine.Binary64.Basic
import DelayLine.Text.Numeral

/-!
# Numerals for binary64 numbers

A numeral is an optional sign followed by a decimal, with or without a point and an exponent. It
reads as the nearest number, which is infinite if the decimal is too large.
-/

namespace DelayLine

/-- The number `significand * 10 ^ exponent`. -/
structure Decimal where
  significand : Nat
  exponent : Int
deriving DecidableEq, Repr

namespace Decimal

/-- Reads digits with at most one point among them, before or after it included. -/
def mantissa? (t : Text) : Option Decimal :=
  match t.splitOn '.' with
  | [whole] => (Numeral.digits? whole).map fun n => ⟨n, 0⟩
  | [whole, fraction] => (Numeral.digits? (whole ++ fraction)).map fun n => ⟨n, -fraction.length⟩
  | _ => none

/-- Reads an exponent, which may have a sign. -/
def exponent? : Text → Option Int
  | '-' :: t => (Numeral.digits? t).map fun n => -(n : Int)
  | t => (Numeral.unsigned? t).map fun n => (n : Int)

/-- Reads digits with an optional point and an optional exponent behind `e` or `E`. -/
def parse? (t : Text) : Option Decimal := do
  let d ← mantissa? (t.takeWhile fun c => c != 'e' && c != 'E')
  match t.dropWhile fun c => c != 'e' && c != 'E' with
  | [] => some d
  | _ :: e => (exponent? e).map fun x => { d with exponent := d.exponent + x }

end Decimal

namespace Binary64

/-- The number nearest to a decimal of the given sign. A decimal of at least `10 ^ 309` is too
large, and one below `2 ^ (-1075)` is closer to zero than to the smallest number, so that no power
of ten is larger than the decimal is long. -/
def ofDecimal (negative : Bool) (d : Decimal) : Binary64 :=
  if d.significand = 0 then finite negative .zero
  else if 309 ≤ d.exponent then infinite negative
  else if d.significand.log2 + 3 * d.exponent < -1075 then finite negative .zero
  else
    round negative (d.significand * Nat.pow 10 d.exponent.toNat * unitsPerOne)
      (Nat.pow 10 (-d.exponent).toNat)

def parse? : Text → Option Binary64
  | '-' :: t => (Decimal.parse? t).map (ofDecimal true)
  | '+' :: t => (Decimal.parse? t).map (ofDecimal false)
  | t => (Decimal.parse? t).map (ofDecimal false)

end Binary64

end DelayLine
