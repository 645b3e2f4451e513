import DelayLine.Binary64.Numeral

/-!
# Reading amounts

Delays and byte counts are read as 64-bit numbers. A numeral that is no such number may still be a
binary64 numeral: its fraction is then dropped and what is too large is cut to the largest amount.
-/

namespace DelayLine

/-- Reads a number of at most 64 bits. -/
def word? (t : Text) : Option UInt64 :=
  (Numeral.unsigned? t).bind fun n => if n < UInt64.size then some (UInt64.ofNat n) else none

@[simp] theorem word?_render (n : UInt64) : word? (Numeral.render n.toNat) = some n := by
  rw [word?, Numeral.unsigned?_render, Option.bind_some, if_pos n.toNat_lt, UInt64.ofNat_toNat]

/-- Reads a finite binary64 number that is not below zero. -/
def nonneg? (t : Text) : Option Binary64 := (Binary64.parse? t).filter Binary64.isFiniteNonneg

/-- Reads a delay or a byte count. -/
def amount? (t : Text) : Option UInt64 := word? t <|> (nonneg? t).map Binary64.toAmount

@[simp] theorem amount?_render (n : UInt64) : amount? (Numeral.render n.toNat) = some n := by
  simp [amount?]

end DelayLine
