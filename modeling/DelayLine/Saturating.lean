/-!
# Amounts that saturate

Times, delays and traffic counts are 64-bit words which stop at their largest value instead of
wrapping. Main statements: `toNat_saturate`, `toNat_satAdd` and `toNat_satSub` move the three
operations to natural numbers.
-/

namespace DelayLine

/-- A time or a delay in milliseconds. -/
abbrev Millis := UInt64

def maxAmount : UInt64 := 18446744073709551615

theorem toNat_maxAmount : maxAmount.toNat = 18446744073709551615 := rfl

theorem toNat_le_maxAmount (a : UInt64) : a.toNat ≤ maxAmount.toNat := by
  have := a.toNat_lt
  rw [toNat_maxAmount]
  omega

/-- The amount closest to `n`. -/
def saturate (n : Nat) : UInt64 := UInt64.ofNatClamp n

@[simp] theorem toNat_saturate (n : Nat) : (saturate n).toNat = min n maxAmount.toNat := by
  unfold saturate UInt64.ofNatClamp
  rw [toNat_maxAmount]
  split
  · next h =>
    simp only [UInt64.size] at h
    rw [UInt64.toNat_ofNatLT]
    omega
  · next h =>
    simp only [UInt64.size] at h
    rw [UInt64.toNat_ofNatLT, UInt64.size]
    omega

theorem saturate_mono {m n : Nat} (h : m ≤ n) : saturate m ≤ saturate n := by
  rw [UInt64.le_iff_toNat_le, toNat_saturate, toNat_saturate]
  omega

def satAdd (a b : UInt64) : UInt64 := saturate (a.toNat + b.toNat)

@[simp] theorem toNat_satAdd (a b : UInt64) :
    (satAdd a b).toNat = min (a.toNat + b.toNat) maxAmount.toNat :=
  toNat_saturate _

theorem le_satAdd (a b : UInt64) : a ≤ satAdd a b := by
  have := toNat_le_maxAmount a
  rw [UInt64.le_iff_toNat_le, toNat_satAdd]
  omega

def satSub (a b : UInt64) : UInt64 := saturate (a.toNat - b.toNat)

@[simp] theorem toNat_satSub (a b : UInt64) : (satSub a b).toNat = a.toNat - b.toNat := by
  rw [satSub, toNat_saturate]
  exact Nat.min_eq_left (Nat.le_trans (Nat.sub_le ..) (toNat_le_maxAmount a))

end DelayLine
