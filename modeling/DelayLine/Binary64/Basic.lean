import DelayLine.Saturating

/-!
# Binary64 numbers

A finite number is a sign and a whole number of units, the unit being the smallest positive
binary64 number, `2 ^ (-1074)`. Operations compute the exact result and round it once, to the
nearest representable number and from a tie to the even one. Main statements:
`representable_roundUnits`, rounding yields a representable number of units unless it overflows,
and `nearest_bounds`, a rounded quotient is off by at most one half.
-/

namespace DelayLine

/-- The whole number nearest to `n / d`, the even one of two. -/
def nearest (n d : Nat) : Nat :=
  if 2 * (n % d) < d ∨ 2 * (n % d) = d ∧ n / d % 2 = 0 then n / d else n / d + 1

theorem nearest_le (n d : Nat) : nearest n d ≤ n / d + 1 := by
  unfold nearest
  split <;> omega

theorem nearest_bounds (n : Nat) {d : Nat} (h : 0 < d) :
    2 * n ≤ 2 * d * nearest n d + d ∧ 2 * d * nearest n d ≤ 2 * n + d := by
  have hn := Nat.div_add_mod n d
  have hr := Nat.mod_lt n h
  have e1 : 2 * d * (n / d) = 2 * (d * (n / d)) := Nat.mul_assoc ..
  have e2 : 2 * d * (n / d + 1) = 2 * (d * (n / d)) + 2 * d := by rw [Nat.mul_add, e1, Nat.mul_one]
  unfold nearest
  split
  · rw [e1]
    omega
  · rw [e2]
    omega

namespace Binary64

def unitsPerOne : Nat := 1 <<< 1074

def unitsWidth : Nat := 2098

def unitsLimit : Nat := 1 <<< unitsWidth

/-- The number of bits of a number that are behind its 53 leading bits. -/
def lowBits (n : Nat) : Nat := n.log2 - 52

/-- A number of units is representable if no bit is set behind its 53 leading bits and it is not
too large. -/
def Representable (units : Nat) : Prop := units < unitsLimit ∧ 1 <<< lowBits units ∣ units

instance (units : Nat) : Decidable (Representable units) :=
  inferInstanceAs (Decidable (_ ∧ _))

theorem shiftLeft_le_unitsLimit {k : Nat} (h : k ≤ unitsWidth) : 1 <<< k ≤ unitsLimit := by
  rw [unitsLimit, Nat.shiftLeft_eq, Nat.shiftLeft_eq, Nat.one_mul, Nat.one_mul]
  exact Nat.pow_le_pow_right (by decide) h

theorem lowBits_dvd_of_le {m : Nat} (h : m ≤ 1 <<< 53) (s : Nat) :
    1 <<< lowBits (m <<< s) ∣ m <<< s := by
  simp only [Nat.shiftLeft_eq, Nat.one_mul, lowBits] at h ⊢
  rcases Nat.eq_zero_or_pos m with rfl | hm
  · simp
  rcases Nat.lt_or_eq_of_le h with h | rfl
  · have hlog : (m * 2 ^ s).log2 < 53 + s := by
      rw [Nat.log2_lt (Nat.ne_of_gt (Nat.mul_pos hm (Nat.two_pow_pos s))), Nat.pow_add]
      exact Nat.mul_lt_mul_of_pos_right h (Nat.two_pow_pos s)
    exact Nat.dvd_trans (Nat.pow_dvd_pow 2 (by omega)) (Nat.dvd_mul_left _ _)
  · rw [← Nat.pow_add, Nat.log2_two_pow]
    exact Nat.pow_dvd_pow 2 (by omega)

/-- `n / d` units rounded to 53 leading bits. -/
def roundUnits (n d : Nat) : Nat :=
  let s := lowBits (n / d)
  nearest n (d <<< s) <<< s

theorem representable_roundUnits {n d : Nat} (h : roundUnits n d < unitsLimit) :
    Representable (roundUnits n d) := by
  refine ⟨h, lowBits_dvd_of_le ?_ _⟩
  simp only [Nat.shiftLeft_eq, Nat.one_mul]
  refine Nat.le_trans (nearest_le _ _) (Nat.succ_le_of_lt ?_)
  rw [← Nat.div_div_eq_div_mul, Nat.div_lt_iff_lt_mul (Nat.two_pow_pos _), ← Nat.pow_add]
  rcases Nat.eq_zero_or_pos (n / d) with h0 | hpos
  · rw [h0]
    exact Nat.two_pow_pos _
  · rw [← Nat.log2_lt (Nat.ne_of_gt hpos), lowBits]
    omega

end Binary64

structure Magnitude where
  units : Nat
  representable : Binary64.Representable units

namespace Magnitude

@[ext] theorem ext {m n : Magnitude} (h : m.units = n.units) : m = n := by
  cases m
  cases n
  cases h
  rfl

instance : DecidableEq Magnitude := fun _ _ => decidable_of_iff _ ⟨ext, congrArg units⟩

def zero : Magnitude :=
  ⟨0, Nat.lt_of_lt_of_le Nat.zero_lt_one (Binary64.shiftLeft_le_unitsLimit (Nat.zero_le _)),
    Nat.dvd_zero _⟩

end Magnitude

/-- A binary64 number, with a single NaN. -/
inductive Binary64 where
  | nan
  | infinite (negative : Bool)
  | finite (negative : Bool) (magnitude : Magnitude)
deriving DecidableEq

namespace Binary64

/-- `n / d` units rounded to the nearest representable number, with the given sign. -/
def round (negative : Bool) (n d : Nat) : Binary64 :=
  if h : roundUnits n d < unitsLimit then .finite negative ⟨_, representable_roundUnits h⟩
  else .infinite negative

/-- The number nearest to the fraction `n / d`. -/
def ofFraction (n d : Nat) : Binary64 := round false (n * unitsPerOne) d

/-- Finite and not below zero, negative zero included. -/
def isFiniteNonneg : Binary64 → Bool
  | finite negative m => !negative || m.units == 0
  | _ => false

def mul : Binary64 → Binary64 → Binary64
  | nan, _ => nan
  | _, nan => nan
  | infinite s, infinite t => infinite (s != t)
  | infinite s, finite t m => if m.units = 0 then nan else infinite (s != t)
  | finite s m, infinite t => if m.units = 0 then nan else infinite (s != t)
  | finite s m, finite t n => round (s != t) (m.units * n.units) unitsPerOne

instance : Mul Binary64 := ⟨mul⟩

/-- The least whole number that is not below the given one. -/
def ceil : Binary64 → Binary64
  | finite false m =>
    round false ((m.units + (unitsPerOne - 1)) / unitsPerOne * unitsPerOne) 1
  | finite true m => round true (m.units / unitsPerOne * unitsPerOne) 1
  | x => x

/-- The nearest whole number, the even one of two. -/
def roundEven : Binary64 → Binary64
  | finite negative m => round negative (nearest m.units unitsPerOne * unitsPerOne) 1
  | x => x

/-- The whole part as an amount: the closest amount if it is out of range, zero for NaN. -/
def toAmount : Binary64 → UInt64
  | nan => 0
  | infinite negative => if negative then 0 else maxAmount
  | finite negative m => if negative then 0 else saturate (m.units / unitsPerOne)

/-- The units of a number with the given exponent and fraction fields. -/
def unitsOfFields (exponent fraction : Nat) : Nat :=
  if exponent = 0 then fraction else (1 <<< 52 + fraction) <<< (exponent - 1)

theorem representable_unitsOfFields {exponent fraction : Nat} (he : exponent < 2047)
    (hf : fraction < 1 <<< 52) : Representable (unitsOfFields exponent fraction) := by
  unfold unitsOfFields
  split
  · refine ⟨Nat.lt_of_lt_of_le hf (shiftLeft_le_unitsLimit (by decide)), ?_⟩
    simpa using lowBits_dvd_of_le (Nat.le_trans (Nat.le_of_lt hf) (by decide)) 0
  · refine ⟨?_, lowBits_dvd_of_le (by omega) _⟩
    refine Nat.lt_of_lt_of_le ?_ (shiftLeft_le_unitsLimit (k := 53 + (exponent - 1)) ?_)
    · simp only [Nat.shiftLeft_eq, Nat.one_mul, Nat.pow_add] at hf ⊢
      exact Nat.mul_lt_mul_of_pos_right (by omega) (Nat.two_pow_pos _)
    · unfold unitsWidth
      omega

def ofBits (bits : UInt64) : Binary64 :=
  let n := bits.toNat
  let negative := decide (1 <<< 63 ≤ n)
  let exponent := n >>> 52 % 2048
  if h : exponent = 2047 then
    if n % 1 <<< 52 = 0 then .infinite negative else .nan
  else
    have hlt : exponent < 2048 := Nat.mod_lt _ (by decide)
    .finite negative ⟨unitsOfFields exponent (n % 1 <<< 52),
      representable_unitsOfFields (by omega) (Nat.mod_lt _ (by decide))⟩

def toBits (x : Binary64) : UInt64 :=
  let sign (negative : Bool) : Nat := if negative then 1 <<< 63 else 0
  .ofNat <| match x with
    | nan => 2047 <<< 52 + 1 <<< 51
    | infinite negative => sign negative + 2047 <<< 52
    | finite negative m =>
      sign negative + lowBits m.units <<< 52 + m.units >>> lowBits m.units

end Binary64

end DelayLine
