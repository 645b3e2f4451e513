import Mathlib.Data.Nat.Log
import DelayLine.Proofs.Fractions

/-!
# Whole numbers are rounded exactly

Rounding keeps the order of quotients with one denominator (`roundUnits_mono`) and leaves a number
alone that has no more than 53 leading bits. A whole number next to a number of that kind is of that
kind again, so rounding a finite number to a whole one, up or to the nearest, never rounds twice and
never overflows (`exists_round_whole`).
-/

namespace DelayLine

section Nearest

variable {n n' d : Nat}

theorem nearest_mono (hd : 0 < d) (h : n ≤ n') : nearest n d ≤ nearest n' d := by
  have hlt := (nearest_lt_iff (n := n') hd).1 (Nat.lt_succ_self _)
  rw [← Nat.lt_succ_iff, nearest_lt_iff hd]
  omega

/-- Both numbers next to a tie are as near, and the even one is taken. -/
theorem even_nearest_of_tie (hd : 0 < d)
    (h : 2 * n + d = 2 * (d * nearest n d) ∨ 2 * n = 2 * (d * nearest n d) + d) :
    Even (nearest n d) := by
  have hself := (nearest_lt_iff (n := n) hd).not.1 (Nat.lt_irrefl _)
  have hnext := (nearest_lt_iff (n := n) hd).1 (Nat.lt_succ_self _)
  rw [Nat.mul_succ] at hnext
  rw [Nat.even_iff]
  omega

end Nearest

namespace Binary64

section Units

variable {n n' d q k : Nat}

theorem lowBits_mono (h : n ≤ n') : lowBits n ≤ lowBits n' := by
  simp only [lowBits, Nat.log2_eq_log_two]
  exact Nat.sub_le_sub_right (Nat.log_mono_right h) 52

theorem roundUnits_mono (hd : 0 < d) (h : n ≤ n') : roundUnits n d ≤ roundUnits n' d := by
  rcases (lowBits_mono (Nat.div_le_div_right (c := d) h)).lt_or_eq with hlt | heq
  · -- The first number with as many bits as the larger quotient is in between.
    have hn := (lt_mul_lowBits n hd).le
    have hn' := mul_lowBits_le (n := n') (d := d) (by omega)
    rw [mul_two_pow_mul] at hn hn'
    calc roundUnits n d
        ≤ 2 ^ 53 * 2 ^ lowBits (n / d) := roundUnits_le hd le_rfl hn
      _ ≤ 2 ^ 52 * 2 ^ lowBits (n' / d) := mul_two_pow_le le_rfl hlt
      _ ≤ roundUnits n' d := le_roundUnits hd (by decide) hn'
  · rw [roundUnits_eq, roundUnits_eq, heq]
    exact Nat.mul_le_mul_right _ (nearest_mono (Nat.mul_pos hd (Nat.two_pow_pos _)) h)

theorem roundUnits_mul_mul_right (n d : Nat) (hk : 0 < k) :
    roundUnits (n * k) (d * k) = roundUnits n d := by
  rw [roundUnits_eq, roundUnits_eq, Nat.mul_div_mul_right n d hk, Nat.mul_right_comm d,
    nearest_mul_mul_right _ _ hk]

/-- No bit is set behind the 53 leading ones. -/
def IsShort (n : Nat) : Prop := ∃ c j, c ≤ 2 ^ 53 ∧ n = c * 2 ^ j

theorem isShort_of_le (h : n ≤ 2 ^ 53) : IsShort n := ⟨n, 0, h, by simp⟩

theorem isShort_two_pow (k : Nat) : IsShort (2 ^ k) := ⟨1, k, by decide, (Nat.one_mul _).symm⟩

namespace IsShort

theorem mul_two_pow (h : IsShort n) (k : Nat) : IsShort (n * 2 ^ k) := by
  obtain ⟨c, j, hc, rfl⟩ := h
  exact ⟨c, j + k, hc, by rw [pow_add, Nat.mul_assoc]⟩

theorem roundUnits_mul (h : IsShort n) (hd : 0 < d) : roundUnits (d * n) d = n := by
  obtain ⟨c, j, hc, rfl⟩ := h
  exact Nat.le_antisymm (roundUnits_le hd hc le_rfl) (le_roundUnits hd hc le_rfl)

theorem roundUnits_one (h : IsShort n) : roundUnits n 1 = n := by
  simpa only [Nat.one_mul] using h.roundUnits_mul Nat.one_pos

theorem roundUnits_le_of_le (h : IsShort n) (hd : 0 < d) (hle : n' ≤ d * n) :
    roundUnits n' d ≤ n :=
  (roundUnits_mono hd hle).trans (h.roundUnits_mul hd).le

/-- In steps of `2 ^ k`, the two numbers that are next to one with 53 leading bits are short. -/
theorem of_near (h : IsShort n) (hlow : q * 2 ^ k < n + 2 ^ k) (hhigh : n < (q + 1) * 2 ^ k) :
    IsShort q := by
  obtain ⟨c, j, hc, rfl⟩ := h
  rcases Nat.lt_or_ge j k with hjk | hkj
  · refine isShort_of_le (Nat.le_trans (Nat.le_of_lt_succ ?_) hc)
    have hle : c * 2 ^ j ≤ c * 2 ^ k :=
      Nat.mul_le_mul_left c (Nat.pow_le_pow_right (by decide) hjk.le)
    refine Nat.lt_of_mul_lt_mul_right (a := 2 ^ k) ?_
    rw [Nat.succ_mul]
    omega
  · -- The number is a multiple of the step, so it is the number next to it.
    obtain ⟨i, rfl⟩ := Nat.exists_eq_add_of_le hkj
    rw [mul_two_pow_add] at hlow hhigh
    rw [← Nat.succ_mul] at hlow
    have hlow := Nat.lt_of_mul_lt_mul_right hlow
    have hhigh := Nat.lt_of_mul_lt_mul_right hhigh
    exact ⟨c, i, hc, by omega⟩

theorem add_two_pow_le (h : IsShort n) (hlt : n < 2 ^ 53 * 2 ^ k) : n + 2 ^ k ≤ 2 ^ 53 * 2 ^ k := by
  obtain ⟨c, j, hc, rfl⟩ := h
  rcases Nat.lt_or_ge j k with hjk | hkj
  · have := mul_two_pow_le hc hjk
    omega
  · obtain ⟨i, rfl⟩ := Nat.exists_eq_add_of_le hkj
    rw [mul_two_pow_add] at hlt ⊢
    rw [← Nat.succ_mul]
    exact Nat.mul_le_mul_right _ (Nat.lt_of_mul_lt_mul_right hlt)

end IsShort

theorem unitsPerOne_le_two_pow (h : 1074 ≤ k) : unitsPerOne ≤ 2 ^ k := by
  obtain ⟨i, rfl⟩ := Nat.exists_eq_add_of_le h
  rw [pow_add, ← unitsPerOne_eq]
  exact Nat.le_mul_of_pos_right _ (Nat.two_pow_pos i)

theorem isShort_unitsPerOne : IsShort unitsPerOne := by
  rw [unitsPerOne_eq]
  exact isShort_two_pow 1074

theorem IsShort.mul_unitsPerOne (h : IsShort n) : IsShort (n * unitsPerOne) := by
  rw [unitsPerOne_eq]
  exact h.mul_two_pow 1074

end Units

theorem isShort_units (m : Magnitude) : IsShort m.units := by
  obtain ⟨c, hc⟩ := m.representable.2
  rw [one_shiftLeft] at hc
  have hlt := lt_mul_lowBits m.units Nat.one_pos
  rw [Nat.div_one, Nat.one_mul] at hlt
  refine ⟨c, lowBits m.units, Nat.le_of_mul_le_mul_left ?_ (Nat.two_pow_pos (lowBits m.units)), ?_⟩
  · rw [← hc]
    exact hlt.le
  · rw [Nat.mul_comm]
    exact hc

section Finite

variable (negative : Bool) {m n : Magnitude}

theorem exists_round {n d : Nat} (h : roundUnits n d < unitsLimit) :
    ∃ w : Magnitude, w.units = roundUnits n d ∧ round negative n d = finite negative w :=
  ⟨_, rfl, dif_pos h⟩

theorem isShort_of_near {q : Nat} (hlow : q * unitsPerOne < m.units + unitsPerOne)
    (hhigh : m.units < (q + 1) * unitsPerOne) : IsShort q := by
  rw [unitsPerOne_eq] at hlow hhigh
  exact (isShort_units m).of_near hlow hhigh

/-- The two whole numbers next to a finite number are represented. -/
theorem exists_round_whole {q : Nat} (hlow : q * unitsPerOne < m.units + unitsPerOne)
    (hhigh : m.units < (q + 1) * unitsPerOne) : ∃ w : Magnitude,
      w.units = q * unitsPerOne ∧ round negative (q * unitsPerOne) 1 = finite negative w := by
  have hround := (isShort_of_near hlow hhigh).mul_unitsPerOne.roundUnits_one
  have hlimit : q * unitsPerOne < unitsLimit := by
    have hle := (isShort_units m).add_two_pow_le (unitsLimit_eq ▸ m.representable.1)
    have hunits : unitsPerOne ≤ 2 ^ (2044 + 1) := unitsPerOne_le_two_pow (by decide)
    rw [unitsLimit_eq]
    omega
  obtain ⟨w, hw, heq⟩ := exists_round negative (hround ▸ hlimit)
  exact ⟨w, hw.trans hround, heq⟩

theorem exists_roundEven (m : Magnitude) : ∃ w : Magnitude,
    w.units = nearest m.units unitsPerOne * unitsPerOne ∧
      roundEven (finite negative m) = finite negative w := by
  have hpos := unitsPerOne_pos
  obtain ⟨hlow, hhigh⟩ := nearest_bounds m.units hpos
  rw [Nat.mul_assoc, Nat.mul_comm unitsPerOne] at hlow hhigh
  refine exists_round_whole (m := m) negative ?_ ?_
  · omega
  · rw [Nat.succ_mul]
    omega

/-- A product with a factor of at most one does not overflow. -/
theorem exists_mul (hn : n.units ≤ unitsPerOne) : ∃ w : Magnitude,
    w.units = roundUnits (m.units * n.units) unitsPerOne ∧
      finite negative m * finite false n = finite negative w := by
  have hle : roundUnits (m.units * n.units) unitsPerOne ≤ m.units := by
    refine (isShort_units m).roundUnits_le_of_le unitsPerOne_pos ?_
    rw [Nat.mul_comm]
    exact Nat.mul_le_mul_right _ hn
  obtain ⟨w, hw, heq⟩ := exists_round negative (hle.trans_lt m.representable.1)
  refine ⟨w, hw, Eq.trans ?_ heq⟩
  cases negative <;> rfl

end Finite

end Binary64

namespace Magnitude

open Binary64

variable (m : Magnitude)

/-- The least whole number that is not below a magnitude. -/
def ceil : Nat := (m.units + (unitsPerOne - 1)) / unitsPerOne

theorem le_ceil_mul : m.units ≤ m.ceil * unitsPerOne := by
  have hpos := unitsPerOne_pos
  have hdiv := Nat.div_add_mod (m.units + (unitsPerOne - 1)) unitsPerOne
  have hmod := Nat.mod_lt (m.units + (unitsPerOne - 1)) hpos
  rw [ceil, Nat.mul_comm]
  omega

theorem ceil_mul_lt : m.ceil * unitsPerOne < m.units + unitsPerOne := by
  have hpos := unitsPerOne_pos
  have hle := Nat.div_mul_le_self (m.units + (unitsPerOne - 1)) unitsPerOne
  rw [ceil]
  omega

theorem lt_ceil_succ_mul : m.units < (m.ceil + 1) * unitsPerOne := by
  rw [Nat.succ_mul]
  exact m.le_ceil_mul.trans_lt (Nat.lt_add_of_pos_right unitsPerOne_pos)

theorem isShort_ceil : IsShort m.ceil := isShort_of_near m.ceil_mul_lt m.lt_ceil_succ_mul

theorem exists_ceil : ∃ w : Magnitude, w.units = m.ceil * unitsPerOne ∧
    Binary64.ceil (.finite false m) = .finite false w :=
  exists_round_whole false m.ceil_mul_lt m.lt_ceil_succ_mul

theorem ceil_mono {m n : Magnitude} (h : m.units ≤ n.units) : m.ceil ≤ n.ceil :=
  Nat.div_le_div_right (Nat.add_le_add_right h _)

end Magnitude

end DelayLine
