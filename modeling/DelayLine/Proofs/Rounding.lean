import Mathlib.Algebra.Order.Ring.Nat
import DelayLine.Amount

/-!
# Where rounding crosses a bound

Below a number `c * 2 ^ j` that has 53 leading bits the representable numbers are `2 ^ j` apart, so
whether rounding stays below it is decided among the multiples of `2 ^ j` (`roundUnits_lt_iff`).
With the largest number and the smallest one as the bound this says when a decimal becomes infinite
and when it becomes zero, and that both are found before the powers of ten are computed whenever
rounding would give them (`ofDecimal_eq_round`).
-/

namespace DelayLine

section Nearest

variable {n d m : Nat}

theorem nearest_lt_iff (hd : 0 < d) :
    nearest n d < m ↔ 2 * n + d < 2 * (d * m) ∨ 2 * n + d = 2 * (d * m) ∧ m % 2 = 1 := by
  have hn := Nat.div_add_mod n d
  have hr := Nat.mod_lt n hd
  unfold nearest
  -- The quotient and the next number are the candidates, so `m` is compared with both.
  rcases Nat.lt_trichotomy m (n / d + 1) with hlt | rfl | hgt
  · have hle : d * m ≤ d * (n / d) := Nat.mul_le_mul_left d (Nat.le_of_lt_succ hlt)
    split <;> omega
  · rw [Nat.mul_succ]
    split <;> omega
  · have hle : d * (n / d + 2) ≤ d * m := Nat.mul_le_mul_left d hgt
    rw [Nat.mul_add] at hle
    split <;> omega

theorem nearest_le_of_le (hd : 0 < d) (h : n ≤ d * m) : nearest n d ≤ m := by
  rw [← Nat.lt_succ_iff, nearest_lt_iff hd, Nat.mul_succ]
  omega

theorem le_nearest_of_le (hd : 0 < d) (h : d * m ≤ n) : m ≤ nearest n d := by
  rw [← Nat.not_lt, nearest_lt_iff hd]
  omega

end Nearest

namespace Binary64

theorem one_shiftLeft (k : Nat) : 1 <<< k = 2 ^ k := Nat.one_shiftLeft k

theorem unitsPerOne_eq : unitsPerOne = 2 ^ 1074 := by rw [unitsPerOne, one_shiftLeft]

theorem unitsLimit_eq : unitsLimit = 2 ^ 53 * 2 ^ (2044 + 1) := by
  rw [unitsLimit, one_shiftLeft, show unitsWidth = 53 + (2044 + 1) from rfl, pow_add]

section Units

variable {n d c j : Nat}

theorem roundUnits_eq (n d : Nat) :
    roundUnits n d = nearest n (d * 2 ^ lowBits (n / d)) * 2 ^ lowBits (n / d) := by
  simp only [roundUnits, Nat.shiftLeft_eq]

theorem lt_mul_lowBits (n : Nat) (hd : 0 < d) : n < d * 2 ^ lowBits (n / d) * 2 ^ 53 := by
  rw [Nat.mul_assoc, ← Nat.pow_add, Nat.mul_comm, ← Nat.div_lt_iff_lt_mul hd]
  refine Nat.lt_of_lt_of_le Nat.lt_log2_self (Nat.pow_le_pow_right (by decide) ?_)
  unfold lowBits
  omega

theorem mul_lowBits_le (h : lowBits (n / d) ≠ 0) : d * 2 ^ lowBits (n / d) * 2 ^ 52 ≤ n := by
  have hlog : lowBits (n / d) + 52 = (n / d).log2 := by
    unfold lowBits at h ⊢
    omega
  have hpos : n / d ≠ 0 := by
    intro h0
    rw [h0] at h
    exact h rfl
  calc d * 2 ^ lowBits (n / d) * 2 ^ 52
      = d * 2 ^ (n / d).log2 := by rw [Nat.mul_assoc, ← Nat.pow_add, hlog]
    _ ≤ d * (n / d) := Nat.mul_le_mul_left d (Nat.log2_self_le hpos)
    _ ≤ n := Nat.mul_div_le n d

theorem mul_two_pow_add (c s i : Nat) : c * 2 ^ (s + i) = c * 2 ^ i * 2 ^ s := by
  rw [Nat.add_comm, Nat.pow_add, Nat.mul_assoc]

theorem mul_two_pow_mul (d s c : Nat) : d * 2 ^ s * c = d * (c * 2 ^ s) := by
  rw [Nat.mul_assoc, Nat.mul_comm (2 ^ s)]

theorem mul_two_pow_le {s : Nat} (hc : c ≤ 2 ^ 53) (h : j < s) : c * 2 ^ j ≤ 2 ^ 52 * 2 ^ s :=
  calc c * 2 ^ j
      ≤ 2 ^ 53 * 2 ^ j := Nat.mul_le_mul_right _ hc
    _ ≤ 2 ^ 52 * 2 ^ s := by
      rw [← Nat.pow_add, ← Nat.pow_add]
      exact Nat.pow_le_pow_right (by decide) (by omega)

/-- A number with at most 53 leading bits that `n / d` reaches is reached by rounding. -/
theorem le_roundUnits (hd : 0 < d) (hc : c ≤ 2 ^ 53) (h : d * (c * 2 ^ j) ≤ n) :
    c * 2 ^ j ≤ roundUnits n d := by
  have hle := mul_lowBits_le (n := n) (d := d)
  rw [roundUnits_eq]
  generalize lowBits (n / d) = s at hle ⊢
  have hpos : 0 < d * 2 ^ s := Nat.mul_pos hd (Nat.two_pow_pos s)
  rcases Nat.lt_or_ge j s with hjs | hsj
  · -- Rounding leaves 53 bits, of which the first is set.
    exact (mul_two_pow_le hc hjs).trans
      (Nat.mul_le_mul_right _ (le_nearest_of_le hpos (hle (by omega))))
  · obtain ⟨i, rfl⟩ := Nat.exists_eq_add_of_le hsj
    rw [mul_two_pow_add] at h ⊢
    refine Nat.mul_le_mul_right _ (le_nearest_of_le hpos ?_)
    rwa [mul_two_pow_mul]

/-- A number with at most 53 leading bits that `n / d` does not exceed is not exceeded by
rounding. -/
theorem roundUnits_le (hd : 0 < d) (hc : c ≤ 2 ^ 53) (h : n ≤ d * (c * 2 ^ j)) :
    roundUnits n d ≤ c * 2 ^ j := by
  have hle := mul_lowBits_le (n := n) (d := d)
  rw [roundUnits_eq]
  generalize lowBits (n / d) = s at hle ⊢
  have hpos : 0 < d * 2 ^ s := Nat.mul_pos hd (Nat.two_pow_pos s)
  rcases Nat.lt_or_ge j s with hjs | hsj
  · -- Then `n / d` is the first number with so many bits, and the bound is the same number.
    have hle := hle (by omega)
    rw [mul_two_pow_mul] at hle
    have hbound : 2 ^ 52 * 2 ^ s ≤ c * 2 ^ j := Nat.le_of_mul_le_mul_left (hle.trans h) hd
    refine Nat.le_trans (Nat.mul_le_mul_right _ (nearest_le_of_le hpos ?_)) hbound
    calc n
        ≤ d * (c * 2 ^ j) := h
      _ ≤ d * (2 ^ 52 * 2 ^ s) := Nat.mul_le_mul_left d (mul_two_pow_le hc hjs)
      _ = d * 2 ^ s * 2 ^ 52 := (mul_two_pow_mul ..).symm
  · obtain ⟨i, rfl⟩ := Nat.exists_eq_add_of_le hsj
    rw [mul_two_pow_add] at h ⊢
    refine Nat.mul_le_mul_right _ (nearest_le_of_le hpos ?_)
    rwa [mul_two_pow_mul]

theorem roundUnits_lt_iff (hd : 0 < d) (hc : c ≤ 2 ^ 53) (hj : j = 0 ∨ 2 ^ 52 < c) :
    roundUnits n d < c * 2 ^ j ↔ nearest n (d * 2 ^ j) < c := by
  have hpos : 0 < d * 2 ^ j := Nat.mul_pos hd (Nat.two_pow_pos j)
  rcases Nat.lt_trichotomy (lowBits (n / d)) j with hlt | heq | hgt
  · -- `n / d` has fewer bits than the bound.
    have hc' : 2 ^ 52 < c := hj.resolve_left (by omega)
    have hn : n ≤ d * (2 ^ 52 * 2 ^ j) := by
      refine (lt_mul_lowBits n hd).le.trans ?_
      rw [mul_two_pow_mul]
      exact Nat.mul_le_mul_left d (mul_two_pow_le (Nat.le_refl _) hlt)
    refine iff_of_true ?_ ?_
    · exact Nat.lt_of_le_of_lt (roundUnits_le hd (by decide) hn)
        (Nat.mul_lt_mul_of_pos_right hc' (Nat.two_pow_pos j))
    · exact Nat.lt_of_le_of_lt (nearest_le_of_le hpos (by rwa [mul_two_pow_mul])) hc'
  · rw [roundUnits_eq, heq]
    exact Nat.mul_lt_mul_right (Nat.two_pow_pos j)
  · -- `n / d` has more bits than the bound.
    have hn : d * (c * 2 ^ j) ≤ n := by
      have hle := mul_lowBits_le (n := n) (d := d) (by omega)
      rw [mul_two_pow_mul] at hle
      exact (Nat.mul_le_mul_left d (mul_two_pow_le hc hgt)).trans hle
    exact iff_of_false (Nat.not_lt.2 (le_roundUnits hd hc hn))
      (Nat.not_lt.2 (le_nearest_of_le hpos (by rwa [mul_two_pow_mul])))

theorem roundUnits_eq_zero_iff (hd : 0 < d) : roundUnits n d = 0 ↔ 2 * n ≤ d := by
  have h := roundUnits_lt_iff (n := n) (c := 1) (j := 0) hd (by decide) (.inl rfl)
  rw [nearest_lt_iff (by simpa using hd)] at h
  simp only [Nat.pow_zero, Nat.mul_one, Nat.lt_one_iff, and_true] at h
  rw [h]
  omega

theorem roundUnits_lt_two_pow_iff (hd : 0 < d) (k : Nat) :
    roundUnits n d < 2 ^ 53 * 2 ^ (k + 1) ↔ n < d * ((2 ^ 54 - 1) * 2 ^ k) := by
  have hd' : 0 < d * 2 ^ (k + 1) := Nat.mul_pos hd (Nat.two_pow_pos _)
  have hscale : d * 2 ^ (k + 1) = 2 * (d * 2 ^ k) := by
    rw [Nat.pow_succ', Nat.mul_left_comm]
  have hbound : d * ((2 ^ 54 - 1) * 2 ^ k) = (2 ^ 54 - 1) * (d * 2 ^ k) := Nat.mul_left_comm ..
  rw [roundUnits_lt_iff hd (Nat.le_refl _) (.inr (by decide)), nearest_lt_iff hd', hscale, hbound]
  omega

end Units

theorem round_of_roundUnits_eq_zero (negative : Bool) {n d : Nat} (h : roundUnits n d = 0) :
    round negative n d = finite negative .zero := by
  have hlt : roundUnits n d < unitsLimit := h ▸ Magnitude.zero.representable.1
  rw [round, dif_pos hlt]
  exact congrArg (finite negative) (Magnitude.ext h)

theorem round_of_unitsLimit_le (negative : Bool) {n d : Nat} (h : unitsLimit ≤ roundUnits n d) :
    round negative n d = infinite negative :=
  dif_neg (Nat.not_lt.2 h)

theorem unitsLimit_le_of_exponent {m k : Nat} (hm : m ≠ 0) (hk : 309 ≤ k) :
    unitsLimit ≤ roundUnits (m * 10 ^ k * unitsPerOne) 1 := by
  have hten : 2 ^ 1024 ≤ m * 10 ^ k :=
    calc 2 ^ 1024 ≤ 10 ^ 309 := by decide +kernel
      _ ≤ 10 ^ k := Nat.pow_le_pow_right (by decide) hk
      _ ≤ m * 10 ^ k := Nat.le_mul_of_pos_left _ (Nat.pos_of_ne_zero hm)
  rw [unitsLimit_eq, ← Nat.not_lt, roundUnits_lt_two_pow_iff Nat.one_pos, Nat.one_mul, Nat.not_lt]
  calc (2 ^ 54 - 1) * 2 ^ 2044
      ≤ 2 ^ 54 * 2 ^ 2044 := Nat.mul_le_mul_right _ (Nat.sub_le ..)
    _ = 2 ^ 1024 * unitsPerOne := by rw [unitsPerOne_eq, ← pow_add, ← pow_add]
    _ ≤ m * 10 ^ k * unitsPerOne := Nat.mul_le_mul_right _ hten

theorem roundUnits_eq_zero_of_log2 {m k : Nat} (h : m.log2 + 1076 ≤ 3 * k) :
    roundUnits (m * unitsPerOne) (10 ^ k) = 0 := by
  rw [roundUnits_eq_zero_iff (Nat.pow_pos (by decide)), unitsPerOne_eq]
  calc 2 * (m * 2 ^ 1074)
      = m * 2 ^ 1075 := by rw [Nat.mul_left_comm, ← pow_succ']
    _ ≤ 2 ^ (m.log2 + 1) * 2 ^ 1075 := Nat.mul_le_mul_right _ Nat.lt_log2_self.le
    _ = 2 ^ (m.log2 + 1076) := by rw [← pow_add, Nat.add_right_comm, Nat.add_assoc]
    _ ≤ 2 ^ (3 * k) := Nat.pow_le_pow_right (by decide) h
    _ = 8 ^ k := by rw [pow_mul]; rfl
    _ ≤ 10 ^ k := Nat.pow_le_pow_left (by decide) k

theorem ofDecimal_eq_round (negative : Bool) (d : Decimal) :
    ofDecimal negative d = round negative (d.significand * 10 ^ d.exponent.toNat * unitsPerOne)
      (10 ^ (-d.exponent).toNat) := by
  unfold ofDecimal
  split
  · next h =>
    rw [h, Nat.zero_mul, Nat.zero_mul, round_of_roundUnits_eq_zero]
    exact (roundUnits_eq_zero_iff (Nat.pow_pos (by decide))).2 (Nat.zero_le _)
  split
  · next h hlarge =>
    have hden : (-d.exponent).toNat = 0 := by omega
    rw [hden, pow_zero, round_of_unitsLimit_le]
    exact unitsLimit_le_of_exponent h (by omega)
  split
  · next hsmall =>
    have hnum : d.exponent.toNat = 0 := by omega
    rw [hnum, pow_zero, Nat.mul_one, round_of_roundUnits_eq_zero]
    exact roundUnits_eq_zero_of_log2 (by omega)
  · rfl

end Binary64

end DelayLine
