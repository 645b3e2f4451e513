import Mathlib.Data.Nat.Size
import Mathlib.Tactic.Ring
import DelayLine.Proofs.AmountTokens

/-!
# The fractions of amounts

Digits are read exactly, but digits with a fraction are first rounded to 53 bits. The rounded number
has the whole part that is written unless it reaches the next whole number or the whole part itself
has more than 53 bits (`saturate_roundUnits_eq_iff`).
-/

namespace DelayLine

open Numeral

namespace Numeral

variable {t : Text}

theorem value_lt (h : ∀ c ∈ t, c.isDigit = true) : value t < 10 ^ t.length := by
  induction t using List.reverseRecOn with
  | nil => simp [value]
  | append_singleton t c ih =>
    have hc := Char.isDigit_iff_toNat.1 (h c (by simp))
    have ih := ih fun d hd => h d (by simp [hd])
    simp only [value] at ih ⊢
    rw [Nat.ofDigitChars_append, List.length_append, Nat.pow_add]
    simp only [Nat.ofDigitChars_cons, Nat.ofDigitChars_nil, List.length_singleton, Nat.pow_one,
      Char.reduceToNat] at hc ⊢
    omega

theorem value_append (s t : Text) : value (s ++ t) = value s * 10 ^ t.length + value t := by
  rw [value, Nat.ofDigitChars_append, Nat.ofDigitChars_eq_ofDigitChars_zero, Nat.mul_comm]
  rfl

end Numeral

theorem nearest_mul_mul_right (n d : Nat) {k : Nat} (hk : 0 < k) :
    nearest (n * k) (d * k) = nearest n d := by
  have hlt : 2 * (n % d) * k < d * k ↔ 2 * (n % d) < d := Nat.mul_lt_mul_right hk
  have heq : 2 * (n % d) * k = d * k ↔ 2 * (n % d) = d := Nat.mul_left_inj (Nat.ne_of_gt hk)
  unfold nearest
  simp only [Nat.mul_div_mul_right n d hk, Nat.mul_mod_mul_right, ← Nat.mul_assoc, hlt, heq]

/-- Whether `n + f / m`, rounded to 53 bits and cut to the largest amount, has the whole part `n`.
Below `2 ^ 53` more than half of the step between the numbers below `n + 1` has to be left up to
`n + 1`, or just half of it if `n` is even. From there on `n` has to be a multiple of the step. -/
def KeepsWhole (n f m : Nat) : Prop :=
  if n < 2 ^ 53 then
    m < 2 ^ (54 - n.size) * (m - f) ∨ 2 ^ 52 ≤ n ∧ n % 2 = 0 ∧ 2 * f = m
  else 2 ^ (n.size - 53) ∣ n ∨ n = maxAmount.toNat

instance (n f m : Nat) : Decidable (KeepsWhole n f m) := inferInstanceAs (Decidable (ite ..))

theorem two_pow_size_le (n : Nat) : 2 ^ n.size ≤ 2 * n + 1 := by
  rcases h : n.size with _ | k
  · simp
  · have hk : 2 ^ k ≤ n := Nat.lt_size.1 (h ▸ Nat.lt_succ_self k)
    rw [pow_succ]
    omega

theorem mul_two_pow_mod_two {a e : Nat} : a * 2 ^ e % 2 = 1 ↔ e = 0 ∧ a % 2 = 1 := by
  cases e with
  | zero => simp
  | succ e =>
    rw [pow_succ, ← Nat.mul_assoc]
    omega

namespace Binary64

variable {n f m e : Nat}

theorem unitsPerOne_pos : 0 < unitsPerOne := by decide +kernel

theorem unitsPerOne_eq_mul (h : e ≤ 1074) : unitsPerOne = 2 ^ e * 2 ^ (1074 - e) := by
  rw [unitsPerOne_eq, ← pow_add, Nat.add_sub_cancel' h]

theorem le_roundUnits_div (hm : 0 < m) (hn : n ≤ 2 ^ 53) :
    n ≤ roundUnits ((n * m + f) * unitsPerOne) m / unitsPerOne := by
  rw [Nat.le_div_iff_mul_le unitsPerOne_pos, unitsPerOne_eq]
  refine le_roundUnits hm hn ?_
  rw [← Nat.mul_assoc, Nat.mul_comm m]
  exact Nat.mul_le_mul_right _ (Nat.le_add_right _ _)

/-- In units of `2 ^ (1074 - e)`, the step below `n + 1`, rounding is to a whole number. -/
theorem roundUnits_div_eq_iff_nearest (hm : 0 < m) (he : n.size + e = 53) :
    roundUnits ((n * m + f) * unitsPerOne) m / unitsPerOne = n ↔
      nearest ((n * m + f) * 2 ^ e) m < (n + 1) * 2 ^ e := by
  have hhigh : (n + 1) * 2 ^ e ≤ 2 ^ 53 := by
    rw [← he, pow_add]
    exact Nat.mul_le_mul_right _ (Nat.lt_size_self n)
  have hlow : 2 ^ 52 < (n + 1) * 2 ^ e := by
    have hsize := Nat.mul_le_mul_right (2 ^ e) (two_pow_size_le n)
    have hpos := Nat.two_pow_pos e
    rw [← pow_add, he, Nat.add_mul, Nat.mul_assoc] at hsize
    rw [Nat.add_mul]
    omega
  have hle := le_roundUnits_div (f := f) hm (Nat.size_le.1 (by omega) : n < 2 ^ 53).le
  rw [Nat.le_antisymm_iff, and_iff_left hle, ← Nat.lt_succ_iff,
    Nat.div_lt_iff_lt_mul unitsPerOne_pos, unitsPerOne_eq_mul (e := e) (by omega), ← Nat.mul_assoc,
    ← Nat.mul_assoc, roundUnits_lt_iff hm hhigh (.inr hlow),
    nearest_mul_mul_right _ _ (Nat.two_pow_pos _)]

theorem nearest_lt_iff_keepsWhole (hf : f < m) (he : n.size + e = 53) :
    nearest ((n * m + f) * 2 ^ e) m < (n + 1) * 2 ^ e ↔ KeepsWhole n f m := by
  have hn : n < 2 ^ 53 := Nat.size_le.1 (by omega)
  have hsplit : m * ((n + 1) * 2 ^ e) = (n * m + f) * 2 ^ e + 2 ^ e * (m - f) := by
    obtain ⟨g, rfl⟩ := Nat.exists_eq_add_of_le hf.le
    rw [Nat.add_sub_cancel_left]
    ring
  have hfull : e = 0 ↔ 2 ^ 52 ≤ n := by
    rw [← Nat.lt_size]
    omega
  have hexp : 54 - n.size = e + 1 := by omega
  rw [nearest_lt_iff (Nat.zero_lt_of_lt hf), hsplit, mul_two_pow_mod_two, hfull, KeepsWhole,
    if_pos hn, hexp, pow_succ' 2 e, Nat.mul_assoc 2]
  constructor
  · rintro (h | ⟨h, hn', hodd⟩)
    · exact .inl (by omega)
    · rw [hfull.2 hn', pow_zero, Nat.one_mul] at h
      exact .inr ⟨hn', by omega, by omega⟩
  · rintro (h | ⟨hn', heven, h⟩)
    · exact .inl (by omega)
    · rw [hfull.2 hn', pow_zero, Nat.one_mul]
      exact .inr ⟨by omega, hn', by omega⟩

theorem roundUnits_div_eq_iff (hf : f < m) (hn : n < 2 ^ 53) :
    roundUnits ((n * m + f) * unitsPerOne) m / unitsPerOne = n ↔ KeepsWhole n f m := by
  obtain ⟨e, he⟩ := Nat.exists_eq_add_of_le (Nat.size_le.2 hn)
  exact (roundUnits_div_eq_iff_nearest (Nat.zero_lt_of_lt hf) he.symm).trans
    (nearest_lt_iff_keepsWhole hf he.symm)

theorem lowBits_eq {k : Nat} (hle : 2 ^ (k + 52) ≤ n) (hlt : n < 2 ^ (k + 53)) : lowBits n = k := by
  have hn : n ≠ 0 := Nat.ne_of_gt ((Nat.two_pow_pos _).trans_le hle)
  rw [lowBits, (Nat.log2_eq_iff hn).2 ⟨hle, hlt⟩, Nat.add_sub_cancel]

theorem roundUnits_div_eq (hf : f < m) (he : n.size = e + 53) :
    roundUnits ((n * m + f) * unitsPerOne) m / unitsPerOne =
      nearest (n * m + f) (m * 2 ^ e) * 2 ^ e := by
  have hm : 0 < m := Nat.zero_lt_of_lt hf
  have hn : 2 ^ (e + 52) ≤ n := Nat.lt_size.1 (by omega)
  have hn' : n + 1 ≤ 2 ^ (e + 53) := Nat.size_le.1 he.le
  have hpow (k : Nat) : 2 ^ (e + 1074 + k) = 2 ^ (e + k) * unitsPerOne := by
    rw [unitsPerOne_eq, ← pow_add, Nat.add_right_comm]
  have hlow : lowBits ((n * m + f) * unitsPerOne / m) = e + 1074 := by
    refine lowBits_eq ?_ ?_
    · rw [Nat.le_div_iff_mul_le hm, hpow, Nat.mul_right_comm]
      exact Nat.mul_le_mul_right _ (Nat.le_add_right_of_le (Nat.mul_le_mul_right m hn))
    · rw [Nat.div_lt_iff_lt_mul hm, hpow, Nat.mul_right_comm]
      refine Nat.mul_lt_mul_of_pos_right ?_ unitsPerOne_pos
      calc n * m + f
          < (n + 1) * m := by
            rw [Nat.succ_mul]
            exact Nat.add_lt_add_left hf _
        _ ≤ 2 ^ (e + 53) * m := Nat.mul_le_mul_right m hn'
  rw [roundUnits_eq, hlow, pow_add, ← unitsPerOne_eq, ← Nat.mul_assoc, ← Nat.mul_assoc,
    nearest_mul_mul_right _ _ unitsPerOne_pos, Nat.mul_div_cancel _ unitsPerOne_pos]

theorem nearest_mul_two_pow_eq_iff (hf : f < m) (he : 0 < e) :
    nearest (n * m + f) (m * 2 ^ e) * 2 ^ e = n ↔ 2 ^ e ∣ n := by
  refine ⟨fun h => h ▸ Nat.dvd_mul_left .., ?_⟩
  rintro ⟨q, rfl⟩
  have hm : 0 < m := Nat.zero_lt_of_lt hf
  have hpos : 0 < m * 2 ^ e := Nat.mul_pos hm (Nat.two_pow_pos e)
  -- The fraction is less than half of `2 ^ e`.
  have hhalf : 2 * f < m * 2 ^ e :=
    calc 2 * f
        < m * 2 := by omega
      _ ≤ m * 2 ^ e := Nat.mul_le_mul_left m (Nat.le_self_pow (Nat.ne_of_gt he) 2)
  have hq : 2 ^ e * q * m = m * 2 ^ e * q := by ring
  have hround : nearest (2 ^ e * q * m + f) (m * 2 ^ e) = q := by
    refine Nat.le_antisymm (Nat.le_of_lt_succ ?_) (le_nearest_of_le hpos ?_)
    · rw [nearest_lt_iff hpos, Nat.mul_succ, hq]
      omega
    · rw [hq]
      exact Nat.le_add_right _ _
  rw [hround, Nat.mul_comm]

/-- The largest amount is rounded up. -/
theorem maxAmount_le_nearest (hm : 0 < m) (he : maxAmount.toNat.size = e + 53) :
    maxAmount.toNat ≤ nearest (maxAmount.toNat * m + f) (m * 2 ^ e) * 2 ^ e := by
  have hsize : maxAmount.toNat.size = 64 := by decide +kernel
  obtain rfl : e = 11 := by omega
  have hround : 2 ^ 53 ≤ nearest (maxAmount.toNat * m + f) (m * 2 ^ 11) := by
    rw [← Nat.not_lt, nearest_lt_iff (by omega), toNat_maxAmount]
    omega
  rw [toNat_maxAmount] at hround ⊢
  omega

theorem saturate_roundUnits_eq_iff {n : UInt64} (hf : f < m) :
    saturate (roundUnits ((n.toNat * m + f) * unitsPerOne) m / unitsPerOne) = n ↔
      KeepsWhole n.toNat f m := by
  have hmax := toNat_le_maxAmount n
  rw [← UInt64.toNat_inj, toNat_saturate]
  rcases Nat.lt_or_ge n.toNat (2 ^ 53) with hn | hn
  · rw [← roundUnits_div_eq_iff hf hn, toNat_maxAmount]
    omega
  · obtain ⟨e, he⟩ := Nat.exists_eq_add_of_le (Nat.lt_size.2 hn)
    have he : n.toNat.size = e + 1 + 53 := by omega
    rw [KeepsWhole, if_neg (Nat.not_lt.2 hn), he, Nat.add_sub_cancel, roundUnits_div_eq hf he,
      ← nearest_mul_two_pow_eq_iff hf (Nat.add_one_pos e)]
    have hlargest : n.toNat = maxAmount.toNat → maxAmount.toNat ≤
        nearest (n.toNat * m + f) (m * 2 ^ (e + 1)) * 2 ^ (e + 1) := by
      intro h
      rw [h] at he ⊢
      exact maxAmount_le_nearest (Nat.zero_lt_of_lt hf) he
    omega

example : ¬KeepsWhole 0 99999999999999999 (10 ^ 17) := by decide +kernel

end Binary64

namespace Decimal.Spelling

/-- Digits on both sides of a point. -/
def ofFraction (whole fraction : Text) (hw : IsDigits whole) (hf : IsDigits fraction) :
    Spelling where
  sign := .absent
  whole := whole
  fraction := some fraction
  exponent := none
  isDigits :=
    { ne_nil := by simp [hw.ne_nil]
      isDigit := fun c hc => (List.mem_append.1 hc).elim (hw.isDigit c) (hf.isDigit c) }

variable {whole fraction : Text} (hw : IsDigits whole) (hf : IsDigits fraction)

theorem text_ofFraction : (ofFraction whole fraction hw hf).text = whole ++ '.' :: fraction := by
  simp [ofFraction, text, unsignedText, mantissa, Sign.text]

theorem decimal_ofFraction : (ofFraction whole fraction hw hf).decimal =
    ⟨value whole * 10 ^ fraction.length + value fraction, -fraction.length⟩ := by
  simp [ofFraction, decimal, value_append]

end Decimal.Spelling

section Tokens

variable {whole fraction : Text}

theorem Decimal.toRat_lt_overflow {n f k : Nat} (hn : n < UInt64.size) (hf : f < 10 ^ k) :
    toRat ⟨n * 10 ^ k + f, -k⟩ < Binary64.overflow := by
  have hbound : n + 1 ≤ Binary64.overflow := (Nat.succ_le_of_lt hn).trans (by decide +kernel)
  rw [toRat_lt_iff]
  simp only [neg_neg, Int.toNat_natCast, Int.toNat_neg_natCast, pow_zero, Nat.mul_one]
  calc n * 10 ^ k + f
      < (n + 1) * 10 ^ k := by
        rw [Nat.succ_mul]
        exact Nat.add_lt_add_left hf _
    _ ≤ Binary64.overflow * 10 ^ k := Nat.mul_le_mul_right _ hbound
    _ = 10 ^ k * Binary64.overflow := Nat.mul_comm ..

theorem Binary64.toAmount_ofDecimal {n k : Nat}
    (h : (ofDecimal false ⟨n, -k⟩).isFiniteNonneg = true) :
    (ofDecimal false ⟨n, -k⟩).toAmount =
      saturate (roundUnits (n * unitsPerOne) (10 ^ k) / unitsPerOne) := by
  rw [ofDecimal_eq_round] at h ⊢
  rw [round, dif_pos (isFiniteNonneg_round_false.1 h), toAmount, if_neg Bool.false_ne_true]
  simp

theorem Binary64.parse?_point (hw : IsDigits whole) (hf : IsDigits fraction) :
    parse? (whole ++ '.' :: fraction) = some (ofDecimal false
      ⟨value whole * 10 ^ fraction.length + value fraction, -fraction.length⟩) := by
  rw [← Decimal.Spelling.text_ofFraction hw hf, Decimal.Spelling.parse?_text,
    Decimal.Spelling.decimal_ofFraction]
  rfl

theorem word?_eq_some {n : UInt64} (h : digits? whole = some n.toNat) : word? whole = some n := by
  rw [word?, unsigned?_eq_some_iff.2 (.inl h), Option.bind_some, if_pos n.toNat_lt,
    UInt64.ofNat_toNat]

theorem word?_eq_none_of_mem {t : Text} (h : '.' ∈ t) : word? t = none := by
  rw [word?, Option.bind_eq_none_iff]
  intro n hn
  obtain ⟨sign, ds, rfl, -, hds, -⟩ := Sign.exists_of_unsigned? hn
  rcases List.mem_append.1 h with h | h
  · cases sign <;> simp [Sign.text] at h
  · exact absurd h (hds.not_mem rfl)

theorem amount?_point (hw : IsDigits whole) (hf : IsDigits fraction)
    (hn : value whole < UInt64.size) : amount? (whole ++ '.' :: fraction) =
      some (saturate (Binary64.roundUnits ((value whole * 10 ^ fraction.length + value fraction) *
        Binary64.unitsPerOne) (10 ^ fraction.length) / Binary64.unitsPerOne)) := by
  have hfinite := Binary64.isFiniteNonneg_ofDecimal_false.2
    (Decimal.toRat_lt_overflow hn (value_lt hf.isDigit))
  have hnonneg := congrArg (Option.filter Binary64.isFiniteNonneg) (Binary64.parse?_point hw hf)
  rw [Option.filter_some_pos hfinite] at hnonneg
  rw [amount?, word?_eq_none_of_mem (by simp), nonneg?, hnonneg, Option.map_some,
    Binary64.toAmount_ofDecimal hfinite]
  rfl

end Tokens

namespace DelayRule

/-- Tokens that read as the same amount. -/
def SameAmount (t t' : Text) : Prop := ∀ column, readAmount column t = readAmount column t'

variable {p a o : Text} {amounts amounts' : List Text}

theorem ofTokens_congr (h : amounts.Forall₂ SameAmount amounts') :
    ofTokens (p :: a :: o :: amounts) = ofTokens (p :: a :: o :: amounts') := by
  by_cases hcount : (p :: a :: o :: amounts).length ∈ [5, 7, 9]
  · rcases exists_eq_of_length hcount with ⟨_, _, _, f, b, heq⟩ | ⟨_, _, _, f, b, t, x, heq⟩ |
      ⟨_, _, _, f, b, t, x, t', x', heq⟩
    all_goals
      cases heq
      simp only [List.forall₂_cons_left_iff, List.forall₂_nil_left_iff] at h
    · obtain ⟨_, _, hf, ⟨_, _, hb, rfl, rfl⟩, rfl⟩ := h
      simp only [ofTokens, readConstant, hf _, hb _]
    · obtain ⟨_, _, hf, ⟨_, _, hb, ⟨_, _, ht, ⟨_, _, hx, rfl, rfl⟩, rfl⟩, rfl⟩, rfl⟩ := h
      simp only [ofTokens, readConstant, readForwardSwitch, hf _, hb _, ht _, hx _]
    · obtain ⟨_, _, hf, ⟨_, _, hb, ⟨_, _, ht, ⟨_, _, hx, ⟨_, _, ht', ⟨_, _, hx', rfl, rfl⟩, rfl⟩,
        rfl⟩, rfl⟩, rfl⟩, rfl⟩ := h
      simp only [ofTokens, readConstant, readForwardSwitch, readReverseSwitch, hf _, hb _, ht _,
        hx _, ht' _, hx' _]
  · have hlength : (p :: a :: o :: amounts).length = (p :: a :: o :: amounts').length := by
      simp [h.length_eq]
    rw [ofTokens_of_length_not_mem hcount, hlength,
      ofTokens_of_length_not_mem (hlength ▸ hcount)]

theorem ofTokens_append_cons_congr {t t' : Text} (h : SameAmount t t') {before : List Text}
    (hbefore : 3 ≤ before.length) (after : List Text) :
    ofTokens (before ++ t :: after) = ofTokens (before ++ t' :: after) := by
  have hsame (ts : List Text) : ts.Forall₂ SameAmount ts := List.forall₂_same.2 fun _ _ _ => rfl
  match before, hbefore with
  | p :: a :: o :: rest, _ =>
    exact ofTokens_congr (List.rel_append (hsame rest) (.cons h (hsame after)))

/-- Digits with a fraction are read in every column of amounts. They are read as the digits alone
are, in a column and in a line, just if rounding keeps the whole part. -/
theorem fraction_dropped_iff {whole fraction : Text} {n : UInt64} {f : Nat}
    (hw : digits? whole = some n.toNat) (hf : digits? fraction = some f) :
    let token := whole ++ '.' :: fraction
    ∃ m, (∀ column, readAmount column whole = .ok n ∧ readAmount column token = .ok m) ∧
      (m = n ↔ KeepsWhole n.toNat f (10 ^ fraction.length)) ∧
      (m = n → ∀ before after : List Text, 3 ≤ before.length →
        ofTokens (before ++ token :: after) = ofTokens (before ++ whole :: after)) := by
  intro token
  obtain ⟨hwhole, hn⟩ := digits?_eq_some_iff.1 hw
  obtain ⟨hfraction, rfl⟩ := digits?_eq_some_iff.1 hf
  have htoken := amount?_point hwhole hfraction (hn ▸ n.toNat_lt)
  rw [hn] at htoken
  have hread : amount? whole = some n := by
    rw [amount?, word?_eq_some hw]
    rfl
  refine ⟨_, fun column => ⟨readAmount_eq_ok_iff.2 hread, readAmount_eq_ok_iff.2 htoken⟩,
    Binary64.saturate_roundUnits_eq_iff (value_lt hfraction.isDigit), ?_⟩
  intro hm before after hbefore
  rw [hm] at htoken
  refine ofTokens_append_cons_congr (fun column => ?_) hbefore after
  rw [readAmount_eq_ok_iff.2 htoken, readAmount_eq_ok_iff.2 hread]

theorem fraction_dropped_iff_of_nine_tenths :
    ∃ m, (∀ column, readAmount column "12".toList = .ok 12 ∧
        readAmount column "12.9".toList = .ok m) ∧ (m = 12 ↔ KeepsWhole 12 9 10) ∧
      (m = 12 → ∀ before after : List Text, 3 ≤ before.length →
        ofTokens (before ++ "12.9".toList :: after) = ofTokens (before ++ "12".toList :: after)) :=
  fraction_dropped_iff (n := 12) (by decide +kernel) (by decide +kernel)

theorem fraction_rounded :
    ofLine "6 1.2.3.4 80 9007199254740993 0".toList =
      .ok (.constant ⟨6, ⟨1, 2, 3, 4⟩, 80⟩ 9007199254740993 0, none) ∧
    ofLine "6 1.2.3.4 80 9007199254740993.0 0".toList =
      .ok (.constant ⟨6, ⟨1, 2, 3, 4⟩, 80⟩ 9007199254740992 0, none) := by
  decide +kernel

end DelayRule

end DelayLine
