import Mathlib.Algebra.Order.Field.Rat
import Mathlib.Tactic.Positivity
import DelayLine.Proofs.Columns
import DelayLine.Proofs.Rounding
import DelayLine.Proofs.Spelling

/-!
# The tokens of amounts

A plain decimal is one of the spellings of an amount. Signs, exponents and a point without digits on
one side of it are read as well, as long as the number is below the one that would be rounded to
infinity and, behind a minus sign, small enough to be rounded to zero
(`exists_nonneg?_iff`). These are the tokens that are neither plain nor refused.
-/

namespace DelayLine

open Numeral

namespace Decimal

/-- The number that a decimal is. -/
def toRat (d : Decimal) : ℚ := d.significand * 10 ^ d.exponent

variable (d : Decimal)

theorem toRat_eq_div : d.toRat =
    (d.significand * 10 ^ d.exponent.toNat : Nat) / (10 ^ (-d.exponent).toNat : Nat) := by
  unfold toRat
  rcases Int.eq_nat_or_neg d.exponent with ⟨k, h | h⟩
  · simp [h]
  · simp [h, div_eq_mul_inv]

theorem toRat_lt_iff {a : Nat} : d.toRat < a ↔
    d.significand * 10 ^ d.exponent.toNat < 10 ^ (-d.exponent).toNat * a := by
  have hpos : (0 : ℚ) < (10 ^ (-d.exponent).toNat : Nat) := by positivity
  rw [toRat_eq_div, div_lt_iff₀' hpos]
  exact_mod_cast Iff.rfl

theorem toRat_mul_le_one_iff {a : Nat} : d.toRat * a ≤ 1 ↔
    d.significand * 10 ^ d.exponent.toNat * a ≤ 10 ^ (-d.exponent).toNat := by
  have hpos : (0 : ℚ) < (10 ^ (-d.exponent).toNat : Nat) := by positivity
  rw [toRat_eq_div, div_mul_eq_mul_div, div_le_one hpos]
  exact_mod_cast Iff.rfl

end Decimal

namespace Binary64

/-- Halfway between the largest finite number and the next power of two. -/
def overflow : Nat := (2 ^ 54 - 1) * 2 ^ 970

theorem isFiniteNonneg_round_false {n d : Nat} :
    isFiniteNonneg (round false n d) = true ↔ roundUnits n d < unitsLimit := by
  unfold round
  split
  · next h => exact iff_of_true rfl h
  · next h => exact iff_of_false Bool.false_ne_true h

theorem isFiniteNonneg_round_true {n d : Nat} :
    isFiniteNonneg (round true n d) = true ↔ roundUnits n d = 0 := by
  unfold round
  split
  · simp [isFiniteNonneg]
  · next h =>
    exact iff_of_false Bool.false_ne_true fun h0 => h (h0 ▸ Magnitude.zero.representable.1)

variable {d : Decimal}

theorem isFiniteNonneg_ofDecimal_false :
    isFiniteNonneg (ofDecimal false d) = true ↔ d.toRat < overflow := by
  have hden : 0 < 10 ^ (-d.exponent).toNat := Nat.pow_pos (by decide)
  have hpow : 10 ^ (-d.exponent).toNat * ((2 ^ 54 - 1) * 2 ^ 2044) =
      10 ^ (-d.exponent).toNat * overflow * 2 ^ 1074 := by
    rw [overflow, Nat.mul_assoc, Nat.mul_assoc, ← pow_add]
  rw [ofDecimal_eq_round, isFiniteNonneg_round_false, unitsLimit_eq,
    roundUnits_lt_two_pow_iff hden, hpow, unitsPerOne_eq,
    Nat.mul_lt_mul_right (Nat.two_pow_pos 1074), d.toRat_lt_iff]

theorem isFiniteNonneg_ofDecimal_true :
    isFiniteNonneg (ofDecimal true d) = true ↔ d.toRat * (2 ^ 1075 : Nat) ≤ 1 := by
  have hden : 0 < 10 ^ (-d.exponent).toNat := Nat.pow_pos (by decide)
  rw [ofDecimal_eq_round, isFiniteNonneg_round_true, roundUnits_eq_zero_iff hden, unitsPerOne_eq,
    d.toRat_mul_le_one_iff, Nat.mul_left_comm, ← pow_succ']

end Binary64

namespace Decimal.Spelling

/-- A numeral that has no point and no exponent. -/
def ofDigits (sign : Sign) (ds : Text) (h : IsDigits ds) : Spelling :=
  ⟨sign, ds, none, none, by simpa using h⟩

section OfDigits

variable (sign : Sign) (ds : Text) (h : IsDigits ds)

theorem text_ofDigits : (ofDigits sign ds h).text = sign.text ++ ds := by
  simp [ofDigits, text, unsignedText, mantissa]

theorem decimal_ofDigits : (ofDigits sign ds h).decimal = ⟨value ds, 0⟩ := by
  simp [ofDigits, decimal]

end OfDigits

/-- The number that is spelled is not rounded to infinity and, behind a minus sign, it is rounded to
zero. -/
def InRange (s : Spelling) : Prop :=
  if s.sign = .minus then s.decimal.toRat * (2 ^ 1075 : Nat) ≤ 1
  else s.decimal.toRat < Binary64.overflow

theorem isFiniteNonneg_iff (s : Spelling) :
    (Binary64.ofDecimal (s.sign = .minus) s.decimal).isFiniteNonneg = true ↔ s.InRange := by
  unfold InRange
  split
  · next h => rw [decide_eq_true h, Binary64.isFiniteNonneg_ofDecimal_true]
  · next h => rw [decide_eq_false h, Binary64.isFiniteNonneg_ofDecimal_false]

end Decimal.Spelling

section Tokens

variable {t : Text}

theorem nonneg?_eq_some_iff {x : Binary64} : nonneg? t = some x ↔ ∃ s : Decimal.Spelling,
    s.text = t ∧ s.InRange ∧ Binary64.ofDecimal (s.sign = .minus) s.decimal = x := by
  rw [nonneg?, Option.filter_eq_some_iff]
  constructor
  · rintro ⟨hx, hfinite⟩
    obtain ⟨s, rfl⟩ := Binary64.exists_of_parse? hx
    obtain rfl : _ = x := Option.some.inj (s.parse?_text.symm.trans hx)
    exact ⟨s, rfl, s.isFiniteNonneg_iff.1 hfinite, rfl⟩
  · rintro ⟨s, rfl, hs, rfl⟩
    exact ⟨s.parse?_text, s.isFiniteNonneg_iff.2 hs⟩

theorem exists_nonneg?_iff :
    (∃ x, nonneg? t = some x) ↔ ∃ s : Decimal.Spelling, s.text = t ∧ s.InRange := by
  simp only [nonneg?_eq_some_iff]
  exact ⟨fun ⟨_, s, ht, hs, _⟩ => ⟨s, ht, hs⟩, fun ⟨s, ht, hs⟩ => ⟨_, s, ht, hs, rfl⟩⟩

theorem exists_inRange_of_word? {n : UInt64} (h : word? t = some n) :
    ∃ s : Decimal.Spelling, s.text = t ∧ s.InRange := by
  obtain ⟨m, hm, hlt⟩ := Option.bind_eq_some_iff.1 h
  obtain ⟨hlt, -⟩ := Option.ite_none_right_eq_some.1 hlt
  obtain ⟨sign, ds, rfl, hsign, hds, rfl⟩ := Sign.exists_of_unsigned? hm
  refine ⟨.ofDigits sign ds hds, Decimal.Spelling.text_ofDigits .., ?_⟩
  have hbound : value ds < Binary64.overflow := hlt.trans (by decide +kernel)
  rw [Decimal.Spelling.InRange, if_neg (by exact hsign), Decimal.Spelling.decimal_ofDigits,
    Decimal.toRat_lt_iff]
  simpa using hbound

namespace Column

variable {c : Column}

theorem accepts_amount_iff (hc : c ∉ [protocol, address, port]) :
    c.Accepts t ↔ (∃ n, word? t = some n) ∨ ∃ x, nonneg? t = some x := by
  cases c with
  | protocol | address | port => simp at hc
  | _ => rfl

theorem accepts_iff_exists_inRange (hc : c ∉ [protocol, address, port]) :
    c.Accepts t ↔ ∃ s : Decimal.Spelling, s.text = t ∧ s.InRange := by
  rw [accepts_amount_iff hc, exists_nonneg?_iff, or_iff_right_iff_imp]
  exact fun ⟨_, h⟩ => exists_inRange_of_word? h

theorem refuses_number_iff (hc : c ∉ [protocol, address, port]) :
    c.Refuses t (.number c t) ↔ ¬c.Accepts t := by
  rw [accepts_amount_iff hc, not_or, not_exists, not_exists, ← Option.eq_none_iff_forall_ne_some,
    ← Option.eq_none_iff_forall_ne_some]
  constructor
  · rintro (_ | _ | _ | _ | _ | ⟨-, hw, hf⟩)
    · simp at hc
    · simp at hc
    · exact ⟨hw, hf⟩
  · rintro ⟨hw, hf⟩
    exact .noAmount hc hw hf

/-- The fault of an unreadable number names the column and the token that it is about. -/
theorem Refuses.number {c' : Column} {t' : Text} (h : c'.Refuses t' (.number c t)) :
    c' = c ∧ t' = t := by
  cases h <;> exact ⟨rfl, rfl⟩

end Column

end Tokens

/-- Digits, or digits on both sides of a point. -/
def IsPlain (t : Text) : Prop :=
  IsDigits t ∨ ∃ whole fraction, IsDigits whole ∧ IsDigits fraction ∧ t = whole ++ '.' :: fraction

theorem IsPlain.isDigit_or {t : Text} (h : IsPlain t) {c : Char} (hc : c ∈ t) :
    c.isDigit = true ∨ c = '.' := by
  rcases h with h | ⟨whole, fraction, hwhole, hfraction, rfl⟩
  · exact .inl (h.isDigit c hc)
  · rcases List.mem_append.1 hc with hc | hc
    · exact .inl (hwhole.isDigit c hc)
    · exact (List.mem_cons.1 hc).symm.imp_left (hfraction.isDigit c)

namespace Decimal.Spelling

/-- Spelled without a sign and an exponent, and with digits on both sides of the point if there is
one. -/
structure IsPlain (s : Spelling) : Prop where
  sign : s.sign = .absent
  whole : s.whole ≠ []
  fraction : s.fraction ≠ some []
  exponent : s.exponent = none

variable {s : Spelling}

theorem sign_eq_absent (h : ∀ c ∈ s.text, c.isDigit = true ∨ c = '.') : s.sign = .absent := by
  unfold text at h
  cases hs : s.sign with
  | absent => rfl
  | plus => simp [hs, Sign.text] at h
  | minus => simp [hs, Sign.text] at h

theorem exponent_eq_none (h : ∀ c ∈ s.text, c.isDigit = true ∨ c = '.') : s.exponent = none := by
  unfold text unsignedText at h
  rcases hs : s.exponent with _ | e
  · rfl
  · have hmark := h e.mark (by simp [hs, Exponent.text])
    rcases e.mark_eq with he | he <;> rw [he] at hmark <;> simp at hmark

theorem text_eq_mantissa (hsign : s.sign = .absent) (hexponent : s.exponent = none) :
    s.text = s.mantissa := by
  simp [text, unsignedText, hsign, hexponent, Sign.text]

theorem isPlain_text_iff : DelayLine.IsPlain s.text ↔ s.IsPlain := by
  constructor
  · intro h
    have hsign := sign_eq_absent fun c => h.isDigit_or
    have hexponent := exponent_eq_none fun c => h.isDigit_or
    rw [text_eq_mantissa hsign hexponent, mantissa] at h
    have hpoint : '.' ∉ s.whole := fun hc => Bool.false_ne_true (s.isDigit_of_mem_whole hc)
    rcases hf : s.fraction with _ | f <;> rw [hf] at h
    · rw [Option.elim_none, List.append_nil] at h
      rcases h with h | ⟨w, g, -, -, h⟩
      · exact ⟨hsign, h.ne_nil, by simp [hf], hexponent⟩
      · exact absurd (h ▸ List.mem_append_right w List.mem_cons_self) hpoint
    · rw [Option.elim_some] at h
      rcases h with h | ⟨w, g, hw, hg, h⟩
      · exact absurd (List.mem_append_right s.whole List.mem_cons_self) (h.not_mem (c := '.') rfl)
      · have hpoint' : '.' ∉ f := fun hc => Bool.false_ne_true (s.isDigit_of_mem_fraction hf hc)
        obtain ⟨hwhole, -, rfl⟩ := (List.append_cons_inj_of_notMem hpoint hpoint').1 h
        exact ⟨hsign, hwhole ▸ hw.ne_nil, by simp [hf, hg.ne_nil], hexponent⟩
  · intro h
    have hwhole : IsDigits s.whole := ⟨h.whole, fun c => s.isDigit_of_mem_whole⟩
    rw [text_eq_mantissa h.sign h.exponent, mantissa]
    rcases hf : s.fraction with _ | f
    · exact .inl (by simpa using hwhole)
    · have hne : f ≠ [] := fun h0 => h.fraction (h0 ▸ hf)
      exact .inr ⟨s.whole, f, hwhole, ⟨hne, fun c => s.isDigit_of_mem_fraction hf⟩, rfl⟩

end Decimal.Spelling

namespace DelayRule

open Column

/-- The first token that a column of amounts could refuse is refused unless it spells a number in
range. So it is plain or refused just if all such spellings of it are plain. -/
theorem amount_refused_iff {line : Text} (hcount : (Text.fields line).length ∈ [5, 7, 9])
    {column : Column} (hcolumn : column ∉ [protocol, address, port]) {token : Text}
    {before after : List (Column × Text)}
    (hline : Column.all.zip (Text.fields line) = before ++ (column, token) :: after)
    (hbefore : ∀ x ∈ before, x.1.Accepts x.2) :
    (ofLine line = .error (.number column token) ↔
      ¬∃ s : Decimal.Spelling, s.text = token ∧ s.InRange) ∧
    (IsPlain token ∨ ofLine line = .error (.number column token) ↔
      ∀ s : Decimal.Spelling, s.text = token → s.InRange → s.IsPlain) := by
  have hrefused : ofLine line = .error (.number column token) ↔ ¬column.Accepts token := by
    rw [ofLine, ofTokens_eq_error_iff hcount, ← refuses_number_iff hcolumn]
    constructor
    · rintro ⟨_, _, _, _, -, -, h⟩
      obtain ⟨rfl, rfl⟩ := h.number
      exact h
    · exact fun h => ⟨before, column, token, after, hline, hbefore, h⟩
  rw [hrefused, accepts_iff_exists_inRange hcolumn]
  refine ⟨Iff.rfl, ?_⟩
  constructor
  · rintro (h | h) s rfl hs
    · exact Decimal.Spelling.isPlain_text_iff.1 h
    · exact absurd ⟨s, rfl, hs⟩ h
  · intro h
    refine or_iff_not_imp_right.2 fun hex => ?_
    obtain ⟨s, rfl, hs⟩ := not_not.1 hex
    exact Decimal.Spelling.isPlain_text_iff.2 (h s rfl hs)

theorem amount_refused_iff_of_exponent :
    let line := "6 1.2.3.4 80 1e3 0".toList
    let token := "1e3".toList
    (ofLine line = .error (.number forwardDelay token) ↔
      ¬∃ s : Decimal.Spelling, s.text = token ∧ s.InRange) ∧
    (IsPlain token ∨ ofLine line = .error (.number forwardDelay token) ↔
      ∀ s : Decimal.Spelling, s.text = token → s.InRange → s.IsPlain) := by
  intro line token
  let before := [(protocol, "6".toList), (address, "1.2.3.4".toList), (port, "80".toList)]
  have hline : Column.all.zip (Text.fields line) =
      before ++ (forwardDelay, token) :: [(reverseDelay, "0".toList)] := by decide +kernel
  have hbefore : ∀ x ∈ before, x.1.Accepts x.2 := by
    simp only [before, List.forall_mem_cons]
    exact ⟨⟨6, by decide +kernel, by decide⟩, ⟨⟨1, 2, 3, 4⟩, by decide +kernel⟩,
      ⟨80, by decide +kernel, by decide⟩, List.forall_mem_nil _⟩
  exact amount_refused_iff (by decide +kernel) (by decide) hline hbefore

theorem exponent_read :
    ofLine "6 1.2.3.4 80 1e3 0".toList = .ok (.constant ⟨6, ⟨1, 2, 3, 4⟩, 80⟩ 1000 0, none) ∧
    ¬IsPlain "1e3".toList := by
  constructor
  · decide +kernel
  · intro h
    have he := h.isDigit_or (c := 'e') (by decide)
    simp at he

end DelayRule

end DelayLine
