import Mathlib.Data.List.Basic
import DelayLine.Amount

/-!
# How numerals are spelled

A numeral for a binary64 number is spelled with a sign or none, with digits that may have a point
before, among or behind them, and with an exponent or none. The parts of a spelling determine what
is read (`parse?_text`), and nothing is read that is not spelled like this (`exists_of_parse?`).
-/

namespace DelayLine

namespace Numeral

/-- One or more decimal digits. -/
structure IsDigits (t : Text) : Prop where
  ne_nil : t ≠ []
  isDigit : ∀ c ∈ t, c.isDigit = true

/-- The number that digits stand for. -/
def value (t : Text) : Nat := Nat.ofDigitChars 10 t 0

variable {t : Text} {n : Nat}

theorem digits?_eq_some_iff : digits? t = some n ↔ IsDigits t ∧ value t = n := by
  have hdigits : (t ≠ [] ∧ t.all Char.isDigit) ↔ IsDigits t := by
    rw [List.all_eq_true]
    exact ⟨fun h => ⟨h.1, h.2⟩, fun h => ⟨h.1, h.2⟩⟩
  rw [digits?, Option.ite_none_right_eq_some, Option.some.injEq, hdigits]
  rfl

theorem IsDigits.digits?_eq (h : IsDigits t) : digits? t = some (value t) :=
  digits?_eq_some_iff.2 ⟨h, rfl⟩

theorem IsDigits.not_mem (h : IsDigits t) {c : Char} (hc : c.isDigit = false) : c ∉ t :=
  fun hm => Bool.false_ne_true (hc ▸ h.isDigit c hm)

theorem unsigned?_eq_some_iff :
    unsigned? t = some n ↔ digits? t = some n ∨ ∃ ds, t = '+' :: ds ∧ digits? ds = some n := by
  unfold unsigned?
  split
  · next ds =>
    have hplus : digits? ('+' :: ds) ≠ some n := fun h =>
      (digits?_eq_some_iff.1 h).1.not_mem rfl List.mem_cons_self
    simp [hplus]
  · next hne => simp [show ¬∃ ds, t = '+' :: ds ∧ digits? ds = some n from
      fun ⟨ds, h, _⟩ => hne ds h]

end Numeral

open Numeral

inductive Sign where
  | absent
  | plus
  | minus
deriving DecidableEq

def Sign.text : Sign → Text
  | absent => []
  | plus => ['+']
  | minus => ['-']

theorem Sign.exists_of_unsigned? {t : Text} {n : Nat} (h : unsigned? t = some n) :
    ∃ (s : Sign) (ds : Text), t = s.text ++ ds ∧ s ≠ minus ∧ IsDigits ds ∧ value ds = n := by
  rcases unsigned?_eq_some_iff.1 h with h | ⟨ds, rfl, h⟩
  · exact ⟨absent, t, rfl, by decide, digits?_eq_some_iff.1 h⟩
  · exact ⟨plus, ds, rfl, by decide, digits?_eq_some_iff.1 h⟩

namespace Decimal

/-- An exponent as it is spelled. -/
structure Exponent where
  mark : Char
  sign : Sign
  digits : Text
  mark_eq : mark = 'e' ∨ mark = 'E'
  isDigits : IsDigits digits

namespace Exponent

def text (e : Exponent) : Text := e.mark :: (e.sign.text ++ e.digits)

def number (e : Exponent) : Int :=
  if e.sign = .minus then -(value e.digits : Int) else value e.digits

end Exponent

theorem exponent?_text (e : Exponent) : exponent? (e.sign.text ++ e.digits) = some e.number := by
  have hd := e.isDigits.digits?_eq
  unfold Exponent.number
  cases e.sign with
  | absent =>
    simp only [Sign.text, List.nil_append, exponent?]
    split
    · next h => exact absurd (h ▸ List.mem_cons_self) (e.isDigits.not_mem (c := '-') rfl)
    · rw [unsigned?_eq_some_iff.2 (.inl hd)]
      rfl
  | plus =>
    have hu : unsigned? ('+' :: e.digits) = some (value e.digits) := hd
    simp [Sign.text, exponent?, hu]
  | minus => simp [Sign.text, exponent?, hd]

theorem exists_of_exponent? {t : Text} {x : Int} (h : exponent? t = some x) :
    ∃ (s : Sign) (ds : Text), t = s.text ++ ds ∧ IsDigits ds := by
  unfold exponent? at h
  split at h
  · next ds =>
    obtain ⟨z, hz, -⟩ := Option.map_eq_some_iff.1 h
    obtain ⟨n, hn, -⟩ := Option.bind_eq_some_iff.1 hz
    exact ⟨.minus, ds, rfl, (digits?_eq_some_iff.1 hn).1⟩
  · obtain ⟨z, hz, -⟩ := Option.map_eq_some_iff.1 h
    obtain ⟨n, hn, -⟩ := Option.bind_eq_some_iff.1 hz
    obtain ⟨s, ds, rfl, -, hds, -⟩ := Sign.exists_of_unsigned? hn
    exact ⟨s, ds, rfl, hds⟩

/-- A numeral as it is spelled: its sign, the digits before the point, those behind it if there is
a point, and the exponent if there is one. -/
structure Spelling where
  sign : Sign
  whole : Text
  fraction : Option Text
  exponent : Option Exponent
  isDigits : IsDigits (whole ++ fraction.getD [])

namespace Spelling

def mantissa (s : Spelling) : Text := s.whole ++ s.fraction.elim [] ('.' :: ·)

def unsignedText (s : Spelling) : Text := s.mantissa ++ s.exponent.elim [] Exponent.text

def text (s : Spelling) : Text := s.sign.text ++ s.unsignedText

/-- The number that is spelled, its sign aside. -/
def decimal (s : Spelling) : Decimal :=
  ⟨value (s.whole ++ s.fraction.getD []),
    -(s.fraction.getD []).length + s.exponent.elim 0 Exponent.number⟩

variable (s : Spelling)

theorem isDigit_of_mem_whole {c : Char} (h : c ∈ s.whole) : c.isDigit = true :=
  s.isDigits.isDigit c (List.mem_append_left _ h)

theorem isDigit_of_mem_fraction {f : Text} (hf : s.fraction = some f) {c : Char} (h : c ∈ f) :
    c.isDigit = true :=
  s.isDigits.isDigit c (List.mem_append_right _ (by rwa [hf]))

theorem mantissa_ne_nil : s.mantissa ≠ [] := by
  have h := s.isDigits.ne_nil
  unfold mantissa
  cases hf : s.fraction <;> simp_all

theorem isDigit_of_mem_mantissa {c : Char} (h : c ∈ s.mantissa) : c.isDigit = true ∨ c = '.' := by
  rcases List.mem_append.1 h with h | h
  · exact .inl (s.isDigit_of_mem_whole h)
  · rcases hf : s.fraction with _ | f <;> rw [hf] at h
    · cases h
    · exact (List.mem_cons.1 h).symm.imp_left (s.isDigit_of_mem_fraction hf)

theorem mantissa?_mantissa : mantissa? s.mantissa =
    some ⟨value (s.whole ++ s.fraction.getD []), -(s.fraction.getD []).length⟩ := by
  have hd := s.isDigits.digits?_eq
  have hwhole : '.' ∉ s.whole := fun h => Bool.false_ne_true (s.isDigit_of_mem_whole h)
  unfold mantissa? mantissa
  rcases hf : s.fraction with _ | f <;> rw [hf] at hd
  · rw [Option.elim_none, List.append_nil, List.splitOn_eq_singleton hwhole]
    simpa using hd
  · have hfraction : '.' ∉ f := fun h => Bool.false_ne_true (s.isDigit_of_mem_fraction hf h)
    rw [Option.elim_some, List.splitOn_append_cons_self_of_not_mem hwhole,
      List.splitOn_eq_singleton hfraction]
    simpa using hd

theorem parse?_unsignedText : Decimal.parse? s.unsignedText = some s.decimal := by
  have hmark : ∀ c ∈ s.mantissa, (c != 'e' && c != 'E') = true := by
    intro c hc
    have hc := s.isDigit_of_mem_mantissa hc
    rw [Bool.and_eq_true, bne_iff_ne, bne_iff_ne]
    constructor <;> rintro rfl <;> simp at hc
  unfold Decimal.parse? unsignedText decimal
  rw [List.takeWhile_append_of_pos hmark, List.dropWhile_append_of_pos hmark]
  rcases s.exponent with _ | e
  · simp [mantissa?_mantissa]
  · have hstop : (e.mark != 'e' && e.mark != 'E') = false := by
      rcases e.mark_eq with h | h <;> rw [h] <;> rfl
    simp [Exponent.text, hstop, mantissa?_mantissa, exponent?_text]

theorem head_unsignedText_ne {c : Char} {t : Text} (hc : c.isDigit = false) (hpoint : c ≠ '.') :
    s.unsignedText ≠ c :: t := by
  intro h
  obtain ⟨d, m, hm⟩ := List.exists_cons_of_ne_nil s.mantissa_ne_nil
  have hd := s.isDigit_of_mem_mantissa (hm ▸ List.mem_cons_self)
  rw [unsignedText, hm, List.cons_append] at h
  obtain ⟨rfl, -⟩ := List.cons.inj h
  rcases hd with hd | rfl
  · exact Bool.false_ne_true (hc ▸ hd)
  · exact hpoint rfl

theorem parse?_text :
    Binary64.parse? s.text = some (Binary64.ofDecimal (s.sign = .minus) s.decimal) := by
  have hp := s.parse?_unsignedText
  unfold text
  cases s.sign with
  | absent =>
    simp only [Sign.text, List.nil_append, Binary64.parse?]
    split
    · next h => exact absurd h (s.head_unsignedText_ne rfl (by decide))
    · next h => exact absurd h (s.head_unsignedText_ne rfl (by decide))
    · simp [hp]
  | plus => simp [Sign.text, Binary64.parse?, hp]
  | minus => simp [Sign.text, Binary64.parse?, hp]

end Spelling

theorem exists_of_mantissa? {t : Text} {d : Decimal} (h : mantissa? t = some d) :
    ∃ (whole : Text) (fraction : Option Text),
      t = whole ++ fraction.elim [] ('.' :: ·) ∧ IsDigits (whole ++ fraction.getD []) := by
  have ht : ['.'].intercalate (t.splitOn '.') = t := List.intercalate_splitOn '.'
  unfold mantissa? at h
  split at h
  · next whole hsplit =>
    obtain ⟨n, hn, -⟩ := Option.map_eq_some_iff.1 h
    rw [hsplit, List.intercalate_singleton] at ht
    exact ⟨whole, none, by simp [ht], by simpa using (digits?_eq_some_iff.1 hn).1⟩
  · next whole fraction hsplit =>
    obtain ⟨n, hn, -⟩ := Option.map_eq_some_iff.1 h
    rw [hsplit, List.intercalate_cons_cons, List.intercalate_singleton] at ht
    exact ⟨whole, some fraction, by simp [← ht], (digits?_eq_some_iff.1 hn).1⟩
  · cases h

theorem exists_of_parse? {t : Text} {d : Decimal} (h : Decimal.parse? t = some d) (sign : Sign) :
    ∃ s : Spelling, s.sign = sign ∧ s.unsignedText = t := by
  obtain ⟨m, hm, h⟩ := Option.bind_eq_some_iff.1 h
  obtain ⟨whole, fraction, hmantissa, hd⟩ := exists_of_mantissa? hm
  have ht := List.takeWhile_append_dropWhile (p := fun c => c != 'e' && c != 'E') (l := t)
  rw [hmantissa] at ht
  split at h
  · next hrest =>
    rw [hrest, List.append_nil] at ht
    exact ⟨⟨sign, whole, fraction, none, hd⟩, rfl, by
      simp [Spelling.unsignedText, Spelling.mantissa, ht]⟩
  · next mark rest hrest =>
    obtain ⟨x, hx, -⟩ := Option.map_eq_some_iff.1 h
    obtain ⟨es, ds, rfl, hds⟩ := exists_of_exponent? hx
    have hmark : mark = 'e' ∨ mark = 'E' := by
      have hstop := List.head_dropWhile_not (fun c => c != 'e' && c != 'E')
        (hrest ▸ List.cons_ne_nil mark _)
      simp only [hrest, List.head_cons, Bool.and_eq_false_iff, bne_eq_false_iff_eq] at hstop
      exact hstop
    rw [hrest] at ht
    exact ⟨⟨sign, whole, fraction, some ⟨mark, es, ds, hmark, hds⟩, hd⟩, rfl, ht⟩

end Decimal

namespace Binary64

theorem exists_of_parse? {t : Text} {x : Binary64} (h : parse? t = some x) :
    ∃ s : Decimal.Spelling, s.text = t := by
  unfold parse? at h
  split at h
  · obtain ⟨d, hd, -⟩ := Option.map_eq_some_iff.1 h
    obtain ⟨s, hsign, hs⟩ := Decimal.exists_of_parse? hd .minus
    exact ⟨s, by rw [Decimal.Spelling.text, hsign, hs]; rfl⟩
  · obtain ⟨d, hd, -⟩ := Option.map_eq_some_iff.1 h
    obtain ⟨s, hsign, hs⟩ := Decimal.exists_of_parse? hd .plus
    exact ⟨s, by rw [Decimal.Spelling.text, hsign, hs]; rfl⟩
  · obtain ⟨d, hd, -⟩ := Option.map_eq_some_iff.1 h
    obtain ⟨s, hsign, hs⟩ := Decimal.exists_of_parse? hd .absent
    exact ⟨s, by rw [Decimal.Spelling.text, hsign, hs]; rfl⟩

end Binary64

end DelayLine
