import DelayLine.Text.Basic

/-!
# Decimal numerals

Natural numbers are written without leading zeros and read with any. Main statements:
`digits?_render` and `unsigned?_render`, reading what was written, and `canonical?_eq_some_iff`,
a reader that accepts nothing but what is written.
-/

namespace DelayLine.Numeral

/-- The decimal digits of `n`, without leading zeros. -/
def render (n : Nat) : Text := Nat.toDigits 10 n

def digits? (t : Text) : Option Nat :=
  if t ≠ [] ∧ t.all Char.isDigit then some (Nat.ofDigitChars 10 t 0) else none

/-- Reads decimal digits behind an optional plus sign. -/
def unsigned? : Text → Option Nat
  | '+' :: t => digits? t
  | t => digits? t

/-- Reads digits that are written the way `render` writes them. -/
def canonical? (t : Text) : Option Nat :=
  (digits? t).filter fun n => render n == t

theorem render_ne_nil (n : Nat) : render n ≠ [] := by
  unfold render
  rw [Nat.toDigits_eq_if (by decide)]
  split <;> simp

theorem isDigit_of_mem_render {n : Nat} {c : Char} (h : c ∈ render n) : c.isDigit = true :=
  Nat.isDigit_of_mem_toDigits (by decide) (by decide) h

theorem not_mem_render {c : Char} (hc : c.isDigit = false) (n : Nat) : c ∉ render n := fun h =>
  Bool.false_ne_true (hc.symm.trans (isDigit_of_mem_render h))

theorem isWord_render (n : Nat) : Text.IsWord (render n) where
  ne_nil := render_ne_nil n
  isBlank_eq_false c hc := by
    have h := Char.isDigit_iff_toNat.1 (isDigit_of_mem_render hc)
    simp only [Char.reduceToNat] at h
    simp [Text.isBlank]
    omega

@[simp] theorem digits?_render (n : Nat) : digits? (render n) = some n := by
  have h : (render n).all Char.isDigit = true :=
    List.all_eq_true.2 fun _ => isDigit_of_mem_render
  rw [digits?, if_pos ⟨render_ne_nil n, h⟩, render,
    Nat.ofDigitChars_toDigits (by decide) (by decide)]

@[simp] theorem unsigned?_render (n : Nat) : unsigned? (render n) = some n := by
  unfold unsigned?
  split
  · next t h =>
    exact absurd (h ▸ List.mem_cons_self) (not_mem_render (c := '+') rfl n)
  · exact digits?_render n

theorem render_injective {m n : Nat} (h : render m = render n) : m = n := by
  have := congrArg digits? h
  simpa using this

theorem canonical?_eq_some_iff {t : Text} {n : Nat} : canonical? t = some n ↔ t = render n := by
  rw [canonical?, Option.filter_eq_some_iff]
  constructor
  · rintro ⟨-, h⟩
    exact (eq_of_beq h).symm
  · rintro rfl
    simp

end DelayLine.Numeral
