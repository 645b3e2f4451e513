import DelayLine.Text.Numeral

/-!
# Network addresses

An address is four bytes, written as a dotted quad and ordered as a number with the first byte
most significant. Main statements: `number_injective`, and `parse?_render`, what was written is
read back.
-/

namespace DelayLine

structure Address where
  a : UInt8
  b : UInt8
  c : UInt8
  d : UInt8
deriving DecidableEq, Repr

namespace Address

/-- The address as a number, the first byte most significant. -/
def number (x : Address) : Nat :=
  ((x.a.toNat * 256 + x.b.toNat) * 256 + x.c.toNat) * 256 + x.d.toNat

theorem number_lt (x : Address) : x.number < 4294967296 := by
  have ha := x.a.toNat_lt
  have hb := x.b.toNat_lt
  have hc := x.c.toNat_lt
  have hd := x.d.toNat_lt
  unfold number
  omega

theorem number_injective {x y : Address} (h : x.number = y.number) : x = y := by
  have hb := x.b.toNat_lt
  have hc := x.c.toNat_lt
  have hd := x.d.toNat_lt
  have hb' := y.b.toNat_lt
  have hc' := y.c.toNat_lt
  have hd' := y.d.toNat_lt
  unfold number at h
  obtain ⟨xa, xb, xc, xd⟩ := x
  obtain ⟨ya, yb, yc, yd⟩ := y
  simp only [Address.mk.injEq, ← UInt8.toNat_inj] at *
  omega

def render (x : Address) : Text :=
  Numeral.render x.a.toNat ++ '.' :: Numeral.render x.b.toNat ++
    '.' :: Numeral.render x.c.toNat ++ '.' :: Numeral.render x.d.toNat

theorem isWord_render (x : Address) : x.render.IsWord := by
  have hn (n : UInt8) := Numeral.isWord_render n.toNat
  have hd {t : Text} (ht : t.IsWord) : Text.IsWord ('.' :: t) := Text.isWord_cons rfl ht
  exact Text.isWord_append (Text.isWord_append (Text.isWord_append (hn _) (hd (hn _))) (hd (hn _)))
    (hd (hn _))

/-- Reads one number of a dotted quad, which has no leading zeros. -/
def octet? (t : Text) : Option UInt8 :=
  (Numeral.canonical? t).bind fun n => if n < UInt8.size then some (UInt8.ofNat n) else none

def parse? (t : Text) : Option Address :=
  match t.splitOn '.' with
  | [a, b, c, d] => do return ⟨← octet? a, ← octet? b, ← octet? c, ← octet? d⟩
  | _ => none

@[simp] theorem octet?_render (n : UInt8) : octet? (Numeral.render n.toNat) = some n := by
  have hn : n.toNat < 256 := n.toNat_lt
  simp [octet?, Numeral.canonical?_eq_some_iff.2 rfl, hn]

@[simp] theorem parse?_render (x : Address) : parse? x.render = some x := by
  have hdot := Numeral.not_mem_render (c := '.') rfl
  have h : x.render.splitOn '.' = [Numeral.render x.a.toNat, Numeral.render x.b.toNat,
      Numeral.render x.c.toNat, Numeral.render x.d.toNat] := by
    simp [render, List.append_assoc, List.splitOn_append_cons_self_of_not_mem,
      List.splitOn_eq_singleton, hdot]
  simp [parse?, h]

theorem render_injective {x y : Address} (h : x.render = y.render) : x = y := by
  have := congrArg parse? h
  simpa using this

end Address

end DelayLine
