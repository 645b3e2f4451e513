import Mathlib.Data.List.Basic
import DelayLine.Proofs.Collected
import DelayLine.Proofs.Layouts
import DelayLine.RuleSet.Table

/-!
# Texts that tell rules apart

No two rules have the same line in a rule file: the number of columns tells which switches are
shown, and what is not shown is the constant schedule (`DelayRule.tokens_injective`). No two rules
have the same line in a table either. Its columns may be wider than planned, but the word in each
of them ends before a character that it cannot hold, so the line is read from left to right
(`alignRight_append_inj`). Both texts of a rule set have a line for each rule, so they tell it from
all others.
-/

namespace DelayLine

namespace Text

variable {a b s t : Text} {c : Char} {width : Nat}

theorem dropWhile_alignRight_append (ha : a.IsWord) (s : Text) :
    (alignRight width a ++ s).dropWhile (· = ' ') = a ++ s := by
  obtain ⟨d, a, rfl⟩ := List.exists_cons_of_ne_nil ha.ne_nil
  have hd : d ≠ ' ' := by
    rintro rfl
    exact ha.not_mem rfl List.mem_cons_self
  rw [alignRight, List.leftpad, List.append_assoc,
    List.dropWhile_append_of_pos fun e he => decide_eq_true (List.eq_of_mem_replicate he),
    List.cons_append, List.dropWhile_cons_of_neg (by simpa using hd)]

/-- A word in a column, with a character behind it that it does not hold, is told from all others
however wide it is. -/
theorem alignRight_append_inj (ha : a.IsWord) (hb : b.IsWord) (hca : c ∉ a) (hcb : c ∉ b)
    (h : alignRight width a ++ c :: s = alignRight width b ++ c :: t) : a = b ∧ s = t := by
  have hdrop := congrArg (List.dropWhile (· = ' ')) h
  rw [dropWhile_alignRight_append ha, dropWhile_alignRight_append hb] at hdrop
  exact append_cons_inj hca hcb hdrop

/-- All the white space in a text are spaces. -/
def IsSpaced (t : Text) : Prop := ∀ c ∈ t, c = ' ' ∨ isBlank c = false

instance : DecidablePred IsSpaced := fun t => List.decidableBAll _ t

theorem IsWord.isSpaced (ha : a.IsWord) : a.IsSpaced := fun c hc => .inr (ha.isBlank_eq_false c hc)

theorem isSpaced_append : IsSpaced (a ++ b) ↔ a.IsSpaced ∧ b.IsSpaced := List.forall_mem_append

theorem isSpaced_cons : IsSpaced (c :: a) ↔ (c = ' ' ∨ isBlank c = false) ∧ a.IsSpaced :=
  List.forall_mem_cons

theorem isSpaced_leftpad (hc : c = ' ' ∨ isBlank c = false) (ha : a.IsSpaced) :
    IsSpaced (a.leftpad width c) :=
  isSpaced_append.2 ⟨fun _ hd => List.eq_of_mem_replicate hd ▸ hc, ha⟩

theorem isSpaced_alignRight (ha : a.IsWord) : IsSpaced (alignRight width a) :=
  isSpaced_leftpad (.inl rfl) ha.isSpaced

theorem IsSpaced.not_mem (ha : a.IsSpaced) (hc : isBlank c = true) (hs : c ≠ ' ') : c ∉ a :=
  fun h => (ha c h).elim hs fun hf => Bool.false_ne_true (hf.symm.trans hc)

end Text

/-- A number, or a star in the place of `star`. -/
def Numeral.starred (star n : Nat) : Text := if n = star then ['*'] else render n

theorem Numeral.isWord_starred (star n : Nat) : (starred star n).IsWord := by
  unfold starred
  split
  · exact ⟨List.cons_ne_nil _ _, List.forall_mem_singleton.2 rfl⟩
  · exact isWord_render n

theorem Numeral.starred_injective {star m n : Nat} (h : starred star m = starred star n) :
    m = n := by
  have hstar (i : Nat) : render i ≠ ['*'] := fun hi =>
    not_mem_render (c := '*') rfl i (hi ▸ List.mem_cons_self)
  unfold starred at h
  split_ifs at h with hm hn hn
  · exact hm.trans hn.symm
  · exact absurd h.symm (hstar n)
  · exact absurd h (hstar m)
  · exact render_injective h

theorem Numeral.millis_append_inj {a b : Millis} {s t : Text}
    (h : millis a ++ s = millis b ++ t) : a = b ∧ s = t := by
  have hm := not_mem_render (c := 'm') rfl
  simp only [millis, column, List.append_assoc] at h
  obtain ⟨hab, hst⟩ :=
    Text.alignRight_append_inj (isWord_render _) (isWord_render _) (hm _) (hm _) h
  exact ⟨UInt64.toNat_inj.1 (render_injective hab), (List.cons.inj hst).2⟩

theorem Numeral.isSpaced_column (width n : Nat) : Text.IsSpaced (column width n) :=
  Text.isSpaced_alignRight (isWord_render n)

theorem Numeral.isSpaced_millis (d : Millis) : Text.IsSpaced (millis d) :=
  Text.isSpaced_append.2 ⟨isSpaced_column 5 _, by decide⟩

theorem Address.not_mem_render {c : Char} (hc : c.isDigit = false) (hdot : c ≠ '.') (x : Address) :
    c ∉ x.render := by
  have hn := Numeral.not_mem_render hc
  simp [render, hn, hdot]

theorem Switch.limitColumn_eq (s : Switch) :
    s.limitColumn = Text.alignRight 10 (Numeral.starred maxAmount.toNat s.threshold.toNat) := by
  simp only [limitColumn, Numeral.starred, UInt64.toNat_inj]

theorem Switch.cells_append_inj {mark : Char} {x y : Switch} {s t : Text}
    (h : x.cells mark ++ s = y.cells mark ++ t) : x = y ∧ s = t := by
  simp only [cells, limitColumn_eq, List.cons_append, List.append_assoc, List.cons.injEq,
    true_and] at h
  have hword := Numeral.isWord_starred maxAmount.toNat
  obtain ⟨hlimit, h⟩ := Text.alignRight_append_inj (hword _) (hword _) ((hword _).not_mem rfl)
    ((hword _).not_mem rfl) h
  obtain ⟨halternate, hst⟩ := Numeral.millis_append_inj h
  have hthreshold := UInt64.toNat_inj.1 (Numeral.starred_injective hlimit)
  cases x
  cases y
  exact ⟨congrArg₂ _ hthreshold halternate, hst⟩

theorem Switch.isSpaced_cells {mark : Char} (hmark : Text.isBlank mark = false) (s : Switch) :
    Text.IsSpaced (s.cells mark) := by
  have hlimit : Text.IsSpaced s.limitColumn := by
    rw [limitColumn_eq]
    exact Text.isSpaced_alignRight (Numeral.isWord_starred _ _)
  have hat : '@' = ' ' ∨ Text.isBlank '@' = false := by decide
  simp only [cells, Text.isSpaced_append, Text.isSpaced_cons, hmark, hat, hlimit,
    Numeral.isSpaced_millis, or_true, true_or, and_true]

namespace DelayRule

variable {r q : DelayRule}

theorem portColumn_eq (r : DelayRule) :
    r.portColumn = Text.alignRight 5 (Numeral.starred 0 r.key.endpoint.port.toNat) := by
  have hport : r.isWildcard = true ↔ r.key.endpoint.port.toNat = 0 := by
    rw [isWildcard, beq_iff_eq, ← UInt16.toNat_inj, UInt16.toNat_zero]
  simp only [portColumn, Numeral.starred, hport]

/-- The line of a table, column by column. -/
theorem tableLine_eq (number : Nat) (r : DelayRule) :
    r.tableLine number =
      ("#- Rule#".toList ++ (Numeral.render number).leftpad 3 '0' ++ "  ".toList) ++
      (Numeral.column 3 r.key.protocol.toNat ++ ' ' ::
      (Text.alignRight 15 r.key.endpoint.address.render ++ '(' ::
      ((Numeral.column 10 r.key.endpoint.address.number ++ ") ".toList) ++
      (r.portColumn ++ ' ' ::
      (Numeral.millis r.forward.base ++ ([' '] ++
      (Numeral.millis r.reverse.base ++
      ("   ".toList ++
      (r.forward.switch.cells 'F' ++
      ("   ".toList ++ r.reverse.switch.cells 'B')))))))))) := by
  unfold tableLine
  simp only [List.append_assoc, List.cons_append, List.nil_append]

theorem tableLine_injective {number : Nat}
    (h : r.tableLine number = q.tableLine number) : r = q := by
  have hdigits := Numeral.isWord_render
  have haddress := Address.not_mem_render (c := '(') rfl (by decide)
  have hport := Numeral.isWord_starred 0
  rw [tableLine_eq, tableLine_eq, portColumn_eq, portColumn_eq] at h
  -- From left to right: each column ends where the next one begins.
  obtain ⟨hprotocol, h⟩ := Text.alignRight_append_inj (hdigits _) (hdigits _)
    ((hdigits _).not_mem rfl) ((hdigits _).not_mem rfl) (List.append_cancel_left h)
  obtain ⟨haddr, h⟩ := Text.alignRight_append_inj (Address.isWord_render _)
    (Address.isWord_render _) (haddress _) (haddress _) h
  have haddr := Address.render_injective haddr
  rw [haddr] at h
  obtain ⟨hportText, h⟩ := Text.alignRight_append_inj (hport _) (hport _) ((hport _).not_mem rfl)
    ((hport _).not_mem rfl) (List.append_cancel_left h)
  obtain ⟨hforward, h⟩ := Numeral.millis_append_inj h
  obtain ⟨hreverse, h⟩ := Numeral.millis_append_inj (List.append_cancel_left h)
  obtain ⟨hforwardSwitch, h⟩ := Switch.cells_append_inj (List.append_cancel_left h)
  have hcells := congrArg (· ++ []) (List.append_cancel_left h)
  obtain ⟨hreverseSwitch, -⟩ := Switch.cells_append_inj hcells
  obtain ⟨⟨protocol, address, port⟩, ⟨forward, forwardSwitch⟩, ⟨reverse, reverseSwitch⟩⟩ := r
  have hprotocol := UInt8.toNat_inj.1 (Numeral.render_injective hprotocol)
  have hport := UInt16.toNat_inj.1 (Numeral.starred_injective hportText)
  subst hprotocol hport haddr hforward hreverse hforwardSwitch hreverseSwitch
  rfl

theorem isSpaced_portColumn (r : DelayRule) : r.portColumn.IsSpaced := by
  rw [portColumn_eq]
  exact Text.isSpaced_alignRight (Numeral.isWord_starred _ _)

theorem isSpaced_tableLine (number : Nat) (r : DelayRule) : (r.tableLine number).IsSpaced := by
  have hnumber : Text.IsSpaced ((Numeral.render number).leftpad 3 '0') :=
    Text.isSpaced_leftpad (by decide) (Numeral.isWord_render number).isSpaced
  have haddress : Text.IsSpaced (Text.alignRight 15 r.key.endpoint.address.render) :=
    Text.isSpaced_alignRight (Address.isWord_render _)
  rw [tableLine_eq]
  simp only [Text.isSpaced_append, Text.isSpaced_cons, hnumber, haddress, r.isSpaced_portColumn,
    Numeral.isSpaced_column, Numeral.isSpaced_millis,
    Switch.isSpaced_cells (show Text.isBlank 'F' = false from rfl),
    Switch.isSpaced_cells (show Text.isBlank 'B' = false from rfl), true_and, and_true]
  decide

end DelayRule

theorem Switch.tokens_injective {x y : Switch} (h : x.tokens = y.tokens) : x = y := by
  simp only [tokens, List.cons.injEq, and_true] at h
  obtain ⟨hthreshold, halternate⟩ := h
  cases x
  cases y
  exact congrArg₂ _ (UInt64.toNat_inj.1 (Numeral.render_injective hthreshold))
    (UInt64.toNat_inj.1 (Numeral.render_injective halternate))

namespace DelayRule

variable {r q : DelayRule}

theorem columns_injective {k l : RuleKey} {f b f' b' : Millis}
    (h : columns k f b = columns l f' b') : k = l ∧ f = f' ∧ b = b' := by
  simp only [columns, List.cons.injEq, and_true] at h
  obtain ⟨hprotocol, haddress, hport, hf, hb⟩ := h
  obtain ⟨protocol, address, port⟩ := k
  have hprotocol := UInt8.toNat_inj.1 (Numeral.render_injective hprotocol)
  have haddress := Address.render_injective haddress
  have hport := UInt16.toNat_inj.1 (Numeral.render_injective hport)
  subst hprotocol haddress hport
  exact ⟨rfl, UInt64.toNat_inj.1 (Numeral.render_injective hf),
    UInt64.toNat_inj.1 (Numeral.render_injective hb)⟩

/-- A schedule that is shown is told by its columns, and the others are constant. -/
theorem eq_of_shown {shown : Bool} {x y : Schedule} (hbase : x.base = y.base)
    (hx : shown = false → x = .constant x.base) (hy : shown = false → y = .constant y.base)
    (h : (if shown then x.switch.tokens else []) = if shown then y.switch.tokens else []) :
    x = y := by
  cases shown with
  | false =>
    calc x = .constant x.base := hx rfl
      _ = .constant y.base := by rw [hbase]
      _ = y := (hy rfl).symm
  | true =>
    cases x
    cases y
    exact congrArg₂ _ hbase (Switch.tokens_injective h)

theorem eq_constant_of_showsReverse (h : r.showsReverse = false) :
    r.reverse = .constant r.reverse.base :=
  by_contra fun hne => Bool.false_ne_true (h.symm.trans (showsReverse_iff.2 hne))

theorem eq_constant_of_showsForward (h : r.showsForward = false) :
    r.forward = .constant r.forward.base :=
  bne_eq_false_iff_eq.1 (Bool.or_eq_false_iff.1 h).2

/-- A line has five, seven or nine columns, and their number tells what is shown. -/
theorem shows_eq_of_length_eq (h : r.tokens.length = q.tokens.length) :
    r.showsForward = q.showsForward ∧ r.showsReverse = q.showsReverse := by
  have hboth (r : DelayRule) (hr : r.showsReverse = true) : r.showsForward = true := by
    rw [showsForward, hr, Bool.true_or]
  have hr := hboth r
  have hq := hboth q
  rw [length_tokens, length_tokens] at h
  grind

theorem tokens_injective (h : r.tokens = q.tokens) : r = q := by
  obtain ⟨hforward, hreverse⟩ := shows_eq_of_length_eq (congrArg List.length h)
  rw [tokens_eq, tokens_eq, ← hforward, ← hreverse] at h
  obtain ⟨h, hreverseTokens⟩ := List.append_inj' h (by split_ifs <;> rfl)
  obtain ⟨hcolumns, hforwardTokens⟩ := List.append_inj h rfl
  obtain ⟨hkey, hf, hb⟩ := columns_injective hcolumns
  have hforward := eq_of_shown hf eq_constant_of_showsForward
    (fun h => eq_constant_of_showsForward (hforward.symm.trans h)) hforwardTokens
  have hreverse := eq_of_shown hb eq_constant_of_showsReverse
    (fun h => eq_constant_of_showsReverse (hreverse.symm.trans h)) hreverseTokens
  cases r
  cases q
  subst hkey hforward hreverse
  rfl

theorem render_inj : r.render = q.render ↔ r = q := by
  refine ⟨fun h => tokens_injective ?_, congrArg _⟩
  rw [← fields_render, ← fields_render, h]

end DelayRule

namespace RuleSet

variable {s t : RuleSet}

theorem eq_of_render_eq (h : s.render = t.render) : s = t := by
  have hlines := congrArg (fun text => Text.lines (Text.encode text)) h
  simp only [lines_encode_render] at hlines
  exact Ascending.ext (List.map_injective_iff.2
    (fun _ _ h => DelayRule.render_inj.1 (Text.encode_injective h)) hlines)

theorem tableFrom_eq (first : Nat) (rules : List DelayRule) : tableFrom first rules =
    ((rules.zipIdx first).map fun x => x.1.tableLine x.2).flatMap fun line => line ++ ['\n'] := by
  induction rules generalizing first with
  | nil => rfl
  | cons r rules ih =>
    simp only [tableFrom, ih, List.zipIdx_cons, List.map_cons, List.flatMap_cons,
      List.append_assoc, List.singleton_append]

theorem lines_encode_table (s : RuleSet) : Text.lines (Text.encode s.table) =
    (s.toList.zipIdx 1).map fun x => Text.encode (x.1.tableLine x.2) := by
  have hline : ∀ t ∈ (s.toList.zipIdx 1).map fun x => x.1.tableLine x.2, '\n' ∉ t ∧ '\r' ∉ t := by
    intro t ht
    obtain ⟨⟨r, number⟩, -, rfl⟩ := List.mem_map.1 ht
    have hspaced := r.isSpaced_tableLine number
    exact ⟨hspaced.not_mem rfl (by decide), hspaced.not_mem rfl (by decide)⟩
  rw [table, tableFrom_eq, Text.lines_encode_flatMap hline, List.map_map]
  rfl

theorem eq_of_map_tableLine {number : Nat} {rules rules' : List DelayRule}
    (h : ((rules.zipIdx number).map fun x => Text.encode (x.1.tableLine x.2)) =
      (rules'.zipIdx number).map fun x => Text.encode (x.1.tableLine x.2)) : rules = rules' := by
  induction rules generalizing number rules' with
  | nil =>
    cases rules' with
    | nil => rfl
    | cons => cases h
  | cons r rules ih =>
    cases rules' with
    | nil => cases h
    | cons q rules' =>
      obtain ⟨hline, h⟩ := List.cons.inj h
      have hrule : r = q := DelayRule.tableLine_injective (Text.encode_injective hline)
      rw [hrule, ih h]

theorem eq_of_table_eq (h : s.table = t.table) : s = t := by
  have hlines := congrArg (fun text => Text.lines (Text.encode text)) h
  simp only [lines_encode_table] at hlines
  exact Ascending.ext (eq_of_map_tableLine hlines)

/-- Both texts tell a rule set from all others, also where a rule does not come back from its own
line. -/
theorem texts_lossless (s t : RuleSet) :
    (s.render = t.render ↔ s = t) ∧ (s.table = t.table ↔ s = t) ∧
    Text.lines (Text.encode s.render) = s.toList.map (fun r => Text.encode r.render) ∧
    Text.lines (Text.encode s.table) =
      (s.toList.zipIdx 1).map (fun x => Text.encode (x.1.tableLine x.2)) ∧
    s.toList.Pairwise (fun r r' => r.key.Precedes r'.key) :=
  ⟨⟨eq_of_render_eq, congrArg _⟩, ⟨eq_of_table_eq, congrArg _⟩, s.lines_encode_render,
    s.lines_encode_table, s.ascending.imp RuleKey.precedes_iff.2⟩

end RuleSet

end DelayLine
