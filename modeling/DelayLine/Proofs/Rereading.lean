import Mathlib.Data.List.Basic
import DelayLine.RuleSet.File

/-!
# Rule files written and read again

The line of a rule is the shortest that shows both switches, and a switch that it leaves out is the
one that the reader puts in its place. The reader takes the forward switch for both directions, so a
rule with a reverse switch of its own comes back with the forward one, and its line is reported as
overruled (`ofTokens_tokens`). Every other rule comes back as it was, and so do all rules that were
read from a file (`fitsLine_of_parse`).
-/

namespace DelayLine

namespace DelayRule

/-- A line can hold the rule: traffic from the endpoint never switches, or it switches as the
traffic towards it does. -/
def FitsLine (r : DelayRule) : Prop :=
  r.reverse.switch = ⟨maxAmount, r.reverse.base⟩ ∨ r.reverse.switch = r.forward.switch

instance : DecidablePred FitsLine := fun _ => inferInstanceAs (Decidable (_ ∨ _))

theorem fitsLine_iff {r : DelayRule} :
    r.FitsLine ↔ r.reverse = .constant r.reverse.base ∨ r.reverse.switch = r.forward.switch :=
  or_congr_left Schedule.eq_constant_iff.symm

/-- The rule that is read from the line of a rule. -/
def reread (r : DelayRule) : DelayRule :=
  if r.FitsLine then r else { r with reverse.switch := r.forward.switch }

/-- What is reported of the line of a rule. -/
def overruled? (r : DelayRule) : Option Overruled :=
  if r.FitsLine then none else some ⟨r.reverse.switch, r.forward.switch⟩

@[simp] theorem key_reread (r : DelayRule) : r.reread.key = r.key := by
  unfold reread
  split_ifs <;> rfl

theorem reread_eq_self_iff {r : DelayRule} : r.reread = r ↔ r.FitsLine := by
  unfold reread
  split_ifs with h
  · exact iff_of_true rfl h
  · refine iff_of_false (fun he => h (.inr ?_)) h
    rw [← congrArg (fun r => r.reverse.switch) he]

theorem readProtocol_render (p : UInt8) : readProtocol (Numeral.render p.toNat) = .ok p := by
  have hw := word?_render p.toUInt64
  rw [UInt8.toNat_toUInt64] at hw
  have hp : p.toNat < UInt8.size := p.toNat_lt
  simp [readProtocol, readWord, hw, bind, Except.bind, pure, Except.pure, hp]

theorem readPort_render (p : UInt16) : readPort (Numeral.render p.toNat) = .ok p := by
  have hw := word?_render p.toUInt64
  rw [UInt16.toNat_toUInt64] at hw
  have hp : p.toNat < UInt16.size := p.toNat_lt
  simp [readPort, readWord, hw, bind, Except.bind, pure, Except.pure, hp]

theorem readAddress_render (x : Address) : readAddress x.render = .ok x := by
  simp [readAddress, pure, Except.pure]

theorem readAmount_render (column : Column) (n : UInt64) :
    readAmount column (Numeral.render n.toNat) = .ok n := by
  simp [readAmount, pure, Except.pure]

theorem readConstant_render (key : RuleKey) (f b : Millis) :
    readConstant (Numeral.render key.protocol.toNat) key.endpoint.address.render
      (Numeral.render key.endpoint.port.toNat) (Numeral.render f.toNat) (Numeral.render b.toNat) =
      .ok (.constant key f b) := by
  simp only [readConstant, readProtocol_render, readAddress_render, readPort_render,
    readAmount_render]
  rfl

theorem readForwardSwitch_render (s : Switch) :
    readForwardSwitch (Numeral.render s.threshold.toNat) (Numeral.render s.alternate.toNat) =
      .ok s := by
  simp only [readForwardSwitch, readAmount_render]
  rfl

theorem readReverseSwitch_render (s : Switch) :
    readReverseSwitch (Numeral.render s.threshold.toNat) (Numeral.render s.alternate.toNat) =
      .ok s := by
  simp only [readReverseSwitch, readAmount_render]
  rfl

section Layouts

variable (key : RuleKey) (f b : Millis) (used given : Switch)

/-- The five columns that every line has. -/
def columns : List Text :=
  [Numeral.render key.protocol.toNat, key.endpoint.address.render,
    Numeral.render key.endpoint.port.toNat, Numeral.render f.toNat, Numeral.render b.toNat]

theorem ofTokens_columns : ofTokens (columns key f b) = .ok (.constant key f b, none) := by
  simp only [columns, ofTokens, readConstant_render]
  rfl

theorem ofTokens_columns_append :
    ofTokens (columns key f b ++ used.tokens) = .ok (⟨key, ⟨f, used⟩, .constant b⟩, none) := by
  simp only [columns, Switch.tokens, List.cons_append, List.nil_append, ofTokens,
    readConstant_render, readForwardSwitch_render]
  rfl

theorem ofTokens_columns_append_append :
    ofTokens (columns key f b ++ used.tokens ++ given.tokens) =
      .ok (⟨key, ⟨f, used⟩, ⟨b, used⟩⟩,
        if given = used then none else some ⟨given, used⟩) := by
  simp only [columns, Switch.tokens, List.cons_append, List.nil_append, ofTokens,
    readConstant_render, readForwardSwitch_render, readReverseSwitch_render]
  rfl

end Layouts

variable {r : DelayRule}

theorem tokens_eq (r : DelayRule) :
    r.tokens = columns r.key r.forward.base r.reverse.base ++
      (if r.showsForward then r.forward.switch.tokens else []) ++
      (if r.showsReverse then r.reverse.switch.tokens else []) :=
  rfl

theorem tokens_constant (key : RuleKey) (f b : Millis) :
    (constant key f b).tokens = columns key f b := by
  have hreverse : (constant key f b).showsReverse = false := bne_self_eq_false _
  have hforward : (constant key f b).showsForward = false := by
    rw [showsForward, hreverse, Bool.false_or]
    exact bne_self_eq_false _
  rw [tokens_eq, hforward, hreverse]
  rfl

theorem showsReverse_iff : r.showsReverse = true ↔ r.reverse ≠ .constant r.reverse.base := by
  rw [showsReverse, bne_iff_ne]

theorem ofTokens_tokens (r : DelayRule) : ofTokens r.tokens = .ok (r.reread, r.overruled?) := by
  rw [tokens_eq]
  by_cases hr : r.reverse = .constant r.reverse.base
  · have hfits : r.FitsLine := fitsLine_iff.2 (.inl hr)
    have hshow : ¬r.showsReverse = true := fun h => showsReverse_iff.1 h hr
    rw [if_neg hshow, List.append_nil, reread, overruled?, if_pos hfits, if_pos hfits]
    by_cases hf : r.showsForward = true
    · rw [if_pos hf, ofTokens_columns_append, ← hr]
    · have hf' : r.forward = .constant r.forward.base := by
        simpa [showsForward, hshow] using hf
      rw [if_neg hf, List.append_nil, ofTokens_columns, constant, ← hr, ← hf']
  · have hshow : r.showsReverse = true := showsReverse_iff.2 hr
    have hf : r.showsForward = true := by rw [showsForward, hshow, Bool.true_or]
    have hfits : r.FitsLine ↔ r.reverse.switch = r.forward.switch :=
      fitsLine_iff.trans (or_iff_right hr)
    rw [if_pos hshow, if_pos hf, ofTokens_columns_append_append]
    simp only [reread, overruled?, hfits]
    split_ifs with h
    · have hrev : (⟨r.reverse.base, r.forward.switch⟩ : Schedule) = r.reverse := by rw [← h]
      rw [hrev]
    · rfl

theorem isWord_of_mem_tokens : ∀ t ∈ r.tokens, t.IsWord := by
  have hn := Numeral.isWord_render
  have ha := r.key.endpoint.address.isWord_render
  unfold tokens Switch.tokens
  split_ifs <;> simp [hn, ha]

theorem fields_render (r : DelayRule) : Text.fields r.render = r.tokens :=
  Text.fields_intercalate isWord_of_mem_tokens

theorem ofLine_render (r : DelayRule) : ofLine r.render = .ok (r.reread, r.overruled?) := by
  rw [ofLine, fields_render, ofTokens_tokens]

theorem not_mem_render (r : DelayRule) {c : Char} (hc : Text.isBlank c = true) (hs : c ≠ ' ') :
    c ∉ r.render :=
  Text.not_mem_intercalate isWord_of_mem_tokens hc hs

theorem exists_eq_constant_of_readConstant {p a o f b : Text}
    (h : readConstant p a o f b = .ok r) : ∃ key f b, r = .constant key f b := by
  simp only [readConstant, bind_eq_ok_iff] at h
  obtain ⟨protocol, -, address, -, port, -, forward, -, reverse, -, h⟩ := h
  cases h
  exact ⟨_, _, _, rfl⟩

/-- What a line with the given number of columns can say. -/
inductive Layout : Nat → DelayRule → Prop
  | five (key : RuleKey) (f b : Millis) : Layout 5 (.constant key f b)
  | seven (key : RuleKey) (f b : Millis) (used : Switch) :
      Layout 7 ⟨key, ⟨f, used⟩, .constant b⟩
  | nine (key : RuleKey) (f b : Millis) (used : Switch) : Layout 9 ⟨key, ⟨f, used⟩, ⟨b, used⟩⟩

theorem layout_of_ofTokens {tokens : List Text} {o : Option Overruled}
    (h : ofTokens tokens = .ok (r, o)) : Layout tokens.length r := by
  unfold ofTokens at h
  split at h
  · obtain ⟨rule, hrule, h⟩ := bind_eq_ok_iff.1 h
    obtain ⟨key, f, b, rfl⟩ := exists_eq_constant_of_readConstant hrule
    cases h
    exact .five key f b
  · obtain ⟨rule, hrule, h⟩ := bind_eq_ok_iff.1 h
    obtain ⟨used, -, h⟩ := bind_eq_ok_iff.1 h
    obtain ⟨key, f, b, rfl⟩ := exists_eq_constant_of_readConstant hrule
    cases h
    exact .seven key f b used
  · obtain ⟨rule, hrule, h⟩ := bind_eq_ok_iff.1 h
    obtain ⟨used, -, h⟩ := bind_eq_ok_iff.1 h
    obtain ⟨given, -, h⟩ := bind_eq_ok_iff.1 h
    obtain ⟨key, f, b, rfl⟩ := exists_eq_constant_of_readConstant hrule
    cases h
    exact .nine key f b used
  · cases h

theorem Layout.fitsLine {n : Nat} (h : Layout n r) : r.FitsLine := by
  cases h with
  | five => exact .inl rfl
  | seven => exact .inl rfl
  | nine => exact .inr rfl

end DelayRule

namespace RuleSet

/-- The rule set that is read from the file of a rule set. -/
def reread (s : RuleSet) : RuleSet where
  toList := s.toList.map DelayRule.reread
  ascending := by
    rw [List.pairwise_map]
    simpa only [DelayRule.key_reread] using s.ascending

theorem lines_encode_render (s : RuleSet) :
    Text.lines (Text.encode s.render) = s.toList.map fun r => Text.encode r.render := by
  have hline : ∀ t ∈ s.toList.map DelayRule.render, '\n' ∉ t ∧ '\r' ∉ t := by
    intro t ht
    obtain ⟨r, -, rfl⟩ := List.mem_map.1 ht
    exact ⟨r.not_mem_render rfl (by decide), r.not_mem_render rfl (by decide)⟩
  have h := Text.lines_encode_flatMap hline
  rwa [List.flatMap_map, List.map_map] at h

theorem read_encode_render (s : RuleSet) : read (Text.encode s.render) =
    ⟨(s.toList.zipIdx 1).map fun x => (x.2, x.1.reread, x.1.overruled?), none⟩ := by
  rw [read, Reading.ofContent, lines_encode_render]
  exact Reading.ofLines_map
    (fun r _ => ⟨r.render, Text.decode_encode r.render, DelayRule.ofLine_render r⟩) 1

theorem parse_encode_render (s : RuleSet) : parse (Text.encode s.render) = .ok s.reread := by
  have hrules : rulesOf (Text.encode s.render) = s.reread.toList := by
    have h := congrArg (List.map DelayRule.reread) (List.zipIdx_map_fst 1 s.toList)
    rw [List.map_map] at h
    rw [rulesOf, read_encode_render, List.map_map]
    exact h
  refine parse_eq_ok_iff.2 ⟨by rw [read_encode_render], Ascending.ext ?_⟩
  rw [hrules, Ascending.toList_ofList s.reread.ascending]

theorem warnings_encode_render (s : RuleSet) : warnings (Text.encode s.render) =
    (s.toList.zipIdx 1).filterMap fun x => x.1.overruled?.map (x.2, ·) := by
  rw [warnings, read_encode_render, List.filterMap_map]
  rfl

variable {s : RuleSet}

theorem get?_reread {r : DelayRule} (hr : r ∈ s.toList) :
    s.reread.get? r.key = some r.reread :=
  get?_eq_some_iff.2 ⟨List.mem_map_of_mem hr, r.key_reread⟩

theorem reread_eq_self_iff : s.reread = s ↔ ∀ r ∈ s.toList, r.FitsLine := by
  constructor
  · intro h r hr
    have hget := get?_reread hr
    rw [h, get?_eq_some_iff.2 ⟨hr, rfl⟩] at hget
    exact DelayRule.reread_eq_self_iff.1 (Option.some.inj hget).symm
  · intro h
    refine Ascending.ext ?_
    calc s.toList.map DelayRule.reread
        = s.toList.map id :=
          List.map_congr_left fun r hr => DelayRule.reread_eq_self_iff.2 (h r hr)
      _ = s.toList := List.map_id _

theorem fitsLine_of_parse {content : Bytes} (h : parse content = .ok s) :
    ∀ r ∈ s.toList, r.FitsLine := by
  obtain ⟨-, rfl⟩ := parse_eq_ok_iff.1 h
  intro r hr
  rcases Ascending.mem_extend hr with hr | hr
  · cases hr
  · obtain ⟨entry, hentry, rfl⟩ := List.mem_map.1 hr
    obtain ⟨t, ht⟩ := Reading.exists_of_mem_entries hentry
    exact (DelayRule.layout_of_ofTokens ht).fitsLine

theorem parse_render (s : RuleSet) :
    (∃ t, parse (Text.encode s.render) = .ok t ∧
      t.toList.map DelayRule.key = s.toList.map DelayRule.key ∧
      (t = s ↔ ∀ r ∈ s.toList, r.FitsLine) ∧
      (∀ r ∈ s.toList, t.get? r.key =
        some (if r.FitsLine then r else { r with reverse.switch := r.forward.switch })) ∧
      warnings (Text.encode s.render) = (s.toList.zipIdx 1).filterMap fun x =>
        if t.get? x.1.key = some x.1 then none
        else some (x.2, ⟨x.1.reverse.switch, x.1.forward.switch⟩)) ∧
    ∀ content u, parse content = .ok u →
      parse (Text.encode u.render) = .ok u ∧ warnings (Text.encode u.render) = [] := by
  constructor
  · refine ⟨s.reread, parse_encode_render s, ?_, reread_eq_self_iff, fun r hr => get?_reread hr, ?_⟩
    · rw [reread, List.map_map]
      exact List.map_congr_left fun r _ => r.key_reread
    · rw [warnings_encode_render]
      refine List.filterMap_congr fun x hx => ?_
      have hget := get?_reread (List.fst_mem_of_mem_zipIdx hx)
      simp only [hget, Option.some.injEq, DelayRule.reread_eq_self_iff, DelayRule.overruled?]
      split_ifs <;> rfl
  · intro content u hu
    have hfits := fitsLine_of_parse hu
    constructor
    · rw [parse_encode_render, reread_eq_self_iff.2 hfits]
    · rw [warnings_encode_render, List.filterMap_eq_nil_iff]
      intro x hx
      rw [DelayRule.overruled?, if_pos (hfits _ (List.fst_mem_of_mem_zipIdx hx)), Option.map_none]

/-- A rule with a reverse switch of its own in a rule set, and one in a line of a file. -/
theorem parse_render_of_reverse_switch :
    let constant : DelayRule := .constant ⟨6, ⟨10, 0, 0, 6⟩, 0⟩ 5 5
    let switching : DelayRule := ⟨⟨17, ⟨10, 0, 0, 5⟩, 53⟩, .constant 20, ⟨20, ⟨1000, 30⟩⟩⟩
    let s : RuleSet := .ofList [switching, constant]
    let content := Text.encode "6 10.0.0.6 443 1 2 3 4 5 6\n".toList
    let u : RuleSet := .ofList [⟨⟨6, ⟨10, 0, 0, 6⟩, 443⟩, ⟨1, ⟨3, 4⟩⟩, ⟨2, ⟨3, 4⟩⟩⟩]
    (∃ t, parse (Text.encode s.render) = .ok t ∧ t ≠ s ∧
      t.get? switching.key = some ⟨switching.key, .constant 20, .constant 20⟩ ∧
      warnings (Text.encode s.render) = [(2, ⟨⟨1000, 30⟩, ⟨maxAmount, 20⟩⟩)]) ∧
    (parse content = .ok u ∧ warnings content = [(1, ⟨⟨5, 6⟩, ⟨3, 4⟩⟩)]) ∧
    parse (Text.encode u.render) = .ok u ∧ warnings (Text.encode u.render) = [] := by
  intro constant switching s content u
  have hu : parse content = .ok u := parse_eq_ok_iff.2 ⟨by decide +kernel, by decide +kernel⟩
  obtain ⟨⟨t, ht, -, hts, hget, hwarn⟩, hagain⟩ := parse_render s
  have hmem : switching ∈ s.toList := by decide
  refine ⟨⟨t, ht, ?_, ?_, ?_⟩, ⟨hu, by decide +kernel⟩, hagain content u hu⟩
  · exact fun h => absurd (hts.1 h switching hmem) (by decide)
  · rw [hget switching hmem]
    decide
  · decide +kernel

end RuleSet

end DelayLine
