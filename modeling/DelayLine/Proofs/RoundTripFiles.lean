import DelayLine.RoundTrip
import DelayLine.Proofs.AmountTokens
import DelayLine.Proofs.Concatenation
import DelayLine.Proofs.Refusals

/-!
# Files of round trips

A line holds a record, or none if it is blank, or it offends. What is read of a file is decided by
its first line that offends, and if there is none, the records are those of all its lines. A blank
line is counted but holds no record, so another one only moves the lines behind it (`parse_insert`).
-/

namespace DelayLine

namespace Text

/-- Nothing but white space. -/
def IsBlankLine (t : Text) : Prop := ∀ c ∈ t, isBlank c = true

instance (t : Text) : Decidable t.IsBlankLine := List.decidableBAll _ t

theorem fields_eq_nil_iff {t : Text} : fields t = [] ↔ t.IsBlankLine := by
  unfold IsBlankLine
  induction t with
  | nil => simp [fields]
  | cons c t ih =>
    rw [List.forall_mem_cons, ← ih, fields, List.splitOnP_cons_eq_if_modifyHead]
    split
    · next h => simp [h, fields]
    · next h =>
      refine iff_of_false ?_ fun hc => h hc.1
      obtain ⟨w, ws, hw⟩ := List.exists_cons_of_ne_nil (List.splitOnP_ne_nil isBlank t)
      simp [hw]

theorem exists_dropReturn_encode {t : Text} (h : t.IsBlankLine) :
    ∃ s : Text, s.IsBlankLine ∧ dropReturn (encode t) = encode s := by
  unfold dropReturn
  split
  · next hreturn =>
    -- The last byte is a character of its own.
    rcases t.eq_nil_or_concat' with rfl | ⟨s, c, rfl⟩
    · cases hreturn
    · have hencode (c : Char) : encode (s ++ [c]) = encode s ++ String.utf8EncodeChar c := by
        simp [encode]
      have hne : String.utf8EncodeChar c ≠ [] := by simp
      rw [hencode, List.getLast?_append_of_ne_nil _ hne] at hreturn
      have hc := (mem_utf8EncodeChar_iff (by decide)).1 (List.mem_of_getLast? hreturn)
      obtain rfl : '\r' = c := (congrArg Char.ofNat hc).symm.trans (Char.ofNat_toNat c)
      refine ⟨s, (List.forall_mem_append.1 h).1, ?_⟩
      rw [hencode]
      exact List.dropLast_concat
  · exact ⟨t, h, rfl⟩

theorem lines_insert {a : Bytes} (ha : a = [] ∨ a.getLast? = some 10) {t : Text} (ht : '\n' ∉ t)
    (b : Bytes) :
    lines (a ++ (encode t ++ 10 :: b)) = lines a ++ dropReturn (encode t) :: lines b := by
  have hfeed : 10 ∉ encode t := mt (mem_of_mem_encode (by decide)) ht
  rw [lines_append_of_ended ha, lines_append_feed, List.splitOn_eq_singleton hfeed]
  rfl

end Text

theorem Address.octet?_eq_some_iff {t : Text} {n : UInt8} :
    octet? t = some n ↔ t = Numeral.render n.toNat := by
  refine ⟨fun h => ?_, fun h => h ▸ octet?_render n⟩
  obtain ⟨m, hm, h⟩ := Option.bind_eq_some_iff.1 h
  obtain ⟨hlt, h⟩ := Option.ite_none_right_eq_some.1 h
  cases h
  rw [UInt8.toNat_ofNat_of_lt' hlt]
  exact Numeral.canonical?_eq_some_iff.1 hm

theorem Address.parse?_eq_some_iff {t : Text} {x : Address} : parse? t = some x ↔ t = x.render := by
  refine ⟨fun h => ?_, fun h => h ▸ parse?_render x⟩
  have ht : ['.'].intercalate (t.splitOn '.') = t := List.intercalate_splitOn '.'
  unfold parse? at h
  split at h
  · next a b c d hsplit =>
    simp only [Option.bind_eq_bind, Option.bind_eq_some_iff, octet?_eq_some_iff] at h
    obtain ⟨_, rfl, _, rfl, _, rfl, _, rfl, h⟩ := h
    cases h
    rw [← ht, hsplit]
    simp [List.intercalate_cons_cons, List.intercalate_singleton, render]
  · cases h

namespace RoundTrip

open Numeral

/-- Digits of a number of at most 16 bits, with a plus sign before them or not. -/
def IsPort (t : Text) (n : UInt16) : Prop :=
  ∃ ds, (t = ds ∨ t = '+' :: ds) ∧ IsDigits ds ∧ value ds = n.toNat

theorem port?_eq_some_iff {t : Text} {n : UInt16} : port? t = some n ↔ IsPort t n := by
  have hrange : port? t = some n ↔ unsigned? t = some n.toNat := by
    rw [port?, Option.bind_eq_some_iff]
    simp only [Option.ite_none_right_eq_some, Option.some.injEq]
    constructor
    · rintro ⟨m, hm, hlt, rfl⟩
      rwa [UInt16.toNat_ofNat_of_lt' hlt]
    · exact fun h => ⟨_, h, n.toNat_lt, UInt16.ofNat_toNat⟩
  rw [hrange, unsigned?_eq_some_iff]
  simp only [digits?_eq_some_iff]
  constructor
  · rintro (h | ⟨ds, ht, h⟩)
    · exact ⟨t, .inl rfl, h⟩
    · exact ⟨ds, .inr ht, h⟩
  · rintro ⟨ds, rfl | ht, h⟩
    · exact .inl h
    · exact .inr ⟨ds, ht, h⟩

/-- A number that is spelled and rounded to a finite one that is not below zero. -/
def IsTime (t : Text) (x : Binary64) : Prop :=
  ∃ s : Decimal.Spelling, s.text = t ∧ s.InRange ∧
    Binary64.ofDecimal (s.sign = .minus) s.decimal = x

/-- A line that is blank, or has three fields that are those of a record. -/
inductive Holds (bytes : Bytes) : Option RoundTrip → Prop
  | blank {line : Text} (hd : Text.decode bytes = some line) (h : line.IsBlankLine) :
    Holds bytes none
  | record {line port time : Text} {r : RoundTrip} (hd : Text.decode bytes = some line)
      (hf : Text.fields line = [r.endpoint.address.render, port, time])
      (hp : IsPort port r.endpoint.port) (ht : IsTime time r.time) : Holds bytes (some r)

/-- What is wrong with a line: its bytes, else the number of its fields, else its leftmost field
that is not what it has to be. -/
inductive Offends (number : Nat) (bytes : Bytes) : Rejected RoundTripFault → Prop
  | undecodable (hd : Text.decode bytes = none) : Offends number bytes (.undecodable number)
  | fieldCount {line : Text} (hd : Text.decode bytes = some line) (hblank : ¬line.IsBlankLine)
      (hcount : (Text.fields line).length ≠ 3) :
    Offends number bytes (.faulty number (.fieldCount (Text.fields line).length))
  | address {line address port time : Text} (hd : Text.decode bytes = some line)
      (hf : Text.fields line = [address, port, time]) (ha : ∀ x : Address, address ≠ x.render) :
    Offends number bytes (.faulty number (.address address))
  | port {line port time : Text} {x : Address} (hd : Text.decode bytes = some line)
      (hf : Text.fields line = [x.render, port, time]) (hp : ∀ n, ¬IsPort port n) :
    Offends number bytes (.faulty number (.port port))
  | time {line port time : Text} {x : Address} {n : UInt16} (hd : Text.decode bytes = some line)
      (hf : Text.fields line = [x.render, port, time]) (hp : IsPort port n)
      (ht : ∀ y, ¬IsTime time y) : Offends number bytes (.faulty number (.time time))

variable {bytes : Bytes} {o : Option RoundTrip} {number : Nat} {e : Rejected RoundTripFault}

theorem ofTokens_eq_ok_iff {address port time : Text} :
    ofTokens [address, port, time] = .ok o ↔ ∃ r : RoundTrip,
      address = r.endpoint.address.render ∧ IsPort port r.endpoint.port ∧ IsTime time r.time ∧
        o = some r := by
  simp only [ofTokens, bind_eq_ok_iff, elim_eq_ok_iff, Address.parse?_eq_some_iff,
    port?_eq_some_iff, nonneg?_eq_some_iff]
  constructor
  · rintro ⟨x, ha, n, hp, y, ht, h⟩
    cases h
    exact ⟨⟨⟨x, n⟩, y⟩, ha, hp, ht, rfl⟩
  · rintro ⟨r, ha, hp, ht, rfl⟩
    exact ⟨_, ha, _, hp, _, ht, rfl⟩

theorem ofTokens_eq_error_iff {address port time : Text} {fault : RoundTripFault} :
    ofTokens [address, port, time] = .error fault ↔
      (∀ x : Address, address ≠ x.render) ∧ fault = .address address ∨
      ∃ x : Address, address = x.render ∧ ((∀ n, ¬IsPort port n) ∧ fault = .port port ∨
        ∃ n, IsPort port n ∧ (∀ y, ¬IsTime time y) ∧ fault = .time time) := by
  have hpure (r : Option RoundTrip) :
      ¬(pure r : Except RoundTripFault (Option RoundTrip)) = .error fault := nofun
  simp only [ofTokens, bind_eq_error_iff, elim_eq_error_iff, elim_eq_ok_iff,
    Option.eq_none_iff_forall_ne_some, Ne, Address.parse?_eq_some_iff, port?_eq_some_iff,
    nonneg?_eq_some_iff, eq_comm (b := fault), hpure, and_false, exists_false, or_false]
  rfl

theorem ofTokens_of_length_ne {tokens : List Text} (hne : tokens ≠ []) (h : tokens.length ≠ 3) :
    ofTokens tokens = .error (.fieldCount tokens.length) := by
  unfold ofTokens
  split
  · exact absurd rfl hne
  · exact absurd rfl h
  · rfl

/-- A line has no field, three fields, or another number of them. -/
theorem fields_cases (line : Text) : Text.fields line = [] ∨
    (∃ address port time, Text.fields line = [address, port, time]) ∨
      Text.fields line ≠ [] ∧ (Text.fields line).length ≠ 3 := by
  rw [← List.length_eq_three]
  tauto

theorem accepts_iff_holds : Reading.Accepts ofLine bytes o ↔ Holds bytes o := by
  constructor
  · rintro ⟨line, hd, h⟩
    rw [ofLine] at h
    rcases fields_cases line with hf | ⟨address, port, time, hf⟩ | ⟨hne, hcount⟩
    · rw [hf] at h
      cases h
      exact .blank hd (Text.fields_eq_nil_iff.1 hf)
    · rw [hf] at h
      obtain ⟨r, rfl, hp, ht, rfl⟩ := ofTokens_eq_ok_iff.1 h
      exact .record hd hf hp ht
    · rw [ofTokens_of_length_ne hne hcount] at h
      cases h
  · rintro (⟨hd, h⟩ | ⟨hd, hf, hp, ht⟩)
    · refine ⟨_, hd, ?_⟩
      rw [ofLine, Text.fields_eq_nil_iff.2 h]
      rfl
    · refine ⟨_, hd, ?_⟩
      rw [ofLine, hf]
      exact ofTokens_eq_ok_iff.2 ⟨_, rfl, hp, ht, rfl⟩

theorem refuses_iff_offends : Reading.Refuses ofLine number bytes e ↔ Offends number bytes e := by
  constructor
  · rintro (hd | @⟨line, fault, hd, h⟩)
    · exact .undecodable hd
    · rw [ofLine] at h
      rcases fields_cases line with hf | ⟨address, port, time, hf⟩ | ⟨hne, hcount⟩
      · rw [hf] at h
        cases h
      · rw [hf] at h
        rcases ofTokens_eq_error_iff.1 h with
          ⟨ha, rfl⟩ | ⟨x, rfl, ⟨hp, rfl⟩ | ⟨n, hp, ht, rfl⟩⟩
        · exact .address hd hf ha
        · exact .port hd hf hp
        · exact .time hd hf hp ht
      · rw [ofTokens_of_length_ne hne hcount] at h
        cases h
        exact .fieldCount hd (mt Text.fields_eq_nil_iff.2 hne) hcount
  · have hfaulty {line : Text} {fault : RoundTripFault} (hd : Text.decode bytes = some line)
        (h : ofTokens (Text.fields line) = .error fault) :
        Reading.Refuses ofLine number bytes (.faulty number fault) := .faulty hd h
    rintro (hd | ⟨hd, hblank, hcount⟩ | ⟨hd, hf, ha⟩ | ⟨hd, hf, hp⟩ | ⟨hd, hf, hp, ht⟩)
    · exact .undecodable hd
    · exact hfaulty hd (ofTokens_of_length_ne (mt Text.fields_eq_nil_iff.1 hblank) hcount)
    · exact hfaulty hd (hf ▸ ofTokens_eq_error_iff.2 (.inl ⟨ha, rfl⟩))
    · exact hfaulty hd (hf ▸ ofTokens_eq_error_iff.2 (.inr ⟨_, rfl, .inl ⟨hp, rfl⟩⟩))
    · exact hfaulty hd (hf ▸ ofTokens_eq_error_iff.2 (.inr ⟨_, rfl, .inr ⟨_, hp, ht, rfl⟩⟩))

variable {content content' blank : Bytes} {before behind : List Bytes}

theorem parse_eq_ok_iff_holds {rs : List RoundTrip} : parse content = .ok rs ↔
    ∃ os, (Text.lines content).Forall₂ Holds os ∧ os.filterMap id = rs := by
  rw [parse_eq_ok_iff]
  constructor
  · rintro ⟨hr, rfl⟩
    exact ⟨_, (Reading.ofLines_eq_ok_iff.1 ⟨hr, rfl⟩).imp fun _ _ => accepts_iff_holds.1, rfl⟩
  · rintro ⟨os, hos, rfl⟩
    have hread : (Reading.ofContent ofLine content).rejected = none ∧
        (Reading.ofContent ofLine content).entries.map Prod.snd = os :=
      Reading.ofLines_eq_ok_iff.2 (hos.imp fun _ _ => accepts_iff_holds.2)
    exact ⟨hread.1, congrArg (List.filterMap id) hread.2⟩

theorem exists_parse_iff :
    (∃ rs, parse content = .ok rs) ↔ ∀ l ∈ Text.lines content, ∃ o, Holds l o := by
  simp only [parse_eq_ok_iff_holds]
  generalize Text.lines content = ls
  induction ls with
  | nil => simp
  | cons l ls ih =>
    rw [List.forall_mem_cons, ← ih]
    constructor
    · rintro ⟨_, os, hos, -⟩
      obtain ⟨o, os, ho, hos, -⟩ := List.forall₂_cons_left_iff.1 hos
      exact ⟨⟨o, ho⟩, _, os, hos, rfl⟩
    · rintro ⟨⟨o, ho⟩, _, os, hos, -⟩
      exact ⟨_, o :: os, .cons ho hos, rfl⟩

theorem parse_eq_error_iff_offends {e : Rejected RoundTripFault} : parse content = .error e ↔
    ∃ before bytes behind, Text.lines content = before ++ bytes :: behind ∧
      (∀ l ∈ before, ∃ o, Holds l o) ∧ Offends (before.length + 1) bytes e := by
  rw [parse_eq_error_iff, Reading.ofContent, Reading.rejected_eq_some_iff]
  simp only [accepts_iff_holds, refuses_iff_offends, Nat.add_comm 1]

theorem parse_insert (hl : Text.lines content = before ++ behind)
    (hl' : Text.lines content' = before ++ blank :: behind) (h : Holds blank none) :
    parse content' =
      (parse content).mapError fun e => if e.line ≤ before.length then e else e.shift 1 := by
  have haccepts := accepts_iff_holds.2 h
  have hrejected := Reading.rejected_insert haccepts 1 before behind
  have hvalues := Reading.values_insert haccepts 1 before behind
  simp only [← hl, ← hl', Nat.add_comm 1, Nat.lt_succ_iff] at hrejected hvalues
  rcases hp : parse content with e | rs
  · rw [parse_eq_error_iff, Reading.ofContent] at hp
    rw [hp] at hrejected
    exact parse_eq_error_iff.2 hrejected
  · obtain ⟨hr, rfl⟩ := parse_eq_ok_iff.1 hp
    rw [Reading.ofContent] at hr
    rw [hr] at hrejected
    exact parse_eq_ok_iff.2 ⟨hrejected, hvalues⟩

theorem parse_append_blank {a b : Bytes} (ha : a = [] ∨ a.getLast? = some 10) {t : Text}
    (ht : t.IsBlankLine) (hfeed : '\n' ∉ t) : parse (a ++ (Text.encode t ++ 10 :: b)) =
      (parse (a ++ b)).mapError fun e => if e.line ≤ a.count 10 then e else e.shift 1 := by
  obtain ⟨s, hs, hencode⟩ := Text.exists_dropReturn_encode ht
  rw [← Text.length_lines_of_ended ha]
  refine parse_insert (Text.lines_append_of_ended ha b) (Text.lines_insert ha hfeed b) ?_
  rw [hencode]
  exact .blank (Text.decode_encode s) hs

/-- A file is read if every line is blank or holds a record, and the records are those of its lines.
Otherwise the first line that offends is reported. Another blank line changes nothing but the number
of that line, if it stands before it. -/
theorem lines_decide_file (content : Bytes) :
    (∀ rs, parse content = .ok rs ↔
      ∃ os, (Text.lines content).Forall₂ Holds os ∧ os.filterMap id = rs) ∧
    ((∃ rs, parse content = .ok rs) ↔ ∀ l ∈ Text.lines content, ∃ o, Holds l o) ∧
    (∀ e, parse content = .error e ↔ ∃ before bytes behind,
      Text.lines content = before ++ bytes :: behind ∧ (∀ l ∈ before, ∃ o, Holds l o) ∧
        Offends (before.length + 1) bytes e) ∧
    (∀ content' before blank behind, Text.lines content = before ++ behind →
      Text.lines content' = before ++ blank :: behind → Holds blank none →
      parse content' =
        (parse content).mapError fun e => if e.line ≤ before.length then e else e.shift 1) ∧
    ∀ a b, content = a ++ b → (a = [] ∨ a.getLast? = some 10) →
      ∀ t : Text, t.IsBlankLine → '\n' ∉ t → parse (a ++ (Text.encode t ++ 10 :: b)) =
        (parse content).mapError fun e => if e.line ≤ a.count 10 then e else e.shift 1 := by
  refine ⟨fun _ => parse_eq_ok_iff_holds, exists_parse_iff, fun _ => parse_eq_error_iff_offends,
    fun _ _ _ _ => parse_insert, ?_⟩
  rintro a b rfl ha t
  exact parse_append_blank ha

/-- A port that is too large, with a blank line before it, at the front and behind it. -/
theorem lines_decide_file_of_large_port :
    let a := Text.encode "1.1.1.1 443 10\n".toList
    let b := Text.encode "1.1.1.1 70000 -3\n".toList
    let t : Text := "\t\r".toList
    let fault : RoundTripFault := .port "70000".toList
    parse (a ++ b) = .error (.faulty 2 fault) ∧
      parse (a ++ (Text.encode t ++ 10 :: b)) = .error (.faulty 3 fault) ∧
      parse (Text.encode t ++ 10 :: (a ++ b)) = .error (.faulty 3 fault) ∧
      parse (a ++ b ++ (Text.encode t ++ [10])) = .error (.faulty 2 fault) := by
  intro a b t fault
  have ht : t.IsBlankLine := by decide
  have hparse : parse (a ++ b) = .error (.faulty 2 fault) :=
    parse_eq_error_iff.2 (by decide +kernel)
  obtain ⟨-, -, -, -, h⟩ := lines_decide_file (a ++ b)
  have hfront := h [] (a ++ b) rfl (.inl rfl) t ht (by decide)
  have hbetween := h a b rfl (.inr (by decide)) t ht (by decide)
  have hend := h (a ++ b) [] (List.append_nil _).symm (.inr (by decide)) t ht (by decide)
  rw [hparse] at hfront hbetween hend
  exact ⟨hparse, hbetween, hfront, hend⟩

end RoundTrip

end DelayLine
