import DelayLine.CommandLine.Run
import DelayLine.Proofs.Rereading

/-!
# Rule files made from round trips

The rules made from round trips are those of the last record for each endpoint, in ascending order
of the endpoints (`RoundTrip.toList_rules`). None of them has a threshold, so each fits the shortest
line, and the file that is written is read back as the same rules.
-/

namespace DelayLine

namespace RoundTrip

/-- No later record is for the same endpoint. -/
def IsLast (records : List RoundTrip) (x : RoundTrip) : Prop :=
  ∃ before after, records = before ++ x :: after ∧ ∀ y ∈ after, y.endpoint ≠ x.endpoint

/-- The last record for each endpoint, in ascending order of the endpoints. -/
def lasts (records : List RoundTrip) : Ascending RoundTrip fun x => x.endpoint.rank :=
  .ofList records

/-- The line of the rule that is made from a record. -/
def line (profile : Profile) (x : RoundTrip) : Text :=
  let delay := Numeral.render (x.delay profile).toNat
  [' '].intercalate
    [['6'], x.endpoint.address.render, Numeral.render x.endpoint.port.toNat, delay, delay]

theorem mem_lasts_iff {records : List RoundTrip} {x : RoundTrip} :
    x ∈ (lasts records).toList ↔ IsLast records x := by
  have hrank (y : RoundTrip) : y.endpoint.rank ≠ x.endpoint.rank ↔ y.endpoint ≠ x.endpoint :=
    not_congr ⟨Endpoint.rank_injective, congrArg _⟩
  simp only [lasts, Ascending.mem_ofList_iff, hrank]
  rfl

theorem toList_rules (profile : Profile) (records : List RoundTrip) :
    (rules profile records).toList = (lasts records).toList.map (toRule profile) := by
  have hrank (x : RoundTrip) :
      (x.toRule profile).key.rank = Protocol.tcp.toNat * 281474976710656 + x.endpoint.rank := rfl
  exact Ascending.toList_ofList_map (f := toRule profile) hrank records

theorem render_toRule (profile : Profile) (x : RoundTrip) :
    (x.toRule profile).render = x.line profile := by
  have hsix : Numeral.render Protocol.tcp.toNat = ['6'] := by decide
  rw [DelayRule.render, toRule, DelayRule.tokens_constant, DelayRule.columns, hsix]
  rfl

theorem render_rules (profile : Profile) (records : List RoundTrip) :
    (rules profile records).render =
      (lasts records).toList.flatMap fun x => x.line profile ++ ['\n'] := by
  rw [RuleSet.render, toList_rules, List.flatMap_map]
  simp only [render_toRule]

theorem fitsLine_of_mem_rules {profile : Profile} {records : List RoundTrip} :
    ∀ r ∈ (rules profile records).toList, r.FitsLine := by
  rw [toList_rules]
  intro r hr
  obtain ⟨x, -, rfl⟩ := List.mem_map.1 hr
  exact .inl rfl

/-- Rules from round trips are read back as they were written. -/
theorem parse_encode_render_rules (profile : Profile) (records : List RoundTrip) :
    RuleSet.parse (Text.encode (rules profile records).render) = .ok (rules profile records) := by
  rw [RuleSet.parse_encode_render, RuleSet.reread_eq_self_iff.2 fitsLine_of_mem_rules]

theorem warnings_encode_render_rules (profile : Profile) (records : List RoundTrip) :
    RuleSet.warnings (Text.encode (rules profile records).render) = [] := by
  rw [RuleSet.warnings_encode_render, List.filterMap_eq_nil_iff]
  intro x hx
  rw [DelayRule.overruled?, if_pos (fitsLine_of_mem_rules _ (List.fst_mem_of_mem_zipIdx hx)),
    Option.map_none]

end RoundTrip

/-- One rule for each endpoint, from its last record, and one line for each rule. -/
theorem generated_rules {content : Bytes} {records : List RoundTrip}
    (h : RoundTrip.parse content = .ok records) (profile : Profile) :
    let s := RoundTrip.rules profile records
    let text := Text.encode s.render
    (∀ file output, (Command.generate file profile output).effect content =
      .ok (output.elim (.print s.render) (.save · s.render))) ∧
    RuleSet.parse text = .ok s ∧ RuleSet.warnings text = [] ∧
    (∀ t, RuleSet.parse text = .ok t → Text.encode t.render = text) ∧
    ∃ lasts : List RoundTrip,
      (∀ x, x ∈ lasts ↔ RoundTrip.IsLast records x) ∧
      (∀ e, (∃ x ∈ lasts, x.endpoint = e) ↔ ∃ x ∈ records, x.endpoint = e) ∧
      lasts.Pairwise (fun x y => x.endpoint.address.number < y.endpoint.address.number ∨
        x.endpoint.address = y.endpoint.address ∧ x.endpoint.port < y.endpoint.port) ∧
      s.toList = lasts.map (fun x =>
        .constant ⟨6, x.endpoint⟩ (x.delay profile) (x.delay profile)) ∧
      s.render = lasts.flatMap fun x => x.line profile ++ ['\n'] := by
  intro s text
  have hparse : RuleSet.parse text = .ok s := RoundTrip.parse_encode_render_rules profile records
  refine ⟨fun file output => ?_, hparse, RoundTrip.warnings_encode_render_rules profile records,
    fun t ht => ?_, (RoundTrip.lasts records).toList, fun x => RoundTrip.mem_lasts_iff, fun e => ?_,
    ?_, RoundTrip.toList_rules profile records, RoundTrip.render_rules profile records⟩
  · rw [Command.effect, h]
    rfl
  · cases hparse.symm.trans ht
    rfl
  · constructor
    · rintro ⟨x, hx, rfl⟩
      obtain ⟨before, after, rfl, -⟩ := RoundTrip.mem_lasts_iff.1 hx
      exact ⟨x, by simp, rfl⟩
    · rintro ⟨x, hx, rfl⟩
      obtain ⟨y, hy, hrank⟩ := Ascending.exists_mem_extend .empty hx
      exact ⟨y, hy, Endpoint.rank_injective hrank⟩
  · exact (RoundTrip.lasts records).ascending.imp Endpoint.rank_lt_iff.1

/-- An endpoint that is measured twice, and a time too long for a delay at a port that stands for
all ports. -/
theorem generated_rules_of_repeated :
    let content := Text.encode "10.0.0.6 80 100\n\n10.0.0.5 0 1e300\r\n10.0.0.6 80 39.2\n".toList
    let text := ("6 10.0.0.5 0 18446744073709551615 18446744073709551615\n" ++
      "6 10.0.0.6 80 20 20\n").toList
    ∃ records, RoundTrip.parse content = .ok records ∧ records.length = 3 ∧
      (RoundTrip.rules .base records).render = text ∧
      (Command.generate ['f'] .base none).effect content = .ok (.print text) ∧
      RuleSet.parse (Text.encode text) = .ok (RoundTrip.rules .base records) ∧
      RuleSet.warnings (Text.encode text) = [] := by
  intro content text
  let records := ((Reading.ofContent RoundTrip.ofLine content).entries.map Prod.snd).filterMap id
  have hparse : RoundTrip.parse content = .ok records :=
    RoundTrip.parse_eq_ok_iff.2 ⟨by decide +kernel, rfl⟩
  obtain ⟨heffect, hread, hwarn, -⟩ := generated_rules hparse .base
  have htext : (RoundTrip.rules .base records).render = text := by decide +kernel
  refine ⟨records, hparse, by decide +kernel, htext, ?_, ?_, ?_⟩
  · rw [heffect, htext]
    rfl
  · rw [htext] at hread
    exact hread
  · rw [htext] at hwarn
    exact hwarn

end DelayLine
