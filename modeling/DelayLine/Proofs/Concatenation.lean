import DelayLine.RuleSet.File

/-!
# Rule files put together

A rule file whose last line is ended can be followed by another: what is read of the two is what is
read of the first and, if nothing of it was rejected, of the second further down
(`ofContent_append`). So a fault in the first hides the second, a fault in the second is reported
at its line in the whole file, and the rules of the second replace those of the first.
-/

namespace DelayLine

variable {a : Bytes}

namespace Text

theorem lines_append_of_ended (ha : a = [] ∨ a.getLast? = some 10) (b : Bytes) :
    lines (a ++ b) = lines a ++ lines b := by
  rcases ha with rfl | ha
  · rfl
  · obtain ⟨a, rfl⟩ := List.getLast?_eq_some_iff.1 ha
    exact lines_append a b

theorem length_lines_of_ended (ha : a = [] ∨ a.getLast? = some 10) :
    (lines a).length = a.count 10 := by
  rcases ha with rfl | ha
  · rfl
  · obtain ⟨a, rfl⟩ := List.getLast?_eq_some_iff.1 ha
    rw [length_lines_append_feed, List.count_append, List.count_singleton_self]

end Text

namespace Reading

variable {α ε : Type} {read : Text → Except ε α}

theorem ofContent_append_of_rejected (ha : a = [] ∨ a.getLast? = some 10)
    (hr : (ofContent read a).rejected ≠ none) (b : Bytes) :
    ofContent read (a ++ b) = ofContent read a := by
  unfold ofContent at hr ⊢
  rw [Text.lines_append_of_ended ha, ofLines_append_of_rejected _ hr]

theorem ofContent_append (ha : a = [] ∨ a.getLast? = some 10)
    (hr : (ofContent read a).rejected = none) (b : Bytes) :
    ofContent read (a ++ b) =
      ⟨(ofContent read a).entries ++ ((ofContent read b).shift (a.count 10)).entries,
        ((ofContent read b).shift (a.count 10)).rejected⟩ := by
  unfold ofContent at hr ⊢
  rw [Text.lines_append_of_ended ha, ofLines_append hr, Text.length_lines_of_ended ha, Nat.add_comm,
    ofLines_add]

end Reading

namespace RuleSet

theorem read_append (ha : a = [] ∨ a.getLast? = some 10) (hr : (read a).rejected = none)
    (b : Bytes) :
    read (a ++ b) = ⟨(read a).entries ++ ((read b).shift (a.count 10)).entries,
      (read b).rejected.map (Rejected.shift (a.count 10))⟩ :=
  Reading.ofContent_append ha hr b

theorem warnings_append (ha : a = [] ∨ a.getLast? = some 10) (hr : (read a).rejected = none)
    (b : Bytes) :
    warnings (a ++ b) = warnings a ++ (warnings b).map fun w => (a.count 10 + w.1, w.2) := by
  simp only [warnings, read_append ha hr, Reading.shift, List.filterMap_append, List.filterMap_map,
    List.map_filterMap]
  congr 2
  funext entry
  simp [Function.comp_def]

theorem rulesOf_append (ha : a = [] ∨ a.getLast? = some 10) (hr : (read a).rejected = none)
    (b : Bytes) : rulesOf (a ++ b) = rulesOf a ++ rulesOf b := by
  simp only [rulesOf, read_append ha hr, Reading.shift, List.map_append, List.map_map]
  rfl

theorem get?_extend (s : RuleSet) (rs : List DelayRule) (key : RuleKey) :
    get? (s.extend rs) key = (get? (.ofList rs) key).or (s.get? key) :=
  Ascending.find?_extend_eq_or s rs key.rank

theorem parse_append (ha : a = [] ∨ a.getLast? = some 10) (b : Bytes) :
    (∀ e, parse a = .error e → parse (a ++ b) = .error e ∧ warnings (a ++ b) = warnings a) ∧
    ∀ s, parse a = .ok s →
      warnings (a ++ b) = warnings a ++ (warnings b).map (fun w => (a.count 10 + w.1, w.2)) ∧
      (∀ e, parse b = .error e → parse (a ++ b) = .error (e.shift (a.count 10))) ∧
      ∀ t, parse b = .ok t → parse (a ++ b) = .ok (s.extend (rulesOf b)) ∧
        ∀ key, get? (s.extend (rulesOf b)) key = (t.get? key).or (s.get? key) := by
  constructor
  · intro e he
    rw [parse_eq_error_iff] at he ⊢
    have hread : read (a ++ b) = read a :=
      Reading.ofContent_append_of_rejected ha (he ▸ Option.some_ne_none e) b
    exact ⟨hread ▸ he, by rw [warnings, hread, warnings]⟩
  · intro s hs
    obtain ⟨hr, rfl⟩ := parse_eq_ok_iff.1 hs
    refine ⟨warnings_append ha hr b, fun e he => ?_, fun t ht => ?_⟩
    · rw [parse_eq_error_iff] at he ⊢
      rw [read_append ha hr, he, Option.map_some]
    · obtain ⟨hrb, rfl⟩ := parse_eq_ok_iff.1 ht
      refine ⟨parse_eq_ok_iff.2 ⟨?_, ?_⟩, get?_extend _ _⟩
      · rw [read_append ha hr, hrb, Option.map_none]
      · rw [rulesOf_append ha hr, Ascending.ofList, Ascending.extend_append]
        rfl

/-- A line whose last pair is overruled, before a file without a final line feed, before one with
a byte that is not UTF-8, and behind a line that is rejected. -/
theorem parse_append_of_overruled :
    let a := Text.encode "6 1.2.3.4 80 1 2 3 4 5 6\r\n".toList
    let b := Text.encode "17 1.2.3.4 53 9 9\n6 1.2.3.4 80 7 8".toList
    let c := b ++ [10, 255]
    let d := Text.encode "6 1.2.3 80 1 2\n".toList
    let s : RuleSet := .ofList [⟨⟨6, ⟨1, 2, 3, 4⟩, 80⟩, ⟨1, ⟨3, 4⟩⟩, ⟨2, ⟨3, 4⟩⟩⟩]
    (a.getLast? = some 10 ∧ d.getLast? = some 10) ∧
      (parse a = .ok s ∧ parse b = .ok (.ofList (rulesOf b)) ∧
        parse c = .error (.undecodable 3) ∧
        parse d = .error (.faulty 1 (.address "1.2.3".toList))) ∧
      parse (a ++ b) = .ok (s.extend (rulesOf b)) ∧
      get? (s.extend (rulesOf b)) ⟨6, ⟨1, 2, 3, 4⟩, 80⟩ =
        some (.constant ⟨6, ⟨1, 2, 3, 4⟩, 80⟩ 7 8) ∧
      parse (a ++ c) = .error (.undecodable 4) ∧ warnings (a ++ c) = [(1, ⟨⟨5, 6⟩, ⟨3, 4⟩⟩)] ∧
      parse (d ++ a) = .error (.faulty 1 (.address "1.2.3".toList)) ∧ warnings (d ++ a) = [] := by
  intro a b c d s
  have ha : a.getLast? = some 10 := by decide
  have hd : d.getLast? = some 10 := by decide
  have hpa : parse a = .ok s := parse_eq_ok_iff.2 ⟨by decide +kernel, by decide +kernel⟩
  have hpb : parse b = .ok (.ofList (rulesOf b)) := parse_eq_ok_iff.2 ⟨by decide +kernel, rfl⟩
  have hpc : parse c = .error (.undecodable 3) := parse_eq_error_iff.2 (by decide +kernel)
  have hpd : parse d = .error (.faulty 1 (.address "1.2.3".toList)) :=
    parse_eq_error_iff.2 (by decide +kernel)
  obtain ⟨hb, hget⟩ := ((parse_append (.inr ha) b).2 s hpa).2.2 _ hpb
  obtain ⟨hwarn, hc, -⟩ := (parse_append (.inr ha) c).2 s hpa
  obtain ⟨hd', hwarn'⟩ := (parse_append (.inr hd) a).1 _ hpd
  refine ⟨⟨ha, hd⟩, ⟨hpa, hpb, hpc, hpd⟩, hb, ?_, hc _ hpc, ?_, hd', ?_⟩
  · rw [hget]
    decide +kernel
  · rw [hwarn]
    decide +kernel
  · rw [hwarn']
    decide +kernel

end RuleSet

end DelayLine
