import DelayLine.Reading
import DelayLine.Rule.Line
import DelayLine.RuleSet.Basic

/-!
# Rule files

A rule file holds one rule on each line, and a later rule replaces an earlier one with the same key.
Main statements: `parse_eq_ok_iff`, when a rule file is accepted and what it holds, and
`parse_eq_error_iff`, when it is rejected.
-/

namespace DelayLine.RuleSet

/-- The lines of the rules in the order of their keys. -/
def render (s : RuleSet) : Text := s.toList.flatMap fun r => r.render ++ ['\n']

def read (content : Bytes) : Reading (DelayRule × Option Overruled) LineFault :=
  .ofContent DelayRule.ofLine content

def parse (content : Bytes) : Except (Rejected LineFault) RuleSet :=
  (read content).values.map fun rules => .ofList (rules.map Prod.fst)

/-- The overruled lines of a rule file, up to the first that is rejected. -/
def warnings (content : Bytes) : List (Nat × Overruled) :=
  (read content).entries.filterMap fun (line, _, overruled) => overruled.map (line, ·)

/-- The rules of a rule file in the order of its lines, up to the first that is rejected. -/
def rulesOf (content : Bytes) : List DelayRule := (read content).entries.map fun entry => entry.2.1

theorem parse_eq_ok_iff {content : Bytes} {s : RuleSet} :
    parse content = .ok s ↔ (read content).rejected = none ∧ .ofList (rulesOf content) = s := by
  rw [parse, Reading.map_values_eq_ok_iff, List.map_map]
  rfl

theorem parse_eq_error_iff {content : Bytes} {e : Rejected LineFault} :
    parse content = .error e ↔ (read content).rejected = some e :=
  Reading.map_values_eq_error_iff

end DelayLine.RuleSet
