import DelayLine.RuleSet.Basic

/-!
# Rule tables

A rule set as a table for people: one numbered line for each rule, numbers at the right of their
columns, and a star for a port that stands for all ports and for a threshold that is never reached.
-/

namespace DelayLine

def Numeral.column (width n : Nat) : Text := Text.alignRight width (Numeral.render n)

/-- A threshold at the right end of a column, a star if there is none. -/
def Switch.limitColumn (s : Switch) : Text :=
  Text.alignRight 10 (if s.threshold = maxAmount then ['*'] else Numeral.render s.threshold.toNat)

/-- A delay with its unit, at the right end of a column. -/
def Numeral.millis (delay : Millis) : Text := Numeral.column 5 delay.toNat ++ "ms".toList

def Switch.cells (mark : Char) (s : Switch) : Text :=
  mark :: '@' :: s.limitColumn ++ ' ' :: Numeral.millis s.alternate

/-- The port at the right end of a column, a star if it stands for all ports. -/
def DelayRule.portColumn (r : DelayRule) : Text :=
  Text.alignRight 5
    (if r.isWildcard then ['*'] else Numeral.render r.key.endpoint.port.toNat)

def DelayRule.tableLine (number : Nat) (r : DelayRule) : Text :=
  let address := r.key.endpoint.address
  "#- Rule#".toList ++ (Numeral.render number).leftpad 3 '0' ++ "  ".toList ++
    Numeral.column 3 r.key.protocol.toNat ++ ' ' :: Text.alignRight 15 address.render ++
    '(' :: Numeral.column 10 address.number ++ ") ".toList ++ r.portColumn ++
    ' ' :: Numeral.millis r.forward.base ++ ' ' :: Numeral.millis r.reverse.base ++
    "   ".toList ++ r.forward.switch.cells 'F' ++
    "   ".toList ++ r.reverse.switch.cells 'B'

namespace RuleSet

/-- The lines of rules that are numbered from `first`. -/
def tableFrom : Nat → List DelayRule → Text
  | _, [] => []
  | first, r :: rs => r.tableLine first ++ '\n' :: tableFrom (first + 1) rs

def table (s : RuleSet) : Text := tableFrom 1 s.toList

end RuleSet

end DelayLine
