import DelayLine.Amount
import DelayLine.Reading
import DelayLine.RuleSet.Basic

/-!
# Rules from measured round trips

A round-trip file lists one measured endpoint per line: address, port and the time of a round trip
in milliseconds. Blank lines are skipped. Each record becomes a TCP rule that gives half of the
scaled time to each direction, and a later record for the same endpoint replaces an earlier one.
-/

namespace DelayLine

/-- How measured times are scaled. -/
inductive Profile where
  | base
  | speed
deriving DecidableEq, Repr

namespace Profile

def parse? (t : Text) : Option Profile :=
  if t = "base".toList then some base
  else if t = "speed".toList then some speed
  else none

/-- The report on a name that is no profile's. -/
def unknownMessage (t : Text) : Text :=
  "unknown profile '".toList ++ t ++ "', expected 'base' or 'speed'".toList

def multiplier : Profile → Binary64
  | base => .ofFraction 1 1
  | speed => .ofFraction 33 100

end Profile

/-- The time in milliseconds of a round trip to an endpoint. -/
structure RoundTrip where
  endpoint : Endpoint
  time : Binary64
deriving DecidableEq

inductive RoundTripFault where
  | fieldCount (count : Nat)
  | address (token : Text)
  | port (token : Text)
  | time (token : Text)
deriving DecidableEq, Repr

namespace RoundTripFault

def reason : RoundTripFault → Text
  | fieldCount count => "expected 3 fields, found ".toList ++ Numeral.render count
  | address token => "invalid address '".toList ++ token ++ ['\'']
  | port token => "invalid port '".toList ++ token ++ ['\'']
  | time token => "invalid rtt '".toList ++ token ++ ['\'']

def message (line : Nat) (fault : RoundTripFault) : Text :=
  "failed to parse RTT record #".toList ++ Numeral.render line ++ ": ".toList ++ fault.reason

end RoundTripFault

namespace RoundTrip

/-- The delay of one direction: the time rounded up to milliseconds, scaled, halved, and rounded to
the nearest millisecond. -/
def delay (profile : Profile) (r : RoundTrip) : Millis :=
  (r.time.ceil * profile.multiplier * .ofFraction 1 2).roundEven.toAmount

def toRule (profile : Profile) (r : RoundTrip) : DelayRule :=
  .constant ⟨Protocol.tcp, r.endpoint⟩ (r.delay profile) (r.delay profile)

def rules (profile : Profile) (rs : List RoundTrip) : RuleSet := .ofList (rs.map (toRule profile))

def port? (t : Text) : Option UInt16 :=
  (Numeral.unsigned? t).bind fun n => if n < UInt16.size then some (UInt16.ofNat n) else none

/-- Reads the fields of a line, which has no record if it is blank. -/
def ofTokens : List Text → Except RoundTripFault (Option RoundTrip)
  | [] => pure none
  | [address, port, time] => do
    let a ← (Address.parse? address).elim (throw (.address address)) pure
    let p ← (port? port).elim (throw (.port port)) pure
    let t ← (nonneg? time).elim (throw (.time time)) pure
    return some ⟨⟨a, p⟩, t⟩
  | tokens => throw (.fieldCount tokens.length)

def ofLine (line : Text) : Except RoundTripFault (Option RoundTrip) := ofTokens (Text.fields line)

def parse (content : Bytes) : Except (Rejected RoundTripFault) (List RoundTrip) :=
  (Reading.ofContent ofLine content).values.map fun records => records.filterMap id

theorem parse_eq_ok_iff {content : Bytes} {rs : List RoundTrip} :
    parse content = .ok rs ↔ (Reading.ofContent ofLine content).rejected = none ∧
      ((Reading.ofContent ofLine content).entries.map Prod.snd).filterMap id = rs :=
  Reading.map_values_eq_ok_iff

theorem parse_eq_error_iff {content : Bytes} {e : Rejected RoundTripFault} :
    parse content = .error e ↔ (Reading.ofContent ofLine content).rejected = some e :=
  Reading.map_values_eq_error_iff

end RoundTrip

end DelayLine
