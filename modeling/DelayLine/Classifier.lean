import DelayLine.Counters
import DelayLine.Packet

/-!
# Classification

A classifier finds the rule for each packet of one direction of a link, by the protocol, the remote
address and the remote port. A rule for every port of the address comes before a rule for the port.
Main statement: `mem_of_rule?_eq_some`, the rule found is one of the rule set.
-/

namespace DelayLine

/-- The delay of a packet, and the key of the rule it comes from. -/
structure Verdict where
  delay : Millis
  matched : Option RuleKey
deriving DecidableEq, Repr

/-- A packet of an unexpected version: the version, the byte in the place of the protocol number
and the length. -/
structure Unexpected where
  version : UInt8
  sentinel : Option UInt8
  length : Nat
deriving DecidableEq, Repr

/-- What classifying a packet warns of: a packet that is not IPv4 is expected to have 6 in the place
of the protocol number. -/
def Packet.unexpected? (p : Packet) : Option Unexpected :=
  match p.version with
  | .error _ => none
  | .ok version =>
    if version = 4 ∨ p.protocolByte? = some 6 then none
    else some ⟨version, p.protocolByte?, p.length⟩

/-- TCP rules for a single port count the traffic they match. -/
def DelayRule.isMetered (r : DelayRule) : Bool := r.key.protocol == Protocol.tcp && !r.isWildcard

/-- What decides on the delays of one direction. -/
structure Classifier where
  rules : RuleSet
  direction : Direction
  defaultDelay : Millis
deriving DecidableEq

namespace Classifier

/-- The rule for the traffic that a header and the ports behind it belong to. -/
def ruleFor? (c : Classifier) (p : Packet) (h : Header) : Option DelayRule :=
  let address := h.remote c.direction
  (c.rules.wildcard? h.protocol address).or <|
    match p.ports h with
    | .error _ => none
    | .ok ports => c.rules.get? ⟨h.protocol, address, ports.remote c.direction⟩

def rule? (c : Classifier) (p : Packet) : Option DelayRule :=
  match p.version, p.header with
  | .ok 4, .ok h => c.ruleFor? p h
  | _, _ => none

/-- The verdict on a packet, and the counters behind it. -/
def classify (c : Classifier) (counters : Counters) (p : Packet) : Verdict × Counters :=
  match c.rule? p with
  | none => (⟨c.defaultDelay, none⟩, counters)
  | some r =>
    let schedule := r.schedule c.direction
    let e := r.key.endpoint
    if r.isMetered then
      (⟨schedule.after (counters.tally e).bytes, some r.key⟩, counters.record e p.size)
    else (⟨schedule.base, some r.key⟩, counters)

theorem mem_of_rule?_eq_some {c : Classifier} {p : Packet} {r : DelayRule}
    (h : c.rule? p = some r) : r ∈ c.rules.toList := by
  unfold rule? at h
  split at h
  · rw [ruleFor?, Option.or_eq_some_iff] at h
    rcases h with h | ⟨-, h⟩
    · exact (RuleSet.get?_eq_some_iff.1 h).1
    · split at h
      · simp at h
      · exact (RuleSet.get?_eq_some_iff.1 h).1
  · simp at h

end Classifier

end DelayLine
