import DelayLine.Saturating
import DelayLine.Address

/-!
# Delay rules

A rule gives the delays of one endpoint under one protocol: a schedule for the traffic that leaves
towards the endpoint and one for the traffic that returns. Main statements: `RuleKey.rank_injective`
and `Endpoint.rank_injective`, keys and endpoints are ordered as numbers, and `Schedule.after_of_lt`
with `Schedule.after_of_le`, when a schedule switches.
-/

namespace DelayLine

/-- The direction of traffic, seen from the emulated host. -/
inductive Direction where
  | uplink
  | downlink
deriving DecidableEq, Repr

namespace Direction

def name : Direction → Text
  | uplink => "uplink".toList
  | downlink => "downlink".toList

end Direction

namespace Protocol

def tcp : UInt8 := 6

def udp : UInt8 := 17

end Protocol

structure Endpoint where
  address : Address
  port : UInt16
deriving DecidableEq, Repr

namespace Endpoint

/-- Endpoints are ordered by address, then by port. -/
def rank (e : Endpoint) : Nat := e.address.number * 65536 + e.port.toNat

theorem rank_lt (e : Endpoint) : e.rank < 281474976710656 := by
  have ha := e.address.number_lt
  have hp := e.port.toNat_lt
  unfold rank
  omega

theorem rank_injective {e f : Endpoint} (h : e.rank = f.rank) : e = f := by
  have he := e.port.toNat_lt
  have hf := f.port.toNat_lt
  unfold rank at h
  obtain ⟨a, p⟩ := e
  obtain ⟨b, q⟩ := f
  have ha : a = b := Address.number_injective (by simp only at h he hf; omega)
  have hp : p = q := UInt16.toNat_inj.1 (by simp only at h he hf; omega)
  rw [ha, hp]

theorem rank_lt_iff {e f : Endpoint} : e.rank < f.rank ↔
    e.address.number < f.address.number ∨ e.address = f.address ∧ e.port < f.port := by
  have he := e.port.toNat_lt
  have hf := f.port.toNat_lt
  unfold rank
  rw [UInt16.lt_iff_toNat_lt]
  constructor
  · intro h
    rcases Nat.lt_trichotomy e.address.number f.address.number with hlt | heq | hgt
    · exact .inl hlt
    · exact .inr ⟨Address.number_injective heq, by omega⟩
    · omega
  · rintro (hlt | ⟨heq, hlt⟩)
    · omega
    · rw [heq]
      omega

def render (e : Endpoint) : Text := e.address.render ++ ':' :: Numeral.render e.port.toNat

end Endpoint

structure RuleKey where
  protocol : UInt8
  endpoint : Endpoint
deriving DecidableEq, Repr

namespace RuleKey

/-- Keys are ordered by protocol, then by endpoint. -/
def rank (k : RuleKey) : Nat := k.protocol.toNat * 281474976710656 + k.endpoint.rank

theorem rank_injective {k l : RuleKey} (h : k.rank = l.rank) : k = l := by
  have hk := k.endpoint.rank_lt
  have hl := l.endpoint.rank_lt
  unfold rank at h
  obtain ⟨p, e⟩ := k
  obtain ⟨q, f⟩ := l
  have hp : p = q := UInt8.toNat_inj.1 (by simp only at h hk hl; omega)
  have he : e = f := Endpoint.rank_injective (by simp only at h hk hl; omega)
  rw [hp, he]

def render (k : RuleKey) : Text := Numeral.render k.protocol.toNat ++ '/' :: k.endpoint.render

end RuleKey

/-- The point where the delay of a connection changes: a connection that has carried `threshold`
bytes is delayed by `alternate`. -/
structure Switch where
  threshold : UInt64
  alternate : Millis
deriving DecidableEq, Repr

structure Schedule where
  base : Millis
  switch : Switch := ⟨maxAmount, base⟩
deriving DecidableEq, Repr

namespace Schedule

/-- The schedule without a threshold: one delay for all traffic. -/
def constant (delay : Millis) : Schedule := { base := delay }

theorem eq_constant_iff {s : Schedule} :
    s = .constant s.base ↔ s.switch = ⟨maxAmount, s.base⟩ := by
  obtain ⟨base, switch⟩ := s
  simp [constant]

/-- The delay of a packet on a connection that has carried `carried` bytes before it. -/
def after (s : Schedule) (carried : UInt64) : Millis :=
  if carried < s.switch.threshold then s.base else s.switch.alternate

theorem after_of_lt {s : Schedule} {carried : UInt64} (h : carried < s.switch.threshold) :
    s.after carried = s.base :=
  if_pos h

theorem after_of_le {s : Schedule} {carried : UInt64} (h : s.switch.threshold ≤ carried) :
    s.after carried = s.switch.alternate :=
  if_neg (UInt64.not_lt.2 h)

theorem after_mono {s : Schedule} (h : s.base ≤ s.switch.alternate) {m n : UInt64}
    (hmn : m ≤ n) : s.after m ≤ s.after n := by
  by_cases hn : n < s.switch.threshold
  · rw [after_of_lt hn, after_of_lt (UInt64.lt_of_le_of_lt hmn hn)]
    exact UInt64.le_refl _
  · rw [after_of_le (UInt64.not_lt.1 hn), after]
    split
    · exact h
    · exact UInt64.le_refl _

@[simp] theorem after_constant (delay : Millis) (carried : UInt64) :
    (constant delay).after carried = delay :=
  ite_self _

end Schedule

/-- The delays of one endpoint: `forward` for traffic towards it, `reverse` for traffic from it. -/
structure DelayRule where
  key : RuleKey
  forward : Schedule
  reverse : Schedule
deriving DecidableEq, Repr

namespace DelayRule

def constant (key : RuleKey) (forward reverse : Millis) : DelayRule :=
  ⟨key, .constant forward, .constant reverse⟩

/-- A rule for port 0 applies to every port of its address. -/
def isWildcard (r : DelayRule) : Bool := r.key.endpoint.port == 0

def schedule (r : DelayRule) : Direction → Schedule
  | .uplink => r.forward
  | .downlink => r.reverse

end DelayRule

end DelayLine
