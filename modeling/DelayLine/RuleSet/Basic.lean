import DelayLine.Ascending
import DelayLine.Rule.Basic

/-!
# Rule sets

A rule set holds at most one rule for each key, in the order of the keys. Main statements:
`get?_insert`, the last rule with a key is the one that counts, and `ext_get?`, rule sets that
answer alike are equal.
-/

namespace DelayLine

abbrev RuleSet := Ascending DelayRule fun r => r.key.rank

namespace RuleSet

def get? (s : RuleSet) (key : RuleKey) : Option DelayRule := s.find? key.rank

/-- The rule for every port of an address. -/
def wildcard? (s : RuleSet) (protocol : UInt8) (address : Address) : Option DelayRule :=
  s.get? ⟨protocol, address, 0⟩

/-- The rules of an address, by port. -/
def ports (s : RuleSet) (protocol : UInt8) (address : Address) : List DelayRule :=
  s.toList.filter fun r => r.key.protocol == protocol && r.key.endpoint.address == address

def hasProtocol (s : RuleSet) (protocol : UInt8) : Bool :=
  s.toList.any fun r => r.key.protocol == protocol

/-- The endpoints of the rules in ascending order, whatever their protocols. -/
def endpoints (s : RuleSet) : List Endpoint :=
  (Ascending.ofList (s.toList.map fun r => r.key.endpoint) : Ascending _ Endpoint.rank).toList

theorem get?_eq_some_iff {s : RuleSet} {key : RuleKey} {r : DelayRule} :
    s.get? key = some r ↔ r ∈ s.toList ∧ r.key = key := by
  rw [get?, Ascending.find?_eq_some_iff]
  exact and_congr_right fun _ => ⟨RuleKey.rank_injective, congrArg _⟩

theorem get?_insert (s : RuleSet) (r : DelayRule) (key : RuleKey) :
    get? (s.insert r) key = if r.key = key then some r else s.get? key := by
  rw [get?, Ascending.find?_insert]
  exact ite_congr (propext ⟨RuleKey.rank_injective, congrArg _⟩) (fun _ => rfl) fun _ => rfl

theorem mem_endpoints {s : RuleSet} {e : Endpoint} :
    e ∈ s.endpoints ↔ ∃ r ∈ s.toList, r.key.endpoint = e := by
  rw [← List.mem_map]
  constructor
  · intro h
    exact (Ascending.mem_extend h).resolve_left List.not_mem_nil
  · intro h
    obtain ⟨f, hf, hrank⟩ : ∃ f ∈ s.endpoints, f.rank = e.rank :=
      Ascending.exists_mem_extend .empty h
    exact Endpoint.rank_injective hrank ▸ hf

theorem ext_get? {s t : RuleSet} (h : ∀ key, s.get? key = t.get? key) : s = t := by
  refine Ascending.ext_mem fun r => ?_
  have := h r.key
  constructor
  · exact fun hr => (get?_eq_some_iff.1 (this ▸ get?_eq_some_iff.2 ⟨hr, rfl⟩)).1
  · exact fun hr => (get?_eq_some_iff.1 (this.symm ▸ get?_eq_some_iff.2 ⟨hr, rfl⟩)).1

end RuleSet

end DelayLine
