import DelayLine.RuleSet.File

/-!
# Rules by protocol, address and port

An index holds rules in three levels of maps: protocols, the addresses of a protocol and the ports
of an address. A rule is inserted at its own protocol, address and port, and the maps on the way to
it are made when they are missing. Main statements: `KeyMap.get?_put` and `RuleIndex.get?_insert`,
what is found behind an insertion.
-/

namespace DelayLine

/-- Keys that are ordered as numbers. -/
class Ranked (κ : Type) where
  rank : κ → Nat
  rank_injective : ∀ {k l : κ}, rank k = rank l → k = l

instance : Ranked UInt8 := ⟨UInt8.toNat, UInt8.toNat_inj.1⟩

instance : Ranked UInt16 := ⟨UInt16.toNat, UInt16.toNat_inj.1⟩

instance : Ranked Address := ⟨Address.number, Address.number_injective⟩

/-- One value for each of some keys, in ascending order of the keys. -/
abbrev KeyMap (κ β : Type) [Ranked κ] := Ascending (κ × β) fun entry => Ranked.rank entry.1

namespace KeyMap

variable {κ β : Type} [Ranked κ]

def get? (m : KeyMap κ β) (k : κ) : Option β := (m.find? (Ranked.rank k)).map Prod.snd

def put (m : KeyMap κ β) (k : κ) (v : β) : KeyMap κ β := m.insert (k, v)

def values (m : KeyMap κ β) : List β := m.toList.map Prod.snd

def keys (m : KeyMap κ β) : List κ := m.toList.map Prod.fst

theorem get?_eq_some_iff {m : KeyMap κ β} {k : κ} {v : β} :
    m.get? k = some v ↔ (k, v) ∈ m.toList := by
  simp only [get?, Option.map_eq_some_iff, Ascending.find?_eq_some_iff]
  constructor
  · rintro ⟨⟨l, w⟩, ⟨hmem, hrank⟩, rfl⟩
    exact Ranked.rank_injective hrank ▸ hmem
  · exact fun h => ⟨_, ⟨h, rfl⟩, rfl⟩

@[simp] theorem get?_empty (k : κ) : get? (.empty : KeyMap κ β) k = none := rfl

theorem get?_put [DecidableEq κ] (m : KeyMap κ β) (k l : κ) (v : β) :
    (m.put k v).get? l = if k = l then some v else m.get? l := by
  rw [get?, put, Ascending.find?_insert]
  by_cases h : k = l
  · rw [if_pos (congrArg Ranked.rank h), if_pos h, Option.map_some]
  · rw [if_neg fun hrank => h (Ranked.rank_injective hrank), if_neg h, get?]

theorem mem_values {m : KeyMap κ β} {v : β} : v ∈ m.values ↔ ∃ k, m.get? k = some v := by
  simp [values, get?_eq_some_iff]

theorem values_eq_nil_iff {m : KeyMap κ β} : m.values = [] ↔ m = .empty := by
  rw [values, List.map_eq_nil_iff, Ascending.ext_iff]
  rfl

theorem exists_get?_of_ne_empty {m : KeyMap κ β} (h : m ≠ .empty) : ∃ k v, m.get? k = some v := by
  obtain ⟨v, hv⟩ := List.exists_mem_of_ne_nil _ (mt values_eq_nil_iff.1 h)
  obtain ⟨k, hk⟩ := mem_values.1 hv
  exact ⟨k, v, hk⟩

theorem ext_get? {m n : KeyMap κ β} (h : ∀ k, m.get? k = n.get? k) : m = n := by
  refine Ascending.ext_mem fun entry => ?_
  rw [← get?_eq_some_iff, ← get?_eq_some_iff, h]

end KeyMap

abbrev PortRules := KeyMap UInt16 DelayRule

abbrev AddressRules := KeyMap Address PortRules

structure RuleIndex where
  rules : KeyMap UInt8 AddressRules
deriving DecidableEq

namespace RuleIndex

def empty : RuleIndex := ⟨.empty⟩

/-- Adds a rule and returns the one that it replaces. -/
def insert (t : RuleIndex) (r : DelayRule) : Option DelayRule × RuleIndex :=
  let addresses := (t.rules.get? r.key.protocol).getD .empty
  let ports := (addresses.get? r.key.endpoint.address).getD .empty
  (ports.get? r.key.endpoint.port,
    ⟨t.rules.put r.key.protocol
      (addresses.put r.key.endpoint.address (ports.put r.key.endpoint.port r))⟩)

def extend (t : RuleIndex) (rules : List DelayRule) : RuleIndex :=
  rules.foldl (fun t r => (t.insert r).2) t

def ofRules (rules : List DelayRule) : RuleIndex := empty.extend rules

/-- The index of the rules of a rule file. -/
def parse (content : Bytes) : Except (Rejected LineFault) RuleIndex :=
  (RuleSet.read content).values.map fun rules => .ofRules (rules.map Prod.fst)

/-- The rules of an address, by port. -/
def ports? (t : RuleIndex) (protocol : UInt8) (address : Address) : Option PortRules :=
  (t.rules.get? protocol).bind fun addresses => addresses.get? address

def get? (t : RuleIndex) (key : RuleKey) : Option DelayRule :=
  (t.ports? key.protocol key.endpoint.address).bind fun ports => ports.get? key.endpoint.port

def hasProtocol (t : RuleIndex) (protocol : UInt8) : Bool := (t.rules.get? protocol).isSome

/-- The rules in the order of the levels. -/
def toList (t : RuleIndex) : List DelayRule :=
  (t.rules.values.flatMap KeyMap.values).flatMap KeyMap.values

def size (t : RuleIndex) : Nat := t.toList.length

def isEmpty (t : RuleIndex) : Bool := t.rules.toList.isEmpty

/-- The endpoints of the rules, whatever their protocols: sorted, and one of each run of equals. -/
def endpoints (t : RuleIndex) : List Endpoint :=
  ((t.toList.map fun r => r.key.endpoint).mergeSort fun e f => e.rank ≤ f.rank).eraseReps

theorem ports?_eq_some_iff {t : RuleIndex} {protocol : UInt8} {address : Address}
    {ports : PortRules} : t.ports? protocol address = some ports ↔
      ∃ addresses, t.rules.get? protocol = some addresses ∧ addresses.get? address = some ports :=
  Option.bind_eq_some_iff

theorem fst_insert (t : RuleIndex) (r : DelayRule) : (t.insert r).1 = t.get? r.key := by
  unfold insert get? ports?
  cases t.rules.get? r.key.protocol with
  | none => rfl
  | some addresses => cases h : addresses.get? r.key.endpoint.address <;> simp [h]

theorem ports?_insert (t : RuleIndex) (r : DelayRule) (protocol : UInt8) (address : Address) :
    (t.insert r).2.ports? protocol address =
      if r.key.protocol = protocol ∧ r.key.endpoint.address = address then
        some (((t.ports? protocol address).getD .empty).put r.key.endpoint.port r)
      else t.ports? protocol address := by
  simp only [ports?, insert, KeyMap.get?_put]
  by_cases hp : r.key.protocol = protocol
  · subst hp
    by_cases ha : r.key.endpoint.address = address
    · subst ha
      cases t.rules.get? r.key.protocol <;> simp [KeyMap.get?_put]
    · cases t.rules.get? r.key.protocol <;> simp [KeyMap.get?_put, ha]
  · simp [hp]

theorem get?_insert (t : RuleIndex) (r : DelayRule) (key : RuleKey) :
    (t.insert r).2.get? key = if r.key = key then some r else t.get? key := by
  have hkey : r.key = key ↔ (r.key.protocol = key.protocol ∧
      r.key.endpoint.address = key.endpoint.address) ∧
        r.key.endpoint.port = key.endpoint.port := by
    obtain ⟨p, a, o⟩ := key
    rcases r.key with ⟨p', a', o'⟩
    simp [and_assoc]
  rw [get?, ports?_insert]
  split
  · next h =>
    rw [Option.bind_some, KeyMap.get?_put, get?]
    simp only [hkey, h, and_self, true_and]
    cases t.ports? key.protocol key.endpoint.address <;> rfl
  · next h => rw [if_neg fun heq => h (hkey.1 heq).1, get?]

end RuleIndex

end DelayLine
