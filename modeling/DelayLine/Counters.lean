import DelayLine.RuleSet.Basic

/-!
# Connection counters

Counters keep a tally for each endpoint, in the order of endpoints: the bytes and the packets of the
traffic matched by the rules for the endpoint. Main statement: `tally?_record`, what a packet
changes.
-/

namespace DelayLine

/-- The traffic of an endpoint in one direction. -/
structure Tally where
  endpoint : Endpoint
  bytes : UInt64 := 0
  packets : UInt64 := 0
deriving DecidableEq, Repr

def Tally.add (t : Tally) (size : UInt64) : Tally :=
  { t with bytes := satAdd t.bytes size, packets := satAdd t.packets 1 }

@[simp] theorem Tally.endpoint_add (t : Tally) (size : UInt64) :
    (t.add size).endpoint = t.endpoint := rfl

abbrev Counters := Ascending Tally fun t => t.endpoint.rank

namespace Counters

def tally? (c : Counters) (e : Endpoint) : Option Tally := c.find? e.rank

/-- The tally of an endpoint, which is zero if there is none. -/
def tally (c : Counters) (e : Endpoint) : Tally := (c.tally? e).getD { endpoint := e }

/-- Zero tallies for the endpoints of a rule set. -/
def seeded (rules : RuleSet) : Counters :=
  .ofList (rules.endpoints.map fun e => { endpoint := e })

def record (c : Counters) (e : Endpoint) (size : UInt64) : Counters :=
  c.insert ((c.tally e).add size)

theorem tally?_eq_some_iff {c : Counters} {e : Endpoint} {t : Tally} :
    c.tally? e = some t ↔ t ∈ c.toList ∧ t.endpoint = e := by
  rw [tally?, Ascending.find?_eq_some_iff]
  exact and_congr_right fun _ => ⟨Endpoint.rank_injective, congrArg _⟩

theorem toList_seeded (rules : RuleSet) :
    (seeded rules).toList = rules.endpoints.map fun e => { endpoint := e } :=
  Ascending.toList_ofList (List.pairwise_map.2 (Ascending.ascending _))

theorem tally?_seeded_of_mem {rules : RuleSet} {e : Endpoint} (he : e ∈ rules.endpoints) :
    (seeded rules).tally? e = some { endpoint := e } := by
  rw [tally?_eq_some_iff, toList_seeded]
  exact ⟨List.mem_map_of_mem he, rfl⟩

@[simp] theorem endpoint_tally (c : Counters) (e : Endpoint) : (c.tally e).endpoint = e := by
  unfold tally
  cases h : c.tally? e with
  | none => rfl
  | some t => exact (tally?_eq_some_iff.1 h).2

theorem bytes_tally (c : Counters) (e : Endpoint) :
    (c.tally e).bytes = (c.tally? e).elim 0 Tally.bytes := by
  unfold tally
  cases c.tally? e <;> rfl

theorem packets_tally (c : Counters) (e : Endpoint) :
    (c.tally e).packets = (c.tally? e).elim 0 Tally.packets := by
  unfold tally
  cases c.tally? e <;> rfl

theorem tally?_record (c : Counters) (e f : Endpoint) (size : UInt64) :
    (c.record e size).tally? f = if e = f then some ((c.tally e).add size) else c.tally? f := by
  rw [tally?, record, Ascending.find?_insert, Tally.endpoint_add, endpoint_tally]
  exact ite_congr (propext ⟨Endpoint.rank_injective, congrArg _⟩) (fun _ => rfl) fun _ => rfl

/-- One line for each endpoint. -/
def renderBy (count : Tally → UInt64) (c : Counters) : Text :=
  c.toList.flatMap fun t =>
    t.endpoint.render ++ ' ' :: Numeral.render (count t).toNat ++ ['\n']

end Counters

end DelayLine
