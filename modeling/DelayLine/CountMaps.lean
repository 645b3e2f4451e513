import DelayLine.Classifier
import DelayLine.RuleSet.Index

/-!
# Counts in two maps

The bytes and the packets of endpoints can be counted in a map each, where an endpoint gets its
entries when it is first counted. Main statements: `Counters.maps_seeded` and
`Counters.record_maps`, two maps count what tallies count.
-/

namespace DelayLine

instance : Ranked Endpoint := ⟨Endpoint.rank, Endpoint.rank_injective⟩

abbrev CountMap := KeyMap Endpoint UInt64

/-- Adds to the count of an endpoint, and returns the count before: zero if there was none. -/
def CountMap.add (m : CountMap) (e : Endpoint) (n : UInt64) : UInt64 × CountMap :=
  let before := (m.get? e).getD 0
  (before, m.put e (satAdd before n))

structure CountMaps where
  bytes : CountMap
  packets : CountMap
deriving DecidableEq

namespace CountMaps

def empty : CountMaps := ⟨.empty, .empty⟩

/-- Zero counts for the endpoints of a rule set. -/
def seeded (rules : RuleSet) : CountMaps :=
  let zeros : CountMap := .ofList (rules.endpoints.map fun e => (e, 0))
  ⟨zeros, zeros⟩

/-- Counts a packet of an endpoint, and returns the number of its bytes before. -/
def record (m : CountMaps) (e : Endpoint) (size : UInt64) : UInt64 × CountMaps :=
  let (before, bytes) := CountMap.add m.bytes e size
  let (_, packets) := CountMap.add m.packets e 1
  (before, ⟨bytes, packets⟩)

end CountMaps

namespace Counters

/-- One number of each tally. -/
def countMap (count : Tally → UInt64) (c : Counters) : CountMap where
  toList := c.toList.map fun t => (t.endpoint, count t)
  ascending := by
    rw [List.pairwise_map]
    exact c.ascending

def maps (c : Counters) : CountMaps := ⟨c.countMap Tally.bytes, c.countMap Tally.packets⟩

variable (count : Tally → UInt64) (c : Counters) (e : Endpoint) (size : UInt64)

theorem toList_countMap :
    (c.countMap count).toList = c.toList.map fun t => (t.endpoint, count t) := rfl

theorem get?_countMap : (c.countMap count).get? e = (c.tally? e).map count := by
  refine Option.ext fun n => ?_
  simp only [KeyMap.get?_eq_some_iff, Option.map_eq_some_iff, tally?_eq_some_iff, countMap,
    List.mem_map, Prod.mk.injEq, and_assoc]

theorem countMap_record : (c.record e size).countMap count =
    (c.countMap count).put e (count ((c.tally e).add size)) := by
  refine KeyMap.ext_get? fun f => ?_
  rw [get?_countMap, tally?_record, KeyMap.get?_put, get?_countMap]
  split <;> rfl

/-- Counts a packet of an endpoint, and returns the number of its bytes before. -/
def meter : UInt64 × Counters := ((c.tally e).bytes, c.record e size)

theorem record_maps : c.maps.record e size = (c.meter e size).map id maps := by
  have hbytes : ((c.countMap Tally.bytes).get? e).getD 0 = (c.tally e).bytes := by
    rw [get?_countMap, bytes_tally]
    cases c.tally? e <;> rfl
  have hpackets : ((c.countMap Tally.packets).get? e).getD 0 = (c.tally e).packets := by
    rw [get?_countMap, packets_tally]
    cases c.tally? e <;> rfl
  simp only [meter, Prod.map_apply, maps, countMap_record, CountMaps.record, CountMap.add, hbytes,
    hpackets]
  rfl

theorem maps_empty : maps .empty = .empty := rfl

theorem maps_seeded (rules : RuleSet) : maps (seeded rules) = .seeded rules := by
  have hzeros : (Ascending.ofList (rules.endpoints.map fun e => (e, 0)) : CountMap).toList =
      rules.endpoints.map fun e => (e, 0) :=
    Ascending.toList_ofList (List.pairwise_map.2 (Ascending.ascending _))
  have hmap {count : Tally → UInt64} (h : ∀ e, count { endpoint := e } = 0) :
      countMap count (seeded rules) = .ofList (rules.endpoints.map fun e => (e, 0)) := by
    refine Ascending.ext ?_
    rw [hzeros, toList_countMap, toList_seeded, List.map_map]
    exact List.map_congr_left fun e _ => congrArg _ (h e)
  rw [maps, hmap fun _ => rfl, hmap fun _ => rfl]
  rfl

end Counters

namespace Classifier

variable {γ : Type} (record : γ → Endpoint → UInt64 → UInt64 × γ)

/-- The verdict on a packet and the counts behind it, where `record` counts a packet and returns the
number of bytes before it. -/
def classifyWith (c : Classifier) (counts : γ) (p : Packet) : Verdict × γ :=
  match c.rule? p with
  | none => (⟨c.defaultDelay, none⟩, counts)
  | some r =>
    let schedule := r.schedule c.direction
    if r.isMetered then
      let (before, counts) := record counts r.key.endpoint p.size
      (⟨schedule.after before, some r.key⟩, counts)
    else (⟨schedule.base, some r.key⟩, counts)

/-- The verdicts on packets that are classified in order, and the counts behind them. -/
def runWith (c : Classifier) : γ → List Packet → List Verdict × γ
  | counts, [] => ([], counts)
  | counts, p :: packets =>
    let (v, next) := c.classifyWith record counts p
    let (vs, last) := runWith c next packets
    (v :: vs, last)

theorem classify_eq_classifyWith (c : Classifier) (counters : Counters) (p : Packet) :
    c.classify counters p = c.classifyWith Counters.meter counters p :=
  rfl

end Classifier

end DelayLine
