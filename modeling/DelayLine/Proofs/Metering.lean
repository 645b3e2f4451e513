import Mathlib.Algebra.Order.BigOperators.Group.List
import DelayLine.Proofs.QueueRun
import DelayLine.Proofs.Traffic

/-!
# The books of a rule queue

A call either leaves the books of a rule queue alone, counts a packet that is too short, or counts
and classifies one that is not (`meters_step`). So all counts are exact up to the largest amount
(`metered_step`): the total is what was handed in, and the tally of an endpoint is what its TCP
rule matched among the packets that were taken.
-/

namespace DelayLine

open PacketQueue

def Call.packet? {σ : Type} : Call σ → Option Packet
  | enqueue p => some p
  | _ => none

def Event.packet? : Event → Option Packet
  | refused p _ => some p
  | taken a => some a.packet
  | _ => none

namespace Run

variable {Q σ : Type} {clock : Nat → Millis}

/-- The packets that were handed in, also those that were refused. -/
def offered (r : Run Q σ) : List Packet := r.history.filterMap Event.packet?

theorem offered_after [PacketQueue Q] (r : Run Q σ) (calls : List (Call σ)) :
    (r.after clock calls).offered = r.offered ++ calls.filterMap Call.packet? := by
  induction calls generalizing r with
  | nil => exact (List.append_nil _).symm
  | cons c calls ih =>
    have hstep : (r.step clock c).offered = r.offered ++ c.packet?.toList := by
      cases c with
      | enqueue p =>
        simp only [step]
        split <;> simp [offered, Event.packet?, Call.packet?]
      | drain sink => simp [step, offered, Event.packet?, Call.packet?]
      | wait => simp [step, offered, Event.packet?, Call.packet?]
    rw [after, List.foldl_cons, ← after, ih, hstep, List.filterMap_cons]
    cases c.packet? <;> simp

/-- The packets taken that count for an endpoint. -/
def metered (r : Run Q σ) (e : Endpoint) : List Arrival :=
  r.arrivals.filter fun a => a.verdict.matched = some ⟨6, e⟩ ∧ e.port ≠ 0

theorem metered_of_arrivals_append {r s : Run Q σ} {a : Arrival}
    (h : s.arrivals = r.arrivals ++ [a]) (e : Endpoint) :
    s.metered e = if a.verdict.matched = some ⟨6, e⟩ ∧ e.port ≠ 0 then r.metered e ++ [a]
      else r.metered e := by
  rw [metered, h, List.filter_append, List.filter_singleton]
  split_ifs with ha <;> simp [ha, metered]

variable {r s : Run RuleQueue σ}

/-- What one call can do to the books of a rule queue: nothing, count a packet that is too short,
or count and classify one that is not. -/
inductive Meters (r s : Run RuleQueue σ) : Prop
  | quiet (pending : ReleaseQueue) : s.queue = { r.queue with pending } →
      s.arrivals = r.arrivals → s.offered = r.offered → Meters r s
  | refuse (p : Packet) : p.length < minPacketLength →
      s.queue = { r.queue with totalBytes := satAdd r.queue.totalBytes p.size } →
      s.arrivals = r.arrivals → s.offered = r.offered ++ [p] → Meters r s
  | take (a : Arrival) (pending : ReleaseQueue) : minPacketLength ≤ a.packet.length →
      a.verdict = (r.queue.classifier.classify r.queue.counters a.packet).1 →
      s.queue = { r.queue with
        totalBytes := satAdd r.queue.totalBytes a.packet.size
        counters := (r.queue.classifier.classify r.queue.counters a.packet).2
        pending } →
      s.arrivals = r.arrivals ++ [a] → s.offered = r.offered ++ [a.packet] → Meters r s

theorem meters_step (clock : Nat → Millis) (r : Run RuleQueue σ) (c : Call σ) :
    Meters r (r.step clock c) := by
  cases c with
  | enqueue p =>
    by_cases hp : p.length < minPacketLength
    · have he : enqueue r.queue (clock r.readings) p = _ := RuleQueue.enqueue_of_lt hp r.queue _
      refine .refuse p hp ?_ ?_ ?_ <;>
        simp [step, he, arrivals, offered, Event.arrival?, Event.packet?]
    · have hp := Nat.not_lt.1 hp
      have he : enqueue r.queue (clock r.readings) p = _ := RuleQueue.enqueue_of_le hp r.queue _
      set v := (r.queue.classifier.classify r.queue.counters p).1
      refine .take ⟨p, clock r.readings, v⟩
        (r.queue.pending.push ⟨satAdd (clock r.readings) v.delay, p⟩) hp rfl ?_ ?_ ?_ <;>
        simp [step, he, v, arrivals, offered, Event.arrival?, Event.packet?]
  | drain sink =>
    exact .quiet _ rfl (by simp [step, arrivals, Event.arrival?])
      (by simp [step, offered, Event.packet?])
  | wait =>
    exact .quiet r.queue.pending rfl (by simp [step, arrivals, Event.arrival?])
      (by simp [step, offered, Event.packet?])

/-- The books of a rule queue agree with what has happened. -/
structure Metered (c : Classifier) (r : Run RuleQueue σ) : Prop where
  classifier : r.queue.classifier = c
  total : r.queue.totalBytes.toNat = min (r.offered.map List.length).sum maxAmount.toNat
  accepted : r.arrivals.map Arrival.packet = r.offered.filter fun p => minPacketLength ≤ p.length
  matched : ∀ a ∈ r.arrivals, ∀ key,
    a.verdict.matched = some key ↔ Matches c.rules c.direction a.packet key
  seeded : ∀ e, (∃ t, r.queue.counters.tally? e = some t) ↔ e ∈ c.rules.endpoints
  bytes : ∀ e, (r.queue.counters.tally e).bytes.toNat =
    min ((r.metered e).map fun a => a.packet.length).sum maxAmount.toNat
  packets : ∀ e, (r.queue.counters.tally e).packets.toNat =
    min (r.metered e).length maxAmount.toNat

theorem metered_start (rules : RuleSet) (direction : Direction) (config : LinkConfig) (state : σ) :
    Metered ⟨rules, direction, config.defaultDelay⟩
      { queue := RuleQueue.start rules direction config, state } where
  classifier := rfl
  total := rfl
  accepted := rfl
  matched := by simp [arrivals]
  seeded := Counters.exists_tally?_seeded_iff rules
  bytes e := by
    rw [RuleQueue.start, Counters.tally_seeded]
    rfl
  packets e := by
    rw [RuleQueue.start, Counters.tally_seeded]
    rfl

theorem metered_step {c : Classifier} (h : Metered c r) (hs : Meters r s) : Metered c s := by
  cases hs with
  | quiet pending hq ha ho =>
    have hm (e : Endpoint) : s.metered e = r.metered e := by rw [metered, ha, metered]
    constructor <;> simp only [hq, ha, ho, hm]
    exacts [h.classifier, h.total, h.accepted, h.matched, h.seeded, h.bytes, h.packets]
  | refuse p hp hq ha ho =>
    have hm (e : Endpoint) : s.metered e = r.metered e := by rw [metered, ha, metered]
    constructor <;> simp only [hq, ha, ho, hm]
    case total =>
      rw [List.map_append, List.sum_append, List.map_singleton, List.sum_singleton]
      exact p.toNat_satAdd_size_of_eq h.total
    case accepted =>
      rw [h.accepted, List.filter_append, List.filter_cons_of_neg (by simpa using hp),
        List.filter_nil, List.append_nil]
    exacts [h.classifier, h.matched, h.seeded, h.bytes, h.packets]
  | take a pending hp hv hq ha ho =>
    have hm := metered_of_arrivals_append ha
    obtain rfl := h.classifier
    constructor <;> simp only [hq, ha, ho]
    case total =>
      rw [List.map_append, List.sum_append, List.map_singleton, List.sum_singleton]
      exact a.packet.toNat_satAdd_size_of_eq h.total
    case accepted =>
      rw [List.map_append, h.accepted, List.filter_append,
        List.filter_cons_of_pos (by simpa using hp)]
      rfl
    case matched =>
      intro b hb key
      rcases List.mem_append.1 hb with hb | hb
      · exact h.matched b hb key
      · rw [List.mem_singleton.1 hb, hv]
        exact Classifier.matched_eq_some_iff
    case seeded => exact Classifier.exists_tally?_classify_iff h.seeded a.packet
    case bytes =>
      intro e
      rw [Classifier.tally_classify, hm, hv]
      split_ifs
      · rw [List.map_append, List.sum_append, List.map_singleton, List.sum_singleton]
        exact a.packet.toNat_satAdd_size_of_eq (h.bytes e)
      · exact h.bytes e
    case packets =>
      intro e
      rw [Classifier.tally_classify, hm, hv]
      split_ifs
      · rw [Tally.add, toNat_satAdd, h.packets, List.length_append, List.length_singleton]
        have : (1 : UInt64).toNat = 1 := rfl
        omega
      · exact h.packets e

theorem metered_after (clock : Nat → Millis) (rules : RuleSet) (direction : Direction)
    (config : LinkConfig) (state : σ) (calls : List (Call σ)) :
    Metered ⟨rules, direction, config.defaultDelay⟩
      (after clock { queue := RuleQueue.start rules direction config, state } calls) :=
  after_induction (metered_start rules direction config state)
    (fun _ call h => metered_step h (meters_step clock _ call)) calls

theorem Metered.sum_metered_le {c : Classifier} (h : Metered c r) (e : Endpoint) :
    ((r.metered e).map fun a => a.packet.length).sum ≤ (r.offered.map List.length).sum := by
  have hsub : List.Sublist ((r.metered e).map Arrival.packet) r.offered := by
    refine (List.filter_sublist.map _).trans ?_
    rw [h.accepted]
    exact List.filter_sublist
  have := (hsub.map List.length).sum_le_sum fun _ _ => Nat.zero_le _
  rwa [List.map_map] at this

theorem Metered.metered_eq_nil {c : Classifier} (h : Metered c r) {e : Endpoint}
    (he : e.port = 0 ∨ ¬c.rules.HasKey ⟨6, e⟩) : r.metered e = [] := by
  rw [metered, List.filter_eq_nil_iff]
  intro a ha hm
  obtain ⟨hm, hport⟩ := of_decide_eq_true hm
  exact he.elim hport fun hk => hk ((h.matched a ha _).1 hm).hasKey

end Run

theorem traffic_accounted {σ : Type} (clock : Nat → Millis) (rules : RuleSet)
    (direction : Direction) (config : LinkConfig) (state : σ) (calls : List (Call σ)) :
    let r := Run.after clock { queue := RuleQueue.start rules direction config, state } calls
    let offered := calls.filterMap Call.packet?
    r.queue.totalBytes.toNat = min (offered.map List.length).sum maxAmount.toNat ∧
    r.arrivals.map Arrival.packet = offered.filter (fun p => 20 ≤ p.length) ∧
    (∀ a ∈ r.arrivals, ∀ key,
      a.verdict.matched = some key ↔ Matches rules direction a.packet key) ∧
    (∀ now p, ((∃ fault, (r.queue.enqueue now p).1 = .error fault) ↔ p.length < 20) ∧
      (p.length < 20 → (r.queue.enqueue now p).2.pending = r.queue.pending ∧
        (r.queue.enqueue now p).2.counters = r.queue.counters)) ∧
    (∀ q ∈ rules.toList, ∃ t, r.queue.counters.tally? q.key.endpoint = some t ∧
      t.bytes.toNat =
        min ((r.metered q.key.endpoint).map fun a => a.packet.length).sum maxAmount.toNat ∧
      t.packets.toNat = min (r.metered q.key.endpoint).length maxAmount.toNat) ∧
    (∀ t ∈ r.queue.counters.toList, t.bytes ≤ r.queue.totalBytes ∧
      (t.endpoint.port = 0 ∨ ¬rules.HasKey ⟨6, t.endpoint⟩ → t.bytes = 0 ∧ t.packets = 0)) ∧
    ∀ sink, (r.step clock (.drain sink)).queue.totalBytes = r.queue.totalBytes ∧
      (r.step clock (.drain sink)).queue.counters = r.queue.counters := by
  intro r offered
  have h : Run.Metered ⟨rules, direction, config.defaultDelay⟩ r := Run.metered_after ..
  have ho : r.offered = offered := Run.offered_after ..
  have htally {e : Endpoint} {t : Tally} (ht : r.queue.counters.tally? e = some t) :
      r.queue.counters.tally e = t := by rw [Counters.tally, ht, Option.getD_some]
  refine ⟨ho ▸ h.total, ho ▸ h.accepted, h.matched, fun now p => ?_, fun q hq => ?_,
    fun t ht => ?_, fun sink => ⟨rfl, rfl⟩⟩
  · by_cases hp : p.length < 20
    · rw [RuleQueue.enqueue_of_lt hp]
      exact ⟨iff_of_true ⟨_, rfl⟩ hp, fun _ => ⟨rfl, rfl⟩⟩
    · rw [RuleQueue.enqueue_of_le (Nat.not_lt.1 hp)]
      exact ⟨iff_of_false (by simp) hp, fun h => absurd h hp⟩
  · obtain ⟨t, ht⟩ := (h.seeded q.key.endpoint).2 (RuleSet.mem_endpoints.2 ⟨q, hq, rfl⟩)
    exact ⟨t, ht, htally ht ▸ h.bytes _, htally ht ▸ h.packets _⟩
  · have ht := htally (Counters.tally?_eq_some_iff.2 ⟨ht, rfl⟩)
    have hbytes := h.bytes t.endpoint
    have hpackets := h.packets t.endpoint
    rw [ht] at hbytes hpackets
    constructor
    · have := h.sum_metered_le t.endpoint
      rw [UInt64.le_iff_toNat_le, hbytes, h.total]
      omega
    · intro he
      rw [h.metered_eq_nil he] at hbytes hpackets
      exact ⟨UInt64.toNat_inj.1 hbytes, UInt64.toNat_inj.1 hpackets⟩

/-- A packet over TCP, one over UDP to the same endpoint, and one that is too short. -/
example :
    let e : Endpoint := ⟨⟨10, 0, 0, 5⟩, 80⟩
    let rules := Ascending.ofList [.constant ⟨6, e⟩ 100 100, .constant ⟨17, e⟩ 7 7]
    let packet (protocol : UInt8) : Packet := [0, 0, 8, 0, 69, 0, 0, 24, 0, 0, 0, 0, 64, protocol,
      0, 0, 100, 64, 0, 2, 10, 0, 0, 5, 156, 64, 0, 80]
    let r := Run.after (fun _ => 0)
      { queue := RuleQueue.start rules .uplink { defaultDelay := 20 }, state := () }
      [.enqueue (packet 6), .enqueue (packet 17), .enqueue [1, 2]]
    r.queue.totalBytes = 58 ∧ r.queue.counters.toList = [⟨e, 28, 1⟩] ∧
      r.queue.pending.toList.map Pending.releaseAt = [7, 100] := by
  decide

end DelayLine
