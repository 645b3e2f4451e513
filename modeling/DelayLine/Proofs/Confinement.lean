import DelayLine.Proofs.Comparison

/-!
# What a new rule can change

A rule concerns the packets of its own protocol and remote address. Every other packet finds the
rule that it found before the new one was there (`Classifier.rule?_insert`), and what a packet that
the rule concerns adds is counted at its own address, if it is a rule for TCP. So the other packets
get the verdicts they got before, and the tallies of other addresses stay what they were, over all
runs.
-/

namespace DelayLine

/-- The packet decodes as IPv4, with the protocol of the key and its address as the remote one. -/
def Packet.Concerns (p : Packet) (direction : Direction) (key : RuleKey) : Prop :=
  p.version = .ok 4 ∧ ∃ h, p.header = .ok h ∧ h.protocol = key.protocol ∧
    h.remote direction = key.endpoint.address

theorem Packet.Concerns.key_eq {p : Packet} {direction : Direction} {k l : RuleKey}
    (hk : p.Concerns direction k) (hl : p.Concerns direction l) :
    l.protocol = k.protocol ∧ l.endpoint.address = k.endpoint.address := by
  obtain ⟨-, h, hh, hproto, haddress⟩ := hk
  obtain ⟨-, h', hh', hproto', haddress'⟩ := hl
  cases hh.symm.trans hh'
  exact ⟨hproto'.symm.trans hproto, haddress'.symm.trans haddress⟩

theorem RuleSet.mem_endpoints_insert {s : RuleSet} {r : DelayRule} {e : Endpoint} :
    e ∈ RuleSet.endpoints (s.insert r) ↔ e = r.key.endpoint ∨ e ∈ s.endpoints := by
  have hself : r ∈ (s.insert r).toList :=
    (get?_eq_some_iff.1 ((get?_insert s r r.key).trans (if_pos rfl))).1
  rw [mem_endpoints, mem_endpoints]
  constructor
  · rintro ⟨q, hq, rfl⟩
    rcases Ascending.mem_place hq with rfl | hq
    · exact .inl rfl
    · exact .inr ⟨q, hq, rfl⟩
  · rintro (rfl | ⟨q, hq, rfl⟩)
    · exact ⟨r, hself, rfl⟩
    · by_cases hk : r.key = q.key
      · exact ⟨r, hself, by rw [hk]⟩
      · have hget := get?_insert s r q.key
        rw [if_neg hk, get?_eq_some_iff.2 ⟨hq, rfl⟩] at hget
        exact ⟨q, (get?_eq_some_iff.1 hget).1, rfl⟩

/-- The connections that rules for the host of a key do not count. -/
def RuleKey.Spares (key : RuleKey) (e : Endpoint) : Prop :=
  key.protocol ≠ 6 ∨ e.address ≠ key.endpoint.address

namespace Classifier

theorem ruleFor?_insert {c : Classifier} {r : DelayRule} {p : Packet} {h : Header}
    (hr : h.protocol = r.key.protocol → h.remote c.direction ≠ r.key.endpoint.address) :
    { c with rules := c.rules.insert r }.ruleFor? p h = c.ruleFor? p h := by
  have hget (port : UInt16) : RuleSet.get? (c.rules.insert r)
      ⟨h.protocol, h.remote c.direction, port⟩ =
      c.rules.get? ⟨h.protocol, h.remote c.direction, port⟩ := by
    rw [RuleSet.get?_insert, if_neg]
    intro hk
    rw [hk] at hr
    exact hr rfl rfl
  simp only [ruleFor?, RuleSet.wildcard?, hget]

theorem rule?_insert {c : Classifier} {r : DelayRule} {p : Packet}
    (h : ¬p.Concerns c.direction r.key) :
    { c with rules := c.rules.insert r }.rule? p = c.rule? p := by
  unfold rule?
  split
  · next header hv hh => exact ruleFor?_insert fun hp ha => h ⟨hv, header, hh, hp, ha⟩
  · rfl

theorem concerns_of_rule? {c : Classifier} {p : Packet} {r : DelayRule}
    (hr : c.rule? p = some r) : p.Concerns c.direction r.key := by
  unfold rule? at hr
  split at hr
  · next h hv hh =>
    simp only [ruleFor?, RuleSet.wildcard?, Option.or_eq_some_iff] at hr
    rcases hr with hr | ⟨-, hr⟩
    · rw [(RuleSet.get?_eq_some_iff.1 hr).2]
      exact ⟨hv, h, hh, rfl, rfl⟩
    · split at hr
      · cases hr
      · rw [(RuleSet.get?_eq_some_iff.1 hr).2]
        exact ⟨hv, h, hh, rfl, rfl⟩
  · cases hr

/-- A packet that a rule concerns counts for none of the connections that the rule spares. -/
theorem matched_ne_of_concerns {c : Classifier} {p : Packet} {key : RuleKey}
    (hp : p.Concerns c.direction key) {e : Endpoint} (he : key.Spares e) :
    (c.rule? p).map DelayRule.key ≠ some ⟨6, e⟩ := by
  intro h
  obtain ⟨r, hr, hk⟩ := Option.map_eq_some_iff.1 h
  obtain ⟨hproto, haddress⟩ := hp.key_eq (concerns_of_rule? hr)
  rw [hk] at hproto haddress
  exact he.elim (· hproto.symm) (· haddress)

variable (c : Classifier) (r : DelayRule) (packets : List Packet)

theorem agreeOn_insert :
    Counters.AgreeOn r.key.Spares (c.countersAfter (.seeded c.rules) packets)
      ({ c with rules := c.rules.insert r }.countersAfter (.seeded (c.rules.insert r))
        packets) := by
  refine agreeOn_countersAfter (fun p e he => ?_) (Counters.agreeOn_seeded _ _ _) packets
  by_cases hp : p.Concerns c.direction r.key
  · let c' : Classifier := { c with rules := c.rules.insert r }
    have hp' : p.Concerns c'.direction r.key := hp
    exact iff_of_false (matched_ne_of_concerns hp' he) (matched_ne_of_concerns hp he)
  · rw [rule?_insert hp]

theorem verdict_insert {p : Packet} (h : ¬p.Concerns c.direction r.key) {a b : Counters}
    (hab : Counters.AgreeOn r.key.Spares a b) :
    ({ c with rules := c.rules.insert r }.classify b p).1 = (c.classify a p).1 := by
  refine verdict_congr (rule?_insert h) fun q hq hm => hab _ ?_
  obtain ⟨hproto, -⟩ := DelayRule.isMetered_iff.1 hm
  obtain ⟨hv, header, hh, hp, ha⟩ := concerns_of_rule? hq
  by_contra hn
  obtain ⟨hsix, heq⟩ := not_or.1 hn
  rw [ne_eq, not_not] at hsix heq
  exact h ⟨hv, header, hh, by rw [hp, hproto, hsix], by rw [ha, heq]⟩

theorem tally?_insert {e : Endpoint} (he : e.address ≠ r.key.endpoint.address) :
    ({ c with rules := c.rules.insert r }.countersAfter (.seeded (c.rules.insert r))
      packets).tally? e = (c.countersAfter (.seeded c.rules) packets).tally? e := by
  refine Counters.tally?_congr ?_ (agreeOn_insert c r packets e (.inr he)).symm
  rw [exists_tally?_countersAfter_iff (Counters.exists_tally?_seeded_iff _),
    exists_tally?_countersAfter_iff (Counters.exists_tally?_seeded_iff _),
    RuleSet.mem_endpoints_insert, or_iff_right]
  rintro rfl
  exact he rfl

end Classifier

theorem rule_confined (s : RuleSet) (r : DelayRule) (direction : Direction)
    (defaultDelay : Millis) (packets : List Packet) :
    let c : Classifier := ⟨s, direction, defaultDelay⟩
    let c' : Classifier := ⟨s.insert r, direction, defaultDelay⟩
    (∀ (i : Nat) (p : Packet), packets[i]? = some p → ¬p.Concerns direction r.key →
      ∃ v, (c.verdicts (.seeded s) packets)[i]? = some v ∧
        (c'.verdicts (.seeded (s.insert r)) packets)[i]? = some v) ∧
    ∀ e : Endpoint, e.address ≠ r.key.endpoint.address →
      (c'.countersAfter (.seeded (s.insert r)) packets).tally? e =
        (c.countersAfter (.seeded s) packets).tally? e := by
  intro c c'
  refine ⟨fun i p hi hp => ?_, fun e he => c.tally?_insert r packets he⟩
  simp only [Classifier.getElem?_verdicts, hi, Option.map_some]
  exact ⟨_, rfl, congrArg some (c.verdict_insert r hp (c.agreeOn_insert r (packets.take i)))⟩

/-- A rule for every UDP port of a host whose TCP traffic is counted, and packets of both kinds. -/
theorem rule_confined_of_same_host :
    let e : Endpoint := ⟨⟨10, 0, 0, 5⟩, 80⟩
    let s : RuleSet := .ofList [⟨⟨6, e⟩, ⟨100, ⟨40, 5000⟩⟩, .constant 50⟩, .constant ⟨17, e⟩ 8 8,
      .constant ⟨6, ⟨10, 0, 0, 6⟩, 80⟩ 9 9]
    let r : DelayRule := .constant ⟨17, ⟨e.address, 0⟩⟩ 7 7
    let packet (protocol : UInt8) : Packet := [0, 0, 8, 0, 69, 0, 0, 24, 0, 0, 0, 0, 64, protocol,
      0, 0, 100, 64, 0, 2, 10, 0, 0, 5, 156, 64, 0, 80]
    let packets := [packet 6, packet 17, packet 6, packet 6]
    let c : Classifier := ⟨s, .uplink, 20⟩
    let c' : Classifier := ⟨s.insert r, .uplink, 20⟩
    (packets[3]? = some (packet 6) ∧ ¬(packet 6).Concerns .uplink r.key) ∧
    (c.verdicts (.seeded s) packets).map Verdict.delay = [100, 8, 100, 5000] ∧
    (c'.verdicts (.seeded (s.insert r)) packets)[3]? = some ⟨5000, some ⟨6, e⟩⟩ ∧
    (c'.countersAfter (.seeded (s.insert r)) packets).tally? ⟨⟨10, 0, 0, 6⟩, 80⟩ =
      some ⟨⟨⟨10, 0, 0, 6⟩, 80⟩, 0, 0⟩ := by
  intro e s r packet packets c c'
  have hconcerns : ¬(packet 6).Concerns .uplink r.key := by
    rintro ⟨-, h, hh, hproto, -⟩
    obtain ⟨-, -, -, rfl⟩ := Packet.header_eq_ok_iff.1 hh
    exact absurd hproto (by decide)
  obtain ⟨hverdicts, hcounters⟩ := rule_confined s r .uplink 20 packets
  obtain ⟨v, hv, hv'⟩ := hverdicts 3 (packet 6) rfl hconcerns
  have hlast : (c.verdicts (.seeded s) packets)[3]? = some ⟨5000, some ⟨6, e⟩⟩ := by decide
  refine ⟨⟨rfl, hconcerns⟩, by decide, hv'.trans (hv.symm.trans hlast), ?_⟩
  rw [hcounters ⟨⟨10, 0, 0, 6⟩, 80⟩ (by decide)]
  decide

end DelayLine
