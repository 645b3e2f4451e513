import DelayLine.Proofs.Comparison

/-!
# Rules that packets can match

A rule is live if it stands for every port of its address, or for a port of TCP or UDP at an address
that has no rule for every port. For each live rule there is a packet that matches it, and no packet
matches any other rule (`exists_matches_iff`). So a classifier finds the same rules when the others
are removed (`Classifier.rule?_live`), and nothing changes but for the tallies that stay at zero.
-/

namespace DelayLine

namespace RuleSet

instance (s : RuleSet) (key : RuleKey) : Decidable (s.HasKey key) :=
  inferInstanceAs (Decidable (∃ r ∈ s.toList, r.key = key))

/-- The key is for every port, or for a port of TCP or UDP where no rule is for every port. -/
def IsLive (s : RuleSet) (key : RuleKey) : Prop :=
  key.endpoint.port = 0 ∨ (key.protocol = 6 ∨ key.protocol = 17) ∧
    ¬s.HasKey ⟨key.protocol, key.endpoint.address, 0⟩

instance (s : RuleSet) (key : RuleKey) : Decidable (s.IsLive key) :=
  inferInstanceAs (Decidable (_ ∨ _))

/-- The rule set without the rules that are not live. -/
def live (s : RuleSet) : RuleSet where
  toList := s.toList.filter fun r => s.IsLive r.key
  ascending := s.ascending.sublist List.filter_sublist

theorem mem_live {s : RuleSet} {r : DelayRule} :
    r ∈ s.live.toList ↔ r ∈ s.toList ∧ s.IsLive r.key := by
  simp [live]

theorem hasKey_live {s : RuleSet} {key : RuleKey} :
    s.live.HasKey key ↔ s.HasKey key ∧ s.IsLive key := by
  constructor
  · rintro ⟨r, hr, rfl⟩
    obtain ⟨hr, hlive⟩ := mem_live.1 hr
    exact ⟨⟨r, hr, rfl⟩, hlive⟩
  · rintro ⟨⟨r, hr, rfl⟩, hlive⟩
    exact ⟨r, mem_live.2 ⟨hr, hlive⟩, rfl⟩

end RuleSet

/-- A packet from the endpoint of a key to itself: both directions see the same address and port. -/
def Packet.looped (key : RuleKey) : Packet :=
  let x := key.endpoint.address
  let high := UInt8.ofNat (key.endpoint.port.toNat / 256)
  let low := UInt8.ofNat key.endpoint.port.toNat
  [0, 0, 8, 0, 69, 0, 0, 24, 0, 0, 0, 0, 64, key.protocol, 0, 0,
    x.a, x.b, x.c, x.d, x.a, x.b, x.c, x.d, high, low, high, low]

namespace Packet

theorem byte_four_looped (key : RuleKey) : (looped key).byte 4 = 69 := rfl

theorem isIPv4_looped (key : RuleKey) : (looped key).IsIPv4 5 where
  long := by simp [looped]
  version := by
    rw [byte_four_looped]
    decide
  words_eq := by
    rw [byte_four_looped]
    decide
  five_le := Nat.le_refl 5
  fits := by simp [looped]

theorem remoteAddress_looped (key : RuleKey) (direction : Direction) :
    (looped key).remoteAddress direction = key.endpoint.address := by
  cases direction <;> rfl

theorem hasPort_looped (key : RuleKey) (direction : Direction) :
    (looped key).HasPort direction 5 key.endpoint.port where
  fits := by simp [looped]
  port_eq := by
    have hport := key.endpoint.port.toNat_lt
    cases direction <;> simp [looped, byte] <;> omega

end Packet

section Matching

variable {s : RuleSet} {direction : Direction} {p : Packet} {key : RuleKey}

theorem Matches.isLive (h : Matches s direction p key) : s.IsLive key := by
  obtain ⟨words, -, ⟨rfl, -⟩ | ⟨hn, hproto, port, -, rfl, -⟩⟩ := h
  · exact .inl rfl
  · exact .inr ⟨hproto, hn⟩

theorem matches_looped (hkey : s.HasKey key) (hlive : s.IsLive key) :
    Matches s direction (.looped key) key := by
  refine ⟨5, Packet.isIPv4_looped key, ?_⟩
  have hbyte : (Packet.looped key).byte 13 = key.protocol := rfl
  rw [Packet.remoteAddress_looped, hbyte]
  obtain ⟨protocol, address, port⟩ := key
  -- A rule for every port comes first, and a live rule for a port has none beside it.
  by_cases hport : port = 0
  · subst hport
    exact .inl ⟨rfl, hkey⟩
  · obtain ⟨hproto, hn⟩ := hlive.resolve_left hport
    exact .inr ⟨hn, hproto, port, Packet.hasPort_looped _ direction, rfl, hkey⟩

theorem exists_matches_iff : (∃ p, Matches s direction p key) ↔ s.HasKey key ∧ s.IsLive key := by
  constructor
  · rintro ⟨p, h⟩
    exact ⟨h.hasKey, h.isLive⟩
  · rintro ⟨hkey, hlive⟩
    exact ⟨_, matches_looped hkey hlive⟩

theorem matches_live_iff : Matches s.live direction p key ↔ Matches s direction p key := by
  have hevery (protocol : UInt8) (address : Address) :
      s.live.HasKey ⟨protocol, address, 0⟩ ↔ s.HasKey ⟨protocol, address, 0⟩ :=
    RuleSet.hasKey_live.trans (and_iff_left (.inl rfl))
  constructor
  · rintro ⟨words, hp, ⟨hk, hkey⟩ | ⟨hn, hproto, port, hport, hk, hkey⟩⟩
    · exact ⟨words, hp, .inl ⟨hk, (RuleSet.hasKey_live.1 hkey).1⟩⟩
    · exact ⟨words, hp,
        .inr ⟨mt (hevery _ _).2 hn, hproto, port, hport, hk, (RuleSet.hasKey_live.1 hkey).1⟩⟩
  · intro h
    have hkey := RuleSet.hasKey_live.2 ⟨h.hasKey, h.isLive⟩
    obtain ⟨words, hp, ⟨hk, -⟩ | ⟨hn, hproto, port, hport, hk, -⟩⟩ := h
    · exact ⟨words, hp, .inl ⟨hk, hkey⟩⟩
    · exact ⟨words, hp, .inr ⟨mt (hevery _ _).1 hn, hproto, port, hport, hk, hkey⟩⟩

end Matching

theorem Classifier.rule?_live (c : Classifier) (p : Packet) :
    { c with rules := c.rules.live }.rule? p = c.rule? p := by
  refine Option.ext fun r => ?_
  simp only [rule?_eq_some_iff, RuleSet.mem_live, matches_live_iff]
  exact ⟨fun h => ⟨h.1.1, h.2⟩, fun h => ⟨⟨h.1, h.2.isLive⟩, h.2⟩⟩

namespace Classifier

theorem agreeOn_live (c : Classifier) (packets : List Packet) :
    Counters.AgreeOn (fun _ => True) (c.countersAfter (.seeded c.rules) packets)
      ({ c with rules := c.rules.live }.countersAfter (.seeded c.rules.live) packets) :=
  agreeOn_countersAfter (fun p _ _ => by rw [rule?_live]) (Counters.agreeOn_seeded _ _ _) packets

theorem verdicts_live (c : Classifier) (packets : List Packet) :
    { c with rules := c.rules.live }.verdicts (.seeded c.rules.live) packets =
      c.verdicts (.seeded c.rules) packets := by
  refine List.ext_getElem? fun i => ?_
  rw [getElem?_verdicts, getElem?_verdicts]
  refine congrArg (packets[i]?.map ·) (funext fun p => ?_)
  exact verdict_congr (rule?_live c p) fun r _ _ => agreeOn_live c (packets.take i) _ trivial

end Classifier

/-- A tally with traffic is what its endpoint is asked for. -/
theorem Counters.mem_iff_tally_eq {t : Tally} (ht : t.bytes ≠ 0 ∨ t.packets ≠ 0) (c : Counters) :
    t ∈ c.toList ↔ c.tally t.endpoint = t := by
  have hget : t ∈ c.toList ↔ c.tally? t.endpoint = some t := by
    rw [tally?_eq_some_iff, and_iff_left rfl]
  rw [hget, tally]
  rcases c.tally? t.endpoint with _ | u
  · refine iff_of_false (by simp) fun hzero => ?_
    rw [← hzero] at ht
    simp at ht
  · rw [Option.some.injEq, Option.getD_some]

theorem live_rules_suffice (s : RuleSet) (direction : Direction) (defaultDelay : Millis) :
    let c : Classifier := ⟨s, direction, defaultDelay⟩
    let c' : Classifier := ⟨s.live, direction, defaultDelay⟩
    (∀ key, s.HasKey key → ∀ counters,
      ((∃ p, (c.classify counters p).1.matched = some key) ↔ s.IsLive key)) ∧
    ∀ packets, c'.verdicts (.seeded s.live) packets = c.verdicts (.seeded s) packets ∧
      ∀ t : Tally, t.bytes ≠ 0 ∨ t.packets ≠ 0 →
        (t ∈ (c'.countersAfter (.seeded s.live) packets).toList ↔
          t ∈ (c.countersAfter (.seeded s) packets).toList) := by
  intro c c'
  refine ⟨fun key hkey counters => ?_, fun packets => ⟨c.verdicts_live packets, fun t ht => ?_⟩⟩
  · simp only [Classifier.matched_eq_some_iff]
    exact exists_matches_iff.trans (and_iff_right hkey)
  · rw [Counters.mem_iff_tally_eq ht, Counters.mem_iff_tally_eq ht,
      c.agreeOn_live packets t.endpoint trivial]

/-- A rule behind one for every port, and one for a port of a protocol without ports. -/
theorem live_rules_suffice_of_shadowed :
    let e : Endpoint := ⟨⟨10, 0, 0, 5⟩, 80⟩
    let f : Endpoint := ⟨⟨10, 0, 0, 6⟩, 80⟩
    let s : RuleSet := .ofList [.constant ⟨17, ⟨e.address, 0⟩⟩ 7 7, .constant ⟨17, e⟩ 8 8,
      .constant ⟨1, f⟩ 9 9, ⟨⟨6, e⟩, ⟨100, ⟨40, 5000⟩⟩, .constant 50⟩]
    let packets := [6, 17, 6, 1].map fun protocol => Packet.looped ⟨protocol, e⟩
    let c : Classifier := ⟨s, .uplink, 20⟩
    let c' : Classifier := ⟨s.live, .uplink, 20⟩
    (s.HasKey ⟨17, e⟩ ∧ s.live.toList.map DelayRule.key = [⟨6, e⟩, ⟨17, ⟨e.address, 0⟩⟩]) ∧
    (¬∃ p, (c.classify .empty p).1.matched = some ⟨17, e⟩) ∧
    c'.verdicts (.seeded s.live) packets = c.verdicts (.seeded s) packets ∧
    (c.verdicts (.seeded s) packets).map Verdict.delay = [100, 7, 100, 20] ∧
    ⟨e, 56, 2⟩ ∈ (c'.countersAfter (.seeded s.live) packets).toList := by
  intro e f s packets c c'
  obtain ⟨hlive, hruns⟩ := live_rules_suffice s .uplink 20
  have hkey : s.HasKey ⟨17, e⟩ := by decide
  have hcount : ⟨e, 56, 2⟩ ∈ (c.countersAfter (.seeded s) packets).toList := by decide
  refine ⟨⟨hkey, by decide⟩, ?_, (hruns packets).1, by decide,
    ((hruns packets).2 ⟨e, 56, 2⟩ (.inl (by decide))).2 hcount⟩
  rw [hlive _ hkey]
  decide

end DelayLine
