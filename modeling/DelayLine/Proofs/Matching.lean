import Mathlib.Tactic.SplitIfs
import Mathlib.Tactic.Tauto
import Mathlib.Tactic.Set
import DelayLine.Classifier

/-!
# Which rule a packet matches

`Matches` says on the bytes of a packet which key of a rule set it matches. The decoders agree
with it (`header_eq_ok_iff`, `ports_eq_ok_iff`), so the classifier finds the rule of that key and
no other (`rule?_eq_some_iff`).
-/

namespace DelayLine

namespace RuleSet

/-- There is a rule with the key. -/
def HasKey (s : RuleSet) (key : RuleKey) : Prop := ∃ r ∈ s.toList, r.key = key

theorem hasKey_iff_exists {s : RuleSet} {key : RuleKey} :
    s.HasKey key ↔ ∃ r, s.get? key = some r := by
  simp only [HasKey, get?_eq_some_iff]

theorem get?_eq_none_iff {s : RuleSet} {key : RuleKey} : s.get? key = none ↔ ¬s.HasKey key := by
  rw [hasKey_iff_exists, ← Option.ne_none_iff_exists', not_not]

end RuleSet

namespace Packet

/-- The link prefix is followed by an IPv4 header of that many words of four bytes, all there. -/
structure IsIPv4 (p : Packet) (words : Nat) : Prop where
  long : 24 ≤ p.length
  version : p.byte 4 >>> 4 = 4
  words_eq : (p.byte 4 &&& 15).toNat = words
  five_le : 5 ≤ words
  fits : 4 + 4 * words ≤ p.length

/-- The address facing away from the emulated host. -/
def remoteAddress (p : Packet) : Direction → Address
  | .uplink => ⟨p.byte 20, p.byte 21, p.byte 22, p.byte 23⟩
  | .downlink => ⟨p.byte 16, p.byte 17, p.byte 18, p.byte 19⟩

/-- The port facing away from the emulated host, behind a header of that many words. -/
structure HasPort (p : Packet) (direction : Direction) (words : Nat) (port : UInt16) : Prop where
  fits : 8 + 4 * words ≤ p.length
  port_eq : port.toNat =
    match direction with
    | .uplink => 256 * (p.byte (4 + 4 * words + 2)).toNat + (p.byte (4 + 4 * words + 3)).toNat
    | .downlink => 256 * (p.byte (4 + 4 * words)).toNat + (p.byte (4 + 4 * words + 1)).toNat

/-! ## Decoders -/

theorem version_eq_ok_iff {p : Packet} {v : UInt8} :
    p.version = .ok v ↔ 5 ≤ p.length ∧ p.byte 4 >>> 4 = v := by
  unfold version
  split_ifs with h
  · rw [false_iff, not_and]
    omega
  · simp only [pure, Except.pure, Except.ok.injEq, iff_and_self]
    omega

theorem header_eq_ok_iff {p : Packet} {h : Header} :
    p.header = .ok h ↔ 24 ≤ p.length ∧ 5 ≤ (p.byte 4 &&& 15).toNat ∧
      4 + 4 * (p.byte 4 &&& 15).toNat ≤ p.length ∧
      h = ⟨p.byte 13, p.address 16, p.address 20, .ofNat (4 * (p.byte 4 &&& 15).toNat)⟩ := by
  simp only [header, Nat.mul_comm _ 4]
  split_ifs with h1 h2 h3 h4
  case neg =>
    simp only [pure, Except.pure, Except.ok.injEq, eq_comm (a := h)]
    exact ⟨fun e => ⟨by omega, by omega, by omega, e⟩, fun e => e.2.2.2⟩
  all_goals
    rw [false_iff]
    omega

theorem ports_eq_ok_iff {p : Packet} {h : Header} {ports : Ports} :
    p.ports h = .ok ports ↔ (h.protocol = Protocol.tcp ∨ h.protocol = Protocol.udp) ∧
      h.transportOffset ≤ h.transportOffset + 4 ∧ (h.transportOffset + 4).toNat ≤ p.length ∧
      ports = ⟨p.port h.transportOffset.toNat, p.port (h.transportOffset.toNat + 2)⟩ := by
  simp only [Packet.ports]
  split_ifs with h1 h2
  · tauto
  · simp only [pure, Except.pure, Except.ok.injEq, eq_comm (a := ports)]
    tauto
  · tauto

theorem toNat_port (p : Packet) (offset : Nat) :
    (p.port offset).toNat = 256 * (p.byte offset).toNat + (p.byte (offset + 1)).toNat := by
  have h0 := (p.byte offset).toNat_lt
  have h1 := (p.byte (offset + 1)).toNat_lt
  rw [port, UInt16.toNat_ofNat']
  omega

theorem remote_eq_iff_hasPort {p : Packet} {direction : Direction} {words : Nat} {port : UInt16}
    (h : 8 + 4 * words ≤ p.length) :
    Ports.remote ⟨p.port (4 + 4 * words), p.port (4 + 4 * words + 2)⟩ direction = port ↔
      p.HasPort direction words port := by
  cases direction
  · rw [Ports.remote, ← UInt16.toNat_inj, toNat_port]
    exact ⟨fun e => ⟨h, e.symm⟩, fun e => e.port_eq.symm⟩
  · rw [Ports.remote, ← UInt16.toNat_inj, toNat_port]
    exact ⟨fun e => ⟨h, e.symm⟩, fun e => e.port_eq.symm⟩

theorem remote_eq_remoteAddress (p : Packet) (direction : Direction) (length : UInt64) :
    Header.remote ⟨p.byte 13, p.address 16, p.address 20, length⟩ direction =
      p.remoteAddress direction := by
  cases direction <;> rfl

/-- No header of at most fifteen words reaches around the machine word. -/
theorem ports_remote_iff {p : Packet} {direction : Direction} {words : Nat} (hw : words ≤ 15)
    {protocol : UInt8} {source destination : Address} {port : UInt16} :
    (∃ ports, p.ports ⟨protocol, source, destination, .ofNat (4 * words)⟩ = .ok ports ∧
      ports.remote direction = port) ↔
      (protocol = Protocol.tcp ∨ protocol = Protocol.udp) ∧ p.HasPort direction words port := by
  set h : Header := ⟨protocol, source, destination, .ofNat (4 * words)⟩
  have hstart : h.transportOffset.toNat = 4 + 4 * words := by
    simp [h, Header.transportOffset]
    omega
  have hstop : (h.transportOffset + 4).toNat = 8 + 4 * words := by
    simp [UInt64.toNat_add, hstart]
    omega
  have hle : h.transportOffset ≤ h.transportOffset + 4 := by
    rw [UInt64.le_iff_toNat_le]
    omega
  simp only [ports_eq_ok_iff, hstart, hstop]
  constructor
  · rintro ⟨_, ⟨hp, -, hfits, rfl⟩, he⟩
    exact ⟨hp, (remote_eq_iff_hasPort hfits).1 he⟩
  · rintro ⟨hp, he⟩
    exact ⟨_, ⟨hp, hle, he.fits, rfl⟩, (remote_eq_iff_hasPort he.fits).2 he⟩

theorem words_le_fifteen (b : UInt8) : (b &&& 15).toNat ≤ 15 := by
  rw [UInt8.toNat_and]
  exact Nat.and_le_right

end Packet

/-- The key that a packet matches: the one for every port of its protocol and address if there is
such a rule, else for TCP and UDP the one for its port. -/
def Matches (s : RuleSet) (direction : Direction) (p : Packet) (key : RuleKey) : Prop :=
  ∃ words, p.IsIPv4 words ∧
    (key = ⟨p.byte 13, p.remoteAddress direction, 0⟩ ∧ s.HasKey key ∨
      ¬s.HasKey ⟨p.byte 13, p.remoteAddress direction, 0⟩ ∧ (p.byte 13 = 6 ∨ p.byte 13 = 17) ∧
        ∃ port, p.HasPort direction words port ∧
          key = ⟨p.byte 13, p.remoteAddress direction, port⟩ ∧ s.HasKey key)

theorem Matches.hasKey {s : RuleSet} {direction : Direction} {p : Packet} {key : RuleKey}
    (h : Matches s direction p key) : s.HasKey key := by
  obtain ⟨_, _, ⟨_, hk⟩ | ⟨_, _, _, _, _, hk⟩⟩ := h <;> exact hk

open Packet

namespace Classifier

theorem ruleFor?_eq_some_iff {c : Classifier} {p : Packet} {words : Nat} (hw : words ≤ 15)
    {r : DelayRule} :
    c.ruleFor? p ⟨p.byte 13, p.address 16, p.address 20, .ofNat (4 * words)⟩ = some r ↔
      c.rules.get? ⟨p.byte 13, p.remoteAddress c.direction, 0⟩ = some r ∨
      c.rules.get? ⟨p.byte 13, p.remoteAddress c.direction, 0⟩ = none ∧
        (p.byte 13 = Protocol.tcp ∨ p.byte 13 = Protocol.udp) ∧
        ∃ port, p.HasPort c.direction words port ∧
          c.rules.get? ⟨p.byte 13, p.remoteAddress c.direction, port⟩ = some r := by
  simp only [ruleFor?, Option.or_eq_some_iff, remote_eq_remoteAddress, RuleSet.wildcard?]
  refine or_congr_right (and_congr_right fun _ => ?_)
  rw [← exists_and_left]
  simp only [← and_assoc, ← @ports_remote_iff p c.direction words hw (p.byte 13) (p.address 16)
    (p.address 20)]
  split
  · next h => simp only [h, reduceCtorEq, false_and, exists_false]
  · next ports h =>
    simp only [h, Except.ok.injEq, exists_eq_left']

theorem rule?_eq_some_iff {c : Classifier} {p : Packet} {r : DelayRule} :
    c.rule? p = some r ↔ r ∈ c.rules.toList ∧ Matches c.rules c.direction p r.key := by
  constructor
  · intro h
    refine ⟨mem_of_rule?_eq_some h, ?_⟩
    unfold rule? at h
    split at h
    · next hd hv hh =>
      obtain ⟨-, hv⟩ := version_eq_ok_iff.1 hv
      obtain ⟨hlong, hfive, hfits, rfl⟩ := header_eq_ok_iff.1 hh
      refine ⟨_, ⟨hlong, hv, rfl, hfive, hfits⟩, ?_⟩
      simp only [ruleFor?_eq_some_iff (words_le_fifteen _), RuleSet.get?_eq_some_iff,
        RuleSet.get?_eq_none_iff] at h
      rcases h with ⟨hr, hk⟩ | ⟨hn, hp, port, hport, hr, hk⟩
      · exact .inl ⟨hk, r, hr, rfl⟩
      · exact .inr ⟨hn, hp, port, hport, hk, r, hr, rfl⟩
    · simp at h
  · rintro ⟨hr, words, hp, h⟩
    have hv : p.version = .ok 4 := version_eq_ok_iff.2 ⟨by have := hp.long; omega, hp.version⟩
    have hh := header_eq_ok_iff.2 ⟨hp.long, hp.words_eq ▸ hp.five_le, hp.words_eq ▸ hp.fits, rfl⟩
    simp only [rule?, hv, hh, hp.words_eq, ruleFor?_eq_some_iff (hp.words_eq ▸ words_le_fifteen _),
      RuleSet.get?_eq_some_iff, RuleSet.get?_eq_none_iff]
    rcases h with ⟨hk, -⟩ | ⟨hn, hproto, port, hport, hk, -⟩
    · exact .inl ⟨hr, hk⟩
    · exact .inr ⟨hn, hproto, port, hport, hr, hk⟩

/-! ## Verdicts -/

theorem matched_classify (c : Classifier) (counters : Counters) (p : Packet) :
    (c.classify counters p).1.matched = (c.rule? p).map DelayRule.key := by
  unfold classify
  split
  · next h => rw [h, Option.map_none]
  · next r h =>
    rw [h, Option.map_some]
    split <;> rfl

theorem rule?_eq_some_of_matched {c : Classifier} {counters : Counters} {p : Packet}
    {r : DelayRule} (hr : r ∈ c.rules.toList)
    (hm : (c.classify counters p).1.matched = some r.key) : c.rule? p = some r := by
  rw [matched_classify, Option.map_eq_some_iff] at hm
  obtain ⟨q, hq, hk⟩ := hm
  have hget : c.rules.get? r.key = some q :=
    RuleSet.get?_eq_some_iff.2 ⟨mem_of_rule?_eq_some hq, hk⟩
  rw [RuleSet.get?_eq_some_iff.2 ⟨hr, rfl⟩] at hget
  rw [hq, hget]

theorem matched_eq_some_iff {c : Classifier} {counters : Counters} {p : Packet} {key : RuleKey} :
    (c.classify counters p).1.matched = some key ↔ Matches c.rules c.direction p key := by
  rw [matched_classify, Option.map_eq_some_iff]
  constructor
  · rintro ⟨r, hr, rfl⟩
    exact (rule?_eq_some_iff.1 hr).2
  · intro h
    obtain ⟨r, hr, rfl⟩ := h.hasKey
    exact ⟨r, rule?_eq_some_iff.2 ⟨hr, h⟩, rfl⟩

end Classifier

theorem DelayRule.isMetered_iff {r : DelayRule} :
    r.isMetered = true ↔ r.key.protocol = 6 ∧ r.key.endpoint.port ≠ 0 := by
  simp [isMetered, isWildcard, Protocol.tcp]

namespace Classifier

theorem classify_of_rule?_eq_none {c : Classifier} {p : Packet} (h : c.rule? p = none)
    (counters : Counters) : c.classify counters p = (⟨c.defaultDelay, none⟩, counters) := by
  rw [classify, h]

theorem classify_of_isMetered {c : Classifier} {p : Packet} {r : DelayRule}
    (h : c.rule? p = some r) (hm : r.isMetered = true) (counters : Counters) :
    c.classify counters p =
      (⟨(r.schedule c.direction).after (counters.tally r.key.endpoint).bytes, some r.key⟩,
        counters.record r.key.endpoint p.size) := by
  rw [classify, h]
  exact if_pos hm

theorem classify_of_not_isMetered {c : Classifier} {p : Packet} {r : DelayRule}
    (h : c.rule? p = some r) (hm : ¬r.isMetered = true) (counters : Counters) :
    c.classify counters p = (⟨(r.schedule c.direction).base, some r.key⟩, counters) := by
  rw [classify, h]
  exact if_neg hm

/-- Only traffic matched by the TCP rule for the port of an endpoint is counted there. -/
theorem tally?_classify (c : Classifier) (counters : Counters) (p : Packet) (e : Endpoint) :
    (c.classify counters p).2.tally? e =
      if (c.classify counters p).1.matched = some ⟨6, e⟩ ∧ e.port ≠ 0 then
        some ((counters.tally e).add p.size)
      else counters.tally? e := by
  rcases hr : c.rule? p with _ | r
  · rw [classify_of_rule?_eq_none hr, if_neg (by simp)]
  by_cases hm : r.isMetered = true
  · obtain ⟨hproto, hport⟩ := DelayRule.isMetered_iff.1 hm
    rw [classify_of_isMetered hr hm, Counters.tally?_record]
    by_cases he : r.key.endpoint = e
    · subst he
      rw [if_pos rfl, if_pos ⟨by rw [← hproto], hport⟩]
    · rw [if_neg he, if_neg fun h => he (by rw [Option.some.inj h.1])]
  · rw [classify_of_not_isMetered hr hm, if_neg]
    rintro ⟨hk, hport⟩
    rw [DelayRule.isMetered_iff, Option.some.inj hk] at hm
    exact hm ⟨rfl, hport⟩

theorem tally_classify (c : Classifier) (counters : Counters) (p : Packet) (e : Endpoint) :
    (c.classify counters p).2.tally e =
      if (c.classify counters p).1.matched = some ⟨6, e⟩ ∧ e.port ≠ 0 then
        (counters.tally e).add p.size
      else counters.tally e := by
  rw [Counters.tally, tally?_classify]
  split_ifs <;> rfl

theorem counters_classify_eq {c : Classifier} {counters : Counters} {p : Packet}
    (h : ∀ e, (c.classify counters p).1.matched = some ⟨6, e⟩ → e.port = 0) :
    (c.classify counters p).2 = counters := by
  rcases hr : c.rule? p with _ | r
  · rw [classify_of_rule?_eq_none hr]
  · rw [classify_of_not_isMetered hr]
    rw [DelayRule.isMetered_iff]
    rintro ⟨hproto, hport⟩
    refine hport (h r.key.endpoint ?_)
    rw [matched_classify, hr, ← hproto, Option.map_some]

end Classifier

theorem Packet.unexpected?_eq_some_iff {p : Packet} {u : Unexpected} :
    p.unexpected? = some u ↔ 5 ≤ p.length ∧ p.byte 4 >>> 4 ≠ 4 ∧
      (p.length < 14 ∨ p.byte 13 ≠ 6) ∧ u = ⟨p.byte 4 >>> 4, p[13]?, p.length⟩ := by
  have hbyte : p.protocolByte? = some 6 ↔ 14 ≤ p.length ∧ p.byte 13 = 6 := by
    rw [protocolByte?, byte, List.getD_eq_getElem?_getD]
    by_cases h : 13 < p.length
    · simp [List.getElem?_eq_getElem h, Nat.succ_le_of_lt h]
    · simp [List.getElem?_eq_none (Nat.not_lt.1 h)]
  unfold unexpected?
  rcases hv : p.version with fault | version
  · have hshort : ¬5 ≤ p.length := fun h => by
      simp [version_eq_ok_iff.2 ⟨h, rfl⟩] at hv
    simp [hshort]
  · obtain ⟨hlong, rfl⟩ := version_eq_ok_iff.1 hv
    simp only [hbyte]
    split_ifs with hw
    · refine iff_of_false (by simp) ?_
      rintro ⟨-, hver, hsix, -⟩
      rcases hw with hw | ⟨hlen, hw⟩
      · exact hver hw
      · exact hsix.elim (by omega) (absurd hw)
    · rw [not_or, not_and_or, Nat.not_le] at hw
      rw [Option.some.injEq, eq_comm (b := u)]
      exact ⟨fun e => ⟨hlong, hw.1, hw.2, e⟩, fun e => e.2.2.2⟩

theorem classify_eq_matching (c : Classifier) (counters : Counters) (p : Packet) :
    let v := (c.classify counters p).1
    let after := (c.classify counters p).2
    (∀ key, v.matched = some key ↔ Matches c.rules c.direction p key) ∧
    (v.matched = none → v.delay = c.defaultDelay) ∧
    (∀ r ∈ c.rules.toList, v.matched = some r.key →
      v.delay = if r.key.protocol = 6 ∧ r.key.endpoint.port ≠ 0 then
        (r.schedule c.direction).after ((counters.tally? r.key.endpoint).elim 0 Tally.bytes)
      else (r.schedule c.direction).base) ∧
    (∀ e, v.matched = some ⟨6, e⟩ → e.port ≠ 0 →
      (∀ f, f ≠ e → after.tally? f = counters.tally? f) ∧
      ∃ t, after.tally? e = some t ∧
        t.bytes.toNat =
          min (((counters.tally? e).elim 0 Tally.bytes).toNat + p.length) maxAmount.toNat ∧
        t.packets.toNat =
          min (((counters.tally? e).elim 0 Tally.packets).toNat + 1) maxAmount.toNat) ∧
    ((∀ e, v.matched = some ⟨6, e⟩ → e.port = 0) → after = counters) ∧
    ∀ u, p.unexpected? = some u ↔ 5 ≤ p.length ∧ p.byte 4 >>> 4 ≠ 4 ∧
      (p.length < 14 ∨ p.byte 13 ≠ 6) ∧ u = ⟨p.byte 4 >>> 4, p[13]?, p.length⟩ := by
  intro v after
  refine ⟨fun _ => Classifier.matched_eq_some_iff, ?_, ?_, ?_, ?_,
    fun _ => Packet.unexpected?_eq_some_iff⟩
  · intro hm
    rw [Classifier.matched_classify, Option.map_eq_none_iff] at hm
    simp only [v, Classifier.classify_of_rule?_eq_none hm]
  · intro r hr hm
    have hrule := Classifier.rule?_eq_some_of_matched hr hm
    simp only [← DelayRule.isMetered_iff, ← Counters.bytes_tally, v]
    split_ifs with hmeter
    · rw [Classifier.classify_of_isMetered hrule hmeter]
    · rw [Classifier.classify_of_not_isMetered hrule hmeter]
  · intro e hm he
    simp only [after, Classifier.tally?_classify]
    rw [← Counters.bytes_tally, ← Counters.packets_tally, if_pos ⟨hm, he⟩]
    refine ⟨fun f hf => if_neg fun h => hf ?_, _, rfl, toNat_satAdd_size .., toNat_satAdd ..⟩
    rw [hm] at h
    cases h.1
    rfl
  · exact Classifier.counters_classify_eq

end DelayLine
