import DelayLine.Proofs.Matching

/-!
# Mirror images

A rule seen from the other end of the link has its two schedules exchanged, and a packet has its
addresses and its ports exchanged. A classifier finds in a packet what the classifier of the other
direction finds in the mirror image, under the mirrored rules (`matches_mirror_iff`). So it gives
the same verdict, warns of the same and counts the same (`classify_mirror`).
-/

namespace DelayLine

def Direction.opposite : Direction → Direction
  | uplink => downlink
  | downlink => uplink

/-- The rule seen from the other end of the link. -/
def DelayRule.mirror (r : DelayRule) : DelayRule := ⟨r.key, r.reverse, r.forward⟩

@[simp] theorem DelayRule.key_mirror (r : DelayRule) : r.mirror.key = r.key := rfl

@[simp] theorem DelayRule.isMetered_mirror (r : DelayRule) : r.mirror.isMetered = r.isMetered := rfl

@[simp] theorem DelayRule.schedule_mirror (r : DelayRule) (direction : Direction) :
    r.mirror.schedule direction.opposite = r.schedule direction := by
  cases direction <;> rfl

namespace RuleSet

def mirror (s : RuleSet) : RuleSet :=
  ⟨s.toList.map DelayRule.mirror, List.pairwise_map.2 s.ascending⟩

theorem mem_mirror {s : RuleSet} {r : DelayRule} :
    r ∈ s.mirror.toList ↔ ∃ q ∈ s.toList, q.mirror = r :=
  List.mem_map

theorem hasKey_mirror {s : RuleSet} {key : RuleKey} : s.mirror.HasKey key ↔ s.HasKey key := by
  simp [HasKey, mem_mirror]

theorem endpoints_mirror (s : RuleSet) : s.mirror.endpoints = s.endpoints := by
  rw [endpoints, mirror, List.map_map, endpoints]
  rfl

end RuleSet

namespace Packet

/-- The number of words that the header of the packet says it has. -/
def words (p : Packet) : Nat := (p.byte 4 &&& 15).toNat

/-- Exchanges two fields of the same width, the second right behind the first. -/
def exchange (p : Packet) (offset width : Nat) : Packet :=
  p.take offset ++ (p.drop (offset + width)).take width ++ (p.drop offset).take width ++
    p.drop (offset + 2 * width)

/-- The packet with its addresses exchanged, and its ports if they are all there. -/
def mirror (p : Packet) : Packet :=
  if p.length < 24 then p
  else if 5 ≤ p.words ∧ 8 + 4 * p.words ≤ p.length then
    (p.exchange 16 4).exchange (4 + 4 * p.words) 2
  else p.exchange 16 4

/-- The place that a byte comes from in an exchange. -/
def exchangedIndex (offset width i : Nat) : Nat :=
  if i < offset then i
  else if i < offset + width then i + width
  else if i < offset + 2 * width then i - width
  else i

theorem getElem?_exchange {p : Packet} {offset width : Nat} (h : offset + 2 * width ≤ p.length)
    (i : Nat) : (p.exchange offset width)[i]? = p[exchangedIndex offset width i]? := by
  unfold exchange exchangedIndex
  simp only [List.getElem?_append, List.getElem?_take, List.getElem?_drop, List.length_append,
    List.length_take, List.length_drop]
  split_ifs <;> first | omega | (congr 1; omega) | congr 1

theorem length_exchange {p : Packet} {offset width : Nat} (h : offset + 2 * width ≤ p.length) :
    (p.exchange offset width).length = p.length := by
  simp only [exchange, List.length_append, List.length_take, List.length_drop]
  omega

@[simp] theorem length_mirror (p : Packet) : p.mirror.length = p.length := by
  unfold mirror
  split_ifs with hshort hports
  · rfl
  · have haddress := length_exchange (show 16 + 2 * 4 ≤ p.length by omega)
    rw [length_exchange (by omega), haddress]
  · exact length_exchange (by omega)

theorem getElem?_mirror {p : Packet} (h : 24 ≤ p.length) (i : Nat) :
    p.mirror[i]? =
      if 5 ≤ p.words ∧ 8 + 4 * p.words ≤ p.length then
        p[exchangedIndex 16 4 (exchangedIndex (4 + 4 * p.words) 2 i)]?
      else p[exchangedIndex 16 4 i]? := by
  have haddress : 16 + 2 * 4 ≤ p.length := h
  rw [mirror, if_neg (by omega)]
  split_ifs with hports
  · have hfits : 4 + 4 * p.words + 2 * 2 ≤ (p.exchange 16 4).length := by
      rw [length_exchange haddress]
      omega
    rw [getElem?_exchange hfits, getElem?_exchange haddress]
  · rw [getElem?_exchange haddress]

/-- The fields in front of the addresses stay as they are. -/
theorem getElem?_mirror_of_lt (p : Packet) {i : Nat} (hi : i < 16) : p.mirror[i]? = p[i]? := by
  by_cases h : 24 ≤ p.length
  · rw [getElem?_mirror h]
    unfold exchangedIndex
    split_ifs <;> first | rfl | omega
  · rw [mirror, if_pos (by omega)]

theorem byte_mirror_of_lt (p : Packet) {i : Nat} (hi : i < 16) : p.mirror.byte i = p.byte i := by
  rw [byte, byte, List.getD_eq_getElem?_getD, getElem?_mirror_of_lt p hi,
    List.getD_eq_getElem?_getD]

theorem byte_mirror_eq {p : Packet} (h : 24 ≤ p.length) {i j : Nat}
    (hij : if 5 ≤ p.words ∧ 8 + 4 * p.words ≤ p.length then
        exchangedIndex 16 4 (exchangedIndex (4 + 4 * p.words) 2 i) = j
      else exchangedIndex 16 4 i = j) : p.mirror.byte i = p.byte j := by
  rw [byte, byte, List.getD_eq_getElem?_getD, getElem?_mirror h, List.getD_eq_getElem?_getD]
  split_ifs at hij ⊢ <;> rw [hij]

theorem byte_mirror_address {p : Packet} (h : 24 ≤ p.length) {i : Nat} (hi : 16 ≤ i)
    (hi' : i < 20) : p.mirror.byte i = p.byte (i + 4) ∧ p.mirror.byte (i + 4) = p.byte i := by
  constructor <;>
  · refine byte_mirror_eq h ?_
    unfold exchangedIndex
    split_ifs <;> omega

theorem byte_mirror_port {p : Packet} (h : 24 ≤ p.length) (hfive : 5 ≤ p.words)
    (hfits : 8 + 4 * p.words ≤ p.length) {i : Nat} (hi : 4 + 4 * p.words ≤ i)
    (hi' : i < 6 + 4 * p.words) :
    p.mirror.byte i = p.byte (i + 2) ∧ p.mirror.byte (i + 2) = p.byte i := by
  constructor <;>
  · refine byte_mirror_eq h ?_
    rw [if_pos ⟨hfive, hfits⟩]
    unfold exchangedIndex
    split_ifs <;> omega

theorem remoteAddress_mirror {p : Packet} (h : 24 ≤ p.length) (direction : Direction) :
    p.mirror.remoteAddress direction.opposite = p.remoteAddress direction := by
  have h0 := byte_mirror_address h (i := 16) (by omega) (by omega)
  have h1 := byte_mirror_address h (i := 17) (by omega) (by omega)
  have h2 := byte_mirror_address h (i := 18) (by omega) (by omega)
  have h3 := byte_mirror_address h (i := 19) (by omega) (by omega)
  cases direction
  · simp only [remoteAddress, Direction.opposite, h0.1, h1.1, h2.1, h3.1]
  · simp only [remoteAddress, Direction.opposite, h0.2, h1.2, h2.2, h3.2]

theorem IsIPv4.of_length_eq {p q : Packet} {words : Nat} (hl : q.length = p.length)
    (hb : q.byte 4 = p.byte 4) (h : p.IsIPv4 words) : q.IsIPv4 words :=
  ⟨hl ▸ h.long, hb ▸ h.version, hb ▸ h.words_eq, h.five_le, hl ▸ h.fits⟩

theorem isIPv4_mirror {p : Packet} {words : Nat} : p.mirror.IsIPv4 words ↔ p.IsIPv4 words := by
  have hl := p.length_mirror
  have hb := p.byte_mirror_of_lt (i := 4) (by decide)
  exact ⟨.of_length_eq hl.symm hb.symm, .of_length_eq hl hb⟩

theorem hasPort_iff {p : Packet} {direction : Direction} {words : Nat} {port : UInt16} :
    p.HasPort direction words port ↔ 8 + 4 * words ≤ p.length ∧
      port.toNat =
        match direction with
        | .uplink => 256 * (p.byte (4 + 4 * words + 2)).toNat + (p.byte (4 + 4 * words + 3)).toNat
        | .downlink => 256 * (p.byte (4 + 4 * words)).toNat + (p.byte (4 + 4 * words + 1)).toNat :=
  ⟨fun h => ⟨h.fits, h.port_eq⟩, fun h => ⟨h.1, h.2⟩⟩

theorem hasPort_mirror {p : Packet} {words : Nat} (hp : p.IsIPv4 words) (direction : Direction)
    (port : UInt16) :
    p.mirror.HasPort direction.opposite words port ↔ p.HasPort direction words port := by
  obtain ⟨hlong, -, hwords, hfive, -⟩ := hp
  obtain rfl : p.words = words := hwords
  rw [hasPort_iff, hasPort_iff, length_mirror]
  refine and_congr_right fun hfits => ?_
  have h0 := byte_mirror_port hlong hfive hfits (i := 4 + 4 * p.words) (by omega) (by omega)
  have h1 : p.mirror.byte (4 + 4 * p.words + 1) = p.byte (4 + 4 * p.words + 3) ∧
      p.mirror.byte (4 + 4 * p.words + 3) = p.byte (4 + 4 * p.words + 1) :=
    byte_mirror_port hlong hfive hfits (by omega) (by omega)
  cases direction
  · simp only [Direction.opposite, h0.1, h1.1]
  · simp only [Direction.opposite, h0.2, h1.2]

theorem version_mirror (p : Packet) : p.mirror.version = p.version := by
  rw [version, length_mirror, byte_mirror_of_lt p (by decide), version]

theorem unexpected?_mirror (p : Packet) : p.mirror.unexpected? = p.unexpected? := by
  have hbyte : p.mirror.protocolByte? = p.protocolByte? := p.getElem?_mirror_of_lt (by decide)
  simp only [unexpected?, version_mirror, hbyte, length_mirror]

theorem size_mirror (p : Packet) : p.mirror.size = p.size := by
  rw [size, length_mirror, size]

end Packet

theorem matches_mirror_iff {s : RuleSet} {direction : Direction} {p : Packet} {key : RuleKey} :
    Matches s.mirror direction.opposite p.mirror key ↔ Matches s direction p key := by
  refine exists_congr fun words => ?_
  rw [Packet.isIPv4_mirror]
  refine and_congr_right fun hp => ?_
  rw [p.byte_mirror_of_lt (by decide), Packet.remoteAddress_mirror hp.long]
  simp only [RuleSet.hasKey_mirror, Packet.hasPort_mirror hp]

namespace Classifier

def mirror (c : Classifier) : Classifier := ⟨c.rules.mirror, c.direction.opposite, c.defaultDelay⟩

theorem rule?_mirror (c : Classifier) (p : Packet) :
    c.mirror.rule? p.mirror = (c.rule? p).map DelayRule.mirror := by
  refine Option.ext fun r => ?_
  rw [rule?_eq_some_iff, Option.map_eq_some_iff]
  simp only [rule?_eq_some_iff, mirror, RuleSet.mem_mirror, matches_mirror_iff]
  constructor
  · rintro ⟨⟨q, hq, rfl⟩, hm⟩
    exact ⟨q, ⟨hq, hm⟩, rfl⟩
  · rintro ⟨q, ⟨hq, hm⟩, rfl⟩
    exact ⟨⟨q, hq, rfl⟩, hm⟩

theorem classify_mirror (c : Classifier) (counters : Counters) (p : Packet) :
    c.mirror.classify counters p.mirror = c.classify counters p := by
  simp only [classify, rule?_mirror]
  cases c.rule? p with
  | none => rfl
  | some r =>
    simp only [Option.map_some, DelayRule.key_mirror, DelayRule.isMetered_mirror, mirror,
      DelayRule.schedule_mirror, Packet.size_mirror]

/-- What is seen of packets that are classified in order: the verdict on each, what is warned of
and the counters behind it. -/
def trace (c : Classifier) : Counters → List Packet → List (Verdict × Option Unexpected × Counters)
  | _, [] => []
  | counters, p :: packets =>
    let (v, next) := c.classify counters p
    (v, p.unexpected?, next) :: c.trace next packets

theorem trace_map_mirror (c : Classifier) (counters : Counters) (packets : List Packet) :
    c.mirror.trace counters (packets.map Packet.mirror) = c.trace counters packets := by
  induction packets generalizing counters with
  | nil => rfl
  | cons p packets ih =>
    simp only [List.map_cons, trace, classify_mirror, Packet.unexpected?_mirror, ih]

end Classifier

theorem Counters.seeded_mirror (rules : RuleSet) : seeded rules.mirror = seeded rules := by
  rw [seeded, RuleSet.endpoints_mirror, seeded]

/-- Either direction of a link is the mirror image of the other. -/
theorem directions_mirrored (rules : RuleSet) (direction : Direction) (defaultDelay : Millis)
    (packets : List Packet) :
    Classifier.trace ⟨rules.mirror, direction.opposite, defaultDelay⟩ (.seeded rules.mirror)
        (packets.map Packet.mirror) =
      Classifier.trace ⟨rules, direction, defaultDelay⟩ (.seeded rules) packets := by
  rw [Counters.seeded_mirror]
  exact Classifier.trace_map_mirror ⟨rules, direction, defaultDelay⟩ _ packets

/-- A word of options stands between the addresses and the ports. -/
example :
    Packet.mirror [0, 0, 8, 0, 70, 0, 0, 28, 0, 0, 0, 0, 64, 6, 0, 0, 10, 0, 0, 5, 100, 64, 0, 2,
      1, 1, 1, 0, 0, 80, 156, 64] =
    [0, 0, 8, 0, 70, 0, 0, 28, 0, 0, 0, 0, 64, 6, 0, 0, 100, 64, 0, 2, 10, 0, 0, 5,
      1, 1, 1, 0, 156, 64, 0, 80] := by
  decide

end DelayLine
