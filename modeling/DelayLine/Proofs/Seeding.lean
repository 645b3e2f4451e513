import DelayLine.CountMaps
import DelayLine.Proofs.Comparison

/-!
# Counts seeded or not

A count that is missing is worth as much as a zero, so traffic gets the same verdicts from counts
that were seeded with the endpoints of the rules and from none (`verdicts_empty`). Only the keys of
the counts tell the two apart: those seeded stay the endpoints of the rules, because nothing but a
rule for a port is ever counted, and the others are the endpoints of the TCP rules matched so far
(`exists_tally?_countersAfter`). Counting in two maps is counting in tallies (`runWith_maps`), which
keeps the keys of the two maps the same.
-/

namespace DelayLine

theorem Counters.agreeOn_empty (scope : Endpoint → Prop) (rules : RuleSet) :
    AgreeOn scope (seeded rules) .empty := fun e _ => tally_seeded rules e

theorem Counters.keys_countMap (count : Tally → UInt64) (c : Counters) :
    (c.countMap count).keys = c.toList.map Tally.endpoint := by
  rw [KeyMap.keys, toList_countMap, List.map_map]
  rfl

theorem Counters.mem_keys_countMap {count : Tally → UInt64} {c : Counters} {e : Endpoint} :
    e ∈ (c.countMap count).keys ↔ ∃ t, c.tally? e = some t := by
  simp only [keys_countMap, List.mem_map, tally?_eq_some_iff]

namespace Classifier

variable {c : Classifier} {counters : Counters} {packets : List Packet} {e : Endpoint}

section Views

variable {γ δ : Type} {record : γ → Endpoint → UInt64 → UInt64 × γ}
  {record' : δ → Endpoint → UInt64 → UInt64 × δ} {view : γ → δ}
  (h : ∀ counts e size, record' (view counts) e size = (record counts e size).map id view)

include h

theorem classifyWith_view (c : Classifier) (counts : γ) (p : Packet) :
    c.classifyWith record' (view counts) p = (c.classifyWith record counts p).map id view := by
  unfold classifyWith
  cases c.rule? p with
  | none => rfl
  | some r =>
    simp only [h]
    split <;> rfl

/-- Counts that are seen through a view give the same verdicts and stay in the view. -/
theorem runWith_view (c : Classifier) (counts : γ) (packets : List Packet) :
    c.runWith record' (view counts) packets = (c.runWith record counts packets).map id view := by
  induction packets generalizing counts with
  | nil => rfl
  | cons p packets ih =>
    simp only [runWith, classifyWith_view h, Prod.map_fst, Prod.map_snd, ih]
    rfl

end Views

theorem runWith_tallies (c : Classifier) (counters : Counters) (packets : List Packet) :
    c.runWith Counters.meter counters packets =
      (c.verdicts counters packets, c.countersAfter counters packets) := by
  induction packets generalizing counters with
  | nil => rfl
  | cons p packets ih =>
    simp only [runWith, ← classify_eq_classifyWith, ih]
    rfl

theorem runWith_maps (c : Classifier) (counters : Counters) (packets : List Packet) :
    c.runWith CountMaps.record counters.maps packets =
      (c.verdicts counters packets, (c.countersAfter counters packets).maps) := by
  rw [runWith_view Counters.record_maps, runWith_tallies]
  rfl

theorem agreeOn_empty (c : Classifier) (packets : List Packet) :
    Counters.AgreeOn (fun _ => True) (c.countersAfter (.seeded c.rules) packets)
      (c.countersAfter .empty packets) :=
  agreeOn_countersAfter (t := c.rules) (fun _ _ _ => Iff.rfl) (Counters.agreeOn_empty _ _) packets

theorem verdicts_empty (c : Classifier) (packets : List Packet) :
    c.verdicts .empty packets = c.verdicts (.seeded c.rules) packets := by
  refine List.ext_getElem? fun i => ?_
  rw [getElem?_verdicts, getElem?_verdicts]
  refine congrArg (packets[i]?.map ·) (funext fun p => ?_)
  exact verdict_congr (t := c.rules) rfl fun r _ _ => agreeOn_empty c (packets.take i) _ trivial

/-- A tally is there from the start, or it is that of a TCP rule for a port that was matched. -/
theorem exists_tally?_countersAfter : (∃ t, (c.countersAfter counters packets).tally? e = some t) ↔
    (∃ t, counters.tally? e = some t) ∨
      e.port ≠ 0 ∧ ∃ v ∈ c.verdicts counters packets, v.matched = some ⟨6, e⟩ := by
  induction packets generalizing counters with
  | nil => simp [countersAfter, verdicts]
  | cons p packets ih =>
    refine ih.trans ?_
    rw [tally?_classify]
    simp only [verdicts, List.mem_cons, exists_eq_or_imp]
    split_ifs with hm
    · simp [hm.1, hm.2]
    · have hm : e.port ≠ 0 → (c.classify counters p).1.matched ≠ some ⟨6, e⟩ :=
        fun hport h => hm ⟨h, hport⟩
      refine or_congr_right (and_congr_right fun hport => ?_)
      simp [hm hport]

theorem mem_endpoints_of_matched {v : Verdict} (hv : v ∈ c.verdicts counters packets)
    {key : RuleKey} (hm : v.matched = some key) : key.endpoint ∈ c.rules.endpoints := by
  obtain ⟨i, hi⟩ := List.mem_iff_getElem?.1 hv
  rw [getElem?_verdicts, Option.map_eq_some_iff] at hi
  obtain ⟨p, -, rfl⟩ := hi
  obtain ⟨r, hr, rfl⟩ := (matched_eq_some_iff.1 hm).hasKey
  exact RuleSet.mem_endpoints.2 ⟨r, hr, rfl⟩

end Classifier

theorem seeding_unobservable (c : Classifier) (packets : List Packet) :
    let seeded := c.runWith CountMaps.record (.seeded c.rules) packets
    let bare := c.runWith CountMaps.record .empty packets
    seeded = (c.verdicts (.seeded c.rules) packets,
      (c.countersAfter (.seeded c.rules) packets).maps) ∧
    bare = (c.verdicts .empty packets, (c.countersAfter .empty packets).maps) ∧
    bare.1 = seeded.1 ∧
    (seeded.2.bytes.keys = c.rules.endpoints ∧ seeded.2.packets.keys = c.rules.endpoints) ∧
    bare.2.packets.keys = bare.2.bytes.keys ∧
    (∀ e, e ∈ bare.2.bytes.keys ↔ e.port ≠ 0 ∧ ∃ v ∈ bare.1, v.matched = some ⟨6, e⟩) ∧
    (∀ e ∈ bare.2.bytes.keys, seeded.2.bytes.get? e = bare.2.bytes.get? e ∧
      seeded.2.packets.get? e = bare.2.packets.get? e) ∧
    ∀ e ∈ c.rules.endpoints, e ∉ bare.2.bytes.keys →
      seeded.2.bytes.get? e = some 0 ∧ seeded.2.packets.get? e = some 0 := by
  intro seeded bare
  let full := c.countersAfter (.seeded c.rules) packets
  let part := c.countersAfter .empty packets
  have hseeded : seeded = (c.verdicts (.seeded c.rules) packets, full.maps) := by
    rw [← c.runWith_maps, Counters.maps_seeded]
  have hbare : bare = (c.verdicts .empty packets, part.maps) := by
    rw [← c.runWith_maps, Counters.maps_empty]
  have hfull (e : Endpoint) : (∃ t, full.tally? e = some t) ↔ e ∈ c.rules.endpoints :=
    c.exists_tally?_countersAfter_iff (Counters.exists_tally?_seeded_iff c.rules) packets e
  have hpart (e : Endpoint) : (∃ t, part.tally? e = some t) ↔
      e.port ≠ 0 ∧ ∃ v ∈ c.verdicts .empty packets, v.matched = some ⟨6, e⟩ :=
    Classifier.exists_tally?_countersAfter.trans (or_iff_right nofun)
  have htally (e : Endpoint) : full.tally e = part.tally e := c.agreeOn_empty packets e trivial
  rw [hseeded, hbare]
  refine ⟨rfl, rfl, c.verdicts_empty packets, ⟨?_, ?_⟩, ?_, fun e => ?_, fun e he => ?_,
    fun e he hnot => ?_⟩
  · exact (Counters.keys_countMap ..).trans (Counters.map_endpoint_eq hfull)
  · exact (Counters.keys_countMap ..).trans (Counters.map_endpoint_eq hfull)
  · exact (Counters.keys_countMap ..).trans (Counters.keys_countMap ..).symm
  · exact Counters.mem_keys_countMap.trans (hpart e)
  · have hpart' := Counters.mem_keys_countMap.1 he
    obtain ⟨-, v, hv, hm⟩ := (hpart e).1 hpart'
    have hfull' := (hfull e).2 (Classifier.mem_endpoints_of_matched hv hm)
    have heq : full.tally? e = part.tally? e :=
      Counters.tally?_congr (iff_of_true hfull' hpart') (htally e)
    have hcount (count : Tally → UInt64) :
        (full.countMap count).get? e = (part.countMap count).get? e := by
      rw [Counters.get?_countMap, Counters.get?_countMap, heq]
    exact ⟨hcount _, hcount _⟩
  · obtain ⟨t, ht⟩ := (hfull e).2 he
    have hnone : part.tally? e = none := by
      by_contra hsome
      exact hnot (Counters.mem_keys_countMap.2 (Option.ne_none_iff_exists'.1 hsome))
    have hzero : t = { endpoint := e } := by
      have := htally e
      rwa [Counters.tally, Counters.tally, ht, hnone] at this
    have hcount (count : Tally → UInt64) :
        (full.countMap count).get? e = some (count { endpoint := e }) := by
      rw [Counters.get?_countMap, ht, hzero, Option.map_some]
    exact ⟨hcount _, hcount _⟩

end DelayLine
