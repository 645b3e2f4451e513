import DelayLine.Proofs.Traffic

/-!
# Other rules, same traffic

What a packet adds to the tally of an endpoint depends on the key that it matches and on nothing
else. So under two rule sets that give an endpoint the same packets, its tallies stay equal
(`agreeOn_countersAfter`), and a packet that finds the same rule under both, with equal tallies
where the rule counts, gets the same verdict (`verdict_congr`). Each of the verdicts on a list of
packets is the one behind the packets before it (`getElem?_verdicts`).
-/

namespace DelayLine

/-- Counters that tell the same of certain endpoints. No tally tells the same as one without
traffic. -/
def Counters.AgreeOn (scope : Endpoint → Prop) (a b : Counters) : Prop :=
  ∀ e, scope e → a.tally e = b.tally e

theorem Counters.agreeOn_seeded (scope : Endpoint → Prop) (s t : RuleSet) :
    AgreeOn scope (seeded s) (seeded t) := fun e _ => by
  rw [tally_seeded, tally_seeded]

theorem Counters.tally?_congr {a b : Counters} {e : Endpoint}
    (hex : (∃ t, a.tally? e = some t) ↔ ∃ t, b.tally? e = some t) (h : a.tally e = b.tally e) :
    a.tally? e = b.tally? e := by
  unfold tally at h
  rcases ha : a.tally? e with _ | t <;> rcases hb : b.tally? e with _ | u
  · rfl
  · simp [ha, hb] at hex
  · simp [ha, hb] at hex
  · simpa [ha, hb] using h

namespace Classifier

/-- The counters behind packets that are classified in order. -/
def countersAfter (c : Classifier) (counters : Counters) (packets : List Packet) : Counters :=
  packets.foldl (fun counters p => (c.classify counters p).2) counters

theorem getElem?_verdicts (c : Classifier) (counters : Counters) (packets : List Packet) (i : Nat) :
    (c.verdicts counters packets)[i]? =
      packets[i]?.map fun p => (c.classify (c.countersAfter counters (packets.take i)) p).1 := by
  induction packets generalizing counters i with
  | nil => rfl
  | cons p packets ih =>
    cases i with
    | zero => rfl
    | succ i => exact ih _ i

section Rules

variable {c : Classifier} {t : RuleSet} {scope : Endpoint → Prop} {a b : Counters}

theorem agreeOn_countersAfter
    (h : ∀ p e, scope e → (({ c with rules := t }.rule? p).map DelayRule.key = some ⟨6, e⟩ ↔
      (c.rule? p).map DelayRule.key = some ⟨6, e⟩))
    (hab : Counters.AgreeOn scope a b) (packets : List Packet) :
    Counters.AgreeOn scope (c.countersAfter a packets)
      ({ c with rules := t }.countersAfter b packets) := by
  induction packets generalizing a b with
  | nil => exact hab
  | cons p packets ih =>
    refine ih fun e he => ?_
    simp only [tally_classify, matched_classify, h p e he, hab e he]

theorem verdict_congr {p : Packet} (hrule : { c with rules := t }.rule? p = c.rule? p)
    (htally : ∀ r, c.rule? p = some r → r.isMetered = true →
      a.tally r.key.endpoint = b.tally r.key.endpoint) :
    ({ c with rules := t }.classify b p).1 = (c.classify a p).1 := by
  rcases hr : c.rule? p with _ | r
  · rw [classify_of_rule?_eq_none hr, classify_of_rule?_eq_none (hrule.trans hr)]
  by_cases hm : r.isMetered = true
  · rw [classify_of_isMetered hr hm, classify_of_isMetered (hrule.trans hr) hm, htally r hr hm]
  · rw [classify_of_not_isMetered hr hm, classify_of_not_isMetered (hrule.trans hr) hm]

end Rules

theorem exists_tally?_countersAfter_iff {c : Classifier} {counters : Counters}
    (h : ∀ e, (∃ t, counters.tally? e = some t) ↔ e ∈ c.rules.endpoints) (packets : List Packet)
    (e : Endpoint) :
    (∃ t, (c.countersAfter counters packets).tally? e = some t) ↔ e ∈ c.rules.endpoints := by
  induction packets generalizing counters with
  | nil => exact h e
  | cons p packets ih => exact ih (exists_tally?_classify_iff h p)

end Classifier

end DelayLine
