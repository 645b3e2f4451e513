import Mathlib.Algebra.Order.Ring.Nat
import DelayLine.Proofs.Matching

/-!
# Classifying traffic

Packets are classified in order, each with the counters that the ones before it left. The byte
count of an endpoint is the exact number of bytes that its TCP rule has matched, as far as a
machine word can tell (`delay_getElem_hits`), so the rule gives its base delay up to its threshold
and its alternate delay ever after, whatever other traffic there is.
-/

namespace DelayLine

theorem Counters.tally_seeded (rules : RuleSet) (e : Endpoint) :
    (seeded rules).tally e = { endpoint := e } := by
  unfold tally
  rcases h : (seeded rules).tally? e with _ | t
  · rfl
  · obtain ⟨hmem, rfl⟩ := tally?_eq_some_iff.1 h
    rcases Ascending.mem_extend hmem with h | h
    · cases h
    · obtain ⟨_, _, rfl⟩ := List.mem_map.1 h
      rfl

theorem Counters.exists_tally?_seeded_iff (rules : RuleSet) (e : Endpoint) :
    (∃ t, (seeded rules).tally? e = some t) ↔ e ∈ rules.endpoints := by
  constructor
  · rintro ⟨t, ht⟩
    obtain ⟨hmem, rfl⟩ := tally?_eq_some_iff.1 ht
    rw [toList_seeded] at hmem
    obtain ⟨f, hf, rfl⟩ := List.mem_map.1 hmem
    exact hf
  · exact fun he => ⟨_, tally?_seeded_of_mem he⟩

theorem Counters.map_endpoint_eq {counters : Counters} {rules : RuleSet}
    (h : ∀ e, (∃ t, counters.tally? e = some t) ↔ e ∈ rules.endpoints) :
    counters.toList.map Tally.endpoint = rules.endpoints := by
  let s : Ascending Endpoint Endpoint.rank :=
    ⟨counters.toList.map Tally.endpoint, List.pairwise_map.2 counters.ascending⟩
  have hs : s = .ofList (rules.toList.map fun r => r.key.endpoint) := by
    refine Ascending.ext_mem fun e => Iff.trans ?_ (h e)
    simp only [s, List.mem_map, tally?_eq_some_iff]
  exact congrArg Ascending.toList hs

namespace Classifier

/-- Where the endpoints of the rules have tallies, no packet adds one. -/
theorem exists_tally?_classify_iff {c : Classifier} {counters : Counters}
    (h : ∀ e, (∃ t, counters.tally? e = some t) ↔ e ∈ c.rules.endpoints) (p : Packet)
    (e : Endpoint) :
    (∃ t, (c.classify counters p).2.tally? e = some t) ↔ e ∈ c.rules.endpoints := by
  rw [tally?_classify]
  split_ifs with he
  · obtain ⟨r, hr, hk⟩ := (matched_eq_some_iff.1 he.1).hasKey
    exact iff_of_true ⟨_, rfl⟩ (RuleSet.mem_endpoints.2 ⟨r, hr, by rw [hk]⟩)
  · exact h e

/-- The verdicts on packets that are classified in order. -/
def verdicts (c : Classifier) : Counters → List Packet → List Verdict
  | _, [] => []
  | counters, p :: packets =>
    let (v, next) := c.classify counters p
    v :: c.verdicts next packets

/-- The packets that match a key, each with its verdict. -/
def hits (c : Classifier) (counters : Counters) (packets : List Packet) (key : RuleKey) :
    List (Packet × Verdict) :=
  (packets.zip (c.verdicts counters packets)).filter fun x => x.2.matched = some key

variable {c : Classifier} {counters : Counters} {p : Packet} {packets : List Packet}
  {key : RuleKey}

theorem hits_cons_of_matched (h : (c.classify counters p).1.matched = some key) :
    c.hits counters (p :: packets) key =
      (p, (c.classify counters p).1) :: c.hits (c.classify counters p).2 packets key :=
  List.filter_cons_of_pos (decide_eq_true h)

theorem hits_cons_of_not_matched (h : (c.classify counters p).1.matched ≠ some key) :
    c.hits counters (p :: packets) key = c.hits (c.classify counters p).2 packets key :=
  List.filter_cons_of_neg (mt of_decide_eq_true h)

theorem bytes_tally_classify (c : Classifier) (counters : Counters) (p : Packet) {e : Endpoint}
    (he : e.port ≠ 0) :
    ((c.classify counters p).2.tally e).bytes.toNat =
      if (c.classify counters p).1.matched = some ⟨6, e⟩ then
        min ((counters.tally e).bytes.toNat + p.length) maxAmount.toNat
      else (counters.tally e).bytes.toNat := by
  simp only [tally_classify, he, ne_eq, not_false_eq_true, and_true]
  split_ifs
  · exact Packet.toNat_satAdd_size ..
  · rfl

theorem bytes_tally_le_classify (c : Classifier) (counters : Counters) (p : Packet)
    (e : Endpoint) : (counters.tally e).bytes ≤ ((c.classify counters p).2.tally e).bytes := by
  rw [tally_classify]
  split_ifs
  · exact le_satAdd ..
  · exact UInt64.le_refl _

end Classifier

/-- Counting up to the largest amount tells the same as counting on. -/
theorem Schedule.after_eq_of_toNat {s : Schedule} {carried : UInt64} {n : Nat}
    (h : carried.toNat = min n maxAmount.toNat) :
    s.after carried = if n < s.switch.threshold.toNat then s.base else s.switch.alternate := by
  have := toNat_le_maxAmount s.switch.threshold
  split_ifs with hn
  · exact after_of_lt (UInt64.lt_iff_toNat_lt.2 (by omega))
  · exact after_of_le (UInt64.le_iff_toNat_le.2 (by omega))

namespace Classifier

/-- From counters that show `n` bytes, each packet that matches a TCP rule for a port is judged by
the exact number of bytes before it. -/
theorem delay_getElem_hits {c : Classifier} {r : DelayRule} (hr : r ∈ c.rules.toList)
    (hproto : r.key.protocol = 6) (hport : r.key.endpoint.port ≠ 0) (packets : List Packet)
    {counters : Counters} {n : Nat}
    (hn : (counters.tally r.key.endpoint).bytes.toNat = min n maxAmount.toNat) (i : Nat)
    (hi : i < (c.hits counters packets r.key).length) :
    (c.hits counters packets r.key)[i].2.delay =
      if n + (((c.hits counters packets r.key).take i).map fun x => x.1.length).sum <
          (r.schedule c.direction).switch.threshold.toNat then
        (r.schedule c.direction).base
      else (r.schedule c.direction).switch.alternate := by
  have hkey : r.key = ⟨6, r.key.endpoint⟩ := by rw [← hproto]
  induction packets generalizing counters n i with
  | nil => simp [hits] at hi
  | cons p packets ih =>
    have hnext := bytes_tally_classify c counters p hport
    by_cases hm : (c.classify counters p).1.matched = some r.key
    · rw [if_pos (hm.trans (congrArg some hkey)), hn] at hnext
      simp only [hits_cons_of_matched hm] at hi ⊢
      cases i with
      | zero =>
        have hrule := rule?_eq_some_of_matched hr hm
        simp [classify_of_isMetered hrule (DelayRule.isMetered_iff.2 ⟨hproto, hport⟩),
          Schedule.after_eq_of_toNat hn]
      | succ i =>
        have := ih (n := n + p.length) (by rw [hnext]; omega) i (by simpa using hi)
        simpa [Nat.add_assoc] using this
    · rw [if_neg fun h => hm (h.trans (congrArg some hkey.symm)), hn] at hnext
      simp only [hits_cons_of_not_matched hm] at hi ⊢
      exact ih hnext i hi

end Classifier

/-- A delay that is chosen by whether a growing sum is below a threshold changes at most once. -/
theorem exists_replicate_append {α : Type} (size : α → Nat) (delay : α → Millis) (n threshold : Nat)
    (base alternate : Millis) (l : List α)
    (h : ∀ i (hi : i < l.length), delay l[i] =
      if n + ((l.take i).map size).sum < threshold then base else alternate) :
    ∃ m k, l.map delay = List.replicate m base ++ List.replicate k alternate := by
  induction l generalizing n with
  | nil => exact ⟨0, 0, rfl⟩
  | cons x xs ih =>
    have hx := h 0 (by simp)
    by_cases hn : n < threshold
    · obtain ⟨m, k, hxs⟩ := ih (n + size x) fun i hi => by
        have := h (i + 1) (Nat.succ_lt_succ hi)
        simpa [Nat.add_assoc] using this
      refine ⟨m + 1, k, ?_⟩
      rw [List.map_cons, hxs, List.replicate_succ, List.cons_append]
      simpa [hn] using hx
    · refine ⟨0, (x :: xs).length, ?_⟩
      rw [List.replicate_zero, List.nil_append, List.eq_replicate_iff]
      refine ⟨List.length_map _, fun t ht => ?_⟩
      obtain ⟨y, hy, rfl⟩ := List.mem_map.1 ht
      obtain ⟨i, hi, rfl⟩ := List.mem_iff_getElem.1 hy
      rw [h i hi, if_neg (by omega)]

theorem switch_once (rules : RuleSet) (direction : Direction) (defaultDelay : Millis)
    (packets : List Packet) {r : DelayRule} (hr : r ∈ rules.toList)
    (hproto : r.key.protocol = 6) (hport : r.key.endpoint.port ≠ 0) :
    let s := r.schedule direction
    let hits :=
      Classifier.hits ⟨rules, direction, defaultDelay⟩ (.seeded rules) packets r.key
    (∀ i (hi : i < hits.length), hits[i].2.delay =
      if ((hits.take i).map fun x => x.1.length).sum < s.switch.threshold.toNat then s.base
      else s.switch.alternate) ∧
    ∃ m k, hits.map (fun x => x.2.delay) =
      List.replicate m s.base ++ List.replicate k s.switch.alternate := by
  intro s hits
  have hzero : ((Counters.seeded rules).tally r.key.endpoint).bytes.toNat =
      min 0 maxAmount.toNat := by
    rw [Counters.tally_seeded]
    rfl
  have hdelay := Classifier.delay_getElem_hits (c := ⟨rules, direction, defaultDelay⟩) hr hproto
    hport packets hzero
  refine ⟨fun i hi => ?_, exists_replicate_append _ _ 0 _ _ _ hits hdelay⟩
  rw [hdelay i hi, Nat.zero_add]

theorem switch_once_at_forty :
    let r : DelayRule := ⟨⟨6, ⟨⟨10, 0, 0, 5⟩, 80⟩⟩, ⟨100, ⟨40, 5000⟩⟩, .constant 50⟩
    let wildcard : DelayRule := .constant ⟨17, ⟨⟨10, 0, 0, 5⟩, 0⟩⟩ 7 7
    let rules := Ascending.ofList [r, wildcard]
    let packet (protocol : UInt8) : Packet := [0, 0, 8, 0, 69, 0, 0, 24, 0, 0, 0, 0, 64, protocol,
      0, 0, 100, 64, 0, 2, 10, 0, 0, 5, 156, 64, 0, 80]
    let packets := [packet 6, packet 17, packet 6, [], packet 6]
    let hits := Classifier.hits ⟨rules, .uplink, 20⟩ (.seeded rules) packets r.key
    (r ∈ rules.toList ∧ r.key.protocol = 6 ∧ r.key.endpoint.port ≠ 0) ∧
    hits.map (fun x => x.2.delay) = [100, 100, 5000] ∧
    ∃ m k, hits.map (fun x => x.2.delay) = List.replicate m 100 ++ List.replicate k 5000 := by
  intro r wildcard rules packet packets hits
  have hr : r ∈ rules.toList := by decide
  exact ⟨⟨hr, rfl, by decide⟩, by decide,
    (switch_once rules .uplink 20 packets hr rfl (by decide)).2⟩

end DelayLine
