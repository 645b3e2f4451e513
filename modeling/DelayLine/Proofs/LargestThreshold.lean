import DelayLine.Proofs.LiveRules

/-!
# The largest threshold

A schedule without a threshold has the largest amount in its place, and counts stop at the largest
amount. So a rule without a threshold switches all the same, once the traffic of its endpoint has
reached that amount (`Classifier.delay_classify_of_largest`). It never switches just if that makes
no difference: its alternate delay is its base delay, its traffic is not counted, or no packet finds
it.
-/

namespace DelayLine

theorem Counters.tally_record (c : Counters) (e f : Endpoint) (size : UInt64) :
    (c.record e size).tally f = if e = f then (c.tally e).add size else c.tally f := by
  rw [tally, tally?_record]
  split_ifs <;> rfl

theorem Schedule.after_of_largest {s : Schedule} (h : s.switch.threshold = maxAmount)
    (carried : UInt64) :
    s.after carried = if carried = maxAmount then s.switch.alternate else s.base := by
  split_ifs with hc
  · exact after_of_le (h ▸ hc ▸ UInt64.le_refl _)
  · refine after_of_lt (h ▸ UInt64.lt_iff_toNat_lt.2 ?_)
    exact Nat.lt_of_le_of_ne (toNat_le_maxAmount carried) (mt UInt64.toNat_inj.1 hc)

/-- What is done with counters: the traffic of an endpoint is counted, or a packet is classified. -/
inductive Use where
  | record (e : Endpoint) (size : UInt64)
  | classify (p : Packet)
deriving DecidableEq, Repr

namespace Classifier

def use (c : Classifier) (counters : Counters) : Use → Counters
  | .record e size => counters.record e size
  | .classify p => (c.classify counters p).2

def useAll (c : Classifier) (counters : Counters) (uses : List Use) : Counters :=
  uses.foldl c.use counters

/-- The bytes that a use counts for an endpoint. -/
def load (c : Classifier) (e : Endpoint) : Use → Nat
  | .record f size => if f = e then size.toNat else 0
  | .classify p => if (c.rule? p).map DelayRule.key = some ⟨6, e⟩ ∧ e.port ≠ 0 then p.length else 0

/-- The bytes that all uses count for an endpoint, without a limit. -/
def carried (c : Classifier) (e : Endpoint) (uses : List Use) : Nat := (uses.map (c.load e)).sum

variable {c : Classifier} {counters : Counters} {e : Endpoint} {n : Nat}

theorem bytes_tally_use (h : (counters.tally e).bytes.toNat = min n maxAmount.toNat) (u : Use) :
    ((c.use counters u).tally e).bytes.toNat = min (n + c.load e u) maxAmount.toNat := by
  cases u with
  | record f size =>
    rw [use, Counters.tally_record, load]
    split_ifs with hf
    · rw [hf, Tally.add, toNat_satAdd, h]
      omega
    · exact h
  | classify p =>
    rw [use, tally_classify, matched_classify, load]
    split_ifs
    · exact p.toNat_satAdd_size_of_eq h
    · exact h

/-- Over all uses of counters the bytes of an endpoint are counted exactly, up to the largest
amount. -/
theorem bytes_tally_useAll (h : (counters.tally e).bytes.toNat = min n maxAmount.toNat)
    (uses : List Use) :
    ((c.useAll counters uses).tally e).bytes.toNat = min (n + c.carried e uses) maxAmount.toNat := by
  induction uses generalizing counters n with
  | nil => exact h
  | cons u uses ih =>
    rw [useAll, List.foldl_cons, ← useAll, ih (bytes_tally_use h u), carried, carried,
      List.map_cons, List.sum_cons, Nat.add_assoc]

theorem delay_classify_of_largest {r : DelayRule} (hr : r ∈ c.rules.toList)
    (h : (r.schedule c.direction).switch.threshold = maxAmount) (counters : Counters)
    (uses : List Use) {p : Packet} (hp : Matches c.rules c.direction p r.key) :
    (c.classify (c.useAll counters uses) p).1.delay =
      if r.isMetered = true ∧ maxAmount.toNat ≤
        (counters.tally r.key.endpoint).bytes.toNat + c.carried r.key.endpoint uses
      then (r.schedule c.direction).switch.alternate else (r.schedule c.direction).base := by
  have hrule := rule?_eq_some_iff.2 ⟨hr, hp⟩
  by_cases hm : r.isMetered = true
  · have hbytes := bytes_tally_useAll (c := c)
      (Nat.min_eq_left (toNat_le_maxAmount (counters.tally r.key.endpoint).bytes)).symm uses
    rw [classify_of_isMetered hrule hm, Schedule.after_eq_of_toNat hbytes, h]
    simp only [hm, true_and, ← Nat.not_lt, ite_not]
  · rw [classify_of_not_isMetered hrule hm, if_neg fun hc => hm hc.1]

end Classifier

theorem never_switches_iff (c : Classifier) {r : DelayRule} (hr : r ∈ c.rules.toList)
    (h : (r.schedule c.direction).switch.threshold = maxAmount) :
    let s := r.schedule c.direction
    let e := r.key.endpoint
    (∀ carried, s.after carried = if carried = maxAmount then s.switch.alternate else s.base) ∧
    (∀ counters uses p, Matches c.rules c.direction p r.key →
      (c.classify (c.useAll counters uses) p).1.delay =
        if r.isMetered = true ∧
          maxAmount.toNat ≤ (counters.tally e).bytes.toNat + c.carried e uses
        then s.switch.alternate else s.base) ∧
    ∀ counters, (∀ uses p, Matches c.rules c.direction p r.key →
        (c.classify (c.useAll counters uses) p).1.delay = s.base) ↔
      (r.isMetered = true → c.rules.IsLive r.key → s.switch.alternate = s.base) := by
  intro s e
  have hdelay := @Classifier.delay_classify_of_largest c r hr h
  refine ⟨Schedule.after_of_largest h, fun counters uses p => hdelay counters uses,
    fun counters => ⟨fun hbase hm hlive => ?_, fun hsame uses p hp => ?_⟩⟩
  · -- Counting the largest amount at once reaches the threshold.
    obtain ⟨p, hp⟩ := exists_matches_iff.2 ⟨⟨r, hr, rfl⟩, hlive⟩
    have hload : c.load e (.record e maxAmount) = maxAmount.toNat := if_pos rfl
    have hswitch := hdelay counters [.record e maxAmount] hp
    rw [if_pos ⟨hm, by simp [Classifier.carried, e, hload]⟩] at hswitch
    exact hswitch.symm.trans (hbase _ p hp)
  · rw [hdelay counters uses hp]
    split_ifs with hc
    · exact hsame hc.1 hp.isLive
    · rfl

/-- A rule with two delays after more traffic than can be counted, and a rule with one. -/
theorem never_switches_iff_of_two_rules :
    let e : Endpoint := ⟨⟨10, 0, 0, 5⟩, 80⟩
    let r : DelayRule := ⟨⟨6, e⟩, ⟨100, ⟨maxAmount, 5000⟩⟩, .constant 50⟩
    let q : DelayRule := .constant ⟨6, ⟨e.address, 443⟩⟩ 7 7
    let c : Classifier := ⟨.ofList [r, q], .uplink, 20⟩
    (r ∈ c.rules.toList ∧ (r.schedule c.direction).switch.threshold = maxAmount) ∧
    (q ∈ c.rules.toList ∧ (q.schedule c.direction).switch.threshold = maxAmount) ∧
    ¬(∀ uses p, Matches c.rules c.direction p r.key →
      (c.classify (c.useAll .empty uses) p).1.delay = 100) ∧
    ∀ uses p, Matches c.rules c.direction p q.key →
      (c.classify (c.useAll .empty uses) p).1.delay = 7 := by
  intro e r q c
  have hr : r ∈ c.rules.toList := by decide
  have hq : q ∈ c.rules.toList := by decide
  refine ⟨⟨hr, rfl⟩, ⟨hq, rfl⟩, fun hbase => ?_, ?_⟩
  · have hsame := ((never_switches_iff c hr rfl).2.2 .empty).1 hbase (by decide) (by decide)
    exact absurd hsame (by decide)
  · exact ((never_switches_iff c hq rfl).2.2 .empty).2 fun _ _ => rfl

theorem switches_without_threshold :
    let e : Endpoint := ⟨⟨10, 0, 0, 5⟩, 80⟩
    let r : DelayRule := ⟨⟨6, e⟩, ⟨100, ⟨maxAmount, 5000⟩⟩, .constant 50⟩
    let c : Classifier := ⟨.ofList [r], .uplink, 20⟩
    let counters := c.useAll (.seeded c.rules) [.record e maxAmount]
    (c.classify (.seeded c.rules) (.looped r.key)).1 = ⟨100, some r.key⟩ ∧
    (c.classify counters (.looped r.key)).1 = ⟨5000, some r.key⟩ := by
  decide

end DelayLine
