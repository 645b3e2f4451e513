import DelayLine.Proofs.Metering

/-!
# Queues with a single delay

If all rules delay the traffic of a direction by the default delay, before and after their
thresholds, every verdict is that delay (`Classifier.delay_classify`). The rule queue then does what
the queue with that fixed delay does, call by call, on packets that are not too short
(`alike_step`), and a packet that is too short makes no difference (`alike_step_of_isShort`).
-/

namespace DelayLine

/-- All rules delay the traffic of the direction equally, however much a connection carried. -/
def RuleSet.IsUniform (s : RuleSet) (direction : Direction) (delay : Millis) : Prop :=
  ∀ r ∈ s.toList,
    (r.schedule direction).base = delay ∧ (r.schedule direction).switch.alternate = delay

instance (s : RuleSet) (direction : Direction) (delay : Millis) :
    Decidable (s.IsUniform direction delay) :=
  inferInstanceAs (Decidable (∀ r ∈ s.toList, _))

theorem Schedule.after_eq_of_base_eq {s : Schedule} {delay : Millis} (hb : s.base = delay)
    (ha : s.switch.alternate = delay) (carried : UInt64) : s.after carried = delay := by
  unfold after
  split
  · exact hb
  · exact ha

theorem Classifier.delay_classify {c : Classifier}
    (h : c.rules.IsUniform c.direction c.defaultDelay) (counters : Counters) (p : Packet) :
    (c.classify counters p).1.delay = c.defaultDelay := by
  rcases hr : c.rule? p with _ | r
  · rw [classify_of_rule?_eq_none hr]
  obtain ⟨hbase, halternate⟩ := h r (mem_of_rule?_eq_some hr)
  by_cases hm : r.isMetered = true
  · rw [classify_of_isMetered hr hm]
    exact Schedule.after_eq_of_base_eq hbase halternate _
  · rw [classify_of_not_isMetered hr hm]
    exact hbase

/-- Whether a call hands in a packet that is too short for a rule queue. -/
def Call.isShort {σ : Type} : Call σ → Bool
  | enqueue p => p.length < minPacketLength
  | _ => false

namespace Event

def refusal? : Event → Option (Packet × TooSmall)
  | refused p fault => some (p, fault)
  | _ => none

/-- What a queue without rules shows: no refusal, and no key of a rule that a packet matched. -/
def plain? : Event → Option Event
  | refused .. => none
  | taken a => some (taken { a with verdict.matched := none })
  | event => some event

end Event

namespace Run

open PacketQueue

variable {σ : Type} {clock : Nat → Millis}

/-- The packets that were refused, each with the fault that was reported. -/
def refusals (r : Run RuleQueue σ) : List (Packet × TooSmall) := r.history.filterMap Event.refusal?

theorem refusals_after (r : Run RuleQueue σ) (calls : List (Call σ)) :
    (r.after clock calls).refusals = r.refusals ++
      ((calls.filterMap Call.packet?).filter fun p => p.length < minPacketLength).map
        fun p => (p, ⟨p.length⟩) := by
  induction calls generalizing r with
  | nil => exact (List.append_nil _).symm
  | cons c calls ih =>
    have hstep : (r.step clock c).refusals = r.refusals ++
        (c.packet?.toList.filter fun p => p.length < minPacketLength).map
          fun p => (p, ⟨p.length⟩) := by
      cases c with
      | enqueue p =>
        by_cases hp : p.length < minPacketLength
        · have he : enqueue r.queue (clock r.readings) p = _ := RuleQueue.enqueue_of_lt hp r.queue _
          simp [step, he, refusals, Event.refusal?, Call.packet?, hp]
        · have he : enqueue r.queue (clock r.readings) p = _ :=
            RuleQueue.enqueue_of_le (Nat.not_lt.1 hp) r.queue _
          simp [step, he, refusals, Event.refusal?, Call.packet?, hp]
      | drain sink => simp [step, refusals, Event.refusal?, Call.packet?]
      | wait => simp [step, refusals, Event.refusal?, Call.packet?]
    rw [after, List.foldl_cons, ← after, ih, hstep, List.filterMap_cons]
    cases c.packet? <;> simp [List.filter_cons]
    split <;> simp

/-- A rule queue and a queue with a fixed delay that cannot be told apart, but for the packets that
the one refused and the rules that it found. -/
structure Alike (c : Classifier) (r : Run RuleQueue σ) (s : Run FixedQueue σ) : Prop where
  classifier : r.queue.classifier = c
  delay : s.queue.delay = c.defaultDelay
  pending : pending r.queue = pending s.queue
  readings : r.readings = s.readings
  state : r.state = s.state
  history : r.history.filterMap Event.plain? = s.history

variable {c : Classifier} {r : Run RuleQueue σ} {s : Run FixedQueue σ}

theorem alike_step_of_isShort (h : Alike c r s) {call : Call σ} (hshort : call.isShort = true) :
    Alike c (r.step clock call) s := by
  cases call with
  | enqueue p =>
    have hp : p.length < minPacketLength := of_decide_eq_true hshort
    have he : enqueue r.queue (clock r.readings) p = _ := RuleQueue.enqueue_of_lt hp r.queue _
    simp only [step, he]
    refine ⟨h.classifier, h.delay, h.pending, h.readings, h.state, ?_⟩
    rw [List.filterMap_append, h.history]
    exact List.append_nil _
  | drain sink => cases hshort
  | wait => cases hshort

theorem alike_step (hc : c.rules.IsUniform c.direction c.defaultDelay) (h : Alike c r s)
    {call : Call σ} (hshort : call.isShort = false) :
    Alike c (r.step clock call) (s.step clock call) := by
  cases call with
  | enqueue p =>
    have hp : minPacketLength ≤ p.length := Nat.not_lt.1 (of_decide_eq_false hshort)
    have he : enqueue r.queue (clock r.readings) p = _ := RuleQueue.enqueue_of_le hp r.queue _
    have hf : enqueue s.queue (clock s.readings) p =
      (.ok ⟨s.queue.delay, none⟩, s.queue.enqueue (clock s.readings) p) := rfl
    have hd : (r.queue.classifier.classify r.queue.counters p).1.delay = s.queue.delay := by
      rw [h.classifier, h.delay]
      exact Classifier.delay_classify hc ..
    simp only [step, he, hf]
    refine ⟨h.classifier, h.delay, ?_, congrArg (· + 1) h.readings, h.state, ?_⟩
    · have hpending : r.queue.pending = s.queue.pending := h.pending
      simp only [PacketQueue.pending, FixedQueue.enqueue, hd, hpending, h.readings]
    · rw [List.filterMap_append, h.history]
      simp [Event.plain?, hd, h.readings]
  | drain sink =>
    refine ⟨h.classifier, h.delay, ?_, ?_, ?_, ?_⟩ <;>
      simp only [step, drain_fst, pending_drain, h.pending, h.readings, h.state]
    rw [List.filterMap_append, h.history]
    rfl
  | wait =>
    refine ⟨h.classifier, h.delay, h.pending, congrArg (· + 1) h.readings, h.state, ?_⟩
    simp only [step, h.pending, h.readings]
    rw [List.filterMap_append, h.history]
    rfl

/-- Without the packets that are too short, the one queue does what the other does. -/
theorem alike_after (hc : c.rules.IsUniform c.direction c.defaultDelay) (h : Alike c r s)
    (calls : List (Call σ)) :
    Alike c (r.after clock calls) (s.after clock (calls.filter fun call => !call.isShort)) := by
  induction calls generalizing r s with
  | nil => exact h
  | cons call calls ih =>
    cases hshort : call.isShort with
    | true =>
      rw [List.filter_cons_of_neg (by simp [hshort])]
      exact ih (alike_step_of_isShort h hshort)
    | false =>
      rw [List.filter_cons_of_pos (by simp [hshort])]
      exact ih (alike_step hc h hshort)

end Run

/-- Calls are compared by what was seen of them, and so after every call. -/
theorem uniform_eq_fixed {σ : Type} (clock : Nat → Millis) (state : σ) (calls : List (Call σ))
    {rules : RuleSet} {direction : Direction} {config : LinkConfig}
    (h : rules.IsUniform direction config.defaultDelay) :
    let r := Run.after clock { queue := RuleQueue.start rules direction config, state } calls
    let s := Run.after clock
      { queue := ({ delay := config.defaultDelay } : FixedQueue), state }
      (calls.filter fun call => !call.isShort)
    r.history.filterMap Event.plain? = s.history ∧ r.state = s.state ∧ r.readings = s.readings ∧
    (∀ now, r.queue.pending.wait now = s.queue.pending.wait now ∧
      r.queue.pending.isReady now = s.queue.pending.isReady now) ∧
    r.queue.pending = s.queue.pending ∧
    r.refusals = ((calls.filterMap Call.packet?).filter fun p => p.length < 20).map
      fun p => (p, ⟨p.length⟩) := by
  intro r s
  have hstart : Run.Alike ⟨rules, direction, config.defaultDelay⟩
      { queue := RuleQueue.start rules direction config, state }
      { queue := ({ delay := config.defaultDelay } : FixedQueue), state } :=
    ⟨rfl, rfl, rfl, rfl, rfl, rfl⟩
  have hafter : Run.Alike ⟨rules, direction, config.defaultDelay⟩ r s :=
    Run.alike_after h hstart calls
  have hpending : r.queue.pending = s.queue.pending := hafter.pending
  refine ⟨hafter.history, hafter.state, hafter.readings, fun now => ?_, hpending,
    Run.refusals_after _ calls⟩
  rw [hpending]
  exact ⟨rfl, rfl⟩

theorem uniform_eq_fixed_of_threshold :
    let rules : RuleSet := .ofList [⟨⟨6, ⟨⟨10, 0, 0, 5⟩, 80⟩⟩, ⟨20, ⟨40, 20⟩⟩, .constant 50⟩,
      .constant ⟨17, ⟨⟨10, 0, 0, 5⟩, 0⟩⟩ 20 7]
    let packet (protocol : UInt8) : Packet := [0, 0, 8, 0, 69, 0, 0, 24, 0, 0, 0, 0, 64, protocol,
      0, 0, 100, 64, 0, 2, 10, 0, 0, 5, 156, 64, 0, 80]
    let sink := takeAtMost .nothingWritten
    let calls := [.enqueue (packet 6), .enqueue [1, 2], .enqueue (packet 17), .wait,
      .enqueue (packet 6), .drain sink, .enqueue (packet 6), .drain sink]
    let clock (i : Nat) : Millis := .ofNat (10 * i)
    let config : LinkConfig := { defaultDelay := 20 }
    let r := Run.after clock { queue := RuleQueue.start rules .uplink config, state := 2 } calls
    let s := Run.after clock { queue := ({ delay := 20 } : FixedQueue), state := 2 }
      (calls.filter fun call => !call.isShort)
    rules.IsUniform .uplink config.defaultDelay ∧ r.history.filterMap Event.plain? = s.history ∧
    s.handed.map Pending.releaseAt = [20, 30, 50] ∧ s.queue.pending.size = 1 ∧
    r.refusals = [([1, 2], ⟨2⟩)] := by
  intro rules packet sink calls clock config r s
  have huniform : rules.IsUniform .uplink config.defaultDelay := by decide
  have h := uniform_eq_fixed clock 2 calls huniform
  exact ⟨huniform, h.1, by decide, by decide, h.2.2.2.2.2⟩

end DelayLine
