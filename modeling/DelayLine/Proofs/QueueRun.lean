import Mathlib.Data.Multiset.AddSub
import DelayLine.FixedQueue
import DelayLine.RuleQueue
import DelayLine.Proofs.Drain

/-!
# Runs of a queue

A poller calls a queue in any order. The clock gives one reading for each packet that is taken,
for each pop that a drain tries and for each question for the wait. A run keeps a history of what
every call came to, and `moves_step` says all that one call can do to it.
-/

namespace DelayLine

open ReleaseQueue (Drained)

/-- What the queues share. A packet that is taken waits for the delay of its verdict. -/
class PacketQueue (Q : Type) where
  pending : Q → ReleaseQueue
  enqueue : Q → Millis → Packet → Except TooSmall Verdict × Q
  drain : {σ : Type} → Q → Sink σ → (Nat → Millis) → σ → Drained σ × Q
  pending_of_refused {q r : Q} {now : Millis} {p : Packet} {fault : TooSmall} :
    enqueue q now p = (.error fault, r) → pending r = pending q
  pending_of_taken {q r : Q} {now : Millis} {p : Packet} {v : Verdict} :
    enqueue q now p = (.ok v, r) → pending r = (pending q).push ⟨satAdd now v.delay, p⟩
  drain_fst {σ : Type} (q : Q) (sink : Sink σ) (clock : Nat → Millis) (state : σ) :
    (drain q sink clock state).1 = (pending q).drain sink clock state
  pending_drain {σ : Type} (q : Q) (sink : Sink σ) (clock : Nat → Millis) (state : σ) :
    pending (drain q sink clock state).2 = ((pending q).drain sink clock state).remaining

instance : PacketQueue FixedQueue where
  pending := FixedQueue.pending
  enqueue q now p := (.ok ⟨q.delay, none⟩, q.enqueue now p)
  drain := FixedQueue.drain
  pending_of_refused h := by simp at h
  pending_of_taken h := by
    simp only [Prod.mk.injEq, Except.ok.injEq] at h
    obtain ⟨rfl, rfl⟩ := h
    rfl
  drain_fst _ _ _ _ := rfl
  pending_drain _ _ _ _ := rfl

instance : PacketQueue RuleQueue where
  pending := RuleQueue.pending
  enqueue := RuleQueue.enqueue
  drain := RuleQueue.drain
  pending_of_refused {q r now p fault} h := by
    unfold RuleQueue.enqueue at h
    split_ifs at h
    · cases h
      rfl
    · simp at h
  pending_of_taken {q r now p v} h := by
    unfold RuleQueue.enqueue at h
    split_ifs at h
    · simp at h
    · simp only [Prod.mk.injEq, Except.ok.injEq] at h
      obtain ⟨rfl, rfl⟩ := h
      rfl
  drain_fst _ _ _ _ := rfl
  pending_drain _ _ _ _ := rfl

/-- A packet that was taken, the reading of the clock then and the verdict on it. -/
structure Arrival where
  packet : Packet
  reading : Millis
  verdict : Verdict

namespace Arrival

/-- The release time of a packet. -/
def due (a : Arrival) : Nat := min (a.reading.toNat + a.verdict.delay.toNat) maxAmount.toNat

def pending (a : Arrival) : Pending := ⟨satAdd a.reading a.verdict.delay, a.packet⟩

@[simp] theorem toNat_releaseAt_pending (a : Arrival) : a.pending.releaseAt.toNat = a.due :=
  toNat_satAdd ..

theorem reading_le_releaseAt_pending (a : Arrival) : a.reading ≤ a.pending.releaseAt := by
  have := toNat_le_maxAmount a.reading
  rw [UInt64.le_iff_toNat_le, toNat_releaseAt_pending, due]
  omega

/-- A delay that is not shorter does not make up for a later reading, unless time ends. -/
theorem due_lt_due {a b : Arrival} (hreading : a.reading < b.reading)
    (hdelay : a.verdict.delay ≤ b.verdict.delay)
    (hmax : a.reading.toNat + a.verdict.delay.toNat < maxAmount.toNat) : a.due < b.due := by
  have := UInt64.lt_iff_toNat_lt.1 hreading
  have := UInt64.le_iff_toNat_le.1 hdelay
  unfold due
  omega

end Arrival

/-- What was seen of a drain: the packets pending before and after it, those that left the queue,
the readings of the clock, the writes on the sink and what was returned. -/
structure Drainage where
  before : ReleaseQueue
  handed : List Pending
  readings : List Millis
  writes : List Write
  result : Except WriteFault Nat
  after : ReleaseQueue

namespace Drainage

/-- What a journal and the readings of the clock show of a drain. -/
def watched {σ : Type} (before after : ReleaseQueue) (ticks : Nat → Millis)
    (d : Drained (σ × List Write)) : Drainage :=
  ⟨before, d.handed, (List.range d.readings).map ticks, d.sink.2, d.result, after⟩

/-- Packets go from the front of the queue, each with a single write and not before its release
time. A drain that returns a number made that many writes, all good, and leaves nothing that was
due at its last reading. One that returns a fault made a last write that failed, and the packet of
that write is the only one lost. -/
structure Sound (d : Drainage) : Prop where
  parts : d.before.toList = d.handed ++ d.after.toList
  packets : d.writes.map Write.packet = d.handed.map Pending.payload
  length_le : d.handed.length ≤ d.readings.length
  due : ∀ x ∈ d.handed.zip d.readings, x.1.releaseAt ≤ x.2
  ok : ∀ n, d.result = .ok n →
    d.writes.length = n ∧ (∀ w ∈ d.writes, w.result = .ok ()) ∧
      ∃ t, d.readings.getLast? = some t ∧ ∀ p ∈ d.after.toList, t < p.releaseAt
  error : ∀ fault, d.result = .error fault →
    ∃ sent p, d.before.toList = sent ++ p :: d.after.toList ∧
      d.writes = (sent.map fun s => ⟨s.payload, .ok ()⟩) ++ [⟨p.payload, .error fault⟩]

theorem Sound.exists_reading {d : Drainage} (h : d.Sound) {p : Pending} (hp : p ∈ d.handed) :
    ∃ t ∈ d.readings, p.releaseAt ≤ t := by
  obtain ⟨i, hi, rfl⟩ := List.mem_iff_getElem.1 hp
  have hr : i < d.readings.length := hi.trans_le h.length_le
  have hz : i < (d.handed.zip d.readings).length := by
    rw [List.length_zip]
    exact lt_min hi hr
  have := h.due _ (List.getElem_mem hz)
  rw [List.getElem_zip] at this
  exact ⟨_, List.getElem_mem hr, this⟩

theorem sound_watched {σ : Type} (q : ReleaseQueue) (sink : Sink σ) (ticks : Nat → Millis)
    (state : σ) : (watched q (q.drain sink.journaled ticks (state, [])).remaining ticks
      (q.drain sink.journaled ticks (state, []))).Sound := by
  have hd := ReleaseQueue.drains_drain sink ticks q state
  rw [ReleaseQueue.drain_journaled]
  set d := q.drain sink ticks state
  have hparts : q.toList = d.handed ++ d.remaining.toList := hd.toList.symm
  constructor <;> simp only [watched, List.nil_append]
  · exact hparts
  · exact d.map_packet_writes
  · rw [List.length_map, List.length_range]
    exact Drained.length_handed_le hd.readings
  · rintro ⟨p, t⟩ hx
    obtain ⟨i, hi⟩ := List.mem_iff_getElem?.1 hx
    obtain ⟨hp, ht⟩ := List.getElem?_zip_eq_some.1 hi
    obtain ⟨_, ht⟩ := List.getElem?_eq_some_iff.1 ht
    rw [List.getElem_map, List.getElem_range] at ht
    exact ht ▸ hd.releaseAt_le hp
  · intro n hres
    rcases hl : d.lost with _ | l
    · simp only [Drained.result, hl, Except.ok.injEq] at hres
      refine ⟨by simp [Drained.writes, hl, hres], by simp [Drained.writes, hl], ?_⟩
      refine ⟨ticks d.written.length, ?_, fun p hp => hd.lt_releaseAt hl hp⟩
      rw [hd.readings, List.range_succ, List.map_append]
      simp
    · simp [Drained.result, hl] at hres
  · intro fault hres
    rcases hl : d.lost with _ | ⟨p, f⟩
    · simp [Drained.result, hl] at hres
    · simp only [Drained.result, hl, Except.error.injEq] at hres
      refine ⟨d.written, p, ?_, by simp [Drained.writes, hl, hres]⟩
      rw [hparts, Drained.handed_of_lost_eq_some hl, List.append_assoc]
      rfl

end Drainage

inductive Call (σ : Type)
  | enqueue (p : Packet)
  | drain (sink : Sink σ)
  | wait

inductive Event
  | refused (p : Packet) (fault : TooSmall)
  | taken (a : Arrival)
  | drained (d : Drainage)
  | waited (wait : Millis)

def Event.arrival? : Event → Option Arrival
  | taken a => some a
  | _ => none

def Event.drainage? : Event → Option Drainage
  | drained d => some d
  | _ => none

theorem Event.drainage?_eq_some_iff {event : Event} {d : Drainage} :
    event.drainage? = some d ↔ event = .drained d := by
  cases event <;> simp [drainage?]

/-- A queue in use, the number of readings that the clock has given, the state of the sinks and
what has happened. -/
structure Run (Q σ : Type) where
  queue : Q
  readings : Nat := 0
  state : σ
  history : List Event := []

namespace Run

variable {Q σ : Type}

def arrivals (r : Run Q σ) : List Arrival := r.history.filterMap Event.arrival?

def drainages (r : Run Q σ) : List Drainage := r.history.filterMap Event.drainage?

/-- The packets that left the queue in the drains of a run, in order. -/
def handed (r : Run Q σ) : List Pending := r.drainages.flatMap Drainage.handed

/-- The writes on the sinks in the drains of a run, in order. -/
def writes (r : Run Q σ) : List Write := r.drainages.flatMap Drainage.writes

/-- Each packet that left the queue, with the reading at which it was popped. -/
def pops (r : Run Q σ) : List (Pending × Millis) :=
  r.drainages.flatMap fun d => d.handed.zip d.readings

theorem handed_of_drainages_eq {r s : Run Q σ} (h : s.drainages = r.drainages) :
    s.handed = r.handed := by
  rw [handed, h, handed]

theorem handed_of_drainages_append {r s : Run Q σ} {d : Drainage}
    (h : s.drainages = r.drainages ++ [d]) : s.handed = r.handed ++ d.handed := by
  rw [handed, h, List.flatMap_append, List.flatMap_singleton, handed]

theorem drainage?_eq_of_drainages {r s : Run Q σ} {event : Event} {d? : Option Drainage}
    (h : s.history = r.history ++ [event]) (hd : s.drainages = r.drainages ++ d?.toList) :
    event.drainage? = d? := by
  rw [drainages, h, List.filterMap_append, ← drainages, List.append_cancel_left_eq] at hd
  cases he : event.drainage? <;> cases d? <;> simp_all

variable [PacketQueue Q]

open PacketQueue

/-- One call. The sink of a drain is watched through a journal. -/
def step (clock : Nat → Millis) (r : Run Q σ) : Call σ → Run Q σ
  | .enqueue p =>
    match enqueue r.queue (clock r.readings) p with
    | (.error fault, q) => { r with queue := q, history := r.history ++ [.refused p fault] }
    | (.ok v, q) =>
      { r with
        queue := q
        readings := r.readings + 1
        history := r.history ++ [.taken ⟨p, clock r.readings, v⟩] }
  | .drain sink =>
    let ticks i := clock (r.readings + i)
    let (d, q) := drain r.queue sink.journaled ticks (r.state, [])
    let seen := Drainage.watched (pending r.queue) (pending q) ticks d
    { queue := q
      readings := r.readings + d.readings
      state := d.sink.1
      history := r.history ++ [.drained seen] }
  | .wait =>
    { r with
      readings := r.readings + 1
      history := r.history ++ [.waited ((pending r.queue).wait (clock r.readings))] }

/-- The calls, one after the other. -/
def after (clock : Nat → Millis) (r : Run Q σ) (calls : List (Call σ)) : Run Q σ :=
  calls.foldl (step clock) r

theorem history_step (clock : Nat → Millis) (r : Run Q σ) (c : Call σ) :
    ∃ event, (r.step clock c).history = r.history ++ [event] := by
  cases c with
  | enqueue p =>
    simp only [step]
    split <;> exact ⟨_, rfl⟩
  | drain sink => exact ⟨_, rfl⟩
  | wait => exact ⟨_, rfl⟩

/-- What one call can do to a run: nothing that concerns packets, take one, or drain the queue. -/
inductive Moves (clock : Nat → Millis) (r s : Run Q σ) : Prop
  | idle : s.arrivals = r.arrivals → s.drainages = r.drainages →
      pending s.queue = pending r.queue → r.readings ≤ s.readings → Moves clock r s
  | take (a : Arrival) : a.reading = clock r.readings → s.arrivals = r.arrivals ++ [a] →
      s.drainages = r.drainages → pending s.queue = (pending r.queue).push a.pending →
      s.readings = r.readings + 1 → Moves clock r s
  | drain (d : Drainage) : d.Sound → d.before = pending r.queue → d.after = pending s.queue →
      d.readings = (List.range d.readings.length).map (fun i => clock (r.readings + i)) →
      s.arrivals = r.arrivals → s.drainages = r.drainages ++ [d] →
      s.readings = r.readings + d.readings.length → Moves clock r s

theorem moves_step (clock : Nat → Millis) (r : Run Q σ) (c : Call σ) :
    Moves clock r (r.step clock c) := by
  cases c with
  | enqueue p =>
    simp only [step]
    split
    · next q h =>
      exact .idle (by simp [arrivals, Event.arrival?]) (by simp [drainages, Event.drainage?])
        (pending_of_refused h) le_rfl
    · next v q h =>
      exact .take ⟨p, clock r.readings, v⟩ rfl (by simp [arrivals, Event.arrival?])
        (by simp [drainages, Event.drainage?]) (pending_of_taken h) rfl
  | drain sink =>
    let ticks i := clock (r.readings + i)
    let d := drain r.queue sink.journaled ticks (r.state, [])
    refine .drain (Drainage.watched (pending r.queue) (pending d.2) ticks d.1) ?_ rfl rfl
      (by simp [Drainage.watched, ticks]) (by simp [step, arrivals, Event.arrival?])
      (by simp [step, drainages, Event.drainage?, d, ticks])
      (by simp [step, Drainage.watched, d, ticks])
    simp only [d]
    rw [drain_fst, pending_drain]
    exact Drainage.sound_watched ..
  | wait =>
    exact .idle (by simp [step, arrivals, Event.arrival?])
      (by simp [step, drainages, Event.drainage?]) rfl (Nat.le_succ _)

theorem after_induction {P : Run Q σ → Prop} {clock : Nat → Millis} {r : Run Q σ} (hr : P r)
    (hstep : ∀ s c, P s → P (s.step clock c)) (calls : List (Call σ)) :
    P (r.after clock calls) := by
  induction calls generalizing r with
  | nil => exact hr
  | cons c calls ih => exact ih (hstep r c hr)

end Run

end DelayLine
