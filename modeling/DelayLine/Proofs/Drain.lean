import DelayLine.ReleaseQueue

/-!
# What a drain does

A drain is a loop of pops, each at the next reading of the clock (`drains_drain`). So it takes
packets from the front of the queue and leaves the others (`Drains.toList`), each goes at its own
reading and not before its release time (`Drains.releaseAt_le`), and a drain that no fault ends
stops at a reading before the release times of all that it leaves (`Drains.lt_releaseAt`).

A journal of the writes on the sink does not change a drain and shows its writes
(`drain_journaled`): the packets that left, in order, of which only the last can have failed.
-/

namespace DelayLine

/-- A write on a sink, with what it came to. -/
structure Write where
  packet : Packet
  result : Except WriteFault Unit

/-- The sink that also keeps a journal of the writes on it. -/
def Sink.journaled {σ : Type} (sink : Sink σ) : Sink (σ × List Write) := fun p s =>
  let (result, state) := sink p s.1
  (result, state, s.2 ++ [⟨p, result⟩])

namespace ReleaseQueue

theorem popDue_eq_none_iff {q : ReleaseQueue} {now : Millis} :
    q.popDue now = none ↔ ∀ p ∈ q.toList, now < p.releaseAt := by
  obtain ⟨l, h⟩ := q
  cases l with
  | nil => simp [popDue]
  | cons p rest =>
    have hle := (List.pairwise_cons.1 h).1
    simp only [popDue, ite_eq_right_iff, reduceCtorEq, imp_false, UInt64.not_le,
      List.forall_mem_cons]
    exact ⟨fun hp => ⟨hp, fun r hr => UInt64.lt_of_lt_of_le hp (hle r hr)⟩, And.left⟩

variable {σ : Type}

namespace Drained

/-- What a drain returns: the number of packets written, or the fault that ended it. -/
def result (d : Drained σ) : Except WriteFault Nat :=
  match d.lost with
  | none => .ok d.written.length
  | some (_, fault) => .error fault

def writes (d : Drained σ) : List Write :=
  (d.written.map fun p => ⟨p.payload, .ok ()⟩) ++
    (d.lost.map fun l => ⟨l.1.payload, .error l.2⟩).toList

theorem map_packet_writes (d : Drained σ) :
    d.writes.map Write.packet = d.handed.map Pending.payload := by
  rcases h : d.lost with _ | ⟨p, fault⟩ <;> simp [writes, handed, h, Function.comp_def]

/-- The drain with one more packet written before it. -/
def after (p : Pending) (d : Drained σ) : Drained σ :=
  { d with written := p :: d.written, readings := d.readings + 1 }

theorem handed_after (p : Pending) (d : Drained σ) : (d.after p).handed = p :: d.handed := rfl

theorem handed_of_lost_eq_none {d : Drained σ} (h : d.lost = none) : d.handed = d.written := by
  rw [handed, h]
  exact List.append_nil _

theorem handed_of_lost_eq_some {d : Drained σ} {p : Pending} {fault : WriteFault}
    (h : d.lost = some (p, fault)) : d.handed = d.written ++ [p] := by
  rw [handed, h]
  rfl

theorem length_handed_le {d : Drained σ} (h : d.readings = d.written.length + 1) :
    d.handed.length ≤ d.readings := by
  rcases hl : d.lost with _ | l <;> simp [handed, hl, h]

end Drained

/-- The loop of a drain: each reading of the clock pops a packet, until none is due or the sink
fails on one. -/
inductive Drains (sink : Sink σ) : (Nat → Millis) → ReleaseQueue → σ → Drained σ → Prop
  | stop {clock : Nat → Millis} {q : ReleaseQueue} {state : σ} :
      q.popDue (clock 0) = none → Drains sink clock q state ⟨[], none, 1, q, state⟩
  | fail {clock : Nat → Millis} {q r : ReleaseQueue} {state next : σ} {p : Pending}
      {fault : WriteFault} :
      q.popDue (clock 0) = some (p, r) → sink p.payload state = (.error fault, next) →
      Drains sink clock q state ⟨[], some (p, fault), 1, r, next⟩
  | write {clock : Nat → Millis} {q r : ReleaseQueue} {state next : σ} {p : Pending}
      {d : Drained σ} :
      q.popDue (clock 0) = some (p, r) → sink p.payload state = (.ok (), next) →
      Drains sink (fun i => clock (i + 1)) r next d → Drains sink clock q state (d.after p)

namespace Drains

variable {sink : Sink σ} {clock : Nat → Millis} {q : ReleaseQueue} {state : σ} {d : Drained σ}

theorem toList (h : Drains sink clock q state d) :
    d.handed ++ d.remaining.toList = q.toList := by
  induction h with
  | stop => rfl
  | fail h => exact (popDue_eq_some_iff.1 h).1.symm
  | @write _ _ _ _ _ p _ h _ _ ih =>
    exact (congrArg (p :: ·) ih).trans (popDue_eq_some_iff.1 h).1.symm

theorem readings (h : Drains sink clock q state d) : d.readings = d.written.length + 1 := by
  induction h with
  | stop => rfl
  | fail => rfl
  | write _ _ _ ih => exact congrArg (· + 1) ih

theorem releaseAt_le (h : Drains sink clock q state d) {i : Nat} {p : Pending}
    (hi : d.handed[i]? = some p) : p.releaseAt ≤ clock i := by
  induction h generalizing i with
  | stop => simp [Drained.handed] at hi
  | fail h =>
    simp only [Drained.handed, List.nil_append, Option.map_some, Option.toList_some,
      List.getElem?_singleton, Option.ite_none_right_eq_some, Option.some.injEq] at hi
    obtain ⟨rfl, rfl⟩ := hi
    exact (popDue_eq_some_iff.1 h).2
  | write h _ _ ih =>
    rw [Drained.handed_after] at hi
    cases i with
    | zero =>
      cases hi
      exact (popDue_eq_some_iff.1 h).2
    | succ i => exact ih hi

theorem lt_releaseAt (h : Drains sink clock q state d) (hl : d.lost = none) {p : Pending}
    (hp : p ∈ d.remaining.toList) : clock d.written.length < p.releaseAt := by
  induction h with
  | stop h => exact popDue_eq_none_iff.1 h p hp
  | fail => cases hl
  | write _ _ _ ih => exact ih hl hp

theorem journaled (h : Drains sink clock q state d) (journal : List Write) :
    Drains sink.journaled clock q (state, journal)
      { d with sink := (d.sink, journal ++ d.writes) } := by
  induction h generalizing journal with
  | stop h => simpa [Drained.writes] using stop h
  | fail h hs => exact fail h (by simp [Sink.journaled, hs, Drained.writes])
  | @write clock q r state next p d h hs _ ih =>
    have hs' : sink.journaled p.payload (state, journal) =
        (.ok (), next, journal ++ [⟨p.payload, .ok ()⟩]) := by
      simp [Sink.journaled, hs]
    have hw := write h hs' (ih (journal ++ [⟨p.payload, .ok ()⟩]))
    simpa [Drained.after, Drained.writes] using hw

end Drains

variable (sink : Sink σ) (clock : Nat → Millis) (q : ReleaseQueue) (state : σ)

theorem drains_drain : Drains sink clock q state (q.drain sink clock state) := by
  obtain ⟨l, h⟩ := q
  unfold drain
  fun_induction drainList sink clock state l h with
  | case1 clock state h => exact .stop rfl
  | case2 clock state p rest h hp fault next hw => exact .fail (if_pos hp) hw
  | case3 clock state p rest h hp next hw d ih => exact .write (if_pos hp) hw ih
  | case4 clock state p rest h hp => exact .stop (if_neg hp)

/-- The loop ends in one way only. -/
theorem Drains.eq {sink : Sink σ} {clock : Nat → Millis} {q : ReleaseQueue} {state : σ}
    {d e : Drained σ} (hd : Drains sink clock q state d) (he : Drains sink clock q state e) :
    d = e := by
  induction hd generalizing e with
  | stop h => cases he <;> simp_all
  | fail h hs => cases he <;> simp_all
  | write h hs _ ih =>
    cases he with
    | stop h' => simp_all
    | fail h' hs' => simp_all
    | write h' hs' he =>
      rw [h] at h'
      cases h'
      rw [hs] at hs'
      cases hs'
      rw [ih he]

theorem drain_journaled (journal : List Write) :
    q.drain sink.journaled clock (state, journal) =
      { q.drain sink clock state with
        sink := ((q.drain sink clock state).sink,
          journal ++ (q.drain sink clock state).writes) } :=
  (drains_drain ..).eq ((drains_drain sink clock q state).journaled journal)

end ReleaseQueue

end DelayLine
