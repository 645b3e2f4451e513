import DelayLine.Sink

/-!
# Release queues

A release queue holds packets until their release times, earliest first. Main statements:
`perm_push`, a push adds one packet, and `popDue_eq_some_iff`, what is released at a given time.
-/

namespace DelayLine

/-- A packet that waits for its release time. -/
structure Pending where
  releaseAt : Millis
  payload : Packet
deriving DecidableEq, Repr

namespace Pending

/-- Whether a packet has to go first: it is released earlier, or at the same time and its bytes
come first in lexicographic order. -/
def precedes (p q : Pending) : Bool :=
  p.releaseAt < q.releaseAt || (p.releaseAt == q.releaseAt && p.payload ≤ q.payload)

theorem releaseAt_le_of_precedes {p q : Pending} (h : p.precedes q = true) :
    p.releaseAt ≤ q.releaseAt := by
  simp only [precedes, Bool.or_eq_true, decide_eq_true_eq, Bool.and_eq_true, beq_iff_eq] at h
  rcases h with h | ⟨h, -⟩
  · exact UInt64.le_of_lt h
  · exact h ▸ UInt64.le_refl _

theorem releaseAt_le_of_not_precedes {p q : Pending} (h : ¬p.precedes q = true) :
    q.releaseAt ≤ p.releaseAt := by
  simp only [precedes, Bool.or_eq_true, decide_eq_true_eq, not_or] at h
  exact UInt64.not_lt.1 h.1

/-- Puts a packet before the first that it precedes. -/
def place (p : Pending) : List Pending → List Pending
  | [] => [p]
  | q :: qs => if p.precedes q then p :: q :: qs else q :: place p qs

theorem perm_place (p : Pending) (qs : List Pending) : (place p qs).Perm (p :: qs) := by
  induction qs with
  | nil => exact .refl _
  | cons q qs ih =>
    unfold place
    split
    · exact .refl _
    · exact (ih.cons q).trans (.swap p q qs)

theorem pairwise_place (p : Pending) {qs : List Pending}
    (h : qs.Pairwise fun p q => p.releaseAt ≤ q.releaseAt) :
    (place p qs).Pairwise fun p q => p.releaseAt ≤ q.releaseAt := by
  induction qs with
  | nil => exact List.pairwise_singleton _ _
  | cons q qs ih =>
    obtain ⟨hq, hqs⟩ := List.pairwise_cons.1 h
    unfold place
    split
    · next hp =>
      have hp := releaseAt_le_of_precedes hp
      refine List.pairwise_cons.2 ⟨fun r hr => ?_, h⟩
      rcases List.mem_cons.1 hr with rfl | hr
      · exact hp
      · exact UInt64.le_trans hp (hq r hr)
    · next hp =>
      refine List.pairwise_cons.2 ⟨fun r hr => ?_, ih hqs⟩
      rcases List.mem_cons.1 ((perm_place p qs).mem_iff.1 hr) with rfl | hr
      · exact releaseAt_le_of_not_precedes hp
      · exact hq r hr

end Pending

structure ReleaseQueue where
  toList : List Pending
  sorted : toList.Pairwise fun p q => p.releaseAt ≤ q.releaseAt

/-- The wait that stands for an empty queue. -/
def idleWait : Millis := 65535

namespace ReleaseQueue

@[ext] theorem ext {q r : ReleaseQueue} (h : q.toList = r.toList) : q = r := by
  cases q
  cases r
  cases h
  rfl

instance : DecidableEq ReleaseQueue := fun _ _ => decidable_of_iff _ ⟨ext, congrArg toList⟩

def empty : ReleaseQueue := ⟨[], .nil⟩

def size (q : ReleaseQueue) : Nat := q.toList.length

def push (q : ReleaseQueue) (p : Pending) : ReleaseQueue :=
  ⟨p.place q.toList, p.pairwise_place q.sorted⟩

theorem perm_push (q : ReleaseQueue) (p : Pending) : (q.push p).toList.Perm (p :: q.toList) :=
  p.perm_place q.toList

theorem releaseAt_le_of_toList_eq {q : ReleaseQueue} {front rest : List Pending} {p p' : Pending}
    (h : q.toList = front ++ p :: rest) (hp : p' ∈ p :: rest) : p.releaseAt ≤ p'.releaseAt := by
  have hsorted := q.sorted
  rw [h] at hsorted
  obtain ⟨hle, -⟩ := List.pairwise_cons.1 (List.pairwise_append.1 hsorted).2.1
  rcases List.mem_cons.1 hp with rfl | hp
  · exact UInt64.le_refl _
  · exact hle _ hp

def nextRelease? (q : ReleaseQueue) : Option Millis := q.toList.head?.map Pending.releaseAt

/-- Takes the first packet if it may go at the given time. -/
def popDue (q : ReleaseQueue) (now : Millis) : Option (Pending × ReleaseQueue) :=
  match q with
  | ⟨[], _⟩ => none
  | ⟨p :: rest, h⟩ => if p.releaseAt ≤ now then some (p, ⟨rest, h.of_cons⟩) else none

/-- The time until the first packet may go. -/
def wait (q : ReleaseQueue) (now : Millis) : Millis :=
  q.nextRelease?.elim idleWait fun t => satSub t now

def isReady (q : ReleaseQueue) (now : Millis) : Bool := q.wait now == 0

/-- A queue does not finish by itself, only its owner ends it. -/
def isFinished (_ : ReleaseQueue) : Bool := false

theorem popDue_eq_some_iff {q r : ReleaseQueue} {now : Millis} {p : Pending} :
    q.popDue now = some (p, r) ↔ q.toList = p :: r.toList ∧ p.releaseAt ≤ now := by
  obtain ⟨l, h⟩ := q
  obtain ⟨m, h'⟩ := r
  cases l with
  | nil => simp [popDue]
  | cons x xs =>
    simp only [popDue]
    split
    · next hx =>
      simp only [Option.some.injEq, Prod.mk.injEq, ReleaseQueue.mk.injEq, List.cons.injEq]
      exact ⟨fun e => ⟨e, e.1 ▸ hx⟩, And.left⟩
    · next hx =>
      simp only [reduceCtorEq, List.cons.injEq, false_iff, not_and, and_imp]
      exact fun e _ => e ▸ hx

/-- What a drain did: the packets that the sink took, in order, the packet that it refused, how
often the clock was read, and what is left. -/
structure Drained (σ : Type) where
  written : List Pending
  lost : Option (Pending × WriteFault)
  readings : Nat
  remaining : ReleaseQueue
  sink : σ

/-- The packets that left the queue, in order. -/
def Drained.handed {σ : Type} (d : Drained σ) : List Pending :=
  d.written ++ (d.lost.map Prod.fst).toList

variable {σ : Type} (sink : Sink σ)

def drainList (clock : Nat → Millis) (state : σ) :
    (l : List Pending) → l.Pairwise (fun p q => p.releaseAt ≤ q.releaseAt) → Drained σ
  | [], h => ⟨[], none, 1, ⟨[], h⟩, state⟩
  | p :: rest, h =>
    if p.releaseAt ≤ clock 0 then
      match sink p.payload state with
      | (.error fault, state) => ⟨[], some (p, fault), 1, ⟨rest, h.of_cons⟩, state⟩
      | (.ok (), state) =>
        let d := drainList (fun i => clock (i + 1)) state rest h.of_cons
        { d with written := p :: d.written, readings := d.readings + 1 }
    else ⟨[], none, 1, ⟨p :: rest, h⟩, state⟩

/-- Hands packets to the sink as long as the first may go at the next reading of the clock and the
sink takes it. The clock gives its readings in order, and is read before each packet. -/
def drain (clock : Nat → Millis) (q : ReleaseQueue) (state : σ) : Drained σ :=
  drainList sink clock state q.toList q.sorted

end ReleaseQueue

end DelayLine
