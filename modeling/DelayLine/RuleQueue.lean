import DelayLine.Classifier
import DelayLine.CounterFiles
import DelayLine.ReleaseQueue

/-!
# Queues that follow rules

A rule queue delays the packets of one direction of a link by the verdicts of a classifier and
counts their bytes. When it is torn down, by closing or by dropping it, its counters are written
once, if it has a place for them.
-/

namespace DelayLine

/-- The settings shared by both directions of a link. -/
structure LinkConfig where
  defaultDelay : Millis
  stem : Option Text := none
deriving DecidableEq, Repr

/-- The length of the shortest packet that a rule queue takes. -/
def minPacketLength : Nat := 20

structure TooSmall where
  length : Nat
deriving DecidableEq, Repr

def TooSmall.message (f : TooSmall) : Text :=
  "packet too small: ".toList ++ Numeral.render f.length ++ " bytes, expected at least ".toList ++
    Numeral.render minPacketLength

structure RuleQueue where
  classifier : Classifier
  counters : Counters
  pending : ReleaseQueue := .empty
  /-- The bytes of all packets that were handed in. -/
  totalBytes : UInt64 := 0
  /-- The place for the counters as long as they are not written. -/
  output : Option CounterFiles
deriving DecidableEq

/-- What became of the counters in a teardown: the result that is returned, the faults that are
only logged and the files. -/
structure Teardown where
  result : Except PersistFault Unit
  logged : List PersistFault
  tree : FileTree

namespace RuleQueue

def start (rules : RuleSet) (direction : Direction) (config : LinkConfig) : RuleQueue where
  classifier := ⟨rules, direction, config.defaultDelay⟩
  counters := .seeded rules
  output := config.stem.map fun stem => ⟨stem, direction⟩

/-- Takes a packet at the given reading of the clock. A packet that is too short only counts for the
total. -/
def enqueue (q : RuleQueue) (now : Millis) (p : Packet) : Except TooSmall Verdict × RuleQueue :=
  let q := { q with totalBytes := satAdd q.totalBytes p.size }
  if p.length < minPacketLength then (.error ⟨p.length⟩, q)
  else
    let (verdict, counters) := q.classifier.classify q.counters p
    (.ok verdict,
      { q with counters, pending := q.pending.push ⟨satAdd now verdict.delay, p⟩ })

theorem enqueue_of_lt {p : Packet} (h : p.length < minPacketLength) (q : RuleQueue)
    (now : Millis) : q.enqueue now p =
      (.error ⟨p.length⟩, { q with totalBytes := satAdd q.totalBytes p.size }) :=
  if_pos h

theorem enqueue_of_le {p : Packet} (h : minPacketLength ≤ p.length) (q : RuleQueue)
    (now : Millis) : q.enqueue now p =
      let (verdict, counters) := q.classifier.classify q.counters p
      (.ok verdict, { q with
        totalBytes := satAdd q.totalBytes p.size
        counters
        pending := q.pending.push ⟨satAdd now verdict.delay, p⟩ }) :=
  if_neg (Nat.not_lt.2 h)

def drain {σ : Type} (q : RuleQueue) (sink : Sink σ) (clock : Nat → Millis) (state : σ) :
    ReleaseQueue.Drained σ × RuleQueue :=
  let d := q.pending.drain sink clock state
  (d, { q with pending := d.remaining })

/-- Writes the counters unless that was done before. -/
def persist (q : RuleQueue) (t : FileTree) : Except PersistFault Unit × RuleQueue × FileTree :=
  match q.output with
  | none => (.ok (), q, t)
  | some files =>
    let (result, t) := files.write q.totalBytes q.counters t
    (result, { q with output := none }, t)

/-- Drops the queue. A fault is logged. -/
def drop (q : RuleQueue) (t : FileTree) : Teardown :=
  match q.persist t with
  | (.ok (), _, t) => ⟨.ok (), [], t⟩
  | (.error fault, _, t) => ⟨.ok (), [fault], t⟩

/-- Closes the queue and then drops it. A fault in closing is returned. -/
def close (q : RuleQueue) (t : FileTree) : Teardown :=
  let (result, q, t) := q.persist t
  { q.drop t with result }

end RuleQueue

end DelayLine
