import DelayLine.ReleaseQueue

/-!
# Queues with a fixed delay

Every packet waits equally long.
-/

namespace DelayLine

structure FixedQueue where
  delay : Millis
  pending : ReleaseQueue := .empty
deriving DecidableEq

namespace FixedQueue

def enqueue (q : FixedQueue) (now : Millis) (p : Packet) : FixedQueue :=
  { q with pending := q.pending.push ⟨satAdd now q.delay, p⟩ }

def drain {σ : Type} (q : FixedQueue) (sink : Sink σ) (clock : Nat → Millis) (state : σ) :
    ReleaseQueue.Drained σ × FixedQueue :=
  let d := q.pending.drain sink clock state
  (d, { q with pending := d.remaining })

end FixedQueue

end DelayLine
