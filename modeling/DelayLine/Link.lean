import DelayLine.RuleQueue

/-!
# Links

A link is a queue for each direction. The queues share the rules and nothing else.
-/

namespace DelayLine

structure Link where
  uplink : RuleQueue
  downlink : RuleQueue
deriving DecidableEq

namespace Link

def start (rules : RuleSet) (config : LinkConfig) : Link :=
  ⟨.start rules .uplink config, .start rules .downlink config⟩

def queue (l : Link) : Direction → RuleQueue
  | .uplink => l.uplink
  | .downlink => l.downlink

def setQueue (l : Link) (d : Direction) (q : RuleQueue) : Link :=
  match d with
  | .uplink => { l with uplink := q }
  | .downlink => { l with downlink := q }

/-- The shorter wait of the two directions. -/
def wait (l : Link) (now : Millis) : Millis :=
  min (l.uplink.pending.wait now) (l.downlink.pending.wait now)

def drop (l : Link) (t : FileTree) : Teardown :=
  let up := l.uplink.drop t
  let down := l.downlink.drop up.tree
  ⟨.ok (), up.logged ++ down.logged, down.tree⟩

/-- Closes both queues. The downlink is only dropped if the uplink fails. -/
def close (l : Link) (t : FileTree) : Teardown :=
  let up := l.uplink.close t
  match up.result with
  | .ok () =>
    let down := l.downlink.close up.tree
    { down with logged := up.logged ++ down.logged }
  | .error fault =>
    let down := l.downlink.drop up.tree
    ⟨.error fault, up.logged ++ down.logged, down.tree⟩

end Link

end DelayLine
