import DelayLine.Counters
import DelayLine.FileTree

/-!
# Counter files

The counters of one direction are written to three files next to a common stem: the total of bytes,
the bytes of each endpoint and the packets of each endpoint.
-/

namespace DelayLine

inductive CounterKind where
  | total
  | bytes
  | packets
deriving DecidableEq, Repr

def CounterKind.name : CounterKind → Text
  | total => "bytes".toList
  | bytes => "bytes_per_conn".toList
  | packets => "pkts_per_conn".toList

structure CounterFiles where
  stem : Text
  direction : Direction
deriving DecidableEq, Repr

structure PersistFault where
  path : Text
  cause : FileFault
deriving DecidableEq, Repr

/-- Writes files in order up to the first that cannot be written. -/
def FileTree.createAll (t : FileTree) :
    List (Text × Bytes) → Except PersistFault Unit × FileTree
  | [] => (.ok (), t)
  | (path, content) :: rest =>
    match t.create path content with
    | .error cause => (.error ⟨path, cause⟩, t)
    | .ok t => t.createAll rest

namespace CounterFiles

def path (f : CounterFiles) (kind : CounterKind) : Text :=
  f.stem ++ '.' :: kind.name ++ '_' :: f.direction.name

def text (total : UInt64) (counters : Counters) : CounterKind → Text
  | .total => Numeral.render total.toNat ++ ['\n']
  | .bytes => counters.renderBy Tally.bytes
  | .packets => counters.renderBy Tally.packets

/-- The files in the order in which they are written. -/
def contents (f : CounterFiles) (total : UInt64) (counters : Counters) : List (Text × Bytes) :=
  [.total, .bytes, .packets].map fun kind => (f.path kind, Text.encode (text total counters kind))

def write (f : CounterFiles) (total : UInt64) (counters : Counters) (t : FileTree) :
    Except PersistFault Unit × FileTree :=
  t.createAll (f.contents total counters)

end CounterFiles

end DelayLine
