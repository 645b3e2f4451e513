import DelayLine.Packet

/-!
# Packet sinks

A sink takes one packet per call. A byte stream is a sink whose write calls may accept a part of
what they are offered: the rest of the packet is offered again, also after an interruption, until
the packet is gone or a call accepts nothing or fails. An empty packet is a single call.
-/

namespace DelayLine

/-- The kinds of errors that end a write call. Those that are treated alike go by their names. -/
inductive FaultKind where
  | nothingWritten
  | interrupted
  | other (name : Text)
deriving DecidableEq, Repr

/-- Why a packet was not written: the error that a write call ended with. -/
structure WriteFault where
  kind : FaultKind
  message : Text
deriving DecidableEq, Repr

namespace WriteFault

/-- The fault of a stream that accepts no byte of what it is offered. -/
def nothingWritten : WriteFault := ⟨.nothingWritten, "failed to write whole buffer".toList⟩

/-- The text of the error that a drain ends with. -/
def sinkMessage (fault : WriteFault) : Text :=
  "failed to write packet to sink: ".toList ++ fault.message

end WriteFault

/-- What takes packets, as a step on its state. -/
abbrev Sink (σ : Type) := Packet → σ → Except WriteFault Unit × σ

def collect : Sink (List Packet) := fun p kept => (.ok (), kept ++ [p])

/-- The sink that takes as many packets as its state says and has a fault on the others. -/
def takeAtMost (fault : WriteFault) : Sink Nat
  | _, 0 => (.error fault, 0)
  | _, n + 1 => (.ok (), n)

/-- What a stream says to a write call: that it accepts bytes up to a limit, or that the call
failed. -/
inductive Answer where
  | accept (limit : Nat)
  | fail (fault : WriteFault)
deriving DecidableEq, Repr

/-- A write call: the bytes that were offered and how many of them were accepted. -/
structure WriteCall where
  offered : Bytes
  accepted : Nat
deriving DecidableEq, Repr

def WriteCall.chunk (c : WriteCall) : Bytes := c.offered.take c.accepted

/-- The write calls for a packet, their result, and the answers that are left for later calls. -/
structure Transmission where
  calls : List WriteCall
  result : Except WriteFault Unit
  answers : List Answer

def Transmission.bytes (t : Transmission) : Bytes := t.calls.flatMap WriteCall.chunk

/-- The transmission with a write call before it. -/
def Transmission.after (c : WriteCall) (t : Transmission) : Transmission :=
  { t with calls := c :: t.calls }

/-- Offers what is left of a packet until it is gone. Where the answers end, all is accepted. -/
def transmitRest (rest : Bytes) : List Answer → Transmission
  | [] => ⟨[⟨rest, rest.length⟩], .ok (), []⟩
  | .fail fault :: answers =>
    if fault.kind = .interrupted then (transmitRest rest answers).after ⟨rest, 0⟩
    else ⟨[⟨rest, 0⟩], .error fault, answers⟩
  | .accept limit :: answers =>
    if limit = 0 then ⟨[⟨rest, 0⟩], .error .nothingWritten, answers⟩
    else if rest.length ≤ limit then ⟨[⟨rest, rest.length⟩], .ok (), answers⟩
    else (transmitRest (rest.drop limit) answers).after ⟨rest, limit⟩

/-- The only write call for an empty packet. -/
def transmitEmpty : List Answer → Transmission
  | [] => ⟨[⟨[], 0⟩], .ok (), []⟩
  | .accept _ :: answers => ⟨[⟨[], 0⟩], .ok (), answers⟩
  | .fail fault :: answers => ⟨[⟨[], 0⟩], .error fault, answers⟩

/-- Writes a packet to a byte stream that gives the answers. -/
def transmit (p : Packet) (answers : List Answer) : Transmission :=
  if p = [] then transmitEmpty answers else transmitRest p answers

/-- Writes packets one after the other, whatever becomes of each. -/
def transmitAll : List Packet → List Answer → List Transmission
  | [], _ => []
  | p :: ps, answers =>
    let t := transmit p answers
    t :: transmitAll ps t.answers

def byteStream : Sink (List Answer) := fun p answers =>
  let t := transmit p answers
  (t.result, t.answers)

end DelayLine
