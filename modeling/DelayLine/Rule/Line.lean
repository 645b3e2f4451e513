import DelayLine.Amount
import DelayLine.Rule.Basic

/-!
# Rule lines

A rule is written on one line of a rule file, in five, seven or nine columns: protocol, address,
port and the two base delays, then the forward switch, then the reverse switch. The reverse switch
of a line is checked but not used: the forward switch applies both ways. A line that says otherwise
is reported as overruled. Columns are read from left to right, and the first that cannot be read is
the fault of the line.
-/

namespace DelayLine

inductive Column where
  | protocol
  | address
  | port
  | forwardDelay
  | reverseDelay
  | forwardThreshold
  | forwardAlternate
  | reverseThreshold
  | reverseAlternate
deriving DecidableEq, Repr

def Column.name : Column → Text
  | protocol => "protocol".toList
  | address => "address".toList
  | port => "port".toList
  | forwardDelay => "forward delay".toList
  | reverseDelay => "reverse delay".toList
  | forwardThreshold => "forward threshold".toList
  | forwardAlternate => "forward alternate delay".toList
  | reverseThreshold => "reverse threshold".toList
  | reverseAlternate => "reverse alternate delay".toList

inductive LineFault where
  | fieldCount (count : Nat)
  | number (column : Column) (token : Text)
  | protocol (value : UInt64)
  | address (token : Text)
  | port (value : UInt64)
deriving DecidableEq, Repr

def LineFault.message (line : Nat) : LineFault → Text
  | fieldCount count =>
    "failed to parse rule #".toList ++ Numeral.render line ++
      ": invalid number of fields (".toList ++ Numeral.render count ++
      "), expected 5, 7 or 9".toList
  | number column token =>
    "invalid ".toList ++ column.name ++ " '".toList ++ token ++ "' in rule #".toList ++
      Numeral.render line
  | protocol value =>
    "invalid protocol number '".toList ++ Numeral.render value.toNat ++ "' in rule #".toList ++
      Numeral.render line
  | address token =>
    '\'' :: token ++ "' in rule #".toList ++ Numeral.render line ++
      " is not a valid IPv4 address: invalid IPv4 address syntax".toList
  | port value =>
    "invalid port number '".toList ++ Numeral.render value.toNat ++ "' in rule #".toList ++
      Numeral.render line

/-- A line whose reverse switch `given` is not the forward switch `used` in its place. -/
structure Overruled where
  given : Switch
  used : Switch
deriving DecidableEq, Repr

namespace Switch

def tokens (s : Switch) : List Text :=
  [Numeral.render s.threshold.toNat, Numeral.render s.alternate.toNat]

end Switch

namespace DelayRule

/-- Whether the line of a rule has to show its reverse switch. -/
def showsReverse (r : DelayRule) : Bool := r.reverse != .constant r.reverse.base

/-- Whether the line of a rule has to show its forward switch. -/
def showsForward (r : DelayRule) : Bool := r.showsReverse || r.forward != .constant r.forward.base

/-- The columns of a rule, in the shortest layout that shows all its switches. -/
def tokens (r : DelayRule) : List Text :=
  [Numeral.render r.key.protocol.toNat, r.key.endpoint.address.render,
    Numeral.render r.key.endpoint.port.toNat, Numeral.render r.forward.base.toNat,
    Numeral.render r.reverse.base.toNat] ++
  (if r.showsForward then r.forward.switch.tokens else []) ++
  (if r.showsReverse then r.reverse.switch.tokens else [])

def render (r : DelayRule) : Text := [' '].intercalate r.tokens

/-- Reads a number of at most 64 bits in a column. -/
def readWord (column : Column) (token : Text) : Except LineFault UInt64 :=
  (word? token).elim (throw (.number column token)) pure

def readProtocol (token : Text) : Except LineFault UInt8 := do
  let value ← readWord .protocol token
  if value.toNat < UInt8.size then pure value.toUInt8 else throw (.protocol value)

def readAddress (token : Text) : Except LineFault Address :=
  (Address.parse? token).elim (throw (.address token)) pure

def readPort (token : Text) : Except LineFault UInt16 := do
  let value ← readWord .port token
  if value.toNat < UInt16.size then pure value.toUInt16 else throw (.port value)

/-- Reads a delay or a byte count in a column. -/
def readAmount (column : Column) (token : Text) : Except LineFault UInt64 :=
  (amount? token).elim (throw (.number column token)) pure

/-- Reads the five columns that every line has. -/
def readConstant (protocol address port forward reverse : Text) : Except LineFault DelayRule := do
  let protocol ← readProtocol protocol
  let address ← readAddress address
  let port ← readPort port
  let forward ← readAmount .forwardDelay forward
  let reverse ← readAmount .reverseDelay reverse
  return .constant ⟨protocol, address, port⟩ forward reverse

def readForwardSwitch (threshold alternate : Text) : Except LineFault Switch := do
  return ⟨← readAmount .forwardThreshold threshold, ← readAmount .forwardAlternate alternate⟩

def readReverseSwitch (threshold alternate : Text) : Except LineFault Switch := do
  return ⟨← readAmount .reverseThreshold threshold, ← readAmount .reverseAlternate alternate⟩

def ofTokens : List Text → Except LineFault (DelayRule × Option Overruled)
  | [p, a, o, f, r] => do
    return (← readConstant p a o f r, none)
  | [p, a, o, f, r, threshold, alternate] => do
    let rule ← readConstant p a o f r
    let switch ← readForwardSwitch threshold alternate
    return ({ rule with forward.switch := switch }, none)
  | [p, a, o, f, r, threshold, alternate, threshold', alternate'] => do
    let rule ← readConstant p a o f r
    let used ← readForwardSwitch threshold alternate
    let given ← readReverseSwitch threshold' alternate'
    return ({ rule with forward.switch := used, reverse.switch := used },
      if given = used then none else some ⟨given, used⟩)
  | tokens => throw (.fieldCount tokens.length)

def ofLine (line : Text) : Except LineFault (DelayRule × Option Overruled) :=
  ofTokens (Text.fields line)

end DelayRule

end DelayLine
