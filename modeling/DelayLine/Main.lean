import DelayLine.CommandLine.Run

/-!
# The program

Reading, printing and saving for the commands, on the files of the system.
-/

namespace DelayLine

def reportFailure (report : Text) : IO UInt32 := do
  IO.eprintln (String.ofList report)
  return 1

def printText (text : Text) : IO UInt32 := do
  let out ← IO.getStdout
  out.putStr (String.ofList text)
  out.flush
  return 0

def saveText (path text : Text) : IO UInt32 := do
  try
    IO.FS.writeBinFile (String.ofList path) (Text.encode text).toByteArray
    return 0
  catch _ => reportFailure (unwritableMessage path)

/-- The content of a file, if it can be read. -/
def readContent (path : Text) : IO (Option Bytes) := do
  try
    return some (← IO.FS.readBinFile (String.ofList path)).toList
  catch _ => return none

def carryOut (c : Command) : IO UInt32 := do
  match ← readContent c.input with
  | none => reportFailure (unreadableMessage c.input)
  | some content =>
    match c.effect content with
    | .error failure => reportFailure failure.message
    | .ok (.print text) => printText text
    | .ok (.save path text) => saveText path text

def carryOutArguments (args : List Text) : IO UInt32 := do
  match Command.parse args with
  | .ok c => carryOut c
  | .error .misuse => do
    IO.eprintln (String.ofList Command.helpText)
    return 2
  | .error stop => printText stop.answer.2

end DelayLine

def main (args : List String) : IO UInt32 :=
  DelayLine.carryOutArguments (args.map String.toList)
