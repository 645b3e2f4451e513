import DelayLine.RoundTrip

/-!
# Command line arguments

Three commands work on a file: `show` prints its rules as a table, `render` prints them as a rule
file, and `gen` makes rules from round trips. Arguments are read from left to right up to the first
request for help or for the version, or the first that makes no sense.
-/

namespace DelayLine

inductive Command where
  | table (rules : Text)
  | canonical (rules : Text)
  | generate (roundTrips : Text) (profile : Profile) (output : Option Text)
deriving DecidableEq, Repr

namespace Command

/-- Why there is no command to run. -/
inductive Stop where
  | help
  | version
  | misuse
deriving DecidableEq, Repr

inductive Verb where
  | table
  | canonical
  | generate
deriving DecidableEq, Repr

def Verb.parse? (t : Text) : Option Verb :=
  if t = "show".toList then some table
  else if t = "render".toList then some canonical
  else if t = "gen".toList then some generate
  else none

/-- What a command takes a value for. -/
inductive Slot where
  | file
  | profile
  | output
deriving DecidableEq, Repr

/-- The values given to a command so far. -/
structure Draft where
  file : Option Text := none
  profile : Option Profile := none
  output : Option Text := none
deriving DecidableEq, Repr

namespace Draft

/-- Gives a value. Each is given once, a profile by its name, and the others are not empty. -/
def set (d : Draft) : Slot → Text → Except Stop Draft
  | .file, value =>
    if d.file = none ∧ value ≠ [] then return { d with file := some value } else throw .misuse
  | .output, value =>
    if d.output = none ∧ value ≠ [] then return { d with output := some value } else throw .misuse
  | .profile, value =>
    match d.profile, Profile.parse? value with
    | none, some profile => return { d with profile := some profile }
    | _, _ => throw .misuse

def finish (d : Draft) (verb : Verb) : Except Stop Command :=
  match d.file, verb with
  | none, _ => throw .misuse
  | some file, .table => return .table file
  | some file, .canonical => return .canonical file
  | some file, .generate => return .generate file (d.profile.getD .base) d.output

end Draft

/-- What an argument of a command says. -/
inductive Ask where
  /-- Nothing but more talk on standard error. -/
  | more
  | gives (slot : Slot) (value : Text)
  | awaits (slot : Slot)
deriving DecidableEq, Repr

/-- The value behind the first equals sign. -/
def attached (t : Text) : Option Text :=
  match t.dropWhile (· ≠ '=') with
  | [] => none
  | _ :: value => some value

/-- Reads a long option behind its dashes. -/
def longOption (verb : Verb) (t : Text) : Except Stop Ask :=
  let name := t.takeWhile (· ≠ '=')
  let ask (slot : Slot) : Ask := (attached t).elim (.awaits slot) (.gives slot)
  if name = "verbose".toList ∧ attached t = none then return .more
  else if name = "help".toList ∧ attached t = none then throw .help
  else if name = "profile".toList ∧ verb = .generate then return ask .profile
  else if name = "output".toList ∧ verb = .generate then return ask .output
  else throw .misuse

/-- Reads options of one letter. What follows the letter of the output is its value. -/
def shortOptions (verb : Verb) : Text → Except Stop Ask
  | [] => return .more
  | 'v' :: rest => shortOptions verb rest
  | 'h' :: _ => throw .help
  | 'o' :: rest =>
    if verb ≠ .generate then throw .misuse
    else match rest with
      | [] => return .awaits .output
      | '=' :: value => return .gives .output value
      | value => return .gives .output value
  | _ => throw .misuse

/-- Reads an argument of a command. A lone dash is a value like any other. -/
def Ask.ofArgument (verb : Verb) : Text → Except Stop Ask
  | '-' :: '-' :: t => longOption verb t
  | '-' :: c :: t => shortOptions verb (c :: t)
  | t => return .gives .file t

def isOption : Text → Bool
  | '-' :: _ :: _ => true
  | _ => false

/-- Reads the arguments of a command. What follows two dashes is no option. -/
def readArguments (verb : Verb) : Draft → List Text → Except Stop Draft
  | d, [] => return d
  | d, arg :: rest =>
    if arg = ['-', '-'] then rest.foldlM (·.set .file) d
    else
      match Ask.ofArgument verb arg, rest with
      | .error stop, _ => throw stop
      | .ok .more, rest => readArguments verb d rest
      | .ok (.gives slot value), rest => do readArguments verb (← d.set slot value) rest
      | .ok (.awaits _), [] => throw .misuse
      | .ok (.awaits slot), value :: rest =>
        if isOption value then throw .misuse
        else do readArguments verb (← d.set slot value) rest

/-- Reads options of one letter before the name of a command. -/
def globalOptions : Text → Except Stop Unit
  | [] => return
  | 'v' :: rest => globalOptions rest
  | 'h' :: _ => throw .help
  | 'V' :: _ => throw .version
  | _ => throw .misuse

/-- What is asked for behind the word for help: help on at most one command. -/
def helpOn : List Text → Stop
  | [] => .help
  | [t] => if (Verb.parse? t).isSome ∨ t = "help".toList then .help else .misuse
  | _ => .misuse

def parse : List Text → Except Stop Command
  | [] => throw .misuse
  | arg :: rest =>
    match arg with
    | '-' :: '-' :: t =>
      if t = "verbose".toList then parse rest
      else if t = "help".toList then throw .help
      else if t = "version".toList then throw .version
      else throw .misuse
    | '-' :: c :: t => do
      globalOptions (c :: t)
      parse rest
    | t =>
      match Verb.parse? t with
      | some verb => do (← readArguments verb {} rest).finish verb
      | none => throw (if t = "help".toList then helpOn rest else .misuse)

end Command

end DelayLine
