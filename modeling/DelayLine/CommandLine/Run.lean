import DelayLine.CommandLine.Arguments
import DelayLine.FileTree
import DelayLine.RuleSet.File
import DelayLine.RuleSet.Table

/-!
# Running commands

A command reads its file, and only when all of it was accepted prints or saves a text. Main
statement: `runArguments_of_status_ne_zero`, a run that fails prints nothing and leaves the files as
they were.
-/

namespace DelayLine

/-- What a command does with the text it makes. -/
inductive Effect where
  | print (text : Text)
  | save (path : Text) (text : Text)
deriving DecidableEq, Repr

inductive Failure where
  | unreadable (path : Text) (fault : ReadFault)
  | rules (rejected : Rejected LineFault)
  | roundTrips (rejected : Rejected RoundTripFault)
  | unwritable (path : Text) (cause : FileFault)
deriving DecidableEq, Repr

def Rejected.message {ε : Type} (message : Nat → ε → Text) : Rejected ε → Text
  | undecodable line => "line ".toList ++ Numeral.render line ++ " is not UTF-8".toList
  | faulty line fault => message line fault

def unreadableMessage (path : Text) : Text := "failed to read ".toList ++ path

def unwritableMessage (path : Text) : Text := "failed to write ".toList ++ path

def Failure.message : Failure → Text
  | unreadable path _ => unreadableMessage path
  | rules rejected => rejected.message LineFault.message
  | roundTrips rejected => rejected.message RoundTripFault.message
  | unwritable path _ => unwritableMessage path

namespace Command

def input : Command → Text
  | table file => file
  | canonical file => file
  | generate file _ _ => file

/-- What a command does, given the content of its file. -/
def effect (content : Bytes) : Command → Except Failure Effect
  | table _ => (RuleSet.parse content).mapError .rules |>.map fun s => .print s.table
  | canonical _ => (RuleSet.parse content).mapError .rules |>.map fun s => .print s.render
  | generate _ profile output =>
    (RoundTrip.parse content).mapError .roundTrips |>.map fun records =>
      let text := RuleSet.render (RoundTrip.rules profile records)
      output.elim (.print text) (.save · text)

/-- How a run ended: the exit status, the text on standard output and the files. -/
structure Outcome where
  status : UInt8
  output : Text
  tree : FileTree
deriving DecidableEq, Repr

def run (c : Command) (t : FileTree) : Except Failure Outcome :=
  match t.read c.input with
  | .error fault => throw (.unreadable c.input fault)
  | .ok content => do
    match ← c.effect content with
    | .print text => return ⟨0, text, t⟩
    | .save path text =>
      match t.create path (Text.encode text) with
      | .error cause => throw (.unwritable path cause)
      | .ok t => return ⟨0, [], t⟩

def versionText : Text := "linkdelay 0.1.0\n".toList

def helpText : Text :=
  ("Inspect and generate delay rule files.\n\n" ++
    "Usage: linkdelay [-v] show RULES\n" ++
    "       linkdelay [-v] render RULES\n" ++
    "       linkdelay [-v] gen [--profile base|speed] [-o OUT] RTT_FILE\n").toList

/-- The exit status and the printed text where there is no command to run. -/
def Stop.answer : Stop → UInt8 × Text
  | .help => (0, helpText)
  | .version => (0, versionText)
  | .misuse => (2, [])

def runArguments (args : List Text) (t : FileTree) : Outcome :=
  match parse args with
  | .error stop => ⟨stop.answer.1, stop.answer.2, t⟩
  | .ok c =>
    match c.run t with
    | .error _ => ⟨1, [], t⟩
    | .ok outcome => outcome

/-- A run that succeeds has read the file and then printed a text or created a file. -/
theorem run_eq_ok_iff {c : Command} {t : FileTree} {o : Outcome} :
    c.run t = .ok o ↔ ∃ content, t.read c.input = .ok content ∧
      ((∃ text, c.effect content = .ok (.print text) ∧ o = ⟨0, text, t⟩) ∨
        ∃ path text t', c.effect content = .ok (.save path text) ∧
          t.create path (Text.encode text) = .ok t' ∧ o = ⟨0, [], t'⟩) := by
  unfold run
  rcases t.read c.input with fault | content
  · simp [throw, throwThe, MonadExceptOf.throw]
  rw [bind_eq_ok_iff]
  constructor
  · rintro ⟨text | ⟨path, text⟩, he, h⟩
    · cases h
      exact ⟨content, rfl, .inl ⟨text, he, rfl⟩⟩
    · simp only at h
      split at h
      · cases h
      · next hcreate =>
        cases h
        exact ⟨content, rfl, .inr ⟨path, text, _, he, hcreate, rfl⟩⟩
  · rintro ⟨_, hcontent, ⟨text, he, rfl⟩ | ⟨path, text, t', he, hcreate, rfl⟩⟩
    · cases hcontent
      exact ⟨_, he, rfl⟩
    · cases hcontent
      refine ⟨_, he, ?_⟩
      simp only [hcreate]
      rfl

theorem status_of_run_eq_ok {c : Command} {t : FileTree} {o : Outcome} (h : c.run t = .ok o) :
    o.status = 0 := by
  obtain ⟨_, -, ⟨_, -, rfl⟩ | ⟨_, _, _, -, -, rfl⟩⟩ := run_eq_ok_iff.1 h
  · rfl
  · rfl

variable {args : List Text} {t : FileTree} {c : Command}

theorem runArguments_of_stop {stop : Stop} (h : parse args = .error stop) :
    runArguments args t = ⟨stop.answer.1, stop.answer.2, t⟩ := by
  rw [runArguments, h]

theorem runArguments_of_failure {failure : Failure} (hparse : parse args = .ok c)
    (hrun : c.run t = .error failure) : runArguments args t = ⟨1, [], t⟩ := by
  simp only [runArguments, hparse, hrun]

theorem runArguments_of_run {o : Outcome} (hparse : parse args = .ok c)
    (hrun : c.run t = .ok o) : runArguments args t = o := by
  simp only [runArguments, hparse, hrun]

theorem runArguments_of_status_ne_zero (h : (runArguments args t).status ≠ 0) :
    (runArguments args t).output = [] ∧ (runArguments args t).tree = t := by
  rcases hparse : parse args with stop | c
  · rw [runArguments_of_stop hparse] at h ⊢
    cases stop with
    | help => exact absurd rfl h
    | version => exact absurd rfl h
    | misuse => exact ⟨rfl, rfl⟩
  rcases hrun : c.run t with failure | o
  · rw [runArguments_of_failure hparse hrun]
    exact ⟨rfl, rfl⟩
  · rw [runArguments_of_run hparse hrun] at h
    exact absurd (status_of_run_eq_ok hrun) h

end Command

end DelayLine
