import Candlewick.Event
import Candlewick.Files.Tree

namespace Candlewick.CommandLine

/-- What a run has left behind so far. Messages go beside the printed text, as log lines do. -/
structure Transcript where
  printed : String := ""
  messages : String := ""
  log : List Event := []

/-- A part of a run. A step may end the run with a failure, and what was left behind until then
    stays. -/
abbrev Activity (m : Type → Type) := ExceptT Failure (StateT Transcript m)

namespace Activity

variable {m : Type → Type} [Monad m] {α : Type}

/-- Prints a line. -/
def print (line : String) : Activity m Unit :=
  modify fun t => { t with printed := t.printed ++ line ++ "\n" }

/-- Gives a message of one line or more. -/
def inform (message : String) : Activity m Unit :=
  modify fun t => { t with messages := t.messages ++ message ++ "\n" }

/-- Reports events. -/
def record (events : List Event) : Activity m Unit :=
  modify fun t => { t with log := t.log ++ events }

/-- Takes the result of a computation that may have failed. -/
def settle (result : Except Failure α) : Activity m α :=
  match result with
  | .ok a => return a
  | .error failure => throw failure

/-- Carries out a computation within a run. -/
def perform (computation : m α) : Activity m α :=
  ExceptT.lift (StateT.lift computation)

/-- Uses files, and ends the run if they cannot be used. -/
def withFiles (use : m (Except Files.Fault α)) : Activity m α := do
  let result ← perform use
  settle (result.mapError Failure.file)

end Activity

/-- How a run ended, and what it left behind. -/
structure Outcome where
  exitCode : Nat
  transcript : Transcript

/-- The outcome of a run that ends with an exit code. A failure that ends it is reported last. -/
def Activity.outcome {m : Type → Type} [Monad m] (activity : Activity m Nat) : m Outcome := do
  match ← activity.run.run {} with
  | (.ok exitCode, transcript) => return ⟨exitCode, transcript⟩
  | (.error failure, transcript) =>
    return ⟨failure.exitCode,
      { transcript with log := transcript.log ++ [.failed failure.message] }⟩

end Candlewick.CommandLine
