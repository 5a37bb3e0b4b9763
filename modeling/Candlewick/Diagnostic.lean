import Candlewick.Text.Lines
import Candlewick.Token

namespace Candlewick

/-- The stage at which a source is refused. -/
inductive Stage where
  | lexing
  | parsing
deriving DecidableEq

/-- The word for a stage in a message. -/
def Stage.name : Stage → String
  | lexing => "lex"
  | parsing => "parse"

/-- A message about a place in a source. -/
structure Diagnostic where
  stage : Stage
  message : String
  place : Place
deriving DecidableEq

namespace Diagnostic

/-- The message with its stage and its place. -/
def display (d : Diagnostic) : String :=
  s!"{d.stage.name} error at line {d.place.line}, column {d.place.column}: {d.message}"

/-- The line of the place, a caret under its column, and the message. -/
def inContext (d : Diagnostic) (source : String) : String :=
  Text.lineAt source d.place.line ++ "\n" ++ "".pushn ' ' (d.place.column - 1) ++ "^\n" ++ d.display

end Diagnostic

end Candlewick
