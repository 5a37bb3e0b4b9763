import Candlewick.Grammar.Statement
import Candlewick.Node.Json

namespace Candlewick

/-- A program with the warnings about its source. -/
structure Parsed where
  program : Program
  warnings : List Warning

/-- The outcome of reading a source. `announced` lists the warnings that were announced on the way,
    also if the source was refused in the end. -/
structure Parse where
  result : Except ParseError Parsed
  announced : List Warning

/-- Reads a token list within the given bounds. -/
def parseTokensWithin (limits : Limits) (tokens : List Token) : Parse :=
  match Grammar.program limits { tokens := Grammar.closed tokens } with
  | .ok program s => ⟨.ok ⟨program, s.warnings⟩, s.announced⟩
  | .error e s => ⟨.error e, s.announced⟩

/-- Reads a token list. -/
def parseTokens (tokens : List Token) : Parse :=
  parseTokensWithin .standard tokens

/-- Reads a source. -/
def parse (source : String) : Parse :=
  match tokenize source with
  | .ok tokens => parseTokens tokens
  | .error e => ⟨.error e.toParseError, []⟩

/-- Why a source is refused, by the stage that refuses it. -/
inductive SourceError where
  | lexing (error : LexError)
  | parsing (error : ParseError)

/-- The error as a diagnostic. -/
def SourceError.diagnostic : SourceError → Diagnostic
  | lexing error => error.diagnostic
  | parsing error => error.diagnostic

/-- The program of a source, and the warnings announced while it was read. -/
def loadSource (source : String) : Except SourceError Program × List Warning :=
  match tokenize source with
  | .error e => (.error (.lexing e), [])
  | .ok tokens =>
    let parse := parseTokens tokens
    match parse.result with
    | .ok parsed => (.ok parsed.program, parse.announced)
    | .error e => (.error (.parsing e), parse.announced)

/-- The verdict on a source: its program, or what is wrong with it. -/
structure Verdict where
  program : Option Program
  errors : List String
  warnings : List String
  announced : List Warning

namespace Verdict

/-- The verdict on a source that is refused. -/
def refused (message : String) (announced : List Warning) : Verdict :=
  ⟨none, [message], [], announced⟩

/-- Whether the source is a program. -/
def isOk (verdict : Verdict) : Bool :=
  verdict.program.isSome && verdict.errors.isEmpty

/-- The verdict as JSON. -/
def toJson (verdict : Verdict) : Json :=
  .object
    [("ast", .ofOption Program.toJson verdict.program),
      ("errors", .array (verdict.errors.map .text)),
      ("warnings", .array (verdict.warnings.map .text))]

end Verdict

/-- The verdict on a source. A source of blanks is refused before it is read. -/
def check (source : String) : Verdict :=
  if Text.allBlank source then
    .refused "Empty code provided" []
  else
    match tokenize source with
    | .error e => .refused e.diagnostic.display []
    | .ok tokens =>
      let parse := parseTokens tokens
      match parse.result with
      | .ok parsed =>
        ⟨some parsed.program, [], parsed.warnings.map Warning.display, parse.announced⟩
      | .error e => .refused e.diagnostic.display parse.announced

end Candlewick
