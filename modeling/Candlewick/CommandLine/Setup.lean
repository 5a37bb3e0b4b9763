import Candlewick.CommandLine.Arguments
import Candlewick.CommandLine.Transcript
import Candlewick.Feed.Directory
import Candlewick.Settings.Loading

namespace Candlewick.CommandLine

open Settings Activity

/-- Everything a run needs. The settings are in `folder`, the candles in `directory`. -/
structure Setup where
  ini : Ini
  folder : String
  directory : String
  program : Program
  symbols : List String

namespace Setup

variable {m : Type → Type} [Monad m]

/-- The path that a setting gives, from the directory of the settings on. -/
def resolved (folder raw : String) : String :=
  Files.Path.join folder (Text.trim raw)

/-- The settings in a file. -/
def readIni (access : Files.Access m) (path : String) : Activity m Ini := do
  let refuse (reason : String) : Activity m Ini :=
    throw (.configParse path s!"couldn't read {path}: {reason}")
  match ← perform (access.read path) with
  | .error fault => refuse fault.message
  | .ok text =>
    match Ini.ofText text with
    | .error fault => refuse fault.message
    | .ok ini => return ini

/-- The source of the strategy: the file of the command line, else the file of the settings, else
    their code. -/
def readSource (access : Files.Access m) (ini : Ini) (folder : String) (strategy : Option String) :
    Activity m String :=
  match strategy, ini.filled? "strategy" "file" with
  | some path, _ => withFiles (access.read path)
  | none, some raw => withFiles (access.read (resolved folder raw))
  | none, none => return (ini.get? "strategy" "code").getD ""

/-- The program of a source. The place of an error is shown before the run ends with it. -/
def readProgram (source : String) : Activity m Program := do
  let (result, warnings) := loadSource source
  record (warnings.map .ambiguous)
  match result with
  | .ok program => return program
  | .error error => do
    inform (error.diagnostic.inContext source)
    throw (.source error)

/-- The setup of a run. The settings are checked first, then the source is read, and only then are
    the symbols looked at. -/
def load (access : Files.Access m) (job : Job) : Activity m Setup := do
  let ini ← readIni access job.config
  settle ini.validate
  if job.strategy.isNone then
    settle ini.validateStrategy
  let folder := Files.Path.parent job.config
  let program ← readProgram (← readSource access ini folder job.strategy)
  let symbols ← match job.symbol with
    | some symbol => pure [Symbols.normal symbol]
    | none => settle ini.symbols
  let directory := resolved folder ((ini.get? "data" "directory").getD "")
  return ⟨ini, folder, directory, program, symbols⟩

/-- The name of the strategy. -/
def name (setup : Setup) : String :=
  (setup.ini.get? "strategy" "name").getD "Unnamed"

/-- The series of all symbols that have candles. Each of the others is reported. -/
def loadUniverse (access : Files.Access m) (setup : Setup) : Activity m Universe := do
  let answers ← perform (Feed.answers access setup.directory setup.symbols)
  record ((Universe.skippedOf answers).map .symbolSkipped)
  settle (Universe.ofAnswers answers)

end Setup

end Candlewick.CommandLine
