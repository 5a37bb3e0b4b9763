import Candlewick.Backtest.Report
import Candlewick.Backtest.Summary
import Candlewick.CommandLine.Setup
import Candlewick.Signal

namespace Candlewick.CommandLine

open Activity

variable {m : Type → Type} [Monad m]

/-- Judges a source: prints its verdict and reports its errors. -/
def judge (source : String) : Activity m Nat := do
  let verdict := check source
  record (verdict.announced.map .ambiguous)
  print verdict.toJson.pretty
  if verdict.isOk then
    return 0
  else
    record (verdict.errors.map .failed)
    return 4

/-- Checks a source. -/
def runCheck (access : Files.Access m) : SourcePlace → Activity m Nat
  | .code text => judge text
  | .file path => do
    match ← perform (access.read path) with
    | .ok source => judge source
    | .error fault =>
      record [.failed s!"failed to read {path}: {fault.message}"]
      return (Failure.file fault).exitCode

/-- Evaluates the strategy at the latest candle of each symbol. -/
def runEval (access : Files.Access m) (job : Job) : Activity m Nat := do
  let setup ← Setup.load access job
  let loaded ← setup.loadUniverse access
  let values ← loaded.series.entries.mapM fun (symbol, series) => do
    let value ← settle ((execute setup.program series setup.ini.bindings).mapError .evaluation)
    return (symbol, value.toJson)
  print (Json.object values).pretty
  return 0

/-- Where the report on a symbol goes: to the path that was given, or for one of several symbols to
    a file beside it with the symbol in its name. -/
def reportPath (path symbol : String) (several : Bool) : String :=
  if several then
    let (stem, extension) :=
      match Files.Path.fileName? path with
      | some name => Files.Path.stemAndExtension name
      | none => ("report", none)
    let ending := match extension with
      | some extension => "." ++ extension
      | none => ""
    Files.Path.withFileName path (stem ++ "_" ++ symbol ++ ending)
  else
    path

/-- Evaluates the strategy at every candle of each symbol. The reports go to files if a place for
    them is given, and else a summary is printed. -/
def runBacktest (access : Files.Access m) (job : Job) (output : Option String) :
    Activity m Nat := do
  let setup ← Setup.load access job
  let loaded ← setup.loadUniverse access
  let output := output <|> (setup.ini.get? "backtest" "output").map (Setup.resolved setup.folder)
  let several := decide (1 < loaded.series.size)
  let summaries ← loaded.series.entries.mapM fun (symbol, series) => do
    let run := Backtest.run setup.program series setup.ini.bindings
    if let some path := output then
      withFiles (access.write (reportPath path symbol several) run.report)
    return (symbol, run.summary)
  if output.isNone then
    print (Json.object summaries).pretty
  return 0

/-- Tells what a run would work on. -/
def dryRun (access : Files.Access m) (job : Job) : Activity m Nat := do
  let setup ← Setup.load access job
  inform s!"Strategy: {setup.name}"
  inform s!"  statements: {setup.program.statements.length}"
  inform ("  buy/sell rules: " ++ if setup.program.hasRules then "yes" else "no")
  inform s!"Data directory: {setup.directory}"
  inform ("Symbols: " ++ String.intercalate ", " setup.symbols)
  let names := setup.ini.bindings.names
  unless names.isEmpty do
    inform ("Variables: " ++ String.intercalate ", " names)
  inform "\nDry run complete: configuration is valid"
  return 0

/-- Decides on the symbols. Positions in symbols without candles are reported. -/
def runSignals (access : Files.Access m) (job : Job) : Activity m Nat := do
  let setup ← Setup.load access job
  let loaded ← setup.loadUniverse access
  let positions := setup.ini.positions
  let idle := positions.names.filter fun symbol => !loaded.series.contains symbol
  record (idle.map .idlePosition)
  let desk : Desk := ⟨setup.ini.orderQuantity, setup.ini.bindings⟩
  let (signals, failures) := desk.signals setup.program loaded.series positions
  record (failures.map fun failure => .undecided failure.symbol failure.fault)
  print (Json.array (signals.map Signal.toJson)).pretty
  return 0

/-- Lists the symbols that have a file of candles. -/
def runListSymbols (access : Files.Access m) (config : String) : Activity m Nat := do
  let ini ← Setup.readIni access config
  match ini.filled? "data" "directory" with
  | none => throw (.configMissing "data" "directory")
  | some raw =>
    let directory := Setup.resolved (Files.Path.parent config) raw
    let symbols ← settle (← perform (Feed.symbols access directory))
    symbols.forM print
    if symbols.isEmpty then
      inform s!"No symbols found in {raw}"
    else
      inform s!"{symbols.length} symbols found"
    return 0

/-- Carries out a command. -/
def Command.activity (access : Files.Access m) : Command → Activity m Nat
  | .check place => runCheck access place
  | .eval job => runEval access job
  | .backtest job output isDry => if isDry then dryRun access job else runBacktest access job output
  | .signals job => runSignals access job
  | .listSymbols config => runListSymbols access config

/-- The outcome of a command. -/
def Command.run (access : Files.Access m) (command : Command) : m Outcome :=
  (command.activity access).outcome

end Candlewick.CommandLine
