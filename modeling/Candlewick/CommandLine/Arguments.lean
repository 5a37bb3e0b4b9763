import Candlewick.Text.Lines

namespace Candlewick.CommandLine

/-- The commands by name. -/
inductive Verb where
  | check
  | eval
  | backtest
  | signals
  | listSymbols
deriving DecidableEq

/-- The options without a value. -/
inductive Flag where
  | verbose
  | help
  | dryRun
deriving DecidableEq

/-- The options with a value. -/
inductive Parameter where
  | file
  | code
  | config
  | strategy
  | symbol
  | output
deriving DecidableEq

/-- An option. -/
inductive Switch where
  | flag (flag : Flag)
  | parameter (parameter : Parameter)
deriving DecidableEq

/-- Why a command line is refused. A request for help is one that runs nothing either. -/
inductive Refusal where
  | helpWanted
  | nothingGiven
  | commandMissing
  | unknownCommand
  | unknownArgument
  | missingArgument
  | conflict
  | missingValue
  | needlessValue
deriving DecidableEq

/-- The wording of a refusal. -/
def Refusal.message : Refusal → String
  | helpWanted => "help is wanted"
  | nothingGiven => "no arguments are given"
  | commandMissing => "no command is given"
  | unknownCommand => "there is no such command"
  | unknownArgument => "an argument is not known"
  | missingArgument => "an argument that is needed is not given"
  | conflict => "two arguments exclude each other"
  | missingValue => "an option has no value"
  | needlessValue => "an option has a value that it does not take"

/-- The exit code of a refusal. -/
def Refusal.exitCode : Refusal → Nat
  | helpWanted => 0
  | _ => 2

/-- Where the source to check is. -/
inductive SourcePlace where
  | file (path : String)
  | code (text : String)

/-- What a command that runs a strategy is given. -/
structure Job where
  config : String
  strategy : Option String := none
  symbol : Option String := none

/-- A command with all it was given. -/
inductive Command where
  | check (place : SourcePlace)
  | eval (job : Job)
  | backtest (job : Job) (output : Option String) (dryRun : Bool)
  | signals (job : Job)
  | listSymbols (config : String)

namespace Verb

/-- The commands. -/
def all : List Verb := [.check, .eval, .backtest, .signals, .listSymbols]

/-- The word for a command. -/
def name : Verb → String
  | check => "check"
  | eval => "eval"
  | backtest => "backtest"
  | signals => "signals"
  | listSymbols => "list-symbols"

/-- The command that a word names. -/
def ofName? (word : String) : Option Verb :=
  all.find? (·.name == word)

/-- The options of a command besides those that every command has. -/
def switches : Verb → List Switch
  | check => [.parameter .file, .parameter .code]
  | eval => [.parameter .config, .parameter .strategy, .parameter .symbol]
  | backtest =>
    [.parameter .config, .parameter .strategy, .parameter .symbol, .parameter .output,
      .flag .dryRun]
  | signals => [.parameter .config, .parameter .strategy]
  | listSymbols => [.parameter .config]

end Verb

/-- Whether a value is a path, which cannot be empty. -/
def Parameter.isPath : Parameter → Bool
  | file | config | strategy | output => true
  | code | symbol => false

namespace Switch

/-- The options that every command has, and the command line in front of one. -/
def everywhere : List Switch := [.flag .verbose, .flag .help]

/-- The word for an option. -/
def word : Switch → String
  | flag .verbose => "verbose"
  | flag .help => "help"
  | flag .dryRun => "dry-run"
  | parameter .file => "file"
  | parameter .code => "code"
  | parameter .config => "config"
  | parameter .strategy => "strategy"
  | parameter .symbol => "symbol"
  | parameter .output => "output"

/-- The letter for an option, if it has one. -/
def letter? : Switch → Option Char
  | flag .verbose => some 'v'
  | flag .help => some 'h'
  | parameter .file => some 'f'
  | parameter .config => some 'c'
  | parameter .strategy => some 's'
  | parameter .output => some 'o'
  | flag .dryRun | parameter .code | parameter .symbol => none

end Switch

/-- What is known in the middle of a command line. `pending` is the option that came last, with its
    value once it is read; it is checked when the next option comes. -/
structure Reading where
  verbosity : Nat := 0
  dryRun : Bool := false
  values : List (Parameter × String) := []
  pending : Option (Parameter × Option String) := none

namespace Reading

/-- The value of an option. -/
def value? (r : Reading) (parameter : Parameter) : Option String :=
  r.values.lookup parameter

/-- Checks the option that came last: it has a value, came once, and is not an empty path. -/
def settled (r : Reading) : Except Refusal Reading :=
  match r.pending with
  | none => .ok r
  | some (_, none) => .error .missingValue
  | some (parameter, some value) =>
    if (r.value? parameter).isSome then
      .error .conflict
    else if parameter.isPath && value.isEmpty then
      .error .missingValue
    else
      .ok { r with values := (parameter, value) :: r.values, pending := none }

/-- Reads an option without a value. -/
def withFlag (r : Reading) (flag : Flag) : Except Refusal Reading := do
  let r ← r.settled
  match flag with
  | .verbose => return { r with verbosity := r.verbosity + 1 }
  | .help => throw .helpWanted
  | .dryRun => if r.dryRun then throw .conflict else return { r with dryRun := true }

/-- Reads an option whose value may be attached to it. -/
def withParameter (r : Reading) (parameter : Parameter) (attached : Option String) :
    Except Refusal Reading := do
  let r ← r.settled
  let r := { r with pending := some (parameter, attached) }
  if attached.isSome then r.settled else return r

/-- Reads an option written as a word, behind its two dashes. -/
def long (r : Reading) (switches : List Switch) (cs : List Char) : Except Refusal Reading :=
  let (word, attached) := Text.cutAt (· == '=') cs
  match switches.find? (·.word.toList == word) with
  | none => .error .unknownArgument
  | some (.flag flag) => if attached.isSome then .error .needlessValue else r.withFlag flag
  | some (.parameter parameter) => r.withParameter parameter (attached.map String.ofList)

/-- The value that is attached to a letter. -/
def attached? : List Char → Option String
  | [] => none
  | '=' :: value => some (String.ofList value)
  | value => some (String.ofList value)

/-- Reads options written as letters, which may be run together behind their dash. -/
def letters (r : Reading) (switches : List Switch) : List Char → Except Refusal Reading
  | [] => .ok r
  | c :: rest =>
    match switches.find? (·.letter? == some c) with
    | none => .error .unknownArgument
    | some (.flag flag) => do letters (← r.withFlag flag) switches rest
    | some (.parameter parameter) => r.withParameter parameter (attached? rest)

/-- Reads the arguments of a command. There is no argument but options and their values. -/
def options (r : Reading) (switches : List Switch) : List String → Except Refusal Reading
  | [] => r.settled
  | argument :: rest =>
    match argument.toList, r.pending with
    | ['-', '-'], _ => if rest.isEmpty then r.settled else .error .unknownArgument
    | '-' :: '-' :: cs, _ => do options (← r.long switches cs) switches rest
    | '-' :: c :: cs, _ => do options (← r.letters switches (c :: cs)) switches rest
    | _, some (parameter, none) =>
      options { r with pending := some (parameter, some argument) } switches rest
    | _, _ => .error .unknownArgument

/-- The value of an option that must be given. -/
def needed (r : Reading) (parameter : Parameter) : Except Refusal String :=
  match r.value? parameter with
  | some value => .ok value
  | none => .error .missingArgument

/-- What a command that runs a strategy is given. -/
def job (r : Reading) : Except Refusal Job := do
  return ⟨← r.needed .config, r.value? .strategy, r.value? .symbol⟩

/-- The command that was asked for. A source is given as a file or as code, and not as both. -/
def command (r : Reading) : Verb → Except Refusal Command
  | .check =>
    match r.value? .file, r.value? .code with
    | some _, some _ => .error .conflict
    | some path, none => .ok (.check (.file path))
    | none, some text => .ok (.check (.code text))
    | none, none => .error .missingArgument
  | .eval => do return .eval (← r.job)
  | .backtest => do return .backtest (← r.job) (r.value? .output) r.dryRun
  | .signals => do return .signals (← r.job)
  | .listSymbols => do return .listSymbols (← r.needed .config)

end Reading

/-- The word for the command that shows help. -/
def helpWord : String := "help"

/-- Whether a word names a command or asks for help. -/
def isCommandWord (word : String) : Bool :=
  word == helpWord || (Verb.ofName? word).isSome

/-- What follows from asking for help on some commands. They have no commands within. -/
def helpOn : List String → Refusal
  | [] => .helpWanted
  | [word] => if isCommandWord word then .helpWanted else .unknownCommand
  | _ => .unknownCommand

/-- Why words behind two dashes that stand in front of any command are refused. -/
def refusedBehindDashes (r : Reading) : List String → Refusal
  | [] => if r.verbosity = 0 then .nothingGiven else .commandMissing
  | word :: _ => if isCommandWord word then .unknownArgument else .unknownCommand

/-- Reads a command line, with what was read in front of the command. -/
def readFrom (r : Reading) : List String → Except Refusal Command
  | [] => .error (refusedBehindDashes r [])
  | argument :: rest =>
    if argument = helpWord then
      .error (helpOn rest)
    else
      match Verb.ofName? argument with
      | some verb => do
        let r ← r.options (Switch.everywhere ++ verb.switches) rest
        r.command verb
      | none =>
        match argument.toList with
        | ['-', '-'] => .error (refusedBehindDashes r rest)
        | '-' :: '-' :: cs => do readFrom (← r.long Switch.everywhere cs) rest
        | '-' :: c :: cs => do readFrom (← r.letters Switch.everywhere (c :: cs)) rest
        | _ => .error .unknownCommand

/-- Reads a command line. The first argument that cannot be accepted decides how it is refused. -/
def read (arguments : List String) : Except Refusal Command :=
  readFrom {} arguments

end Candlewick.CommandLine
