import Candlewick.Feed
import Candlewick.Files.Path
import Candlewick.Files.Tree
import Candlewick.Universe

namespace Candlewick.Feed

variable {m : Type → Type} [Monad m]

/-- What the name of a file of candles ends in. -/
def fileEnding : String := ".csv"

/-- The path of the candles of a symbol. -/
def pathOf (directory symbol : String) : String :=
  Files.Path.join directory (symbol ++ fileEnding)

/-- The symbol whose candles are in a file, if any are. -/
def symbolOf? (name : String) : Option String :=
  if fileEnding.toList.isSuffixOf name.toList then
    some (String.ofList (name.toList.take (name.length - fileEnding.length)))
  else
    none

/-- The series of a symbol. -/
def fetch (access : Files.Access m) (directory symbol : String) : m (Except Failure Series) := do
  let path := pathOf directory symbol
  match ← access.read path with
  | .ok content => return series path content
  | .error fault => return .error (.data (.unreadable path fault))

/-- The symbols in a directory in ascending order. -/
def symbols (access : Files.Access m) (directory : String) : m (Except Failure (List String)) := do
  match ← access.list directory with
  | .ok names => return .ok ((names.filterMap symbolOf?).mergeSort fun a b => decide (a ≤ b))
  | .error fault => return .error (.data (.unlistable directory fault))

/-- What each of the symbols is answered with. -/
def answers (access : Files.Access m) (directory : String) (symbols : List String) :
    m (List Universe.Answer) :=
  symbols.mapM fun symbol => do return (symbol, ← fetch access directory symbol)

end Candlewick.Feed
