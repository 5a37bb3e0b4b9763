import Candlewick.CommandLine.Arguments

namespace Candlewick.CommandLine

/-- An option as it is written. -/
def Switch.usage (switch : Switch) : String :=
  let value := match switch with
    | flag _ => ""
    | parameter p => if p.isPath then " PATH" else " TEXT"
  let letter := match switch.letter? with
    | some c => "-" ++ c.toString ++ ", "
    | none => ""
  letter ++ "--" ++ switch.word ++ value

/-- A command and its options, a line for each. -/
def Verb.usage (verb : Verb) : List String :=
  ("  " ++ verb.name) :: verb.switches.map fun switch => "      " ++ switch.usage

/-- The commands and their options. -/
def usage : String :=
  String.intercalate "\n" <|
    ["Usage: candlewick [OPTIONS] COMMAND", "", "Commands:"] ++ Verb.all.flatMap Verb.usage ++
      ["", "Options:"] ++ Switch.everywhere.map fun switch => "  " ++ switch.usage

end Candlewick.CommandLine
