import Candlewick.Decimal.Reader
import Candlewick.Keyed
import Candlewick.Text.Blank
import Candlewick.Text.Lines

namespace Candlewick.Settings

/-- The keys of a section. A key without `=` or `:` behind it has no value. -/
abbrev Section := Keyed (Option String)

/-- Settings by section and key. -/
structure Ini where
  sections : Keyed Section := Keyed.empty

/-- Why a text holds no settings. Lines count from one. -/
inductive IniFault where
  | unclosedHeading (line : Nat)
  | emptyKey (line : Nat)
deriving DecidableEq

/-- The wording of a fault. A key is empty only if its line begins with the separator, in column
    zero. -/
def IniFault.message : IniFault → String
  | unclosedHeading line =>
    s!"line {line}: Found opening bracket for section name but no closing bracket"
  | emptyKey line => s!"line {line}:0: Key cannot be empty"

/-- A line of settings. -/
inductive Line where
  | nothing
  | heading (name : String)
  | entry (key : String) (value : Option String)
  | unclosed
  | keyless

/-- Whether a character begins a comment. -/
def beginsComment (c : Char) : Bool :=
  c == ';' || c == '#'

/-- Whether a character stands between a key and its value. -/
def separatesValue (c : Char) : Bool :=
  c == '=' || c == ':'

/-- Characters without blanks around them, as text. -/
def clean (cs : List Char) : String :=
  String.ofList (Text.trimmed cs)

/-- What a line says: a heading in square brackets, a key with or without a value, or nothing.
    Headings and keys are case-sensitive, and a comment may begin anywhere. -/
def Line.ofChars (cs : List Char) : Line :=
  match Text.trimmed (cs.takeWhile fun c => !beginsComment c) with
  | [] => .nothing
  | '[' :: rest =>
    match Text.beforeLast? ']' rest with
    | some name => .heading (clean name)
    | none => .unclosed
  | text =>
    match Text.cutAt separatesValue text with
    | ([], some _) => .keyless
    | (key, value) => .entry (clean key) (value.map clean)

namespace Ini

/-- The settings with a section that holds at least what it held before. -/
def withSection (ini : Ini) (heading : String) : Ini :=
  ⟨ini.sections.put heading ((ini.sections.get? heading).getD Keyed.empty)⟩

/-- The settings with one key written. -/
def withEntry (ini : Ini) (heading key : String) (value : Option String) : Ini :=
  ⟨ini.sections.put heading (((ini.sections.get? heading).getD Keyed.empty).put key value)⟩

/-- Reads lines into settings, from a line number on and within a section. -/
def readLines (ini : Ini) (heading : String) (number : Nat) :
    List (List Char) → Except IniFault Ini
  | [] => .ok ini
  | line :: rest =>
    match Line.ofChars line with
    | .nothing => readLines ini heading (number + 1) rest
    | .heading name => readLines (ini.withSection name) name (number + 1) rest
    | .entry key value => readLines (ini.withEntry heading key value) heading (number + 1) rest
    | .unclosed => .error (.unclosedHeading number)
    | .keyless => .error (.emptyKey number)

/-- The settings of a text. Keys before any heading belong to the section `default`. -/
def ofText (text : String) : Except IniFault Ini :=
  readLines {} "default" 1 (Text.lines text.toList)

/-- The value of a key. -/
def get? (ini : Ini) (heading key : String) : Option String := do
  (← (← ini.sections.get? heading).get? key)

/-- The value of a key as a number; `fallback` if there is none. -/
def number (ini : Ini) (heading key : String) (fallback : Float) : Float :=
  ((ini.get? heading key).bind Decimal.read?).getD fallback

/-- The keys of a section and their values, in ascending order. A key without a value has an empty
    one. -/
def entries (ini : Ini) (heading : String) : List (String × String) :=
  match ini.sections.get? heading with
  | some keys => keys.entries.map fun (key, value) => (key, value.getD "")
  | none => []

/-- The headings in ascending order. -/
def headings (ini : Ini) : List String :=
  ini.sections.names

end Ini

end Candlewick.Settings
