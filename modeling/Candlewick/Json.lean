import Candlewick.Decimal.Layout

namespace Candlewick

/-- A JSON document. The members of an object keep their order. -/
inductive Json where
  | null
  | bool (value : Bool)
  | float (value : Float)
  | integer (value : Int)
  | text (content : String)
  | array (items : List Json)
  | object (members : List (String × Json))

namespace Json

/-- Floats in JSON have a point or an exponent. The exponent is written from `1e+16` on and below
    `0.00001`; of two equally close decimals the one with the even last digit is taken. -/
def numbers : Decimal.Layout where
  positional := some (-5, 16)
  pointZero := true
  tie := .toEven

/-- A float; JSON has no word for one that is not finite. -/
def floatText (x : Float) : String :=
  if x.isFinite then numbers.write x else "null"

/-- The hexadecimal digits of a control character. -/
def controlEscape (c : Char) : List Char :=
  ['\\', 'u', '0', '0', Nat.digitChar (c.toNat / 16), Nat.digitChar (c.toNat % 16)]

/-- A character within quotes. Quotes, backslashes and control characters are escaped, all else
    stands for itself. -/
def escaped (c : Char) : List Char :=
  match c with
  | '"' => ['\\', '"']
  | '\\' => ['\\', '\\']
  | '\x08' => ['\\', 'b']
  | '\t' => ['\\', 't']
  | '\n' => ['\\', 'n']
  | '\x0c' => ['\\', 'f']
  | '\r' => ['\\', 'r']
  | c => if c.toNat < 0x20 then controlEscape c else [c]

/-- A text in quotes. -/
def quoted (s : String) : String :=
  String.ofList ('"' :: s.toList.flatMap escaped ++ ['"'])

/-- A bracketed list on one line. -/
def enclosed (opening closing : String) (items : List String) : String :=
  opening ++ String.intercalate "," items ++ closing

/-- A bracketed list with a line for each item; an empty list stays on its line. -/
def spread (opening closing : String) (depth : Nat) (items : List String) : String :=
  if items.isEmpty then
    opening ++ closing
  else
    let lineStart (depth : Nat) := "\n" ++ "".pushn ' ' (2 * depth)
    let line := lineStart (depth + 1)
    opening ++ line ++ String.intercalate ("," ++ line) items ++ lineStart depth ++ closing

mutual

/-- The document on one line. -/
def compact : Json → String
  | null => "null"
  | bool value => if value then "true" else "false"
  | float value => floatText value
  | integer value => toString value
  | text content => quoted content
  | array items => enclosed "[" "]" (compactItems items)
  | object members => enclosed "\x7b" "\x7d" (compactMembers members)

/-- The items of an array, each on one line. -/
def compactItems : List Json → List String
  | [] => []
  | item :: rest => compact item :: compactItems rest

/-- The members of an object, each on one line. -/
def compactMembers : List (String × Json) → List String
  | [] => []
  | member :: rest => compactMember member :: compactMembers rest

/-- A member of an object on one line. -/
def compactMember : String × Json → String
  | (name, value) => quoted name ++ ":" ++ compact value

end

mutual

/-- The document over several lines, within `depth` brackets. -/
def spreadOut (depth : Nat) : Json → String
  | null => "null"
  | bool value => if value then "true" else "false"
  | float value => floatText value
  | integer value => toString value
  | text content => quoted content
  | array items => spread "[" "]" depth (spreadItems (depth + 1) items)
  | object members => spread "\x7b" "\x7d" depth (spreadMembers (depth + 1) members)

/-- The items of an array over several lines. -/
def spreadItems (depth : Nat) : List Json → List String
  | [] => []
  | item :: rest => spreadOut depth item :: spreadItems depth rest

/-- The members of an object over several lines. -/
def spreadMembers (depth : Nat) : List (String × Json) → List String
  | [] => []
  | member :: rest => spreadMember depth member :: spreadMembers depth rest

/-- A member of an object over several lines. -/
def spreadMember (depth : Nat) : String × Json → String
  | (name, value) => quoted name ++ ": " ++ spreadOut depth value

end

/-- The document over several lines. -/
def pretty (document : Json) : String :=
  spreadOut 0 document

/-- The document of an optional value; without a value it is `null`. -/
def ofOption {α : Type} (f : α → Json) : Option α → Json
  | none => null
  | some value => f value

end Json

end Candlewick
