namespace Candlewick.Csv

/-- Characters that separate fields or records, or quote. -/
def isSpecial (c : Char) : Bool :=
  c == ',' || c == '"' || c == '\n' || c == '\r'

/-- A field between quotes; a quote within is written twice. -/
def quotedField (field : List Char) : List Char :=
  '"' :: field.flatMap (fun c => if c = '"' then ['"', '"'] else [c]) ++ ['"']

/-- A field as it is written, in quotes only where it could not be read back without them. -/
def writtenField (field : List Char) : List Char :=
  if field.any isSpecial then quotedField field else field

/-- A record as it is written, for at least two fields. -/
def writtenRecord (fields : List (List Char)) : List Char :=
  List.intercalate [','] (fields.map writtenField) ++ ['\n']

/-- Records as text, each with a line feed behind it. -/
def write (records : List (List String)) : String :=
  String.ofList (records.flatMap fun fields => writtenRecord (fields.map String.toList))

end Candlewick.Csv
