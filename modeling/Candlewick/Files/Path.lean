import Candlewick.Text.Lines

namespace Candlewick.Files.Path

/-- Whether a path begins at the root. -/
def isAbsolute (path : String) : Bool :=
  path.toList.head? == some '/'

/-- The names between the slashes. Two slashes that stand together have an empty one between
    them. -/
def names (path : String) : List String :=
  (Text.pieces '/' path.toList).map String.ofList

/-- Names with slashes between them. -/
def ofNames (names : List String) : String :=
  String.intercalate "/" names

/-- A path that begins where another one leads. An absolute path begins at the root all the same. -/
def join (base path : String) : String :=
  if isAbsolute path || base.isEmpty then
    path
  else if base.toList.getLast? == some '/' then
    base ++ path
  else
    base ++ "/" ++ path

/-- Names in reverse, from the last one on that leads anywhere. -/
def significant : List String → List String
  | [] => []
  | name :: before =>
    if name = "" ∨ (name = "." ∧ before ≠ []) then significant before else name :: before

/-- The names of a path in reverse, from the last one on that leads anywhere. -/
def reversedNames (path : String) : List String :=
  significant (names path).reverse

/-- The path up to the last name. The path of a single name, and of none, has an empty one. -/
def parent (path : String) : String :=
  match reversedNames path with
  | [] => ""
  | _ :: before =>
    match significant before with
    | [] => if isAbsolute path then "/" else ""
    | kept => ofNames kept.reverse

/-- The last name, if it names a file or a directory. -/
def fileName? (path : String) : Option String :=
  match reversedNames path with
  | [] => none
  | name :: _ => if name = "." ∨ name = ".." then none else some name

/-- The path with another last name; without a last name, the path with one more name. -/
def withFileName (path name : String) : String :=
  match fileName? path with
  | some _ => join (parent path) name
  | none => join path name

/-- A file name cut at its last point, unless the point comes first. -/
def stemAndExtension (name : String) : String × Option String :=
  match Text.beforeLast? '.' name.toList with
  | none | some [] => (name, none)
  | some stem => (String.ofList stem, some (String.ofList (name.toList.drop (stem.length + 1))))

end Candlewick.Files.Path
