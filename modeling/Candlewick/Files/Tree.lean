import Candlewick.Files.Fault
import Candlewick.Files.Path

namespace Candlewick.Files

/-- Reading files, listing directories and writing files: what a run needs of the files around
    it. -/
structure Access (m : Type → Type) where
  read : String → m (Except Fault String)
  list : String → m (Except Fault (List String))
  write : String → String → m (Except Fault Unit)

/-- Files and directories as a value, below a working directory and each under the names that lead
    to it. A directory with something in it need not be listed itself. -/
structure Tree where
  files : List (List String × ByteArray) := []
  folders : List (List String) := []

namespace Tree

/-- The tree of files under their paths. A path that ends in a slash is that of a directory. -/
def ofFiles (files : List (String × ByteArray)) : Tree :=
  let place (path : String) : List String :=
    (Path.names path).filter fun name => name != "" && name != "."
  let isFolder (path : String) : Bool := path.toList.getLast? == some '/'
  ⟨(files.filter fun (path, _) => !isFolder path).map fun (path, bytes) => (place path, bytes),
    (files.filter fun (path, _) => isFolder path).map fun (path, _) => place path⟩

/-- The bytes of a file. -/
def file? (tree : Tree) (place : List String) : Option ByteArray :=
  tree.files.lookup place

/-- The places that are in use. -/
def places (tree : Tree) : List (List String) :=
  tree.files.map (·.1) ++ tree.folders

/-- The names in a directory. -/
def children (tree : Tree) (place : List String) : List String :=
  (tree.places.filterMap fun other =>
    if place.isPrefixOf other then other[place.length]? else none).eraseDups

/-- Whether there is a directory at a place. -/
def isFolder (tree : Tree) (place : List String) : Bool :=
  place.isEmpty || tree.folders.contains place || !(tree.children place).isEmpty

/-- A place from which a path can go on. -/
def folder (tree : Tree) (place : List String) : Except Fault Unit :=
  if tree.isFolder place then
    .ok ()
  else if (tree.file? place).isSome then
    .error .notADirectory
  else
    .error .notFound

/-- Where names lead from a place. There is nothing outside of the working directory. -/
def walk (tree : Tree) (place : List String) : List String → Except Fault (List String)
  | [] => .ok place
  | name :: rest => do
    tree.folder place
    if name = "" ∨ name = "." then
      walk tree place rest
    else if name = ".." then
      if place = [] then .error .notFound else walk tree place.dropLast rest
    else if 255 < name.utf8ByteSize then
      .error .nameTooLong
    else
      walk tree (place ++ [name]) rest

/-- Where a path leads. -/
def resolve (tree : Tree) (path : String) : Except Fault (List String) :=
  if path.toList.contains '\x00' then
    .error .nullInName
  else if path.isEmpty || Path.isAbsolute path then
    .error .notFound
  else
    tree.walk [] (Path.names path)

/-- The text of a file. -/
def read (tree : Tree) (path : String) : Except Fault String := do
  let place ← tree.resolve path
  if tree.isFolder place then
    .error .isADirectory
  else
    match tree.file? place with
    | none => .error .notFound
    | some bytes =>
      match String.fromUTF8? bytes with
      | some text => .ok text
      | none => .error .notUtf8

/-- The names in a directory. -/
def list (tree : Tree) (path : String) : Except Fault (List String) := do
  let place ← tree.resolve path
  tree.folder place
  return tree.children place

/-- The tree with a file written. The directory of the file must be there. -/
def written (tree : Tree) (path text : String) : Except Fault Tree := do
  let trailing := (Path.names path).reverse.takeWhile (·.isEmpty)
  let place ← tree.resolve (String.ofList (path.toList.take (path.length - trailing.length)))
  if trailing ≠ [] ∨ tree.isFolder place then
    .error .isADirectory
  else
    .ok { tree with files := (place, text.toUTF8) :: tree.files.filter (·.1 != place) }

/-- Access to a tree. -/
def access : Access (StateM Tree) where
  read path := do return (← get).read path
  list path := do return (← get).list path
  write path text := do
    match (← get).written path text with
    | .ok tree =>
      set tree
      return .ok ()
    | .error fault => return .error fault

end Tree

end Candlewick.Files
