import SchemaBundle.Fetch

/-!
# A tree of files

What the command sees of a file system: directories and files by their absolute paths, and a working
directory where relative paths start. `FileTree.openFile` follows a path from name to name as the
system does, so that each way to fail has its own error; `FileTree.create` follows all but the last
name. A created file is the only change (`contents?_put_self`, `contents?_put_of_ne`).
-/

namespace SchemaBundle

/-- The names on the way from the root to a directory or file. -/
abbrev AbsolutePath := List Bytes

/-- Directories and files. The root is a directory in every tree. -/
structure FileTree where
  workingDirectory : AbsolutePath
  directories : List AbsolutePath
  /-- A path that comes more than once holds what it has first. -/
  files : List (AbsolutePath × Bytes)

namespace FileTree

/-- A directory and the directories that it lies in. -/
def ancestors (path : AbsolutePath) : List AbsolutePath :=
  (List.range (path.length + 1)).map path.take

/-- The tree of some files, with the directories that they need. -/
def ofFiles (workingDirectory : AbsolutePath) (files : List (AbsolutePath × Bytes)) : FileTree :=
  { workingDirectory
    directories := ancestors workingDirectory ++ files.flatMap fun file => ancestors file.1.dropLast
    files }

/-- Whether a path is a directory. -/
def isDirectory (tree : FileTree) (path : AbsolutePath) : Bool :=
  path.isEmpty || tree.directories.contains path

/-- What a file holds. -/
def contents? (tree : FileTree) (path : AbsolutePath) : Option Bytes :=
  (tree.files.find? fun file => file.1 = path).map (·.2)

/-- The tree in which a file holds something else. -/
def put (tree : FileTree) (path : AbsolutePath) (contents : Bytes) : FileTree :=
  { tree with files := (path, contents) :: tree.files }

/-- The names between the slashes of a path. A slash at the start or the end leaves an empty
name. -/
def names : Bytes → List Bytes
  | [] => [[]]
  | byte :: rest =>
    if byte = 47 then [] :: names rest
    else
      match names rest with
      | name :: more => (byte :: name) :: more
      | [] => [[byte]]

/-- The name of a directory in itself. -/
def here : Bytes := [46]

/-- The name of the directory that a directory lies in. -/
def above : Bytes := [46, 46]

/-- The longest name that a directory can hold. -/
def longestName : Nat := 255

/-- The longest path that the system takes. -/
def longestPath : Nat := 4095

/-- Refuse what the system does not take for a path at all. -/
def checkPath (path : Bytes) : Except FileError Unit :=
  if path.contains 0 then .error .invalidName
  else if path.isEmpty then .error .notFound
  else if longestPath < path.length then .error .nameTooLong
  else .ok ()

/-- Where a path starts. An absolute path starts with an empty name, at the root. -/
def start (tree : FileTree) (path : Bytes) : AbsolutePath :=
  if path.head? = some 47 then [] else tree.workingDirectory

/-- Go from a directory to what it has under a name. -/
def step (tree : FileTree) (place : AbsolutePath) (name : Bytes) :
    Except FileError AbsolutePath :=
  if !tree.isDirectory place then .error .notDirectory
  else if name = [] ∨ name = here then .ok place
  else if name = above then .ok place.dropLast
  else if longestName < name.length then .error .nameTooLong
  else
    let next := place ++ [name]
    if tree.isDirectory next || (tree.contents? next).isSome then .ok next else .error .notFound

/-! ## Reading and creating files -/

/-- A file by its path: where it lies and what it holds. -/
def openFile (tree : FileTree) (path : Bytes) : Except FileError (AbsolutePath × Bytes) := do
  checkPath path
  let place ← (names path).foldlM tree.step (tree.start path)
  if tree.isDirectory place then .error .isDirectory
  else
    match tree.contents? place with
    | some contents => .ok (place, contents)
    | none => .error .notFound

/-- Create a file, or empty it, and write into it. A path that ends with a slash can only name a
directory. -/
def create (tree : FileTree) (path contents : Bytes) : Except FileError FileTree := do
  checkPath path
  match (names path).reverse.dropWhile (·.isEmpty) with
  | [] => .error .isDirectory
  | name :: before =>
    let place ← before.reverse.foldlM tree.step (tree.start path)
    if !tree.isDirectory place then .error .notDirectory
    else if path.getLast? = some 47 ∨ name = here ∨ name = above then .error .isDirectory
    else if longestName < name.length then .error .nameTooLong
    else if tree.isDirectory (place ++ [name]) then .error .isDirectory
    else .ok (tree.put (place ++ [name]) contents)

/-- The files of a tree under their locations. -/
def fetcher (tree : FileTree) (words : ReaderWords := .unknown) : Fetcher :=
  Fetcher.ofFiles tree.openFile words

end FileTree

end SchemaBundle
