import Segue.Path
import Segue.Text.Terminator

/-!
A tree of directories and text files, and what the operations on it do and refuse. Paths start at a
working directory. What lies above the working directory exists but has no names that could be used.
-/

namespace Segue

/-- Why a file operation is refused. -/
inductive FileError where
  | notFound
  | permissionDenied
  | alreadyExists
  | notDirectory
  | isDirectory
  | nameTooLong
  | nulInName
  deriving Repr, DecidableEq

def FileError.message : FileError → String
  | notFound => "No such file or directory (os error 2)"
  | permissionDenied => "Permission denied (os error 13)"
  | alreadyExists => "File exists (os error 17)"
  | notDirectory => "Not a directory (os error 20)"
  | isDirectory => "Is a directory (os error 21)"
  | nameTooLong => "File name too long (os error 36)"
  | nulInName => "file name contained an unexpected NUL byte"

/-- The most bytes of a path. -/
def Path.limit : Nat := 4095

/-- The most bytes of a name in a directory. -/
def Path.nameLimit : Nat := 255

/-- Refuses paths that lead nowhere, whatever there is. -/
def Path.check (path : Path) : Except FileError Unit :=
  if Text.hasNul path.text then .error .nulInName
  else if path.text = "" then .error .notFound
  else if limit < path.text.utf8ByteSize then .error .nameTooLong
  else .ok ()

/-- What a name stands for. -/
inductive Entry where
  | directory
  | file (text : String) (executable : Bool)
  deriving Repr, DecidableEq

/-- Where a path leads: along names below the working directory, or outside of it. -/
inductive Place where
  | inside (names : List String)
  | outside
  deriving Repr, DecidableEq

/-- The named entries below the working directory, with the names that lead to them. -/
structure FileTree where
  entries : List (List String × Entry) := []
  deriving Repr, DecidableEq

namespace FileTree

/-- The entry at a place. The working directory and what is above it are directories. -/
def entry? (tree : FileTree) : Place → Option Entry
  | .outside => some .directory
  | .inside [] => some .directory
  | .inside names => tree.entries.lookup names

def put (tree : FileTree) (names : List String) (entry : Entry) : FileTree :=
  if tree.entries.any (·.1 == names) then
    { entries := tree.entries.map fun old => if old.1 == names then (names, entry) else old }
  else { entries := tree.entries ++ [(names, entry)] }

def erase (tree : FileTree) (names : List String) : FileTree :=
  { entries := tree.entries.filter fun old => old.1 != names }

/-- The place one step up. -/
def above : Place → Place
  | .outside => .outside
  | .inside [] => .outside
  | .inside names => .inside names.dropLast

/-- The place of a name in a directory, when it could be there. -/
def below : Place → String → Except FileError (List String)
  | .outside, _ => .error .notFound
  | .inside names, name =>
    if Path.nameLimit < name.utf8ByteSize then .error .nameTooLong else .ok (names ++ [name])

/-- Takes one step from a place that has to be a directory. -/
def step (tree : FileTree) (place : Place) (name : String) : Except FileError Place :=
  if tree.entry? place ≠ some .directory then .error .notDirectory
  else if Path.isIdle name then .ok place
  else if name = ".." then .ok (above place)
  else do
    let names ← below place name
    match tree.entry? (.inside names) with
    | some _ => .ok (.inside names)
    | none => .error .notFound

/-- The place where the steps of a path begin. -/
def startOf (path : Path) : Place := if path.isAbsolute then .outside else .inside []

/-- The place of what a path names. -/
def find (tree : FileTree) (path : Path) : Except FileError Place := do
  path.check
  path.steps.foldlM tree.step (startOf path)

def isFile (tree : FileTree) (path : Path) : Bool :=
  match tree.find path with
  | .ok place => match tree.entry? place with
    | some (.file ..) => true
    | _ => false
  | .error _ => false

def isDirectory (tree : FileTree) (path : Path) : Bool :=
  match tree.find path with
  | .ok place => tree.entry? place == some .directory
  | .error _ => false

def contains (tree : FileTree) (path : Path) : Bool := (tree.find path).toBool

/-- The text of a file. -/
def read (tree : FileTree) (path : Path) : Except FileError String := do
  match tree.entry? (← tree.find path) with
  | some (.file text _) => .ok text
  | some .directory => .error .isDirectory
  | none => .error .notFound

/-- A place that could be written to. -/
inductive Target where
  /-- Something is there. -/
  | taken (place : Place)
  /-- The directory is there, the name is not. -/
  | free (names : List String)
  deriving Repr, DecidableEq

/-- The steps of a path without empty ones at its end, and whether there were any. -/
def splitTrailing (path : Path) : List String × Bool :=
  let steps := (path.steps.reverse.dropWhile (· == "")).reverse
  (steps, steps.length < path.steps.length)

/-- Where a path that may name something new leads, and whether a slash ends it. Such a slash asks for
a directory, so no file can be made there. -/
def target (tree : FileTree) (path : Path) (makesFile : Bool) :
    Except FileError (Target × Bool) := do
  path.check
  let (steps, trailing) := splitTrailing path
  match steps.getLast? with
  | none => return (.taken (startOf path), trailing)
  | some name =>
    let directory ← steps.dropLast.foldlM tree.step (startOf path)
    if Path.isIdle name ∨ name = ".." then return (.taken (← tree.step directory name), trailing)
    else if tree.entry? directory ≠ some .directory then .error .notDirectory
    else if makesFile ∧ trailing then .error .isDirectory
    else if directory = .outside then .error .permissionDenied
    else
      let names ← below directory name
      match tree.entry? (.inside names) with
      | some _ => return (.taken (.inside names), trailing)
      | none => return (.free names, trailing)

/-- Writes a text file, new or in place of an old one. -/
def write (tree : FileTree) (path : Path) (text : String) : Except FileError FileTree := do
  match ← tree.target path true with
  | (.free names, _) => .ok (tree.put names (.file text false))
  | (.taken place, _) =>
    match place, tree.entry? place with
    | .inside names, some (.file _ executable) => .ok (tree.put names (.file text executable))
    | _, _ => .error .isDirectory

/-- Makes sure that a file is there to be added to. -/
def openForAppending (tree : FileTree) (path : Path) : Except FileError FileTree := do
  match ← tree.target path true with
  | (.free names, _) => .ok (tree.put names (.file "" false))
  | (.taken place, _) =>
    match tree.entry? place with
    | some (.file ..) => .ok tree
    | _ => .error .isDirectory

/-- Deletes a file. -/
def remove (tree : FileTree) (path : Path) : Except FileError FileTree := do
  match ← tree.target path false with
  | (.free _, _) => .error .notFound
  | (.taken place, trailing) =>
    match place, tree.entry? place with
    | .inside names, some (.file ..) => if trailing then .error .notDirectory else .ok (tree.erase names)
    | _, _ => .error .isDirectory

/-- Makes one directory in a directory that is there. -/
def makeDirectory (tree : FileTree) (path : Path) : Except FileError FileTree := do
  match ← tree.target path false with
  | (.free names, _) => .ok (tree.put names .directory)
  | (.taken _, _) => .error .alreadyExists

/-- Makes a directory and those above it that are missing, at most so many of them. Directories that
have been made stay when a later one is refused. -/
def makeDirectoriesUpTo : Nat → FileTree → Path → FileTree × Except FileError Unit
  | 0, tree, _ => (tree, .error .notFound)
  | levels + 1, tree, path =>
    if path.text = "" then (tree, .ok ())
    else match tree.makeDirectory path with
      | .ok tree => (tree, .ok ())
      | .error .notFound =>
        match path.parent? with
        | none => (tree, .error .notFound)
        | some parent =>
          match makeDirectoriesUpTo levels tree parent with
          | (tree, .error error) => (tree, .error error)
          | (tree, .ok ()) =>
            match tree.makeDirectory path with
            | .ok tree => (tree, .ok ())
            | .error error => (tree, if tree.isDirectory path then .ok () else .error error)
      | .error error => (tree, if tree.isDirectory path then .ok () else .error error)

/-- Makes a directory and those above it that are missing. A path has no more of them than it has
characters. -/
def makeDirectories (tree : FileTree) (path : Path) : FileTree × Except FileError Unit :=
  makeDirectoriesUpTo (path.text.length + 1) tree path

/-- The text files of the tree with their paths. -/
def texts (tree : FileTree) : List (Path × String) :=
  tree.entries.filterMap fun (names, entry) =>
    match entry with
    | .file text false => some (Path.ofSteps names, text)
    | _ => none

end FileTree

end Segue
