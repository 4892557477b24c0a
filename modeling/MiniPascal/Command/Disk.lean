import MiniPascal.Table

/-!
Files and directories. Paths are walked from the working directory, or from the root if they begin
with a slash.
-/

namespace MiniPascal

/-- Names on the way from the root. -/
abbrev Path := List Text

structure Disk where
  files : List (Path × Text) := []
  /-- Directories that hold nothing. All others are known from what they hold. -/
  emptyDirs : List Path := []
  /-- The working directory. -/
  here : Path := []

inductive FileProblem where
  | notFound
  | isDirectory
  | notDirectory
  | invalidName
  | nameTooLong
  deriving DecidableEq

/-- A failed operation on a file. -/
inductive FileError where
  | opening (path : Text) (problem : FileProblem)
  | reading (path : Text) (problem : FileProblem)
  deriving DecidableEq

def FileProblem.message : FileProblem → Text
  | notFound => "no such file or directory"
  | isDirectory => "is a directory"
  | notDirectory => "not a directory"
  | invalidName => "invalid argument"
  | nameTooLong => "file name too long"

def FileError.message : FileError → Text
  | opening path problem => "open " ++ path ++ ": " ++ problem.message
  | reading path problem => "read " ++ path ++ ": " ++ problem.message

namespace Disk

def file? (d : Disk) (p : Path) : Option Text := d.files.lookup p

def isDirectory (d : Disk) (p : Path) : Bool :=
  p.isPrefixOf d.here || d.emptyDirs.any p.isPrefixOf ||
    d.files.any fun (q, _) => q != p && p.isPrefixOf q

/-- Where the names of a path lead from a directory if every one of them is there. -/
def follow (p : Path) : List Text → Path
  | [] => p
  | name :: names =>
    if name = [] ∨ name = "." then follow p names
    else if name = ".." then follow p.dropLast names
    else follow (p ++ [name]) names

/-- The most bytes in one name of a path. -/
def nameLimit : Nat := 255

/-- The most bytes in a path. -/
def pathLimit : Nat := 4095

/-- Goes on from a directory by the names of a path; `.` and nothing stay, `..` goes back. A name is
too long only where it is looked up, so behind a missing directory no name is. -/
def walk (d : Disk) : Path → List Text → Except FileProblem Path
  | p, [] => .ok p
  | p, name :: names =>
    if d.isDirectory p then
      if name = [] ∨ name = "." then walk d p names
      else if name = ".." then walk d p.dropLast names
      else if nameLimit < Text.size name then .error .nameTooLong
      else walk d (p ++ [name]) names
    else if (d.file? p).isSome then .error .notDirectory
    else .error .notFound

/-- What is wrong with a path before anything is looked up. -/
def refusal? (path : Text) : Option FileProblem :=
  if path = [] then some .notFound
  else if path.contains (.char '\x00') then some .invalidName
  else if pathLimit < Text.size path then some .nameTooLong
  else none

/-- The names of a path, and the directory to start from. -/
def split (d : Disk) (path : Text) : Path × List Text :=
  let names := path.splitOn (.char '/')
  if path.head? = some (.char '/') then ([], names) else (d.here, names)

/-- Where a path leads, whether there is something or not. -/
def resolve (d : Disk) (path : Text) : Except FileProblem Path :=
  match refusal? path with
  | some problem => .error problem
  | none =>
    let (start, names) := d.split path
    d.walk start names

/-- The contents of a file. -/
def read (d : Disk) (path : Text) : Except FileError Text :=
  match d.resolve path with
  | .error problem => .error (.opening path problem)
  | .ok p =>
    match d.file? p with
    | some text => .ok text
    | none =>
      if d.isDirectory p then .error (.reading path .isDirectory)
      else .error (.opening path .notFound)

/-- Where a file that is to be written lies. A path that ends in a slash, `.` or `..` names a
directory, whatever is there. -/
def place (d : Disk) (path : Text) : Except FileProblem Path :=
  match refusal? path with
  | some problem => .error problem
  | none =>
    let (start, names) := d.split path
    match names.reverse.dropWhile (· = []) with
    | [] => .error .isDirectory
    | name :: above =>
      match d.walk start (above.reverse ++ [[]]) with
      | .error problem => .error problem
      | .ok p =>
        if names.getLast? = some [] ∨ name = "." ∨ name = ".." then .error .isDirectory
        else if nameLimit < Text.size name then .error .nameTooLong
        else if d.isDirectory (p ++ [name]) then .error .isDirectory
        else .ok (p ++ [name])

def put (files : List (Path × Text)) (p : Path) (text : Text) : List (Path × Text) :=
  match files with
  | [] => [(p, text)]
  | (q, old) :: rest => if q = p then (p, text) :: rest else (q, old) :: put rest p text

/-- Replaces the contents of a file, or makes it. -/
def write (d : Disk) (path text : Text) : Except FileError Disk :=
  match d.place path with
  | .error problem => .error (.opening path problem)
  | .ok p => .ok { d with files := put d.files p text }

/-- The files that are new or have other contents than before. -/
def changedSince (d before : Disk) : List (Path × Text) :=
  d.files.filter fun (p, text) => before.file? p ≠ some text

end Disk

end MiniPascal
