import DecafBackend.Tool

/-! # Directories in memory

    A directory that holds files, and no other directory, is enough to run
    the tool in.  Paths are resolved from inside of it: empty parts and
    single dots name the place they stand at, a name with something after it
    has to be a directory, and double dots lead out.

    * `Obstacle` — why a path cannot be followed
    * `Directory.resolve` — the file that a path names
    * `Directory.files` — the directory as a way to reach files -/

namespace DecafBackend.Tool

/-- Why a path cannot be followed. -/
inductive Obstacle
  /-- There is nothing of that name. -/
  | missing
  /-- A file stands where a directory should. -/
  | notADirectory
  /-- A directory stands where a file should. -/
  | isADirectory
  /-- A name, or the path, is too long. -/
  | nameTooLong
deriving DecidableEq

/-- The wording of an obstacle. -/
def Obstacle.message : Obstacle → String
  | missing => "No such file or directory (os error 2)"
  | notADirectory => "Not a directory (os error 20)"
  | isADirectory => "Is a directory (os error 21)"
  | nameTooLong => "File name too long (os error 36)"

/-- The number of bytes that a name can have. -/
def nameLimit : Nat := 255

/-- The number of bytes that a path can have. -/
def pathLimit : Nat := 4095

/-- A directory of files. -/
structure Directory where
  /-- The names and contents; of two files with one name, the first counts. -/
  entries : List (String × String) := []
deriving DecidableEq

namespace Directory

/-- The contents of a file. -/
def get? (directory : Directory) (name : String) : Option String := directory.entries.lookup name

/-- Replaces the contents of a file. -/
def put (directory : Directory) (name contents : String) : Directory :=
  ⟨(name, contents) :: directory.entries⟩

/-- The name of the file that a path from inside the directory names, whether
    there is one or not.  A path that ends in a slash names a directory, so
    no file is made there. -/
def resolve (directory : Directory) (creates : Bool) (path : String) : Except Obstacle String :=
  let parts := path.splitOn "/"
  if path = "" then .error .missing
  else if pathLimit < path.utf8ByteSize then .error .nameTooLong
  else
    match parts.filter fun part => part ≠ "" ∧ part ≠ "." with
    | [] => .error .isADirectory
    | name :: rest =>
      if parts.head? = some "" then .error .missing
      else if name = ".." then
        .error (if rest.all (· == "..") then .isADirectory else .missing)
      else if nameLimit < name.utf8ByteSize then .error .nameTooLong
      else if parts.getLast? = some name ∧ rest = [] then .ok name
      else if (directory.get? name).isSome then .error .notADirectory
      else if creates ∧ rest = [] ∧ parts.getLast? = some "" then .error .isADirectory
      else .error .missing

/-- The contents of the file that a path names. -/
def read (directory : Directory) (path : String) : Except Obstacle String := do
  match directory.get? (← directory.resolve false path) with
  | some contents => return contents
  | none => throw .missing

/-- Replaces the contents of the file that a path names. -/
def write (directory : Directory) (path contents : String) : Except Obstacle Directory := do
  return directory.put (← directory.resolve true path) contents

/-- The directory as a way to reach files. -/
def files : Files (StateM Directory) where
  read path := do
    return ((← get).read path).mapError Obstacle.message
  write path text := do
    match (← get).write path text with
    | .error obstacle => return .error obstacle.message
    | .ok directory =>
      set directory
      return .ok ()

end Directory

end DecafBackend.Tool
