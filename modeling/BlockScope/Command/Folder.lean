import BlockScope.Text.Utf8
/-!
# Files

What can go wrong with a file, and a working directory held in memory. A path is walked from part to
part, and every location it leaves has to be a directory. The directories there are, are those that the
names of the files lead through. Outside the working directory only what every system has is known.
-/
namespace BlockScope

inductive FileError where
  | notFound
  | notDirectory
  | isDirectory
  | nameTooLong
  /-- The contents are no text. -/
  | notText
  /-- Anything else the system says, with its number. -/
  | system (message : String) (number : Nat)
  deriving DecidableEq, Repr

def FileError.message : FileError → String
  | .notFound => "No such file or directory (os error 2)"
  | .notDirectory => "Not a directory (os error 20)"
  | .isDirectory => "Is a directory (os error 21)"
  | .nameTooLong => "File name too long (os error 36)"
  | .notText => "stream did not contain valid UTF-8"
  | .system message number => s!"{message} (os error {number})"

/-! ## Locations -/

/-- Where the names of a location count from. -/
inductive Origin where
  /-- The working directory. -/
  | working
  /-- Some directory that the working directory is in. -/
  | above
  /-- The root of all directories. -/
  | root
  deriving DecidableEq, Repr

/-- Where a path has led. -/
structure Location where
  origin : Origin
  names : List String
  deriving DecidableEq, Repr

namespace Location

/-- Where a path starts. -/
def startOf (path : String) : Location := ⟨if path.startsWith "/" then .root else .working, []⟩

/-- The directory a location is in; the root is in itself. -/
def parent (p : Location) : Location :=
  match p.origin, p.names with
  | .working, [] => ⟨.above, []⟩
  | origin, names => ⟨origin, names.dropLast⟩

/-- A name in a directory. -/
def child (p : Location) (name : String) : Location := ⟨p.origin, p.names ++ [name]⟩

end Location

/-- What there is at a location. -/
inductive Occupant where
  | directory
  | file (bytes : List UInt8)
  /-- Reads as empty and takes whatever is written. -/
  | sink
  deriving DecidableEq, Repr

/-- What every system has under its root. -/
def systemOccupant? (names : List String) : Option Occupant :=
  if names = ["dev", "null"] then some .sink
  else if names ∈ [[], ["bin"], ["dev"], ["etc"], ["home"], ["lib"], ["tmp"], ["usr"], ["var"]] then
    some .directory
  else none

/-! ## The working directory -/

/-- The contents of files by name. -/
structure Folder where
  files : List (String × List UInt8)

namespace Folder

/-- The names of some file lead through these names. -/
def isDirectory (f : Folder) (names : List String) : Bool :=
  names.isEmpty || f.files.any fun (file, _) =>
    names.isPrefixOf (file.splitOn "/") && file.splitOn "/" ≠ names

def contents? (f : Folder) (name : String) : Option (List UInt8) := f.files.lookup name

/-- What there is at a location, if anything. -/
def occupant? (f : Folder) (p : Location) : Option Occupant :=
  match p.origin with
  | .working =>
    if f.isDirectory p.names then some .directory
    else (f.contents? ("/".intercalate p.names)).map .file
  | .above => if p.names.isEmpty then some .directory else none
  | .root => systemOccupant? p.names

/-- Leaves a location by one part of a path. -/
def step (f : Folder) (p : Location) (part : String) : Except FileError Location :=
  match f.occupant? p with
  | none => .error .notFound
  | some .directory =>
    if part = "" ∨ part = "." then .ok p
    else if part = ".." then .ok p.parent
    else if 255 < (Text.utf8 part).length then .error .nameTooLong
    else .ok (p.child part)
  | some _ => .error .notDirectory

/-- Where a path leads along these of its parts. There need not be anything there, but there is a
directory around it. -/
def walk (f : Folder) (path : String) (parts : List String) : Except FileError Location :=
  if path = "" then .error .notFound
  else if 4096 ≤ (Text.utf8 path).length then .error .nameTooLong
  else parts.foldlM f.step (.startOf path)

/-- The bytes of a file. -/
def read (f : Folder) (path : String) : Except FileError (List UInt8) := do
  match f.occupant? (← f.walk path (path.splitOn "/")) with
  | none => throw .notFound
  | some .directory => throw .isDirectory
  | some (.file bytes) => return bytes
  | some .sink => return []

/-- The folder with these contents under a name. -/
def put (f : Folder) (name : String) (bytes : List UInt8) : Folder :=
  if (f.contents? name).isSome then
    ⟨f.files.map fun (other, old) => (other, if other = name then bytes else old)⟩
  else ⟨f.files ++ [(name, bytes)]⟩

/-- The folder after a file is written. A path that ends in a slash asks for a directory, which
cannot be written, whether it is there or not. -/
def write (f : Folder) (path : String) (bytes : List UInt8) : Except FileError Folder := do
  let parts := path.splitOn "/"
  let named := (parts.reverse.dropWhile (· = "")).reverse
  if named ≠ [] ∧ named ≠ parts then
    let _ ← f.walk path named
    throw .isDirectory
  else
    let location ← f.walk path parts
    match f.occupant? location, location.origin with
    | some .directory, _ => throw .isDirectory
    | some .sink, _ => return f
    | _, .working => return f.put ("/".intercalate location.names) bytes
    | _, _ => return f

end Folder

/-- The bytes of a file that has to be text. -/
def textFile (read : String → Except FileError (List UInt8)) (path : String) : Except FileError (List UInt8) := do
  let bytes ← read path
  if Text.isValid bytes then return bytes else throw .notText

end BlockScope
