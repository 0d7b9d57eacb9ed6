/-!
# Files and paths

A run reads and writes files by their paths. A path leads to a file of the working directory, to a
directory, to a device, or nowhere. The working directory holds files only.

* `Found`: what a path shows to a reader.
* `Directory`: the files of a working directory, with `Directory.find` and `Directory.write?`.
-/

namespace Categorial.CommandLine

/-- What a path shows to a reader. -/
inductive Found where
  | missing
  /-- Something is there that has no contents to be read. -/
  | unreadable
  | contents (s : String)
deriving DecidableEq, Repr

/-- The files that a run may read. -/
abbrev Files := String → Found

/-- What a path leads to. -/
inductive Place where
  /-- A file of the working directory, there or not. -/
  | file (name : String)
  | directory
  /-- A device: what a reader gets, and whether it takes what is written. -/
  | device (contents : String) (takes : Bool)
  | nowhere
deriving DecidableEq, Repr

namespace Place

/-- The parts of a path between slashes; `acc` holds the current part backwards. -/
def partsFrom : List Char → (acc : List Char) → List String
  | [], acc => [String.ofList acc.reverse]
  | c :: s, acc =>
    if c = '/' then String.ofList acc.reverse :: partsFrom s [] else partsFrom s (c :: acc)

/-- A part that leads on to the directory it is in. -/
def isStay (part : String) : Bool := part == "" || part == "."

/-- The greatest number of bytes in a name. -/
def maxNameBytes : Nat := 255

/-- The place of a path below the root. The devices are one that is empty and takes everything, one
that gives zeros and takes everything, and one that gives zeros and is full. -/
def ofRoot (asDirectory : Bool) : (names : List String) → Place
  | [] => directory
  | ["dev"] => directory
  | ["tmp"] => directory
  | ["dev", name] =>
    if asDirectory then nowhere
    else if name = "null" then device "" true
    else if name = "zero" then device "\x00" true
    else if name = "full" then device "\x00" false
    else nowhere
  | _ => nowhere

/-- The place of a path below the working directory. -/
def ofHere (asDirectory : Bool) (names : List String) : Place :=
  if names.all (· == "..") then directory
  else match names with
    | [name] => if asDirectory || maxNameBytes < name.utf8ByteSize then nowhere else file name
    | _ => nowhere

/-- The place a path leads to. A path that ends with a slash or a dot asks for a directory. -/
def ofPath (path : String) : Place :=
  let parts := partsFrom path.toList []
  let names := parts.filter fun p => !isStay p
  let asDirectory := parts.getLast?.any isStay
  match path.toList with
  | [] => nowhere
  | '/' :: _ => ofRoot asDirectory names
  | _ => ofHere asDirectory names

end Place

/-- The files of a working directory. -/
structure Directory where
  /-- Names and contents; the first one under a name counts. -/
  files : List (String × String) := []

namespace Directory

/-- What a path shows to a reader. -/
def find (d : Directory) (path : String) : Found :=
  match Place.ofPath path with
  | .file name =>
    match d.files.lookup name with
    | some s => .contents s
    | none => .missing
  | .directory => .unreadable
  | .device s _ => .contents s
  | .nowhere => .missing

/-- The contents of a file, if there are any. -/
def read? (d : Directory) (path : String) : Option String :=
  match d.find path with
  | .contents s => some s
  | _ => none

/-- Write a file. -/
def write? (d : Directory) (path contents : String) : Option Directory :=
  match Place.ofPath path with
  | .file name => some ⟨(name, contents) :: d.files⟩
  | .device _ true => some d
  | _ => none

end Directory

end Categorial.CommandLine
