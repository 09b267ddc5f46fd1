import ArithScript.Text.Units

/-!
# Files

A directory tree as the command sees it: files by their places, each a list of bytes, and
directories. The working directory, those above it and the root are always there. How the working
directory is reached from the root is not known, so a place is counted from the root or from one of
those directories.

Paths go step by step, `.` and `..` included, and a step can only be taken from a directory. A name
has at most 255 bytes, and a path at most 4095. A path that ends with a slash leads to a directory;
it cannot be written to, whether or not there is one.

A file is written in two steps: it is opened, which makes or empties it, and then it is filled. A
device that fails between its first byte and its last leaves a beginning of what was to be written.
-/

set_option autoImplicit false

namespace ArithScript.Command

/-- Why a file cannot be read or written. -/
inductive FileError where
  | notFound
  | notDirectory
  | isDirectory
  /-- A name or a path is too long. -/
  | nameTooLong
  /-- The bytes are no UTF-8. -/
  | notText
  /-- Some other reason, with its wording. -/
  | other (reason : String)
  deriving DecidableEq, Repr

/-- The wording of a reason. -/
def FileError.message : FileError → String
  | .notFound => "No such file or directory (os error 2)"
  | .notDirectory => "Not a directory (os error 20)"
  | .isDirectory => "Is a directory (os error 21)"
  | .nameTooLong => "File name too long (os error 36)"
  | .notText => "stream did not contain valid UTF-8"
  | .other reason => reason

/-! ## Places -/

/-- The directory that a place is counted from. -/
inductive Base where
  | root
  /-- So many levels above the working directory. -/
  | above (levels : Nat)
  deriving DecidableEq, Repr, Inhabited

/-- A place in the tree: the names that lead down to it from a directory. -/
structure Place where
  base : Base
  names : List String
  deriving DecidableEq, Repr, Inhabited

namespace Place

/-- The working directory. -/
def working : Place := ⟨.above 0, []⟩

/-- The directory of a place. The root is its own. -/
def parent (place : Place) : Place :=
  match place.names, place.base with
  | [], .root => place
  | [], .above levels => ⟨.above (levels + 1), []⟩
  | names, base => ⟨base, names.dropLast⟩

/-- The place one step further. -/
def step (name : String) (place : Place) : Place :=
  if name = "." then place
  else if name = ".." then place.parent
  else ⟨place.base, place.names ++ [name]⟩

end Place

/-! ## Paths -/

/-- The most bytes of a name. -/
def nameLimit : Nat := 255

/-- The most bytes of a path. -/
def pathLimit : Nat := 4095

/-- Where a path starts. -/
def pathStart (path : String) : Place := if path.startsWith "/" then ⟨.root, []⟩ else .working

/-- The steps of a path. -/
def pathSteps (path : String) : List String :=
  ((path.toList.splitOn '/').filter (· ≠ [])).map String.ofList

/-- Whether a text has more bytes than it may. -/
def isLong (limit : Nat) (text : String) : Bool := limit < Text.byteLength text.toList

/-! ## The tree -/

/-- The files and the directories of the tree. -/
structure Files where
  entries : List (Place × List UInt8)
  /-- The directories besides those that are always there. -/
  directories : List Place
  deriving DecidableEq, Repr, Inhabited

/-- What a device does with a file that is to be written. -/
inductive Reception where
  | takesAll
  /-- The file cannot be opened. -/
  | refuses (error : FileError)
  /-- Writing fails after so many bytes. -/
  | breaksOff (room : Nat) (error : FileError)
  deriving DecidableEq, Repr

/-- The devices of the tree, by the places on them. -/
abbrev Medium := Place → Reception

namespace Files

/-- The tree without files. -/
def empty : Files := ⟨[], []⟩

/-- The tree with other bytes at a place. -/
def put (files : Files) (place : Place) (bytes : List UInt8) : Files :=
  { files with entries := (place, bytes) :: files.entries.filter (·.1 ≠ place) }

/-- The tree with a file at the end of some steps from a place. The steps before the last are made
directories, also where a later one leads up again. -/
def make (files : Files) (bytes : List UInt8) : Place → List String → Files
  | here, [] => files.put here bytes
  | here, [name] => files.put (here.step name) bytes
  | here, name :: names =>
    let next := here.step name
    make { files with directories := next :: files.directories } bytes next names

/-- The tree that holds some files, given by their paths. Of two for one place the later counts. -/
def ofList (contents : List (String × List UInt8)) : Files :=
  contents.foldl
    (fun files (path, bytes) => files.make bytes (pathStart path) (pathSteps path)) empty

/-- What is at a place. -/
inductive Entry where
  | file (bytes : List UInt8)
  | directory
  | missing
  deriving DecidableEq, Repr

/-- What is at a place. -/
def entryAt (files : Files) (place : Place) : Entry :=
  match files.entries.find? (·.1 = place) with
  | some (_, bytes) => .file bytes
  | none => if place.names.isEmpty || place ∈ files.directories then .directory else .missing

/-- Follows steps from a place, which has to be a directory if there are any. -/
def follow (files : Files) : Place → List String → Except FileError Place
  | here, [] => .ok here
  | here, name :: names =>
    match files.entryAt here with
    | .file _ => .error .notDirectory
    | .missing => .error .notFound
    | .directory =>
      if isLong nameLimit name then .error .nameTooLong else files.follow (here.step name) names

/-- Follows steps from the start of a path. -/
def followFrom (files : Files) (path : String) (steps : List String) : Except FileError Place :=
  if isLong pathLimit path then .error .nameTooLong
  else files.follow (pathStart path) steps

/-- The bytes of a file. -/
def read (files : Files) (path : String) : Except FileError (List UInt8) := do
  match files.entryAt (← files.followFrom path (pathSteps path)) with
  | .file bytes => if path.endsWith "/" then throw .notDirectory else return bytes
  | .directory => throw .isDirectory
  | .missing => throw .notFound

/-- The place that a path gives to a file to be written. If the path ends with a slash there is
none, but the directory that the last step is taken from has to be there. -/
def writePlace (files : Files) (path : String) : Except FileError Place :=
  if path.endsWith "/" then do
    let _ ← files.followFrom path ((pathSteps path).dropLast ++ ["."])
    throw .isDirectory
  else files.followFrom path (pathSteps path)

/-- Opens a file to be written: it is made if it is not there, and emptied if it is. -/
def create (files : Files) (medium : Medium) (path : String) :
    Except FileError (Place × Files) := do
  let place ← files.writePlace path
  match files.entryAt place, medium place with
  | .directory, _ => throw .isDirectory
  | _, .refuses error => throw error
  | _, _ => return (place, files.put place [])

/-- Fills a file that has been opened, as far as its device goes. -/
def fill (files : Files) (medium : Medium) (place : Place) (bytes : List UInt8) :
    Except FileError Unit × Files :=
  match medium place with
  | .breaksOff room error =>
    if bytes.length ≤ room then (.ok (), files.put place bytes)
    else (.error error, files.put place (bytes.take room))
  | _ => (.ok (), files.put place bytes)

/-- Writes a file. If this fails while the file is being filled, what has been written stays. -/
def write (files : Files) (medium : Medium) (path : String) (bytes : List UInt8) :
    Except FileError Unit × Files :=
  match files.create medium path with
  | .error error => (.error error, files)
  | .ok (place, opened) => opened.fill medium place bytes

end Files

/-- The text of some bytes, if they are UTF-8. -/
def decodeText (bytes : List UInt8) : Except FileError String :=
  match String.fromUTF8? ⟨bytes.toArray⟩ with
  | some text => .ok text
  | none => .error .notText

end ArithScript.Command
