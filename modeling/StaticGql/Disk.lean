import StaticGql.Dict
import StaticGql.Path

/-!
The files that a build sees, at one moment. Every file and folder has one name from the root, and a
path is followed to it component by component, so that `..` leads out of folders that exist only.
-/

namespace StaticGql

inductive Disk.Content where
  | text (s : String)
  /-- Bytes that are no text. -/
  | binary
  deriving DecidableEq, Repr

structure Disk where
  /-- By their names from the root. -/
  files : Dict Disk.Content
  folders : List String
  /-- The folder that relative paths start from. -/
  current : String

namespace Disk

inductive Fault where
  | notFound
  | notFolder
  | isFolder
  | taken
  | notText
  deriving DecidableEq, Repr

def Fault.message : Fault → String
  | notFound => "No such file or directory (os error 2)"
  | notFolder => "Not a directory (os error 20)"
  | isFolder => "Is a directory (os error 21)"
  | taken => "File exists (os error 17)"
  | notText => "stream did not contain valid UTF-8"

/-- The segments of a name from the root, the last one first. -/
abbrev Place := List Path.Segment

def name (place : Place) : String :=
  String.ofList (Path.slash ++ Text.joinWith Path.slash place.reverse)

variable (d : Disk)

/-- The root is a folder on every disk. -/
def file? (place : Place) : Option Content :=
  if place.isEmpty then none else d.files.get? (name place)

def hasFolder (place : Place) : Bool := place.isEmpty || name place ∈ d.folders

def hasPlace (place : Place) : Bool := (d.file? place).isSome || d.hasFolder place

/-- One component further. -/
def follow (place : Place) (segment : Path.Segment) : Except Fault Place :=
  if !d.hasFolder place then .error (if (d.file? place).isSome then .notFolder else .notFound)
  else if segment = [] ∨ segment = ['.'] then .ok place
  else if segment = ['.', '.'] then .ok place.tail
  else .ok (segment :: place)

def segments (path : String) : List Path.Segment :=
  Text.splitOn '/' (if Path.startsAtRoot path then path else d.current ++ "/" ++ path).toList

/-- Where a path leads; only its last component may be missing. -/
def locate (path : String) : Except Fault Place :=
  if path.isEmpty then .error .notFound else (d.segments path).foldlM d.follow []

def isFile (path : String) : Bool :=
  match d.locate path with
  | .ok place => (d.file? place).isSome
  | .error _ => false

def isFolder (path : String) : Bool :=
  match d.locate path with
  | .ok place => d.hasFolder place
  | .error _ => false

def contains (path : String) : Bool :=
  match d.locate path with
  | .ok place => d.hasPlace place
  | .error _ => false

/-- The text of a file. -/
def read (path : String) : Except Fault String := do
  let place ← d.locate path
  match d.file? place with
  | some (.text s) => .ok s
  | some .binary => .error .notText
  | none => .error (if d.hasFolder place then .isFolder else .notFound)

/-- The files below a folder, as seen from it. -/
def filesBelow (path : String) : List String :=
  match d.locate path with
  | .ok place => d.files.keys.filterMap (Path.below? (name place))
  | .error _ => []

/-! ### Changes -/

def addFolder (place : Place) : Disk :=
  if d.hasPlace place then d else { d with folders := name place :: d.folders }

/-- A folder with every folder on the way to it. -/
def createFolders (path : String) : Except Fault Disk := do
  let step (r : Disk × Place) (segment : Path.Segment) : Except Fault (Disk × Place) := do
    let place ← r.1.follow r.2 segment
    return (r.1.addFolder place, place)
  let (d, place) ← (d.segments path).foldlM step (d, [])
  if (d.file? place).isSome then throw .taken
  return d

/-- A file in a folder that exists. -/
def write (path : String) (content : Content) : Except Fault Disk := do
  let place ← d.locate path
  if d.hasFolder place then throw .isFolder
  return { d with files := d.files.insert (name place) content }

/-- A file with the folders on the way to it. -/
def create (path : String) (content : Content) : Except Fault Disk := do
  match Path.above? path with
  | none | some "" => d.write path content
  | some folder => (← d.createFolders folder).write path content

/-- What is at a path, with everything below it, taken away. -/
def remove (path : String) : Disk :=
  match d.locate path with
  | .ok place =>
    let gone (p : String) : Bool := (Path.below? (name place) p).isSome
    { d with files := d.files.filter fun p _ => !gone p, folders := d.folders.filter (!gone ·) }
  | .error _ => d

/-- Nothing but the current folder. -/
def empty (current : String) : Disk :=
  let d : Disk := ⟨∅, [], current⟩
  match d.createFolders current with
  | .ok d => d
  | .error _ => d

end Disk
end StaticGql
