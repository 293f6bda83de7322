import StaticGql.Path

/-!
Canonical ids. An id names one declaration of a project as `file::structural`, where the file part
is a normal path, absolute or as seen from the project root, and the structural part is the dotted
place inside the file.
-/

namespace StaticGql

structure CanonicalId where
  text : String
  deriving DecidableEq, Repr

inductive IdError where
  | requiresAbsolutePath (path : String)
  | malformed (id : String)
  deriving DecidableEq, Repr

/-- Whether ids carry absolute paths or paths seen from a project root. -/
inductive IdMode where
  | absolute
  | relativeTo (root : String)
  deriving DecidableEq, Repr

namespace IdError

def code : IdError → String
  | requiresAbsolutePath _ => "REQUIRES_ABSOLUTE_PATH"
  | malformed _ => "MALFORMED_ID"

def message : IdError → String
  | requiresAbsolutePath path => s!"canonical id requires an absolute path, got '{path}'"
  | malformed id => s!"malformed canonical id '{id}'"

end IdError

namespace CanonicalId

def separator : String := "::"

/-- The last place where `::` occurs, as the text before it and the text after it. -/
def splitLast : List Char → Option (List Char × List Char)
  | [] => none
  | c :: cs =>
    match splitLast cs with
    | some (file, structural) => some (c :: file, structural)
    | none =>
      match c, cs with
      | ':', ':' :: rest => some ([], rest)
      | _, _ => none

structure Parts where
  file : String
  structural : String
  deriving DecidableEq, Repr

/-- The two parts of an id. A structural path holds no `::`, so the last one separates. -/
def parts (id : CanonicalId) : Parts :=
  match splitLast id.text.toList with
  | some (file, structural) => ⟨String.ofList file, String.ofList structural⟩
  | none => ⟨id.text, ""⟩

def file (id : CanonicalId) : String := id.parts.file

def structural (id : CanonicalId) : String := id.parts.structural

def ofParts (file structural : String) : CanonicalId := ⟨file ++ separator ++ structural⟩

/-- The file part that ids of the file at `path` carry. -/
def filePart (mode : IdMode) (path : String) : Except IdError String :=
  let file := Path.normalize path
  match mode with
  | .absolute => if Path.isAbsolute file then .ok file else .error (.requiresAbsolutePath file)
  | .relativeTo root =>
    let root := Path.normalize root
    .ok (Path.relativeTo (if Path.isAbsolute file then file else Path.join root file) root)

def create (mode : IdMode) (path structural : String) : Except IdError CanonicalId :=
  (filePart mode path).map (ofParts · structural)

/-- An id given as text; it has to hold the separator. -/
def ofText (text : String) : Except IdError CanonicalId :=
  if (splitLast text.toList).isSome then .ok ⟨text⟩ else .error (.malformed text)

def isRelative (id : CanonicalId) : Bool := !Path.isAbsolute id.file

def belongsTo (id : CanonicalId) (file : String) : Bool :=
  (file ++ separator).toList.isPrefixOf id.text.toList

/-- The absolute id that a relative one stands for below `root`. -/
def resolve (id : CanonicalId) (root : String) : CanonicalId :=
  if id.isRelative then ofParts (Path.join (Path.normalize root) id.file) id.structural else id

/-- The file part of the ids of a file. It is read back from an id, so it ends at the last
separator of that id. -/
def fileKey (mode : IdMode) (path : String) : Except IdError String :=
  (create mode path "").map file

end CanonicalId
end StaticGql
