import StaticGql.Blake3
import StaticGql.Dict
import StaticGql.Json.Basic

/-!
The tracker: the fingerprints of the files of the last successful build, and what has changed
since.
-/

namespace StaticGql

/-- Paths in order, and the fingerprints of those that are new or changed. -/
structure Diff where
  added : List String
  removed : List String
  changed : List String
  fingerprints : Dict Fingerprint
  deriving DecidableEq

namespace Diff

def empty : Diff := ⟨[], [], [], ∅⟩

def isEmpty (d : Diff) : Bool := d.added.isEmpty && d.removed.isEmpty && d.changed.isEmpty

def size (d : Diff) : Nat := d.added.length + d.removed.length + d.changed.length

def touched (d : Diff) : List String := d.added ++ d.changed

def toJson (d : Diff) : Json :=
  .obj [("added", Json.strs d.added), ("removed", Json.strs d.removed),
    ("changed", Json.strs d.changed)]

end Diff

structure Tracker where
  files : Dict Fingerprint
  deriving DecidableEq

namespace Tracker

def empty : Tracker := ⟨∅⟩

variable (t : Tracker)

def isNew (path : String) : Bool := !t.files.contains path

def isChanged (path : String) (now : Fingerprint) : Bool := (t.files.get? path).any (·.differs now)

/-- What differs between the committed files and those that there are now. -/
def diff (now : Dict Fingerprint) : Diff :=
  { added := now.keys.filter t.isNew
    removed := t.files.keys.filter fun path => !now.contains path
    changed := (now.filter t.isChanged).keys
    fingerprints := now.filter fun path f => t.isNew path || t.isChanged path f }

def commit (d : Diff) : Tracker :=
  ⟨d.fingerprints.toList.foldl (fun files (path, f) => files.insert path f)
    (t.files.filter fun path _ => path ∉ d.removed)⟩

/-- Whether a file was tracked, and the tracker without it. -/
def forget (path : String) : Bool × Tracker := (t.files.contains path, ⟨t.files.erase path⟩)

end Tracker
end StaticGql
