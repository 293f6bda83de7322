import StaticGql.Analysis
import StaticGql.BuildError
import StaticGql.Graph
import StaticGql.ModuleRef

/-!
Linking: the names that declarations refer to are followed through imports and exports to the
declarations they stand for.
-/

namespace StaticGql

/-- Where a name leads. -/
inductive Target where
  | declarations (ids : List CanonicalId)
  /-- To something that is no declaration. -/
  | value
  /-- Out of the analysed files. -/
  | outside
  | missing (reason : String)
  deriving DecidableEq, Repr

/-- The analysed files by path, the ids of their declarations by structural path, and the files
that exist beside them. -/
structure Linker where
  analyses : Dict Analysis
  ids : Dict (Dict CanonicalId)
  onDisk : String → Bool

namespace Linker

def idsOf (mode : IdMode) (file : String) (a : Analysis) : Except IdError (Dict CanonicalId) :=
  (a.declarations.mapM fun s =>
    (CanonicalId.create mode file s.structuralPath).map fun id => (s.structuralPath, id)).map
    Dict.ofList

def create (mode : IdMode) (analyses : Dict Analysis) (onDisk : String → Bool) :
    Except IdError Linker :=
  (analyses.toList.mapM fun (file, a) => (idsOf mode file a).map fun ids => (file, ids)).map
    fun l => ⟨analyses, .ofList l, onDisk⟩

variable (l : Linker)

def declaration? (file path : String) : Option CanonicalId := (l.ids.get? file).bind (·.get? path)

/-- The declaration bound to a name, or else those inside its value. -/
def declarationsUnder (file localName : String) : List CanonicalId :=
  match l.declaration? file localName with
  | some id => [id]
  | none =>
    let inside := (((l.ids.get? file).map Dict.toList).getD []).filter fun (path, _) =>
      path.startsWith (localName ++ ".")
    inside.map (·.2)

/-- The analysed file that a specifier means; none where the file is another, an error where there
is no such file. -/
def targetFile (file specifier : String) : Except String (Option String) :=
  match ModuleRef.resolve? file specifier l.analyses.contains with
  | some path => .ok (some path)
  | none =>
    if (ModuleRef.resolve? file specifier l.onDisk).isSome then .ok none
    else .error s!"cannot resolve '{specifier}' from {file}"

/-- The exports that were followed, each as a file and a name. -/
abbrev Seen := List (String × String)

/-- A way to follow an export of a file. -/
abbrev Follow := Seen → String → String → Target × Seen

def throughFile (follow : Follow) (seen : Seen) (file source name : String) : Target × Seen :=
  match l.targetFile file source with
  | .ok (some target) => follow seen target name
  | .ok none => (.outside, seen)
  | .error reason => (.missing reason, seen)

/-- What a name bound in a file stands for. -/
def localTarget (follow : Follow) (seen : Seen) (file localName : String) : Target × Seen :=
  let under := l.declarationsUnder file localName
  if !under.isEmpty then (.declarations under, seen)
  else
    match l.analyses.get? file with
    | none => (.outside, seen)
    | some a =>
      match a.importOf? localName with
      | some (source, s) =>
        if !ModuleRef.isRelative source || s.imported = "*" then (.value, seen)
        else l.throughFile follow seen file source s.imported
      | none => (.value, seen)

/-- The first re-export under a name, as the name there and its source. -/
def reExport? (a : Analysis) (name : String) : Option (String × String) :=
  a.exports.findSome? fun
    | .reExport exported imported source => if exported = name then some (imported, source) else none
    | _ => none

/-- The sources of which all is passed on. -/
def passedOn (a : Analysis) : List String :=
  (a.exports.filterMap fun
    | .reExportAll source => some source
    | _ => none).filter ModuleRef.isRelative

/-- A name looked for in one source after another, until one of them knows it. -/
def firstFound (follow : Follow) (file name : String) (reason : String) :
    List String → Seen → Target × Seen
  | [], seen => (.missing reason, seen)
  | source :: rest, seen =>
    match l.throughFile follow seen file source name with
    | (.missing _, seen) => firstFound follow file name reason rest seen
    | found => found

/-- What a file exports under a name. No export is followed twice, so `fuel` may be the number of
exports there are. -/
def exportTarget : Nat → Follow
  | 0, seen, file, name => (.missing s!"export '{name}' of {file} is circular", seen)
  | fuel + 1, seen, file, name =>
    if (file, name) ∈ seen then (.missing s!"export '{name}' of {file} is circular", seen)
    else
      let seen := (file, name) :: seen
      match l.analyses.get? file with
      | none => (.outside, seen)
      | some a =>
        match a.localExport? name with
        | some localName => l.localTarget (exportTarget fuel) seen file localName
        | none =>
          match reExport? a name with
          | some (imported, source) =>
            if imported = "*" || !ModuleRef.isRelative source then (.value, seen)
            else l.throughFile (exportTarget fuel) seen file source imported
          | none =>
            let reason := s!"{file} does not export '{name}'"
            if name = "default" then (.missing reason, seen)
            else l.firstFound (exportTarget fuel) file name reason (passedOn a) seen

/-- The names that imports and re-exports ask other files for. -/
def askedNames : List String :=
  l.analyses.values.flatMap fun a =>
    (a.imports.flatMap fun i => i.specifiers.map (·.imported)) ++
      a.exports.filterMap fun
        | .reExport _ imported _ => some imported
        | _ => none

/-- No more exports than this can be followed one through another. -/
def exportBound : Nat := l.analyses.size * l.askedNames.length + 1

/-- What a name that a declaration of a file refers to stands for. -/
def target (file localName : String) : Target :=
  (l.localTarget (l.exportTarget l.exportBound) [] file localName).1

/-- The ids that one name adds to the references of a declaration. A declaration refers to itself
only by its own name. -/
def referenced (a : Analysis) (file : String) (s : Site) (id : CanonicalId) (localName : String) :
    Build (List CanonicalId) :=
  match l.target file localName with
  | .declarations ids => .ok (ids.filter fun t => t ≠ id || s.structuralPath = localName)
  | .value | .outside => .ok []
  | .missing reason =>
    .error (.unresolvedReference id localName (((a.importOf? localName).map (·.1)).getD "") reason)

def sortedIds (ids : List CanonicalId) : List CanonicalId :=
  (Dict.sortedTexts (ids.map (·.text))).map CanonicalId.mk

def linkSite (file : String) (a : Analysis) (s : Site) : Build (List Declaration) :=
  match l.declaration? file s.structuralPath with
  | none => .ok []
  | some id => do
    let references ← s.references.mapM (l.referenced a file s id)
    return [⟨id, s.kind, s.builder, sortedIds references.flatten, file, s.span⟩]

def linkFile (file : String) (a : Analysis) : Build (List Declaration) :=
  (a.declarations.mapM (l.linkSite file a)).map List.flatten

end Linker

/-- The graph of the analysed files, whose keys are their paths. -/
def Graph.build (mode : IdMode) (analyses : Dict Analysis) (onDisk : String → Bool) :
    Build Graph := do
  let l ← (Linker.create mode analyses onDisk).mapError .invalidId
  let declarations ← analyses.toList.mapM fun (file, a) => l.linkFile file a
  return .ofList declarations.flatten

end StaticGql
