import StaticGql.Artifact
import StaticGql.Json.Basic
import StaticGql.Json.Printer
import StaticGql.Json.Reader

/-!
Artifacts as JSON text. The stable form leaves out times and counts, so that one project always
gives one text.
-/

namespace StaticGql

open Json

def variablesToJson (v : Dict String) : Json := obj (v.toList.map fun (k, t) => (k, str t))

def variablesOfJson? : Json → Option (Dict String)
  | obj fields => (fields.mapM fun (f : String × Json) => f.2.asStr?.map (f.1, ·)).map Dict.ofList
  | _ => none

def idsToJson (ids : List CanonicalId) : Json := strs (ids.map (·.text))

def idsOfJson? : Json → Option (List CanonicalId) := listOf fun j => j.asStr?.map CanonicalId.mk

namespace FragmentElement

def fieldsToJson (e : FragmentElement) : List (String × Json) :=
  [("name", str e.name), ("typename", str e.typename), ("fields", strs e.fields),
    ("variables", variablesToJson e.variableTypes), ("definition", str e.definition),
    ("document", str e.document), ("dependencies", idsToJson e.dependencies)]

def shape : List (String × Presence) :=
  [("name", .required), ("typename", .required), ("fields", .required), ("variables", .defaulted),
    ("definition", .required), ("document", .required), ("dependencies", .required)]

def ofJson? (j : Json) : Option FragmentElement := do
  match ← record shape j with
  | [name, typename, fields, variableTypes, definition, document, dependencies] =>
    some ⟨← needed asStr? name, ← needed asStr? typename, ← needed (listOf asStr?) fields,
      ← withDefault ∅ variablesOfJson? variableTypes, ← needed asStr? definition,
      ← needed asStr? document, ← needed idsOfJson? dependencies⟩
  | _ => none

end FragmentElement

namespace SliceElement

def fieldsToJson (e : SliceElement) : List (String × Json) :=
  [("operationType", str e.operationType), ("fields", strs e.fields), ("spreads", strs e.spreads),
    ("variables", variablesToJson e.variableTypes), ("document", str e.document),
    ("dependencies", idsToJson e.dependencies)]

def shape : List (String × Presence) :=
  [("operationType", .required), ("fields", .required), ("spreads", .required),
    ("variables", .defaulted), ("document", .required), ("dependencies", .required)]

def ofJson? (j : Json) : Option SliceElement := do
  match ← record shape j with
  | [operationType, fields, spreads, variableTypes, document, dependencies] =>
    some ⟨← needed asStr? operationType, ← needed (listOf asStr?) fields,
      ← needed (listOf asStr?) spreads, ← withDefault ∅ variablesOfJson? variableTypes,
      ← needed asStr? document, ← needed idsOfJson? dependencies⟩
  | _ => none

end SliceElement

namespace OperationElement

def fieldsToJson (e : OperationElement) : List (String × Json) :=
  [("operationType", str e.operationType), ("operationName", str e.operationName),
    ("variables", variablesToJson e.variableTypes), ("document", str e.document),
    ("dependencies", idsToJson e.dependencies)]

def shape : List (String × Presence) :=
  [("operationType", .required), ("operationName", .required), ("variables", .defaulted),
    ("document", .required), ("dependencies", .required)]

def ofJson? (j : Json) : Option OperationElement := do
  match ← record shape j with
  | [operationType, operationName, variableTypes, document, dependencies] =>
    some ⟨← needed asStr? operationType, ← needed asStr? operationName,
      ← withDefault ∅ variablesOfJson? variableTypes, ← needed asStr? document,
      ← needed idsOfJson? dependencies⟩
  | _ => none

end OperationElement

namespace Element

def toJson (e : Element) : Json :=
  obj (("type", str e.kind.name) ::
    match e with
    | model e | fragment e => e.fieldsToJson
    | slice e => e.fieldsToJson
    | operation e => e.fieldsToJson)

def ofJson? (j : Json) : Option Element := do
  let (kind, body) ← tagged "type" j
  match ← Kind.ofName? kind with
  | .model => (FragmentElement.ofJson? body).map model
  | .fragment => (FragmentElement.ofJson? body).map fragment
  | .slice => (SliceElement.ofJson? body).map slice
  | .operation => (OperationElement.ofJson? body).map operation
  | .define => none

/-- The whole element as one line with its fields in order, which is inlined where no runtime is
wanted. -/
def precomputed (e : Element) : String := e.toJson.sorted.compact

end Element

namespace Warning

def toJson (w : Warning) : Json :=
  obj ([("code", str w.code), ("message", str w.message)] ++ optField "file" (w.file.map str) ++
    optField "canonicalId" (w.canonicalId.map fun id => str id.text))

def shape : List (String × Presence) :=
  [("code", .required), ("message", .required), ("file", .defaulted), ("canonicalId", .defaulted)]

def ofJson? (j : Json) : Option Warning := do
  match ← record shape j with
  | [code, message, file, id] =>
    some ⟨← needed asStr? code, ← needed asStr? message, ← optional asStr? file,
      (← optional asStr? id).map CanonicalId.mk⟩
  | _ => none

end Warning

namespace CacheStats

def toJson (s : CacheStats) : Json :=
  obj [("hits", nat s.hits), ("misses", nat s.misses), ("skips", nat s.skips)]

def ofJson? (j : Json) : Option CacheStats := do
  match ← record [("hits", .required), ("misses", .required), ("skips", .required)] j with
  | [hits, misses, skips] => some ⟨← needed word hits, ← needed word misses, ← needed word skips⟩
  | _ => none

end CacheStats

namespace Report

def toJson (r : Report) : Json :=
  obj [("durationMs", nat r.durationMs), ("warnings", arr (r.warnings.map Warning.toJson)),
    ("stats", r.stats.toJson)]

def shape : List (String × Presence) :=
  [("durationMs", .defaulted), ("warnings", .defaulted), ("stats", .defaulted)]

def ofJson? (j : Json) : Option Report := do
  match ← record shape j with
  | [duration, warnings, stats] =>
    some ⟨← withDefault 0 word duration, ← withDefault [] (listOf Warning.ofJson?) warnings,
      ← withDefault .zero CacheStats.ofJson? stats⟩
  | _ => none

end Report

namespace Artifact

def elementsToJson (elements : Dict Element) : Json :=
  obj (elements.toList.map fun (id, e) => (id, e.toJson))

def elementsOfJson? : Json → Option (Dict Element)
  | obj fields => (fields.mapM fun (f : String × Json) => (Element.ofJson? f.2).map (f.1, ·)).map Dict.ofList
  | _ => none

def toJson (a : Artifact) : Json :=
  obj [("elements", elementsToJson a.elements), ("report", a.report.toJson)]

def stableToJson (a : Artifact) : Json :=
  obj [("elements", elementsToJson a.elements),
    ("report", obj [("warnings", arr (a.report.warnings.map Warning.toJson))])]

def ofJson? (j : Json) : Option Artifact := do
  match ← record [("elements", .required), ("report", .required)] j with
  | [elements, report] =>
    some ⟨← needed elementsOfJson? elements, ← needed Report.ofJson? report⟩
  | _ => none

def text (a : Artifact) : String := a.toJson.pretty

def stableText (a : Artifact) : String := a.stableToJson.pretty

def parse? (text : String) : Option Artifact := (Json.parse? text).bind ofJson?

/-- The first field of an artifact that an object does not have. -/
def missingField? (fields : List (String × Json)) : Option String :=
  ["elements", "report"].find? fun name => !fields.any (·.1 = name)

/-- Line and column of the end of a text, both counted from one, in bytes. -/
def endPosition (consumed : List Char) : Nat × Nat :=
  let last := (consumed.reverse.takeWhile (· ≠ '\n')).reverse
  (consumed.count '\n' + 1, (String.ofList last).utf8ByteSize)

/-- What is told about a text that is no artifact. -/
def fault (text : String) : String :=
  match Json.value maxDepth (skipSpace text.toList) with
  | some (.obj fields, rest) =>
    match missingField? fields with
    | some name =>
      let (line, column) := endPosition (text.toList.take (text.toList.length - rest.length))
      s!"missing field `{name}` at line {line} column {column}"
    | none => "invalid artifact"
  | _ => "invalid artifact"

end Artifact
end StaticGql
