import StaticGql.Analysis
import StaticGql.Json.Basic

/-!
Analyses as JSON. Reading undoes writing; a value that is missing a field or holds one of another
type is refused as a whole.
-/

namespace StaticGql

open Json

namespace Span

def toJson (s : Span) : Json :=
  obj [("start", nat s.start), ("end", nat s.stop), ("line", nat s.line), ("column", nat s.column)]

def shape : List (String × Presence) :=
  [("start", .required), ("end", .required), ("line", .required), ("column", .required)]

def ofJson? (j : Json) : Option Span := do
  match ← record shape j with
  | [start, stop, line, column] =>
    some ⟨← needed word start, ← needed word stop, ← needed word line, ← needed word column⟩
  | _ => none

end Span

namespace Specifier

def toJson (s : Specifier) : Json := obj [("local", str s.localName), ("imported", str s.imported)]

def ofJson? (j : Json) : Option Specifier := do
  match ← record [("local", .required), ("imported", .required)] j with
  | [localName, imported] => some ⟨← needed asStr? localName, ← needed asStr? imported⟩
  | _ => none

end Specifier

namespace Import

def toJson (i : Import) : Json :=
  obj [("source", str i.source), ("specifiers", arr (i.specifiers.map Specifier.toJson)),
    ("span", i.span.toJson)]

def ofJson? (j : Json) : Option Import := do
  match ← record [("source", .required), ("specifiers", .required), ("span", .required)] j with
  | [source, specifiers, span] =>
    some ⟨← needed asStr? source, ← needed (listOf Specifier.ofJson?) specifiers,
      ← needed Span.ofJson? span⟩
  | _ => none

end Import

namespace Export

def toJson : Export → Json
  | named e l => obj [("kind", str "local"), ("exported", str e), ("local", str l)]
  | reExport e i s =>
    obj [("kind", str "reExport"), ("exported", str e), ("imported", str i), ("source", str s)]
  | reExportAll s => obj [("kind", str "reExportAll"), ("source", str s)]

def ofJson? (j : Json) : Option Export := do
  let (kind, body) ← tagged "kind" j
  if kind = "local" then
    match ← record [("exported", .required), ("local", .required)] body with
    | [e, l] => some (.named (← needed asStr? e) (← needed asStr? l))
    | _ => none
  else if kind = "reExport" then
    match ← record [("exported", .required), ("imported", .required), ("source", .required)]
        body with
    | [e, i, s] => some (.reExport (← needed asStr? e) (← needed asStr? i) (← needed asStr? s))
    | _ => none
  else if kind = "reExportAll" then
    match ← record [("source", .required)] body with
    | [s] => some (.reExportAll (← needed asStr? s))
    | _ => none
  else none

end Export

def Kind.ofJson? (j : Json) : Option Kind := (constant j).bind Kind.ofName?

namespace Builder

def toJson (b : Builder) : Json :=
  obj ([("callee", strs b.callee)] ++ optField "typename" (b.typename.map str) ++
    optField "operationType" (b.operationType.map str) ++ [("options", obj b.options)])

/-- The fields of a JSON object in the order of their names. -/
def options? (j : Json) : Option (List (String × Json)) := j.sorted.asObj?

def shape : List (String × Presence) :=
  [("callee", .required), ("typename", .defaulted), ("operationType", .defaulted),
    ("options", .defaulted)]

def ofJson? (j : Json) : Option Builder := do
  match ← record shape j with
  | [callee, typename, operationType, options] =>
    some ⟨← needed (listOf asStr?) callee, ← optional asStr? typename,
      ← optional asStr? operationType, ← withDefault [] options? options⟩
  | _ => none

end Builder

namespace Site

def toJson (s : Site) : Json :=
  obj ([("structuralPath", str s.structuralPath), ("kind", str s.kind.name),
    ("builder", s.builder.toJson), ("references", strs s.references),
    ("isTopLevel", bool s.isTopLevel)] ++ optField "exportBinding" (s.exportBinding.map str) ++
    [("span", s.span.toJson)])

def shape : List (String × Presence) :=
  [("structuralPath", .required), ("kind", .required), ("builder", .required),
    ("references", .required), ("isTopLevel", .required), ("exportBinding", .defaulted),
    ("span", .required)]

def ofJson? (j : Json) : Option Site := do
  match ← record shape j with
  | [path, kind, builder, references, isTopLevel, exportBinding, span] =>
    some ⟨← needed asStr? path, ← needed Kind.ofJson? kind, ← needed Builder.ofJson? builder,
      ← needed (listOf asStr?) references, ← needed asBool? isTopLevel,
      ← optional asStr? exportBinding, ← needed Span.ofJson? span⟩
  | _ => none

end Site

namespace Diagnostic

def toJson (d : Diagnostic) : Json :=
  obj [("code", str d.code.name), ("message", str d.message), ("span", d.span.toJson)]

def ofJson? (j : Json) : Option Diagnostic := do
  match ← record [("code", .required), ("message", .required), ("span", .required)] j with
  | [code, message, span] =>
    some ⟨← needed (fun j => (constant j).bind DiagnosticCode.ofName?) code,
      ← needed asStr? message, ← needed Span.ofJson? span⟩
  | _ => none

end Diagnostic

namespace Analysis

def toJson (a : Analysis) : Json :=
  obj [("filePath", str a.file), ("imports", arr (a.imports.map Import.toJson)),
    ("exports", arr (a.exports.map Export.toJson)),
    ("declarations", arr (a.declarations.map Site.toJson)),
    ("diagnostics", arr (a.diagnostics.map Diagnostic.toJson))]

def shape : List (String × Presence) :=
  [("filePath", .required), ("imports", .required), ("exports", .required),
    ("declarations", .required), ("diagnostics", .required)]

def ofJson? (j : Json) : Option Analysis := do
  match ← record shape j with
  | [file, imports, exports, declarations, diagnostics] =>
    some ⟨← needed asStr? file, ← needed (listOf Import.ofJson?) imports,
      ← needed (listOf Export.ofJson?) exports, ← needed (listOf Site.ofJson?) declarations,
      ← needed (listOf Diagnostic.ofJson?) diagnostics⟩
  | _ => none

end Analysis
end StaticGql
