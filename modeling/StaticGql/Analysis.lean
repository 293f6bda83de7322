import StaticGql.Declaration

/-!
What one source file says about itself: its imports, its exports, the declarations in it and the
calls that were rejected.
-/

namespace StaticGql

/-- A name bound by an import; `imported` is `default` for a default import and `*` for a
namespace. -/
structure Specifier where
  localName : String
  imported : String
  deriving DecidableEq, Repr

structure Import where
  source : String
  specifiers : List Specifier
  /-- The whole statement, with its semicolon. -/
  span : Span
  deriving DecidableEq, Repr

inductive Export where
  | named (exported localName : String)
  /-- A name of another module passed on; `imported` is `*` for a namespace. -/
  | reExport (exported imported source : String)
  | reExportAll (source : String)
  deriving DecidableEq, Repr

inductive DiagnosticCode where
  | invalidCallPattern
  | invalidDeclarationArgument
  | unknownBuilder
  | deprecatedBuilder
  deriving DecidableEq, Repr

namespace DiagnosticCode

def all : List DiagnosticCode :=
  [invalidCallPattern, invalidDeclarationArgument, unknownBuilder, deprecatedBuilder]

def name : DiagnosticCode → String
  | invalidCallPattern => "INVALID_CALL_PATTERN"
  | invalidDeclarationArgument => "INVALID_DECLARATION_ARGUMENT"
  | unknownBuilder => "UNKNOWN_BUILDER"
  | deprecatedBuilder => "DEPRECATED_BUILDER"

def ofName? (s : String) : Option DiagnosticCode := all.find? (·.name = s)

end DiagnosticCode

structure Diagnostic where
  code : DiagnosticCode
  message : String
  span : Span
  deriving DecidableEq, Repr

namespace Diagnostic

def directCall (marker : String) (span : Span) : Diagnostic :=
  ⟨.invalidCallPattern,
    s!"'{marker}' must be called through a member such as '{marker}.default(...)'", span⟩

def notAFunction (callee : String) (span : Span) : Diagnostic :=
  ⟨.invalidDeclarationArgument,
    s!"'{callee}' expects a single arrow function or function expression", span⟩

def unknownBuilder (builder : String) (span : Span) : Diagnostic :=
  ⟨.unknownBuilder,
    s!"'{builder}' is not a model, slice, operation, fragment or define builder", span⟩

def deprecatedBuilder (builder replacement : String) (span : Span) : Diagnostic :=
  ⟨.deprecatedBuilder, s!"'{builder}' is deprecated, use '{replacement}'", span⟩

/-- A deprecation is a warning; anything else rejects its call. -/
def isRejection (d : Diagnostic) : Bool := d.code ≠ .deprecatedBuilder

end Diagnostic

structure Analysis where
  file : String
  imports : List Import
  exports : List Export
  declarations : List Site
  diagnostics : List Diagnostic

namespace Analysis

def empty (file : String) : Analysis := ⟨file, [], [], [], []⟩

def canonicalIds (a : Analysis) (mode : IdMode) : Except IdError (List CanonicalId) :=
  a.declarations.mapM fun site => CanonicalId.create mode a.file site.structuralPath

/-- The import that binds a name, as its source and the name it has there. -/
def importOf? (a : Analysis) (localName : String) : Option (String × Specifier) :=
  a.imports.findSome? fun i =>
    (i.specifiers.find? (·.localName = localName)).map fun s => (i.source, s)

/-- The name bound in this file that goes by `exported` outside. -/
def localExport? (a : Analysis) (exported : String) : Option String :=
  a.exports.findSome? fun
    | .named e l => if e = exported then some l else none
    | _ => none

def isRelativeSource (source : String) : Bool :=
  source.startsWith "./" || source.startsWith "../"

def sources (a : Analysis) : List String :=
  a.imports.map (·.source) ++ a.exports.filterMap fun
    | .reExport _ _ source | .reExportAll source => some source
    | .named .. => none

/-- The relative sources of imports and re-exports in their order, each once. -/
def relativeSources (a : Analysis) : List String :=
  (a.sources.filter isRelativeSource).foldl (fun l s => if s ∈ l then l else l ++ [s]) []

end Analysis
end StaticGql
