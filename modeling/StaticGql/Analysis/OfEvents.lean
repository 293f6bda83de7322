import StaticGql.Builder.Classify
import StaticGql.Event
import StaticGql.Marker
import StaticGql.Trail

/-!
The analysis of a file from the events reported for it.
-/

namespace StaticGql.Analysis

/-- What has been gathered so far; lists are in reverse. -/
structure Gathered where
  trail : Trail
  bindings : List String
  exports : List Export
  declarations : List Site
  diagnostics : List Diagnostic

variable (scope : Marker.Scope) (lines : Text.Lines)

/-- A call with a known builder becomes a declaration at the present place. -/
def Gathered.declare (g : Gathered) (callee : List String) (shape : Builder.Shape)
    (options : List (String × Json)) (names : List String) (span : Span) : Gathered :=
  let diagnostics :=
    match shape.deprecated with
    | some (builder, replacement) =>
      .deprecatedBuilder builder replacement span :: g.diagnostics
    | none => g.diagnostics
  let (path, trail) := g.trail.allocate
  let site : Site :=
    { structuralPath := path
      kind := shape.kind
      builder := ⟨callee, shape.typename, shape.operationType, options⟩
      references := names
      isTopLevel := g.trail.isTopLevel
      exportBinding := none
      span := span }
  { g with trail := trail, declarations := site :: g.declarations, diagnostics := diagnostics }

def Gathered.reject (g : Gathered) (d : Diagnostic) : Gathered :=
  { g with diagnostics := d :: g.diagnostics }

def Gathered.call (g : Gathered) (callee : List String) (shape : CallShape) (names : List String)
    (span : Span) : Gathered :=
  match shape with
  | .notAFunction => g.reject (.notAFunction (".".intercalate callee) span)
  | .builder none _ => g.reject (.unknownBuilder "<expression>" span)
  | .builder (some builder) options =>
    match Builder.classify? builder with
    | none => g.reject (.unknownBuilder (".".intercalate builder) span)
    | some shape => g.declare builder shape options names span

def Gathered.step (g : Gathered) : Event → Gathered
  | .binding name => { g with bindings := name :: g.bindings }
  | .exported e => { g with exports := e :: g.exports }
  | .assignedExport name =>
    let e := Export.named name name
    if e ∈ g.exports then g else { g with exports := e :: g.exports }
  | .enter segment => { g with trail := g.trail.enter segment }
  | .enterAnonymous => { g with trail := g.trail.enterAnonymous }
  | .exit => { g with trail := g.trail.exit }
  | .directCall start stop => g.reject (.directCall scope.identifier (lines.span start stop))
  | .call callee shape names start stop => g.call callee shape names (lines.span start stop)

/-- A name refers to something if the module binds it and it is no root of the marker. -/
def finish (bindings : List String) (exports : List Export) (s : Site) : Site :=
  { s with
    references :=
      Dict.sortedTexts (s.references.filter fun n => n ∈ bindings && !scope.isRoot n)
    exportBinding :=
      if s.isTopLevel then
        exports.findSome? fun
          | .named e l => if l = s.structuralPath then some e else none
          | _ => none
      else none }

/-- The imports come first: they tell by which names the marker goes. -/
def ofEvents (marker : Marker) (file text : String) (imports : List ImportEvent)
    (events : Marker.Scope → List Event) : Analysis :=
  let lines := Text.Lines.ofText text
  let scope := marker.scope (imports.map fun i => (i.source, i.specifiers))
  let start : Gathered := ⟨.start, [], [], [], []⟩
  let g := (events scope).foldl (Gathered.step scope lines) start
  let bindings := (imports.flatMap fun i => i.specifiers.map (·.localName)) ++ g.bindings
  let exports := g.exports.reverse
  { file := file
    imports := imports.map fun i => ⟨i.source, i.specifiers, lines.span i.start i.stop⟩
    exports := exports
    declarations := g.declarations.reverse.map (finish scope bindings exports)
    diagnostics := g.diagnostics.reverse }

end StaticGql.Analysis
