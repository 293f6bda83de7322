import StaticGql.Config
import StaticGql.Json.Basic
import StaticGql.Json.Reader
import StaticGql.Toml
import StaticGql.Toml.Reader

/-!
Configurations as text, in TOML or in JSON. Whatever is left out has its standard value, and unknown
fields are ignored.
-/

namespace StaticGql

open Json

namespace ProjectConfig

def ofJson? (j : Json) : Option ProjectConfig := do
  match ← record [("root", .defaulted), ("entries", .defaulted), ("exclude", .defaulted)] j with
  | [root, entries, exclude] =>
    some ⟨← withDefault standard.root asStr? root,
      ← withDefault standard.entries (listOf asStr?) entries,
      ← withDefault standard.exclude (listOf asStr?) exclude⟩
  | _ => none

def toJson (p : ProjectConfig) : Json :=
  obj [("root", str p.root), ("entries", strs p.entries), ("exclude", strs p.exclude)]

def toToml (p : ProjectConfig) : List (String × Toml.Plain) :=
  [("root", .str p.root), ("entries", .strs p.entries), ("exclude", .strs p.exclude)]

end ProjectConfig

def optPath (name : String) : Option String → List (String × Toml.Plain)
  | none => []
  | some path => [(name, .str path)]

def pathToJson : Option String → Json
  | none => null
  | some path => str path

namespace Marker

def shape : List (String × Presence) :=
  [("identifier", .defaulted), ("import_sources", .defaulted), ("graphql_system_path", .defaulted)]

def ofJson? (j : Json) : Option Marker := do
  match ← record shape j with
  | [identifier, sources, path] =>
    some ⟨← withDefault standard.identifier asStr? identifier,
      ← withDefault standard.importSources (listOf asStr?) sources, ← optional asStr? path⟩
  | _ => none

def toJson (m : Marker) : Json :=
  obj [("identifier", str m.identifier), ("import_sources", strs m.importSources),
    ("graphql_system_path", pathToJson m.systemPath)]

def toToml (m : Marker) : List (String × Toml.Plain) :=
  [("identifier", .str m.identifier), ("import_sources", .strs m.importSources)] ++
    optPath "graphql_system_path" m.systemPath

end Marker

namespace BuildConfig

def shape : List (String × Presence) :=
  [("frontend", .defaulted), ("relative_ids", .defaulted), ("cache_dir", .defaulted),
    ("evaluation", .defaulted), ("follow_imports", .defaulted)]

def ofJson? (j : Json) : Option BuildConfig := do
  match ← record shape j with
  | [frontend, relativeIds, cacheDir, evaluation, followImports] =>
    some ⟨← withDefault standard.frontend (fun j => (constant j).bind Frontend.ofName?) frontend,
      ← withDefault standard.relativeIds asBool? relativeIds, ← optional asStr? cacheDir,
      ← withDefault standard.evaluation (fun j => (constant j).bind Scheduler.ofName?) evaluation,
      ← withDefault standard.followImports asBool? followImports⟩
  | _ => none

def toJson (b : BuildConfig) : Json :=
  obj [("frontend", str b.frontend.name), ("relative_ids", bool b.relativeIds),
    ("cache_dir", pathToJson b.cacheDir), ("evaluation", str b.evaluation.name),
    ("follow_imports", bool b.followImports)]

def toToml (b : BuildConfig) : List (String × Toml.Plain) :=
  [("frontend", .str b.frontend.name), ("relative_ids", .bool b.relativeIds)] ++
    optPath "cache_dir" b.cacheDir ++
    [("evaluation", .str b.evaluation.name), ("follow_imports", .bool b.followImports)]

end BuildConfig

namespace TransformConfig

def shape : List (String × Presence) :=
  [("mode", .defaulted), ("module_format", .defaulted), ("runtime_module", .defaulted)]

def ofJson? (j : Json) : Option TransformConfig := do
  match ← record shape j with
  | [mode, format, runtimeModule] =>
    some ⟨← withDefault standard.mode (fun j => (constant j).bind TransformMode.ofName?) mode,
      ← withDefault standard.moduleFormat (fun j => (constant j).bind ModuleFormat.ofName?) format,
      ← withDefault standard.runtimeModule asStr? runtimeModule⟩
  | _ => none

def toJson (t : TransformConfig) : Json :=
  obj [("mode", str t.mode.name), ("module_format", str t.moduleFormat.name),
    ("runtime_module", str t.runtimeModule)]

def toToml (t : TransformConfig) : List (String × Toml.Plain) :=
  [("mode", .str t.mode.name), ("module_format", .str t.moduleFormat.name),
    ("runtime_module", .str t.runtimeModule)]

end TransformConfig

namespace Config

def shape : List (String × Presence) :=
  [("project", .defaulted), ("marker", .defaulted), ("build", .defaulted),
    ("transform", .defaulted)]

def ofJson? (j : Json) : Option Config := do
  match ← record shape j with
  | [project, marker, build, transform] =>
    some ⟨← withDefault .standard ProjectConfig.ofJson? project,
      ← withDefault .standard Marker.ofJson? marker,
      ← withDefault .standard BuildConfig.ofJson? build,
      ← withDefault .standard TransformConfig.ofJson? transform⟩
  | _ => none

def toJson (c : Config) : Json :=
  obj [("project", c.project.toJson), ("marker", c.marker.toJson), ("build", c.build.toJson),
    ("transform", c.transform.toJson)]

def parseJson? (text : String) : Option Config := (Json.parse? text).bind ofJson?

def parseToml? (text : String) : Option Config := (Toml.parse? text).bind fun t => ofJson? t.toJson

/-- The configuration as TOML; paths that are not set are left out. -/
def tomlText (c : Config) : String :=
  Toml.print [("project", c.project.toToml), ("marker", c.marker.toToml),
    ("build", c.build.toToml), ("transform", c.transform.toToml)]

end Config
end StaticGql
