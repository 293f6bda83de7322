import StaticGql.CanonicalId
import StaticGql.Effect

/-!
The errors that end a build, with the code and the text of each.
-/

namespace StaticGql

inductive BuildError where
  | circularDependency (cycle : List CanonicalId)
  | duplicateDocument (name : String) (ids : List CanonicalId)
  | unresolvedReference (source : CanonicalId) (localName specifier reason : String)
  | invalidId (error : IdError)
  | invalidMarkerPattern (pattern reason : String)
  /-- The message is absent where the parser's own words are not part of the contract. -/
  | parseFailed (file : String) (message : String)
  | evaluationFailed (id : CanonicalId) (message : String)
  | asyncEffect (id : CanonicalId)
  | configuration (message : String)
  | io (path message : String)
  deriving DecidableEq, Repr

inductive ErrorCategory where
  | structural
  | resolution
  | configuration
  | runtime
  deriving DecidableEq, Repr

def ErrorCategory.name : ErrorCategory → String
  | structural => "Structural"
  | resolution => "Resolution"
  | configuration => "Configuration"
  | runtime => "Runtime"

namespace BuildError

def ofEvaluation (id : CanonicalId) : EvaluationError → BuildError
  | .failed message => evaluationFailed id message
  | .asyncInSync => asyncEffect id

def code : BuildError → String
  | circularDependency _ => "CIRCULAR_DEPENDENCY"
  | duplicateDocument .. => "DOC_DUPLICATE"
  | unresolvedReference .. => "UNRESOLVED_REFERENCE"
  | invalidId e => e.code
  | invalidMarkerPattern .. => "INVALID_MARKER_PATTERN"
  | parseFailed .. => "PARSE_FAILED"
  | evaluationFailed .. => "EVALUATION_FAILED"
  | asyncEffect _ => "ASYNC_EFFECT_IN_SYNC_SCHEDULER"
  | configuration _ => "CONFIG_ERROR"
  | io .. => "IO_ERROR"

def category : BuildError → ErrorCategory
  | circularDependency _ | duplicateDocument .. => .structural
  | unresolvedReference .. | evaluationFailed .. | asyncEffect _ => .resolution
  | invalidId _ | invalidMarkerPattern .. | configuration _ => .configuration
  | parseFailed .. | io .. => .runtime

def joinIds (ids : List CanonicalId) : String := " -> ".intercalate (ids.map (·.text))

def message : BuildError → String
  | circularDependency cycle => "circular dependency detected: " ++ joinIds cycle
  | duplicateDocument name ids => s!"duplicate document name '{name}' declared by " ++ joinIds ids
  | unresolvedReference source localName _ reason =>
    s!"unresolved reference '{localName}' in {source.text}: {reason}"
  | invalidId e => e.message
  | invalidMarkerPattern pattern reason => s!"invalid marker pattern '{pattern}': {reason}"
  | parseFailed file message => s!"failed to parse {file}: {message}"
  | evaluationFailed id message => s!"evaluation of {id.text} failed: {message}"
  | asyncEffect id =>
    s!"{id.text} produced an asynchronous effect under the synchronous scheduler"
  | configuration message => s!"configuration error: {message}"
  | io path message => s!"I/O error on {path}: {message}"

def idsJson (ids : List CanonicalId) : Json := Json.strs (ids.map (·.text))

/-- What an error says beside its code and its text. -/
def details : BuildError → List (String × Json)
  | circularDependency cycle => [("cycle", idsJson cycle)]
  | duplicateDocument name ids => [("name", .str name), ("canonicalIds", idsJson ids)]
  | unresolvedReference source localName specifier _ =>
    [("canonicalId", .str source.text), ("local", .str localName), ("specifier", .str specifier)]
  | invalidId (.requiresAbsolutePath path) => [("path", .str path)]
  | invalidId (.malformed _) => []
  | invalidMarkerPattern pattern _ => [("pattern", .str pattern)]
  | parseFailed file _ => [("file", .str file)]
  | evaluationFailed id _ | asyncEffect id => [("canonicalId", .str id.text)]
  | configuration _ => []
  | io path _ => [("path", .str path)]

def payload (e : BuildError) : Json :=
  .obj [("error", Json.sorted (.obj
    ([("code", .str e.code), ("message", .str e.message)] ++ e.details)))]

end BuildError

abbrev Build := Except BuildError

end StaticGql
