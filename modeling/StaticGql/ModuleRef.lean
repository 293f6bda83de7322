import StaticGql.Path

/-!
References from one module to another by a relative specifier, and the files that one may mean.
-/

namespace StaticGql.ModuleRef

/-- Whether a specifier points into the project rather than at a package. -/
def isRelative (specifier : String) : Bool :=
  specifier.startsWith "./" || specifier.startsWith "../" || specifier = "." || specifier = ".."

def extensions : List String := [".ts", ".tsx", ".mts", ".cts", ".js", ".jsx", ".mjs", ".cjs"]

/-- What a file that is named by an extension of compiled code may be written in. -/
def written : List (String × List String) :=
  [(".js", [".ts", ".tsx"]), (".jsx", [".tsx"]), (".mjs", [".mts"]), (".cjs", [".cts"])]

/-- A text without what it ends in. -/
def stem? (s ending : String) : Option String :=
  let cs := s.toList
  let es := ending.toList
  if es.isSuffixOf cs then some (String.ofList (cs.take (cs.length - es.length))) else none

/-- The files that a specifier may mean, the likeliest first: the path as it stands, the file that
it was compiled from, the path with an extension, and the index of the directory. -/
def candidates (file specifier : String) : List String :=
  let base := Path.join ((Path.parent? file).getD ".") specifier
  let sources := written.flatMap fun (compiled, replacements) =>
    match stem? base compiled with
    | some stem => replacements.map (stem ++ ·)
    | none => []
  base :: sources ++ extensions.map (base ++ ·) ++ extensions.map (base ++ "/index" ++ ·)

/-- The first candidate that exists; a package is none of the project's files. -/
def resolve? (file specifier : String) (is : String → Bool) : Option String :=
  if isRelative specifier then (candidates file specifier).find? is else none

end StaticGql.ModuleRef
