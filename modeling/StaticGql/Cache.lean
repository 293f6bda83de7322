import StaticGql.Analysis
import StaticGql.Blake3
import StaticGql.Config
import StaticGql.Dict
import StaticGql.Json.Printer
import StaticGql.Text.Split

/-!
The cache of a build: the analyses of files by path, each with the fingerprint of the text that it
was made of.
-/

namespace StaticGql

structure CacheEntry where
  fingerprint : Fingerprint
  analysis : Analysis
  ids : List CanonicalId

structure Cache where
  /-- Stands for the configuration that the analyses depend on. -/
  key : String
  entries : Dict CacheEntry

namespace Cache

def empty (key : String) : Cache := ⟨key, ∅⟩

variable (c : Cache)

def entry? (path : String) : Option CacheEntry := c.entries.get? path

/-- The analysis of a file whose content is what it was. -/
def lookup? (path : String) (now : Fingerprint) : Option Analysis :=
  ((c.entry? path).filter fun e => !e.fingerprint.differs now).map (·.analysis)

def insert (path : String) (e : CacheEntry) : Cache := { c with entries := c.entries.insert path e }

/-- Whether there was an entry, and the cache without it. -/
def remove (path : String) : Bool × Cache :=
  (c.entries.contains path, { c with entries := c.entries.erase path })

def retain (paths : List String) : Cache :=
  { c with entries := c.entries.filter fun path _ => path ∈ paths }

def fingerprints : Dict Fingerprint := c.entries.map fun _ e => e.fingerprint

end Cache

namespace Marker

/-- Whether a file can hold declarations or exports at all: it mentions the marker, a source of it,
or exports. -/
def mayContribute (m : Marker) (text : String) : Bool :=
  Text.contains text m.identifier || Text.contains text "export" ||
    m.importSources.any (Text.contains text)

end Marker

namespace Config

/-- What of a configuration changes an analysis. -/
def analysisPart (c : Config) : Json :=
  .obj [("frontend", .str c.build.frontend.name),
    ("marker", .obj [("identifier", .str c.marker.identifier),
      ("importSources", Json.strs c.marker.importSources)]),
    ("relativeIds", .bool c.build.relativeIds),
    ("root", .str (Path.normalize c.project.root))]

def cacheKey (c : Config) : String := Blake3.ofText c.analysisPart.compact

end Config
end StaticGql
