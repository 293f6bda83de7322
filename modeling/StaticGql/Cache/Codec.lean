import StaticGql.Analysis.Codec
import StaticGql.Cache
import StaticGql.Json.Reader

/-!
Caches as JSON text. A text of another version, of another configuration, or that is no cache at
all counts as an empty cache.
-/

namespace StaticGql

open Json

namespace Fingerprint

def toJson (f : Fingerprint) : Json :=
  obj [("file_hash", str f.hash), ("modified_time", nat f.modified), ("file_size", nat f.size)]

def shape : List (String × Presence) :=
  [("file_hash", .required), ("modified_time", .required), ("file_size", .required)]

def ofJson? (j : Json) : Option Fingerprint := do
  match ← record shape j with
  | [hash, modified, size] =>
    some ⟨← needed asStr? hash, ← needed word modified, ← needed word size⟩
  | _ => none

end Fingerprint

namespace CacheEntry

def toJson (e : CacheEntry) : Json :=
  obj [("fingerprint", e.fingerprint.toJson), ("analysis", e.analysis.toJson),
    ("canonicalIds", strs (e.ids.map (·.text)))]

def shape : List (String × Presence) :=
  [("fingerprint", .required), ("analysis", .required), ("canonicalIds", .required)]

def ofJson? (j : Json) : Option CacheEntry := do
  match ← record shape j with
  | [fingerprint, analysis, ids] =>
    some ⟨← needed Fingerprint.ofJson? fingerprint, ← needed Analysis.ofJson? analysis,
      (← needed (listOf asStr?) ids).map CanonicalId.mk⟩
  | _ => none

end CacheEntry

namespace Cache

/-- It changes with the form of what is stored. -/
def version : Nat := 1

/-- The name of the file in the directory of the cache. -/
def fileName : String := "tessera-cache.json"

def toJson (c : Cache) : Json :=
  obj [("version", nat version), ("key", str c.key),
    ("entries", obj (c.entries.toList.map fun (path, e) => (path, e.toJson)))]

def entriesOfJson? : Json → Option (Dict CacheEntry)
  | obj fields =>
    (fields.mapM fun (f : String × Json) => (CacheEntry.ofJson? f.2).map (f.1, ·)).map Dict.ofList
  | _ => none

def ofJson? (j : Json) : Option Cache := do
  match ← record [("version", .required), ("key", .required), ("entries", .required)] j with
  | [v, key, entries] =>
    let v ← needed word v
    let key ← needed asStr? key
    let entries ← needed entriesOfJson? entries
    if v = version then some ⟨key, entries⟩ else none
  | _ => none

def text (c : Cache) : String := c.toJson.compact

/-- The cache that a text holds for a configuration. -/
def ofText (key text : String) : Cache :=
  match ((Json.parse? text).bind ofJson?).filter (·.key = key) with
  | some c => c
  | none => .empty key

end Cache
end StaticGql
